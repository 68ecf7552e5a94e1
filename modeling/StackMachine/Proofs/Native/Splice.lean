import StackMachine.Proofs.Machine.Calls
import StackMachine.Proofs.Native.Twin

/-!
# A leaf in place of its call

Where a leaf was spliced in, the interpreter makes a call: it pushes a frame without locals, which
compiled code does not have, and pops it at the end of the body. `Twin.enterLeaf` and
`Twin.exitLeaf` compare the two.
-/

namespace StackMachine.Native

variable {image : Image} {links : List Link} {checked : Bool} {room : Nat} {w : Workspace}
  {n : Machine}

/-- The frame of a call to a leaf. -/
def leafFrame (callee caller : UInt16) (pc : Nat) : Frame := ⟨callee, caller, some pc, #[]⟩

/-- Without registers and further frames the two sides are the same. -/
theorem Flushed.same (h : Flushed image links [] checked room w n) : Same image links w.machine n :=
  { h.alike with stack := h.stack, bounded := h.operands.bounded }

/-- What entering the frame of a leaf does to a machine. -/
theorem enterFrame_leaf {callee : UInt16} {f : Image.Function} (caller : UInt16) (pc : Nat)
    (hf : image.function? callee = some f) (ha : f.arity = 0) (hl : f.locals = 0) :
    Machine.enterFrame image callee caller (some pc) n =
      if n.memory.calls.limit ≤ n.memory.calls.frames.size then
        .error (.callStackOverflow n.memory.calls.limit) n
      else .ok () { n with memory := { n.memory with calls :=
        ⟨n.memory.calls.frames.push (leafFrame callee caller pc), n.memory.calls.limit⟩ } } := by
  rw [Machine.enterFrame, hf]
  simp only [ha, hl]
  rw [if_neg (by decide)]
  by_cases hroom : n.memory.calls.limit ≤ n.memory.calls.frames.size
  · have hcheck : Machine.checkRoom n = .error (.callStackOverflow n.memory.calls.limit) n := by
      simp only [Machine.checkRoom, Machine.inspect, CallStack.checkRoom, if_pos hroom]
    rw [if_pos hroom, bind_of_error hcheck]
  · have hcheck : Machine.checkRoom n = .ok () n := by
      simp only [Machine.checkRoom, Machine.inspect, CallStack.checkRoom, if_neg hroom]
    have hargs : Machine.popArguments (if (some pc).isSome then (0 : UInt8).toNat else 0) [] n =
        .ok [] n := rfl
    rw [if_neg hroom, bind_of_ok hcheck, bind_of_ok hargs, Machine.onCalls_eq, CallStack.push,
      if_neg hroom]
    rfl

/-- Entering a leaf needs what the call would have needed: room for a frame. -/
theorem Twin.enterLeaf {callee : UInt16} {f : Image.Function} (caller : UInt16) (pc : Nat)
    (hf : image.function? callee = some f) (ha : f.arity = 0) (hl : f.locals = 0)
    (h : Twin image links [] checked room w n) :
    Paired (fun flow r w n => flow = .next ∧ r = none ∧
        Twin image links [leafFrame callee caller pc] checked room w n) (Fallen image)
      (Workspace.execute checked (.enterLeaf callee) w)
      (Machine.enterCall image callee caller (some pc) n) := by
  rw [Machine.enterCall_of_off h.alike.off]
  have hframe := enterFrame_leaf (n := n) caller pc hf ha hl
  have hcalls := h.alike.calls
  by_cases hroom : n.memory.calls.limit ≤ n.memory.calls.frames.size
  · have hcheck : Workspace.onMachine Machine.checkRoom w =
        .error (.callStackOverflow n.memory.calls.limit) w := by
      simp only [Workspace.onMachine_eq, Machine.checkRoom, Machine.inspect, CallStack.checkRoom,
        hcalls, if_pos hroom]
    rw [if_pos hroom] at hframe
    rw [bind_of_error hframe]
    change Paired _ _ ((Workspace.onMachine Machine.checkRoom >>= fun _ => pure Flow.next) w) _
    rw [bind_of_error hcheck]
    exact ⟨rfl, h.alike.toAgrees⟩
  · have hcheck : Workspace.onMachine Machine.checkRoom w = .ok () w := by
      simp only [Workspace.onMachine_eq, Machine.checkRoom, Machine.inspect, CallStack.checkRoom,
        hcalls, if_neg hroom]
    rw [if_neg hroom] at hframe
    rw [bind_of_ok hframe]
    change Paired _ _ ((Workspace.onMachine Machine.checkRoom >>= fun _ => pure Flow.next) w) _
    rw [bind_of_ok hcheck]
    refine ⟨rfl, rfl, { h.alike with frames := ?_ }, h.operands⟩
    have := h.alike.frames
    simp_all

/-- Taking the top word off and putting it back changes nothing. -/
theorem push_popOrZero {s : OperandStack} (hs : s.isEmpty = false) (hb : s.words.size ≤ s.limit) :
    OperandStack.push s.popOrZero.1 s.popOrZero.2 = .ok () s := by
  obtain ⟨words, limit⟩ := s
  have hpos : 0 < words.size := by
    rw [OperandStack.isEmpty, Array.isEmpty_eq_false_iff] at hs
    exact Array.size_pos_iff.2 hs
  obtain ⟨rest, top, rfl⟩ : ∃ rest top, words = Array.push rest top :=
    ⟨_, _, Array.eq_push_pop_back!_of_size_ne_zero (by omega)⟩
  have hpop : OperandStack.popOrZero ⟨rest.push top, limit⟩ = (top, ⟨rest, limit⟩) := by
    simp [OperandStack.popOrZero]
  simp only [hpop, OperandStack.push]
  rw [if_neg (by simp at hb; omega)]

/-- What a return from a leaf does to the interpreting machine: the frame goes, and a zero is pushed
    if there is no operand. The top word, if there is one, is taken off and put back. -/
theorem leaveFrame_leaf {callee caller : UInt16} {pc : Nat} {frames : List Frame}
    (hf : n.memory.calls.frames.toList = frames ++ [leafFrame callee caller pc])
    (hb : n.memory.stack.words.size ≤ n.memory.stack.limit) :
    Machine.leaveFrame n =
      (if n.memory.stack.isEmpty then do
          Machine.push .zero
          return Machine.Return.resume caller pc
        else return Machine.Return.resume caller pc : Action _)
        { n with memory := { n.memory with
          calls := ⟨n.memory.calls.frames.pop, n.memory.calls.limit⟩ } } := by
  have hback : n.memory.calls.frames.back? = some (leafFrame callee caller pc) := by
    rw [← Array.getLast?_toList, hf, List.getLast?_concat]
  rw [Machine.leaveFrame, bind_of_ok (Machine.popOrZero_eq n)]
  have hpop : CallStack.pop n.memory.calls =
      .ok (leafFrame callee caller pc) ⟨n.memory.calls.frames.pop, n.memory.calls.limit⟩ := by
    simp only [CallStack.pop, hback]
  have hcalls : Machine.onCalls CallStack.pop
        { n with memory := { n.memory with stack := n.memory.stack.popOrZero.2 } } =
      .ok (leafFrame callee caller pc) { n with memory := { n.memory with
        stack := n.memory.stack.popOrZero.2
        calls := ⟨n.memory.calls.frames.pop, n.memory.calls.limit⟩ } } := by
    rw [Machine.onCalls_eq, hpop]
  rw [bind_of_ok hcalls]
  cases hs : n.memory.stack.isEmpty with
  | false =>
    have hpush : Machine.push n.memory.stack.popOrZero.1 { n with memory := { n.memory with
          stack := n.memory.stack.popOrZero.2
          calls := ⟨n.memory.calls.frames.pop, n.memory.calls.limit⟩ } } =
        .ok () { n with memory := { n.memory with
          calls := ⟨n.memory.calls.frames.pop, n.memory.calls.limit⟩ } } := by
      rw [Machine.push, Machine.onStack_eq, push_popOrZero hs hb]
    exact bind_of_ok hpush
  | true =>
    have hzero : n.memory.stack.popOrZero = (.zero, n.memory.stack) := by
      have hwords : n.memory.stack.words = #[] := by
        simpa [OperandStack.isEmpty] using hs
      simp [OperandStack.popOrZero, hwords]
    rw [hzero]
    rfl

/-- The end of a leaf leaves what its `ret` leaves. -/
theorem Twin.exitLeaf {callee caller : UInt16} {pc : Nat}
    (h : Twin image links [leafFrame callee caller pc] checked (room + 1) w n) :
    Paired (fun flow r w n => flow = .next ∧ r = .resume caller pc ∧
        Twin image links [] checked room w n) (Fallen image)
      (Workspace.execute checked .exitLeaf w) (Machine.leaveFrame n) := by
  rw [leaveFrame_leaf h.alike.frames h.operands.bounded]
  have hframes : n.memory.calls.frames.pop.toList = w.machine.memory.calls.frames.toList ++ [] := by
    simp [h.alike.frames]
  have hpopped : Twin image links [] checked (room + 1) w { n with memory := { n.memory with
      calls := ⟨n.memory.calls.frames.pop, n.memory.calls.limit⟩ } } :=
    ⟨{ h.alike with frames := hframes }, h.operands⟩
  have hops : w.hasOperands = !n.memory.stack.isEmpty := by
    rw [Workspace.hasOperands, h.operands.isEmpty]
  change Paired _ _ ((if w.hasOperands then pure Flow.next
    else do Workspace.push checked .zero; return Flow.next : Work Flow) w) _
  cases hs : n.memory.stack.isEmpty with
  | false =>
    rw [if_pos (by rw [hops, hs]; rfl)]
    exact ⟨rfl, rfl, hpopped.alike, hpopped.operands.anti fun _ => by omega⟩
  | true =>
    rw [if_neg (by rw [hops, hs]; simp)]
    exact hpopped.push.bind fun _ _ _ _ h => ⟨rfl, rfl, h⟩

end StackMachine.Native
