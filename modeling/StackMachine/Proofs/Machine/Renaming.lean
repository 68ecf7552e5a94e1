import StackMachine.Proofs.Heap.Collection
import StackMachine.Proofs.Heap.Renaming
import StackMachine.Proofs.Machine.Calls

/-!
# Machines up to the names of arrays

Two machines that interpret the same program, of which the first never collects. They
`Correspond` when a one-to-one relation between handles carries everything that the first machine
holds to what the second one holds: operands, locals, globals and the arrays they lead to.

The actions that instructions are made of keep the correspondence, as long as the words that they
compute with are not handles. Only an allocation changes the relation: the second machine may
collect, which leaves what can be reached, and then both have one more array.
-/

namespace StackMachine

/-! ## Corresponding machines -/

/-- Two stacks with related words. -/
structure OperandStack.Matched (β : Handle → Handle → Prop) (s t : OperandStack) : Prop where
  words : Pointwise (Related β) s.words t.words
  limit : s.limit = t.limit

/-- Two frames of one call, with related locals. -/
structure Frame.Matched (β : Handle → Handle → Prop) (f g : Frame) : Prop where
  function : f.function = g.function
  returnFunction : f.returnFunction = g.returnFunction
  returnAddress : f.returnAddress = g.returnAddress
  locals : Pointwise (Related β) f.locals g.locals

/-- Call stacks of the same frames, up to the handles in their locals. -/
structure CallStack.Matched (β : Handle → Handle → Prop) (s t : CallStack) : Prop where
  frames : Pointwise (Frame.Matched β) s.frames t.frames
  limit : s.limit = t.limit

/-- Two returns lead to the same place, or out of the program with related values. -/
inductive Machine.Return.Matched (β : Handle → Handle → Prop) : Return → Return → Prop
  | resume (function pc) : Matched β (.resume function pc) (.resume function pc)
  | finish {v w} (h : Related β v w) : Matched β (.finish v) (.finish w)

/-- The machine `n` holds what `m` holds, up to the names of arrays. -/
structure Corresponds (β : Handle → Handle → Prop) (m n : Machine) : Prop where
  stack : m.memory.stack.Matched β n.memory.stack
  calls : m.memory.calls.Matched β n.memory.calls
  globals : Pointwise (Related β) m.memory.globals.words n.memory.globals.words
  heap : m.memory.heap.Matched β n.memory.heap
  console : m.console = n.console
  off : m.promotion.mode = .off
  off' : n.promotion.mode = .off

/-- The machines correspond by some relation. -/
def Corresponding (m n : Machine) : Prop := ∃ β, Corresponds β m n

/-- What a pop does to the machine. -/
structure Popped (m : Machine) (v : Word) (m' : Machine) : Prop where
  top : m.memory.stack.fromTop? 0 = some v
  rest : ∀ k, m'.memory.stack.fromTop? k = m.memory.stack.fromTop? (k + 1)
  heap : m'.memory.heap = m.memory.heap

namespace Corresponds

variable {β : Handle → Handle → Prop} {m n : Machine} {v w : Word} {α : Type}

/-! ## Operands -/

/-- Words are pushed if there is room for them. -/
theorem push (h : Corresponds β m n)
    (hvw : m.memory.stack.words.size < m.memory.stack.limit → Related β v w) :
    Paired (fun _ _ => Corresponds β) (Corresponds β) (Machine.push v m) (Machine.push w n) := by
  rw [Machine.push, Machine.push, Machine.onStack_eq, Machine.onStack_eq, OperandStack.push,
    OperandStack.push, ← h.stack.words.size_eq, ← h.stack.limit]
  split_ifs with hfull
  · exact ⟨rfl, h⟩
  · exact { h with stack := ⟨h.stack.words.push (hvw (not_le.1 hfull)), rfl⟩ }

theorem pop (h : Corresponds β m n) :
    Paired (fun v w m' n' => Related β v w ∧ Popped m v m' ∧ Corresponds β m' n') (Corresponds β)
      (Machine.pop m) (Machine.pop n) := by
  rw [Machine.pop, Machine.onStack_eq, Machine.onStack_eq, OperandStack.pop, OperandStack.pop]
  obtain ⟨hm, hn⟩ | ⟨v, w, hm, hn, hvw⟩ := h.stack.words.back?_cases
  · rw [hm, hn]
    exact ⟨rfl, h⟩
  · rw [hm, hn]
    rw [OperandStack.back?_eq_fromTop?] at hm
    exact ⟨hvw, ⟨hm, fun k => OperandStack.fromTop?_pop, rfl⟩,
      { h with stack := ⟨h.stack.words.pop, h.stack.limit⟩ }⟩

theorem popOrZero (h : Corresponds β m n) :
    Paired (fun v w m' n' => Related β v w ∧ Corresponds β m' n') (Corresponds β)
      (Machine.popOrZero m) (Machine.popOrZero n) := by
  rw [Machine.popOrZero_eq, Machine.popOrZero_eq, OperandStack.popOrZero, OperandStack.popOrZero]
  obtain ⟨hm, hn⟩ | ⟨v, w, hm, hn, hvw⟩ := h.stack.words.back?_cases
  · rw [hm, hn]
    exact ⟨.zero, h⟩
  · rw [hm, hn]
    exact ⟨hvw, { h with stack := ⟨h.stack.words.pop, h.stack.limit⟩ }⟩

/-! ## Other parts -/

/-- Looking up something that corresponds. -/
theorem inspect {γ : Type} {f : Machine → Except Fault α} {g : Machine → Except Fault γ}
    {R : α → γ → Prop} (h : Corresponds β m n) (hfg : Lookups R (f m) (g n)) :
    Paired (fun a b m' n' => R a b ∧ Corresponds β m' n') (Corresponds β) (Machine.inspect f m)
      (Machine.inspect g n) := by
  unfold Machine.inspect
  obtain ⟨a, b, hm, hn, hab⟩ | ⟨e, hm, hn⟩ := hfg.cases
  · rw [hm, hn]
    exact ⟨hab, h⟩
  · rw [hm, hn]
    exact ⟨rfl, h⟩

theorem peek (h : Corresponds β m n) :
    Paired (fun v w m' n' => Related β v w ∧ Corresponds β m' n') (Corresponds β) (Machine.peek m)
      (Machine.peek n) := by
  refine h.inspect ?_
  unfold OperandStack.peek
  obtain ⟨hm, hn⟩ | ⟨v, w, hm, hn, hvw⟩ := h.stack.words.back?_cases
  · rw [hm, hn]
    exact .missing _
  · rw [hm, hn]
    exact .found hvw

theorem onConsole (act : EStateM Fault Console α) (h : Corresponds β m n) :
    Paired (fun a b m' n' => a = b ∧ Corresponds β m' n') (Corresponds β) (Machine.onConsole act m)
      (Machine.onConsole act n) := by
  rw [Machine.onConsole_eq, Machine.onConsole_eq, ← h.console]
  cases act m.console with
  | ok a console => exact ⟨rfl, { h with console := rfl }⟩
  | error e console => exact ⟨rfl, { h with console := rfl }⟩

/-! ## Locals and globals -/

theorem loadLocal (index : UInt8) (h : Corresponds β m n) :
    Paired (fun v w m' n' => Related β v w ∧ Corresponds β m' n') (Corresponds β)
      (Machine.loadLocal index m) (Machine.loadLocal index n) := by
  refine h.inspect ?_
  unfold CallStack.loadLocal
  obtain ⟨hm, hn⟩ | ⟨f, g, hm, hn, hf⟩ := h.calls.frames.back?_cases
  · rw [hm, hn]
    exact .missing _
  · rw [hm, hn]
    dsimp only [Frame.load]
    cases hi : f.locals[index.toNat]? with
    | none =>
      rw [hf.locals.get_none hi, hf.locals.size_eq]
      exact .missing _
    | some v =>
      obtain ⟨w, hw, hvw⟩ := hf.locals.get hi
      rw [hw]
      exact .found hvw

theorem storeLocal (index : UInt8) (h : Corresponds β m n) (hvw : Related β v w) :
    Paired (fun _ _ => Corresponds β) (Corresponds β) (Machine.storeLocal index v m)
      (Machine.storeLocal index w n) := by
  rw [Machine.storeLocal, Machine.storeLocal, Machine.onCalls_eq, Machine.onCalls_eq,
    CallStack.storeLocal, CallStack.storeLocal]
  obtain ⟨hm, hn⟩ | ⟨f, g, hm, hn, hf⟩ := h.calls.frames.back?_cases
  · rw [hm, hn]
    exact ⟨rfl, h⟩
  · rw [hm, hn]
    simp only [hf.locals.size_eq, h.calls.frames.size_eq]
    split_ifs
    · refine { h with calls := ⟨h.calls.frames.modify _ fun _ _ hfg => ?_, h.calls.limit⟩ }
      exact { hfg with locals := hfg.locals.setIfInBounds hvw _ }
    · exact ⟨rfl, h⟩

theorem loadGlobal (index : UInt16) (h : Corresponds β m n) :
    Paired (fun v w m' n' => Related β v w ∧ Corresponds β m' n') (Corresponds β)
      (Machine.loadGlobal index m) (Machine.loadGlobal index n) := by
  refine h.inspect ?_
  unfold Globals.load
  cases hi : m.memory.globals.words[index.toNat]? with
  | none =>
    rw [h.globals.get_none hi, h.globals.size_eq]
    exact .missing _
  | some v =>
    obtain ⟨w, hw, hvw⟩ := h.globals.get hi
    rw [hw]
    exact .found hvw

theorem storeGlobal (index : UInt16) (h : Corresponds β m n) (hvw : Related β v w) :
    Paired (fun _ _ => Corresponds β) (Corresponds β) (Machine.storeGlobal index v m)
      (Machine.storeGlobal index w n) := by
  rw [Machine.storeGlobal, Machine.storeGlobal, Machine.onGlobals_eq, Machine.onGlobals_eq,
    Globals.store, Globals.store]
  simp only [h.globals.size_eq]
  split_ifs
  · exact { h with globals := h.globals.setIfInBounds hvw _ }
  · exact ⟨rfl, h⟩

/-! ## Arrays -/

theorem loadElement (index : Word) (h : Corresponds β m n) (hvw : Related β v w) :
    Paired (fun x y m' n' => Related β x y ∧ Corresponds β m' n') (Corresponds β)
      (Machine.loadElement v index m) (Machine.loadElement w index n) :=
  h.inspect (h.heap.load hvw index)

theorem storeElement {x y : Word} (index : Word) (h : Corresponds β m n) (hvw : Related β v w)
    (hxy : Related β x y) :
    Paired (fun _ _ => Corresponds β) (Corresponds β) (Machine.storeElement v index x m)
      (Machine.storeElement w index y n) := by
  rw [Machine.storeElement, Machine.storeElement, Machine.onHeap_eq, Machine.onHeap_eq]
  obtain ⟨_, _, g, g', hg, hg', hheap⟩ | ⟨e, g, g', hg, hg', hheap⟩ :=
    (h.heap.store hvw index hxy).cases
  · rw [hg, hg']
    exact { h with heap := hheap }
  · rw [hg, hg']
    exact ⟨rfl, { h with heap := hheap }⟩

/-- Lengths are equal, and too small to look like handles. -/
theorem arrayLength (h : Corresponds β m n) (hvw : Related β v w) :
    Paired (fun x y m' n' => Related β x y ∧ Corresponds β m' n') (Corresponds β)
      (Machine.arrayLength v m) (Machine.arrayLength w n) := by
  refine h.inspect ?_
  rw [← h.heap.length hvw]
  cases hn : m.memory.heap.length v with
  | error e => exact .missing e
  | ok k => exact .found (.plain (Word.handle?_ofNat (h.heap.growing.length_lt hn)))

/-- More handles are related. -/
theorem mono {γ : Handle → Handle → Prop} {g g' : Heap} (h : Corresponds β m n)
    (hroots : ∀ v w, n.memory.IsRoot w → Related β v w → Related γ v w) (hheap : g.Matched γ g') :
    Corresponds γ { m with memory := { m.memory with heap := g } }
      { n with memory := { n.memory with heap := g' } } where
  stack := ⟨h.stack.words.mono fun v _ w hw => hroots v w (.inl hw), h.stack.limit⟩
  calls := ⟨h.calls.frames.mono fun _ _ k hk hf => { hf with
    locals := hf.locals.mono fun v _ w hw => hroots v w (.inr (.inl ⟨k, hk, hw⟩)) }, h.calls.limit⟩
  globals := h.globals.mono fun v _ w hw => hroots v w (.inr (.inr hw))
  heap := hheap
  console := h.console
  off := h.off
  off' := h.off'

/-- The second machine may collect at any time. -/
theorem collect (h : Corresponds β m n) : Corresponding m n.collect.2 := by
  obtain ⟨γ, hheap, hroots⟩ := h.heap.collect n.memory.roots
  rw [Machine.collect_eq, Machine.memory_collect_eq]
  have hmono := h.mono (fun v w hw => hroots v w (Memory.mem_roots.2 hw)) hheap
  exact ⟨γ, { hmono with }⟩

/-- Both machines make an array of the same length. The second one may collect before. -/
theorem newArray (length : Word) (h : Corresponds β m n)
    (hroom : m.memory.heap.slots.size < Heap.slotBound) :
    Paired (fun v w m' n' => ∃ γ, Related γ v w ∧ Corresponds γ m' n') Corresponding
      (Machine.newArray length m) (Machine.newArray length n) := by
  have hdue : Corresponding m (if n.memory.heap.due then n.collect.2 else n) := by
    by_cases hd : n.memory.heap.due
    · rw [if_pos hd]
      exact h.collect
    · rw [if_neg hd]
      exact ⟨β, h⟩
  rw [Machine.newArray_eq, Machine.newArray_eq, h.heap.growing.due_eq, if_neg Bool.false_ne_true]
  obtain ⟨β', h⟩ := hdue
  generalize (if n.memory.heap.due then n.collect.2 else n) = n' at h
  rw [Machine.onHeap_eq, Machine.onHeap_eq]
  obtain ⟨v, w, g, g', hg, hg', γ, hsub, hvw, hheap⟩ | ⟨e, g, g', hg, hg', hheap⟩ :=
    (h.heap.alloc length.toInt hroom).cases
  · rw [hg, hg']
    exact ⟨γ, hvw, h.mono (fun _ _ _ hvw => hvw.mono hsub) hheap⟩
  · rw [hg, hg']
    exact ⟨rfl, β', { h with heap := hheap }⟩

/-! ## Calls -/

theorem popArguments (k : Nat) {args args' : List Word} (h : Corresponds β m n)
    (hargs : List.Forall₂ (Related β) args args') :
    Paired (fun as bs m' n' => List.Forall₂ (Related β) as bs ∧ Corresponds β m' n')
      (Corresponds β) (Machine.popArguments k args m) (Machine.popArguments k args' n) := by
  induction k generalizing args args' m n with
  | zero => exact ⟨hargs, h⟩
  | succ k ih => exact h.pop.bind fun _ _ _ _ ⟨hvw, _, h⟩ => ih h (.cons hvw hargs)

theorem pushFrame {f g : Frame} (h : Corresponds β m n) (hfg : f.Matched β g) :
    Paired (fun _ _ => Corresponds β) (Corresponds β) (Machine.onCalls (CallStack.push f) m)
      (Machine.onCalls (CallStack.push g) n) := by
  rw [Machine.onCalls_eq, Machine.onCalls_eq, CallStack.push, CallStack.push,
    ← h.calls.frames.size_eq, ← h.calls.limit]
  split_ifs
  · exact ⟨rfl, h⟩
  · exact { h with calls := ⟨h.calls.frames.push hfg, rfl⟩ }

theorem enterFrame (image : Image) (callee returnFunction : UInt16) (returnAddress : Option Nat)
    (h : Corresponds β m n) :
    Paired (fun _ _ => Corresponds β) (Corresponds β)
      (Machine.enterFrame image callee returnFunction returnAddress m)
      (Machine.enterFrame image callee returnFunction returnAddress n) := by
  unfold Machine.enterFrame
  cases image.function? callee with
  | none => exact ⟨rfl, h⟩
  | some f =>
    dsimp only
    by_cases hl : f.locals < f.arity
    · rw [if_pos hl]
      exact ⟨rfl, h⟩
    · rw [if_neg hl]
      have hroom : Paired (fun a b m' n' => a = b ∧ Corresponds β m' n') (Corresponds β)
          (Machine.checkRoom m) (Machine.checkRoom n) := by
        refine h.inspect ?_
        rw [CallStack.checkRoom, CallStack.checkRoom, h.calls.frames.size_eq, h.calls.limit]
        exact .refl _
      refine hroom.bind fun _ _ _ _ ⟨_, h⟩ => ?_
      refine (h.popArguments _ .nil).bind fun as bs _ _ ⟨hargs, h⟩ => ?_
      refine h.pushFrame ⟨rfl, rfl, rfl, pointwise_toArray ?_⟩
      rw [hargs.length_eq]
      exact List.rel_append hargs (List.forall₂_same.2 fun x hx => by
        rw [List.eq_of_mem_replicate hx]
        exact .zero)

/-- Both machines interpret the callee. -/
theorem enterCall (image : Image) (callee returnFunction : UInt16) (returnAddress : Option Nat)
    (h : Corresponds β m n) :
    Paired (fun r r' m' n' => (r = none ∧ r' = none) ∧ Corresponds β m' n') (Corresponds β)
      (Machine.enterCall image callee returnFunction returnAddress m)
      (Machine.enterCall image callee returnFunction returnAddress n) := by
  rw [Machine.enterCall_of_off h.off, Machine.enterCall_of_off h.off']
  exact (h.enterFrame image callee returnFunction returnAddress).bind fun _ _ _ _ h =>
    ⟨⟨rfl, rfl⟩, h⟩

/-- Both machines leave their top frame. -/
theorem leaveFrame (h : Corresponds β m n) :
    Paired (fun r r' m' n' => r.Matched β r' ∧ Corresponds β m' n') (Corresponds β)
      (Machine.leaveFrame m) (Machine.leaveFrame n) := by
  refine h.popOrZero.bind ?_
  rintro v w m n ⟨hvw, h⟩
  have hpop : Paired (fun f g m' n' => f.Matched β g ∧ Corresponds β m' n') (Corresponds β)
      (Machine.onCalls CallStack.pop m) (Machine.onCalls CallStack.pop n) := by
    rw [Machine.onCalls_eq, Machine.onCalls_eq, CallStack.pop, CallStack.pop]
    obtain ⟨hm, hn⟩ | ⟨f, g, hm, hn, hf⟩ := h.calls.frames.back?_cases
    · rw [hm, hn]
      exact ⟨rfl, h⟩
    · rw [hm, hn]
      exact ⟨hf, { h with calls := ⟨h.calls.frames.pop, h.calls.limit⟩ }⟩
  refine hpop.bind ?_
  rintro f g m n ⟨hf, h⟩
  rw [← hf.returnAddress, ← hf.returnFunction]
  cases f.returnAddress with
  | none => exact ⟨.finish hvw, h⟩
  | some pc => exact (h.push fun _ => hvw).bind fun _ _ _ _ h => ⟨.resume _ pc, h⟩

end Corresponds

end StackMachine
