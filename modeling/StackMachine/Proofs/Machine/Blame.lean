import StackMachine.Proofs.Machine.Frames

/-!
# Faults of a run

A run that fails names the place of the instruction that failed. On the stacks of a run, which are
never larger than they may be and always have a frame, an instruction that takes as many words as
it puts back has room for its result, and only an instruction with operands can miss one.

* `Instr.canRaise`: which faults an instruction can raise in a run.
* `State.attributed_of_interpret`: a step that fails does so with a fault of the instruction there.
* `State.attributed_of_run`: so does a run.
* `State.start_eq_ended`: why a run cannot even start.
-/

namespace StackMachine

/-- Whether an instruction leaves more words on the operand stack than it finds, so that the stack
    can be too small. A return does if the stack is empty. -/
def Instr.needsRoom : Instr → Bool
  | .pushInt _ | .pushDouble _ | .dup | .ret | .loadLocal _ | .loadGlobal _ | .readInt => true
  | _ => false

/-- Whether an instruction takes operands that have to be there. -/
def Instr.needsOperands : Instr → Bool
  | .pop | .dup | .binary _ | .unary _ | .jump .ifZero _ | .jump .ifNotZero _ | .call _
  | .storeLocal _ | .storeGlobal _ | .arrayNew | .arrayLoad | .arrayStore | .arrayLen
  | .printInt => true
  | _ => false

/-- Whether an instruction can raise a fault in a run. -/
def Instr.canRaise (i : Instr) (fault : Fault) : Bool :=
  match fault with
  | .stackOverflow _ => i.needsRoom
  | .stackUnderflow => i.needsOperands
  | _ => i.raises fault

/-- At the location there is code of the image that fails with the fault: it cannot be read, for
    just this reason, or it is an instruction that can raise the fault. -/
def Image.Attributes (image : Image) (l : Location) (fault : Fault) : Prop :=
  ∃ f, image.function? l.function = some f ∧ l.pc < f.code.size ∧
    (f.code.decode l.pc = .error fault ∨
      ∃ i, f.code.decode l.pc = .ok i ∧ i.canRaise fault = true)

/-! ## Room for a result -/

section Room

variable {α : Type} {m : Machine}

/-- The action leaves room for a word, and if it fails, it is not for lack of room. -/
abbrev LeavesRoom : EStateM.Result Fault Machine α → Prop :=
  Ensures (fun _ m => m.Roomy) fun e _ => ∀ limit, e ≠ .stackOverflow limit

theorem leavesRoom_pop (h : m.memory.stack.words.size ≤ m.memory.stack.limit) :
    LeavesRoom (Machine.pop m) := by
  rw [Machine.pop, Machine.onStack_eq, OperandStack.pop]
  cases hback : m.memory.stack.words.back? with
  | none =>
    intro limit he
    cases he
  | some w =>
    have hpos := Array.size_pos_of_mem (Array.mem_of_back? hback)
    show m.memory.stack.words.pop.size < m.memory.stack.limit
    rw [Array.size_pop]
    omega

theorem leavesRoom_popOperands {n : Nat} (hn : 0 < n)
    (h : m.memory.stack.words.size ≤ m.memory.stack.limit) :
    LeavesRoom (Machine.popOperands n m) := by
  induction n generalizing m with
  | zero => exact absurd hn (lt_irrefl 0)
  | succ n ih =>
    refine (leavesRoom_pop h).bind fun w m h => ?_
    cases n with
    | zero => exact h
    | succ n => exact (ih (Nat.succ_pos n) (Nat.le_of_lt h)).bind fun args m h => h

/-- What an instruction does with its operands needs no room. -/
theorem leavesRoom_act (next length : Nat) (i : Instr) (args : List Word) (h : m.Roomy) :
    LeavesRoom (Machine.act next length i args m) := by
  have hstack := (Machine.steady_act next length i args).retains_stack m
  have hfaults := acting_act next length i args m
  refine (hstack.mono fun _ m' hm' => ?_).withFailed
    (hfaults.weaken fun _ _ => Instr.ne_overflow_of_actRaises)
  rwa [Machine.Roomy, hm']

/-- A fault is not for lack of room on the operand stack. -/
abbrev Fitting : EStateM.Result Fault Machine α → Prop :=
  Ensures (fun _ _ => True) fun e _ => ∀ limit, e ≠ .stackOverflow limit

theorem fitting_push (h : m.Roomy) (w : Word) : Fitting (Machine.push w m) := by
  obtain ⟨m', hpush, -⟩ := Machine.push_of_roomy h w
  rw [hpush]
  trivial

theorem fitting_deliver (outcome : Outcome) (h : m.Roomy) :
    Fitting (Machine.deliver outcome m) := by
  cases outcome with
  | go flow => trivial
  | word w => exact (fitting_push h w).bind fun _ _ _ => trivial

theorem Instr.takes_pos {i : Instr} (hi : i.needsRoom = false) (hpushes : i.pushes = true) :
    0 < i.takes := by
  cases i with
  | binary | unary | arrayNew | arrayLoad | arrayLen => simp [takes]
  | nop | pop | jump | call | storeLocal | storeGlobal | arrayStore | printInt | halt =>
    cases hpushes
  | pushInt | pushDouble | dup | ret | loadLocal | loadGlobal | readInt => cases hi

/-- An instruction that takes a word or more before it puts one back has room for it. -/
theorem fitting_interpret {i : Instr} (next length : Nat)
    (h : m.memory.stack.words.size ≤ m.memory.stack.limit) (hi : i.needsRoom = false)
    (hpushes : i.pushes = true) : Fitting (Machine.interpret next length i m) :=
  Ensures.interpret (leavesRoom_popOperands (Instr.takes_pos hi hpushes) h)
    (fun args _ h => leavesRoom_act next length i args h) fun outcome _ h _ =>
      fitting_deliver outcome h

end Room

/-! ## Operands that are there -/

section Operands

variable {α : Type} {m : Machine}

/-- A fault is not for lack of an operand or a frame. -/
abbrev Supplied : EStateM.Result Fault Machine α → Prop :=
  Ensures (fun _ _ => True) fun e _ => e ≠ .stackUnderflow

theorem supplied_of_raising {i : Instr} {x : EStateM.Result Fault Machine α}
    (hi : i.pops = false) (h : Raising i x) : Supplied x := by
  cases x with
  | ok a m => trivial
  | error e m =>
    intro he
    subst he
    have hraises : i.raises .stackUnderflow = true := h
    exact Bool.false_ne_true (hi.symm.trans hraises)

theorem supplied_push (w : Word) (m : Machine) : Supplied (Machine.push w m) :=
  supplied_of_raising (i := .readInt) rfl (raising_push rfl w m)

theorem supplied_jump (next length : Nat) (offset : Int32) :
    Supplied (Machine.interpret next length (.jump .always offset) m) := by
  have htarget : Supplied (Machine.inspect (fun _ => Code.jumpTarget next offset length) m) := by
    unfold Machine.inspect Code.jumpTarget
    dsimp only
    by_cases hrange : Code.jumpPlace next offset < 0 ∨ (length : Int) < Code.jumpPlace next offset
    · rw [if_pos hrange]
      exact nofun
    · rw [if_neg hrange]
      trivial
  exact htarget.bind fun _ _ _ => trivial

theorem supplied_loadLocal {frame : Frame} (h : m.memory.calls.frames.back? = some frame)
    (next length : Nat) (index : UInt8) :
    Supplied (Machine.interpret next length (.loadLocal index) m) := by
  have hload : Supplied (Machine.loadLocal index m) := by
    unfold Machine.loadLocal Machine.inspect CallStack.loadLocal Frame.load
    dsimp only
    rw [h]
    dsimp only
    cases frame.locals[index.toNat]? with
    | none => exact nofun
    | some w => trivial
  exact hload.bind fun w m _ => (supplied_push w m).bind fun _ _ _ => trivial

theorem supplied_leaveFrame {frame : Frame} (h : m.memory.calls.frames.back? = some frame) :
    Supplied (Machine.leaveFrame m) := by
  have hvalue : Ensures (fun _ m => m.memory.calls.frames.back? = some frame)
      (fun e _ => e ≠ .stackUnderflow) (Machine.popOrZero m) := by
    rw [Machine.popOrZero_eq]
    exact h
  refine hvalue.bind fun value m h => ?_
  have hpop : Supplied (Machine.onCalls CallStack.pop m) := by
    rw [Machine.onCalls_eq, CallStack.pop, h]
    trivial
  refine hpop.bind fun frame m _ => ?_
  cases frame.returnAddress with
  | none => trivial
  | some pc => exact (supplied_push value m).bind fun _ _ _ => trivial

end Operands

/-! ## Steps -/

section Steps

variable {m m' : Machine} {frame : Frame} {i : Instr} {next length : Nat} {e : Fault}

/-- On the stacks of a run an instruction fails with a fault that it can raise. -/
theorem canRaise_of_interpret (hstack : m.memory.stack.words.size ≤ m.memory.stack.limit)
    (hback : m.memory.calls.frames.back? = some frame)
    (h : Machine.interpret next length i m = .error e m') : i.canRaise e = true := by
  have hraises := ensures_interpret next length i m
  rw [h] at hraises
  cases e with
  | stackOverflow limit =>
    cases hroom : i.needsRoom with
    | true => exact hroom
    | false =>
      have hfitting := fitting_interpret next length hstack hroom hraises
      rw [h] at hfitting
      exact absurd rfl (hfitting limit)
  | stackUnderflow =>
    cases i with
    | jump branch offset =>
      cases branch with
      | always =>
        have hsupplied := supplied_jump next length offset (m := m)
        rw [h] at hsupplied
        exact absurd rfl hsupplied
      | ifZero | ifNotZero => rfl
    | loadLocal index =>
      have hsupplied := supplied_loadLocal hback next length index
      rw [h] at hsupplied
      exact absurd rfl hsupplied
    | ret => cases h
    | _ => exact hraises
  | _ => exact hraises

theorem canRaise_of_leaveFrame (hback : m.memory.calls.frames.back? = some frame)
    (h : Machine.leaveFrame m = .error e m') : Instr.ret.canRaise e = true := by
  have hraises := raising_leaveFrame m
  have hsupplied := supplied_leaveFrame hback
  rw [h] at hraises hsupplied
  cases e with
  | stackUnderflow => exact absurd rfl hsupplied
  | _ => exact hraises

/-- A call needs operands, but no room. -/
theorem canRaise_of_call {g : UInt16} (h : (Instr.call g).raises e = true) :
    (Instr.call g).canRaise e = true := by
  cases e with
  | stackOverflow => cases h
  | _ => exact h

end Steps

section Runs

variable {image : Image} {maxStack maxCallDepth : Nat} {setup : Setup}

/-- If a step of interpreted code ends the run with a fault, then it is located at that code and
    the code accounts for it. -/
theorem State.attributed_of_interpret {a : Interpreting} {waiting : List Activation}
    {m m' : Machine} {failure : Failure} (hi : setup.image = image)
    (hm : m.memory.Framed image maxStack maxCallDepth a.function)
    (h : State.interpret setup a waiting m = .ended ⟨.error failure, m'⟩) :
    failure.location = some ⟨a.function, a.pc⟩ ∧
      image.Attributes ⟨a.function, a.pc⟩ failure.fault := by
  obtain ⟨hlocation, hblamed⟩ := State.blamed_of_interpret h
  obtain ⟨frame, hback, hfunction⟩ := hm.top
  -- the top frame belongs to the function, so there is one
  have hknown : (setup.image.function? a.function).isSome := by
    have htop := hback
    rw [Array.back?_eq_getElem?] at htop
    obtain ⟨f, hf, -⟩ := hm.chain.fits _ _ htop
    rw [hi, ← hfunction, hf]
    rfl
  refine ⟨hlocation hknown, ?_⟩
  have hreport : ∀ i, (State.report setup a i m).memory = m.memory := by
    intro i
    obtain ⟨journal, hreport⟩ := report_eq setup a i m
    rw [hreport]
  have hstack : m.memory.stack.words.size ≤ m.memory.stack.limit := hm.stackLimit ▸ hm.stack
  subst hi
  generalize hfault : failure.fault = e at hblamed ⊢
  cases hblamed with
  | missing hf =>
    rw [hf] at hknown
    cases hknown
  | @undecodable f _ hf hpc hd => exact ⟨f, hf, hpc, .inl hd⟩
  | @instr f i _ hf hpc hd hraises hm =>
    refine ⟨f, hf, hpc, .inr ⟨i, hd, ?_⟩⟩
    rcases hm with ⟨n, hinterpret⟩ | ⟨g, rfl⟩ | rfl
    · exact canRaise_of_interpret (by rw [hreport]; exact hstack) (by rw [hreport]; exact hback)
        hinterpret
    · exact canRaise_of_call hraises
    · have hreturn : State.interpret setup a waiting m =
          State.returnFromInterpreter a waiting (State.report setup a .ret m) := by
        simp only [State.interpret, hf, if_neg (Nat.not_le.2 hpc), hd]
        rfl
      rw [hreturn] at h
      obtain ⟨n, hleave, -⟩ := State.leaveFrame_of_return h
      rw [hfault] at hleave
      exact canRaise_of_leaveFrame (by rw [hreport]; exact hback) hleave

/-- A run of interpreted code that fails says where, and the code there accounts for the fault. -/
theorem State.attributed_of_run {s : State} {fuel : Nat} {e : Ending} {failure : Failure}
    (hi : setup.image = image)
    (h : (Memory.framed image maxStack maxCallDepth).Upheld (.running s))
    (hrun : s.run setup fuel = some e) (he : e.outcome = .error failure) :
    ∃ l, failure.location = some l ∧ image.Attributes l failure.fault := by
  induction fuel generalizing s with
  | zero => cases hrun
  | succ fuel ih =>
    rw [State.run] at hrun
    have hnext := h.step hi fun _ _ _ _ _ => trivial
    cases hs : s.step setup with
    | running s' =>
      rw [hs] at hnext hrun
      exact ih hnext hrun
    | ended e' =>
      rw [hs] at hrun
      obtain rfl := Option.some.inj hrun
      obtain ⟨outcome, m'⟩ := e'
      obtain rfl : outcome = .error failure := he
      cases h with
      | running hkept => exact ⟨_, State.attributed_of_interpret hi hkept.holds hs⟩

/-! ## Starts -/

/-- Why the frame of the entry function cannot be pushed. -/
inductive EntryFault (image : Image) (maxCallDepth : Nat) : Fault → Prop
  | missing (h : image.function? image.entry = none) :
      EntryFault image maxCallDepth (.invalidFunction image.entry.toNat)
  | narrow {f : Image.Function} (hf : image.function? image.entry = some f)
      (h : f.locals < f.arity) :
      EntryFault image maxCallDepth
        (.localsBelowArity image.entry.toNat f.arity.toNat f.locals.toNat)
  | full (h : maxCallDepth = 0) : EntryFault image maxCallDepth (.callStackOverflow maxCallDepth)

theorem ensures_enterEntry (image : Image) {m : Machine} (hm : m.memory.calls.frames = #[]) :
    Ensures (fun _ _ => True) (fun e _ => EntryFault image m.memory.calls.limit e)
      (Machine.enterFrame image image.entry image.entry none m) := by
  unfold Machine.enterFrame
  cases hf : image.function? image.entry with
  | none => exact .missing hf
  | some f =>
    dsimp only
    by_cases hlocals : f.locals < f.arity
    · rw [if_pos hlocals]
      exact .narrow hf hlocals
    rw [if_neg hlocals]
    by_cases hfull : m.memory.calls.limit = 0
    · have hroom : Machine.checkRoom m = .error (.callStackOverflow m.memory.calls.limit) m := by
        simp [Machine.checkRoom, Machine.inspect, CallStack.checkRoom, hm, hfull]
      rw [bind_of_error hroom]
      exact .full hfull
    · have hroom : Machine.checkRoom m = .ok () m := by
        simp [Machine.checkRoom, Machine.inspect, CallStack.checkRoom, hm, hfull]
      rw [bind_of_ok hroom]
      -- the entry function takes no arguments from the stack
      have hargs : Machine.popArguments (if (none : Option Nat).isSome then f.arity.toNat else 0) []
          m = .ok [] m := rfl
      rw [bind_of_ok hargs, Machine.onCalls_eq, CallStack.push, hm, if_neg]
      · trivial
      · show ¬ m.memory.calls.limit ≤ 0
        omega

/-- A run that is over at once has failed to push the frame of the entry function. -/
theorem State.start_eq_ended (setup : Setup) {m : Machine} {e : Ending}
    (hm : m.memory.calls.frames = #[]) (h : State.start setup m = .ended e) :
    ∃ fault, e.outcome = .error ⟨fault, some ⟨setup.image.entry, 0⟩⟩ ∧
      EntryFault setup.image m.memory.calls.limit fault := by
  have henter : Ensures (fun _ _ => True)
      (fun e _ => EntryFault setup.image m.memory.calls.limit e)
      (Machine.enterCall setup.image setup.image.entry setup.image.entry none m) := by
    rw [Machine.enterCall_eq]
    have hframe := ensures_enterEntry setup.image (m := { m with
      promotion := (m.promotion.onCall setup.image setup.image.entry).2.2
      journal := m.journal.logAll (m.promotion.onCall setup.image setup.image.entry).2.1 }) hm
    split
    next hfault =>
      rw [hfault] at hframe
      exact hframe
    · split <;> trivial
  rw [State.start] at h
  cases hcall : Machine.enterCall setup.image setup.image.entry setup.image.entry none m with
  | error fault n =>
    rw [hcall] at henter h
    obtain rfl := Progress.ended.inj h
    exact ⟨fault, rfl, henter⟩
  | ok routine n =>
    rw [hcall] at h
    cases routine <;> cases h

end Runs

end StackMachine
