import StackMachine.Proofs.Machine.Phases

/-!
# Faults and the instructions that raise them

When interpreted code fails, the fault belongs to the instruction at the place that is reported:
either the bytes there are no instruction, or it is one that can raise such a fault.

* `acting_act`: with its operands an instruction does nothing that fails for lack of room.
* `ensures_interpret`: an instruction raises the faults of its kind only.
* `State.blamed_of_interpret`: a fault that ends a run is blamed on the instruction it is due to.
-/

namespace StackMachine

/-- Whether an instruction puts a word on the operand stack. -/
def Instr.pushes : Instr → Bool
  | .pushInt _ | .pushDouble _ | .dup | .binary _ | .unary _ | .ret | .loadLocal _ | .loadGlobal _
  | .arrayNew | .arrayLoad | .arrayLen | .readInt => true
  | _ => false

/-- Whether an instruction needs operands, or a frame. -/
def Instr.pops : Instr → Bool
  | .pop | .dup | .binary _ | .unary _ | .jump _ _ | .call _ | .ret | .loadLocal _ | .storeLocal _
  | .storeGlobal _ | .arrayNew | .arrayLoad | .arrayStore | .arrayLen | .printInt => true
  | _ => false

/-- Whether an instruction can raise a fault. -/
def Instr.raises (i : Instr) : Fault → Bool
  | .stackOverflow _ => i.pushes
  | .stackUnderflow => i.pops
  | .callStackOverflow _ | .invalidFunction _ | .localsBelowArity _ _ _ => (i matches .call _)
  | .divisionByZero => (i matches .binary .div | .binary .ddiv)
  | .moduloByZero => (i matches .binary .mod | .binary .dmod)
  | .indexOutOfBounds _ _ => (i matches .arrayLoad | .arrayStore)
  | .negativeArrayLength _ | .outOfMemory _ => (i matches .arrayNew)
  | .invalidHandle _ | .notAnArray _ => (i matches .arrayLoad | .arrayStore | .arrayLen)
  | .unknownOpcode _ | .truncatedInstruction _ => false
  | .invalidLocal _ _ => (i matches .loadLocal _ | .storeLocal _)
  | .invalidGlobal _ _ => (i matches .loadGlobal _ | .storeGlobal _)
  | .jumpOutOfRange _ => (i matches .jump _ _)
  | .invalidInput _ => (i matches .readInt)
  | .io _ => (i matches .printInt | .readInt)

/-- Whether the operand stack was full. -/
def Fault.isOverflow : Fault → Bool
  | .stackOverflow _ => true
  | _ => false

/-- Whether an instruction can raise a fault before it pushes its result. -/
def Instr.actRaises (i : Instr) (e : Fault) : Bool := i.raises e && !e.isOverflow

theorem Instr.raises_of_actRaises {i : Instr} {e : Fault} (h : i.actRaises e = true) :
    i.raises e = true := by
  rw [actRaises, Bool.and_eq_true] at h
  exact h.1

theorem Instr.ne_overflow_of_actRaises {i : Instr} {e : Fault} (h : i.actRaises e = true)
    (limit : Nat) : e ≠ .stackOverflow limit := by
  rintro rfl
  simp [actRaises, Fault.isOverflow] at h

/-- An action fails with a fault of the instruction, if it fails. -/
abbrev Raising {α : Type} (i : Instr) : EStateM.Result Fault Machine α → Prop :=
  Ensures (fun _ _ => True) fun e _ => i.raises e = true

/-- An action fails with a fault of the instruction, but not for lack of room, if it fails. -/
abbrev Acting {α : Type} (i : Instr) : EStateM.Result Fault Machine α → Prop :=
  Ensures (fun _ _ => True) fun e _ => i.actRaises e = true

/-- Control is moved by a jump, a call or a return only if the instruction is one. -/
def Flow.Fits (i : Instr) : Flow → Prop
  | .jump _ => ∃ branch offset, i = .jump branch offset
  | .call g => i = .call g
  | .ret => i = .ret
  | _ => True

/-- Only an instruction that pushes comes to a word. -/
def Outcome.Fits (i : Instr) : Outcome → Prop
  | .word _ => i.pushes = true
  | .go flow => flow.Fits i

variable {i : Instr} {α : Type}

theorem Acting.raising {x : EStateM.Result Fault Machine α} (h : Acting i x) : Raising i x :=
  h.weaken fun _ _ => Instr.raises_of_actRaises

/-! ## The parts of an instruction -/

theorem acting_inspect {act : Machine → Except Fault α} {m : Machine}
    (h : ∀ e, act m = .error e → i.actRaises e = true) : Acting i (Machine.inspect act m) := by
  unfold Machine.inspect
  cases hact : act m with
  | ok a => trivial
  | error e => exact h e hact

theorem raising_push (h : i.pushes = true) (w : Word) (m : Machine) :
    Raising i (Machine.push w m) := by
  rw [Machine.push, Machine.onStack_eq, OperandStack.push]
  split_ifs
  · exact h
  · trivial

theorem Instr.actRaises_underflow (h : i.pops = true) : i.actRaises .stackUnderflow = true := by
  rw [actRaises, raises, h]
  rfl

theorem acting_pop (h : i.pops = true) (m : Machine) : Acting i (Machine.pop m) := by
  rw [Machine.pop, Machine.onStack_eq, OperandStack.pop]
  cases m.memory.stack.words.back? with
  | none => exact Instr.actRaises_underflow h
  | some w => trivial

theorem acting_peek (h : i.pops = true) (m : Machine) : Acting i (Machine.peek m) := by
  refine acting_inspect fun e he => ?_
  unfold OperandStack.peek at he
  split at he
  · cases he
  · obtain rfl := Except.error.inj he
    exact Instr.actRaises_underflow h

theorem acting_loadLocal (index : UInt8) (m : Machine) :
    Acting (.loadLocal index) (Machine.loadLocal index m) := by
  refine acting_inspect fun e he => ?_
  unfold CallStack.loadLocal Frame.load at he
  split at he
  · split at he
    · cases he
    · obtain rfl := Except.error.inj he
      rfl
  · obtain rfl := Except.error.inj he
    rfl

theorem acting_storeLocal (index : UInt8) (w : Word) (m : Machine) :
    Acting (.storeLocal index) (Machine.storeLocal index w m) := by
  rw [Machine.storeLocal, Machine.onCalls_eq, CallStack.storeLocal]
  cases m.memory.calls.frames.back? with
  | none => rfl
  | some f =>
    dsimp only
    split_ifs
    · trivial
    · rfl

theorem acting_loadGlobal (index : UInt16) (m : Machine) :
    Acting (.loadGlobal index) (Machine.loadGlobal index m) := by
  refine acting_inspect fun e he => ?_
  unfold Globals.load at he
  split at he
  · cases he
  · obtain rfl := Except.error.inj he
    rfl

theorem acting_storeGlobal (index : UInt16) (w : Word) (m : Machine) :
    Acting (.storeGlobal index) (Machine.storeGlobal index w m) := by
  rw [Machine.storeGlobal, Machine.onGlobals_eq, Globals.store]
  dsimp only
  split_ifs
  · trivial
  · rfl

/-! ## The console -/

theorem acting_onConsole {act : EStateM Fault Console α} {m : Machine}
    (h : ∀ e c, act m.console = .error e c → i.actRaises e = true) :
    Acting i (Machine.onConsole act m) := by
  rw [Machine.onConsole_eq]
  cases hact : act m.console with
  | ok a c => trivial
  | error e c => exact h e c hact

theorem acting_printInt (w : Word) (m : Machine) : Acting .printInt (Machine.printInt w m) := by
  refine acting_onConsole fun e c he => ?_
  unfold Console.printInt Output.write at he
  dsimp only at he
  split at he
  · cases he
  next hwrite =>
    split at hwrite
    · cases hwrite
    · obtain ⟨rfl, -⟩ := EStateM.Result.error.inj hwrite
      obtain ⟨rfl, -⟩ := EStateM.Result.error.inj he
      rfl

theorem Console.error_of_flush {c c' : Console} {e : Fault} (he : Console.flush c = .error e c') :
    ∃ reason, e = .io reason := by
  unfold Console.flush Output.flush at he
  dsimp only at he
  split at he
  · cases he
  next hflush =>
    split at hflush
    · cases hflush
    · obtain ⟨rfl, -⟩ := EStateM.Result.error.inj hflush
      obtain ⟨rfl, -⟩ := EStateM.Result.error.inj he
      exact ⟨_, rfl⟩

theorem Input.error_of_readLine {input input' : Input} {e : Fault}
    (he : Input.readLine input = .error e input') : ∃ reason, e = .io reason := by
  unfold Input.readLine at he
  dsimp only at he
  split at he
  · obtain ⟨rfl, -⟩ := EStateM.Result.error.inj he
    exact ⟨_, rfl⟩
  · split_ifs at he

theorem Console.error_of_lineInt {line : ByteArray} {e : Fault}
    (he : Console.lineInt line = .error e) : Instr.readInt.actRaises e = true := by
  unfold Console.lineInt at he
  split at he
  · obtain rfl := Except.error.inj he
    rfl
  · dsimp only at he
    split at he
    · cases he
    · obtain rfl := Except.error.inj he
      rfl

/-- Reading fails because of a device or because of what was read. -/
theorem Console.error_of_readInt {c c' : Console} {e : Fault}
    (he : Console.readInt c = .error e c') : Instr.readInt.actRaises e = true := by
  unfold Console.readInt at he
  split at he
  next hflush =>
    obtain ⟨rfl, -⟩ := EStateM.Result.error.inj he
    obtain ⟨reason, rfl⟩ := Console.error_of_flush hflush
    rfl
  · split at he
    next hread =>
      obtain ⟨rfl, -⟩ := EStateM.Result.error.inj he
      obtain ⟨reason, rfl⟩ := Input.error_of_readLine hread
      rfl
    · cases he
    · split at he
      · cases he
      next hline =>
        obtain ⟨rfl, -⟩ := EStateM.Result.error.inj he
        exact Console.error_of_lineInt hline

theorem acting_readInt (m : Machine) : Acting .readInt (Machine.readInt m) := by
  refine acting_onConsole fun e c he => ?_
  cases hread : Console.readInt m.console with
  | ok n c' =>
    rw [bind_of_ok hread] at he
    cases he
  | error e' c' =>
    rw [bind_of_error hread] at he
    obtain ⟨rfl, -⟩ := EStateM.Result.error.inj he
    exact Console.error_of_readInt hread

/-! ## Arrays -/

theorem Heap.error_of_place {h h' : Heap} {length : Int} {array : Array Word} {e : Fault}
    (he : h.place length array = .error e h') : e = .outOfMemory length := by
  unfold Heap.place at he
  dsimp only at he
  split at he
  · cases he
  · split_ifs at he
    exact (EStateM.Result.error.inj he).1.symm

theorem acting_newArray (length : Word) (m : Machine) :
    Acting .arrayNew (Machine.newArray length m) := by
  rw [Machine.newArray_eq, Machine.onHeap_eq]
  generalize (if m.memory.heap.due then m.collect.2 else m) = m'
  cases he : Heap.alloc length.toInt m'.memory.heap with
  | ok w h => trivial
  | error e h =>
    unfold Heap.alloc at he
    dsimp only at he
    split_ifs at he
    · obtain ⟨rfl, -⟩ := EStateM.Result.error.inj he
      rfl
    · obtain ⟨rfl, -⟩ := EStateM.Result.error.inj he
      rfl
    · obtain rfl := Heap.error_of_place he
      rfl

/-- A word that is no handle, or dangles, gives no access. -/
theorem Heap.error_of_get {h : Heap} {w : Word} {e : Fault} (he : h.get w = .error e) :
    e = .notAnArray w.bits.toNat ∨ e = .invalidHandle w.bits.toNat := by
  unfold Heap.get at he
  split at he
  · exact .inl (Except.error.inj he).symm
  · split at he
    · cases he
    · exact .inr (Except.error.inj he).symm

theorem Heap.error_of_position {index : Word} {n : Nat} {e : Fault}
    (he : Heap.position index n = .error e) : ∃ i, e = .indexOutOfBounds i n := by
  unfold Heap.position at he
  dsimp only at he
  split_ifs at he
  exact ⟨_, (Except.error.inj he).symm⟩

/-- An access fails because of the array or because of the index. -/
theorem Heap.error_of_load {h : Heap} {array index : Word} {e : Fault}
    (he : h.load array index = .error e) :
    h.get array = .error e ∨ ∃ i n, e = .indexOutOfBounds i n := by
  unfold Heap.load at he
  split at he
  next hget =>
    obtain rfl := Except.error.inj he
    exact .inl hget
  · split at he
    next hposition =>
      obtain rfl := Except.error.inj he
      obtain ⟨i, rfl⟩ := Heap.error_of_position hposition
      exact .inr ⟨i, _, rfl⟩
    · cases he

theorem Heap.error_of_locate {h : Heap} {array index : Word} {e : Fault}
    (he : h.locate array index = .error e) :
    h.get array = .error e ∨ ∃ i n, e = .indexOutOfBounds i n := by
  unfold Heap.locate at he
  unfold Heap.get
  cases hw : array.handle? with
  | none =>
    simp only [hw] at he
    exact .inl (congrArg Except.error (Except.error.inj he))
  | some handle =>
    simp only [hw] at he
    cases hr : h.resolve? handle with
    | none =>
      simp only [hr] at he ⊢
      exact .inl (congrArg Except.error (Except.error.inj he))
    | some words =>
      simp only [hr] at he
      cases hposition : Heap.position index words.size with
      | ok k => simp [hposition, Except.map] at he
      | error e' =>
        simp only [hposition, Except.map, Except.error.injEq] at he
        subst he
        obtain ⟨k, rfl⟩ := Heap.error_of_position hposition
        exact .inr ⟨k, words.size, rfl⟩

theorem Heap.error_of_store {h h' : Heap} {array index w : Word} {e : Fault}
    (he : Heap.store array index w h = .error e h') :
    h.get array = .error e ∨ ∃ i n, e = .indexOutOfBounds i n := by
  unfold Heap.store at he
  split at he
  next e' hlocate =>
    obtain ⟨rfl, -⟩ := EStateM.Result.error.inj he
    exact Heap.error_of_locate hlocate
  · cases he

theorem acting_loadElement (array index : Word) (m : Machine) :
    Acting .arrayLoad (Machine.loadElement array index m) := by
  refine acting_inspect fun e he => ?_
  rcases Heap.error_of_load he with hget | ⟨i, n, rfl⟩
  · rcases Heap.error_of_get hget with rfl | rfl <;> rfl
  · rfl

theorem acting_storeElement (array index w : Word) (m : Machine) :
    Acting .arrayStore (Machine.storeElement array index w m) := by
  rw [Machine.storeElement, Machine.onHeap_eq]
  cases he : Heap.store array index w m.memory.heap with
  | ok _ h => trivial
  | error e h =>
    rcases Heap.error_of_store he with hget | ⟨i, n, rfl⟩
    · rcases Heap.error_of_get hget with rfl | rfl <;> rfl
    · rfl

theorem Heap.error_of_length {h : Heap} {array : Word} {e : Fault}
    (he : h.length array = .error e) : h.get array = .error e := by
  unfold Heap.length at he
  split at he
  next hget =>
    obtain rfl := Except.error.inj he
    exact hget
  · cases he

theorem acting_arrayLength (array : Word) (m : Machine) :
    Acting .arrayLen (Machine.arrayLength array m) := by
  refine acting_inspect fun e he => ?_
  cases hlength : m.memory.heap.length array with
  | ok n =>
    rw [hlength] at he
    cases he
  | error e' =>
    rw [hlength] at he
    obtain rfl := Except.error.inj he
    rcases Heap.error_of_get (Heap.error_of_length hlength) with rfl | rfl <;> rfl

/-! ## Instructions -/

theorem actRaises_of_eval (op : BinaryOp) (a b : Word) {e : Fault} (he : op.eval a b = .error e) :
    (Instr.binary op).actRaises e = true := by
  cases op with
  | div | mod | ddiv | dmod =>
    simp only [BinaryOp.eval] at he
    split_ifs at he
    obtain rfl := Except.error.inj he
    rfl
  | _ => cases he

theorem actRaises_of_jumpTarget {branch : Branch} {next length : Nat} {offset : Int32} {e : Fault}
    (he : Code.jumpTarget next offset length = .error e) :
    (Instr.jump branch offset).actRaises e = true := by
  unfold Code.jumpTarget at he
  dsimp only at he
  split_ifs at he
  obtain rfl := Except.error.inj he
  rfl

/-- An instruction that needs no operands pops none. -/
theorem acting_popOperands {n : Nat} (h : 0 < n → i.pops = true) (m : Machine) :
    Acting i (Machine.popOperands n m) := by
  induction n generalizing m with
  | zero => trivial
  | succ n ih =>
    have hpops := h (Nat.succ_pos n)
    refine (acting_pop hpops m).bind fun w m _ => ?_
    exact (ih (fun _ => hpops) m).bind fun _ _ _ => trivial

theorem Instr.pops_of_takes (h : 0 < i.takes) : i.pops = true := by
  cases i with
  | nop | pushInt | pushDouble | loadGlobal | readInt | halt => exact absurd h (lt_irrefl 0)
  | _ => rfl

/-- What an instruction does with its operands fails with a fault of its kind, if it fails, and
    only an instruction that pushes comes to a word. -/
theorem acting_act (next length : Nat) (i : Instr) (args : List Word) (m : Machine) :
    Ensures (fun outcome _ => outcome.Fits i) (fun e _ => i.actRaises e = true)
      (Machine.act next length i args m) := by
  have hword {x : Action Word} (hi : i.pushes = true) (hx : Acting i (x m)) :
      Ensures (fun outcome _ => outcome.Fits i) (fun e _ => i.actRaises e = true)
        ((do let w ← x; return Outcome.word w : Action Outcome) m) := hx.bind fun _ _ _ => hi
  have hdone {x : Action Unit} (hx : Acting i (x m)) :
      Ensures (fun outcome _ => outcome.Fits i) (fun e _ => i.actRaises e = true)
        ((do x; return Outcome.go .next : Action Outcome) m) := hx.bind fun _ _ _ => trivial
  cases i with
  | nop | pop | halt => trivial
  | call | ret | pushInt | pushDouble | unary => rfl
  | dup => exact hword rfl (acting_peek rfl m)
  | binary op => exact hword rfl (acting_inspect fun _ => actRaises_of_eval op _ _)
  | jump branch offset =>
    rw [Machine.act]
    split_ifs
    · refine Ensures.bind (acting_inspect fun _ => actRaises_of_jumpTarget) fun _ _ _ => ?_
      exact ⟨branch, offset, rfl⟩
    · trivial
  | loadLocal index => exact hword rfl (acting_loadLocal index m)
  | storeLocal index => exact hdone (acting_storeLocal index _ m)
  | loadGlobal index => exact hword rfl (acting_loadGlobal index m)
  | storeGlobal index => exact hdone (acting_storeGlobal index _ m)
  | arrayNew => exact hword rfl (acting_newArray _ m)
  | arrayLoad => exact hword rfl (acting_loadElement _ _ m)
  | arrayStore => exact hdone (acting_storeElement _ _ _ m)
  | arrayLen => exact hword rfl (acting_arrayLength _ m)
  | printInt => exact hdone (acting_printInt _ m)
  | readInt => exact hword rfl (acting_readInt m)

/-- An instruction fails with a fault of its kind, if it fails, and control goes where it says. -/
theorem ensures_interpret (next length : Nat) (i : Instr) (m : Machine) :
    Ensures (fun flow _ => flow.Fits i) (fun e _ => i.raises e = true)
      (Machine.interpret next length i m) := by
  refine Ensures.interpret (acting_popOperands Instr.pops_of_takes m).raising
    (fun args m _ => (acting_act next length i args m).weaken fun _ _ => Instr.raises_of_actRaises)
    fun outcome m hfits _ => ?_
  cases outcome with
  | word w => exact (raising_push hfits w m).bind fun _ _ _ => trivial
  | go flow => exact hfits

/-! ## Calls and returns -/

theorem raising_popArguments (h : i.pops = true) (n : Nat) (args : List Word) (m : Machine) :
    Raising i (Machine.popArguments n args m) := by
  induction n generalizing args m with
  | zero => trivial
  | succ n ih => exact (acting_pop h m).raising.bind fun w m _ => ih (w :: args) m

theorem acting_checkRoom (g : UInt16) (m : Machine) : Acting (.call g) (Machine.checkRoom m) := by
  refine acting_inspect fun e he => ?_
  unfold CallStack.checkRoom at he
  split_ifs at he
  obtain rfl := Except.error.inj he
  rfl

theorem raising_enterFrame (image : Image) (g returnFunction : UInt16) (returnAddress : Option Nat)
    (m : Machine) :
    Raising (.call g) (Machine.enterFrame image g returnFunction returnAddress m) := by
  unfold Machine.enterFrame
  cases image.function? g with
  | none => rfl
  | some callee =>
    dsimp only
    by_cases hlocals : callee.locals < callee.arity
    · rw [if_pos hlocals]
      rfl
    · rw [if_neg hlocals]
      refine (acting_checkRoom g m).raising.bind fun _ m _ => ?_
      refine (raising_popArguments rfl _ [] m).bind fun args m _ => ?_
      rw [Machine.onCalls_eq, CallStack.push]
      split_ifs
      · rfl
      · trivial

theorem raising_enterCall (image : Image) (g returnFunction : UInt16) (returnAddress : Option Nat)
    (m : Machine) :
    Raising (.call g) (Machine.enterCall image g returnFunction returnAddress m) := by
  rw [Machine.enterCall_eq]
  have henter := raising_enterFrame image g returnFunction returnAddress
    { m with
      promotion := (m.promotion.onCall image g).2.2
      journal := m.journal.logAll (m.promotion.onCall image g).2.1 }
  split
  next hm =>
    rw [hm] at henter
    exact henter
  · split <;> trivial

theorem raising_leaveFrame (m : Machine) : Raising .ret (Machine.leaveFrame m) := by
  have hpop : ∀ m : Machine, Raising .ret (Machine.onCalls CallStack.pop m) := by
    intro m
    rw [Machine.onCalls_eq, CallStack.pop]
    cases m.memory.calls.frames.back? with
    | none => rfl
    | some frame => trivial
  have hvalue : Raising .ret (Machine.popOrZero m) := by
    rw [Machine.popOrZero_eq]
    trivial
  refine hvalue.bind fun value m _ => (hpop m).bind fun frame m _ => ?_
  cases frame.returnAddress with
  | none => trivial
  | some pc => exact (raising_push rfl value m).bind fun _ _ _ => trivial

/-! ## Steps -/

/-- Why interpreted code at a place fails with a fault: there is no such function, its bytes are no
    instruction there, or the instruction raises the fault. Calls and returns raise theirs when the
    frame is pushed or popped. -/
inductive Blamed (setup : Setup) (a : Interpreting) (m : Machine) : Fault → Prop
  | missing (hf : setup.image.function? a.function = none) :
      Blamed setup a m (.invalidFunction a.function.toNat)
  | undecodable {f e} (hf : setup.image.function? a.function = some f) (hpc : a.pc < f.code.size)
      (hd : f.code.decode a.pc = .error e) : Blamed setup a m e
  | instr {f i e} (hf : setup.image.function? a.function = some f) (hpc : a.pc < f.code.size)
      (hd : f.code.decode a.pc = .ok i) (hraises : i.raises e = true)
      (hm : (∃ m', Machine.interpret (a.pc + i.size) f.code.size i (State.report setup a i m) =
        .error e m') ∨ (∃ g, i = .call g) ∨ i = .ret) : Blamed setup a m e

/-- A run that halts ends with a value. -/
theorem State.halt_ne_error (activations : List Activation) (m m' : Machine) (failure : Failure) :
    State.halt activations m ≠ .ended ⟨.error failure, m'⟩ := by
  rw [State.halt, Machine.popOrZero_eq]
  exact nofun

theorem State.resume_ne_error (waiting : List Activation) (m m' : Machine) (failure : Failure) :
    State.resume waiting m ≠ .ended ⟨.error failure, m'⟩ := by
  cases waiting <;> exact nofun

theorem State.fault_of_abort {activations : List Activation} {e : Fault} {location : Location}
    {m m' : Machine} {failure : Failure}
    (h : State.abort activations e location m = .ended ⟨.error failure, m'⟩) :
    failure = ⟨e, some location⟩ := by
  obtain ⟨hfailure, -⟩ := Ending.mk.inj (Progress.ended.inj h)
  exact (Except.error.inj hfailure).symm

theorem State.raises_of_call {setup : Setup} {a : Interpreting} {next : Nat} {g : UInt16}
    {waiting : List Activation} {m m' : Machine} {failure : Failure}
    (h : State.callFromInterpreter setup a next g waiting m = .ended ⟨.error failure, m'⟩) :
    failure.location = some ⟨a.function, a.pc⟩ ∧ (Instr.call g).raises failure.fault = true := by
  have hraises := raising_enterCall setup.image g a.function (some next) m
  rw [State.callFromInterpreter] at h
  cases hm : Machine.enterCall setup.image g a.function (some next) m with
  | error e n =>
    rw [hm] at hraises
    simp only [hm] at h
    obtain rfl := State.fault_of_abort h
    exact ⟨rfl, hraises⟩
  | ok routine n =>
    simp only [hm] at h
    cases routine <;> cases h

/-- A return that fails cannot leave its frame. -/
theorem State.leaveFrame_of_return {a : Interpreting} {waiting : List Activation} {m m' : Machine}
    {failure : Failure}
    (h : State.returnFromInterpreter a waiting m = .ended ⟨.error failure, m'⟩) :
    ∃ n, Machine.leaveFrame m = .error failure.fault n ∧
      failure.location = some ⟨a.function, a.pc⟩ := by
  rw [State.returnFromInterpreter] at h
  cases hm : Machine.leaveFrame m with
  | error e n =>
    simp only [hm] at h
    obtain rfl := State.fault_of_abort h
    exact ⟨n, rfl, rfl⟩
  | ok r n =>
    simp only [hm] at h
    cases r with
    | finish value => cases h
    | resume function pc =>
      dsimp only at h
      split_ifs at h
      exact absurd h (State.resume_ne_error waiting n m' failure)

/-- If a step of interpreted code ends the run with a fault, the fault is blamed on the code and, if
    there is such code, located there. -/
theorem State.blamed_of_interpret {setup : Setup} {a : Interpreting} {waiting : List Activation}
    {m m' : Machine} {failure : Failure}
    (h : State.interpret setup a waiting m = .ended ⟨.error failure, m'⟩) :
    ((setup.image.function? a.function).isSome → failure.location = some ⟨a.function, a.pc⟩) ∧
      Blamed setup a m failure.fault := by
  rw [State.interpret] at h
  cases hf : setup.image.function? a.function with
  | none =>
    rw [hf] at h
    obtain ⟨hfailure, -⟩ := Ending.mk.inj (Progress.ended.inj h)
    obtain rfl := Except.error.inj hfailure
    exact ⟨nofun, .missing hf⟩
  | some f =>
    simp only [hf] at h
    by_cases hend : f.code.size ≤ a.pc
    · rw [if_pos hend] at h
      exact absurd h (State.halt_ne_error waiting m m' failure)
    rw [if_neg hend] at h
    have hpc := Nat.lt_of_not_le hend
    cases hd : f.code.decode a.pc with
    | error e =>
      simp only [hd] at h
      obtain rfl := State.fault_of_abort h
      exact ⟨fun _ => rfl, .undecodable hf hpc hd⟩
    | ok i =>
      simp only [hd] at h
      have hensures := ensures_interpret (a.pc + i.size) f.code.size i (State.report setup a i m)
      cases hm : Machine.interpret (a.pc + i.size) f.code.size i (State.report setup a i m) with
      | error e n =>
        rw [hm] at hensures
        simp only [hm] at h
        obtain rfl := State.fault_of_abort h
        exact ⟨fun _ => rfl, .instr hf hpc hd hensures (.inl ⟨n, hm⟩)⟩
      | ok flow n =>
        rw [hm] at hensures
        simp only [hm] at h
        cases flow with
        | next => cases h
        | jump target => cases h
        | call g =>
          obtain ⟨hlocation, hraises⟩ := State.raises_of_call h
          exact ⟨fun _ => hlocation,
            .instr hf hpc hd (hensures ▸ hraises) (.inr (.inl ⟨g, hensures⟩))⟩
        | ret =>
          obtain ⟨n', hleave, hlocation⟩ := State.leaveFrame_of_return h
          have hraises := raising_leaveFrame n
          rw [hleave] at hraises
          exact ⟨fun _ => hlocation, .instr hf hpc hd (hensures ▸ hraises) (.inr (.inr hensures))⟩
        | halt => exact absurd h (State.halt_ne_error waiting n m' failure)

end StackMachine
