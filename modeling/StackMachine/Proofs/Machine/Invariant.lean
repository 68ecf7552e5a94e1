import StackMachine.Proofs.Heap.Collection
import StackMachine.Proofs.Machine.Calls
import StackMachine.Proofs.Machine.Faults
import StackMachine.Proofs.Machine.Tame

/-!
# Invariants of interpreted runs

An `Invariant` is a property of the memory that survives whatever an instruction does to it. It
comes with a notion of good words: what is taken out of the memory is good, and only good words are
put back. The facts in the structure are about single changes of the memory; the lemmas here put
them together to what an instruction, a step, a run and a session keep.

* `Kept.interpret`: an instruction keeps an invariant.
* `Invariant.Upheld.step`, `Invariant.Upheld.visits`: so do a step and a run.
* `Invariant.Ready.continues`: when all words are good, runs that follow each other keep what they
  start from.
-/

namespace StackMachine

/-! ## Invariants -/

/-- A property of the memory that a run of an image keeps while it only interprets: `begins` before
    the run, `holds f` while code of the function `f` is interpreted, and `left` when the run is
    over. Words that are `good`, for the heap as it is, may be put anywhere. -/
structure Invariant (image : Image) where
  good : Heap → Word → Prop
  begins : Memory → Prop
  holds : UInt16 → Memory → Prop
  left : Memory → Prop
  good_plain {heap w} : w.handle? = none → good heap w
  good_root {f m w} : holds f m → m.IsRoot w → good m.heap w
  good_load {f m array index w} : holds f m → m.heap.load array index = .ok w → good m.heap w
  good_length {f m array n} : holds f m → m.heap.length array = .ok n →
    good m.heap (.ofInt (Int64.ofNat n))
  start {m g} : begins m → image.function? image.entry = some g → ¬ g.locals < g.arity →
    0 < m.calls.limit → holds image.entry { m.reset image.globals.toNat with
      calls := ⟨#[.zeroed image.entry image.entry none g.locals.toNat], m.calls.limit⟩ }
  reset {m} : begins m → left (m.reset image.globals.toNat)
  pop {f m} : holds f m → holds f { m with stack := ⟨m.stack.words.pop, m.stack.limit⟩ }
  push {f m w} : holds f m → good m.heap w → m.stack.words.size < m.stack.limit →
    holds f { m with stack := ⟨m.stack.words.push w, m.stack.limit⟩ }
  storeLocal {f m index w calls} : holds f m → good m.heap w →
    CallStack.storeLocal index w m.calls = .ok () calls → holds f { m with calls }
  storeGlobal {f m index w globals} : holds f m → good m.heap w →
    Globals.store index w m.globals = .ok () globals → holds f { m with globals }
  storeElement {f m array index w heap} : holds f m → good m.heap w →
    Heap.store array index w m.heap = .ok () heap → holds f { m with heap }
  collect {f m} : holds f m → holds f m.collect.2
  alloc {f m length w heap} : holds f m → Heap.alloc length m.heap = .ok w heap →
    holds f { m with heap } ∧ good heap w
  allocFailed {f m length e heap} : holds f m → Heap.alloc length m.heap = .error e heap →
    holds f { m with heap }
  call {f g : UInt16} {m : Memory} {caller callee : Image.Function} {pc : Nat}
    {locals : Array Word} : holds f m → image.function? f = some caller →
    caller.code.decode pc = .ok (.call g) → image.function? g = some callee →
    ¬ callee.locals < callee.arity → locals.size = callee.locals.toNat →
    (∀ w ∈ locals, good m.heap w) → m.calls.frames.size < m.calls.limit →
    holds g { m with calls := ⟨m.calls.frames.push ⟨g, f, some (pc + Opcode.call.size), locals⟩,
      m.calls.limit⟩ }
  ret {f m frame pc} : holds f m → m.calls.frames.back? = some frame →
    frame.returnAddress = some pc →
    holds frame.returnFunction { m with calls := ⟨m.calls.frames.pop, m.calls.limit⟩ }
  finish {f m} : holds f m → left { m with calls := ⟨m.calls.frames.pop, m.calls.limit⟩ }
  left_of_holds {f m} : holds f m → left m
  begins_of_left {m} : left m → begins m
  begins_collect {m} : begins m → begins m.collect.2

variable {image : Image} {k : Invariant image} {f : UInt16} {heap : Heap} {m : Machine} {α : Type}

/-- The invariant holds of a machine that interprets code of `f` and never compiles. -/
structure Kept (k : Invariant image) (f : UInt16) (heap : Heap) (m : Machine) : Prop where
  holds : k.holds f m.memory
  heap : m.memory.heap = heap
  off : m.promotion.mode = .off

/-- What is left of the invariant when a run is over. -/
structure Finished (k : Invariant image) (m : Machine) : Prop where
  left : k.left m.memory
  off : m.promotion.mode = .off

/-- An action gives a good word and keeps the invariant, also when it fails. -/
abbrev GivesGood (k : Invariant image) (f : UInt16) (heap : Heap) :
    EStateM.Result Fault Machine Word → Prop :=
  Ensures (fun w m => k.good heap w ∧ Kept k f heap m) fun _ => Finished k

/-- An action keeps the invariant, with the heap as it is, also when it fails. -/
abbrev Keeps (k : Invariant image) (f : UInt16) (heap : Heap) :
    EStateM.Result Fault Machine α → Prop :=
  Ensures (fun _ => Kept k f heap) fun _ => Finished k

/-- An action keeps the invariant, whatever it does to the heap, also when it fails. -/
abbrev Preserves (k : Invariant image) (f : UInt16) : EStateM.Result Fault Machine α → Prop :=
  Ensures (fun _ m => ∃ heap, Kept k f heap m) fun _ => Finished k

namespace Kept

theorem finished (h : Kept k f heap m) : Finished k m := ⟨k.left_of_holds h.holds, h.off⟩

/-! ## Operands, locals and globals -/

theorem good_root (h : Kept k f heap m) {w : Word} (hw : m.memory.IsRoot w) : k.good heap w :=
  h.heap ▸ k.good_root h.holds hw

theorem inspect {act : Machine → Except Fault α} (h : Kept k f heap m) {good : α → Prop}
    (hgood : ∀ a, act m = .ok a → good a) :
    Ensures (fun a m => good a ∧ Kept k f heap m) (fun _ => Finished k)
      (Machine.inspect act m) := by
  unfold Machine.inspect
  cases hact : act m with
  | ok a => exact ⟨hgood a hact, h⟩
  | error e => exact h.finished

theorem push {w : Word} (h : Kept k f heap m)
    (hw : m.memory.stack.words.size < m.memory.stack.limit → k.good heap w) :
    Keeps k f heap (Machine.push w m) := by
  rw [Machine.push, Machine.onStack_eq, OperandStack.push]
  split_ifs with hfull
  · exact h.finished
  · have hroom := Nat.lt_of_not_le hfull
    exact { h with holds := k.push h.holds (h.heap ▸ hw hroom) hroom }

theorem pop (h : Kept k f heap m) : GivesGood k f heap (Machine.pop m) := by
  rw [Machine.pop, Machine.onStack_eq, OperandStack.pop]
  cases hback : m.memory.stack.words.back? with
  | none => exact h.finished
  | some w =>
    have hmem : m.memory.IsRoot w := .inl (Array.mem_of_back? hback)
    exact ⟨h.good_root hmem, { h with holds := k.pop h.holds }⟩

theorem popOrZero (h : Kept k f heap m) : GivesGood k f heap (Machine.popOrZero m) := by
  rw [Machine.popOrZero_eq, OperandStack.popOrZero]
  cases hback : m.memory.stack.words.back? with
  | none => exact ⟨k.good_plain (show Word.zero.handle? = none by decide), h⟩
  | some w =>
    have hmem : m.memory.IsRoot w := .inl (Array.mem_of_back? hback)
    exact ⟨h.good_root hmem, { h with holds := k.pop h.holds }⟩

theorem peek (h : Kept k f heap m) : GivesGood k f heap (Machine.peek m) := by
  refine h.inspect fun w hw => h.good_root (.inl ?_)
  unfold OperandStack.peek at hw
  split at hw
  · next hback =>
      cases hw
      exact Array.mem_of_back? hback
  · cases hw

theorem loadLocal (index : UInt8) (h : Kept k f heap m) :
    GivesGood k f heap (Machine.loadLocal index m) := by
  refine h.inspect fun w hw => h.good_root (.inr (.inl ?_))
  unfold CallStack.loadLocal at hw
  split at hw
  · next frame hback =>
      unfold Frame.load at hw
      split at hw
      · next hget =>
          cases hw
          exact ⟨frame, Array.mem_of_back? hback, Array.mem_of_getElem? hget⟩
      · cases hw
  · cases hw

theorem loadGlobal (index : UInt16) (h : Kept k f heap m) :
    GivesGood k f heap (Machine.loadGlobal index m) := by
  refine h.inspect fun w hw => h.good_root (.inr (.inr ?_))
  unfold Globals.load at hw
  split at hw
  · next hget =>
      cases hw
      exact Array.mem_of_getElem? hget
  · cases hw

theorem storeLocal (index : UInt8) {w : Word} (h : Kept k f heap m) (hw : k.good heap w) :
    Keeps k f heap (Machine.storeLocal index w m) := by
  rw [Machine.storeLocal, Machine.onCalls_eq]
  cases hstore : CallStack.storeLocal index w m.memory.calls with
  | ok _ calls => exact { h with holds := k.storeLocal h.holds (h.heap ▸ hw) hstore }
  | error e calls =>
    rw [CallStack.eq_of_storeLocal_error hstore]
    exact h.finished

theorem storeGlobal (index : UInt16) {w : Word} (h : Kept k f heap m) (hw : k.good heap w) :
    Keeps k f heap (Machine.storeGlobal index w m) := by
  rw [Machine.storeGlobal, Machine.onGlobals_eq]
  cases hstore : Globals.store index w m.memory.globals with
  | ok _ globals => exact { h with holds := k.storeGlobal h.holds (h.heap ▸ hw) hstore }
  | error e globals =>
    rw [Globals.eq_of_store_error hstore]
    exact h.finished

theorem onConsole (act : EStateM Fault Console α) (h : Kept k f heap m) :
    Keeps k f heap (Machine.onConsole act m) := by
  rw [Machine.onConsole_eq]
  cases act m.console with
  | ok a console => exact { h with }
  | error e console => exact { h.finished with }

/-! ## Arrays -/

theorem loadElement (array index : Word) (h : Kept k f heap m) :
    GivesGood k f heap (Machine.loadElement array index m) :=
  h.inspect fun _ hw => h.heap ▸ k.good_load h.holds hw

theorem arrayLength (array : Word) (h : Kept k f heap m) :
    GivesGood k f heap (Machine.arrayLength array m) := by
  refine h.inspect fun w hw => ?_
  cases hlength : m.memory.heap.length array with
  | error e =>
    rw [hlength] at hw
    cases hw
  | ok n =>
    rw [hlength] at hw
    obtain rfl := Except.ok.inj hw
    exact h.heap ▸ k.good_length h.holds hlength

theorem storeElement (array index : Word) {w : Word} (h : Kept k f heap m) (hw : k.good heap w) :
    Preserves k f (Machine.storeElement array index w m) := by
  rw [Machine.storeElement, Machine.onHeap_eq]
  obtain ⟨i, j, hstore⟩ | ⟨e, hstore⟩ := m.memory.heap.store_cases array index w
  · rw [hstore]
    exact ⟨_, k.storeElement h.holds (h.heap ▸ hw) hstore, rfl, h.off⟩
  · rw [hstore]
    exact h.finished

/-- A new array may be preceded by a collection, and its slot may be new, also when the array is
    then refused. -/
theorem newArray (length : Word) (h : Kept k f heap m) :
    Ensures (fun w m => ∃ heap, k.good heap w ∧ Kept k f heap m) (fun _ => Finished k)
      (Machine.newArray length m) := by
  have hready : ∃ heap, Kept k f heap (if m.memory.heap.due then m.collect.2 else m) := by
    split_ifs
    · exact ⟨_, k.collect h.holds, rfl, h.off⟩
    · exact ⟨heap, h⟩
  rw [Machine.newArray_eq]
  obtain ⟨heap', h'⟩ := hready
  rw [Machine.onHeap_eq]
  generalize (if m.memory.heap.due then m.collect.2 else m) = m' at h'
  cases halloc : Heap.alloc length.toInt m'.memory.heap with
  | ok w heap =>
    obtain ⟨hholds, hgood⟩ := k.alloc h'.holds halloc
    exact ⟨heap, hgood, hholds, rfl, h'.off⟩
  | error e heap => exact ⟨k.left_of_holds (k.allocFailed h'.holds halloc), h'.off⟩

end Kept

/-! ## Instructions -/

namespace Kept

variable {i : Instr} {next length : Nat} {args : List Word}

theorem popOperands (n : Nat) (h : Kept k f heap m) :
    Ensures (fun args m => (∀ w ∈ args, k.good heap w) ∧ Kept k f heap m) (fun _ => Finished k)
      (Machine.popOperands n m) := by
  induction n generalizing m with
  | zero => exact ⟨by simp, h⟩
  | succ n ih =>
    refine h.pop.bind fun w m ⟨hw, h⟩ => (ih h).bind fun args m ⟨hargs, h⟩ => ?_
    exact ⟨List.forall_mem_cons.2 ⟨hw, hargs⟩, h⟩

theorem good_operand (hargs : ∀ w ∈ args, k.good heap w) (n : Nat) :
    k.good heap (operand args n) := by
  rw [operand, List.getD_eq_getElem?_getD]
  cases hn : args[n]? with
  | none => exact k.good_plain (show Word.zero.handle? = none by decide)
  | some w => exact hargs w (List.mem_of_getElem? hn)

/-- What an instruction comes to is a good word, unless it makes the word up. Then the heap is as it
    was. -/
def Gives (k : Invariant image) (f : UInt16) (i : Instr) (heap : Heap) (outcome : Outcome)
    (m : Machine) : Prop :=
  ∃ heap', Kept k f heap' m ∧
    ∀ w, outcome = .word w → k.good heap' w ∨ i.makesInt = true ∧ heap' = heap

theorem gives_go {heap' : Heap} (h : Kept k f heap' m) (flow : Flow) :
    Gives k f i heap (.go flow) m := by
  refine ⟨heap', h, ?_⟩
  rintro _ ⟨⟩

theorem gives_good {heap' : Heap} {w : Word} (h : Kept k f heap' m) (hw : k.good heap' w) :
    Gives k f i heap (.word w) m := by
  refine ⟨heap', h, ?_⟩
  rintro _ ⟨⟩
  exact .inl hw

theorem gives_made {w : Word} (h : Kept k f heap m)
    (hw : w.handle? = none ∨ i.makesInt = true) : Gives k f i heap (.word w) m := by
  refine ⟨heap, h, ?_⟩
  rintro _ ⟨⟩
  exact hw.imp k.good_plain fun hi => ⟨hi, rfl⟩

/-- What an instruction does with good operands keeps the invariant. -/
theorem act (h : Kept k f heap m) (hargs : ∀ w ∈ args, k.good heap w) :
    Ensures (Gives k f i heap) (fun _ => Finished k) (Machine.act next length i args m) := by
  have hgood := good_operand hargs
  have hword {x : Action Word} (hx : GivesGood k f heap (x m)) :
      Ensures (Gives k f i heap) (fun _ => Finished k)
        ((do let w ← x; return Outcome.word w : Action Outcome) m) := by
    refine hx.bind ?_
    rintro w m ⟨hw, h⟩
    exact gives_good h hw
  have hdone {x : Action Unit} (hx : Keeps k f heap (x m)) :
      Ensures (Gives k f i heap) (fun _ => Finished k)
        ((do x; return Outcome.go .next : Action Outcome) m) :=
    hx.bind fun _ _ h => gives_go h .next
  cases i with
  | nop | pop | call | ret | halt => exact gives_go h _
  | pushInt n => exact gives_made h (.inr rfl)
  | pushDouble pattern => exact gives_made h (.inl (Word.handle?_ofDouble _))
  | dup => exact hword h.peek
  | binary op =>
    have heval : Ensures (fun w m => (w.handle? = none ∨ (Instr.binary op).makesInt = true) ∧
        Kept k f heap m) (fun _ => Finished k)
        (Machine.inspect (fun _ => op.eval (operand args 1) (operand args 0)) m) := by
      refine h.inspect fun w hw => ?_
      have hproduced := op.eval_produced (operand args 1) (operand args 0)
      rw [hw] at hproduced
      cases hproduced with
      | found h => exact h.2
    refine heval.bind ?_
    rintro w m ⟨hw, h⟩
    exact gives_made h hw
  | unary op => exact gives_made h (op.eval_produced _).2
  | jump branch offset =>
    rw [Machine.act]
    split_ifs
    · refine (h.inspect fun _ _ => trivial).bind ?_
      rintro target m ⟨-, h⟩
      exact gives_go h _
    · exact gives_go h _
  | loadLocal index => exact hword (h.loadLocal index)
  | storeLocal index => exact hdone (h.storeLocal index (hgood 0))
  | loadGlobal index => exact hword (h.loadGlobal index)
  | storeGlobal index => exact hdone (h.storeGlobal index (hgood 0))
  | arrayNew =>
    refine (h.newArray _).bind ?_
    rintro w m ⟨heap', hw, h⟩
    exact gives_good h hw
  | arrayLoad => exact hword (h.loadElement _ _)
  | arrayStore =>
    refine (h.storeElement _ _ (hgood 0)).bind ?_
    rintro _ m ⟨heap', h⟩
    exact gives_go h .next
  | arrayLen => exact hword (h.arrayLength _)
  | printInt => exact hdone (h.onConsole _)
  | readInt => exact (h.onConsole _).bind fun _ _ h => gives_made h (.inr rfl)

/-- An instruction keeps the invariant if an integer that it makes is a good word. -/
theorem interpret (h : Kept k f heap m)
    (hmakes : i.makesInt = true → ∀ w, i.Makes next length m w → k.good heap w) :
    Preserves k f (Machine.interpret next length i m) := by
  refine Ensures.interpret (h.popOperands i.takes) (fun args m ⟨hargs, h⟩ => h.act hargs) ?_
  rintro outcome m₂ ⟨heap', h, hgood⟩ hmade
  cases outcome with
  | go flow => exact ⟨heap', h⟩
  | word w =>
    refine (h.push fun hroom => ?_).bind fun _ _ h => ⟨heap', h⟩
    rcases hgood w rfl with hw | ⟨hi, rfl⟩
    · exact hw
    · exact hmakes hi w (hmade w rfl hroom)

/-! ## Calls and returns -/

theorem popArguments (n : Nat) (args : List Word) (hargs : ∀ w ∈ args, k.good heap w)
    (h : Kept k f heap m) :
    Ensures (fun words m => words.length = n + args.length ∧ (∀ w ∈ words, k.good heap w) ∧
      Kept k f heap m) (fun _ => Finished k) (Machine.popArguments n args m) := by
  induction n generalizing args m with
  | zero => exact ⟨by omega, hargs, h⟩
  | succ n ih =>
    refine h.pop.bind fun w m ⟨hw, h⟩ => ?_
    refine (ih (w :: args) (List.forall_mem_cons.2 ⟨hw, hargs⟩) h).mono ?_
    rintro words m ⟨hlength, hwords⟩
    exact ⟨by rw [hlength, List.length_cons]; omega, hwords⟩

/-- A call moves its arguments into the locals of the new frame, and fills up with zeros. -/
theorem enterFrame {g : UInt16} {caller : Image.Function} {pc : Nat} (h : Kept k f heap m)
    (hf : image.function? f = some caller) (hd : caller.code.decode pc = .ok (.call g)) :
    Keeps k g heap (Machine.enterFrame image g f (some (pc + Opcode.call.size)) m) := by
  unfold Machine.enterFrame
  cases hg : image.function? g with
  | none => exact h.finished
  | some callee =>
    dsimp only
    by_cases hlocals : callee.locals < callee.arity
    · rw [if_pos hlocals]
      exact h.finished
    rw [if_neg hlocals]
    refine (h.inspect fun _ _ => trivial).bind fun _ m ⟨_, h⟩ => ?_
    refine (h.popArguments callee.arity.toNat [] (by simp)).bind ?_
    rintro args m ⟨hlength, hargs, h⟩
    rw [Machine.onCalls_eq, CallStack.push]
    by_cases hfull : m.memory.calls.limit ≤ m.memory.calls.frames.size
    · rw [if_pos hfull]
      exact h.finished
    rw [if_neg hfull]
    refine { h with holds := k.call h.holds hf hd hg hlocals ?_ ?_ (Nat.lt_of_not_le hfull) }
    · have hle : callee.arity.toNat ≤ callee.locals.toNat :=
        UInt8.le_iff_toNat_le.1 (UInt8.not_lt.1 hlocals)
      rw [List.size_toArray, List.length_append, List.length_replicate, hlength, List.length_nil]
      omega
    · intro w hw
      rw [List.mem_toArray, List.mem_append, List.mem_replicate] at hw
      rcases hw with hw | ⟨-, rfl⟩
      · exact h.heap ▸ hargs w hw
      · exact k.good_plain (by decide)

/-- A return leads to code of the function to which the frame belongs that it uncovers, or out of
    the program. -/
theorem leaveFrame (h : Kept k f heap m) :
    Ensures (fun r m => match r with
        | .resume g _ => ∃ heap, Kept k g heap m
        | .finish _ => Finished k m) (fun _ => Finished k) (Machine.leaveFrame m) := by
  refine h.popOrZero.bind fun value m ⟨hvalue, h⟩ => ?_
  cases hback : m.memory.calls.frames.back? with
  | none =>
    have hpop : Machine.onCalls CallStack.pop m = .error .stackUnderflow m := by
      rw [Machine.onCalls_eq, CallStack.pop, hback]
    rw [bind_of_error hpop]
    exact h.finished
  | some frame =>
    have hpop : Machine.onCalls CallStack.pop m = .ok frame { m with memory := { m.memory with
        calls := ⟨m.memory.calls.frames.pop, m.memory.calls.limit⟩ } } := by
      rw [Machine.onCalls_eq, CallStack.pop, hback]
    rw [bind_of_ok hpop]
    cases haddress : frame.returnAddress with
    | none => exact ⟨k.finish h.holds, h.off⟩
    | some pc =>
      have h' : Kept k frame.returnFunction heap { m with memory := { m.memory with
          calls := ⟨m.memory.calls.frames.pop, m.memory.calls.limit⟩ } } :=
        { h with holds := k.ret h.holds hback haddress }
      exact (h'.push fun _ => hvalue).bind fun _ _ h => ⟨heap, h⟩

end Kept

/-! ## Steps -/

/-- The invariant holds of a state that interprets, in one activation, or of what is left when the
    run is over. -/
inductive Invariant.Upheld (k : Invariant image) : Progress → Prop
  | running {a m} (h : Kept k a.function m.memory.heap m) :
      Upheld k (.running ⟨.interpreting a, [], m⟩)
  | ended {e} (h : Finished k e.machine) : Upheld k (.ended e)

/-- If the next instruction makes an integer, then it is a good word. -/
def Invariant.Accepts (k : Invariant image) (setup : Setup) (s : State) : Prop :=
  ∀ i ∈ s.instr? image, i.makesInt = true →
    ∀ w ∈ (s.step setup).top?, k.good s.machine.memory.heap w

namespace Invariant

variable {setup : Setup} {a : Interpreting}

theorem upheld_abort (fault : Fault) (location : Location) (h : Finished k m) :
    k.Upheld (State.abort [] fault location m) := .ended h

theorem upheld_halt (h : Kept k f heap m) : k.Upheld (State.halt [] m) := by
  have hpop := h.popOrZero
  rw [State.halt]
  cases hm : Machine.popOrZero m with
  | ok value m' =>
    rw [hm] at hpop
    exact .ended hpop.2.finished
  | error e m' =>
    rw [hm] at hpop
    exact .ended hpop

theorem upheld_call {g : UInt16} {caller : Image.Function} (hi : setup.image = image)
    (h : Kept k a.function heap m) (hf : image.function? a.function = some caller)
    (hd : caller.code.decode a.pc = .ok (.call g)) :
    k.Upheld (State.callFromInterpreter setup a (a.pc + Opcode.call.size) g [] m) := by
  have henter := h.enterFrame hf hd
  rw [State.callFromInterpreter, hi, Machine.enterCall_of_off h.off]
  cases hm : Machine.enterFrame image g a.function (some (a.pc + Opcode.call.size)) m with
  | error e m' =>
    rw [hm] at henter
    rw [bind_of_error hm]
    exact upheld_abort _ _ henter
  | ok _ m' =>
    rw [hm] at henter
    rw [bind_of_ok hm]
    exact .running ⟨henter.holds, rfl, henter.off⟩

theorem upheld_return (h : Kept k f heap m) : k.Upheld (State.returnFromInterpreter a [] m) := by
  have hleave := h.leaveFrame
  rw [State.returnFromInterpreter]
  cases hm : Machine.leaveFrame m with
  | error e m' =>
    rw [hm] at hleave
    exact upheld_abort _ _ hleave
  | ok r m' =>
    rw [hm] at hleave
    cases r with
    | finish value => exact .ended hleave
    | resume g pc =>
      obtain ⟨heap', h'⟩ := hleave
      dsimp only
      split_ifs
      · exact .ended h'.finished
      · exact .running ⟨h'.holds, rfl, h'.off⟩

/-- A step keeps the invariant if an integer that is made is a good word. -/
theorem Upheld.step {s : State} (hi : setup.image = image) (h : k.Upheld (.running s))
    (haccepts : k.Accepts setup s) : k.Upheld (s.step setup) := by
  cases h with
  | @running a m h =>
    rw [State.step, State.interpret, hi]
    cases hf : image.function? a.function with
    | none => exact .ended h.finished
    | some function =>
      dsimp only
      by_cases hend : function.code.size ≤ a.pc
      · rw [if_pos hend]
        exact upheld_halt h
      rw [if_neg hend]
      cases hd : function.code.decode a.pc with
      | error e => exact upheld_abort _ _ h.finished
      | ok i =>
        dsimp only
        obtain ⟨journal, hreport⟩ := report_eq setup a i m
        have hreported : Kept k a.function m.memory.heap (State.report setup a i m) := by
          rw [hreport]
          exact { h with }
        have hmakes : i.makesInt = true → ∀ w,
            i.Makes (a.pc + i.size) function.code.size (State.report setup a i m) w →
              k.good m.memory.heap w := by
          rintro hmakes w ⟨m', hm, hw⟩
          refine haccepts i ?_ hmakes w ?_
          · exact hi ▸ State.mem_instr? (hi ▸ hf) hend hd
          · rw [State.step_of_next (hi ▸ hf) hend hd hm]
            exact hw
        have hpreserves := hreported.interpret hmakes
        have hensures := ensures_interpret (a.pc + i.size) function.code.size i
          (State.report setup a i m)
        cases hm : Machine.interpret (a.pc + i.size) function.code.size i
            (State.report setup a i m) with
        | error e m' =>
          rw [hm] at hpreserves
          exact upheld_abort _ _ hpreserves
        | ok flow m' =>
          rw [hm] at hpreserves hensures
          obtain ⟨heap', h'⟩ := hpreserves
          cases flow with
          | next => exact .running ⟨h'.holds, rfl, h'.off⟩
          | jump target => exact .running ⟨h'.holds, rfl, h'.off⟩
          | call g =>
            obtain rfl : i = .call g := hensures
            exact upheld_call hi h' hf hd
          | ret => exact upheld_return h'
          | halt => exact upheld_halt h'

/-! ## Runs -/

/-- A run keeps the invariant if every integer that it makes is a good word. -/
theorem Upheld.visits {p : Progress} {t : State} (hi : setup.image = image) (h : k.Upheld p)
    (ht : p.Visits setup t) (haccepts : ∀ s, p.Visits setup s → k.Accepts setup s) :
    k.Upheld (.running t) := by
  induction ht with
  | here s => exact h
  | later _ ih => exact ih (h.step hi (haccepts _ (.here _))) fun s hs => haccepts s (.later hs)

theorem Upheld.run {s : State} {e : Ending} {fuel : Nat} (hi : setup.image = image)
    (h : k.Upheld (.running s)) (haccepts : ∀ t, k.Accepts setup t)
    (hrun : s.run setup fuel = some e) : Finished k e.machine := by
  induction fuel generalizing s with
  | zero => cases hrun
  | succ fuel ih =>
    rw [State.run] at hrun
    have hstep := h.step hi (haccepts s)
    cases hs : s.step setup with
    | ended e' =>
      rw [hs] at hstep hrun
      obtain rfl := Option.some.inj hrun
      cases hstep with
      | ended h => exact h
    | running s' =>
      rw [hs] at hstep hrun
      exact ih hstep hrun

/-- The frame of the entry function gets no arguments: its locals are all zero. -/
theorem enterEntry (hoff : m.promotion.mode = .off) (hbegins : k.begins m.memory) :
    Keeps k image.entry m.memory.heap.clear (Machine.enterFrame image image.entry image.entry none
      { m with memory := m.memory.reset image.globals.toNat }) := by
  have hfailed : Finished k { m with memory := m.memory.reset image.globals.toNat } :=
    ⟨k.reset hbegins, hoff⟩
  unfold Machine.enterFrame
  cases hg : image.function? image.entry with
  | none => exact hfailed
  | some g =>
    dsimp only
    by_cases hlocals : g.locals < g.arity
    · rw [if_pos hlocals]
      exact hfailed
    rw [if_neg hlocals]
    have hroom : Ensures (fun _ m' => m' = { m with memory := m.memory.reset image.globals.toNat })
        (fun _ => Finished k)
        (Machine.checkRoom { m with memory := m.memory.reset image.globals.toNat }) := by
      unfold Machine.checkRoom Machine.inspect
      split
      · rfl
      · exact hfailed
    refine hroom.bind fun _ m' hm' => ?_
    subst hm'
    have hzeros : (([] : List Word) ++ List.replicate (g.locals.toNat - 0) Word.zero).toArray =
        Array.replicate g.locals.toNat Word.zero := by simp
    change Keeps k image.entry m.memory.heap.clear (Machine.onCalls (CallStack.push
      ⟨image.entry, image.entry, none,
        ([] ++ List.replicate (g.locals.toNat - 0) Word.zero).toArray⟩)
        { m with memory := m.memory.reset image.globals.toNat })
    rw [hzeros, Machine.onCalls_eq, CallStack.push]
    split_ifs with hfull
    · exact hfailed
    · exact ⟨k.start hbegins hg hlocals (Nat.lt_of_not_le hfull), rfl, hoff⟩

/-- A run starts with the frame of the entry function. -/
theorem upheld_start (hi : setup.image = image) (hoff : m.promotion.mode = .off)
    (hbegins : k.begins m.memory) :
    k.Upheld (State.start setup
      { m with memory := m.memory.reset image.globals.toNat }) := by
  have henter := enterEntry hoff hbegins
  rw [State.start, hi]
  rw [Machine.enterCall_of_off (by exact hoff)]
  cases hm : Machine.enterFrame image image.entry image.entry none
      { m with memory := m.memory.reset image.globals.toNat } with
  | error e m' =>
    rw [hm] at henter
    rw [bind_of_error hm]
    exact upheld_abort _ _ henter
  | ok _ m' =>
    rw [hm] at henter
    rw [bind_of_ok hm]
    exact .running ⟨henter.holds, rfl, henter.off⟩

end Invariant

/-! ## Sessions -/

/-- What becomes of a session by runs that end, and by collections between them. -/
inductive Session.Continues : Session → Session → Prop
  | refl (s : Session) : Continues s s
  | run {s t t' : Session} {fuel : Nat} {outcome : Except Failure Word} (h : Continues s t)
      (hrun : t.run fuel = some (outcome, t')) : Continues s t'
  | collect {s t : Session} (h : Continues s t) : Continues s t.collect.2

/-- The flush at the end of a run changes the console only. -/
theorem Session.conclude_eq (setup : Setup) (e : Ending) :
    ∃ console, (Session.conclude setup e).2 = ⟨setup, { e.machine with console }⟩ := by
  obtain ⟨outcome, m⟩ := e
  rw [Session.conclude, Machine.onConsole_eq]
  cases Console.flush m.console with
  | ok _ console => exact ⟨console, rfl⟩
  | error fault console => cases outcome <;> exact ⟨console, rfl⟩

/-- A session over an image that never compiles and has what a run starts from. -/
structure Invariant.Ready (k : Invariant image) (s : Session) : Prop where
  image : s.setup.image = image
  off : s.machine.promotion.mode = .off
  begins : k.begins s.machine.memory

namespace Invariant.Ready

variable {s t : Session}

theorem start (h : k.Ready s) : k.Upheld s.start := by
  obtain ⟨rfl, hoff, hbegins⟩ := h
  exact upheld_start rfl hoff hbegins

theorem conclude {setup : Setup} {e : Ending} (hi : setup.image = image)
    (h : Finished k e.machine) : k.Ready (Session.conclude setup e).2 := by
  obtain ⟨console, heq⟩ := Session.conclude_eq setup e
  rw [heq]
  exact ⟨hi, h.off, k.begins_of_left h.left⟩

/-- When all words are good, a run leaves behind what the next one starts from. -/
theorem run {fuel : Nat} {outcome : Except Failure Word} (hgood : ∀ heap w, k.good heap w)
    (h : k.Ready s) (hrun : s.run fuel = some (outcome, t)) : k.Ready t := by
  have hstart := h.start
  rw [Session.run] at hrun
  cases hs : s.start with
  | ended e =>
    rw [hs] at hstart hrun
    cases hstart with
    | ended hfinished =>
      obtain rfl := congrArg Prod.snd (Option.some.inj hrun)
      exact conclude h.image hfinished
  | running state =>
    rw [hs] at hstart hrun
    dsimp only at hrun
    cases hr : State.run s.setup fuel state with
    | none =>
      rw [hr] at hrun
      cases hrun
    | some e =>
      rw [hr] at hrun
      have hfinished := hstart.run h.image (fun t i _ _ w _ => hgood _ w) hr
      obtain rfl := congrArg Prod.snd (Option.some.inj hrun)
      exact conclude h.image hfinished

theorem continues (hgood : ∀ heap w, k.good heap w) (h : k.Ready s) (hst : s.Continues t) :
    k.Ready t := by
  induction hst with
  | refl => exact h
  | run _ hrun ih => exact ih.run hgood hrun
  | collect _ ih => exact ⟨ih.image, ih.off, k.begins_collect ih.begins⟩

end Invariant.Ready

end StackMachine
