import StackMachine.Proofs.Machine.Blame
import StackMachine.Proofs.Native.Lockstep

/-!
# Running without overflow checks

Compiled code without loops and calls goes forward only, so it can add no more words than there are
operations that add one. If the operand stack has room for all of them, then the checks of its
pushes never fail: with them and without them, the run is the same.

* `Workspace.HasRoom`: room for a number of further operands, counting those in registers.
* `keepsRoom_execute`: an operation uses up room for one word at most, and only if it may grow.
* `execute_unchecked`: with room for that word, it does not matter whether pushes are checked.
* `State.toExit`: what compiled code does until it is left.
* `unchecked_same`: the whole run.
-/

namespace StackMachine

open Native

/-! ## Actions that spare the operand stack -/

section Spares

variable {α : Type} {m : Machine}

/-- The action leaves the operand stack alone, and if it fails, it is not for lack of room there. -/
abbrev SparesStack (m : Machine) : EStateM.Result Fault Machine α → Prop :=
  Ensures (fun _ m' => m'.memory.stack = m.memory.stack)
    fun e _ => ∀ limit, e ≠ .stackOverflow limit

/-- What instructions do with their operands spares the operand stack. -/
theorem spares_of_acting {i : Instr} {act : Action α} (hsteady : Machine.Steady False act)
    (h : Acting i (act m)) : SparesStack m (act m) :=
  (hsteady.retains_stack m).withFailed (h.weaken fun _ _ => Instr.ne_overflow_of_actRaises)

end Spares

/-! ## Room for operands -/

namespace Native

namespace CachedStack

variable {c : CachedStack}

/-- With room for a word, a push succeeds, whether it is checked or not. -/
theorem push_of_lt (h : c.size < c.stack.limit) (w : Word) :
    ∃ c', (∀ checked, push checked w c = .ok () c') ∧ c'.size = c.size + 1 ∧
      c'.stack.limit = c.stack.limit := by
  obtain ⟨stack, registers⟩ := c
  have hchecked : ∀ checked, push checked w ⟨stack, registers⟩ = store w ⟨stack, registers⟩ := by
    intro checked
    rw [push, if_neg]
    simp only [Bool.and_eq_true, decide_eq_true_eq, not_and]
    intro _
    exact Nat.not_le.2 h
  simp only [hchecked]
  cases registers with
  | none => exact ⟨_, fun _ => rfl, rfl, rfl⟩
  | one top => exact ⟨_, fun _ => rfl, rfl, rfl⟩
  | two below top =>
    have hspill : stack.words.size + 2 < stack.limit := h
    refine ⟨⟨⟨stack.words.push below, stack.limit⟩, .two top w⟩, fun _ => ?_, ?_, rfl⟩
    · simp only [store, OperandStack.push]
      rw [if_neg (by omega)]
    · show (stack.words.push below).size + 2 = stack.words.size + 2 + 1
      rw [Array.size_push]

theorem ensures_pop (c : CachedStack) :
    Ensures (fun _ c' => c'.size + 1 = c.size ∧ c'.stack.limit = c.stack.limit)
      (fun e _ => e = .stackUnderflow) (pop c) := by
  obtain ⟨stack, registers⟩ := c
  cases registers with
  | two below top => exact ⟨rfl, rfl⟩
  | one top => exact ⟨rfl, rfl⟩
  | none =>
    simp only [pop, OperandStack.pop]
    cases hback : stack.words.back? with
    | none => rfl
    | some w =>
      have hpos := Array.size_pos_of_mem (Array.mem_of_back? hback)
      refine ⟨?_, rfl⟩
      show stack.words.pop.size + 0 + 1 = stack.words.size + 0
      rw [Array.size_pop]
      omega

/-- Without more operands than there may be, the registers can be flushed. -/
theorem flush_of_le (h : c.size ≤ c.stack.limit) :
    ∃ stack, flush c = .ok () ⟨stack, .none⟩ ∧ stack.size = c.size ∧
      stack.limit = c.stack.limit := by
  obtain ⟨stack, registers⟩ := c
  cases registers with
  | none => exact ⟨stack, rfl, rfl, rfl⟩
  | one top =>
    have hroom : stack.words.size + 1 ≤ stack.limit := h
    refine ⟨⟨stack.words.push top, stack.limit⟩, ?_, Array.size_push _, rfl⟩
    simp only [flush, OperandStack.push]
    rw [if_neg (by omega)]
  | two below top =>
    have hroom : stack.words.size + 2 ≤ stack.limit := h
    refine ⟨⟨(stack.words.push below).push top, stack.limit⟩, ?_, ?_, rfl⟩
    · simp only [flush, OperandStack.push]
      rw [if_neg (by omega)]
      simp only [Array.size_push]
      rw [if_neg (by omega)]
    · show ((stack.words.push below).push top).size = stack.words.size + 2
      simp

end CachedStack

namespace Workspace

/-- There is room for as many further operands below the limit. -/
structure HasRoom (limit room : Nat) (w : Workspace) : Prop where
  bound : w.machine.memory.stack.limit = limit
  fits : CachedStack.size ⟨w.machine.memory.stack, w.registers⟩ + room ≤ limit

variable {α : Type} {limit room : Nat} {checked : Bool} {w : Workspace}

theorem HasRoom.le {room' : Nat} (h : w.HasRoom limit room) (hle : room' ≤ room) :
    w.HasRoom limit room' :=
  ⟨h.bound, by have := h.fits; omega⟩

theorem HasRoom.stack_le (h : w.HasRoom limit room) :
    w.machine.memory.stack.words.size + room ≤ w.machine.memory.stack.limit := by
  have hfits : w.machine.memory.stack.words.size + w.registers.size + room ≤ limit := h.fits
  rw [h.bound]
  omega

/-- The action leaves room, and if it fails, it is not for lack of it. -/
abbrev KeepsRoom (limit room : Nat) : EStateM.Result Fault Workspace α → Prop :=
  Ensures (fun _ w => w.HasRoom limit room) fun e _ => ∀ limit, e ≠ .stackOverflow limit

theorem keepsRoom_push (h : w.HasRoom limit (room + 1)) (v : Word) :
    KeepsRoom limit room (push checked v w) := by
  have hfits := h.fits
  obtain ⟨c, hpush, hsize, hlimit⟩ := CachedStack.push_of_lt
    (c := ⟨w.machine.memory.stack, w.registers⟩) (by rw [h.bound]; omega) v
  rw [push, onOperands_eq, hpush checked]
  exact ⟨hlimit.trans h.bound, by
    show c.size + room ≤ limit
    omega⟩

/-- With room for the word, a push need not be checked. -/
theorem push_unchecked (h : w.HasRoom limit (room + 1)) (v : Word) :
    push false v w = push true v w := by
  have hfits := h.fits
  obtain ⟨c, hpush, -⟩ := CachedStack.push_of_lt
    (c := ⟨w.machine.memory.stack, w.registers⟩) (by rw [h.bound]; omega) v
  rw [push, push, onOperands_eq, onOperands_eq, hpush false, hpush true]

theorem keepsRoom_pop (h : w.HasRoom limit room) : KeepsRoom limit (room + 1) (pop w) := by
  have hfits := h.fits
  have hpop := CachedStack.ensures_pop ⟨w.machine.memory.stack, w.registers⟩
  rw [pop, onOperands_eq]
  cases hact : CachedStack.pop ⟨w.machine.memory.stack, w.registers⟩ with
  | ok v c =>
    rw [hact] at hpop
    obtain ⟨hsize, hlimit⟩ := hpop
    exact ⟨hlimit.trans h.bound, by
      show c.size + (room + 1) ≤ limit
      omega⟩
  | error e c =>
    rw [hact] at hpop
    obtain rfl : e = .stackUnderflow := hpop
    simp [Ensures]

theorem keepsRoom_flush (h : w.HasRoom limit room) : KeepsRoom limit room (flush w) := by
  have hfits := h.fits
  obtain ⟨stack, hflush, hsize, hlimit⟩ := CachedStack.flush_of_le
    (c := ⟨w.machine.memory.stack, w.registers⟩) (by rw [h.bound]; omega)
  rw [flush, onOperands_eq, hflush]
  exact ⟨hlimit.trans h.bound, by
    show stack.size + 0 + room ≤ limit
    omega⟩

theorem keepsRoom_inspect {act : Workspace → Except Fault α} (h : w.HasRoom limit room)
    (hact : ∀ e, act w = .error e → ∀ limit, e ≠ .stackOverflow limit) :
    KeepsRoom limit room (inspect act w) := by
  unfold inspect
  cases he : act w with
  | ok a => exact h
  | error e => exact hact e he

theorem keepsRoom_peek (h : w.HasRoom limit room) : KeepsRoom limit room (peek w) := by
  refine keepsRoom_inspect h fun e he limit => ?_
  unfold CachedStack.peek at he
  split at he
  · cases he
  · cases he
  · unfold OperandStack.peek at he
    split at he
    · cases he
    · rw [← Except.error.inj he]
      simp

theorem keepsRoom_onMachine {act : Action α} (h : w.HasRoom limit room)
    (hact : SparesStack w.machine (act w.machine)) : KeepsRoom limit room (onMachine act w) := by
  rw [onMachine_eq]
  cases hm : act w.machine with
  | ok a m =>
    rw [hm] at hact
    have hstack : m.memory.stack = w.machine.memory.stack := hact
    exact ⟨by rw [hstack]; exact h.bound, by rw [hstack]; exact h.fits⟩
  | error e m =>
    rw [hm] at hact
    exact hact

/-- A value is found and put on the operand stack. -/
theorem keepsRoom_produce {act : Action Word} (h : w.HasRoom limit (room + 1))
    (hact : SparesStack w.machine (act w.machine)) :
    KeepsRoom limit room (onMachine (do let v ← act; Machine.push v) w) := by
  rw [onMachine_bind]
  refine (keepsRoom_onMachine h hact).bind fun v w h => ?_
  have hstack := h.stack_le
  have hfits := h.fits
  rw [onMachine_eq, Machine.push, Machine.onStack_eq, OperandStack.push, if_neg (by omega)]
  refine ⟨h.bound, ?_⟩
  show (w.machine.memory.stack.words.push v).size + w.registers.size + room ≤ limit
  have hsize : w.machine.memory.stack.words.size + w.registers.size + (room + 1) ≤ limit := hfits
  rw [Array.size_push]
  omega

end Workspace

end Native

/-! ## Operations -/

/-- Where control can go after an operation. -/
def Flow.After (op : Op) : Flow → Prop
  | .next | .halt => True
  | .jump target => ∃ branch, op = .jump branch target
  | .call _ => op.isCall = true
  | .ret => op = .ret

namespace Native

open Workspace

section Execute

variable {limit room : Nat} {w : Workspace}

/-- An operation takes up room for a word only if it may grow the stack. -/
theorem keepsRoom_execute {op : Op} (checked : Bool)
    (h : w.HasRoom limit (room + if op.grows then 1 else 0)) :
    Ensures (fun flow w' => w'.HasRoom limit room ∧ flow.After op)
      (fun e _ => ∀ limit, e ≠ .stackOverflow limit) (Workspace.execute checked op w) := by
  cases op with
  | nop => exact ⟨h, trivial⟩
  | push v => exact (keepsRoom_push h v).bind fun _ _ h => ⟨h, trivial⟩
  | pop => exact (keepsRoom_pop h).bind fun _ _ h => ⟨h.le (Nat.le_succ _), trivial⟩
  | dup =>
    refine (keepsRoom_peek h).bind fun v w h => ?_
    exact (keepsRoom_push h v).bind fun _ _ h => ⟨h, trivial⟩
  | binary op =>
    refine (keepsRoom_pop h).bind fun b w h => ?_
    refine (keepsRoom_pop h).bind fun a w h => ?_
    have heval : KeepsRoom limit _ (Workspace.inspect (fun _ => op.eval a b) w) :=
      keepsRoom_inspect h fun e he => Instr.ne_overflow_of_actRaises (actRaises_of_eval op a b he)
    refine heval.bind fun v w h => ?_
    exact (keepsRoom_push h v).bind fun _ _ h => ⟨h.le (Nat.le_succ _), trivial⟩
  | unary op =>
    refine (keepsRoom_pop h).bind fun a w h => ?_
    exact (keepsRoom_push h _).bind fun _ _ h => ⟨h, trivial⟩
  | jump branch target =>
    cases branch with
    | always => exact ⟨h, _, rfl⟩
    | ifZero =>
      refine (keepsRoom_pop h).bind fun v w h => ⟨h.le (Nat.le_succ _), ?_⟩
      split_ifs
      · exact ⟨_, rfl⟩
      · trivial
    | ifNotZero =>
      refine (keepsRoom_pop h).bind fun v w h => ⟨h.le (Nat.le_succ _), ?_⟩
      split_ifs
      · trivial
      · exact ⟨_, rfl⟩
  | call callee => exact (keepsRoom_flush h).bind fun _ _ h => ⟨h, rfl⟩
  | halt => exact (keepsRoom_flush h).bind fun _ _ h => ⟨h, trivial⟩
  | ret => exact (keepsRoom_flush h).bind fun _ _ h => ⟨h, rfl⟩
  | loadLocal index =>
    have hload := spares_of_acting (.inspect _) (acting_loadLocal index w.machine)
    refine (keepsRoom_onMachine h hload).bind fun v w h => ?_
    exact (keepsRoom_push h v).bind fun _ _ h => ⟨h, trivial⟩
  | storeLocal index =>
    refine (keepsRoom_pop h).bind fun v w h => ?_
    have hstore := spares_of_acting (.storeLocal index v) (acting_storeLocal index v w.machine)
    exact (keepsRoom_onMachine h hstore).bind fun _ _ h => ⟨h.le (Nat.le_succ _), trivial⟩
  | loadGlobal index =>
    refine (keepsRoom_flush h).bind fun _ w h => ?_
    have hload := spares_of_acting (.inspect _) (acting_loadGlobal index w.machine)
    exact (keepsRoom_produce h hload).bind fun _ _ h => ⟨h, trivial⟩
  | storeGlobal index =>
    refine (keepsRoom_pop h).bind fun v w h => ?_
    refine (keepsRoom_flush h).bind fun _ w h => ?_
    have hstore := spares_of_acting (.onGlobals _) (acting_storeGlobal index v w.machine)
    exact (keepsRoom_onMachine h hstore).bind fun _ _ h => ⟨h.le (Nat.le_succ _), trivial⟩
  | arrayNew =>
    refine (keepsRoom_pop h).bind fun length w h => ?_
    refine (keepsRoom_flush h).bind fun _ w h => ?_
    have hnew := spares_of_acting (.newArray length) (acting_newArray length w.machine)
    exact (keepsRoom_produce h hnew).bind fun _ _ h => ⟨h, trivial⟩
  | arrayLoad =>
    refine (keepsRoom_pop h).bind fun index w h => ?_
    refine (keepsRoom_pop h).bind fun array w h => ?_
    refine (keepsRoom_flush h).bind fun _ w h => ?_
    have hload := spares_of_acting (.inspect _) (acting_loadElement array index w.machine)
    exact (keepsRoom_produce h hload).bind fun _ _ h => ⟨h.le (Nat.le_succ _), trivial⟩
  | arrayStore =>
    refine (keepsRoom_pop h).bind fun v w h => ?_
    refine (keepsRoom_pop h).bind fun index w h => ?_
    refine (keepsRoom_pop h).bind fun array w h => ?_
    refine (keepsRoom_flush h).bind fun _ w h => ?_
    have hstore := spares_of_acting (.onHeap _) (acting_storeElement array index v w.machine)
    exact (keepsRoom_onMachine h hstore).bind fun _ _ h => ⟨h.le (by omega), trivial⟩
  | arrayLen =>
    refine (keepsRoom_pop h).bind fun array w h => ?_
    refine (keepsRoom_flush h).bind fun _ w h => ?_
    have hlength := spares_of_acting (.inspect _) (acting_arrayLength array w.machine)
    exact (keepsRoom_produce h hlength).bind fun _ _ h => ⟨h, trivial⟩
  | printInt =>
    refine (keepsRoom_pop h).bind fun v w h => ?_
    refine (keepsRoom_flush h).bind fun _ w h => ?_
    have hprint := spares_of_acting (.onConsole _) (acting_printInt v w.machine)
    exact (keepsRoom_onMachine h hprint).bind fun _ _ h => ⟨h.le (Nat.le_succ _), trivial⟩
  | readInt =>
    refine (keepsRoom_flush h).bind fun _ w h => ?_
    have hread := spares_of_acting (.onConsole _) (acting_readInt w.machine)
    exact (keepsRoom_produce h hread).bind fun _ _ h => ⟨h, trivial⟩
  | enterLeaf callee =>
    have hroom := spares_of_acting (.inspect _) (acting_checkRoom callee w.machine)
    exact (keepsRoom_onMachine h hroom).bind fun _ _ h => ⟨h, trivial⟩
  | exitLeaf =>
    show Ensures _ _ ((if w.hasOperands = true then pure Flow.next
      else do push checked .zero; return Flow.next : Work Flow) w)
    split_ifs
    · exact ⟨h.le (Nat.le_succ _), trivial⟩
    · exact (keepsRoom_push h _).bind fun _ _ h => ⟨h, trivial⟩

/-- With room for the word, an operation need not check the push that it ends with. -/
theorem push_next_unchecked (h : w.HasRoom limit (room + 1)) (v : Word) :
    (do push false v; return Flow.next : Work Flow) w =
      (do push true v; return Flow.next : Work Flow) w := by
  have hpush := push_unchecked h v
  show EStateM.bind (push false v) _ w = EStateM.bind (push true v) _ w
  simp only [EStateM.bind, hpush]

/-- With room for what it may add, an operation need not check its pushes. -/
theorem execute_unchecked {op : Op} (h : w.HasRoom limit (room + if op.grows then 1 else 0)) :
    Workspace.execute false op w = Workspace.execute true op w := by
  cases op with
  | push v => exact push_next_unchecked h v
  | dup => exact (keepsRoom_peek h).bind_congr fun v w h => push_next_unchecked h v
  | binary op =>
    refine (keepsRoom_pop h).bind_congr fun b w h => ?_
    refine (keepsRoom_pop h).bind_congr fun a w h => ?_
    have heval : KeepsRoom limit _ (Workspace.inspect (fun _ => op.eval a b) w) :=
      keepsRoom_inspect h fun e he => Instr.ne_overflow_of_actRaises (actRaises_of_eval op a b he)
    exact heval.bind_congr fun v w h => push_next_unchecked h v
  | unary op => exact (keepsRoom_pop h).bind_congr fun a w h => push_next_unchecked h _
  | loadLocal index =>
    have hload := spares_of_acting (.inspect _) (acting_loadLocal index w.machine)
    exact (keepsRoom_onMachine h hload).bind_congr fun v w h => push_next_unchecked h v
  | exitLeaf =>
    show (if w.hasOperands = true then pure Flow.next
      else do push false .zero; return Flow.next : Work Flow) w =
      (if w.hasOperands = true then pure Flow.next
      else do push true .zero; return Flow.next : Work Flow) w
    split_ifs
    · rfl
    · exact push_next_unchecked h _
  | jump branch target => cases branch <;> rfl
  | _ => rfl

end Execute

end Native

/-! ## Returns -/

/-- There is room for a word where one was taken, and on a stack that was empty. -/
theorem leavesRoom_popOrZero {m : Machine} (hpos : m.memory.stack.limit ≠ 0)
    (hstack : m.memory.stack.words.size ≤ m.memory.stack.limit) :
    LeavesRoom (Machine.popOrZero m) := by
  rw [Machine.popOrZero_eq]
  show m.memory.stack.popOrZero.2.words.size < m.memory.stack.popOrZero.2.limit
  unfold OperandStack.popOrZero
  cases hback : m.memory.stack.words.back? with
  | none =>
    have hempty : m.memory.stack.words = #[] := by simpa using hback
    show m.memory.stack.words.size < m.memory.stack.limit
    rw [hempty]
    exact Nat.pos_of_ne_zero hpos
  | some v =>
    have hsize := Array.size_pos_of_mem (Array.mem_of_back? hback)
    show m.memory.stack.words.pop.size < m.memory.stack.limit
    rw [Array.size_pop]
    omega

/-- A return needs room only where there never is any. -/
theorem limit_eq_zero_of_leaveFrame {m m' : Machine} {limit : Nat}
    (hstack : m.memory.stack.words.size ≤ m.memory.stack.limit)
    (h : Machine.leaveFrame m = .error (.stackOverflow limit) m') : m.memory.stack.limit = 0 := by
  by_contra hpos
  have hfitting : Fitting (Machine.leaveFrame m) := by
    refine (leavesRoom_popOrZero hpos hstack).bind fun value m hroomy => ?_
    have hpop : LeavesRoom (Machine.onCalls CallStack.pop m) := by
      rw [Machine.onCalls_eq, CallStack.pop]
      cases m.memory.calls.frames.back? with
      | none => simp [Ensures]
      | some frame => exact hroomy
    refine hpop.bind fun frame m hroomy => ?_
    cases frame.returnAddress with
    | none => trivial
    | some pc => exact (fitting_push hroomy value).bind fun _ _ _ => trivial
  rw [h] at hfitting
  exact hfitting limit rfl

/-! ## Steps -/

namespace Progress

/-- The activation with `depth` others behind it is left: the run ends, or fewer of them wait. -/
def exits (depth : Nat) : Progress → Bool
  | .ended _ => true
  | .running s => s.waiting.length < depth

/-- Where the run ended for lack of room on the operand stack, if it did. -/
def overflow? : Progress → Option (Option Location)
  | .ended ⟨.error ⟨.stackOverflow _, location⟩, _⟩ => some location
  | _ => none

end Progress

namespace State

variable {setup : Setup} {a : Executing} {waiting : List Activation} {m : Machine} {limit : Nat}

theorem halt_eq_ended (activations : List Activation) (m : Machine) :
    ∃ value m', halt activations m = .ended ⟨.ok value, m'⟩ := by
  rw [halt, Machine.popOrZero_eq]
  exact ⟨_, _, rfl⟩

/-- Compiled code is left in the same way whether it checks its pushes or not, and it overflows the
    stack on a return at most, if the stack never has room. -/
structure Exit (setup : Setup) (limit : Nat) (a : Executing) (waiting : List Activation)
    (m : Machine) (exit : Progress) : Prop where
  same : ∀ checked, execute setup { a with checked } waiting m = exit
  exits : exit.exits waiting.length = true
  overflow : ∀ location, exit.overflow? = some location → limit = 0 ∧
    ∃ inst ∈ a.routine.program.insts, inst.op = .ret ∧ location = some inst.location

/-- Compiled code goes on in the same way whether it checks its pushes or not. -/
structure Onwards (setup : Setup) (limit : Nat) (a : Executing) (waiting : List Activation)
    (m : Machine) (ip : Nat) (registers : Registers) (m' : Machine) : Prop where
  same : ∀ checked, execute setup { a with checked } waiting m =
    .running ⟨.executing ⟨a.routine, ip, checked, registers⟩, waiting, m'⟩
  executed : a.ip < a.routine.program.insts.size
  forward : a.ip < ip
  room : Workspace.HasRoom limit (a.routine.growthFrom ip) ⟨m', registers⟩

/-- Code that halts is left with a value. -/
theorem exit_of_halt {m' : Machine} (hsame : ∀ checked, execute setup { a with checked } waiting m =
      halt (.executing a :: waiting) m') :
    Exit setup limit a waiting m (halt (.executing a :: waiting) m') := by
  obtain ⟨value, m'', hhalt⟩ := halt_eq_ended (.executing a :: waiting) m'
  refine ⟨hsame, ?_, ?_⟩
  · rw [hhalt]
    rfl
  · intro location hlocation
    rw [hhalt] at hlocation
    simp [Progress.overflow?] at hlocation

/-- Code that fails is left with its fault. -/
theorem exit_of_abort {fault : Fault} {location : Location} {m' : Machine}
    (hsame : ∀ checked, execute setup { a with checked } waiting m =
      abort (.executing a :: waiting) fault location m')
    (hfault : ∀ limit, fault ≠ .stackOverflow limit) :
    Exit setup limit a waiting m (abort (.executing a :: waiting) fault location m') := by
  refine ⟨hsame, rfl, ?_⟩
  intro location' hlocation
  cases fault with
  | stackOverflow l => exact absurd rfl (hfault l)
  | _ => simp [abort, Progress.overflow?] at hlocation

/-- Behind the last operation the program halts. -/
theorem exit_of_runOff (hinst : a.routine.program.insts[a.ip]? = none)
    (h : Workspace.HasRoom limit (a.routine.growthFrom a.ip) ⟨m, a.registers⟩) :
    ∃ exit, Exit setup limit a waiting m exit := by
  have hfits : CachedStack.size ⟨m.memory.stack, a.registers⟩ + _ ≤ limit := h.fits
  have hbound : m.memory.stack.limit = limit := h.bound
  obtain ⟨stack, hflush, -⟩ := CachedStack.flush_of_le (c := ⟨m.memory.stack, a.registers⟩)
    (show _ ≤ m.memory.stack.limit by omega)
  have hw : ∃ w, Workspace.flush ⟨m, a.registers⟩ = .ok () w := by
    rw [Workspace.flush, Workspace.onOperands_eq, hflush]
    exact ⟨_, rfl⟩
  obtain ⟨w, hw⟩ := hw
  have hsame : ∀ checked, execute setup { a with checked } waiting m =
      halt (.executing a :: waiting) w.machine := by
    intro checked
    rw [execute, hinst]
    show runOff setup { a with checked } waiting m = _
    rw [runOff, hw]
    rfl
  exact ⟨_, exit_of_halt hsame⟩

/-- A return leaves the activation, and does not lack room unless there never is any. -/
theorem exits_returnFromNative (a : Executing) (waiting : List Activation) (location : Location)
    (hlimit : m.memory.stack.limit = limit)
    (hstack : m.memory.stack.words.size ≤ m.memory.stack.limit) :
    (returnFromNative a location waiting m).exits waiting.length = true ∧
    ∀ location', (returnFromNative a location waiting m).overflow? = some location' →
      limit = 0 ∧ location' = some location := by
  rw [returnFromNative]
  cases hleave : Machine.leaveFrame m with
  | error fault m' =>
    refine ⟨rfl, ?_⟩
    intro location' h
    cases fault with
    | stackOverflow l =>
      rw [← hlimit]
      exact ⟨limit_eq_zero_of_leaveFrame hstack hleave, (Option.some.inj h).symm⟩
    | _ => simp [abort, Progress.overflow?] at h
  | ok r m' =>
    cases r with
    | finish value =>
      refine ⟨rfl, ?_⟩
      intro location' h
      simp [finish, Progress.overflow?] at h
    | resume function pc =>
      cases waiting with
      | nil =>
        refine ⟨rfl, ?_⟩
        intro location' h
        simp [resume, Progress.overflow?] at h
      | cons next rest =>
        refine ⟨?_, ?_⟩
        · simp [resume, Progress.exits]
        · intro location' h
          simp [resume, Progress.overflow?] at h

/-- One step of code that only goes forward and calls nothing. -/
theorem exit_or_onwards (hforward : ∀ inst, a.routine.program.insts[a.ip]? = some inst →
      jumpsBack inst a.ip = false ∧ inst.op.isCall = false)
    (h : Workspace.HasRoom limit (a.routine.growthFrom a.ip) ⟨m, a.registers⟩) :
    (∃ exit, Exit setup limit a waiting m exit) ∨
      ∃ ip registers m', Onwards setup limit a waiting m ip registers m' := by
  cases hinst : a.routine.program.insts[a.ip]? with
  | none => exact .inl (exit_of_runOff hinst h)
  | some inst =>
    obtain ⟨hback, hcall⟩ := hforward inst hinst
    have hexecuted := (Array.getElem?_eq_some_iff.1 hinst).1
    rw [Routine.growthFrom_of_getElem? hinst] at h
    have hsame : ∀ checked, Workspace.execute checked inst.op ⟨m, a.registers⟩ =
        Workspace.execute true inst.op ⟨m, a.registers⟩ := by
      intro checked
      cases checked with
      | false => exact execute_unchecked h
      | true => rfl
    have hexecute : ∀ checked, execute setup { a with checked } waiting m = _ := fun checked =>
      execute_of_getElem? (a := { a with checked }) hinst
    simp only [hsame] at hexecute
    have hkeeps := keepsRoom_execute true h
    cases hw : Workspace.execute true inst.op ⟨m, a.registers⟩ with
    | error fault w =>
      rw [hw] at hkeeps hexecute
      exact .inl ⟨_, exit_of_abort hexecute hkeeps⟩
    | ok flow w =>
      rw [hw] at hkeeps hexecute
      obtain ⟨m', registers⟩ := w
      obtain ⟨hroom, hafter⟩ := hkeeps
      cases flow with
      | next => exact .inr ⟨a.ip + 1, registers, m', hexecute, hexecuted, Nat.lt_succ_self _, hroom⟩
      | jump target =>
        obtain ⟨branch, hop⟩ := hafter
        have hlt : a.ip < target := by simpa [jumpsBack, hop] using hback
        have hgrowth := a.routine.growthFrom_anti (show a.ip + 1 ≤ target from hlt)
        exact .inr ⟨target, registers, m', hexecute, hexecuted, hlt, hroom.le hgrowth⟩
      | call callee =>
        have hop : inst.op.isCall = true := hafter
        exact absurd hop (by simp [hcall])
      | ret =>
        have hbound : m'.memory.stack.limit = limit := hroom.bound
        have hstack : m'.memory.stack.words.size ≤ m'.memory.stack.limit :=
          Nat.le_of_add_right_le hroom.stack_le
        obtain ⟨hexits, hoverflow⟩ := exits_returnFromNative a waiting inst.location hbound hstack
        refine .inl ⟨returnFromNative a inst.location waiting m', hexecute, hexits, ?_⟩
        intro location hlocation
        obtain ⟨hzero, rfl⟩ := hoverflow location hlocation
        exact ⟨hzero, inst, Array.mem_of_getElem? hinst, hafter, rfl⟩
      | halt => exact .inl ⟨_, exit_of_halt hexecute⟩

/-! ## Runs -/

/-- The index of the operation that a state executes next, if there is one. -/
def op? (s : State) : Option Nat :=
  match s.active with
  | .interpreting _ => none
  | .executing a => if a.ip < a.routine.program.insts.size then some a.ip else none

/-- At most `fuel` steps, until the activation with `depth` others behind it is left. Gives the
    indices of the operations executed, and what comes after them. -/
def toExit (setup : Setup) (depth : Nat) : Nat → State → Option (List Nat × Progress)
  | 0, _ => none
  | fuel + 1, s =>
    match s.step setup with
    | .ended e => some (s.op?.toList, .ended e)
    | .running s' =>
      if s'.waiting.length < depth then some (s.op?.toList, .running s')
      else (s'.toExit setup depth fuel).map fun x => (s.op?.toList ++ x.1, x.2)

theorem toExit_of_exits {depth fuel : Nat} {s : State} {exit : Progress}
    (h : s.step setup = exit) (hexits : exit.exits depth = true) :
    s.toExit setup depth (fuel + 1) = some (s.op?.toList, exit) := by
  rw [toExit, h]
  cases exit with
  | ended e => rfl
  | running s' => exact if_pos (of_decide_eq_true hexits)

theorem toExit_of_running {depth fuel : Nat} {s s' : State} (h : s.step setup = .running s')
    (hdepth : s'.waiting.length = depth) :
    s.toExit setup depth (fuel + 1) =
      (s'.toExit setup depth fuel).map fun x => (s.op?.toList ++ x.1, x.2) := by
  rw [toExit, h]
  exact if_neg (by omega)

section Runs

variable {r : Routine}

/-- Code that only goes forward and calls nothing is left after a step for each operation at most,
    and in the same way whether it checks its pushes or not. -/
theorem toExit_unchecked (setup : Setup) (waiting : List Activation)
    (hforward : ∀ ip inst, r.program.insts[ip]? = some inst →
      jumpsBack inst ip = false ∧ inst.op.isCall = false)
    {fuel ip : Nat} {registers : Registers} (hfuel : r.program.insts.size - ip < fuel)
    (h : Workspace.HasRoom limit (r.growthFrom ip) ⟨m, registers⟩) :
    ∃ ips exit, (∀ checked, toExit setup waiting.length fuel
        ⟨.executing ⟨r, ip, checked, registers⟩, waiting, m⟩ = some (ips, exit)) ∧
      ips.Pairwise (· < ·) ∧ (∀ k ∈ ips, ip ≤ k ∧ k < r.program.insts.size) ∧
      ∀ location, exit.overflow? = some location → limit = 0 ∧
        ∃ inst ∈ r.program.insts, inst.op = .ret ∧ location = some inst.location := by
  induction fuel generalizing ip registers m with
  | zero => omega
  | succ fuel ih =>
    have hop : ∀ checked, (State.op? ⟨.executing ⟨r, ip, checked, registers⟩, waiting, m⟩).toList =
        if ip < r.program.insts.size then [ip] else [] := by
      intro checked
      show (if ip < r.program.insts.size then some ip else none).toList = _
      split_ifs <;> rfl
    have hstep := @exit_or_onwards setup ⟨r, ip, true, registers⟩ waiting m limit (hforward ip) h
    rcases hstep with ⟨exit, hexit⟩ | ⟨ip', registers', m', honwards⟩
    · refine ⟨if ip < r.program.insts.size then [ip] else [], exit, ?_, ?_, ?_, hexit.overflow⟩
      · intro checked
        rw [← hop checked]
        exact toExit_of_exits (hexit.same checked) hexit.exits
      · split_ifs <;> simp
      · split_ifs with hlt
        · simpa using hlt
        · simp
    · -- there is an operation here, and so there are fewer ahead
      have hlt : ip < ip' := honwards.forward
      have hsize : ip < r.program.insts.size := honwards.executed
      obtain ⟨ips, exit, hsame, hsorted, hrange, hoverflow⟩ := ih (by omega) honwards.room
      refine ⟨ip :: ips, exit, ?_, ?_, ?_, hoverflow⟩
      · intro checked
        have hrunning : State.step setup ⟨.executing ⟨r, ip, checked, registers⟩, waiting, m⟩ =
            .running ⟨.executing ⟨r, ip', checked, registers'⟩, waiting, m'⟩ :=
          honwards.same checked
        rw [toExit_of_running hrunning rfl, hsame checked, hop checked, if_pos hsize]
        rfl
      · refine List.pairwise_cons.2 ⟨?_, hsorted⟩
        intro k hk
        have := (hrange k hk).1
        omega
      · intro k hk
        rcases List.mem_cons.1 hk with rfl | hk
        · exact ⟨le_rfl, hsize⟩
        · obtain ⟨hle, hlt'⟩ := hrange k hk
          exact ⟨by omega, hlt'⟩

end Runs

end State

/-- **Dropping overflow checks is sound.** A compiled function without loops and calls that is
    started with room for all that it can add executes each of its operations at most once and is
    then left, in the same way and with the same state whether it checks its pushes or not. The
    operand stack does not overflow, except where it can hold nothing at all, so that a return has
    no room for its value. -/
theorem unchecked_same {image : Image} {function : UInt16} {options : Options} {p : Program}
    (hp : compile image function options = .ok p) (hloops : p.hasLoops = false)
    (hcalls : ∀ inst ∈ p.insts, inst.op.isCall = false) (setup : Setup)
    (waiting : List Activation) {m : Machine}
    (hroom : m.memory.stack.size + p.prepare.growth ≤ m.memory.stack.limit) :
    ∃ ips exit, (∀ checked, State.toExit setup waiting.length (p.insts.size + 1)
        ⟨.executing ⟨p.prepare, 0, checked, .none⟩, waiting, m⟩ = some (ips, exit)) ∧
      ips.Pairwise (· < ·) ∧ (∀ ip ∈ ips, ip < p.insts.size) ∧
      ∀ location, exit.overflow? = some location → m.memory.stack.limit = 0 ∧
        ∃ inst ∈ p.insts, inst.op = .ret ∧ location = some inst.location := by
  obtain ⟨-, code, starts, linked⟩ := compile_linked hp
  have hforward : ∀ ip inst, p.insts[ip]? = some inst →
      jumpsBack inst ip = false ∧ inst.op.isCall = false := by
    intro ip inst hinst
    exact ⟨linked.forward hloops ip inst hinst, hcalls inst (Array.mem_of_getElem? hinst)⟩
  have hstart : Workspace.HasRoom m.memory.stack.limit (p.prepare.growthFrom 0) ⟨m, .none⟩ :=
    ⟨rfl, p.growthFrom_prepare ▸ hroom⟩
  obtain ⟨ips, exit, hsame, hsorted, hrange, hoverflow⟩ := State.toExit_unchecked setup waiting
    (r := p.prepare) hforward (Nat.lt_succ_self _) hstart
  exact ⟨ips, exit, hsame, hsorted, fun ip hip => (hrange ip hip).2, hoverflow⟩

/-- Two functions: one jumps over a push and calls the other, which is a leaf. -/
def Image.jumpOverPush : Image where
  version := 1
  globals := 0
  entry := 0
  functions :=
    #[⟨0, 0, 0, Code.ofInstrs [.pushInt 1, .jump .ifNotZero 9, .pushInt 2, .call 1, .dup, .ret]⟩,
      ⟨1, 0, 0, Code.ofInstrs [.pushInt 7, .ret]⟩]

/-- A machine that has just called a function, with nothing on an operand stack of this size. -/
def Machine.called (limit : Nat) : Machine :=
  { (default : Machine) with
    memory := { (default : Memory) with
      stack := .empty limit
      calls := ⟨#[⟨0, 0, some 0, #[]⟩], 4⟩ } }

/-- What the first function is compiled to. -/
def Native.jumpOverPushProgram : Program :=
  ⟨0, #[⟨.push (.ofInt 1), ⟨0, 0⟩⟩, ⟨.jump .ifNotZero 3, ⟨0, 9⟩⟩, ⟨.push (.ofInt 2), ⟨0, 14⟩⟩,
    ⟨.enterLeaf 1, ⟨0, 23⟩⟩, ⟨.push (.ofInt 7), ⟨1, 0⟩⟩, ⟨.exitLeaf, ⟨1, 9⟩⟩, ⟨.dup, ⟨0, 26⟩⟩,
    ⟨.ret, ⟨0, 27⟩⟩], false, 1⟩

/-- All that the function could add just fits on the stack. -/
theorem unchecked_same_jumpOverPush :
    compile .jumpOverPush 0 {} = .ok jumpOverPushProgram ∧ jumpOverPushProgram.hasLoops = false ∧
      (∀ inst ∈ jumpOverPushProgram.insts, inst.op.isCall = false) ∧
      (Machine.called 5).memory.stack.size + jumpOverPushProgram.prepare.growth =
        (Machine.called 5).memory.stack.limit ∧
      ∃ ips exit, (∀ checked, State.toExit default 0 9
          ⟨.executing ⟨jumpOverPushProgram.prepare, 0, checked, .none⟩, [], .called 5⟩ =
            some (ips, exit)) ∧
        ips.Pairwise (· < ·) ∧ (∀ ip ∈ ips, ip < 8) ∧ exit.overflow? = none := by
  have hcompiled : compile .jumpOverPush 0 {} = .ok jumpOverPushProgram := by decide +kernel
  have hcalls : ∀ inst ∈ jumpOverPushProgram.insts, inst.op.isCall = false := by decide
  obtain ⟨ips, exit, hsame, hsorted, hrange, hoverflow⟩ :=
    unchecked_same hcompiled rfl hcalls default [] (m := .called 5) (by decide)
  refine ⟨hcompiled, rfl, hcalls, rfl, ips, exit, hsame, hsorted, hrange, ?_⟩
  cases hlocation : exit.overflow? with
  | none => rfl
  | some location =>
    obtain ⟨hzero, -⟩ := hoverflow location hlocation
    exact absurd hzero (by decide)

/-- A function that returns at once. -/
def Image.returning : Image where
  version := 1
  globals := 0
  entry := 0
  functions := #[⟨0, 0, 0, Code.ofInstrs [.ret]⟩]

/-- A return leaves its value on the operand stack. If the stack never has room, then it fails,
    although there is no operation that counts as one that grows the stack. -/
theorem overflow_on_return :
    ∃ p, compile .returning 0 {} = .ok p ∧ p.hasLoops = false ∧
      (∀ inst ∈ p.insts, inst.op.isCall = false) ∧
      (Machine.called 0).memory.stack.size + p.prepare.growth ≤
        (Machine.called 0).memory.stack.limit ∧
      ∀ checked, ∃ ips exit, State.toExit default 0 (p.insts.size + 1)
          ⟨.executing ⟨p.prepare, 0, checked, .none⟩, [], .called 0⟩ = some (ips, exit) ∧
        exit.overflow? = some (some ⟨0, 0⟩) := by
  have hcompiled : compile .returning 0 {} =
      .ok ⟨0, #[⟨.ret, ⟨0, 0⟩⟩], false, 0⟩ := by decide +kernel
  refine ⟨_, hcompiled, rfl, by decide, by decide, ?_⟩
  intro checked
  cases checked with
  | false => exact ⟨_, _, rfl, rfl⟩
  | true => exact ⟨_, _, rfl, rfl⟩

end StackMachine
