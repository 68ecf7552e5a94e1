import Mathlib
import StackMachine.Machine.Run
import StackMachine.Proofs.Paired

/-!
# Actions on a part of the machine

An action on one part of the machine leaves the others alone. The equations say so by the fields of
the state, in the form in which later proofs compute. `Retains` says it of a property: what holds
of the machine whatever one part of it is, an action on that part keeps.
-/

namespace StackMachine.Machine

variable {α : Type}

theorem onStack_eq (act : EStateM Fault OperandStack α) (m : Machine) :
    onStack act m = match act m.memory.stack with
      | .ok a stack => .ok a { m with memory := { m.memory with stack } }
      | .error e stack => .error e { m with memory := { m.memory with stack } } := rfl

theorem onCalls_eq (act : EStateM Fault CallStack α) (m : Machine) :
    onCalls act m = match act m.memory.calls with
      | .ok a calls => .ok a { m with memory := { m.memory with calls } }
      | .error e calls => .error e { m with memory := { m.memory with calls } } := rfl

theorem onGlobals_eq (act : EStateM Fault Globals α) (m : Machine) :
    onGlobals act m = match act m.memory.globals with
      | .ok a globals => .ok a { m with memory := { m.memory with globals } }
      | .error e globals => .error e { m with memory := { m.memory with globals } } := rfl

theorem onHeap_eq (act : EStateM Fault Heap α) (m : Machine) :
    onHeap act m = match act m.memory.heap with
      | .ok a heap => .ok a { m with memory := { m.memory with heap } }
      | .error e heap => .error e { m with memory := { m.memory with heap } } := rfl

theorem onConsole_eq (act : EStateM Fault Console α) (m : Machine) :
    onConsole act m = match act m.console with
      | .ok a console => .ok a { m with console }
      | .error e console => .error e { m with console } := rfl

theorem popOrZero_eq (m : Machine) :
    popOrZero m = .ok m.memory.stack.popOrZero.1
      { m with memory := { m.memory with stack := m.memory.stack.popOrZero.2 } } := rfl

/-- What a collection does to the machine. -/
theorem collect_eq (m : Machine) :
    m.collect = (m.memory.collect.1,
      { m with
        memory := m.memory.collect.2
        collector := ⟨m.collector.cycles + 1, m.collector.freed + m.memory.collect.1,
          m.memory.collect.2.heap.words⟩
        journal := m.journal.log (.collected m.memory.collect.1 m.memory.collect.2.heap.words
          m.memory.collect.2.heap.threshold) }) := rfl

theorem memory_collect_eq (memory : Memory) :
    memory.collect = ((memory.heap.collect memory.roots).1,
      { memory with heap := (memory.heap.collect memory.roots).2 }) := rfl

theorem newArray_eq (length : Word) (m : Machine) :
    newArray length m =
      onHeap (Heap.alloc length.toInt) (if m.memory.heap.due then m.collect.2 else m) := rfl

/-- A call is counted, and then its frame is pushed. -/
theorem enterCall_eq (image : Image) (callee returnFunction : UInt16)
    (returnAddress : Option Nat) (m : Machine) :
    enterCall image callee returnFunction returnAddress m =
      match enterFrame image callee returnFunction returnAddress
          { m with
            promotion := (m.promotion.onCall image callee).2.2
            journal := m.journal.logAll (m.promotion.onCall image callee).2.1 } with
      | .error e m => .error e m
      | .ok _ n =>
        match if (m.promotion.onCall image callee).1 then
            (m.promotion.onCall image callee).2.2.routine? callee else none with
        | none => .ok none n
        | some routine => .ok (some routine) { n with promotion := n.promotion.enter } := rfl

/-! ## What an action keeps -/

/-- The machine that is left has the property, also if the action fails. -/
abbrev Retains (P : Machine → Prop) : EStateM.Result Fault Machine α → Prop :=
  Ensures (fun _ => P) fun _ => P

section Retains

variable {P : Machine → Prop} {m : Machine}

/-- What an action keeps is there when the next one starts. -/
theorem Retains.followed {β : Type} {x : Action α} {f : α → Action β} {ok : β → Machine → Prop}
    (h : Retains P (x m)) (k : ∀ a m, P m → Ensures ok (fun _ _ => True) (f a m)) :
    Ensures ok (fun _ _ => True) ((x >>= f) m) :=
  Ensures.bind (h.weaken fun _ _ _ => trivial) k

theorem retains_inspect (f : Machine → Except Fault α) (h : P m) : Retains P (inspect f m) := by
  unfold inspect
  cases f m with
  | ok a => exact h
  | error e => exact h

theorem retains_onStack (act : EStateM Fault OperandStack α)
    (h : ∀ stack, P { m with memory := { m.memory with stack } }) : Retains P (onStack act m) := by
  rw [onStack_eq]
  cases act m.memory.stack with
  | ok a stack => exact h stack
  | error e stack => exact h stack

theorem retains_onCalls (act : EStateM Fault CallStack α)
    (h : ∀ calls, P { m with memory := { m.memory with calls } }) : Retains P (onCalls act m) := by
  rw [onCalls_eq]
  cases act m.memory.calls with
  | ok a calls => exact h calls
  | error e calls => exact h calls

theorem retains_onGlobals (act : EStateM Fault Globals α)
    (h : ∀ globals, P { m with memory := { m.memory with globals } }) :
    Retains P (onGlobals act m) := by
  rw [onGlobals_eq]
  cases act m.memory.globals with
  | ok a globals => exact h globals
  | error e globals => exact h globals

theorem retains_onHeap (act : EStateM Fault Heap α)
    (h : ∀ heap, P { m with memory := { m.memory with heap } }) : Retains P (onHeap act m) := by
  rw [onHeap_eq]
  cases act m.memory.heap with
  | ok a heap => exact h heap
  | error e heap => exact h heap

theorem retains_onConsole (act : EStateM Fault Console α) (h : ∀ console, P { m with console }) :
    Retains P (onConsole act m) := by
  rw [onConsole_eq]
  cases act m.console with
  | ok a console => exact h console
  | error e console => exact h console

/-- A new array may be preceded by a collection. -/
theorem retains_newArray (length : Word)
    (h : ∀ heap collector journal,
      P { m with memory := { m.memory with heap }, collector, journal }) :
    Retains P (newArray length m) := by
  rw [newArray_eq]
  split_ifs
  · exact retains_onHeap _ fun heap => h heap _ _
  · exact retains_onHeap _ fun heap => h heap m.collector m.journal

theorem retains_popArguments
    (hP : ∀ m stack, P m → P { m with memory := { m.memory with stack } }) (n : Nat)
    (args : List Word) (h : P m) : Retains P (popArguments n args m) := by
  induction n generalizing args m with
  | zero => exact h
  | succ n ih =>
    exact (retains_onStack OperandStack.pop fun stack => hP m stack h).bind
      fun w m h => ih (w :: args) h

end Retains

end StackMachine.Machine

namespace StackMachine

/-! ## Stores that fail -/

theorem CallStack.eq_of_storeLocal_error {index : UInt8} {w : Word} {s s' : CallStack} {e : Fault}
    (h : CallStack.storeLocal index w s = .error e s') : s' = s := by
  unfold CallStack.storeLocal at h
  split at h
  · exact (EStateM.Result.error.inj h).2.symm
  · dsimp only at h
    split_ifs at h
    exact (EStateM.Result.error.inj h).2.symm

theorem Globals.eq_of_store_error {index : UInt16} {w : Word} {g g' : Globals} {e : Fault}
    (h : Globals.store index w g = .error e g') : g' = g := by
  unfold Globals.store at h
  dsimp only at h
  split_ifs at h
  exact (EStateM.Result.error.inj h).2.symm

/-! ## Reports -/

/-- Observing a machine changes its journal only. -/
theorem report_eq (setup : Setup) (a : Interpreting) (i : Instr) (m : Machine) :
    ∃ journal, State.report setup a i m = { m with journal } := by
  unfold State.report
  by_cases h : (setup.settings.traceExec || setup.observed) = true
  · rw [if_pos h]
    exact ⟨_, rfl⟩
  · rw [if_neg h]
    exact ⟨m.journal, rfl⟩

end StackMachine
