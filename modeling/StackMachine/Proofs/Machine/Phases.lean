import StackMachine.Proofs.Machine.Parts

/-!
# The three phases of an instruction

Every instruction pops its operands, does what it has to do with them and then pushes its result,
if it has one. What is to be said of all instructions is therefore said of the operands and of the
result once, and only what happens in between differs from instruction to instruction.

* `Machine.interpret_eq`: an instruction is these three phases.
* `Ensures.interpret`, `Paired.interpret`: what an instruction does, put together from the phases.
* `Machine.Steady`, `Machine.steady_interpret`: an instruction is made of accesses to the parts of
  the machine that push and pop no frame, and only its first and last phase use the operand stack.
-/

namespace StackMachine

/-! ## Phases -/

/-- The number of operands that a jump pops. -/
def Branch.takes : Branch → Nat
  | .always => 0
  | .ifZero | .ifNotZero => 1

/-- The number of operands that an instruction pops. -/
def Instr.takes : Instr → Nat
  | .nop | .pushInt _ | .pushDouble _ | .dup | .call _ | .ret | .loadLocal _ | .loadGlobal _
  | .readInt | .halt => 0
  | .jump branch _ => branch.takes
  | .pop | .unary _ | .storeLocal _ | .storeGlobal _ | .arrayNew | .arrayLen | .printInt => 1
  | .binary _ | .arrayLoad => 2
  | .arrayStore => 3

/-- What an instruction comes to: a word that is pushed before control goes on, or where control
    goes. -/
inductive Outcome where
  | word (w : Word)
  | go (flow : Flow)

/-- The operand that is `k` places below the top one. -/
def operand (args : List Word) (k : Nat) : Word := args.getD k .zero

/-- Whether a jump is taken that finds the word `w`. -/
def Branch.taken (w : Word) : Branch → Bool
  | .always => true
  | .ifZero => w.isZero
  | .ifNotZero => !w.isZero

namespace Machine

/-- Pops `n` operands. The top one comes first. -/
def popOperands : Nat → Action (List Word)
  | 0 => return []
  | n + 1 => do
    let w ← pop
    let args ← popOperands n
    return w :: args

/-- What an instruction does with its operands. -/
def act (next length : Nat) (i : Instr) (args : List Word) : Action Outcome :=
  match i with
  | .nop | .pop => return .go .next
  | .pushInt n => return .word (.ofInt n)
  | .pushDouble pattern => return .word (.ofDouble pattern)
  | .dup => do
    let w ← peek
    return .word w
  | .binary op => do
    let w ← inspect fun _ => op.eval (operand args 1) (operand args 0)
    return .word w
  | .unary op => return .word (op.eval (operand args 0))
  | .jump branch offset =>
    if branch.taken (operand args 0) then do
      let target ← inspect fun _ => Code.jumpTarget next offset length
      return .go (.jump target)
    else return .go .next
  | .call callee => return .go (.call callee)
  | .ret => return .go .ret
  | .loadLocal index => do
    let w ← loadLocal index
    return .word w
  | .storeLocal index => do
    storeLocal index (operand args 0)
    return .go .next
  | .loadGlobal index => do
    let w ← loadGlobal index
    return .word w
  | .storeGlobal index => do
    storeGlobal index (operand args 0)
    return .go .next
  | .arrayNew => do
    let w ← newArray (operand args 0)
    return .word w
  | .arrayLoad => do
    let w ← loadElement (operand args 1) (operand args 0)
    return .word w
  | .arrayStore => do
    storeElement (operand args 2) (operand args 1) (operand args 0)
    return .go .next
  | .arrayLen => do
    let w ← arrayLength (operand args 0)
    return .word w
  | .printInt => do
    printInt (operand args 0)
    return .go .next
  | .readInt => do
    let w ← readInt
    return .word w
  | .halt => return .go .halt

/-- Pushes the result of an instruction, if it has one. -/
def deliver : Outcome → Action Flow
  | .word w => do
    push w
    return .next
  | .go flow => return flow

/-- An instruction pops its operands, acts and pushes its result. -/
theorem interpret_eq (next length : Nat) (i : Instr) :
    interpret next length i = (do
      let args ← popOperands i.takes
      let outcome ← act next length i args
      deliver outcome) := by
  cases i with
  | jump branch offset =>
    cases branch with
    | always =>
      simp only [interpret, Instr.takes, Branch.takes, popOperands, act, Branch.taken, deliver,
        if_true, bind_assoc, pure_bind]
    | ifZero | ifNotZero =>
      simp only [interpret, Instr.takes, Branch.takes, popOperands, act, Branch.taken, operand,
        List.getD_cons_zero, bind_assoc, pure_bind]
      congr 1
      funext w
      cases w.isZero <;> simp [deliver]
  | _ =>
    simp only [interpret, Instr.takes, popOperands, act, operand, deliver, List.getD_cons_zero,
      List.getD_cons_succ, bind_assoc, pure_bind]

end Machine

/-! ## Operands -/

namespace OperandStack

/-- The word that is `k` places below the top. -/
def fromTop? (s : OperandStack) (k : Nat) : Option Word := s.words.toList.reverse[k]?

theorem fromTop?_pop {s : OperandStack} {k : Nat} :
    fromTop? ⟨s.words.pop, s.limit⟩ k = s.fromTop? (k + 1) := by
  rw [fromTop?, fromTop?, Array.toList_pop, ← List.tail_reverse, List.getElem?_tail]

theorem back?_eq_fromTop? (s : OperandStack) : s.words.back? = s.fromTop? 0 := by
  rw [fromTop?, ← List.head?_eq_getElem?, List.head?_reverse, Array.getLast?_toList]

end OperandStack

/-- There is room for one more word. -/
abbrev Machine.Roomy (m : Machine) : Prop := m.memory.stack.words.size < m.memory.stack.limit

/-- A word that is pushed where there is room is the top one. -/
theorem Machine.push_of_roomy {m : Machine} (h : m.Roomy) (w : Word) :
    ∃ m', push w m = .ok () m' ∧ m'.memory.stack.fromTop? 0 = some w := by
  refine ⟨{ m with memory := { m.memory with
    stack := ⟨m.memory.stack.words.push w, m.memory.stack.limit⟩ } }, ?_, ?_⟩
  · rw [push, onStack_eq, OperandStack.push, if_neg (Nat.not_le.2 h)]
  · rw [← OperandStack.back?_eq_fromTop?]
    exact Array.back?_push

/-! ## What an instruction does -/

section Rules

variable {i : Instr} {next length : Nat} {m n : Machine}

/-- The instruction goes on with the word on top of the operand stack. -/
def Instr.Makes (next length : Nat) (i : Instr) (m : Machine) (w : Word) : Prop :=
  ∃ m', Machine.interpret next length i m = .ok .next m' ∧
    m'.memory.stack.fromTop? 0 = some w

theorem Instr.makes_of_act {args : List Word} {m₁ m₂ : Machine} {w : Word}
    (htake : Machine.popOperands i.takes m = .ok args m₁)
    (hact : Machine.act next length i args m₁ = .ok (.word w) m₂) (hroom : m₂.Roomy) :
    i.Makes next length m w := by
  obtain ⟨m', hpush, htop⟩ := Machine.push_of_roomy hroom w
  refine ⟨m', ?_, htop⟩
  rw [Machine.interpret_eq, bind_of_ok htake, bind_of_ok hact, Machine.deliver, bind_of_ok hpush]
  rfl

/-- What is known of the phases of an instruction, one after the other. A word that is delivered
    where there is room for it is one that the instruction makes. -/
theorem Ensures.interpret {taken : List Word → Machine → Prop} {made : Outcome → Machine → Prop}
    {done : Flow → Machine → Prop} {failed : Fault → Machine → Prop}
    (htake : Ensures taken failed (Machine.popOperands i.takes m))
    (hact : ∀ args m₁, taken args m₁ →
      Ensures made failed (Machine.act next length i args m₁))
    (hdeliver : ∀ outcome m₂, made outcome m₂ →
      (∀ w, outcome = .word w → m₂.Roomy → i.Makes next length m w) →
        Ensures done failed (Machine.deliver outcome m₂)) :
    Ensures done failed (Machine.interpret next length i m) := by
  rw [Machine.interpret_eq]
  cases hm : Machine.popOperands i.takes m with
  | error e m₁ =>
    rw [hm] at htake
    rw [bind_of_error hm]
    exact htake
  | ok args m₁ =>
    rw [hm] at htake
    replace hact := hact args m₁ htake
    rw [bind_of_ok hm]
    cases hm₁ : Machine.act next length i args m₁ with
    | error e m₂ =>
      rw [hm₁] at hact
      rw [bind_of_error hm₁]
      exact hact
    | ok outcome m₂ =>
      rw [hm₁] at hact
      rw [bind_of_ok hm₁]
      refine hdeliver outcome m₂ hact ?_
      rintro w rfl hroom
      exact Instr.makes_of_act hm hm₁ hroom

/-- The same for two machines. -/
theorem Paired.interpret {taken : List Word → List Word → Machine → Machine → Prop}
    {made : Outcome → Outcome → Machine → Machine → Prop}
    {done : Flow → Flow → Machine → Machine → Prop} {failed : Machine → Machine → Prop}
    (htake : Paired taken failed (Machine.popOperands i.takes m) (Machine.popOperands i.takes n))
    (hact : ∀ args args' m₁ n₁, taken args args' m₁ n₁ →
      Paired made failed (Machine.act next length i args m₁) (Machine.act next length i args' n₁))
    (hdeliver : ∀ outcome outcome' m₂ n₂, made outcome outcome' m₂ n₂ →
      (∀ w, outcome = .word w → m₂.Roomy → i.Makes next length m w) →
        Paired done failed (Machine.deliver outcome m₂) (Machine.deliver outcome' n₂)) :
    Paired done failed (Machine.interpret next length i m) (Machine.interpret next length i n) := by
  rw [Machine.interpret_eq]
  obtain ⟨args, args', m₁, n₁, hm, hn, htaken⟩ | ⟨e, m₁, n₁, hm, hn, hfailed⟩ := htake.cases
  · rw [bind_of_ok hm, bind_of_ok hn]
    obtain ⟨outcome, outcome', m₂, n₂, hm₁, hn₁, hmade⟩ | ⟨e, m₂, n₂, hm₁, hn₁, hfailed⟩ :=
      (hact args args' m₁ n₁ htaken).cases
    · rw [bind_of_ok hm₁, bind_of_ok hn₁]
      refine hdeliver outcome outcome' m₂ n₂ hmade ?_
      rintro w rfl hroom
      exact Instr.makes_of_act hm hm₁ hroom
    · rw [bind_of_error hm₁, bind_of_error hn₁]
      exact ⟨rfl, hfailed⟩
  · rw [bind_of_error hm, bind_of_error hn]
    exact ⟨rfl, hfailed⟩

end Rules

/-! ## Steady actions -/

namespace Machine

/-- An action that is put together from accesses to the parts of the machine, to the operand stack
    only if `stack` says so. It pushes and pops no frame. -/
inductive Steady (stack : Prop) : {α : Type} → Action α → Prop
  | inspect {α : Type} (f : Machine → Except Fault α) : Steady stack (Machine.inspect f)
  | onStack {α : Type} (h : stack) (act : EStateM Fault OperandStack α) :
      Steady stack (Machine.onStack act)
  | onGlobals {α : Type} (act : EStateM Fault Globals α) : Steady stack (Machine.onGlobals act)
  | onHeap {α : Type} (act : EStateM Fault Heap α) : Steady stack (Machine.onHeap act)
  | onConsole {α : Type} (act : EStateM Fault Console α) : Steady stack (Machine.onConsole act)
  | storeLocal (index : UInt8) (w : Word) : Steady stack (Machine.storeLocal index w)
  | newArray (length : Word) : Steady stack (Machine.newArray length)
  | bind {α β : Type} {x : Action α} {f : α → Action β} (hx : Steady stack x)
      (hf : ∀ a, Steady stack (f a)) : Steady stack (x >>= f)

variable {stack : Prop} {α : Type}

theorem Steady.pure (a : α) : Steady stack (Pure.pure a : Action α) := .inspect fun _ => .ok a

theorem Steady.word {x : Action Word} (hx : Steady stack x) :
    Steady stack (do let w ← x; return Outcome.word w) :=
  .bind hx fun _ => .pure _

theorem Steady.done {x : Action Unit} (hx : Steady stack x) :
    Steady stack (do x; return Outcome.go .next) :=
  .bind hx fun _ => .pure _

theorem steady_popOperands (n : Nat) : Steady True (popOperands n) := by
  induction n with
  | zero => exact .pure _
  | succ n ih => exact .bind (.onStack trivial _) fun w => .bind ih fun args => .pure _

/-- What an instruction does with its operands does not need the stack that they are from. -/
theorem steady_act (next length : Nat) (i : Instr) (args : List Word) :
    Steady stack (act next length i args) := by
  cases i with
  | nop | pop | pushInt | pushDouble | unary | call | ret | halt => exact .pure _
  | dup | binary | loadLocal | loadGlobal | arrayLoad | arrayLen => exact .word (.inspect _)
  | jump branch offset =>
    rw [act]
    split_ifs
    · exact .bind (.inspect _) fun _ => .pure _
    · exact .pure _
  | storeLocal index => exact .done (.storeLocal index _)
  | storeGlobal index => exact .done (.onGlobals _)
  | arrayNew => exact .word (.newArray _)
  | arrayStore => exact .done (.onHeap _)
  | printInt => exact .done (.onConsole _)
  | readInt => exact .word (.onConsole _)

theorem steady_deliver (outcome : Outcome) : Steady True (deliver outcome) := by
  cases outcome with
  | word w => exact .bind (.onStack trivial _) fun _ => .pure _
  | go flow => exact .pure _

theorem steady_interpret (next length : Nat) (i : Instr) :
    Steady True (interpret next length i) := by
  rw [interpret_eq]
  exact .bind (steady_popOperands _) fun args =>
    .bind (steady_act next length i args) fun outcome => steady_deliver outcome

/-- What the accesses keep, a steady action keeps. -/
theorem Steady.retains {P : Machine → Prop} {act : Action α} (hact : Steady stack act)
    (hstack : stack → ∀ m s, P m → P { m with memory := { m.memory with stack := s } })
    (hlocals : ∀ m index w, P m → Retains P (Machine.storeLocal index w m))
    (hrest : ∀ m globals heap console collector journal, P m →
      P { m with memory := { m.memory with globals, heap }, console, collector, journal })
    {m : Machine} (h : P m) : Retains P (act m) := by
  induction hact generalizing m with
  | inspect f => exact retains_inspect f h
  | onStack hs act => exact retains_onStack act fun s => hstack hs m s h
  | onGlobals act =>
    exact retains_onGlobals act fun globals => hrest m globals m.memory.heap _ _ _ h
  | onHeap act => exact retains_onHeap act fun heap => hrest m m.memory.globals heap _ _ _ h
  | onConsole act => exact retains_onConsole act fun console => hrest m _ _ console _ _ h
  | storeLocal index w => exact hlocals m index w h
  | newArray length =>
    exact retains_newArray length fun heap collector journal =>
      hrest m m.memory.globals heap _ collector journal h
  | bind _ _ ihx ihf => exact (ihx h).bind fun a m' h' => ihf a h'

/-- An action without the operand stack leaves the stack alone. -/
theorem Steady.retains_stack {act : Action α} (hact : Steady False act) (m : Machine) :
    Retains (fun m' => m'.memory.stack = m.memory.stack) (act m) :=
  hact.retains (fun h => h.elim) (fun _ _ _ h => retains_onCalls _ fun _ => h)
    (fun _ _ _ _ _ _ h => h) rfl

end Machine

end StackMachine
