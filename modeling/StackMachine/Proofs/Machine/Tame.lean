import StackMachine.Session
import StackMachine.Proofs.Machine.Renaming

/-!
# Instructions that treat handles as handles

A program could make handles out of integers, or print them, and then see where its arrays are
kept. A tame one does not: an instruction that computes with its operands gets no handles, and
none comes out of integer arithmetic or is read. What such an instruction does is the same on
two machines that correspond.

* `Corresponds.interpret`: an instruction keeps the correspondence.
* `State.Tame`, `Session.Tame`: states and runs whose instructions are of this kind. A run that
  ends can be checked by running it.
-/

namespace StackMachine

/-! ## Operands and results -/

/-- The places below the top at which an instruction finds the words that it computes with. What
    it only moves, resolves or compares with zero may be a handle. -/
def Instr.plainOperands : Instr → List Nat
  | .binary _ => [0, 1]
  | .unary _ | .arrayNew | .arrayLoad | .printInt => [0]
  | .arrayStore => [1]
  | _ => []

/-- Whether an instruction pushes an integer that may be any word. -/
def Instr.makesInt : Instr → Bool
  | .pushInt _ | .readInt => true
  | .binary .add | .binary .sub | .binary .mul | .binary .div | .binary .mod => true
  | .unary .neg | .unary .d2i => true
  | _ => false

/-- On the machine `m` the instruction computes with no handle, and makes none up. -/
structure Instr.TameOn (next length : Nat) (i : Instr) (m : Machine) : Prop where
  pops : ∀ k ∈ i.plainOperands, ∀ w, m.memory.stack.fromTop? k = some w → w.handle? = none
  makes : i.makesInt = true → ∀ w, i.Makes next length m w → w.handle? = none

/-- A result is the same on both sides, and not a handle unless the instruction may make one. -/
def Produced (i : Instr) (x y : Word) : Prop := x = y ∧ (x.handle? = none ∨ i.makesInt = true)

theorem BinaryOp.eval_produced (op : BinaryOp) (a b : Word) :
    Lookups (Produced (.binary op)) (op.eval a b) (op.eval a b) := by
  cases op with
  | add | sub | mul => exact .found ⟨rfl, .inr rfl⟩
  | div | mod =>
    simp only [BinaryOp.eval]
    split_ifs
    · exact .missing _
    · exact .found ⟨rfl, .inr rfl⟩
  | eq | ne | lt | le | gt | ge => exact .found ⟨rfl, .inl (Word.handle?_ofBool _)⟩
  | dadd | dsub | dmul => exact .found ⟨rfl, .inl (Word.handle?_ofDouble _)⟩
  | ddiv | dmod =>
    simp only [BinaryOp.eval]
    split_ifs
    · exact .missing _
    · exact .found ⟨rfl, .inl (Word.handle?_ofDouble _)⟩
  | deq | dne | dlt | dle | dgt | dge => exact .found ⟨rfl, .inl (Word.handle?_ofBool _)⟩

theorem UnaryOp.eval_produced (op : UnaryOp) (a : Word) :
    Produced (.unary op) (op.eval a) (op.eval a) := by
  cases op with
  | neg | d2i => exact ⟨rfl, .inr rfl⟩
  | dneg | i2d | dsqrt => exact ⟨rfl, .inl (Word.handle?_ofDouble _)⟩

/-- What an instruction comes to on two machines: control goes to the same place, or the words are
    related, unless the instruction makes them up. -/
inductive Outcome.Matched (β : Handle → Handle → Prop) (i : Instr) : Outcome → Outcome → Prop
  | word {v w : Word} (h : Related β v w) : Matched β i (.word v) (.word w)
  | made {w : Word} (h : i.makesInt = true) : Matched β i (.word w) (.word w)
  | go (flow : Flow) : Matched β i (.go flow) (.go flow)

theorem Produced.matched {β : Handle → Handle → Prop} {i : Instr} {x y : Word}
    (h : Produced i x y) : Outcome.Matched β i (.word x) (.word y) := by
  obtain ⟨rfl, hplain | hi⟩ := h
  · exact .word (.plain hplain)
  · exact .made hi

/-! ## Phases -/

/-- The operands that were popped from two machines, and the machines that are left. -/
structure Operands (β : Handle → Handle → Prop) (m : Machine) (args args' : List Word)
    (m' n' : Machine) : Prop where
  related : List.Forall₂ (Related β) args args'
  top : ∀ k w, args[k]? = some w → m.memory.stack.fromTop? k = some w
  heap : m'.memory.heap = m.memory.heap
  corresponds : Corresponds β m' n'

theorem related_operand {β : Handle → Handle → Prop} {args args' : List Word}
    (h : List.Forall₂ (Related β) args args') (k : Nat) :
    Related β (operand args k) (operand args' k) := by
  induction h generalizing k with
  | nil => exact .zero
  | cons hvw _ ih =>
    cases k with
    | zero => exact hvw
    | succ k => exact ih k

/-- A word that an instruction computes with is the same on both sides. -/
theorem Operands.eq_of_plain {β : Handle → Handle → Prop} {m m' n' : Machine}
    {args args' : List Word} {k : Nat} (h : Operands β m args args' m' n')
    (hplain : ∀ w, m.memory.stack.fromTop? k = some w → w.handle? = none) :
    operand args' k = operand args k := by
  refine (related_operand h.related k).eq_of_plain ?_
  rw [operand, List.getD_eq_getElem?_getD]
  cases hk : args[k]? with
  | none => decide
  | some w => exact hplain w (h.top k w hk)

namespace Corresponds

variable {β : Handle → Handle → Prop} {m n m₁ n₁ : Machine} {i : Instr} {next length : Nat}
  {args args' : List Word}

theorem popOperands (k : Nat) (h : Corresponds β m n) :
    Paired (Operands β m) (Corresponds β) (Machine.popOperands k m) (Machine.popOperands k n) := by
  induction k generalizing m n with
  | zero => exact ⟨.nil, by simp, rfl, h⟩
  | succ k ih =>
    refine h.pop.bind fun v w m₁ n₁ ⟨hvw, hpopped, h₁⟩ => ?_
    refine (ih h₁).bind fun args args' m₂ n₂ h₂ => ?_
    refine ⟨.cons hvw h₂.related, fun j x hx => ?_, h₂.heap.trans hpopped.heap, h₂.corresponds⟩
    cases j with
    | zero =>
      obtain rfl := Option.some.inj hx
      exact hpopped.top
    | succ j =>
      rw [← hpopped.rest]
      exact h₂.top j x hx

/-- What an instruction does with its operands comes to the same on both machines. An allocation is
    the only one after which they correspond differently. -/
theorem act (h : Operands β m args args' m₁ n₁) (htame : i.TameOn next length m)
    (hroom : m.memory.heap.slots.size < Heap.slotBound) :
    Paired (fun o o' m' n' => ∃ γ, o.Matched γ i o' ∧ Corresponds γ m' n') Corresponding
      (Machine.act next length i args m₁) (Machine.act next length i args' n₁) := by
  have hm := h.corresponds
  have hrelated := related_operand h.related
  -- a word, or nothing, is what the instruction comes to
  have hword {x y : Action Word} {R : Word → Word → Prop}
      (hR : ∀ v w, R v w → Outcome.Matched β i (.word v) (.word w))
      (hxy : Paired (fun v w m' n' => R v w ∧ Corresponds β m' n') (Corresponds β) (x m₁) (y n₁)) :
      Paired (fun o o' m' n' => ∃ γ, o.Matched γ i o' ∧ Corresponds γ m' n') Corresponding
        ((do let w ← x; return Outcome.word w : Action Outcome) m₁)
        ((do let w ← y; return Outcome.word w : Action Outcome) n₁) := by
    refine (hxy.weaken fun _ _ h => (⟨β, h⟩ : Corresponding _ _)).bind ?_
    rintro v w m' n' ⟨hvw, h⟩
    exact ⟨β, hR v w hvw, h⟩
  have hdone {x y : Action Unit}
      (hxy : Paired (fun _ _ => Corresponds β) (Corresponds β) (x m₁) (y n₁)) :
      Paired (fun o o' m' n' => ∃ γ, o.Matched γ i o' ∧ Corresponds γ m' n') Corresponding
        ((do x; return Outcome.go .next : Action Outcome) m₁)
        ((do y; return Outcome.go .next : Action Outcome) n₁) :=
    (hxy.weaken fun _ _ h => (⟨β, h⟩ : Corresponding _ _)).bind
      fun _ _ _ _ h => ⟨β, .go .next, h⟩
  cases i with
  | nop | pop | call | ret | halt => exact ⟨β, .go _, hm⟩
  | pushInt k => exact ⟨β, .made rfl, hm⟩
  | pushDouble pattern => exact ⟨β, .word (.plain (Word.handle?_ofDouble _)), hm⟩
  | dup => exact hword (fun _ _ => .word) hm.peek
  | binary op =>
    rw [Machine.act, Machine.act, h.eq_of_plain (htame.pops 0 (by simp [Instr.plainOperands])),
      h.eq_of_plain (htame.pops 1 (by simp [Instr.plainOperands]))]
    exact hword (fun _ _ => Produced.matched) (hm.inspect (op.eval_produced _ _))
  | unary op =>
    rw [Machine.act, Machine.act, h.eq_of_plain (htame.pops 0 (by simp [Instr.plainOperands]))]
    exact ⟨β, (op.eval_produced _).matched, hm⟩
  | jump branch offset =>
    -- no handle is zero
    have htaken : branch.taken (operand args' 0) = branch.taken (operand args 0) := by
      cases branch <;> simp only [Branch.taken, (hrelated 0).isZero_eq]
    rw [Machine.act, Machine.act, htaken]
    split_ifs
    · refine ((hm.inspect (.refl _)).weaken fun _ _ h => (⟨β, h⟩ : Corresponding _ _)).bind ?_
      rintro target _ _ _ ⟨rfl, h⟩
      exact ⟨β, .go _, h⟩
    · exact ⟨β, .go _, hm⟩
  | loadLocal index => exact hword (fun _ _ => .word) (hm.loadLocal index)
  | storeLocal index => exact hdone (hm.storeLocal index (hrelated 0))
  | loadGlobal index => exact hword (fun _ _ => .word) (hm.loadGlobal index)
  | storeGlobal index => exact hdone (hm.storeGlobal index (hrelated 0))
  | arrayNew =>
    rw [Machine.act, Machine.act, h.eq_of_plain (htame.pops 0 (by simp [Instr.plainOperands]))]
    refine (hm.newArray _ (by rw [h.heap]; exact hroom)).bind ?_
    rintro v w _ _ ⟨γ, hvw, h⟩
    exact ⟨γ, .word hvw, h⟩
  | arrayLoad =>
    rw [Machine.act, Machine.act, h.eq_of_plain (htame.pops 0 (by simp [Instr.plainOperands]))]
    exact hword (fun _ _ => .word) (hm.loadElement _ (hrelated 1))
  | arrayStore =>
    rw [Machine.act, Machine.act, h.eq_of_plain (htame.pops 1 (by simp [Instr.plainOperands]))]
    exact hdone (hm.storeElement _ (hrelated 2) (hrelated 0))
  | arrayLen => exact hword (fun _ _ => .word) (hm.arrayLength (hrelated 0))
  | printInt =>
    rw [Machine.act, Machine.act, h.eq_of_plain (htame.pops 0 (by simp [Instr.plainOperands]))]
    exact hdone ((hm.onConsole _).mono fun _ _ _ _ h => h.2)
  | readInt => exact hword (R := Eq) (fun _ _ hvw => hvw ▸ .made rfl) (hm.onConsole _)

/-- A word that is made up is pushed only if there is room, and then it is known not to be a
    handle. -/
theorem deliver {outcome outcome' : Outcome} (h : Corresponds β m n)
    (houtcome : outcome.Matched β i outcome')
    (hmakes : i.makesInt = true → ∀ w, outcome = .word w → m.Roomy → w.handle? = none) :
    Paired (fun f g m' n' => f = g ∧ Corresponds β m' n') (Corresponds β)
      (Machine.deliver outcome m) (Machine.deliver outcome' n) := by
  cases houtcome with
  | word hvw => exact (h.push fun _ => hvw).bind fun _ _ _ _ h => ⟨rfl, h⟩
  | made hi =>
    exact (h.push fun hroom => .plain (hmakes hi _ rfl hroom)).bind fun _ _ _ _ h => ⟨rfl, h⟩
  | go flow => exact ⟨rfl, h⟩

/-- An instruction does the same on machines that correspond, and they correspond afterwards. -/
theorem interpret (h : Corresponds β m n) (htame : i.TameOn next length m)
    (hroom : m.memory.heap.slots.size < Heap.slotBound) :
    Paired (fun f g m' n' => f = g ∧ Corresponding m' n') Corresponding
      (Machine.interpret next length i m) (Machine.interpret next length i n) := by
  refine Paired.interpret ((h.popOperands i.takes).weaken fun _ _ h => ⟨β, h⟩)
    (fun _ _ _ _ h => act h htame hroom) ?_
  rintro outcome outcome' m₂ n₂ ⟨γ, houtcome, h⟩ hmakes
  refine ((h.deliver houtcome fun hi w hw hroom => ?_).mono
    fun _ _ _ _ ⟨hf, h⟩ => ⟨hf, γ, h⟩).weaken fun _ _ h => ⟨γ, h⟩
  exact htame.makes hi w (hmakes w hw hroom)

end Corresponds

/-! ## Tame runs -/

/-- The instruction that is interpreted next. -/
def State.instr? (image : Image) (s : State) : Option Instr :=
  match s.active with
  | .executing _ => none
  | .interpreting a =>
    match image.function? a.function with
    | none => none
    | some f => if f.code.size ≤ a.pc then none else (f.code.decode a.pc).toOption

/-- The top word after a step. -/
def Progress.top? : Progress → Option Word
  | .running s => s.machine.memory.stack.fromTop? 0
  | .ended _ => none

/-- The next instruction treats handles as handles, and there can be another array. -/
structure State.Tame (setup : Setup) (s : State) : Prop where
  pops : ∀ i ∈ s.instr? setup.image, ∀ k ∈ i.plainOperands,
    ∀ w ∈ s.machine.memory.stack.fromTop? k, w.isHandle = false
  makes : ∀ i ∈ s.instr? setup.image, i.makesInt = true →
    ∀ w ∈ (s.step setup).top?, w.isHandle = false
  few : s.machine.memory.heap.count < 2 ^ 32

instance (setup : Setup) (s : State) : Decidable (s.Tame setup) :=
  decidable_of_iff
    ((∀ i ∈ s.instr? setup.image, ∀ k ∈ i.plainOperands,
        ∀ w ∈ s.machine.memory.stack.fromTop? k, w.isHandle = false) ∧
      (∀ i ∈ s.instr? setup.image, i.makesInt = true →
        ∀ w ∈ (s.step setup).top?, w.isHandle = false) ∧
      s.machine.memory.heap.count < 2 ^ 32)
    ⟨fun ⟨hpops, hmakes, hfew⟩ => ⟨hpops, hmakes, hfew⟩, fun h => ⟨h.pops, h.makes, h.few⟩⟩

/-- The states that a run goes through. -/
inductive Progress.Visits (setup : Setup) : Progress → State → Prop
  | here (s : State) : Visits setup (.running s) s
  | later {s t : State} (h : Visits setup (s.step setup) t) : Visits setup (.running s) t

/-- Every state of the run is tame. -/
def Session.Tame (s : Session) : Prop := ∀ t, s.start.Visits s.setup t → t.Tame s.setup

/-- Checks a run that ends within `fuel` steps. -/
def Progress.checkTame (setup : Setup) (fuel : Nat) (p : Progress) : Bool :=
  match p, fuel with
  | .ended _, _ => true
  | .running _, 0 => false
  | .running s, fuel + 1 => decide (s.Tame setup) && (s.step setup).checkTame setup fuel

theorem Progress.tame_of_checkTame {setup : Setup} {fuel : Nat} {p : Progress}
    (h : p.checkTame setup fuel = true) {t : State} (ht : p.Visits setup t) : t.Tame setup := by
  induction ht generalizing fuel with
  | here s =>
    cases fuel with
    | zero => cases h
    | succ fuel =>
      rw [checkTame, Bool.and_eq_true, decide_eq_true_eq] at h
      exact h.1
  | later _ ih =>
    cases fuel with
    | zero => cases h
    | succ fuel =>
      rw [checkTame, Bool.and_eq_true] at h
      exact ih h.2

/-! ## The instruction of a tame state -/

section Instruction

variable {setup : Setup} {a : Interpreting} {m n : Machine} {f : Image.Function} {i : Instr}

theorem Corresponding.report (setup setup' : Setup) (a : Interpreting) (i : Instr)
    (h : Corresponding m n) :
    Corresponding (State.report setup a i m) (State.report setup' a i n) := by
  obtain ⟨β, h⟩ := h
  obtain ⟨journal, hm⟩ := report_eq setup a i m
  obtain ⟨journal', hn⟩ := report_eq setup' a i n
  rw [hm, hn]
  exact ⟨β, { h with }⟩

theorem State.mem_instr? (hf : setup.image.function? a.function = some f)
    (hend : ¬ f.code.size ≤ a.pc) (hd : f.code.decode a.pc = .ok i) :
    i ∈ State.instr? setup.image ⟨.interpreting a, [], m⟩ := by
  simp only [State.instr?, hf, if_neg hend, hd, Except.toOption, Option.mem_some]

theorem State.step_of_next {m' : Machine} (hf : setup.image.function? a.function = some f)
    (hend : ¬ f.code.size ≤ a.pc) (hd : f.code.decode a.pc = .ok i)
    (hm : Machine.interpret (a.pc + i.size) f.code.size i (State.report setup a i m)
      = .ok .next m') :
    State.step setup ⟨.interpreting a, [], m⟩
      = .running ⟨.interpreting { a with pc := a.pc + i.size }, [], m'⟩ := by
  simp only [State.step, State.interpret, hf, if_neg hend, hd, hm]

/-- The instruction is reported first, which changes neither operands nor arrays. So what is known
    of the state holds when the instruction is interpreted. -/
theorem State.Tame.interpret (setup' : Setup) (hf : setup.image.function? a.function = some f)
    (hend : ¬ f.code.size ≤ a.pc) (hd : f.code.decode a.pc = .ok i) (h : Corresponding m n)
    (htame : State.Tame setup ⟨.interpreting a, [], m⟩) :
    Paired (fun x y m' n' => x = y ∧ Corresponding m' n') Corresponding
      (Machine.interpret (a.pc + i.size) f.code.size i (State.report setup a i m))
      (Machine.interpret (a.pc + i.size) f.code.size i (State.report setup' a i n)) := by
  have hinstr := State.mem_instr? hf hend hd (m := m)
  obtain ⟨journal, hreport⟩ := report_eq setup a i m
  obtain ⟨β, h'⟩ := h.report setup setup' a i
  refine h'.interpret ⟨?_, ?_⟩ ?_
  · intro k hk w hw
    rw [hreport] at hw
    exact Word.isHandle_eq_false_iff.1 (htame.pops i hinstr k hk w hw)
  · rintro hmakes w ⟨m', hm, hw⟩
    have hstep := State.step_of_next hf hend hd hm
    refine Word.isHandle_eq_false_iff.1 (htame.makes i hinstr hmakes w ?_)
    rw [hstep]
    exact hw
  · rw [← h'.heap.growing.count_eq, hreport]
    exact htame.few

end Instruction

end StackMachine
