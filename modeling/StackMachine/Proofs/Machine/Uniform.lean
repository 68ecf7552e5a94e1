import StackMachine.Proofs.Machine.Phases

/-!
# Instructions that do the same on two machines

An instruction is put together from a few actions. A relation between machines that these actions
respect is therefore respected by instructions. The relations that are used differ in what they say
of frames and of collections, so the actions on locals and the making of an array are left out and
asked for where an instruction needs them.

* `Uniform.interpret`: what the actions respect, an instruction respects.
-/

namespace StackMachine

/-- The actions that instructions are made of keep machines related by `R`, and leave them related
    by `F` if they fail, apart from those on locals and the one that makes an array. -/
structure Uniform (R F : Machine → Machine → Prop) : Prop where
  push (w : Word) : Carries R F (Machine.push w)
  pop : Carries R F Machine.pop
  peek : Carries R F Machine.peek
  compute {α : Type} (x : Except Fault α) : Carries R F (Machine.inspect fun _ => x)
  loadGlobal (index : UInt16) : Carries R F (Machine.loadGlobal index)
  storeGlobal (index : UInt16) (w : Word) : Carries R F (Machine.storeGlobal index w)
  loadElement (array index : Word) : Carries R F (Machine.loadElement array index)
  storeElement (array index w : Word) : Carries R F (Machine.storeElement array index w)
  arrayLength (array : Word) : Carries R F (Machine.arrayLength array)
  printInt (w : Word) : Carries R F (Machine.printInt w)
  readInt : Carries R F Machine.readInt

namespace Uniform

variable {R F : Machine → Machine → Prop} {next length : Nat} {i : Instr}

theorem popOperands (h : Uniform R F) (n : Nat) : Carries R F (Machine.popOperands n) := by
  induction n with
  | zero => exact .pure _
  | succ n ih => exact h.pop.bind fun w => ih.bind fun args => .pure _

theorem deliver (h : Uniform R F) (outcome : Outcome) :
    Carries R F (Machine.deliver outcome) := by
  cases outcome with
  | word w => exact (h.push w).bind fun _ => .pure _
  | go flow => exact .pure _

theorem act (h : Uniform R F) (args : List Word)
    (hload : ∀ index, i = .loadLocal index → Carries R F (Machine.loadLocal index))
    (hstore : ∀ index, i = .storeLocal index → ∀ w, Carries R F (Machine.storeLocal index w))
    (hnew : i = .arrayNew → ∀ size, Carries R F (Machine.newArray size)) :
    Carries R F (Machine.act next length i args) := by
  have hword {x : Action Word} (hx : Carries R F x) :
      Carries R F (do let w ← x; return Outcome.word w) := hx.bind fun _ => .pure _
  have hdone {x : Action Unit} (hx : Carries R F x) :
      Carries R F (do x; return Outcome.go .next) := hx.bind fun _ => .pure _
  cases i with
  | nop | pop | pushInt | pushDouble | unary | call | ret | halt => exact .pure _
  | dup => exact hword h.peek
  | binary op => exact hword (h.compute _)
  | jump branch offset =>
    rw [Machine.act]
    split_ifs
    · exact (h.compute _).bind fun _ => .pure _
    · exact .pure _
  | loadLocal index => exact hword (hload index rfl)
  | storeLocal index => exact hdone (hstore index rfl _)
  | loadGlobal index => exact hword (h.loadGlobal index)
  | storeGlobal index => exact hdone (h.storeGlobal index _)
  | arrayNew => exact hword (hnew rfl _)
  | arrayLoad => exact hword (h.loadElement _ _)
  | arrayStore => exact hdone (h.storeElement _ _ _)
  | arrayLen => exact hword (h.arrayLength _)
  | printInt => exact hdone (h.printInt _)
  | readInt => exact hword h.readInt

/-- An instruction does the same on related machines. -/
theorem interpret (h : Uniform R F)
    (hload : ∀ index, i = .loadLocal index → Carries R F (Machine.loadLocal index))
    (hstore : ∀ index, i = .storeLocal index → ∀ w, Carries R F (Machine.storeLocal index w))
    (hnew : i = .arrayNew → ∀ size, Carries R F (Machine.newArray size)) :
    Carries R F (Machine.interpret next length i) := by
  rw [Machine.interpret_eq]
  exact (h.popOperands i.takes).bind fun args => (h.act args hload hstore hnew).bind h.deliver

end Uniform

end StackMachine
