import StackMachine.Proofs.Native.Mirror

/-!
# One step of compiled code

One operation of compiled code goes with one instruction of the interpreter: an instruction of the
function itself, the call of a leaf that was spliced in, an instruction of its body, or its `ret`.

* `Mirrors.step`: from related states, one step on each side leads to related states, or both
  runs end in the same way.
-/

namespace StackMachine

open Native

variable {image : Image} {setup setup' : Setup} {links : List Link} {extra : List Frame}
  {waiting : List Activation} {m n : Machine} {a : Executing} {f : Image.Function}
  {function : UInt16} {pc : Nat} {i : Instr}

/-! ## The two sides of a step -/

/-- A step of interpreted code, at an instruction that can be read. -/
theorem interpret_of_decode {floor : Nat} {rest : List Activation} (hi : setup.image = image)
    (hf : image.function? function = some f) (hpc : pc < f.code.size)
    (hdecode : f.code.decode pc = .ok i) :
    State.interpret setup ⟨function, pc, floor⟩ rest n =
      match Machine.interpret (pc + i.size) f.code.size i
          (State.report setup ⟨function, pc, floor⟩ i n) with
      | .error fault n => State.abort rest fault ⟨function, pc⟩ n
      | .ok .next n => .running ⟨.interpreting ⟨function, pc + i.size, floor⟩, rest, n⟩
      | .ok (.jump target) n => .running ⟨.interpreting ⟨function, target, floor⟩, rest, n⟩
      | .ok (.call callee) n =>
        State.callFromInterpreter setup ⟨function, pc, floor⟩ (pc + i.size) callee rest n
      | .ok .ret n => State.returnFromInterpreter ⟨function, pc, floor⟩ rest n
      | .ok .halt n => State.halt rest n := by
  rw [State.interpret, hi, hf]
  dsimp only
  rewrite [if_neg (by omega), hdecode]
  rfl

theorem execute_of_getElem? {inst : Inst} (hinst : a.routine.program.insts[a.ip]? = some inst) :
    State.execute setup a waiting m =
      match Workspace.execute a.checked inst.op ⟨m, a.registers⟩ with
      | .error fault w => State.abort (.executing a :: waiting) fault inst.location w.machine
      | .ok .next ⟨m, registers⟩ =>
        .running ⟨.executing { a with ip := a.ip + 1, registers }, waiting, m⟩
      | .ok (.jump target) ⟨m, registers⟩ =>
        .running ⟨.executing { a with ip := target, registers }, waiting, m⟩
      | .ok (.call callee) ⟨m, _⟩ => State.callFromNative setup a inst.location callee waiting m
      | .ok .ret ⟨m, _⟩ => State.returnFromNative a inst.location waiting m
      | .ok .halt ⟨m, _⟩ => State.halt (.executing a :: waiting) m := by
  rewrite [State.execute, hinst]
  rfl

/-- Behind the last operation the program halts. -/
theorem Native.Twin.runOff {room : Nat}
    (h : Twin image links extra a.checked room ⟨m, a.registers⟩ n) :
    Matches image (State.runOff setup a waiting m) (State.halt [] n) := by
  obtain ⟨w, hw, hflushed⟩ := h.flush
  rw [State.runOff, hw]
  exact hflushed.alike.halt _ hflushed.stack

/-- Code with a call always checks its pushes. -/
theorem alwaysChecked_of_call {r : Routine} (hprepared : r = r.program.prepare) {ip : Nat}
    {callee : UInt16} {location : Location}
    (hinst : r.program.insts[ip]? = some ⟨.call callee, location⟩) : r.alwaysChecked = true := by
  rw [hprepared, Program.prepare]
  refine Bool.or_eq_true_iff.2 (.inr ?_)
  rw [Array.any_eq_true]
  obtain ⟨hlt, hget⟩ := Array.getElem?_eq_some_iff.1 hinst
  exact ⟨ip, hlt, by rw [hget]; rfl⟩

/-- A jump of compiled code that runs without checks goes forward. -/
theorem lt_of_not_checked {options : Options} {code : Code} {starts : List (Nat × Nat)}
    {branch : Branch} {target : Nat} {location : Location}
    (hprepared : a.routine = a.routine.program.prepare)
    (hchecks : a.routine.alwaysChecked = true → a.checked = true)
    (linked : Linked image options code starts a.routine.program)
    (hinst : a.routine.program.insts[a.ip]? = some ⟨.jump branch target, location⟩)
    (hc : a.checked = false) : a.ip < target := by
  have halways : a.routine.alwaysChecked = false := by
    cases h : a.routine.alwaysChecked with
    | false => rfl
    | true => rw [hchecks h] at hc; cases hc
  rw [hprepared, Program.prepare, Bool.or_eq_false_iff] at halways
  have hback := linked.forward halways.1 a.ip _ hinst
  simpa [jumpsBack] using hback

/-- A leaf from an offset on is a `ret` at the end of the code, or an instruction that stays in the
    body and a leaf behind it. -/
theorem Native.leafFrom?_eq_some_iff {code : Code} {room pc : Nat} {leaf : Leaf} :
    leafFrom? code room pc = some leaf ↔
      ∃ i room', room = room' + 1 ∧ pc < code.size ∧ code.decode pc = .ok i ∧
        ((i = .ret ∧ pc + i.size = code.size ∧ leaf = ⟨[], pc⟩) ∨
          i.isStraight ∧ ∃ rest, leafFrom? code room' (pc + i.size) = some rest ∧
            leaf = ⟨(pc, i) :: rest.body, rest.retPc⟩) := by
  constructor
  · intro h
    unfold leafFrom? at h
    split_ifs at h with hpc
    split at h
    · cases h
    · cases h
    · rename_i i room hi
      refine ⟨i, room, rfl, hpc, hi, ?_⟩
      split_ifs at h with hret hend hstraight
      · exact .inl ⟨hret, hend, (Option.some.inj h).symm⟩
      · obtain ⟨rest, hrest, rfl⟩ := Option.map_eq_some_iff.1 h
        exact .inr ⟨hstraight, rest, hrest, rfl⟩
  · rintro ⟨i, room', rfl, hpc, hi, ⟨rfl, hend, rfl⟩ | ⟨hstraight, rest, hrest, rfl⟩⟩
    · unfold leafFrom?
      rw [if_pos hpc, hi]
      dsimp only
      rw [if_pos rfl, if_pos hend]
    · have hret : i ≠ .ret := by
        rintro rfl
        cases hstraight
      unfold leafFrom?
      rw [if_pos hpc, hi]
      dsimp only
      rw [if_neg hret, if_pos hstraight, hrest]
      rfl

theorem Native.leafFrom?_eq_some {code : Code} {room pc : Nat} {leaf : Leaf}
    (h : leafFrom? code room pc = some leaf) :
    ∃ i, pc < code.size ∧ code.decode pc = .ok i ∧
      ((i = .ret ∧ leaf = ⟨[], pc⟩) ∨
        i.isStraight ∧ ∃ room' rest, leafFrom? code room' (pc + i.size) = some rest ∧
          leaf = ⟨(pc, i) :: rest.body, rest.retPc⟩) := by
  obtain ⟨i, room', -, hpc, hi, ⟨rfl, -, rfl⟩ | ⟨hstraight, rest, hrest, rfl⟩⟩ :=
    leafFrom?_eq_some_iff.1 h
  · exact ⟨.ret, hpc, hi, .inl ⟨rfl, rfl⟩⟩
  · exact ⟨i, hpc, hi, .inr ⟨hstraight, room', rest, hrest, rfl⟩⟩

theorem Native.lower_ne_jump {i : Instr} (h : i.jumpOffset? = none) (k : Nat) (branch : Branch)
    (target : Nat) : lower k i ≠ .jump branch target := by
  cases i <;> simp_all [lower, Instr.jumpOffset?]

theorem Instr.jumpOffset?_eq_some {i : Instr} {offset : Int32} (h : i.jumpOffset? = some offset) :
    ∃ branch, i = .jump branch offset := by
  cases i with
  | jump branch o => exact ⟨branch, by rw [Option.some.inj h]⟩
  | _ => cases h

theorem Instr.jumpOffset?_of_isStraight {i : Instr} (h : i.isStraight) : i.jumpOffset? = none := by
  cases i with
  | jump branch offset => exact absurd h Bool.false_ne_true
  | _ => rfl

theorem Native.leaf?_eq_some {callee : UInt16} {maxSize : Nat} {leaf : Leaf}
    (h : leaf? image callee maxSize = some leaf) :
    ∃ g, image.function? callee = some g ∧ g.arity = 0 ∧ g.locals = 0 ∧
      leafFrom? g.code maxSize 0 = some leaf := by
  unfold leaf? at h
  split at h
  · cases h
  · rename_i g hg
    split_ifs at h with hzero
    exact ⟨g, hg, hzero.1, hzero.2, h⟩

/-- A leaf takes the place of a call to another function only. -/
theorem Native.call_of_spliced? {options : Options} {callee : UInt16} {leaf : Leaf}
    (h : spliced? image options function i = some (callee, leaf)) :
    i = .call callee ∧ options.inline = true ∧ callee ≠ function ∧
      leaf? image callee options.maxLeafSize = some leaf := by
  unfold spliced? at h
  split at h
  · split_ifs at h with hcond
    obtain ⟨leaf', hleaf, heq⟩ := Option.map_eq_some_iff.1 h
    obtain ⟨rfl, rfl⟩ := Prod.mk.inj heq
    exact ⟨rfl, hcond.1, hcond.2, hleaf⟩
  · cases h

/-- What takes the place of a call to a leaf. -/
theorem Native.spliced?_eq_some {options : Options} {callee : UInt16} {leaf : Leaf}
    (h : spliced? image options function i = some (callee, leaf)) :
    i = .call callee ∧ ∃ g, image.function? callee = some g ∧ g.arity = 0 ∧ g.locals = 0 ∧
      leafFrom? g.code options.maxLeafSize 0 = some leaf := by
  obtain ⟨hcall, -, -, hleaf⟩ := Native.call_of_spliced? h
  exact ⟨hcall, Native.leaf?_eq_some hleaf⟩

/-! ## Instructions of the function itself -/

section Step

variable (hi' : setup'.image = image) (hprepared : a.routine = a.routine.program.prepare)
  (hchecks : a.routine.alwaysChecked = true → a.checked = true)
  (hb : Backed image waiting links)
include hi' hprepared hchecks hb

/-- An instruction that is neither a jump nor the call of a spliced leaf. -/
theorem plainStep (hi : setup.image = image)
    (hf : image.function? a.routine.program.function = some f)
    (hpc : pc < f.code.size) (hdecode : f.code.decode pc = .ok i) (hj : i.jumpOffset? = none)
    (hinst : a.routine.program.insts[a.ip]? =
      some ⟨lower (pc + i.size) i, ⟨a.routine.program.function, pc⟩⟩)
    (htwin : Twin image links [] a.checked (a.routine.growthFrom a.ip) ⟨m, a.registers⟩ n)
    (hstands : Stands image a.routine (a.ip + 1) [] a.routine.program.function (pc + i.size)) :
    Matches image (State.execute setup a waiting m)
      (State.interpret setup' ⟨a.routine.program.function, pc, 1⟩ [] n) := by
  rw [execute_of_getElem? hinst, interpret_of_decode hi' hf hpc hdecode]
  rw [Routine.growthFrom_of_getElem? hinst] at htwin
  obtain ⟨flow, flow', w, n', hw, hn, honward⟩ | ⟨e, w, n', hw, hn, hfallen⟩ :=
    ((htwin.report setup' ⟨a.routine.program.function, pc, 1⟩ i).execute
      (pc + i.size) (pc + i.size) f.code.size i hj (.inl rfl) (by simp)).cases
  · rw [hw, hn]
    obtain ⟨m', registers⟩ := w
    cases honward with
    | next h => exact .running (.executing (a := { a with ip := a.ip + 1, registers }) hprepared h
        hchecks hstands hb)
    | jump h _ hl => exact hl.elim
    | call h _ hcall =>
      subst hcall
      exact h.same.callFromNative _ hi hi' rfl hprepared
        (hchecks (alwaysChecked_of_call hprepared hinst)) hstands hb
    | ret h _ => exact h.same.returnFromNative hb
    | halt h => exact h.alike.halt _ h.stack
  · rw [hw, hn]
    exact Agrees.abort _ e _ hfallen

/-- A jump. -/
theorem jumpStep {branch : Branch} {offset : Int32} {target place : Nat}
    (hf : image.function? a.routine.program.function = some f) (hpc : pc < f.code.size)
    (hdecode : f.code.decode pc = .ok (.jump branch offset))
    (hplace : Code.jumpTarget (pc + (Instr.jump branch offset).size) offset f.code.size = .ok place)
    (hinst : a.routine.program.insts[a.ip]? =
      some ⟨.jump branch target, ⟨a.routine.program.function, pc⟩⟩)
    (hforward : a.checked = false → a.ip < target)
    (htwin : Twin image links [] a.checked (a.routine.growthFrom a.ip) ⟨m, a.registers⟩ n)
    (hstands : Stands image a.routine (a.ip + 1) [] a.routine.program.function
      (pc + (Instr.jump branch offset).size))
    (htarget : Stands image a.routine target [] a.routine.program.function place) :
    Matches image (State.execute setup a waiting m)
      (State.interpret setup' ⟨a.routine.program.function, pc, 1⟩ [] n) := by
  rw [execute_of_getElem? hinst, interpret_of_decode hi' hf hpc hdecode]
  rw [Routine.growthFrom_of_getElem? hinst] at htwin
  obtain ⟨flow, flow', w, n', hw, hn, honward⟩ | ⟨e, w, n', hw, hn, hfallen⟩ :=
    ((htwin.report setup' ⟨a.routine.program.function, pc, 1⟩ (.jump branch offset)).jump
      branch target hplace).cases
  · rw [hw, hn]
    obtain ⟨m', registers⟩ := w
    cases honward with
    | next h => exact .running (.executing (a := { a with ip := a.ip + 1, registers }) hprepared h
        hchecks hstands hb)
    | jump h _ hl =>
      obtain ⟨rfl, rfl⟩ := hl
      refine .running (.executing (a := { a with ip := _, registers }) hprepared
        (h.anti fun hc => ?_) hchecks htarget hb)
      have := a.routine.growthFrom_anti (Nat.succ_le_of_lt (hforward hc))
      exact Nat.le_add_right_of_le this
    | call h _ hcall => cases hcall
    | ret h _ => exact h.same.returnFromNative hb
    | halt h => exact h.alike.halt _ h.stack
  · rw [hw, hn]
    exact Agrees.abort _ e _ hfallen

/-- The call of a leaf that was spliced in. -/
theorem enterStep {options : Options} {code : Code} {starts : List (Nat × Nat)} {callee : UInt16}
    {leaf : Leaf} {g : Image.Function} {size : Nat}
    (hf : image.function? a.routine.program.function = some f) (hpc : pc < f.code.size)
    (hdecode : f.code.decode pc = .ok (.call callee))
    (hg : image.function? callee = some g) (harity : g.arity = 0) (hlocals : g.locals = 0)
    (hleaf : leafFrom? g.code size 0 = some leaf)
    (hinst : a.routine.program.insts[a.ip]? =
      some ⟨.enterLeaf callee, ⟨a.routine.program.function, pc⟩⟩)
    (htwin : Twin image links [] a.checked (a.routine.growthFrom a.ip) ⟨m, a.registers⟩ n)
    (linked : Linked image options code starts a.routine.program)
    (readable : Readable code (pc + (Instr.call callee).size))
    (follows : Follows starts (leafInsts callee leaf ++
        unlinkedFrom image options a.routine.program.function code (pc + (Instr.call callee).size))
      (a.routine.program.insts.toList.drop (a.ip + 1))) :
    Matches image (State.execute setup a waiting m)
      (State.interpret setup' ⟨a.routine.program.function, pc, 1⟩ [] n) := by
  rw [execute_of_getElem? hinst, interpret_of_decode hi' hf hpc hdecode]
  rw [Routine.growthFrom_of_getElem? hinst] at htwin
  have hcall : ∀ n, Machine.interpret (pc + (Instr.call callee).size) f.code.size (.call callee) n =
      .ok (.call callee) n := fun n => rfl
  rw [hcall]
  dsimp only
  rw [State.callFromInterpreter, hi']
  obtain ⟨flow, r, w, n', hw, hn, rfl, rfl, h⟩ | ⟨e, w, n', hw, hn, hfallen⟩ :=
    ((htwin.report setup' ⟨a.routine.program.function, pc, 1⟩ (.call callee)).enterLeaf
      a.routine.program.function (pc + (Instr.call callee).size) hg harity hlocals).cases
  · rw [hw, hn]
    obtain ⟨m', registers⟩ := w
    exact .running (.executing (a := { a with ip := a.ip + 1, registers }) hprepared h hchecks
      (.leaf linked hg hleaf readable follows) hb)
  · rw [hw, hn]
    exact Agrees.abort _ e _ hfallen

/-! ## Instructions of a leaf -/

/-- An instruction of the body of a leaf. -/
theorem bodyStep {options : Options} {code : Code} {starts : List (Nat × Nat)} {callee : UInt16}
    {rest : Leaf} {room next : Nat} (hf : image.function? callee = some f)
    (hpc : pc < f.code.size) (hdecode : f.code.decode pc = .ok i) (hstraight : i.isStraight)
    (hrest : leafFrom? f.code room (pc + i.size) = some rest)
    (hinst : a.routine.program.insts[a.ip]? = some ⟨lower (pc + i.size) i, ⟨callee, pc⟩⟩)
    (htwin : Twin image links [leafFrame callee a.routine.program.function next] a.checked
      (a.routine.growthFrom a.ip) ⟨m, a.registers⟩ n)
    (linked : Linked image options code starts a.routine.program) (readable : Readable code next)
    (follows : Follows starts
      (leafInsts callee rest ++ unlinkedFrom image options a.routine.program.function code next)
      (a.routine.program.insts.toList.drop (a.ip + 1))) :
    Matches image (State.execute setup a waiting m)
      (State.interpret setup' ⟨callee, pc, 1⟩ [] n) := by
  rw [execute_of_getElem? hinst, interpret_of_decode hi' hf hpc hdecode]
  rw [Routine.growthFrom_of_getElem? hinst] at htwin
  obtain ⟨flow, flow', w, n', hw, hn, honward⟩ | ⟨e, w, n', hw, hn, hfallen⟩ :=
    ((htwin.report setup' ⟨callee, pc, 1⟩ i).execute
      (pc + i.size) (pc + i.size) f.code.size i (Instr.jumpOffset?_of_isStraight hstraight)
      (.inr hstraight) (by simp [leafFrame])).cases
  · rw [hw, hn]
    obtain ⟨m', registers⟩ := w
    cases honward with
    | next h => exact .running (.executing (a := { a with ip := a.ip + 1, registers }) hprepared h
        hchecks (.leaf linked hf hrest readable follows) hb)
    | jump h hnil _ => cases hnil
    | call h hnil _ => cases hnil
    | ret h hnil => cases hnil
    | halt h => exact h.alike.halt _ h.stack
  · rw [hw, hn]
    exact Agrees.abort _ e _ hfallen

/-- The `ret` of a leaf. -/
theorem exitStep {callee : UInt16} {next : Nat} (hf : image.function? callee = some f)
    (hpc : pc < f.code.size) (hdecode : f.code.decode pc = .ok .ret)
    (hinst : a.routine.program.insts[a.ip]? = some ⟨.exitLeaf, ⟨callee, pc⟩⟩)
    (htwin : Twin image links [leafFrame callee a.routine.program.function next] a.checked
      (a.routine.growthFrom a.ip) ⟨m, a.registers⟩ n)
    (hstands : Stands image a.routine (a.ip + 1) [] a.routine.program.function next) :
    Matches image (State.execute setup a waiting m)
      (State.interpret setup' ⟨callee, pc, 1⟩ [] n) := by
  rw [execute_of_getElem? hinst, interpret_of_decode hi' hf hpc hdecode]
  rw [Routine.growthFrom_of_getElem? hinst] at htwin
  have hret : ∀ n, Machine.interpret (pc + Instr.ret.size) f.code.size .ret n = .ok .ret n :=
    fun n => rfl
  rw [hret]
  dsimp only
  obtain ⟨flow, r, w, n', hw, hn, rfl, rfl, h⟩ | ⟨e, w, n', hw, hn, hfallen⟩ :=
    (Twin.exitLeaf (htwin.report setup' ⟨callee, pc, 1⟩ .ret)).cases
  · rw [hw, returnFromInterpreter_of_resume hn (h.alike.depth_pos hb.ne_nil)]
    obtain ⟨m', registers⟩ := w
    exact .running (.executing (a := { a with ip := a.ip + 1, registers }) hprepared h hchecks
      hstands hb)
  · rw [hw, State.returnFromInterpreter, hn]
    exact Agrees.abort _ e _ hfallen

/-! ## Every step -/

/-- A step of compiled code in the function itself. -/
theorem ownStep {options : Options} {code : Code} {starts : List (Nat × Nat)}
    (hi : setup.image = image)
    (htwin : Twin image links [] a.checked (a.routine.growthFrom a.ip) ⟨m, a.registers⟩ n)
    (linked : Linked image options code starts a.routine.program) (readable : Readable code pc)
    (follows : Follows starts (unlinkedFrom image options a.routine.program.function code pc)
      (a.routine.program.insts.toList.drop a.ip)) :
    Matches image (State.execute setup a waiting m)
      (State.interpret setup' ⟨a.routine.program.function, pc, 1⟩ [] n) := by
  obtain ⟨f, hf, rfl⟩ := linked.source
  by_cases hpc : pc < f.code.size
  · obtain ⟨i, hdecode, hstray, hnext⟩ := readable.decode hpc
    rw [unlinkedFrom_of_decode _ _ _ hpc hdecode] at follows
    cases hspliced : spliced? image options a.routine.program.function i with
    | none =>
      rw [emit, hspliced] at follows
      obtain ⟨inst, hinst, hrelocate, hrest⟩ := follows.getElem?_cons
      have hstands : Stands image a.routine (a.ip + 1) [] a.routine.program.function
        (pc + i.size) := .own linked hnext hrest
      cases hj : i.jumpOffset? with
      | none =>
        rw [relocate_of_not_jump (lower_ne_jump hj _)] at hrelocate
        cases hrelocate
        exact plainStep hi' hprepared hchecks hb hi hf hpc hdecode hj hinst htwin hstands
      | some offset =>
        obtain ⟨branch, rfl⟩ := Instr.jumpOffset?_eq_some hj
        obtain ⟨target, htarget, rfl⟩ := relocate_jump hrelocate
        obtain ⟨hreadable, hfollows⟩ := linked.target _ _ htarget
        exact jumpStep hi' hprepared hchecks hb hf hpc hdecode (jumpTarget_of_strayJump? hstray)
          hinst (lt_of_not_checked hprepared hchecks linked hinst) htwin hstands
          (.own linked hreadable hfollows)
    | some spliced =>
      obtain ⟨callee, leaf⟩ := spliced
      obtain ⟨rfl, g, hg, harity, hlocals, hleaf⟩ := spliced?_eq_some hspliced
      rw [emit, hspliced] at follows
      obtain ⟨inst, hinst, hrelocate, hrest⟩ := follows.getElem?_cons
      cases hrelocate
      exact enterStep hi' hprepared hchecks hb hf hpc hdecode hg harity hlocals hleaf hinst htwin
        linked hnext hrest
  · -- both run past the end of the code
    rw [unlinkedFrom_of_size_le _ _ _ (by omega)] at follows
    rw [State.execute, follows.getElem?_nil, State.interpret, hi', hf]
    dsimp only
    rw [if_pos (by omega)]
    exact htwin.runOff

/-- A step of compiled code in a leaf. -/
theorem leafStep {options : Options} {code : Code} {starts : List (Nat × Nat)} {callee : UInt16}
    {room next : Nat} {leaf : Leaf}
    (htwin : Twin image links [leafFrame callee a.routine.program.function next] a.checked
      (a.routine.growthFrom a.ip) ⟨m, a.registers⟩ n)
    (linked : Linked image options code starts a.routine.program)
    (hf : image.function? callee = some f) (hleaf : leafFrom? f.code room pc = some leaf)
    (readable : Readable code next)
    (follows : Follows starts
      (leafInsts callee leaf ++ unlinkedFrom image options a.routine.program.function code next)
      (a.routine.program.insts.toList.drop a.ip)) :
    Matches image (State.execute setup a waiting m)
      (State.interpret setup' ⟨callee, pc, 1⟩ [] n) := by
  obtain ⟨i, hpc, hdecode, ⟨rfl, rfl⟩ | ⟨hstraight, room', rest, hrest, rfl⟩⟩ :=
    leafFrom?_eq_some hleaf
  · obtain ⟨inst, hinst, hrelocate, hfollows⟩ := follows.getElem?_cons
    cases hrelocate
    exact exitStep hi' hprepared hchecks hb hf hpc hdecode hinst htwin
      (.own linked readable hfollows)
  · obtain ⟨inst, hinst, hrelocate, hfollows⟩ := follows.getElem?_cons
    rw [relocate_of_not_jump (lower_ne_jump (Instr.jumpOffset?_of_isStraight hstraight) _)]
      at hrelocate
    cases hrelocate
    exact bodyStep hi' hprepared hchecks hb hf hpc hdecode hstraight hrest hinst htwin linked
      readable hfollows

end Step

/-- From related states one step on each side leads to related states, or both runs end in the
    same way. -/
theorem Mirrors.step {s t : State} (hi : setup.image = image) (hi' : setup'.image = image)
    (h : Mirrors image s t) : Matches image (s.step setup) (t.step setup') := by
  cases h with
  | interpreting same known floor backed => exact same.interpretStep hi hi' known floor backed
  | executing prepared twin checks stands backed =>
    cases stands with
    | own linked readable follows =>
      exact ownStep hi' prepared checks backed hi twin linked readable follows
    | leaf linked hf hleaf readable follows =>
      exact leafStep hi' prepared checks backed twin linked hf hleaf readable follows

end StackMachine
