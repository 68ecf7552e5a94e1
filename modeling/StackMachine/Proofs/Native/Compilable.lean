import StackMachine.Proofs.Instr.Codec
import StackMachine.Proofs.Native.Lockstep

/-!
# Which functions can be compiled

Compilation reads the code of a function from its first byte on and puts down where the operations
of each instruction start. A jump is resolved by looking up its target there, so that compilation
succeeds if and only if the code can be read to its end and every jump leads to the start of an
instruction or to the end. Splicing leaves into the code changes the indices in the table, but not
the offsets.

* `lookup_starts_eq_some_iff`: what the table of starts says.
* `exists_compile_eq_ok_iff`: which functions can be compiled.
-/

namespace StackMachine

/-! ## Linear readings -/

namespace Code

/-- An instruction starts at this place when the code is read from its first byte on, or the code
    ends there. -/
def IsBoundary (code : Code) (place : Nat) : Prop :=
  (∃ i, (place, i) ∈ code.sweep.instrs) ∨ place = code.size

/-- The instructions that are read from an offset on stand there in the code. -/
theorem of_mem_sweepFrom {code : Code} {pc : Nat} {x : Nat × Instr}
    (h : x ∈ (code.sweepFrom pc).instrs) :
    pc ≤ x.1 ∧ x.1 < code.size ∧ code.decode x.1 = .ok x.2 := by
  fun_induction sweepFrom code pc with
  | case1 pc hend => simp at h
  | case2 pc hend fault hfault => simp at h
  | case3 pc hend i hi rest ih =>
    rcases List.mem_cons.1 h with rfl | h
    · exact ⟨le_rfl, by omega, hi⟩
    · obtain ⟨hpc, hsize, hdecode⟩ := ih h
      exact ⟨by omega, hsize, hdecode⟩

/-- The offsets of a reading increase. -/
theorem pairwise_sweepFrom (code : Code) (pc : Nat) :
    (code.sweepFrom pc).instrs.Pairwise fun x y => x.1 < y.1 := by
  fun_induction sweepFrom code pc with
  | case1 pc hend => simp
  | case2 pc hend fault hfault => simp
  | case3 pc hend i hi rest ih =>
    refine List.pairwise_cons.2 ⟨?_, ih⟩
    intro y hy
    have hle := (of_mem_sweepFrom hy).1
    have hpos := i.size_pos
    omega

end Code

namespace Native

/-! ## The table of starts -/

/-- The table gives the end of the code and the offsets that operations were emitted for, each with
    the number of operations emitted for smaller offsets. -/
theorem lookup_starts_eq_some_iff {chunks : List (Nat × List Inst)} {stop : Nat}
    (hsorted : chunks.Pairwise fun c d => c.1 < d.1) (hstop : ∀ c ∈ chunks, c.1 < stop)
    (index place target : Nat) :
    (starts index chunks ++ [(stop, index + (chunks.flatMap Prod.snd).length)]).lookup place
        = some target ↔
      ((∃ c ∈ chunks, c.1 = place) ∨ place = stop) ∧
        target = index + ((chunks.filter fun c => c.1 < place).flatMap Prod.snd).length := by
  induction chunks generalizing index with
  | nil =>
    by_cases hplace : place = stop
    · simp [starts, hplace, eq_comm]
    · have hne : (place == stop) = false := by simpa using hplace
      simp [starts, List.lookup_cons, hne, hplace]
  | cons c chunks ih =>
    obtain ⟨pc, insts⟩ := c
    obtain ⟨hlt, hsorted⟩ := List.pairwise_cons.1 hsorted
    have hpc : pc < stop := hstop (pc, insts) List.mem_cons_self
    have hrest := ih hsorted (fun c hc => hstop c (List.mem_cons_of_mem _ hc))
      (index + insts.length)
    rw [starts, List.cons_append, List.lookup_cons]
    by_cases hplace : place = pc
    · -- all other offsets are larger
      subst hplace
      have hnone : chunks.filter (fun c => c.1 < place) = [] := by
        rw [List.filter_eq_nil_iff]
        intro c hc
        have := hlt c hc
        simp
        omega
      simp [hnone, eq_comm]
    · have hne : (place == pc) = false := by simpa using hplace
      rw [hne, List.flatMap_cons, List.length_append, ← Nat.add_assoc, hrest]
      simp only [List.mem_cons, exists_eq_or_imp, List.filter_cons]
      constructor
      · rintro ⟨hfound, rfl⟩
        have hbelow : pc < place := by
          rcases hfound with ⟨c, hc, rfl⟩ | rfl
          · exact hlt c hc
          · exact hpc
        refine ⟨?_, ?_⟩
        · rcases hfound with hfound | hfound
          · exact .inl (.inr hfound)
          · exact .inr hfound
        · simp [hbelow]
          omega
      · rintro ⟨(hfound | hfound) | hfound, rfl⟩
        · exact absurd hfound.symm hplace
        · obtain ⟨c, hc, rfl⟩ := hfound
          refine ⟨.inl ⟨c, hc, rfl⟩, ?_⟩
          simp [hlt c hc]
          omega
        · subst hfound
          refine ⟨.inr rfl, ?_⟩
          simp [hpc]
          omega

/-! ## Linking -/

/-- A loop over a list succeeds if every round does. -/
theorem exists_mapM_iff {ε α β : Type} {f : α → Except ε β} {xs : List α} :
    (∃ ys, xs.mapM f = .ok ys) ↔ ∀ a ∈ xs, ∃ b, f a = .ok b := by
  induction xs with
  | nil => simp [pure, Except.pure]
  | cons a xs ih =>
    rw [List.forall_mem_cons, ← ih, List.mapM_cons]
    cases ha : f a with
    | error e =>
      constructor
      · rintro ⟨ys, hys⟩
        cases hys
      · rintro ⟨⟨b, hb⟩, -⟩
        cases hb
    | ok b =>
      cases hxs : xs.mapM f with
      | error e =>
        constructor
        · rintro ⟨ys, hys⟩
          cases hys
        · rintro ⟨-, ys, hys⟩
          cases hys
      | ok ys => exact ⟨fun _ => ⟨⟨b, rfl⟩, ys, rfl⟩, fun _ => ⟨b :: ys, rfl⟩⟩

section Linking

variable {image : Image} {options : Options} {function : UInt16} {code : Code} {p : Program}

/-- The operations emitted for each instruction of a function, with its offset. -/
def emitted (image : Image) (options : Options) (function : UInt16) (code : Code) :
    List (Nat × List Inst) :=
  code.sweep.instrs.map fun x => (x.1, emit image options function x.1 x.2)

/-- The index at which to go on after a jump to an offset. -/
def places (image : Image) (options : Options) (function : UInt16) (code : Code) :
    List (Nat × Nat) :=
  starts 0 (emitted image options function code) ++
    [(code.size, ((emitted image options function code).flatMap Prod.snd).length)]

theorem pairwise_emitted : (emitted image options function code).Pairwise fun c d => c.1 < d.1 :=
  List.pairwise_map.2 (code.pairwise_sweepFrom 0)

theorem lt_of_mem_emitted {c : Nat × List Inst} (h : c ∈ emitted image options function code) :
    c.1 < code.size := by
  obtain ⟨x, hx, rfl⟩ := List.mem_map.1 h
  exact (Code.of_mem_sweepFrom hx).2.1

theorem lookup_places_eq_some_iff {place target : Nat} :
    (places image options function code).lookup place = some target ↔
      code.IsBoundary place ∧
        target = (((emitted image options function code).filter fun c => c.1 < place).flatMap
          Prod.snd).length := by
  have h := lookup_starts_eq_some_iff (@pairwise_emitted image options function code)
    (fun _ hc => lt_of_mem_emitted hc) 0 place target
  rw [Nat.zero_add, Nat.zero_add] at h
  rw [places, h]
  simp [emitted, Code.IsBoundary]

/-- The body of a leaf runs straight through to its `ret`, and all of it stands in the code. -/
theorem of_leafFrom? {room pc : Nat} {leaf : Leaf} (h : leafFrom? code room pc = some leaf) :
    (∀ x ∈ leaf.body, x.2.isStraight = true ∧ x.1 < code.size ∧ code.decode x.1 = .ok x.2) ∧
      leaf.retPc < code.size ∧ code.decode leaf.retPc = .ok .ret := by
  induction hbody : leaf.body generalizing leaf room pc with
  | nil =>
    obtain ⟨i, hpc, hi, ⟨rfl, rfl⟩ | ⟨-, room', rest, -, rfl⟩⟩ := leafFrom?_eq_some h
    · exact ⟨by simp, hpc, hi⟩
    · simp at hbody
  | cons x body ih =>
    obtain ⟨i, hpc, hi, ⟨rfl, rfl⟩ | ⟨hstraight, room', rest, hrest, rfl⟩⟩ := leafFrom?_eq_some h
    · simp at hbody
    · obtain ⟨rfl, htail⟩ := List.cons.inj hbody
      obtain ⟨hall, hret⟩ := ih hrest htail
      refine ⟨?_, hret⟩
      intro y hy
      rcases List.mem_cons.1 hy with rfl | hy
      · exact ⟨hstraight, hpc, hi⟩
      · exact hall y hy

theorem of_leaf? {callee : UInt16} {maxSize : Nat} {leaf : Leaf}
    (h : leaf? image callee maxSize = some leaf) :
    ∃ f, image.function? callee = some f ∧
      (∀ x ∈ leaf.body, x.2.isStraight = true ∧ x.1 < f.code.size ∧ f.code.decode x.1 = .ok x.2) ∧
      leaf.retPc < f.code.size ∧ f.code.decode leaf.retPc = .ok .ret := by
  obtain ⟨f, hf, -, -, hfrom⟩ := leaf?_eq_some h
  exact ⟨f, hf, of_leafFrom? hfrom⟩

theorem mem_splice {callee : UInt16} {leaf : Leaf} {location : Location} {inst : Inst} :
    inst ∈ splice callee leaf location ↔
      inst = ⟨.enterLeaf callee, location⟩ ∨
      (∃ x ∈ leaf.body, inst = ⟨lower (x.1 + x.2.size) x.2, ⟨callee, x.1⟩⟩) ∨
      inst = ⟨.exitLeaf, ⟨callee, leaf.retPc⟩⟩ := by
  simp [splice, eq_comm]

/-- The body of a leaf has no jump. -/
theorem ne_jump_of_mem_splice {callee : UInt16} {maxSize : Nat} {leaf : Leaf} {location : Location}
    {inst : Inst} (hleaf : leaf? image callee maxSize = some leaf)
    (h : inst ∈ splice callee leaf location) (branch : Branch) (target : Nat) :
    inst.op ≠ .jump branch target := by
  obtain ⟨f, -, hbody, -⟩ := of_leaf? hleaf
  rcases mem_splice.1 h with rfl | ⟨x, hx, rfl⟩ | rfl
  · simp
  · exact lower_ne_jump (Instr.jumpOffset?_of_isStraight (hbody x hx).1) _ branch target
  · simp

/-- Only a jump is compiled to a jump. -/
theorem ne_jump_of_mem_emit {pc : Nat} {i : Instr} {inst : Inst} (hi : i.jumpOffset? = none)
    (h : inst ∈ emit image options function pc i) (branch : Branch) (target : Nat) :
    inst.op ≠ .jump branch target := by
  rw [emit] at h
  split at h
  next callee leaf hspliced =>
    exact ne_jump_of_mem_splice (call_of_spliced? hspliced).2.2.2 h branch target
  · rw [List.mem_singleton.1 h]
    exact lower_ne_jump hi _ branch target

/-- An operation can be resolved unless it is a jump to a place that is not in the table. -/
theorem exists_relocate_iff {table : List (Nat × Nat)} {inst : Inst} :
    (∃ v, relocate table inst = .ok v) ↔
      ∀ branch place, inst.op = .jump branch place →
        ∃ target, table.lookup place = some target := by
  constructor
  · rintro ⟨v, hv⟩ branch place hop
    obtain ⟨op, location⟩ := inst
    subst hop
    obtain ⟨target, htarget, -⟩ := relocate_jump hv
    exact ⟨target, htarget⟩
  · intro h
    unfold relocate
    split
    next branch place hop =>
      obtain ⟨target, htarget⟩ := h branch place hop
      rw [htarget]
      exact ⟨_, rfl⟩
    · exact ⟨inst, rfl⟩

/-- Linking succeeds if every jump that was emitted is found in the table. -/
theorem exists_link_iff :
    (∃ p, link function code.size (emitted image options function code) = .ok p) ↔
      ∀ pc branch offset, (pc, Instr.jump branch offset) ∈ code.sweep.instrs →
        code.IsBoundary
          (Code.jumpPlace (pc + (Instr.jump branch offset).size) offset).toNat := by
  have hall : (∃ p, link function code.size (emitted image options function code) = .ok p) ↔
      ∀ inst ∈ (emitted image options function code).flatMap Prod.snd,
        ∃ v, relocate (places image options function code) inst = .ok v := by
    rw [← exists_mapM_iff]
    simp only [link, places]
    constructor
    · rintro ⟨p, h⟩
      split at h
      · simp at h
      next insts hinsts => exact ⟨insts, hinsts⟩
    · rintro ⟨insts, hinsts⟩
      rw [hinsts]
      exact ⟨_, rfl⟩
  rw [hall]
  simp only [emitted, List.flatMap_map, List.mem_flatMap, forall_exists_index, and_imp]
  constructor
  · intro h pc branch offset hjump
    have hfound := exists_relocate_iff.1 (h _ _ hjump (List.mem_singleton_self _)) branch _ rfl
    obtain ⟨target, htarget⟩ := hfound
    exact (lookup_places_eq_some_iff.1 htarget).1
  · intro h inst x hx hinst
    refine exists_relocate_iff.2 fun branch place hop => ?_
    obtain ⟨pc, i⟩ := x
    cases hi : i.jumpOffset? with
    | none => exact absurd hop (ne_jump_of_mem_emit hi hinst branch place)
    | some offset =>
      obtain ⟨branch', rfl⟩ := Instr.jumpOffset?_eq_some hi
      obtain rfl := List.mem_singleton.1 hinst
      obtain ⟨rfl, rfl⟩ := Op.jump.inj hop
      exact ⟨_, lookup_places_eq_some_iff.2 ⟨h pc _ offset hx, rfl⟩⟩

/-! ## Compilation -/

/-- Compilation links what was emitted, provided that the code can be read. -/
theorem compile_eq_ok_iff :
    compile image function options = .ok p ↔
      ∃ f, image.function? function = some f ∧ Readable f.code 0 ∧
        link function f.code.size (emitted image options function f.code) = .ok p := by
  unfold compile
  split
  next hf => simp [hf]
  next f hf =>
    have hstray : (f.code.sweep.instrs.findSome? fun x => strayJump? f.code.size x.1 x.2) = none ↔
        ∀ x ∈ f.code.sweep.instrs, strayJump? f.code.size x.1 x.2 = none :=
      List.findSome?_eq_none_iff
    simp only [hf, Option.some.injEq, exists_eq_left']
    constructor
    · intro h
      split at h
      · simp at h
      next hnone =>
        split at h
        · simp at h
        next hstuck => exact ⟨⟨hstuck, hstray.1 hnone⟩, h⟩
    · rintro ⟨⟨hstuck, hjumps⟩, hlink⟩
      rw [hstray.2 hjumps]
      dsimp only
      rw [Code.sweep, hstuck]
      exact hlink

/-- The function is there, its code can be read to the end, and every jump in it leads to the start
    of an instruction or to the end of the code. -/
def Compilable (image : Image) (function : UInt16) : Prop :=
  ∃ f, image.function? function = some f ∧ f.code.sweep.stuck = none ∧
    ∀ pc branch offset, (pc, Instr.jump branch offset) ∈ f.code.sweep.instrs →
      ∃ place, Code.jumpTarget (pc + (Instr.jump branch offset).size) offset f.code.size
        = .ok place ∧ f.code.IsBoundary place

/-- The functions that can be compiled, whatever is spliced into them. -/
theorem exists_compile_eq_ok_iff (image : Image) (function : UInt16) (options : Options) :
    (∃ p, compile image function options = .ok p) ↔ Compilable image function := by
  constructor
  · rintro ⟨p, h⟩
    obtain ⟨f, hf, hreadable, hlink⟩ := compile_eq_ok_iff.1 h
    refine ⟨f, hf, hreadable.ends, ?_⟩
    intro pc branch offset hjump
    exact ⟨_, jumpTarget_of_strayJump? (hreadable.jumps _ hjump),
      exists_link_iff.1 ⟨p, hlink⟩ pc branch offset hjump⟩
  · rintro ⟨f, hf, hstuck, hjumps⟩
    have hreadable : Readable f.code 0 := by
      refine ⟨hstuck, ?_⟩
      rintro ⟨pc, i⟩ hx
      cases hi : i.jumpOffset? with
      | none => simp [strayJump?, hi]
      | some offset =>
        obtain ⟨branch, rfl⟩ := Instr.jumpOffset?_eq_some hi
        obtain ⟨place, hplace, -⟩ := hjumps pc branch offset hx
        simp [strayJump?, hi, hplace]
    obtain ⟨p, hp⟩ := exists_link_iff.2 fun pc branch offset hjump => by
      obtain ⟨place, hplace, hboundary⟩ := hjumps pc branch offset hjump
      have hresolved := jumpTarget_of_strayJump? (hreadable.jumps _ hjump)
      rw [hplace] at hresolved
      exact Except.ok.inj hresolved ▸ hboundary
    exact ⟨p, compile_eq_ok_iff.2 ⟨f, hf, hreadable, hp⟩⟩

end Linking

end Native

end StackMachine
