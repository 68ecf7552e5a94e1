import StackMachine.Proofs.Machine.Stepping
import StackMachine.Proofs.Native.Compilable

/-!
# What a function is compiled to

The operations of a compiled function stand in the order of its instructions, one for each of them,
except where a leaf takes the place of a call. A leaf moves everything behind it to higher indices,
so the index of an offset is the number of operations for all smaller offsets; a larger offset has a
larger index, and a jump goes back among the operations if and only if it goes back in the code.

* `Rendered`: what a single instruction is compiled to.
* `Rendering`: what a program consists of.
* `indexOf_lt`, `indexOf_mono`: indices increase with the offsets.
* `compile_exact`: which functions can be compiled, and what they are compiled to.
-/

namespace StackMachine

theorem Code.jumpPlace_of_jumpTarget {next length place : Nat} {offset : Int32}
    (h : jumpTarget next offset length = .ok place) : jumpPlace next offset = place := by
  simp only [jumpTarget] at h
  split_ifs at h with hout
  have hplace := Except.ok.inj h
  omega

namespace Native

/-! ## The parts of a program -/

/-- An instruction with its offset, and the operations it is compiled to. -/
structure Chunk where
  pc : Nat
  instr : Instr
  insts : List Inst

/-- The number of operations for the offsets below a place: the first operation of the place has
    this index. -/
def indexOf (chunks : List Chunk) (place : Nat) : Nat :=
  ((chunks.filter fun c => c.pc < place).flatMap Chunk.insts).length

/-- What the instruction at `pc` is compiled to, where `index` gives the index of a place. -/
inductive Rendered (image : Image) (options : Options) (function : UInt16) (length : Nat)
    (index : Nat → Nat) : Nat → Instr → List Inst → Prop
  | jump {pc branch offset place}
      (hplace : Code.jumpTarget (pc + (Instr.jump branch offset).size) offset length = .ok place) :
      Rendered image options function length index pc (.jump branch offset)
        [⟨.jump branch (index place), ⟨function, pc⟩⟩]
  | leaf {pc callee leaf} (hinline : options.inline = true) (hother : callee ≠ function)
      (hleaf : leaf? image callee options.maxLeafSize = some leaf) :
      Rendered image options function length index pc (.call callee)
        (⟨.enterLeaf callee, ⟨function, pc⟩⟩
          :: leaf.body.map (fun x => ⟨lower (x.1 + x.2.size) x.2, ⟨callee, x.1⟩⟩)
          ++ [⟨.exitLeaf, ⟨callee, leaf.retPc⟩⟩])
  | plain {pc i} (hjump : i.jumpOffset? = none)
      (hcall : ∀ callee, i = .call callee → options.inline = false ∨ callee = function ∨
        leaf? image callee options.maxLeafSize = none) :
      Rendered image options function length index pc i
        [⟨lower (pc + i.size) i, ⟨function, pc⟩⟩]

/-- The instruction is a call that gives way to the body of a leaf. -/
def splices (image : Image) (options : Options) (function : UInt16) : Instr → Bool
  | .call callee =>
    options.inline && callee != function && (leaf? image callee options.maxLeafSize).isSome
  | _ => false

/-- The operation comes from the instruction. -/
inductive Op.ComesFrom : Op → Instr → Prop
  | enterLeaf (callee) : ComesFrom (.enterLeaf callee) (.call callee)
  | exitLeaf : ComesFrom .exitLeaf .ret
  | jump (branch target offset) : ComesFrom (.jump branch target) (.jump branch offset)
  | plain {i} (next) (hjump : i.jumpOffset? = none) : ComesFrom (lower next i) i

/-- The program `p` is the function with the given code, compiled piece by piece. -/
structure Rendering (image : Image) (options : Options) (function : UInt16) (code : Code)
    (chunks : List Chunk) (p : Program) : Prop where
  named : p.function = function
  /-- There is a piece for each instruction, in the order of the code. -/
  swept : chunks.map (fun c => (c.pc, c.instr)) = code.sweep.instrs
  rendered : ∀ c ∈ chunks, Rendered image options function code.size (indexOf chunks) c.pc c.instr
    c.insts
  insts : p.insts.toList = chunks.flatMap Chunk.insts
  /-- The index of an instruction is that of its first operation. -/
  first : ∀ c ∈ chunks, ∃ op, p.insts[indexOf chunks c.pc]? = some ⟨op, ⟨function, c.pc⟩⟩
  /-- Of the places a jump can lead to, only the end of the code has the index behind the last
      operation. -/
  last : ∀ place, code.IsBoundary place →
    (indexOf chunks place = p.insts.size ↔ place = code.size)
  /-- Every operation knows its instruction. -/
  origin : ∀ inst ∈ p.insts, ∃ i, image.instr? inst.location = some i ∧ inst.op.ComesFrom i
  inlinedCalls : p.inlinedCalls =
    code.sweep.instrs.countP fun x => splices image options function x.2
  hasLoops : p.hasLoops = true ↔ ∃ pc branch offset,
    (pc, Instr.jump branch offset) ∈ code.sweep.instrs ∧
      Code.jumpPlace (pc + (Instr.jump branch offset).size) offset ≤ pc

/-! ## Indices -/

section Indices

variable {chunks : List Chunk}

theorem indexOf_mono {place place' : Nat} (h : place ≤ place') :
    indexOf chunks place ≤ indexOf chunks place' := by
  have hsub : (chunks.filter fun c => c.pc < place).Sublist
      (chunks.filter fun c => c.pc < place') := by
    apply List.monotone_filter_right
    intro c hc
    simp only [decide_eq_true_eq] at hc ⊢
    omega
  exact (hsub.flatMap Chunk.insts).length_le

theorem indexOf_of_forall_lt {place : Nat} (h : ∀ c ∈ chunks, c.pc < place) :
    indexOf chunks place = (chunks.flatMap Chunk.insts).length := by
  rw [indexOf, List.filter_eq_self.2 fun c hc => decide_eq_true (h c hc)]

/-- The operations of a piece start at its index. -/
theorem indexOf_append {before after : List Chunk} {c : Chunk}
    (hsorted : (before ++ c :: after).Pairwise fun c d => c.pc < d.pc) :
    indexOf (before ++ c :: after) c.pc = (before.flatMap Chunk.insts).length := by
  obtain ⟨-, hafter, hbefore⟩ := List.pairwise_append.1 hsorted
  have hkept : before.filter (fun d => d.pc < c.pc) = before := by
    rw [List.filter_eq_self]
    intro d hd
    simpa using hbefore d hd c List.mem_cons_self
  have hgone : (c :: after).filter (fun d => d.pc < c.pc) = [] := by
    rw [List.filter_eq_nil_iff]
    intro d hd
    rcases List.mem_cons.1 hd with rfl | hd
    · simp
    · have := (List.pairwise_cons.1 hafter).1 d hd
      simp
      omega
  rw [indexOf, List.filter_append, hkept, hgone, List.append_nil]

theorem getElem?_flatMap_indexOf {c : Chunk} (hsorted : chunks.Pairwise fun c d => c.pc < d.pc)
    (hc : c ∈ chunks) {j : Nat} (hj : j < c.insts.length) :
    (chunks.flatMap Chunk.insts)[indexOf chunks c.pc + j]? = c.insts[j]? := by
  obtain ⟨before, after, rfl⟩ := List.append_of_mem hc
  rw [indexOf_append hsorted, List.flatMap_append, List.flatMap_cons,
    List.getElem?_append_right (by omega), Nat.add_sub_cancel_left, List.getElem?_append_left hj]

/-- A larger offset has a larger index, as every piece has an operation. -/
theorem indexOf_lt {c : Chunk} {place : Nat} (hc : c ∈ chunks) (hne : c.insts ≠ [])
    (h : c.pc < place) (hsorted : chunks.Pairwise fun c d => c.pc < d.pc) :
    indexOf chunks c.pc < indexOf chunks place := by
  obtain ⟨before, after, rfl⟩ := List.append_of_mem hc
  obtain ⟨-, -, hbefore⟩ := List.pairwise_append.1 hsorted
  have hkept : before.filter (fun d => d.pc < place) = before := by
    rw [List.filter_eq_self]
    intro d hd
    have := hbefore d hd c List.mem_cons_self
    simp
    omega
  have hpos : 0 < c.insts.length := List.length_pos_iff.2 hne
  rw [indexOf_append hsorted, indexOf, List.filter_append, hkept, List.filter_cons,
    if_pos (by simpa using h), List.flatMap_append, List.flatMap_cons, List.length_append,
    List.length_append]
  omega

/-- Every operation belongs to a piece. -/
theorem exists_of_getElem?_flatMap {k : Nat} {inst : Inst}
    (hsorted : chunks.Pairwise fun c d => c.pc < d.pc)
    (h : (chunks.flatMap Chunk.insts)[k]? = some inst) :
    ∃ c ∈ chunks, ∃ j, k = indexOf chunks c.pc + j ∧ c.insts[j]? = some inst := by
  have hsplit : ∀ {before after : List Chunk}, chunks = before ++ after →
      (after.flatMap Chunk.insts)[k - (before.flatMap Chunk.insts).length]? = some inst →
      (before.flatMap Chunk.insts).length ≤ k →
      ∃ c ∈ chunks, ∃ j, k = indexOf chunks c.pc + j ∧ c.insts[j]? = some inst := by
    intro before after
    induction after generalizing before with
    | nil => simp
    | cons c after ih =>
      intro hchunks hget hle
      rw [List.flatMap_cons] at hget
      by_cases hlt : k - (before.flatMap Chunk.insts).length < c.insts.length
      · rw [List.getElem?_append_left hlt] at hget
        subst hchunks
        refine ⟨c, by simp, k - (before.flatMap Chunk.insts).length, ?_, hget⟩
        rw [indexOf_append hsorted]
        omega
      · have hlength : ((before ++ [c]).flatMap Chunk.insts).length =
            (before.flatMap Chunk.insts).length + c.insts.length := by simp
        rw [List.getElem?_append_right (by omega)] at hget
        refine @ih (before ++ [c]) (by simp [hchunks]) ?_ (by omega)
        rw [hlength, ← Nat.sub_sub]
        exact hget
  exact @hsplit [] chunks rfl (by simpa using h) (by simp)

end Indices

/-! ## Resolved jumps -/

/-- An operation after relocation. -/
def Inst.relocated (table : List (Nat × Nat)) (inst : Inst) : Inst :=
  match inst.op with
  | .jump branch place => ⟨.jump branch ((table.lookup place).getD 0), inst.location⟩
  | _ => inst

theorem relocated_of_relocate {table : List (Nat × Nat)} {inst v : Inst}
    (h : relocate table inst = .ok v) : v = inst.relocated table := by
  obtain ⟨op, location⟩ := inst
  cases op with
  | jump branch place =>
    obtain ⟨target, htarget, rfl⟩ := relocate_jump h
    simp [Inst.relocated, htarget]
  | _ => exact (Except.ok.inj h).symm

theorem relocated_of_not_jump {table : List (Nat × Nat)} {inst : Inst}
    (h : ∀ branch target, inst.op ≠ .jump branch target) : inst.relocated table = inst :=
  (relocated_of_relocate (relocate_of_not_jump h)).symm

theorem eq_map_of_follows {table : List (Nat × Nat)} {us vs : List Inst}
    (h : Follows table us vs) : vs = us.map (Inst.relocated table) := by
  induction h with
  | nil => rfl
  | cons hv hvs ih => rw [List.map_cons, ← ih, relocated_of_relocate hv]

section Linking

variable (image : Image) (options : Options) (function : UInt16) (code : Code)

/-- The pieces of a compiled function. -/
def pieces : List Chunk :=
  code.sweep.instrs.map fun x =>
    ⟨x.1, x.2, (emit image options function x.1 x.2).map
      (Inst.relocated (places image options function code))⟩

theorem map_pieces :
    (pieces image options function code).map (fun c => (c.pc, c.instr)) = code.sweep.instrs := by
  rw [pieces, List.map_map]
  exact List.map_id _

theorem flatMap_pieces :
    (pieces image options function code).flatMap Chunk.insts =
      ((emitted image options function code).flatMap Prod.snd).map
        (Inst.relocated (places image options function code)) := by
  simp [pieces, emitted, List.flatMap_map, List.map_flatMap]

/-- Resolving the jumps does not move an operation. -/
theorem indexOf_pieces (place : Nat) :
    indexOf (pieces image options function code) place =
      (((emitted image options function code).filter fun c => c.1 < place).flatMap
        Prod.snd).length := by
  simp [indexOf, pieces, emitted, List.filter_map, List.flatMap_map, List.length_flatMap,
    Function.comp_def]

variable {image options function code}

theorem pairwise_pieces :
    (pieces image options function code).Pairwise fun c d => c.pc < d.pc :=
  List.pairwise_map.2 (code.pairwise_sweepFrom 0)

theorem decode_of_mem_pieces {c : Chunk} (hc : c ∈ pieces image options function code) :
    c.pc < code.size ∧ code.decode c.pc = .ok c.instr := by
  obtain ⟨x, hx, rfl⟩ := List.mem_map.1 hc
  exact (Code.of_mem_sweepFrom hx).2

theorem emit_of_spliced?_none {pc : Nat} {i : Instr}
    (h : spliced? image options function i = none) :
    emit image options function pc i = [⟨lower (pc + i.size) i, ⟨function, pc⟩⟩] := by
  rw [emit, h]

/-- What is emitted for an instruction other than a jump is its rendering. -/
theorem rendered_emit {pc : Nat} {i : Instr} (hi : i.jumpOffset? = none) (length : Nat)
    (index : Nat → Nat) :
    Rendered image options function length index pc i (emit image options function pc i) := by
  cases hs : spliced? image options function i with
  | some x =>
    obtain ⟨callee, leaf⟩ := x
    rw [emit, hs]
    obtain ⟨rfl, hinline, hother, hleaf⟩ := call_of_spliced? hs
    exact .leaf hinline hother hleaf
  | none =>
    rw [emit_of_spliced?_none hs]
    refine .plain hi ?_
    rintro callee rfl
    by_cases hcond : options.inline = true ∧ callee ≠ function
    · have hnone : leaf? image callee options.maxLeafSize = none := by
        simpa [spliced?, hcond] using hs
      exact .inr (.inr hnone)
    · rcases Decidable.not_and_iff_or_not.1 hcond with hinline | hsame
      · exact .inl (Bool.eq_false_iff.2 hinline)
      · exact .inr (.inl (not_not.1 hsame))

theorem rendered_of_mem_pieces (hreadable : Readable code 0) {p : Program}
    (hlink : link function code.size (emitted image options function code) = .ok p) {c : Chunk}
    (hc : c ∈ pieces image options function code) :
    Rendered image options function code.size (indexOf (pieces image options function code))
      c.pc c.instr c.insts := by
  obtain ⟨⟨pc, i⟩, hx, rfl⟩ := List.mem_map.1 hc
  cases hi : i.jumpOffset? with
  | none =>
    have hsame : (emit image options function pc i).map
        (Inst.relocated (places image options function code)) =
        emit image options function pc i := by
      refine (List.map_congr_left fun inst hinst => ?_).trans (List.map_id _)
      exact relocated_of_not_jump (ne_jump_of_mem_emit hi hinst)
    dsimp only
    rw [hsame]
    exact rendered_emit hi _ _
  | some offset =>
    obtain ⟨branch, rfl⟩ := Instr.jumpOffset?_eq_some hi
    have hplace := jumpTarget_of_strayJump? (hreadable.jumps _ hx)
    have hfound : (places image options function code).lookup
        (Code.jumpPlace (pc + (Instr.jump branch offset).size) offset).toNat =
        some (indexOf (pieces image options function code)
          (Code.jumpPlace (pc + (Instr.jump branch offset).size) offset).toNat) :=
      lookup_places_eq_some_iff.2
        ⟨exists_link_iff.1 ⟨p, hlink⟩ pc branch offset hx, indexOf_pieces ..⟩
    have hinsts : (emit image options function pc (.jump branch offset)).map
        (Inst.relocated (places image options function code)) =
        [⟨.jump branch (indexOf (pieces image options function code)
          (Code.jumpPlace (pc + (Instr.jump branch offset).size) offset).toNat),
          ⟨function, pc⟩⟩] := by
      rw [emit_of_spliced?_none rfl]
      simp [Inst.relocated, lower, hfound]
    dsimp only
    rw [hinsts]
    exact .jump hplace

end Linking

/-! ## What follows from the parts -/

namespace Rendered

variable {image : Image} {options : Options} {function : UInt16} {length pc : Nat}
  {index : Nat → Nat} {i : Instr} {insts : List Inst}

/-- The first operation carries the place of the instruction. -/
theorem head (h : Rendered image options function length index pc i insts) :
    ∃ op, insts[0]? = some ⟨op, ⟨function, pc⟩⟩ := by
  cases h <;> exact ⟨_, rfl⟩

theorem ne_nil (h : Rendered image options function length index pc i insts) : insts ≠ [] := by
  cases h <;> simp

/-- The only jump is the one that a jump is compiled to. -/
theorem of_jump (h : Rendered image options function length index pc i insts) {j : Nat}
    {branch : Branch} {target : Nat} {location : Location}
    (hj : insts[j]? = some ⟨.jump branch target, location⟩) :
    j = 0 ∧ ∃ offset place, i = .jump branch offset ∧
      Code.jumpTarget (pc + i.size) offset length = .ok place ∧ target = index place := by
  have hmem := List.mem_of_getElem? hj
  cases h with
  | jump hplace =>
    obtain ⟨rfl, rfl⟩ := Op.jump.inj (Inst.mk.inj (List.mem_singleton.1 hmem)).1
    have hlt := (List.getElem?_eq_some_iff.1 hj).1
    exact ⟨by simpa using hlt, _, _, rfl, hplace, rfl⟩
  | leaf hinline hother hleaf =>
    exact absurd rfl (ne_jump_of_mem_splice hleaf hmem branch target)
  | plain hjump hcall =>
    have hop := (Inst.mk.inj (List.mem_singleton.1 hmem)).1
    exact absurd hop.symm (lower_ne_jump hjump _ branch target)

/-- A leaf is entered in place of a call only. -/
theorem countP_entersLeaf (h : Rendered image options function length index pc i insts) :
    insts.countP Inst.entersLeaf = if splices image options function i then 1 else 0 := by
  have hlower : ∀ (k : Nat) (i : Instr) (l : Location),
      (⟨lower k i, l⟩ : Inst).entersLeaf = false := by
    intro k i l
    cases i <;> rfl
  cases h with
  | jump hplace => rfl
  | @leaf callee leaf hinline hother hleaf =>
    have hsplices : splices image options function (.call callee) = true := by
      simp [splices, hinline, hother, hleaf]
    have hbody : (leaf.body.map fun x =>
        (⟨lower (x.1 + x.2.size) x.2, ⟨callee, x.1⟩⟩ : Inst)).countP Inst.entersLeaf = 0 := by
      rw [List.countP_eq_zero]
      intro inst hinst
      obtain ⟨x, -, rfl⟩ := List.mem_map.1 hinst
      simp [hlower]
    rw [hsplices, List.countP_append, List.countP_cons, hbody]
    rfl
  | plain hjump hcall =>
    have hsplices : splices image options function i = false := by
      cases i with
      | call callee =>
        rcases hcall callee rfl with h | h | h <;> simp [splices, h]
      | _ => rfl
    simp [hsplices, hlower]

/-- Every operation comes from the instruction at its place. -/
theorem origin {f : Image.Function} (hf : image.function? function = some f)
    (hpc : pc < f.code.size) (hi : f.code.decode pc = .ok i)
    (h : Rendered image options function length index pc i insts) {inst : Inst}
    (hinst : inst ∈ insts) : ∃ i, image.instr? inst.location = some i ∧ inst.op.ComesFrom i := by
  have hown := Image.instr?_of_decode hf hpc hi
  cases h with
  | jump hplace =>
    obtain rfl := List.mem_singleton.1 hinst
    exact ⟨_, hown, .jump ..⟩
  | leaf hinline hother hleaf =>
    obtain ⟨g, hg, hbody, hret, hdecode⟩ := of_leaf? hleaf
    rcases mem_splice.1 hinst with rfl | ⟨x, hx, rfl⟩ | rfl
    · exact ⟨_, hown, .enterLeaf _⟩
    · obtain ⟨hstraight, hlt, hx⟩ := hbody x hx
      exact ⟨_, Image.instr?_of_decode hg hlt hx,
        .plain _ (Instr.jumpOffset?_of_isStraight hstraight)⟩
    · exact ⟨_, Image.instr?_of_decode hg hret hdecode, .exitLeaf⟩
  | plain hjump hcall =>
    obtain rfl := List.mem_singleton.1 hinst
    exact ⟨_, hown, .plain _ hjump⟩

end Rendered

section Pieces

variable {image : Image} {options : Options} {function : UInt16} {length : Nat}
  {chunks : List Chunk} (hsorted : chunks.Pairwise fun c d => c.pc < d.pc)
  (hrendered : ∀ c ∈ chunks,
    Rendered image options function length (indexOf chunks) c.pc c.instr c.insts)

include hsorted hrendered

theorem getElem?_indexOf {c : Chunk} (hc : c ∈ chunks) :
    (chunks.flatMap Chunk.insts)[indexOf chunks c.pc]? = c.insts[0]? :=
  getElem?_flatMap_indexOf hsorted hc (List.length_pos_iff.2 (hrendered c hc).ne_nil)

/-- The operations jump back where the code does. -/
theorem any_jumpsBack_iff :
    ((chunks.flatMap Chunk.insts).zipIdx.any fun x => jumpsBack x.1 x.2) = true ↔
      ∃ c ∈ chunks, ∃ branch offset, c.instr = .jump branch offset ∧
        Code.jumpPlace (c.pc + (Instr.jump branch offset).size) offset ≤ c.pc := by
  rw [List.any_eq_true]
  constructor
  · rintro ⟨⟨⟨op, location⟩, ip⟩, hmem, hback⟩
    rw [List.mem_zipIdx_iff_getElem?] at hmem
    cases op with
    | jump branch target =>
      have htarget : target ≤ ip := by simpa [jumpsBack] using hback
      obtain ⟨c, hc, j, rfl, hj⟩ := exists_of_getElem?_flatMap hsorted hmem
      obtain ⟨rfl, offset, place, hinstr, hplace, rfl⟩ := (hrendered c hc).of_jump hj
      refine ⟨c, hc, branch, offset, hinstr, ?_⟩
      rw [hinstr] at hplace
      rw [Code.jumpPlace_of_jumpTarget hplace]
      by_contra hlt
      have hlonger : c.pc < place := by omega
      have := indexOf_lt hc (hrendered c hc).ne_nil hlonger hsorted
      omega
    | _ => simp [jumpsBack] at hback
  · rintro ⟨c, hc, branch, offset, hinstr, hback⟩
    have hget := getElem?_indexOf hsorted hrendered hc
    have hc' := hrendered c hc
    rw [hinstr] at hc'
    generalize hinsts : c.insts = insts at hc'
    cases hc' with
    | @jump _ _ place hplace =>
      rw [Code.jumpPlace_of_jumpTarget hplace] at hback
      refine ⟨(⟨.jump branch (indexOf chunks place), ⟨function, c.pc⟩⟩, indexOf chunks c.pc),
        ?_, ?_⟩
      · rw [List.mem_zipIdx_iff_getElem?, hget, hinsts]
        rfl
      · have hle : indexOf chunks place ≤ indexOf chunks c.pc := indexOf_mono (by omega)
        simpa [jumpsBack] using hle
    | plain hjump hcall => cases hjump

omit hsorted in
theorem countP_entersLeaf_flatMap :
    (chunks.flatMap Chunk.insts).countP Inst.entersLeaf =
      chunks.countP fun c => splices image options function c.instr := by
  generalize indexOf chunks = index at hrendered
  induction chunks with
  | nil => rfl
  | cons c chunks ih =>
    rw [List.flatMap_cons, List.countP_append, List.countP_cons,
      (hrendered c List.mem_cons_self).countP_entersLeaf,
      ih fun d hd => hrendered d (List.mem_cons_of_mem _ hd), Nat.add_comm]

end Pieces

section Compilation

variable {image : Image} {options : Options} {function : UInt16} {f : Image.Function} {p : Program}

/-- Linking puts the pieces together. -/
theorem eq_of_link
    (h : link function f.code.size (emitted image options function f.code) = .ok p) :
    p = ⟨function, ((pieces image options function f.code).flatMap Chunk.insts).toArray,
      ((pieces image options function f.code).flatMap Chunk.insts).zipIdx.any fun x =>
        jumpsBack x.1 x.2,
      ((pieces image options function f.code).flatMap Chunk.insts).countP Inst.entersLeaf⟩ := by
  simp only [link] at h
  split at h
  · simp at h
  next insts hinsts =>
    obtain rfl : insts = (pieces image options function f.code).flatMap Chunk.insts := by
      rw [flatMap_pieces]
      exact eq_map_of_follows (follows_of_mapM hinsts)
    exact (Except.ok.inj h).symm

/-- A linked program is the function compiled piece by piece. -/
theorem rendering_of_link (hf : image.function? function = some f) (hreadable : Readable f.code 0)
    (h : link function f.code.size (emitted image options function f.code) = .ok p) :
    Rendering image options function f.code (pieces image options function f.code) p := by
  have hrendered : ∀ c ∈ pieces image options function f.code, Rendered image options function
      f.code.size (indexOf (pieces image options function f.code)) c.pc c.instr c.insts :=
    fun c hc => rendered_of_mem_pieces hreadable h hc
  have hsorted := @pairwise_pieces image options function f.code
  obtain rfl := eq_of_link h
  refine ⟨rfl, map_pieces .., hrendered, rfl, ?_, ?_, ?_, ?_, ?_⟩
  · intro c hc
    obtain ⟨op, hop⟩ := (hrendered c hc).head
    refine ⟨op, ?_⟩
    rw [List.getElem?_toArray, getElem?_indexOf hsorted hrendered hc, hop]
  · intro place hplace
    rw [List.size_toArray, ← indexOf_of_forall_lt fun c hc => (decode_of_mem_pieces hc).1]
    rcases hplace with ⟨i, hi⟩ | rfl
    · -- there are operations for the instruction at this place
      rw [← map_pieces image options function] at hi
      obtain ⟨c, hc, heq⟩ := List.mem_map.1 hi
      obtain ⟨rfl, rfl⟩ := Prod.mk.inj heq
      have hbelow := (decode_of_mem_pieces hc).1
      have := indexOf_lt hc (hrendered c hc).ne_nil hbelow hsorted
      omega
    · simp
  · intro inst hinst
    obtain ⟨c, hc, hmem⟩ := List.mem_flatMap.1 (List.mem_toArray.1 hinst)
    obtain ⟨hpc, hdecode⟩ := decode_of_mem_pieces hc
    exact (hrendered c hc).origin hf hpc hdecode hmem
  · rw [countP_entersLeaf_flatMap hrendered, ← map_pieces image options function, List.countP_map]
    rfl
  · rw [any_jumpsBack_iff hsorted hrendered, ← map_pieces image options function]
    simp only [List.mem_map, Prod.mk.injEq]
    constructor
    · rintro ⟨c, hc, branch, offset, hinstr, hback⟩
      exact ⟨c.pc, branch, offset, ⟨c, hc, rfl, hinstr⟩, hback⟩
    · rintro ⟨pc, branch, offset, ⟨c, hc, rfl, hinstr⟩, hback⟩
      exact ⟨c, hc, branch, offset, hinstr, hback⟩

/-- Exactly the functions whose code can be read, and whose jumps lead to instructions or to the
    end, can be compiled; each of them is compiled piece by piece. -/
theorem compile_exact (image : Image) (function : UInt16) (options : Options) :
    ((∃ p, compile image function options = .ok p) ↔ Compilable image function) ∧
    ∀ p, compile image function options = .ok p →
      ∃ f chunks, image.function? function = some f ∧
        Rendering image options function f.code chunks p := by
  refine ⟨exists_compile_eq_ok_iff image function options, ?_⟩
  intro p h
  obtain ⟨f, hf, hreadable, hlink⟩ := compile_eq_ok_iff.1 h
  exact ⟨f, _, hf, rendering_of_link hf hreadable hlink⟩

/-- A loop around two calls, of which the first is to a leaf and the second is not, with a jump over
    the leaf, an operator, a jump back, one to the end, and a return. -/
def loopAroundLeaf : Image where
  version := 1
  globals := 0
  entry := 0
  functions :=
    #[⟨0, 0, 0, Code.ofInstrs [.jump .ifNotZero 3, .call 1, .binary .add, .call 2,
        .jump .always (-17), .jump .ifZero 1, .ret]⟩,
      ⟨1, 0, 0, Code.ofInstrs [.pushInt 7, .ret]⟩,
      ⟨2, 1, 1, Code.ofInstrs [.loadLocal 0, .ret]⟩]

/-- What it is compiled to: the leaf moves the operations behind it. -/
def loopAroundLeafProgram : Program :=
  ⟨0, #[⟨.jump .ifNotZero 4, ⟨0, 0⟩⟩, ⟨.enterLeaf 1, ⟨0, 5⟩⟩, ⟨.push (.ofInt 7), ⟨1, 0⟩⟩,
    ⟨.exitLeaf, ⟨1, 9⟩⟩, ⟨.binary .add, ⟨0, 8⟩⟩, ⟨.call 2, ⟨0, 9⟩⟩, ⟨.jump .always 0, ⟨0, 12⟩⟩,
    ⟨.jump .ifZero 9, ⟨0, 17⟩⟩, ⟨.ret, ⟨0, 22⟩⟩], true, 1⟩

theorem compile_exact_loopAroundLeaf :
    compile loopAroundLeaf 0 {} = .ok loopAroundLeafProgram ∧
      ∃ f chunks, loopAroundLeaf.function? 0 = some f ∧
        Rendering loopAroundLeaf {} 0 f.code chunks loopAroundLeafProgram := by
  have hcompiled : compile loopAroundLeaf 0 {} = .ok loopAroundLeafProgram := by decide +kernel
  exact ⟨hcompiled, (compile_exact loopAroundLeaf 0 {}).2 _ hcompiled⟩

end Compilation

end Native

end StackMachine
