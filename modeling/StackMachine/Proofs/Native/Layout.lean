import Mathlib
import StackMachine.Native.Program

/-!
# Where compiled operations come from

A compiled program is the sequence of the operations that its instructions emit, with the jumps
resolved. `unlinkedFrom` is that sequence from a byte offset on, before jumps are resolved, and
`Linked` says how a program goes back to it: the operations from index zero on are those of
offset zero, and the operations from the target of a jump on are those of the offset that the
jump names.

* `compile_linked`: every program that compilation gives is linked in this sense.
-/

namespace StackMachine

/-! ## Readable code -/

namespace Code

theorem sweepFrom_of_size_le {code : Code} {pc : Nat} (h : code.size ≤ pc) :
    code.sweepFrom pc = ⟨[], none⟩ := by
  rw [sweepFrom, if_pos h]

theorem sweepFrom_of_decode {code : Code} {pc : Nat} {i : Instr} (h : pc < code.size)
    (hi : code.decode pc = .ok i) :
    code.sweepFrom pc =
      ⟨(pc, i) :: (code.sweepFrom (pc + i.size)).instrs, (code.sweepFrom (pc + i.size)).stuck⟩ := by
  rw [sweepFrom, if_neg (by omega), hi]

end Code

namespace Native

/-- From an offset on all of the code can be read, and no jump leaves it. -/
structure Readable (code : Code) (pc : Nat) : Prop where
  ends : (code.sweepFrom pc).stuck = none
  jumps : ∀ x ∈ (code.sweepFrom pc).instrs, strayJump? code.size x.1 x.2 = none

theorem readable_of_size_le {code : Code} {pc : Nat} (h : code.size ≤ pc) : Readable code pc := by
  constructor <;> simp [Code.sweepFrom_of_size_le h]

theorem Readable.decode {code : Code} {pc : Nat} (h : Readable code pc) (hpc : pc < code.size) :
    ∃ i, code.decode pc = .ok i ∧ strayJump? code.size pc i = none ∧
      Readable code (pc + i.size) := by
  cases hi : code.decode pc with
  | error fault =>
    have hs := h.ends
    rw [Code.sweepFrom, if_neg (by omega), hi] at hs
    simp at hs
  | ok i =>
    have he := h.ends
    have hj := h.jumps
    rw [Code.sweepFrom_of_decode hpc hi] at he hj
    exact ⟨i, rfl, hj (pc, i) (by simp), he, fun x hx => hj x (List.mem_cons_of_mem _ hx)⟩

/-- A jump that does not leave the code has a target. -/
theorem jumpTarget_of_strayJump? {code : Code} {pc : Nat} {branch : Branch} {offset : Int32}
    (h : strayJump? code.size pc (.jump branch offset) = none) :
    Code.jumpTarget (pc + (Instr.jump branch offset).size) offset code.size =
      .ok (Code.jumpPlace (pc + (Instr.jump branch offset).size) offset).toNat := by
  simp only [strayJump?, Instr.jumpOffset?] at h
  split at h
  · rename_i target ht
    rw [ht]
    unfold Code.jumpTarget at ht
    simp only at ht
    split_ifs at ht
    exact ht.symm
  · simp at h

/-! ## Emitted operations -/

section Emitted

variable (image : Image) (options : Options) (function : UInt16) (code : Code)

/-- The operations of the instructions from an offset on. Jumps still name byte offsets. -/
def unlinkedFrom (pc : Nat) : List Inst :=
  (code.sweepFrom pc).instrs.flatMap fun x => emit image options function x.1 x.2

variable {code}

theorem unlinkedFrom_of_size_le {pc : Nat} (h : code.size ≤ pc) :
    unlinkedFrom image options function code pc = [] := by
  simp [unlinkedFrom, Code.sweepFrom_of_size_le h]

theorem unlinkedFrom_of_decode {pc : Nat} {i : Instr} (h : pc < code.size)
    (hi : code.decode pc = .ok i) :
    unlinkedFrom image options function code pc =
      emit image options function pc i ++
        unlinkedFrom image options function code (pc + i.size) := by
  simp [unlinkedFrom, Code.sweepFrom_of_decode h hi]

end Emitted

/-! ## Resolved jumps -/

/-- The operations `vs` are the operations `us` with the jumps resolved. -/
def Follows (starts : List (Nat × Nat)) (us vs : List Inst) : Prop :=
  List.Forall₂ (fun u v => relocate starts u = .ok v) us vs

theorem relocate_of_not_jump {starts : List (Nat × Nat)} {inst : Inst}
    (h : ∀ branch target, inst.op ≠ .jump branch target) : relocate starts inst = .ok inst := by
  unfold relocate
  split
  · rename_i branch place hop
    exact absurd hop (h branch place)
  · rfl

theorem relocate_jump {starts : List (Nat × Nat)} {branch : Branch} {place : Nat}
    {location : Location} {inst : Inst}
    (h : relocate starts ⟨.jump branch place, location⟩ = .ok inst) :
    ∃ target, starts.lookup place = some target ∧ inst = ⟨.jump branch target, location⟩ := by
  simp only [relocate] at h
  split at h
  · rename_i target ht
    exact ⟨target, ht, (Except.ok.inj h).symm⟩
  · simp at h

theorem follows_of_mapM {starts : List (Nat × Nat)} {us vs : List Inst}
    (h : us.mapM (relocate starts) = .ok vs) : Follows starts us vs := by
  induction us generalizing vs with
  | nil =>
    simp only [List.mapM_nil] at h
    cases h
    exact .nil
  | cons u us ih =>
    rw [List.mapM_cons] at h
    cases hu : relocate starts u with
    | error e => rw [hu] at h; cases h
    | ok v =>
      rw [hu] at h
      cases hus : us.mapM (relocate starts) with
      | error e => rw [hus] at h; cases h
      | ok vs' =>
        rw [hus] at h
        cases h
        exact .cons hu (ih hus)

theorem Follows.drop {starts : List (Nat × Nat)} {us vs : List Inst} (h : Follows starts us vs)
    (n : Nat) : Follows starts (us.drop n) (vs.drop n) :=
  List.forall₂_drop n h

theorem Follows.getElem?_nil {starts : List (Nat × Nat)} {insts : Array Inst} {ip : Nat}
    (h : Follows starts [] (insts.toList.drop ip)) : insts[ip]? = none := by
  cases hd : insts.toList.drop ip with
  | nil => simpa using hd
  | cons v vs => rw [hd] at h; cases h

/-- The operation at the head of a sequence, and what comes behind it. -/
theorem Follows.getElem?_cons {starts : List (Nat × Nat)} {u : Inst} {us : List Inst}
    {insts : Array Inst} {ip : Nat} (h : Follows starts (u :: us) (insts.toList.drop ip)) :
    ∃ v, insts[ip]? = some v ∧ relocate starts u = .ok v ∧
      Follows starts us (insts.toList.drop (ip + 1)) := by
  cases hd : insts.toList.drop ip with
  | nil => rw [hd] at h; cases h
  | cons v vs =>
    rw [hd] at h
    obtain ⟨hv, hvs⟩ := List.forall₂_cons.1 h
    have hget : insts.toList[ip]? = some v := by
      rw [← List.head?_drop, hd, List.head?_cons]
    have htail : insts.toList.drop (ip + 1) = vs := by
      rw [← List.tail_drop, hd, List.tail_cons]
    exact ⟨v, by simpa using hget, hv, htail ▸ hvs⟩

/-- What the table of starts says of the code from `pc` on, when it begins at index `index`:
    the operations of an offset in it begin where the table puts them. -/
theorem lookup_starts (image : Image) (options : Options) (function : UInt16) (code : Code)
    (pc index place target : Nat) (hpc : Readable code pc)
    (h : (starts index ((code.sweepFrom pc).instrs.map fun x =>
          (x.1, emit image options function x.1 x.2)) ++
        [(code.size, index + (unlinkedFrom image options function code pc).length)]).lookup place
      = some target) :
    Readable code place ∧ index ≤ target ∧
      (unlinkedFrom image options function code pc).drop (target - index) =
        unlinkedFrom image options function code place := by
  by_cases hend : code.size ≤ pc
  · simp only [Code.sweepFrom_of_size_le hend, List.map_nil, starts, List.nil_append,
      List.lookup_cons, List.lookup_nil, unlinkedFrom_of_size_le _ _ _ hend] at h
    split at h
    · rename_i hp
      cases h
      have hp : place = code.size := by simpa using hp
      subst hp
      refine ⟨readable_of_size_le le_rfl, by simp, ?_⟩
      rw [unlinkedFrom_of_size_le _ _ _ hend, unlinkedFrom_of_size_le _ _ _ le_rfl]
      simp
    · simp at h
  · obtain ⟨i, hi, -, hnext⟩ := hpc.decode (by omega)
    have hsize := i.size_pos
    rw [Code.sweepFrom_of_decode (by omega) hi,
      unlinkedFrom_of_decode _ _ _ (by omega) hi] at h
    simp only [List.map_cons, starts, List.cons_append, List.lookup_cons] at h
    split at h
    · rename_i hp
      cases h
      have hp : place = pc := by simpa using hp
      subst hp
      exact ⟨hpc, le_rfl, by simp⟩
    · -- the entry is one of the instructions behind the first
      rw [List.length_append, ← Nat.add_assoc] at h
      obtain ⟨h1, h2, h3⟩ := lookup_starts image options function code (pc + i.size) _ place target
        hnext h
      refine ⟨h1, by omega, ?_⟩
      rw [unlinkedFrom_of_decode _ _ _ (by omega) hi, List.drop_append,
        List.drop_of_length_le (by omega), List.nil_append, ← h3]
      congr 1
      omega
termination_by code.size - pc
decreasing_by omega

/-! ## Compiled programs -/

/-- How a program goes back to code: the operations from the start on are those of the code, and
    so are the operations from the target of a jump on. -/
structure Linked (image : Image) (options : Options) (code : Code) (starts : List (Nat × Nat))
    (p : Program) : Prop where
  source : ∃ f, image.function? p.function = some f ∧ f.code = code
  readable : Readable code 0
  follows : Follows starts (unlinkedFrom image options p.function code 0) p.insts.toList
  target : ∀ place target, starts.lookup place = some target →
    Readable code place ∧
      Follows starts (unlinkedFrom image options p.function code place)
        (p.insts.toList.drop target)
  forward : p.hasLoops = false → ∀ ip inst, p.insts[ip]? = some inst → jumpsBack inst ip = false

theorem link_linked {image : Image} {options : Options} {function : UInt16} {f : Image.Function}
    {p : Program} (hf : image.function? function = some f) (hr : Readable f.code 0)
    (h : link function f.code.size
      (f.code.sweep.instrs.map fun x => (x.1, emit image options function x.1 x.2)) = .ok p) :
    p.function = function ∧ ∃ starts, Linked image options f.code starts p := by
  have hu : (f.code.sweep.instrs.map fun x => (x.1, emit image options function x.1 x.2)).flatMap
      Prod.snd = unlinkedFrom image options function f.code 0 := by
    rw [unlinkedFrom, Code.sweep, List.flatMap_map]
  simp only [link, hu] at h
  split at h
  · simp at h
  · rename_i insts hm
    cases h
    have hfollows := follows_of_mapM hm
    refine ⟨rfl, _, ⟨f, hf, rfl⟩, hr, by simpa using hfollows, ?_, ?_⟩
    · intro place target ht
      obtain ⟨h1, -, h3⟩ := lookup_starts image options function f.code 0 0 place target hr
        (by simpa [Code.sweep] using ht)
      refine ⟨h1, ?_⟩
      rw [← h3]
      simpa using hfollows.drop target
    · intro hloops ip inst hip
      simp only [List.any_eq_false] at hloops
      have := hloops (inst, ip) (by
        rw [List.mem_zipIdx_iff_getElem?]
        simpa using hip)
      simpa using this

/-- Compilation gives linked programs. -/
theorem compile_linked {image : Image} {function : UInt16} {options : Options} {p : Program}
    (h : compile image function options = .ok p) :
    p.function = function ∧ ∃ code starts, Linked image options code starts p := by
  unfold compile at h
  split at h
  · simp at h
  · rename_i f hf
    simp only at h
    split at h
    · simp at h
    · rename_i hstray
      split at h
      · simp at h
      · rename_i hstuck
        have hr : Readable f.code 0 := by
          refine ⟨hstuck, fun x hx => ?_⟩
          rw [List.findSome?_eq_none_iff] at hstray
          exact hstray x hx
        obtain ⟨h1, starts, h2⟩ := link_linked hf hr h
        exact ⟨h1, f.code, starts, h2⟩

end Native

end StackMachine
