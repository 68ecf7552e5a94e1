import Mathlib
import StackMachine.Word

/-!
# Handle words

A handle word holds the tag in its thirteen high bits, the generation in the next nineteen and the
index in the low half. As a number it is the sum of the three, which settles how words and handles
translate into each other.

* `handle?_eq_some_iff`: which word holds which handle.
* `handle?_ofHandle`: an index and a generation that fit are read back as they were.
* `isNanPattern_iff`: which patterns of doubles are NaNs.
* `boxing_exact`: handles, handle words and doubles share the words without overlap.
-/

namespace StackMachine

/-- Whether both fields of a handle are wide enough for it. -/
def Handle.Fits (h : Handle) : Prop := h.index < 2 ^ 32 ∧ h.generation ≤ maxGeneration

namespace Word

/-- Keeping the thirteen high bits of a number of 64 bits. -/
theorem and_highBits {n : Nat} (hn : n < 2 ^ 64) :
    n &&& 0xFFF8000000000000 = n / 2 ^ 51 * 2 ^ 51 := by
  have hlow : (n &&& 0xFFF8000000000000) % 2 ^ 51 = 0 := by
    rw [Nat.and_mod_two_pow]
    simp
  have hhigh : (n &&& 0xFFF8000000000000) / 2 ^ 51 = n / 2 ^ 51 := by
    rw [← Nat.shiftRight_eq_div_pow, Nat.shiftRight_and_distrib]
    change n >>> 51 &&& (2 ^ 13 - 1) = _
    rw [Nat.and_two_pow_sub_one_eq_mod, Nat.shiftRight_eq_div_pow]
    exact Nat.mod_eq_of_lt (by omega)
  omega

theorem isHandle_iff (w : Word) : w.isHandle = true ↔ w.bits.toNat / 2 ^ 51 = 0xFFF := by
  have hn := w.bits.toNat_lt
  rw [isHandle, beq_iff_eq, ← UInt64.toNat_inj, UInt64.toNat_and]
  change w.bits.toNat &&& 0xFFF8000000000000 = 0x7FF8000000000000 ↔ _
  rw [and_highBits hn]
  omega

/-- A word holds a handle when it is the sum of the tag and the two fields. -/
theorem handle?_eq_some_iff {w : Word} {h : Handle} :
    w.handle? = some h ↔
      h.Fits ∧ w.bits.toNat = 0xFFF * 2 ^ 51 + h.generation * 2 ^ 32 + h.index := by
  obtain ⟨index, generation⟩ := h
  have hn := w.bits.toNat_lt
  have hi := w.isHandle_iff
  have hindex : (w.bits % 0x100000000).toNat = w.bits.toNat % 2 ^ 32 := by
    rw [UInt64.toNat_mod]; rfl
  have hgeneration : (w.bits / 0x100000000 % 0x80000).toNat = w.bits.toNat / 2 ^ 32 % 2 ^ 19 := by
    rw [UInt64.toNat_mod, UInt64.toNat_div]; rfl
  simp only [handle?, hindex, hgeneration, Handle.Fits, Handle.maxGeneration]
  split_ifs with hw
  · simp only [Option.some.injEq, Handle.mk.injEq]
    have := hi.1 hw
    omega
  · simp only [false_iff]
    intro ⟨hfits, hbits⟩
    exact hw (hi.2 (by omega))

theorem bits_ofHandle {h : Handle} (hf : h.Fits) :
    (ofHandle h).bits.toNat = 0xFFF * 2 ^ 51 + h.generation * 2 ^ 32 + h.index := by
  obtain ⟨hi, hg⟩ := hf
  unfold Handle.maxGeneration at hg
  have h1 : (UInt64.ofNat (h.generation % 0x80000)).toNat = h.generation := by
    rw [UInt64.toNat_ofNat']
    omega
  have h2 : (UInt64.ofNat (h.index % 0x100000000)).toNat = h.index := by
    rw [UInt64.toNat_ofNat']
    omega
  rw [ofHandle, UInt64.toNat_add, UInt64.toNat_add, UInt64.toNat_mul, h1, h2]
  change ((0x7FF8000000000000 + h.generation * 0x100000000 % 2 ^ 64) % 2 ^ 64 + h.index) % 2 ^ 64
    = _
  omega

/-- Words and handles that fit translate into each other. -/
theorem handle?_ofHandle {h : Handle} (hf : h.Fits) : (ofHandle h).handle? = some h :=
  handle?_eq_some_iff.2 ⟨hf, bits_ofHandle hf⟩

/-- A handle is held by one word only. -/
theorem eq_of_handle? {v w : Word} {h : Handle} (hv : v.handle? = some h)
    (hw : w.handle? = some h) : v = w := by
  obtain ⟨v⟩ := v
  obtain ⟨w⟩ := w
  rw [handle?_eq_some_iff] at hv hw
  exact congrArg mk (UInt64.toNat_inj.1 (hv.2.trans hw.2.symm))

/-! ## Words that are not handles -/

theorem isHandle_eq_false_iff {w : Word} : w.isHandle = false ↔ w.handle? = none := by
  cases h : w.isHandle <;> simp [handle?, h]

theorem handle?_ofBool (b : Bool) : (ofBool b).handle? = none := by
  cases b <;> decide

/-- The eleven bits of the exponent of a NaN are set, and some bit of its fraction. -/
theorem isNanPattern_iff (pattern : UInt64) :
    isNanPattern pattern = true ↔
      pattern.toNat / 2 ^ 52 % 2 ^ 11 = 0x7FF ∧ pattern.toNat % 2 ^ 52 ≠ 0 := by
  have hlow : pattern.toNat &&& (2 ^ 63 - 1) = pattern.toNat % 2 ^ 63 :=
    Nat.and_two_pow_sub_one_eq_mod _ _
  rw [isNanPattern, decide_eq_true_eq, GT.gt, UInt64.lt_iff_toNat_lt, UInt64.toNat_and]
  change 0x7FF0000000000000 < pattern.toNat &&& (2 ^ 63 - 1) ↔ _
  omega

/-- The word of a double is never a handle: handles are among the patterns of NaNs. -/
theorem handle?_ofDouble (pattern : UInt64) : (ofDouble pattern).handle? = none := by
  unfold ofDouble
  split_ifs with hnan
  · decide
  · rw [← isHandle_eq_false_iff, Bool.eq_false_iff]
    intro hhandle
    have htag : pattern.toNat / 2 ^ 51 = 0xFFF := (isHandle_iff ⟨pattern⟩).1 hhandle
    exact hnan ((isNanPattern_iff pattern).2 (by omega))

/-- Small numbers are not handles. -/
theorem handle?_ofNat {n : Nat} (hn : n < 2 ^ 60) : (ofInt (Int64.ofNat n)).handle? = none := by
  have hbits : (ofInt (Int64.ofNat n)).bits.toNat = n := by
    change (UInt64.ofNat n).toNat = n
    rw [UInt64.toNat_ofNat']
    omega
  rw [← isHandle_eq_false_iff, Bool.eq_false_iff, Ne, isHandle_iff, hbits]
  omega

/-! ## All words -/

theorem map_ofHandle_handle? {w : Word} (hw : w.isHandle = true) :
    w.handle?.map ofHandle = some w := by
  cases hh : w.handle? with
  | none => exact absurd (isHandle_eq_false_iff.2 hh) (by simp [hw])
  | some h =>
    have hfits : h.Fits := (handle?_eq_some_iff.1 hh).1
    rw [Option.map_some, eq_of_handle? (handle?_ofHandle hfits) hh]

/-- **Boxing is exact.** A handle is read back from its word exactly if both its fields fit. A word
    with the tag is the word of the handle that it holds, and no other word holds one. The word of a
    double has no tag, and it is the pattern of the double, except that all NaNs, whatever their
    sign and payload, have the same word. -/
theorem boxing_exact :
    (∀ h : Handle, (ofHandle h).handle? = some h ↔
      h.index < 2 ^ 32 ∧ h.generation ≤ Handle.maxGeneration) ∧
      (∀ w : Word, w.isHandle = true ↔ w.handle?.map ofHandle = some w) ∧
      (∀ pattern : UInt64, (ofDouble pattern).isHandle = false ∧
        ofDouble pattern =
          if pattern.toNat / 2 ^ 52 % 2 ^ 11 = 0x7FF ∧ pattern.toNat % 2 ^ 52 ≠ 0 then canonicalNan
          else ⟨pattern⟩) := by
  refine ⟨?_, ?_, ?_⟩
  · intro h
    constructor
    · intro hread
      exact (handle?_eq_some_iff.1 hread).1
    · intro hfits
      exact handle?_ofHandle hfits
  · intro w
    constructor
    · exact map_ofHandle_handle?
    · intro hmap
      by_contra hw
      rw [isHandle_eq_false_iff.1 (by simpa using hw)] at hmap
      cases hmap
  · intro pattern
    refine ⟨isHandle_eq_false_iff.2 (handle?_ofDouble pattern), ?_⟩
    rw [ofDouble]
    simp only [isNanPattern_iff]

end Word

end StackMachine
