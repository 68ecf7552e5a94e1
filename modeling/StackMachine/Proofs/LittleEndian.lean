import Mathlib
import StackMachine.LittleEndian

/-!
# Little-endian numbers: reading and writing are inverse

* `value_bytes`: a number that fits into `n` bytes is read back from them.
* `bytes_value`: up to eight bytes are written back from their number.
-/

namespace StackMachine.LittleEndian

/-- Up to eight bytes add up without wrapping around. -/
theorem toNat_value_cons (b : UInt8) {rest : List UInt8} (h : (value rest).toNat < 256 ^ 7) :
    (value (b :: rest)).toNat = b.toNat + 256 * (value rest).toNat := by
  have hb := b.toNat_lt
  simp only [value, UInt64.toNat_add, UInt64.toNat_mul, UInt8.toNat_toUInt64,
    UInt64.reduceToNat]
  omega

/-- The number in a few bytes is below the power for their count. -/
theorem toNat_value_lt (bs : List UInt8) (h : bs.length ≤ 8) :
    (value bs).toNat < 256 ^ bs.length := by
  induction bs with
  | nil => simp [value]
  | cons b rest ih =>
    have hlen : rest.length ≤ 7 := Nat.le_of_succ_le_succ h
    have hrest := ih (by omega)
    have hseven : (value rest).toNat < 256 ^ 7 :=
      Nat.lt_of_lt_of_le hrest (Nat.pow_le_pow_right (by omega) hlen)
    have hb := b.toNat_lt
    rw [toNat_value_cons b hseven, List.length_cons, Nat.pow_succ]
    omega

/-- What is written in enough bytes is read back. -/
theorem value_bytes {n : Nat} {w : UInt64} (h : w.toNat < 256 ^ n) : value (bytes n w) = w := by
  induction n generalizing w with
  | zero =>
    have hzero : w.toNat = 0 := by simpa using h
    exact (UInt64.toNat_inj.1 hzero).symm
  | succ n ih =>
    have hdiv : (w / 256).toNat = w.toNat / 256 := by simp [UInt64.toNat_div]
    have hrest : (w / 256).toNat < 256 ^ n := by
      rw [hdiv, Nat.div_lt_iff_lt_mul (by omega), ← Nat.pow_succ]
      exact h
    apply UInt64.toNat_inj.1
    have hw := w.toNat_lt
    rw [bytes, value, ih hrest]
    simp only [UInt64.toNat_add, UInt64.toNat_mul, UInt8.toNat_toUInt64, UInt64.toNat_toUInt8,
      UInt64.reduceToNat, hdiv]
    omega

theorem toNat_value_bytes {n k : Nat} (h : k < 256 ^ n) (hk : k < 2 ^ 64) :
    (value (bytes n (UInt64.ofNat k))).toNat = k := by
  have hword : (UInt64.ofNat k).toNat = k := by
    rw [UInt64.toNat_ofNat', Nat.mod_eq_of_lt hk]
  rw [value_bytes (by rw [hword]; exact h), hword]

theorem bytes_toUInt64 (n : UInt16) :
    ∃ b0 b1, bytes 2 n.toUInt64 = [b0, b1] ∧ (value [b0, b1]).toUInt16 = n := by
  have hn := n.toNat_lt
  have hvalue : value (bytes 2 n.toUInt64) = n.toUInt64 :=
    value_bytes (by rw [UInt16.toNat_toUInt64]; omega)
  exact ⟨_, _, rfl, (congrArg UInt64.toUInt16 hvalue).trans n.toUInt16_toUInt64⟩

/-- What is read from up to eight bytes is written back. -/
theorem bytes_value (bs : List UInt8) (h : bs.length ≤ 8) : bytes bs.length (value bs) = bs := by
  induction bs with
  | nil => rfl
  | cons b rest ih =>
    have hlen : rest.length ≤ 7 := Nat.le_of_succ_le_succ h
    have hseven : (value rest).toNat < 256 ^ 7 :=
      Nat.lt_of_lt_of_le (toNat_value_lt rest (by omega)) (Nat.pow_le_pow_right (by omega) hlen)
    have hcons := toNat_value_cons b hseven
    have hb := b.toNat_lt
    have hlow : (value (b :: rest)).toUInt8 = b := by
      apply UInt8.toNat_inj.1
      rw [UInt64.toNat_toUInt8, hcons]
      omega
    have hhigh : value (b :: rest) / 256 = value rest := by
      apply UInt64.toNat_inj.1
      rw [UInt64.toNat_div, hcons]
      simp only [UInt64.reduceToNat]
      omega
    rw [List.length_cons, bytes, hlow, hhigh, ih (by omega)]

theorem bytes_toUInt16_value (b0 b1 : UInt8) :
    bytes 2 (value [b0, b1]).toUInt16.toUInt64 = [b0, b1] := by
  have hlt := toNat_value_lt [b0, b1] (by simp)
  have hword : (value [b0, b1]).toUInt16.toUInt64 = value [b0, b1] := by
    apply UInt64.toNat_inj.1
    rw [UInt16.toNat_toUInt64, UInt64.toNat_toUInt16]
    simp only [List.length_cons, List.length_nil] at hlt
    omega
  rw [hword]
  exact bytes_value [b0, b1] (by simp)

/-- As many bytes with the same number are the same. -/
theorem eq_of_value_eq {bs cs : List UInt8} (hlen : bs.length = cs.length) (h : cs.length ≤ 8)
    (hvalue : value bs = value cs) : bs = cs := by
  rw [← bytes_value bs (hlen ▸ h), hvalue, hlen, bytes_value cs h]

end StackMachine.LittleEndian
