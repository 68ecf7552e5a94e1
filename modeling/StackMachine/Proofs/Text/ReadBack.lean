import Mathlib
import StackMachine.Text.Blank
import StackMachine.Text.Decimal

/-!
# Numerals and words are read back

A number is read from its numeral, with or without a sign, as long as it lies within the limits that
the reader is given. A text that consists of terminated lines is cut into these lines, and a line of
words with one separator between them into these words.

* `Decimal.readUnsigned_natDigits`, `Decimal.readSigned_intDigits`: numerals.
* `Text.pieces_flatMap_terminated`, `Text.pieces_intercalate`, `Text.words_intercalate`: lines and
  words.
-/

namespace StackMachine

/-! ## Numerals -/

namespace Decimal

theorem digit?_digitChar {d : Nat} (hd : d < 10) : digit? (digitChar d) = some d := by
  revert d
  decide

theorem exists_digit_of_mem {n : Nat} {c : Char} (hc : c ∈ natDigits n) :
    ∃ d, d < 10 ∧ digitChar d = c := by
  induction n using natDigits.induct with
  | case1 n hn =>
    rw [natDigits, if_pos hn, List.mem_singleton] at hc
    exact ⟨n, hn, hc.symm⟩
  | case2 n hn ih =>
    rw [natDigits, if_neg hn, List.mem_append, List.mem_singleton] at hc
    rcases hc with hc | hc
    · exact ih hc
    · exact ⟨n % 10, Nat.mod_lt n (by omega), hc.symm⟩

theorem natDigits_ne_nil (n : Nat) : natDigits n ≠ [] := by
  rw [natDigits]
  split_ifs <;> simp

/-- A numeral starts with a digit, so that it has no sign. -/
theorem natDigits_ne_cons {n : Nat} {c : Char} {cs : List Char}
    (hc : ∀ d < 10, digitChar d ≠ c) : natDigits n ≠ c :: cs := by
  intro h
  obtain ⟨d, hd, rfl⟩ := exists_digit_of_mem (h ▸ List.mem_cons_self : c ∈ natDigits n)
  exact hc d hd rfl

theorem readDigits_append (acc : Nat) (cs cs' : List Char) :
    readDigits acc (cs ++ cs') = (readDigits acc cs).bind fun n => readDigits n cs' := by
  induction cs generalizing acc with
  | nil => rfl
  | cons c cs ih =>
    rw [List.cons_append, readDigits, readDigits]
    cases digit? c with
    | none => rfl
    | some d => exact ih _

theorem readDigits_natDigits (n : Nat) : readDigits 0 (natDigits n) = some n := by
  induction n using natDigits.induct with
  | case1 n hn =>
    rw [natDigits, if_pos hn]
    simp [readDigits, digit?_digitChar hn]
  | case2 n hn ih =>
    have hlast : n % 10 < 10 := Nat.mod_lt n (by omega)
    rw [natDigits, if_neg hn, readDigits_append, ih]
    simp only [readDigits, digit?_digitChar hlast, Option.bind_some, Option.some.injEq]
    omega

theorem readNat_natDigits (n : Nat) : readNat (natDigits n) = some n := by
  unfold readNat
  split
  · rename_i h
    exact absurd h (natDigits_ne_nil n)
  · exact readDigits_natDigits n

theorem natDigits_injective : Function.Injective natDigits := by
  intro n k h
  have hread := readNat_natDigits n
  rw [h, readNat_natDigits] at hread
  exact (Option.some.inj hread).symm

theorem readUnsigned_natDigits {n max : Nat} (hn : n ≤ max) :
    readUnsigned max (natDigits n) = some n := by
  unfold readUnsigned
  split
  · rename_i h
    exact absurd h (natDigits_ne_cons (by decide))
  · simp only [readNat_natDigits, if_pos hn]

theorem readSigned_intDigits {n min max : Int} (hmin : min ≤ n) (hmax : n ≤ max) :
    readSigned min max (intDigits n) = some n := by
  unfold readSigned intDigits
  split_ifs with hneg
  · have hn : -(n.natAbs : Int) = n := by omega
    simp only [readNat_natDigits]
    show (if min ≤ -(n.natAbs : Int) ∧ -(n.natAbs : Int) ≤ max then some (-(n.natAbs : Int))
      else none) = some n
    rw [hn, if_pos ⟨hmin, hmax⟩]
  · have hn : (n.natAbs : Int) = n := by omega
    split
    · rename_i h
      exact absurd h (natDigits_ne_cons (by decide))
    · rename_i h
      exact absurd h (natDigits_ne_cons (by decide))
    · simp only [readNat_natDigits]
      show (if min ≤ (n.natAbs : Int) ∧ (n.natAbs : Int) ≤ max then some (n.natAbs : Int)
        else none) = some n
      rw [hn, if_pos ⟨hmin, hmax⟩]

theorem intDigits_injective : Function.Injective intDigits := by
  intro n k h
  have hn := readSigned_intDigits (min_le_left n k) (le_max_left n k)
  have hk := readSigned_intDigits (min_le_right n k) (le_max_right n k)
  rw [h, hk] at hn
  exact (Option.some.inj hn).symm

theorem readInt64_intDigits (n : Int64) : readInt64 (intDigits n.toInt) = some n := by
  have hmin := n.le_toInt
  have hmax := n.toInt_lt
  rw [readInt64, readSigned_intDigits (by omega) (by omega), Option.map_some, Int64.ofInt_toInt]

theorem ofInt_natCast (n : Nat) : ofInt n = ofNat n := by
  rw [ofInt, intDigits, if_neg (by omega), Int.natAbs_natCast, ofNat]

end Decimal

/-! ## Lines and words -/

namespace Text

variable {p : Char → Bool} {c : Char}

theorem pieces_cons_of_pos (hc : p c = true) (cs : List Char) :
    pieces p (c :: cs) = [] :: pieces p cs :=
  if_pos hc

theorem pieces_cons_of_neg (hc : p c = false) {cs word : List Char} {rest : List (List Char)}
    (hcs : pieces p cs = word :: rest) : pieces p (c :: cs) = (c :: word) :: rest := by
  unfold pieces at hcs ⊢
  rw [List.foldr_cons, hcs, hc]
  rfl

theorem pieces_of_forall {word : List Char} (hword : ∀ x ∈ word, p x = false) :
    pieces p word = [word] := by
  induction word with
  | nil => rfl
  | cons x word ih =>
    rw [List.forall_mem_cons] at hword
    exact pieces_cons_of_neg hword.1 (ih hword.2)

/-- The text up to the first cut is the first piece. -/
theorem pieces_append_cons {word : List Char} (hword : ∀ x ∈ word, p x = false) (hc : p c = true)
    (rest : List Char) : pieces p (word ++ c :: rest) = word :: pieces p rest := by
  induction word with
  | nil => exact pieces_cons_of_pos hc rest
  | cons x word ih =>
    rw [List.forall_mem_cons] at hword
    exact pieces_cons_of_neg hword.1 (ih hword.2)

theorem pieces_flatMap_terminated (hc : p c = true) {lines : List (List Char)}
    (hlines : ∀ line ∈ lines, ∀ x ∈ line, p x = false) :
    pieces p (lines.flatMap fun line => line ++ [c]) = lines ++ [[]] := by
  induction lines with
  | nil => rfl
  | cons line lines ih =>
    rw [List.forall_mem_cons] at hlines
    rw [List.flatMap_cons, List.append_assoc, List.singleton_append,
      pieces_append_cons hlines.1 hc, ih hlines.2, List.cons_append]

theorem mem_of_mem_intercalate {sep : List Char} {ws : List (List Char)} {x : Char}
    (hx : x ∈ sep.intercalate ws) : x ∈ sep ∨ ∃ w ∈ ws, x ∈ w := by
  induction ws with
  | nil => cases hx
  | cons w ws ih =>
    cases ws with
    | nil => exact .inr ⟨w, List.mem_cons_self, by simpa using hx⟩
    | cons w' ws =>
      rw [List.intercalate_cons_cons, List.mem_append, List.mem_append] at hx
      rcases hx with (hw | hsep) | hrest
      · exact .inr ⟨w, List.mem_cons_self, hw⟩
      · exact .inl hsep
      · obtain hsep | ⟨v, hv, hxv⟩ := ih hrest
        · exact .inl hsep
        · exact .inr ⟨v, List.mem_cons_of_mem _ hv, hxv⟩

theorem pieces_intercalate (hc : p c = true) {ws : List (List Char)} (hne : ws ≠ [])
    (hws : ∀ w ∈ ws, ∀ x ∈ w, p x = false) : pieces p ([c].intercalate ws) = ws := by
  induction ws with
  | nil => exact absurd rfl hne
  | cons w ws ih =>
    rw [List.forall_mem_cons] at hws
    cases ws with
    | nil => simp [pieces_of_forall hws.1]
    | cons w' ws =>
      rw [List.intercalate_cons_cons, List.append_assoc, List.singleton_append,
        pieces_append_cons hws.1 hc, ih (by simp) hws.2]

theorem words_intercalate (hc : p c = true) {ws : List (List Char)}
    (hws : ∀ w ∈ ws, w ≠ [] ∧ ∀ x ∈ w, p x = false) : words p ([c].intercalate ws) = ws := by
  cases ws with
  | nil => rfl
  | cons w ws =>
    rw [words, pieces_intercalate hc (by simp) fun w hw => (hws w hw).2, List.filter_eq_self]
    intro w hw
    simpa using (hws w hw).1

end Text

end StackMachine
