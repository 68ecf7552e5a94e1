import StackMachine.Listing
import StackMachine.Proofs.Instr.Codec
import StackMachine.Proofs.Text.ReadBack

/-!
# A listing determines the code

Every byte of the code belongs to one line of its listing: to the instruction that the line shows,
or to a line of its own. The text falls into lines and a line into words, since no word has a blank
or a newline in it. The mnemonic tells which instruction a line shows, and a numeral tells its
operand; only the text of a double may stand for several patterns.

* `flatMap_bytes_linesFrom`: the bytes of the lines are those of the code.
* `Line.words_of_text_eq`: lines with the same text have the same words.
* `Line.bytes_of_words_eq`: lines with the same words have the same bytes, double operands apart.
* `Code.eq_of_listing_eq`: codes with the same listing are the same, double operands apart.
-/

namespace StackMachine

/-! ## Hexadecimal numerals -/

namespace Hex

theorem exists_digit_of_mem {n : Nat} {c : Char} (hc : c ∈ natDigits n) :
    ∃ d, d < 16 ∧ digitChar d = c := by
  induction n using natDigits.induct with
  | case1 n hn =>
    rw [natDigits, if_pos hn, List.mem_singleton] at hc
    exact ⟨n, hn, hc.symm⟩
  | case2 n hn ih =>
    rw [natDigits, if_neg hn, List.mem_append, List.mem_singleton] at hc
    rcases hc with hc | hc
    · exact ih hc
    · exact ⟨n % 16, Nat.mod_lt n (by omega), hc.symm⟩

theorem exists_digit_of_mem_padded {width n : Nat} {c : Char} (hc : c ∈ padded width n) :
    ∃ d, d < 16 ∧ digitChar d = c := by
  rcases List.mem_append.1 hc with hc | hc
  · exact ⟨0, by omega, (List.eq_of_mem_replicate hc).symm⟩
  · exact exists_digit_of_mem hc

theorem digitChar_inj {d e : Nat} (hd : d < 16) (he : e < 16) (h : digitChar d = digitChar e) :
    d = e := by
  have hall : ∀ d < 16, ∀ e < 16, digitChar d = digitChar e → d = e := by decide
  exact hall d hd e he h

/-- The two digits of a byte. -/
theorem padded_two {n : Nat} (hn : n < 256) :
    padded 2 n = [digitChar (n / 16), digitChar (n % 16)] := by
  by_cases hsmall : n < 16
  · have hdigits : natDigits n = [digitChar n] := by rw [natDigits, if_pos hsmall]
    rw [padded, hdigits, Nat.div_eq_of_lt hsmall, Nat.mod_eq_of_lt hsmall]
    rfl
  · have hhigh : natDigits (n / 16) = [digitChar (n / 16)] := by
      rw [natDigits, if_pos (by omega)]
    rw [padded, natDigits, if_neg hsmall, hhigh]
    rfl

theorem padded_two_inj {b b' : UInt8} (h : padded 2 b.toNat = padded 2 b'.toNat) : b = b' := by
  have hb : b.toNat < 256 := b.toNat_lt
  have hb' : b'.toNat < 256 := b'.toNat_lt
  rw [padded_two hb, padded_two hb'] at h
  obtain ⟨hhigh, hlow⟩ := List.cons_eq_cons.1 h
  have hdiv := digitChar_inj (by omega) (by omega) hhigh
  have hmod := digitChar_inj (by omega) (by omega) (List.cons_eq_cons.1 hlow).1
  apply UInt8.toNat_inj.1
  omega

end Hex

namespace Listing

/-! ## Plain characters -/

/-- A character that ends neither a word nor a line. -/
def isPlain (c : Char) : Bool := c != ' ' && c != '\n'

theorem isPlain_iff {c : Char} : isPlain c = true ↔ c ≠ ' ' ∧ c ≠ '\n' := by
  simp [isPlain]

theorem isPlain_of_mem {word : List Char} {c : Char} (hword : word.all isPlain = true)
    (hc : c ∈ word) : isPlain c = true :=
  List.all_eq_true.1 hword c hc

theorem isPlain_of_mem_natDigits {n : Nat} {c : Char} (hc : c ∈ Decimal.natDigits n) :
    isPlain c = true := by
  have hdigits : ∀ d < 10, isPlain (Decimal.digitChar d) = true := by decide
  obtain ⟨d, hd, rfl⟩ := Decimal.exists_digit_of_mem hc
  exact hdigits d hd

theorem isPlain_of_mem_intDigits {n : Int} {c : Char} (hc : c ∈ Decimal.intDigits n) :
    isPlain c = true := by
  unfold Decimal.intDigits at hc
  split_ifs at hc
  · rcases List.mem_cons.1 hc with rfl | hc
    · rfl
    · exact isPlain_of_mem_natDigits hc
  · exact isPlain_of_mem_natDigits hc

theorem isPlain_of_mem_signedDigits {n : Int} {c : Char} (hc : c ∈ signedDigits n) :
    isPlain c = true := by
  unfold signedDigits at hc
  split_ifs at hc
  · exact isPlain_of_mem_intDigits hc
  · rcases List.mem_cons.1 hc with rfl | hc
    · rfl
    · exact isPlain_of_mem_intDigits hc

theorem isPlain_of_mem_padded {width n : Nat} {c : Char} (hc : c ∈ Hex.padded width n) :
    isPlain c = true := by
  have hdigits : ∀ d < 16, isPlain (Hex.digitChar d) = true := by decide
  obtain ⟨d, hd, rfl⟩ := Hex.exists_digit_of_mem_padded hc
  exact hdigits d hd

/-- The digits of a double are cut at the point and filled up with zeros. -/
theorem isPlain_of_mem_positional {n : Nat} {point : Int} {c : Char}
    (hc : c ∈ Double.positional (Decimal.natDigits n) point) : isPlain c = true := by
  have hmem : c ∈ Decimal.natDigits n ∨ c = '0' ∨ c = '.' := by
    unfold Double.positional at hc
    split_ifs at hc
    · simp only [List.mem_append, List.mem_cons, List.not_mem_nil, or_false,
        List.mem_replicate] at hc
      tauto
    · simp only [List.mem_append, List.mem_singleton, List.mem_replicate] at hc
      rcases hc with ((hc | ⟨-, hc⟩) | hc) | hc
      · exact .inl (List.mem_of_mem_take hc)
      · exact .inr (.inl hc)
      · exact .inr (.inr hc)
      · split_ifs at hc
        · exact .inr (.inl (List.mem_singleton.1 hc))
        · exact .inl (List.mem_of_mem_drop hc)
  rcases hmem with hc | rfl | rfl
  · exact isPlain_of_mem_natDigits hc
  · rfl
  · rfl

theorem isPlain_of_mem_scientific {n : Nat} {point : Int} {c : Char}
    (hc : c ∈ Double.scientific (Decimal.natDigits n) point) : isPlain c = true := by
  simp only [Double.scientific, List.mem_append, List.mem_singleton] at hc
  rcases hc with ((hc | hc) | rfl) | hc
  · exact isPlain_of_mem_natDigits (List.mem_of_mem_take hc)
  · split_ifs at hc
    · cases hc
    · rcases List.mem_cons.1 hc with rfl | hc
      · rfl
      · exact isPlain_of_mem_natDigits (List.mem_of_mem_drop hc)
  · rfl
  · exact isPlain_of_mem_intDigits hc

theorem isPlain_of_mem_doubleText {pattern : UInt64} {c : Char}
    (hc : c ∈ (Double.text pattern).toList) : isPlain c = true := by
  have hsign : (if Double.isNegative pattern then ['-'] else []).all isPlain = true := by
    split_ifs <;> rfl
  unfold Double.text at hc
  dsimp only at hc
  generalize (if Double.isNegative pattern then ['-'] else []) = sign at hsign hc
  split_ifs at hc <;> try rw [String.toList_ofList, List.mem_append] at hc
  · exact isPlain_of_mem (by decide) hc
  · exact hc.elim (isPlain_of_mem hsign) (isPlain_of_mem (by decide))
  · exact hc.elim (isPlain_of_mem hsign) (isPlain_of_mem (by decide))
  · exact hc.elim (isPlain_of_mem hsign) isPlain_of_mem_positional
  · exact hc.elim (isPlain_of_mem hsign) isPlain_of_mem_scientific

/-! ## Words -/

/-- The words behind the mnemonic of the instruction at `pc`. -/
def operandWords (pc : Nat) (i : Instr) : List (List Char) :=
  match i with
  | .pushDouble pattern => [(Double.text pattern).toList]
  | .jump _ offset =>
    [signedDigits offset.toInt, [';'], ['-', '>'],
      placeDigits (Code.jumpPlace (pc + i.size) offset)]
  | _ => (i.operand?.map Decimal.intDigits).toList

/-- The words of a line. -/
def Line.words : Line → List (List Char)
  | .instr pc i => (Hex.padded 4 pc ++ [':']) :: i.name.toList :: operandWords pc i
  | .byte pc b =>
    [Hex.padded 4 pc ++ [':'], ".byte".toList, ['0', 'x'] ++ Hex.padded 2 b.toNat]

theorem operandText_eq (pc : Nat) (i : Instr) :
    operandText pc i = (operandWords pc i).flatMap (' ' :: ·) := by
  cases i <;> simp [operandText, operandWords, Instr.operand?]

/-- A line is its words with blanks between them. -/
theorem Line.text_eq (line : Line) : line.text = [' '].intercalate line.words := by
  have hintercalate (w : List Char) (ws : List (List Char)) :
      [' '].intercalate (w :: ws) = w ++ ws.flatMap (' ' :: ·) := by
    induction ws generalizing w with
    | nil => simp
    | cons w' ws ih => simp [ih]
  cases line with
  | instr pc i =>
    rw [Line.text, Line.words, hintercalate, operandText_eq]
    simp
  | byte pc b =>
    rw [Line.text, Line.words, hintercalate]
    simp

theorem isPlain_of_mem_operandWords {pc : Nat} {i : Instr} {word : List Char} {c : Char}
    (hword : word ∈ operandWords pc i) (hc : c ∈ word) : isPlain c = true := by
  have hnumeral (hword : word ∈ (i.operand?.map Decimal.intDigits).toList) : isPlain c = true := by
    rw [Option.mem_toList, Option.map_eq_some_iff] at hword
    obtain ⟨n, -, rfl⟩ := hword
    exact isPlain_of_mem_intDigits hc
  unfold operandWords at hword
  split at hword
  · rw [List.mem_singleton] at hword
    subst hword
    exact isPlain_of_mem_doubleText hc
  · simp only [List.mem_cons, List.not_mem_nil, or_false] at hword
    rcases hword with rfl | rfl | rfl | rfl
    · exact isPlain_of_mem_signedDigits hc
    · exact isPlain_of_mem (by decide) hc
    · exact isPlain_of_mem (by decide) hc
    · exact isPlain_of_mem_padded hc
  · exact hnumeral hword

theorem Line.isPlain_of_mem_words {line : Line} {word : List Char} {c : Char}
    (hword : word ∈ line.words) (hc : c ∈ word) : isPlain c = true := by
  have hplace {pc : Nat} (hc : c ∈ Hex.padded 4 pc ++ [':']) : isPlain c = true := by
    rcases List.mem_append.1 hc with hc | hc
    · exact isPlain_of_mem_padded hc
    · rw [List.mem_singleton.1 hc]
      rfl
  cases line with
  | instr pc i =>
    have hname : ∀ op ∈ Opcode.all, op.name.toList.all isPlain = true := by decide
    simp only [Line.words, List.mem_cons] at hword
    rcases hword with rfl | rfl | hword
    · exact hplace hc
    · exact isPlain_of_mem (hname i.opcode i.opcode.mem_all) hc
    · exact isPlain_of_mem_operandWords hword hc
  | byte pc b =>
    simp only [Line.words, List.mem_cons, List.not_mem_nil, or_false] at hword
    rcases hword with rfl | rfl | rfl
    · exact hplace hc
    · exact isPlain_of_mem (by decide) hc
    · rcases List.mem_append.1 hc with hc | hc
      · exact isPlain_of_mem (by decide) hc
      · exact isPlain_of_mem_padded hc

/-- Lines with the same text have the same words. -/
theorem Line.words_of_text_eq {line line' : Line} (h : line.text = line'.text) :
    line.words = line'.words := by
  have hpieces (line : Line) : Text.pieces (· == ' ') line.text = line.words := by
    rw [line.text_eq, Text.pieces_intercalate rfl]
    · cases line <;> simp [Line.words]
    · intro word hword c hc
      exact beq_false_of_ne (isPlain_iff.1 (Line.isPlain_of_mem_words hword hc)).1
  rw [← hpieces line, ← hpieces line', h]

/-- Equal listings have the same lines of text. -/
theorem texts_of_listing_eq {c d : Code} (h : c.listing = d.listing) :
    (lines c).map Line.text = (lines d).map Line.text := by
  have hpieces (code : Code) : Text.pieces (· == '\n') code.listing.toList =
      (lines code).map Line.text ++ [[]] := by
    have hlines : code.listing.toList = ((lines code).map Line.text).flatMap (· ++ ['\n']) := by
      rw [Code.listing, String.toList_ofList, List.flatMap_map]
    rw [hlines, Text.pieces_flatMap_terminated rfl]
    intro text htext c hc
    obtain ⟨line, -, rfl⟩ := List.mem_map.1 htext
    rw [line.text_eq] at hc
    obtain hc | ⟨word, hword, hc⟩ := Text.mem_of_mem_intercalate hc
    · rw [List.mem_singleton.1 hc]
      rfl
    · exact beq_false_of_ne (isPlain_iff.1 (Line.isPlain_of_mem_words hword hc)).2
  have htexts := hpieces c
  rw [h, hpieces d] at htexts
  exact (List.append_cancel_right htexts).symm

/-! ## Instructions -/

theorem signedDigits_injective : Function.Injective signedDigits := by
  intro n k h
  have hneg {n k : Int} (hn : n < 0) : Decimal.intDigits n ≠ '+' :: Decimal.intDigits k := by
    rw [Decimal.intDigits, if_pos hn]
    intro h
    cases (List.cons_eq_cons.1 h).1
  unfold signedDigits at h
  split_ifs at h with hn hk hk
  · exact Decimal.intDigits_injective h
  · exact absurd h (hneg hn)
  · exact absurd h.symm (hneg hk)
  · exact Decimal.intDigits_injective (List.cons_eq_cons.1 h).2

/-- An instruction is known from its opcode and the words of its operand, unless that is a
    double. -/
theorem instr_of_operandWords_eq {pc pc' : Nat} {i j : Instr} (hop : i.opcode = j.opcode)
    (hd : i.opcode ≠ .pushDouble) (h : operandWords pc i = operandWords pc' j) : i = j := by
  -- with the same opcode the instructions are of one form, and only the operands can differ
  obtain ⟨operand, rfl⟩ : ∃ operand, j = i.opcode.instr operand :=
    ⟨_, by rw [hop]; exact j.instr_operandBytes.symm⟩
  have hint {n k : Int} (h : [Decimal.intDigits n] = [Decimal.intDigits k]) : n = k :=
    Decimal.intDigits_injective (List.singleton_inj.1 h)
  have hnat {n k : Nat} (h : [Decimal.intDigits n] = [Decimal.intDigits k]) : n = k :=
    Int.ofNat.inj (hint h)
  cases i with
  | pushDouble pattern => exact absurd rfl hd
  | pushInt n => exact congrArg Instr.pushInt (Int64.toInt_inj.1 (hint h))
  | jump branch offset =>
    have hoffset := signedDigits_injective (List.cons_eq_cons.1 h).1
    exact congrArg (Instr.jump branch) (Int32.toInt_inj.1 hoffset)
  | call callee => exact congrArg Instr.call (UInt16.toNat_inj.1 (hnat h))
  | loadLocal index => exact congrArg Instr.loadLocal (UInt8.toNat_inj.1 (hnat h))
  | storeLocal index => exact congrArg Instr.storeLocal (UInt8.toNat_inj.1 (hnat h))
  | loadGlobal index => exact congrArg Instr.loadGlobal (UInt16.toNat_inj.1 (hnat h))
  | storeGlobal index => exact congrArg Instr.storeGlobal (UInt16.toNat_inj.1 (hnat h))
  | _ => rfl

/-! ## Bytes -/

/-- The bytes of the code that a line shows. -/
def Line.bytes : Line → List UInt8
  | .instr _ i => i.encode
  | .byte _ b => [b]

/-- Whether a line shows a double. -/
def Line.isDouble : Line → Bool
  | .instr _ i => i.opcode = .pushDouble
  | .byte _ _ => false

/-- Lines with the same words have the same bytes, unless one shows a double. -/
theorem Line.bytes_of_words_eq {line line' : Line} (hd : line.isDouble = false)
    (h : line.words = line'.words) : line.bytes = line'.bytes := by
  have hname : ∀ op ∈ Opcode.all, op.name.toList ≠ ".byte".toList := by decide
  cases line with
  | instr pc i =>
    cases line' with
    | instr pc' j =>
      obtain ⟨-, hrest⟩ := List.cons_eq_cons.1 h
      obtain ⟨hnames, hoperands⟩ := List.cons_eq_cons.1 hrest
      have hop : i.opcode = j.opcode := by
        have hi := i.opcode.ofName?_name
        rw [show i.opcode.name = j.opcode.name from String.toList_inj.1 hnames,
          j.opcode.ofName?_name] at hi
        exact (Option.some.inj hi).symm
      rw [instr_of_operandWords_eq hop (by simpa [Line.isDouble] using hd) hoperands]
      rfl
    | byte pc' b =>
      obtain ⟨-, hrest⟩ := List.cons_eq_cons.1 h
      exact absurd (List.cons_eq_cons.1 hrest).1 (hname i.opcode i.opcode.mem_all)
  | byte pc b =>
    cases line' with
    | instr pc' j =>
      obtain ⟨-, hrest⟩ := List.cons_eq_cons.1 h
      exact absurd (List.cons_eq_cons.1 hrest).1.symm (hname j.opcode j.opcode.mem_all)
    | byte pc' b' =>
      obtain ⟨-, hrest⟩ := List.cons_eq_cons.1 h
      obtain ⟨-, hlast⟩ := List.cons_eq_cons.1 hrest
      have hdigits := List.append_cancel_left (List.cons_eq_cons.1 hlast).1
      rw [Line.bytes, Hex.padded_two_inj hdigits]
      rfl

theorem flatMap_bytes_of_texts_eq {ls ls' : List Line} (hd : ∀ line ∈ ls, line.isDouble = false)
    (h : ls.map Line.text = ls'.map Line.text) :
    ls.flatMap Line.bytes = ls'.flatMap Line.bytes := by
  induction ls generalizing ls' with
  | nil => rw [List.map_eq_nil_iff.1 h.symm]
  | cons line ls ih =>
    obtain ⟨line', rest, rfl, hline, hrest⟩ := List.map_eq_cons_iff.1 h.symm
    rw [List.forall_mem_cons] at hd
    rw [List.flatMap_cons, List.flatMap_cons, ih hd.2 hrest.symm,
      Line.bytes_of_words_eq hd.1 (Line.words_of_text_eq hline.symm)]

/-- The lines show the code byte by byte. -/
theorem flatMap_bytes_linesFrom (code : Code) (pc : Nat) :
    (linesFrom code pc).flatMap Line.bytes = code.toList.drop pc := by
  fun_induction linesFrom code pc with
  | case1 pc hpc i hdecode ih =>
    rw [List.flatMap_cons, ih, Code.encode_of_decode hdecode]
    rfl
  | case2 pc hpc fault hdecode ih =>
    rw [List.flatMap_cons, ih, List.drop_eq_getElem_cons (i := pc) (by simpa using hpc)]
    rfl
  | case3 pc hpc =>
    rw [List.drop_eq_nil_of_le (by simpa using hpc)]
    rfl

theorem flatMap_bytes_lines (code : Code) : (lines code).flatMap Line.bytes = code.toList :=
  flatMap_bytes_linesFrom code 0

end Listing

/-- **A listing determines the code.** If no line of the listing of `c` shows a double, then no
    other code has this listing: the bytes that could not be read, the instructions and their
    operands can all be told from the text. -/
theorem Code.eq_of_listing_eq {c d : Code} (hc : ∀ line ∈ Listing.lines c, line.isDouble = false)
    (h : c.listing = d.listing) : c = d := by
  have htexts := Listing.texts_of_listing_eq h
  apply Array.toList_inj.1
  calc c.toList
      = (Listing.lines c).flatMap Listing.Line.bytes := (Listing.flatMap_bytes_lines c).symm
    _ = (Listing.lines d).flatMap Listing.Line.bytes :=
        Listing.flatMap_bytes_of_texts_eq hc htexts
    _ = d.toList := Listing.flatMap_bytes_lines d

/-- A jump back over a byte that is no opcode, and a `push_int` that the end of the code cuts off,
    with a call where its operand would be. -/
def Code.damaged : Code := #[0xEE, 0x41, 0xFA, 0xFF, 0xFF, 0xFF, 0x01, 0x48, 0x02, 0x03]

theorem Code.eq_of_listing_eq_damaged :
    (∀ line ∈ Listing.lines damaged, line.isDouble = false) ∧
      ∀ d : Code, d.listing = "0000: .byte 0xee\n0001: jz -6 ; -> 0000\n0006: .byte 0x01\n" ++
        "0007: call 770\n" → d = damaged := by
  have hdamaged : (Listing.lines damaged).all (fun line => !line.isDouble) = true ∧
      damaged.listing = "0000: .byte 0xee\n0001: jz -6 ; -> 0000\n0006: .byte 0x01\n" ++
        "0007: call 770\n" := by
    decide +kernel
  have hlines : ∀ line ∈ Listing.lines damaged, line.isDouble = false := by
    simpa using hdamaged.1
  refine ⟨hlines, ?_⟩
  intro d hd
  exact (Code.eq_of_listing_eq hlines (hdamaged.2.trans hd.symm)).symm

end StackMachine
