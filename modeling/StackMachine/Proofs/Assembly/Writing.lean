import StackMachine.Proofs.Assembly.WellFormed
import StackMachine.Proofs.Text.ReadBack

/-!
# Every program can be written as text

`write` puts functions into assembly text: the header with a name that is made from the position,
one line for each instruction, jumps and calls with their operands as numbers, and the end. Assembly
reads the text back. Each line is cut into the words that it was written with, the lines of a
function give a definition without labels, no numeral is taken for the name of a function, and every
operand is read as the number that it was.

* `Source.parse_write`: the definitions that a written text is read as.
* `resolve_statement`: the instruction of a written line.
* `assemble_write`: the image of a written text has the functions that were written.
-/

namespace StackMachine

/-- The words of an instruction: the mnemonic, and the operand in decimal if there is one. -/
def Instr.words (i : Instr) : List String := i.name :: (i.operand?.map Decimal.ofInt).toList

namespace Assembly

/-- What is to be written of a function. -/
structure Body where
  arity : UInt8
  locals : UInt8
  instrs : List Instr

/-- The name of the function at a position. -/
def functionName (k : Nat) : String := "f" ++ Decimal.ofNat k

namespace Body

/-- The words of the first line of a function. -/
def header (k : Nat) (f : Body) : List String :=
  [".func", functionName k, "arity=" ++ Decimal.ofNat f.arity.toNat,
    "locals=" ++ Decimal.ofNat f.locals.toNat]

/-- The lines of a function, in words. -/
def lines (k : Nat) (f : Body) : List (List String) :=
  f.header k :: (f.instrs.map Instr.words ++ [[".end"]])

/-- A function that can be written in a text of `count` functions. -/
structure Writable (count : Nat) (f : Body) : Prop where
  roomy : f.arity ≤ f.locals
  integral : ∀ i ∈ f.instrs, i.opcode ≠ .pushDouble
  calls : ∀ i ∈ f.instrs, i.CallsWithin count

end Body

/-- The lines of some functions, the first of which is at position `k`. -/
def linesFrom (k : Nat) (fs : List Body) : List (List String) :=
  (fs.zipIdx k).flatMap fun x => x.1.lines x.2

/-- The text of some functions. Blanks stand between words, and every line is terminated. -/
def write (fs : List Body) : String :=
  String.join ((linesFrom 0 fs).map fun words => " ".intercalate words ++ "\n")

/-- The functions in the form of an image, the first one at position `k`. -/
def functionsFrom (k : Nat) (fs : List Body) : List Image.Function :=
  (fs.zipIdx k).map fun x => ⟨UInt16.ofNat x.2, x.1.arity, x.1.locals, Code.ofInstrs x.1.instrs⟩

/-- The image of some functions. It has no globals and starts with the first function. -/
def imageOf (fs : List Body) : Image :=
  ⟨Image.formatVersion, 0, 0, (functionsFrom 0 fs).toArray⟩

/-! ## Words -/

/-- A character that neither ends a word nor starts a comment. -/
def isPlain (c : Char) : Bool := !isSeparator c && c != '#'

theorem isPlain_iff {c : Char} : isPlain c = true ↔ isSeparator c = false ∧ c ≠ '#' := by
  simp [isPlain]

/-- A text that is one word of a line. -/
def IsWord (word : String) : Prop := word.toList ≠ [] ∧ word.toList.all isPlain = true

instance (word : String) : Decidable (IsWord word) :=
  inferInstanceAs (Decidable (word.toList ≠ [] ∧ word.toList.all isPlain = true))

theorem IsWord.plain {word : String} {c : Char} (h : IsWord word) (hc : c ∈ word.toList) :
    isPlain c = true :=
  List.all_eq_true.1 h.2 c hc

theorem IsWord.append {v w : String} (hv : IsWord v) (hw : IsWord w) : IsWord (v ++ w) := by
  unfold IsWord
  rw [String.toList_append, List.all_append, hv.2, hw.2]
  exact ⟨List.append_ne_nil_of_left_ne_nil hv.1 _, rfl⟩

theorem isWord_ofNat (n : Nat) : IsWord (Decimal.ofNat n) := by
  have hdigits : ∀ d < 10, isPlain (Decimal.digitChar d) = true := by decide
  unfold IsWord
  rw [Decimal.ofNat, String.toList_ofList, List.all_eq_true]
  refine ⟨Decimal.natDigits_ne_nil n, ?_⟩
  intro c hc
  obtain ⟨d, hd, rfl⟩ := Decimal.exists_digit_of_mem hc
  exact hdigits d hd

theorem isWord_ofInt (n : Int) : IsWord (Decimal.ofInt n) := by
  rw [Decimal.ofInt, Decimal.intDigits]
  split_ifs with hneg
  · have hminus : String.ofList ('-' :: Decimal.natDigits n.natAbs) =
        "-" ++ Decimal.ofNat n.natAbs := by
      apply String.toList_inj.1
      simp [Decimal.ofNat]
    rw [hminus]
    exact IsWord.append (by decide) (isWord_ofNat _)
  · exact isWord_ofNat _

/-- What is needed of a mnemonic: it is a word, it is not a directive and it is not a label. -/
theorem mnemonic_plain (i : Instr) :
    IsWord i.name ∧ i.name.toList.head? ≠ some '.' ∧ Draft.isLabel i.name = false := by
  have hall : ∀ op ∈ Opcode.all,
      IsWord op.name ∧ op.name.toList.head? ≠ some '.' ∧ Draft.isLabel op.name = false := by
    decide
  exact hall i.opcode i.opcode.mem_all

theorem isWord_of_mem_words {i : Instr} {word : String} (h : word ∈ i.words) : IsWord word := by
  rw [Instr.words, List.mem_cons, Option.mem_toList, Option.map_eq_some_iff] at h
  rcases h with rfl | ⟨n, -, rfl⟩
  · exact (mnemonic_plain i).1
  · exact isWord_ofInt n

theorem isWord_functionName (k : Nat) : IsWord (functionName k) :=
  IsWord.append (by decide) (isWord_ofNat k)

theorem isWord_of_mem_linesFrom {k : Nat} {fs : List Body} {words : List String} {word : String}
    (hwords : words ∈ linesFrom k fs) (hword : word ∈ words) : IsWord word := by
  obtain ⟨⟨f, j⟩, -, hf⟩ := List.mem_flatMap.1 hwords
  rw [Body.lines, List.mem_cons, List.mem_append, List.mem_map, List.mem_singleton] at hf
  rcases hf with rfl | ⟨i, -, rfl⟩ | rfl
  · simp only [Body.header, List.mem_cons, List.not_mem_nil, or_false] at hword
    rcases hword with rfl | rfl | rfl | rfl
    · decide
    · exact isWord_functionName j
    · exact IsWord.append (by decide) (isWord_ofNat _)
    · exact IsWord.append (by decide) (isWord_ofNat _)
  · exact isWord_of_mem_words hword
  · rw [List.mem_singleton.1 hword]
    decide

theorem eq_or_isPlain_of_mem {words : List String} (hwords : ∀ word ∈ words, IsWord word) {c : Char}
    (hc : c ∈ (" ".intercalate words).toList) : c = ' ' ∨ isPlain c = true := by
  rw [String.toList_intercalate] at hc
  obtain hc | ⟨w, hw, hc⟩ := Text.mem_of_mem_intercalate hc
  · exact .inl (by simpa using hc)
  · obtain ⟨word, hword, rfl⟩ := List.mem_map.1 hw
    exact .inr ((hwords word hword).plain hc)

/-- A line is cut into the words that it was written with. -/
theorem lineWords_intercalate {words : List String} (hwords : ∀ word ∈ words, IsWord word) :
    lineWords (" ".intercalate words).toList = words := by
  have hline : withoutComment (" ".intercalate words).toList = (" ".intercalate words).toList := by
    rw [withoutComment, List.takeWhile_eq_self_iff]
    intro c hc
    rw [decide_eq_true_eq]
    obtain rfl | hplain := eq_or_isPlain_of_mem hwords hc
    · decide
    · exact (isPlain_iff.1 hplain).2
  rw [lineWords, hline, String.toList_intercalate, show " ".toList = [' '] by rfl,
    Text.words_intercalate (by decide)]
  · simp [Function.comp_def]
  · intro w hw
    obtain ⟨word, hword, rfl⟩ := List.mem_map.1 hw
    exact ⟨(hwords word hword).1, fun c hc => (isPlain_iff.1 ((hwords word hword).plain hc)).1⟩

/-- A text is cut into the lines that it was written with, and the empty line behind the last
    one. -/
theorem numberedLines_join {lines : List (List String)}
    (hlines : ∀ words ∈ lines, ∀ word ∈ words, IsWord word) :
    numberedLines (String.join (lines.map fun words => " ".intercalate words ++ "\n")).toList =
      ((lines ++ [[]]).zipIdx 1).map Prod.swap := by
  have htext : (String.join (lines.map fun words => " ".intercalate words ++ "\n")).toList =
      (lines.map fun words => (" ".intercalate words).toList).flatMap fun line =>
        line ++ ['\n'] := by
    rw [String.toList_join, List.flatMap_map, List.flatMap_map]
    simp [String.toList_append]
  have hbreaks : ∀ line ∈ lines.map fun words => (" ".intercalate words).toList, ∀ c ∈ line,
      (c == '\n') = false := by
    intro line hline c hc
    obtain ⟨words, hwords, rfl⟩ := List.mem_map.1 hline
    rw [beq_eq_false_iff_ne]
    rintro rfl
    have hplain := eq_or_isPlain_of_mem (hlines words hwords) hc
    revert hplain
    decide
  have hlast : [[]] = [[]].map fun words : List String => (" ".intercalate words).toList := by simp
  rw [numberedLines, htext, Text.pieces_flatMap_terminated (by decide) hbreaks, hlast,
    ← List.map_append, List.zipIdx_map, List.map_map]
  apply List.map_congr_left
  rintro ⟨words, n⟩ hmem
  have hwords : words ∈ lines ++ [[]] := by
    rw [← List.zipIdx_map_fst 1 (lines ++ [[]])]
    exact List.mem_map_of_mem hmem
  show (n, lineWords (" ".intercalate words).toList) = (n, words)
  rw [lineWords_intercalate]
  rw [List.mem_append, List.mem_singleton] at hwords
  rcases hwords with hwords | rfl
  · exact hlines words hwords
  · simp

/-! ## Reading lines -/

theorem readUInt8_ofNat (line : Nat) (n : UInt8) :
    readUInt8 line (Decimal.ofNat n.toNat) = .ok n := by
  have hread : Decimal.readUnsigned 255 (Decimal.natDigits n.toNat) = some n.toNat :=
    Decimal.readUnsigned_natDigits (Nat.le_of_lt_succ n.toNat_lt)
  simp [readUInt8, readUnsigned, Decimal.ofNat, hread, Except.map]

theorem readUInt16_ofNat (line : Nat) (n : UInt16) :
    readUInt16 line (Decimal.ofNat n.toNat) = .ok n := by
  have hread : Decimal.readUnsigned 65535 (Decimal.natDigits n.toNat) = some n.toNat :=
    Decimal.readUnsigned_natDigits (Nat.le_of_lt_succ n.toNat_lt)
  simp [readUInt16, readUnsigned, Decimal.ofNat, hread, Except.map]

theorem readHeader_header {f : Body} (hf : f.arity ≤ f.locals) (line k : Nat) :
    readHeader line (f.header k).tail = .ok ⟨functionName k, f.arity, f.locals, #[]⟩ := by
  have harity : Attributes.add line ⟨0, none⟩ ("arity=" ++ Decimal.ofNat f.arity.toNat) =
      .ok ⟨f.arity, none⟩ := by
    simp [Attributes.add, readUInt8_ofNat, Except.map]
  have hlocals : Attributes.add line ⟨f.arity, none⟩ ("locals=" ++ Decimal.ofNat f.locals.toNat) =
      .ok ⟨f.arity, some f.locals⟩ := by
    simp [Attributes.add, readUInt8_ofNat, Except.map]
  have hattributes : ["arity=" ++ Decimal.ofNat f.arity.toNat,
      "locals=" ++ Decimal.ofNat f.locals.toNat].foldlM (Attributes.add line) ⟨0, none⟩ =
        .ok ⟨f.arity, some f.locals⟩ := by
    simp only [List.foldlM_cons, harity, bind, Except.bind, hlocals]
    rfl
  rw [Body.header, List.tail_cons, readHeader, hattributes]
  exact if_neg (UInt8.not_lt.2 hf)

namespace Draft

variable {source : Source} {current : Definition}

theorem addLine_header {f : Body} (hf : f.arity ≤ f.locals) (line k : Nat) :
    addLine ⟨source, none⟩ line (f.header k) =
      .ok ⟨source, some ⟨functionName k, f.arity, f.locals, #[]⟩⟩ := by
  have hheader := readHeader_header hf line k
  rw [Body.header, List.tail_cons] at hheader
  simp [Body.header, addLine, hheader, Except.map]

theorem addLine_words (line : Nat) (i : Instr) :
    addLine ⟨source, some current⟩ line i.words =
      .ok (addItem ⟨source, some current⟩ current
        (.instr ⟨line, i.name, i.operand?.map Decimal.ofInt⟩)) := by
  obtain ⟨-, hdot, hlabel⟩ := mnemonic_plain i
  have hdirective : ∀ word : String, word.toList.head? = some '.' → i.name ≠ word := by
    rintro word hword rfl
    exact hdot hword
  have hname : ∀ rest, addLine ⟨source, some current⟩ line (i.name :: rest) =
      addInstr ⟨source, some current⟩ line i.name rest := by
    intro rest
    unfold addLine
    simp only [hdirective ".globals" (by decide), hdirective ".entry" (by decide),
      hdirective ".func" (by decide), hdirective ".end" (by decide), if_false]
    rw [if_neg hdot, if_neg (by simp [hlabel])]
  rw [Instr.words, hname]
  cases i.operand? <;> rfl

theorem addLine_end (line : Nat) :
    addLine ⟨source, some current⟩ line [".end"] =
      .ok ⟨{ source with functions := source.functions.push current }, none⟩ := by
  simp [addLine]

/-- Reads lines, of which the first one has the number `line`. -/
def addLines (draft : Draft) (line : Nat) (lines : List (List String)) : Except Error Draft :=
  (lines.zipIdx line).foldlM (fun draft x => draft.addLine x.2 x.1) draft

theorem addLines_cons {draft next : Draft} {line : Nat} {words : List String}
    (h : draft.addLine line words = .ok next) (lines : List (List String)) :
    draft.addLines line (words :: lines) = next.addLines (line + 1) lines := by
  rw [addLines, List.zipIdx_cons, List.foldlM_cons, h]
  rfl

theorem addLines_append {draft next : Draft} {line : Nat} {lines : List (List String)}
    (h : draft.addLines line lines = .ok next) (lines' : List (List String)) :
    draft.addLines line (lines ++ lines') = next.addLines (line + lines.length) lines' := by
  rw [addLines] at h
  rw [addLines, List.zipIdx_append, List.foldlM_append, h]
  rfl

end Draft

/-! ## The definitions of a written text -/

/-- The items of written instructions, the first of which stands in the given line. -/
def itemsFrom (line : Nat) (is : List Instr) : List Item :=
  (is.zipIdx line).map fun x => .instr ⟨x.2, x.1.name, x.1.operand?.map Decimal.ofInt⟩

/-- The definition of a function that is written from the given line on. -/
def Body.definition (k line : Nat) (f : Body) : Definition :=
  ⟨functionName k, f.arity, f.locals, (itemsFrom (line + 1) f.instrs).toArray⟩

/-- The definitions of functions that are written from the given line on. -/
def definitionsFrom (k line : Nat) : List Body → List Definition
  | [] => []
  | f :: fs => f.definition k line :: definitionsFrom (k + 1) (line + (f.lines k).length) fs

namespace Draft

theorem addLines_instrs (source : Source) (current : Definition) (line : Nat) (is : List Instr) :
    addLines ⟨source, some current⟩ line (is.map Instr.words) =
      .ok ⟨source, some { current with
        items := current.items ++ (itemsFrom line is).toArray }⟩ := by
  induction is generalizing current line with
  | nil => simp [addLines, itemsFrom, pure, Except.pure]
  | cons i is ih =>
    rw [List.map_cons, addLines_cons (addLine_words line i)]
    simp only [addItem]
    rw [ih]
    simp [itemsFrom]

/-- Reading the lines of a function adds its definition. -/
theorem addLines_lines {f : Body} (hf : f.arity ≤ f.locals) (source : Source) (k line : Nat) :
    addLines ⟨source, none⟩ line (f.lines k) =
      .ok ⟨{ source with functions := source.functions.push (f.definition k line) }, none⟩ := by
  rw [Body.lines, addLines_cons (addLine_header hf line k),
    addLines_append (addLines_instrs source _ (line + 1) f.instrs), addLines_cons (addLine_end _)]
  simp [addLines, Body.definition, pure, Except.pure]

theorem addLines_linesFrom {fs : List Body} (hfs : ∀ f ∈ fs, f.arity ≤ f.locals) (source : Source)
    (k line : Nat) :
    addLines ⟨source, none⟩ line (linesFrom k fs) =
      .ok ⟨{ source with
        functions := source.functions ++ (definitionsFrom k line fs).toArray }, none⟩ := by
  induction fs generalizing source k line with
  | nil => simp [addLines, linesFrom, definitionsFrom, pure, Except.pure]
  | cons f fs ih =>
    rw [List.forall_mem_cons] at hfs
    rw [linesFrom, List.zipIdx_cons, List.flatMap_cons,
      addLines_append (addLines_lines hfs.1 source k line)]
    have hrest := ih hfs.2 { source with
      functions := source.functions.push (f.definition k line) } (k + 1)
        (line + (f.lines k).length)
    rw [linesFrom] at hrest
    rw [hrest]
    simp [definitionsFrom]

end Draft

/-- A written text is read as the definitions of its functions. -/
theorem Source.parse_write {fs : List Body} (hfs : ∀ f ∈ fs, f.arity ≤ f.locals) :
    Source.parse (write fs) = .ok ⟨0, none, (definitionsFrom 0 1 fs).toArray⟩ := by
  have hlines : numberedLines (write fs).toList =
      ((linesFrom 0 fs ++ [[]]).zipIdx 1).map Prod.swap :=
    numberedLines_join fun words hwords word hword => isWord_of_mem_linesFrom hwords hword
  have hread : (numberedLines (write fs).toList).foldlM
      (fun (draft : Draft) (x : Nat × List String) => draft.addLine x.1 x.2) Draft.empty =
        .ok ⟨⟨0, none, (definitionsFrom 0 1 fs).toArray⟩, none⟩ := by
    rw [hlines, List.foldlM_map]
    have hfunctions := Draft.addLines_linesFrom hfs ⟨0, none, #[]⟩ 0 1
    have hall := Draft.addLines_append hfunctions [[]]
    rw [Draft.addLines_cons rfl] at hall
    refine hall.trans ?_
    simp [Draft.addLines, pure, Except.pure]
  rw [Source.parse]
  simp only [hread]

/-! ## Names -/

theorem functionName_injective : Function.Injective functionName := by
  intro j k h
  have hchars := congrArg String.toList h
  simp only [functionName, Decimal.ofNat, String.toList_append, String.toList_ofList,
    List.append_cancel_left_eq] at hchars
  exact Decimal.natDigits_injective hchars

/-- The names of written functions, as many as `count` says. -/
structure Names.Written (count : Nat) (names : Names) : Prop where
  length : names.length = count
  name : ∀ entry ∈ names, ∃ k < count, entry.1 = functionName k

theorem Names.Written.cons {count : Nat} {names : Names} (h : names.Written count) :
    Names.Written (count + 1) ((functionName count, UInt16.ofNat count) :: names) := by
  refine ⟨by rw [List.length_cons, h.length], ?_⟩
  intro entry hentry
  rcases List.mem_cons.1 hentry with rfl | hentry
  · exact ⟨count, Nat.lt_succ_self count, rfl⟩
  · obtain ⟨k, hk, hname⟩ := h.name entry hentry
    exact ⟨k, Nat.lt_succ_of_lt hk, hname⟩

theorem Names.Written.lookup_eq_none {count : Nat} {names : Names} (h : names.Written count)
    {word : String} (hword : ∀ k < count, word ≠ functionName k) : names.lookup word = none := by
  rw [List.lookup_eq_none_iff]
  intro entry hentry
  obtain ⟨k, hk, hname⟩ := h.name entry hentry
  rw [hname]
  simpa using hword k hk

/-- Every written function is entered under its name. -/
theorem Names.Written.numbered {k : Nat} {names : Names} (h : names.Written k) (line : Nat)
    (fs : List Body) :
    ∃ names', ((definitionsFrom k line fs).zipIdx k).foldlM (fun names x =>
        if (names.lookup x.1.name).isSome then Except.error (Error.duplicateFunction x.1.name)
        else .ok ((x.1.name, UInt16.ofNat x.2) :: names)) names = .ok names' ∧
      names'.Written (k + fs.length) := by
  induction fs generalizing k names line with
  | nil => exact ⟨names, rfl, h⟩
  | cons f fs ih =>
    have hnew : names.lookup (functionName k) = none := by
      apply h.lookup_eq_none
      intro j hj heq
      exact absurd (functionName_injective heq) hj.ne'
    obtain ⟨names', hfold, hnames'⟩ := ih h.cons (line + (f.lines k).length)
    refine ⟨names', ?_, ?_⟩
    · rw [definitionsFrom, List.zipIdx_cons, List.foldlM_cons]
      simp only [Body.definition, hnew, Option.isSome_none, Bool.false_eq_true, if_false]
      exact hfold
    · rw [List.length_cons]
      rwa [Nat.add_right_comm, Nat.add_assoc] at hnames'

theorem exists_namesOf (fs : List Body) :
    ∃ names, namesOf (definitionsFrom 0 1 fs) = .ok names ∧ names.Written fs.length := by
  have hempty : Names.Written 0 [] := ⟨rfl, by simp⟩
  obtain ⟨names, hfold, hnames⟩ := hempty.numbered 1 fs
  rw [Nat.zero_add] at hnames
  exact ⟨names, hfold, hnames⟩

/-! ## Instructions -/

/-- A numeral is not the name of a written function. -/
theorem ofNat_ne_functionName (n k : Nat) : Decimal.ofNat n ≠ functionName k := by
  intro h
  have hchars := congrArg String.toList h
  rw [Decimal.ofNat, functionName, String.toList_append, String.toList_ofList] at hchars
  exact Decimal.natDigits_ne_cons (by decide) hchars

theorem resolveFunction_ofNat {count : Nat} {names : Names} (hnames : names.Written count)
    {callee : UInt16} (hcallee : callee.toNat < count) (line : Nat) :
    resolveFunction names line (Decimal.ofNat callee.toNat) = .ok callee := by
  have hname : names.lookup (Decimal.ofNat callee.toNat) = none :=
    hnames.lookup_eq_none fun k _ => ofNat_ne_functionName callee.toNat k
  have hread : Decimal.readUnsigned 65535 (Decimal.ofNat callee.toNat).toList =
      some callee.toNat := by
    rw [Decimal.ofNat, String.toList_ofList]
    exact Decimal.readUnsigned_natDigits (Nat.le_of_lt_succ callee.toNat_lt)
  rw [resolveFunction, hname]
  simp only [hread, hnames.length, if_pos hcallee, UInt16.ofNat_toNat]

/-- Without labels a numeral is the offset of a jump. -/
theorem resolveJump_ofInt (line next : Nat) (offset : Int32) :
    resolveJump [] line next (Decimal.ofInt offset.toInt) = .ok offset := by
  have hread : Decimal.readInt64 (Decimal.ofInt offset.toInt).toList = some offset.toInt64 := by
    rw [Decimal.ofInt, String.toList_ofList, ← Int32.toInt_toInt64]
    exact Decimal.readInt64_intDigits offset.toInt64
  have hmin := offset.le_toInt
  have hmax := offset.toInt_lt
  rw [resolveJump]
  simp only [List.lookup_nil, hread, Int32.toInt_toInt64, Int32.ofInt_toInt]
  rw [if_pos (by omega)]

/-- Every operand is read as the number that it was. -/
theorem resolve_statement {count : Nat} {names : Names} (hnames : names.Written count) {i : Instr}
    (hinteger : i.opcode ≠ .pushDouble) (hcalls : i.CallsWithin count) (line pc : Nat) :
    resolve names [] pc ⟨line, i.name, i.operand?.map Decimal.ofInt⟩ = .ok i := by
  have hoperand {word : String} (hplain : Instr.ofPlainName? i.name = none)
      (hword : i.operand?.map Decimal.ofInt = some word)
      (hread : resolveOperand names [] line pc i.name word = .ok i) :
      resolve names [] pc ⟨line, i.name, i.operand?.map Decimal.ofInt⟩ = .ok i := by
    rw [resolve, hword]
    simp only [hplain, hread]
  have hplain (hsize : i.opcode.operandSize = 0) (hnone : i.operand? = none) :
      resolve names [] pc ⟨line, i.name, i.operand?.map Decimal.ofInt⟩ = .ok i := by
    rw [resolve, hnone]
    simp only [Instr.ofPlainName?_name hsize, Option.map_none]
  cases i with
  | pushInt n =>
    have hread : Decimal.readInt64 (Decimal.ofInt n.toInt).toList = some n := by
      rw [Decimal.ofInt, String.toList_ofList]
      exact Decimal.readInt64_intDigits n
    refine hoperand rfl rfl ?_
    simp [resolveOperand, Instr.name, Instr.opcode, Opcode.name, hread]
  | pushDouble pattern => exact absurd rfl hinteger
  | jump branch offset =>
    refine hoperand (ofPlainName?_branch branch) rfl ?_
    show resolveOperand names [] line pc branch.name _ = _
    rw [resolveOperand_branch, resolveJump_ofInt]
    rfl
  | call callee =>
    refine hoperand rfl rfl ?_
    simp [resolveOperand, Instr.name, Instr.opcode, Opcode.name, Decimal.ofInt_natCast,
      resolveFunction_ofNat hnames (hcalls callee rfl), Except.map]
  | loadLocal index | storeLocal index =>
    refine hoperand rfl rfl ?_
    simp [resolveOperand, Instr.name, Instr.opcode, Opcode.name, Decimal.ofInt_natCast,
      readUInt8_ofNat, Except.map]
  | loadGlobal index | storeGlobal index =>
    refine hoperand rfl rfl ?_
    simp [resolveOperand, Instr.name, Instr.opcode, Opcode.name, Decimal.ofInt_natCast,
      readUInt16_ofNat, Except.map]
  | _ => exact hplain rfl rfl

/-! ## Functions -/

/-- What the first pass makes of written instructions. -/
def Places (is : List Instr) (placed : List (Nat × Statement)) : Prop :=
  List.Forall₂ (fun i x => ∃ line, x.2 = ⟨line, i.name, i.operand?.map Decimal.ofInt⟩) is placed

/-- The first pass places the instructions and finds no label. -/
theorem exists_foldlM_add (layout : Layout) (line : Nat) (is : List Instr) :
    ∃ layout' placed, (itemsFrom line is).foldlM Layout.add layout = .ok layout' ∧
      layout'.labels = layout.labels ∧ layout'.placed.toList = layout.placed.toList ++ placed ∧
      Places is placed := by
  induction is generalizing layout line with
  | nil => exact ⟨layout, [], rfl, rfl, by simp, .nil⟩
  | cons i is ih =>
    obtain ⟨layout', placed, hfold, hlabels, hplaced, hplaces⟩ := ih { layout with
      placed := layout.placed.push (layout.size, ⟨line, i.name, i.operand?.map Decimal.ofInt⟩)
      size := layout.size + i.size } (line + 1)
    refine ⟨layout', (layout.size, ⟨line, i.name, i.operand?.map Decimal.ofInt⟩) :: placed,
      ?_, hlabels, ?_, .cons ⟨line, rfl⟩ hplaces⟩
    · -- all that the first pass needs of the placeholder is its opcode
      obtain ⟨j, hj, hopcode⟩ := Option.map_eq_some_iff.1 i.opcode.ofName?_name
      have hsize : j.size = i.size := congrArg Opcode.size hopcode
      rw [itemsFrom, List.zipIdx_cons, List.map_cons, List.foldlM_cons]
      simp only [Layout.add, Instr.name, hj, hsize]
      exact hfold
    · rw [hplaced]
      simp

theorem mapM_of_forall₂ {ε α β : Type} {f : α → Except ε β} {xs : List α} {ys : List β}
    (h : List.Forall₂ (fun y x => f x = .ok y) ys xs) : xs.mapM f = .ok ys := by
  induction h with
  | nil => rfl
  | cons hx _ ih =>
    rw [List.mapM_cons, hx, ih]
    rfl

/-- The definition of a written function has the instructions that were written. -/
theorem instrs_definition {count : Nat} {names : Names} (hnames : names.Written count) {f : Body}
    (hf : f.Writable count) (k line : Nat) : (f.definition k line).instrs names = .ok f.instrs := by
  obtain ⟨layout, placed, hfold, hlabels, hplaced, hplaces⟩ :=
    exists_foldlM_add ⟨[], #[], 0⟩ (line + 1) f.instrs
  have hlayout : (f.definition k line).layout = .ok layout := hfold
  rw [Definition.instrs, hlayout]
  simp only [hlabels, hplaced, List.nil_append]
  have hall : ∀ i ∈ f.instrs, i.opcode ≠ .pushDouble ∧ i.CallsWithin count :=
    fun i hi => ⟨hf.integral i hi, hf.calls i hi⟩
  refine mapM_of_forall₂ (((List.forall₂_and_left _ _).2 ⟨hall, hplaces⟩).imp ?_)
  rintro i ⟨pc, s⟩ ⟨⟨hinteger, hcalls⟩, n, hx⟩
  obtain rfl : s = _ := hx
  exact resolve_statement hnames hinteger hcalls n pc

theorem mapM_assemble {count : Nat} {names : Names} (hnames : names.Written count) {fs : List Body}
    (hfs : ∀ f ∈ fs, f.Writable count) (k line : Nat) :
    ((definitionsFrom k line fs).zipIdx k).mapM (fun x => x.1.assemble names x.2) =
      .ok (functionsFrom k fs) := by
  induction fs generalizing k line with
  | nil => rfl
  | cons f fs ih =>
    rw [List.forall_mem_cons] at hfs
    have hf : (f.definition k line).assemble names k =
        .ok ⟨UInt16.ofNat k, f.arity, f.locals, Code.ofInstrs f.instrs⟩ := by
      rw [Definition.assemble, instrs_definition hnames hfs.1]
      rfl
    rw [definitionsFrom, List.zipIdx_cons, List.mapM_cons, hf,
      ih hfs.2 (k + 1) (line + (f.lines k).length)]
    rfl

/-- **Every program can be written as text.** Take a list of functions, not empty and not longer
    than functions can be numbered, each with at least as many locals as parameters, without
    operands that are doubles and with calls of functions in the list only. Assembly accepts the
    text that they are written as, and the image has the functions in order, with their arities,
    locals and instructions. -/
theorem assemble_write {fs : List Body} (hne : fs ≠ []) (hcount : fs.length ≤ 65535)
    (hfs : ∀ f ∈ fs, f.Writable fs.length) :
    assemble (write fs) = .ok (imageOf fs) ∧
      ∀ (k : Nat) (f : Body), fs[k]? = some f → ∃ g, (imageOf fs).functions[k]? = some g ∧
        g.index.toNat = k ∧ g.arity = f.arity ∧ g.locals = f.locals ∧
        g.code = Code.ofInstrs f.instrs := by
  constructor
  · obtain ⟨names, hnamesOf, hnames⟩ := exists_namesOf fs
    have hparse := Source.parse_write (fun f hf => (hfs f hf).roomy)
    have hfunctions : (definitionsFrom 0 1 fs).isEmpty = false := by
      cases fs with
      | nil => exact absurd rfl hne
      | cons f fs => rfl
    rw [assemble, hparse]
    simp only [Source.assemble, hfunctions, hnamesOf, mapM_assemble hnames hfs 0 1]
    rfl
  · intro k f hf
    have hk : k < fs.length := (List.getElem?_eq_some_iff.1 hf).1
    refine ⟨⟨UInt16.ofNat k, f.arity, f.locals, Code.ofInstrs f.instrs⟩, ?_, ?_, rfl, rfl, rfl⟩
    · simp [imageOf, functionsFrom, hf]
    · exact UInt16.toNat_ofNat_of_lt (show k < 65536 by omega)

/-- Two functions that call each other. The first one also jumps back to its start. -/
def calling : List Body :=
  [⟨0, 1, [.pushInt (-7), .call 1, .jump .ifNotZero (-17), .halt]⟩,
    ⟨1, 2, [.loadLocal 0, .storeGlobal 300, .call 0, .binary .add, .ret]⟩]

theorem assemble_write_calling :
    write calling = ".func f0 arity=0 locals=1\npush_int -7\ncall 1\njnz -17\nhalt\n.end\n" ++
        ".func f1 arity=1 locals=2\nload_local 0\nstore_global 300\ncall 0\nadd\nret\n.end\n" ∧
      (∀ f ∈ calling, f.Writable calling.length) ∧
      assemble (write calling) = .ok (imageOf calling) := by
  have hcalling : ∀ f ∈ calling, f.Writable calling.length := by
    intro f hf
    simp only [calling, List.mem_cons, List.not_mem_nil, or_false] at hf
    rcases hf with rfl | rfl
    · exact ⟨by decide, by decide, by simp [Instr.CallsWithin, calling]⟩
    · exact ⟨by decide, by decide, by simp [Instr.CallsWithin, calling]⟩
  exact ⟨by decide +kernel, hcalling, (assemble_write (by simp [calling]) (by decide) hcalling).1⟩

end Assembly

end StackMachine
