import StackMachine.Proofs.Assembly.Labels

/-!
# From lines to code

An instruction line becomes one instruction of the code, and a jump to a label leads to the
instruction of the next instruction line behind the label. Both are said of the lines of the text:
`bodies` cuts them at each `.end` and does not keep a draft as reading does.

* `Source.bodies_of_parse`: reading finds the bodies of the functions.
* `Definition.name_of_instrs`: assembling keeps the mnemonics, one by one.
* `Definition.jump_of_instrs`: a jump to a label leads to the place of the label.
* `lines_resolved`: all of it, for every text that can be assembled.
-/

namespace StackMachine

namespace Assembly

/-! ## The lines of a function -/

/-- The line closes a function. -/
def closes (words : List String) : Bool := words.head? == some ".end"

/-- The label or the instruction of a line. A directive starts with a dot. -/
def item? (line : Nat) : List String → Option Item
  | [] => none
  | first :: rest =>
    if first.toList.head? = some '.' then none
    else if Draft.isLabel first && rest.isEmpty then
      some (.label line (String.ofList (Draft.labelName first)))
    else some (.instr ⟨line, first, rest.head?⟩)

/-- The labels and instructions of lines, cut where a function is closed. -/
def segments (lines : List (Nat × List String)) : List (List Item) :=
  (lines.splitOnP fun line => closes line.2).map (List.filterMap fun line => item? line.1 line.2)

/-- The labels and instructions of each function: those of the lines up to its `.end`. Behind the
    last `.end` there are none. -/
def bodies (text : String) : List (List Item) := (segments (numberedLines text.toList)).dropLast

theorem segments_cons (line : Nat × List String) (lines : List (Nat × List String)) :
    segments (line :: lines) = if closes line.2 then [] :: segments lines
      else (segments lines).modifyHead ((item? line.1 line.2).toList ++ ·) := by
  rw [segments, segments, List.splitOnP_cons_eq_if_modifyHead]
  split_ifs
  · rfl
  · cases lines.splitOnP fun line => closes line.2 with
    | nil => rfl
    | cons piece pieces => cases hitem : item? line.1 line.2 <;> simp [hitem]

namespace Draft

/-- The bodies of the functions that are finished. -/
def finished (draft : Draft) : List (List Item) :=
  draft.source.functions.toList.map fun f => f.items.toList

/-- The body of the open function as far as it is read. -/
def pending (draft : Draft) : List Item :=
  (draft.current.map fun f => f.items.toList).getD []

theorem items_of_readHeader {line : Nat} {words : List String} {f : Definition}
    (h : readHeader line words = .ok f) : f.items = #[] := by
  cases words with
  | nil => cases h
  | cons name words =>
    simp only [readHeader] at h
    split at h
    · cases h
    · split_ifs at h
      obtain rfl := Except.ok.inj h
      rfl

theorem pending_of_addLabel {draft next : Draft} {line : Nat} {word : String}
    (h : draft.addLabel line word = .ok next) :
    next.finished = draft.finished ∧
      next.pending = draft.pending ++ [.label line (String.ofList (labelName word))] := by
  simp only [addLabel] at h
  split at h
  · cases h
  next current hcurrent =>
    split_ifs at h
    obtain rfl := Except.ok.inj h
    exact ⟨rfl, by simp [pending, addItem, hcurrent]⟩

theorem pending_of_addInstr {draft next : Draft} {line : Nat} {mnemonic : String}
    {operands : List String} (h : draft.addInstr line mnemonic operands = .ok next) :
    next.finished = draft.finished ∧
      next.pending = draft.pending ++ [.instr ⟨line, mnemonic, operands.head?⟩] := by
  simp only [addInstr] at h
  split at h
  · cases h
  next current hcurrent =>
    split at h <;> cases h <;> exact ⟨rfl, by simp [pending, addItem, hcurrent]⟩

/-- What one line does to the finished bodies and to the pending one. -/
def Adds (draft next : Draft) (line : Nat) (words : List String) : Prop :=
  if closes words then next.finished = draft.finished ++ [draft.pending] ∧ next.pending = []
  else next.finished = draft.finished ∧
    next.pending = draft.pending ++ (item? line words).toList

theorem adds_of_directive {draft next : Draft} {line : Nat} {first : String} {rest : List String}
    (hdot : first.toList.head? = some '.') (hopen : first ≠ ".end")
    (hfinished : next.finished = draft.finished) (hpending : next.pending = draft.pending) :
    Adds draft next line (first :: rest) := by
  have hcloses : closes (first :: rest) = false := by simpa [closes] using hopen
  rw [Adds, hcloses]
  exact ⟨hfinished, by simp [item?, hdot, hpending]⟩

theorem adds_of_addLine {draft next : Draft} {line : Nat} {words : List String}
    (h : draft.addLine line words = .ok next) : Adds draft next line words := by
  cases words with
  | nil =>
    obtain rfl := Except.ok.inj h
    exact ⟨rfl, (List.append_nil _).symm⟩
  | cons first rest =>
    rw [Draft.addLine.eq_def] at h
    dsimp only at h
    split_ifs at h with hglobals hentry hfunc hend hdot hlabel
    · subst hglobals
      split at h
      · cases h
      · obtain ⟨n, -, rfl⟩ := exists_of_map_eq_ok h
        exact adds_of_directive rfl (by decide) rfl rfl
    · subst hentry
      split at h
      · cases h
      · cases h
        exact adds_of_directive rfl (by decide) rfl rfl
    · subst hfunc
      split at h
      · cases h
      next hnone =>
        obtain ⟨f, hf, rfl⟩ := exists_of_map_eq_ok h
        refine adds_of_directive rfl (by decide) rfl ?_
        simp [pending, hnone, items_of_readHeader hf]
    · subst hend
      split at h
      · cases h
      next f hcurrent =>
        cases h
        exact ⟨by simp [finished, pending, hcurrent], rfl⟩
    all_goals
      have hcloses : closes (first :: rest) = false := by simpa [closes] using hend
      rw [Adds, hcloses]
    · simpa [item?, hdot, hlabel] using pending_of_addLabel h
    · simpa [item?, hdot, hlabel] using pending_of_addInstr h

/-- Reading lines from a draft on goes on with its pending body. -/
theorem bodies_of_foldlM {lines : List (Nat × List String)} {draft last : Draft}
    (h : lines.foldlM (fun d line => d.addLine line.1 line.2) draft = .ok last) :
    last.finished ++ [last.pending] =
      draft.finished ++ (segments lines).modifyHead (draft.pending ++ ·) := by
  induction lines generalizing draft with
  | nil =>
    obtain rfl := Except.ok.inj h
    simp [segments]
  | cons line lines ih =>
    rw [List.foldlM_cons] at h
    cases hnext : draft.addLine line.1 line.2 with
    | error e =>
      rw [hnext] at h
      cases h
    | ok next =>
      rw [hnext] at h
      have hadds := adds_of_addLine hnext
      rw [Adds] at hadds
      rw [ih h, segments_cons]
      split_ifs at hadds ⊢ with hcloses
      · rw [hadds.1, hadds.2]
        cases segments lines <;> simp
      · rw [hadds.1, hadds.2]
        cases segments lines <;> simp

end Draft

theorem Source.bodies_of_parse {text : String} {source : Source}
    (h : Source.parse text = .ok source) :
    source.functions.toList.map (fun f => f.items.toList) = bodies text := by
  rw [Source.parse] at h
  split at h
  · cases h
  next last hlast =>
    have hbodies := Draft.bodies_of_foldlM hlast
    split at h
    · cases h
    next hnone =>
      obtain rfl := Except.ok.inj h
      have hsegments : segments (numberedLines text.toList) = last.finished ++ [[]] := by
        rw [Draft.pending, hnone] at hbodies
        refine Eq.trans ?_ hbodies.symm
        cases segments (numberedLines text.toList) <;> rfl
      rw [bodies, hsegments, List.dropLast_concat]
      rfl

/-! ## The instructions of a function -/

section Passes

variable {f : Definition} {names : Names} {is : List Instr}

/-- The instruction of a statement is at the same position, and is what the second pass makes of
    it with the labels of the first. -/
theorem Definition.resolve_of_instrs (h : f.instrs names = .ok is) :
    ∃ layout : Layout, layout.Reads f.items.toList ∧ is.map Instr.opcode = layout.opcodes ∧
      ∀ (n : Nat) (s : Statement), (f.items.toList.filterMap Item.statement?)[n]? = some s →
        ∃ i, is[n]? = some i ∧
          resolve names layout.labels (Opcode.extent (layout.opcodes.take n)) s = .ok i := by
  rw [Definition.instrs] at h
  split at h
  · cases h
  next layout hlayout =>
    have hreads := Definition.reads_of_layout hlayout
    refine ⟨layout, hreads, opcodes_of_mapM h, ?_⟩
    intro n s hs
    rw [← hreads.statements, List.getElem?_map, Option.map_eq_some_iff] at hs
    obtain ⟨⟨pc, s⟩, hplaced, rfl⟩ := hs
    have hn : n < is.length := by
      rw [← (forall₂_of_mapM h).length_eq]
      exact (List.getElem?_eq_some_iff.1 hplaced).1
    obtain ⟨x, hx, hresolve⟩ := getElem?_of_mapM h (List.getElem?_eq_getElem hn)
    obtain rfl := Option.some.inj (hplaced.symm.trans hx)
    refine ⟨is[n], List.getElem?_eq_getElem hn, ?_⟩
    rw [← hreads.offsets n _ hplaced]
    exact hresolve

/-- Each statement gives one instruction with its mnemonic. -/
theorem Definition.name_of_instrs (h : f.instrs names = .ok is) :
    is.map Instr.name = (f.items.toList.filterMap Item.statement?).map Statement.mnemonic := by
  obtain ⟨layout, hreads, hopcodes, hresolve⟩ := Definition.resolve_of_instrs h
  have hlength : is.length = (f.items.toList.filterMap Item.statement?).length := by
    rw [← hreads.length_opcodes, ← hopcodes, List.length_map]
  apply List.ext_getElem?
  intro n
  rw [List.getElem?_map, List.getElem?_map]
  cases hs : (f.items.toList.filterMap Item.statement?)[n]? with
  | none =>
    rw [List.getElem?_eq_none_iff, ← hlength, ← List.getElem?_eq_none_iff] at hs
    rw [hs]
    rfl
  | some s =>
    obtain ⟨i, hi, hresolve⟩ := hresolve n s hs
    rw [hi, Option.map_some, Option.map_some, name_of_resolve hresolve]

/-- A jump to a label leads behind the statements before the label. -/
theorem Definition.jump_of_instrs (h : f.instrs names = .ok is) {before after : List Item}
    {line n : Nat} {word : String} {s : Statement} {branch : Branch}
    (hlabel : f.items.toList = before ++ .label line word :: after)
    (hs : (f.items.toList.filterMap Item.statement?)[n]? = some s)
    (hoperand : s.operand = some word) (hname : s.mnemonic = branch.name) :
    ∃ offset, is[n]? = some (.jump branch offset) ∧
      Code.jumpPlace (Opcode.extent ((is.map Instr.opcode).take n) +
        (Instr.jump branch offset).size) offset =
      (Opcode.extent ((is.map Instr.opcode).take (before.filterMap Item.statement?).length) :
        Nat) := by
  obtain ⟨layout, hreads, hopcodes, hresolve⟩ := Definition.resolve_of_instrs h
  obtain ⟨i, hi, hresolve⟩ := hresolve n s hs
  have hopcode : i.opcode = .jump branch := by
    rw [opcode_of_resolve hresolve]
    exact Statement.opcode_of_ofName? (hname ▸ Opcode.ofName?_name (.jump branch))
  obtain ⟨offset, rfl⟩ : ∃ offset, i = .jump branch offset := by
    cases i <;> cases hopcode
    exact ⟨_, rfl⟩
  refine ⟨offset, hi, ?_⟩
  rw [hopcodes]
  exact jumpPlace_of_resolve hoperand (hreads.labels before line word after hlabel) hresolve

end Passes

end Assembly

/-! ## The code of a function -/

namespace Code

/-- The offset of the instruction with number `n`, or the end of the code if there is none. -/
def start (code : Code) (n : Nat) : Nat := (code.sweep.instrs[n]?.map Prod.fst).getD code.size

theorem start_ofInstrs (is : List Instr) (n : Nat) :
    (ofInstrs is).start n = Opcode.extent ((is.map Instr.opcode).take n) := by
  rw [start, sweep_ofInstrs, Instr.getElem?_placed, size_ofInstrs]
  rcases Nat.lt_or_ge n is.length with hn | hn
  · simp [List.getElem?_eq_getElem hn]
  · rw [List.getElem?_eq_none hn, List.take_of_length_le (by simpa using hn)]
    rfl

end Code

open Assembly in
/-- **Lines become code.** Every function of a text that is assembled has one instruction for each
    of its instruction lines, in order and with the mnemonic of the line. A jump whose operand is a
    label leads to the instruction of the first instruction line behind the label, or to the end of
    the code if there is none. -/
theorem lines_resolved {text : String} {image : Image} (h : assemble text = .ok image) :
    image.functions.size = (bodies text).length ∧
    ∀ (k : Nat) (items : List Item), (bodies text)[k]? = some items →
      ∃ f, image.functions[k]? = some f ∧ f.code.sweep.stuck = none ∧
        f.code.sweep.instrs.map (fun placed => placed.2.name) =
          (items.filterMap Item.statement?).map Statement.mnemonic ∧
        ∀ (before after : List Item) (line n : Nat) (word : String) (s : Statement)
          (branch : Branch), items = before ++ .label line word :: after →
          (items.filterMap Item.statement?)[n]? = some s → s.operand = some word →
          s.mnemonic = branch.name →
          ∃ pc offset, f.code.sweep.instrs[n]? = some (pc, .jump branch offset) ∧
            Code.jumpTarget (pc + (Instr.jump branch offset).size) offset f.code.size =
              .ok (f.code.start (before.filterMap Item.statement?).length) := by
  rw [assemble] at h
  split at h
  · cases h
  next source hsource =>
    rw [← Source.bodies_of_parse hsource]
    refine ⟨by rw [Source.size_of_assemble h, List.length_map, Array.length_toList], ?_⟩
    intro k items hitems
    rw [List.getElem?_map, Option.map_eq_some_iff] at hitems
    obtain ⟨d, hd, rfl⟩ := hitems
    rw [Array.getElem?_toList] at hd
    obtain ⟨names, is, his, hf⟩ := Source.function_of_assemble h hd
    refine ⟨_, hf, ?_⟩
    dsimp only
    rw [Code.sweep_ofInstrs]
    refine ⟨rfl, ?_, ?_⟩
    · rw [← Definition.name_of_instrs his]
      conv_rhs => rw [← Instr.map_snd_placed 0 is, List.map_map]
      rfl
    · intro before after line n word s branch hlabel hs hoperand hname
      obtain ⟨offset, hi, hplace⟩ :=
        Definition.jump_of_instrs his hlabel hs hoperand hname
      refine ⟨Opcode.extent ((is.map Instr.opcode).take n), offset, ?_, ?_⟩
      · rw [Instr.getElem?_placed, hi, Nat.zero_add]
        rfl
      · have hle := Opcode.extent_take_le (is.map Instr.opcode)
          (before.filterMap Item.statement?).length
        rw [Code.jumpTarget, hplace, Code.start_ofInstrs, Code.size_ofInstrs, if_neg (by omega)]
        rfl

/-- A text with labels that look like numbers, two of them at one place and one at the end. -/
def Assembly.numbered : String :=
  ".func main\n jmp 9\n7:\n8:\n push_int 8\n jz 7\n jnz 8\n9:\n.end\n"

/-- The image of that text. -/
def Assembly.numberedImage : Image :=
  ⟨Image.formatVersion, 0, 0, #[⟨0, 0, 0, Code.ofInstrs
    [.jump .always 19, .pushInt 8, .jump .ifZero (-14), .jump .ifNotZero (-19)]⟩]⟩

theorem lines_resolved_numbered :
    assemble Assembly.numbered = .ok Assembly.numberedImage ∧
    ∃ (items : List Assembly.Item) (f : Image.Function),
      (Assembly.bodies Assembly.numbered)[0]? = some items ∧
      Assembly.numberedImage.functions[0]? = some f ∧
      f.code.sweep.instrs.map (fun placed => placed.2.name) =
        ["jmp", "push_int", "jz", "jnz"] ∧
      ∃ (pc : Nat) (offset : Int32),
        f.code.sweep.instrs[3]? = some (pc, .jump .ifNotZero offset) ∧
        Code.jumpTarget (pc + (Instr.jump .ifNotZero offset).size) offset f.code.size =
          .ok (f.code.start 1) := by
  let before : List Assembly.Item := [.instr ⟨2, "jmp", some "9"⟩, .label 3 "7"]
  let after : List Assembly.Item := [.instr ⟨5, "push_int", some "8"⟩,
    .instr ⟨6, "jz", some "7"⟩, .instr ⟨7, "jnz", some "8"⟩, .label 8 "9"]
  have h : assemble Assembly.numbered = .ok Assembly.numberedImage := by decide +kernel
  have hitems : (Assembly.bodies Assembly.numbered)[0]? =
      some (before ++ .label 4 "8" :: after) := by
    decide +kernel
  obtain ⟨f, hf, -, hnames, hjumps⟩ := (lines_resolved h).2 0 _ hitems
  exact ⟨h, _, f, hitems, hf, hnames,
    hjumps before after 4 3 "8" ⟨7, "jnz", some "8"⟩ .ifNotZero rfl rfl rfl rfl⟩

end StackMachine
