import StackMachine.Proofs.Assembly.WellFormed
import StackMachine.Proofs.Native.Compilable

/-!
# Labels

The first pass over a function knows no more of an instruction than its opcode. It gives a label the
sum of the sizes of the opcodes before it, and the second pass keeps the opcodes, so a label stands
where an instruction of the finished code starts or where the code ends. A function that jumps to
its labels only can therefore be compiled.

* `Layout.Reads`, `reads_of_layout`: what the first pass finds out.
* `name_of_resolve`: the second pass keeps the mnemonics, and so the opcodes.
* `Code.isBoundary_ofInstrs`: where the instructions of finished code start.
* `compile_of_jumpsToLabels`: functions that jump to labels can be compiled.
-/

namespace StackMachine

/-! ## Sums of sizes -/

/-- The number of bytes that instructions with these opcodes take. -/
def Opcode.extent (ops : List Opcode) : Nat := (ops.map Opcode.size).sum

theorem Opcode.extent_append (ops ops' : List Opcode) :
    Opcode.extent (ops ++ ops') = Opcode.extent ops + Opcode.extent ops' := by
  simp [Opcode.extent]

theorem Opcode.extent_take_le (ops : List Opcode) (n : Nat) :
    Opcode.extent (ops.take n) ≤ Opcode.extent ops := by
  conv_rhs => rw [← List.take_append_drop n ops, Opcode.extent_append]
  omega

/-- An instruction of a list stands behind all before it. -/
theorem Instr.getElem?_placed (pc : Nat) (is : List Instr) (k : Nat) :
    (Instr.placed pc is)[k]? = is[k]?.map fun i =>
      (pc + Opcode.extent ((is.map Instr.opcode).take k), i) := by
  induction is generalizing pc k with
  | nil => rfl
  | cons i is ih =>
    cases k with
    | zero => rfl
    | succ k =>
      show (Instr.placed (pc + i.size) is)[k]? = _
      rw [ih]
      simp [Opcode.extent, Instr.size, Nat.add_assoc]

namespace Code

theorem size_ofInstrs (is : List Instr) :
    (ofInstrs is).size = Opcode.extent (is.map Instr.opcode) := by
  simp [ofInstrs, Opcode.extent, List.length_flatMap, Function.comp_def, Instr.length_encode,
    Instr.size]

/-- The instructions of code start where those before them end, and the last one ends where the code
    does. -/
theorem isBoundary_ofInstrs (is : List Instr) (n : Nat) :
    (ofInstrs is).IsBoundary (Opcode.extent ((is.map Instr.opcode).take n)) := by
  rcases Nat.lt_or_ge n is.length with hn | hn
  · left
    refine ⟨is[n], ?_⟩
    rw [sweep_ofInstrs]
    apply List.mem_of_getElem? (i := n)
    rw [Instr.getElem?_placed, List.getElem?_eq_getElem hn]
    simp
  · right
    rw [size_ofInstrs, List.take_of_length_le (by simpa using hn)]

end Code

/-! ## The first pass -/

/-- What holds of the start and of one round more holds of the whole loop, where `P` is also told
    what was read so far. -/
theorem foldlM_reads {ε α β : Type} {P : List α → β → Prop} {f : β → α → Except ε β}
    (hstep : ∀ done b a b', P done b → f b a = .ok b' → P (done ++ [a]) b') {xs : List α}
    {b b' : β} (hb : P [] b) (h : xs.foldlM f b = .ok b') : P xs b' := by
  induction xs using List.reverseRecOn generalizing b' with
  | nil =>
    obtain rfl := Except.ok.inj h
    exact hb
  | append_singleton xs a ih =>
    rw [List.foldlM_append] at h
    cases hxs : xs.foldlM f b with
    | error e =>
      rw [hxs] at h
      cases h
    | ok next =>
      rw [hxs] at h
      simp only [List.foldlM_cons, List.foldlM_nil, bind_pure] at h
      exact hstep xs next a b' (ih hxs) h

namespace Assembly

/-- The instruction line, if an item is one. -/
def Item.statement? : Item → Option Statement
  | .instr s => some s
  | .label _ _ => none

/-- The name of the label, if an item is one. -/
def Item.label? : Item → Option String
  | .instr _ => none
  | .label _ name => some name

/-- The opcode of the mnemonic. What the first pass has placed has one. -/
def Statement.opcode (s : Statement) : Opcode := (Opcode.ofName? s.mnemonic).getD .nop

theorem Statement.opcode_of_ofName? {s : Statement} {op : Opcode}
    (h : Opcode.ofName? s.mnemonic = some op) : s.opcode = op := by
  rw [Statement.opcode, h]
  rfl

namespace Layout

/-- The opcodes of the statements placed so far. -/
def opcodes (layout : Layout) : List Opcode := layout.placed.toList.map fun x => x.2.opcode

/-- What the first pass knows when it has read these items. -/
structure Reads (items : List Item) (layout : Layout) : Prop where
  statements : layout.placed.toList.map Prod.snd = items.filterMap Item.statement?
  names : ∀ x ∈ layout.placed.toList, Opcode.ofName? x.2.mnemonic = some x.2.opcode
  offsets : ∀ (k : Nat) (x : Nat × Statement), layout.placed.toList[k]? = some x →
    x.1 = Opcode.extent (layout.opcodes.take k)
  size : layout.size = Opcode.extent layout.opcodes
  /-- A label has the offset of the first statement behind it. -/
  labels : ∀ before line name after, items = before ++ .label line name :: after →
    layout.labels.lookup name =
      some (Opcode.extent (layout.opcodes.take (before.filterMap Item.statement?).length))

theorem reads_empty : Reads [] ⟨[], #[], 0⟩ := by
  refine ⟨rfl, by simp, by simp, rfl, ?_⟩
  intro before line name after h
  simp at h

theorem Reads.length_opcodes {items : List Item} {layout : Layout} (h : Reads items layout) :
    layout.opcodes.length = (items.filterMap Item.statement?).length := by
  rw [← h.statements, opcodes, List.length_map, List.length_map]

theorem Reads.addLabel {items : List Item} {layout : Layout} (h : Reads items layout) {line : Nat}
    {name : String} (hnew : layout.labels.lookup name = none) :
    Reads (items ++ [.label line name])
      { layout with labels := (name, layout.size) :: layout.labels } := by
  refine ⟨?_, h.names, h.offsets, h.size, ?_⟩
  · rw [List.filterMap_append, h.statements]
    simp [Item.statement?]
  · intro before line' name' after heq
    show _ = some (Opcode.extent (layout.opcodes.take _))
    rw [List.lookup_cons]
    rcases List.eq_nil_or_concat' after with rfl | ⟨after, item, rfl⟩
    · -- the new label, behind all statements so far
      obtain ⟨rfl, hlast⟩ := List.append_inj' heq rfl
      obtain ⟨rfl, rfl⟩ := Item.label.inj (List.cons.inj hlast).1
      rw [beq_self_eq_true, h.size, ← h.length_opcodes, List.take_length]
    · rw [← List.cons_append, ← List.append_assoc] at heq
      obtain ⟨hitems, -⟩ := List.append_inj' heq rfl
      have hold := h.labels before line' name' after hitems
      have hne : (name' == name) = false := by
        rw [beq_eq_false_iff_ne]
        rintro rfl
        simp [hnew] at hold
      rw [hne]
      exact hold

theorem Reads.addInstr {items : List Item} {layout : Layout} (h : Reads items layout)
    {s : Statement} {i : Instr} (hi : Instr.placeholder? s.mnemonic = some i) :
    Reads (items ++ [.instr s])
      { layout with
        placed := layout.placed.push (layout.size, s)
        size := layout.size + i.size } := by
  have hname : Opcode.ofName? s.mnemonic = some i.opcode := by
    rw [Opcode.ofName?, hi, Option.map_some]
  have hopcode := Statement.opcode_of_ofName? hname
  have hopcodes : opcodes { layout with
      placed := layout.placed.push (layout.size, s)
      size := layout.size + i.size } = layout.opcodes ++ [i.opcode] := by
    simp [opcodes, hopcode]
  have hlength : layout.opcodes.length = layout.placed.toList.length := List.length_map _
  constructor
  · rw [List.filterMap_append, Array.toList_push, List.map_append, h.statements]
    rfl
  · intro x hx
    rw [Array.toList_push] at hx
    rcases List.mem_append.1 hx with hx | hx
    · exact h.names x hx
    · rw [List.mem_singleton.1 hx, hopcode]
      exact hname
  · intro k x hx
    rw [hopcodes]
    rw [Array.toList_push, List.getElem?_append] at hx
    split_ifs at hx with hk
    · rw [List.take_append_of_le_length (by omega)]
      exact h.offsets k x hx
    · -- the new statement, behind all others
      obtain ⟨hlast, rfl⟩ := List.getElem?_eq_some_iff.1 hx
      rw [List.length_singleton] at hlast
      obtain rfl : k = layout.opcodes.length := by omega
      rw [List.take_left]
      simpa using h.size
  · rw [hopcodes, Opcode.extent_append, ← h.size]
    rfl
  · intro before line name after heq
    rw [hopcodes]
    rcases List.eq_nil_or_concat' after with rfl | ⟨after, item, rfl⟩
    · have hlast := (List.append_inj' heq rfl).2
      simp at hlast
    · rw [← List.cons_append, ← List.append_assoc] at heq
      obtain ⟨rfl, -⟩ := List.append_inj' heq rfl
      have hbefore : (before.filterMap Item.statement?).length ≤ layout.opcodes.length := by
        rw [h.length_opcodes, List.filterMap_append, List.length_append]
        omega
      rw [List.take_append_of_le_length hbefore]
      exact h.labels before line name after rfl

/-- One more item. -/
theorem Reads.add {items : List Item} {layout layout' : Layout} {item : Item}
    (h : Reads items layout) (hadd : layout.add item = .ok layout') :
    Reads (items ++ [item]) layout' := by
  cases item with
  | label line name =>
    simp only [Layout.add] at hadd
    split_ifs at hadd with hused
    obtain rfl := Except.ok.inj hadd
    exact h.addLabel (Option.not_isSome_iff_eq_none.1 hused)
  | instr s =>
    simp only [Layout.add] at hadd
    split at hadd
    · simp at hadd
    next i hi =>
      obtain rfl := Except.ok.inj hadd
      exact h.addInstr hi

end Layout

/-- What the first pass finds out. -/
theorem Definition.reads_of_layout {f : Definition} {layout : Layout}
    (h : f.layout = .ok layout) : layout.Reads f.items.toList :=
  foldlM_reads (fun _ _ _ _ hreads hadd => hreads.add hadd) Layout.reads_empty h

/-! ## The second pass -/

theorem name_of_resolveOperand {names : Names} {labels : Labels} {line pc : Nat}
    {mnemonic word : String} {i : Instr}
    (h : resolveOperand names labels line pc mnemonic word = .ok i) : i.name = mnemonic := by
  unfold resolveOperand at h
  split at h
  case h_1 | h_2 =>
    split at h <;> cases h
    rfl
  case h_11 => cases h
  all_goals
    obtain ⟨_, -, rfl⟩ := exists_of_map_eq_ok h
    rfl

/-- The instruction of a statement has its mnemonic. -/
theorem name_of_resolve {names : Names} {labels : Labels} {pc : Nat} {s : Statement} {i : Instr}
    (h : resolve names labels pc s = .ok i) : i.name = s.mnemonic := by
  rw [resolve] at h
  split at h
  next hplain _ =>
    obtain rfl := Except.ok.inj h
    exact Instr.name_of_ofPlainName? hplain
  · cases h
  · cases h
  · exact name_of_resolveOperand h

theorem opcode_of_resolve {names : Names} {labels : Labels} {pc : Nat} {s : Statement} {i : Instr}
    (h : resolve names labels pc s = .ok i) : i.opcode = s.opcode := by
  have hname : Opcode.ofName? s.mnemonic = some i.opcode := by
    rw [← name_of_resolve h]
    exact i.opcode.ofName?_name
  exact (Statement.opcode_of_ofName? hname).symm

/-- A jump needs an operand, and is resolved by it. -/
theorem resolve_jump {names : Names} {labels : Labels} {pc : Nat} {s : Statement} {branch : Branch}
    {offset : Int32} (h : resolve names labels pc s = .ok (.jump branch offset)) :
    ∃ word, s.operand = some word ∧
      resolveJump labels s.line (pc + (Opcode.jump branch).size) word = .ok offset := by
  have hname : s.mnemonic = branch.name := (name_of_resolve h).symm
  rw [resolve, hname, ofPlainName?_branch] at h
  cases hoperand : s.operand with
  | none =>
    rw [hoperand] at h
    cases h
  | some word =>
    rw [hoperand] at h
    dsimp only at h
    rw [resolveOperand_branch] at h
    obtain ⟨offset', hoffset, heq⟩ := exists_of_map_eq_ok h
    obtain rfl := (Instr.jump.inj heq).2
    exact ⟨word, rfl, hoffset⟩

/-- A jump to a label leads to the offset of the label. -/
theorem jumpPlace_of_resolve {names : Names} {labels : Labels} {pc target : Nat} {branch : Branch}
    {s : Statement} {word : String} {offset : Int32} (hword : s.operand = some word)
    (htarget : labels.lookup word = some target)
    (h : resolve names labels pc s = .ok (.jump branch offset)) :
    Code.jumpPlace (pc + (Instr.jump branch offset).size) offset = target := by
  obtain ⟨word', hword', hoffset⟩ := resolve_jump h
  obtain rfl := Option.some.inj (hword.symm.trans hword')
  simp only [resolveJump, htarget] at hoffset
  split_ifs at hoffset with hrange
  rw [← Except.ok.inj hoffset, Code.jumpPlace, Int32.toInt_ofInt_of_le (by omega) (by omega)]
  show ((pc + (Opcode.jump branch).size : Nat) : Int) + _ = _
  omega

/-- The mnemonic is that of a jump. -/
def Statement.isJump (s : Statement) : Bool :=
  match Opcode.ofName? s.mnemonic with
  | some (.jump _) => true
  | _ => false

/-- The operand of every jump is a label of the function. -/
def Definition.JumpsToLabels (f : Definition) : Prop :=
  ∀ s ∈ f.items.toList.filterMap Item.statement?, s.isJump = true →
    ∀ word ∈ s.operand, word ∈ f.items.toList.filterMap Item.label?

instance (f : Definition) : Decidable f.JumpsToLabels :=
  inferInstanceAs (Decidable (∀ s ∈ f.items.toList.filterMap Item.statement?, s.isJump = true →
    ∀ word ∈ s.operand, word ∈ f.items.toList.filterMap Item.label?))

section Passes

variable {f : Definition} {names : Names} {layout : Layout} {is : List Instr}

/-- The two passes agree on the opcodes. -/
theorem opcodes_of_mapM
    (h : layout.placed.toList.mapM (fun x => resolve names layout.labels x.1 x.2) = .ok is) :
    is.map Instr.opcode = layout.opcodes := by
  have hall := forall₂_of_mapM h
  rw [Layout.opcodes]
  clear h
  generalize layout.placed.toList = placed at hall ⊢
  induction hall with
  | nil => rfl
  | cons hi _ ih => rw [List.map_cons, List.map_cons, ih, opcode_of_resolve hi]

/-- A jump of a function that jumps to labels leads to a place between two instructions. -/
theorem Layout.Reads.jump (hreads : layout.Reads f.items.toList)
    (h : layout.placed.toList.mapM (fun x => resolve names layout.labels x.1 x.2) = .ok is)
    (hjumps : f.JumpsToLabels) {pc : Nat} {branch : Branch} {offset : Int32}
    (hjump : (pc, Instr.jump branch offset) ∈ Instr.placed 0 is) :
    ∃ n, Code.jumpPlace (pc + (Instr.jump branch offset).size) offset =
      (Opcode.extent ((is.map Instr.opcode).take n) : Nat) := by
  have hopcodes := opcodes_of_mapM h
  -- the statement that the jump comes from
  obtain ⟨k, hk⟩ := List.getElem?_of_mem hjump
  rw [Instr.getElem?_placed, Option.map_eq_some_iff] at hk
  obtain ⟨i, hi, heq⟩ := hk
  obtain ⟨hpc, rfl⟩ := Prod.mk.inj heq
  obtain ⟨⟨pc', s⟩, hplaced, hresolve⟩ := getElem?_of_mapM h hi
  have hmem := List.mem_of_getElem? hplaced
  have hname : Opcode.ofName? s.mnemonic = some (.jump branch) := by
    rw [hreads.names _ hmem, ← opcode_of_resolve hresolve]
    rfl
  obtain rfl : pc' = pc := by
    rw [← hpc, hopcodes, Nat.zero_add]
    exact hreads.offsets k _ hplaced
  -- the label that it names
  obtain ⟨word, hword, -⟩ := resolve_jump hresolve
  have hs : s ∈ f.items.toList.filterMap Item.statement? := by
    rw [← hreads.statements]
    exact List.mem_map_of_mem hmem
  have hlabel := hjumps s hs (by simp [Statement.isJump, hname]) word hword
  obtain ⟨item, hitem, hitem'⟩ := List.mem_filterMap.1 hlabel
  cases item with
  | instr _ => cases hitem'
  | label line name =>
    obtain rfl : name = word := Option.some.inj hitem'
    obtain ⟨before, after, hsplit⟩ := List.append_of_mem hitem
    have htarget := hreads.labels before line name after hsplit
    rw [hopcodes]
    exact ⟨_, jumpPlace_of_resolve hword htarget hresolve⟩

/-- A finished function can be read to its end, and its jumps lead to instructions or to the end. -/
theorem Definition.boundary_of_instrs (h : f.instrs names = .ok is) (hjumps : f.JumpsToLabels)
    {pc : Nat} {branch : Branch} {offset : Int32}
    (hjump : (pc, Instr.jump branch offset) ∈ (Code.ofInstrs is).sweep.instrs) :
    ∃ place, Code.jumpTarget (pc + (Instr.jump branch offset).size) offset (Code.ofInstrs is).size
      = .ok place ∧ (Code.ofInstrs is).IsBoundary place := by
  rw [Definition.instrs] at h
  split at h
  · cases h
  next layout hlayout =>
    rw [Code.sweep_ofInstrs] at hjump
    obtain ⟨n, hn⟩ := (Definition.reads_of_layout hlayout).jump h hjumps hjump
    refine ⟨_, ?_, Code.isBoundary_ofInstrs is n⟩
    have hle := Opcode.extent_take_le (is.map Instr.opcode) n
    rw [Code.jumpTarget, hn, Code.size_ofInstrs, if_neg (by omega)]
    rfl

end Passes

/-- The functions of an image are those of its source, in the same order. -/
theorem Source.function_of_assemble {source : Source} {image : Image}
    (h : source.assemble = .ok image) {k : Nat} {f : Definition}
    (hf : source.functions[k]? = some f) :
    ∃ names is, f.instrs names = .ok is ∧
      image.functions[k]? = some ⟨UInt16.ofNat k, f.arity, f.locals, Code.ofInstrs is⟩ := by
  obtain ⟨names, entry, functions, -, -, hfunctions, hlength, rfl⟩ := Source.exists_of_assemble h
  have hk : k < functions.length := by
    rw [hlength]
    exact (Array.getElem?_eq_some_iff.1 hf).1
  obtain ⟨⟨f', index⟩, hf', hassemble⟩ :=
    getElem?_of_mapM hfunctions (List.getElem?_eq_getElem hk)
  rw [List.getElem?_zipIdx, Array.getElem?_toList, hf, Nat.zero_add] at hf'
  obtain ⟨rfl, rfl⟩ := Prod.mk.inj (Option.some.inj hf')
  obtain ⟨is, his, hg⟩ := exists_of_map_eq_ok hassemble
  refine ⟨names, is, his, ?_⟩
  rw [List.getElem?_toArray, List.getElem?_eq_getElem hk, hg]

theorem Source.size_of_assemble {source : Source} {image : Image}
    (h : source.assemble = .ok image) : image.functions.size = source.functions.size := by
  obtain ⟨_, _, _, -, -, -, hlength, rfl⟩ := Source.exists_of_assemble h
  exact hlength

end Assembly

open Assembly in
/-- **Functions that jump to labels can be compiled**, whatever is spliced into them. -/
theorem compile_of_jumpsToLabels {text : String} {source : Source} {image : Image}
    {function : UInt16} {f : Definition} (hsource : Source.parse text = .ok source)
    (h : assemble text = .ok image) (hf : source.functions[function.toNat]? = some f)
    (hjumps : f.JumpsToLabels) (options : Native.Options) :
    ∃ p, Native.compile image function options = .ok p := by
  rw [assemble, hsource] at h
  obtain ⟨names, is, his, hfunction⟩ := Source.function_of_assemble h hf
  rw [Native.exists_compile_eq_ok_iff]
  refine ⟨_, hfunction, ?_, ?_⟩
  · rw [Code.sweep_ofInstrs]
  · intro pc branch offset hjump
    exact Definition.boundary_of_instrs his hjumps hjump

/-- A text that jumps forward, back, to two labels at one place and to the end of the function,
    around a call to a leaf. -/
def Assembly.jumping : String :=
  ".func main\n jz forward\nback:\n call leaf\nforward:\nhere:\n jnz back\n jz here\n" ++
    " jmp forward\n jmp stop\nstop:\n.end\n.func leaf\n push_int 7\n ret\n.end\n"

/-- The image of that text. -/
def Assembly.jumpingImage : Image :=
  ⟨Image.formatVersion, 0, 0,
    #[⟨0, 0, 0, Code.ofInstrs [.jump .ifZero 3, .call 1, .jump .ifNotZero (-8),
        .jump .ifZero (-10), .jump .always (-15), .jump .always 0]⟩,
      ⟨1, 0, 0, Code.ofInstrs [.pushInt 7, .ret]⟩]⟩

theorem compile_of_jumpsToLabels_jumping :
    ∃ source f, Assembly.Source.parse Assembly.jumping = .ok source ∧
      assemble Assembly.jumping = .ok Assembly.jumpingImage ∧
      source.functions[(0 : UInt16).toNat]? = some f ∧ f.JumpsToLabels ∧
      ∀ options, ∃ p, Native.compile Assembly.jumpingImage 0 options = .ok p := by
  obtain ⟨himage, heval⟩ : assemble Assembly.jumping = .ok Assembly.jumpingImage ∧
      ((Assembly.Source.parse Assembly.jumping).toOption.bind fun source =>
        source.functions[(0 : UInt16).toNat]?.map fun f => decide f.JumpsToLabels) = some true := by
    decide +kernel
  cases hsource : Assembly.Source.parse Assembly.jumping with
  | error e => simp [hsource, Except.toOption] at heval
  | ok source =>
    rw [hsource] at heval
    obtain ⟨f, hf, hjumps⟩ := Option.map_eq_some_iff.1 heval
    have hjumps := of_decide_eq_true hjumps
    exact ⟨source, f, rfl, himage, hf, hjumps, compile_of_jumpsToLabels hsource himage hf hjumps⟩

end StackMachine
