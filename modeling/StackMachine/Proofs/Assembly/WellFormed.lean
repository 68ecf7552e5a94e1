import StackMachine.Assembly.Assemble
import StackMachine.Proofs.Image.RoundTrip
import StackMachine.Proofs.Instr.Codec

/-!
# Assembled images are well formed

What the reader and the resolver check on the way is what the loader asks of an image, so an image
that was assembled is read back from its bytes. A call is only ever written with the number of a
function that is there.

* `Assembly.Source.parse_sound`: every function that was read has room for its parameters.
* `Assembly.namesOf_sound`: every name stands for the number of a function.
* `Assembly.Source.assemble_sound`: what the parts of an assembled image satisfy.
* `load_assembled`: the image is loaded from its bytes, and its calls name functions.
-/

namespace StackMachine

/-! ## Loops that may fail -/

section Loops

variable {ε α β : Type}

/-- What one round keeps, all rounds keep. -/
theorem foldlM_keeps {P : β → Prop} {f : β → α → Except ε β}
    (hstep : ∀ b a b', P b → f b a = .ok b' → P b') {xs : List α} {b b' : β} (hb : P b)
    (h : xs.foldlM f b = .ok b') : P b' := by
  induction xs generalizing b with
  | nil =>
    cases h
    exact hb
  | cons a xs ih =>
    rw [List.foldlM_cons] at h
    cases ha : f b a with
    | error e =>
      rw [ha] at h
      cases h
    | ok next =>
      rw [ha] at h
      exact ih (hstep b a next hb ha) h

/-- A list of results holds the result for each element. -/
theorem forall₂_of_mapM {f : α → Except ε β} {xs : List α} {ys : List β}
    (h : xs.mapM f = .ok ys) : List.Forall₂ (fun a b => f a = .ok b) xs ys := by
  induction xs generalizing ys with
  | nil =>
    cases h
    exact .nil
  | cons a xs ih =>
    rw [List.mapM_cons] at h
    cases ha : f a with
    | error e =>
      rw [ha] at h
      cases h
    | ok b =>
      cases hrest : xs.mapM f with
      | error e =>
        rw [ha, hrest] at h
        cases h
      | ok bs =>
        rw [ha, hrest] at h
        cases h
        exact .cons ha (ih hrest)

theorem getElem?_of_mapM {f : α → Except ε β} {xs : List α} {ys : List β}
    (h : xs.mapM f = .ok ys) {k : Nat} {b : β} (hb : ys[k]? = some b) :
    ∃ a, xs[k]? = some a ∧ f a = .ok b := by
  have hall := forall₂_of_mapM h
  clear h
  induction hall generalizing k with
  | nil => cases hb
  | cons hab _ ih =>
    cases k with
    | zero =>
      cases hb
      exact ⟨_, rfl, hab⟩
    | succ k => exact ih hb

theorem exists_of_map_eq_ok {f : α → β} {x : Except ε α} {b : β} (h : x.map f = .ok b) :
    ∃ a, x = .ok a ∧ f a = b := by
  cases x with
  | error e => cases h
  | ok a => exact ⟨a, rfl, Except.ok.inj h⟩

end Loops

namespace Assembly

/-! ## Reading the text -/

/-- A function has room for its parameters. -/
def Definition.Roomy (f : Definition) : Prop := f.arity ≤ f.locals

theorem readHeader_roomy {line : Nat} {words : List String} {f : Definition}
    (h : readHeader line words = .ok f) : f.Roomy := by
  cases words with
  | nil => cases h
  | cons name words =>
    rw [readHeader] at h
    split at h
    · cases h
    · dsimp only at h
      split_ifs at h with hlocals
      cases h
      exact UInt8.not_lt.1 hlocals

namespace Draft

/-- All functions read so far have room for their parameters, and so has the open one. -/
structure Roomy (draft : Draft) : Prop where
  functions : ∀ f ∈ draft.source.functions, f.Roomy
  current : ∀ f, draft.current = some f → f.Roomy

theorem empty_roomy : empty.Roomy := ⟨by simp [empty], nofun⟩

theorem Roomy.addItem {draft : Draft} {current : Definition} (h : draft.Roomy)
    (hcurrent : draft.current = some current) (item : Item) :
    (draft.addItem current item).Roomy := by
  refine ⟨h.functions, ?_⟩
  rintro f hf
  cases hf
  exact h.current current hcurrent

theorem Roomy.addLabel {draft next : Draft} {line : Nat} {word : String} (h : draft.Roomy)
    (hnext : draft.addLabel line word = .ok next) : next.Roomy := by
  rw [Draft.addLabel] at hnext
  split at hnext
  · cases hnext
  next current hcurrent =>
    dsimp only at hnext
    split_ifs at hnext
    cases hnext
    exact h.addItem hcurrent _

theorem Roomy.addInstr {draft next : Draft} {line : Nat} {mnemonic : String}
    {operands : List String} (h : draft.Roomy)
    (hnext : draft.addInstr line mnemonic operands = .ok next) : next.Roomy := by
  rw [Draft.addInstr] at hnext
  split at hnext
  · cases hnext
  next current hcurrent =>
    split at hnext
    · cases hnext
      exact h.addItem hcurrent _
    · cases hnext
      exact h.addItem hcurrent _
    · cases hnext

theorem Roomy.addLine {draft next : Draft} {line : Nat} {words : List String} (h : draft.Roomy)
    (hnext : draft.addLine line words = .ok next) : next.Roomy := by
  cases words with
  | nil =>
    cases hnext
    exact h
  | cons first rest =>
    rw [Draft.addLine.eq_def] at hnext
    dsimp only at hnext
    split_ifs at hnext with hglobals hentry hfunc hend hdot hlabel
    · split at hnext
      · cases hnext
      · obtain ⟨n, -, rfl⟩ := exists_of_map_eq_ok hnext
        exact ⟨h.functions, h.current⟩
    · split at hnext
      · cases hnext
      · cases hnext
        exact ⟨h.functions, h.current⟩
    · split at hnext
      · cases hnext
      · obtain ⟨f, hf, rfl⟩ := exists_of_map_eq_ok hnext
        refine ⟨h.functions, ?_⟩
        rintro g hg
        cases hg
        exact readHeader_roomy hf
    · split at hnext
      · cases hnext
      next f hcurrent =>
        cases hnext
        refine ⟨?_, nofun⟩
        intro g hg
        rcases Array.mem_push.1 hg with hg | rfl
        · exact h.functions g hg
        · exact h.current g hcurrent
    · exact h.addLabel hnext
    · exact h.addInstr hnext

end Draft

/-- Every function that was read has room for its parameters. -/
theorem Source.parse_sound {text : String} {source : Source} (h : Source.parse text = .ok source) :
    ∀ f ∈ source.functions, f.Roomy := by
  rw [Source.parse] at h
  split at h
  · cases h
  next draft hdraft =>
    have hroomy : draft.Roomy :=
      foldlM_keeps (fun d line d' hd hnext => hd.addLine hnext) Draft.empty_roomy hdraft
    split at h
    · cases h
    · cases h
      exact hroomy.functions

/-! ## Names -/

/-- As many names as functions, each with the number of one. -/
structure Names.Sound (names : Names) (count : Nat) : Prop where
  length : names.length = count
  bounded : ∀ entry ∈ names, entry.2.toNat < count

theorem Names.Sound.cons {names : Names} {count : Nat} (h : names.Sound count) (name : String) :
    Names.Sound ((name, UInt16.ofNat count) :: names) (count + 1) := by
  refine ⟨by rw [List.length_cons, h.length], ?_⟩
  intro entry hentry
  rcases List.mem_cons.1 hentry with rfl | hentry
  · have hmod := Nat.mod_le count 65536
    show (UInt16.ofNat count).toNat < count + 1
    rw [UInt16.toNat_ofNat']
    omega
  · exact Nat.lt_succ_of_lt (h.bounded entry hentry)

/-- The loop comes to the function at `start` when it has numbered those before. -/
theorem Names.Sound.numbered {functions : List Definition} {start : Nat} {before names : Names}
    (hbefore : before.Sound start)
    (h : (functions.zipIdx start).foldlM (fun names (f, index) =>
      if (List.lookup f.name names).isSome then Except.error (Error.duplicateFunction f.name)
      else Except.ok ((f.name, UInt16.ofNat index) :: names)) before = .ok names) :
    names.Sound (start + functions.length) := by
  induction functions generalizing start before with
  | nil =>
    cases h
    exact hbefore
  | cons f functions ih =>
    rw [List.zipIdx_cons, List.foldlM_cons] at h
    dsimp only at h
    by_cases hused : (List.lookup f.name before).isSome
    · rw [if_pos hused] at h
      cases h
    · rw [if_neg hused] at h
      have hnames := ih (hbefore.cons f.name) h
      rwa [List.length_cons, Nat.add_comm functions.length 1, ← Nat.add_assoc]

theorem namesOf_sound {functions : List Definition} {names : Names}
    (h : namesOf functions = .ok names) : names.Sound functions.length := by
  have hempty : Names.Sound [] 0 := ⟨rfl, by simp⟩
  have hnames := hempty.numbered h
  rwa [Nat.zero_add] at hnames

theorem resolveFunction_lt {names : Names} {count line : Nat} {word : String} {index : UInt16}
    (hnames : names.Sound count) (h : resolveFunction names line word = .ok index) :
    index.toNat < count := by
  rw [resolveFunction] at h
  split at h
  next found hfound =>
    cases h
    obtain ⟨before, after, rfl, -⟩ := List.lookup_eq_some_iff.1 hfound
    exact hnames.bounded (word, index) (by simp)
  · split at h
    next n _ =>
      split_ifs at h with hn
      cases h
      have hmod := Nat.mod_le n 65536
      rw [UInt16.toNat_ofNat']
      have := hnames.length
      omega
    · cases h

/-! ## Instructions -/

end Assembly

/-- The function that an instruction calls is one of the first `count`. -/
def Instr.CallsWithin (i : Instr) (count : Nat) : Prop := ∀ g, i = .call g → g.toNat < count

namespace Assembly

theorem ofPlainName?_branch (branch : Branch) : Instr.ofPlainName? branch.name = none := by
  cases branch <;> rfl

theorem resolveOperand_branch (names : Names) (labels : Labels) (line pc : Nat) (branch : Branch)
    (word : String) :
    resolveOperand names labels line pc branch.name word =
      (resolveJump labels line (pc + (Opcode.jump branch).size) word).map (.jump branch) := by
  cases branch <;> rfl

theorem callsWithin_of_plain {name : String} {i : Instr} (h : Instr.ofPlainName? name = some i)
    (count : Nat) : i.CallsWithin count := by
  rintro g rfl
  obtain rfl := Instr.name_of_ofPlainName? h
  cases h

theorem resolveOperand_callsWithin {names : Names} {labels : Labels} {line pc count : Nat}
    {mnemonic word : String} {i : Instr} (hnames : names.Sound count)
    (h : resolveOperand names labels line pc mnemonic word = .ok i) : i.CallsWithin count := by
  rintro g rfl
  unfold resolveOperand at h
  split at h
  case h_6 => -- a call
    obtain ⟨index, hindex, hg⟩ := exists_of_map_eq_ok h
    cases hg
    exact resolveFunction_lt hnames hindex
  case h_1 | h_2 => split at h <;> cases h
  case h_11 => cases h
  all_goals
    obtain ⟨_, -, hg⟩ := exists_of_map_eq_ok h
    cases hg

theorem resolve_callsWithin {names : Names} {labels : Labels} {pc count : Nat} {s : Statement}
    {i : Instr} (hnames : names.Sound count) (h : resolve names labels pc s = .ok i) :
    i.CallsWithin count := by
  rw [resolve] at h
  split at h
  next hplain _ =>
    cases h
    exact callsWithin_of_plain hplain count
  · cases h
  · cases h
  · exact resolveOperand_callsWithin hnames h

theorem Definition.instrs_callsWithin {f : Definition} {names : Names} {count : Nat}
    {is : List Instr} (hnames : names.Sound count) (h : f.instrs names = .ok is) :
    ∀ i ∈ is, i.CallsWithin count := by
  rw [Definition.instrs] at h
  split at h
  · cases h
  next layout _ =>
    intro i hi
    obtain ⟨k, hk⟩ := List.getElem?_of_mem hi
    obtain ⟨⟨pc, s⟩, -, hresolve⟩ := getElem?_of_mapM h hk
    exact resolve_callsWithin hnames hresolve

/-! ## The image -/

/-- What the assembler promises of the function at a position, when there are `count` of them. -/
structure Assembled (f : Image.Function) (position count : Nat) : Prop where
  index : f.index = UInt16.ofNat position
  locals : f.arity ≤ f.locals
  calls : ∃ is, f.code = Code.ofInstrs is ∧ ∀ i ∈ is, i.CallsWithin count

theorem Definition.assemble_sound {f : Definition} {names : Names} {index count : Nat}
    {g : Image.Function} (hf : f.Roomy) (hnames : names.Sound count)
    (h : f.assemble names index = .ok g) : Assembled g index count := by
  obtain ⟨is, his, rfl⟩ := exists_of_map_eq_ok h
  exact ⟨rfl, hf, is, rfl, Definition.instrs_callsWithin hnames his⟩

/-- How an image is put together. -/
theorem Source.exists_of_assemble {source : Source} {image : Image}
    (h : source.assemble = .ok image) :
    ∃ names entry functions, names.Sound source.functions.toList.length ∧
      entry.toNat < source.functions.toList.length ∧
      source.functions.toList.zipIdx.mapM (fun x => x.1.assemble names x.2) = .ok functions ∧
      functions.length = source.functions.toList.length ∧
      image = ⟨Image.formatVersion, source.globals, entry, functions.toArray⟩ := by
  rw [Source.assemble] at h
  dsimp only at h
  split_ifs at h with hempty
  split at h
  · cases h
  next names hof =>
    have hnames := namesOf_sound hof
    split at h
    · cases h
    next entry hentry =>
      split at h
      · cases h
      next functions hfunctions =>
        obtain rfl := Except.ok.inj h
        refine ⟨names, entry, functions, hnames, ?_, hfunctions, ?_, rfl⟩
        · split at hentry
          · cases hentry
            exact List.length_pos_iff.2 (by simpa using hempty)
          · exact resolveFunction_lt hnames hentry
        · rw [← (forall₂_of_mapM hfunctions).length_eq, List.length_zipIdx]

/-- What an assembled image consists of. -/
theorem Source.assemble_sound {source : Source} {image : Image}
    (hsource : ∀ f ∈ source.functions, f.Roomy) (h : source.assemble = .ok image) :
    image.version = Image.formatVersion ∧ image.entry.toNat < image.functions.size ∧
      ∀ (k : Nat) (f : Image.Function), image.functions[k]? = some f →
        Assembled f k image.functions.size := by
  obtain ⟨names, entry, functions, hnames, hentry, hfunctions, hlength, rfl⟩ :=
    Source.exists_of_assemble h
  dsimp only
  rw [List.size_toArray, hlength]
  refine ⟨rfl, hentry, ?_⟩
  intro k g hg
  rw [List.getElem?_toArray] at hg
  obtain ⟨⟨f, index⟩, hf, hassemble⟩ := getElem?_of_mapM hfunctions hg
  rw [List.getElem?_zipIdx] at hf
  obtain ⟨f', hf', heq⟩ := Option.map_eq_some_iff.1 hf
  cases heq
  have hroomy := hsource f (by simpa using List.mem_of_getElem? hf')
  rw [Nat.zero_add] at hassemble
  exact Definition.assemble_sound hroomy hnames hassemble

end Assembly

theorem Instr.mem_of_mem_placed {pc : Nat} {is : List Instr} {entry : Nat × Instr}
    (h : entry ∈ Instr.placed pc is) : entry.2 ∈ is := by
  induction is generalizing pc with
  | nil => cases h
  | cons i is ih =>
    rcases List.mem_cons.1 h with rfl | h
    · exact List.mem_cons_self
    · exact List.mem_cons_of_mem i (ih h)

open Assembly in
/-- **Assembled images survive the binary form.** If the numbers fit into the fields of the form,
an assembled image is loaded from the bytes it is assembled to. The code of every function can be
read to its end, and a call that is met on the way names a function of the image. -/
theorem load_assembled {text : String} {image : Image} (h : assemble text = .ok image)
    (hcount : image.functions.size ≤ 65535)
    (hcode : ∀ f ∈ image.functions, f.code.size < 2 ^ 32) :
    (∃ bytes, assembleToBytes text = .ok bytes ∧ Image.load bytes = .ok image) ∧
      ∀ f ∈ image.functions, f.code.sweep.stuck = none ∧
        ∀ (pc : Nat) (g : UInt16), (pc, Instr.call g) ∈ f.code.sweep.instrs →
          g.toNat < image.functions.size := by
  have hparts : image.version = Image.formatVersion ∧
      image.entry.toNat < image.functions.size ∧
      ∀ (k : Nat) (f : Image.Function), image.functions[k]? = some f →
        Assembled f k image.functions.size := by
    rw [assemble] at h
    split at h
    · cases h
    next source hsource => exact Source.assemble_sound (Source.parse_sound hsource) h
  obtain ⟨hversion, hentry, hfunctions⟩ := hparts
  constructor
  · refine ⟨image.serialize, by rw [assembleToBytes, h]; rfl, Image.load_serialize ?_⟩
    refine ⟨hversion, hentry, hcount, ?_⟩
    intro k f hf
    have hassembled := hfunctions k f hf
    have hk : k < image.functions.size := (Array.getElem?_eq_some_iff.1 hf).1
    refine ⟨?_, hassembled.locals, hcode f (Array.mem_of_getElem? hf)⟩
    rw [hassembled.index, UInt16.toNat_ofNat', Nat.mod_eq_of_lt (by omega)]
  · intro f hf
    obtain ⟨k, hk⟩ := Array.getElem?_of_mem hf
    obtain ⟨is, hcode, hcalls⟩ := (hfunctions k f hk).calls
    rw [hcode, Code.sweep_ofInstrs]
    refine ⟨rfl, ?_⟩
    intro pc g hg
    exact hcalls _ (Instr.mem_of_mem_placed hg) g rfl

/-- A text with two functions that call each other, one by name and one by number. -/
def Assembly.mutual : String :=
  ".entry odd\n.func even arity=1\n load_local 0\n call odd\n ret\n.end\n" ++
    ".func odd arity=1 locals=2 # calls back\nagain:\n load_local 0\n call 0\n jnz again\n" ++
    " ret\n.end\n"

/-- The image of that text. -/
def Assembly.mutualImage : Image :=
  ⟨Image.formatVersion, 0, 1,
    #[⟨0, 1, 1, Code.ofInstrs [.loadLocal 0, .call 1, .ret]⟩,
      ⟨1, 1, 2, Code.ofInstrs [.loadLocal 0, .call 0, .jump .ifNotZero (-10), .ret]⟩]⟩

theorem load_assembled_mutual :
    assemble Assembly.mutual = .ok Assembly.mutualImage ∧
      (∃ bytes, assembleToBytes Assembly.mutual = .ok bytes ∧
        Image.load bytes = .ok Assembly.mutualImage) ∧
      ∀ f ∈ Assembly.mutualImage.functions, f.code.sweep.stuck = none ∧
        ∀ (pc : Nat) (g : UInt16), (pc, Instr.call g) ∈ f.code.sweep.instrs → g.toNat < 2 := by
  have himage : assemble Assembly.mutual = .ok Assembly.mutualImage := by decide +kernel
  exact ⟨himage, load_assembled himage (by decide) (by decide)⟩

end StackMachine
