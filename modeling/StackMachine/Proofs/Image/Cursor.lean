import StackMachine.Image.Format
import StackMachine.Proofs.LittleEndian

/-!
# Reading an image at a cursor

`Image.load` takes bytes off a list, where nothing can be read that is not there. This module reads
an image the way a loader does that has the data in one block: a cursor moves over the block, the
numbers at the cursor are read without looking whether they are there, and only tests made before
keep the reading inside. `Stop.outside` is a read past the end of the data.

* `loadAt_eq`: at a cursor, loading does what `Image.load` does, so that it never stops outside.
-/

namespace StackMachine.Image

/-- What ends a reading at a cursor: a byte outside the data, or a refusal. -/
inductive Stop where
  | outside
  | refused (e : LoadError)
deriving DecidableEq

/-- A reading of a block of bytes, at a cursor that it moves. -/
abbrev Reading := ReaderT (Array UInt8) (StateT Nat (Except Stop))

namespace Reading

/-! ## The reader -/

/-- The byte at the cursor. -/
def byte : Reading UInt8 := fun data pos =>
  match data[pos]? with
  | some b => .ok (b, pos + 1)
  | none => .error .outside

/-- The number in the `n` bytes at the cursor. -/
def number : Nat → Reading UInt64
  | 0 => pure 0
  | n + 1 => do
    let b ← byte
    let high ← number n
    return b.toUInt64 + 256 * high

/-- How many bytes the cursor has before it. -/
def remaining : Reading Nat := fun data pos =>
  if pos ≤ data.size then .ok (data.size - pos, pos) else .error .outside

/-- The `n` bytes at the cursor, if they are all there. -/
def slice? (n : Nat) : Reading (Option (Array UInt8)) := fun data pos =>
  if pos + n ≤ data.size then .ok (some (data.extract pos (pos + n)), pos + n)
  else .ok (none, pos)

/-- Gives up, because the bytes are no image. -/
def refuse {α : Type} (e : LoadError) : Reading α := fun _ _ => .error (.refused e)

/-- The record of the function with a given index. -/
def function (index : Nat) : Reading Function := do
  let available ← remaining
  if available < functionHeaderSize then
    refuse (.truncatedFunction index functionHeaderSize available)
  else
    let arity ← byte
    let locals ← byte
    let length := (← number 4).toNat
    if locals < arity then refuse (.localsBelowArity index arity.toNat locals.toNat)
    else
      match ← slice? length with
      | some code => return ⟨UInt16.ofNat index, arity, locals, code⟩
      | none => refuse (.truncatedFunction index length (← remaining))

/-- The records of `count` functions after those already read. -/
def functions : Nat → Array Function → Reading (Array Function)
  | 0, read => return read
  | count + 1, read => do
    let f ← function read.size
    functions count (read.push f)

/-- The image in a block of bytes. -/
def image : Reading Image := do
  let available ← remaining
  if available < headerSize then refuse (.tooShort available headerSize)
  else
    let mark ← number 4
    if mark ≠ LittleEndian.value magic then refuse (.badMagic mark.toNat)
    else
      let version := (← number 2).toUInt16
      if version ≠ formatVersion then
        refuse (.unsupportedVersion version.toNat formatVersion.toNat)
      else
        let entry := (← number 2).toUInt16
        let globals := (← number 2).toUInt16
        let count ← number 2
        let table ← functions count.toNat #[]
        let trailing ← remaining
        if 0 < trailing then refuse (.trailingBytes trailing)
        else if table.size ≤ entry.toNat then
          refuse (.invalidEntryPoint entry.toNat table.size)
        else return ⟨version, globals, entry, table⟩

end Reading

/-- Loads an image at a cursor that starts with the first byte. -/
def loadAt (data : Array UInt8) : Except Stop Image :=
  (Reading.image data 0).map Prod.fst

/-! ## What the cursor has before it -/

/-- The cursor at `pos` is inside the data and has the bytes `rest` before it. -/
structure Ahead (data : Array UInt8) (pos : Nat) (rest : List UInt8) : Prop where
  inside : pos ≤ data.size
  drop : data.toList.drop pos = rest

/-- A reading at a cursor did what a reading of a list did: it refused as well, or gave the same
    and has the bytes before it that the list has left. -/
def Follows {α : Type} (data : Array UInt8) (read : Except Stop (α × Nat)) :
    Except LoadError (α × List UInt8) → Prop
  | .error e => read = .error (.refused e)
  | .ok (a, rest) => ∃ pos, read = .ok (a, pos) ∧ Ahead data pos rest

theorem Reading.bind_of_ok {α β : Type} {data : Array UInt8} {pos pos' : Nat} {a : α}
    {x : Reading α} (f : α → Reading β) (h : x data pos = .ok (a, pos')) :
    (x >>= f) data pos = f a data pos' := by
  simp [bind, ReaderT.bind, StateT.bind, Except.bind, h]

theorem Reading.bind_of_error {α β : Type} {data : Array UInt8} {pos : Nat} {stop : Stop}
    {x : Reading α} (f : α → Reading β) (h : x data pos = .error stop) :
    (x >>= f) data pos = .error stop := by
  simp [bind, ReaderT.bind, StateT.bind, Except.bind, h]

/-! ## Data that is too short -/

theorem readFunction_of_short {index : Nat} {bytes : List UInt8}
    (h : bytes.length < functionHeaderSize) :
    readFunction index bytes =
      .error (.truncatedFunction index functionHeaderSize bytes.length) := by
  unfold readFunction
  split
  · simp only [List.length_cons, functionHeaderSize] at h
    omega
  · rfl

theorem load_of_short {bytes : List UInt8} (h : bytes.length < headerSize) :
    load bytes = .error (.tooShort bytes.length headerSize) := by
  unfold load
  split
  · simp only [List.length_cons, headerSize] at h
    omega
  · rfl

theorem exists_of_functionHeader {bytes : List UInt8} (h : ¬ bytes.length < functionHeaderSize) :
    ∃ arity locals b0 b1 b2 b3 rest, bytes = arity :: locals :: b0 :: b1 :: b2 :: b3 :: rest := by
  rcases bytes with _ | ⟨arity, _ | ⟨locals, _ | ⟨b0, _ | ⟨b1, _ | ⟨b2, _ | ⟨b3, rest⟩⟩⟩⟩⟩⟩ <;>
    simp [functionHeaderSize] at h ⊢

theorem exists_of_header {bytes : List UInt8} (h : ¬ bytes.length < headerSize) :
    ∃ m0 m1 m2 m3 v0 v1 e0 e1 g0 g1 n0 n1 rest, bytes =
      m0 :: m1 :: m2 :: m3 :: v0 :: v1 :: e0 :: e1 :: g0 :: g1 :: n0 :: n1 :: rest := by
  rcases bytes with _ | ⟨m0, _ | ⟨m1, _ | ⟨m2, _ | ⟨m3, _ | ⟨v0, _ | ⟨v1, _ | ⟨e0, _ | ⟨e1,
    _ | ⟨g0, _ | ⟨g1, _ | ⟨n0, _ | ⟨n1, rest⟩⟩⟩⟩⟩⟩⟩⟩⟩⟩⟩⟩ <;>
    simp [headerSize] at h ⊢

namespace Ahead

variable {data : Array UInt8} {pos : Nat} {rest : List UInt8}

theorem start (bytes : List UInt8) : Ahead bytes.toArray 0 bytes := ⟨Nat.zero_le _, rfl⟩

theorem length_eq (h : Ahead data pos rest) : rest.length = data.size - pos := by
  simp [← h.drop]

theorem remaining (h : Ahead data pos rest) :
    Reading.remaining data pos = .ok (rest.length, pos) := by
  simp [Reading.remaining, h.inside, h.length_eq]

theorem skip (h : Ahead data pos rest) {n : Nat} (hn : n ≤ rest.length) :
    Ahead data (pos + n) (rest.drop n) := by
  have hlen := h.length_eq
  refine ⟨by have := h.inside; omega, ?_⟩
  rw [← h.drop, List.drop_drop]

theorem byte {b : UInt8} (h : Ahead data pos (b :: rest)) :
    Reading.byte data pos = .ok (b, pos + 1) ∧ Ahead data (pos + 1) rest := by
  have hb : data[pos]? = some b := by
    rw [← Array.getElem?_toList, ← List.head?_drop, h.drop, List.head?_cons]
  exact ⟨by simp [Reading.byte, hb], h.skip (by simp)⟩

theorem number (n : Nat) (bs : List UInt8) (hn : bs.length = n) (h : Ahead data pos (bs ++ rest)) :
    Reading.number n data pos = .ok (LittleEndian.value bs, pos + n) ∧
      Ahead data (pos + n) rest := by
  subst hn
  have hskip := h.skip (show bs.length ≤ (bs ++ rest).length by simp)
  refine ⟨?_, by simpa using hskip⟩
  clear hskip
  induction bs generalizing pos with
  | nil => rfl
  | cons b bs ih =>
    obtain ⟨hb, hrest⟩ := h.byte
    rw [List.length_cons, Reading.number, Reading.bind_of_ok _ hb, Reading.bind_of_ok _ (ih hrest),
      LittleEndian.value, Nat.add_assoc, Nat.add_comm 1]
    rfl

theorem slice? (h : Ahead data pos rest) (n : Nat) :
    Reading.slice? n data pos =
      if n ≤ rest.length then .ok (some (rest.take n).toArray, pos + n) else .ok (none, pos) := by
  have hlen := h.length_eq
  have hfits : pos + n ≤ data.size ↔ n ≤ rest.length := by
    have := h.inside
    omega
  have htake : data.extract pos (pos + n) = (rest.take n).toArray := by
    apply Array.toList_inj.1
    rw [Array.toList_extract, List.extract_eq_take_drop, h.drop]
    simp
  simp only [Reading.slice?, hfits, htake]

/-! ## Reading the parts of an image -/

theorem function (h : Ahead data pos rest) (index : Nat) :
    Follows data (Reading.function index data pos) (readFunction index rest) := by
  rw [Reading.function, Reading.bind_of_ok _ h.remaining]
  by_cases hshort : rest.length < functionHeaderSize
  · rw [if_pos hshort, readFunction_of_short hshort]
    rfl
  · obtain ⟨arity, locals, b0, b1, b2, b3, rest, rfl⟩ := exists_of_functionHeader hshort
    rw [if_neg hshort]
    obtain ⟨harity, h⟩ := h.byte
    obtain ⟨hlocals, h⟩ := h.byte
    obtain ⟨hlength, h⟩ := h.number 4 [b0, b1, b2, b3] rfl
    rw [Reading.bind_of_ok _ harity, Reading.bind_of_ok _ hlocals, Reading.bind_of_ok _ hlength]
    simp only [readFunction, List.length_take]
    by_cases hbelow : locals < arity
    · rw [if_pos hbelow, if_pos hbelow]
      rfl
    · rw [if_neg hbelow, if_neg hbelow]
      have hslice := h.slice? (LittleEndian.value [b0, b1, b2, b3]).toNat
      by_cases hfits : (LittleEndian.value [b0, b1, b2, b3]).toNat ≤ rest.length
      · rw [if_pos hfits] at hslice
        rw [Reading.bind_of_ok _ hslice, if_neg (by omega)]
        exact ⟨_, rfl, h.skip hfits⟩
      · rw [if_neg hfits] at hslice
        rw [Reading.bind_of_ok _ hslice, if_pos (by omega)]
        exact Reading.bind_of_ok _ h.remaining

/-- The records are read one by one, each at the cursor where the one before it ended. -/
theorem functions (h : Ahead data pos rest) (count : Nat) (read : Array Function) :
    Follows data (Reading.functions count read data pos) (readFunctions count read rest) := by
  induction count generalizing pos rest read with
  | zero => exact ⟨pos, rfl, h⟩
  | succ count ih =>
    have hone := h.function read.size
    rw [Reading.functions, readFunctions]
    match hread : readFunction read.size rest with
    | .error e =>
      rw [hread] at hone
      exact Reading.bind_of_error _ hone
    | .ok (f, rest') =>
      rw [hread] at hone
      obtain ⟨pos', hf, h'⟩ := hone
      rw [Reading.bind_of_ok _ hf]
      exact ih h' (read.push f)

theorem image (h : Ahead data pos rest) :
    (Reading.image data pos).map Prod.fst = (load rest).mapError Stop.refused := by
  rw [Reading.image, Reading.bind_of_ok _ h.remaining]
  by_cases hshort : rest.length < headerSize
  · rw [if_pos hshort, load_of_short hshort]
    rfl
  · obtain ⟨m0, m1, m2, m3, v0, v1, e0, e1, g0, g1, n0, n1, rest, rfl⟩ := exists_of_header hshort
    obtain ⟨hmark, h⟩ := h.number 4 [m0, m1, m2, m3] rfl
    obtain ⟨hversion, h⟩ := h.number 2 [v0, v1] rfl
    obtain ⟨hentry, h⟩ := h.number 2 [e0, e1] rfl
    obtain ⟨hglobals, h⟩ := h.number 2 [g0, g1] rfl
    obtain ⟨hcount, h⟩ := h.number 2 [n0, n1] rfl
    have hmagic : LittleEndian.value [m0, m1, m2, m3] ≠ LittleEndian.value magic ↔
        [m0, m1, m2, m3] ≠ magic :=
      not_congr ⟨LittleEndian.eq_of_value_eq rfl (by decide), fun heq => by rw [heq]⟩
    rw [if_neg hshort, Reading.bind_of_ok _ hmark]
    simp only [load, hmagic]
    by_cases hbad : [m0, m1, m2, m3] ≠ magic
    · rw [if_pos hbad, if_pos hbad]
      rfl
    rw [if_neg hbad, if_neg hbad, Reading.bind_of_ok _ hversion]
    by_cases hold : (LittleEndian.value [v0, v1]).toUInt16 ≠ formatVersion
    · rw [if_pos hold, if_pos hold]
      rfl
    rw [if_neg hold, if_neg hold, Reading.bind_of_ok _ hentry, Reading.bind_of_ok _ hglobals,
      Reading.bind_of_ok _ hcount]
    have htable := h.functions (LittleEndian.value [n0, n1]).toNat #[]
    match hread : readFunctions (LittleEndian.value [n0, n1]).toNat #[] rest with
    | .error e =>
      rw [hread] at htable
      rw [Reading.bind_of_error _ htable]
      rfl
    | .ok (table, left) =>
      rw [hread] at htable
      obtain ⟨pos', hfunctions, h'⟩ := htable
      rw [Reading.bind_of_ok _ hfunctions, Reading.bind_of_ok _ h'.remaining]
      simp only [List.length_pos_iff]
      by_cases hleft : left ≠ []
      · rw [if_pos hleft, if_pos hleft]
        rfl
      rw [if_neg hleft, if_neg hleft]
      by_cases hentry : table.size ≤ (LittleEndian.value [e0, e1]).toUInt16.toNat
      · rw [if_pos hentry, if_pos hentry]
        rfl
      · rw [if_neg hentry, if_neg hentry]
        rfl

end Ahead

/-- Loading at a cursor never reads outside the data, and comes to the result of `load`. -/
theorem loadAt_eq (bytes : List UInt8) :
    loadAt bytes.toArray = (load bytes).mapError Stop.refused :=
  (Ahead.start bytes).image

end StackMachine.Image
