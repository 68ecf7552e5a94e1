import StackMachine.Proofs.Image.Cursor

/-!
# Loading and serializing an image are inverse

The binary form keeps sixteen bits of the number of functions and 32 of a code length, and it keeps
no function indices. `WellFormed` says which images lose nothing by that and pass the loader's
checks.

* `load_serialize`: a well-formed image is loaded from its bytes.
* `serialize_of_load`: bytes that load are the bytes of the image they load to, and that image is
  well formed.
* `binary_form_bijective`: the two are inverse between well-formed images and the bytes that load,
  and no reading leaves the data.
-/

namespace StackMachine.Image

/-- A function that can stand at a position of an image. -/
structure Function.WellFormed (f : Function) (position : Nat) : Prop where
  index : f.index.toNat = position
  locals : f.arity ≤ f.locals
  code : f.code.size < 2 ^ 32

/-- An image that its binary form keeps. -/
structure WellFormed (image : Image) : Prop where
  version : image.version = formatVersion
  entry : image.entry.toNat < image.functions.size
  count : image.functions.size ≤ 65535
  functions : ∀ (i : Nat) (f : Function), image.functions[i]? = some f → f.WellFormed i

/-! ## One function -/

/-- What stands before the code in the record of a function. -/
def Function.header (f : Function) : List UInt8 :=
  f.arity :: f.locals :: LittleEndian.bytes 4 (UInt64.ofNat f.code.size)

theorem Function.serialize_eq (f : Function) : f.serialize = f.header ++ f.code.toList := rfl

/-- After the header of a well-formed function, reading takes as many bytes as its code has. -/
theorem readFunction_header {f : Function} {index : Nat} (h : f.WellFormed index)
    (rest : List UInt8) : readFunction index (f.header ++ rest) =
      if rest.length < f.code.size then .error (.truncatedFunction index f.code.size rest.length)
      else .ok ({ f with code := (rest.take f.code.size).toArray }, rest.drop f.code.size) := by
  obtain ⟨b0, b1, b2, b3, hbytes⟩ : ∃ b0 b1 b2 b3,
      LittleEndian.bytes 4 (UInt64.ofNat f.code.size) = [b0, b1, b2, b3] := ⟨_, _, _, _, rfl⟩
  have hlength : (LittleEndian.value [b0, b1, b2, b3]).toNat = f.code.size := by
    have hcode := h.code
    rw [← hbytes, LittleEndian.toNat_value_bytes (by omega) (by omega)]
  have hlocals : ¬ f.locals < f.arity := UInt8.not_lt.2 h.locals
  have hindex : UInt16.ofNat index = f.index := by
    rw [← h.index, UInt16.ofNat_toNat]
  simp [Function.header, readFunction, hbytes, hlength, hlocals, hindex]

theorem readFunction_serialize {f : Function} {index : Nat} (h : f.WellFormed index)
    (rest : List UInt8) : readFunction index (f.serialize ++ rest) = .ok (f, rest) := by
  rw [f.serialize_eq, List.append_assoc, readFunction_header h]
  simp

/-- A function that was read stood in the bytes as it is serialized. -/
theorem serialize_of_readFunction {index : Nat} {bytes rest : List UInt8} {f : Function}
    (hindex : index < 65535) (h : readFunction index bytes = .ok (f, rest)) :
    bytes = f.serialize ++ rest ∧ f.WellFormed index := by
  by_cases hshort : bytes.length < functionHeaderSize
  · rw [readFunction_of_short hshort] at h
    cases h
  · obtain ⟨arity, locals, b0, b1, b2, b3, after, rfl⟩ := exists_of_functionHeader hshort
    simp only [readFunction] at h
    split_ifs at h with hlocals hfits
    simp only [List.length_take, Nat.not_lt] at hfits
    obtain ⟨rfl, rfl⟩ := Prod.mk.inj (Except.ok.inj h)
    have hlt := LittleEndian.toNat_value_lt [b0, b1, b2, b3] (by simp)
    have hsize : (after.take (LittleEndian.value [b0, b1, b2, b3]).toNat).length =
        (LittleEndian.value [b0, b1, b2, b3]).toNat := by
      rw [List.length_take]
      omega
    have hbytes : LittleEndian.bytes 4 (LittleEndian.value [b0, b1, b2, b3]) = [b0, b1, b2, b3] :=
      LittleEndian.bytes_value [b0, b1, b2, b3] (by simp)
    have hposition : (UInt16.ofNat index).toNat = index := by
      rw [UInt16.toNat_ofNat', Nat.mod_eq_of_lt (by omega)]
    refine ⟨?_, hposition, UInt8.not_lt.1 hlocals, ?_⟩
    · simp only [Function.serialize, List.size_toArray, hsize, UInt64.ofNat_toNat, hbytes]
      simp
    · simpa [hsize] using hlt

/-! ## The table of functions -/

/-- The functions at the positions from `start` on are well formed. -/
def WellPlaced (start : Nat) (table : List Function) : Prop :=
  ∀ (i : Nat) (f : Function), table[i]? = some f → f.WellFormed (start + i)

theorem wellPlaced_cons {start : Nat} {f : Function} {table : List Function} :
    WellPlaced start (f :: table) ↔ f.WellFormed start ∧ WellPlaced (start + 1) table := by
  constructor
  · intro h
    refine ⟨h 0 f rfl, fun i g hg => ?_⟩
    have := h (i + 1) g hg
    rwa [Nat.add_comm i 1, ← Nat.add_assoc] at this
  · rintro ⟨hf, htable⟩ (_ | i) g hg
    · cases hg
      exact hf
    · have := htable i g hg
      rwa [Nat.add_assoc, Nat.add_comm 1 i] at this

theorem readFunctions_serialize {table : List Function} {read : Array Function}
    (h : WellPlaced read.size table) (rest : List UInt8) :
    readFunctions table.length read (table.flatMap Function.serialize ++ rest) =
      .ok (read ++ table.toArray, rest) := by
  induction table generalizing read with
  | nil => simp [readFunctions]
  | cons f table ih =>
    obtain ⟨hf, htable⟩ := wellPlaced_cons.1 h
    rw [List.length_cons, List.flatMap_cons, List.append_assoc, readFunctions,
      readFunction_serialize hf]
    have hread := ih (show WellPlaced (read.push f).size table by simpa using htable)
    simpa using hread

theorem serialize_of_readFunctions {count : Nat} {read all : Array Function}
    {bytes rest : List UInt8} (hcount : read.size + count ≤ 65535)
    (h : readFunctions count read bytes = .ok (all, rest)) :
    ∃ table : List Function, all = read ++ table.toArray ∧ table.length = count ∧
      bytes = table.flatMap Function.serialize ++ rest ∧ WellPlaced read.size table := by
  induction count generalizing read bytes with
  | zero =>
    obtain ⟨rfl, rfl⟩ := Prod.mk.inj (Except.ok.inj h)
    exact ⟨[], by simp, rfl, rfl, nofun⟩
  | succ count ih =>
    rw [readFunctions] at h
    split at h
    · cases h
    next f after hf =>
      obtain ⟨rfl, hwf⟩ := serialize_of_readFunction (by omega) hf
      obtain ⟨table, rfl, rfl, rfl, htable⟩ := ih (by simp; omega) h
      refine ⟨f :: table, by simp, rfl, by simp, wellPlaced_cons.2 ⟨hwf, ?_⟩⟩
      simpa using htable

/-! ## The whole image -/

/-- The bytes before the table of functions. -/
def header (image : Image) : List UInt8 :=
  magic ++ LittleEndian.bytes 2 image.version.toUInt64
    ++ LittleEndian.bytes 2 image.entry.toUInt64
    ++ LittleEndian.bytes 2 image.globals.toUInt64
    ++ LittleEndian.bytes 2 (UInt64.ofNat image.functions.size)

theorem serialize_eq (image : Image) :
    image.serialize = image.header ++ image.functions.toList.flatMap Function.serialize := rfl

theorem WellFormed.wellPlaced {image : Image} (h : image.WellFormed) :
    WellPlaced (#[] : Array Function).size image.functions.toList := by
  intro i f hf
  simpa using h.functions i f (by simpa using hf)

/-- After the header of a well-formed image, loading reads its table of functions. -/
theorem load_header {image : Image} (h : image.WellFormed) (rest : List UInt8) :
    load (image.header ++ rest) = readFunctions image.functions.size #[] rest >>= fun read =>
      if read.2 ≠ [] then .error (.trailingBytes read.2.length)
      else if read.1.size ≤ image.entry.toNat then
        .error (.invalidEntryPoint image.entry.toNat read.1.size)
      else .ok ⟨image.version, image.globals, image.entry, read.1⟩ := by
  obtain ⟨v0, v1, hversion, hv⟩ := LittleEndian.bytes_toUInt64 image.version
  obtain ⟨e0, e1, hentry, he⟩ := LittleEndian.bytes_toUInt64 image.entry
  obtain ⟨g0, g1, hglobals, hg⟩ := LittleEndian.bytes_toUInt64 image.globals
  obtain ⟨n0, n1, hcount⟩ : ∃ n0 n1,
      LittleEndian.bytes 2 (UInt64.ofNat image.functions.size) = [n0, n1] := ⟨_, _, rfl⟩
  have hn : (LittleEndian.value [n0, n1]).toNat = image.functions.size := by
    have := h.count
    rw [← hcount, LittleEndian.toNat_value_bytes (by omega) (by omega)]
  have hbytes : image.header ++ rest = 0x53 :: 0x56 :: 0x4D :: 0x42 :: v0 :: v1 :: e0 :: e1 :: g0
      :: g1 :: n0 :: n1 :: rest := by
    rw [header, hversion, hentry, hglobals, hcount]
    rfl
  rw [hbytes]
  simp only [load, hv, he, hg, hn]
  rw [if_neg (by decide), if_neg (fun hne => hne h.version)]
  cases readFunctions image.functions.size #[] rest <;> rfl

theorem load_serialize {image : Image} (h : image.WellFormed) :
    load image.serialize = .ok image := by
  have hread : readFunctions image.functions.size #[]
      (image.functions.toList.flatMap Function.serialize) = .ok (image.functions, []) := by
    simpa using readFunctions_serialize h.wellPlaced []
  rw [serialize_eq, load_header h, hread]
  simp [bind, Except.bind, Nat.not_le.2 h.entry]

theorem serialize_of_load {bytes : List UInt8} {image : Image} (h : load bytes = .ok image) :
    image.serialize = bytes ∧ image.WellFormed := by
  by_cases hshort : bytes.length < headerSize
  · rw [load_of_short hshort] at h
    cases h
  · obtain ⟨m0, m1, m2, m3, v0, v1, e0, e1, g0, g1, n0, n1, rest, rfl⟩ := exists_of_header hshort
    simp only [load] at h
    split_ifs at h with hmagic hversion
    split at h
    · cases h
    next table left htable =>
      split_ifs at h with hleft hentry
      have hcount := LittleEndian.toNat_value_lt [n0, n1] (by simp)
      have hfits : (#[] : Array Function).size + (LittleEndian.value [n0, n1]).toNat ≤ 65535 := by
        simp only [List.length_cons, List.length_nil] at hcount
        simp only [List.size_toArray, List.length_nil]
        omega
      obtain ⟨functions, rfl, hsize, rfl, hplaced⟩ := serialize_of_readFunctions hfits htable
      obtain rfl := Except.ok.inj h
      obtain rfl : left = [] := Decidable.not_not.1 hleft
      rw [Array.empty_append] at hentry ⊢
      constructor
      · have hn : LittleEndian.bytes 2 (UInt64.ofNat functions.length) = [n0, n1] := by
          rw [hsize, UInt64.ofNat_toNat]
          exact LittleEndian.bytes_value [n0, n1] (by simp)
        rw [serialize, ← Decidable.not_not.1 hmagic]
        simp only [LittleEndian.bytes_toUInt16_value, List.size_toArray, hn]
        simp
      · refine ⟨Decidable.not_not.1 hversion, Nat.lt_of_not_le hentry, ?_, ?_⟩
        · simpa [hsize] using hfits
        · intro i f hf
          simpa using hplaced i f (by simpa using hf)

/-- The binary form is a bijection on well-formed images, and loading stays inside the data:
    exactly the well-formed images come back from their bytes, bytes that load are the bytes of the
    image they give, and reading them at a cursor never leaves the data. -/
theorem binary_form_bijective :
    (∀ image : Image, load image.serialize = .ok image ↔ image.WellFormed) ∧
    (∀ (bytes : List UInt8) (image : Image), load bytes = .ok image →
      image.serialize = bytes ∧ image.WellFormed) ∧
    (∀ bytes : List UInt8, loadAt bytes.toArray = (load bytes).mapError Stop.refused ∧
      loadAt bytes.toArray ≠ .error .outside) := by
  refine ⟨fun image => ⟨fun h => (serialize_of_load h).2, load_serialize⟩,
    fun _ _ => serialize_of_load, fun bytes => ?_⟩
  have hcursor := loadAt_eq bytes
  refine ⟨hcursor, ?_⟩
  rw [hcursor]
  cases load bytes <;> simp [Except.mapError]

end StackMachine.Image
