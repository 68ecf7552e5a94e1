import StackMachine.Proofs.Image.RoundTrip

/-!
# Damaged images

What loading says of the bytes of an image with something missing at their end or something added.
An image is cut inside one of its records, the first that is no longer whole, and loading names the
function of that record with the number of bytes it still found there.

* `load_append`: bytes after an image are counted.
* `load_cut`: a cut behind the header is found at the first record that it damages.
* `load_damaged`: both, for all bytes that load.
-/

namespace StackMachine.Image

/-- The bytes of an image before the record of the function with index `k`. -/
def upTo (image : Image) (k : Nat) : List UInt8 :=
  image.header ++ (image.functions.toList.take k).flatMap Function.serialize

/-- What is found wrong with the record of the function with a given index, if only its first
    `left` bytes are there. -/
def Function.cutOff (f : Function) (index left : Nat) : LoadError :=
  if left < functionHeaderSize then .truncatedFunction index functionHeaderSize left
  else .truncatedFunction index f.code.size (left - functionHeaderSize)

/-! ## Prefixes -/

theorem length_header (image : Image) : image.header.length = headerSize := rfl

theorem upTo_append_serialize {image : Image} {k : Nat} {f : Function}
    (hf : image.functions[k]? = some f) : image.upTo (k + 1) = image.upTo k ++ f.serialize := by
  have htake : image.functions.toList.take (k + 1) = image.functions.toList.take k ++ [f] := by
    rw [List.take_add_one, Array.getElem?_toList, hf, Option.toList_some]
  rw [upTo, htake, List.flatMap_append, List.flatMap_singleton, ← List.append_assoc, ← upTo]

theorem upTo_mono (image : Image) {j k : Nat} (h : j ≤ k) : image.upTo j <+: image.upTo k := by
  have htake : image.functions.toList.take j <+: image.functions.toList.take k :=
    List.take_prefix_take_left h
  exact (List.prefix_append_right_inj _).2 (htake.flatMap _)

/-- A prefix of `a ++ b` that is not shorter than `a` goes on with a prefix of `b`. -/
theorem exists_of_prefix_append {a b p : List UInt8} (h : p <+: a ++ b)
    (hlen : a.length ≤ p.length) : ∃ q, p = a ++ q ∧ q <+: b := by
  obtain ⟨q, rfl⟩ := List.prefix_of_prefix_length_le (List.prefix_append a b) h hlen
  exact ⟨q, rfl, (List.prefix_append_right_inj a).1 h⟩

/-! ## Reading what is left of a table of functions -/

theorem readFunction_cut {f : Function} {index : Nat} {bytes : List UInt8}
    (h : f.WellFormed index) (hstart : bytes <+: f.serialize)
    (hcut : bytes.length < f.serialize.length) :
    readFunction index bytes = .error (f.cutOff index bytes.length) := by
  by_cases hshort : bytes.length < functionHeaderSize
  · rw [readFunction_of_short hshort, Function.cutOff, if_pos hshort]
  · have hheader : f.header.length = functionHeaderSize := rfl
    have hcode : f.code.toList.length = f.code.size := Array.length_toList
    rw [f.serialize_eq] at hstart hcut
    obtain ⟨code, rfl, -⟩ := exists_of_prefix_append hstart (by omega)
    rw [List.length_append, List.length_append] at hcut
    rw [readFunction_header h, if_pos (by omega), Function.cutOff, if_neg hshort,
      List.length_append, hheader, Nat.add_sub_cancel_left]

/-- A table that lost bytes at its end is read up to the first record that is not whole. -/
theorem readFunctions_cut {table : List Function} {read : Array Function} {bytes : List UInt8}
    (h : WellPlaced read.size table) (hstart : bytes <+: table.flatMap Function.serialize)
    (hcut : bytes.length < (table.flatMap Function.serialize).length) :
    ∃ k f, table[k]? = some f ∧ (table.take k).flatMap Function.serialize <+: bytes ∧
      bytes.length < ((table.take k).flatMap Function.serialize).length + f.serialize.length ∧
      readFunctions table.length read bytes = .error (f.cutOff (read.size + k)
        (bytes.length - ((table.take k).flatMap Function.serialize).length)) := by
  induction table generalizing read bytes with
  | nil => simp at hcut
  | cons f table ih =>
    obtain ⟨hf, htable⟩ := wellPlaced_cons.1 h
    rw [List.flatMap_cons] at hstart hcut
    rw [List.length_cons, readFunctions]
    by_cases hwhole : f.serialize.length ≤ bytes.length
    · -- the first record is whole, and the cut is in the rest of the table
      obtain ⟨rest, rfl, hrest⟩ := exists_of_prefix_append hstart hwhole
      rw [List.length_append, List.length_append] at hcut
      obtain ⟨k, g, hg, hpart, hinside, hread⟩ :=
        ih (show WellPlaced (read.push f).size table by simpa using htable) hrest (by omega)
      refine ⟨k + 1, g, hg, ?_, ?_, ?_⟩
      · rw [List.take_succ_cons, List.flatMap_cons]
        exact (List.prefix_append_right_inj _).2 hpart
      · simp only [List.take_succ_cons, List.flatMap_cons, List.length_append]
        omega
      · simp only [List.take_succ_cons, List.flatMap_cons, List.length_append,
          Nat.add_sub_add_left]
        rw [readFunction_serialize hf]
        simpa [Nat.add_assoc, Nat.add_comm 1 k] using hread
    · have hbytes : bytes <+: f.serialize :=
        List.prefix_of_prefix_length_le hstart (List.prefix_append _ _) (by omega)
      refine ⟨0, f, rfl, List.nil_prefix, by simpa using hwhole, ?_⟩
      rw [readFunction_cut hf hbytes (by omega)]
      rfl

/-! ## Loading what is left of an image -/

theorem load_append {image : Image} (h : image.WellFormed) {extra : List UInt8}
    (hextra : extra ≠ []) :
    load (image.serialize ++ extra) = .error (.trailingBytes extra.length) := by
  have hread : readFunctions image.functions.size #[]
      (image.functions.toList.flatMap Function.serialize ++ extra) =
        .ok (image.functions, extra) := by
    simpa using readFunctions_serialize h.wellPlaced extra
  rw [serialize_eq, List.append_assoc, load_header h, hread]
  exact if_pos hextra

/-- Behind the header, a cut image is refused at the first record that the cut damages. -/
theorem load_cut {image : Image} (h : image.WellFormed) {bytes : List UInt8}
    (hstart : bytes <+: image.serialize) (hcut : bytes.length < image.serialize.length)
    (hheader : headerSize ≤ bytes.length) :
    ∃ k f, IsLeast {j | ¬ image.upTo (j + 1) <+: bytes} k ∧ image.functions[k]? = some f ∧
      load bytes = .error (f.cutOff k (bytes.length - (image.upTo k).length)) := by
  rw [serialize_eq] at hstart hcut
  rw [← image.length_header] at hheader
  obtain ⟨rest, rfl, hrest⟩ := exists_of_prefix_append hstart hheader
  rw [List.length_append, List.length_append] at hcut
  obtain ⟨k, f, hf, hwhole, hinside, hread⟩ :=
    readFunctions_cut h.wellPlaced hrest (by omega)
  rw [Array.getElem?_toList] at hf
  have hupTo : image.upTo k <+: image.header ++ rest :=
    (List.prefix_append_right_inj _).2 hwhole
  refine ⟨k, f, ⟨fun hnext => ?_, fun j hj => ?_⟩, hf, ?_⟩
  · have hlen := hnext.length_le
    rw [upTo_append_serialize hf, upTo] at hlen
    simp only [List.length_append] at hlen
    omega
  · by_contra hlt
    exact hj ((image.upTo_mono (by omega)).trans hupTo)
  · have hleft : (image.header ++ rest).length - (image.upTo k).length =
        rest.length - ((image.functions.toList.take k).flatMap Function.serialize).length := by
      rw [upTo, List.length_append, List.length_append, Nat.add_sub_add_left]
    simp only [Array.length_toList, List.size_toArray, List.length_nil, Nat.zero_add] at hread
    rw [load_header h, hread, hleft]
    rfl

/-- Bytes that load are refused with anything after them, which is counted, and with anything
    missing at their end. Then the header is incomplete, or `k` is the first function whose record
    is not whole: the error names it and tells how many bytes were there, of the record as far as
    its header is concerned and after that of its code. -/
theorem load_damaged {bytes : List UInt8} {image : Image} (h : load bytes = .ok image) :
    (∀ extra, extra ≠ [] → load (bytes ++ extra) = .error (.trailingBytes extra.length)) ∧
    ∀ cut, cut <+: bytes → cut ≠ bytes →
      (cut.length < headerSize → load cut = .error (.tooShort cut.length headerSize)) ∧
      (headerSize ≤ cut.length →
        ∃ k f, IsLeast {j | ¬ image.upTo (j + 1) <+: cut} k ∧ image.functions[k]? = some f ∧
          load cut = .error (f.cutOff k (cut.length - (image.upTo k).length))) := by
  obtain ⟨rfl, hwf⟩ := serialize_of_load h
  refine ⟨fun extra hextra => load_append hwf hextra, fun cut hstart hne => ⟨load_of_short, ?_⟩⟩
  have hcut : cut.length < image.serialize.length :=
    Nat.lt_of_le_of_ne hstart.length_le fun hlen => hne (hstart.eq_of_length hlen)
  exact load_cut hwf hstart hcut

/-- A function that gives nothing, and one that prints what it reads. -/
def echo : Image := ⟨1, 0, 0, #[⟨0, 0, 0, #[0x49]⟩, ⟨1, 0, 0, #[0x71, 0x70, 0x49]⟩]⟩

theorem load_damaged_echo :
    load echo.serialize = .ok echo ∧
    load (echo.serialize ++ [0]) = .error (.trailingBytes 1) ∧
    load (echo.serialize.take 11) = .error (.tooShort 11 12) ∧
    (∃ k f, IsLeast {j | ¬ echo.upTo (j + 1) <+: echo.serialize.take 27} k ∧
      echo.functions[k]? = some f ∧ load (echo.serialize.take 27) =
        .error (f.cutOff k ((echo.serialize.take 27).length - (echo.upTo k).length))) ∧
    load (echo.serialize.take 27) = .error (.truncatedFunction 1 3 2) := by
  have h : load echo.serialize = .ok echo := by decide
  obtain ⟨hextra, hcut⟩ := load_damaged h
  have htake (n : Nat) : echo.serialize.take n <+: echo.serialize := List.take_prefix n _
  exact ⟨h, hextra [0] (by decide),
    (hcut _ (htake 11) (by decide)).1 (by decide),
    (hcut _ (htake 27) (by decide)).2 (by decide), by decide⟩

end StackMachine.Image
