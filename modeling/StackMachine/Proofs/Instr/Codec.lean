import StackMachine.Instr.Codec
import StackMachine.Proofs.LittleEndian

/-!
# Instructions are read back

An instruction that stands in code is read as it was written, whatever stands before and behind it.
Code that consists of instructions is therefore swept into exactly these instructions. What is read
stands in the code as it is written.

* `Opcode.ofByte?_byte`, `Opcode.ofName?_name`: the tables of bytes and mnemonics agree.
* `Code.decode_encode`: the instruction at an offset.
* `Code.encode_of_decode`: the bytes of an instruction that was read.
* `Code.sweep_ofInstrs`: all instructions of the code, with their offsets.
* `Code.encoding_bijective`: instructions and bytes determine each other.
-/

namespace StackMachine

/-! ## Opcodes -/

namespace Opcode

/-- The first byte tells which opcode an instruction has. -/
theorem ofByte?_byte (op : Opcode) : ofByte? op.byte = some op := by
  cases op with
  | binary op => cases op <;> rfl
  | unary op => cases op <;> rfl
  | jump branch => cases branch <;> rfl
  | _ => rfl

theorem byte_of_ofByte? {b : UInt8} {op : Opcode} (h : ofByte? b = some op) :
    op.byte = b := by
  unfold ofByte? at h
  split at h <;> cases h <;> rfl

/-- Every opcode. -/
def all : List Opcode :=
  [nop, pushInt, pushDouble, pop, dup,
   binary .add, binary .sub, binary .mul, binary .div, binary .mod, unary .neg,
   binary .eq, binary .ne, binary .lt, binary .le, binary .gt, binary .ge,
   binary .dadd, binary .dsub, binary .dmul, binary .ddiv, binary .dmod, unary .dneg,
   binary .deq, binary .dne, binary .dlt, binary .dle, binary .dgt, binary .dge,
   unary .i2d, unary .d2i, unary .dsqrt,
   jump .always, jump .ifZero, jump .ifNotZero, call, ret,
   loadLocal, storeLocal, loadGlobal, storeGlobal,
   arrayNew, arrayLoad, arrayStore, arrayLen, printInt, readInt, halt]

theorem mem_all (op : Opcode) : op ∈ all := by
  cases op with
  | binary op => cases op <;> decide
  | unary op => cases op <;> decide
  | jump branch => cases branch <;> decide
  | _ => decide

end Opcode

/-! ## Mnemonics -/

namespace Instr

theorem name_of_ofPlainName? {name : String} {i : Instr} (h : ofPlainName? name = some i) :
    i.name = name := by
  unfold ofPlainName? at h
  split at h <;> cases h <;> rfl

/-- An instruction that has no operand is known by its mnemonic. -/
theorem ofPlainName?_name {i : Instr} (h : i.opcode.operandSize = 0) :
    ofPlainName? i.name = some i := by
  cases i with
  | binary op => cases op <;> rfl
  | unary op => cases op <;> rfl
  | pushInt | pushDouble | jump | call | loadLocal | storeLocal | loadGlobal | storeGlobal =>
    cases h
  | _ => rfl

end Instr

namespace Opcode

/-- The opcode with a given mnemonic. -/
def ofName? (name : String) : Option Opcode := (Instr.placeholder? name).map Instr.opcode

/-- The mnemonic tells the opcode as well. -/
theorem ofName?_name (op : Opcode) : ofName? op.name = some op := by
  have hall : ∀ op ∈ all, ofName? op.name = some op := by decide
  exact hall op op.mem_all

end Opcode

/-! ## Operands -/

namespace LittleEndian

theorem valueAt_append (pre bytes post : List UInt8) :
    valueAt (pre ++ bytes ++ post).toArray pre.length bytes.length = value bytes := by
  induction bytes generalizing pre with
  | nil => rfl
  | cons b bytes ih =>
    have hrest := ih (pre ++ [b])
    simp only [List.append_assoc, List.cons_append, List.nil_append, List.length_append,
      List.length_cons, List.length_nil, Nat.zero_add] at hrest
    simp [valueAt, value, hrest, Array.getD_eq_getD_getElem?]

theorem valueAt_eq (code : Array UInt8) {pc n : Nat} (h : pc + n ≤ code.size) :
    valueAt code pc n = value ((code.toList.drop pc).take n) := by
  have hpc : (code.toList.take pc).length = pc := by
    rw [List.length_take, Array.length_toList]
    omega
  have hn : ((code.toList.drop pc).take n).length = n := by
    rw [List.length_take, List.length_drop, Array.length_toList]
    omega
  have hvalue := valueAt_append (code.toList.take pc) ((code.toList.drop pc).take n)
    ((code.toList.drop pc).drop n)
  rwa [hpc, hn, List.append_assoc, List.take_append_drop, List.take_append_drop] at hvalue

@[simp]
theorem value_bytes_eight (w : UInt64) : value (bytes 8 w) = w := by
  have hw := w.toNat_lt
  exact value_bytes (by omega)

@[simp]
theorem value_bytes_four (w : UInt32) : value (bytes 4 w.toUInt64) = w.toUInt64 := by
  have hw := w.toNat_lt
  exact value_bytes (by rw [UInt32.toNat_toUInt64]; omega)

@[simp]
theorem value_bytes_two (w : UInt16) : value (bytes 2 w.toUInt64) = w.toUInt64 := by
  have hw := w.toNat_lt
  exact value_bytes (by rw [UInt16.toNat_toUInt64]; omega)

@[simp]
theorem value_bytes_one (w : UInt8) : value (bytes 1 w.toUInt64) = w.toUInt64 := by
  have hw := w.toNat_lt
  exact value_bytes (by rw [UInt8.toNat_toUInt64]; omega)

end LittleEndian

namespace Instr

theorem length_operandBytes (i : Instr) : i.operandBytes.length = i.opcode.operandSize := by
  cases i <;> simp [operandBytes, opcode, Opcode.operandSize]

theorem length_encode (i : Instr) : i.encode.length = i.size := by
  rw [encode, List.length_cons, length_operandBytes, size, Opcode.size, Nat.add_comm]

/-- The operand is read back from its bytes. -/
theorem instr_operandBytes (i : Instr) :
    i.opcode.instr (LittleEndian.value i.operandBytes) = i := by
  cases i <;> simp [operandBytes, opcode, Opcode.instr]

end Instr

theorem Opcode.opcode_instr (op : Opcode) (operand : UInt64) : (op.instr operand).opcode = op := by
  cases op <;> rfl

/-- The bytes of an operand are written back. -/
theorem Opcode.operandBytes_instr (op : Opcode) {bs : List UInt8}
    (h : bs.length = op.operandSize) : (op.instr (LittleEndian.value bs)).operandBytes = bs := by
  have hlen : bs.length ≤ 8 := by
    rw [h]
    cases op <;> simp [operandSize]
  have hlt := LittleEndian.toNat_value_lt bs hlen
  have hbytes := LittleEndian.bytes_value bs hlen
  rw [h] at hlt hbytes
  cases op with
  | pushInt =>
    show LittleEndian.bytes 8 (LittleEndian.value bs).toInt64.toUInt64 = bs
    rwa [UInt64.toUInt64_toInt64]
  | pushDouble => exact hbytes
  | jump branch =>
    show LittleEndian.bytes 4 (LittleEndian.value bs).toUInt32.toInt32.toUInt32.toUInt64 = bs
    have hword : (LittleEndian.value bs).toUInt32.toUInt64 = LittleEndian.value bs := by
      apply UInt64.toNat_inj.1
      rw [UInt32.toNat_toUInt64, UInt64.toNat_toUInt32]
      exact Nat.mod_eq_of_lt hlt
    rwa [UInt32.toUInt32_toInt32, hword]
  | call | loadGlobal | storeGlobal =>
    show LittleEndian.bytes 2 (LittleEndian.value bs).toUInt16.toUInt64 = bs
    have hword : (LittleEndian.value bs).toUInt16.toUInt64 = LittleEndian.value bs := by
      apply UInt64.toNat_inj.1
      rw [UInt16.toNat_toUInt64, UInt64.toNat_toUInt16]
      exact Nat.mod_eq_of_lt hlt
    rwa [hword]
  | loadLocal | storeLocal =>
    show LittleEndian.bytes 1 (LittleEndian.value bs).toUInt8.toUInt64 = bs
    have hword : (LittleEndian.value bs).toUInt8.toUInt64 = LittleEndian.value bs := by
      apply UInt64.toNat_inj.1
      rw [UInt8.toNat_toUInt64, UInt64.toNat_toUInt8]
      exact Nat.mod_eq_of_lt hlt
    rwa [hword]
  | _ => exact (List.eq_nil_of_length_eq_zero h).symm

/-! ## Code -/

namespace Code

/-- The size that comes with an instruction is its own. -/
theorem decodeSized_eq (code : Code) (pc : Nat) :
    code.decodeSized pc = (code.decode pc).map fun i => (i, i.size) := by
  unfold decode decodeSized
  cases code[pc]? with
  | none => rfl
  | some b =>
    dsimp only
    cases Opcode.ofByte? b with
    | none => rfl
    | some op =>
      dsimp only
      split_ifs
      · simp only [Except.map, Instr.size, Opcode.opcode_instr]
      · rfl

theorem decodeSized_eq_ok_iff {code : Code} {pc n : Nat} {i : Instr} :
    code.decodeSized pc = .ok (i, n) ↔ code.decode pc = .ok i ∧ n = i.size := by
  rw [decodeSized_eq]
  cases code.decode pc with
  | error e => simp [Except.map]
  | ok j =>
    simp only [Except.map, Except.ok.injEq, Prod.mk.injEq]
    constructor
    · rintro ⟨rfl, rfl⟩
      exact ⟨rfl, rfl⟩
    · rintro ⟨rfl, rfl⟩
      exact ⟨rfl, rfl⟩

/-- What it takes for an instruction to be read. -/
theorem decode_eq_ok_iff {code : Code} {pc : Nat} {i : Instr} :
    code.decode pc = .ok i ↔
      ∃ b op, code[pc]? = some b ∧ Opcode.ofByte? b = some op ∧ pc + op.size ≤ code.size ∧
        i = op.instr (LittleEndian.valueAt code (pc + 1) op.operandSize) := by
  unfold decode decodeSized
  cases hb : code[pc]? with
  | none => simp
  | some b =>
    cases hop : Opcode.ofByte? b with
    | none => simp [hop]
    | some op =>
      by_cases hfits : pc + op.size ≤ code.size
      · simp [hop, hfits, eq_comm]
      · simp [hop, hfits]

/-- An instruction that can be read lies within the code. -/
theorem add_size_le_of_decode {code : Code} {pc : Nat} {i : Instr}
    (h : code.decode pc = .ok i) : pc + i.size ≤ code.size := by
  obtain ⟨b, op, -, -, hfits, rfl⟩ := decode_eq_ok_iff.1 h
  rwa [Instr.size, Opcode.opcode_instr]

/-- An instruction that stands in code is read as it was written. -/
theorem decode_encode (pre post : List UInt8) (i : Instr) :
    Code.decode (pre ++ i.encode ++ post).toArray pre.length = .ok i := by
  have hsize := i.length_encode
  have hfirst : (pre ++ i.encode ++ post).toArray[pre.length]? = some i.opcode.byte := by
    simp [Instr.encode]
  have hfits : pre.length + i.opcode.size ≤ (pre ++ i.encode ++ post).toArray.size := by
    rw [List.size_toArray, List.length_append, List.length_append, hsize, Instr.size]
    omega
  have hoperand : LittleEndian.valueAt (pre ++ i.encode ++ post).toArray (pre.length + 1)
      i.opcode.operandSize = LittleEndian.value i.operandBytes := by
    rw [← i.length_operandBytes]
    simpa [Instr.encode] using
      LittleEndian.valueAt_append (pre ++ [i.opcode.byte]) i.operandBytes post
  refine decode_eq_ok_iff.2 ⟨_, _, hfirst, i.opcode.ofByte?_byte, hfits, ?_⟩
  rw [hoperand, i.instr_operandBytes]

theorem decode_of_drop {code : Code} {pc : Nat} {i : Instr} {post : List UInt8}
    (h : code.toList.drop pc = i.encode ++ post) : code.decode pc = .ok i := by
  have hpc : (code.toList.take pc).length = pc := by
    have hlen := congrArg List.length h
    have hpos := i.size_pos
    rw [List.length_drop, List.length_append, i.length_encode] at hlen
    rw [List.length_take]
    omega
  have hdecode := decode_encode (code.toList.take pc) post i
  rwa [List.append_assoc, ← h, List.take_append_drop, hpc] at hdecode

/-- The bytes of an instruction that was read are those that it is written as. -/
theorem encode_of_decode {code : Code} {pc : Nat} {i : Instr}
    (h : code.decode pc = .ok i) :
    code.toList.drop pc = i.encode ++ code.toList.drop (pc + i.size) := by
  obtain ⟨b, op, hb, hop, hfits, rfl⟩ := decode_eq_ok_iff.1 h
  rw [Opcode.size] at hfits
  have hlen : ((code.toList.drop (pc + 1)).take op.operandSize).length = op.operandSize := by
    rw [List.length_take, List.length_drop, Array.length_toList]
    omega
  rw [Instr.size, Instr.encode, Opcode.opcode_instr, Opcode.byte_of_ofByte? hop,
    LittleEndian.valueAt_eq code (by omega), Opcode.operandBytes_instr op hlen]
  obtain ⟨hpc, rfl⟩ := Array.getElem?_eq_some_iff.1 hb
  rw [List.drop_eq_getElem_cons (by simpa using hpc), List.cons_append, Opcode.size,
    ← Nat.add_assoc, ← List.drop_drop (i := op.operandSize), List.take_append_drop]
  rfl

end Code

/-- Instructions with their offsets, when the first one stands at `pc`. -/
def Instr.placed (pc : Nat) : List Instr → List (Nat × Instr)
  | [] => []
  | i :: is => (pc, i) :: placed (pc + i.size) is

theorem Instr.map_snd_placed (pc : Nat) (is : List Instr) :
    (Instr.placed pc is).map Prod.snd = is := by
  induction is generalizing pc with
  | nil => rfl
  | cons i is ih =>
    rw [Instr.placed, List.map_cons, ih]

namespace Code

theorem sweepFrom_flatMap (pre : List UInt8) (is : List Instr) :
    sweepFrom (pre ++ is.flatMap Instr.encode).toArray pre.length =
      ⟨Instr.placed pre.length is, none⟩ := by
  induction is generalizing pre with
  | nil =>
    rw [sweepFrom, if_pos (by simp)]
    rfl
  | cons i is ih =>
    have hdecode := decode_encode pre (is.flatMap Instr.encode) i
    have hrest := ih (pre ++ i.encode)
    rw [List.length_append, i.length_encode] at hrest
    rw [List.append_assoc] at hdecode hrest
    have hpos := i.size_pos
    rw [List.flatMap_cons, sweepFrom, if_neg, hdecode]
    · simp only [hrest, Instr.placed]
    · simp [i.length_encode]
      omega

/-- Sweeping code gives back the instructions that it consists of. -/
theorem sweep_ofInstrs (is : List Instr) : (ofInstrs is).sweep = ⟨Instr.placed 0 is, none⟩ :=
  sweepFrom_flatMap [] is

/-- The part of the code that an instruction was read from. -/
theorem toList_extract_of_decode {code : Code} {pc : Nat} {i : Instr}
    (h : code.decode pc = .ok i) : (code.extract pc (pc + i.size)).toList = i.encode := by
  rw [Array.toList_extract, List.extract_eq_take_drop, Nat.add_sub_cancel_left,
    encode_of_decode h, ← i.length_encode, List.take_left]

/-- **Instructions and bytes determine each other.** An instruction is read as it was written,
    whatever stands around it, and with the number of its bytes as its size; the bytes that an
    instruction was read from, as many as its size says, are those that it is written as. So the
    sweep of the code of a list of instructions gives this list, without getting stuck, and no two
    lists have the same code. -/
theorem encoding_bijective :
    (∀ (pre post : List UInt8) (i : Instr),
      Code.decodeSized (pre ++ i.encode ++ post).toArray pre.length = .ok (i, i.size) ∧
        i.size = i.encode.length) ∧
      (∀ (code : Code) (pc n : Nat) (i : Instr), code.decodeSized pc = .ok (i, n) →
        pc + n ≤ code.size ∧ (code.extract pc (pc + n)).toList = i.encode) ∧
      (∀ is : List Instr, (ofInstrs is).sweep.instrs.map Prod.snd = is ∧
        (ofInstrs is).sweep.stuck = none) ∧
      Function.Injective ofInstrs := by
  have hsweep : ∀ is : List Instr, (ofInstrs is).sweep.instrs.map Prod.snd = is := by
    intro is
    rw [sweep_ofInstrs]
    exact Instr.map_snd_placed 0 is
  refine ⟨?_, ?_, ?_, ?_⟩
  · intro pre post i
    exact ⟨decodeSized_eq_ok_iff.2 ⟨decode_encode pre post i, rfl⟩, i.length_encode.symm⟩
  · intro code pc n i h
    obtain ⟨hdecode, rfl⟩ := decodeSized_eq_ok_iff.1 h
    exact ⟨add_size_le_of_decode hdecode, toList_extract_of_decode hdecode⟩
  · intro is
    exact ⟨hsweep is, by rw [sweep_ofInstrs]⟩
  · intro is js h
    rw [← hsweep is, ← hsweep js, h]

end Code

end StackMachine
