import StackMachine.Image.Basic

/-!
# The binary form of an image

An image is stored as a header of twelve bytes and one record per function, all numbers
little-endian:

* four bytes `SVMB`, then version, entry, number of globals and number of functions with two
  bytes each;
* per function one byte for the arity, one for the locals, four for the length of the code, and
  the code.

`Image.serialize` writes this form and `Image.load` reads it, checking on the way that the
version is known, that locals hold the parameters, that nothing is missing or left over and that
the entry names a function.
-/

namespace StackMachine

/-- Why bytes are not an image. -/
inductive LoadError where
  | tooShort (length needed : Nat)
  | badMagic (magic : Nat)
  | unsupportedVersion (found expected : Nat)
  | truncatedFunction (index needed available : Nat)
  | localsBelowArity (index arity locals : Nat)
  | invalidEntryPoint (entry count : Nat)
  | trailingBytes (count : Nat)
deriving DecidableEq, Repr, Inhabited

/-- The text of the error. -/
def LoadError.message : LoadError → String
  | tooShort length needed =>
    "module too short: " ++ Decimal.ofNat length ++ " bytes (header needs "
      ++ Decimal.ofNat needed ++ ")"
  | badMagic magic => "invalid magic number: " ++ Hex.marked 8 magic
  | unsupportedVersion found expected =>
    "unsupported version: " ++ Decimal.ofNat found ++ " (expected " ++ Decimal.ofNat expected
      ++ ")"
  | truncatedFunction index needed available =>
    "function " ++ Decimal.ofNat index ++ ": header or code truncated (needs "
      ++ Decimal.ofNat needed ++ " bytes, " ++ Decimal.ofNat available ++ " available)"
  | localsBelowArity index arity locals =>
    "function " ++ Decimal.ofNat index ++ ": local count " ++ Decimal.ofNat locals
      ++ " is smaller than arity " ++ Decimal.ofNat arity
  | invalidEntryPoint entry count =>
    "entry point " ++ Decimal.ofNat entry ++ " does not name one of " ++ Decimal.ofNat count
      ++ " functions"
  | trailingBytes count => Decimal.ofNat count ++ " trailing bytes after the function table"

namespace Image

/-- The bytes `SVMB`. -/
def magic : List UInt8 := [0x53, 0x56, 0x4D, 0x42]

/-- The version of the format. -/
def formatVersion : UInt16 := 1

/-- The number of bytes of the header. -/
def headerSize : Nat := 12

/-- The number of bytes before the code of a function. -/
def functionHeaderSize : Nat := 6

/-! ## Writing -/

/-- The record of one function. -/
def Function.serialize (f : Function) : List UInt8 :=
  f.arity :: f.locals :: LittleEndian.bytes 4 (UInt64.ofNat f.code.size) ++ f.code.toList

/-- The bytes of an image. The number of functions keeps its low sixteen bits, a code length its
low 32. -/
def serialize (image : Image) : List UInt8 :=
  magic ++ LittleEndian.bytes 2 image.version.toUInt64
    ++ LittleEndian.bytes 2 image.entry.toUInt64
    ++ LittleEndian.bytes 2 image.globals.toUInt64
    ++ LittleEndian.bytes 2 (UInt64.ofNat image.functions.size)
    ++ image.functions.toList.flatMap Function.serialize

/-! ## Reading -/

/-- Reads the record of the function with a given index and gives back the bytes after it. -/
def readFunction (index : Nat) : List UInt8 → Except LoadError (Function × List UInt8)
  | arity :: locals :: b0 :: b1 :: b2 :: b3 :: rest =>
    let length := (LittleEndian.value [b0, b1, b2, b3]).toNat
    if locals < arity then .error (.localsBelowArity index arity.toNat locals.toNat)
    else
      let code := rest.take length
      if code.length < length then
        .error (.truncatedFunction index length rest.length)
      else .ok (⟨UInt16.ofNat index, arity, locals, code.toArray⟩, rest.drop length)
  | bytes => .error (.truncatedFunction index functionHeaderSize bytes.length)

/-- Reads `count` function records after those already read. -/
def readFunctions (count : Nat) (read : Array Function) (bytes : List UInt8) :
    Except LoadError (Array Function × List UInt8) :=
  match count with
  | 0 => .ok (read, bytes)
  | count + 1 =>
    match readFunction read.size bytes with
    | .error e => .error e
    | .ok (f, rest) => readFunctions count (read.push f) rest

/-- Reads an image. -/
def load : List UInt8 → Except LoadError Image
  | m0 :: m1 :: m2 :: m3 :: v0 :: v1 :: e0 :: e1 :: g0 :: g1 :: n0 :: n1 :: rest =>
    let version := (LittleEndian.value [v0, v1]).toUInt16
    let entry := (LittleEndian.value [e0, e1]).toUInt16
    let globals := (LittleEndian.value [g0, g1]).toUInt16
    if [m0, m1, m2, m3] ≠ magic then
      .error (.badMagic (LittleEndian.value [m0, m1, m2, m3]).toNat)
    else if version ≠ formatVersion then
      .error (.unsupportedVersion version.toNat formatVersion.toNat)
    else
      match readFunctions (LittleEndian.value [n0, n1]).toNat #[] rest with
      | .error e => .error e
      | .ok (functions, rest) =>
        if rest ≠ [] then .error (.trailingBytes rest.length)
        else if functions.size ≤ entry.toNat then
          .error (.invalidEntryPoint entry.toNat functions.size)
        else .ok ⟨version, globals, entry, functions⟩
  | bytes => .error (.tooShort bytes.length headerSize)

end Image

end StackMachine
