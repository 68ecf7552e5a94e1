/-!
# Little-endian numbers

Fixed-width numbers as bytes, lowest byte first. `bytes n w` spells the low `n` bytes of `w`,
`value` reads a list of bytes, and `valueAt` reads a run of bytes inside an array.
-/

namespace StackMachine.LittleEndian

/-- The `n` lowest bytes of a number, lowest first. -/
def bytes : Nat → UInt64 → List UInt8
  | 0, _ => []
  | n + 1, w => w.toUInt8 :: bytes n (w / 256)

/-- The number that a list of bytes spells. -/
def value : List UInt8 → UInt64
  | [] => 0
  | b :: rest => b.toUInt64 + 256 * value rest

/-- The number spelled by `n` bytes of `code` from offset `start`; bytes past the end read as
zero. -/
def valueAt (code : Array UInt8) (start : Nat) : Nat → UInt64
  | 0 => 0
  | n + 1 => (code.getD start 0).toUInt64 + 256 * valueAt code (start + 1) n

@[simp]
theorem length_bytes (n : Nat) (w : UInt64) : (bytes n w).length = n := by
  induction n generalizing w with
  | zero => rfl
  | succ n ih => simp [bytes, ih]

end StackMachine.LittleEndian
