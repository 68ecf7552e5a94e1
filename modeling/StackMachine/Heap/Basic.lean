import StackMachine.Fault
import StackMachine.Queue
import StackMachine.Word

/-!
# The heap

Arrays live in numbered slots. A handle names a slot and a generation; freeing an array raises
the generation of its slot, so that old handles stop resolving. A slot whose generation is
exhausted is retired: it is never used again. Free slots wait in a queue, and a new slot is made
only when the queue is empty.

An array of `n` words counts as `n + 1` words of the heap. A collection is due when the words
allocated since the last one, together with those that survived it, reach the threshold.

The memory of the arrays comes from an allocator, which may have none for an array. Nothing is
known of an allocator but that its answer depends on the length of the array.
-/

namespace StackMachine

/-- One slot: the generation of its current or next array, the collector's mark, and the array,
if there is one. -/
structure Slot where
  generation : Nat
  marked : Bool
  contents : Option (Array Word)
deriving DecidableEq, Inhabited

namespace Slot

/-- What the array of a slot counts for. -/
def words (s : Slot) : Nat :=
  match s.contents with
  | some array => array.size + 1
  | none => 0

/-- Whether a slot has an array. -/
def isLive (s : Slot) : Bool := s.contents.isSome

/-- Whether a slot without array may be used again. -/
def reusable (s : Slot) : Bool := s.generation < Handle.maxGeneration

/-- The slot after its array is freed. The last generation is kept. -/
def release (s : Slot) : Slot :=
  ⟨if s.reusable then s.generation + 1 else s.generation, false, none⟩

end Slot

/-- The source of memory: the lengths of arrays for which it has none. -/
structure Allocator where
  refuses : Nat → Bool
deriving Inhabited

/-- An allocator that has memory for every array. -/
def Allocator.willing : Allocator := ⟨fun _ => false⟩

/-- The slots, the free ones among them in the order of reuse, the accounts of the collector, and
the allocator that the arrays come from. -/
structure Heap where
  slots : Array Slot
  free : Queue Nat
  words : Nat
  threshold : Nat
  initialThreshold : Nat
  collects : Bool
  allocator : Allocator
deriving Inhabited

namespace Heap

/-- The threshold of a heap that is given none. -/
def defaultThreshold : Nat := 1048576

/-- The length from which on an array does not fit into the address space. -/
def lengthBound : Nat := 0x1000000000000000

/-- The number of slots that handles can name. -/
def slotBound : Nat := 0x100000000

/-- A heap without slots. -/
def empty (threshold : Nat) (collects : Bool) (allocator : Allocator := .willing) : Heap :=
  ⟨#[], .empty, 0, threshold, threshold, collects, allocator⟩

/-! ## Allocation -/

/-- Puts a new array into the first free slot, or into a new one. -/
def place (h : Heap) (length : Int) (array : Array Word) : EStateM.Result Fault Heap Word :=
  let words := h.words + array.size + 1
  match h.free.pop? with
  | some (index, free) =>
    let generation := match h.slots[index]? with
      | some s => s.generation
      | none => 0
    let slots := h.slots.modify index fun s => ⟨s.generation, false, some array⟩
    .ok (.ofHandle ⟨index, generation⟩) { h with slots, free, words }
  | none =>
    if h.slots.size < slotBound then
      let index := h.slots.size
      .ok (.ofHandle ⟨index, 0⟩) { h with slots := h.slots.push ⟨0, false, some array⟩, words }
    else .error (.outOfMemory length) { h with words }

/-- Whether there is memory for an array of the given length. -/
def grants (h : Heap) (length : Nat) : Bool :=
  length < lengthBound && !h.allocator.refuses length

/-- Makes an array of zeros and gives its handle. -/
def alloc (length : Int64) : EStateM Fault Heap Word := fun h =>
  let n := length.toInt
  if n < 0 then .error (.negativeArrayLength n) h
  else if !h.grants n.toNat then .error (.outOfMemory n) h
  else h.place n (Array.replicate n.toNat .zero)

/-! ## Access -/

/-- The array that a handle resolves to. -/
def resolve? (h : Heap) (handle : Handle) : Option (Array Word) :=
  match h.slots[handle.index]? with
  | some s => if s.generation = handle.generation then s.contents else none
  | none => none

/-- The array that a word names. -/
def get (h : Heap) (w : Word) : Except Fault (Array Word) :=
  match w.handle? with
  | none => .error (.notAnArray w.bits.toNat)
  | some handle =>
    match h.resolve? handle with
    | some array => .ok array
    | none => .error (.invalidHandle w.bits.toNat)

/-- Whether a word names an array. -/
def isLive (h : Heap) (w : Word) : Bool := (h.get w).toBool

/-- The position that an index word stands for in an array of the given length. -/
def position (index : Word) (length : Nat) : Except Fault Nat :=
  let i := index.toInt.toInt
  if 0 ≤ i ∧ i.toNat < length then .ok i.toNat else .error (.indexOutOfBounds i length)

/-- Reads an element. -/
def load (h : Heap) (array index : Word) : Except Fault Word :=
  match h.get array with
  | .error e => .error e
  | .ok words =>
    match position index words.size with
    | .error e => .error e
    | .ok i => .ok (words.getD i .zero)

/-- Where an element is: its slot and its position there. -/
def locate (h : Heap) (array index : Word) : Except Fault (Nat × Nat) :=
  match array.handle? with
  | none => .error (.notAnArray array.bits.toNat)
  | some handle =>
    match h.resolve? handle with
    | none => .error (.invalidHandle array.bits.toNat)
    | some words => (position index words.size).map fun i => (handle.index, i)

/-- Overwrites the element at a position of a slot. -/
def put (h : Heap) (slot i : Nat) (w : Word) : Heap :=
  { h with slots := h.slots.modify slot fun s =>
      ⟨s.generation, s.marked, match s.contents with
        | some array => some (array.setIfInBounds i w)
        | none => none⟩ }

/-- Writes an element. -/
def store (array index w : Word) : EStateM Fault Heap Unit := fun h =>
  match h.locate array index with
  | .error e => .error e h
  | .ok (slot, i) => .ok () (h.put slot i w)

/-- The length of an array. -/
def length (h : Heap) (array : Word) : Except Fault Nat :=
  match h.get array with
  | .error e => .error e
  | .ok words => .ok words.size

/-! ## Accounts -/

/-- Whether the next allocation is preceded by a collection. -/
def due (h : Heap) : Bool := h.collects && h.threshold ≤ h.words

/-- The number of arrays. -/
def count (h : Heap) : Nat := h.slots.countP Slot.isLive

/-- The words of all arrays. -/
def liveWords (h : Heap) : Nat := h.slots.foldl (fun n s => n + s.words) 0

/-- The indices of the slots that satisfy `p`, in ascending order. -/
def indices (slots : Array Slot) (p : Slot → Bool) : List Nat :=
  (slots.toList.zipIdx.filter fun (s, _) => p s).map Prod.snd

/-- Frees every array. All slots that are not retired are queued again in ascending order. -/
def clear (h : Heap) : Heap :=
  { h with
    slots := h.slots.map fun s => if s.isLive then s.release else s
    free := .ofList (indices h.slots Slot.reusable)
    words := 0
    threshold := h.initialThreshold }

end Heap

end StackMachine
