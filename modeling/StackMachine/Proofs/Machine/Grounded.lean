import StackMachine.Proofs.Heap.Freshness
import StackMachine.Proofs.Machine.Invariant

/-!
# Handles that name arrays

A handle dangles when its array has been freed. Collections free only what the program cannot reach,
and nothing but an allocation makes new handles, so that no handle in the memory ever dangles, as
long as the program does not make one up out of an integer.

* `Memory.Grounded`: every handle in the memory names an array.
* `Memory.grounded`: this is an invariant of runs.
-/

namespace StackMachine

namespace Heap

/-- The word names an array, if it is a handle at all. -/
def Resolves (h : Heap) (w : Word) : Prop := ∀ handle, w.handle? = some handle → h.Current handle

/-- The word is an element of an array. -/
def IsElement (h : Heap) (w : Word) : Prop :=
  ∃ (i : Nat) (array : Array Word), arrayAt? h.slots i = some array ∧ w ∈ array

/-- All arrays are as short as allocation makes them. -/
def Short (h : Heap) : Prop :=
  ∀ (i : Nat) (array : Array Word), arrayAt? h.slots i = some array → array.size < lengthBound

variable {h h' : Heap} {w : Word}

theorem resolves_of_plain (hw : w.handle? = none) : h.Resolves w := by
  intro handle hh
  rw [hw] at hh
  cases hh

theorem resolves_iff : h.Resolves w ↔ (w.isHandle = true → h.isLive w = true) := by
  cases hw : w.handle? with
  | none =>
    have hplain := Word.isHandle_eq_false_iff.2 hw
    simp [Resolves, hw, hplain]
  | some handle =>
    have htagged : w.isHandle = true := by
      rw [← Bool.not_eq_false, Word.isHandle_eq_false_iff, hw]
      simp
    simp [Resolves, hw, htagged, isLive_iff hw]

/-! ## Access -/

/-- What a word gives access to is the array of a slot. -/
theorem arrayAt?_of_get {array : Array Word} (hget : h.get w = .ok array) :
    ∃ i, arrayAt? h.slots i = some array := by
  unfold get at hget
  cases hw : w.handle? with
  | none => simp [hw] at hget
  | some handle =>
    cases hr : h.resolve? handle with
    | none => simp [hw, hr] at hget
    | some xs =>
      obtain ⟨s, hs, -, hc⟩ := resolve?_eq_some.1 hr
      simp only [hw, hr, Except.ok.injEq] at hget
      subst hget
      exact ⟨handle.index, arrayAt?_eq_some.2 ⟨s, hs, hc⟩⟩

theorem lt_of_position {index : Word} {n i : Nat} (hi : position index n = .ok i) : i < n := by
  unfold position at hi
  dsimp only at hi
  split_ifs at hi with hbounds
  obtain rfl := Except.ok.inj hi
  exact hbounds.2

theorem isElement_of_load {array index : Word} (hload : h.load array index = .ok w) :
    h.IsElement w := by
  unfold load at hload
  split at hload
  · cases hload
  next words hget =>
    obtain ⟨i, hi⟩ := arrayAt?_of_get hget
    split at hload
    · cases hload
    next k hk =>
      obtain rfl := Except.ok.inj hload
      refine ⟨i, words, hi, ?_⟩
      rw [Array.getD_eq_getD_getElem?, Array.getElem?_eq_getElem (lt_of_position hk)]
      exact Array.getElem_mem _

theorem Short.length_lt (hs : h.Short) {n : Nat} (hlength : h.length w = .ok n) :
    n < lengthBound := by
  unfold length at hlength
  split at hlength
  · cases hlength
  next words hget =>
    obtain ⟨i, hi⟩ := arrayAt?_of_get hget
    obtain rfl := Except.ok.inj hlength
    exact hs i words hi

/-! ## Changes of the heap -/

theorem not_isElement_clear (h : Heap) (w : Word) : ¬ h.clear.IsElement w := by
  rintro ⟨i, array, harray, -⟩
  exact h.vacant_clear i (by rw [harray]; rfl)

theorem short_clear (h : Heap) : h.clear.Short := by
  intro i array harray
  exact absurd (by rw [harray]; rfl) (h.vacant_clear i)

theorem arrayAt?_put (i k : Nat) (j : Nat) :
    arrayAt? (h.put i k w).slots j =
      (arrayAt? h.slots j).map fun array => if i = j then array.setIfInBounds k w else array := by
  rw [arrayAt?, getElem?_put, arrayAt?]
  cases h.slots[j]? with
  | none => rfl
  | some s =>
    by_cases hij : i = j
    · simp [hij]
    · simp [hij]

/-- A write adds no element but the word that is written. -/
theorem isElement_put {v : Word} {i k : Nat} (hv : (h.put i k w).IsElement v) :
    h.IsElement v ∨ v = w := by
  obtain ⟨j, array, harray, hmem⟩ := hv
  rw [arrayAt?_put] at harray
  obtain ⟨old, hold, rfl⟩ := Option.map_eq_some_iff.1 harray
  split_ifs at hmem
  · rcases Array.mem_or_eq_of_mem_setIfInBounds hmem with hmem | rfl
    · exact .inl ⟨j, old, hold, hmem⟩
    · exact .inr rfl
  · exact .inl ⟨j, old, hold, hmem⟩

theorem Short.put (hs : h.Short) (i k : Nat) (w : Word) : (h.put i k w).Short := by
  intro j array harray
  rw [arrayAt?_put] at harray
  obtain ⟨old, hold, rfl⟩ := Option.map_eq_some_iff.1 harray
  have := hs j old hold
  split_ifs
  · simpa using this
  · exact this

/-- The arrays after an allocation: the new one, which is all zero, and those there were. -/
theorem Placed.arrayAt?_cases {array : Array Word} {handle : Handle} {n : Nat}
    (hp : Placed (Array.replicate n .zero) handle h h') {i : Nat}
    (harray : arrayAt? h'.slots i = some array) :
    array = Array.replicate n .zero ∨ arrayAt? h.slots i = some array := by
  rw [arrayAt?, hp.slots] at harray
  split_ifs at harray
  · exact .inl (Option.some.inj harray).symm
  · exact .inr harray

theorem lt_of_alloc {length : Int64} (halloc : Heap.alloc length h = .ok w h') :
    length.toInt.toNat < lengthBound := by
  unfold Heap.alloc at halloc
  dsimp only at halloc
  split_ifs at halloc with hneg hrefused
  rw [Bool.not_eq_true', Bool.not_eq_false] at hrefused
  exact lt_of_grants hrefused

end Heap

/-! ## Grounded memory -/

namespace Memory

open Heap

/-- The word is somewhere in the memory. -/
def Contains (m : Memory) (w : Word) : Prop := m.IsRoot w ∨ m.heap.IsElement w

/-- The heap is valid and, if the run has been honest, every handle in the memory names an array. -/
structure Grounded (honest : Prop) (m : Memory) : Prop where
  valid : m.heap.Valid
  short : m.heap.Short
  resolves : honest → ∀ w, m.Contains w → m.heap.Resolves w

variable {honest : Prop} {m m' : Memory}

namespace Grounded

/-- What is put into the memory must resolve. -/
theorem roots (h : m.Grounded honest) (hheap : m'.heap = m.heap)
    (hroots : ∀ w, m'.IsRoot w → m.IsRoot w ∨ (honest → m.heap.Resolves w)) :
    m'.Grounded honest := by
  refine ⟨hheap ▸ h.valid, hheap ▸ h.short, fun hh w hw => ?_⟩
  rw [hheap]
  rcases hw with hw | hw
  · rcases hroots w hw with hold | hnew
    · exact h.resolves hh w (.inl hold)
    · exact hnew hh
  · exact h.resolves hh w (.inr (hheap ▸ hw))

/-- A heap in which the arrays there were are still where they were. -/
theorem grown {heap : Heap} (h : m.Grounded honest) (hv : heap.Valid) (hshort : heap.Short)
    (hkept : ∀ handle, m.heap.Current handle → heap.Current handle)
    (helements : ∀ w, heap.IsElement w → m.heap.IsElement w ∨ (honest → heap.Resolves w)) :
    Grounded honest { m with heap } := by
  have hresolves : honest → ∀ w, m.Contains w → heap.Resolves w := fun hh w hw handle hhandle =>
    hkept handle (h.resolves hh w hw handle hhandle)
  refine ⟨hv, hshort, fun hh w hw => ?_⟩
  rcases hw with hw | hw
  · exact hresolves hh w (.inl hw)
  · rcases helements w hw with hold | hnew
    · exact hresolves hh w (.inr hold)
    · exact hnew hh

/-- After the memory is reset there is no array, and only zeros are in it. -/
theorem reset (hv : m.heap.Valid) (globals : Nat) : (m.reset globals).Grounded honest := by
  refine ⟨m.heap.released_clear.valid hv, short_clear _, fun _ w hw => ?_⟩
  rcases hw with (hw | ⟨f, hf, -⟩ | hw) | hw
  · simp [Memory.reset, OperandStack.clear] at hw
  · simp [Memory.reset, CallStack.clear] at hf
  · obtain ⟨-, rfl⟩ : globals ≠ 0 ∧ w = Word.zero := by
      simpa [Memory.reset, Globals.zeroed] using hw
    exact resolves_of_plain (by decide)
  · exact absurd hw (not_isElement_clear _ w)

theorem store {array index w : Word} {heap : Heap} (h : m.Grounded honest)
    (hw : honest → m.heap.Resolves w) (hstore : Heap.store array index w m.heap = .ok () heap) :
    Grounded honest { m with heap } := by
  obtain ⟨i, k, he⟩ | ⟨e, he⟩ := m.heap.store_cases array index w
  · rw [he] at hstore
    obtain ⟨-, rfl⟩ := EStateM.Result.ok.inj hstore
    refine h.grown (h.valid.put i k w) (h.short.put i k w) (fun _ => (put_old i k w).1) ?_
    intro v hv
    rcases isElement_put hv with hold | rfl
    · exact .inl hold
    · exact .inr fun hh handle hhandle => (put_old i k v).1 (hw hh handle hhandle)
  · rw [he] at hstore
    cases hstore

theorem alloc {length : Int64} {w : Word} {heap : Heap} (h : m.Grounded honest)
    (halloc : Heap.alloc length m.heap = .ok w heap) :
    Grounded honest { m with heap } ∧ heap.Resolves w := by
  have hlt := lt_of_alloc halloc
  obtain ⟨handle, h', he, hp⟩ | ⟨e, words, he⟩ := h.valid.alloc length
  · rw [he] at halloc
    obtain ⟨rfl, rfl⟩ := EStateM.Result.ok.inj halloc
    constructor
    · refine h.grown (hp.valid h.valid) ?_ (fun _ => hp.old.1) ?_
      · intro i array harray
        rcases hp.arrayAt?_cases harray with rfl | hold
        · simpa using hlt
        · exact h.short i array hold
      · rintro v ⟨i, array, harray, hmem⟩
        rcases hp.arrayAt?_cases harray with rfl | hold
        · obtain ⟨-, rfl⟩ := Array.mem_replicate.1 hmem
          exact .inr fun _ => resolves_of_plain (by decide)
        · exact .inl ⟨i, array, hold, hmem⟩
    · intro handle' hhandle
      rw [Word.handle?_ofHandle hp.fits] at hhandle
      obtain rfl := Option.some.inj hhandle
      exact hp.fresh.2.2
  · rw [he] at halloc
    cases halloc

/-- A failed allocation changes at most the count of words. -/
theorem allocFailed {length : Int64} {e : Fault} {heap : Heap} (h : m.Grounded honest)
    (halloc : Heap.alloc length m.heap = .error e heap) : Grounded honest { m with heap } := by
  obtain ⟨handle, h', he, hp⟩ | ⟨e, words, he⟩ := h.valid.alloc length
  · rw [he] at halloc
    cases halloc
  · rw [he] at halloc
    obtain ⟨-, rfl⟩ := EStateM.Result.error.inj halloc
    have hv : Heap.Valid { m.heap with words } := { h.valid with }
    exact h.grown hv h.short (fun _ hc => hc) fun _ hw => .inl hw

/-- A collection frees no array that a handle in the memory names: the roots are kept, and so are
    the arrays that elements of kept arrays name. -/
theorem collect (h : m.Grounded honest) : m.collect.2.Grounded honest := by
  have hcollected := Collected.of_valid h.valid
  have hreleased := h.valid.collect m.roots
  have hold : ∀ i array, arrayAt? m.collect.2.heap.slots i = some array →
      arrayAt? m.heap.slots i = some array ∧ Reachable m.heap.slots m.IsRoot i := by
    intro i array harray
    have hsome : (arrayAt? m.collect.2.heap.slots i).isSome := by rw [harray]; rfl
    have hslot := hcollected.kept i hsome
    refine ⟨?_, ((hcollected.survives i).1 hsome).2⟩
    rw [arrayAt?, ← hslot]
    exact harray
  have hshort : m.collect.2.heap.Short := fun i array harray =>
    h.short i array (hold i array harray).1
  refine ⟨hreleased.valid h.valid, hshort, ?_⟩
  intro hh w hw handle hhandle
  have hbefore : m.Contains w := by
    rcases hw with hw | ⟨i, array, harray, hmem⟩
    · exact .inl hw
    · exact .inr ⟨i, array, (hold i array harray).1, hmem⟩
  obtain ⟨s, hs, hgeneration, hlive⟩ := h.resolves hh w hbefore handle hhandle
  have hnames : Names m.heap.slots w handle.index := ⟨s, hs, by rw [hhandle, hgeneration]⟩
  have hreachable : Reachable m.heap.slots m.IsRoot handle.index := by
    rcases hw with hw | ⟨i, array, harray, hmem⟩
    · exact .root hw hnames
    · exact .element (hold i array harray).2 (hold i array harray).1 hmem hnames
  refine ⟨s, hreleased.kept _ s hs fun _ hgone => hgone ?_, hgeneration, hlive⟩
  exact reachable_roots_iff.2 hreachable

end Grounded

end Memory

/-! ## Roots -/

theorem mem_of_mem_pop {α : Type} {a : α} {xs : Array α} (h : a ∈ xs.pop) : a ∈ xs := by
  rw [← Array.mem_toList_iff, Array.toList_pop] at h
  exact Array.mem_toList_iff.1 (List.mem_of_mem_dropLast h)

theorem Memory.Grounded.popFrame {honest : Prop} {m : Memory} (h : m.Grounded honest) :
    Grounded honest { m with calls := ⟨m.calls.frames.pop, m.calls.limit⟩ } := by
  refine h.roots rfl fun v hv => .inl ?_
  rcases hv with hv | ⟨frame, hframe, hv⟩ | hv
  · exact .inl hv
  · exact .inr (.inl ⟨frame, mem_of_mem_pop hframe, hv⟩)
  · exact .inr (.inr hv)

theorem CallStack.mem_of_storeLocal {index : UInt8} {w v : Word} {s s' : CallStack} {f : Frame}
    (h : CallStack.storeLocal index w s = .ok () s') (hf : f ∈ s'.frames) (hv : v ∈ f.locals) :
    v = w ∨ ∃ f ∈ s.frames, v ∈ f.locals := by
  unfold CallStack.storeLocal at h
  split at h
  · cases h
  · dsimp only at h
    split_ifs at h
    obtain ⟨-, rfl⟩ := EStateM.Result.ok.inj h
    obtain ⟨j, hj⟩ := Array.mem_iff_getElem?.1 hf
    rw [Array.getElem?_modify] at hj
    split_ifs at hj
    · obtain ⟨g, hg, rfl⟩ := Option.map_eq_some_iff.1 hj
      rcases Array.mem_or_eq_of_mem_setIfInBounds hv with hv | rfl
      · exact .inr ⟨g, Array.mem_of_getElem? hg, hv⟩
      · exact .inl rfl
    · exact .inr ⟨f, Array.mem_of_getElem? hj, hv⟩

theorem Globals.mem_of_store {index : UInt16} {w v : Word} {g g' : Globals}
    (h : Globals.store index w g = .ok () g') (hv : v ∈ g'.words) : v = w ∨ v ∈ g.words := by
  unfold Globals.store at h
  dsimp only at h
  split_ifs at h
  obtain ⟨-, rfl⟩ := EStateM.Result.ok.inj h
  exact (Array.mem_or_eq_of_mem_setIfInBounds hv).symm

/-! ## The invariant -/

/-- Grounded memory is an invariant. If the run has not been honest, only the heap is valid. -/
def Memory.grounded (image : Image) (honest : Prop) : Invariant image where
  good heap w := honest → heap.Resolves w
  begins m := m.heap.Valid
  holds _ m := m.Grounded honest
  left m := m.Grounded honest
  good_plain hw _ := Heap.resolves_of_plain hw
  good_root h hw hh := h.resolves hh _ (.inl hw)
  good_load h hw hh := h.resolves hh _ (.inr (Heap.isElement_of_load hw))
  good_length h hn _ := Heap.resolves_of_plain (Word.handle?_ofNat (h.short.length_lt hn))
  start := by
    intro m g hv _ _ _
    refine (Memory.Grounded.reset hv image.globals.toNat).roots rfl fun w hw => ?_
    rcases hw with hw | ⟨f, hf, hw⟩ | hw
    · exact .inl (.inl hw)
    · obtain rfl : f = .zeroed image.entry image.entry none g.locals.toNat := by simpa using hf
      obtain ⟨-, rfl⟩ := Array.mem_replicate.1 hw
      exact .inr fun _ => Heap.resolves_of_plain (by decide)
    · exact .inl (.inr (.inr hw))
  reset hv := Memory.Grounded.reset hv _
  pop h := h.roots rfl fun _ hw => .inl (hw.imp_left mem_of_mem_pop)
  push := by
    intro f m w h hgood _
    refine h.roots rfl fun v hv => ?_
    rcases hv with hv | hv
    · rcases Array.mem_push.1 hv with hv | rfl
      · exact .inl (.inl hv)
      · exact .inr hgood
    · exact .inl (.inr hv)
  storeLocal := by
    intro f m index w calls h hgood hstore
    refine h.roots rfl fun v hv => ?_
    rcases hv with hv | ⟨g, hg, hv⟩ | hv
    · exact .inl (.inl hv)
    · rcases CallStack.mem_of_storeLocal hstore hg hv with rfl | hold
      · exact .inr hgood
      · exact .inl (.inr (.inl hold))
    · exact .inl (.inr (.inr hv))
  storeGlobal := by
    intro f m index w globals h hgood hstore
    refine h.roots rfl fun v hv => ?_
    rcases hv with hv | hv | hv
    · exact .inl (.inl hv)
    · exact .inl (.inr (.inl hv))
    · rcases Globals.mem_of_store hstore hv with rfl | hold
      · exact .inr hgood
      · exact .inl (.inr (.inr hold))
  storeElement h hgood hstore := h.store hgood hstore
  collect h := h.collect
  alloc h halloc := ⟨(h.alloc halloc).1, fun _ => (h.alloc halloc).2⟩
  allocFailed h halloc := h.allocFailed halloc
  call := by
    intro f g m caller callee pc locals h _ _ _ _ _ hlocals _
    refine h.roots rfl fun v hv => ?_
    rcases hv with hv | ⟨frame, hframe, hv⟩ | hv
    · exact .inl (.inl hv)
    · rcases Array.mem_push.1 hframe with hframe | rfl
      · exact .inl (.inr (.inl ⟨frame, hframe, hv⟩))
      · exact .inr (hlocals v hv)
    · exact .inl (.inr (.inr hv))
  ret h _ _ := h.popFrame
  finish h := h.popFrame
  left_of_holds h := h
  begins_of_left h := h.valid
  begins_collect hv := (Heap.Valid.collect hv _).valid hv

end StackMachine
