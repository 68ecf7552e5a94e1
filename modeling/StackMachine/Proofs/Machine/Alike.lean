import StackMachine.Proofs.Machine.Uniform

/-!
# Machines that differ in compiled code only

Two machines run the same image; the second one never compiles. `Agrees` relates what must not
depend on that: the globals, the heap, the streams and the account of the collector. `Alike` adds
the frames, of which the second machine may have some more on top (`extra`), and `Same` the
operand stack, for machines that both interpret.

The actions that instructions are made of keep these relations. What a `ret` needs to know of the
frames are their `links`: where each one returns to.
-/

namespace StackMachine

open Native

/-- The compiled form of a function of an image. -/
def Native.IsCompiled (image : Image) (f : UInt16) (r : Routine) : Prop :=
  ∃ options p, compile image f options = .ok p ∧ r = p.prepare

/-- All compiled code in the table comes from the image. -/
def Promotion.Sound (image : Image) (p : Promotion) : Prop :=
  ∀ f r, p.table.routine? f = some r → IsCompiled image f r

/-- Where a frame returns to. -/
abbrev Link := UInt16 × Option Nat

/-- Where the code below a frame goes on. -/
def Frame.link (f : Frame) : Link := (f.returnFunction, f.returnAddress)

/-- The links of all frames, latest first. -/
def CallStack.links (s : CallStack) : List Link := s.frames.toList.reverse.map Frame.link

/-- The machine `n`, which never compiles, has had the same effects as `m`. -/
structure Agrees (image : Image) (m n : Machine) : Prop where
  sound : m.promotion.Sound image
  off : n.promotion.mode = .off
  stackLimit : m.memory.stack.limit = n.memory.stack.limit
  callLimit : m.memory.calls.limit = n.memory.calls.limit
  globals : m.memory.globals = n.memory.globals
  heap : m.memory.heap = n.memory.heap
  console : m.console = n.console
  collector : m.collector = n.collector

/-- The frames of `m` have the given links, which lead to functions of the image, and `n` has the
    frames `extra` above those of `m`. -/
structure Alike (image : Image) (links : List Link) (extra : List Frame) (m n : Machine) : Prop
    extends Agrees image m n where
  known : ∀ link ∈ links, link.2.isSome → (image.function? link.1).isSome
  links : m.memory.calls.links = links
  frames : n.memory.calls.frames.toList = m.memory.calls.frames.toList ++ extra

/-- Both machines have the same frames and the same operands. -/
structure Same (image : Image) (links : List Link) (m n : Machine) : Prop
    extends Alike image links [] m n where
  stack : m.memory.stack = n.memory.stack
  bounded : n.memory.stack.words.size ≤ n.memory.stack.limit

namespace CallStack

@[simp]
theorem length_links (s : CallStack) : s.links.length = s.depth := by simp [links, depth]

theorem links_push (s : CallStack) (f : Frame) :
    links ⟨s.frames.push f, s.limit⟩ = f.link :: s.links := by
  simp [links]

/-- Writing a local does not touch the links. -/
theorem links_modify (s : CallStack) (i : Nat) (g : Frame → Frame)
    (hg : ∀ f, (g f).link = f.link) : links ⟨s.frames.modify i g, s.limit⟩ = s.links := by
  simp only [links, List.map_reverse]
  congr 1
  apply List.ext_getElem?
  intro j
  simp only [Array.toList_modify, List.getElem?_map, List.getElem?_modify]
  split
  · cases s.frames.toList[j]? <;> simp [hg]
  · cases s.frames.toList[j]? <;> simp

end CallStack

/-! ## Actions apart from the operand stack -/

section Aside

variable {image : Image} {links : List Link} {extra : List Frame} {m n : Machine} {α : Type}

/-- The same result on both sides, and the operand stacks are not touched. -/
def Aside (image : Image) (links : List Link) (extra : List Frame) (m n : Machine) (a b : α)
    (m' n' : Machine) : Prop :=
  a = b ∧ Alike image links extra m' n' ∧ m'.memory.stack = m.memory.stack ∧
    n'.memory.stack = n.memory.stack

theorem Alike.inspect {f : Machine → Except Fault α} (h : Alike image links extra m n)
    (hf : f m = f n) :
    Paired (Aside image links extra m n) (Agrees image) (Machine.inspect f m)
      (Machine.inspect f n) := by
  unfold Machine.inspect
  rw [hf]
  cases f n with
  | ok a => exact ⟨rfl, h, rfl, rfl⟩
  | error e => exact ⟨rfl, h.toAgrees⟩

theorem Alike.onGlobals (act : EStateM Fault Globals α) (h : Alike image links extra m n) :
    Paired (Aside image links extra m n) (Agrees image) (Machine.onGlobals act m)
      (Machine.onGlobals act n) := by
  rw [Machine.onGlobals_eq, Machine.onGlobals_eq, ← h.globals]
  cases act m.memory.globals with
  | ok a g => exact ⟨rfl, { h with globals := rfl }, rfl, rfl⟩
  | error e g => exact ⟨rfl, { h.toAgrees with globals := rfl }⟩

theorem Alike.onHeap (act : EStateM Fault Heap α) (h : Alike image links extra m n) :
    Paired (Aside image links extra m n) (Agrees image) (Machine.onHeap act m)
      (Machine.onHeap act n) := by
  rw [Machine.onHeap_eq, Machine.onHeap_eq, ← h.heap]
  cases act m.memory.heap with
  | ok a heap => exact ⟨rfl, { h with heap := rfl }, rfl, rfl⟩
  | error e heap => exact ⟨rfl, { h.toAgrees with heap := rfl }⟩

theorem Alike.onConsole (act : EStateM Fault Console α) (h : Alike image links extra m n) :
    Paired (Aside image links extra m n) (Agrees image) (Machine.onConsole act m)
      (Machine.onConsole act n) := by
  rw [Machine.onConsole_eq, Machine.onConsole_eq, ← h.console]
  cases act m.console with
  | ok a console => exact ⟨rfl, { h with console := rfl }, rfl, rfl⟩
  | error e console => exact ⟨rfl, { h.toAgrees with console := rfl }⟩

/-- Without further frames the call stacks are equal. -/
theorem Alike.calls (h : Alike image links [] m n) : m.memory.calls = n.memory.calls := by
  have hf : m.memory.calls.frames = n.memory.calls.frames := by
    apply Array.toList_inj.1
    simpa using h.frames.symm
  change CallStack.mk m.memory.calls.frames m.memory.calls.limit =
    CallStack.mk n.memory.calls.frames n.memory.calls.limit
  rw [hf, h.callLimit]

theorem Alike.loadLocal (index : UInt8) (h : Alike image links [] m n) :
    Paired (Aside image links [] m n) (Agrees image) (Machine.loadLocal index m)
      (Machine.loadLocal index n) :=
  h.inspect (by rw [h.calls])

theorem Alike.storeLocal (index : UInt8) (w : Word) (h : Alike image links [] m n) :
    Paired (Aside image links [] m n) (Agrees image) (Machine.storeLocal index w m)
      (Machine.storeLocal index w n) := by
  have hcalls := h.calls
  rw [Machine.storeLocal, Machine.onCalls_eq, Machine.onCalls_eq, ← hcalls]
  unfold CallStack.storeLocal
  cases m.memory.calls.frames.back? with
  | none => exact ⟨rfl, { h.toAgrees with callLimit := rfl }⟩
  | some f =>
    dsimp only
    split_ifs
    · refine ⟨rfl, { h with callLimit := rfl, links := ?_, frames := by simp }, rfl, rfl⟩
      rw [← h.links]
      exact CallStack.links_modify _ _ _ fun f => rfl
    · exact ⟨rfl, { h.toAgrees with callLimit := rfl }⟩

theorem Alike.checkRoom (h : Alike image links [] m n) :
    Paired (Aside image links [] m n) (Agrees image) (Machine.checkRoom m)
      (Machine.checkRoom n) :=
  h.inspect (by rw [h.calls])

/-! ## Allocation -/

/-- Frames without locals hold no roots. -/
theorem Alike.roots (h : Alike image links extra m n) (hs : m.memory.stack = n.memory.stack)
    (he : ∀ f ∈ extra, f.locals = #[]) : m.memory.roots = n.memory.roots := by
  have hextra : extra.flatMap (fun f => f.locals.toList) = [] := by
    rw [List.flatMap_eq_nil_iff]
    intro f hf
    simp [he f hf]
  simp only [Memory.roots, hs, h.globals, h.frames, List.flatMap_append, hextra, List.append_nil]

theorem Alike.collect (h : Alike image links extra m n) (hs : m.memory.stack = n.memory.stack)
    (he : ∀ f ∈ extra, f.locals = #[]) : Alike image links extra m.collect.2 n.collect.2 := by
  have hr := h.roots hs he
  rw [Machine.collect_eq, Machine.collect_eq, Machine.memory_collect_eq, Machine.memory_collect_eq]
  exact { h with
    heap := by simp only [h.heap, hr]
    collector := by simp only [h.heap, hr, h.collector] }

theorem Alike.newArray (length : Word) (h : Alike image links extra m n)
    (hs : m.memory.stack = n.memory.stack) (he : ∀ f ∈ extra, f.locals = #[]) :
    Paired (Aside image links extra m n) (Agrees image) (Machine.newArray length m)
      (Machine.newArray length n) := by
  rw [Machine.newArray_eq, Machine.newArray_eq, ← h.heap]
  by_cases hd : m.memory.heap.due
  · rw [if_pos hd, if_pos hd]
    exact (h.collect hs he).onHeap _
  · rw [if_neg hd, if_neg hd]
    exact h.onHeap _

end Aside

/-! ## Machines that both interpret -/

namespace Same

variable {image : Image} {links : List Link} {m n : Machine} {α : Type}

/-- The same result on both sides. -/
def Result (image : Image) (links : List Link) (a b : α) (m n : Machine) : Prop :=
  a = b ∧ Same image links m n

/-- An action apart from the operand stack keeps everything the same. -/
theorem aside (h : Same image links m n) {x y : EStateM.Result Fault Machine α}
    (hxy : Paired (Aside image links [] m n) (Agrees image) x y) :
    Paired (Result image links) (Agrees image) x y := by
  refine hxy.mono fun a b m' n' hab => ?_
  obtain ⟨rfl, halike, hm, hn⟩ := hab
  exact ⟨rfl, { halike with
    stack := by rw [hm, hn, h.stack]
    bounded := by rw [hn]; exact h.bounded }⟩

theorem push (w : Word) (h : Same image links m n) :
    Paired (Result image links) (Agrees image) (Machine.push w m) (Machine.push w n) := by
  rw [Machine.push, Machine.onStack_eq, Machine.onStack_eq, h.stack, OperandStack.push]
  split_ifs with hfull
  · exact ⟨rfl, { h.toAgrees with stackLimit := rfl }⟩
  · refine ⟨rfl, { h with stackLimit := rfl, stack := rfl, bounded := ?_ }⟩
    simp
    omega

theorem pop (h : Same image links m n) :
    Paired (Result image links) (Agrees image) (Machine.pop m) (Machine.pop n) := by
  rw [Machine.pop, Machine.onStack_eq, Machine.onStack_eq, h.stack, OperandStack.pop]
  cases n.memory.stack.words.back? with
  | none => exact ⟨rfl, { h.toAgrees with stackLimit := rfl }⟩
  | some w =>
    refine ⟨rfl, { h with stackLimit := rfl, stack := rfl, bounded := ?_ }⟩
    have := h.bounded
    simp
    omega

theorem peek (h : Same image links m n) :
    Paired (Result image links) (Agrees image) (Machine.peek m) (Machine.peek n) :=
  h.aside (h.inspect (by rw [h.stack]))

theorem popOrZero (h : Same image links m n) :
    Paired (Result image links) (Agrees image) (Machine.popOrZero m) (Machine.popOrZero n) := by
  rw [Machine.popOrZero_eq, Machine.popOrZero_eq, h.stack, OperandStack.popOrZero]
  cases n.memory.stack.words.back? with
  | none => exact ⟨rfl, { h with stackLimit := rfl, stack := rfl }⟩
  | some w =>
    refine ⟨rfl, { h with stackLimit := rfl, stack := rfl, bounded := ?_ }⟩
    have := h.bounded
    simp
    omega

theorem uniform : Uniform (Same image links) (Agrees image) where
  push w _ _ h := h.push w
  pop _ _ h := h.pop
  peek _ _ h := h.peek
  compute _ _ _ h := h.aside (h.inspect rfl)
  loadGlobal _ _ _ h := h.aside (h.inspect (by rw [h.globals]))
  storeGlobal _ _ _ _ h := h.aside (h.onGlobals _)
  loadElement _ _ _ _ h := h.aside (h.inspect (by rw [h.heap]))
  storeElement _ _ _ _ _ h := h.aside (h.onHeap _)
  arrayLength _ _ _ h := h.aside (h.inspect (by rw [h.heap]))
  printInt _ _ _ h := h.aside (h.onConsole _)
  readInt _ _ h := h.aside (h.onConsole _)

/-- An instruction does the same to both machines, and control goes the same way. -/
theorem interpret (next length : Nat) (i : Instr) (h : Same image links m n) :
    Paired (Result image links) (Agrees image) (Machine.interpret next length i m)
      (Machine.interpret next length i n) :=
  uniform.interpret (fun index _ _ _ h => h.aside (h.loadLocal index))
    (fun index _ w _ _ h => h.aside (h.storeLocal index w))
    (fun _ size _ _ h => h.aside (h.newArray size h.stack (by simp))) h

end Same

end StackMachine
