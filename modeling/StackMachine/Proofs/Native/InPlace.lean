import StackMachine.Proofs.Machine.Uniform
import StackMachine.Proofs.Native.Returns

/-!
# Leaves executed in place

A leaf can be executed where it is called. `inPlace` does so: it executes the instructions of the
body one after another in the frame of the caller, and in place of the `ret` it pushes a zero if
there is no operand. The call does the same with a frame of its own, which has no locals and
therefore shows neither to an instruction of the body nor to the collector.

* `leaf?_eq_some_iff`: which functions are leaves.
* `Beneath`, `uniform_beneath`: a machine with the frame of the leaf and one without it.
* `settles_body`: the body, instruction by instruction.
* `leaf_in_place`: both, for every state of an interpreter.
-/

namespace StackMachine

open Native

/-! ## Which functions are leaves -/

/-- Jumps, calls, returns and accesses to locals. -/
def Opcode.unconfined : List Opcode :=
  [.jump .always, .jump .ifZero, .jump .ifNotZero, .call, .ret, .loadLocal, .storeLocal]

theorem Instr.isStraight_iff {i : Instr} :
    i.isStraight = true ↔ i.opcode ∉ Opcode.unconfined := by
  cases i with
  | jump branch offset =>
    refine iff_of_false Bool.false_ne_true ?_
    cases branch <;> simp [opcode, Opcode.unconfined]
  | call | ret | loadLocal | storeLocal =>
    exact iff_of_false Bool.false_ne_true (by simp [opcode, Opcode.unconfined])
  | _ => exact iff_of_true rfl (by simp [opcode, Opcode.unconfined])

namespace Native

/-- From an offset on, the code of a leaf consists of its body and a `ret`. -/
theorem body_of_leafFrom? {code : Code} {room pc : Nat} {leaf : Leaf}
    (h : leafFrom? code room pc = some leaf) :
    ∃ body : List Instr, body.length < room ∧ (∀ i ∈ body, i.isStraight = true) ∧
      code.toList.drop pc = (body ++ [Instr.ret]).flatMap Instr.encode ∧
      leaf = ⟨Instr.placed pc body, pc + (body.flatMap Instr.encode).length⟩ := by
  induction room generalizing pc leaf with
  | zero =>
    obtain ⟨i, room', hroom, -⟩ := leafFrom?_eq_some_iff.1 h
    cases hroom
  | succ room ih =>
    obtain ⟨i, room', hroom, hpc, hi, hleaf⟩ := leafFrom?_eq_some_iff.1 h
    obtain rfl : room = room' := Nat.succ.inj hroom
    have hdrop := Code.encode_of_decode hi
    obtain ⟨rfl, hend, rfl⟩ | ⟨hstraight, rest, hrest, rfl⟩ := hleaf
    · refine ⟨[], Nat.succ_pos _, by simp, ?_, rfl⟩
      rw [hdrop, hend, List.drop_eq_nil_of_le (by simp)]
      rfl
    · obtain ⟨body, hlength, hbody, hcode, rfl⟩ := ih hrest
      refine ⟨i :: body, Nat.succ_lt_succ hlength, ?_, ?_, ?_⟩
      · simpa using ⟨hstraight, hbody⟩
      · rw [hdrop, hcode, List.cons_append, List.flatMap_cons]
      · rw [Instr.placed, List.flatMap_cons, List.length_append, i.length_encode, Nat.add_assoc]

/-- The `ret` of a leaf is the last instruction of its code. -/
theorem size_of_leafFrom? {code : Code} {room pc : Nat} {leaf : Leaf}
    (h : leafFrom? code room pc = some leaf) : leaf.retPc + Opcode.ret.size = code.size := by
  obtain ⟨i, hpc, -⟩ := leafFrom?_eq_some h
  obtain ⟨body, -, -, hcode, rfl⟩ := body_of_leafFrom? h
  have hlen := congrArg List.length hcode
  rw [List.length_drop, Array.length_toList, List.flatMap_append, List.length_append] at hlen
  have hret : ([Instr.ret].flatMap Instr.encode).length = Opcode.ret.size := rfl
  rw [hret] at hlen
  show pc + (body.flatMap Instr.encode).length + Opcode.ret.size = code.size
  omega

/-- A body and a `ret` are read as a leaf. -/
theorem leafFrom?_of_body {code : Code} {pc room : Nat} {body : List Instr}
    (hlength : body.length < room) (hbody : ∀ i ∈ body, i.isStraight = true)
    (hcode : code.toList.drop pc = (body ++ [Instr.ret]).flatMap Instr.encode) :
    leafFrom? code room pc =
      some ⟨Instr.placed pc body, pc + (body.flatMap Instr.encode).length⟩ := by
  induction body generalizing pc room with
  | nil =>
    obtain ⟨room', rfl⟩ := Nat.exists_eq_succ_of_ne_zero (Nat.ne_of_gt hlength)
    have hdrop : code.toList.drop pc = Instr.ret.encode ++ [] := hcode
    have hlen := congrArg List.length hdrop
    rw [List.length_drop, Array.length_toList, List.length_append, Instr.length_encode] at hlen
    have hsize : Instr.ret.size = 1 := rfl
    simp only [List.length_nil, hsize] at hlen
    exact leafFrom?_eq_some_iff.2 ⟨.ret, room', rfl, by omega, Code.decode_of_drop hdrop,
      .inl ⟨rfl, by omega, rfl⟩⟩
  | cons i body ih =>
    obtain ⟨room', rfl⟩ := Nat.exists_eq_succ_of_ne_zero (Nat.ne_zero_of_lt hlength)
    rw [List.cons_append, List.flatMap_cons] at hcode
    have hdecode := Code.decode_of_drop hcode
    have hrest : code.toList.drop (pc + i.size) = (body ++ [Instr.ret]).flatMap Instr.encode := by
      have hdrop := Code.encode_of_decode hdecode
      rw [hcode] at hdrop
      exact (List.append_cancel_left hdrop).symm
    have hleaf := ih (Nat.lt_of_succ_lt_succ hlength) (fun j hj => hbody j (.tail i hj)) hrest
    have hfits := Code.add_size_le_of_decode hdecode
    have hpos := i.size_pos
    refine leafFrom?_eq_some_iff.2 ⟨i, room', rfl, by omega, hdecode,
      .inr ⟨hbody i (.head body), _, hleaf, ?_⟩⟩
    rw [Instr.placed, List.flatMap_cons, List.length_append, i.length_encode, Nat.add_assoc]

/-- A leaf is a function without parameters and locals whose code is a body and a `ret`, together no
    more instructions than asked for, where the body neither moves control nor accesses locals. -/
theorem leaf?_eq_some_iff {image : Image} {callee : UInt16} {maxSize : Nat} {leaf : Leaf} :
    leaf? image callee maxSize = some leaf ↔
      ∃ f body, image.function? callee = some f ∧ f.arity = 0 ∧ f.locals = 0 ∧
        body.length < maxSize ∧ (∀ i ∈ body, i.opcode ∉ Opcode.unconfined) ∧
        f.code = Code.ofInstrs (body ++ [Instr.ret]) ∧
        leaf = ⟨Instr.placed 0 body, (body.flatMap Instr.encode).length⟩ := by
  simp only [← Instr.isStraight_iff]
  constructor
  · intro h
    obtain ⟨f, hf, harity, hlocals, hfrom⟩ := leaf?_eq_some h
    obtain ⟨body, hlength, hbody, hcode, rfl⟩ := body_of_leafFrom? hfrom
    refine ⟨f, body, hf, harity, hlocals, hlength, hbody, Array.toList_inj.1 hcode, ?_⟩
    rw [Nat.zero_add]
  · rintro ⟨f, body, hf, harity, hlocals, hlength, hbody, hcode, rfl⟩
    have hdrop : f.code.toList.drop 0 = (body ++ [Instr.ret]).flatMap Instr.encode := by
      rw [hcode]
      rfl
    rw [leaf?, hf]
    dsimp only
    rw [if_pos ⟨harity, hlocals⟩, leafFrom?_of_body hlength hbody hdrop, Nat.zero_add]

end Native

/-! ## Machines that differ in their frames -/

/-- The machines differ at most in their frames and in what they have logged. -/
structure SameButFrames (m n : Machine) : Prop where
  stack : m.memory.stack = n.memory.stack
  globals : m.memory.globals = n.memory.globals
  heap : m.memory.heap = n.memory.heap
  console : m.console = n.console
  collector : m.collector = n.collector
  promotion : m.promotion = n.promotion

/-- The words in the locals of all frames. -/
def CallStack.localWords (s : CallStack) : List Word :=
  s.frames.toList.flatMap fun f => f.locals.toList

/-- The machines differ in their frames only, which are `calls` and `calls'`, and the operands are
    no more than there may be. -/
structure Beneath (calls calls' : CallStack) (m n : Machine) : Prop
    extends SameButFrames m n where
  calls : m.memory.calls = calls
  calls' : n.memory.calls = calls'
  bounded : m.memory.stack.size ≤ m.memory.stack.limit

section Beneath

variable {calls calls' : CallStack} {α : Type}

theorem beneath_push (w : Word) : Respects (Beneath calls calls') (Machine.push w) := by
  intro m n h
  rw [Machine.push, Machine.onStack_eq, Machine.onStack_eq, ← h.stack, OperandStack.push]
  split_ifs with hfull
  · exact ⟨rfl, { h with stack := rfl }⟩
  · refine ⟨rfl, { h with stack := rfl, bounded := ?_ }⟩
    show (m.memory.stack.words.push w).size ≤ m.memory.stack.limit
    rw [Array.size_push]
    omega

theorem beneath_pop : Respects (Beneath calls calls') Machine.pop := by
  intro m n h
  rw [Machine.pop, Machine.onStack_eq, Machine.onStack_eq, ← h.stack, OperandStack.pop]
  cases m.memory.stack.words.back? with
  | none => exact ⟨rfl, { h with stack := rfl }⟩
  | some w =>
    refine ⟨rfl, { h with stack := rfl, bounded := ?_ }⟩
    have hbounded := h.bounded
    show m.memory.stack.words.pop.size ≤ m.memory.stack.limit
    rw [OperandStack.size] at hbounded
    rw [Array.size_pop]
    omega

theorem beneath_onGlobals (act : EStateM Fault Globals α) :
    Respects (Beneath calls calls') (Machine.onGlobals act) := by
  intro m n h
  rw [Machine.onGlobals_eq, Machine.onGlobals_eq, h.globals]
  cases act n.memory.globals with
  | ok a globals => exact ⟨rfl, { h with globals := rfl }⟩
  | error e globals => exact ⟨rfl, { h with globals := rfl }⟩

theorem beneath_onHeap (act : EStateM Fault Heap α) :
    Respects (Beneath calls calls') (Machine.onHeap act) := by
  intro m n h
  rw [Machine.onHeap_eq, Machine.onHeap_eq, h.heap]
  cases act n.memory.heap with
  | ok a heap => exact ⟨rfl, { h with heap := rfl }⟩
  | error e heap => exact ⟨rfl, { h with heap := rfl }⟩

theorem beneath_onConsole (act : EStateM Fault Console α) :
    Respects (Beneath calls calls') (Machine.onConsole act) := by
  intro m n h
  rw [Machine.onConsole_eq, Machine.onConsole_eq, h.console]
  cases act n.console with
  | ok a console => exact ⟨rfl, { h with console := rfl }⟩
  | error e console => exact ⟨rfl, { h with console := rfl }⟩

theorem beneath_inspect {f : Machine → Except Fault α}
    (hf : ∀ m n, SameButFrames m n → f m = f n) :
    Respects (Beneath calls calls') (Machine.inspect f) := by
  intro m n h
  rw [Machine.inspect, Machine.inspect, hf m n h.toSameButFrames]
  cases f n with
  | ok a => exact ⟨rfl, h⟩
  | error e => exact ⟨rfl, h⟩

/-- Frames with the same words in their locals keep the same arrays alive. -/
theorem beneath_newArray (hlocals : calls.localWords = calls'.localWords) (size : Word) :
    Respects (Beneath calls calls') (Machine.newArray size) := by
  intro m n h
  have hroots : m.memory.roots = n.memory.roots := by
    have hwords : m.memory.calls.localWords = n.memory.calls.localWords := by
      rw [h.calls, h.calls', hlocals]
    rw [CallStack.localWords, CallStack.localWords] at hwords
    rw [Memory.roots, Memory.roots, h.stack, h.globals, hwords]
  have hcollect : Beneath calls calls' m.collect.2 n.collect.2 := by
    rw [Machine.collect_eq, Machine.collect_eq, Machine.memory_collect_eq,
      Machine.memory_collect_eq]
    exact { h with
      heap := by simp only [h.heap, hroots]
      collector := by simp only [h.heap, hroots, h.collector] }
  rw [Machine.newArray_eq, Machine.newArray_eq, h.heap]
  by_cases hdue : n.memory.heap.due
  · rw [if_pos hdue, if_pos hdue]
    exact beneath_onHeap _ hcollect
  · rw [if_neg hdue, if_neg hdue]
    exact beneath_onHeap _ h

theorem uniform_beneath : Uniform (Beneath calls calls') (Beneath calls calls') where
  push := beneath_push
  pop := beneath_pop
  peek := beneath_inspect fun m n h => by rw [h.stack]
  compute _ := beneath_inspect fun _ _ _ => rfl
  loadGlobal _ := beneath_inspect fun m n h => by rw [h.globals]
  storeGlobal _ _ := beneath_onGlobals _
  loadElement _ _ := beneath_inspect fun m n h => by rw [h.heap]
  storeElement _ _ _ := beneath_onHeap _
  arrayLength _ := beneath_inspect fun m n h => by rw [h.heap]
  printInt _ := beneath_onConsole _
  readInt := beneath_onConsole _

theorem Beneath.report {m n : Machine} (h : Beneath calls calls' m n) (setup : Setup)
    (a : Interpreting) (i : Instr) : Beneath calls calls' m (State.report setup a i n) := by
  obtain ⟨journal, hn⟩ := report_eq setup a i n
  rw [hn]
  exact { h with }

/-- An instruction that accesses no local does the same on both machines. -/
theorem beneath_interpret {next length : Nat} {i : Instr} (hi : i.isStraight = true)
    (hlocals : calls.localWords = calls'.localWords) :
    Respects (Beneath calls calls') (Machine.interpret next length i) := by
  apply uniform_beneath.interpret
  · rintro index rfl
    cases hi
  · rintro index rfl
    cases hi
  · exact fun _ => beneath_newArray hlocals

end Beneath

/-! ## Outcomes -/

/-- Two runs are at the same point with the same frames, or they have ended in the same way, and
    otherwise the machines differ at most in what they have logged. Frames that are left over at the
    end do not count. -/
inductive SameOutcome : Progress → Progress → Prop
  | running (active : Activation) (waiting : List Activation) {m n : Machine}
      (same : SameButFrames m n) (calls : m.memory.calls = n.memory.calls) :
      SameOutcome (.running ⟨active, waiting, m⟩) (.running ⟨active, waiting, n⟩)
  | ended (outcome : Except Failure Word) {m n : Machine} (same : SameButFrames m n) :
      SameOutcome (.ended ⟨outcome, m⟩) (.ended ⟨outcome, n⟩)

namespace SameButFrames

variable {m n : Machine}

theorem close (activations : List Activation) (h : SameButFrames m n) :
    SameButFrames (State.close activations m) (State.close activations n) := by
  induction activations generalizing m n with
  | nil => exact h
  | cons a rest ih =>
    rw [State.close, State.close, List.foldl_cons, List.foldl_cons]
    cases a with
    | interpreting a => exact ih h
    | executing a => exact ih { h with promotion := by rw [h.promotion] }

theorem abort (waiting : List Activation) (fault : Fault) (location : Location)
    (h : SameButFrames m n) :
    SameOutcome (State.abort waiting fault location m) (State.abort waiting fault location n) :=
  .ended _ (h.close waiting)

theorem halt (waiting : List Activation) (h : SameButFrames m n) :
    SameOutcome (State.halt waiting m) (State.halt waiting n) := by
  rw [State.halt, State.halt, Machine.popOrZero_eq, Machine.popOrZero_eq, h.stack]
  have hpopped : SameButFrames
      { m with memory := { m.memory with stack := n.memory.stack.popOrZero.2 } }
      { n with memory := { n.memory with stack := n.memory.stack.popOrZero.2 } } :=
    { h with stack := rfl }
  exact .ended _ (hpopped.close waiting)

end SameButFrames

/-! ## The body of a leaf -/

/-- Executes the body of the leaf `callee`, whose `ret` stands at `retPc`, in the frame that is on
    top. No `ret` is executed: control goes on at `back`, with a zero pushed if there is no operand.
    A fault is located at the instruction of the leaf that raises it. -/
def inPlace (callee : UInt16) (retPc : Nat) (back : Interpreting) (waiting : List Activation) :
    List (Nat × Instr) → Machine → Progress
  | [], m =>
    if m.memory.stack.isEmpty then
      match Machine.push .zero m with
      | .error fault m => State.abort waiting fault ⟨callee, retPc⟩ m
      | .ok _ m => .running ⟨.interpreting back, waiting, m⟩
    else .running ⟨.interpreting back, waiting, m⟩
  | (pc, i) :: body, m =>
    match Machine.interpret (pc + i.size) (retPc + Opcode.ret.size) i m with
    | .error fault m => State.abort waiting fault ⟨callee, pc⟩ m
    | .ok .halt m => State.halt waiting m
    | .ok _ m => inPlace callee retPc back waiting body m

/-- The run goes on from `p` until the last of `n` open calls has returned, or until it ends. -/
inductive Progress.Settles (setup : Setup) : Nat → Progress → Progress → Prop
  | back (t : State) : Settles setup 0 (.running t) (.running t)
  | ended (n : Nat) (e : Ending) : Settles setup n (.ended e) (.ended e)
  | step {n : Nat} {s : State} {p : Progress}
      (h : Settles setup (s.openAfter setup.image n) (s.step setup) p) :
      Settles setup (n + 1) (.running s) p

section Body

variable {setup : Setup} {callee : UInt16} {f : Image.Function} {back : Interpreting}
  {waiting : List Activation} {calls : CallStack}

/-- The frames while a leaf runs that goes back to `back`. -/
def CallStack.withLeaf (calls : CallStack) (callee : UInt16) (back : Interpreting) : CallStack :=
  ⟨calls.frames.push (leafFrame callee back.function back.pc), calls.limit⟩

theorem CallStack.localWords_withLeaf :
    calls.localWords = (calls.withLeaf callee back).localWords := by
  simp [CallStack.localWords, CallStack.withLeaf, leafFrame]

/-- The `ret` of a leaf. -/
theorem settles_ret {pc : Nat} {m n : Machine} (hf : setup.image.function? callee = some f)
    (hpc : pc < f.code.size) (hdecode : f.code.decode pc = .ok .ret)
    (hfloor : back.floor ≤ calls.depth)
    (h : Beneath calls (calls.withLeaf callee back) m n) :
    ∃ p, (Progress.running ⟨.interpreting ⟨callee, pc, back.floor⟩, waiting, n⟩).Settles setup 1 p ∧
      SameOutcome (inPlace callee pc back waiting [] m) p := by
  have hopen : State.openAfter setup.image
      ⟨.interpreting ⟨callee, pc, back.floor⟩, waiting, n⟩ 0 = 0 :=
    State.openAfter_of_ret (Image.instr?_of_decode hf hpc hdecode)
  have hstep : State.step setup ⟨.interpreting ⟨callee, pc, back.floor⟩, waiting, n⟩ =
      State.returnFromInterpreter ⟨callee, pc, back.floor⟩ waiting
        (State.report setup ⟨callee, pc, back.floor⟩ .ret n) :=
    interpret_of_decode rfl hf hpc hdecode
  have hreport := h.report setup ⟨callee, pc, back.floor⟩ .ret
  generalize State.report setup ⟨callee, pc, back.floor⟩ .ret n = n' at hstep hreport
  have hframes : n'.memory.calls.frames.toList =
      calls.frames.toList ++ [leafFrame callee back.function back.pc] := by
    rw [hreport.calls', CallStack.withLeaf, Array.toList_push]
  have hbounded : n'.memory.stack.words.size ≤ n'.memory.stack.limit :=
    hreport.stack ▸ hreport.bounded
  have hpop : (⟨n'.memory.calls.frames.pop, n'.memory.calls.limit⟩ : CallStack) = calls := by
    rw [hreport.calls', CallStack.withLeaf, Array.pop_push]
  have hleave := leaveFrame_leaf hframes hbounded
  rw [hpop, ← hreport.stack] at hleave
  -- without the frame of the leaf, both machines have the frames of the caller
  have hpopped : Beneath calls calls m { n' with memory := { n'.memory with calls := calls } } :=
    { hreport with calls' := rfl }
  have hback {r : Machine} (hr : r.memory.calls = calls) : ¬ r.memory.calls.depth < back.floor :=
    hr ▸ Nat.not_lt.2 hfloor
  rw [inPlace]
  cases hs : m.memory.stack.isEmpty with
  | false =>
    rw [hs] at hleave
    refine ⟨_, .step ?_,
      .running (.interpreting back) waiting hpopped.toSameButFrames hpopped.calls⟩
    rw [hopen, hstep, returnFromInterpreter_of_resume hleave (hback hpopped.calls')]
    exact .back _
  | true =>
    obtain ⟨_, _, m', r, hm, hr, -, h'⟩ | ⟨e, m', r, hm, hr, h'⟩ :=
      (beneath_push .zero hpopped).cases
    · rw [hs, if_pos rfl, bind_of_ok hr] at hleave
      rw [if_pos rfl, hm]
      refine ⟨_, .step ?_, .running (.interpreting back) waiting h'.toSameButFrames
        (h'.calls.trans h'.calls'.symm)⟩
      rw [hopen, hstep, returnFromInterpreter_of_resume hleave (hback h'.calls')]
      exact .back _
    · rw [hs, if_pos rfl, bind_of_error hr] at hleave
      rw [if_pos rfl, hm]
      refine ⟨State.abort waiting e ⟨callee, pc⟩ r, .step ?_, h'.abort waiting e _⟩
      rw [hopen, hstep, State.returnFromInterpreter, hleave]
      exact .ended 0 _

/-- The body of a leaf from an offset on, by induction on what is left of it: on both machines one
    instruction leaves machines that differ in the frame of the leaf only. -/
theorem settles_body {room pc retPc : Nat} {body : List (Nat × Instr)} {m n : Machine}
    (hf : setup.image.function? callee = some f)
    (hleaf : leafFrom? f.code room pc = some ⟨body, retPc⟩) (hfloor : back.floor ≤ calls.depth)
    (h : Beneath calls (calls.withLeaf callee back) m n) :
    ∃ p, (Progress.running ⟨.interpreting ⟨callee, pc, back.floor⟩, waiting, n⟩).Settles setup 1 p ∧
      SameOutcome (inPlace callee retPc back waiting body m) p := by
  induction body generalizing room pc m n with
  | nil =>
    obtain ⟨i, hpc, hi, ⟨rfl, hnil⟩ | ⟨-, room', rest, -, hcons⟩⟩ := leafFrom?_eq_some hleaf
    · obtain rfl : retPc = pc := congrArg Leaf.retPc hnil
      exact settles_ret hf hpc hi hfloor h
    · cases congrArg Leaf.body hcons
  | cons x body ih =>
    obtain ⟨i, hpc, hi, ⟨-, hnil⟩ | ⟨hstraight, room', rest, hrest, hcons⟩⟩ :=
      leafFrom?_eq_some hleaf
    · cases congrArg Leaf.body hnil
    obtain ⟨hbody, rfl⟩ := Leaf.mk.inj hcons
    obtain ⟨rfl, rfl⟩ := List.cons.inj hbody
    have hsize : rest.retPc + Opcode.ret.size = f.code.size := size_of_leafFrom? hrest
    have hopen : State.openAfter setup.image
        ⟨.interpreting ⟨callee, pc, back.floor⟩, waiting, n⟩ 0 = 1 := by
      refine State.openAfter_of_plain (Image.instr?_of_decode hf hpc hi) ?_ ?_
      · rintro g rfl
        cases hstraight
      · rintro rfl
        cases hstraight
    have hstep : State.step setup ⟨.interpreting ⟨callee, pc, back.floor⟩, waiting, n⟩ = _ :=
      interpret_of_decode rfl hf hpc hi
    have hreport := h.report setup ⟨callee, pc, back.floor⟩ i
    have hflow := ensures_interpret (pc + i.size) f.code.size i
      (State.report setup ⟨callee, pc, back.floor⟩ i n)
    rw [inPlace, hsize]
    obtain ⟨flow, _, m', n', hm, hn, rfl, h'⟩ | ⟨e, m', n', hm, hn, h'⟩ :=
      (beneath_interpret hstraight CallStack.localWords_withLeaf hreport).cases
    · rw [hn] at hstep hflow
      rw [hm]
      cases flow with
      | next =>
        obtain ⟨p, hp, hsame⟩ := ih hrest h'
        refine ⟨p, .step ?_, hsame⟩
        rw [hopen, hstep]
        exact hp
      | halt =>
        refine ⟨State.halt waiting n', .step ?_, h'.halt waiting⟩
        rw [hopen, hstep]
        exact .ended 1 _
      | jump target =>
        obtain ⟨branch, offset, rfl⟩ := hflow
        cases hstraight
      | call g =>
        obtain rfl := hflow
        cases hstraight
      | ret =>
        obtain rfl := hflow
        cases hstraight
    · rw [hn] at hstep
      rw [hm]
      refine ⟨State.abort waiting e ⟨callee, pc⟩ n', .step ?_, h'.abort waiting e _⟩
      rw [hopen, hstep]
      exact .ended 1 _

end Body

/-! ## States of an interpreter -/

/-- Code is interpreted, and none compiled: the activation has a frame left when a call returns, and
    the operands are no more than there may be. -/
structure Uncompiled (a : Interpreting) (m : Machine) : Prop where
  off : m.promotion.mode = .off
  floor : a.floor ≤ m.memory.calls.depth
  bounded : m.memory.stack.size ≤ m.memory.stack.limit

/-- A call of a leaf, with room for its frame. -/
theorem settles_call {setup : Setup} {a : Interpreting} {waiting : List Activation} {m : Machine}
    {callee : UInt16} {maxSize : Nat} {leaf : Leaf}
    (hleaf : leaf? setup.image callee maxSize = some leaf) (ha : Uncompiled a m)
    (hcall : setup.image.instr? ⟨a.function, a.pc⟩ = some (.call callee))
    (hroom : m.memory.calls.depth < m.memory.calls.limit) :
    ∃ p, (State.step setup ⟨.interpreting a, waiting, m⟩).Settles setup 1 p ∧
      SameOutcome (inPlace callee leaf.retPc { a with pc := a.pc + Opcode.call.size } waiting
        leaf.body m) p := by
  obtain ⟨caller, hcaller, hpc, hdecode⟩ := Image.instr?_eq_some hcall
  obtain ⟨f, hf, harity, hlocals, hfrom⟩ := leaf?_eq_some hleaf
  obtain ⟨journal, hreport⟩ := report_eq setup a (.call callee) m
  let back : Interpreting := { a with pc := a.pc + Opcode.call.size }
  let n : Machine := { m with
    memory := { m.memory with calls := m.memory.calls.withLeaf callee back }
    journal }
  have hbeneath : Beneath m.memory.calls (m.memory.calls.withLeaf callee back) m n :=
    ⟨⟨rfl, rfl, rfl, rfl, rfl, rfl⟩, rfl, rfl, ha.bounded⟩
  have henter : Machine.enterCall setup.image callee a.function (some back.pc)
      { m with journal } = .ok none n := by
    have hframe : Machine.enterFrame setup.image callee a.function (some back.pc)
        { m with journal } = .ok () n :=
      (enterFrame_leaf a.function back.pc hf harity hlocals).trans (if_neg (Nat.not_le.2 hroom))
    rw [Machine.enterCall_of_off (by exact ha.off), bind_of_ok hframe]
    rfl
  have hstep : State.step setup ⟨.interpreting a, waiting, m⟩ =
      State.callFromInterpreter setup a back.pc callee waiting
        (State.report setup a (.call callee) m) :=
    interpret_of_decode rfl hcaller hpc hdecode
  rw [hreport, State.callFromInterpreter, henter] at hstep
  rw [hstep]
  have hfloor : back.floor ≤ m.memory.calls.depth := ha.floor
  exact settles_body hf hfrom hfloor hbeneath

/-- A session that compiles nothing goes through no other states. -/
theorem Session.uncompiled_of_visits {image : Image} {settings : Settings} {console : Console}
    {observed : Bool} {allocator : Allocator} {s : Session} {t : State}
    (hoff : settings.jitMode = .off)
    (hs : (Session.begin image settings console observed allocator).Continues s)
    (ht : s.start.Visits s.setup t) :
    ∃ a m, t = ⟨.interpreting a, [], m⟩ ∧ Uncompiled a m := by
  have hsettled := (Session.settled_begin image settings console observed allocator).continues hs
  have hready : (Memory.framed image settings.maxStack settings.maxCallDepth).Ready
      (Session.begin image settings console observed allocator) := ⟨rfl, hoff, ⟨rfl, rfl⟩⟩
  have hsame : s.uncompiled = s := by
    have hmode := (hready.continues (fun _ _ => trivial) hs).off
    rw [Session.uncompiled, ← hmode]
  have hmatches : Matches image s.start s.start := by
    have hstart : Matches s.setup.image s.start s.uncompiled.start := hsettled.same.start
    rwa [hsame, hsettled.image] at hstart
  obtain ⟨s', -, hmirrors⟩ := hmatches.visits_right hsettled.image hsettled.image ht
  cases hmirrors with
  | interpreting same known floor backed =>
    refine ⟨_, _, rfl, same.off, ?_, same.bounded⟩
    exact Nat.not_lt.1 (same.depth_pos (List.append_ne_nil_of_right_ne_nil _ backed.ne_nil))
  | executing prepared twin checks stands backed =>
    exact ⟨_, _, rfl, twin.alike.off, Nat.not_lt.1 (twin.alike.depth_pos backed.ne_nil),
      twin.operands.bounded⟩

/-- **A leaf can be executed where it is called.** A function is a leaf of at most `maxSize`
    instructions exactly if it has neither parameters nor locals and its code is a body, which
    neither moves control nor accesses locals, and a `ret`. Where an interpreter calls a leaf and
    there is room for a frame, the call returns, halts or fails, and so does the body in the frame
    of the caller, with the same operands, globals, arrays, account of the collector and streams,
    and with the same fault at the same location. In a session that compiles nothing, every state
    is such a state of an interpreter. -/
theorem leaf_in_place :
    (∀ (image : Image) (callee : UInt16) (maxSize : Nat) (leaf : Leaf),
      leaf? image callee maxSize = some leaf ↔
        ∃ (f : Image.Function) (body : List Instr),
          image.function? callee = some f ∧ f.arity = 0 ∧ f.locals = 0 ∧
          body.length < maxSize ∧ (∀ i ∈ body, i.opcode ∉ Opcode.unconfined) ∧
          f.code = Code.ofInstrs (body ++ [.ret]) ∧
          leaf = ⟨Instr.placed 0 body, (body.flatMap Instr.encode).length⟩) ∧
    (∀ (setup : Setup) (a : Interpreting) (waiting : List Activation) (m : Machine)
      (callee : UInt16) (maxSize : Nat) (leaf : Leaf),
      leaf? setup.image callee maxSize = some leaf → Uncompiled a m →
      setup.image.instr? ⟨a.function, a.pc⟩ = some (.call callee) →
      m.memory.calls.depth < m.memory.calls.limit →
      ∃ p, (State.step setup ⟨.interpreting a, waiting, m⟩).Settles setup 1 p ∧
        SameOutcome (inPlace callee leaf.retPc { a with pc := a.pc + Opcode.call.size } waiting
          leaf.body m) p) ∧
    (∀ (image : Image) (settings : Settings) (console : Console) (observed : Bool)
      (allocator : Allocator) (s : Session) (t : State), settings.jitMode = .off →
      (Session.begin image settings console observed allocator).Continues s →
      s.start.Visits s.setup t →
      ∃ a m, t = ⟨.interpreting a, [], m⟩ ∧ Uncompiled a m) :=
  ⟨fun _ _ _ _ => leaf?_eq_some_iff,
    fun _ _ _ _ _ _ _ hleaf ha hcall hroom => settles_call hleaf ha hcall hroom,
    fun _ _ _ _ _ _ _ hoff hs ht => Session.uncompiled_of_visits hoff hs ht⟩

/-- A leaf that prints an operand of its caller and leaves none. -/
def Image.printing : Image where
  version := 1
  globals := 0
  entry := 0
  functions := #[⟨0, 0, 0, Code.ofInstrs [.pushInt 3, .call 1, .halt]⟩,
    ⟨1, 0, 0, Code.ofInstrs [.printInt, .ret]⟩]

/-- Settings under which nothing is compiled. -/
def Settings.interpreted : Settings := { jitMode := .off }

theorem leaf_in_place_printing :
    leaf? .printing 1 2 = some ⟨[(0, .printInt)], 1⟩ ∧
    ∃ (a : Interpreting) (m : Machine) (p : Progress),
      (Session.begin .printing .interpreted default false).start.after?
        ⟨.printing, .interpreted, false⟩ 1 = some ⟨.interpreting a, [], m⟩ ∧
      Uncompiled a m ∧ Image.printing.instr? ⟨a.function, a.pc⟩ = some (.call 1) ∧
      m.memory.calls.depth < m.memory.calls.limit ∧
      (State.step ⟨.printing, .interpreted, false⟩ ⟨.interpreting a, [], m⟩).Settles
        ⟨.printing, .interpreted, false⟩ 1 p ∧
      SameOutcome (inPlace 1 1 { a with pc := a.pc + Opcode.call.size } [] [(0, .printInt)] m)
        p := by
  obtain ⟨hiff, hcalls, hstates⟩ := leaf_in_place
  have hleaf : leaf? .printing 1 2 = some ⟨[(0, .printInt)], 1⟩ :=
    (hiff .printing 1 2 _).2 ⟨_, [.printInt], rfl, rfl, rfl, by decide, by decide, rfl, rfl⟩
  obtain ⟨heval, hcall⟩ : ((Session.begin .printing .interpreted default false).start.after?
      ⟨.printing, .interpreted, false⟩ 1).map (fun t =>
        (t.active, t.machine.memory.calls.depth, t.machine.memory.calls.limit)) =
        some (.interpreting ⟨0, 9, 1⟩, 1, 1024) ∧
      Image.printing.instr? ⟨0, 9⟩ = some (.call 1) := by decide +kernel
  obtain ⟨t, ht, heq⟩ := Option.map_eq_some_iff.1 heval
  obtain ⟨a, m, rfl, ha⟩ := hstates .printing .interpreted default false .willing _ t rfl
    (.refl _) (Progress.visits_of_after? ht)
  obtain ⟨hactive, hdepth, hlimit⟩ : _ ∧ _ ∧ _ := by simpa only [Prod.mk.injEq] using heq
  obtain rfl := Activation.interpreting.inj hactive
  have hroom : m.memory.calls.depth < m.memory.calls.limit := by omega
  obtain ⟨p, hp, hsame⟩ := hcalls ⟨.printing, .interpreted, false⟩ ⟨0, 9, 1⟩ [] m 1 2 _ hleaf ha
    hcall hroom
  exact ⟨hleaf, _, m, p, ht, ha, hcall, hroom, hp, hsame⟩

end StackMachine
