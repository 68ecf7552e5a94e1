import StackMachine.Proofs.Native.Layout
import StackMachine.Proofs.Native.Splice

/-!
# Running compiled code in step with the interpreter

`Mirrors` relates a state of a machine that compiles to a state of one that never does. The
second is always in one activation of the interpreter. The first may be in the middle of compiled
code, with other activations waiting: `Stands` says at which instruction the interpreter is then,
and `Backed` that the activations that wait are those to which the frames return.

* `Same.interpretStep`: when both machines interpret, one step on each side leads to related
  states, or both runs end in the same way.
-/

namespace StackMachine

open Native

/-! ## Positions -/

/-- What the operations of a leaf's body and its end are before jumps are resolved. -/
def Native.leafInsts (callee : UInt16) (leaf : Leaf) : List Inst :=
  leaf.body.map (fun x => ⟨lower (x.1 + x.2.size) x.2, ⟨callee, x.1⟩⟩)
    ++ [⟨.exitLeaf, ⟨callee, leaf.retPc⟩⟩]

/-- Compiled code is at index `ip` when the interpreter, with `extra` further frames, is at an
    offset of a function: either in the function itself or in a leaf that it calls. -/
inductive Stands (image : Image) (r : Routine) (ip : Nat) : List Frame → UInt16 → Nat → Prop
  | own {options code starts pc} (linked : Linked image options code starts r.program)
      (readable : Readable code pc)
      (follows : Follows starts (unlinkedFrom image options r.program.function code pc)
        (r.program.insts.toList.drop ip)) :
      Stands image r ip [] r.program.function pc
  | leaf {options code starts callee f room leaf pc next}
      (linked : Linked image options code starts r.program)
      (hf : image.function? callee = some f) (hleaf : leafFrom? f.code room pc = some leaf)
      (readable : Readable code next)
      (follows : Follows starts
        (leafInsts callee leaf ++ unlinkedFrom image options r.program.function code next)
        (r.program.insts.toList.drop ip)) :
      Stands image r ip [leafFrame callee r.program.function next] callee pc

theorem Stands.known {image : Image} {r : Routine} {ip pc : Nat} {extra : List Frame} {f : UInt16}
    (h : Stands image r ip extra f pc) : (image.function? f).isSome := by
  cases h with
  | own linked _ _ =>
    obtain ⟨f, hf, -⟩ := linked.source
    exact Option.isSome_iff_exists.2 ⟨f, hf⟩
  | leaf _ hf _ _ _ => exact Option.isSome_iff_exists.2 ⟨_, hf⟩

/-- The words that compiled code can still add from an index on, when it only goes forward. -/
def Native.Routine.growthFrom (r : Routine) (ip : Nat) : Nat :=
  (r.program.insts.toList.drop ip).countP fun inst => inst.op.grows

theorem Native.Program.growthFrom_prepare (p : Program) :
    p.prepare.growthFrom 0 = p.prepare.growth := by
  simp [Routine.growthFrom, Program.prepare]

namespace Native.Routine

theorem growthFrom_of_getElem? {r : Routine} {ip : Nat} {inst : Inst}
    (h : r.program.insts[ip]? = some inst) :
    r.growthFrom ip = r.growthFrom (ip + 1) + if inst.op.grows then 1 else 0 := by
  have hd : r.program.insts.toList.drop ip = inst :: r.program.insts.toList.drop (ip + 1) := by
    obtain ⟨hlt, hget⟩ := Array.getElem?_eq_some_iff.1 h
    rw [List.drop_eq_getElem_cons (by simpa using hlt)]
    simpa using hget
  rw [growthFrom, hd, List.countP_cons, growthFrom]

theorem growthFrom_anti (r : Routine) {ip ip' : Nat} (h : ip ≤ ip') :
    r.growthFrom ip' ≤ r.growthFrom ip := by
  obtain ⟨k, rfl⟩ := Nat.exists_eq_add_of_le h
  rw [growthFrom, growthFrom, ← List.drop_drop]
  exact (List.drop_sublist k _).countP_le

end Native.Routine

/-! ## Related states -/

/-- The activations that wait go on where the frames return to: the links are those of the frames
    from the bottom frame of the active activation down. -/
def Backed (image : Image) : List Activation → List Link → Prop
  | [], links => ∃ f, links = [(f, none)]
  | .interpreting a :: waiting, links => ∃ above rest,
      links = (a.function, some a.pc) :: (above ++ rest) ∧ a.floor = rest.length ∧
        Backed image waiting rest
  | .executing a :: waiting, links => ∃ pc rest,
      links = (a.routine.program.function, some pc) :: rest ∧
        a.routine = a.routine.program.prepare ∧
        Stands image a.routine a.ip [] a.routine.program.function pc ∧
        a.checked = true ∧ a.registers = .none ∧ Backed image waiting rest

/-- The second state, which only interprets, does what the first does. -/
inductive Mirrors (image : Image) : State → State → Prop
  | interpreting {a waiting m n above rest} (same : Same image (above ++ rest) m n)
      (known : (image.function? a.function).isSome) (floor : a.floor = rest.length)
      (backed : Backed image waiting rest) :
      Mirrors image ⟨.interpreting a, waiting, m⟩ ⟨.interpreting ⟨a.function, a.pc, 1⟩, [], n⟩
  | executing {a waiting m n extra links f pc} (prepared : a.routine = a.routine.program.prepare)
      (twin : Twin image links extra a.checked (a.routine.growthFrom a.ip) ⟨m, a.registers⟩ n)
      (checks : a.routine.alwaysChecked = true → a.checked = true)
      (stands : Stands image a.routine a.ip extra f pc) (backed : Backed image waiting links) :
      Mirrors image ⟨.executing a, waiting, m⟩ ⟨.interpreting ⟨f, pc, 1⟩, [], n⟩

/-- Two runs end the same way. The operands are the same unless an instruction failed. -/
structure SameEnding (image : Image) (e e' : Ending) : Prop where
  outcome : e.outcome = e'.outcome
  agrees : Agrees image e.machine e'.machine
  stack : (∀ fault location, e.outcome ≠ .error ⟨fault, some location⟩) →
    e.machine.memory.stack = e'.machine.memory.stack

/-- Two steps lead to related states, or both runs end. -/
inductive Matches (image : Image) : Progress → Progress → Prop
  | running {s t} (h : Mirrors image s t) : Matches image (.running s) (.running t)
  | ended {e e'} (h : SameEnding image e e') : Matches image (.ended e) (.ended e')

/-! ## Ends -/

variable {image : Image} {links : List Link} {waiting : List Activation} {m n : Machine}

theorem memory_close (activations : List Activation) (m : Machine) :
    (State.close activations m).memory = m.memory := by
  induction activations generalizing m with
  | nil => rfl
  | cons a rest ih =>
    rw [State.close, List.foldl_cons]
    cases a <;> exact ih _

/-- Closing activations changes nothing that matters. -/
theorem Agrees.close (activations : List Activation) (h : Agrees image m n) :
    Agrees image (State.close activations m) n := by
  induction activations generalizing m with
  | nil => exact h
  | cons a rest ih =>
    rw [State.close, List.foldl_cons]
    cases a with
    | interpreting a => exact ih h
    | executing a => exact ih { h with sound := h.sound.leave _ }

theorem Agrees.abort (activations : List Activation) (fault : Fault) (location : Location)
    (h : Agrees image m n) :
    Matches image (State.abort activations fault location m) (State.abort [] fault location n) :=
  .ended ⟨rfl, h.close activations, fun hne => absurd rfl (hne fault location)⟩

theorem Agrees.finish (activations : List Activation) (value : Word) (h : Agrees image m n)
    (hs : m.memory.stack = n.memory.stack) :
    Matches image (State.finish activations value m) (State.finish [] value n) :=
  .ended ⟨rfl, h.close activations, fun _ => by rw [memory_close]; exact hs⟩

theorem Agrees.halt (activations : List Activation) (h : Agrees image m n)
    (hs : m.memory.stack = n.memory.stack) :
    Matches image (State.halt activations m) (State.halt [] n) := by
  rw [State.halt, State.halt, Machine.popOrZero_eq, Machine.popOrZero_eq, hs]
  exact Agrees.finish activations _ { h with stackLimit := rfl } rfl

theorem Backed.ne_nil {waiting : List Activation} {links : List Link}
    (h : Backed image waiting links) : links ≠ [] := by
  cases waiting with
  | nil =>
    obtain ⟨f, rfl⟩ := h
    simp
  | cons a waiting =>
    cases a with
    | interpreting a =>
      obtain ⟨above, rest, rfl, _⟩ := h
      simp
    | executing a =>
      obtain ⟨pc, rest, rfl, _⟩ := h
      simp

/-- Below a frame that returns there is another one. -/
theorem Backed.tail_ne_nil {waiting : List Activation} {f : UInt16} {pc : Nat} {tail : List Link}
    (h : Backed image waiting ((f, some pc) :: tail)) : tail ≠ [] := by
  cases waiting with
  | nil =>
    obtain ⟨g, hg⟩ := h
    simp at hg
  | cons a waiting =>
    cases a with
    | interpreting a =>
      obtain ⟨above, rest, heq, _, hb⟩ := h
      rw [(List.cons.inj heq).2]
      simp [hb.ne_nil]
    | executing a =>
      obtain ⟨pc', rest, heq, _, _, _, _, hb⟩ := h
      rw [(List.cons.inj heq).2]
      exact hb.ne_nil

/-! ## Calls and returns -/

theorem Same.twin {checked : Bool} {room : Nat} (h : Same image links m n)
    (hr : checked = false → n.memory.stack.words.size + room ≤ n.memory.stack.limit) :
    Twin image links [] checked room ⟨m, .none⟩ n :=
  ⟨h.toAlike, by rw [h.stack]; exact .refl h.bounded hr⟩

theorem Native.IsCompiled.stands {f : UInt16} {r : Routine} (h : IsCompiled image f r) :
    r = r.program.prepare ∧ Stands image r 0 [] f 0 := by
  obtain ⟨options, p, hp, rfl⟩ := h
  obtain ⟨rfl, code, starts, linked⟩ := compile_linked hp
  exact ⟨rfl, .own linked linked.readable linked.follows⟩

/-- The start of compiled code. -/
theorem Same.executing {f : UInt16} {r : Routine} (h : Same image links m n)
    (hr : IsCompiled image f r) (hb : Backed image waiting links) :
    Mirrors image ⟨State.executing r m, waiting, m⟩ ⟨.interpreting ⟨f, 0, 1⟩, [], n⟩ := by
  obtain ⟨hprepared, hstands⟩ := hr.stands
  have hgrowth : r.growthFrom 0 = r.growth := by
    rw [hprepared]
    exact Program.growthFrom_prepare _
  refine .executing hprepared (h.twin fun hc => ?_) (fun ha => ?_) hstands hb
  · dsimp only at hc ⊢
    rw [Bool.or_eq_false_iff, h.stack] at hc
    have := of_decide_eq_false hc.2
    rw [OperandStack.size] at this
    omega
  · exact Bool.or_eq_true_iff.2 (.inl ha)

/-- The activation that waits goes on where the frame that was left returns to. -/
theorem Same.resume {f : UInt16} {pc : Nat} (h : Same image links m n)
    (hf : (image.function? f).isSome) (hb : Backed image waiting ((f, some pc) :: links)) :
    Matches image (State.resume waiting m) (.running ⟨.interpreting ⟨f, pc, 1⟩, [], n⟩) := by
  cases waiting with
  | nil =>
    obtain ⟨g, hg⟩ := hb
    simp at hg
  | cons a waiting =>
    cases a with
    | interpreting a =>
      obtain ⟨above, rest, heq, hfloor, hb⟩ := hb
      simp only [List.cons.injEq, Prod.mk.injEq, Option.some.injEq] at heq
      obtain ⟨⟨rfl, rfl⟩, rfl⟩ := heq
      exact .running (.interpreting h hf hfloor hb)
    | executing a =>
      obtain ⟨pc', rest, heq, hprepared, hstands, hchecked, hregisters, hb⟩ := hb
      simp only [List.cons.injEq, Prod.mk.injEq, Option.some.injEq] at heq
      obtain ⟨⟨rfl, rfl⟩, rfl⟩ := heq
      refine .running (.executing hprepared ?_ (fun _ => hchecked) hstands hb)
      rw [hregisters]
      exact h.twin fun hc => by rw [hchecked] at hc; cases hc

theorem Alike.depth_le {extra : List Frame} (h : Alike image links extra m n) :
    m.memory.calls.depth ≤ n.memory.calls.depth := by
  have hlength := congrArg List.length h.frames
  rw [List.length_append, Array.length_toList, Array.length_toList] at hlength
  rw [CallStack.depth, CallStack.depth]
  omega

/-- A frame below which there are others is not the last one. -/
theorem Alike.depth_pos {extra : List Frame} (h : Alike image links extra m n) (hl : links ≠ []) :
    ¬ n.memory.calls.depth < 1 := by
  have hlen : links.length = m.memory.calls.depth := by
    rw [← h.links, CallStack.length_links]
  have hle := h.depth_le
  have hpos := List.length_pos_iff.2 hl
  omega

/-- A return that does not end its activation. -/
theorem returnFromInterpreter_of_resume {f g : UInt16} {pc k floor : Nat} {n' : Machine}
    {rest : List Activation} (hn : Machine.leaveFrame n = .ok (.resume f pc) n')
    (hd : ¬ n'.memory.calls.depth < floor) :
    State.returnFromInterpreter ⟨g, k, floor⟩ rest n =
      .running ⟨.interpreting ⟨f, pc, floor⟩, rest, n'⟩ := by
  rw [State.returnFromInterpreter, hn]
  dsimp only
  rw [if_neg hd]

/-- A return in interpreted code. -/
theorem Same.returnFromInterpreter {a : Interpreting} {above rest : List Link}
    (h : Same image (above ++ rest) m n) (hfloor : a.floor = rest.length)
    (hb : Backed image waiting rest) :
    Matches image (State.returnFromInterpreter a waiting m)
      (State.returnFromInterpreter ⟨a.function, a.pc, 1⟩ [] n) := by
  -- the top link is that of a frame of this activation; below the last one the next one waits
  obtain ⟨link, tail, hlinks⟩ : ∃ link tail, above ++ rest = link :: tail :=
    List.exists_cons_of_ne_nil (by simp [hb.ne_nil])
  rw [hlinks] at h
  obtain ⟨r, _, m', n', hm, hn, rfl, h', hr⟩ | ⟨e, m', n', hm, hn, h'⟩ := h.leaveFrame.cases
  · obtain ⟨f, ra⟩ := link
    cases ra with
    | none =>
      obtain ⟨value, rfl⟩ := hr
      rw [State.returnFromInterpreter, State.returnFromInterpreter, hm, hn]
      exact h'.finish waiting value h'.stack
    | some pc =>
      obtain rfl : r = .resume f pc := hr
      have hf : (image.function? f).isSome := h.known (f, some pc) List.mem_cons_self rfl
      have hdepth : m'.memory.calls.depth = tail.length := by
        rw [← CallStack.length_links, h'.links]
      rw [State.returnFromInterpreter, hm]
      dsimp only
      cases above with
      | nil =>
        obtain rfl : rest = (f, some pc) :: tail := hlinks
        rw [if_pos (by rw [hfloor, hdepth]; simp),
          returnFromInterpreter_of_resume hn (h'.depth_pos hb.tail_ne_nil)]
        exact h'.resume hf hb
      | cons l above =>
        obtain ⟨rfl, rfl⟩ : l = (f, some pc) ∧ above ++ rest = tail := by simpa using hlinks
        rw [if_neg (by rw [hfloor, hdepth]; simp),
          returnFromInterpreter_of_resume hn (h'.depth_pos (by simp [hb.ne_nil]))]
        exact .running (.interpreting h' hf hfloor hb)
  · rw [State.returnFromInterpreter, State.returnFromInterpreter, hm, hn]
    exact h'.abort waiting e _

/-- A call in interpreted code. -/
theorem Same.callFromInterpreter {setup setup' : Setup} {a : Interpreting} {above rest : List Link}
    (next : Nat) (callee : UInt16) (hi : setup.image = image) (hi' : setup'.image = image)
    (h : Same image (above ++ rest) m n) (hf : (image.function? a.function).isSome)
    (hfloor : a.floor = rest.length) (hb : Backed image waiting rest) :
    Matches image (State.callFromInterpreter setup a next callee waiting m)
      (State.callFromInterpreter setup' ⟨a.function, a.pc, 1⟩ next callee [] n) := by
  rw [State.callFromInterpreter, State.callFromInterpreter, hi, hi']
  obtain ⟨r, _, m', n', hm, hn, rfl, hr, hcallee, h'⟩ | ⟨e, m', n', hm, hn, h'⟩ :=
    (h.enterCall callee a.function (some next) fun _ => hf).cases
  · rw [hm, hn]
    cases r with
    | none =>
      have hsame : Same image (((a.function, some next) :: above) ++ rest) m' n' := h'
      exact .running
        (.interpreting (a := { a with function := callee, pc := 0 }) hsame hcallee hfloor hb)
    | some routine =>
      exact .running (h'.executing (hr routine rfl) ⟨above, rest, rfl, hfloor, hb⟩)
  · rw [hm, hn]
    exact h'.abort waiting e _

/-- A call in compiled code, where the interpreter makes the same call. -/
theorem Same.callFromNative {setup setup' : Setup} {a : Executing} {pc next : Nat}
    (callee : UInt16) (hi : setup.image = image) (hi' : setup'.image = image)
    (hnext : next = pc + Opcode.call.size) (h : Same image links m n)
    (hprepared : a.routine = a.routine.program.prepare) (hchecked : a.checked = true)
    (hstands : Stands image a.routine (a.ip + 1) [] a.routine.program.function next)
    (hb : Backed image waiting links) :
    Matches image
      (State.callFromNative setup a ⟨a.routine.program.function, pc⟩ callee waiting m)
      (State.callFromInterpreter setup' ⟨a.routine.program.function, pc, 1⟩ next callee [] n) := by
  subst hnext
  rw [State.callFromNative, State.callFromInterpreter, hi, hi']
  have hback : Backed image
      (.executing { a with ip := a.ip + 1, registers := .none } :: waiting)
      ((a.routine.program.function, some (pc + Opcode.call.size)) :: links) :=
    ⟨_, _, rfl, hprepared, hstands, hchecked, rfl, hb⟩
  obtain ⟨r, _, m', n', hm, hn, rfl, hr, hcallee, h'⟩ | ⟨e, m', n', hm, hn, h'⟩ :=
    (h.enterCall callee a.routine.program.function (some (pc + Opcode.call.size)) fun _ =>
      hstands.known).cases
  · rw [hm, hn]
    cases r with
    | none =>
      -- the new activation has a single frame, the one the call pushed
      have hsame : Same image ([] ++ (_ :: links)) m' n' := h'
      refine .running
        (.interpreting (a := ⟨callee, 0, m.memory.calls.depth + 1⟩) hsame hcallee ?_ hback)
      rw [← CallStack.length_links, h.links]
      rfl
    | some routine => exact .running (h'.executing (hr routine rfl) hback)
  · rw [hm, hn]
    exact h'.abort _ e _

/-- A return in compiled code, where the interpreter returns as well. -/
theorem Same.returnFromNative {a : Executing} {pc : Nat} (h : Same image links m n)
    (hb : Backed image waiting links) :
    Matches image
      (State.returnFromNative a ⟨a.routine.program.function, pc⟩ waiting m)
      (State.returnFromInterpreter ⟨a.routine.program.function, pc, 1⟩ [] n) := by
  obtain ⟨⟨f, ra⟩, tail, rfl⟩ := List.exists_cons_of_ne_nil hb.ne_nil
  rw [State.returnFromNative]
  obtain ⟨r, _, m', n', hm, hn, rfl, h', hr⟩ | ⟨e, m', n', hm, hn, h'⟩ := h.leaveFrame.cases
  · cases ra with
    | none =>
      obtain ⟨value, rfl⟩ := hr
      rw [State.returnFromInterpreter, hm, hn]
      exact h'.finish _ value h'.stack
    | some target =>
      obtain rfl : r = .resume f target := hr
      rw [hm, returnFromInterpreter_of_resume hn (h'.depth_pos hb.tail_ne_nil)]
      exact Same.resume { h' with sound := h'.sound.leave _ }
        (h.known (f, some target) List.mem_cons_self rfl) hb
  · rw [State.returnFromInterpreter, hm, hn]
    exact h'.abort _ e _

/-! ## Steps -/

theorem Same.report (setup setup' : Setup) (a a' : Interpreting) (i : Instr)
    (h : Same image links m n) :
    Same image links (State.report setup a i m) (State.report setup' a' i n) := by
  obtain ⟨j, hj⟩ := report_eq setup a i m
  obtain ⟨j', hj'⟩ := report_eq setup' a' i n
  rw [hj, hj']
  exact { h with }

theorem Native.Twin.report {extra : List Frame} {checked : Bool} {room : Nat} {w : Workspace}
    (setup : Setup) (a : Interpreting) (i : Instr) (h : Twin image links extra checked room w n) :
    Twin image links extra checked room w (State.report setup a i n) := by
  obtain ⟨j, hj⟩ := report_eq setup a i n
  rw [hj]
  exact ⟨{ h.alike with }, h.operands⟩

/-- A step in which both machines interpret. -/
theorem Same.interpretStep {setup setup' : Setup} {a : Interpreting} {above rest : List Link}
    (hi : setup.image = image) (hi' : setup'.image = image)
    (h : Same image (above ++ rest) m n) (hknown : (image.function? a.function).isSome)
    (hfloor : a.floor = rest.length) (hb : Backed image waiting rest) :
    Matches image (State.interpret setup a waiting m)
      (State.interpret setup' ⟨a.function, a.pc, 1⟩ [] n) := by
  unfold State.interpret
  rw [hi, hi']
  dsimp only
  cases hf : image.function? a.function with
  | none =>
    rw [hf] at hknown
    cases hknown
  | some f =>
    dsimp only
    by_cases hend : f.code.size ≤ a.pc
    · rw [if_pos hend, if_pos hend]
      exact h.halt waiting h.stack
    · rw [if_neg hend, if_neg hend]
      cases f.code.decode a.pc with
      | error fault => exact h.abort waiting fault _
      | ok i =>
        dsimp only
        obtain ⟨flow, _, m', n', hm, hn, rfl, h'⟩ | ⟨e, m', n', hm, hn, h'⟩ :=
          ((h.report setup setup' a ⟨a.function, a.pc, 1⟩ i).interpret (a.pc + i.size)
            f.code.size i).cases
        · rw [hm, hn]
          cases flow with
          | next =>
            exact .running (.interpreting (a := { a with pc := a.pc + i.size }) h' hknown hfloor hb)
          | jump target =>
            exact .running (.interpreting (a := { a with pc := target }) h' hknown hfloor hb)
          | call callee => exact h'.callFromInterpreter _ callee hi hi' hknown hfloor hb
          | ret => exact h'.returnFromInterpreter hfloor hb
          | halt => exact h'.halt waiting h'.stack
        · rw [hm, hn]
          exact h'.abort waiting e _

end StackMachine
