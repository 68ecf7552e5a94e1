import StackMachine.Proofs.Machine.Invariant

/-!
# The chain of frames

The frames of a run form a chain. The oldest is the frame of the entry function and the only one
that returns nowhere; every other one was pushed by a call in the code of the function to which the
frame below it belongs, and returns to just behind that call.

* `FrameChain`: what holds of the frames; `FrameChain.push` and `FrameChain.thin` say what keeps it.
* `Memory.framed`: with the bounds of the stacks and the size of the globals this is an invariant
  of runs.
-/

namespace StackMachine

/-- The frame belongs to a function of the image and has the locals that the function asks for. -/
def Frame.Fits (image : Image) (f : Frame) : Prop :=
  ∃ g, image.function? f.function = some g ∧ f.locals.size = g.locals.toNat ∧ g.arity ≤ g.locals

/-- The frame `upper` returns to the function of `lower`, just behind the call that pushed it. -/
def Frame.CalledFrom (image : Image) (lower upper : Frame) : Prop :=
  upper.returnFunction = lower.function ∧
    ∃ g pc, image.function? lower.function = some g ∧
      upper.returnAddress = some (pc + Opcode.call.size) ∧
      g.code.decode pc = .ok (.call upper.function)

/-- The frames of a run, oldest first. -/
structure FrameChain (image : Image) (frames : Array Frame) : Prop where
  entry : ∃ f, frames[0]? = some f ∧ f.function = image.entry
  fits : ∀ (i : Nat) f, frames[i]? = some f → f.Fits image
  bottom : ∀ (i : Nat) f, frames[i]? = some f → (f.returnAddress = none ↔ i = 0)
  linked : ∀ (i : Nat) lower upper, frames[i]? = some lower → frames[i + 1]? = some upper →
    lower.CalledFrom image upper

/-- Two frames differ at most in the words that their locals hold. -/
structure Frame.SameShape (f g : Frame) : Prop where
  function : f.function = g.function
  returnFunction : f.returnFunction = g.returnFunction
  returnAddress : f.returnAddress = g.returnAddress
  locals : f.locals.size = g.locals.size

theorem Frame.SameShape.refl (f : Frame) : f.SameShape f := ⟨rfl, rfl, rfl, rfl⟩

namespace FrameChain

variable {image : Image} {frames frames' : Array Frame}

theorem single {f : Frame} (hentry : f.function = image.entry) (hnone : f.returnAddress = none)
    (hfits : f.Fits image) : FrameChain image #[f] := by
  have hzero : ∀ (i : Nat) g, #[f][i]? = some g → i = 0 ∧ g = f := by
    intro i g hg
    obtain ⟨hi, rfl⟩ := Array.getElem?_eq_some_iff.1 hg
    obtain rfl : i = 0 := by simpa using hi
    exact ⟨rfl, rfl⟩
  refine ⟨⟨f, rfl, hentry⟩, ?_, ?_, ?_⟩
  · intro i g hg
    obtain ⟨-, rfl⟩ := hzero i g hg
    exact hfits
  · intro i g hg
    obtain ⟨rfl, rfl⟩ := hzero i g hg
    exact ⟨fun _ => rfl, fun _ => hnone⟩
  · intro i lower upper _ hupper
    exact absurd (hzero _ _ hupper).1 (Nat.succ_ne_zero i)

/-- Some of the frames from the bottom up, possibly with other words in their locals. -/
theorem thin (h : FrameChain image frames) (hpos : 0 < frames'.size)
    (hshape : ∀ (i : Nat) f', frames'[i]? = some f' → ∃ f, frames[i]? = some f ∧ f'.SameShape f) :
    FrameChain image frames' := by
  refine ⟨?_, ?_, ?_, ?_⟩
  · obtain ⟨f, hf, hs⟩ := hshape 0 frames'[0] (Array.getElem?_eq_getElem hpos)
    obtain ⟨e, he, hentry⟩ := h.entry
    obtain rfl := Option.some.inj (hf.symm.trans he)
    exact ⟨_, Array.getElem?_eq_getElem hpos, hs.function.trans hentry⟩
  · intro i f' hf'
    obtain ⟨f, hf, hs⟩ := hshape i f' hf'
    obtain ⟨g, hg, hlocals, harity⟩ := h.fits i f hf
    exact ⟨g, hs.function ▸ hg, hs.locals.trans hlocals, harity⟩
  · intro i f' hf'
    obtain ⟨f, hf, hs⟩ := hshape i f' hf'
    rw [hs.returnAddress]
    exact h.bottom i f hf
  · intro i lower' upper' hlower' hupper'
    obtain ⟨lower, hlower, hsl⟩ := hshape i lower' hlower'
    obtain ⟨upper, hupper, hsu⟩ := hshape (i + 1) upper' hupper'
    have hcalled := h.linked i lower upper hlower hupper
    rw [Frame.CalledFrom] at hcalled ⊢
    rw [hsl.function, hsu.function, hsu.returnFunction, hsu.returnAddress]
    exact hcalled

/-- A call puts the frame of the function it calls on top. -/
theorem push {lower f : Frame} (h : FrameChain image frames) (hlower : frames.back? = some lower)
    (hcalled : lower.CalledFrom image f) (hfits : f.Fits image) :
    FrameChain image (frames.push f) := by
  rw [Array.back?_eq_getElem?] at hlower
  have hpos : 0 < frames.size := by
    have := (Array.getElem?_eq_some_iff.1 hlower).1
    omega
  have hcases : ∀ (i : Nat) g, (frames.push f)[i]? = some g →
      i = frames.size ∧ g = f ∨ i < frames.size ∧ frames[i]? = some g := by
    intro i g hg
    rw [Array.getElem?_push] at hg
    split_ifs at hg with hi
    · exact .inl ⟨hi, (Option.some.inj hg).symm⟩
    · exact .inr ⟨(Array.getElem?_eq_some_iff.1 hg).1, hg⟩
  refine ⟨?_, ?_, ?_, ?_⟩
  · obtain ⟨e, he, hentry⟩ := h.entry
    refine ⟨e, ?_, hentry⟩
    rw [Array.getElem?_push, if_neg (Nat.ne_of_lt hpos), he]
  · intro i g hg
    rcases hcases i g hg with ⟨-, rfl⟩ | ⟨-, hg⟩
    · exact hfits
    · exact h.fits i g hg
  · intro i g hg
    rcases hcases i g hg with ⟨rfl, rfl⟩ | ⟨-, hg⟩
    · obtain ⟨-, -, pc, -, haddress, -⟩ := hcalled
      rw [haddress]
      exact ⟨nofun, fun hzero => absurd hzero (Nat.ne_of_gt hpos)⟩
    · exact h.bottom i g hg
  · intro i g upper hg hupper
    rcases hcases (i + 1) upper hupper with ⟨hi, rfl⟩ | ⟨hi, hupper⟩
    · obtain rfl : i = frames.size - 1 := by omega
      rcases hcases _ g hg with ⟨hi, -⟩ | ⟨-, hg⟩
      · omega
      · obtain rfl := Option.some.inj (hg.symm.trans hlower)
        exact hcalled
    · rcases hcases i g hg with ⟨hi', -⟩ | ⟨-, hg⟩
      · omega
      · exact h.linked i g upper hg hupper

/-- Below a frame that returns somewhere is a frame of the function that it returns to. -/
theorem back?_pop {frame : Frame} {pc : Nat} (h : FrameChain image frames)
    (hback : frames.back? = some frame) (hpc : frame.returnAddress = some pc) :
    ∃ lower, frames.pop.back? = some lower ∧ lower.function = frame.returnFunction := by
  rw [Array.back?_eq_getElem?] at hback
  have hne : frames.size - 1 ≠ 0 := by
    intro hzero
    have hnone := (h.bottom _ frame hback).2 hzero
    rw [hpc] at hnone
    cases hnone
  have hlt : frames.size - 2 < frames.size := by omega
  have hlower := Array.getElem?_eq_getElem hlt
  have hnext : frames.size - 2 + 1 = frames.size - 1 := by omega
  refine ⟨frames[frames.size - 2], ?_, (h.linked _ _ _ hlower (hnext ▸ hback)).1.symm⟩
  rw [Array.back?_eq_getElem?, Array.size_pop, Array.getElem?_pop, if_pos (by omega)]
  exact hlower

theorem pop (h : FrameChain image frames) (hpos : 0 < frames.pop.size) :
    FrameChain image frames.pop := by
  refine h.thin hpos fun i f hf => ⟨f, ?_, .refl f⟩
  rw [Array.getElem?_pop] at hf
  split_ifs at hf
  exact hf

end FrameChain

/-- A write to a local changes no more than a word in the locals of the top frame. -/
theorem CallStack.sameShape_of_storeLocal {index : UInt8} {w : Word} {s s' : CallStack}
    (h : CallStack.storeLocal index w s = .ok () s') :
    s'.limit = s.limit ∧ s'.frames.size = s.frames.size ∧
      ∀ (i : Nat) f', s'.frames[i]? = some f' → ∃ f, s.frames[i]? = some f ∧ f'.SameShape f := by
  unfold CallStack.storeLocal at h
  split at h
  · cases h
  · dsimp only at h
    split_ifs at h
    obtain ⟨-, rfl⟩ := EStateM.Result.ok.inj h
    refine ⟨rfl, Array.size_modify, fun i f' hf' => ?_⟩
    rw [Array.getElem?_modify] at hf'
    split_ifs at hf'
    · obtain ⟨f, hf, rfl⟩ := Option.map_eq_some_iff.1 hf'
      exact ⟨f, hf, rfl, rfl, rfl, Array.size_setIfInBounds⟩
    · exact ⟨f', hf', .refl f'⟩

theorem Globals.size_of_store {index : UInt16} {w : Word} {g g' : Globals}
    (h : Globals.store index w g = .ok () g') : g'.words.size = g.words.size := by
  unfold Globals.store at h
  dsimp only at h
  split_ifs at h
  obtain ⟨-, rfl⟩ := EStateM.Result.ok.inj h
  exact Array.size_setIfInBounds

namespace Memory

/-- The two stacks are bounded as the settings say. -/
structure Limited (maxStack maxCallDepth : Nat) (m : Memory) : Prop where
  stackLimit : m.stack.limit = maxStack
  callLimit : m.calls.limit = maxCallDepth

/-- The memory of a run that is in code of a function: neither stack is larger than it may be, there
    are as many globals as the image asks for, and the frames form a chain with a frame of the
    function on top. -/
structure Framed (image : Image) (maxStack maxCallDepth : Nat) (function : UInt16)
    (m : Memory) : Prop extends m.Limited maxStack maxCallDepth where
  stack : m.stack.size ≤ maxStack
  depth : m.calls.depth ≤ maxCallDepth
  globals : m.globals.words.size = image.globals.toNat
  chain : FrameChain image m.calls.frames
  top : ∃ f, m.calls.frames.back? = some f ∧ f.function = function

namespace Framed

variable {image : Image} {maxStack maxCallDepth : Nat} {f : UInt16} {m : Memory}

theorem start {g : Image.Function} (h : m.Limited maxStack maxCallDepth)
    (hg : image.function? image.entry = some g) (hlocals : ¬ g.locals < g.arity)
    (hroom : 0 < m.calls.limit) :
    Framed image maxStack maxCallDepth image.entry { m.reset image.globals.toNat with
      calls := ⟨#[.zeroed image.entry image.entry none g.locals.toNat], m.calls.limit⟩ } where
  stackLimit := h.stackLimit
  callLimit := h.callLimit
  stack := Nat.zero_le _
  depth := h.callLimit ▸ hroom
  globals := Array.size_replicate
  chain := .single rfl rfl ⟨g, hg, Array.size_replicate, UInt8.not_lt.1 hlocals⟩
  top := ⟨_, rfl, rfl⟩

theorem storeLocal {index : UInt8} {w : Word} {calls : CallStack}
    (h : m.Framed image maxStack maxCallDepth f)
    (hstore : CallStack.storeLocal index w m.calls = .ok () calls) :
    Framed image maxStack maxCallDepth f { m with calls } := by
  obtain ⟨hlimit, hsize, hshape⟩ := CallStack.sameShape_of_storeLocal hstore
  obtain ⟨frame, hback, hfunction⟩ := h.top
  have hpos : 0 < calls.frames.size := by
    rw [hsize]
    exact Array.size_pos_of_mem (Array.mem_of_back? hback)
  have hlast : calls.frames.size - 1 < calls.frames.size := by omega
  have hget := Array.getElem?_eq_getElem hlast
  refine { h with
    callLimit := hlimit.trans h.callLimit
    depth := Nat.le_trans (Nat.le_of_eq hsize) h.depth
    chain := h.chain.thin hpos hshape
    top := ⟨_, Array.back?_eq_getElem?.trans hget, ?_⟩ }
  obtain ⟨old, hold, hs⟩ := hshape _ _ hget
  rw [Array.back?_eq_getElem?, ← hsize, hold] at hback
  obtain rfl := Option.some.inj hback
  exact hs.function.trans hfunction

theorem call {g : UInt16} {caller callee : Image.Function} {pc : Nat} {locals : Array Word}
    (h : m.Framed image maxStack maxCallDepth f) (hf : image.function? f = some caller)
    (hd : caller.code.decode pc = .ok (.call g)) (hg : image.function? g = some callee)
    (hlocals : ¬ callee.locals < callee.arity) (hsize : locals.size = callee.locals.toNat)
    (hroom : m.calls.frames.size < m.calls.limit) :
    Framed image maxStack maxCallDepth g { m with
      calls := ⟨m.calls.frames.push ⟨g, f, some (pc + Opcode.call.size), locals⟩,
        m.calls.limit⟩ } := by
  obtain ⟨lower, hback, rfl⟩ := h.top
  exact { h with
    depth := by
      rw [CallStack.depth, Array.size_push, ← h.callLimit]
      exact hroom
    chain := h.chain.push hback ⟨rfl, caller, pc, hf, rfl, hd⟩
      ⟨callee, hg, hsize, UInt8.not_lt.1 hlocals⟩
    top := ⟨_, Array.back?_push, rfl⟩ }

theorem ret {frame : Frame} {pc : Nat} (h : m.Framed image maxStack maxCallDepth f)
    (hback : m.calls.frames.back? = some frame) (hpc : frame.returnAddress = some pc) :
    Framed image maxStack maxCallDepth frame.returnFunction { m with
      calls := ⟨m.calls.frames.pop, m.calls.limit⟩ } := by
  obtain ⟨lower, hlower, hfunction⟩ := h.chain.back?_pop hback hpc
  have hdepth := h.depth
  exact { h with
    depth := by
      rw [CallStack.depth] at hdepth ⊢
      rw [Array.size_pop]
      omega
    chain := h.chain.pop (Array.size_pos_of_mem (Array.mem_of_back? hlower))
    top := ⟨lower, hlower, hfunction⟩ }

end Framed

/-- The chain of frames is an invariant. It does not depend on the words that a run works with. -/
def framed (image : Image) (maxStack maxCallDepth : Nat) : Invariant image where
  good _ _ := True
  begins m := m.Limited maxStack maxCallDepth
  holds f m := m.Framed image maxStack maxCallDepth f
  left m := m.Limited maxStack maxCallDepth
  good_plain _ := trivial
  good_root _ _ := trivial
  good_load _ _ := trivial
  good_length _ _ := trivial
  start h hg hlocals hroom := Framed.start h hg hlocals hroom
  reset h := ⟨h.stackLimit, h.callLimit⟩
  pop := by
    intro f m h
    have hstack := h.stack
    refine { h with stack := ?_ }
    rw [OperandStack.size] at hstack ⊢
    rw [Array.size_pop]
    omega
  push := by
    intro f m w h _ hroom
    refine { h with stack := ?_ }
    rw [OperandStack.size, Array.size_push, ← h.stackLimit]
    exact hroom
  storeLocal h _ hstore := h.storeLocal hstore
  storeGlobal h _ hstore := { h with globals := (Globals.size_of_store hstore).trans h.globals }
  storeElement h _ _ := { h with }
  collect h := { h with }
  alloc h _ := ⟨{ h with }, trivial⟩
  allocFailed h _ := { h with }
  call h hf hd hg hlocals hsize _ hroom := h.call hf hd hg hlocals hsize hroom
  ret h hback hpc := h.ret hback hpc
  finish h := ⟨h.stackLimit, h.callLimit⟩
  left_of_holds h := h.toLimited
  begins_of_left h := h
  begins_collect h := ⟨h.stackLimit, h.callLimit⟩

end Memory

end StackMachine
