import StackMachine.Proofs.Machine.Calls

/-!
# Promotion depends on counts

Two things are asked of promotion: to count a call, and to have a function compiled. What becomes of
a function depends on how often each was asked of it, not on the order, and not on what was asked of
other functions.

* `Request.perform_eq`: a request changes the record of one function, by `Request.effect`.
* `effect_record`: the record that requests leave behind has a closed form, which a further request
  brings forward.
* `settled_by_counts`: when a function is compiled, what its record says, what requests answer,
  and that requests in another order lead to the same table.
-/

namespace StackMachine

open Native

/-! ## Changes of one record -/

namespace FunctionTable

/-- Only the record that is there matters. -/
theorem modify_congr {t : FunctionTable} {f : UInt16} {g g' : FunctionRecord → FunctionRecord}
    (h : ∀ r ∈ t.get? f, g r = g' r) : t.modify f g = t.modify f g' := by
  apply congrArg FunctionTable.mk
  apply Array.ext_getElem?
  intro i
  rw [Array.getElem?_modify, Array.getElem?_modify]
  split_ifs with hi
  · subst hi
    cases hr : t.records[f.toNat]? with
    | none => rfl
    | some r => exact congrArg some (h r hr)
  · rfl

/-- A change that leaves the record as it is, or finds none, is no change. -/
theorem modify_eq_self {t : FunctionTable} {f : UInt16} {g : FunctionRecord → FunctionRecord}
    (h : ∀ r ∈ t.get? f, g r = r) : t.modify f g = t := by
  have hid : t.modify f g = t.modify f id := modify_congr h
  rw [hid]
  apply congrArg FunctionTable.mk
  apply Array.ext_getElem?
  intro i
  rw [Array.getElem?_modify]
  split_ifs <;> simp

theorem modify_modify (t : FunctionTable) (f : UInt16) (g g' : FunctionRecord → FunctionRecord) :
    (t.modify f g).modify f g' = t.modify f (g' ∘ g) := by
  apply congrArg FunctionTable.mk
  apply Array.ext_getElem?
  intro i
  simp only [modify, Array.getElem?_modify]
  split_ifs
  · rw [Option.map_map]
  · rfl

end FunctionTable

namespace FunctionRecord

/-- The record after an attempt to compile the function, unless its standing is final. -/
def settle (image : Image) (f : UInt16) (options : Options) (r : FunctionRecord) :
    FunctionRecord :=
  match r.standing with
  | .pending =>
    match compile image f options with
    | .ok program => { r with standing := .compiled program.prepare, compiles := r.compiles + 1 }
    | .error e => { r with standing := .failed e.message }
  | _ => r

/-- The record with one more call. -/
def counted (r : FunctionRecord) : FunctionRecord := { r with calls := r.calls + 1 }

variable {image : Image} {f : UInt16} {options : Options} {r : FunctionRecord}

theorem settle_of_final (h : r.standing ≠ .pending) : r.settle image f options = r := by
  unfold settle
  split
  · next hpending => exact absurd hpending h
  · rfl

theorem standing_settle_ne_pending : (r.settle image f options).standing ≠ .pending := by
  unfold settle
  split
  · split <;> simp
  · next hfinal => exact hfinal

/-- A standing that is final stays. -/
theorem settle_settle : (r.settle image f options).settle image f options =
    r.settle image f options :=
  settle_of_final standing_settle_ne_pending

theorem counted_settle : (r.settle image f options).counted = r.counted.settle image f options := by
  simp only [settle, counted]
  split
  · split <;> rfl
  · rfl

theorem calls_settle : (r.settle image f options).calls = r.calls := by
  unfold settle
  split
  · split <;> rfl
  · rfl

end FunctionRecord

/-! ## Requests -/

namespace Promotion

/-- What is asked of promotion: to count a call of a function, or to have the function compiled. -/
inductive Request where
  | call (f : UInt16)
  | compile (f : UInt16)
deriving DecidableEq

namespace Request

/-- The function that a request is about. -/
def function : Request → UInt16
  | call f | compile f => f

/-- Carries a request out. Gives whether compiled code is there, and what is to be logged. -/
def perform (image : Image) (p : Promotion) : Request → Bool × List Event × Promotion
  | call f => p.onCall image f
  | compile f => p.ensureCompiled image f

/-- What a request does to the record of its function, by the policy of `p`. -/
def effect (image : Image) (p : Promotion) : Request → FunctionRecord → FunctionRecord
  | compile f, r => r.settle image f p.options
  | call f, r =>
    if p.mode = .off then r
    else if p.mode = .on ∧ r.calls + 1 < p.threshold then r.counted
    else r.counted.settle image f p.options

end Request

/-- The state after some requests. -/
def after (image : Image) (p : Promotion) (requests : List Request) : Promotion :=
  requests.foldl (fun p r => (r.perform image p).2.2) p

theorem after_append (image : Image) (p : Promotion) (requests more : List Request) :
    p.after image (requests ++ more) = (p.after image requests).after image more :=
  List.foldl_append

variable {image : Image} {settings : Settings} {count : Nat}

/-- Compiling a function settles its record and touches nothing else. -/
theorem ensureCompiled_eq (image : Image) (p : Promotion) (f : UInt16) :
    ((p.ensureCompiled image f).1 =
      (p.table.get? f).any fun r => (r.settle image f p.options).isCompiled) ∧
    (p.ensureCompiled image f).2.2 =
      { p with table := p.table.modify f (FunctionRecord.settle image f p.options) } := by
  unfold ensureCompiled
  cases hr : p.table.get? f with
  | none =>
    rw [FunctionTable.modify_eq_self (by simp [hr])]
    exact ⟨rfl, rfl⟩
  | some r =>
    have honly : ∀ r' ∈ p.table.get? f, r' = r := by simp [hr, eq_comm]
    by_cases hs : r.standing = .pending
    · simp only [hs]
      cases hc : compile image f p.options with
      | ok program =>
        refine ⟨by simp [FunctionRecord.settle, hs, hc, FunctionRecord.isCompiled], ?_⟩
        refine congrArg (fun t => { p with table := t }) (FunctionTable.modify_congr ?_)
        intro r' hr'
        simp [FunctionRecord.settle, honly r' hr', hs, hc]
      | error e =>
        refine ⟨by simp [FunctionRecord.settle, hs, hc, FunctionRecord.isCompiled], ?_⟩
        refine congrArg (fun t => { p with table := t }) (FunctionTable.modify_congr ?_)
        intro r' hr'
        simp [FunctionRecord.settle, honly r' hr', hs, hc]
    · have hsame : p.table.modify f (FunctionRecord.settle image f p.options) = p.table := by
        refine FunctionTable.modify_eq_self fun r' hr' => ?_
        rw [honly r' hr']
        exact FunctionRecord.settle_of_final hs
      rw [hsame, Option.any_some, FunctionRecord.settle_of_final hs, FunctionRecord.isCompiled]
      dsimp only
      cases hstanding : r.standing with
      | pending => exact absurd hstanding hs
      | compiled routine => exact ⟨rfl, rfl⟩
      | failed reason => exact ⟨rfl, rfl⟩

/-- An attempt to compile a function right after one of its calls was counted. -/
theorem ensureCompiled_countCall (image : Image) {p : Promotion} {f : UInt16} {r : FunctionRecord}
    (hr : p.table.get? f = some r) :
    ((ensureCompiled { p with table := p.table.countCall f } image f).1 =
      (r.counted.settle image f p.options).isCompiled) ∧
    (ensureCompiled { p with table := p.table.countCall f } image f).2.2 =
      { p with table := p.table.modify f fun r => r.counted.settle image f p.options } := by
  obtain ⟨hanswer, htable⟩ := ensureCompiled_eq image { p with table := p.table.countCall f } f
  have hget : (p.table.countCall f).get? f = some r.counted := by
    rw [FunctionTable.countCall, FunctionTable.get?_modify, if_pos rfl, hr]
    rfl
  rw [hanswer, htable, hget, FunctionTable.countCall, FunctionTable.modify_modify]
  exact ⟨rfl, rfl⟩

/-- A counted call. When its time has come the function is compiled, unless its standing is
    final. -/
theorem onCall_eq {p : Promotion} (hmode : p.mode ≠ .off) (f : UInt16) :
    ((p.onCall image f).1 =
      (p.table.get? f).any fun r => ((Request.call f).effect image p r).isCompiled) ∧
    (p.onCall image f).2.2 =
      { p with table := p.table.modify f ((Request.call f).effect image p) } := by
  have heffect (r : FunctionRecord) : (Request.call f).effect image p r =
      if p.mode = .on ∧ r.calls + 1 < p.threshold then r.counted
      else r.counted.settle image f p.options := if_neg hmode
  generalize (Request.call f).effect image p = effect at heffect
  rw [onCall, if_neg hmode]
  cases hr : p.table.get? f with
  | none =>
    rw [FunctionTable.modify_eq_self (by simp [hr])]
    exact ⟨rfl, rfl⟩
  | some r =>
    have hmodify (g : FunctionRecord → FunctionRecord) (h : effect r = g r) :
        p.table.modify f effect = p.table.modify f g := by
      refine FunctionTable.modify_congr fun r' hr' => ?_
      obtain rfl : r' = r := by simpa [hr, eq_comm] using hr'
      exact h
    have hattempt := ensureCompiled_countCall image hr
    rw [Option.any_some]
    dsimp only
    by_cases hs : r.standing = .pending
    · simp only [hs]
      by_cases hon : p.mode = .on
      · by_cases hlow : r.calls + 1 < p.threshold
        · have h : effect r = r.counted := by rw [heffect, if_pos ⟨hon, hlow⟩]
          rw [if_pos hon, if_pos hlow, hmodify FunctionRecord.counted h, h]
          exact ⟨by simp [FunctionRecord.isCompiled, FunctionRecord.counted, hs], rfl⟩
        · have h : effect r = r.counted.settle image f p.options := by
            rw [heffect, if_neg fun hlow' => hlow hlow'.2]
          rw [if_pos hon, if_neg hlow, hmodify (fun r => r.counted.settle image f p.options) h, h]
          exact hattempt
      · have h : effect r = r.counted.settle image f p.options := by
          rw [heffect, if_neg fun hon' => hon hon'.1]
        rw [if_neg hon, hmodify (fun r => r.counted.settle image f p.options) h, h]
        exact hattempt
    · have hfinal : r.counted.standing ≠ .pending := hs
      have h : effect r = r.counted := by
        rw [heffect, FunctionRecord.settle_of_final hfinal, ite_self]
      rw [hmodify FunctionRecord.counted h, h]
      cases hstanding : r.standing with
      | pending => exact absurd hstanding hs
      | compiled routine =>
        exact ⟨by simp [FunctionRecord.isCompiled, FunctionRecord.counted, hstanding], rfl⟩
      | failed reason =>
        exact ⟨by simp [FunctionRecord.isCompiled, FunctionRecord.counted, hstanding], rfl⟩

/-- A request changes the record of its function and nothing else, and it answers whether that
    function is compiled then. Where nothing is compiled, the answer to a call is no. -/
theorem Request.perform_eq (p : Promotion) (r : Request) :
    ((r.perform image p).1 = (decide (p.mode ≠ .off ∨ r = .compile r.function) &&
      (p.table.get? r.function).any fun record => (r.effect image p record).isCompiled)) ∧
    (r.perform image p).2.2 =
      { p with table := p.table.modify r.function (r.effect image p) } := by
  cases r with
  | compile f =>
    refine (ensureCompiled_eq image p f).imp_left fun h => ?_
    simpa [perform, function, effect] using h
  | call f =>
    by_cases hmode : p.mode = .off
    · have hsame : p.table.modify f ((Request.call f).effect image p) = p.table :=
        FunctionTable.modify_eq_self fun _ _ => if_pos hmode
      rw [function, hsame, perform, onCall, if_pos hmode]
      exact ⟨by simp [hmode], rfl⟩
    · exact (onCall_eq hmode f).imp_left fun h => by simpa [perform, function, hmode] using h

/-- A request to a function outside the table changes nothing. -/
theorem Request.perform_of_get? {p : Promotion} {r : Request}
    (h : p.table.get? r.function = none) : r.perform image p = (false, [], p) := by
  cases r with
  | compile f =>
    have hnone : p.table.get? f = none := h
    rw [perform, ensureCompiled, hnone]
  | call f =>
    have hnone : p.table.get? f = none := h
    rw [perform, onCall, hnone]
    exact ite_self _

/-! ## The record that requests leave behind -/

/-- The time of a function has come: it was asked to be compiled, it was called in a mode that
    compiles at the first call, or it was called often enough. -/
def Due (settings : Settings) (requests : List Request) (f : UInt16) : Prop :=
  .compile f ∈ requests ∨
    settings.jitMode = .always ∧ .call f ∈ requests ∨
    settings.jitMode = .on ∧ max 1 settings.jitThreshold ≤ requests.count (.call f)

instance (settings : Settings) (requests : List Request) (f : UInt16) :
    Decidable (Due settings requests f) :=
  inferInstanceAs (Decidable (_ ∨ _ ∧ _ ∨ _ ∧ _))

/-- The number of counted calls. -/
def callsOf (settings : Settings) (requests : List Request) (f : UInt16) : Nat :=
  if settings.jitMode = .off then 0 else requests.count (.call f)

/-- The record of a function after some requests. -/
def record (image : Image) (settings : Settings) (requests : List Request) (f : UInt16) :
    FunctionRecord :=
  let counted : FunctionRecord := { calls := callsOf settings requests f }
  if Due settings requests f then counted.settle image f { inline := settings.jitInline }
  else counted

variable {requests : List Request} {f : UInt16}

theorem due_append_compile : Due settings (requests ++ [.compile f]) f := .inl (by simp)

/-- A further call makes a difference only when it is the first one, or the one that was missing. -/
theorem due_append_call : Due settings (requests ++ [.call f]) f ↔
    Due settings requests f ∨ settings.jitMode = .always ∨
      settings.jitMode = .on ∧ settings.jitThreshold ≤ requests.count (.call f) + 1 := by
  simp only [Due, List.mem_append, List.mem_singleton, List.count_append, List.count_singleton_self,
    reduceCtorEq, or_false, or_true, and_true]
  constructor
  · rintro (h | h | ⟨hon, h⟩)
    · exact .inl (.inl h)
    · exact .inr (.inl h)
    · exact .inr (.inr ⟨hon, by omega⟩)
  · rintro ((h | ⟨h, -⟩ | ⟨hon, h⟩) | h | ⟨hon, h⟩)
    · exact .inl h
    · exact .inr (.inl h)
    · exact .inr (.inr ⟨hon, by omega⟩)
    · exact .inr (.inl h)
    · exact .inr (.inr ⟨hon, by omega⟩)

/-- Requests to other functions make no difference. -/
theorem record_append_of_ne {r : Request} (h : r.function ≠ f) :
    record image settings (requests ++ [r]) f = record image settings requests f := by
  have hcall : r ≠ .call f := fun hr => h (hr ▸ rfl)
  have hcompile : r ≠ .compile f := fun hr => h (hr ▸ rfl)
  have hcount : (requests ++ [r]).count (.call f) = requests.count (.call f) := by
    simp [List.count_append, List.count_eq_zero.2, hcall.symm]
  have hdue : Due settings (requests ++ [r]) f ↔ Due settings requests f := by
    simp [Due, hcount, hcall.symm, hcompile.symm]
  simp only [record, callsOf, hcount, hdue]

theorem calls_record : (record image settings requests f).calls = callsOf settings requests f := by
  rw [record]
  split_ifs
  · exact FunctionRecord.calls_settle
  · rfl

/-- A request brings the record of its function forward. -/
theorem effect_record (count : Nat) (r : Request) :
    r.effect image (fresh settings count) (record image settings requests r.function) =
      record image settings (requests ++ [r]) r.function := by
  cases r with
  | compile f =>
    have hcalls : callsOf settings (requests ++ [.compile f]) f = callsOf settings requests f := by
      simp [callsOf, List.count_append, List.count_eq_zero.2]
    change (record image settings requests f).settle image f { inline := settings.jitInline } = _
    rw [Request.function, record, record, hcalls, if_pos due_append_compile]
    split_ifs
    · exact FunctionRecord.settle_settle
    · rfl
  | call f =>
    change (if settings.jitMode = .off then record image settings requests f
      else if settings.jitMode = .on ∧ (record image settings requests f).calls + 1
          < settings.jitThreshold then (record image settings requests f).counted
      else (record image settings requests f).counted.settle image f
        { inline := settings.jitInline }) = record image settings (requests ++ [.call f]) f
    rw [calls_record]
    by_cases hoff : settings.jitMode = .off
    · have hdue : Due settings (requests ++ [.call f]) f ↔ Due settings requests f := by
        simp [due_append_call, hoff]
      rw [if_pos hoff]
      simp only [record, hdue, callsOf, if_pos hoff]
    · have hcalls : callsOf settings requests f = requests.count (.call f) := if_neg hoff
      have hcounted : ({ calls := callsOf settings (requests ++ [.call f]) f } : FunctionRecord) =
          FunctionRecord.counted { calls := callsOf settings requests f } := by
        simp [callsOf, hoff, FunctionRecord.counted, List.count_append]
      rw [if_neg hoff, hcalls]
      by_cases hdue : Due settings requests f
      · -- the standing is final
        have hdue' := due_append_call.2 (.inl hdue)
        simp only [record, if_pos hdue, if_pos hdue', hcounted, FunctionRecord.counted_settle,
          FunctionRecord.settle_settle, ite_self]
      · simp only [record, due_append_call, hcounted, hdue, false_or]
        cases hmode : settings.jitMode with
        | off => exact absurd hmode hoff
        | on =>
          by_cases hlow : requests.count (.call f) + 1 < settings.jitThreshold
          · simp [hlow, Nat.not_le.2 hlow]
          · simp [hlow, Nat.not_lt.1 hlow]
        | always => simp

/-- The table after some requests. Functions are named by sixteen bits, so records beyond that many
    are never touched. -/
def tableOf (image : Image) (settings : Settings) (count : Nat) (requests : List Request) :
    FunctionTable :=
  ⟨Array.ofFn fun i : Fin count =>
    if i.val < 65536 then record image settings requests (UInt16.ofNat i) else {}⟩

theorem get?_tableOf (f : UInt16) : (tableOf image settings count requests).get? f =
    if f.toNat < count then some (record image settings requests f) else none := by
  have hf : f.toNat < 65536 := f.toNat_lt
  rw [tableOf, FunctionTable.get?, Array.getElem?_ofFn]
  split_ifs <;> simp

theorem modify_tableOf (r : Request) :
    (tableOf image settings count requests).modify r.function
        (r.effect image (fresh settings count))
      = tableOf image settings count (requests ++ [r]) := by
  apply congrArg FunctionTable.mk
  apply Array.ext_getElem?
  intro i
  simp only [tableOf, Array.getElem?_modify, Array.getElem?_ofFn]
  by_cases hcount : i < count
  · by_cases hi : r.function.toNat = i
    · subst hi
      simp [hcount, r.function.toNat_lt, effect_record]
    · by_cases hnamed : i < 65536
      · have hne : r.function ≠ UInt16.ofNat i := by
          intro heq
          rw [heq, UInt16.toNat_ofNat', Nat.mod_eq_of_lt hnamed] at hi
          exact hi rfl
        simp [hcount, hi, record_append_of_ne hne]
      · simp [hcount, hi, hnamed]
  · simp [hcount]

/-- Requests change the table and nothing else. -/
theorem after_eq (requests : List Request) : (fresh settings count).after image requests =
    { fresh settings count with table := tableOf image settings count requests } := by
  induction requests using List.reverseRecOn with
  | nil =>
    have hnone (f : UInt16) : record image settings [] f = {} := by
      simp [record, callsOf, Due]
    have htable : tableOf image settings count [] = .pending count := by
      apply congrArg FunctionTable.mk
      apply Array.ext_getElem?
      intro i
      simp [hnone, Array.getElem?_replicate, Array.getElem?_ofFn]
    rw [htable]
    rfl
  | append_singleton requests r ih =>
    rw [after_append, ih, after, List.foldl_cons, List.foldl_nil, (r.perform_eq _).2]
    exact congrArg (fun t => { fresh settings count with table := t }) (modify_tableOf r)

theorem record_perm {requests' : List Request} (h : requests.Perm requests') (f : UInt16) :
    record image settings requests f = record image settings requests' f := by
  have hdue : Due settings requests f ↔ Due settings requests' f := by
    simp only [Due, h.mem_iff, h.count_eq]
  simp only [record, callsOf, hdue, h.count_eq]

/-- Compiled code is there when the record says so. -/
theorem isSome_routine? (t : FunctionTable) (f : UInt16) :
    (t.routine? f).isSome = (t.get? f).any FunctionRecord.isCompiled := by
  rw [FunctionTable.routine?]
  cases t.get? f with
  | none => rfl
  | some r =>
    rw [Option.any_some, FunctionRecord.isCompiled]
    dsimp only
    rw [FunctionRecord.routine?]
    cases r.standing <;> rfl

/-- A request answers whether its function is compiled after it. -/
theorem answer_eq (image : Image) (settings : Settings) (count : Nat) (requests : List Request)
    (r : Request) :
    (r.perform image ((fresh settings count).after image requests)).1 =
      (decide (settings.jitMode ≠ .off ∨ r = .compile r.function) &&
        (((fresh settings count).after image (requests ++ [r])).table.routine? r.function).isSome)
    := by
  rw [after_eq, after_eq, (r.perform_eq _).1, isSome_routine?, get?_tableOf, get?_tableOf]
  change (decide (settings.jitMode ≠ .off ∨ _) && _) = _
  congr 1
  split_ifs with hf
  · rw [Option.any_some, Option.any_some, ← effect_record count]
    rfl
  · rfl

/-- What the record of a function says after some requests. -/
structure Accounted (image : Image) (settings : Settings) (requests : List Request) (f : UInt16)
    (r : FunctionRecord) : Prop where
  pending : r.standing = .pending ↔ ¬ Due settings requests f
  compiled : ∀ program, compile image f { inline := settings.jitInline } = .ok program →
    Due settings requests f → r.standing = .compiled program.prepare
  failed : ∀ e, compile image f { inline := settings.jitInline } = .error e →
    Due settings requests f → r.standing = .failed e.message
  compiles : r.compiles = if r.isCompiled then 1 else 0
  calls : r.calls = if settings.jitMode = .off then 0 else requests.count (.call f)

theorem accounted_record (image : Image) (settings : Settings) (requests : List Request)
    (f : UInt16) : Accounted image settings requests f (record image settings requests f) where
  calls := calls_record
  pending := by
    rw [record]
    split_ifs with hdue
    · simp [hdue, FunctionRecord.standing_settle_ne_pending]
    · simp [hdue]
  compiled program hprogram hdue := by simp [record, hdue, FunctionRecord.settle, hprogram]
  failed e he hdue := by simp [record, hdue, FunctionRecord.settle, he]
  compiles := by
    by_cases hdue : Due settings requests f
    · rw [record, if_pos hdue]
      cases hc : compile image f { inline := settings.jitInline } <;>
        simp [FunctionRecord.settle, hc, FunctionRecord.isCompiled]
    · rw [record, if_neg hdue]
      rfl

theorem Due.append (h : Due settings requests f) (more : List Request) :
    Due settings (requests ++ more) f := by
  rcases h with h | ⟨hmode, h⟩ | ⟨hmode, h⟩
  · exact .inl (List.mem_append_left _ h)
  · exact .inr (.inl ⟨hmode, List.mem_append_left _ h⟩)
  · exact .inr (.inr ⟨hmode, h.trans (by rw [List.count_append]; omega)⟩)

/-- What becomes of a function is final. -/
theorem standing_append (more : List Request) (h : Due settings requests f) :
    (record image settings (requests ++ more) f).standing =
      (record image settings requests f).standing := by
  have hnow := accounted_record image settings requests f
  have hlater := accounted_record image settings (requests ++ more) f
  cases hc : compile image f { inline := settings.jitInline } with
  | ok program => rw [hnow.compiled program hc h, hlater.compiled program hc (h.append more)]
  | error e => rw [hnow.failed e hc h, hlater.failed e hc (h.append more)]

/-- Promotion depends on counts only. After any requests to a new table of any size, the record of
    each function in it says what `Accounted` lists, and what becomes of the function is final;
    every request answers whether its function is compiled after it, only that a call is answered
    with no where nothing is compiled; requests to functions outside the table change nothing; and
    the same requests in another order lead to the same table. -/
theorem settled_by_counts (image : Image) (settings : Settings) (count : Nat)
    (requests : List Request) :
    (∀ f, f.toNat < count → ∃ r,
      ((fresh settings count).after image requests).table.get? f = some r ∧
      Accounted image settings requests f r ∧
      ∀ more r', ((fresh settings count).after image (requests ++ more)).table.get? f = some r' →
        r.standing ≠ .pending → r'.standing = r.standing) ∧
    (∀ f, (((fresh settings count).after image requests).ensureCompiled image f).1 =
      (((fresh settings count).after image (requests ++ [.compile f])).table.routine? f).isSome) ∧
    (∀ f, (((fresh settings count).after image requests).onCall image f).1 =
      if settings.jitMode = .off then false
      else (((fresh settings count).after image (requests ++ [.call f])).table.routine? f).isSome) ∧
    (∀ r : Request, count ≤ r.function.toNat →
      r.perform image ((fresh settings count).after image requests) =
        (false, [], (fresh settings count).after image requests)) ∧
    ∀ requests', requests.Perm requests' →
      ((fresh settings count).after image requests).table =
        ((fresh settings count).after image requests').table := by
  refine ⟨fun f hf => ?_, fun f => ?_, fun f => ?_, fun r hr => ?_, fun requests' hperm => ?_⟩
  · refine ⟨record image settings requests f, ?_, accounted_record .., fun more r' hr' hfinal => ?_⟩
    · rw [after_eq, get?_tableOf, if_pos hf]
    · rw [after_eq, get?_tableOf, if_pos hf, Option.some.injEq] at hr'
      have hdue : Due settings requests f := by
        by_contra hdue
        exact hfinal ((accounted_record image settings requests f).pending.2 hdue)
      rw [← hr', standing_append more hdue]
  · simpa [Request.perform, Request.function] using
      answer_eq image settings count requests (.compile f)
  · have hanswer := answer_eq image settings count requests (.call f)
    by_cases hmode : settings.jitMode = .off
    · simpa [Request.perform, Request.function, hmode] using hanswer
    · simpa [Request.perform, Request.function, hmode] using hanswer
  · refine Request.perform_of_get? ?_
    rw [after_eq, get?_tableOf, if_neg (Nat.not_lt.2 hr)]
  · simp only [after_eq, tableOf, record_perm hperm]

end Promotion

end StackMachine
