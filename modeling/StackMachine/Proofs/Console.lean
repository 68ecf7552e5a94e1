import Mathlib
import StackMachine.Console
import StackMachine.Proofs.Paired

/-!
# Streams that answer alike

Two consoles with different pasts give a program the same answers from now on if the same bytes are
left to be read, the same requests for a line fail, and the output devices reply alike to every
sequence of requests. A program that uses such consoles in the same way finds them so again
afterwards.

* `Input.readLine_eq`: which line is read, and how far, depends on the bytes that are left and on
  the next request only.
* `InStep`: what two programs did with their consoles since a certain moment is the same, and their
  consoles answer alike. `respects_printInt`, `respects_flush` and `respects_readInt` say that the
  actions of a program keep this.
-/

namespace StackMachine

/-! ## Input -/

namespace Input

/-- The bytes that have not been read. -/
def rest (input : Input) : List UInt8 := input.bytes.data.toList.drop input.position

/-- What becomes of the requests that are still to come. -/
def refusals (input : Input) (n : Nat) : Option Refusal := input.refuses (input.requests + n)

/-- The input after more requests, which took `count` bytes. -/
def skip (input : Input) (requests count : Nat) : Input :=
  { input with
    position := input.position + count
    requests := input.requests + requests }

/-- The input answers as the other one does: the same bytes are left, and the same ones of the
    requests to come fail. -/
structure BehavesAs (input input' : Input) : Prop where
  rest : input.rest = input'.rest
  refusals : input.refusals = input'.refusals

/-- The length of the first line, with its newline. -/
def lineLength : List UInt8 → Nat
  | [] => 0
  | byte :: bytes => if byte = 10 then 1 else lineLength bytes + 1

theorem rest_skip (input : Input) (requests count : Nat) :
    (input.skip requests count).rest = input.rest.drop count := by
  rw [rest, rest, skip, List.drop_drop]

theorem refusals_skip (input : Input) (requests count : Nat) :
    (input.skip requests count).refusals = fun n => input.refusals (requests + n) := by
  funext n
  rw [refusals, refusals, skip, Nat.add_assoc]

theorem BehavesAs.skip {input input' : Input} (h : input.BehavesAs input')
    (requests count : Nat) :
    (input.skip requests count).BehavesAs (input'.skip requests count) where
  rest := by rw [rest_skip, rest_skip, h.rest]
  refusals := by rw [refusals_skip, refusals_skip, h.refusals]

theorem skip_skip (input : Input) (requests requests' count count' : Nat) :
    (input.skip requests count).skip requests' count' =
      input.skip (requests + requests') (count + count') := by
  simp only [Input.skip, Nat.add_assoc]

theorem rest_eq_nil_iff {input : Input} : input.rest = [] ↔ input.bytes.size ≤ input.position :=
  List.drop_eq_nil_iff

theorem lineEnd_eq {bytes : ByteArray} {i : Nat} (hi : i ≤ bytes.size) :
    lineEnd bytes i = i + lineLength (bytes.data.toList.drop i) := by
  fun_induction lineEnd bytes i with
  | case1 i hlt hnewline =>
    have hdrop : bytes.data.toList.drop i = bytes[i] :: _ := List.drop_eq_getElem_cons hlt
    rw [hdrop, lineLength, if_pos hnewline]
  | case2 i hlt hnewline ih =>
    have hdrop : bytes.data.toList.drop i = bytes[i] :: _ := List.drop_eq_getElem_cons hlt
    rw [hdrop, lineLength, if_neg hnewline, ih hlt]
    omega
  | case3 i hend =>
    have hnil : bytes.data.toList.drop i = [] := List.drop_eq_nil_iff.2 (Nat.le_of_not_lt hend)
    rw [hnil, lineLength]
    omega

/-- A line is as long as the bytes that are left say. -/
theorem lineEnd_sub (input : Input) :
    lineEnd input.bytes input.position - input.position = lineLength input.rest := by
  by_cases hle : input.position ≤ input.bytes.size
  · rw [lineEnd_eq hle, Nat.add_sub_cancel_left]
    rfl
  · rw [lineEnd, dif_neg (by omega), rest_eq_nil_iff.2 (by omega), lineLength]
    omega

/-- A line is read off the bytes that are left. -/
theorem readLine_eq (input : Input) :
    readLine input =
      match input.refusals 0 with
      | some refusal =>
        .error (.io refusal.reason) (input.skip 1 (min refusal.taken (lineLength input.rest)))
      | none =>
        if input.rest = [] then .ok none (input.skip 1 0)
        else .ok (some ⟨(input.rest.take (lineLength input.rest)).toArray⟩)
          (input.skip 1 (lineLength input.rest)) := by
  unfold readLine
  dsimp only
  rw [refusals, Nat.add_zero]
  cases input.refuses input.requests with
  | some refusal =>
    dsimp only
    rw [lineEnd_sub]
    rfl
  | none =>
    dsimp only
    by_cases hlt : input.position < input.bytes.size
    · have hne : input.rest ≠ [] := fun hnil => Nat.not_le.2 hlt (rest_eq_nil_iff.1 hnil)
      have hend : lineEnd input.bytes input.position = input.position + lineLength input.rest :=
        lineEnd_eq hlt.le
      have hline : input.bytes.extract input.position (input.position + lineLength input.rest) =
          ⟨(input.rest.take (lineLength input.rest)).toArray⟩ := by
        apply ByteArray.ext
        apply Array.toList_inj.1
        rw [ByteArray.data_extract, Array.toList_extract, List.extract_eq_take_drop,
          Nat.add_sub_cancel_left]
        rfl
      rw [if_pos hlt, if_neg hne, hend, hline]
      rfl
    · rw [if_neg hlt, if_pos (rest_eq_nil_iff.2 (Nat.le_of_not_lt hlt))]
      rfl

/-- Inputs that answer alike give the same line, or fail alike, and as many bytes are taken. -/
theorem BehavesAs.readLine {input input' : Input} (h : input.BehavesAs input') :
    ∃ count, Paired
      (fun a b i i' => a = b ∧ i = input.skip 1 count ∧ i' = input'.skip 1 count)
      (fun i i' => i = input.skip 1 count ∧ i' = input'.skip 1 count)
      (Input.readLine input) (Input.readLine input') := by
  rw [readLine_eq, readLine_eq, h.rest, h.refusals]
  cases input'.refusals 0 with
  | some refusal => exact ⟨_, rfl, rfl, rfl⟩
  | none =>
    dsimp only
    by_cases hend : input'.rest = []
    · rw [if_pos hend, if_pos hend]
      exact ⟨_, rfl, rfl, rfl⟩
    · rw [if_neg hend, if_neg hend]
      exact ⟨_, rfl, rfl, rfl⟩

end Input

/-! ## Output -/

namespace Output

/-- What the device does with a request: the bytes that it takes, and why it refuses if it does. -/
def reply (o : Output) : Request → ByteArray × Option String
  | .write bytes =>
    match o.device.write o.past bytes with
    | none => (bytes, none)
    | some ⟨taken, reason⟩ => (bytes.extract 0 taken, some reason)
  | .flush => (.empty, o.device.flush o.past)

/-- The output after a request. -/
def ask (o : Output) (r : Request) : Output :=
  ⟨o.device, ⟨o.past.written ++ (o.reply r).1, r :: o.past.requests⟩⟩

/-- The output after several requests. -/
def after (o : Output) (requests : List Request) : Output := requests.foldl ask o

/-- The device replies as the other one does, to any request after any others. -/
def BehavesAs (o o' : Output) : Prop :=
  ∀ requests r, (o.after requests).reply r = (o'.after requests).reply r

theorem after_concat (o : Output) (requests : List Request) (r : Request) :
    o.after (requests ++ [r]) = (o.after requests).ask r := by
  rw [after, List.foldl_concat, after]

namespace BehavesAs

variable {o o' : Output}

theorem refl (o : Output) : o.BehavesAs o := fun _ _ => rfl

theorem reply_eq (h : o.BehavesAs o') (r : Request) : o.reply r = o'.reply r := h [] r

theorem ask (h : o.BehavesAs o') (r : Request) : (o.ask r).BehavesAs (o'.ask r) :=
  fun requests => h (r :: requests)

end BehavesAs

end Output

/-! ## Consoles -/

namespace Console

/-- The console answers as the other one does: both streams reply alike. -/
structure BehavesAs (c c' : Console) : Prop where
  input : c.input.BehavesAs c'.input
  output : c.output.BehavesAs c'.output

/-- Between `c` and `d` the streams were used as between `c'` and `d'`: the same requests were made
    of the devices, which took the same bytes, and as many lines were asked for and as many bytes
    read. -/
structure SameUse (c d c' d' : Console) : Prop where
  asked : ∃ requests, d.output = c.output.after requests ∧ d'.output = c'.output.after requests
  written : ∃ bytes, d.output.past.written = c.output.past.written ++ bytes ∧
    d'.output.past.written = c'.output.past.written ++ bytes
  read : ∃ requests count, d.input = c.input.skip requests count ∧
    d'.input = c'.input.skip requests count

/-- Since they were `c` and `c'`, the consoles have been used in the same way, and they still answer
    alike. -/
structure InStep (c c' d d' : Console) : Prop where
  behaves : d.BehavesAs d'
  use : SameUse c d c' d'

variable {c c' d d' : Console}

theorem InStep.refl (h : c.BehavesAs c') : InStep c c' c c' where
  behaves := h
  use := {
    asked := ⟨[], rfl, rfl⟩
    written := ⟨.empty, by simp, by simp⟩
    read := ⟨0, 0, rfl, rfl⟩ }

/-- Both devices take the same bytes, since they reply alike. -/
theorem InStep.ask (h : InStep c c' d d') (r : Request) :
    InStep c c' { d with output := d.output.ask r } { d' with output := d'.output.ask r } := by
  obtain ⟨requests, hasked, hasked'⟩ := h.use.asked
  obtain ⟨bytes, hwritten, hwritten'⟩ := h.use.written
  have hreply := h.behaves.output.reply_eq r
  refine ⟨⟨h.behaves.input, h.behaves.output.ask r⟩, ?_, ?_, h.use.read⟩
  · refine ⟨requests ++ [r], ?_, ?_⟩
    · show d.output.ask r = c.output.after (requests ++ [r])
      rw [Output.after_concat, hasked]
    · show d'.output.ask r = c'.output.after (requests ++ [r])
      rw [Output.after_concat, hasked']
  · refine ⟨bytes ++ (d'.output.reply r).1, ?_, ?_⟩
    · show d.output.past.written ++ (d.output.reply r).1 = _
      rw [hwritten, hreply, ByteArray.append_assoc]
    · show d'.output.past.written ++ (d'.output.reply r).1 = _
      rw [hwritten', ByteArray.append_assoc]

theorem InStep.skip (h : InStep c c' d d') (requests count : Nat) :
    InStep c c' { d with input := d.input.skip requests count }
      { d' with input := d'.input.skip requests count } := by
  obtain ⟨k, n, hread, hread'⟩ := h.use.read
  refine ⟨⟨h.behaves.input.skip requests count, h.behaves.output⟩, h.use.asked, h.use.written,
    k + requests, n + count, ?_, ?_⟩
  · show d.input.skip requests count = c.input.skip (k + requests) (n + count)
    rw [hread, Input.skip_skip]
  · show d'.input.skip requests count = c'.input.skip (k + requests) (n + count)
    rw [hread', Input.skip_skip]

/-! ## Actions -/

/-- Makes a request of the device. -/
def request (r : Request) : EStateM Fault Console Unit := fun c =>
  match (c.output.reply r).2 with
  | none => .ok () { c with output := c.output.ask r }
  | some reason => .error (.io reason) { c with output := c.output.ask r }

theorem printInt_eq (n : Int64) :
    printInt n = request (.write (Decimal.ofInt n.toInt ++ "\n").toUTF8) := by
  funext c
  simp only [printInt, request, Output.write, Output.reply, Output.ask]
  cases c.output.device.write c.output.past (Decimal.ofInt n.toInt ++ "\n").toUTF8 with
  | none => rfl
  | some refusal => rfl

theorem flush_eq : flush = request .flush := by
  funext c
  simp only [flush, request, Output.flush, Output.reply, Output.ask, ByteArray.append_empty]
  cases c.output.device.flush c.output.past with
  | none => rfl
  | some reason => rfl

theorem respects_request (r : Request) : Respects (InStep c c') (request r) := by
  intro d d' h
  rw [request, request, h.behaves.output.reply_eq r]
  cases (d'.output.reply r).2 with
  | none => exact ⟨rfl, h.ask r⟩
  | some reason => exact ⟨rfl, h.ask r⟩

theorem respects_printInt (n : Int64) : Respects (InStep c c') (printInt n) := by
  rw [printInt_eq]
  exact respects_request _

theorem respects_flush : Respects (InStep c c') flush := by
  rw [flush_eq]
  exact respects_request _

theorem respects_readInt : Respects (InStep c c') readInt := by
  intro d d' h
  rw [readInt, readInt]
  obtain ⟨_, _, d, d', hd, hd', -, h⟩ | ⟨e, d, d', hd, hd', h⟩ := (respects_flush h).cases
  · rw [hd, hd']
    dsimp only
    obtain ⟨count, hread⟩ := h.behaves.input.readLine
    obtain ⟨line, _, i, i', hi, hi', rfl, rfl, rfl⟩ | ⟨e, i, i', hi, hi', rfl, rfl⟩ := hread.cases
    · rw [hi, hi']
      cases line with
      | none => exact ⟨rfl, h.skip 1 count⟩
      | some line =>
        dsimp only
        cases lineInt line with
        | ok n => exact ⟨rfl, h.skip 1 count⟩
        | error e => exact ⟨rfl, h.skip 1 count⟩
    · rw [hi, hi']
      exact ⟨rfl, h.skip 1 count⟩
  · rw [hd, hd']
    exact ⟨rfl, h⟩

end Console

end StackMachine
