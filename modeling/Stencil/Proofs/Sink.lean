import Stencil.Proofs.Text.Bytes
import Stencil.Sink

/-!
All sinks carry the same bytes. A device that becomes full has taken the first bytes of what was
written, however the writes and the offers divide these bytes, and it is asked nothing after its
first failure.
-/

namespace Stencil

theorem DeviceRequest.received_concat (requests : List DeviceRequest) (last : DeviceRequest) :
    received (requests ++ [last]) = received requests ++ last.taken := by
  simp only [received, List.flatMap_append, List.flatMap_singleton]

namespace Device

open DeviceRequest (received received_concat)

def Fits (d : Device) (count : Nat) : Prop := ∀ limit ∈ d.limit, count ≤ limit

def refusal (d : Device) : DeviceError := if d.refusesWithError then .brokenPipe else .writeZero

/-- What has come of sending bytes to a device: it has taken them all, or it has taken what fits and
then refused, and was asked nothing after that. -/
inductive Carries (d : Device) (sent : List UInt8) : DeviceState → Prop
  | whole {requests} : (∀ request ∈ requests, request.failure? = none) →
      received requests = sent → d.Fits sent.length → Carries d sent ⟨requests, none⟩
  | part {requests last limit} : (∀ request ∈ requests, request.failure? = none) →
      received requests = sent.take limit → d.limit = some limit → limit < sent.length →
      last.failure? = some d.refusal → last.taken = [] →
      Carries d sent ⟨requests ++ [last], some d.refusal⟩

variable {d : Device} {sent more : List UInt8} {requests : List DeviceRequest} {s : DeviceState}

/-- The answer to an offer: the device takes a first part of it, or it is full and refuses. -/
theorem accept_cases {offered : Nat} (portions : ∀ requests, 0 < d.portion requests)
    (content : 0 < offered) (fits : d.Fits (received requests).length) :
    (∃ n, d.accept requests offered = .ok (n + 1) ∧ n + 1 ≤ offered ∧
      d.Fits ((received requests).length + (n + 1))) ∨
    d.limit = some (received requests).length ∧
      d.accept requests offered = if d.refusesWithError then .error .brokenPipe else .ok 0 := by
  have portion := portions requests
  unfold accept
  generalize (received requests).length = taken at fits ⊢
  cases limited : d.limit with
  | none =>
      refine .inl ⟨min offered (d.portion requests) - 1, ?_, by omega, ?_⟩
      · simp only [Option.map_none, reduceCtorEq, if_false, Option.getD_none, Except.ok.injEq]
        omega
      · intro limit isLimit
        cases limited.symm.trans isLimit
  | some limit =>
      have inside := fits limit limited
      by_cases full : limit = taken
      · rw [full, Option.map_some, Nat.sub_self, if_pos rfl]
        exact .inr ⟨rfl, rfl⟩
      · have room : limit - taken ≠ 0 := by omega
        refine .inl ⟨min (min offered (d.portion requests)) (limit - taken) - 1, ?_, by omega, ?_⟩
        · simp only [Option.map_some, Option.some.injEq, room, if_false, Option.getD_some,
            Except.ok.injEq]
          omega
        · intro other isLimit
          cases limited.symm.trans isLimit
          omega

theorem writeAll_nil : d.writeAll requests [] = ⟨requests, none⟩ := by
  rw [writeAll, if_pos List.isEmpty_nil]

theorem writeAll_of_accepted {bytes : List UInt8} {n : Nat} (content : bytes ≠ [])
    (accepted : d.accept requests bytes.length = .ok (n + 1)) :
    d.writeAll requests bytes =
      d.writeAll (requests ++ [.write bytes (.ok (n + 1))]) (bytes.drop (n + 1)) := by
  rw [writeAll, if_neg (mt List.isEmpty_iff.mp content), accepted]

theorem writeAll_of_refused {bytes : List UInt8} (content : bytes ≠ [])
    (refused : d.accept requests bytes.length =
      if d.refusesWithError then .error .brokenPipe else .ok 0) :
    ∃ last, d.writeAll requests bytes = ⟨requests ++ [last], some d.refusal⟩ ∧
      last.failure? = some d.refusal ∧ last.taken = [] := by
  refine ⟨.write bytes (d.accept requests bytes.length), ?_⟩
  rw [writeAll, if_neg (mt List.isEmpty_iff.mp content), refused, refusal]
  cases d.refusesWithError with
  | true => exact ⟨rfl, rfl, rfl⟩
  | false => exact ⟨rfl, rfl, rfl⟩

theorem Carries.whole_iff : d.Carries sent ⟨requests, none⟩ ↔
    (∀ request ∈ requests, request.failure? = none) ∧ received requests = sent ∧
      d.Fits sent.length := by
  constructor
  · rintro (⟨clean, got, fits⟩ | _)
    exact ⟨clean, got, fits⟩
  · rintro ⟨clean, got, fits⟩
    exact .whole clean got fits

/-- Offering bytes until they are taken is to send them. -/
theorem Carries.writeAll {sent bytes : List UInt8} {requests : List DeviceRequest}
    (portions : ∀ requests, 0 < d.portion requests) (h : d.Carries sent ⟨requests, none⟩) :
    d.Carries (sent ++ bytes) (d.writeAll requests bytes) := by
  by_cases content : bytes = []
  · rw [content, writeAll_nil, List.append_nil]
    exact h
  · have positive := List.length_pos_iff.mpr content
    obtain ⟨clean, got, fits⟩ := Carries.whole_iff.mp h
    rw [← got] at fits ⊢
    rcases accept_cases portions positive fits with ⟨n, accepted, within, room⟩ | ⟨full, refused⟩
    · have next : d.Carries (received requests ++ bytes.take (n + 1))
          ⟨requests ++ [.write bytes (.ok (n + 1))], none⟩ := by
        refine .whole ?_ (received_concat _ _) ?_
        · rw [List.forall_mem_append, List.forall_mem_singleton]
          exact ⟨clean, rfl⟩
        · rw [List.length_append, List.length_take, Nat.min_eq_left within]
          exact room
      have shorter : (bytes.drop (n + 1)).length < bytes.length := by
        rw [List.length_drop]
        omega
      have rest : d.Carries _ (d.writeAll _ (bytes.drop (n + 1))) := Carries.writeAll portions next
      rw [List.append_assoc, List.take_append_drop] at rest
      rw [writeAll_of_accepted content accepted]
      exact rest
    · obtain ⟨last, stopped, failed, nothing⟩ := writeAll_of_refused content refused
      rw [stopped]
      refine .part clean List.take_left.symm full ?_ failed nothing
      rw [List.length_append]
      omega
termination_by bytes.length

/-- What is sent after a refusal does not reach the device. -/
theorem Carries.goOn {next : List DeviceRequest → DeviceState} (h : d.Carries sent s)
    (step : ∀ requests, d.Carries sent ⟨requests, none⟩ →
      d.Carries (sent ++ more) (next requests)) :
    d.Carries (sent ++ more) (s.goOn next) := by
  cases h with
  | whole clean received fits => exact step _ (.whole clean received fits)
  | part clean received limited beyond failed nothing =>
      refine .part clean ?_ limited ?_ failed nothing
      · rw [received, List.take_append_of_le_length (Nat.le_of_lt beyond)]
      · rw [List.length_append]
        omega

theorem Carries.writePieces {pieces : List Text} (portions : ∀ requests, 0 < d.portion requests)
    (h : d.Carries sent ⟨requests, none⟩) :
    d.Carries (sent ++ Text.encode pieces.flatten) (d.writePieces requests pieces) := by
  induction pieces generalizing sent requests with
  | nil =>
      rw [List.flatten_nil, show Text.encode [] = [] from rfl, List.append_nil]
      exact h
  | cons piece rest ih =>
      rw [List.flatten_cons, Text.encode_append, ← List.append_assoc]
      exact (h.writeAll portions).goOn fun requests reached => ih reached

theorem Carries.apply (portions : ∀ requests, 0 < d.portion requests) (h : d.Carries sent s)
    (w : Write) : d.Carries (sent ++ Text.encode w.display) ((Sink.stream d).apply w s) := by
  cases w with
  | text t => exact h.goOn fun requests reached => reached.writeAll portions
  | value v => exact h.goOn fun requests reached => reached.writePieces portions

theorem Carries.run (portions : ∀ requests, 0 < d.portion requests) (h : d.Carries sent s)
    (writes : List Write) :
    d.Carries (sent ++ Text.encode (writes.flatMap Write.display))
      ((Sink.stream d).run writes s) := by
  induction writes generalizing sent s with
  | nil =>
      rw [List.flatMap_nil, show Text.encode [] = [] from rfl, List.append_nil]
      exact h
  | cons w writes ih =>
      rw [List.flatMap_cons, Text.encode_append, ← List.append_assoc]
      exact ih (h.apply portions w)

theorem carries_nil (d : Device) : d.Carries [] {} :=
  .whole (List.forall_mem_nil _) rfl fun _ _ => Nat.zero_le _

theorem Carries.taken_eq (h : d.Carries sent s) :
    s.taken = sent.take (min (d.limit.getD sent.length) sent.length) := by
  cases h with
  | whole _ got fits =>
      have enough : min (d.limit.getD sent.length) sent.length = sent.length := by
        cases limited : d.limit with
        | none => exact Nat.min_self _
        | some limit => exact Nat.min_eq_right (fits limit limited)
      rw [enough, List.take_length]
      exact got
  | part _ got limited beyond _ nothing =>
      rw [DeviceState.taken, received_concat, got, nothing, List.append_nil, limited,
        Option.getD_some, Nat.min_eq_left (Nat.le_of_lt beyond)]

theorem Carries.taken_close (h : d.Carries sent s) : (d.close s).taken = s.taken := by
  cases h with
  | whole => exact (received_concat _ _).trans (List.append_nil _)
  | part => rfl

theorem Carries.finish_of_fits (h : d.Carries sent s) (fits : d.Fits sent.length) :
    d.finish s = if d.flushFails then some .flushFailed else none := by
  cases h with
  | whole => rfl
  | part _ _ limited beyond => exact absurd (fits _ limited) (Nat.not_le_of_lt beyond)

theorem Carries.finish_of_not_fits (h : d.Carries sent s) (beyond : ¬ d.Fits sent.length) :
    d.finish s = some d.refusal := by
  cases h with
  | whole _ _ fits => exact absurd fits beyond
  | part => rfl

theorem Carries.finish_eq_none_iff (h : d.Carries sent s) :
    d.finish s = none ↔ d.Fits sent.length ∧ d.flushFails = false := by
  by_cases fits : d.Fits sent.length
  · rw [h.finish_of_fits fits]
    cases d.flushFails <;> simp [fits]
  · simp [h.finish_of_not_fits fits, fits]

/-- A stream that is ended has a last request. No request before that failed, and its own failure is
what is reported. -/
theorem Carries.exists_last (h : d.Carries sent s) : ∃ requests last,
    (∀ request ∈ requests, request.failure? = none) ∧
      d.close s = ⟨requests ++ [last], last.failure?⟩ := by
  cases h with
  | @whole requests clean _ _ => exact ⟨requests, .flush _, clean, rfl⟩
  | @part requests last limit clean _ _ _ failed _ =>
      refine ⟨requests, last, clean, ?_⟩
      rw [failed]
      rfl

theorem Carries.findSome?_close (h : d.Carries sent s) :
    (d.close s).requests.findSome? DeviceRequest.failure? = d.finish s := by
  obtain ⟨requests, last, clean, closed⟩ := h.exists_last
  rw [finish, closed, List.findSome?_append, List.findSome?_eq_none_iff.mpr clean, Option.none_or,
    List.findSome?_singleton]

theorem Carries.eq_nil_of_failure {before after : List DeviceRequest} {request : DeviceRequest}
    (h : d.Carries sent s) (place : (d.close s).requests = before ++ request :: after)
    (failed : request.failure? ≠ none) : after = [] := by
  obtain ⟨requests, last, clean, closed⟩ := h.exists_last
  rcases List.eq_nil_or_concat after with rfl | ⟨between, final, rfl⟩
  · rfl
  · rw [closed, List.concat_eq_append, ← List.cons_append, ← List.append_assoc] at place
    obtain ⟨rfl, -⟩ := List.append_inj' place rfl
    exact absurd (clean request (List.mem_append_right _ List.mem_cons_self)) failed

end Device

namespace Sink

/-- What a sink that appends has in the end. -/
theorem run_of_append {α : Type} {sink : Sink (List α)} {shown : Write → List α}
    (step : ∀ w s, sink.apply w s = s ++ shown w) (writes : List Write) (s : List α) :
    sink.run writes s = s ++ writes.flatMap shown := by
  induction writes generalizing s with
  | nil => rw [List.flatMap_nil, List.append_nil]; rfl
  | cons w writes ih =>
      rw [List.flatMap_cons, ← List.append_assoc, ← step]
      exact ih (sink.apply w s)

theorem foldl_append (pieces : List Text) (s : Text) :
    pieces.foldl (· ++ ·) s = s ++ pieces.flatten := by
  induction pieces generalizing s with
  | nil => rw [List.flatten_nil, List.append_nil]; rfl
  | cons piece rest ih => rw [List.foldl_cons, ih, List.flatten_cons, List.append_assoc]

theorem apply_buffer (w : Write) (s : Text) : buffer.apply w s = s ++ w.display := by
  cases w with
  | text t => rfl
  | value v => exact foldl_append v.pieces s

theorem apply_pieces (w : Write) (s : List Text) : pieces.apply w s = s ++ [w.display] := by
  cases w <;> rfl

/-- A sink that only takes text is given the pieces of the output. -/
theorem run_of_writeText {σ : Type} (writeText : Text → σ → σ) (writes : List Write) (s : σ) :
    ({ writeText } : Sink σ).run writes s =
      (pieces.run writes []).foldl (fun s t => writeText t s) s := by
  rw [run_of_append apply_pieces, List.nil_append, ← List.map_eq_flatMap, List.foldl_map, run]
  congr
  funext s w
  cases w <;> rfl

/-- All sinks carry the same bytes. A buffer has the texts that were written, one after another, and
a sink that only takes text is given pieces that make them up. A device that takes some bytes of
each offer until it is full has taken the first bytes, as many as fit. Ending the stream reports no
failure exactly if all bytes fit and the flush succeeds; otherwise it reports the first failure of a
request, which is the refusal of the full device or else that of the flush, and nothing was asked of
the device after that. -/
theorem carry_alike (writes : List Write) :
    let text := writes.flatMap Write.display
    let bytes := Text.encode text
    buffer.run writes [] = text ∧
    (pieces.run writes []).flatten = text ∧
    (∀ (σ : Type) (writeText : Text → σ → σ) (s : σ), ({ writeText } : Sink σ).run writes s =
      (pieces.run writes []).foldl (fun s t => writeText t s) s) ∧
    ∀ d : Device, (∀ requests, 0 < d.portion requests) →
      let s := (stream d).run writes {}
      s.taken = bytes.take (min (d.limit.getD bytes.length) bytes.length) ∧
      (d.close s).taken = s.taken ∧
      (d.finish s = none ↔ d.Fits bytes.length ∧ d.flushFails = false) ∧
      (¬ d.Fits bytes.length → d.finish s = some d.refusal) ∧
      (d.Fits bytes.length → d.flushFails = true → d.finish s = some .flushFailed) ∧
      (d.close s).requests.findSome? DeviceRequest.failure? = d.finish s ∧
      ∀ before request after, (d.close s).requests = before ++ request :: after →
        request.failure? ≠ none → after = [] := by
  intro text bytes
  refine ⟨run_of_append apply_buffer writes [], ?_, fun σ f s => run_of_writeText f writes s, ?_⟩
  · rw [run_of_append apply_pieces, List.nil_append, ← List.map_eq_flatMap, ← List.flatMap_def]
  · intro d portions s
    have carries : d.Carries bytes s := d.carries_nil.run portions writes
    refine ⟨carries.taken_eq, carries.taken_close, carries.finish_eq_none_iff,
      carries.finish_of_not_fits, ?_, carries.findSome?_close,
      fun before request after => carries.eq_nil_of_failure⟩
    intro fits fails
    rw [carries.finish_of_fits fits, if_pos fails]

/-- A device that is full after the sign of a number. -/
theorem carry_alike_fullDevice :
    let writes : List Write := [.text "é", .value (.int (-42))]
    let d : Device := ⟨some 3, fun _ => 2, false, true⟩
    let s := (stream d).run writes {}
    buffer.run writes [] = "é-42".toList ∧ (∀ requests, 0 < d.portion requests) ∧
    s.taken = [0xc3, 0xa9, 0x2d] ∧ d.finish s = some .writeZero ∧
    ∀ before request after, (d.close s).requests = before ++ request :: after →
      request.failure? ≠ none → after = [] := by
  intro writes d s
  have portions : ∀ requests, 0 < d.portion requests := fun _ => Nat.two_pos
  have size : (Text.encode (writes.flatMap Write.display)).length = 5 := by decide +kernel
  obtain ⟨text, -, -, carried⟩ := carry_alike writes
  obtain ⟨taken, -, -, beyond, -, -, silent⟩ := carried d portions
  refine ⟨text.trans (by decide +kernel), portions, taken.trans (by decide +kernel), beyond ?_,
    silent⟩
  intro fits
  have within := fits 3 rfl
  rw [size] at within
  exact absurd within (by decide)

end Sink

end Stencil
