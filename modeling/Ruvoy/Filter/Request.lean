import Ruvoy.Filter.Steps

/-!
# The request body reaches the fiber whole and in order

Envoy holds request bytes in two buffers, the queue takes what it has room for, and the end of the
body waits behind the bytes still held.

* `State.pending`: what Envoy still holds and the filter has not pushed. In the middle of a copy the
  bytes pushed so far are still in Envoy's buffer, and do not count;
* `Copying`: what the worker knows at each point of `forward_request_body`;
* `Held`: the invariant while the filter holds the request queue, kept by each step;
* **`request_body_whole`**: what holds after every callback.
-/

set_option autoImplicit false

namespace Ruvoy.Filter

open Runs

/-- The bytes of a frame of its own. -/
def Frame.bytes : Frame → Bytes
  | .own bytes => bytes
  | _ => []

/-- The worker is not in `forward_request_body`. -/
def Worker.calm : Worker → Bool
  | .forward _ => false
  | _ => true

/-- The bytes Envoy holds that were not pushed. -/
def State.pending (s : State) : Worker → Bytes
  | .forward (.copy .Retained _ _ copied _) => s.retained.drop copied ++ s.frame.bytes
  | .forward (.copy .Received _ _ copied _) => s.retained ++ s.frame.bytes.drop copied
  | _ => s.retained ++ s.frame.bytes

/-- A copy in progress: the slices left are what is left of the buffer, until the limit is
reached. -/
structure Copies (content : Bytes) (buffers : List Bytes) (limit copied : ℕ) : Prop where
  flatten : copied < limit → buffers.flatten = content.drop copied
  nonempty : ∀ slice ∈ buffers, slice ≠ []

/-- What the worker knows, by where it is. The frame is copied only behind an empty buffer, and
between callbacks an end that was not passed on waits for bytes. -/
def Copying (s : State) : Worker → Prop
  | .forward .room | .forward (.slices .Retained _ _) | .forward (.finish _) => True
  | .forward (.slices .Received _ _) => s.retained = [] ∧ s.frame ≠ .buffered
  | .forward (.copy .Retained buffers limit copied _) => Copies s.retained buffers limit copied
  | .forward (.copy .Received buffers limit copied _) =>
    (s.retained = [] ∧ s.frame ≠ .buffered) ∧ Copies s.frame.bytes buffers limit copied
  | .forward (.wake _) => s.requestEndPending = true → s.retained ++ s.frame.bytes ≠ []
  | _ => s.frame = .none ∧ (s.requestEndPending = true → s.retained ≠ [])

/-- The filter holds the request queue. -/
structure Held (s : State) : Prop where
  uncancelled : s.request.stream.cancelled = false
  kinds : ∀ x ∈ s.request.accepted, x.terminal = true → x = .End
  whole : bodyOf s.request.accepted ++ s.pending s.worker = s.client
  ended : s.request.stream.ended = true →
    s.clientDone = true ∧ s.pending s.worker = [] ∧ s.requestEndPending = false
  finishing : s.clientDone = true → s.requestEndPending = true ∨ s.request.stream.ended = true
  begun : s.requestEndPending = true → s.clientDone = true
  copying : Copying s s.worker

/-- No callback has come: Envoy holds what the client has sent so far. -/
structure Fresh (s : State) : Prop where
  accepted : s.request.accepted = []
  uncancelled : s.request.stream.cancelled = false
  frame : s.frame = .none
  client : s.retained = s.client
  requestBody : s.requestBody = false
  enqueued : s.enqueued = false
  calm : s.worker.calm = true

structure RequestInv (s : State) : Prop where
  fresh : s.stage = .fresh → Fresh s
  held : s.requestBody = true → Held s

variable {s t : State}

theorem RequestInv.init (config : Config) : RequestInv { config := config } where
  fresh _ := ⟨rfl, rfl, rfl, rfl, rfl, rfl, rfl⟩
  held h := by cases h

/-! ## Steps beside the request -/

/-- Nothing of the request changes but what fibers take and where they wait. -/
structure SameRequest (t s : State) : Prop where
  accepted : t.request.accepted = s.request.accepted
  cancelled : t.request.stream.cancelled = s.request.stream.cancelled
  ended : t.request.stream.ended = s.request.stream.ended
  retained : t.retained = s.retained
  frame : t.frame = s.frame
  client : t.client = s.client
  clientDone : t.clientDone = s.clientDone
  requestEndPending : t.requestEndPending = s.requestEndPending
  requestBody : t.requestBody = s.requestBody
  enqueued : t.enqueued = s.enqueued
  stage : t.stage = .fresh → s.stage = .fresh
  worker : t.worker = s.worker ∨ t.worker.calm = true ∧ s.worker.calm = true

theorem pending_of_calm {w : Worker} (h : w.calm = true) :
    s.pending w = s.retained ++ s.frame.bytes := by
  match w with
  | .forward _ => cases h
  | .idle | .drainTake | .drainCheck | .drainWake | .drainDone | .belowCommit _ | .dropCancel
  | .dropCheck | .dropWake | .dropRequest | .dropRequestWake | .dropped => rfl

theorem copying_of_calm {w : Worker} (h : w.calm = true) :
    Copying s w ↔ s.frame = .none ∧ (s.requestEndPending = true → s.retained ≠ []) := by
  match w with
  | .forward _ => cases h
  | .idle | .drainTake | .drainCheck | .drainWake | .drainDone | .belowCommit _ | .dropCancel
  | .dropCheck | .dropWake | .dropRequest | .dropRequestWake | .dropped => exact Iff.rfl

/-- `pending` and `Copying` speak of Envoy's buffers alone. -/
theorem pending_congr (hr : t.retained = s.retained) (hf : t.frame = s.frame) (w : Worker) :
    t.pending w = s.pending w := by
  unfold State.pending
  rw [hr, hf]

theorem copying_congr (hr : t.retained = s.retained) (hf : t.frame = s.frame)
    (he : t.requestEndPending = s.requestEndPending) (w : Worker) : Copying t w ↔ Copying s w := by
  unfold Copying
  rw [hr, hf, he]

theorem RequestInv.frame (h : RequestInv s) (hs : SameRequest t s) : RequestInv t := by
  have hpend : t.pending t.worker = s.pending s.worker := by
    rcases hs.worker with hw | ⟨ht, hs'⟩
    · rw [hw]
      exact pending_congr hs.retained hs.frame _
    · rw [pending_of_calm ht, pending_of_calm hs', hs.retained, hs.frame]
  refine ⟨fun hf => ?_, fun hb => ?_⟩
  · have h0 := h.fresh (hs.stage hf)
    exact ⟨hs.accepted.trans h0.accepted, hs.cancelled.trans h0.uncancelled,
      hs.frame.trans h0.frame, by rw [hs.retained, hs.client]; exact h0.client,
      hs.requestBody.trans h0.requestBody, hs.enqueued.trans h0.enqueued,
      hs.worker.elim (fun hw => hw ▸ h0.calm) And.left⟩
  · have h0 := h.held (hs.requestBody ▸ hb)
    refine ⟨hs.cancelled.trans h0.uncancelled, ?_, ?_, ?_, ?_, ?_, ?_⟩
    · rw [hs.accepted]
      exact h0.kinds
    · rw [hs.accepted, hpend, hs.client]
      exact h0.whole
    · rw [hs.ended, hs.clientDone, hpend, hs.requestEndPending]
      exact h0.ended
    · rw [hs.ended, hs.clientDone, hs.requestEndPending]
      exact h0.finishing
    · rw [hs.clientDone, hs.requestEndPending]
      exact h0.begun
    · rcases hs.worker with hw | ⟨ht, hs'⟩
      · rw [hw, copying_congr hs.retained hs.frame hs.requestEndPending]
        exact h0.copying
      · rw [copying_of_calm ht, hs.frame, hs.requestEndPending, hs.retained]
        exact (copying_of_calm hs').mp h0.copying

theorem RequestInv.letGo (hb : t.requestBody = false) (hf : t.stage ≠ .fresh) : RequestInv t where
  fresh h := absurd h hf
  held h := by rw [hb] at h; cases h

theorem RequestInv.release (h : RequestInv s) (hb : t.requestBody = false)
    (hq : t.request = s.request) (hr : t.retained = s.retained) (hf : t.frame = s.frame)
    (hc : t.client = s.client) (he : t.enqueued = s.enqueued) (hs : t.stage = s.stage)
    (hw : t.worker.calm = true) : RequestInv t where
  fresh hfresh := by
    have h0 := h.fresh (hs ▸ hfresh)
    exact ⟨hq ▸ h0.accepted, hq ▸ h0.uncancelled, hf.trans h0.frame,
      by rw [hr, hc]; exact h0.client, hb, he.trans h0.enqueued, hw⟩
  held h := by rw [hb] at h; cases h

/-! ## The copy -/

namespace Held

/-- Bytes that were not pushed are not behind an end. -/
theorem not_ended (h : Held s) (hp : s.pending s.worker ≠ []) : s.request.stream.ended = false := by
  by_contra hn
  exact hp (h.ended (by simpa using hn)).2.1

theorem accept (h : Held s) {x : StreamItem} (he : s.request.stream.ended = false) :
    (s.request.push x).accepted = s.request.accepted ++ [x] ∧
      (s.request.push x).stream.cancelled = false ∧
      (s.request.push x).stream.ended = x.terminal := by
  rcases s.request.push_cases x with ⟨hshut, -⟩ | ⟨-, -, ha, -, hin⟩
  · rw [h.uncancelled, he] at hshut
    cases hshut
  · rw [hin]
    exact ⟨ha, h.uncancelled, rfl⟩

/-- `pending` as `endCopy` finds it. -/
def leftOf (s : State) (copied : ℕ) : BodySource → Bytes
  | .Retained => s.retained.drop copied ++ s.frame.bytes
  | .Received => s.retained ++ s.frame.bytes.drop copied

theorem drainBody_pending (copied : ℕ) (source : BodySource)
    (hsrc : source = .Received → s.frame ≠ .buffered) :
    let t := if copied > 0 then s.drainBody copied source else s
    t.retained ++ t.frame.bytes = leftOf s copied source ∧ t.request = s.request ∧
      t.client = s.client ∧ t.clientDone = s.clientDone ∧
      t.requestEndPending = s.requestEndPending ∧ t.requestBody = s.requestBody ∧
      t.stage = s.stage ∧ (t.frame = .buffered ↔ s.frame = .buffered) ∧
      (source = .Retained → t.retained = s.retained.drop copied) := by
  intro t
  by_cases hc : copied > 0
  · have ht : t = s.drainBody copied source := if_pos hc
    rw [ht]
    cases source with
    | Retained => exact ⟨rfl, rfl, rfl, rfl, rfl, rfl, rfl, Iff.rfl, fun _ => rfl⟩
    | Received =>
      cases hf : s.frame with
      | none => simp [State.drainBody, leftOf, hf, Frame.bytes]
      | own bytes => simp [State.drainBody, leftOf, hf, Frame.bytes]
      | buffered => exact absurd hf (hsrc rfl)
  · have ht : t = s := if_neg hc
    have h0 : copied = 0 := by omega
    rw [ht, h0]
    refine ⟨?_, rfl, rfl, rfl, rfl, rfl, rfl, Iff.rfl, fun _ => rfl⟩
    cases source <;> simp [leftOf]

theorem move (h : Held s) (hq : t.request = s.request) (hcl : t.client = s.client)
    (hcd : t.clientDone = s.clientDone) (hep : t.requestEndPending = s.requestEndPending)
    (hp : t.pending t.worker = s.pending s.worker) (hc : Copying t t.worker) : Held t where
  uncancelled := hq ▸ h.uncancelled
  kinds := hq ▸ h.kinds
  whole := by rw [hq, hp, hcl]; exact h.whole
  ended := by rw [hq, hcd, hp, hep]; exact h.ended
  finishing := by rw [hq, hcd, hep]; exact h.finishing
  begun := by rw [hcd, hep]; exact h.begun
  copying := hc

/-- The end of a copy, which stopped short of the limit only where the retained bytes did. -/
theorem endCopy (h : Held s) {source : BodySource} {limit copied before : ℕ}
    (hp : s.pending s.worker = leftOf s copied source)
    (hsrc : source = .Received → s.frame ≠ .buffered)
    (hall : source = .Retained → copied < limit → s.retained.drop copied = []) :
    Held (s.endCopy source limit copied before) := by
  obtain ⟨hleft, hq, hcl, hcd, hep, -, -, hbuf, hret⟩ := drainBody_pending copied source hsrc
  cases source with
  | Retained =>
    unfold State.endCopy
    by_cases hgo : (decide (copied < limit) && !s.receivedIsRetained) = true
    · have hlt : copied < limit ∧ s.frame ≠ .buffered := by
        simpa [State.receivedIsRetained] using hgo
      simp only [hgo, if_true]
      refine h.move hq hcl hcd hep (hleft.trans hp.symm) ⟨?_, ?_⟩
      · exact (hret rfl).trans (hall rfl hlt.1)
      · exact fun hb => hlt.2 (hbuf.mp hb)
    · simp only [hgo]
      exact h.move hq hcl hcd hep (hleft.trans hp.symm) trivial
  | Received => exact h.move hq hcl hcd hep (hleft.trans hp.symm) trivial

/-- What is left of a buffer after one more slice, or part of it. -/
theorem copies_next {content : Bytes} {slice : Bytes} {rest : List Bytes} {limit copied : ℕ}
    (h : Copies content (slice :: rest) limit copied) (hlt : copied < limit) :
    slice.take (min slice.length (limit - copied)) ++
        content.drop (copied + min slice.length (limit - copied)) = content.drop copied ∧
      Copies content rest limit (copied + min slice.length (limit - copied)) := by
  have hflat := h.flatten hlt
  rw [List.flatten_cons] at hflat
  have hdrop : content.drop (copied + min slice.length (limit - copied)) =
      slice.drop (min slice.length (limit - copied)) ++ rest.flatten := by
    rw [← List.drop_drop, ← hflat, List.drop_append_of_le_length (min_le_left _ _)]
  refine ⟨?_, ?_, fun x hx => h.nonempty x (List.mem_cons_of_mem _ hx)⟩
  · rw [hdrop, ← hflat, ← List.append_assoc, List.take_append_drop]
  · intro hlt'
    -- short of the limit the whole slice was copied
    have hmin : min slice.length (limit - copied) = slice.length := by omega
    rw [hdrop, hmin, List.drop_length, List.nil_append]

theorem pushSlice (h : Held s) {bytes : Bytes} {w : Worker} (hne : s.pending s.worker ≠ [])
    (hp : bytes ++ s.pending w = s.pending s.worker)
    (hc : Copying { s with request := s.request.push (.Chunk bytes), worker := w } w) :
    Held { s with request := s.request.push (.Chunk bytes), worker := w } := by
  have he := h.not_ended hne
  obtain ⟨ha, hcan, hend⟩ := h.accept (x := .Chunk bytes) he
  have hpend : State.pending { s with request := s.request.push (.Chunk bytes), worker := w } w =
      s.pending w := pending_congr rfl rfl w
  refine ⟨hcan, ?_, ?_, ?_, ?_, h.begun, hc⟩
  · intro x hx
    rw [ha, List.mem_append, List.mem_singleton] at hx
    rcases hx with hx | rfl
    · exact h.kinds x hx
    · rintro ⟨⟩
  · show bodyOf (s.request.push _).accepted ++ State.pending _ w = s.client
    rw [hpend, ha, bodyOf_append, List.append_assoc]
    simp only [bodyOf_cons, bytes_chunk, bodyOf_nil, List.append_nil]
    rw [hp]
    exact h.whole
  · intro hx
    rw [hend] at hx
    cases hx
  · intro hd
    refine Or.inl ((h.finishing hd).resolve_right ?_)
    rw [he]
    rintro ⟨⟩

theorem copyStep (h : Held s) {source : BodySource} {buffers : List Bytes} {limit copied before : ℕ}
    (hw : s.worker = .forward (.copy source buffers limit copied before))
    (ht : s.forwardStep (.copy source buffers limit copied before) = some t) : Held t := by
  have hcopy := h.copying
  rw [hw] at hcopy
  have hpend : s.pending s.worker = leftOf s copied source := by
    rw [hw]
    cases source <;> rfl
  have hsrc : source = .Received → s.frame ≠ .buffered := by
    rintro rfl
    exact hcopy.1.2
  have hcopies : Copies (match source with
      | .Retained => s.retained
      | .Received => s.frame.bytes) buffers limit copied := by
    cases source with
    | Retained => exact hcopy
    | Received => exact hcopy.2
  cases buffers with
  | nil =>
    simp only [State.forwardStep, Option.some.injEq] at ht
    subst ht
    refine h.endCopy hpend hsrc fun hr hlt => ?_
    subst hr
    exact (hcopies.flatten hlt).symm
  | cons slice rest =>
    have hslice : slice ≠ [] := hcopies.nonempty slice List.mem_cons_self
    have hlen : 0 < slice.length := List.length_pos_iff.mpr hslice
    simp only [State.forwardStep] at ht
    by_cases htake : min slice.length (limit - copied) = 0
    · rw [if_pos htake, Option.some.injEq] at ht
      subst ht
      refine h.endCopy hpend hsrc fun _ hlt => ?_
      omega
    · rw [if_neg htake, Option.some.injEq] at ht
      subst ht
      have hlt : copied < limit := by omega
      obtain ⟨hbytes, hnext⟩ := copies_next hcopies hlt
      have hflat := hcopies.flatten hlt
      rw [List.flatten_cons] at hflat
      cases source with
      | Retained =>
        refine h.pushSlice ?_ ?_ hnext
        · rw [hpend, leftOf, ← hflat]
          simp [hslice]
        · rw [hpend]
          show _ ++ (s.retained.drop _ ++ _) = _
          rw [← List.append_assoc, hbytes]
          rfl
      | Received =>
        refine h.pushSlice ?_ ?_ ⟨hcopy.1, hnext⟩
        · rw [hpend, leftOf, ← hflat]
          simp [hslice]
        · rw [hpend]
          show _ ++ (s.retained ++ s.frame.bytes.drop _) = s.retained ++ s.frame.bytes.drop _
          rw [hcopy.1.1, List.nil_append, List.nil_append, hbytes]

/-- The end follows the last byte: nothing is left in either buffer. -/
theorem finishStep (h : Held s) {copied : ℕ} (hw : s.worker = .forward (.finish copied))
    (ht : s.forwardStep (.finish copied) = some t) : Held t := by
  simp only [State.forwardStep, Option.some.injEq] at ht
  subst ht
  have hpend : s.pending s.worker = s.retained ++ s.frame.bytes := by rw [hw]; rfl
  by_cases hend : (s.requestEndPending && s.retained.length == 0 && s.receivedSize == 0) = true
  · simp only [hend, if_true]
    simp only [Bool.and_eq_true, beq_iff_eq] at hend
    obtain ⟨⟨hep, hret⟩, hrec⟩ := hend
    have hnil : s.retained = [] := List.eq_nil_of_length_eq_zero hret
    have hframe : s.frame.bytes = [] := by
      cases hf : s.frame with
      | own bytes =>
        rw [State.receivedSize, hf] at hrec
        exact List.eq_nil_of_length_eq_zero hrec
      | none | buffered => rfl
    have he : s.request.stream.ended = false := by
      by_contra hn
      have hno := (h.ended (by simpa using hn)).2.2
      rw [hep] at hno
      cases hno
    obtain ⟨ha, hcan, hended⟩ := h.accept (x := .End) he
    refine ⟨hcan, ?_, ?_, ?_, ?_, by rintro ⟨⟩, by rintro ⟨⟩⟩
    · intro x hx hterm
      have hx' : x ∈ (s.request.push .End).accepted := hx
      rw [ha, List.mem_append, List.mem_singleton] at hx'
      rcases hx' with hx' | rfl
      · exact h.kinds x hx' hterm
      · rfl
    · have hwhole := h.whole
      rw [hpend] at hwhole
      show bodyOf (s.request.push .End).accepted ++ (s.retained ++ s.frame.bytes) = s.client
      rw [ha, bodyOf_append]
      simpa using hwhole
    · intro _
      refine ⟨h.begun hep, ?_, rfl⟩
      show s.retained ++ s.frame.bytes = []
      rw [hnil, hframe]
      rfl
    · exact fun _ => Or.inr hended
  · simp only [hend]
    refine h.move rfl rfl rfl rfl ?_ ?_
    · rw [hpend]
      rfl
    · intro hep hnil
      have hep' : s.requestEndPending = true := hep
      have hnil' : s.retained ++ s.frame.bytes = [] := hnil
      obtain ⟨h1, h2⟩ := List.append_eq_nil_iff.mp hnil'
      apply hend
      rw [hep', h1, State.receivedSize]
      cases hf : s.frame with
      | own bytes =>
        rw [hf] at h2
        have h2' : bytes = [] := h2
        simp [State.size, h2']
      | none => simp [State.size]
      | buffered => simp [State.size, h1]

/-- What is left of the frame is appended to what Envoy retains. -/
theorem endCallback_retained : s.endCallback.retained = s.retained ++ s.frame.bytes := by
  cases hf : s.frame <;> simp [State.endCallback, hf, Frame.bytes]

theorem endCallback (h : Held s)
    (hp : s.pending s.worker = s.retained ++ s.frame.bytes)
    (he : s.requestEndPending = true → s.retained ++ s.frame.bytes ≠ []) : Held s.endCallback := by
  refine h.move rfl rfl rfl rfl ?_ ⟨rfl, fun hep => ?_⟩
  · rw [hp]
    show s.endCallback.retained ++ [] = _
    rw [List.append_nil, endCallback_retained]
  · rw [endCallback_retained]
    exact he hep

/-- **One step of `forward_request_body` keeps the invariant.** -/
theorem forwardStep (h : Held s) {k : Forward} (hw : s.worker = .forward k)
    (ht : s.forwardStep k = some t) : Held t := by
  cases k with
  | room =>
    simp only [State.forwardStep, Option.some.injEq] at ht
    subst ht
    refine h.move rfl rfl rfl rfl ?_ trivial
    rw [hw]
    rfl
  | slices source limit before =>
    simp only [State.forwardStep, Option.ite_none_right_eq_some, Option.some.injEq] at ht
    obtain ⟨h0, rfl⟩ := ht
    have hcopy := h.copying
    rw [hw] at hcopy
    refine h.endCopy ?_ ?_ fun _ hlt => by omega
    · rw [hw]
      cases source <;> simp [State.pending, leftOf]
    · rintro rfl
      exact hcopy.2
  | copy source buffers limit copied before => exact h.copyStep hw ht
  | finish copied => exact h.finishStep hw ht
  | wake owed =>
    simp only [State.forwardStep, Option.some.injEq] at ht
    subst ht
    have hcopy := h.copying
    rw [hw] at hcopy
    have hpend : s.pending s.worker = s.retained ++ s.frame.bytes := by rw [hw]; rfl
    by_cases ho : owed = true
    · rw [if_pos ho]
      have hwoken : Held (s.wakeBody .request) := by
        refine h.move rfl rfl rfl rfl rfl ?_
        show Copying _ s.worker
        rw [hw]
        exact hcopy
      exact hwoken.endCallback hpend hcopy
    · rw [if_neg ho]
      exact h.endCallback hpend hcopy

theorem slices (h : Held s) {source : BodySource} {limit before : ℕ} {buffers : List Bytes}
    (hw : s.worker = .forward (.slices source limit before))
    (hb : slicesOf (s.content source) buffers = true) :
    Held { s with worker := .forward (.copy source buffers limit 0 before) } := by
  have hcopy := h.copying
  rw [hw] at hcopy
  simp only [slicesOf, Bool.and_eq_true, decide_eq_true_eq, List.all_eq_true] at hb
  obtain ⟨hflat, hne⟩ := hb
  have hnonempty : ∀ slice ∈ buffers, slice ≠ [] := fun slice hs => by simpa using hne slice hs
  have hpend : s.pending s.worker = s.retained ++ s.frame.bytes := by rw [hw]; cases source <;> rfl
  cases source with
  | Retained =>
    refine h.move rfl rfl rfl rfl ?_ ⟨fun _ => ?_, hnonempty⟩
    · rw [hpend]
      rfl
    · rw [List.drop_zero]
      exact hflat
  | Received =>
    refine h.move rfl rfl rfl rfl ?_ ⟨hcopy, fun _ => ?_, hnonempty⟩
    · rw [hpend]
      rfl
    · rw [List.drop_zero, hflat]
      cases hf : s.frame with
      | none => simp [State.content, hf, Frame.bytes]
      | own bytes => simp [State.content, hf, Frame.bytes]
      | buffered => exact absurd hf hcopy.2

end Held

/-! ## The callbacks -/

theorem RequestInv.forwardRequestBody (hf : s.stage ≠ .fresh)
    (h : s.requestBody = true → Held { s with worker := .forward .room }) :
    RequestInv s.forwardRequestBody := by
  unfold State.forwardRequestBody
  by_cases hb : s.requestBody = true
  · rw [if_pos hb]
    exact ⟨fun hfr => absurd hfr hf, fun _ => h hb⟩
  · rw [if_neg hb]
    refine .letGo ?_ hf
    show s.requestBody = false
    simpa using hb

theorem Held.arrive (h : Held s) (hw : s.worker.calm = true) (hd : s.clientDone = false)
    {frame : Frame} {added : Bytes} (hadd : frame.bytes = added) (eos : Bool) :
    Held { s with
      frame := frame
      client := s.client ++ added
      clientDone := eos
      requestEndPending := s.requestEndPending || eos
      worker := .forward .room } := by
  have hno : s.request.stream.ended = false := by
    by_contra hn
    have hdone := (h.ended (by simpa using hn)).1
    rw [hd] at hdone
    cases hdone
  have hnp : s.requestEndPending = false := by
    by_contra hn
    have hdone := h.begun (by simpa using hn)
    rw [hd] at hdone
    cases hdone
  have hframe := ((copying_of_calm hw).mp h.copying).1
  refine ⟨h.uncancelled, h.kinds, ?_, ?_, ?_, ?_, trivial⟩
  · have hwhole := h.whole
    rw [pending_of_calm hw, hframe] at hwhole
    show bodyOf s.request.accepted ++ (s.retained ++ frame.bytes) = s.client ++ added
    rw [hadd, ← hwhole]
    simp [Frame.bytes]
  · intro he
    have he' : s.request.stream.ended = true := he
    rw [hno] at he'
    cases he'
  · intro he
    exact Or.inl (by rw [show eos = true from he, Bool.or_true])
  · intro he
    rw [hnp, Bool.false_or] at he
    exact he

theorem Held.begin (h : Fresh s) (eos : Bool)
    (hw : t.worker = .forward .room ∨ t.worker = .idle ∧ eos = false)
    (ha : t.request = s.request) (hr : t.retained = s.retained) (hf : t.frame = s.frame)
    (hc : t.client = s.client) (hd : t.clientDone = eos) (he : t.requestEndPending = eos) :
    Held t := by
  have hend : t.request.stream.ended = false := by
    rw [ha, ← s.request.any_terminal, h.accepted]
    rfl
  have hpend : t.pending t.worker = s.client := by
    have hbuf : t.retained ++ t.frame.bytes = s.client := by
      rw [hr, hf, h.frame, h.client]
      exact List.append_nil _
    rcases hw with hw | ⟨hw, -⟩
    · rw [hw]
      exact hbuf
    · rw [hw]
      exact hbuf
  refine ⟨?_, ?_, ?_, ?_, ?_, ?_, ?_⟩
  · rw [ha]
    exact h.uncancelled
  · rw [ha, h.accepted]
    rintro _ ⟨⟩
  · rw [hpend, ha, h.accepted, hc]
    rfl
  · rw [hend]
    rintro ⟨⟩
  · rw [hd, he]
    exact Or.inl
  · rw [hd, he]
    exact id
  · rcases hw with hw | ⟨hw, hfalse⟩
    · rw [hw]
      trivial
    · rw [hw]
      refine ⟨hf.trans h.frame, fun hp => ?_⟩
      rw [he, hfalse] at hp
      cases hp

theorem RequestInv.onRequestHeaders (h : RequestInv s) (hw : s.worker = .idle) (hf : s.stage = .fresh)
    (submission : State.Submission) (eos : Bool) :
    RequestInv (s.onRequestHeaders submission eos) := by
  have h0 := h.fresh hf
  cases submission with
  | accepted =>
    unfold State.onRequestHeaders
    by_cases he : eos = true
    · simp only [if_pos he]
      refine .forwardRequestBody (by rintro ⟨⟩) fun _ => ?_
      exact .begin h0 eos (Or.inl rfl) rfl rfl rfl rfl rfl rfl
    · simp only [if_neg he]
      refine ⟨by rintro ⟨⟩, fun _ => ?_⟩
      exact .begin h0 eos (Or.inr ⟨hw, by simpa using he⟩) rfl rfl rfl rfl rfl rfl
  | refused error enqueued =>
    unfold State.onRequestHeaders
    by_cases he : eos = true
    · simp only [if_pos he]
      exact .forwardRequestBody (by rintro ⟨⟩) (by rintro ⟨⟩)
    · simp only [if_neg he]
      exact .letGo rfl (by rintro ⟨⟩)

/-! ## Every step -/

theorem RequestInv.drainStep (h : RequestInv s) (hw : s.worker = .drainTake) :
    RequestInv s.drainStep := by
  have hcalm : s.worker.calm = true := by rw [hw]; rfl
  unfold State.drainStep
  split
  · next item _ =>
    cases item with
    | Head head =>
      simp only [State.drainItem]
      split_ifs <;>
        exact h.frame ⟨rfl, rfl, rfl, rfl, rfl, rfl, rfl, rfl, rfl, rfl, id, Or.inr ⟨rfl, hcalm⟩⟩
    | Chunk chunk =>
      simp only [State.drainItem]
      split_ifs <;>
        exact h.frame ⟨rfl, rfl, rfl, rfl, rfl, rfl, rfl, rfl, rfl, rfl, id, Or.inr ⟨rfl, hcalm⟩⟩
    | End =>
      exact h.frame ⟨rfl, rfl, rfl, rfl, rfl, rfl, rfl, rfl, rfl, rfl, id, Or.inr ⟨rfl, hcalm⟩⟩
    | Failed error =>
      simp only [State.drainItem]
      split_ifs
      · exact h.release rfl rfl rfl rfl rfl rfl rfl rfl
      · exact h.frame ⟨rfl, rfl, rfl, rfl, rfl, rfl, rfl, rfl, rfl, rfl, id, Or.inr ⟨rfl, hcalm⟩⟩
  · exact h.frame ⟨rfl, rfl, rfl, rfl, rfl, rfl, rfl, rfl, rfl, rfl, id, Or.inr ⟨rfl, hcalm⟩⟩

theorem RequestInv.workStep (h : RequestInv s) (ht : s.workStep = some t) : RequestInv t := by
  cases hw : s.worker with
  | forward k =>
    simp only [State.workStep, hw] at ht
    obtain ⟨hs, -⟩ := forwardStep_frame ht
    refine ⟨fun hf => ?_, fun hb => ?_⟩
    · rw [hs] at hf
      have hcalm := (h.fresh hf).calm
      rw [hw] at hcalm
      cases hcalm
    · rw [hs] at hb
      exact (h.held hb).forwardStep hw ht
  | drainTake =>
    simp only [State.workStep, hw, Option.some.injEq] at ht
    subst ht
    exact h.drainStep hw
  | drainCheck =>
    simp only [State.workStep, hw, Option.some.injEq] at ht
    subst ht
    refine h.frame ⟨rfl, rfl, rfl, rfl, rfl, rfl, rfl, rfl, rfl, rfl, id, Or.inr ⟨?_, by rw [hw]; rfl⟩⟩
    dsimp only
    split_ifs <;> rfl
  | drainWake | drainDone =>
    simp only [State.workStep, hw, Option.some.injEq] at ht
    subst ht
    exact h.frame ⟨rfl, rfl, rfl, rfl, rfl, rfl, rfl, rfl, rfl, rfl, id, Or.inr ⟨rfl, by rw [hw]; rfl⟩⟩
  | belowCommit draining =>
    simp only [State.workStep, hw, Option.some.injEq] at ht
    subst ht
    refine h.frame ⟨rfl, rfl, rfl, rfl, rfl, rfl, rfl, rfl, rfl, rfl, id, Or.inr ⟨?_, by rw [hw]; rfl⟩⟩
    dsimp only
    split_ifs <;> rfl
  | dropCancel =>
    simp only [State.workStep, hw] at ht
    split_ifs at ht <;> cases ht <;>
      exact h.frame ⟨rfl, rfl, rfl, rfl, rfl, rfl, rfl, rfl, rfl, rfl, id,
        Or.inr ⟨rfl, by rw [hw]; rfl⟩⟩
  | dropCheck =>
    simp only [State.workStep, hw, Option.some.injEq] at ht
    subst ht
    refine h.frame ⟨rfl, rfl, rfl, rfl, rfl, rfl, rfl, rfl, rfl, rfl, id, Or.inr ⟨?_, by rw [hw]; rfl⟩⟩
    dsimp only
    split_ifs <;> rfl
  | dropWake | dropRequestWake =>
    simp only [State.workStep, hw, Option.some.injEq] at ht
    subst ht
    exact h.frame ⟨rfl, rfl, rfl, rfl, rfl, rfl, rfl, rfl, rfl, rfl, id, Or.inr ⟨rfl, by rw [hw]; rfl⟩⟩
  | dropRequest =>
    simp only [State.workStep, hw] at ht
    split_ifs at ht with hb <;> cases ht
    · refine ⟨fun hf => ?_, by rintro ⟨⟩⟩
      have hno := (h.fresh hf).requestBody
      rw [hb] at hno
      cases hno
    · exact h.frame ⟨rfl, rfl, rfl, rfl, rfl, rfl, rfl, rfl, rfl, rfl, id,
        Or.inr ⟨rfl, by rw [hw]; rfl⟩⟩
  | idle | dropped => simp [State.workStep, hw] at ht

/-- `forward_request_body` when a scheduled event asks for it. -/
theorem Held.resume (h : Held s) (hw : s.worker.calm = true) :
    Held { s with worker := .forward .room } := by
  refine h.move rfl rfl rfl rfl ?_ trivial
  rw [pending_of_calm hw]
  rfl

theorem Held.buffer (h : Held s) (hw : s.worker = .idle) (hd : s.clientDone = false)
    (bytes : Bytes) :
    Held { s with retained := s.retained ++ bytes, client := s.client ++ bytes } := by
  have hno : s.request.stream.ended = false := by
    by_contra hn
    have hdone := (h.ended (by simpa using hn)).1
    rw [hd] at hdone
    cases hdone
  have hcopy := h.copying
  have hwhole := h.whole
  rw [hw] at hcopy hwhole
  have hpend : State.pending { s with retained := s.retained ++ bytes, client := s.client ++ bytes }
      s.worker = s.retained ++ bytes := by
    rw [hw]
    show (s.retained ++ bytes) ++ s.frame.bytes = _
    rw [hcopy.1]
    exact List.append_nil _
  refine ⟨h.uncancelled, h.kinds, ?_, ?_, h.finishing, h.begun, ?_⟩
  · show bodyOf s.request.accepted ++ State.pending _ s.worker = s.client ++ bytes
    rw [hpend, ← hwhole]
    simp [State.pending, hcopy.1, Frame.bytes]
  · intro he
    have he' : s.request.stream.ended = true := he
    rw [hno] at he'
    cases he'
  · show Copying _ s.worker
    rw [hw]
    refine ⟨hcopy.1, fun hep hnil => ?_⟩
    exact hcopy.2 hep (List.append_eq_nil_iff.mp hnil).1

theorem calm_of_watermarkable (h : s.watermarkable = true) : s.worker.calm = true := by
  simp only [State.watermarkable, Bool.or_eq_true, atRest_iff, Bool.and_eq_true, beq_iff_eq] at h
  rcases h with ⟨hw, -⟩ | ⟨hw, -⟩ <;> rw [hw] <;> rfl

theorem SameRequest.beside (hq : t.request.accepted = s.request.accepted)
    (hc : t.request.stream.cancelled = s.request.stream.cancelled)
    (he : t.request.stream.ended = s.request.stream.ended)
    (hs : t = { s with
      request := t.request
      response := t.response
      writer := t.writer
      wakeups := t.wakeups
      resolving := t.resolving
      headPushed := t.headPushed
      responseWakes := t.responseWakes
      requestWakes := t.requestWakes
      responseEvents := t.responseEvents
      requestEvents := t.requestEvents }) : SameRequest t s := by
  refine ⟨hq, hc, he, ?_, ?_, ?_, ?_, ?_, ?_, ?_, ?_, Or.inl ?_⟩ <;> rw [hs]
  exact id

/-- A frame, or what a filter ahead kept back. -/
theorem RequestInv.received (h : RequestInv s) (hw : s.worker = .idle) (hl : s.stage = .live)
    (hd : s.clientDone = false) {frame : Frame} {added : Bytes} (hadded : frame.bytes = added)
    (eos : Bool) : RequestInv (s.onRequestBody frame added eos) := by
  refine .forwardRequestBody (by simp [hl]) fun hb => ?_
  exact (h.held hb).arrive (by rw [hw]; rfl) hd hadded eos

theorem RequestInv.trailers (h : RequestInv s) (hw : s.worker = .idle) (hl : s.stage = .live)
    (hd : s.clientDone = false) : RequestInv s.onRequestTrailers := by
  refine .forwardRequestBody (by simp [hl]) fun hb => ?_
  have hframe := ((copying_of_calm (w := s.worker) (by rw [hw]; rfl)).mp (h.held hb).copying).1
  have hnone : Frame.none.bytes = [] := rfl
  have harrive := (h.held hb).arrive (by rw [hw]; rfl) hd hnone true
  refine harrive.move rfl (List.append_nil _).symm rfl (Bool.or_true _).symm ?_ trivial
  show s.retained ++ s.frame.bytes = s.retained ++ Frame.none.bytes
  rw [hframe]

theorem RequestInv.buffer (h : RequestInv s) (hw : s.worker = .idle) (hd : s.clientDone = false)
    (bytes : Bytes) :
    RequestInv { s with retained := s.retained ++ bytes, client := s.client ++ bytes } := by
  refine ⟨fun hf => ?_, fun hb => (h.held hb).buffer hw hd bytes⟩
  have h0 := h.fresh hf
  refine ⟨h0.accepted, h0.uncancelled, h0.frame, ?_, h0.requestBody, h0.enqueued, h0.calm⟩
  exact congrArg (· ++ bytes) h0.client

theorem RequestInv.requestEvent (h : RequestInv s) (hw : s.worker = .idle) (hl : s.stage = .live) :
    RequestInv { s with requestEvents := s.requestEvents - 1 }.forwardRequestBody := by
  refine .forwardRequestBody (by simp [hl]) fun hb => ?_
  have hresume := (h.held hb).resume (by rw [hw]; rfl)
  exact hresume.move rfl rfl rfl rfl rfl trivial

theorem RequestInv.step (h : RequestInv s) {a : Action} (ht : step s a = some t) : RequestInv t := by
  cases step_moves ht with
  | headers hw hf submission eos => exact h.onRequestHeaders hw hf submission eos
  | invalid => exact .letGo rfl (by rintro ⟨⟩)
  | body hw hl hd | redeliver hw hl hd => exact h.received hw hl hd rfl _
  | trailers hw hl hd => exact h.trailers hw hl hd
  | buffer hw _ hd bytes => exact h.buffer hw hd bytes
  | requestEvent hw hl => exact h.requestEvent hw hl
  | drain hw | drop hw =>
    exact h.frame ⟨rfl, rfl, rfl, rfl, rfl, rfl, rfl, rfl, rfl, rfl, id, Or.inr ⟨rfl, by rw [hw]; rfl⟩⟩
  | below hm =>
    exact h.frame ⟨rfl, rfl, rfl, rfl, rfl, rfl, rfl, rfl, rfl, rfl, id,
      Or.inr ⟨rfl, calm_of_watermarkable hm⟩⟩
  | released => exact h
  | complete =>
    exact h.frame ⟨rfl, rfl, rfl, rfl, rfl, rfl, rfl, rfl, rfl, rfl, by rintro ⟨⟩, Or.inl rfl⟩
  | work ht => exact h.workStep ht
  | slices hw _ hb =>
    refine ⟨fun hf => ?_, fun hr => (h.held hr).slices hw hb⟩
    have hcalm := (h.fresh hf).calm
    rw [hw] at hcalm
    cases hcalm
  | takeRequest =>
    exact h.frame (.beside rfl ResponseStream.takeNext_cancelled ResponseStream.takeNext_ended rfl)
  | parkReader _ v =>
    exact h.frame (.beside rfl (ResponseStream.park_cancelled v) (ResponseStream.park_ended v) rfl)
  | @resolve q => cases q <;> exact h.frame (.beside rfl rfl rfl rfl)
  | _ => exact h.frame (.beside rfl rfl rfl rfl)

theorem RequestInv.of_reachable (h : system.Reachable s) : RequestInv s := by
  refine h.induct ?_ ?_
  · rintro _ ⟨config, rfl⟩
    exact .init config
  · intro s a t hs _ ht
    exact hs.step ht

/-! ## What holds after every callback -/

/-- **The request body reaches the fiber whole and in order.** While the filter holds the request
queue: whenever the worker is not in `forward_request_body`, what the fiber has taken, what is queued
and what Envoy still holds are, in this order, what the client has sent so far; the queue accepts
every end the worker pushes, at most one, and only behind all bytes of a finished body; and it has
accepted one when the body is finished and Envoy holds nothing. -/
theorem request_body_whole (h : system.Reachable s) (hb : s.requestBody = true) :
    (s.worker.calm = true →
      bodyOf s.request.taken ++ bodyOf s.request.stream.items ++ (s.retained ++ s.frame.bytes) =
        s.client) ∧
    ((∀ copied, s.worker = .forward (.finish copied) → s.requestEndPending = true →
        (s.request.stream.push .End).1 = true) ∧
      s.request.accepted.count .End ≤ 1 ∧
      (.End ∈ s.request.accepted → s.clientDone = true ∧ bodyOf s.request.accepted = s.client)) ∧
    (s.worker.calm = true → s.clientDone = true → s.retained ++ s.frame.bytes = [] →
      .End ∈ s.request.accepted) := by
  have hi := (RequestInv.of_reachable h).held hb
  have hend : .End ∈ s.request.accepted ↔ s.request.stream.ended = true := by
    rw [← s.request.any_terminal, List.any_eq_true]
    constructor
    · exact fun hm => ⟨.End, hm, rfl⟩
    · rintro ⟨x, hx, hxt⟩
      rwa [hi.kinds x hx hxt] at hx
  refine ⟨fun hw => ?_, ⟨fun copied hw hp => ?_, ?_, fun hm => ?_⟩, fun hw hd hnil => ?_⟩
  · have hwhole := hi.whole
    rw [pending_of_calm hw, ← s.request.conserve hi.uncancelled, bodyOf_append] at hwhole
    exact hwhole
  · have he : s.request.stream.ended = false := by
      by_contra hn
      have hno := (hi.ended (by simpa using hn)).2.2
      rw [hp] at hno
      cases hno
    exact (ResponseStream.push_of_open hi.uncancelled he .End).1
  · refine le_trans ?_ s.request.accepted_sealed.countP_le_one
    refine List.countP_mono_left fun x _ hx => ?_
    rw [eq_of_beq hx]
    rfl
  · obtain ⟨hd, hpend, -⟩ := hi.ended (hend.mp hm)
    refine ⟨hd, ?_⟩
    have hwhole := hi.whole
    rwa [hpend, List.append_nil] at hwhole
  · rw [hend]
    refine (hi.finishing hd).resolve_left fun hp => ?_
    obtain ⟨-, hret⟩ := (copying_of_calm hw).mp hi.copying
    exact hret hp (List.append_eq_nil_iff.mp hnil).1

/-- A filter ahead buffers a first frame and delivers it again, a second one comes in two slices and
a fiber takes a chunk; then the trailers come. -/
def twoFrames : List Action :=
  [.buffer [1, 2], .headers .accepted false, .redeliver false, .work, .slices [[1, 2]], .work, .work,
    .work, .work, .body [3, 4, 5] false, .work, .slices [], .work, .takeRequest,
    .slices [[3], [4, 5]], .work, .work, .work, .work, .work, .trailers, .work, .work, .work, .work]

theorem request_body_whole_twoFrames :
    ∃ s, system.run { config := {} } twoFrames = some s ∧
      bodyOf s.request.taken ++ bodyOf s.request.stream.items ++ (s.retained ++ s.frame.bytes) =
        s.client ∧
      .End ∈ s.request.accepted := by
  have hr : system.run { config := {} } twoFrames = some _ := rfl
  obtain ⟨hwhole, -, hend⟩ := request_body_whole (System.reach_of_run ⟨_, rfl⟩ hr) rfl
  exact ⟨_, hr, hwhole rfl, hend rfl rfl rfl⟩

end Ruvoy.Filter
