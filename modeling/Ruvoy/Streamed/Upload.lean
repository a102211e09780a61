import Ruvoy.Streamed.Framing

/-!
# An uploaded body goes up whole

The upload fiber writes what was read ahead, then every further piece, as far as the request queue has
room for it, while the worker takes from the queue what the fiber has written so far.

* `Going`: where the fiber is, what its queue accepted and the rest of the body agree;
* `UploadInv`: the invariant of the call with its upload;
* **`upload_whole`**: what holds of every run.
-/

set_option autoImplicit false

namespace Ruvoy.Streamed.Body

open Runs
open Upstream

/-! ## Where the upload is -/

/-- What the queue accepted, what the fiber has in hand and what is not read are the body, until the
queue is cancelled. -/
def Going (content : Bytes) (q : Tracked) (rest : Bytes) : Upload → Prop
  | .none => content = [] ∧ q.accepted = [.End]
  | .test left | .park left | .parked left | .leave left | .write left =>
    content ≠ [] ∧ q.stream.ended = false ∧ bodyOf q.accepted ++ left ++ rest = content
  | .read => content ≠ [] ∧ q.stream.ended = false ∧ bodyOf q.accepted ++ rest = content
  | .finish =>
    content ≠ [] ∧ q.stream.ended = false ∧ (q.stream.cancelled = true ∨ bodyOf q.accepted = content)
  | .done => content ≠ [] ∧ (q.stream.ended = true → bodyOf q.accepted = content)
  | .stopped => content ≠ [] ∧ q.stream.ended = false

section Fiber

variable {content rest left : Bytes} {q q' : Tracked} {u : Upload}

theorem Going.frame (h : Going content q rest u) (ha : q'.accepted = q.accepted)
    (he : q'.stream.ended = q.stream.ended)
    (hc : q.stream.cancelled = true → q'.stream.cancelled = true) : Going content q' rest u := by
  cases u with
  | none => exact ⟨h.1, ha.trans h.2⟩
  | test left | park left | parked left | leave left | write left =>
    exact ⟨h.1, he.trans h.2.1, by rw [ha]; exact h.2.2⟩
  | read => exact ⟨h.1, he.trans h.2.1, by rw [ha]; exact h.2.2⟩
  | finish => exact ⟨h.1, he.trans h.2.1, h.2.2.imp hc fun hall => by rw [ha]; exact hall⟩
  | done => exact ⟨h.1, fun hend => by rw [ha]; exact h.2 (he ▸ hend)⟩
  | stopped => exact ⟨h.1, he.trans h.2⟩

/-- There is a fiber for a body that is not empty alone. -/
theorem Going.content_ne (h : Going content q rest u) (hu : u ≠ .none) : content ≠ [] := by
  cases u with
  | none => exact (hu rfl).elim
  | test | park | parked | leave | write | read | finish | done | stopped => exact h.1

theorem Going.whole (h : Going content q rest u) (he : q.stream.ended = true) :
    bodyOf q.accepted = content := by
  have hopen : q.stream.ended = false → bodyOf q.accepted = content := by
    intro hno
    rw [he] at hno
    cases hno
  cases u with
  | none =>
    obtain ⟨hnil, haccepted⟩ := h
    rw [haccepted, hnil]
    rfl
  | test left | park left | parked left | leave left | write left => exact hopen h.2.1
  | read => exact hopen h.2.1
  | finish => exact hopen h.2.1
  | done => exact h.2 he
  | stopped => exact hopen h.2

/-- **One write of the piece**: it is cut where the queue is full, or the reader has gone. -/
theorem Going.write (h : Going content q rest (.write left)) :
    Going content (q.pushWithinBudget left) rest
      (match (q.stream.pushChunkWithinBudget left).1 with
        | some taken => .test (left.drop taken)
        | none => .finish) := by
  obtain ⟨hne, hopen, hall⟩ := h
  have hbody := q.pushWithinBudget_body left
  have hended : (q.pushWithinBudget left).stream.ended = false :=
    (ResponseStream.pushChunkWithinBudget_ended left).trans hopen
  cases hr : (q.stream.pushChunkWithinBudget left).1 with
  | some taken =>
    rw [hr, Option.getD_some] at hbody
    refine ⟨hne, hended, ?_⟩
    rw [hbody, List.append_assoc (bodyOf q.accepted), List.take_append_drop]
    exact hall
  | none =>
    refine ⟨hne, hended, Or.inl ?_⟩
    have hshut : (q.stream.cancelled || q.stream.ended) = true := by
      by_contra hno
      obtain ⟨hcan, hend⟩ := ResponseStreamInner.open_of_not_shut hno
      rw [(ResponseStream.pushChunkWithinBudget_of_open hcan hend left).1] at hr
      cases hr
    rw [hopen, Bool.or_false] at hshut
    exact (ResponseStream.pushChunkWithinBudget_cancelled left).trans hshut

/-- The writer is finished behind the whole body, unless it is cancelled. -/
theorem Going.finish (h : Going content q rest .finish) : Going content (q.push .End) rest .done := by
  obtain ⟨hne, hopen, hall⟩ := h
  refine ⟨hne, fun hended => ?_⟩
  rcases q.push_cases .End with ⟨-, hsame⟩ | ⟨hcan, -, haccepted, -⟩
  · rw [hsame, hopen] at hended
    cases hended
  · rw [haccepted, bodyOf_append]
    rcases hall with hcancelled | hbody
    · rw [hcan] at hcancelled
      cases hcancelled
    · rw [hbody]
      exact List.append_nil _

end Fiber

/-! ## The invariant -/

/-- The call, its queue and the upload fiber agree. -/
structure UploadInv (c : Call) (s : State) : Prop where
  framed : ∃ fs up, fields c.text c.cluster c.method c.path c.headers
      (if c.ahead.2.isSome then none else c.ahead.1) = .ok fs ∧
    Framed ⟨0, c.cluster, fs, c.timeout⟩ (Upstream.State.readTrace up) s.call
  going : Going c.body.content s.call.channel.request (s.rest.getD []).flatten s.upload
  bodiless : c.body.content = [] → Bodiless s.call

theorem framed_queue {request : UpstreamStreamRequest} {trace : Fields} (budget : ℕ) (hasBody : Bool) :
    Framed request trace (.queue request trace budget hasBody) := by
  cases hasBody <;>
    exact ⟨rfl, rfl, closing_of_idle (Or.inl rfl), rfl, rfl, by rintro ⟨⟩,
      fun _ => ⟨rfl, rfl, rfl, by rintro ⟨⟩⟩, by rintro _ _ _ _ _ _ ⟨⟩⟩

namespace UploadInv

variable {c : Call} {s t : State}

theorem ahead_content (c : Call) :
    c.ahead.1.getD [] ++ (c.ahead.2.getD []).flatten = c.body.content :=
  preread_content [] c.body.pieces

theorem ahead_none_iff (c : Call) : c.ahead.1 = none ↔ c.body.content = [] :=
  preread_none_iff [] c.body.pieces

theorem start {up : Upstream.State} {budget : ℕ} (hs : c.start up.readTrace budget = .ok s) :
    UploadInv c s := by
  unfold Call.start at hs
  cases hf : fields c.text c.cluster c.method c.path c.headers
      (if c.ahead.2.isSome then none else c.ahead.1) with
  | error text =>
    rw [hf] at hs
    cases hs
  | ok fs =>
    rw [hf] at hs
    cases hs
    refine ⟨⟨fs, up, hf, framed_queue budget _⟩, ?_, fun hnil => ?_⟩
    · have hall := ahead_content c
      cases ha : c.ahead.1 with
      | none => exact ⟨(ahead_none_iff c).mp ha, rfl⟩
      | some read =>
        rw [ha] at hall
        refine ⟨fun hnil => ?_, rfl, hall⟩
        rw [(ahead_none_iff c).mpr hnil] at ha
        cases ha
    · rw [(ahead_none_iff c).mpr hnil]
      exact ⟨rfl, by rintro _ _ _ _ _ _ ⟨⟩⟩

theorem act (h : UploadInv c s) {op : FiberOp} {u : Upload} (hw : writes (.fiber op) = true)
    (hu : s.upload ≠ .none)
    (hg : Going c.body.content (s.call.fiber op).channel.request (s.rest.getD []).flatten u) :
    UploadInv c (s.act op u) := by
  obtain ⟨fs, up, hf, hframed⟩ := h.framed
  exact ⟨⟨fs, up, hf, hframed.fiber hw⟩, hg, fun hnil => absurd hnil (h.going.content_ne hu)⟩

theorem move (h : UploadInv c s) {rest : Option (List Bytes)} {u : Upload} (hu : s.upload ≠ .none)
    (hg : Going c.body.content s.call.channel.request (rest.getD []).flatten u) :
    UploadInv c { s with rest := rest, upload := u } :=
  ⟨h.framed, hg, fun hnil => absurd hnil (h.going.content_ne hu)⟩

/-- **One step of the upload fiber.** -/
theorem uploadStep (h : UploadInv c s) (ht : s.uploadStep = some t) : UploadInv c t := by
  have hg := h.going
  unfold State.uploadStep at ht
  split at ht
  · rename_i hu
    rw [hu] at hg
    obtain ⟨hne, hopen, hall⟩ := hg
    rw [List.append_nil] at hall
    cases ht
    refine h.move (by rw [hu]; rintro ⟨⟩) ?_
    cases hr : s.rest with
    | none =>
      rw [hr] at hall
      exact ⟨hne, hopen, Or.inr ((List.append_nil _).symm.trans hall)⟩
    | some pieces =>
      rw [hr] at hall
      exact ⟨hne, hopen, hall⟩
  · rename_i left _ hu
    rw [hu] at hg
    cases ht
    refine h.move (by rw [hu]; rintro ⟨⟩) ?_
    split <;> exact hg
  · rename_i left hu
    rw [hu] at hg
    cases ht
    have hparked : Going c.body.content (s.call.channel.request.parkWriter State.uploadVariable)
        (s.rest.getD []).flatten (.park left) :=
      hg.frame rfl (ResponseStream.parkWriter_ended _)
        (ResponseStream.parkWriter_cancelled State.uploadVariable).trans
    refine h.act rfl (by rw [hu]; rintro ⟨⟩) ?_
    split <;> exact hparked
  · rename_i left hu
    rw [hu] at hg
    cases ht
    have hleft : Going c.body.content s.call.channel.request.unpark (s.rest.getD []).flatten (.leave left) :=
      hg.frame rfl rfl id
    exact h.act rfl (by rw [hu]; rintro ⟨⟩) hleft
  · rename_i left hu
    rw [hu] at hg
    cases ht
    exact h.act rfl (by rw [hu]; rintro ⟨⟩) hg.write
  · rename_i hu
    rw [hu] at hg
    obtain ⟨hne, hopen, hall⟩ := hg
    split at ht <;> cases ht
    · rename_i piece pieces hr
      rw [hr, Option.getD_some, List.flatten_cons, ← List.append_assoc] at hall
      exact h.move (by rw [hu]; rintro ⟨⟩) ⟨hne, hopen, hall⟩
    · rename_i hr
      have hnil : (s.rest.getD []).flatten = [] := by
        cases hrest : s.rest with
        | none => rfl
        | some pieces =>
          cases pieces with
          | nil => rfl
          | cons piece pieces => exact (hr piece pieces hrest).elim
      rw [hnil, List.append_nil] at hall
      exact h.move (by rw [hu]; rintro ⟨⟩) ⟨hne, hopen, Or.inr hall⟩
  · rename_i hu
    rw [hu] at hg
    cases ht
    exact h.act rfl (by rw [hu]; rintro ⟨⟩) hg.finish
  · cases ht
  · cases ht
  · cases ht
  · cases ht

theorem stop (h : UploadInv c s) (ht : s.stop = some t) : UploadInv c t := by
  have hg := h.going
  unfold State.stop at ht
  split at ht <;> cases ht
  · rename_i left hu
    rw [hu] at hg
    exact h.act rfl (by rw [hu]; rintro ⟨⟩) ⟨hg.1, hg.2.1⟩
  · rename_i hu
    rw [hu] at hg
    exact h.move (by rw [hu]; rintro ⟨⟩) ⟨hg.1, hg.2.1⟩

/-- **Anything else that happens to the call** takes of the queue or cancels it. -/
theorem other (h : UploadInv c s) {a : Streamed.Action} {call : Streamed.State} (hw : writes a = false)
    (ht : Streamed.step s.call a = some call) : UploadInv c { s with call := call } := by
  obtain ⟨fs, up, hf, hframed⟩ := h.framed
  have hpass := pass_step hframed.closing hw ht
  have hclosing := hframed.closing.step ht
  refine ⟨⟨fs, up, hf, hframed.pass hpass hclosing⟩, ?_, fun hnil => (h.bodiless hnil).pass hframed hpass⟩
  have htook : Took s.call call → Going c.body.content call.channel.request (s.rest.getD []).flatten
      s.upload := by
    intro htook
    rw [htook.queue]
    exact h.going.frame rfl ResponseStream.takeNext_ended ResponseStream.takeNext_cancelled.trans
  cases hpass with
  | rests hr => exact h.going.frame hr.accepted hr.ended hr.cancelled
  | first _ hp hstep => exact htook (took_first hp hstep).1
  | pumped _ hp hstep => exact htook (took_pumped hp hstep).1

/-- **Every step keeps the agreement.** -/
theorem step {a : Action} (h : UploadInv c s) (ht : Body.step s a = some t) : UploadInv c t := by
  cases a with
  | upload =>
    simp only [Body.step] at ht
    split_ifs at ht
    exact h.uploadStep ht
  | wakeUpload =>
    have hg := h.going
    simp only [Body.step] at ht
    split at ht
    · rename_i left hu
      rw [hu] at hg
      cases ht
      exact h.move (by rw [hu]; rintro ⟨⟩) hg
    · cases ht
  | stop =>
    simp only [Body.step] at ht
    split_ifs at ht
    exact h.stop ht
  | other a =>
    simp only [Body.step] at ht
    split_ifs at ht with hw
    obtain ⟨call, hcall, rfl⟩ := Option.map_eq_some_iff.mp ht
    exact h.other (by simpa using hw) hcall

theorem of_reachable (h : (system c).Reachable s) : UploadInv c s := by
  refine h.induct (P := UploadInv c) ?_ ?_
  · rintro s ⟨up, budget, hs⟩
    exact start hs
  · rintro s a t hi - ht
    exact hi.step ht

theorem bodyOf_taken (h : UploadInv c s) (hend : .End ∈ s.call.channel.request.taken) :
    bodyOf s.call.channel.request.taken = c.body.content := by
  have hall := Tracked.taken_eq_of_terminal hend rfl
  have hended : s.call.channel.request.stream.ended = true := by
    rw [← Tracked.any_terminal, ← hall, List.any_eq_true]
    exact ⟨.End, hend, rfl⟩
  rw [hall]
  exact h.going.whole hended

/-- The length goes with a body that was read to its end. -/
theorem lengths_ahead {fs : Fields} (hl : c.lengthless)
    (hf : fields c.text c.cluster c.method c.path c.headers
      (if c.ahead.2.isSome then none else c.ahead.1) = .ok fs) :
    lengths fs = if c.body.content ≠ [] ∧ c.ahead.2 = none then
      [("content-length", utf8 (toString c.body.content.length))] else [] := by
  have hcontent := ahead_content c
  rw [fields_lengths hl hf]
  cases hrest : c.ahead.2 with
  | some pieces =>
    rw [Option.isSome_some, if_pos rfl, if_neg (by rintro ⟨-, ⟨⟩⟩)]
    rfl
  | none =>
    rw [hrest, Option.getD_none, List.flatten_nil, List.append_nil] at hcontent
    rw [Option.isSome_none, if_neg Bool.false_ne_true]
    cases hread : c.ahead.1 with
    | none =>
      rw [if_neg (fun h => h.1 ((ahead_none_iff c).mp hread))]
      rfl
    | some read =>
      have hne : c.body.content ≠ [] := by
        intro hnil
        rw [(ahead_none_iff c).mpr hnil] at hread
        cases hread
      rw [hread, Option.getD_some] at hcontent
      rw [if_pos ⟨hne, rfl⟩, ← hcontent]
      rfl

end UploadInv

/-- **An uploaded body goes up whole, once and framed as it is.** Where Envoy is given the end of the
stream it was given the content of the body; the stream is started with its end for an empty body alone,
and for every one unless a fiber closed the stream; and its length goes with a body that is not empty
and was read to its end. -/
theorem upload_whole {c : Call} {s : State} (h : (system c).Reachable s) :
    (endGiven s.call.requests = true → given s.call.requests = c.body.content) ∧
      ∀ n cluster headers body endStream timeout,
        .start n cluster headers body endStream timeout ∈ s.call.requests →
          (endStream = true → c.body.content = []) ∧
          (s.call.channel.response.stream.cancelled = false → c.body.content = [] →
            endStream = true) ∧
          (c.lengthless → lengths headers =
            if c.body.content ≠ [] ∧ c.ahead.2 = none then
              [("content-length", utf8 (toString c.body.content.length))] else []) := by
  have hi := UploadInv.of_reachable h
  obtain ⟨fs, up, hf, hframed⟩ := hi.framed
  refine ⟨fun hend => ?_, fun n cluster headers body endStream timeout hmem => ⟨?_, ?_, ?_⟩⟩
  · rw [hframed.given]
    exact hi.bodyOf_taken (hframed.ended hend)
  · intro hend
    have hone := (hframed.starts _ _ _ _ _ _ hmem).2 hend
    rw [← hi.bodyOf_taken (by rw [hone]; exact List.mem_singleton_self _), hone]
    rfl
  · intro hcan hnil
    rcases (hi.bodiless hnil).starts _ _ _ _ _ _ hmem with hend | hclosed
    · exact hend
    · rw [hcan] at hclosed
      cases hclosed
  · intro hl
    rw [(hframed.starts _ _ _ _ _ _ hmem).1, lengths_withTrace]
    exact UploadInv.lengths_ahead hl hf

/-- A body of two pieces, behind a budget of two bytes. -/
def twoPieces : Call where
  text := asciiText
  cluster := "c"
  method := "POST"
  path := "/"
  headers := []
  timeout := 0
  body := ⟨[[1, 2], [3]], by decide, by decide⟩

/-- The fiber fills the queue, and goes on once the worker has started the stream with what is in it. -/
def uploading : List Action :=
  [.upload, .upload, .other .work, .other .work, .upload, .upload, .upload, .upload,
    .other (.returns .Success), .other .work, .other .work, .other .work, .other .work, .other .work]

theorem upload_whole_twoPieces : ∃ s headers body timeout, (system twoPieces).Reachable s ∧
    s.call.requests =
      [.start 0 "c" headers body false timeout, .send 0 [3] false, .send 0 [] true] ∧
    given s.call.requests = [1, 2, 3] ∧ lengths headers = [("content-length", utf8 (toString 3))] := by
  obtain ⟨fs, hfs⟩ : ∃ fs, fields asciiText "c" "POST" "/" [] (some [1, 2, 3]) = .ok fs := by
    unfold fields
    rw [if_neg (by simp), if_neg (by simp)]
    exact ⟨_, rfl⟩
  let up : Upstream.State := { config := { settings := ⟨10, 2⟩ } }
  let queued : State := ⟨.queue ⟨0, "c", fs, 0⟩ up.readTrace 2 true, none, .test [1, 2, 3]⟩
  have hqueued : twoPieces.start up.readTrace 2 = .ok queued := congrArg (Except.map _) hfs
  obtain ⟨s, hrun, hreq⟩ : ∃ s, (system twoPieces).run queued uploading = some s ∧
      s.call.requests = [.start 0 "c" (withTrace fs up.readTrace) (some [1, 2]) false 0,
        .send 0 [3] false, .send 0 [] true] := ⟨_, rfl, rfl⟩
  have h : (system twoPieces).Reachable s := System.reach_of_run ⟨up, 2, hqueued⟩ hrun
  obtain ⟨hwhole, hstart⟩ := upload_whole h
  rw [hreq] at hwhole hstart
  have hlengths := (hstart _ _ _ _ _ _ List.mem_cons_self).2.2 (by rintro _ ⟨⟩)
  exact ⟨s, _, _, _, h, hreq, by rw [hreq]; exact hwhole rfl, hlengths⟩

end Ruvoy.Streamed.Body
