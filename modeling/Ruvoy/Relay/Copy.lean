import Ruvoy.Relay.Model

/-!
# One direction of a relay

What `copy` keeps from one lock acquisition to the next, whatever the workers do to its two queues.

* `Place.inHand`, `Place.partly`: the piece that is being written;
* `Inv`: what was written, what is in hand, what was dropped and what is buffered are what was taken;
  how far the direction has come says what its queues look like; and a queue holds its variable only
  while the direction waits there;
* `Inv.next`, `Inv.woken`, `Inv.stop`, `Inv.fill`, `Inv.empty`: every step keeps it.
-/

set_option autoImplicit false

namespace Ruvoy

/-! ## What a worker's operation leaves alone -/

namespace Tracked

variable (t : Tracked)

/-- Neither the items that were taken nor the slot change, and a queue that is shut stays shut. -/
structure Later (u t : Tracked) : Prop where
  waiter : u.stream.waiter = t.stream.waiter
  cancelled : t.stream.cancelled = true → u.stream.cancelled = true
  ended : t.stream.ended = true → u.stream.ended = true

/-- All the bytes a queue is ever going to accept were taken. -/
def Emptied : Prop := t.stream.ended = true ∧ bodyOf t.taken = bodyOf t.accepted

/-- A queue nothing more comes from. -/
def Spent : Prop := t.stream.cancelled = true ∨ t.Emptied

/-- A queue that accepts nothing more. -/
def Shut : Prop := t.stream.cancelled = true ∨ t.stream.ended = true

variable {t} {u : Tracked}

theorem Later.shut (h : u.Later t) (hs : t.Shut) : u.Shut := hs.imp h.cancelled h.ended

theorem Same.shut (h : u.Same t) : u.Shut ↔ t.Shut := by
  rw [Shut, Shut, h.cancelled, h.ended]

theorem same_parkWriter (t : Tracked) (w : Variable) : (t.parkWriter w).Same t :=
  ⟨rfl, rfl, ResponseStream.parkWriter_items w, ResponseStream.parkWriter_bytes w,
    ResponseStream.parkWriter_cancelled w, ResponseStream.parkWriter_ended w,
    ResponseStream.parkWriter_paused w⟩

theorem spent_of_finished (h : t.stream.isFinished = true) : t.Spent := by
  have hfin : t.stream.cancelled = true ∨ t.stream.ended = true ∧ t.stream.bufferedBytes = 0 := by
    simpa [ResponseStream.isFinished, ResponseStreamInner.isFinished] using h
  by_cases hc : t.stream.cancelled = true
  · exact Or.inl hc
  · obtain ⟨he, hb⟩ := hfin.resolve_left hc
    refine Or.inr ⟨he, ?_⟩
    rw [← t.conserve (by simpa using hc), bodyOf_append, t.body_nil_of_bytes hb, List.append_nil]

theorem push_waiter (t : Tracked) (x : StreamItem) : (t.push x).stream.waiter = t.stream.waiter :=
  ResponseStream.push_waiter x

theorem later_push (t : Tracked) (x : StreamItem) : (t.push x).Later t := by
  refine ⟨t.push_waiter x, ?_, ?_⟩
  · intro hc
    rw [t.push_of_shut (by rw [hc, Bool.true_or])]
    exact hc
  · intro he
    rw [t.push_of_shut (by rw [he, Bool.or_true])]
    exact he

theorem shut_push_end (t : Tracked) : (t.push .End).Shut := by
  rcases t.push_cases .End with ⟨hs, hq⟩ | ⟨-, -, -, -, hin⟩
  · rw [hq]
    simpa [Shut] using hs
  · right
    rw [hin]
    rfl

end Tracked

namespace Relay

open Exchange (Gate)
open Tracked (Spent Shut Later)

/-- What a worker that fills a queue cannot change. -/
theorem fills_later {op : QueueOp} (h : fills op = true) (t : Tracked) :
    (t.apply op).Later t ∧ (t.apply op).taken = t.taken ∧ (t.Spent → (t.apply op).Spent) := by
  have hshut : ∀ {u : Tracked}, ((t.stream.cancelled || t.stream.ended) = true → u = t) →
      t.Spent → u.Spent := by
    intro u hu hs
    rw [hu]
    · exact hs
    · rcases hs with hc | ⟨he, -⟩
      · rw [hc, Bool.true_or]
      · rw [he, Bool.or_true]
  cases op with
  | pushChunk chunk =>
    exact ⟨t.later_push _, rfl, hshut fun hs => t.push_of_shut hs _⟩
  | pushEnd => exact ⟨t.later_push _, rfl, hshut fun hs => t.push_of_shut hs _⟩
  | pushFailure error => exact ⟨t.later_push _, rfl, hshut fun hs => t.push_of_shut hs _⟩
  | pushChunkWithinBudget bytes =>
    refine ⟨⟨?_, ?_, ?_⟩, rfl, hshut fun hs => t.pushWithinBudget_of_shut hs _⟩
    · exact ResponseStream.pushChunkWithinBudget_waiter bytes
    · exact fun hc => (ResponseStream.pushChunkWithinBudget_cancelled bytes).trans hc
    · exact fun he => (ResponseStream.pushChunkWithinBudget_ended bytes).trans he
  | pushChunkIfRoom chunk =>
    refine ⟨⟨?_, ?_, ?_⟩, rfl, hshut fun hs => t.pushIfRoom_of_shut hs _⟩
    · exact ResponseStream.pushChunkIfRoom_waiter chunk
    · exact fun hc => (ResponseStream.pushChunkIfRoom_cancelled chunk).trans hc
    · exact fun he => (ResponseStream.pushChunkIfRoom_ended chunk).trans he
  | cancel => exact ⟨⟨rfl, fun _ => rfl, id⟩, rfl, fun _ => Or.inl rfl⟩
  | _ => cases h

theorem fills_paused {op : QueueOp} (h : fills op = true) (t : Tracked) :
    (t.apply op).stream.paused = t.stream.paused := by
  cases op with
  | pushChunk chunk => exact ResponseStream.push_paused _
  | pushEnd => exact ResponseStream.push_paused _
  | pushFailure error => exact ResponseStream.push_paused _
  | pushChunkWithinBudget bytes => exact ResponseStream.pushChunkWithinBudget_paused bytes
  | pushChunkIfRoom chunk => exact ResponseStream.pushChunkIfRoom_paused chunk
  | cancel => rfl
  | _ => cases h

/-- What a worker that empties a queue cannot change. -/
theorem empties_later {op : QueueOp} (h : empties op = true) (t : Tracked) :
    (t.apply op).Later t ∧ (t.apply op).accepted = t.accepted := by
  cases op with
  | takeNext =>
    refine ⟨⟨ResponseStream.takeNext_waiter, fun hc => ?_, fun he => ?_⟩, rfl⟩
    · exact ResponseStream.takeNext_cancelled.trans hc
    · exact ResponseStream.takeNext_ended.trans he
  | cancel => exact ⟨⟨rfl, fun _ => rfl, id⟩, rfl⟩
  | setPaused p => exact ⟨⟨rfl, id, id⟩, rfl⟩
  | _ => cases h

/-! ## The invariant -/

/-- What is left of the piece that is being written. -/
def Place.inHand : Place → Bytes
  | .write _ left _ => left
  | _ => []

/-- How much of it was written. -/
def Place.partly : Place → ℕ
  | .write size left _ => size - left.length
  | _ => 0

/-- The direction goes on. -/
def Place.live : Place → Bool
  | .ended _ | .stopped => false
  | _ => true

/-- Every piece was written whole, up to the one in hand. -/
def Place.whole : Place → Bool
  | .ended .refused | .ended (.raised .notOpened) | .stopped => false
  | _ => true

/-- The direction waits at its source, or is about to give the variable back. -/
def Place.atSource : Place → Bool
  | .read .parked | .read .leave | .timingOut .unpark => true
  | _ => false

def Place.atSink : Place → Bool
  | .write _ _ .parked | .write _ _ .leave => true
  | _ => false

/-- `from` has come to its end. -/
structure Copy.AtEnd (c : Copy) : Prop where
  buffer : c.buffer = []
  failure : c.failure = none
  spent : c.source.Spent

theorem Copy.AtEnd.goto {c : Copy} (h : c.AtEnd) (p : Place) : (c.goto p).AtEnd :=
  ⟨h.buffer, h.failure, h.spent⟩

/-- What the place says of the rest of a direction that began as `c₀`. -/
def Fits (c₀ c : Copy) : Place → Prop
  | .timingOut k =>
    c.upstream = true ∧ (k = .cancelRequest → c.source.stream.cancelled = true)
  | .write size left g => left.length ≤ size ∧ (g ≠ .test → left ≠ [])
  | .closeWrite => c.AtEnd
  | .ended .eof => c.AtEnd ∧ c.writeClosed = true
  | .ended .refused => c.readClosed = true ∧ c.sink.Shut
  | .ended (.raised (.failed e)) => c.buffer = [] ∧ c.failure = some e
  | .ended (.raised .timedOut) => c.upstream = true ∧ c.source.stream.cancelled = true
  | .ended (.raised .notOpened) => c₀.readClosed = true ∨ c₀.writeClosed = true
  | .enter | .read _ | .stopped => True

structure Inv (c₀ c : Copy) : Prop where
  carried : ∃ new, c.source.taken = c₀.source.taken ++ new ∧
    bodyOf c.sink.accepted ++ c.place.inHand ++ c.dropped ++ c.buffer =
      bodyOf c₀.sink.accepted ++ c₀.buffer ++ bodyOf new
  grown : c₀.sink.accepted <+: c.sink.accepted
  read : c.bytesRead + (bodyOf c₀.sink.accepted).length =
    c₀.bytesRead + (bodyOf c.sink.accepted ++ c.place.inHand ++ c.dropped).length
  written : c.place.whole = true →
    c.dropped = [] ∧ c.bytesWritten + c.place.partly + (bodyOf c₀.sink.accepted).length =
      c₀.bytesWritten + (bodyOf c.sink.accepted).length
  fits : Fits c₀ c c.place
  opened : c.place.live = true → c.readClosed = c₀.readClosed ∧ c.writeClosed = c₀.writeClosed
  closed : c.writeClosed = true → c.sink.Shut
  failure : ∀ e, c.failure = some e ↔ .Failed e ∈ c.source.taken
  source : c.source.stream.waiter ≠ none → c.place.atSource = true
  sink : c.sink.stream.waiter ≠ none → c.place.atSink = true
  upstream : c.upstream = c₀.upstream
  /-- No more than a piece is in hand, or was given up. -/
  piece : (c.place.inHand ++ c.dropped).length ≤ relayBytes
  counted : c.bytesWritten + (bodyOf c₀.sink.accepted).length ≤
    c₀.bytesWritten + (bodyOf c.sink.accepted).length
  unpaused : c.source.stream.paused = false

theorem Copy.Begins.inv {c : Copy} (h : c.Begins) : Inv c c := by
  refine ⟨⟨[], ?_, ?_⟩, List.prefix_rfl, ?_, ?_, ?_, fun _ => ⟨rfl, rfl⟩, h.closed, h.failure, ?_, ?_,
    rfl, ?_, le_rfl, h.unpaused⟩
  · rw [List.append_nil]
  · rw [h.place, h.dropped]
    simp [Place.inHand]
  · rw [h.place, h.dropped]
    simp [Place.inHand]
  · intro _
    rw [h.place]
    exact ⟨h.dropped, rfl⟩
  · rw [h.place]
    trivial
  · exact fun hw => absurd h.source hw
  · exact fun hw => absurd h.sink hw
  · rw [h.place, h.dropped]
    exact Nat.zero_le _

namespace Inv

variable {c₀ c : Copy}

/-! ## Steps that move no bytes -/

/-- What a step from `p₀` to `p` keeps, when the queues differ at most in their slots. -/
theorem move (h : Inv c₀ c) {q r : Tracked} {p₀ p : Place} (hp₀ : c.place = p₀)
    (hq : q.Same c.source) (hr : r.Same c.sink) (hhand : p.inHand = p₀.inHand)
    (hpart : p.partly = p₀.partly) (hwhole : p.whole = true → p₀.whole = true)
    (hlive : p.live = true → p₀.live = true)
    (hfits : Fits c₀ c p₀ → Fits c₀ { c with source := q, sink := r, place := p } p)
    (hsource : q.stream.waiter ≠ none → p.atSource = true)
    (hsink : r.stream.waiter ≠ none → p.atSink = true) :
    Inv c₀ { c with source := q, sink := r, place := p } := by
  subst hp₀
  obtain ⟨new, htaken, hcarried⟩ := h.carried
  refine ⟨⟨new, hq.taken.trans htaken, ?_⟩, ?_, ?_, fun hp => ?_, hfits h.fits, fun hp => ?_,
    fun hw => ?_, fun e => ?_, hsource, hsink, h.upstream, ?_, ?_, hq.paused.trans h.unpaused⟩
  · show bodyOf r.accepted ++ p.inHand ++ c.dropped ++ c.buffer = _
    rw [hr.accepted, hhand]
    exact hcarried
  · exact hr.accepted ▸ h.grown
  · show c.bytesRead + _ = c₀.bytesRead + (bodyOf r.accepted ++ p.inHand ++ c.dropped).length
    rw [hr.accepted, hhand]
    exact h.read
  · obtain ⟨hdropped, hcount⟩ := h.written (hwhole hp)
    refine ⟨hdropped, ?_⟩
    show c.bytesWritten + p.partly + _ = c₀.bytesWritten + (bodyOf r.accepted).length
    rw [hr.accepted, hpart]
    exact hcount
  · exact h.opened (hlive hp)
  · exact hr.shut.mpr (h.closed hw)
  · show c.failure = some e ↔ .Failed e ∈ q.taken
    rw [hq.taken]
    exact h.failure e
  · show (p.inHand ++ c.dropped).length ≤ relayBytes
    rw [hhand]
    exact h.piece
  · show c.bytesWritten + _ ≤ c₀.bytesWritten + (bodyOf r.accepted).length
    rw [hr.accepted]
    exact h.counted

theorem goto (h : Inv c₀ c) {p₀ p : Place} (hp₀ : c.place = p₀) (hhand : p.inHand = p₀.inHand)
    (hpart : p.partly = p₀.partly) (hwhole : p.whole = true → p₀.whole = true)
    (hlive : p.live = true → p₀.live = true) (hfits : Fits c₀ c p₀ → Fits c₀ (c.goto p) p)
    (hsource : p₀.atSource = true → p.atSource = true)
    (hsink : p₀.atSink = true → p.atSink = true) : Inv c₀ (c.goto p) := by
  refine h.move hp₀ (.refl _) (.refl _) hhand hpart hwhole hlive hfits (fun hw => hsource ?_)
    fun hw => hsink ?_
  · rw [← hp₀]
    exact h.source hw
  · rw [← hp₀]
    exact h.sink hw

/-! ## Steps of the workers -/

theorem fits_source {q : Tracked} (hq : q.Later c.source) (hspent : c.source.Spent → q.Spent)
    {p : Place} (h : Fits c₀ c p) : Fits c₀ { c with source := q } p := by
  have hend : c.AtEnd → Copy.AtEnd { c with source := q } := fun h =>
    ⟨h.buffer, h.failure, hspent h.spent⟩
  cases p with
  | timingOut k => exact ⟨h.1, fun hk => hq.cancelled (h.2 hk)⟩
  | closeWrite => exact hend h
  | ended e =>
    cases e with
    | eof => exact ⟨hend h.1, h.2⟩
    | refused => exact h
    | raised error =>
      cases error with
      | timedOut => exact ⟨h.1, hq.cancelled h.2⟩
      | _ => exact h
  | _ => exact h

theorem fits_sink {r : Tracked} (hr : r.Later c.sink) {p : Place} (h : Fits c₀ c p) :
    Fits c₀ { c with sink := r } p := by
  have hend : c.AtEnd → Copy.AtEnd { c with sink := r } := fun h => ⟨h.buffer, h.failure, h.spent⟩
  cases p with
  | closeWrite => exact hend h
  | ended e =>
    cases e with
    | eof => exact ⟨hend h.1, h.2⟩
    | refused => exact ⟨h.1, hr.shut h.2⟩
    | raised error => cases error <;> exact h
  | _ => exact h

/-- **A worker fills the source.** -/
theorem fill (h : Inv c₀ c) {o : QueueOp} (hop : fills o = true) :
    Inv c₀ { c with source := c.source.apply o } := by
  obtain ⟨hlater, htaken, hspent⟩ := fills_later hop c.source
  refine ⟨?_, h.grown, h.read, h.written, fits_source hlater hspent h.fits, h.opened, h.closed,
    fun e => ?_, fun hw => ?_, h.sink, h.upstream, h.piece, h.counted,
    (fills_paused hop c.source).trans h.unpaused⟩
  · show ∃ new, (c.source.apply o).taken = _ ∧ _
    rw [htaken]
    exact h.carried
  · show c.failure = some e ↔ .Failed e ∈ (c.source.apply o).taken
    rw [htaken]
    exact h.failure e
  · exact h.source (by rwa [← hlater.waiter])

/-- **A worker empties the sink.** -/
theorem empty (h : Inv c₀ c) {o : QueueOp} (hop : empties o = true) :
    Inv c₀ { c with sink := c.sink.apply o } := by
  obtain ⟨hlater, haccepted⟩ := empties_later hop c.sink
  obtain ⟨new, htaken, hcarried⟩ := h.carried
  refine ⟨⟨new, htaken, ?_⟩, haccepted ▸ h.grown, ?_, fun hp => ?_, fits_sink hlater h.fits, h.opened,
    fun hw => hlater.shut (h.closed hw), h.failure, h.source, fun hw => ?_, h.upstream, h.piece, ?_,
    h.unpaused⟩
  · show bodyOf (c.sink.apply o).accepted ++ _ ++ _ ++ _ = _
    rw [haccepted]
    exact hcarried
  · show _ = c₀.bytesRead + (bodyOf (c.sink.apply o).accepted ++ _ ++ _).length
    rw [haccepted]
    exact h.read
  · show _ ∧ _ = c₀.bytesWritten + (bodyOf (c.sink.apply o).accepted).length
    rw [haccepted]
    exact h.written hp
  · exact h.sink (by rwa [← hlater.waiter])
  · show _ ≤ c₀.bytesWritten + (bodyOf (c.sink.apply o).accepted).length
    rw [haccepted]
    exact h.counted

/-! ## Steps of the direction -/

theorem took (h : Inv c₀ c) (hp : c.place = .read .take) (hf : c.failure = none) {x : StreamItem}
    (htake : c.source.takeNext.taken = c.source.taken ++ [x]) {f : Option BridgeError} {g : Gate}
    (hg : g = .take ∨ g = .check) (hfail : ∀ e, f = some e ↔ x = .Failed e) :
    Inv c₀ { c with
      source := c.source.takeNext, buffer := c.buffer ++ x.bytes, failure := f, place := .read g } := by
  obtain ⟨new, htaken, hcarried⟩ := h.carried
  have hwait : c.source.takeNext.stream.waiter = c.source.stream.waiter :=
    ResponseStream.takeNext_waiter
  refine ⟨⟨new ++ [x], ?_, ?_⟩, h.grown, ?_, fun _ => ?_, ?_, fun _ => ?_, h.closed, fun e => ?_,
    fun hw => ?_, fun hw => ?_, h.upstream, ?_, h.counted,
    ResponseStream.takeNext_paused.trans h.unpaused⟩
  · show c.source.takeNext.taken = _
    rw [htake, htaken, List.append_assoc]
  · show bodyOf c.sink.accepted ++ [] ++ c.dropped ++ (c.buffer ++ x.bytes) = _
    rw [hp] at hcarried
    rw [← List.append_assoc,
      show bodyOf c.sink.accepted ++ [] ++ c.dropped ++ c.buffer = _ from hcarried]
    simp
  · have hread := h.read
    rw [hp] at hread
    exact hread
  · have hwritten := h.written (by rw [hp]; rfl)
    rw [hp] at hwritten
    exact hwritten
  · rcases hg with rfl | rfl <;> trivial
  · exact h.opened (by rw [hp]; rfl)
  · show f = some e ↔ .Failed e ∈ c.source.takeNext.taken
    rw [htake, hfail, List.mem_append, ← h.failure, hf]
    simp [eq_comm]
  · exact absurd (h.source (by rwa [← hwait])) (by rw [hp]; rintro ⟨⟩)
  · exact absurd (h.sink hw) (by rw [hp]; rintro ⟨⟩)
  · have hpiece := h.piece
    rw [hp] at hpiece
    exact hpiece

theorem drain (h : Inv c₀ c) (hp : c.place = .read .take) : Inv c₀ c.drain := by
  have hcheck : Inv c₀ (c.goto (.read .check)) := h.goto hp rfl rfl id id id id id
  unfold Copy.drain
  split_ifs with hf
  · exact hcheck
  · have hnone : c.failure = none := by simpa using hf
    rcases c.source.takeNext_cases with ⟨-, hno, hq⟩ | ⟨x, rest, -, hx, -, htake, -⟩
    · simp only [hno, hq]
      exact hcheck
    · simp only [hx]
      cases x with
      | Chunk chunk =>
        have := h.took hp hnone htake (f := none) (Or.inl rfl) (by simp)
        rw [← hnone, ← hp] at this
        exact this
      | Failed error =>
        have := h.took hp hnone htake (f := some error) (Or.inr rfl) (by simp)
        simp only [bytes_failed, List.append_nil] at this
        exact this
      | End =>
        have := h.took hp hnone htake (f := none) (Or.inr rfl) (by simp)
        rw [← hnone] at this
        simp only [bytes_end, List.append_nil] at this
        exact this
      | Head head =>
        have := h.took hp hnone htake (f := none) (Or.inr rfl) (by simp)
        rw [← hnone] at this
        simp only [bytes_head, List.append_nil] at this
        exact this

theorem send (h : Inv c₀ c) (hp : c.place = .read .check) {n : ℕ} (hn : n ≤ relayBytes) :
    Inv c₀ (Copy.send { c with
      buffer := c.buffer.drop n, bytesRead := c.bytesRead + (c.buffer.take n).length }
      (c.buffer.take n)) := by
  obtain ⟨new, htaken, hcarried⟩ := h.carried
  obtain ⟨hdropped, hcount⟩ := h.written (by rw [hp]; rfl)
  obtain ⟨-, hwrite⟩ := h.opened (by rw [hp]; rfl)
  have hread := h.read
  rw [hp] at hcarried hread hcount
  rw [hdropped] at hcarried hread
  simp only [Place.inHand, Place.partly, List.append_nil] at hcarried hread hcount
  have hsource : c.source.stream.waiter = none := by
    by_contra hw
    have := h.source hw
    rw [hp] at this
    cases this
  have hsink : c.sink.stream.waiter = none := by
    by_contra hw
    have := h.sink hw
    rw [hp] at this
    cases this
  have hsplit : bodyOf c.sink.accepted ++ c.buffer.take n ++ c.buffer.drop n =
      bodyOf c₀.sink.accepted ++ c₀.buffer ++ bodyOf new := by
    rw [List.append_assoc, List.take_append_drop, hcarried]
  have hpiece : (c.buffer.take n).length ≤ relayBytes := (List.length_take_le _ _).trans hn
  unfold Copy.send
  simp only
  split_ifs with hw
  · refine ⟨⟨new, htaken, ?_⟩, h.grown, ?_, fun hf => ?_, Or.inr (hwrite.symm.trans hw), fun hf => ?_,
      h.closed, h.failure, fun hf => absurd hsource hf, fun hf => absurd hsink hf, h.upstream, hpiece,
      h.counted, h.unpaused⟩
    · simpa only [Copy.goto, Place.inHand, List.append_nil] using hsplit
    · simp only [Copy.goto, Place.inHand, List.append_nil, List.length_append]
      omega
    · cases hf
    · cases hf
  · refine ⟨⟨new, htaken, ?_⟩, h.grown, ?_, fun _ => ⟨hdropped, ?_⟩,
      ⟨le_rfl, fun hf => absurd rfl hf⟩, fun _ => h.opened (by rw [hp]; rfl), h.closed, h.failure,
      fun hf => absurd hsource hf, fun hf => absurd hsink hf, h.upstream, ?_, h.counted, h.unpaused⟩
    · simpa only [Copy.goto, Place.inHand, hdropped, List.append_nil] using hsplit
    · simp only [Copy.goto, Place.inHand, hdropped, List.append_nil, List.length_append]
      omega
    · simp only [Copy.goto, Place.partly, Nat.sub_self]
      omega
    · simpa only [Copy.goto, Place.inHand, hdropped, List.append_nil] using hpiece

theorem atEnd (hb : c.buffer = []) (hf : c.failure = none) (hfin : c.finished = true) :
    c.AtEnd := by
  refine ⟨hb, hf, Tracked.spent_of_finished ?_⟩
  simpa [Copy.finished, hf] using hfin

theorem check (h : Inv c₀ c) (hp : c.place = .read .check) : Inv c₀ c.check := by
  unfold Copy.check Copy.answer
  by_cases hb : c.buffer = []
  · simp only [hb, List.isEmpty_nil, Bool.not_true, Bool.false_or, if_true]
    split_ifs with hfin
    · cases hf : c.failure with
      | none =>
        rw [Option.elim_none]
        exact h.goto hp rfl rfl id id (fun _ => (atEnd hb hf hfin).goto _) id id
      | some error =>
        rw [Option.elim_some]
        exact h.goto hp rfl rfl (fun _ => rfl) (fun _ => rfl) (fun _ => ⟨hb, hf⟩) id id
    · exact h.goto hp rfl rfl id id id id id
  · have hne : c.buffer.isEmpty = false := by simpa using hb
    simp only [hne, Bool.not_false, Bool.true_or, if_true, Bool.false_eq_true, if_false]
    exact h.send hp le_rfl

theorem writeStep (h : Inv c₀ c) {size : ℕ} {left : Bytes} (hp : c.place = .write size left .write) :
    Inv c₀ (c.writeStep size left) := by
  obtain ⟨new, htaken, hcarried⟩ := h.carried
  obtain ⟨hdropped, hcount⟩ := h.written (by rw [hp]; rfl)
  have hread := h.read
  have hfits := h.fits
  rw [hp] at hcarried hread hcount hfits
  rw [hdropped] at hcarried hread
  simp only [Place.inHand, Place.partly, List.append_nil, List.length_append] at hcarried hread hcount
  have hsource : c.source.stream.waiter = none := by
    by_contra hw
    have := h.source hw
    rw [hp] at this
    cases this
  have hsink : (c.sink.pushWithinBudget left).stream.waiter = none := by
    refine (ResponseStream.pushChunkWithinBudget_waiter left).trans ?_
    by_contra hw
    have := h.sink hw
    rw [hp] at this
    cases this
  have hbody := c.sink.pushWithinBudget_body left
  have hpiece : left.length ≤ relayBytes := by
    have := h.piece
    rwa [hp, hdropped, Place.inHand, List.append_nil] at this
  unfold Copy.writeStep
  cases htook : (c.sink.stream.pushChunkWithinBudget left).1 with
  | none =>
    have hshut : c.sink.Shut := by
      rcases c.sink.stream.pushChunkWithinBudget_cases left with
        ⟨⟨-, hs⟩ | hsome, -⟩ | ⟨n, -, -, -, -, -, hsome, -⟩
      · simpa [Tracked.Shut] using hs
      · rw [htook] at hsome
        cases hsome
      · rw [htook] at hsome
        cases hsome
    have hsame : c.sink.pushWithinBudget left = c.sink :=
      Tracked.pushWithinBudget_of_shut (by simpa [Tracked.Shut] using hshut) left
    rw [hsame] at hsink
    simp only [hsame]
    refine ⟨⟨new, htaken, ?_⟩, h.grown, ?_, fun hf => ?_, ⟨rfl, hshut⟩, fun hf => ?_, h.closed,
      h.failure, fun hf => absurd hsource hf, fun hf => absurd hsink hf, h.upstream, hpiece, h.counted,
      h.unpaused⟩
    · simpa only [Copy.goto, Place.inHand, List.append_nil] using hcarried
    · simp only [Copy.goto, Place.inHand, List.append_nil, List.length_append]
      omega
    · cases hf
    · cases hf
  | some taken =>
    have hle : taken ≤ left.length := by
      rcases c.sink.stream.pushChunkWithinBudget_cases left with
        ⟨⟨hno, -⟩ | hsome, -⟩ | ⟨n, -, -, hn, -, -, hsome, -⟩
      · rw [htook] at hno
        cases hno
      · rw [htook] at hsome
        cases hsome
        exact Nat.zero_le _
      · rw [htook] at hsome
        cases hsome
        exact hn
    rw [htook, Option.getD_some] at hbody
    have hsplit : left.take taken ++ left.drop taken = left := List.take_append_drop _ _
    have hgrown : c₀.sink.accepted <+: (c.sink.pushWithinBudget left).accepted := by
      rcases c.sink.pushWithinBudget_cases left with hsame | ⟨chunk, hmore⟩
      · exact hsame ▸ h.grown
      · exact hmore ▸ h.grown.trans (List.prefix_append _ _)
    refine ⟨⟨new, htaken, ?_⟩, hgrown, ?_, fun _ => ⟨hdropped, ?_⟩, ⟨?_, fun hf => absurd rfl hf⟩,
      fun _ => h.opened (by rw [hp]; rfl), fun hw => ?_, h.failure, fun hf => absurd hsource hf,
      fun hf => absurd hsink hf, h.upstream, ?_, ?_, h.unpaused⟩
    · simp only [Copy.goto, Place.inHand, hdropped, List.append_nil]
      rw [hbody, List.append_assoc (bodyOf c.sink.accepted), hsplit]
      exact hcarried
    · simp only [Copy.goto, Place.inHand, hdropped, List.append_nil]
      rw [hbody, List.append_assoc, hsplit, List.length_append]
      exact hread
    · simp only [Copy.goto, Place.partly, hbody, List.length_append, List.length_take, List.length_drop]
      have := hfits.1
      omega
    · rw [List.length_drop]
      have := hfits.1
      omega
    · have hshut := h.closed hw
      show (c.sink.pushWithinBudget left).Shut
      rw [Tracked.pushWithinBudget_of_shut (by simpa [Tracked.Shut] using hshut)]
      exact hshut
    · simp only [Copy.goto, Place.inHand, hdropped, List.append_nil, List.length_drop]
      omega
    · simp only [Copy.goto, hbody, List.length_append]
      have := h.counted
      omega

/-- `close_write`, by a direction that is over with it or after it. -/
theorem closeWrite (h : Inv c₀ c) {p₀ p : Place} (hp₀ : c.place = p₀) (hhand : p.inHand = p₀.inHand)
    (hpart : p.partly = p₀.partly) (hwhole : p.whole = true → p₀.whole = true) (hlive : p.live = false)
    (hfits : Fits c₀ c p₀ → Fits c₀ (c.closeWrite.goto p) p)
    (hsource : p₀.atSource = true → p.atSource = true)
    (hsink : p₀.atSink = true → p.atSink = true) : Inv c₀ (c.closeWrite.goto p) := by
  by_cases hw : c.writeClosed = true
  · have hsame : c.closeWrite = c := by rw [Copy.closeWrite, if_pos hw]
    rw [hsame] at hfits ⊢
    exact h.goto hp₀ hhand hpart hwhole (fun hl => absurd hl (by rw [hlive]; decide)) hfits hsource hsink
  · have hend : c.closeWrite = { c with writeClosed := true, sink := c.sink.push .End } := by
      rw [Copy.closeWrite, if_neg hw]
    rw [hend] at hfits ⊢
    subst hp₀
    have hbody : bodyOf (c.sink.push .End).accepted = bodyOf c.sink.accepted := by
      rcases c.sink.push_cases .End with ⟨-, hq⟩ | ⟨-, -, hq, -⟩
      · rw [hq]
      · rw [hq, bodyOf_append, bodyOf_cons, bytes_end, bodyOf_nil, List.append_nil, List.append_nil]
    have hgrown : c₀.sink.accepted <+: (c.sink.push .End).accepted := by
      rcases c.sink.push_cases .End with ⟨-, hq⟩ | ⟨-, -, hq, -⟩
      · exact hq.symm ▸ h.grown
      · exact hq ▸ h.grown.trans (List.prefix_append _ _)
    obtain ⟨new, htaken, hcarried⟩ := h.carried
    refine ⟨⟨new, htaken, ?_⟩, hgrown, ?_, fun hf => ?_, hfits h.fits, fun hf => ?_,
      fun _ => c.sink.shut_push_end, h.failure, fun hf => hsource (h.source hf), fun hf => ?_,
      h.upstream, ?_, ?_, h.unpaused⟩
    · simp only [Copy.goto, hbody, hhand]
      exact hcarried
    · simp only [Copy.goto, hbody, hhand]
      exact h.read
    · simp only [Copy.goto, hbody, hpart]
      exact h.written (hwhole hf)
    · rw [show (Copy.goto _ p).place.live = p.live from rfl, hlive] at hf
      cases hf
    · refine hsink (h.sink ?_)
      rw [← c.sink.push_waiter .End]
      exact hf
    · simp only [Copy.goto, hhand]
      exact h.piece
    · simp only [Copy.goto, hbody]
      exact h.counted

theorem closeRead (h : Inv c₀ c) (hlive : c.place.live = false) :
    Inv c₀ { c with readClosed := true } := by
  refine ⟨h.carried, h.grown, h.read, h.written, ?_, fun hf => ?_, h.closed, h.failure, h.source,
    h.sink, h.upstream, h.piece, h.counted, h.unpaused⟩
  · have hfits := h.fits
    show Fits c₀ { c with readClosed := true } c.place
    cases hp : c.place with
    | ended e =>
      rw [hp] at hfits
      cases e with
      | eof => exact ⟨⟨hfits.1.buffer, hfits.1.failure, hfits.1.spent⟩, hfits.2⟩
      | refused => exact ⟨rfl, hfits.2⟩
      | raised error => cases error <;> exact hfits
    | stopped => trivial
    | _ => rw [hp] at hlive; cases hlive
  · rw [show Place.live _ = c.place.live from rfl, hlive] at hf
    cases hf

theorem wrote (h : Inv c₀ c) {size : ℕ} (hp : c.place = .write size [] .test) :
    Inv c₀ ({ c with bytesWritten := c.bytesWritten + size }.goto .enter) := by
  obtain ⟨new, htaken, hcarried⟩ := h.carried
  obtain ⟨hdropped, hcount⟩ := h.written (by rw [hp]; rfl)
  have hread := h.read
  have hsource := h.source
  have hsink := h.sink
  have hpiece := h.piece
  rw [hp] at hcarried hread hcount hsource hsink hpiece
  refine ⟨⟨new, htaken, hcarried⟩, h.grown, hread, fun _ => ⟨hdropped, ?_⟩, trivial,
    fun _ => h.opened (by rw [hp]; rfl), h.closed, h.failure, hsource, hsink, h.upstream, hpiece, ?_,
    h.unpaused⟩
  all_goals
    simp only [Place.partly, Copy.goto, List.length_nil, Nat.sub_zero] at hcount ⊢
    omega

theorem enter (h : Inv c₀ c) (hp : c.place = .enter) :
    Inv c₀ (c.goto (if c.readClosed then .ended (.raised .notOpened) else .read .take)) := by
  have hopened := (h.opened (by rw [hp]; rfl)).1
  split_ifs with hr
  · exact h.goto hp rfl rfl (fun hw => by cases hw) (fun hl => by cases hl)
      (fun _ => Or.inl (hopened.symm.trans hr)) id id
  · exact h.goto hp rfl rfl id id id id id

/-- `Park.on` at the source: the queue holds the variable or refuses it. -/
theorem readPark (h : Inv c₀ c) (hp : c.place = .read .park) :
    Inv c₀ ({ c with source := c.source.park Copy.fiberVariable }.goto
      (.read (if (c.source.stream.park Copy.fiberVariable).1 then .parked else .take))) := by
  have hsink : c.sink.stream.waiter ≠ none → (Place.read .park).atSink = true := hp ▸ h.sink
  have hsource : c.source.stream.waiter ≠ none → (Place.read .park).atSource = true := hp ▸ h.source
  have hsame := c.source.same_park Copy.fiberVariable
  rcases c.source.stream.park_cases Copy.fiberVariable with ⟨-, hno⟩ | ⟨-, -, -, hyes, -⟩
  · rw [hno]
    refine h.move hp hsame (.refl _) rfl rfl id id id (fun hw => hsource ?_) hsink
    rw [← show (c.source.stream.park Copy.fiberVariable).2 = c.source.stream by rw [hno]]
    exact hw
  · rw [hyes]
    exact h.move hp hsame (.refl _) rfl rfl id id id (fun _ => rfl) hsink

theorem readUnpark (h : Inv c₀ c) {p₀ p : Place} (hp₀ : c.place = p₀) (hhand : p.inHand = p₀.inHand)
    (hpart : p.partly = p₀.partly) (hwhole : p.whole = true → p₀.whole = true)
    (hlive : p.live = true → p₀.live = true)
    (hfits : Fits c₀ c p₀ → Fits c₀ { c with source := c.source.unpark, place := p } p)
    (hsink : p₀.atSink = true → p.atSink = true) :
    Inv c₀ ({ c with source := c.source.unpark }.goto p) :=
  h.move hp₀ c.source.same_unpark (.refl _) hhand hpart hwhole hlive hfits (fun hw => absurd rfl hw)
    fun hw => hsink (hp₀ ▸ h.sink hw)

theorem writeTest (h : Inv c₀ c) {size : ℕ} {left : Bytes} (hp : c.place = .write size left .test)
    (hne : left ≠ []) :
    Inv c₀ (c.goto (.write size left (if c.sink.stream.isSaturated then .park else .write))) := by
  split_ifs
  · exact h.goto hp rfl rfl id id (fun hf => ⟨hf.1, fun _ => hne⟩) id id
  · exact h.goto hp rfl rfl id id (fun hf => ⟨hf.1, fun _ => hne⟩) id id

theorem writePark (h : Inv c₀ c) {size : ℕ} {left : Bytes} (hp : c.place = .write size left .park) :
    Inv c₀ ({ c with sink := c.sink.parkWriter Copy.fiberVariable }.goto
      (.write size left
        (if (c.sink.stream.parkWriter Copy.fiberVariable).1 then .parked else .write))) := by
  have hsource : c.source.stream.waiter ≠ none → (Place.write size left .park).atSource = true :=
    hp ▸ h.source
  have hsink : c.sink.stream.waiter ≠ none → (Place.write size left .park).atSink = true := hp ▸ h.sink
  have hsame := c.sink.same_parkWriter Copy.fiberVariable
  have hne : Fits c₀ c (.write size left .park) → left ≠ [] := fun hf => hf.2 (by decide)
  rcases c.sink.stream.parkWriter_cases Copy.fiberVariable with ⟨-, hno⟩ | ⟨-, -, hyes, -⟩
  · rw [hno]
    refine h.move hp (.refl _) hsame rfl rfl id id (fun hf => ⟨hf.1, fun _ => hne hf⟩) hsource
      fun hw => hsink ?_
    rw [← show (c.sink.stream.parkWriter Copy.fiberVariable).2 = c.sink.stream by rw [hno]]
    exact hw
  · rw [hyes]
    exact h.move hp (.refl _) hsame rfl rfl id id (fun hf => ⟨hf.1, fun _ => hne hf⟩) hsource
      fun _ => rfl

theorem writeUnpark (h : Inv c₀ c) {size : ℕ} {left : Bytes} (hp : c.place = .write size left .leave) :
    Inv c₀ ({ c with sink := c.sink.unpark }.goto (.write size left .write)) :=
  h.move hp (.refl _) c.sink.same_unpark rfl rfl id id (fun hf => ⟨hf.1, fun _ => hf.2 (by decide)⟩)
    (hp ▸ h.source) fun hw => absurd rfl hw

theorem endWrite (h : Inv c₀ c) (hp : c.place = .closeWrite) :
    Inv c₀ (c.closeWrite.goto (.ended .eof)) := by
  refine h.closeWrite hp rfl rfl id rfl (fun hf => ?_) id id
  unfold Copy.closeWrite
  split_ifs with hw
  · exact ⟨hf.goto _, hw⟩
  · exact ⟨⟨hf.buffer, hf.failure, hf.spent⟩, rfl⟩

/-- **Every step of `copy` keeps the invariant.** -/
theorem next (h : Inv c₀ c) {d : Copy} (ht : c.next = some d) : Inv c₀ d := by
  unfold Copy.next at ht
  split at ht
  · rename_i hp
    cases ht
    exact h.enter hp
  · rename_i hp
    cases ht
    exact h.drain hp
  · rename_i hp
    cases ht
    exact h.check hp
  · rename_i hp
    cases ht
    exact h.readPark hp
  · rename_i hp
    cases ht
    exact h.readUnpark hp rfl rfl id id id id
  · rename_i hp
    cases ht
    exact h.readUnpark hp rfl rfl id id (fun hf => ⟨hf.1, by rintro ⟨⟩⟩) id
  · rename_i hp
    cases ht
    exact (h.fill (o := .cancel) rfl).goto hp rfl rfl id id (fun hf => ⟨hf.1, fun _ => rfl⟩) id id
  · rename_i hp
    cases ht
    exact h.goto hp rfl rfl (fun _ => rfl) (fun hl => by cases hl) (fun hf => ⟨hf.1, hf.2 rfl⟩) id id
  · rename_i hp
    cases ht
    exact h.wrote hp
  · rename_i hne hp
    cases ht
    exact h.writeTest hp fun hnil => hne hnil
  · rename_i hp
    cases ht
    exact h.writePark hp
  · rename_i hp
    cases ht
    exact h.writeUnpark hp
  · rename_i hp
    cases ht
    exact h.writeStep hp
  · rename_i hp
    cases ht
    exact h.endWrite hp
  all_goals cases ht

theorem woken (h : Inv c₀ c) {d : Copy} (ht : c.woken = some d) : Inv c₀ d := by
  unfold Copy.woken at ht
  split at ht
  · rename_i hp
    cases ht
    exact h.goto hp rfl rfl id id id id id
  · rename_i size left hp
    cases ht
    exact h.goto hp rfl rfl id id (fun hf => ⟨hf.1, fun _ => hf.2 (by decide)⟩) id id
  · cases ht

theorem timeOut (h : Inv c₀ c) (hp : c.place = .read .parked) (hu : c.upstream = true) :
    Inv c₀ (c.goto (.timingOut .unpark)) :=
  h.goto hp rfl rfl id id (fun _ => ⟨hu, by rintro ⟨⟩⟩) id id

/-- A direction that goes on has dropped nothing. -/
theorem dropped (h : Inv c₀ c) (hlive : c.place.live = true) : c.dropped = [] := by
  refine (h.written ?_).1
  cases hp : c.place with
  | ended e => rw [hp] at hlive; cases hlive
  | stopped => rw [hp] at hlive; cases hlive
  | _ => rfl

/-- A queue has no variable where the direction does not wait. -/
theorem source_idle (h : Inv c₀ c) (hp : c.place.atSource = false) : c.source.stream.waiter = none := by
  by_contra hw
  have hat := h.source hw
  rw [hp] at hat
  cases hat

theorem sink_idle (h : Inv c₀ c) (hp : c.place.atSink = false) : c.sink.stream.waiter = none := by
  by_contra hw
  have hat := h.sink hw
  rw [hp] at hat
  cases hat

/-- What a stop leaves: the piece in hand is dropped. -/
theorem stopped (h : Inv c₀ c) (hlive : c.place.live = true) {q r : Tracked} {l : Bytes}
    (hq : q.Same c.source) (hr : r.Same c.sink) (hsource : q.stream.waiter = none)
    (hsink : r.stream.waiter = none) (hl : l = c.place.inHand) :
    Inv c₀ { c with source := q, sink := r, place := .stopped, dropped := l } := by
  have hdropped := h.dropped hlive
  obtain ⟨new, htaken, hcarried⟩ := h.carried
  have hread := h.read
  rw [hdropped, List.append_nil, ← hl] at hcarried hread
  refine ⟨⟨new, hq.taken.trans htaken, ?_⟩, hr.accepted ▸ h.grown, ?_, fun hf => ?_, trivial,
    fun hf => ?_, fun hw => hr.shut.mpr (h.closed hw), fun e => ?_, fun hf => absurd hsource hf,
    fun hf => absurd hsink hf, h.upstream, ?_, ?_, hq.paused.trans h.unpaused⟩
  · show bodyOf r.accepted ++ [] ++ l ++ c.buffer = _
    rw [hr.accepted, List.append_nil]
    exact hcarried
  · show c.bytesRead + _ = c₀.bytesRead + (bodyOf r.accepted ++ [] ++ l).length
    rw [hr.accepted, List.append_nil]
    exact hread
  · cases hf
  · cases hf
  · show c.failure = some e ↔ .Failed e ∈ q.taken
    rw [hq.taken]
    exact h.failure e
  · show l.length ≤ relayBytes
    have hpiece := h.piece
    rwa [hdropped, List.append_nil, ← hl] at hpiece
  · show c.bytesWritten + _ ≤ c₀.bytesWritten + (bodyOf r.accepted).length
    rw [hr.accepted]
    exact h.counted

/-- **A stop keeps it**, wherever the fiber is. -/
theorem stop (h : Inv c₀ c) : Inv c₀ c.stop := by
  -- Away from a write nothing is in hand, and a fiber that waits gives its variable back.
  have hplain : ∀ {q : Tracked}, c.place.live = true → q.Same c.source → q.stream.waiter = none →
      c.place.atSink = false → c.place.inHand = [] →
      Inv c₀ ({ c with source := q }.goto .stopped) := by
    intro q hlive hq hw hsink hhand
    exact h.stopped hlive hq (.refl _) hw (h.sink_idle hsink) ((h.dropped hlive).trans hhand.symm)
  have hwriting : ∀ {r : Tracked} {left : Bytes}, c.place.live = true → r.Same c.sink →
      r.stream.waiter = none → c.place.atSource = false → c.place.inHand = left →
      Inv c₀ ({ c with sink := r, dropped := left }.goto .stopped) := by
    intro r left hlive hr hw hsource hhand
    exact h.stopped hlive (.refl _) hr (h.source_idle hsource) hw hhand.symm
  unfold Copy.stop
  cases hp : c.place with
  | ended e => exact h
  | stopped => exact h
  | enter =>
    exact hplain (by rw [hp]; rfl) (.refl _) (h.source_idle (by rw [hp]; rfl)) (by rw [hp]; rfl)
      (by rw [hp]; rfl)
  | closeWrite =>
    exact hplain (by rw [hp]; rfl) (.refl _) (h.source_idle (by rw [hp]; rfl)) (by rw [hp]; rfl)
      (by rw [hp]; rfl)
  | read g =>
    cases g with
    | parked | leave =>
      exact hplain (by rw [hp]; rfl) c.source.same_unpark rfl (by rw [hp]; rfl) (by rw [hp]; rfl)
    | _ =>
      exact hplain (by rw [hp]; rfl) (.refl _) (h.source_idle (by rw [hp]; rfl)) (by rw [hp]; rfl)
        (by rw [hp]; rfl)
  | timingOut k =>
    cases k with
    | unpark =>
      exact hplain (by rw [hp]; rfl) c.source.same_unpark rfl (by rw [hp]; rfl) (by rw [hp]; rfl)
    | _ =>
      exact hplain (by rw [hp]; rfl) (.refl _) (h.source_idle (by rw [hp]; rfl)) (by rw [hp]; rfl)
        (by rw [hp]; rfl)
  | write size left g =>
    cases g with
    | parked | leave =>
      exact hwriting (by rw [hp]; rfl) c.sink.same_unpark rfl (by rw [hp]; rfl) (by rw [hp]; rfl)
    | _ =>
      exact hwriting (by rw [hp]; rfl) (.refl _) (h.sink_idle (by rw [hp]; rfl)) (by rw [hp]; rfl)
        (by rw [hp]; rfl)

end Inv

theorem Copy.stop_cases (c : Copy) : c.place.live = false ∧ c.stop = c ∨
    c.place.live = true ∧ c.stop.place = .stopped := by
  unfold Copy.stop
  cases hp : c.place with
  | ended e => exact Or.inl ⟨rfl, rfl⟩
  | stopped => exact Or.inl ⟨rfl, rfl⟩
  | read g => cases g <;> exact Or.inr ⟨rfl, rfl⟩
  | timingOut k => cases k <;> exact Or.inr ⟨rfl, rfl⟩
  | write size left g => cases g <;> exact Or.inr ⟨rfl, rfl⟩
  | enter | closeWrite => exact Or.inr ⟨rfl, rfl⟩

theorem Copy.stop_live (c : Copy) : c.stop.place.live = false := by
  rcases c.stop_cases with ⟨hlive, hsame⟩ | ⟨-, hp⟩
  · rw [hsame]
    exact hlive
  · rw [hp]
    rfl

end Relay

end Ruvoy
