import Ruvoy.Stream.Bounds
import Ruvoy.Upstream.Queues

/-!
# The queues of calls and streams keep to their budgets

A request queue takes the slice that fits of what a fiber writes. A response queue takes a delivery
whole, if it fits or no bytes are queued. The response of a call is measured before it is pushed, and
is pushed and ended before anything else is.

* `UpstreamConfig.intoSettings`: the settings, none of which is zero;
* `reported`: the system with the deliveries that Envoy made;
* `Orderly`: what the callback that runs is about to push and to deliver;
* `Budgets`, `Budgets.of_reachable`: what the queues hold.
-/

set_option autoImplicit false

namespace Ruvoy.Upstream

open Runs

/-! ## The settings -/

/-- The upstream part of a filter configuration. -/
structure UpstreamConfig where
  clusters : List String
  timeoutMs : ℕ
  maxResponseBytes : ℕ
  streamBufferBytes : ℕ

def invalid (message : String) : Except BridgeError UpstreamSettings :=
  .error (.Startup ("invalid filter configuration: " ++ message))

/-- Refuses settings under which no call could ever succeed. -/
def UpstreamConfig.intoSettings (c : UpstreamConfig) : Except BridgeError UpstreamSettings :=
  if c.clusters.isEmpty then invalid "upstream.clusters must name at least one cluster"
  else if c.clusters.any String.isEmpty then
    invalid "upstream.clusters must not contain an empty name"
  else if c.timeoutMs = 0 then invalid "upstream.timeout_ms must be positive"
  else if c.maxResponseBytes = 0 then invalid "upstream.max_response_bytes must be positive"
  else if c.streamBufferBytes = 0 then invalid "upstream.stream_buffer_bytes must be positive"
  else .ok ⟨c.maxResponseBytes, c.streamBufferBytes⟩

theorem UpstreamConfig.positive {c : UpstreamConfig} {settings : UpstreamSettings}
    (h : c.intoSettings = .ok settings) :
    0 < settings.maxResponseBytes ∧ 0 < settings.streamBufferBytes := by
  unfold UpstreamConfig.intoSettings at h
  split_ifs at h with hnone hname htimeout hmax hbuffer <;> cases h
  exact ⟨Nat.pos_of_ne_zero hmax, Nat.pos_of_ne_zero hbuffer⟩

/-! ## What was delivered -/

/-- What Envoy delivers of response bodies, piece by piece. -/
def deliveries (_ : State) : Action → List Bytes → List Bytes
  | .streamData _ data _, e => data.flatten :: e
  | _, e => e

/-- The system with the deliveries that Envoy made. -/
def reported : System (State × List Bytes) Action := system.recording [] deliveries

theorem deliveries_mono {s : State} {a : Action} {e : List Bytes} {b : Bytes} (h : b ∈ e) :
    b ∈ deliveries s a e := by
  cases a with
  | streamData k data endStream => exact List.mem_cons_of_mem _ h
  | _ => exact h

/-! ## The callback that runs -/

/-- A chunk that is pushed is the body of a call, of no more than `m` bytes, and its end follows at
once. What is delivered is among `e` and is not empty. -/
inductive Orderly (m : ℕ) (e : List Bytes) : List Micro → Prop
  | nil : Orderly m e []
  | basic {x : Micro} {l : List Micro} : x.basic (e.contains ·) = true → Orderly m e l →
    Orderly m e (x :: l)
  | body {n : ℕ} {b : Bytes} {l : List Micro} : b.length ≤ m → Orderly m e l →
    Orderly m e (.push (.call n) (.Chunk b) :: .push (.call n) .End :: l)

section Scripts

variable {m : ℕ} {e d : List Bytes} {l l' : List Micro}

theorem Orderly.append (h : Orderly m e l) (h' : Orderly m e l') : Orderly m e (l ++ l') := by
  induction h with
  | nil => exact h'
  | basic hx _ ih => exact .basic hx ih
  | body hb _ ih => exact .body hb ih

theorem Micro.basic_mono {x : Micro} (he : ∀ b ∈ e, b ∈ d) (h : x.basic (e.contains ·) = true) :
    x.basic (d.contains ·) = true := by
  cases x with
  | data k bytes endStream =>
    simp only [Micro.basic, Bool.and_eq_true, List.contains_iff_mem] at h ⊢
    exact ⟨h.1, he _ h.2⟩
  | push r x => cases r <;> cases x <;> exact h
  | _ => exact h

theorem Orderly.mono (he : ∀ b ∈ e, b ∈ d) (h : Orderly m e l) : Orderly m d l := by
  induction h with
  | nil => exact .nil
  | basic hx _ ih => exact .basic (Micro.basic_mono he hx) ih
  | body hb _ ih => exact .body hb ih

theorem orderly_of_basic (h : Basic (e.contains ·) l) : Orderly m e l := by
  induction l with
  | nil => exact .nil
  | cons x l ih =>
    rw [Basic, List.all_cons, Bool.and_eq_true] at h
    exact .basic h.1 (ih h.2)

theorem Orderly.tail {x : Micro} (h : Orderly m e (x :: l)) : Orderly m e l := by
  cases h with
  | basic _ hl => exact hl
  | body _ hl => exact .basic rfl hl

theorem Orderly.chunk {r : Ref} {b : Bytes} (h : Orderly m e (.push r (.Chunk b) :: l)) :
    b.length ≤ m ∧ ∃ n, r = .call n ∧ l.head? = some (.push (.call n) .End) := by
  cases h with
  | basic hx _ => cases r <;> cases hx
  | body hb _ => exact ⟨hb, _, rfl, rfl⟩

theorem Orderly.not_request {n : ℕ} {x : StreamItem} (h : Orderly m e (.push (.request n) x :: l)) :
    False := by
  cases h with
  | basic hx _ => cases hx

theorem Orderly.delivery {k : ℕ} {bytes : Bytes} {endStream : Bool}
    (h : Orderly m e (.data k bytes endStream :: l)) : bytes ≠ [] ∧ bytes ∈ e := by
  cases h with
  | basic hx _ => simpa [Micro.basic] using hx

/-- **The answer to a call is measured.** -/
theorem orderly_deliver (n : ℕ) (result : CalloutResult) (headers : Option Headers)
    (body : Option (List Bytes)) :
    Orderly m e ((deliver result headers body m).1.map (.push (.call n))) := by
  have hfailed : ∀ error : BridgeError,
      Orderly m e ([StreamItem.Failed error].map (.push (.call n))) := fun _ => .basic rfl .nil
  unfold deliver
  cases result with
  | Reset => exact hfailed _
  | ExceedResponseBufferLimit => exact hfailed _
  | Success =>
    dsimp only [answer]
    by_cases hsize : ((body.getD []).map List.length).sum > m
    · rw [if_pos hsize]
      exact hfailed _
    · rw [if_neg hsize]
      cases headOf (headers.getD []) with
      | none => exact hfailed _
      | some head =>
        refine .basic rfl ?_
        split
        · exact .basic rfl .nil
        · refine .body ?_ .nil
          rw [List.length_flatten]
          omega

end Scripts

/-- **Every step leaves an orderly callback.** -/
theorem orderly_step {s t : State} {a : Action} {e : List Bytes}
    (h : Orderly s.config.settings.maxResponseBytes e s.handler) (ht : step s a = some t) :
    Orderly s.config.settings.maxResponseBytes (deliveries s a e) t.handler := by
  have hscript := handler_step (p := ((deliveries s a e).contains ·)) ht fun k data endStream ha _ => by
    rw [ha]
    exact List.contains_iff_mem.mpr List.mem_cons_self
  have hold := h.mono (d := deliveries s a e) fun b => deliveries_mono
  generalize t.handler = l at hscript ⊢
  cases hscript with
  | rests _ => exact hold
  | goesOn _ hh hl =>
    rw [hh] at hold
    exact (orderly_of_basic hl).append hold.tail
  | begins _ hl => exact orderly_of_basic hl
  | answered _ _ hl => exact (orderly_deliver ..).append (orderly_of_basic hl)

/-! ## What the queues hold -/

/-- What the queues of calls and streams hold, of what was delivered. -/
structure Budgets (s : State) (e : List Bytes) : Prop where
  ahead : Orderly s.config.settings.maxResponseBytes e s.handler
  request : ∀ n, Tracked.Within s.config.settings.streamBufferBytes (s.channels n).request
  response : ∀ n, Tracked.WithinOrOne s.config.settings.streamBufferBytes (s.channels n).response
  delivered : ∀ n b, .Chunk b ∈ (s.channels n).response.stream.items → b ∈ e
  call : ∀ n, Tracked.Within s.config.settings.maxResponseBytes (s.calls n)
  /-- A response that holds bytes and has not ended is about to. -/
  clean : ∀ n, isOver (s.calls n) = false → 0 < (s.calls n).stream.bufferedBytes →
    s.handler.head? = some (.push (.call n) .End)

theorem Budgets.init {config : Config} (hm : 0 < config.settings.maxResponseBytes)
    (hb : 0 < config.settings.streamBufferBytes) : Budgets { config := config } [] where
  ahead := .nil
  request _ := .new hb
  response _ := .new hb
  delivered _ _ h := absurd h List.not_mem_nil
  call _ := .new hm
  clean _ _ h := absurd h (Nat.lt_irrefl 0)

theorem eases_of_idles {p q : Tracked} (h : Idles p q) : p.Eases q := by
  cases h with
  | same => exact .refl p
  | cancelled => exact p.eases_cancel
  | unparked => exact p.eases_unpark
  | parked v => exact p.eases_park v
  | writer v => exact p.eases_parkWriter v

theorem over_of_idles {p q : Tracked} (h : Idles p q) (ho : isOver p = true) : isOver q = true := by
  cases h with
  | same => exact ho
  | cancelled => exact keeps_cancel p ho
  | unparked => exact ho
  | parked v => exact keeps_park v p ho
  | writer v =>
    have hc : (p.parkWriter v).stream.cancelled = p.stream.cancelled :=
      ResponseStream.parkWriter_cancelled v
    have he : (p.parkWriter v).stream.ended = p.stream.ended := ResponseStream.parkWriter_ended v
    rw [isOver, hc, he]
    exact ho

section Step

variable {s t : State} {a : Action} {e : List Bytes}

/-- What becomes of the response of a call: no chunk is new, or the body is pushed. -/
theorem call_step (h : Orderly s.config.settings.maxResponseBytes e s.handler)
    (ht : step s a = some t) (n : ℕ) :
    (s.calls n).Eases (t.calls n) ∧ (isOver (s.calls n) = true → isOver (t.calls n) = true) ∨
      ∃ b rest, a = .work ∧ s.handler = .push (.call n) (.Chunk b) :: rest ∧
        t.calls n = (s.calls n).push (.Chunk b) ∧ b.length ≤ s.config.settings.maxResponseBytes ∧
        rest.head? = some (.push (.call n) .End) := by
  have hchange : Change s a (.call n) (t.calls n) := queue_step ht (.call n)
  generalize t.calls n = q at hchange ⊢
  cases hchange with
  | idles hi => exact Or.inl ⟨eases_of_idles hi, over_of_idles hi⟩
  | taken => exact Or.inl ⟨(s.calls n).eases_takeNext, keeps_takeNext _⟩
  | pushed ha hh =>
    rename_i x rest
    cases x with
    | Chunk b =>
      rw [hh] at h
      obtain ⟨hb, n', hn, hend⟩ := h.chunk
      cases hn
      exact Or.inr ⟨b, rest, ha, hh, rfl, hb, hend⟩
    | Head head => exact Or.inl ⟨(s.calls n).eases_push rfl, keeps_push _ _⟩
    | End => exact Or.inl ⟨(s.calls n).eases_push rfl, keeps_push _ _⟩
    | Failed error => exact Or.inl ⟨(s.calls n).eases_push rfl, keeps_push _ _⟩

theorem over_of_head {n : ℕ} (hh : s.handler.head? = some (.push (.call n) .End))
    (ht : step s .work = some t) : isOver (t.calls n) = true := by
  obtain ⟨rest, hr⟩ := List.head?_eq_some_iff.mp hh
  simp only [step, hr, Option.some.injEq] at ht
  subst ht
  show isOver ((s.onQueue (.call n) (·.push .End)).queueAt (.call n)) = true
  rw [queueAt_onQueue_self]
  exact over_push _ rfl

theorem Budgets.call_within (h : Budgets s e) (ht : step s a = some t) (n : ℕ) :
    Tracked.Within s.config.settings.maxResponseBytes (t.calls n) := by
  rcases call_step h.ahead ht n with ⟨he, -⟩ | ⟨b, rest, -, hh, heq, hb, -⟩
  · exact (h.call n).eases he
  · rw [heq]
    refine ⟨(h.call n).budget, ?_⟩
    have hbytes := (h.call n).bytes
    by_cases ho : isOver (s.calls n) = true
    · have hsame : ((s.calls n).push (.Chunk b)).stream = (s.calls n).stream :=
        congrArg Prod.snd (ResponseStream.push_of_shut ho _)
      rw [hsame]
      exact hbytes
    · rw [Bool.not_eq_true] at ho
      -- Bytes of an earlier answer would be followed by their end, not by this body.
      have hnone : ¬ 0 < (s.calls n).stream.bufferedBytes := fun hpos => by
        have hhead := h.clean n ho hpos
        rw [hh] at hhead
        cases hhead
      have hpush := (s.calls n).bytes_push_le b
      omega

theorem Budgets.clean_step (h : Budgets s e) (ht : step s a = some t) (n : ℕ)
    (ho : isOver (t.calls n) = false) (hpos : 0 < (t.calls n).stream.bufferedBytes) :
    t.handler.head? = some (.push (.call n) .End) := by
  rcases call_step h.ahead ht n with ⟨he, hkeep⟩ | ⟨b, rest, rfl, hh, -, -, hend⟩
  · have hso : isOver (s.calls n) = false := by
      cases hs : isOver (s.calls n) with
      | false => rfl
      | true => rw [hkeep hs] at ho; cases ho
    have hhead := h.clean n hso (Nat.lt_of_lt_of_le hpos he.bytes)
    have hscript := handler_step (p := fun _ => true) ht fun _ _ _ _ _ => rfl
    generalize t.handler = l at hscript ⊢
    cases hscript with
    | rests _ => exact hhead
    | goesOn ha _ _ =>
      rw [ha] at ht
      rw [over_of_head hhead ht] at ho
      cases ho
    | begins hnil _ => rw [hnil] at hhead; cases hhead
    | answered _ hnil _ => rw [hnil] at hhead; cases hhead
  · simp only [step, hh, Option.some.injEq] at ht
    subst ht
    exact hend

theorem Budgets.request_within (h : Budgets s e) (ht : step s a = some t) (n : ℕ) :
    Tracked.Within s.config.settings.streamBufferBytes (t.channels n).request := by
  have hchange : Change s a (.request n) (t.channels n).request := queue_step ht (.request n)
  have hw := h.request n
  generalize (t.channels n).request = q at hchange ⊢
  cases hchange with
  | idles hi => exact hw.eases (eases_of_idles hi)
  | taken => exact hw.eases (Tracked.eases_takeNext _)
  | first => exact hw.eases (Tracked.eases_takeNext _)
  | pumped => exact hw.eases (Tracked.eases_takeNext _)
  | pushed _ hh =>
    have ha := h.ahead
    rw [hh] at ha
    exact ha.not_request.elim
  | written => exact hw.pushWithinBudget _
  | ended => exact hw.eases (Tracked.eases_push _ rfl)
  | bodiless => exact hw.eases (Tracked.eases_push _ rfl)

/-- What becomes of the response of a stream: no chunk is new, or a delivery is made. -/
theorem response_step (h : Orderly s.config.settings.maxResponseBytes e s.handler)
    (ht : step s a = some t) (n : ℕ) :
    (s.channels n).response.Eases (t.channels n).response ∨
      ∃ b ∈ e, b ≠ [] ∧ (t.channels n).response = (s.channels n).response.pushIfRoom b := by
  have hchange : Change s a (.response n) (t.channels n).response := queue_step ht (.response n)
  generalize (t.channels n).response = q at hchange ⊢
  cases hchange with
  | idles hi => exact Or.inl (eases_of_idles hi)
  | taken => exact Or.inl (Tracked.eases_takeNext _)
  | pushed ha hh =>
    rename_i x rest
    rw [hh] at h
    cases x with
    | Chunk b =>
      obtain ⟨-, n', hn, -⟩ := h.chunk
      cases hn
    | Head head => exact Or.inl (Tracked.eases_push _ rfl)
    | End => exact Or.inl (Tracked.eases_push _ rfl)
    | Failed error => exact Or.inl (Tracked.eases_push _ rfl)
  | delivered _ hh _ =>
    rw [hh] at h
    obtain ⟨hne, hmem⟩ := h.delivery
    exact Or.inr ⟨_, hmem, hne, rfl⟩

theorem Budgets.response_within (h : Budgets s e) (ht : step s a = some t) (n : ℕ) :
    Tracked.WithinOrOne s.config.settings.streamBufferBytes (t.channels n).response := by
  rcases response_step h.ahead ht n with he | ⟨b, -, hne, heq⟩
  · exact (h.response n).eases he
  · rw [heq]
    exact (h.response n).pushIfRoom hne

theorem Budgets.delivered_step (h : Budgets s e) (ht : step s a = some t) (n : ℕ) (b : Bytes)
    (hb : .Chunk b ∈ (t.channels n).response.stream.items) : b ∈ e := by
  rcases response_step h.ahead ht n with he | ⟨b', hmem, -, heq⟩
  · exact h.delivered n b (Tracked.mem_chunksOf.mp (he.chunks.subset (Tracked.mem_chunksOf.mpr hb)))
  · rw [heq] at hb
    rcases (s.channels n).response.pushIfRoom_cases b' with ⟨-, hsame⟩ | ⟨-, -, -, -, -, hin⟩
    · rw [hsame] at hb
      exact h.delivered n b hb
    · rw [hin, ResponseStreamInner.append_items, List.mem_append, List.mem_singleton,
        StreamItem.Chunk.injEq] at hb
      rcases hb with hb | rfl
      · exact h.delivered n b hb
      · exact hmem

/-- **Every step keeps the queues within their budgets.** -/
theorem Budgets.step (h : Budgets s e) (ht : step s a = some t) : Budgets t (deliveries s a e) := by
  have hconfig := (frame_step ht).1
  have hahead := orderly_step h.ahead ht
  rw [← hconfig] at hahead
  refine ⟨hahead, fun n => ?_, fun n => ?_, fun n b hb => ?_, fun n => ?_, h.clean_step ht⟩
  · rw [hconfig]
    exact h.request_within ht n
  · rw [hconfig]
    exact h.response_within ht n
  · exact deliveries_mono (h.delivered_step ht n b hb)
  · rw [hconfig]
    exact h.call_within ht n

end Step

theorem Budgets.of_reachable {s : State} {e : List Bytes} (hr : reported.Reachable (s, e))
    (hm : 0 < s.config.settings.maxResponseBytes) (hb : 0 < s.config.settings.streamBufferBytes) :
    Budgets s e := by
  have hall : 0 < s.config.settings.maxResponseBytes ∧ 0 < s.config.settings.streamBufferBytes →
      Budgets s e := by
    refine hr.inductNoted (P := fun s e => 0 < s.config.settings.maxResponseBytes ∧
      0 < s.config.settings.streamBufferBytes → Budgets s e) ?_ ?_
    · rintro s ⟨config, rfl⟩ hpos
      exact .init hpos.1 hpos.2
    · intro s e a t ih _ ht hpos
      rw [(frame_step ht).1] at hpos
      exact (ih hpos).step ht
  exact hall ⟨hm, hb⟩

/-! ## A delivery -/

section Delivery

variable {s t : State} {k : ℕ} {bytes : Bytes} {endStream : Bool} {rest : List Micro}
  {stream : OpenStream}

theorem delivery_step (hh : s.handler = .data k bytes endStream :: rest)
    (hk : s.openStreams.lookup k = some stream) (ht : Upstream.step s .work = some t) :
    (t.channels stream.channel).response =
      (s.channels stream.channel).response.pushIfRoom bytes := by
  have hself : ((s.onQueue (.response stream.channel) (·.pushIfRoom bytes)).channels
      stream.channel).response = (s.channels stream.channel).response.pushIfRoom bytes :=
    queueAt_onQueue_self (.response stream.channel) (·.pushIfRoom bytes)
  simp only [Upstream.step, hh, Option.some.injEq] at ht
  subst ht
  simp only [State.micro, State.deliverData, hk]
  split
  · split <;> exact hself
  · exact hself
  · exact hself

/-- **A delivery that does not fit beside what is queued is refused whole.** -/
theorem Budgets.refused {e : List Bytes} (h : Budgets s e)
    (hh : s.handler = .data k bytes endStream :: rest)
    (hk : s.openStreams.lookup k = some stream) (ht : Upstream.step s .work = some t)
    (hpos : 0 < held (s.channels stream.channel).response)
    (hfull : s.config.settings.streamBufferBytes <
      held (s.channels stream.channel).response + bytes.length) :
    (t.channels stream.channel).response = (s.channels stream.channel).response := by
  have hahead := h.ahead
  rw [hh] at hahead
  rw [held_eq] at hpos hfull
  rw [delivery_step hh hk ht]
  exact Tracked.pushIfRoom_of_full (h.response _).budget hahead.delivery.1 hpos hfull

end Delivery

end Ruvoy.Upstream
