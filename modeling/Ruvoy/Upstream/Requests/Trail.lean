import Ruvoy.Upstream.Bodies

/-!
# What was asked of Envoy about a stream

What the worker asks of one stream is a start, pieces of the body, at most one end and at most one reset,
in this order, and the pieces are what was taken of the request queue.

* `Asked`: what is asked of one stream, and `Asked.list`, the requests it stands for;
* `Trail`: the requests about a stream and what was taken of its body agree;
* `Legal`: the invariant of a run;
* `Goes`, `Shift`, `Legal.shift`: a step that asks nothing keeps it.
-/

set_option autoImplicit false

namespace Ruvoy.Upstream

open Runs

/-! ## The requests about a stream -/

/-- The handle that `send_http_stream_data` or `reset_http_stream` is called with. -/
def EnvoyRequest.handle? : EnvoyRequest → Option ℕ
  | .send k _ _ => some k
  | .reset k => some k
  | _ => none

/-- The request is about the stream with handle `k` that was started for channel `c`. -/
def EnvoyRequest.about (k c : ℕ) : EnvoyRequest → Bool
  | .callout .. => false
  | .start n .. => n == c
  | .send h _ _ => h == k
  | .reset h => h == k

/-- What is asked of a stream: the start, the pieces of the body, whether its end was sent, and
whether a reset was. -/
structure Asked where
  cluster : String
  headers : Fields
  body : Option Bytes
  ended : Bool
  timeoutMs : ℕ
  chunks : List Bytes := []
  fin : Bool := false
  rst : Bool := false

namespace Asked

variable (a : Asked)

/-- The requests, in the order they are made. -/
def list (k c : ℕ) : List EnvoyRequest :=
  .start c a.cluster a.headers a.body a.ended a.timeoutMs ::
    (a.chunks.map (.send k · false) ++ (if a.fin then [.send k [] true] else []) ++
      if a.rst then [.reset k] else [])

/-- The bytes that went out. -/
def bytes : Bytes := a.body.getD [] ++ a.chunks.flatten

/-- The end went out. -/
def whole : Bool := a.ended || a.fin

end Asked

/-- The stream is started. -/
def State.started (s : State) (c : ℕ) : Prop := .stream c ∈ s.requests.flatMap EnvoyRequest.items

/-- The stream that is still to be sent. -/
def Outer.unsent : Outer → List Item
  | .startStream r | .firstItem r => [r.item]
  | _ => []

/-- The requests about a stream agree with its body and its flags. -/
structure Trail (s : State) (e : Notes) (k c : ℕ) (a : Asked) : Prop where
  asked : s.requests.filter (·.about k c) = a.list k c
  once : a.ended = true → a.chunks = [] ∧ a.fin = false
  bytes : bodyOf (s.request c).taken = a.bytes
  whole : a.whole = true → .End ∈ (s.request c).taken
  called : a.fin = true → c ∈ e.finishes
  bodiless : c ∈ e.bodiless → a.ended = true ∨ (s.request c).stream.cancelled = true
  opened : ∀ o, s.openStreams.lookup k = some o → o.requestEnded = a.whole ∧ o.resetSent = a.rst

/-- What is asked at the start and nothing more. -/
def Asked.fresh (a : Asked) (ended : Bool) : Prop :=
  a.ended = ended ∧ a.chunks = [] ∧ a.fin = false ∧ a.rst = false

structure Legal (s : State) (e : Notes) : Prop where
  /-- The table holds handles that Envoy has not reported finished. -/
  live : ∀ k ∈ s.openStreams, k ∉ s.finished
  finished : ∀ k ∈ s.finished, k ∈ s.handles
  asked : ∀ q ∈ s.requests, ∀ k, q.handle? = some k → k ∈ s.handles
  /-- Every handle has one channel and no two the same. -/
  handles : e.owner.map Prod.fst = s.handles
  once : s.handles.Nodup
  channels : (e.owner.map Prod.snd).Nodup
  owned : ∀ k o, s.openStreams.lookup k = some o → (k, o.channel) ∈ e.owner
  /-- What was started is past the queue. -/
  past : ∀ p ∈ e.owner, .stream p.2 ∉ s.waiting ++ s.outer.flatMap Outer.items
  unsent : ∀ c, s.started c → .stream c ∉ s.waiting ++ s.outer.flatMap Outer.unsent
  untouched : ∀ c, ¬ s.started c → (s.request c).taken = []
  wanted : ∀ k o, s.openStreams.lookup k = some o → o.resetSent = true →
    (s.channels o.channel).resetWanted = true
  /-- The pump takes from one stream at a time, and from one that has neither ended nor been reset. -/
  tail : ∀ k, .pumpTake k ∉ s.outer.tail
  pumping : ∀ k rest, s.outer = .pumpTake k :: rest → ∀ o, s.openStreams.lookup k = some o →
    o.requestEnded = false ∧ o.resetSent = false
  starting : ∀ r b, .inStart r b ∈ s.outer → ∃ a : Asked, a.fresh b ∧
    ∀ k, k ∉ s.handles → Trail s e k r.channel a
  trails : ∀ p ∈ e.owner, ∃ a, Trail s e p.1 p.2 a

theorem Legal.init (config : Config) : Legal { config := config } {} where
  live k hk := absurd hk (AList.notMem_empty k)
  finished := by rintro _ ⟨⟩
  asked := by rintro _ ⟨⟩
  handles := rfl
  once := .nil
  channels := .nil
  owned := by rintro _ _ ⟨⟩
  past := by rintro _ ⟨⟩
  unsent := by rintro _ ⟨⟩
  untouched _ _ := rfl
  wanted := by rintro _ _ ⟨⟩
  tail := by rintro _ ⟨⟩
  pumping := by rintro _ _ ⟨⟩
  starting := by rintro _ _ ⟨⟩
  trails := by rintro _ ⟨⟩

variable {s t : State} {e e' : Notes}

theorem Trail.started {k c : ℕ} {a : Asked} (h : Trail s e k c a) : s.started c := by
  have hmem : EnvoyRequest.start c a.cluster a.headers a.body a.ended a.timeoutMs ∈
      s.requests.filter (·.about k c) := by
    rw [h.asked]
    exact List.mem_cons_self
  exact List.mem_flatMap.mpr ⟨_, (List.mem_filter.mp hmem).1, List.mem_cons_self⟩

/-! ## Steps that ask nothing -/

/-- A stream of the table after a step, as far as requests go. -/
structure Alike (o o' : OpenStream) : Prop where
  channel : o'.channel = o.channel
  requestEnded : o'.requestEnded = o.requestEnded
  resetSent : o'.resetSent = o.resetSent

/-- What may come onto the worker's list: something about no stream, a stream of the queue, or the
start of a stream that goes on. -/
def Comes (s : State) (o : Outer) : Prop :=
  (∀ c, .stream c ∉ o.items) ∨ (∃ r ∈ s.streams, o = .startStream r) ∨
    ∃ r, o = .firstItem r ∧ .startStream r ∈ s.outer

/-- The worker's list after a step that asks nothing. -/
inductive Goes (s : State) : List Outer → Prop
  | same : Goes s s.outer
  | on {l : List Outer} : (∀ o ∈ l, Comes s o ∧ ∀ k, o ≠ .pumpTake k) → Goes s (l ++ s.outer.tail)
  | takes {k : ℕ} : (∀ o, s.openStreams.lookup k = some o →
      o.requestEnded = false ∧ o.resetSent = false) → Goes s (.pumpTake k :: s.outer.tail)

theorem stream_mem_waiting {c : ℕ} : .stream c ∈ s.waiting ↔ ∃ r ∈ s.streams, r.channel = c := by
  simp only [State.waiting, List.mem_append, List.mem_map, UpstreamRequest.item,
    UpstreamStreamRequest.item, reduceCtorEq, and_false, exists_false, false_or, Item.stream.injEq]

theorem mem_items_of_unsent {o : Outer} {i : Item} (h : i ∈ o.unsent) : i ∈ o.items := by
  cases o <;> first | exact h | cases h

section Goes

variable {l : List Outer}

theorem Goes.mem (h : Goes s l) {o : Outer} (ho : o ∈ l) : o ∈ s.outer ∨ Comes s o := by
  cases h with
  | same => exact Or.inl ho
  | on hl =>
    rcases List.mem_append.mp ho with ho | ho
    · exact Or.inr (hl o ho).1
    · exact Or.inl (List.mem_of_mem_tail ho)
  | takes =>
    rcases List.mem_cons.mp ho with rfl | ho
    · exact Or.inr (Or.inl fun _ hc => by cases hc)
    · exact Or.inl (List.mem_of_mem_tail ho)

theorem Goes.items (h : Goes s l) {c : ℕ} (hc : .stream c ∈ l.flatMap Outer.items) :
    .stream c ∈ s.waiting ++ s.outer.flatMap Outer.items := by
  obtain ⟨o, ho, hc⟩ := List.mem_flatMap.mp hc
  rw [List.mem_append]
  rcases h.mem ho with hold | hno | ⟨r, hr, rfl⟩ | ⟨r, rfl, hr⟩
  · exact Or.inr (List.mem_flatMap.mpr ⟨o, hold, hc⟩)
  · exact absurd hc (hno c)
  · exact Or.inl (stream_mem_waiting.mpr ⟨r, hr, (Item.stream.inj (List.mem_singleton.mp hc)).symm⟩)
  · exact Or.inr (List.mem_flatMap.mpr ⟨_, hr, hc⟩)

theorem Goes.unsent (h : Goes s l) {c : ℕ} (hc : .stream c ∈ l.flatMap Outer.unsent) :
    .stream c ∈ s.waiting ++ s.outer.flatMap Outer.unsent := by
  obtain ⟨o, ho, hc⟩ := List.mem_flatMap.mp hc
  rw [List.mem_append]
  rcases h.mem ho with hold | hno | ⟨r, hr, rfl⟩ | ⟨r, rfl, hr⟩
  · exact Or.inr (List.mem_flatMap.mpr ⟨o, hold, hc⟩)
  · exact absurd (mem_items_of_unsent hc) (hno c)
  · exact Or.inl (stream_mem_waiting.mpr ⟨r, hr, (Item.stream.inj (List.mem_singleton.mp hc)).symm⟩)
  · exact Or.inr (List.mem_flatMap.mpr ⟨_, hr, hc⟩)

theorem Goes.starting (h : Goes s l) {r : UpstreamStreamRequest} {b : Bool}
    (hr : .inStart r b ∈ l) : .inStart r b ∈ s.outer := by
  rcases h.mem hr with hold | hno | ⟨r', -, heq⟩ | ⟨r', heq, -⟩
  · exact hold
  · exact absurd List.mem_cons_self (hno r.channel)
  · cases heq
  · cases heq

theorem Goes.tail (h : Goes s l) {k : ℕ} (hk : .pumpTake k ∈ l.tail) :
    .pumpTake k ∈ s.outer.tail := by
  cases h with
  | same => exact hk
  | on hl =>
    rename_i l
    rcases List.mem_append.mp (List.mem_of_mem_tail hk) with ho | ho
    · exact absurd rfl ((hl _ ho).2 k)
    · exact ho
  | takes => exact hk

theorem Goes.pumping (h : Goes s l) {k : ℕ} {rest : List Outer} (hl : l = .pumpTake k :: rest) :
    s.outer = .pumpTake k :: rest ∨ .pumpTake k ∈ s.outer.tail ∨
      ∀ o, s.openStreams.lookup k = some o → o.requestEnded = false ∧ o.resetSent = false := by
  cases h with
  | same => exact Or.inl hl
  | on hcome =>
    rename_i l
    have hmem : Outer.pumpTake k ∈ l ++ s.outer.tail := by
      rw [hl]
      exact List.mem_cons_self
    rcases List.mem_append.mp hmem with ho | ho
    · exact absurd rfl ((hcome _ ho).2 k)
    · exact Or.inr (Or.inl ho)
  | takes hflags =>
    cases hl
    exact Or.inr (Or.inr hflags)

end Goes

/-- A step that asks nothing of Envoy about a stream and brings no handle. -/
structure Shift (s t : State) : Prop where
  requests : ∀ k c, t.requests.filter (·.about k c) = s.requests.filter (·.about k c)
  asked : ∀ q ∈ t.requests, ∀ k, q.handle? = some k → q ∈ s.requests
  started : ∀ c, t.started c ↔ s.started c
  handles : t.handles = s.handles
  table : ∀ k o', t.openStreams.lookup k = some o' →
    ∃ o, s.openStreams.lookup k = some o ∧ Alike o o'
  finished : ∀ k ∈ t.finished, k ∈ s.finished ∨ k ∈ s.handles ∧ t.openStreams.lookup k = none
  waiting : ∀ c, .stream c ∈ t.waiting → .stream c ∈ s.waiting ∨ ¬ s.started c
  outer : Goes s t.outer

/-- What a step leaves of the channels. -/
structure Channels (s t : State) : Prop where
  taken : ∀ c, (t.request c).taken = (s.request c).taken
  cancelled : ∀ c, (s.request c).stream.cancelled = true → (t.request c).stream.cancelled = true
  wanted : ∀ c, (s.channels c).resetWanted = true → (t.channels c).resetWanted = true

/-- What a step leaves of the notes. -/
structure Noted (s : State) (e e' : Notes) : Prop where
  owner : e'.owner = e.owner
  finishes : ∀ n ∈ e.finishes, n ∈ e'.finishes
  bodiless : ∀ n ∈ e'.bodiless, s.started n → n ∈ e.bodiless

theorem Trail.shift {k c : ℕ} {a : Asked} (h : Trail s e k c a) (hs : Shift s t)
    (hc : Channels s t) (hn : Noted s e e') : Trail t e' k c a where
  asked := (hs.requests k c).trans h.asked
  once := h.once
  bytes := by
    rw [hc.taken]
    exact h.bytes
  whole ho := by
    rw [hc.taken]
    exact h.whole ho
  called hf := hn.finishes c (h.called hf)
  bodiless hb := (h.bodiless (hn.bodiless c hb h.started)).imp_right (hc.cancelled c)
  opened o' ho' := by
    obtain ⟨o, ho, halike⟩ := hs.table k o' ho'
    rw [halike.requestEnded, halike.resetSent]
    exact h.opened o ho

/-- **A step that asks nothing keeps the requests legal.** -/
theorem Legal.shift (h : Legal s e) (hs : Shift s t) (hc : Channels s t) (hn : Noted s e e') :
    Legal t e' := by
  refine ⟨?_, ?_, ?_, ?_, ?_, ?_, ?_, ?_, ?_, ?_, ?_, ?_, ?_, ?_, ?_⟩
  · intro k hk hfin
    obtain ⟨o', ho'⟩ := Option.isSome_iff_exists.mp (AList.lookup_isSome.mpr hk)
    obtain ⟨o, ho, -⟩ := hs.table k o' ho'
    rcases hs.finished k hfin with hold | ⟨-, hnone⟩
    · exact h.live k (AList.lookup_isSome.mp (Option.isSome_iff_exists.mpr ⟨o, ho⟩)) hold
    · rw [ho'] at hnone
      cases hnone
  · intro k hfin
    rw [hs.handles]
    exact (hs.finished k hfin).elim (h.finished k) And.left
  · intro q hq k hk
    rw [hs.handles]
    exact h.asked q (hs.asked q hq k hk) k hk
  · rw [hn.owner, hs.handles]
    exact h.handles
  · rw [hs.handles]
    exact h.once
  · rw [hn.owner]
    exact h.channels
  · intro k o' ho'
    obtain ⟨o, ho, halike⟩ := hs.table k o' ho'
    rw [hn.owner, halike.channel]
    exact h.owned k o ho
  · intro p hp hmem
    rw [hn.owner] at hp
    obtain ⟨a, ha⟩ := h.trails p hp
    have hold := h.past p hp
    rw [List.mem_append, not_or] at hold
    rcases List.mem_append.mp hmem with hw | ho
    · exact (hs.waiting _ hw).elim hold.1 fun hno => hno ha.started
    · exact h.past p hp (hs.outer.items ho)
  · intro c hstarted hmem
    have hwas := (hs.started c).mp hstarted
    have hold := h.unsent c hwas
    rw [List.mem_append, not_or] at hold
    rcases List.mem_append.mp hmem with hw | ho
    · exact (hs.waiting _ hw).elim hold.1 fun hno => hno hwas
    · exact h.unsent c hwas (hs.outer.unsent ho)
  · intro c hno
    rw [hc.taken]
    exact h.untouched c fun hwas => hno ((hs.started c).mpr hwas)
  · intro k o' ho' hsent
    obtain ⟨o, ho, halike⟩ := hs.table k o' ho'
    rw [halike.channel]
    exact hc.wanted _ (h.wanted k o ho (halike.resetSent.symm.trans hsent))
  · exact fun k hk => h.tail k (hs.outer.tail hk)
  · intro k rest ho o' ho'
    obtain ⟨o, hlook, halike⟩ := hs.table k o' ho'
    rw [halike.requestEnded, halike.resetSent]
    rcases hs.outer.pumping ho with hwas | htail | hnow
    · exact h.pumping k rest hwas o hlook
    · exact absurd htail (h.tail k)
    · exact hnow o hlook
  · intro r b hmem
    obtain ⟨a, hfresh, ha⟩ := h.starting r b (hs.outer.starting hmem)
    refine ⟨a, hfresh, fun k hk => (ha k ?_).shift hs hc hn⟩
    rw [← hs.handles]
    exact hk
  · intro p hp
    rw [hn.owner] at hp
    obtain ⟨a, ha⟩ := h.trails p hp
    exact ⟨a, ha.shift hs hc hn⟩

end Ruvoy.Upstream
