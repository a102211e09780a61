import Ruvoy.Upstream.Steps

/-!
# Where every call and stream is

An item that `queue` or `queue_stream` took waits in the queue until it is handed out, and from then
on it is in one place: in what is left of the worker's work, in one of its two tables, or counted.

* `State.waiting`, `State.inHand`: the items in the queue, and those handed out, by where they are;
* `Phase`: what the end of the request leaves of the worker's work;
* `Books`: the accounts;
* `Books.beside`, `Books.callback`, `Books.sending`: what a kind of step keeps of them;
* `Books.micro`: the callback that runs keeps them.
-/

set_option autoImplicit false

namespace Ruvoy.Upstream

open Runs

/-- The items that are counted in what is left of a callback. -/
def Micro.items : Micro → List Item
  | .count item _ _ => [item]
  | .resetStopped stream _ => [stream.item]
  | _ => []

/-- The items in the hands of `send_upstream_calls`. -/
def Outer.items : Outer → List Item
  | .takeStreams calls => calls.map (·.item)
  | .sendCall r | .inCallout r => [r.item]
  | .startStream r | .firstItem r | .inStart r _ => [r.item]
  | _ => []

/-- The request is over. -/
def Outer.abandons : Outer → Bool
  | .abandon _ => true
  | _ => false

/-- The items that are sent. -/
def EnvoyRequest.items : EnvoyRequest → List Item
  | .callout n .. => [.call n]
  | .start n .. => [.stream n]
  | _ => []

/-- The items in the queue. -/
def State.waiting (s : State) : List Item := s.queued.map (·.item) ++ s.streams.map (·.item)

/-- The items in the callback that runs, in the tables, and those `count_call` was called for. -/
def State.atWork (s : State) : List Item :=
  s.handler.flatMap Micro.items ++ s.inFlight.values.map (·.item) ++
    s.openStreams.values.map (·.item) ++ s.settled

/-- The items that were handed out, by where they are. -/
def State.inHand (s : State) : List Item := s.outer.flatMap Outer.items ++ s.atWork

/-- The item has a number that was given out. -/
def State.knows (s : State) : Item → Prop
  | .call n => n < s.nextCall
  | .stream n => n < s.nextChannel

/-- The route is closed, and nothing is left in the queue or the tables. -/
structure Shut (s : State) : Prop where
  closed : s.closed = true
  upstreams : s.upstreams = false
  queued : s.queued = []
  streams : s.streams = []
  inFlight : s.inFlight = ∅
  openStreams : s.openStreams = ∅

/-- What the worker has left to do, by how far the request has come to its end. -/
def Phase (s : State) : Prop :=
  match s.stage with
  | .live => s.upstreams = true ∧ s.outer.any Outer.abandons = false
  | .complete =>
    s.handler = [] ∧ s.outer = [.abandon true] ∧ s.upstreams = true ∨ s.outer = [] ∧ Shut s
  | .dropped => s.handler = [] ∧ (s.outer = [.abandon false] ∨ s.outer = []) ∧ Shut s

/-- A callback runs, or one may begin. -/
def Running (s : State) : Prop :=
  s.handler ≠ [] ∨ s.stage ≠ .dropped ∧ ∀ c, s.outer ≠ [.abandon c]

structure Books (s : State) : Prop where
  queued : s.accepted.Perm (s.waiting ++ s.handed)
  handed : s.handed.Perm s.inHand
  known : ∀ i ∈ s.accepted ++ s.refused, s.knows i
  once : (s.accepted ++ s.refused).Nodup
  callouts : ∀ k ∈ s.inFlight, k ∈ s.callouts
  handles : ∀ k ∈ s.openStreams, k ∈ s.handles
  counted : s.counted.map Prod.fst = if s.config.metrics then s.settled else []
  sent : ∀ r ∈ s.requests, ∀ i ∈ r.items, i ∈ s.handed
  phase : Phase s

variable {s t : State}

theorem Books.init (config : Config) : Books { config := config } where
  queued := .refl _
  handed := .refl _
  known := by rintro _ ⟨⟩
  once := .nil
  callouts k hk := absurd hk (AList.notMem_empty k)
  handles k hk := absurd hk (AList.notMem_empty k)
  counted := (ite_self _).symm
  sent := by rintro _ ⟨⟩
  phase := ⟨rfl, rfl⟩

/-! ## The phases -/

/-- The worker does something other than to abandon: the request is live. -/
theorem Phase.live_of_outer (h : Phase s) {o : Outer} {rest : List Outer} (ho : s.outer = o :: rest)
    (hn : ∀ c, o ≠ .abandon c) : s.stage = .live := by
  unfold Phase at h
  cases hs : s.stage with
  | live => rfl
  | complete =>
    rw [hs, ho] at h
    rcases h with ⟨-, heq, -⟩ | ⟨heq, -⟩
    · exact absurd (List.cons.inj heq).1 (hn true)
    · cases heq
  | dropped =>
    rw [hs, ho] at h
    rcases h with ⟨-, heq | heq, -⟩
    · exact absurd (List.cons.inj heq).1 (hn false)
    · cases heq

theorem running_of_callable (h : s.callable = true) : Running s := by
  simp only [State.callable, Bool.and_eq_true, bne_iff_ne] at h
  refine Or.inr ⟨h.1.1, fun c ho => ?_⟩
  rw [ho] at h
  cases h.2

theorem Phase.live (h : Phase s) (hs : s.stage = .live) :
    s.upstreams = true ∧ s.outer.any Outer.abandons = false := by
  unfold Phase at h
  rwa [hs] at h

theorem Phase.sending (h : Phase s) (hs : s.stage = .live) (hst : t.stage = s.stage)
    (hu : t.upstreams = s.upstreams)
    (ha : s.outer.any Outer.abandons = false → t.outer.any Outer.abandons = false) : Phase t := by
  unfold Phase
  rw [hst, hs]
  exact ⟨hu.trans (h.live hs).1, ha (h.live hs).2⟩

/-- A callback keeps the phase when it opens nothing. -/
theorem Phase.callback (h : Phase s) (hn : Running s) (hst : t.stage = s.stage)
    (hu : t.upstreams = s.upstreams) (ho : t.outer = s.outer) (hshut : Shut s → Shut t) :
    Phase t := by
  unfold Phase at h ⊢
  rw [hst]
  cases hstage : s.stage with
  | live =>
    rw [hstage] at h
    exact ⟨hu.trans h.1, by rw [ho]; exact h.2⟩
  | complete =>
    rw [hstage] at h
    rcases h with ⟨hh, hout, -⟩ | ⟨hout, h0⟩
    · exact hn.elim (absurd hh) fun hn => absurd hout (hn.2 true)
    · exact Or.inr ⟨ho.trans hout, hshut h0⟩
  | dropped =>
    rw [hstage] at h
    exact hn.elim (absurd h.1) fun hn => absurd hstage hn.1

theorem Phase.same (h : Phase s) (hst : t.stage = s.stage) (hu : t.upstreams = s.upstreams)
    (ho : t.outer = s.outer) (hh : t.handler = s.handler) (hshut : Shut s → Shut t) : Phase t := by
  unfold Phase at h ⊢
  rw [hst, hu, ho, hh]
  cases hstage : s.stage with
  | live =>
    rw [hstage] at h
    exact h
  | complete =>
    rw [hstage] at h
    exact h.imp_right fun ⟨hout, h0⟩ => ⟨hout, hshut h0⟩
  | dropped =>
    rw [hstage] at h
    exact ⟨h.1, h.2.1, hshut h.2.2⟩

/-! ## What a kind of step keeps -/

theorem Books.beside (h : Books s) (ht : t = { s with
    calls := t.calls, channels := t.channels, ruby := t.ruby, wakeups := t.wakeups,
    resolving := t.resolving, answered := t.answered, finished := t.finished }) : Books t := by
  rw [ht]
  refine ⟨h.queued, h.handed, ?_, h.once, h.callouts, h.handles, h.counted, h.sent, ?_⟩
  · intro i hi
    have := h.known i hi
    cases i <;> exact this
  · exact h.phase.same rfl rfl rfl rfl fun h0 => ⟨h0.1, h0.2, h0.3, h0.4, h0.5, h0.6⟩

/-- A step of a callback: it opens nothing and moves items about between the callback, the tables and
those that were counted. -/
theorem Books.callback (h : Books s) (hn : Running s)
    (ht : t = { s with
      calls := t.calls, channels := t.channels, wakeups := t.wakeups, handler := t.handler,
      inFlight := t.inFlight, openStreams := t.openStreams, settled := t.settled,
      counted := t.counted })
    (hitems : t.atWork.Perm s.atWork) (hf : ∀ k ∈ t.inFlight, k ∈ s.inFlight)
    (ho : ∀ k ∈ t.openStreams, k ∈ s.openStreams)
    (hc : t.counted.map Prod.fst = if t.config.metrics then t.settled else []) : Books t := by
  have hshut : Shut s → Shut t := by
    intro h0
    refine ⟨?_, ?_, ?_, ?_, ?_, ?_⟩
    · rw [ht]; exact h0.closed
    · rw [ht]; exact h0.upstreams
    · rw [ht]; exact h0.queued
    · rw [ht]; exact h0.streams
    · exact Table.eq_empty fun k hk => absurd (h0.inFlight ▸ hf k hk) (AList.notMem_empty k)
    · exact Table.eq_empty fun k hk => absurd (h0.openStreams ▸ ho k hk) (AList.notMem_empty k)
  refine ⟨?_, ?_, ?_, ?_, ?_, ?_, hc, ?_, ?_⟩
  · rw [ht]; exact h.queued
  · have hh : t.handed = s.handed := by rw [ht]
    have hout : t.outer = s.outer := by rw [ht]
    rw [hh, State.inHand, hout]
    exact h.handed.trans (hitems.symm.append_left _)
  · rw [ht]
    intro i hi
    have := h.known i hi
    cases i <;> exact this
  · rw [ht]; exact h.once
  · intro k hk
    have := h.callouts k (hf k hk)
    rw [ht]; exact this
  · intro k hk
    have := h.handles k (ho k hk)
    rw [ht]; exact this
  · rw [ht]; exact h.sent
  · exact h.phase.callback hn (by rw [ht]) (by rw [ht]) (by rw [ht]) hshut

theorem Books.sending (h : Books s) (hs : s.stage = .live)
    (ht : t = { s with
      trace := t.trace, calls := t.calls, channels := t.channels, handler := t.handler,
      outer := t.outer, inFlight := t.inFlight, openStreams := t.openStreams,
      callouts := t.callouts, handles := t.handles, requests := t.requests })
    (ha : s.outer.any Outer.abandons = false → t.outer.any Outer.abandons = false)
    (hitems : t.inHand.Perm s.inHand) (hf : ∀ k ∈ t.inFlight, k ∈ t.callouts)
    (ho : ∀ k ∈ t.openStreams, k ∈ t.handles)
    (hsent : ∀ r ∈ t.requests, r ∈ s.requests ∨ ∀ i ∈ r.items, i ∈ s.inHand) : Books t := by
  have hhanded : t.handed = s.handed := by rw [ht]
  refine ⟨?_, ?_, ?_, ?_, hf, ho, ?_, ?_, ?_⟩
  · rw [ht]; exact h.queued
  · rw [hhanded]
    exact h.handed.trans hitems.symm
  · rw [ht]
    intro i hi
    have := h.known i hi
    cases i <;> exact this
  · rw [ht]; exact h.once
  · rw [ht]; exact h.counted
  · intro r hr i hi
    rw [hhanded]
    exact (hsent r hr).elim (fun hr => h.sent r hr i hi)
      fun hin => h.handed.mem_iff.mpr (hin i hi)
  · exact h.phase.sending hs (by rw [ht]) (by rw [ht]) ha

/-! ## The callback that runs -/

/-- A handler leaves the stream with its channel, and nothing to count. -/
def Stays (o : OpenStream) (r : OpenStream × List Micro) : Prop :=
  r.1.item = o.item ∧ r.2.flatMap Micro.items = []

section Handlers

variable (o : OpenStream)

theorem stays_finish : Stays o o.finish := ⟨rfl, rfl⟩

theorem stays_fail (error : BridgeError) : Stays o (o.fail error) := ⟨rfl, rfl⟩

theorem stays_headersArrived (headers : Headers) (endStream : Bool) :
    Stays o (o.headersArrived headers endStream) := by
  unfold OpenStream.headersArrived
  split
  · exact ⟨rfl, rfl⟩
  · split
    · exact stays_fail o _
    · cases endStream <;> exact ⟨rfl, rfl⟩

theorem stays_dataArrived (handle : ℕ) (data : List Bytes) (endStream : Bool) :
    Stays o (o.dataArrived handle data endStream) := by
  unfold OpenStream.dataArrived
  split
  · exact ⟨rfl, rfl⟩
  · split
    · cases endStream <;> exact ⟨rfl, rfl⟩
    · exact ⟨rfl, rfl⟩

theorem stays_trailersArrived (trailers : Headers) : Stays o (o.trailersArrived trailers) := by
  unfold OpenStream.trailersArrived
  split <;> exact ⟨rfl, rfl⟩

theorem stays_completed : Stays o o.completed := by
  unfold OpenStream.completed
  split <;> exact ⟨rfl, rfl⟩

theorem stays_resetByEnvoy (reason : ResetReason) : Stays o (o.resetByEnvoy reason) := by
  unfold OpenStream.resetByEnvoy
  dsimp only
  split <;> split <;> exact ⟨rfl, rfl⟩

theorem stays_abandon : Stays o o.abandon := by
  unfold OpenStream.abandon
  dsimp only
  split <;> split <;> exact ⟨rfl, rfl⟩

/-- A stream that Envoy is done with is counted once. -/
theorem Stays.close {o : OpenStream} {r : OpenStream × List Micro} (h : Stays o r) :
    (OpenStream.close r).flatMap Micro.items = [o.item] := by
  rw [OpenStream.close, List.flatMap_append, List.flatMap_append, h.2, List.flatMap_singleton]
  exact congrArg (fun i => [i]) h.1

theorem items_onReset (reason : ResetReason) :
    (o.onReset reason).flatMap Micro.items = [o.item] := by
  unfold OpenStream.onReset
  split
  · exact (stays_completed o).close
  · split
    · rfl
    · exact (stays_resetByEnvoy o reason).close

end Handlers

theorem onQueue_eq (s : State) (r : Ref) (f : Tracked → Tracked) :
    s.onQueue r f = { s with calls := (s.onQueue r f).calls, channels := (s.onQueue r f).channels } := by
  cases r <;> rfl

theorem Books.update (h : Books s) (hn : Running s) {k : ℕ}
    {o : OpenStream} {r : OpenStream × List Micro} {rest : List Micro}
    (hk : s.openStreams.lookup k = some o) (hr : Stays o r)
    (hrest : s.handler.flatMap Micro.items = rest.flatMap Micro.items) :
    Books (s.update k r rest) := by
  refine h.callback hn rfl ?_ (fun _ => id) ?_ h.counted
  · have hopen := Table.map_insert_perm (f := OpenStream.item) hk hr.1
    simp only [State.atWork, State.update, List.flatMap_append, hr.2, List.nil_append, hrest]
    exact (hopen.append_left _).append_right _
  · intro k' hk'
    rcases (AList.mem_insert _).mp hk' with rfl | hmem
    · exact AList.lookup_isSome.mp (by rw [hk]; rfl)
    · exact hmem

section Micro

variable {m : Micro} {rest : List Micro}

theorem items_cons (hh : s.handler = m :: rest) :
    s.handler.flatMap Micro.items = m.items ++ rest.flatMap Micro.items := by
  rw [hh, List.flatMap_cons]

theorem running_of_handler (hh : s.handler = m :: rest) : Running s :=
  Or.inl (by rw [hh]; exact List.cons_ne_nil m rest)

theorem Books.quiet (h : Books s) (hh : s.handler = m :: rest) (hm : m.items = [])
    (ht : t = { s with
      calls := t.calls, channels := t.channels, wakeups := t.wakeups, handler := t.handler })
    (hrest : t.handler.flatMap Micro.items = rest.flatMap Micro.items) : Books t := by
  refine h.callback (running_of_handler hh) (by rw [ht]) ?_ ?_ ?_ ?_
  · rw [State.atWork, State.atWork, hrest, items_cons hh, hm, ht]
    exact .refl _
  · rw [ht]
    exact fun _ => id
  · rw [ht]
    exact fun _ => id
  · rw [ht]
    exact h.counted

theorem Books.deliverData (h : Books s) {k : ℕ} {bytes : Bytes} {endStream : Bool}
    (hh : s.handler = .data k bytes endStream :: rest) :
    Books (s.deliverData k bytes endStream rest) := by
  have hn := running_of_handler hh
  have hitems := items_cons hh
  unfold State.deliverData
  cases hk : s.openStreams.lookup k with
  | none => exact h.quiet hh rfl rfl rfl
  | some o =>
    have ht : Books (s.onQueue (.response o.channel) (·.pushIfRoom bytes)) := h.beside rfl
    dsimp only
    split
    · split
      · exact ht.update hn hk (stays_finish o) hitems
      · exact h.quiet hh rfl rfl rfl
    · exact ht.update hn hk (stays_fail o _) hitems
    · exact ht.update hn hk ⟨rfl, rfl⟩ hitems

theorem counted_countCall {i : Item} {cluster : String} {outcome : CallOutcome}
    (h : s.counted.map Prod.fst = if s.config.metrics then s.settled else []) :
    (s.countCall i cluster outcome).counted.map Prod.fst =
      if s.config.metrics then (s.countCall i cluster outcome).settled else [] := by
  unfold State.countCall
  cases hm : s.config.metrics with
  | false => simpa [hm] using h
  | true => simp [h, hm]

theorem Books.micro (h : Books s) (hh : s.handler = m :: rest) : Books (s.micro m rest) := by
  have hn := running_of_handler hh
  have hitems := items_cons hh
  cases m with
  | push r item =>
    refine h.quiet hh rfl ?_ rfl
    cases r <;> rfl
  | data k bytes endStream => exact h.deliverData hh
  | stopped k =>
    cases hk : s.openStreams.lookup k with
    | none =>
      simp only [State.micro, hk]
      exact h.quiet hh rfl rfl rfl
    | some o =>
      simp only [State.micro, hk]
      exact h.update hn hk ⟨rfl, rfl⟩ hitems
  | resetStopped o reason =>
    refine h.callback hn rfl ?_ (fun _ => id) (fun _ => id) h.counted
    have hclose := (stays_resetByEnvoy
      { o with outcome := some (o.stoppedByFiber (s.channels o.channel).timedOut) } reason).close
    simp only [State.atWork, State.micro, List.flatMap_append, hclose, hitems]
    exact .refl _
  | setTrailers n trailers => exact h.quiet hh rfl rfl rfl
  | cancelRequest n => exact h.quiet hh rfl rfl rfl
  | wantReset n => exact h.quiet hh rfl rfl rfl
  | wake r => exact h.quiet hh rfl rfl rfl
  | checkWriter n =>
    refine h.quiet hh rfl rfl ?_
    simp only [State.micro]
    split <;> rfl
  | count item cluster outcome =>
    refine h.callback hn rfl ?_ (fun _ => id) (fun _ => id) ?_
    · rw [List.perm_iff_count]
      intro i
      simp only [State.atWork, State.micro, State.countCall, hitems, List.count_append, Micro.items]
      omega
    · exact counted_countCall h.counted

end Micro

end Ruvoy.Upstream
