import Ruvoy.Upstream.Requests.Pump

/-!
# A stream is started

A start carries the first item of the request queue, and Envoy may report on the new stream before it
returns the handle.

* `firstAsked`, `startState`: what the start asks, and what it leaves;
* `Legal.firstItem`: nothing was asked about a channel before its start;
* `Legal.returned`: the handle is new, and the table has it from then on.
-/

set_option autoImplicit false

namespace Ruvoy.Upstream

open Runs

variable {s t : State} {e e' : Notes}

/-! ## The start of a stream -/

section Start

variable {r : UpstreamStreamRequest} {rest : List Outer}

theorem Books.nodup_inHand (h : Books s) : s.inHand.Nodup := by
  have hacc := (List.nodup_append.mp h.once).1
  exact h.handed.nodup_iff.mp (List.nodup_append.mp (h.queued.nodup_iff.mp hacc)).2.1

/-- A stream at the head of the worker's list is nowhere else on it, nor in the queue. -/
theorem Books.head_once (h : Books s) {o : Outer} (ho : s.outer = o :: rest) (hi : o.items = [r.item]) :
    r.item ∉ s.waiting ∧ r.item ∉ rest.flatMap Outer.items := by
  have hin : r.item ∈ s.inHand := by
    rw [State.inHand, ho, List.flatMap_cons, hi]
    exact List.mem_cons_self
  constructor
  · have hacc := (List.nodup_append.mp h.once).1
    have hnd := List.nodup_append.mp (h.queued.nodup_iff.mp hacc)
    exact fun hw => hnd.2.2 _ hw _ (h.handed.mem_iff.mpr hin) rfl
  · have hnd := h.nodup_inHand
    rw [State.inHand, ho, List.flatMap_cons, hi, List.append_assoc, List.singleton_append] at hnd
    exact fun hmem => (List.nodup_cons.mp hnd).1 (List.mem_append_left _ hmem)

/-- Requests about a handle that was not given out are starts. -/
theorem Legal.filter_fresh (h : Legal s e) {k c : ℕ} (hk : k ∉ s.handles) (hc : ¬ s.started c) :
    s.requests.filter (·.about k c) = [] := by
  refine List.filter_eq_nil_iff.mpr fun q hq habout => ?_
  cases q with
  | callout => cases habout
  | start n cluster headers body ended timeout =>
    rw [eq_of_beq habout] at hq
    exact hc (List.mem_flatMap.mpr ⟨_, hq, List.mem_cons_self⟩)
  | send n data endStream =>
    refine hk ?_
    rw [← eq_of_beq habout]
    exact h.asked _ hq _ rfl
  | reset n =>
    refine hk ?_
    rw [← eq_of_beq habout]
    exact h.asked _ hq _ rfl

/-- What the first item of a body goes out as. -/
def firstAsked (s : State) (r : UpstreamStreamRequest) : Asked where
  cluster := r.cluster
  headers := withTrace r.headers (s.trace.getD [])
  body := match (s.request r.channel).stream.takeNext.1 with
    | some (.Chunk chunk) => some chunk
    | _ => none
  ended := (s.request r.channel).stream.takeNext.1 == some .End
  timeoutMs := if r.timeout = 0 then 0 else deadlineMs r.timeout

theorem firstAsked_body (htaken : (s.request r.channel).taken = []) :
    bodyOf (s.request r.channel).takeNext.taken = (firstAsked s r).bytes ∧
      ((firstAsked s r).ended = true → .End ∈ (s.request r.channel).takeNext.taken) := by
  rcases (s.request r.channel).takeNext_cases with ⟨-, hnone, hsame⟩ | ⟨x, -, -, hsome, -, htook, -⟩
  · rw [hsame, htaken]
    simp only [Asked.bytes, firstAsked, hnone]
    exact ⟨rfl, by rintro ⟨⟩⟩
  · rw [htook, htaken]
    simp only [Asked.bytes, firstAsked, hsome]
    cases x with
    | Chunk b => exact ⟨rfl, by rintro ⟨⟩⟩
    | End => exact ⟨rfl, fun _ => List.mem_cons_self⟩
    | Head head => exact ⟨rfl, by rintro ⟨⟩⟩
    | Failed error => exact ⟨rfl, by rintro ⟨⟩⟩

/-- A stream without a body is started with its end, unless its queue is cancelled. -/
theorem firstAsked_bodiless (hb : Bodies s e) (htaken : (s.request r.channel).taken = [])
    (hless : r.channel ∈ e.bodiless) :
    (firstAsked s r).ended = true ∨ (s.request r.channel).takeNext.stream.cancelled = true := by
  by_cases hcan : (s.request r.channel).stream.cancelled = true
  · exact Or.inr (ResponseStream.takeNext_cancelled.trans hcan)
  · rw [Bool.not_eq_true] at hcan
    have hacc : (s.request r.channel).accepted = [.End] := by
      refine (hb.bodiless _ hless).resolve_right fun hno => ?_
      rw [hcan] at hno
      cases hno.2
    have hitems : (s.request r.channel).stream.items = [.End] := by
      rw [← (s.request r.channel).conserve hcan, htaken] at hacc
      exact hacc
    rcases (s.request r.channel).takeNext_cases with ⟨hidle, -⟩ | ⟨x, items, hx, hsome, -⟩
    · rw [hitems, hb.unpaused] at hidle
      rcases hidle with h | h <;> cases h
    · rw [hitems] at hx
      cases hx
      exact Or.inl (by simp only [firstAsked, hsome]; rfl)

/-- The state in which a stream is being started. -/
def startState (s : State) (r : UpstreamStreamRequest) (rest : List Outer) : State :=
  { s.onQueue (.request r.channel) (·.takeNext) with
    requests := s.requests ++ [.start r.channel (firstAsked s r).cluster (firstAsked s r).headers
      (firstAsked s r).body (firstAsked s r).ended (firstAsked s r).timeoutMs]
    outer := .inStart r (firstAsked s r).ended :: rest }

theorem started_startState (c : ℕ) :
    (startState s r rest).started c ↔ s.started c ∨ c = r.channel := by
  rw [State.started, startState, List.flatMap_append, List.mem_append, State.started,
    List.flatMap_singleton]
  refine or_congr_right (List.mem_singleton.trans ?_)
  exact ⟨Item.stream.inj, congrArg Item.stream⟩

theorem request_startState (c : ℕ) :
    (startState s r rest).request c =
      if c = r.channel then (s.request r.channel).takeNext else s.request c :=
  request_take (s := s) c

theorem cancelled_startState (c : ℕ) (hc : (s.request c).stream.cancelled = true) :
    ((startState s r rest).request c).stream.cancelled = true := by
  rw [request_startState]
  split
  · rename_i heq
    rw [heq] at hc
    exact ResponseStream.takeNext_cancelled.trans hc
  · exact hc

theorem Trail.startState {k c : ℕ} {a : Asked} (h : Trail s e k c a) (hc : c ≠ r.channel) :
    Trail (startState s r rest) e k c a := by
  refine ⟨?_, h.once, ?_, ?_, h.called, ?_, h.opened⟩
  · refine (filter_about_append (s := s) _ k c fun q hq => ?_).trans h.asked
    rw [List.mem_singleton.mp hq]
    exact beq_false_of_ne (Ne.symm hc)
  · rw [request_startState, if_neg hc]
    exact h.bytes
  · rw [request_startState, if_neg hc]
    exact h.whole
  · exact fun hless => (h.bodiless hless).imp_right (cancelled_startState c)

theorem Legal.firstItem (h : Legal s e) (hbooks : Books s) (hb : Bodies s e)
    (ho : s.outer = .firstItem r :: rest) : Legal (startState s r rest) e := by
  have hunsent : .stream r.channel ∈ s.waiting ++ s.outer.flatMap Outer.unsent := by
    rw [ho]
    exact List.mem_append_right _ List.mem_cons_self
  have hnew : ¬ s.started r.channel := fun hs => h.unsent _ hs hunsent
  have htaken := h.untouched _ hnew
  have hitems : (startState s r rest).outer.flatMap Outer.items = s.outer.flatMap Outer.items := by
    rw [ho]
    rfl
  have hin : .stream r.channel ∈ s.waiting ++ s.outer.flatMap Outer.items := by
    rw [ho]
    exact List.mem_append_right _ List.mem_cons_self
  obtain ⟨hwait, hrest⟩ := hbooks.head_once ho (r := r) rfl
  refine ⟨h.live, h.finished, ?_, h.handles, h.once, h.channels, h.owned, ?_, ?_, ?_, ?_, ?_, ?_, ?_, ?_⟩
  · intro q hq k hk
    rcases List.mem_append.mp hq with hq | hq
    · exact h.asked q hq k hk
    · rw [List.mem_singleton.mp hq] at hk
      cases hk
  · intro p hp
    rw [hitems]
    exact h.past p hp
  · intro c hstarted hmem
    have hrestUnsent : .stream c ∈ s.waiting ++ rest.flatMap Outer.unsent := hmem
    rcases (started_startState c).mp hstarted with hwas | rfl
    · refine h.unsent c hwas ?_
      rw [ho, List.flatMap_cons]
      rcases List.mem_append.mp hrestUnsent with hw | hr
      · exact List.mem_append_left _ hw
      · exact List.mem_append_right _ (List.mem_append_right _ hr)
    · rcases List.mem_append.mp hrestUnsent with hw | hr
      · exact hwait hw
      · obtain ⟨o, hmem, hi⟩ := List.mem_flatMap.mp hr
        exact hrest (List.mem_flatMap.mpr ⟨o, hmem, mem_items_of_unsent hi⟩)
  · intro c hno
    rw [started_startState, not_or] at hno
    rw [request_startState, if_neg hno.2]
    exact h.untouched c hno.1
  · exact fun k o hk hsent => wants_onQueue (s := s) (.request r.channel) (·.takeNext) _
      (h.wanted k o hk hsent)
  · intro k hk
    refine h.tail k ?_
    rw [ho]
    exact hk
  · rintro k rest' ⟨⟩
  · intro r' b hmem
    rcases List.mem_cons.mp hmem with heq | hmem
    · cases heq
      refine ⟨firstAsked s r, ⟨rfl, rfl, rfl, rfl⟩, fun k hk => ?_⟩
      obtain ⟨hbytes, hend⟩ := firstAsked_body htaken
      refine ⟨?_, fun _ => ⟨rfl, rfl⟩, ?_, ?_, by rintro ⟨⟩, ?_, ?_⟩
      · have habout : ∀ {cluster headers body ended timeout},
            (EnvoyRequest.start r.channel cluster headers body ended timeout).about k r.channel = true :=
          beq_self_eq_true r.channel
        refine (filter_about_concat (s := s) habout).trans ?_
        rw [h.filter_fresh hk hnew]
        rfl
      · rw [request_startState, if_pos rfl]
        exact hbytes
      · rw [request_startState, if_pos rfl, Asked.whole, show (firstAsked s r).fin = false from rfl,
          Bool.or_false]
        exact hend
      · intro hless
        rw [request_startState, if_pos rfl]
        exact firstAsked_bodiless hb htaken hless
      · exact fun o hk' => absurd (hbooks.handles k (mem_of_lookup hk')) hk
    · have hold : .inStart r' b ∈ s.outer := by
        rw [ho]
        exact List.mem_cons_of_mem _ hmem
      obtain ⟨a, hfresh, ha⟩ := h.starting r' b hold
      refine ⟨a, hfresh, fun k hk => (ha k hk).startState fun heq => hrest ?_⟩
      refine List.mem_flatMap.mpr ⟨_, hmem, ?_⟩
      exact List.mem_singleton.mpr (congrArg Item.stream heq.symm)
  · intro p hp
    obtain ⟨a, ha⟩ := h.trails p hp
    refine ⟨a, ha.startState fun heq => h.past p hp ?_⟩
    rw [heq]
    exact hin

theorem Legal.returned (h : Legal s e) (hbooks : Books s) {b : Bool} {id : ℕ}
    (ho : s.outer = .inStart r b :: rest) (hid : id ∉ s.handles) :
    Legal { s with
      openStreams := s.openStreams.insert id
        { channel := r.channel, cluster := r.cluster, requestEnded := b }
      handles := id :: s.handles
      outer := rest } { e with owner := (id, r.channel) :: e.owner } := by
  have hmem : .inStart r b ∈ s.outer := by
    rw [ho]
    exact List.mem_cons_self
  have hin : .stream r.channel ∈ s.waiting ++ s.outer.flatMap Outer.items := by
    rw [ho]
    exact List.mem_append_right _ List.mem_cons_self
  have hsub : ∀ {f : Outer → List Item} {i : Item}, i ∈ s.waiting ++ rest.flatMap f →
      i ∈ s.waiting ++ s.outer.flatMap f := by
    intro f i hi
    rw [ho, List.flatMap_cons]
    rcases List.mem_append.mp hi with hw | hr
    · exact List.mem_append_left _ hw
    · exact List.mem_append_right _ (List.mem_append_right _ hr)
  have hlook := lookup_insert s.openStreams id
    { channel := r.channel, cluster := r.cluster, requestEnded := b }
  obtain ⟨hwait, hrest⟩ := hbooks.head_once ho (r := r) rfl
  -- a stream that is not the new one has the trail it had
  have htrail : ∀ {k c : ℕ} {a : Asked}, k ≠ id → Trail s e k c a →
      Trail { s with
        openStreams := s.openStreams.insert id
          { channel := r.channel, cluster := r.cluster, requestEnded := b }
        handles := id :: s.handles
        outer := rest } { e with owner := (id, r.channel) :: e.owner } k c a := by
    intro k c a hne ha
    refine ⟨ha.asked, ha.once, ha.bytes, ha.whole, ha.called, ha.bodiless, fun o hk => ?_⟩
    rw [hlook, if_neg hne] at hk
    exact ha.opened o hk
  refine ⟨?_, ?_, ?_, ?_, ?_, ?_, ?_, ?_, ?_, h.untouched, ?_, ?_, ?_, ?_, ?_⟩
  · intro k hk hfin
    rcases AList.mem_insert _ |>.mp hk with rfl | hk
    · exact hid (h.finished k hfin)
    · exact h.live k hk hfin
  · exact fun k hk => List.mem_cons_of_mem _ (h.finished k hk)
  · exact fun q hq k hk => List.mem_cons_of_mem _ (h.asked q hq k hk)
  · rw [List.map_cons, h.handles]
  · exact List.nodup_cons.mpr ⟨hid, h.once⟩
  · refine List.nodup_cons.mpr ⟨fun hc => ?_, h.channels⟩
    obtain ⟨p, hp, heq⟩ := List.mem_map.mp hc
    refine h.past p hp ?_
    rw [heq]
    exact hin
  · intro k o hk
    rw [hlook] at hk
    split at hk
    · rename_i heq
      cases hk
      rw [heq]
      exact List.mem_cons_self
    · exact List.mem_cons_of_mem _ (h.owned k o hk)
  · intro p hp
    rcases List.mem_cons.mp hp with rfl | hp
    · exact fun hc => (List.mem_append.mp hc).elim hwait hrest
    · exact fun hc => h.past p hp (hsub hc)
  · exact fun c hstarted hc => h.unsent c hstarted (hsub hc)
  · intro k o hk hsent
    rw [hlook] at hk
    split at hk
    · cases hk
      cases hsent
    · exact h.wanted k o hk hsent
  · intro k hk
    refine h.tail k ?_
    rw [ho]
    exact List.mem_of_mem_tail hk
  · intro k rest' heq
    have hhead : rest = .pumpTake k :: rest' := heq
    refine absurd ?_ (h.tail k)
    rw [ho, List.tail_cons, hhead]
    exact List.mem_cons_self
  · intro r' b' hmem'
    have hold : .inStart r' b' ∈ s.outer := by
      rw [ho]
      exact List.mem_cons_of_mem _ hmem'
    obtain ⟨a, hfresh, ha⟩ := h.starting r' b' hold
    refine ⟨a, hfresh, fun k hk => ?_⟩
    rw [List.mem_cons, not_or] at hk
    exact htrail hk.1 (ha k hk.2)
  · intro p hp
    rcases List.mem_cons.mp hp with rfl | hp
    · obtain ⟨a, ⟨hended, -, hfin, hrst⟩, ha⟩ := h.starting r b hmem
      have hnew := ha id hid
      refine ⟨a, hnew.asked, hnew.once, hnew.bytes, hnew.whole, hnew.called, hnew.bodiless, ?_⟩
      intro o hk
      rw [hlook, if_pos rfl] at hk
      cases hk
      rw [Asked.whole, hended, hfin, hrst, Bool.or_false]
      exact ⟨rfl, rfl⟩
    · obtain ⟨a, ha⟩ := h.trails p hp
      exact ⟨a, htrail (fun heq => hid (heq ▸ h.owner_handle hp)) ha⟩

end Start

end Ruvoy.Upstream
