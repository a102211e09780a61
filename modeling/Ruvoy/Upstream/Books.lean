import Ruvoy.Upstream.Books.Abandon

/-!
# Every step keeps the accounts

* `Books.refuses`, `Books.accepts`: what a fiber queues is refused, or waits;
* `Books.calloutDone`, `Books.onOpenStream`, `Books.onFinished`: what Envoy reports;
* **`Books.step`**, `Books.of_reachable`: every call and stream is in one place in every state of every run.
-/

set_option autoImplicit false

namespace Ruvoy.Upstream

open Runs

variable {s t : State}

/-! ## The fibers -/

section Queue

variable {i : Item}

theorem Books.fresh (h : Books s) (hi : ¬ s.knows i) : i ∉ s.accepted ++ s.refused :=
  fun hmem => hi (h.known i hmem)

theorem Books.refuses (h : Books s) (hi : ¬ s.knows i) (hti : t.knows i)
    (hmono : ∀ j, s.knows j → t.knows j)
    (ht : t = { s with
      nextCall := t.nextCall, nextChannel := t.nextChannel, channels := t.channels,
      refused := s.refused ++ [i] }) : Books t := by
  have hall : t.accepted ++ t.refused = (s.accepted ++ s.refused) ++ [i] := by
    rw [ht, List.append_assoc]
  refine ⟨?_, ?_, ?_, ?_, ?_, ?_, ?_, ?_, ?_⟩
  · rw [ht]; exact h.queued
  · rw [ht]; exact h.handed
  · rw [hall]
    intro j hj
    rcases List.mem_append.mp hj with hmem | hmem
    · exact hmono j (h.known j hmem)
    · rw [List.mem_singleton.mp hmem]
      exact hti
  · rw [hall, ← List.concat_eq_append]
    exact h.once.concat (h.fresh hi)
  · rw [ht]; exact h.callouts
  · rw [ht]; exact h.handles
  · rw [ht]; exact h.counted
  · rw [ht]; exact h.sent
  · rw [ht]
    exact h.phase.same rfl rfl rfl rfl fun h0 => ⟨h0.1, h0.2, h0.3, h0.4, h0.5, h0.6⟩

/-- Another item is queued, which the route takes only while it is open. -/
theorem Books.accepts (h : Books s) (hi : ¬ s.knows i) (hti : t.knows i)
    (hmono : ∀ j, s.knows j → t.knows j) (hopen : s.closed = false)
    (ht : t = { s with
      nextCall := t.nextCall, nextChannel := t.nextChannel, channels := t.channels,
      queued := t.queued, streams := t.streams, accepted := s.accepted ++ [i] })
    (hw : t.waiting.Perm (i :: s.waiting)) : Books t := by
  have hacc : t.accepted = s.accepted ++ [i] := by rw [ht]
  have href : t.refused = s.refused := by rw [ht]
  have hhanded : t.handed = s.handed := by rw [ht]
  have hall : (t.accepted ++ t.refused).Perm (i :: (s.accepted ++ s.refused)) := by
    rw [hacc, href, List.append_assoc, List.singleton_append]
    exact List.perm_middle
  refine ⟨?_, ?_, ?_, ?_, ?_, ?_, ?_, ?_, ?_⟩
  · rw [hacc, hhanded]
    exact List.perm_append_comm.trans
      ((h.queued.cons i).trans (hw.symm.append_right s.handed))
  · rw [ht]; exact h.handed
  · intro j hj
    rcases List.mem_cons.mp (hall.mem_iff.mp hj) with rfl | hmem
    · exact hti
    · exact hmono j (h.known j hmem)
  · exact hall.nodup_iff.mpr (List.nodup_cons.mpr ⟨h.fresh hi, h.once⟩)
  · rw [ht]; exact h.callouts
  · rw [ht]; exact h.handles
  · rw [ht]; exact h.counted
  · rw [ht]; exact h.sent
  · rw [ht]
    exact h.phase.same rfl rfl rfl rfl fun h0 =>
      absurd (hopen.symm.trans h0.closed) Bool.false_ne_true

end Queue

theorem Books.queue (h : Books s) (cluster : String) (headers : Fields) (body : Bytes)
    (timeout : ℕ) : Books (s.queue cluster headers body timeout) := by
  have hi : ¬ s.knows (.call s.nextCall) := Nat.lt_irrefl _
  have hmono : ∀ (t : State), t.nextCall = s.nextCall + 1 → t.nextChannel = s.nextChannel →
      ∀ j, s.knows j → t.knows j := by
    rintro t hc hn (n | n) hj
    · exact Nat.lt_of_lt_of_le hj (hc ▸ Nat.le_succ _)
    · exact Nat.lt_of_lt_of_eq hj hn.symm
  simp only [State.queue]
  split
  · exact h.refuses hi (Nat.lt_succ_self _) (hmono _ rfl rfl) rfl
  · rename_i hopen
    refine h.accepts hi (Nat.lt_succ_self _) (hmono _ rfl rfl) (Bool.eq_false_iff.mpr hopen) rfl ?_
    rw [List.perm_iff_count]
    intro j
    simp only [State.waiting, List.map_append, List.count_append, List.map_cons, List.map_nil,
      UpstreamRequest.item, List.count_cons, List.count_nil]
    omega

theorem Books.queueStream (h : Books s) (cluster : String) (headers : Fields) (timeout : ℕ)
    (hasBody : Bool) : Books (s.queueStream cluster headers timeout hasBody) := by
  have hi : ¬ s.knows (.stream s.nextChannel) := Nat.lt_irrefl _
  have hmono : ∀ (t : State), t.nextCall = s.nextCall → t.nextChannel = s.nextChannel + 1 →
      ∀ j, s.knows j → t.knows j := by
    rintro t hc hn (n | n) hj
    · exact Nat.lt_of_lt_of_eq hj hc.symm
    · exact Nat.lt_of_lt_of_le hj (hn ▸ Nat.le_succ _)
  simp only [State.queueStream]
  split
  · cases hasBody <;> exact h.refuses hi (Nat.lt_succ_self _) (hmono _ rfl rfl) rfl
  · rename_i hopen
    have hw : (s.queued.map (·.item) ++ (s.streams ++
        [(⟨s.nextChannel, cluster, headers, timeout⟩ : UpstreamStreamRequest)]).map (·.item)).Perm
        (.stream s.nextChannel :: s.waiting) := by
      rw [List.perm_iff_count]
      intro j
      simp only [State.waiting, List.map_append, List.count_append, List.map_cons, List.map_nil,
        UpstreamStreamRequest.item, List.count_cons, List.count_nil]
      omega
    cases hasBody <;>
      exact h.accepts hi (Nat.lt_succ_self _) (hmono _ rfl rfl) (Bool.eq_false_iff.mpr hopen) rfl hw

theorem Books.fiber (h : Books s) {op : FiberOp} (ht : s.fiber op = some t) : Books t := by
  cases op with
  | take r =>
    simp only [State.fiber, Option.ite_none_right_eq_some, Option.some.injEq] at ht
    obtain ⟨-, rfl⟩ := ht
    cases r <;> exact h.beside rfl
  | park r v =>
    simp only [State.fiber, Option.ite_none_right_eq_some, Option.some.injEq] at ht
    obtain ⟨-, rfl⟩ := ht
    cases r <;> exact h.beside rfl
  | unpark r =>
    cases ht
    cases r <;> exact h.beside rfl
  | write n bytes => cases ht; exact h.beside rfl
  | finish n => cases ht; exact h.beside rfl
  | parkWriter n v => cases ht; exact h.beside rfl
  | close n => cases ht; exact h.beside rfl
  | timeOut n => cases ht; exact h.beside rfl

/-- What the Ruby thread does of a close. -/
inductive RubyMoves (s : State) : State → Prop
  | response {n : ℕ} (ruby : s.ruby = .closeResponse n) :
      RubyMoves s { s.onQueue (.response n) (·.cancel) with ruby := .closeRequest n }
  | request {n : ℕ} (ruby : s.ruby = .closeRequest n) :
      RubyMoves s { s.onQueue (.request n) (·.cancel) with ruby := .wantReset n }
  | reset {n : ℕ} (ruby : s.ruby = .wantReset n) :
      RubyMoves s { s.setChannel n ({ · with resetWanted := true }) with ruby := .idle }

theorem rubyStep_moves (ht : s.rubyStep = some t) : RubyMoves s t := by
  unfold State.rubyStep at ht
  split at ht
  · cases ht
  · rename_i n hruby
    cases ht
    exact .response hruby
  · rename_i n hruby
    cases ht
    exact .request hruby
  · rename_i n hruby
    cases ht
    exact .reset hruby

theorem Books.rubyStep (h : Books s) (ht : s.rubyStep = some t) : Books t := by
  cases rubyStep_moves ht <;> exact h.beside rfl

/-! ## The callbacks -/

theorem items_deliver (call : ℕ) (items : List StreamItem) :
    (items.map (Micro.push (.call call))).flatMap Micro.items = [] := by
  rw [List.flatMap_map]
  exact List.flatMap_eq_nil_iff.mpr fun _ _ => rfl

theorem callable_handler (h : s.callable = true) : s.handler = [] := by
  simp only [State.callable, Bool.and_eq_true, List.isEmpty_iff] at h
  exact h.1.2

theorem Books.calloutDone (h : Books s) (hc : s.callable = true) (id : ℕ) (result : CalloutResult)
    (headers : Option Headers) (body : Option (List Bytes)) :
    Books (s.onHttpCalloutDone id result headers body) := by
  have hh := callable_handler hc
  unfold State.onHttpCalloutDone
  cases hk : s.inFlight.lookup id with
  | none => exact h
  | some call =>
    refine h.callback (running_of_callable hc) rfl ?_ ?_ (fun _ hmem => hmem) h.counted
    · have hvalues := (Table.values_perm hk).map (·.item)
      rw [List.perm_iff_count] at hvalues ⊢
      intro i
      have hi := hvalues i
      simp only [State.atWork, hh, List.flatMap_append, items_deliver, List.flatMap_cons,
        List.flatMap_nil, Micro.items, List.count_append, List.count_nil, List.map_cons,
        List.count_cons] at hi ⊢
      omega
    · exact fun k hmem => (AList.mem_erase.mp hmem).2

theorem Books.onOpenStream (h : Books s) (hc : s.callable = true) {k : ℕ}
    {f : OpenStream → OpenStream × List Micro} (hf : ∀ o, Stays o (f o)) :
    Books (s.onOpenStream k f) := by
  unfold State.onOpenStream
  cases hk : s.openStreams.lookup k with
  | none => exact h
  | some o =>
    refine h.update (running_of_callable hc) hk (hf o) ?_
    rw [callable_handler hc]
    rfl

theorem Books.onFinished (h : Books s) (hc : s.callable = true) {k : ℕ}
    {f : OpenStream → List Micro} (hf : ∀ o, (f o).flatMap Micro.items = [o.item]) :
    Books (s.onFinished k f) := by
  have hh := callable_handler hc
  unfold State.onFinished
  cases hk : s.openStreams.lookup k with
  | none => exact h
  | some o =>
    refine h.callback (running_of_callable hc) rfl ?_ (fun _ => id) ?_ h.counted
    · have hvalues := (Table.values_perm hk).map (·.item)
      rw [List.perm_iff_count] at hvalues ⊢
      intro i
      have hi := hvalues i
      simp only [State.atWork, hh, hf o, List.flatMap_nil, List.count_append, List.count_nil,
        List.map_cons, List.count_cons] at hi ⊢
      omega
    · exact fun k' hmem => (AList.mem_erase.mp hmem).2

/-! ## Every step -/

theorem reports_callable {k : ℕ} (h : s.reports k = true) : s.callable = true := by
  simp only [State.reports, Bool.and_eq_true] at h
  exact h.1.1

/-- **Every step keeps the books.** -/
theorem Books.step {a : Action} (h : Books s) (ht : step s a = some t) : Books t := by
  cases step_moves ht with
  | queue _ cluster headers body timeout => exact h.queue cluster headers body timeout
  | queueStream _ cluster headers timeout hasBody =>
    exact h.queueStream cluster headers timeout hasBody
  | fiber _ ht => exact h.fiber ht
  | ruby ht => exact h.rubyStep ht
  | event hidle => exact h.event hidle
  | complete hidle hs => exact h.complete hidle hs
  | drop hidle hs => exact h.drop hidle hs
  | @calloutDone id hc _ _ result headers body =>
    exact (h.calloutDone hc id result headers body).beside rfl
  | streamHeaders hr headers endStream =>
    exact h.onOpenStream (reports_callable hr) fun o => stays_headersArrived o headers endStream
  | @streamData k hr data endStream =>
    exact h.onOpenStream (reports_callable hr) fun o => stays_dataArrived o k data endStream
  | streamTrailers hr trailers =>
    exact h.onOpenStream (reports_callable hr) fun o => stays_trailersArrived o trailers
  | @streamComplete k hr =>
    exact (h.onFinished (k := k) (reports_callable hr)
      fun o => (stays_completed o).close).beside rfl
  | @streamReset k hr reason =>
    exact (h.onFinished (k := k) (reports_callable hr)
      fun o => items_onReset o reason).beside rfl
  | micro hh => exact h.micro hh
  | outerStep hh ho ht => exact h.outerStep hh ho ht
  | returns ht => exact h.envoyReturns ht
  | order ht => exact h.ordered ht
  | takeWakeups => exact h.beside rfl
  | @resolve r => cases r <;> exact h.beside rfl

theorem Books.of_reachable (hr : system.Reachable s) : Books s :=
  hr.induct (by rintro _ ⟨config, rfl⟩; exact Books.init config) fun _ _ _ h _ ht => h.step ht

end Ruvoy.Upstream
