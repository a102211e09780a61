import Ruvoy.Upstream.Ends

/-!
# Every call and stream is counted once

Once `on_stream_complete` has run, what was accepted has been handed out and counted once each, with
its response over; what was refused was never sent nor counted.

* `Micro.cost`, `cost`: the accesses a callback can still come to;
* `leads_idle`: `on_stream_complete` and `drop` come to their end by the worker's own steps;
* **`upstream_counted_once`**: what holds of every item in every run.
-/

set_option autoImplicit false

namespace Ruvoy.Upstream

open Runs

variable {s t : State}

/-! ## The callback comes to its end -/

/-- An access, with those it can add. -/
def Micro.cost : Micro → ℕ
  | .data .. => 4
  | .resetStopped .. => 9
  | .checkWriter _ => 2
  | _ => 1

/-- The accesses a list can come to. -/
def cost (l : List Micro) : ℕ := (l.map Micro.cost).sum

theorem cost_cons (m : Micro) (l : List Micro) : cost (m :: l) = m.cost + cost l := by
  rw [cost, List.map_cons, List.sum_cons, cost]

theorem cost_append (l l' : List Micro) : cost (l ++ l') = cost l + cost l' := by
  rw [cost, List.map_append, List.sum_append, cost, cost]

theorem cost_close_resetByEnvoy (o : OpenStream) (reason : ResetReason) :
    cost (OpenStream.close (o.resetByEnvoy reason)) ≤ 8 := by
  have hreset : cost (o.resetByEnvoy reason).2 ≤ 4 := by
    unfold OpenStream.resetByEnvoy
    dsimp only
    split <;> split <;> exact Nat.le_of_ble_eq_true rfl
  rw [OpenStream.close, cost_append, cost_append]
  have hwake : cost (wakeStream (o.resetByEnvoy reason).1.channel) = 3 := rfl
  have hcount : cost [Micro.count (o.resetByEnvoy reason).1.item (o.resetByEnvoy reason).1.cluster
    (o.resetByEnvoy reason).1.counted] = 1 := rfl
  omega

/-- The end of the request is not taken back, and a callback leaves `outer` alone. -/
theorem micro_frame (m : Micro) (rest : List Micro) :
    (s.micro m rest).stage = s.stage ∧ (s.micro m rest).outer = s.outer := by
  cases m with
  | push r x => cases r <;> exact ⟨rfl, rfl⟩
  | data k bytes endStream =>
    simp only [State.micro, State.deliverData]
    cases hk : s.openStreams.lookup k with
    | none => exact ⟨rfl, rfl⟩
    | some o =>
      dsimp only
      split
      · split <;> exact ⟨rfl, rfl⟩
      · exact ⟨rfl, rfl⟩
      · exact ⟨rfl, rfl⟩
  | stopped k =>
    simp only [State.micro]
    split <;> exact ⟨rfl, rfl⟩
  | _ => exact ⟨rfl, rfl⟩

theorem cost_micro (m : Micro) (rest : List Micro) :
    cost (s.micro m rest).handler < cost (m :: rest) := by
  rw [cost_cons]
  cases m with
  | data k bytes endStream =>
    have hcost : (Micro.data k bytes endStream).cost = 4 := rfl
    simp only [State.micro, State.deliverData]
    cases hk : s.openStreams.lookup k with
    | none =>
      dsimp only
      omega
    | some o =>
      dsimp only
      split
      · split
        · rw [State.update, cost_append, show cost o.finish.2 = 1 from rfl]
          omega
        · dsimp only
          omega
      · rw [State.update, cost_append]
        have : ∀ error, cost (o.fail error).2 = 3 := fun _ => rfl
        rw [this]
        omega
      · rw [State.update, cost_append, show cost [Micro.stopped k] = 1 from rfl]
        omega
  | stopped k =>
    have hcost : (Micro.stopped k).cost = 1 := rfl
    simp only [State.micro]
    split
    · dsimp only
      omega
    · simp only [State.update, List.nil_append]
      omega
  | resetStopped o reason =>
    have hcost : (Micro.resetStopped o reason).cost = 9 := rfl
    have hclose := cost_close_resetByEnvoy
      { o with outcome := some (o.stoppedByFiber (s.channels o.channel).timedOut) } reason
    simp only [State.micro, cost_append]
    omega
  | checkWriter n =>
    have hcost : (Micro.checkWriter n).cost = 2 := rfl
    have hwake : (Micro.wake (.request n)).cost = 1 := rfl
    simp only [State.micro]
    split
    · rw [cost_cons]
      omega
    · omega
  | _ => exact Nat.lt_add_of_pos_left Nat.one_pos

/-- The worker goes on by itself. -/
def Worker : Action → Prop
  | .work | .order .. => True
  | _ => False

theorem leads_drained {stage : Stage} :
    ∀ (n : ℕ) (s : State), cost s.handler ≤ n → s.outer = [] → s.stage = stage →
      system.Leads Worker (fun t => t.idle = true ∧ t.stage = stage) s := by
  intro n
  induction n with
  | zero =>
    intro s hn ho hs
    cases hh : s.handler with
    | nil => exact .here ⟨idle_iff.mpr ⟨hh, ho⟩, hs⟩
    | cons m rest =>
      have := cost_micro (s := s) m rest
      rw [hh] at hn
      omega
  | succ n ih =>
    intro s hn ho hs
    cases hh : s.handler with
    | nil => exact .here ⟨idle_iff.mpr ⟨hh, ho⟩, hs⟩
    | cons m rest =>
      have hcost := cost_micro (s := s) m rest
      rw [hh] at hn
      have hstep : system.step s .work = some (s.micro m rest) := by
        show step s .work = _
        simp only [step, hh]
      refine .next (a := .work) trivial hstep (ih _ (by omega) ?_ ?_)
      · rw [(micro_frame m rest).2, ho]
      · rw [(micro_frame m rest).1, hs]

/-- **`on_stream_complete` and `drop` come to their end by the worker's own steps.** -/
theorem leads_idle (h : Books s) (hs : s.stage ≠ .live) :
    system.Leads Worker (fun t => t.idle = true ∧ t.stage = s.stage) s := by
  have habandon : ∀ c, s.handler = [] → s.outer = [.abandon c] →
      system.Leads Worker (fun t => t.idle = true ∧ t.stage = s.stage) s := by
    intro c hh ho
    have hstep : system.step s (.order s.inFlight.keys s.openStreams.keys) =
        some (s.abandonUpstreams c [] s.inFlight.keys s.openStreams.keys) := by
      show s.ordered _ _ = _
      simp only [State.ordered, hh, ho, List.Perm.refl, and_self, if_true]
    exact .next (a := .order _ _) trivial hstep (leads_drained _ _ (Nat.le_refl _) rfl rfl)
  have hp := h.phase
  unfold Phase at hp
  cases hstage : s.stage with
  | live => exact absurd hstage hs
  | complete =>
    rw [hstage] at hp habandon
    rcases hp with ⟨hh, ho, -⟩ | ⟨ho, -⟩
    · exact habandon true hh ho
    · exact leads_drained _ _ (Nat.le_refl _) ho hstage
  | dropped =>
    rw [hstage] at hp habandon
    rcases hp with ⟨hh, ho | ho, -⟩
    · exact habandon false hh ho
    · exact leads_drained _ _ (Nat.le_refl _) ho hstage

/-! ## The counts -/

theorem Books.handed_nodup (h : Books s) : s.handed.Nodup := by
  have hacc := (List.nodup_append.mp h.once).1
  exact (List.nodup_append.mp (h.queued.nodup_iff.mp hacc)).2.1

theorem settled_sublist (s : State) : s.settled.Sublist s.inHand :=
  (List.sublist_append_right _ _).trans (List.sublist_append_right _ _)

theorem Books.settled_nodup (h : Books s) : s.settled.Nodup :=
  (h.handed.nodup_iff.mp h.handed_nodup).sublist (settled_sublist s)

theorem Books.accepted_of_handed (h : Books s) {i : Item} (hi : i ∈ s.handed) : i ∈ s.accepted :=
  h.queued.mem_iff.mpr (List.mem_append_right _ hi)

theorem Books.handed_of_settled (h : Books s) {i : Item} (hi : i ∈ s.settled) : i ∈ s.handed :=
  h.handed.mem_iff.mpr ((settled_sublist s).subset hi)

/-- `on_stream_complete` has returned. -/
def Completed (s : State) : Prop := s.stage = .complete ∧ s.idle = true ∨ s.stage = .dropped

/-- Once `on_stream_complete` has returned nothing is in the worker's hands. -/
theorem Books.empty_handed (h : Books s) (hc : Completed s) :
    s.handler = [] ∧ s.outer.flatMap Outer.items = [] ∧ Shut s := by
  rcases hc with ⟨hs, hidle⟩ | hs
  · obtain ⟨hh, ho⟩ := idle_iff.mp hidle
    exact ⟨hh, by rw [ho]; rfl, h.phase.shut ho (by rw [hs]; rintro ⟨⟩)⟩
  · have hp := h.phase
    unfold Phase at hp
    rw [hs] at hp
    obtain ⟨hh, ho, hshut⟩ := hp
    refine ⟨hh, ?_, hshut⟩
    rcases ho with ho | ho <;> rw [ho] <;> rfl

/-- All that was accepted is handed out and counted by then. -/
theorem Books.accepted_perm (h : Books s) (hc : Completed s) :
    s.accepted.Perm s.handed ∧ s.handed.Perm s.settled := by
  obtain ⟨hh, ho, hshut⟩ := h.empty_handed hc
  constructor
  · have hq := h.queued
    rw [State.waiting, hshut.queued, hshut.streams] at hq
    exact hq
  · have hin := h.handed
    rw [State.inHand, State.atWork, hh, ho, hshut.inFlight, hshut.openStreams] at hin
    exact hin

/-- **Every accepted call and stream ends once and is counted once.** Nothing is handed out or counted
twice; `on_stream_complete` and `drop` come to their end; when the first has, every item that was
accepted was handed out once, its response has ended or is cancelled, and one outcome is counted for
it; an item that was refused is not handed out, not sent and not counted. -/
theorem upstream_counted_once (hr : system.Reachable s) :
    (s.handed.Nodup ∧ s.settled.Nodup ∧ (s.counted.map Prod.fst).Nodup) ∧
      (s.stage ≠ .live →
        system.Leads Worker (fun t => t.idle = true ∧ t.stage = s.stage) s) ∧
      (Completed s → ∀ i ∈ s.accepted,
        s.handed.count i = 1 ∧ isOver (s.response i) = true ∧ s.settled.count i = 1 ∧
          (s.config.metrics = true → (s.counted.map Prod.fst).count i = 1)) ∧
      ∀ i ∈ s.refused, i ∉ s.accepted ∧ i ∉ s.handed ∧ (∀ r ∈ s.requests, i ∉ r.items) ∧
        i ∉ s.settled ∧ i ∉ s.counted.map Prod.fst := by
  have h := Books.of_reachable hr
  have hcounted := h.counted
  refine ⟨⟨h.handed_nodup, h.settled_nodup, ?_⟩, leads_idle h, fun hc i hi => ?_, fun i hi => ?_⟩
  · rw [hcounted]
    split
    · exact h.settled_nodup
    · exact .nil
  · obtain ⟨hacc, hset⟩ := h.accepted_perm hc
    have hhanded := hacc.mem_iff.mp hi
    have hsettled := hset.mem_iff.mp hhanded
    refine ⟨List.count_eq_one_of_mem h.handed_nodup hhanded,
      (Ended.of_reachable hr).settled i hsettled,
      List.count_eq_one_of_mem h.settled_nodup hsettled, fun hm => ?_⟩
    rw [hcounted, if_pos hm]
    exact List.count_eq_one_of_mem h.settled_nodup hsettled
  · have hacc : i ∉ s.accepted := fun hacc => (List.nodup_append.mp h.once).2.2 i hacc i hi rfl
    have hhanded : i ∉ s.handed := fun hmem => hacc (h.accepted_of_handed hmem)
    have hsettled : i ∉ s.settled := fun hmem => hhanded (h.handed_of_settled hmem)
    refine ⟨hacc, hhanded, fun r hr hmem => hhanded (h.sent r hr i hmem), hsettled, ?_⟩
    rw [hcounted]
    split
    · exact hsettled
    · rintro ⟨⟩

/-- A call that is reset, one that is refused, a stream left open, a stream and a call queued at the
end of the request, and a call queued after it. -/
def mixedRun : List Action :=
  [.queue "a" [] [] 0, .queueStream "b" [] 0 false, .queue "c" [] [] 0, .event, .work, .work, .work,
    .returns .Success 7, .work, .returns .ClusterNotFound 0, .work, .work, .work, .work, .work,
    .returns .Success 5, .order [] [5], .work, .work, .calloutDone 7 .Reset none none, .work, .work,
    .work, .queueStream "d" [] 0 true, .complete, .queue "e" [] [] 0, .order [] [5], .work, .work,
    .work, .work, .work, .work, .work, .work, .work, .work, .work, .work, .work, .work, .work, .work,
    .queue "f" [] [] 0]

theorem upstream_counted_once_mixedRun :
    ∃ s, system.run { config := { settings := ⟨10, 10⟩ } } mixedRun = some s ∧
      s.accepted = [.call 0, .stream 0, .call 1, .stream 1, .call 2] ∧ s.refused = [.call 3] ∧
      (∀ i ∈ s.accepted, s.handed.count i = 1 ∧ isOver (s.response i) = true ∧ s.settled.count i = 1 ∧
        (s.config.metrics = true → (s.counted.map Prod.fst).count i = 1)) ∧
      .call 3 ∉ s.counted.map Prod.fst := by
  have hrun : system.run { config := { settings := ⟨10, 10⟩ } } mixedRun = some _ := rfl
  have h := upstream_counted_once (System.reach_of_run ⟨_, rfl⟩ hrun)
  refine ⟨_, hrun, rfl, rfl, h.2.2.1 (Or.inl ⟨rfl, rfl⟩), ?_⟩
  exact (h.2.2.2 (.call 3) List.mem_cons_self).2.2.2.2

end Ruvoy.Upstream
