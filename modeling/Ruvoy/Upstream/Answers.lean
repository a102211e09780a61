import Ruvoy.Upstream.Speech

/-!
# What a call is told

* `Answers`: a call has been told, or is about to be told, what Envoy reported of it, or one failure
  when Envoy reported nothing; and a fiber that waits for it is woken once it has been told;
* `Answers.step`, **`Answers.of_reachable`**: every step keeps this.
-/

set_option autoImplicit false

namespace Ruvoy.Upstream

open Runs

variable {s t : State}

/-! ## The invariant -/

theorem sealed_told (r : Report) (limit : ℕ) : Fifo.Sealed StreamItem.terminal (r.told limit) := by
  unfold Report.told deliver
  dsimp only
  split
  · rename_i head body _
    cases hbody : body.isEmpty with
    | true => simp [Fifo.Sealed]
    | false => simp [Fifo.Sealed]
  · simp [Fifo.Sealed]

theorem saying_failures_of_ne {n : ℕ} {calls : List (ℕ × String)} (h : n ∉ calls.map Prod.fst) :
    saying n (failures calls) = [] := by
  rw [saying, failures, List.flatMap_eq_nil_iff]
  intro m hm
  obtain ⟨c, hc, hmem⟩ := List.mem_flatMap.mp hm
  have hne : c.1 ≠ n := fun heq => h (List.mem_map.mpr ⟨c, hc, heq⟩)
  rcases List.mem_cons.mp hmem with rfl | hw
  · exact if_neg hne
  · rw [List.mem_singleton.mp hw]
    rfl

theorem saying_failures {calls : List (ℕ × String)} (hn : (calls.map Prod.fst).Nodup)
    {c : ℕ × String} (hc : c ∈ calls) :
    saying c.1 (failures calls) = [.Failed (.Upstream c.2)] := by
  obtain ⟨before, after, rfl⟩ := List.append_of_mem hc
  rw [List.map_append, List.map_cons, List.nodup_append, List.nodup_cons] at hn
  have hbefore : c.1 ∉ before.map Prod.fst := fun h => hn.2.2 _ h _ List.mem_cons_self rfl
  have hone : failures (c :: after) =
      .push (.call c.1) (.Failed (.Upstream c.2)) :: .wake (.call c.1) :: failures after := rfl
  rw [failures, List.flatMap_append, ← failures, ← failures, saying_append,
    saying_failures_of_ne hbefore, hone, List.nil_append, saying, List.flatMap_cons,
    List.flatMap_cons, ← saying, saying_failures_of_ne hn.2.1.1]
  simp [Micro.saying]

theorem heralded_failures (calls : List (ℕ × String)) : Heralded (failures calls) := by
  refine heralded_flatMap fun c => ⟨fun n hn => ?_, fun n hn => absurd rfl hn, trivial⟩
  by_cases hcn : c.1 = n
  · exact hcn ▸ List.mem_cons_self
  · exact absurd (if_neg hcn) hn

structure Answers (s : State) (e : List Report) : Prop where
  reported : ∀ r ∈ e, s.said r.call = r.told s.config.settings.maxResponseBytes
  unreported : ∀ n, (∀ r ∈ e, r.call ≠ n) →
    s.said n = [] ∨ ∃ text, s.said n = [.Failed (.Upstream text)]
  done : ∀ n, s.said n ≠ [] → .call n ∈ s.done
  opened : ∀ n, (s.calls n).stream.cancelled = false ∧ (s.calls n).stream.paused = false
  heralded : Heralded s.handler
  heard : ∀ n, parked (s.calls n) = true → (s.calls n).stream.ended = true →
    .wake (.call n) ∈ s.handler ∨ s.listed (.call n)

namespace Answers

variable {e : List Report} {a : Action}

theorem init (config : Config) : Answers { config := config } [] := by
  refine ⟨by rintro _ ⟨⟩, fun n _ => Or.inl rfl, fun n hn => absurd rfl hn, fun n => ⟨rfl, rfl⟩,
    trivial, ?_⟩
  rintro n ⟨⟩

theorem said_sealed (h : Answers s e) (n : ℕ) : Fifo.Sealed StreamItem.terminal (s.said n) := by
  by_cases hr : ∃ r ∈ e, r.call = n
  · obtain ⟨r, hr, rfl⟩ := hr
    rw [h.reported r hr]
    exact sealed_told r _
  · rcases h.unreported n fun r hm heq => hr ⟨r, hm, heq⟩ with hn | ⟨text, ht⟩
    · rw [hn]
      exact Fifo.sealed_nil
    · rw [ht]
      simp [Fifo.Sealed]

/-- What is left to tell is taken when it is told. -/
theorem push_said (h : Answers s e) {n : ℕ} {x : StreamItem} {rest : List Micro}
    (hh : s.handler = .push (.call n) x :: rest) :
    ((s.calls n).push x).accepted = (s.calls n).accepted ++ [x] ∧
      s.said n = (s.calls n).accepted ++ x :: saying n rest := by
  have hsaid : s.said n = (s.calls n).accepted ++ x :: saying n rest := by
    rw [State.said, hh, saying, List.flatMap_cons, Micro.saying, if_pos rfl]
    rfl
  have hended : (s.calls n).stream.ended = false := by
    rw [← Tracked.any_terminal, List.any_eq_false]
    intro y hy
    have hs := h.said_sealed n
    rw [hsaid, Fifo.Sealed, List.dropLast_append_of_ne_nil (List.cons_ne_nil _ _)] at hs
    rw [hs y (List.mem_append_left _ hy)]
    exact Bool.false_ne_true
  rcases Tracked.push_cases (s.calls n) x with ⟨hshut, -⟩ | ⟨-, -, hacc, -⟩
  · rw [(h.opened n).1, hended] at hshut
    cases hshut
  · exact ⟨hacc, hsaid⟩

/-- Between callbacks a call has all that was said to it. -/
theorem said_begins (ht : step s a = some t) (hh : s.handler = []) (n : ℕ) :
    t.said n = s.said n ++ saying n t.handler := by
  have hturn := calls_step ht n
  have hsaid : s.said n = (s.calls n).accepted := by
    rw [State.said, hh]
    exact List.append_nil _
  rw [State.said, hsaid]
  generalize t.calls n = q at hturn
  cases hturn with
  | pushed _ hh' =>
    rw [hh] at hh'
    cases hh'
  | _ => rfl

theorem said_rests (ht : step s a = some t) (hrest : a = .work → s.handler = [])
    (hl : t.handler = s.handler) (n : ℕ) : t.said n = s.said n := by
  have hturn := calls_step ht n
  rw [State.said, State.said, hl]
  generalize t.calls n = q at hturn
  cases hturn with
  | pushed ha hh =>
    rw [hrest ha] at hh
    cases hh
  | _ => rfl

theorem said_goesOn (h : Answers s e) (ht : step s .work = some t) {m : Micro} {rest l : List Micro}
    (hh : s.handler = m :: rest) (hl : t.handler = l ++ rest) (hmute : Mute l) (n : ℕ) :
    t.said n = s.said n := by
  have hturn := calls_step ht n
  have hlater : saying n t.handler = saying n rest := by
    rw [hl, saying_append, saying_of_mute n hmute, List.nil_append]
  generalize hq : t.calls n = q at hturn
  rw [State.said, hlater, hq]
  cases hturn with
  | same hsame =>
    have hm : m.saying n = [] := by
      cases m with
      | push r x =>
        cases r with
        | call k =>
          refine if_neg fun hkn => hsame rfl x rest ?_
          rw [hh, hkn]
        | _ => rfl
      | _ => rfl
    rw [State.said, hh, saying, saying, List.flatMap_cons, hm, List.nil_append]
  | pushed _ hh' =>
    obtain ⟨hacc, hsaid⟩ := h.push_said hh'
    rw [hh] at hh'
    obtain ⟨-, rfl⟩ := List.cons.inj hh'
    rw [hacc, hsaid, List.append_assoc]
    rfl
  | taken ha => cases ha
  | parked ha => cases ha
  | unparked ha => cases ha
  | resolved ha => cases ha

/-- Nothing was said to a call that is not counted. -/
theorem said_of_not_done (h : Answers s e) {n : ℕ} (hnot : .call n ∉ s.done) : s.said n = [] := by
  by_contra hne
  exact hnot (h.done _ hne)

/-- A call is told what it was about to be told, or it begins to be told an answer. -/
theorem said_step (h : Answers s e) (hb : Books s) (ht : step s a = some t) (n : ℕ) :
    (t.said n = s.said n ∧ ∀ r ∈ report s a e, r.call = n → r ∈ e) ∨
      s.said n = [] ∧ .call n ∈ t.done ∧
        ((∃ r, r.call = n ∧ report s a e = e ++ [r] ∧
            t.said n = r.told s.config.settings.maxResponseBytes) ∨
          report s a e = e ∧ ∃ text, t.said n = [.Failed (.Upstream text)]) := by
  have hspeech := speech_step hb ht
  generalize hl : t.handler = l at hspeech
  cases hspeech with
  | rests hrest hrep =>
    exact Or.inl ⟨said_rests ht hrest hl n, fun r hr _ => hrep e ▸ hr⟩
  | goesOn ha hh hmute =>
    subst ha
    exact Or.inl ⟨h.said_goesOn ht hh hl hmute n, fun r hr _ => hr⟩
  | @answered r l hh hrep hmute hwake hitem hnot =>
    have hnew := said_begins ht hh n
    rw [hl] at hnew
    by_cases hrn : r.call = n
    · subst hrn
      have hnil := h.said_of_not_done hnot
      refine Or.inr ⟨hnil, ?_, Or.inl ⟨r, rfl, hrep e, ?_⟩⟩
      · rw [State.done, hl, List.flatMap_append]
        exact List.mem_append_left _ (List.mem_append_right _ hitem)
      · rw [hnew, hnil, saying_append, saying_pushes, saying_of_mute _ hmute]
        simp
    · refine Or.inl ⟨?_, fun q hq hqn => ?_⟩
      · rw [hnew, saying_append, saying_pushes_ne hrn, saying_of_mute _ hmute]
        simp
      · rw [hrep e] at hq
        rcases List.mem_append.mp hq with hold | hthis
        · exact hold
        · rw [List.mem_singleton.mp hthis] at hqn
          exact absurd hqn hrn
  | @failed calls l hh hrep hmute hnodup hcalls =>
    have hnew := said_begins ht hh n
    rw [hl] at hnew
    by_cases hn : n ∈ calls.map Prod.fst
    · obtain ⟨c, hc, rfl⟩ := List.mem_map.mp hn
      obtain ⟨hitem, hnot⟩ := hcalls c hc
      have hnil := h.said_of_not_done hnot
      refine Or.inr ⟨hnil, ?_, Or.inr ⟨hrep e, c.2, ?_⟩⟩
      · rw [State.done, hl, List.flatMap_append]
        exact List.mem_append_left _ (List.mem_append_right _ hitem)
      · rw [hnew, hnil, saying_append, saying_failures hnodup hc, saying_of_mute _ hmute]
        rfl
    · refine Or.inl ⟨?_, fun r hr _ => hrep e ▸ hr⟩
      rw [hnew, saying_append, saying_failures_of_ne hn, saying_of_mute _ hmute]
      simp

theorem mem_report {r : Report} (hr : r ∈ e) : r ∈ report s a e := by
  unfold report
  split
  · exact List.mem_append_left _ hr
  · exact hr

theorem told_ne_nil (r : Report) (limit : ℕ) : r.told limit ≠ [] := by
  obtain ⟨x, hx, -⟩ := exists_terminal_deliver r.result r.headers r.body limit
  exact List.ne_nil_of_mem hx

theorem opened_step (h : Answers s e) (ht : step s a = some t) (n : ℕ) :
    (t.calls n).stream.cancelled = false ∧ (t.calls n).stream.paused = false := by
  have ho := h.opened n
  have hturn := calls_step ht n
  generalize t.calls n = q at hturn
  cases hturn with
  | same => exact ho
  | pushed =>
    exact ⟨(ResponseStream.push_cancelled _).trans ho.1, (ResponseStream.push_paused _).trans ho.2⟩
  | taken =>
    exact ⟨ResponseStream.takeNext_cancelled.trans ho.1, ResponseStream.takeNext_paused.trans ho.2⟩
  | parked =>
    exact ⟨(ResponseStream.park_cancelled _).trans ho.1, (ResponseStream.park_paused _).trans ho.2⟩
  | unparked => exact ho
  | resolved => exact ho

theorem heralded_step (h : Answers s e) (hb : Books s) (ht : step s a = some t) :
    Heralded t.handler := by
  have hspeech := speech_step hb ht
  have hh := h.heralded
  generalize t.handler = l at hspeech
  cases hspeech with
  | rests => exact hh
  | goesOn _ hhandler hmute =>
    rw [hhandler] at hh
    exact (heralded_of_mute hmute).append hh.2
  | answered _ _ hmute hwake => exact heralded_pushes _ hwake (heralded_of_mute hmute)
  | failed _ _ hmute => exact (heralded_failures _).append (heralded_of_mute hmute)

/-- A wakeup that is about to be owed is owed, or still about to be. -/
theorem wake_step (hb : Books s) (ht : step s a = some t) {n : ℕ}
    (hw : .wake (.call n) ∈ s.handler) :
    .wake (.call n) ∈ t.handler ∨ t.listed (.call n) := by
  have hspeech := speech_step hb ht
  generalize hl : t.handler = l at hspeech
  cases hspeech with
  | rests => exact Or.inl hw
  | @goesOn m rest l ha hh hmute =>
    subst ha
    rw [hh] at hw
    rcases List.mem_cons.mp hw with rfl | hlater
    · simp only [step, hh, Option.some.injEq] at ht
      refine Or.inr (Or.inl ?_)
      rw [← ht]
      exact List.mem_append_right _ List.mem_cons_self
    · exact Or.inl (List.mem_append_right _ hlater)
  | answered hh =>
    rw [hh] at hw
    cases hw
  | failed hh =>
    rw [hh] at hw
    cases hw

theorem heard_step (h : Answers s e) (hb : Books s) (ht : step s a = some t) {n : ℕ}
    (hp : parked (t.calls n) = true) (hended : (t.calls n).stream.ended = true) :
    .wake (.call n) ∈ t.handler ∨ t.listed (.call n) := by
  have hgo : (a = .resolve → ∀ rest, s.resolving ≠ .call n :: rest) →
      .wake (.call n) ∈ s.handler ∨ s.listed (.call n) →
      .wake (.call n) ∈ t.handler ∨ t.listed (.call n) := by
    rintro hr (hw | hl)
    · exact wake_step hb ht hw
    · refine Or.inr ((listed_step ht hl).resolve_right ?_)
      rintro ⟨ha, rest, hq⟩
      exact hr ha rest hq
  have hturn := calls_step ht n
  generalize t.calls n = q at hturn hp hended
  cases hturn with
  | same _ hr => exact hgo hr (h.heard n hp hended)
  | @pushed x rest ha hh =>
    have hwake : .wake (.call n) ∈ rest := by
      have hher := h.heralded
      rw [hh] at hher
      refine hher.1 n ?_
      rw [Micro.saying, if_pos rfl]
      exact List.cons_ne_nil _ _
    exact wake_step hb ht (hh ▸ List.mem_cons_of_mem _ hwake)
  | taken ha =>
    refine hgo (by rw [ha]; rintro ⟨⟩) (h.heard n ?_ ?_)
    · rwa [parked, show (s.calls n).takeNext.stream.waiter = (s.calls n).stream.waiter from
        ResponseStream.takeNext_waiter] at hp
    · rwa [show (s.calls n).takeNext.stream.ended = (s.calls n).stream.ended from
        ResponseStream.takeNext_ended] at hended
  | @parked v ha =>
    have he : (s.calls n).stream.ended = true := by
      rwa [show ((s.calls n).park v).stream.ended = (s.calls n).stream.ended from
        ResponseStream.park_ended v] at hended
    refine hgo (by rw [ha]; rintro ⟨⟩) (h.heard n ?_ he)
    have hstay : ((s.calls n).park v).stream.waiter = (s.calls n).stream.waiter := by
      rcases ResponseStream.park_cases (s.calls n).stream v with ⟨-, hpark⟩ | ⟨-, hopen, -⟩
      · exact congrArg (fun q => q.2.waiter) hpark
      · rw [he] at hopen
        cases hopen
    rwa [Upstream.parked, hstay] at hp
  | unparked => cases hp
  | resolved => cases hp

theorem step (h : Answers s e) (hb : Books s) (ht : Upstream.step s a = some t) :
    Answers t (report s a e) := by
  have hlimit : t.config = s.config := (frame_step ht).1
  refine ⟨fun r hr => ?_, fun n hn => ?_, fun n hn => ?_, h.opened_step ht, h.heralded_step hb ht,
    fun n hp hended => h.heard_step hb ht hp hended⟩
  · rw [hlimit]
    rcases h.said_step hb ht r.call with ⟨hsame, hold⟩ | ⟨hnil, -, ⟨q, -, hrep, hsaid⟩ | ⟨hrep, -⟩⟩
    · rw [hsame]
      exact h.reported r (hold r hr rfl)
    · rw [hrep] at hr
      rcases List.mem_append.mp hr with hold | hthis
      · exact absurd ((h.reported r hold).symm.trans hnil) (told_ne_nil r _)
      · rw [List.mem_singleton.mp hthis] at hsaid ⊢
        exact hsaid
    · rw [hrep] at hr
      exact absurd ((h.reported r hr).symm.trans hnil) (told_ne_nil r _)
  · have hold : ∀ r ∈ e, r.call ≠ n := fun r hr => hn r (mem_report hr)
    rcases h.said_step hb ht n with ⟨hsame, -⟩ | ⟨-, -, ⟨q, hq, hrep, -⟩ | ⟨-, htext⟩⟩
    · rw [hsame]
      exact h.unreported n hold
    · refine absurd hq (hn q ?_)
      rw [hrep]
      exact List.mem_append_right _ List.mem_cons_self
    · exact Or.inr htext
  · rcases h.said_step hb ht n with ⟨hsame, -⟩ | ⟨-, hdone, -⟩
    · rw [hsame] at hn
      exact done_step hb ht (h.done n hn)
    · exact hdone

end Answers

/-- **A call is told what Envoy reported of it, or one failure, and is woken then.** -/
theorem Answers.of_reachable {p : State × List Report} (hr : reporting.Reachable p) :
    Answers p.1 p.2 ∧ Books p.1 := by
  refine System.Reach.inductNoted (P := fun s e => Answers s e ∧ Books s) ?_ ?_ hr
  · rintro _ ⟨config, rfl⟩
    exact ⟨Answers.init config, Books.init config⟩
  · rintro s e a t ⟨h, hb⟩ - ht
    exact ⟨h.step hb ht, hb.step ht⟩

end Ruvoy.Upstream
