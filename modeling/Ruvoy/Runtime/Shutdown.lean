import Ruvoy.Rack.Close
import Ruvoy.Runtime.Calls

/-!
# What becomes of the calls when the runtime shuts down

The reactor stops reading the channel at the `Shutdown`, and the receiver is dropped only with the VM.
A call sent in between is accepted, and nobody ever sees it.

* `Inv.receive`, `Inv.start`, `Inv.exit`, `Inv.fiber`: the steps of the runtime thread keep the
  invariant, and with them every step does (`Inv.step`);
* `unanswered_iff`: in every run, the calls that are accepted and not answered are those sent behind
  the `Shutdown`;
* **`calls_answered`**: there are none, when no call is sent between the `Shutdown` and the end of the
  channel;
* `late_call_lost`: a call that is.
-/

set_option autoImplicit false

namespace Ruvoy.Runtime

open Runs

variable {V : Type} {s t : State V} {n m : Notes}

/-! ## Passes of the reactor -/

theorem beforeShutdown_cons {c : Command} (hc : c ≠ .Shutdown) (rest : List Command) :
    beforeShutdown (c :: rest) = c :: beforeShutdown rest := by
  simp [beforeShutdown, hc]

theorem Inv.received (h : Inv s n) {c : Command} {rest : List Command} (hc : s.commands = c :: rest)
    (hcall : c.isCall = false) {p : Stage} (hp : p.gone = s.stage.gone) {d : Bool}
    (hd : d = true ↔ s.shuttingDown = true ∨ c = .Shutdown)
    (hst : StageOk { s with commands := rest, stage := p, shuttingDown := d } p) :
    Inv { s with commands := rest, stage := p, shuttingDown := d } n := by
  have hne : ∀ i, c ≠ .Call i := by
    intro i he
    rw [he] at hcall
    cases hcall
  have horder := h.order
  rw [hc, List.pairwise_cons] at horder
  refine ⟨fun j => (h.tasks j).beside ⟨?_, Iff.rfl, id, ?_, id, Iff.rfl, ?_⟩, hst, h.clients, ?_,
    ?_, ?_, ?_, horder.2⟩
  · rw [hc, List.mem_cons]
    exact ⟨Or.inr, fun hm => hm.resolve_left fun he => hne j he.symm⟩
  · exact fun hg => hp.trans hg
  · intro hdf
    have hno : ¬ (s.shuttingDown = true ∨ c = .Shutdown) := fun hs => by
      have hdt := hd.mpr hs
      exact absurd (hdt.symm.trans hdf) (by rintro ⟨⟩)
    rw [not_or] at hno
    refine ⟨by simpa using hno.1, fun hm => ?_⟩
    rw [hc, beforeShutdown_cons hno.2]
    exact List.mem_cons_of_mem _ hm
  · intro hdt
    rcases hd.mp hdt with hs | hs
    · exact h.shutdown hs
    · exact h.told (by rw [hc, hs]; exact List.mem_cons_self)
  · exact fun hm => h.told (by rw [hc]; exact List.mem_cons_of_mem _ hm)
  · intro hs
    rcases h.sent hs with hsd | hm
    · exact Or.inl (hd.mpr (Or.inl hsd))
    · rw [hc, List.mem_cons] at hm
      rcases hm with he | hm
      · exact Or.inl (hd.mpr (Or.inr he.symm))
      · exact Or.inr hm
  · intro hdt i hm
    rcases hd.mp hdt with hs | hs
    · exact h.sealed hs i (by rw [hc]; exact List.mem_cons_of_mem _ hm)
    · exact horder.1 (.Call i) hm hs i rfl

theorem Inv.unqueue (h : Inv s n) {i : ℕ} {rest : List Command} (hc : s.commands = .Call i :: rest)
    (hst : s.stage = .receiving) : Inv (s.unqueue i rest) n := by
  have hi := h.tasks i
  have hd : s.shuttingDown = false := by
    have hstage := h.stage
    rw [hst] at hstage
    exact hstage
  have hbe : i ∉ n.behind := by
    intro hm
    apply hi.order hm hd
    rw [hc, beforeShutdown_cons (by rintro ⟨⟩)]
    exact List.mem_cons_self
  have horder := h.order
  rw [hc, List.pairwise_cons] at horder
  refine ⟨tasks_update h.tasks rfl ?_ fun j hj => ?_, ?_, h.clients, h.shutdown, ?_, ?_, ?_, horder.2⟩
  · refine ⟨List.mem_append_right _ (List.mem_singleton_self _), hi.pending, ?_, hi.late, ?_, ?_⟩
    · rintro ⟨⟩
    · exact fun hm => absurd hm hbe
    · exact fun hm => absurd hm hbe
  · refine ⟨?_, ?_, id, id, id, Iff.rfl, fun hs => ⟨hs, fun hm => ?_⟩⟩
    · rw [hc, List.mem_cons]
      exact ⟨Or.inr, fun hm => hm.resolve_left fun he => hj (Command.Call.inj he)⟩
    · show j ∈ s.batch ++ [i] ↔ _
      rw [List.mem_append, List.mem_singleton]
      exact ⟨fun hm => hm.resolve_right hj, Or.inl⟩
    · rw [hc, beforeShutdown_cons (by rintro ⟨⟩)]
      exact List.mem_cons_of_mem _ hm
  · show StageOk _ s.stage
    rw [hst]
    exact hd
  · exact fun hm => h.told (by rw [hc]; exact List.mem_cons_of_mem _ hm)
  · intro hs
    refine (h.sent hs).imp id fun hm => ?_
    rw [hc, List.mem_cons] at hm
    exact hm.resolve_left (by rintro ⟨⟩)
  · exact fun hs => absurd (hs.symm.trans hd) (by rintro ⟨⟩)

theorem Inv.receive (h : Inv s n) (hst : s.stage = .receiving) : Inv s.receive n := by
  have hd : s.shuttingDown = false := by
    have hstage := h.stage
    rw [hst] at hstage
    exact hstage
  unfold State.receive
  split
  · next hc =>
    have hsent : s.shutdownSent = false := by
      by_contra hs
      rcases h.sent (by simpa using hs) with hsd | hm
      · exact absurd (hsd.symm.trans hd) (by rintro ⟨⟩)
      · rw [hc] at hm
        cases hm
    have hcl : s.clients = true := by
      by_contra hcl
      have := h.clients (by simpa using hcl)
      exact absurd (this.symm.trans hsent) (by rintro ⟨⟩)
    refine ⟨fun j => ?_, trivial, h.clients, ?_, h.told, ?_, ?_, h.order⟩
    · refine (h.tasks j).beside ⟨Iff.rfl, Iff.rfl, id, ?_, id, Iff.rfl, fun _ => ⟨hd, id⟩⟩
      rw [hst]
      rintro ⟨⟩
    · rw [hcl]
      rintro ⟨⟩
    · exact fun hs => absurd (hs.symm.trans hsent) (by rintro ⟨⟩)
    · rw [hcl]
      rintro ⟨⟩
  · next i rest hc => exact h.unqueue hc hst
  · next rest hc =>
    refine h.received hc rfl ?_ ?_ trivial
    · rw [hst]
      rfl
    · simp
  · next c rest hcall hshut hc =>
    have hcallf : c.isCall = false := by
      cases c with
      | Call i => exact absurd rfl (hcall i)
      | _ => rfl
    have hne : c ≠ .Shutdown := hshut
    refine h.received (p := s.stage) (d := s.shuttingDown) hc hcallf rfl ?_ ?_
    · simp [hne]
    · rw [hst]
      exact hd

theorem Inv.async (h : Inv s n) {i : ℕ} {rest : List ℕ} (hb : s.batch = i :: rest)
    (hst : s.stage = .starting) : Inv (s.async i rest) n := by
  have hi := h.tasks i
  have hin : i ∈ s.batch := by
    rw [hb]
    exact List.mem_cons_self
  have hbe : i ∉ n.behind := by
    intro hm
    have hplace := hi.place
    rcases hi.behind hm with hp | hp
    · rw [hp] at hplace
      exact hplace.2 hin
    · rw [hp] at hplace
      have hg : s.stage.gone = true := hplace.1
      rw [hst] at hg
      cases hg
  refine ⟨tasks_update h.tasks rfl ?_ fun j hj => ?_, ?_, h.clients, h.shutdown, h.told, h.sent,
    h.sealed, h.order⟩
  · refine ⟨List.mem_append_right _ (List.mem_singleton_self _), hi.pending, ?_, hi.late, ?_, ?_⟩
    · rintro ⟨⟩
    · exact fun hm => absurd hm hbe
    · exact fun hm => absurd hm hbe
  · refine ⟨Iff.rfl, ?_, List.mem_append_left _, id, id, Iff.rfl, fun hs => ⟨hs, id⟩⟩
    rw [hb, List.mem_cons]
    exact ⟨Or.inr, fun hm => hm.resolve_left hj⟩
  · show StageOk _ s.stage
    rw [hst]
    trivial

theorem Inv.stageTo (h : Inv s n) {p : Stage} (hg : s.stage.gone = true → p.gone = true)
    (hp : StageOk s p) : Inv { s with stage := p } n where
  tasks j := (h.tasks j).beside ⟨Iff.rfl, Iff.rfl, id, hg, id, Iff.rfl, fun hs => ⟨hs, id⟩⟩
  stage := hp.mono rfl rfl rfl fun _ h => h
  clients := h.clients
  shutdown := h.shutdown
  told := h.told
  sent := h.sent
  sealed := h.sealed
  order := h.order

theorem Inv.start (h : Inv s n) (hst : s.stage = .starting) : Inv s.start n := by
  unfold State.start
  split
  · next hb =>
    refine h.stageTo ?_ ?_
    · rw [hst]
      rintro ⟨⟩
    · cases hd : s.shuttingDown with
      | true => exact ⟨hd, hb⟩
      | false => exact ⟨hd, hb⟩
  · next i rest hb => exact h.async hb hst

/-- Calls that are dropped with the channel were sent behind the `Shutdown`. -/
theorem Inv.exit (h : Inv s n) (hst : s.stage = .stopped) : Inv s.exit n := by
  have hstage := h.stage
  rw [hst] at hstage
  obtain ⟨hd, hb, hr⟩ := hstage
  refine ⟨fun j => ?_, ⟨hd, hb, hr, rfl⟩, h.clients, h.shutdown, ?_, fun _ => Or.inl hd, ?_,
    List.Pairwise.nil⟩
  · have hj := h.tasks j
    have hplace := hj.place
    by_cases hp : (s.tasks j).place = .queued
    · rw [show s.exit.tasks j = { s.tasks j with place := .dropped } from if_pos hp]
      rw [hp] at hplace
      refine ⟨⟨rfl, h.sealed hd j hplace.1⟩, hj.pending, fun _ => hj.unseen (by rw [hp]; rfl), hj.late,
        fun _ => Or.inr rfl, ?_⟩
      exact fun _ _ hm => absurd hm (by rintro ⟨⟩)
    · rw [show s.exit.tasks j = s.tasks j from if_neg hp]
      refine ⟨?_, hj.pending, hj.unseen, hj.late, hj.behind, fun _ _ hm => absurd hm (by rintro ⟨⟩)⟩
      cases hpl : (s.tasks j).place with
      | outside | admitted =>
        rw [hpl] at hplace
        exact ⟨by rintro ⟨⟩, hplace.2⟩
      | queued => exact absurd hpl hp
      | dropped =>
        rw [hpl] at hplace
        exact ⟨rfl, hplace.2⟩
      | _ =>
        rw [hpl] at hplace
        exact hplace
  · rintro ⟨⟩
  · exact fun _ _ hm => absurd hm (by rintro ⟨⟩)

/-! ## Fibers -/

/-- A call whose fiber runs, or has run, is neither in the channel nor dropped with it. -/
theorem Place.begun_ne {p : Place} (h : p = .calling ∨ p.begun = true) :
    p ≠ .queued ∧ p ≠ .dropped := by
  rcases h with rfl | hb
  · exact ⟨by rintro ⟨⟩, by rintro ⟨⟩⟩
  · constructor
    · rintro rfl
      cases hb
    · rintro rfl
      cases hb

/-- A step of the fiber leaves the call where it is, in some stage of being answered. -/
theorem Inv.fiber (h : Inv s n) {i : ℕ} (hp : (s.tasks i).place = .responding) {a : Rack.Action}
    {fiber : Rack.State V} (hf : Rack.step (s.tasks i).fiber a = some fiber) :
    Inv (s.put i { s.tasks i with fiber := fiber }) n := by
  have hplace := (h.tasks i).place
  rw [hp] at hplace
  refine h.goes (k := { s.tasks i with fiber := fiber }) (Moves.put s i _) ?_ rfl rfl ?_ (Or.inl rfl)
  · show (s.tasks i).place.Ok _ _ _ _
    rw [hp]
    exact ⟨hplace.1, Rack.step_answers hplace.2 hf⟩
  · show (s.tasks i).place.unseen = true → _
    rw [hp]
    rintro ⟨⟩

theorem Inv.leave (h : Inv s n) {i : ℕ} (ht : step s (.leave i) = some t) : Inv t n := by
  have hplace := (h.tasks i).place
  cases hp : (s.tasks i).place with
  | responding =>
    rw [hp] at hplace
    have hne : (s.tasks i).place ≠ .queued ∧ (s.tasks i).place ≠ .dropped :=
      Place.begun_ne (Or.inr (by rw [hp]; rfl))
    cases hpc : (s.tasks i).fiber.pc with
    | returned result =>
      cases result with
      | ok u =>
        simp only [step, hp, hpc, Option.some.injEq] at ht
        subst ht
        have hset : (s.tasks i).fiber.stream.Settled := hplace.2 (by rw [hpc]; rfl)
        exact h.goes (Moves.complete s i _) hset rfl rfl (by rintro ⟨⟩) (Or.inr hne)
      | error e =>
        simp only [step, hp, hpc, Option.some.injEq] at ht
        subst ht
        exact h.goes (k := { s.tasks i with place := .failing e }) (Moves.put s i _) hplace.1 rfl rfl
          (by rintro ⟨⟩) (Or.inr hne)
    | _ => simp [step, hp, hpc] at ht
  | _ => simp [step, hp] at ht

theorem Inv.pushFailure (h : Inv s n) {i : ℕ} (ht : step s (.pushFailure i) = some t) : Inv t n := by
  cases hp : (s.tasks i).place with
  | failing e =>
    simp only [step, hp, Option.some.injEq] at ht
    subst ht
    refine h.goes (Moves.complete s i _) ((s.tasks i).fiber.stream.settled_push rfl) rfl rfl
      (by rintro ⟨⟩) (Or.inr (Place.begun_ne (Or.inr ?_)))
    rw [hp]
    rfl
  | _ => simp [step, hp] at ht

theorem Place.begun_of_unseen {p : Place} (h : p.unseen = true) : p.begun = false := by
  cases p with
  | outside | admitted | queued | dropped => rfl
  | _ => cases h

theorem accepted_of_consumes (q : Tracked) {op : QueueOp} (h : consumes op = true) :
    (q.apply op).accepted = q.accepted := by
  cases op with
  | takeNext | cancel | setPaused | unpark => rfl
  | _ => cases h

theorem Inv.queue (h : Inv s n) {i : ℕ} {op : QueueOp}
    (hop : consumes op = true ∨ (s.tasks i).place.begun = true) :
    Inv (s.put i { s.tasks i with
      fiber := { (s.tasks i).fiber with stream := (s.tasks i).fiber.stream.apply op } }) n := by
  have hi := h.tasks i
  have hplace := hi.place
  refine h.goes (k := { s.tasks i with
      fiber := { (s.tasks i).fiber with stream := (s.tasks i).fiber.stream.apply op } })
    (Moves.put s i _) ?_ rfl rfl ?_ (Or.inl rfl)
  · show (s.tasks i).place.Ok _ _ _ _
    cases hp : (s.tasks i).place with
    | responding =>
      rw [hp] at hplace
      exact ⟨hplace.1, fun hover => (hplace.2 hover).apply op⟩
    | done =>
      rw [hp] at hplace
      exact Tracked.Settled.apply hplace op
    | _ =>
      rw [hp] at hplace
      exact hplace
  · intro hun
    have hun' : (s.tasks i).place.unseen = true := hun
    have hcon : consumes op = true := hop.resolve_right (by simp [Place.begun_of_unseen hun'])
    exact (accepted_of_consumes _ hcon).trans (hi.unseen hun')

/-- **Every step keeps the invariant.** -/
theorem Inv.step (h : Inv s n) {a : Action} (ht : step s a = some t) : Inv t (note s a n) := by
  cases a with
  | acquire i =>
    simp only [Runtime.step, Option.ite_none_right_eq_some, Option.some.injEq] at ht
    obtain ⟨⟨-, hp⟩, rfl⟩ := ht
    exact h.acquire hp
  | send i =>
    simp only [Runtime.step, Option.ite_none_right_eq_some, Option.some.injEq] at ht
    obtain ⟨⟨-, hp⟩, rfl⟩ := ht
    exact h.send hp
  | signal i =>
    simp only [Runtime.step, Option.ite_none_right_eq_some, Option.some.injEq] at ht
    obtain ⟨⟨-, hs⟩, rfl⟩ := ht
    exact h.signal hs
  | tell draining =>
    simp only [Runtime.step, Option.ite_none_right_eq_some, Option.some.injEq] at ht
    obtain ⟨-, rfl⟩ := ht
    refine h.tell (b := s.shutdownSent) ?_ ?_
    · cases draining <;> rfl
    · cases draining <;> simp
  | shutdown =>
    simp only [Runtime.step, Option.ite_none_right_eq_some, Option.some.injEq] at ht
    obtain ⟨-, rfl⟩ := ht
    exact h.tell rfl (by simp)
  | dropClients =>
    simp only [Runtime.step, Option.ite_none_right_eq_some, Option.some.injEq] at ht
    obtain ⟨hs, rfl⟩ := ht
    exact ⟨fun j => (h.tasks j).beside (Beside.same rfl rfl rfl rfl rfl),
      h.stage.mono rfl rfl rfl fun _ h => h, fun _ => hs, h.shutdown, h.told, h.sent, h.sealed, h.order⟩
  | wake =>
    simp only [Runtime.step, Option.ite_none_right_eq_some, Option.some.injEq] at ht
    obtain ⟨hst, rfl⟩ := ht
    have hstage := h.stage
    rw [hst] at hstage
    refine h.stageTo (by rw [hst]; rintro ⟨⟩) ?_
    split_ifs
    · exact hstage.1
    · trivial
  | receive =>
    simp only [Runtime.step, Option.ite_none_right_eq_some, Option.some.injEq] at ht
    obtain ⟨hst, rfl⟩ := ht
    exact h.receive hst
  | start =>
    simp only [Runtime.step, Option.ite_none_right_eq_some, Option.some.injEq] at ht
    obtain ⟨hst, rfl⟩ := ht
    exact h.start hst
  | finish =>
    simp only [Runtime.step, Option.ite_none_right_eq_some, Option.some.injEq] at ht
    obtain ⟨⟨hst, hr⟩, rfl⟩ := ht
    have hstage := h.stage
    rw [hst] at hstage
    exact h.stageTo (by rw [hst]; rintro ⟨⟩) ⟨hstage.1, hstage.2, hr⟩
  | exit =>
    simp only [Runtime.step, Option.ite_none_right_eq_some, Option.some.injEq] at ht
    obtain ⟨hst, rfl⟩ := ht
    exact h.exit hst
  | close =>
    simp only [Runtime.step, Option.ite_none_right_eq_some, Option.some.injEq] at ht
    obtain ⟨hst, rfl⟩ := ht
    have hstage := h.stage
    rw [hst] at hstage
    exact h.stageTo (fun _ => rfl) hstage
  | returns i =>
    simp only [Runtime.step, Option.ite_none_right_eq_some, Option.some.injEq] at ht
    obtain ⟨hp, rfl⟩ := ht
    have hplace := (h.tasks i).place
    rw [hp] at hplace
    have hne := Place.begun_ne (Or.inl hp)
    refine h.goes (i := i) (Moves.put s i _) ⟨hplace, ?_⟩ rfl rfl ?_ (Or.inr hne)
    · rintro ⟨⟩
    · rintro ⟨⟩
  | fails i error =>
    simp only [Runtime.step, Option.ite_none_right_eq_some, Option.some.injEq] at ht
    obtain ⟨hp, rfl⟩ := ht
    have hplace := (h.tasks i).place
    rw [hp] at hplace
    exact h.goes (k := { s.tasks i with place := .failing error }) (Moves.put s i _) hplace rfl rfl
      (by rintro ⟨⟩) (Or.inr (Place.begun_ne (Or.inl hp)))
  | fiber i a =>
    simp only [Runtime.step, Option.ite_none_right_eq_some, Option.map_eq_some_iff] at ht
    obtain ⟨hp, fiber, hf, rfl⟩ := ht
    exact h.fiber hp hf
  | leave i => exact h.leave ht
  | pushFailure i => exact h.pushFailure ht
  | queue i op =>
    simp only [Runtime.step, Option.ite_none_right_eq_some, Option.some.injEq] at ht
    obtain ⟨hop, rfl⟩ := ht
    exact h.queue hop

theorem Inv.of_reach {C : State V × Notes → Action → Prop} {p : State V × Notes}
    (h : (noted V).Reach C p) : Inv p.1 p.2 := by
  refine System.Reach.inductNoted (P := Inv) ?_ ?_ h
  · rintro s ⟨calls, sizes, capacity, rfl⟩
    refine ⟨fun i => ⟨⟨?_, ?_, rfl, rfl⟩, ?_, fun _ => rfl, ?_, ?_, ?_⟩, ⟨rfl, rfl⟩, ?_, ?_, ?_, ?_, ?_,
      List.Pairwise.nil⟩
    all_goals rintro ⟨⟩
  · intro s n a t hs _ ht
    exact hs.step ht

/-! ## The calls that are answered -/

/-- Its response queue has accepted an `End` or a `Failed`. -/
def State.answered (s : State V) (i : ℕ) : Prop :=
  .End ∈ (s.stream i).accepted ∨ ∃ e, .Failed e ∈ (s.stream i).accepted

/-- Nothing is ever pushed for a call that was sent behind the `Shutdown`. -/
theorem Inv.behind_unanswered (h : Inv s n) {i : ℕ} (hb : i ∈ n.behind) : ¬ s.answered i := by
  have hi := h.tasks i
  have hacc : (s.stream i).accepted = [] := by
    apply hi.unseen
    rcases hi.behind hb with hp | hp <;> rw [hp] <;> rfl
  rintro (hm | ⟨e, hm⟩) <;> rw [hacc] at hm <;> cases hm

/-- When the receiver is gone, a call that was accepted was answered, or came behind. -/
theorem Inv.answered_or (h : Inv s n) (hg : s.stage.gone = true) {i : ℕ}
    (hres : (s.tasks i).result = some (.ok ())) : i ∈ n.behind ∨ (s.stream i).Settled := by
  have hplace := (h.tasks i).place
  obtain ⟨hb, hr, hc⟩ : s.batch = [] ∧ s.running = [] ∧ s.commands = [] := by
    have hstage := h.stage
    cases hst : s.stage with
    | exited | closed =>
      rw [hst] at hstage
      exact hstage.2
    | _ =>
      rw [hst] at hg
      cases hg
  cases hp : (s.tasks i).place with
  | outside | admitted =>
    rw [hp] at hplace
    exact absurd (hplace.2.2.2.symm.trans hres) (by rintro ⟨⟩)
  | refused =>
    rw [hp] at hplace
    obtain ⟨-, e, he⟩ := hplace
    exact absurd (he.symm.trans hres) (by rintro ⟨⟩)
  | queued =>
    rw [hp] at hplace
    exact absurd (hc ▸ hplace.1) (List.not_mem_nil)
  | batched =>
    rw [hp] at hplace
    have hm : i ∈ s.batch := hplace
    rw [hb] at hm
    cases hm
  | calling | failing e =>
    rw [hp] at hplace
    have hm : i ∈ s.running := hplace
    rw [hr] at hm
    cases hm
  | responding =>
    rw [hp] at hplace
    exact absurd (hr ▸ hplace.1) (List.not_mem_nil)
  | done =>
    rw [hp] at hplace
    exact Or.inr hplace
  | dropped =>
    rw [hp] at hplace
    exact Or.inl hplace.2

/-- **In every run**, the accepted calls that were not answered when the receiver is gone are those
sent behind the `Shutdown`, and those whose client left. -/
theorem unanswered_iff {s : State V} {n : Notes} (h : (noted V).Reachable (s, n))
    (hg : s.stage.gone = true) {i : ℕ} (hres : (s.tasks i).result = some (.ok ()))
    (hc : (s.stream i).stream.cancelled = false) : ¬ s.answered i ↔ i ∈ n.behind := by
  have hi : Inv s n := Inv.of_reach h
  refine ⟨fun hno => ?_, hi.behind_unanswered⟩
  refine (hi.answered_or hg hres).resolve_right fun hset => ?_
  rcases hset.cases with hcan | hans
  · exact absurd (hcan.symm.trans hc) (by rintro ⟨⟩)
  · exact hno hans

/-- What the runtime owes those who call it. -/
structure Answers (s : State V) (n : Notes) : Prop where
  /-- Once the receiver is dropped, every accepted call was answered, or its client has left. -/
  answered : s.stage.gone = true → ∀ i, (s.tasks i).result = some (.ok ()) →
    s.answered i ∨ (s.stream i).stream.cancelled = true
  /-- No accepted call is dropped with the channel. -/
  kept : ∀ i, (s.tasks i).result = some (.ok ()) → (s.tasks i).place ≠ .dropped
  /-- A call that comes once the reactor takes no more commands is refused. -/
  refused : ∀ i ∈ n.late, (s.tasks i).result = some (.error .RuntimeStopped)

/-- A call is sent before the `Shutdown`, or when the receiver is gone. -/
def timely (s : State V) : Action → Bool
  | .send _ => !s.shutdownSent || s.stage.gone
  | _ => true

theorem behind_of_timely {p : State V × Notes} (h : (noted V).Reach (fun p a => timely p.1 a) p) :
    p.2.behind = [] := by
  refine System.Reach.inductNoted (P := fun _ n => n.behind = []) (fun _ _ => rfl) ?_ h
  · intro s n a t hs hc _
    cases a with
    | send i =>
      have hc' : (!s.shutdownSent || s.stage.gone) = true := hc
      have hno : (s.shutdownSent && !s.stage.gone) = false := by
        cases hs' : s.shutdownSent <;> cases hg : s.stage.gone <;> rw [hs', hg] at hc' <;> simp_all
      show (if (s.shutdownSent && !s.stage.gone) = true then i :: n.behind else n.behind) = []
      rw [hno]
      exact hs
    | _ => exact hs

/-- **Every accepted call is answered**, in every run in which no call is sent between the `Shutdown`
and the end of the channel. -/
theorem calls_answered {p : State V × Notes} (h : (noted V).Reach (fun p a => timely p.1 a) p) :
    Answers p.1 p.2 := by
  have hi := Inv.of_reach h
  have hb := behind_of_timely h
  have hnone : ∀ i, i ∉ p.2.behind := by
    intro i hm
    rw [hb] at hm
    cases hm
  refine ⟨fun hg i hres => ?_, fun i _ hp => ?_, fun i hm => ?_⟩
  · exact ((hi.answered_or hg hres).resolve_left (hnone i)).cases.symm
  · have hplace := (hi.tasks i).place
    rw [hp] at hplace
    exact hnone i hplace.2
  · exact ((hi.tasks i).late hm).resolve_left (hnone i)

/-! ## Two runs -/

/-- A runtime with room for one call. -/
def oneSlot : State Rack.Sample where
  tasks _ := { fiber := { call := Rack.sampleCall, stream := Tracked.new 8 } }
  capacity := 1

theorem oneSlot_init : (noted Rack.Sample).init (oneSlot, {}) :=
  ⟨⟨fun _ => Rack.sampleCall, fun _ => 8, 1, rfl⟩, rfl⟩

/-- A call is answered, the runtime shuts down, and another call is sent after it has exited. -/
def timelyCalls : List Action :=
  [.acquire 0, .send 0, .signal 0, .wake, .receive, .receive, .start, .start, .returns 0,
    .fiber 0 .proceed, .fiber 0 .proceed, .fiber 0 .proceed, .fiber 0 .returns, .fiber 0 .proceed,
    .fiber 0 .returns, .fiber 0 .proceed, .fiber 0 .proceed, .leave 0,
    .shutdown, .wake, .receive, .start, .finish, .exit, .acquire 1, .send 1]

theorem calls_answered_timely : ∃ s n,
    (noted Rack.Sample).runIf (fun p a => timely p.1 a) (oneSlot, {}) timelyCalls = some (s, n) ∧
      s.stage = .exited ∧ (s.tasks 0).result = some (.ok ()) ∧ n.late = [1] ∧ Answers s n := by
  have hr : (noted Rack.Sample).runIf (fun p a => timely p.1 a) (oneSlot, {}) timelyCalls =
      some (_, _) := rfl
  exact ⟨_, _, hr, rfl, rfl, rfl, calls_answered (System.reach_of_runIf oneSlot_init hr)⟩

/-- The reactor has received the `Shutdown`, and the receiver is still there when a call is sent. -/
def lateCall : List Action :=
  [.shutdown, .wake, .receive, .acquire 0, .send 0, .signal 0, .start, .finish, .exit]

/-- A call that is accepted and never answered. -/
theorem late_call_lost : ∃ s n, (noted Rack.Sample).Reachable (s, n) ∧ s.stage = .exited ∧
    (s.tasks 0).result = some (.ok ()) ∧ (s.stream 0).accepted = [] ∧
    (s.stream 0).stream.cancelled = false ∧ ¬ Answers s n := by
  have hr : (noted Rack.Sample).run (oneSlot, {}) lateCall = some (_, _) := rfl
  refine ⟨_, _, System.reach_of_run oneSlot_init hr, rfl, rfl, rfl, rfl, fun h => ?_⟩
  exact h.kept 0 rfl rfl

end Ruvoy.Runtime
