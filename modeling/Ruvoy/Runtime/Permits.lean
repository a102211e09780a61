import Ruvoy.Runtime.Shutdown

/-!
# The permits of the calls

`submit` takes a permit of the admission budget, and the call carries it: through the channel and the
batch of a pass to `execute`, which drops it last. Whoever drops the call on the way drops the permit.

* `Place.holds`: where a call has its permit, and `Place.runs`, where its task runs;
* `Permits`: the permits in use are those of the calls that hold one, kept by every step;
* **`permits_lent`**: no permit is lost, and none is lent twice.
-/

set_option autoImplicit false

namespace Ruvoy.Runtime

open Runs

variable {V : Type} {s t : State V}

/-! ## The invariant -/

/-- The call has its permit. -/
def Place.holds : Place → Bool
  | .admitted | .queued | .batched | .calling | .responding | .failing _ => true
  | .outside | .refused | .done | .dropped => false

/-- The task of the call runs. -/
def Place.runs : Place → Bool
  | .calling | .responding | .failing _ => true
  | _ => false

theorem Place.holds_of_runs {p : Place} (h : p.runs = true) : p.holds = true := by
  cases p with
  | calling | responding | failing e => rfl
  | _ => cases h

/-- The calls among the commands. -/
def callsOf (commands : List Command) : List ℕ :=
  commands.filterMap fun c => match c with
    | .Call i => some i
    | _ => none

theorem callsOf_concat (commands : List Command) {c : Command} (hc : c.isCall = false) :
    callsOf (commands ++ [c]) = callsOf commands := by
  cases c with
  | Call i => cases hc
  | _ => exact (List.filterMap_append ..).trans (List.append_nil _)

theorem callsOf_concat_call (commands : List Command) (i : ℕ) :
    callsOf (commands ++ [.Call i]) = callsOf commands ++ [i] := List.filterMap_append ..

theorem countP_isCall (commands : List Command) :
    commands.countP Command.isCall = (callsOf commands).length := by
  induction commands with
  | nil => rfl
  | cons c rest ih =>
    cases c with
    | Call i =>
      rw [List.countP_cons_of_pos rfl, ih]
      rfl
    | _ =>
      rw [List.countP_cons_of_neg (by rintro ⟨⟩), ih]
      rfl

/-- Just the calls in places of a kind are in a collection. -/
def Tracks (tasks : ℕ → Task V) (P : Place → Prop) (collection : ℕ → Prop) : Prop :=
  ∀ i, collection i ↔ P (tasks i).place

namespace Tracks

variable {tasks : ℕ → Task V} {P : Place → Prop} {C D : ℕ → Prop} {i : ℕ} {k : Task V}

theorem keep (h : Tracks tasks P C) (hk : P k.place ↔ P (tasks i).place) :
    Tracks (Function.update tasks i k) P C := by
  intro j
  by_cases hj : j = i
  · rw [hj, Function.update_self, hk]
    exact h i
  · rw [Function.update_of_ne hj]
    exact h j

theorem add (h : Tracks tasks P C) (hk : P k.place) (hD : ∀ j, D j ↔ j = i ∨ C j) :
    Tracks (Function.update tasks i k) P D := by
  intro j
  rw [hD]
  by_cases hj : j = i
  · rw [hj, Function.update_self]
    exact iff_of_true (Or.inl rfl) hk
  · rw [Function.update_of_ne hj, or_iff_right hj]
    exact h j

theorem drop (h : Tracks tasks P C) (hk : ¬ P k.place) (hD : ∀ j, D j ↔ j ≠ i ∧ C j) :
    Tracks (Function.update tasks i k) P D := by
  intro j
  rw [hD]
  by_cases hj : j = i
  · rw [hj, Function.update_self]
    exact iff_of_false (fun hn => hn.1 rfl) hk
  · rw [Function.update_of_ne hj, and_iff_right hj]
    exact h j

theorem tail {rest : List ℕ} (h : Tracks tasks P (· ∈ i :: rest)) (hi : i ∉ rest)
    (hk : ¬ P k.place) : Tracks (Function.update tasks i k) P (· ∈ rest) := by
  refine h.drop hk fun j => ?_
  rw [List.mem_cons]
  constructor
  · intro hj
    exact ⟨fun he => hi (he ▸ hj), Or.inr hj⟩
  · rintro ⟨hne, rfl | hj⟩
    · exact absurd rfl hne
    · exact hj

theorem concat {l : List ℕ} (h : Tracks tasks P (· ∈ l)) (hk : P k.place) :
    Tracks (Function.update tasks i k) P (· ∈ l ++ [i]) := by
  refine h.add hk fun j => ?_
  rw [List.mem_append, List.mem_singleton, or_comm]

end Tracks

theorem callsOf_tell (s : State V) {c : Command} (hc : c.isCall = false) :
    callsOf (s.tell c) = callsOf s.commands := by
  unfold State.tell
  split_ifs
  · rfl
  · exact callsOf_concat s.commands hc

/-- The permits in use are those of `holders`, which are the calls that hold one. -/
structure Permits (s : State V) (holders : Finset ℕ) : Prop where
  held : Tracks s.tasks (·.holds = true) (· ∈ holders)
  card : holders.card = s.inflight
  fits : s.inflight ≤ s.capacity
  queued : Tracks s.tasks (· = .queued) (· ∈ callsOf s.commands)
  queuedOnce : (callsOf s.commands).Nodup
  batched : Tracks s.tasks (· = .batched) (· ∈ s.batch)
  batchedOnce : s.batch.Nodup
  running : Tracks s.tasks (·.runs = true) (· ∈ s.running)
  runningOnce : s.running.Nodup

namespace Permits

variable {holders : Finset ℕ} {i : ℕ} {k : Task V} (h : Permits s holders)

include h

/-! ## Steps that leave the permits alone -/

theorem beside (ht : t.tasks = s.tasks) (hin : t.inflight = s.inflight)
    (hcap : t.capacity = s.capacity) (hc : callsOf t.commands = callsOf s.commands)
    (hb : t.batch = s.batch) (hr : t.running = s.running) : Permits t holders := by
  refine ⟨?_, h.card.trans hin.symm, ?_, ?_, hc ▸ h.queuedOnce, ?_, hb ▸ h.batchedOnce, ?_,
    hr ▸ h.runningOnce⟩
  · rw [ht]
    exact h.held
  · rw [hin, hcap]
    exact h.fits
  · rw [ht, hc]
    exact h.queued
  · rw [ht, hb]
    exact h.batched
  · rw [ht, hr]
    exact h.running

theorem goes (hholds : k.place.holds = (s.tasks i).place.holds)
    (hq : k.place = .queued ↔ (s.tasks i).place = .queued)
    (hb : k.place = .batched ↔ (s.tasks i).place = .batched)
    (hr : k.place.runs = (s.tasks i).place.runs) : Permits (s.put i k) holders where
  held := h.held.keep (by rw [hholds])
  card := h.card
  fits := h.fits
  queued := h.queued.keep hq
  queuedOnce := h.queuedOnce
  batched := h.batched.keep hb
  batchedOnce := h.batchedOnce
  running := h.running.keep (by rw [hr])
  runningOnce := h.runningOnce

theorem stays (hk : k.place = (s.tasks i).place) : Permits (s.put i k) holders :=
  h.goes (by rw [hk]) (by rw [hk]) (by rw [hk]) (by rw [hk])

theorem runs (hk : k.place.runs = true) (hp : (s.tasks i).place.runs = true) :
    Permits (s.put i k) holders := by
  have hne : ∀ {p : Place}, p.runs = true → p ≠ .queued ∧ p ≠ .batched := by
    rintro p hp
    constructor <;> rintro rfl <;> cases hp
  refine h.goes ?_ (iff_of_false (hne hk).1 (hne hp).1) (iff_of_false (hne hk).2 (hne hp).2)
    (hk.trans hp.symm)
  rw [Place.holds_of_runs hk, Place.holds_of_runs hp]

/-! ## Steps that move a permit -/

theorem acquire (hp : (s.tasks i).place = .outside) : ∃ now, Permits (s.acquire i) now := by
  unfold State.acquire
  split_ifs with hlt
  · have hnew : i ∉ holders := mt (h.held i).mp (by rw [hp]; rintro ⟨⟩)
    refine ⟨insert i holders, h.held.add rfl fun j => Finset.mem_insert, ?_, hlt, h.queued.keep ?_,
      h.queuedOnce, h.batched.keep ?_, h.batchedOnce, h.running.keep ?_, h.runningOnce⟩
    · rw [Finset.card_insert_of_notMem hnew, h.card]
    · rw [hp]
      exact iff_of_false (by rintro ⟨⟩) (by rintro ⟨⟩)
    · rw [hp]
      exact iff_of_false (by rintro ⟨⟩) (by rintro ⟨⟩)
    · rw [hp]
      exact iff_of_false (by rintro ⟨⟩) (by rintro ⟨⟩)
  · refine ⟨holders, h.goes ?_ ?_ ?_ ?_⟩
    · rw [hp]
      rfl
    · rw [hp]
      exact iff_of_false (by rintro ⟨⟩) (by rintro ⟨⟩)
    · rw [hp]
      exact iff_of_false (by rintro ⟨⟩) (by rintro ⟨⟩)
    · rw [hp]
      rfl

/-- A call that cannot be sent gives its permit back. -/
theorem refuse (hp : (s.tasks i).place = .admitted) : Permits (s.refuse i) (holders.erase i) := by
  have hold : i ∈ holders := (h.held i).mpr (by rw [hp]; rfl)
  refine ⟨h.held.drop (by rintro ⟨⟩) fun j => Finset.mem_erase, ?_, (Nat.sub_le ..).trans h.fits,
    h.queued.keep ?_, h.queuedOnce, h.batched.keep ?_, h.batchedOnce, h.running.keep ?_,
    h.runningOnce⟩
  · rw [Finset.card_erase_of_mem hold, h.card]
    rfl
  all_goals
    rw [hp]
    exact iff_of_false (by rintro ⟨⟩) (by rintro ⟨⟩)

theorem enqueue (hp : (s.tasks i).place = .admitted) : Permits (s.enqueue i) holders := by
  have hcalls : callsOf (s.enqueue i).commands = callsOf s.commands ++ [i] :=
    callsOf_concat_call s.commands i
  have hnew : i ∉ callsOf s.commands := mt (h.queued i).mp (by rw [hp]; rintro ⟨⟩)
  refine ⟨h.held.keep ?_, h.card, h.fits, ?_, ?_, h.batched.keep ?_, h.batchedOnce,
    h.running.keep ?_, h.runningOnce⟩
  · rw [hp]
    exact Iff.rfl
  · rw [hcalls]
    exact h.queued.concat rfl
  · rw [hcalls]
    exact List.nodup_append_comm.mp (List.nodup_cons.mpr ⟨hnew, h.queuedOnce⟩)
  all_goals
    rw [hp]
    exact iff_of_false (by rintro ⟨⟩) (by rintro ⟨⟩)

theorem unqueue {rest : List Command} (hc : s.commands = .Call i :: rest) :
    Permits (s.unqueue i rest) holders := by
  have hcalls : callsOf s.commands = i :: callsOf rest := by rw [hc]; rfl
  have hp : (s.tasks i).place = .queued := (h.queued i).mp (by rw [hcalls]; exact List.mem_cons_self)
  have hqueued := h.queued
  have honce := h.queuedOnce
  rw [hcalls] at hqueued honce
  rw [List.nodup_cons] at honce
  have hnew : i ∉ s.batch := mt (h.batched i).mp (by rw [hp]; rintro ⟨⟩)
  refine ⟨h.held.keep ?_, h.card, h.fits, hqueued.tail honce.1 (by rintro ⟨⟩), honce.2,
    h.batched.concat rfl, ?_, h.running.keep ?_, h.runningOnce⟩
  · rw [hp]
    exact Iff.rfl
  · exact List.nodup_append_comm.mp (List.nodup_cons.mpr ⟨hnew, h.batchedOnce⟩)
  · rw [hp]
    exact iff_of_false (by rintro ⟨⟩) (by rintro ⟨⟩)

theorem async {rest : List ℕ} (hb : s.batch = i :: rest) : Permits (s.async i rest) holders := by
  have hp : (s.tasks i).place = .batched := (h.batched i).mp (by rw [hb]; exact List.mem_cons_self)
  have hbatched := h.batched
  have honce := h.batchedOnce
  rw [hb] at hbatched honce
  rw [List.nodup_cons] at honce
  have hnew : i ∉ s.running := mt (h.running i).mp (by rw [hp]; rintro ⟨⟩)
  refine ⟨h.held.keep ?_, h.card, h.fits, h.queued.keep ?_, h.queuedOnce,
    hbatched.tail honce.1 (by rintro ⟨⟩), honce.2, h.running.concat rfl, ?_⟩
  · rw [hp]
    exact Iff.rfl
  · rw [hp]
    exact iff_of_false (by rintro ⟨⟩) (by rintro ⟨⟩)
  · exact List.nodup_append_comm.mp (List.nodup_cons.mpr ⟨hnew, h.runningOnce⟩)

/-- A task ends, and drops its permit. -/
theorem complete (fiber : Rack.State V) (hp : (s.tasks i).place.runs = true) :
    Permits (s.complete i fiber) (holders.erase i) := by
  have hold : i ∈ holders := (h.held i).mpr (Place.holds_of_runs hp)
  refine ⟨h.held.drop (by rintro ⟨⟩) fun j => Finset.mem_erase, ?_, (Nat.sub_le ..).trans h.fits,
    h.queued.keep ?_, h.queuedOnce, h.batched.keep ?_, h.batchedOnce,
    h.running.drop (by rintro ⟨⟩) fun j => h.runningOnce.mem_erase_iff, h.runningOnce.erase i⟩
  · rw [Finset.card_erase_of_mem hold, h.card]
    rfl
  all_goals
    refine iff_of_false (by rintro ⟨⟩) fun hq => ?_
    rw [hq] at hp
    cases hp

/-- The channel is dropped, and with it the permits of the calls in it. -/
theorem exit : Permits s.exit (holders.filter (· ∉ callsOf s.commands)) := by
  have hplace : ∀ j, (s.exit.tasks j).place =
      if (s.tasks j).place = .queued then .dropped else (s.tasks j).place := by
    intro j
    simp only [State.exit]
    split_ifs <;> rfl
  have hsub : ∀ j ∈ callsOf s.commands, j ∈ holders := fun j hj =>
    (h.held j).mpr (by rw [(h.queued j).mp hj]; rfl)
  have hkeep : ∀ {P : Place → Prop} {C : ℕ → Prop}, (P .queued ↔ P .dropped) → Tracks s.tasks P C →
      Tracks s.exit.tasks P C := by
    intro P C hP hC j
    rw [hplace]
    refine (hC j).trans ?_
    split_ifs with hq
    · rw [hq]
      exact hP
    · rfl
  refine ⟨fun j => ?_, ?_, (Nat.sub_le ..).trans h.fits, fun j => ?_, List.nodup_nil,
    hkeep (iff_of_false (by rintro ⟨⟩) (by rintro ⟨⟩)) h.batched, h.batchedOnce,
    hkeep (iff_of_false (by rintro ⟨⟩) (by rintro ⟨⟩)) h.running, h.runningOnce⟩
  · show j ∈ holders.filter (· ∉ callsOf s.commands) ↔ (s.exit.tasks j).place.holds = true
    rw [Finset.mem_filter, hplace]
    split_ifs with hq
    · exact iff_of_false (fun hn => hn.2 ((h.queued j).mpr hq)) (by rintro ⟨⟩)
    · exact (and_iff_left fun hj => hq ((h.queued j).mp hj)).trans (h.held j)
  · have hsplit := Finset.card_filter_add_card_filter_not (s := holders) (· ∈ callsOf s.commands)
    have hcalls : holders.filter (· ∈ callsOf s.commands) = (callsOf s.commands).toFinset := by
      ext j
      rw [Finset.mem_filter, List.mem_toFinset]
      exact ⟨fun hj => hj.2, fun hj => ⟨hsub j hj, hj⟩⟩
    have hin : s.exit.inflight = s.inflight - (callsOf s.commands).length := by
      rw [← countP_isCall]
      rfl
    rw [hcalls, List.toFinset_card_of_nodup h.queuedOnce, h.card] at hsplit
    omega
  · show j ∈ [] ↔ (s.exit.tasks j).place = .queued
    rw [hplace]
    refine iff_of_false List.not_mem_nil fun hq => ?_
    split_ifs at hq
    contradiction

end Permits

/-! ## Every step -/

/-- **Every step keeps the permits.** -/
theorem Permits.step {holders : Finset ℕ} (h : Permits s holders) {a : Action}
    (ht : step s a = some t) : ∃ now, Permits t now := by
  cases a with
  | acquire i =>
    simp only [Runtime.step, Option.ite_none_right_eq_some, Option.some.injEq] at ht
    obtain ⟨⟨-, hp⟩, rfl⟩ := ht
    exact h.acquire hp
  | send i =>
    simp only [Runtime.step, Option.ite_none_right_eq_some, Option.some.injEq] at ht
    obtain ⟨⟨-, hp⟩, rfl⟩ := ht
    unfold State.send
    split_ifs
    · exact ⟨_, h.refuse hp⟩
    · exact ⟨_, h.enqueue hp⟩
  | signal i =>
    simp only [Runtime.step, Option.ite_none_right_eq_some, Option.some.injEq] at ht
    obtain ⟨-, rfl⟩ := ht
    exact ⟨_, h.stays rfl⟩
  | tell draining =>
    simp only [Runtime.step, Option.ite_none_right_eq_some, Option.some.injEq] at ht
    obtain ⟨-, rfl⟩ := ht
    refine ⟨_, h.beside rfl rfl rfl ?_ rfl rfl⟩
    cases draining <;> exact callsOf_tell s rfl
  | shutdown =>
    simp only [Runtime.step, Option.ite_none_right_eq_some, Option.some.injEq] at ht
    obtain ⟨-, rfl⟩ := ht
    exact ⟨_, h.beside rfl rfl rfl (callsOf_tell s rfl) rfl rfl⟩
  | dropClients | wake | finish | close =>
    simp only [Runtime.step, Option.ite_none_right_eq_some, Option.some.injEq] at ht
    obtain ⟨-, rfl⟩ := ht
    exact ⟨_, h.beside rfl rfl rfl rfl rfl rfl⟩
  | receive =>
    simp only [Runtime.step, Option.ite_none_right_eq_some, Option.some.injEq] at ht
    obtain ⟨-, rfl⟩ := ht
    unfold State.receive
    split
    · exact ⟨_, h.beside rfl rfl rfl rfl rfl rfl⟩
    · next i rest hc => exact ⟨_, h.unqueue hc⟩
    · next rest hc => exact ⟨_, h.beside rfl rfl rfl (by rw [hc]; rfl) rfl rfl⟩
    · next c rest hcall hdown hc =>
      refine ⟨_, h.beside rfl rfl rfl ?_ rfl rfl⟩
      rw [hc]
      cases c with
      | Call i => exact absurd rfl (hcall i)
      | _ => rfl
  | start =>
    simp only [Runtime.step, Option.ite_none_right_eq_some, Option.some.injEq] at ht
    obtain ⟨-, rfl⟩ := ht
    unfold State.start
    split
    · exact ⟨_, h.beside rfl rfl rfl rfl rfl rfl⟩
    · next i rest hb => exact ⟨_, h.async hb⟩
  | exit =>
    simp only [Runtime.step, Option.ite_none_right_eq_some, Option.some.injEq] at ht
    obtain ⟨-, rfl⟩ := ht
    exact ⟨_, h.exit⟩
  | returns i =>
    simp only [Runtime.step, Option.ite_none_right_eq_some, Option.some.injEq] at ht
    obtain ⟨hp, rfl⟩ := ht
    exact ⟨_, h.runs rfl (by rw [hp]; rfl)⟩
  | fails i error =>
    simp only [Runtime.step, Option.ite_none_right_eq_some, Option.some.injEq] at ht
    obtain ⟨hp, rfl⟩ := ht
    exact ⟨_, h.runs rfl (by rw [hp]; rfl)⟩
  | fiber i a =>
    simp only [Runtime.step, Option.ite_none_right_eq_some, Option.map_eq_some_iff] at ht
    obtain ⟨-, fiber, -, rfl⟩ := ht
    exact ⟨_, h.stays rfl⟩
  | leave i =>
    simp only [Runtime.step] at ht
    split at ht
    · next hp _ =>
      cases ht
      exact ⟨_, h.complete _ (by rw [hp]; rfl)⟩
    · next hp _ =>
      cases ht
      exact ⟨_, h.runs rfl (by rw [hp]; rfl)⟩
    · cases ht
  | pushFailure i =>
    simp only [Runtime.step] at ht
    split at ht
    · next hp =>
      cases ht
      exact ⟨_, h.complete _ (by rw [hp]; rfl)⟩
    · cases ht
  | queue i op =>
    simp only [Runtime.step, Option.ite_none_right_eq_some, Option.some.injEq] at ht
    obtain ⟨-, rfl⟩ := ht
    exact ⟨_, h.stays rfl⟩

theorem Permits.of_reachable (h : (system V).Reachable s) : ∃ holders, Permits s holders := by
  refine h.induct (P := fun s => ∃ holders, Permits s holders) ?_ ?_
  · rintro _ ⟨calls, sizes, capacity, rfl⟩
    refine ⟨∅, fun i => ?_, rfl, Nat.zero_le _, fun i => ?_, List.nodup_nil, fun i => ?_, List.nodup_nil,
      fun i => ?_, List.nodup_nil⟩
    all_goals exact iff_of_false (by rintro ⟨⟩) (by rintro ⟨⟩)
  · rintro s a t ⟨holders, hs⟩ - ht
    exact hs.step ht

/-! ## The permits of a run -/

/-- **No permit is lost, and none is lent twice.** In every reachable state, whatever the shutdown
came across: there are as many permits in use as calls that hold one, from their `try_acquire` until
their task ends, or until they are refused or dropped, and no more than there are; no more tasks than
that run; a call is refused for want of a permit just when all are in use; and once the command
receiver is gone, only calls that are about to be refused hold one. -/
theorem permits_lent (h : (system V).Reachable s) :
    ∃ holders : Finset ℕ, (∀ i, i ∈ holders ↔ (s.tasks i).place.holds = true) ∧
      s.inflight = holders.card ∧ holders.card ≤ s.capacity ∧ s.running.length ≤ holders.card ∧
      (∀ i t, step s (.acquire i) = some t →
        ((t.tasks i).result = some (.error .Overloaded) ↔ holders.card = s.capacity)) ∧
      (s.stage.gone = true → ∀ i ∈ holders, (s.tasks i).place = .admitted) := by
  obtain ⟨holders, hp⟩ := Permits.of_reachable h
  obtain ⟨n, hn⟩ : ∃ n, (noted V).Reachable (s, n) := h.record
  have hi : Inv s n := Inv.of_reach hn
  refine ⟨holders, hp.held, hp.card.symm, hp.card.trans_le hp.fits, ?_, fun i t ht => ?_,
    fun hg i hmem => ?_⟩
  · rw [← List.toFinset_card_of_nodup hp.runningOnce]
    refine Finset.card_le_card fun i hrun => ?_
    exact (hp.held i).mpr (Place.holds_of_runs ((hp.running i).mp (List.mem_toFinset.mp hrun)))
  · simp only [Runtime.step, Option.ite_none_right_eq_some, Option.some.injEq] at ht
    obtain ⟨⟨-, hout⟩, rfl⟩ := ht
    have hnone : (s.tasks i).result = none := by
      have hplace := (hi.tasks i).place
      rw [hout] at hplace
      exact hplace.2.2.2
    rw [hp.card]
    unfold State.acquire
    split_ifs with hlt
    · dsimp only
      rw [Function.update_self]
      dsimp only
      rw [hnone]
      exact iff_of_false (by rintro ⟨⟩) hlt.ne
    · rw [State.put_tasks, Function.update_self]
      exact iff_of_true rfl (le_antisymm hp.fits (not_lt.mp hlt))
  · obtain ⟨hb, hr, hc⟩ : s.batch = [] ∧ s.running = [] ∧ s.commands = [] := by
      have hstage := hi.stage
      cases hst : s.stage with
      | exited | closed =>
        rw [hst] at hstage
        exact hstage.2
      | _ =>
        rw [hst] at hg
        cases hg
    have hholds := (hp.held i).mp hmem
    have hnorun : ¬ (s.tasks i).place.runs = true := by
      intro hruns
      have hrun := (hp.running i).mpr hruns
      rw [hr] at hrun
      cases hrun
    cases hpl : (s.tasks i).place with
    | admitted => rfl
    | queued =>
      have hq := (hp.queued i).mpr hpl
      rw [hc] at hq
      cases hq
    | batched =>
      have hq := (hp.batched i).mpr hpl
      rw [hb] at hq
      cases hq
    | calling | responding | failing e =>
      rw [hpl] at hnorun
      exact absurd rfl hnorun
    | outside | refused | done | dropped =>
      rw [hpl] at hholds
      cases hholds

/-- One of two calls has the only permit when the other asks. -/
def secondRefused : List Action := [.acquire 0, .send 0, .acquire 1]

theorem permits_lent_secondRefused : ∃ s, (system Rack.Sample).run oneSlot secondRefused = some s ∧
    ∃ holders : Finset ℕ, 0 ∈ holders ∧ 1 ∉ holders ∧ s.inflight = holders.card := by
  have hr : (system Rack.Sample).run oneSlot secondRefused = some _ := rfl
  obtain ⟨holders, hmem, hcard, -⟩ := permits_lent (System.reach_of_run oneSlot_init.1 hr)
  exact ⟨_, hr, holders, (hmem 0).mpr rfl, mt (hmem 1).mp (by rintro ⟨⟩), hcard⟩

end Ruvoy.Runtime
