import Ruvoy.Offload.Model

/-!
# Calls wait for their threads

* `Next`, `Turns`, `Moves`: what a step does to a call, and to the semaphore;
* `CallOk`, `Seats`, `Inv`: the invariants;
* **`offload_waits`**: a caller does not go on before its block has ended, whatever interrupts it, and
  then with what the block came to or with the first interruption;
* **`offload_limited`**: at most `limit` blocks run at a time, and every place comes back;
* **`offload_ends`**: no caller waits for ever.
-/

set_option autoImplicit false

namespace Ruvoy.Offloaded

open Runs

variable {S : Semaphore} {V E : Type} {s t : State S V E} {a : Action V E} {i j : ℕ} {k k' : Call V E}

/-- The caller has a place of the semaphore. -/
def Place.inside : Place V E → Bool
  | .running | .interrupted _ => true
  | _ => false

/-- The call is over. -/
def Place.ended : Place V E → Bool
  | .returned _ | .raised _ => true
  | _ => false

/-- What a step does to its call. -/
inductive Next (k : Call V E) : Call V E → Prop
  | refuse : k.place = .outside → Next k { k with place := .raised (.argumentError "a block is required") }
  | wait : k.place = .outside → Next k { k with place := .waiting }
  | create : (k.place = .outside ∨ k.place = .waiting) →
      Next k { k with place := .running, thread := .running }
  | uncreated (e : E) : (k.place = .outside ∨ k.place = .waiting) →
      Next k { k with place := .raised (.exception e), uncreated := some e }
  | finish (ending : Ending V E) : k.thread = .running → Next k { k with thread := .finished ending }
  | leave (e : E) : k.place = .waiting →
      Next k { k with place := .raised (.exception e), interruptions := k.interruptions ++ [e] }
  | interrupt (e : E) : k.place = .running →
      Next k { k with place := .interrupted e, interruptions := k.interruptions ++ [e] }
  | again (e e' : E) : k.place = .interrupted e' →
      Next k { k with interruptions := k.interruptions ++ [e] }
  | settle (ending : Ending V E) : k.place = .running → k.thread = .finished ending →
      Next k { k with place := settled ending }
  | unwind (e : E) (ending : Ending V E) : k.place = .interrupted e → k.thread = .finished ending →
      Next k { k with place := .raised (.exception e) }

/-- What becomes of the semaphore when caller `i` gets from one place to another. -/
inductive Turns (S : Semaphore) (i : ℕ) :
    Place V E → Place V E → Option S.Inner → Option S.Inner → Prop
  | still {p p' : Place V E} {o : Option S.Inner} : p'.inside = p.inside →
      (p' = .waiting ↔ p = .waiting) → Turns S i p p' o o
  | unlimited {p p' : Place V E} : p' ≠ .waiting → Turns S i p p' none none
  | ask {q : S.Inner} : Turns S i .outside .waiting (some q) (some (S.ask q i))
  | letIn {p' : Place V E} {q q' : S.Inner} : S.letIn q i = some q' → p'.inside = true →
      Turns S i .waiting p' (some q) (some q')
  /-- It was let in, and went out again at once. -/
  | pass {p' : Place V E} {q q' : S.Inner} : S.letIn q i = some q' → p'.ended = true →
      Turns S i .waiting p' (some q) (some (S.release q' i))
  | leave {p' : Place V E} {o : Option S.Inner} : p'.ended = true →
      Turns S i .waiting p' o (o.map (S.leave · i))
  | release {p p' : Place V E} {o : Option S.Inner} : p.inside = true → p'.ended = true →
      Turns S i p p' o (o.map (S.release · i))

/-- What a step does. -/
structure Moves (s t : State S V E) (i : ℕ) (k : Call V E) : Prop where
  next : Next (s.calls i) k
  calls : t.calls = Function.update s.calls i k
  offload : t.offload = s.offload
  turns : Turns S i (s.calls i).place k.place s.semaphore t.semaphore

theorem settled_ended (ending : Ending V E) : (settled ending).ended = true := by cases ending <;> rfl

theorem call_moves {given : Bool} {created : Except E Unit}
    (ht : step s (.call i given created) = some t) : ∃ k, Moves s t i k := by
  simp only [step] at ht
  split at ht
  case h_2 => cases ht
  rename_i hplace
  split at ht
  · cases ht
    exact ⟨_, .refuse hplace, rfl, rfl, .still (by rw [hplace]; rfl) (by simp [hplace])⟩
  · split at ht
    · rename_i q hq
      cases ht
      refine ⟨_, .wait hplace, rfl, rfl, ?_⟩
      rw [hplace, hq]
      exact .ask
    · rename_i hq
      cases created <;> cases ht
      · refine ⟨_, .uncreated _ (.inl hplace), rfl, rfl, ?_⟩
        show Turns S i _ _ s.semaphore s.semaphore
        rw [hq]
        exact .unlimited (by simp)
      · refine ⟨_, .create (.inl hplace), rfl, rfl, ?_⟩
        show Turns S i _ _ s.semaphore s.semaphore
        rw [hq]
        exact .unlimited (by simp)

theorem acquire_moves {created : Except E Unit} (ht : step s (.acquire i created) = some t) :
    ∃ k, Moves s t i k := by
  simp only [step] at ht
  split at ht
  case h_2 => cases ht
  rename_i q hplace hq
  obtain ⟨q', hlet, ht⟩ := Option.map_eq_some_iff.mp ht
  cases created with
  | error e =>
    cases ht
    refine ⟨_, .uncreated e (.inr hplace), rfl, rfl, ?_⟩
    rw [hplace, hq]
    exact .pass hlet rfl
  | ok _ =>
    cases ht
    refine ⟨_, .create (.inr hplace), rfl, rfl, ?_⟩
    rw [hplace, hq]
    exact .letIn hlet rfl

theorem interrupt_moves {e : E} (ht : step s (.interrupt i e) = some t) : ∃ k, Moves s t i k := by
  simp only [step] at ht
  split at ht
  · rename_i hplace
    cases ht
    refine ⟨_, .leave e hplace, rfl, rfl, ?_⟩
    rw [hplace]
    exact .leave rfl
  · rename_i hplace
    cases ht
    exact ⟨_, .interrupt e hplace, rfl, rfl, .still (by rw [hplace]; rfl) (by simp [hplace])⟩
  · rename_i e' hplace
    cases ht
    exact ⟨_, .again e e' hplace, rfl, rfl, .still rfl Iff.rfl⟩
  · cases ht

theorem resume_moves (ht : step s (.resume i) = some t) : ∃ k, Moves s t i k := by
  simp only [step] at ht
  split at ht
  · rename_i ending hplace hthread
    cases ht
    exact ⟨_, .settle ending hplace hthread, rfl, rfl,
      .release (by rw [hplace]; rfl) (settled_ended ending)⟩
  · rename_i e ending hplace hthread
    cases ht
    exact ⟨_, .unwind e ending hplace hthread, rfl, rfl, .release (by rw [hplace]; rfl) rfl⟩
  · cases ht

/-- **What a step can do.** -/
theorem step_moves (ht : step s a = some t) : ∃ i k, Moves s t i k := by
  cases a with
  | call i given created => exact ⟨i, call_moves ht⟩
  | acquire i created => exact ⟨i, acquire_moves ht⟩
  | finish i ending =>
    simp only [step] at ht
    split at ht
    case h_2 => cases ht
    rename_i hthread
    cases ht
    exact ⟨i, _, .finish ending hthread, rfl, rfl, .still rfl Iff.rfl⟩
  | interrupt i e => exact ⟨i, interrupt_moves ht⟩
  | resume i => exact ⟨i, resume_moves ht⟩

/-! ## A caller waits for its block -/

/-- What a caller is raised, and why. -/
inductive Raises (k : Call V E) : Raised E → Prop
  | refused : k.thread = .none → k.interruptions = [] → Raises k (.argumentError "a block is required")
  | uncreated {e : E} : k.thread = .none → k.interruptions = [] → k.uncreated = some e →
      Raises k (.exception e)
  | raised {e : E} : k.thread = .finished (.raised e) → k.interruptions = [] →
      Raises k (.exception e)
  | killed : k.thread = .finished .killed → k.interruptions = [] →
      Raises k (.typeError "exception class/object expected")
  /-- Interrupted before it had a place: its block never ran. -/
  | left {e : E} : k.thread = .none → k.interruptions = [e] → Raises k (.exception e)
  | interrupted {e : E} {ending : Ending V E} : k.thread = .finished ending →
      k.interruptions.head? = some e → Raises k (.exception e)

/-- What is so of a call. -/
def CallOk (k : Call V E) : Prop :=
  match k.place with
  | .outside | .waiting => k.thread = .none ∧ k.interruptions = []
  | .running => k.thread ≠ .none ∧ k.interruptions = []
  | .interrupted e => k.thread ≠ .none ∧ k.interruptions.head? = some e
  | .returned v => k.thread = .finished (.returned v) ∧ k.interruptions = []
  | .raised r => Raises k r

theorem Raises.not_running {r : Raised E} (h : Raises k r) : k.thread ≠ .running := by
  cases h <;> simp_all

theorem CallOk.next (h : CallOk k) (hn : Next k k') : CallOk k' := by
  unfold CallOk at h
  cases hn with
  | refuse hp =>
    rw [hp] at h
    exact .refused h.1 h.2
  | wait hp =>
    rw [hp] at h
    exact h
  | create hp =>
    rcases hp with hp | hp <;> rw [hp] at h <;> exact ⟨by simp, h.2⟩
  | uncreated e hp =>
    rcases hp with hp | hp <;> rw [hp] at h <;> exact .uncreated h.1 h.2 rfl
  | finish ending ht =>
    unfold CallOk
    cases hp : k.place with
    | outside => simp [hp, ht] at h
    | waiting => simp [hp, ht] at h
    | running => exact ⟨by simp, by simpa [hp, ht] using h⟩
    | interrupted e => exact ⟨by simp, by simpa [hp, ht] using h⟩
    | returned v => simp [hp, ht] at h
    | raised r =>
      rw [hp] at h
      exact absurd ht h.not_running
  | leave e hp =>
    rw [hp] at h
    exact .left h.1 (by simp [h.2])
  | interrupt e hp =>
    rw [hp] at h
    exact ⟨h.1, by simp [h.2]⟩
  | again e e' hp =>
    rw [hp] at h
    unfold CallOk
    simp only [hp]
    exact ⟨h.1, by simp [List.head?_append, h.2]⟩
  | settle ending hp ht =>
    rw [hp] at h
    cases ending with
    | returned v => exact ⟨ht, h.2⟩
    | raised e => exact .raised ht h.2
    | killed => exact .killed ht h.2
  | unwind e ending hp ht =>
    rw [hp] at h
    exact .interrupted ht h.2

/-! ## The places of the semaphore -/

/-- The callers that are inside are those that the semaphore counts, and those that wait for a place are
those that it knows of. -/
structure Seats (place : ℕ → Place V E) (p : Places) : Prop where
  inside : ∀ j, j ∈ p.inside ↔ (place j).inside = true
  waiting : ∀ j, j ∈ p.waiting ↔ place j = .waiting
  nodup : p.waiting.Nodup
  room : p.inside.card ≤ p.limit

section Seats

variable {place place' : ℕ → Place V E} {p : Places}

/-- The other callers stay where they are. -/
def OthersStay (i : ℕ) (place place' : ℕ → Place V E) : Prop := ∀ j, j ≠ i → place' j = place j

theorem Place.inside_of_ended {p : Place V E} (h : p.ended = true) : p.inside = false ∧ p ≠ .waiting := by
  cases p <;> cases h <;> exact ⟨rfl, by simp⟩

theorem Seats.still (h : Seats place p) (hothers : OthersStay i place place')
    (hinside : (place' i).inside = (place i).inside) (hwaiting : place' i = .waiting ↔ place i = .waiting) :
    Seats place' p where
  inside j := by
    by_cases hj : j = i
    · rw [hj, hinside, h.inside]
    · rw [hothers j hj, h.inside]
  waiting j := by
    by_cases hj : j = i
    · rw [hj, hwaiting, h.waiting]
    · rw [hothers j hj, h.waiting]
  nodup := h.nodup
  room := h.room

theorem Seats.ask (h : Seats place p) (hothers : OthersStay i place place') (hi : place i = .outside)
    (hi' : place' i = .waiting) : Seats place' (p.ask i) := by
  have hnot : i ∉ p.waiting := by rw [h.waiting, hi]; simp
  refine ⟨fun j => ?_, fun j => ?_, ?_, h.room⟩
  · show j ∈ p.inside ↔ _
    by_cases hj : j = i
    · rw [hj, h.inside, hi, hi']
      exact Iff.rfl
    · rw [hothers j hj, h.inside]
  · show j ∈ p.waiting ++ [i] ↔ _
    by_cases hj : j = i
    · simp [hj, hi']
    · rw [hothers j hj, ← h.waiting]
      simp [hj]
  · show (p.waiting ++ [i]).Nodup
    refine List.nodup_append.mpr ⟨h.nodup, List.nodup_singleton i, fun x hx y hy => ?_⟩
    rw [List.mem_singleton.mp hy]
    rintro rfl
    exact hnot hx

theorem Seats.letIn (h : Seats place p) (hothers : OthersStay i place place') (hi : i ∈ p.waiting)
    (hroom : p.inside.card < p.limit) (hi' : (place' i).inside = true) : Seats place' (p.letIn i) := by
  have hout : i ∉ p.inside := by rw [h.inside, (h.waiting i).mp hi]; simp [Place.inside]
  refine ⟨fun j => ?_, fun j => ?_, h.nodup.erase i, ?_⟩
  · show j ∈ insert i p.inside ↔ _
    by_cases hj : j = i
    · simp [hj, hi']
    · rw [hothers j hj, ← h.inside]
      simp [hj]
  · show j ∈ p.waiting.erase i ↔ _
    rw [h.nodup.mem_erase_iff]
    by_cases hj : j = i
    · subst hj
      refine iff_of_false (fun hm => hm.1 rfl) fun hw => ?_
      rw [hw] at hi'
      cases hi'
    · rw [hothers j hj, ← h.waiting]
      exact and_iff_right hj
  · show (insert i p.inside).card ≤ p.limit
    rw [Finset.card_insert_of_notMem hout]
    exact hroom

/-- A caller that is over has no place any more. -/
theorem Seats.release (h : Seats place p) (hothers : OthersStay i place place')
    (hi : (place i).inside = true) (hi' : (place' i).ended = true) : Seats place' (p.release i) := by
  obtain ⟨hout, hgone⟩ := Place.inside_of_ended hi'
  refine ⟨fun j => ?_, fun j => ?_, h.nodup, (Finset.card_erase_le).trans h.room⟩
  · show j ∈ p.inside.erase i ↔ _
    by_cases hj : j = i
    · simp [hj, hout]
    · rw [hothers j hj, ← h.inside]
      simp [hj]
  · show j ∈ p.waiting ↔ _
    by_cases hj : j = i
    · rw [hj, h.waiting]
      refine iff_of_false (fun hw => ?_) hgone
      rw [hw] at hi
      cases hi
    · rw [hothers j hj, h.waiting]

theorem Seats.leave (h : Seats place p) (hothers : OthersStay i place place') (hi : place i = .waiting)
    (hi' : (place' i).ended = true) : Seats place' (p.leave i) := by
  obtain ⟨hout, hgone⟩ := Place.inside_of_ended hi'
  refine ⟨fun j => ?_, fun j => ?_, h.nodup.erase i, h.room⟩
  · show j ∈ p.inside ↔ _
    by_cases hj : j = i
    · rw [hj, h.inside, hi, hout]
      exact Iff.rfl
    · rw [hothers j hj, h.inside]
  · show j ∈ p.waiting.erase i ↔ _
    rw [h.nodup.mem_erase_iff]
    by_cases hj : j = i
    · exact iff_of_false (fun hm => hm.1 hj) (hj ▸ hgone)
    · rw [hothers j hj, ← h.waiting]
      exact and_iff_right hj

end Seats

/-- Where the callers are. -/
def State.places (s : State S V E) (i : ℕ) : Place V E := (s.calls i).place

variable {shows : S.Inner → Places}

theorem Seats.turns (hS : S.Documented shows) {place place' : ℕ → Place V E} {q : S.Inner}
    {o : Option S.Inner} (h : Seats place (shows q)) (hothers : OthersStay i place place')
    (ht : Turns S i (place i) (place' i) (some q) o) :
    ∃ q', o = some q' ∧ (shows q').limit = (shows q).limit ∧ Seats place' (shows q') := by
  generalize hp : place i = p at ht
  generalize hp' : place' i = p' at ht
  generalize ho : some q = o₀ at ht
  cases ht with
  | still hinside hwaiting =>
    subst hp hp' ho
    exact ⟨q, rfl, rfl, h.still hothers hinside hwaiting⟩
  | unlimited => cases ho
  | ask =>
    cases ho
    exact ⟨_, rfl, by rw [hS.ask]; rfl, by rw [hS.ask]; exact h.ask hothers hp hp'⟩
  | @letIn _ _ q' hlet hin =>
    cases ho
    obtain ⟨hroom, hmem, hshows⟩ := hS.capacity q i q' hlet
    refine ⟨q', rfl, by rw [hshows]; rfl, ?_⟩
    rw [hshows]
    exact h.letIn hothers hmem hroom (hp' ▸ hin)
  | @pass _ _ q' hlet hended =>
    cases ho
    obtain ⟨hroom, hmem, hshows⟩ := hS.capacity q i q' hlet
    -- it is inside for a moment
    have hin : Seats (Function.update place i .running) (shows q') := by
      rw [hshows]
      refine h.letIn (fun j hj => Function.update_of_ne hj ..) hmem hroom ?_
      rw [Function.update_self]
      rfl
    refine ⟨_, rfl, by rw [hS.release, hshows]; rfl, ?_⟩
    rw [hS.release]
    refine hin.release (fun j hj => ?_) ?_ (hp' ▸ hended)
    · rw [hothers j hj, Function.update_of_ne hj]
    · rw [Function.update_self]
      rfl
  | leave hended =>
    subst ho
    exact ⟨_, rfl, by rw [hS.leave]; rfl, by rw [hS.leave]; exact h.leave hothers hp (hp' ▸ hended)⟩
  | release hin hended =>
    subst ho
    exact ⟨_, rfl, by rw [hS.release]; rfl,
      by rw [hS.release]; exact h.release hothers (hp ▸ hin) (hp' ▸ hended)⟩

/-- What is so of the semaphore: there is one where there is a limit, which is its limit. -/
def Held (shows : S.Inner → Places) (s : State S V E) : Prop :=
  match s.offload.limit with
  | none => s.semaphore = none ∧ ∀ i, s.places i ≠ .waiting
  | some n => ∃ q, s.semaphore = some q ∧ (shows q).limit = n ∧ Seats s.places (shows q)

theorem Moves.others (hm : Moves s t i k) : OthersStay i s.places t.places := by
  intro j hj
  rw [State.places, State.places, hm.calls, Function.update_of_ne hj]

theorem Moves.self (hm : Moves s t i k) : t.places i = k.place := by
  rw [State.places, hm.calls, Function.update_self]

theorem Held.moves (hS : S.Documented shows) (h : Held shows s) (hm : Moves s t i k) :
    Held shows t := by
  have hturns := hm.turns
  unfold Held at h ⊢
  rw [hm.offload]
  cases hlimit : s.offload.limit with
  | none =>
    rw [hlimit] at h
    obtain ⟨hnone, hwaits⟩ := h
    rw [hnone] at hturns
    have hgone : ∀ {p' : Place V E} {o : Option S.Inner}, Turns S i (s.calls i).place p' none o →
        o = none ∧ p' ≠ .waiting := by
      intro p' o hturns
      generalize hp : (s.calls i).place = p at hturns
      have hp : p ≠ .waiting := hp ▸ hwaits i
      cases hturns with
      | still _ hiff => exact ⟨rfl, fun hw => hp (hiff.mp hw)⟩
      | unlimited hne => exact ⟨rfl, hne⟩
      | leave => exact absurd rfl hp
      | release _ hended => exact ⟨rfl, (Place.inside_of_ended hended).2⟩
    refine ⟨(hgone hturns).1, fun j => ?_⟩
    by_cases hj : j = i
    · rw [hj, hm.self]
      exact (hgone hturns).2
    · rw [hm.others j hj]
      exact hwaits j
  | some n =>
    rw [hlimit] at h
    obtain ⟨q, hq, hn, hseats⟩ := h
    rw [hq, ← hm.self] at hturns
    obtain ⟨q', hq', hlimit', hseats'⟩ := hseats.turns hS hm.others hturns
    exact ⟨q', hq', hlimit'.trans hn, hseats'⟩

theorem callsOk_step (h : ∀ i, CallOk (s.calls i)) (ht : step s a = some t) (j : ℕ) :
    CallOk (t.calls j) := by
  obtain ⟨i, k, hm⟩ := step_moves ht
  rw [hm.calls]
  by_cases hji : j = i
  · rw [hji, Function.update_self]
    exact (h i).next hm.next
  · rw [Function.update_of_ne hji]
    exact h j

theorem callsOk_of_reachable (h : (system S V E).Reachable s) : ∀ i, CallOk (s.calls i) := by
  refine System.Reach.induct (P := fun s => ∀ i, CallOk (s.calls i)) ?_
    (fun _ _ _ hi _ ht => callsOk_step hi ht) h
  rintro _ ⟨offload, rfl⟩ i
  exact ⟨rfl, rfl⟩

structure Inv (shows : S.Inner → Places) (s : State S V E) : Prop where
  calls : ∀ i, CallOk (s.calls i)
  held : Held shows s

theorem Inv.step (hS : S.Documented shows) (h : Inv shows s) (ht : step s a = some t) :
    Inv shows t := by
  obtain ⟨i, k, hm⟩ := step_moves ht
  exact ⟨callsOk_step h.calls ht, h.held.moves hS hm⟩

theorem Inv.of_reachable (hS : S.Documented shows) (h : (system S V E).Reachable s) : Inv shows s := by
  refine h.induct (fun s hs => ?_) fun _ _ _ hi _ ht => hi.step hS ht
  obtain ⟨offload, rfl⟩ := hs
  refine ⟨fun _ => ⟨rfl, rfl⟩, ?_⟩
  unfold Held
  cases hlimit : offload.limit with
  | none =>
    simp only [State.fresh, hlimit, Option.map_none, true_and]
    rintro i ⟨⟩
  | some n =>
    simp only [State.fresh, hlimit, Option.map_some]
    refine ⟨S.new n, rfl, by rw [hS.new], ?_⟩
    rw [hS.new]
    exact ⟨fun i => by simp [State.places, Place.inside], fun i => by simp [State.places],
      List.nodup_nil, Nat.zero_le n⟩

/-- **A caller waits for its block**: while it runs its caller is there; one that has gone on has what
its block came to, or was raised the first of its interruptions, and those that left before never ran
theirs. -/
theorem offload_waits (h : (system S V E).Reachable s) (i : ℕ) :
    ((s.calls i).thread = .running → (s.calls i).place.inside = true) ∧
      (∀ v, (s.calls i).place = .returned v →
        (s.calls i).thread = .finished (.returned v) ∧ (s.calls i).interruptions = []) ∧
      ∀ r, (s.calls i).place = .raised r → Raises (s.calls i) r := by
  have hk := callsOk_of_reachable h i
  unfold CallOk at hk
  refine ⟨fun hrunning => ?_, fun v hv => by simpa [hv] using hk, fun r hr => by simpa [hr] using hk⟩
  cases hp : (s.calls i).place with
  | running => rfl
  | interrupted e => rfl
  | raised r =>
    rw [hp] at hk
    exact absurd hrunning hk.not_running
  | _ => simp [hp, hrunning] at hk

/-- A caller is interrupted twice before its block returns. -/
def interruptedTwice : List (Action ℕ String) :=
  [.call 0 true (.ok ()), .interrupt 0 "Async::Stop", .interrupt 0 "Async::TimeoutError",
    .finish 0 (.returned 42), .resume 0]

theorem offload_waits_interruptedTwice :
    ∃ s, (system inTurn ℕ String).run (.fresh inTurn ℕ String ⟨none, by simp⟩) interruptedTwice = some s ∧
      (s.calls 0).thread = .finished (.returned 42) ∧ Raises (s.calls 0) (.exception "Async::Stop") := by
  obtain ⟨s, hrun, hthread, hplace⟩ : ∃ s,
      (system inTurn ℕ String).run (.fresh inTurn ℕ String ⟨none, by simp⟩) interruptedTwice = some s ∧
      (s.calls 0).thread = .finished (.returned 42) ∧
      (s.calls 0).place = .raised (.exception "Async::Stop") := ⟨_, rfl, rfl, rfl⟩
  exact ⟨s, hrun, hthread, (offload_waits (System.reach_of_run ⟨_, rfl⟩ hrun) 0).2.2 _ hplace⟩

/-- **At most `limit` at a time**, with any semaphore that keeps to its documentation: no more blocks
run than the limit, and the callers that have a place are those that have not gone on. -/
theorem offload_limited (hS : S.Documented shows) (h : (system S V E).Reachable s) {n : ℕ}
    (hn : s.offload.limit = some n) :
    (∀ running : Finset ℕ, (∀ i ∈ running, (s.calls i).thread = .running) → running.card ≤ n) ∧
      ∃ q, s.semaphore = some q ∧ (shows q).limit = n ∧ (shows q).inside.card ≤ n ∧
        ∀ i, i ∈ (shows q).inside ↔ (s.calls i).place.inside = true := by
  have hheld := (Inv.of_reachable hS h).held
  unfold Held at hheld
  rw [hn] at hheld
  obtain ⟨q, hq, hlimit, hseats⟩ := hheld
  have hroom : (shows q).inside.card ≤ n := hlimit ▸ hseats.room
  refine ⟨fun running hrunning => ?_, q, hq, hlimit, hroom, hseats.inside⟩
  refine (Finset.card_le_card fun i hi => ?_).trans hroom
  rw [hseats.inside]
  exact (offload_waits h i).1 (hrunning i hi)

/-- Two blocks at a time. -/
def pair : State inTurn ℕ String := .fresh inTurn ℕ String ⟨some 2, by simp⟩

/-- Three callers. -/
def threeCalls : List (Action ℕ String) :=
  [.call 0 true (.ok ()), .acquire 0 (.ok ()), .call 1 true (.ok ()), .acquire 1 (.ok ()),
    .call 2 true (.ok ())]

theorem offload_limited_threeCalls :
    ∃ s, (system inTurn ℕ String).run pair threeCalls = some s ∧
      ∃ q, s.semaphore = some q ∧ q.inside.card ≤ 2 ∧ 0 ∈ q.inside ∧ 2 ∉ q.inside := by
  obtain ⟨s, hrun, hlimit, h0, h2⟩ : ∃ s, (system inTurn ℕ String).run pair threeCalls = some s ∧
      s.offload.limit = some 2 ∧ (s.calls 0).thread = .running ∧ (s.calls 2).place = .waiting :=
    ⟨_, rfl, rfl, rfl, rfl⟩
  have hr : (system inTurn ℕ String).Reachable s := System.reach_of_run ⟨_, rfl⟩ hrun
  obtain ⟨-, q, hq, -, hroom, hinside⟩ := offload_limited inTurn_documented hr hlimit
  refine ⟨s, hrun, q, hq, hroom, ?_, ?_⟩
  · exact (hinside 0).mpr ((offload_waits hr 0).1 h0)
  · exact fun hin => by simpa [h2, Place.inside] using (hinside 2).mp hin

/-! ## Every caller goes on -/

/-- The steps that end calls: a block ends, its caller goes on, and a caller is let in. -/
def Ends (ending : ℕ → Ending V E) (created : ℕ → Except E Unit) (a : Action V E) : Prop :=
  ∃ j, a = .finish j (ending j) ∨ a = .resume j ∨ a = .acquire j (created j)

variable {ending : ℕ → Ending V E} {created : ℕ → Except E Unit}

/-- Call `j` is over, and nothing else has changed but the semaphore, which has its place back. -/
structure Left (s t : State S V E) (j : ℕ) : Prop where
  ended : (t.calls j).place.ended = true
  others : ∀ i, i ≠ j → t.calls i = s.calls i
  offload : t.offload = s.offload
  semaphore : t.semaphore = s.semaphore.map (S.release · j)

theorem resume_step (hin : (s.calls j).place.inside = true) {e : Ending V E}
    (hthread : (s.calls j).thread = .finished e) :
    ∃ t, step s (.resume j) = some t ∧ Left s t j := by
  have left : ∀ p : Place V E, p.ended = true →
      Left s ((s.put j { s.calls j with place := p }).release j) j := by
    intro p hp
    refine ⟨?_, fun i hi => Function.update_of_ne hi .., rfl, rfl⟩
    show (Function.update s.calls j { s.calls j with place := p } j).place.ended = true
    rw [Function.update_self]
    exact hp
  cases hp : (s.calls j).place with
  | running => exact ⟨_, by simp only [step, hp, hthread], left _ (settled_ended e)⟩
  | interrupted e' => exact ⟨_, by simp only [step, hp, hthread], left (.raised (.exception e')) rfl⟩
  | _ => simp [hp, Place.inside] at hin

theorem leads_left (h : CallOk (s.calls j)) (hin : (s.calls j).place.inside = true) :
    (system S V E).Leads (Ends ending created) (Left s · j) s := by
  cases hthread : (s.calls j).thread with
  | none =>
    unfold CallOk at h
    cases hp : (s.calls j).place <;> simp_all [Place.inside]
  | finished e =>
    obtain ⟨t, ht, hleft⟩ := resume_step hin hthread
    exact .next ⟨j, .inr (.inl rfl)⟩ ht (.here hleft)
  | running =>
    have ht : step s (.finish j (ending j)) =
        some (s.put j { s.calls j with thread := .finished (ending j) }) := by
      simp only [step, hthread]
    have self : (s.put j { s.calls j with thread := .finished (ending j) }).calls j =
        { s.calls j with thread := .finished (ending j) } := Function.update_self ..
    obtain ⟨u, hu, hleft⟩ := resume_step (j := j) (e := ending j) (by rw [self]; exact hin)
      (by rw [self])
    refine .next ⟨j, .inl rfl⟩ ht (.next ⟨j, .inr (.inl rfl)⟩ hu (.here ?_))
    exact ⟨hleft.ended, fun i hi => (hleft.others i hi).trans (Function.update_of_ne hi ..),
      hleft.offload, hleft.semaphore⟩

/-- Those that wait, as the semaphore has them. -/
structure Queue (shows : S.Inner → Places) (s : State S V E) (waiting : List ℕ) : Prop where
  inv : Inv shows s
  semaphore : ∃ q, s.semaphore = some q ∧ (shows q).waiting = waiting

theorem Queue.seats {waiting : List ℕ} (h : Queue shows s waiting) {q : S.Inner}
    (hq : s.semaphore = some q) :
    Seats s.places (shows q) ∧ s.offload.limit = some (shows q).limit := by
  have hheld := h.inv.held
  unfold Held at hheld
  cases hlimit : s.offload.limit with
  | none =>
    rw [hlimit, hq] at hheld
    cases hheld.1
  | some n =>
    rw [hlimit] at hheld
    obtain ⟨q', hq', hn, hseats⟩ := hheld
    cases hq.symm.trans hq'
    exact ⟨hseats, by rw [hn]⟩

/-- Below the limit, with the same callers waiting. -/
def Room (shows : S.Inner → Places) (waiting : List ℕ) (s : State S V E) : Prop :=
  Queue shows s waiting ∧ ∀ q, s.semaphore = some q → (shows q).inside.card < (shows q).limit

/-- If there is no place free, one caller gets out. -/
theorem leads_room (hS : S.Documented shows) {waiting : List ℕ} (h : Queue shows s waiting) :
    (system S V E).Leads (Ends ending created) (Room shows waiting) s := by
  obtain ⟨q, hq, hwaiting⟩ := h.semaphore
  obtain ⟨hseats, hlimit⟩ := h.seats hq
  rcases hseats.room.lt_or_eq with hroom | hfull
  · refine .here ⟨h, fun q' hq' => ?_⟩
    cases hq.symm.trans hq'
    exact hroom
  · have hpos := s.offload.positive _ hlimit
    obtain ⟨j, hj⟩ : (shows q).inside.Nonempty := by
      rw [← Finset.card_pos, hfull]
      exact hpos
    have hleft : (system S V E).Leads (Ends ending created) (Left s · j) s :=
      leads_left (h.inv.calls j) ((hseats.inside j).mp hj)
    have hleads := hleft.inv (I := Inv shows) (fun u b v _ hu hv => hu.step hS hv) h.inv
    refine hleads.bind fun t ht => .here ?_
    have hsem : t.semaphore = some (S.release q j) := by rw [ht.1.semaphore, hq]; rfl
    refine ⟨⟨ht.2, _, hsem, by rw [hS.release]; exact hwaiting⟩, fun q' hq' => ?_⟩
    cases hsem.symm.trans hq'
    rw [hS.release]
    show ((shows q).inside.erase j).card < (shows q).limit
    rw [← hfull]
    exact Finset.card_erase_lt_of_mem hj

/-- With a place free the caller that has waited longest is let in, and is inside or over. -/
theorem letIn_step (hS : S.Documented shows) (created : ℕ → Except E Unit) {rest : List ℕ}
    (h : Room shows (i :: rest) s) :
    ∃ t, step s (.acquire i (created i)) = some t ∧ Queue shows t rest ∧
      ((t.calls i).place.inside = true ∨ (t.calls i).place.ended = true) := by
  obtain ⟨hqueue, hroom⟩ := h
  obtain ⟨q, hq, hwaiting⟩ := hqueue.semaphore
  obtain ⟨hseats, -⟩ := hqueue.seats hq
  have hplace : (s.calls i).place = .waiting :=
    (hseats.waiting i).mp (by rw [hwaiting]; exact List.mem_cons_self)
  obtain ⟨q', hq'⟩ := Option.isSome_iff_exists.mp (hS.fifo q i rest (hroom q hq) hwaiting)
  have hrest : (shows q').waiting = rest := by
    rw [(hS.capacity q i q' hq').2.2]
    show (shows q).waiting.erase i = rest
    rw [hwaiting, List.erase_cons_head]
  cases hc : created i with
  | error e =>
    have ht : step s (.acquire i (.error e)) =
        some (({ s with semaphore := some q' }.run i (.error e)).release i) := by
      simp only [step, hplace, hq, hq', Option.map_some]
    refine ⟨_, ht, ⟨hqueue.inv.step hS ht, S.release q' i, rfl, by rw [hS.release]; exact hrest⟩, .inr ?_⟩
    show (Function.update s.calls i _ i).place.ended = true
    rw [Function.update_self]
    rfl
  | ok _ =>
    have ht : step s (.acquire i (.ok ())) = some ({ s with semaphore := some q' }.run i (.ok ())) := by
      simp only [step, hplace, hq, hq', Option.map_some]
    refine ⟨_, ht, ⟨hqueue.inv.step hS ht, q', rfl, hrest⟩, .inl ?_⟩
    show (Function.update s.calls i _ i).place.inside = true
    rw [Function.update_self]
    rfl

/-- **A caller that waits gets its turn**, by induction on those that are ahead of it. -/
theorem leads_turn (hS : S.Documented shows) (ahead : List ℕ) {rest : List ℕ}
    (h : Queue shows s (ahead ++ i :: rest)) :
    (system S V E).Leads (Ends ending created) (fun t => (t.calls i).place.ended = true) s := by
  induction ahead generalizing s with
  | nil =>
    refine (leads_room hS h).bind fun t ht => ?_
    obtain ⟨u, hu, hqueue, hi⟩ := letIn_step hS created ht
    refine .next ⟨i, .inr (.inr rfl)⟩ hu ?_
    rcases hi with hin | hended
    · exact (leads_left (hqueue.inv.calls i) hin).bind fun v hv => .here hv.ended
    · exact .here hended
  | cons j ahead ih =>
    refine (leads_room hS h).bind fun t ht => ?_
    obtain ⟨u, hu, hqueue, -⟩ := letIn_step hS created ht
    exact .next ⟨j, .inr (.inr rfl)⟩ hu (ih hqueue)

/-- **No caller waits for ever**, with any semaphore that keeps to its documentation: blocks that end,
however they do, let every caller go on. -/
theorem offload_ends (hS : S.Documented shows) (h : (system S V E).Reachable s)
    (hi : (s.calls i).place = .waiting ∨ (s.calls i).place.inside = true) (ending : ℕ → Ending V E)
    (created : ℕ → Except E Unit) :
    (system S V E).Leads (Ends ending created) (fun t => (t.calls i).place.ended = true) s := by
  have hinv := Inv.of_reachable hS h
  rcases hi with hwaiting | hin
  · have hheld := hinv.held
    unfold Held at hheld
    cases hlimit : s.offload.limit with
    | none =>
      rw [hlimit] at hheld
      exact absurd hwaiting (hheld.2 i)
    | some n =>
      rw [hlimit] at hheld
      obtain ⟨q, hq, -, hseats⟩ := hheld
      obtain ⟨ahead, rest, hsplit⟩ := List.append_of_mem ((hseats.waiting i).mpr hwaiting)
      exact leads_turn hS ahead ⟨hinv, q, hq, hsplit⟩
  · exact (leads_left (hinv.calls i) hin).bind fun t ht => .here ht.ended

theorem offload_ends_threeCalls :
    ∃ s, (system inTurn ℕ String).run pair threeCalls = some s ∧
      (system inTurn ℕ String).Leads (Ends (fun _ => .returned 42) fun _ => .ok ())
        (fun t => (t.calls 2).place.ended = true) s := by
  obtain ⟨s, hrun, hplace⟩ : ∃ s, (system inTurn ℕ String).run pair threeCalls = some s ∧
      (s.calls 2).place = .waiting := ⟨_, rfl, rfl⟩
  exact ⟨s, hrun,
    offload_ends inTurn_documented (System.reach_of_run ⟨_, rfl⟩ hrun) (.inl hplace) _ _⟩

end Ruvoy.Offloaded
