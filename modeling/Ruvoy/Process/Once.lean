import Ruvoy.Process.Model

/-!
# One runtime for the process

* `Serves`, `Took`: the terms of a runtime, and the thread that stops it;
* `Inv`, `Inv.goes`: what is so of the cells and the threads, and that no step takes it back;
* **`process_agrees`**: at most one runtime is started, on the terms of whoever was given it;
* **`process_final`**: what the first start came to is what every start comes to;
* **`process_stopped_once`**: exactly one thread stops a runtime that is no longer in its slot;
* **`process_returns`**: nobody waits for ever in `start`.
-/

set_option autoImplicit false

namespace Ruvoy.Process

open Runs

/-- A runtime with this configuration admits requests and is waited for. -/
def Serves (config : ProcessRuntimeConfig) : Prop :=
  0 < config.maxInflightRequests ∧ 0 < config.shutdownTimeoutMs

/-- The configuration that a thread in `start` asks for. -/
def Place.config : Place → Option ProcessRuntimeConfig
  | .hooking config | .joining config | .starting config => some config
  | .started requested _ => requested
  | _ => none

/-- The hook was registered before. -/
def Place.hooked : Place → Bool
  | .joining _ | .starting _ | .started (some _) _ => true
  | _ => false

/-- The thread has taken the runtime out of its slot. -/
def Took : Place → Prop
  | .stopping | .stopped (.ok true) | .stopped (.error _) => True
  | _ => False

/-- What is so of a thread. -/
structure PlaceOk (s : State) (i : ℕ) (p : Place) : Prop where
  serves : ∀ config, p.config = some config → Serves config
  hooked : p.hooked = true → s.hook = some (.ok ())
  starting : ∀ config, p = .starting config → s.initializing = some i
  joined : ∀ config r, p = .started (some config) r →
    ∃ cell, s.cell = some cell ∧ r = Process.joined cell config
  refused : ∀ r, p = .started none r → ∃ error, r = .error error
  filtered : ∀ config, p = .filtered (.ok config) →
    ∃ runtime, s.cell = some (.ok runtime) ∧ runtime.ready = .ok config.ready
  took : Took p → s.runtime = false ∧ ∃ runtime, s.cell = some (.ok runtime)

/-- What is so of the cells and the slot. -/
structure Cells (s : State) : Prop where
  hooks : s.hooks = if s.hook.isSome then 1 else 0
  starts : s.starts = if s.cell.isSome ∨ s.initializing.isSome then 1 else 0
  free : s.cell.isSome → s.initializing = none
  serves : ∀ runtime, s.cell = some (.ok runtime) → Serves runtime.config
  hook : s.cell.isSome → s.hook = some (.ok ())
  slot : s.runtime = true → ∃ runtime, s.cell = some (.ok runtime)

structure Inv (s : State) : Prop where
  threads : ∀ i, PlaceOk s i (s.threads i)
  cells : Cells s
  busy : ∀ i, s.initializing = some i → ∃ config, s.threads i = .starting config
  alone : ∀ i j, Took (s.threads i) → Took (s.threads j) → i = j
  taken : ∀ runtime, s.cell = some (.ok runtime) → s.runtime = false → ∃ i, Took (s.threads i)

variable {c : Reading} {s t : State} {i j : ℕ} {p : Place} {a : Action}

@[simp] theorem put_self : (s.put i p).threads i = p := Function.update_self ..

theorem put_other (h : j ≠ i) : (s.put i p).threads j = s.threads j := Function.update_of_ne h ..

/-- The cells only go on from where they are. -/
structure Grows (s t : State) : Prop where
  hook : s.hook.isSome → t.hook = s.hook
  cell : s.cell.isSome → t.cell = s.cell
  runtime : s.runtime = false → s.cell.isSome → t.runtime = false

theorem Grows.refl (s : State) : Grows s s := ⟨fun _ => rfl, fun _ => rfl, fun h _ => h⟩

theorem Grows.trans {u : State} (hst : Grows s t) (htu : Grows t u) : Grows s u where
  hook h := (htu.hook (by rw [hst.hook h]; exact h)).trans (hst.hook h)
  cell h := (htu.cell (by rw [hst.cell h]; exact h)).trans (hst.cell h)
  runtime h hcell := htu.runtime (hst.runtime h hcell) (by rw [hst.cell hcell]; exact hcell)

theorem Grows.put (p : Place) : Grows s (s.put i p) := ⟨fun _ => rfl, fun _ => rfl, fun h _ => h⟩

theorem PlaceOk.grows (h : PlaceOk s i p) (hg : Grows s t)
    (hi : ∀ config, p = .starting config → t.initializing = s.initializing) : PlaceOk t i p where
  serves := h.serves
  hooked hp := (hg.hook (by rw [h.hooked hp]; rfl)).trans (h.hooked hp)
  starting config hp := (hi config hp).trans (h.starting config hp)
  joined config r hp := by
    obtain ⟨cell, hcell, hr⟩ := h.joined config r hp
    exact ⟨cell, (hg.cell (by rw [hcell]; rfl)).trans hcell, hr⟩
  refused := h.refused
  filtered config hp := by
    obtain ⟨runtime, hcell, hr⟩ := h.filtered config hp
    exact ⟨runtime, (hg.cell (by rw [hcell]; rfl)).trans hcell, hr⟩
  took hp := by
    obtain ⟨hslot, runtime, hcell⟩ := h.took hp
    exact ⟨hg.runtime hslot (by rw [hcell]; rfl), runtime, (hg.cell (by rw [hcell]; rfl)).trans hcell⟩

theorem Inv.threads_put (h : Inv s) (hg : Grows s t) (hs : t.threads = s.threads)
    (hi : ∀ j, j ≠ i → ∀ config, s.threads j = .starting config → t.initializing = s.initializing)
    (hp : PlaceOk t i p) : ∀ j, PlaceOk (t.put i p) j ((t.put i p).threads j) := by
  intro j
  by_cases hji : j = i
  · subst hji
    rw [put_self]
    exact hp.grows (.put p) fun _ _ => rfl
  · rw [put_other hji, hs]
    exact ((h.threads j).grows hg (hi j hji)).grows (.put p) fun _ _ => rfl

/-- A step keeps the invariant, and takes back nothing that is in the cells. -/
structure Goes (s t : State) : Prop where
  inv : Inv t
  grows : Grows s t

/-- **A thread goes on that does not take the runtime.** -/
theorem Inv.move (h : Inv s) (hg : Grows s t) (hs : t.threads = s.threads) (hcells : Cells t)
    (hi : ∀ j, j ≠ i → ∀ config, s.threads j = .starting config → t.initializing = s.initializing)
    (hslot : ∀ runtime, t.cell = some (.ok runtime) → t.runtime = false →
      s.cell = some (.ok runtime) ∧ s.runtime = false)
    (hbusy : ∀ j, t.initializing = some j → ∃ config, (t.put i p).threads j = .starting config)
    (hp : PlaceOk t i p) (htook : Took p ↔ Took (s.threads i)) : Goes s (t.put i p) := by
  have took : ∀ j, Took ((t.put i p).threads j) ↔ Took (s.threads j) := by
    intro j
    by_cases hji : j = i
    · rw [hji, put_self, htook]
    · rw [put_other hji, hs]
  refine ⟨⟨h.threads_put hg hs hi hp, ?_, hbusy, fun j k hj hk => ?_,
    fun runtime hcell hfalse => ?_⟩, hg.trans (.put p)⟩
  · exact ⟨hcells.hooks, hcells.starts, hcells.free, hcells.serves, hcells.hook, hcells.slot⟩
  · exact h.alone j k ((took j).mp hj) ((took k).mp hk)
  · obtain ⟨hold, hgone⟩ := hslot runtime hcell hfalse
    obtain ⟨j, hj⟩ := h.taken runtime hold hgone
    exact ⟨j, (took j).mpr hj⟩

theorem Inv.busy_put (h : Inv s) (hs : t.threads = s.threads)
    (hi : ∀ config, s.threads i ≠ .starting config) (hj : s.initializing = some j) :
    ∃ config, (t.put i p).threads j = .starting config := by
  obtain ⟨config, hplace⟩ := h.busy j hj
  have hji : j ≠ i := by
    rintro rfl
    exact hi config hplace
  exact ⟨config, by rw [put_other hji, hs, hplace]⟩

theorem Inv.put (h : Inv s) (hp : PlaceOk s i p) (hi : ∀ config, s.threads i ≠ .starting config)
    (htook : Took p ↔ Took (s.threads i)) : Goes s (s.put i p) :=
  h.move (Grows.refl s) rfl h.cells (fun _ _ _ _ => rfl) (fun _ hcell hslot => ⟨hcell, hslot⟩)
    (fun _ hj => h.busy_put rfl hi hj) hp htook

/-! ## The steps -/

theorem PlaceOk.plain (hserves : ∀ config, p.config = some config → Serves config)
    (hhooked : p.hooked = false) (hstarting : ∀ config, p ≠ .starting config)
    (hrefused : ∀ r, p = .started none r → ∃ error, r = .error error)
    (hfiltered : ∀ config, p ≠ .filtered (.ok config)) (htook : ¬ Took p) : PlaceOk s i p where
  serves := hserves
  hooked h := by rw [hhooked] at h; cases h
  starting config h := absurd h (hstarting config)
  joined config r h := by rw [h] at hhooked; cases hhooked
  refused := hrefused
  filtered config h := absurd h (hfiltered config)
  took h := absurd h htook

theorem placeOk_refused (error : BridgeError) : PlaceOk s i (.started none (.error error)) :=
  .plain (by simp [Place.config]) rfl (by simp) (fun r h => by cases h; exact ⟨error, rfl⟩) (by simp)
    (by simp [Took])

theorem placeOk_hooking {config : ProcessRuntimeConfig} (h : Serves config) :
    PlaceOk s i (.hooking config) :=
  .plain (by simpa [Place.config] using h) rfl (by simp) (by simp) (by simp) (by simp [Took])

theorem placeOk_joining {config : ProcessRuntimeConfig} (h : Serves config)
    (hhook : s.hook = some (.ok ())) : PlaceOk s i (.joining config) where
  serves := by simpa [Place.config] using h
  hooked _ := hhook
  starting := by simp
  joined := by simp
  refused := by simp
  filtered := by simp
  took h := absurd h (by simp [Took])

theorem placeOk_joined {config : ProcessRuntimeConfig} {cell : Started} (h : Serves config)
    (hhook : s.hook = some (.ok ())) (hcell : s.cell = some cell) :
    PlaceOk s i (.started (some config) (joined cell config)) where
  serves := by simpa [Place.config] using h
  hooked _ := hhook
  starting := by simp
  joined config' r h := by
    cases h
    exact ⟨cell, hcell, rfl⟩
  refused := by simp
  filtered := by simp
  took h := absurd h (by simp [Took])

theorem serves_new {settings : RuntimeSettings} {rackup : Except BridgeError String}
    {config : ProcessRuntimeConfig} (h : ProcessRuntimeConfig.new settings rackup = .ok config) :
    Serves config := by
  cases rackup with
  | error error => cases h
  | ok path =>
    cases h
    exact ⟨settings.inflight_pos, settings.timeout_pos⟩

theorem Inv.start (h : Inv s) {settings : RuntimeSettings} {rackup : Except BridgeError String}
    (ht : step c s (.start i settings rackup) = some t) : Goes s t := by
  simp only [step] at ht
  split at ht
  case h_2 => cases ht
  rename_i hplace
  split at ht
  · cases ht
    exact h.put (placeOk_refused _) (by simp [hplace]) (by simp [hplace, Took])
  · rename_i config hnew
    cases ht
    exact h.put (placeOk_hooking (serves_new hnew)) (by simp [hplace]) (by simp [hplace, Took])

theorem Inv.hook (h : Inv s) {registered : Bool} (ht : step c s (.hook i registered) = some t) :
    Goes s t := by
  simp only [step] at ht
  split at ht
  case h_2 => cases ht
  rename_i config hplace
  have hserves : Serves config := (h.threads i).serves config (by simp [hplace, Place.config])
  split at ht
  · -- the first thread to come here registers it
    rename_i hnone
    have hcell : s.cell = none := by
      cases hc : s.cell with
      | none => rfl
      | some cell => simp [h.cells.hook (by simp [hc])] at hnone
    have hg : Grows s { s with hook := some (registerHook registered), hooks := s.hooks + 1 } :=
      ⟨fun h => by simp [hnone] at h, fun _ => rfl, fun h _ => h⟩
    have hcells : Cells { s with hook := some (registerHook registered), hooks := s.hooks + 1 } := by
      refine ⟨?_, h.cells.starts, h.cells.free, h.cells.serves, fun h => by simp [hcell] at h,
        h.cells.slot⟩
      simp [h.cells.hooks, hnone]
    cases registered with
    | true =>
      cases ht
      exact h.move hg rfl hcells (fun _ _ _ _ => rfl) (fun _ hcell hslot => ⟨hcell, hslot⟩)
        (fun _ hj => h.busy_put rfl (by simp [hplace]) hj) (placeOk_joining hserves rfl)
        (by simp [hplace, Took])
    | false =>
      cases ht
      exact h.move hg rfl hcells (fun _ _ _ _ => rfl) (fun _ hcell hslot => ⟨hcell, hslot⟩)
        (fun _ hj => h.busy_put rfl (by simp [hplace]) hj) (placeOk_refused _) (by simp [hplace, Took])
  · rename_i hhook
    cases ht
    exact h.put (placeOk_joining hserves hhook) (by simp [hplace]) (by simp [hplace, Took])
  · cases ht
    exact h.put (placeOk_refused _) (by simp [hplace]) (by simp [hplace, Took])

theorem Inv.join (h : Inv s) (ht : step c s (.join i) = some t) : Goes s t := by
  simp only [step] at ht
  split at ht
  case h_2 => cases ht
  rename_i config hplace
  have hserves : Serves config := (h.threads i).serves config (by simp [hplace, Place.config])
  have hhook : s.hook = some (.ok ()) := (h.threads i).hooked (by simp [hplace, Place.hooked])
  split at ht
  · rename_i cell hcell
    cases ht
    exact h.put (placeOk_joined hserves hhook hcell) (by simp [hplace]) (by simp [hplace, Took])
  · rename_i hcell
    split at ht
    case isFalse => cases ht
    rename_i hfree
    cases ht
    have hg : Grows s { s with initializing := some i, starts := s.starts + 1 } :=
      ⟨fun _ => rfl, fun _ => rfl, fun h _ => h⟩
    have hcells : Cells { s with initializing := some i, starts := s.starts + 1 } := by
      refine ⟨h.cells.hooks, ?_, fun h => by simp [hcell] at h, h.cells.serves, h.cells.hook,
        h.cells.slot⟩
      simp [h.cells.starts, hcell, hfree]
    have hp : PlaceOk { s with initializing := some i, starts := s.starts + 1 } i (.starting config) :=
      ⟨by simpa [Place.config] using hserves, fun _ => hhook, fun _ _ => rfl, by simp, by simp,
        by simp, fun h => absurd h (by simp [Took])⟩
    refine h.move hg rfl hcells (fun j _ config' hj => ?_) (fun _ hcell hslot => ⟨hcell, hslot⟩)
      (fun j hj => ⟨config, ?_⟩) hp (by simp [hplace, Took])
    · have hstarting := (h.threads j).starting config' hj
      rw [hfree] at hstarting
      cases hstarting
    · cases hj
      exact put_self

/-- **The cell is set once**, by the one thread that runs the closure for it. -/
theorem Inv.report (h : Inv s) {startup : Except BridgeError (Except BridgeError String)}
    (ht : step c s (.report i startup) = some t) : Goes s t := by
  simp only [step] at ht
  split at ht
  case h_2 => cases ht
  rename_i config hplace
  have hserves : Serves config := (h.threads i).serves config (by simp [hplace, Place.config])
  have hhook : s.hook = some (.ok ()) := (h.threads i).hooked (by simp [hplace, Place.hooked])
  have hstarting : s.initializing = some i := (h.threads i).starting config hplace
  have hcell : s.cell = none := by
    cases hc : s.cell with
    | none => rfl
    | some cell => simp [h.cells.free (by simp [hc])] at hstarting
  have hnot : s.runtime = false := by
    cases hr : s.runtime with
    | false => rfl
    | true =>
      obtain ⟨runtime, hsome⟩ := h.cells.slot hr
      simp [hcell] at hsome
  cases ht
  refine h.move ⟨fun _ => rfl, fun h => by simp [hcell] at h, fun _ h => by simp [hcell] at h⟩ rfl ?_
    (fun j hji config' hj => ?_) ?_ (fun j hj => by cases hj) (placeOk_joined hserves hhook rfl)
    (by simp [hplace, Took])
  · refine ⟨h.cells.hooks, ?_, fun _ => rfl, fun runtime hr => ?_, fun _ => hhook, fun hr => ?_⟩
    · simp [h.cells.starts, hstarting]
    · cases startup with
      | error error => simp [ProcessRuntime.start, Except.map] at hr
      | ok loaded =>
        simp only [ProcessRuntime.start, Except.map, Option.some.injEq, Except.ok.injEq] at hr
        subst hr
        exact hserves
    · cases startup with
      | error error => simp [ProcessRuntime.start, Except.map, Except.toBool] at hr
      | ok loaded => exact ⟨_, rfl⟩
  · have hother := (h.threads j).starting config' hj
    rw [hstarting] at hother
    exact absurd (Option.some.inj hother).symm hji
  · intro runtime hr hslot
    cases startup with
    | error error => simp [ProcessRuntime.start, Except.map] at hr
    | ok loaded => simp [ProcessRuntime.start, Except.map, Except.toBool] at hslot

theorem Inv.filter (h : Inv s) {config : Bytes} (ht : step c s (.filter i config) = some t) :
    Goes s t := by
  simp only [step] at ht
  split at ht
  case h_2 => cases ht
  rename_i hplace
  cases ht
  have hp : PlaceOk s i (beginFilter c config) ∧ ¬ Took (beginFilter c config) := by
    unfold beginFilter
    split
    · exact ⟨.plain (by simp [Place.config]) rfl (by simp) (by simp) (by simp) (by simp [Took]),
        by simp [Took]⟩
    · split
      · exact ⟨.plain (by simp [Place.config]) rfl (by simp) (by simp) (by simp) (by simp [Took]),
          by simp [Took]⟩
      · split
        all_goals
          exact ⟨.plain (by simp [Place.config]) rfl (by simp) (by simp) (by simp) (by simp [Took]),
            by simp [Took]⟩
  refine h.put hp.1 (by simp [hplace]) ⟨fun htook => absurd htook hp.2, fun htook => ?_⟩
  simp [hplace, Took] at htook

theorem entered_ok {o : Option Started} {ready : Ready} (h : entered o = .ok ready) :
    ∃ runtime, o = some (.ok runtime) ∧ runtime.ready = .ok ready := by
  unfold entered at h
  split at h
  · cases h
  · cases h
  · rename_i runtime
    refine ⟨runtime, rfl, ?_⟩
    unfold ProcessRuntime.join at h
    cases hr : runtime.ready with
    | error error => simp [hr, Except.mapError] at h
    | ok value =>
      rw [hr] at h
      cases h
      rfl

theorem Inv.ready (h : Inv s) (ht : step c s (.ready i) = some t) : Goes s t := by
  simp only [step] at ht
  split at ht
  case h_2 => cases ht
  rename_i context upstream hplace
  cases ht
  refine h.put ⟨by simp [Place.config], by simp [Place.hooked], by simp, by simp, by simp, ?_,
    fun htook => absurd htook (by simp [Took])⟩ (by simp [hplace]) (by simp [hplace, Took])
  intro config hconfig
  simp only [Place.filtered.injEq] at hconfig
  cases hready : entered s.cell with
  | error error => simp [hready, Except.map] at hconfig
  | ok ready =>
    rw [hready] at hconfig
    cases hconfig
    exact entered_ok hready

/-- **The runtime is taken once.** -/
theorem Inv.shutdown (h : Inv s) (ht : step c s (.shutdown i) = some t) : Goes s t := by
  simp only [step] at ht
  split at ht
  case h_2 => cases ht
  rename_i hplace
  split at ht
  · rename_i hslot
    cases ht
    obtain ⟨runtime, hcell⟩ := h.cells.slot hslot
    have nobody : ∀ j, ¬ Took (s.threads j) := by
      intro j hj
      have hgone := ((h.threads j).took hj).1
      rw [hslot] at hgone
      cases hgone
    have only : ∀ j, Took (({ s with runtime := false }.put i .stopping).threads j) → j = i := by
      intro j hj
      by_contra hji
      rw [put_other hji] at hj
      exact nobody j hj
    have hp : PlaceOk { s with runtime := false } i .stopping :=
      ⟨by simp [Place.config], by simp [Place.hooked], by simp, by simp, by simp, by simp,
        fun _ => ⟨rfl, runtime, hcell⟩⟩
    have hg : Grows s { s with runtime := false } := ⟨fun _ => rfl, fun _ => rfl, fun _ _ => rfl⟩
    refine ⟨⟨h.threads_put hg rfl (fun _ _ _ _ => rfl) hp, ?_,
      fun j hj => h.busy_put rfl (by simp [hplace]) hj,
      fun j k hj hk => (only j hj).trans (only k hk).symm, fun _ _ _ => ⟨i, ?_⟩⟩, hg.trans (.put _)⟩
    · exact ⟨h.cells.hooks, h.cells.starts, h.cells.free, h.cells.serves, h.cells.hook,
        fun hr => by cases hr⟩
    · rw [put_self]
      trivial
  · cases ht
    exact h.put (.plain (by simp [Place.config]) rfl (by simp) (by simp) (by simp) (by simp [Took]))
      (by simp [hplace]) (by simp [hplace, Took])

theorem Inv.finish (h : Inv s) {result : Except BridgeError Unit}
    (ht : step c s (.finish i result) = some t) : Goes s t := by
  simp only [step] at ht
  split at ht
  case h_2 => cases ht
  rename_i hplace
  cases ht
  have htook : Took (s.threads i) := by rw [hplace]; trivial
  refine h.put ⟨by simp [Place.config], by simp [Place.hooked], by simp, by simp, by simp, by simp,
    fun _ => (h.threads i).took htook⟩ (by simp [hplace]) ⟨fun _ => htook, fun _ => ?_⟩
  cases result <;> trivial

/-- **Every step keeps the invariant**, and nothing that was in the cells is taken back. -/
theorem Inv.goes (h : Inv s) (ht : step c s a = some t) : Goes s t := by
  cases a with
  | start i settings rackup => exact h.start ht
  | hook i registered => exact h.hook ht
  | join i => exact h.join ht
  | report i startup => exact h.report ht
  | filter i config => exact h.filter ht
  | ready i => exact h.ready ht
  | shutdown i => exact h.shutdown ht
  | finish i result => exact h.finish ht

theorem Inv.step (h : Inv s) (ht : step c s a = some t) : Inv t := (h.goes ht).inv

theorem Inv.initial : Inv {} where
  threads _ := .plain (by simp [Place.config]) rfl (by simp) (by simp) (by simp) (by simp [Took])
  cells := ⟨rfl, rfl, fun _ => rfl, by simp, by simp, by simp⟩
  busy _ h := by simp at h
  alone _ _ h := absurd h (by simp [Took])
  taken _ h := by simp at h

theorem Inv.of_reachable (h : (system c).Reachable s) : Inv s :=
  h.induct (fun s hs => by rw [show s = {} from hs]; exact .initial) fun _ _ _ hi _ ht => hi.step ht

/-! ## At most one runtime -/

/-- What a filter or the bootstrap extension may rely on that was given this. -/
structure Given (s : State) (ready : Ready) (runtime : ProcessRuntime) : Prop where
  cell : s.cell = some (.ok runtime)
  loaded : runtime.ready = .ok ready
  serves : Serves runtime.config
  hook : s.hook = some (.ok ())

theorem ensureCompatible_ok {runtime : ProcessRuntime} {config : ProcessRuntimeConfig}
    (h : runtime.ensureCompatible config = .ok ()) : runtime.config = config := by
  unfold ProcessRuntime.ensureCompatible at h
  split at h
  · assumption
  · cases h

theorem joined_ok {cell : Started} {config : ProcessRuntimeConfig} {ready : Ready}
    (h : joined cell config = .ok ready) :
    ∃ runtime, cell = .ok runtime ∧ runtime.config = config ∧ runtime.ready = .ok ready := by
  cases cell with
  | error error => cases h
  | ok runtime =>
    cases hc : runtime.ensureCompatible config with
    | error error => simp [joined, hc, bind, Except.bind] at h
    | ok _ =>
      simp only [joined, hc, bind, Except.bind] at h
      obtain ⟨runtime', hcell, hready⟩ :=
        entered_ok (o := some (.ok runtime)) (show entered _ = .ok ready from h)
      cases hcell
      exact ⟨runtime, rfl, ensureCompatible_ok hc, hready⟩

/-- Whoever is given a runtime is given the one in the cell. -/
theorem Inv.given (h : Inv s) :
    (∀ i requested ready, s.threads i = .started requested (.ok ready) →
      ∃ runtime, requested = some runtime.config ∧ Given s ready runtime) ∧
      ∀ i config, s.threads i = .filtered (.ok config) → ∃ runtime, Given s config.ready runtime := by
  refine ⟨fun i requested ready hplace => ?_, fun i config hplace => ?_⟩
  · cases requested with
    | none =>
      obtain ⟨error, he⟩ := (h.threads i).refused _ hplace
      cases he
    | some config =>
      obtain ⟨cell, hcell, hr⟩ := (h.threads i).joined config _ hplace
      obtain ⟨runtime, rfl, hconfig, hready⟩ := joined_ok hr.symm
      exact ⟨runtime, by rw [hconfig], hcell, hready, h.cells.serves _ hcell,
        h.cells.hook (by rw [hcell]; rfl)⟩
  · obtain ⟨runtime, hcell, hready⟩ := (h.threads i).filtered config hplace
    exact ⟨runtime, hcell, hready, h.cells.serves _ hcell, h.cells.hook (by rw [hcell]; rfl)⟩

/-- **One runtime**: at most one is ever started, after its hook; whoever is given a runtime is given
that one, loaded and on terms under which it serves, and `start` only for the settings asked for. -/
theorem process_agrees (h : (system c).Reachable s) :
    s.hooks ≤ 1 ∧ s.starts ≤ 1 ∧ (0 < s.starts → s.hook = some (.ok ())) ∧
      (∀ i requested ready, s.threads i = .started requested (.ok ready) →
        ∃ runtime, requested = some runtime.config ∧ Given s ready runtime) ∧
      ∀ i config, s.threads i = .filtered (.ok config) → ∃ runtime, Given s config.ready runtime := by
  have hi := Inv.of_reachable h
  refine ⟨?_, ?_, fun hpos => ?_, hi.given⟩
  · rw [hi.cells.hooks]
    split <;> omega
  · rw [hi.cells.starts]
    split <;> omega
  · rw [hi.cells.starts] at hpos
    split at hpos
    case isFalse => cases hpos
    rename_i hsome
    rcases hsome with hcell | hbusy
    · exact hi.cells.hook hcell
    · obtain ⟨i, hi'⟩ := Option.isSome_iff_exists.mp hbusy
      obtain ⟨config, hplace⟩ := hi.busy i hi'
      exact (hi.threads i).hooked (by simp [hplace, Place.hooked])
/-- A process with a reading of configurations that holds for the empty one. -/
def reading : Reading :=
  ⟨fun bytes => if bytes = [] then some [] else none, fun _ => .error "EOF", fun _ => .error "EOF"⟩

def settings : RuntimeSettings := ⟨"config.ru".toList, 1024, 10000, false, by decide, by decide, by decide⟩

def asked : ProcessRuntimeConfig := ⟨"/config.ru", 1024, 10000, false⟩

/-- Two threads start the runtime for one rackup, a third joins it and two more stop it. -/
def twoStarts : List Action :=
  [.start 0 settings (.ok "/config.ru"), .start 1 settings (.ok "/config.ru"), .hook 1 true,
    .hook 0 true, .join 0, .report 0 (.ok (.ok "runtime")), .join 1, .filter 2 [], .ready 2,
    .shutdown 3, .shutdown 4, .finish 3 (.ok ())]

/-- The application does not load; the same rackup is tried again, and a filter. -/
def twoFailures : List Action :=
  [.start 0 settings (.ok "/config.ru"), .hook 0 true, .join 0,
    .report 0 (.ok (.error (.Startup "no such file"))), .start 1 settings (.ok "/config.ru"),
    .hook 1 true, .join 1, .filter 2 [], .ready 2]

theorem process_agrees_twoStarts :
    ∃ s, (system reading).run {} twoStarts = some s ∧ s.starts ≤ 1 ∧
      ∃ runtime ready config, s.threads 1 = .started (some runtime.config) (.ok ready) ∧
        s.threads 2 = .filtered (.ok config) ∧ Given s ready runtime ∧ Given s config.ready runtime := by
  obtain ⟨s, hrun, ready, config, h1, h2⟩ : ∃ s, (system reading).run {} twoStarts = some s ∧
      ∃ ready config, s.threads 1 = .started (some asked) (.ok ready) ∧
        s.threads 2 = .filtered (.ok config) := ⟨_, rfl, _, _, rfl, rfl⟩
  obtain ⟨-, hstarts, -, hstarted, hfiltered⟩ := process_agrees (System.reach_of_run rfl hrun)
  obtain ⟨runtime, hr, hgiven⟩ := hstarted 1 _ _ h1
  obtain ⟨runtime', hgiven'⟩ := hfiltered 2 _ h2
  cases hgiven.cell.symm.trans hgiven'.cell
  exact ⟨s, hrun, hstarts, runtime, ready, config, by rw [h1, hr], h2, hgiven, hgiven'⟩

/-! ## The first start is final -/

theorem Grows.run {as : List Action} (h : Inv s) (hrun : (system c).run s as = some t) :
    Grows s t := by
  induction as generalizing s with
  | nil =>
    cases hrun
    exact .refl _
  | cons a as ih =>
    rw [System.run_cons] at hrun
    obtain ⟨u, hu, hrun⟩ := Option.bind_eq_some_iff.mp hrun
    exact (h.goes hu).grows.trans (ih (h.step hu) hrun)

/-- The error of a start that came to nothing. -/
def failure : Started → Option BridgeError
  | .error error => some error
  | .ok runtime =>
    match runtime.ready with
    | .error error => some error
    | .ok _ => none

theorem joined_failure {cell : Started} {error : BridgeError} (h : failure cell = some error)
    (config : ProcessRuntimeConfig) :
    joined cell config = .error (terminalStartupFailure error) ∨
      ∃ runtime, cell = .ok runtime ∧ runtime.config ≠ config := by
  cases cell with
  | error error' =>
    cases h
    exact .inl rfl
  | ok runtime =>
    by_cases hconfig : runtime.config = config
    · left
      unfold failure at h
      cases hready : runtime.ready with
      | ok ready => simp [hready] at h
      | error error' =>
        simp only [hready, Option.some.injEq] at h
        subst h
        simp [joined, ProcessRuntime.ensureCompatible, hconfig, ProcessRuntime.join, hready,
          Except.mapError, bind, Except.bind]
    · exact .inr ⟨runtime, rfl, hconfig⟩

/-- **The first start is final**: what it came to is what every start is told from then on, whoever
asks and whatever is tried; and after a failure nobody is given a runtime any more. -/
theorem process_final (h : (system c).Reachable s) {cell : Started} (hcell : s.cell = some cell)
    {as : List Action} (hrun : (system c).run s as = some t) :
    t.cell = some cell ∧ t.starts = 1 ∧
      (∀ i config r, t.threads i = .started (some config) r → r = joined cell config) ∧
      ∀ error, failure cell = some error →
        (∀ i config r, t.threads i = .started (some config) r →
          r = .error (terminalStartupFailure error) ∨
            ∃ runtime, cell = .ok runtime ∧ runtime.config ≠ config) ∧
        (∀ i requested ready, t.threads i ≠ .started requested (.ok ready)) ∧
        ∀ i config, t.threads i ≠ .filtered (.ok config) := by
  have hgrown := (Grows.run (Inv.of_reachable h) hrun).cell (by rw [hcell]; rfl)
  have ht : (system c).Reachable t := h.run hrun
  have hi := Inv.of_reachable ht
  have htcell : t.cell = some cell := hgrown.trans hcell
  have htold : ∀ i config r, t.threads i = .started (some config) r → r = joined cell config := by
    intro i config r hplace
    obtain ⟨cell', hcell', hr⟩ := (hi.threads i).joined config r hplace
    rw [htcell] at hcell'
    cases hcell'
    exact hr
  refine ⟨htcell, by simp [hi.cells.starts, htcell], htold, fun error hfail => ?_⟩
  have hnone : ∀ ready runtime, ¬ Given t ready runtime := by
    intro ready runtime hgiven
    have hsame : cell = .ok runtime := Option.some.inj (htcell.symm.trans hgiven.cell)
    rw [hsame, failure, hgiven.loaded] at hfail
    cases hfail
  refine ⟨fun i config r hplace => ?_, fun i requested ready hplace => ?_, fun i config hplace => ?_⟩
  · rw [htold i config r hplace]
    exact joined_failure hfail config
  · obtain ⟨runtime, -, hgiven⟩ := hi.given.1 i requested ready hplace
    exact hnone _ _ hgiven
  · obtain ⟨runtime, hgiven⟩ := hi.given.2 i config hplace
    exact hnone _ _ hgiven

theorem process_final_twoFailures :
    ∃ s t, (system reading).run {} (twoFailures.take 4) = some s ∧
      (system reading).run s (twoFailures.drop 4) = some t ∧
      t.threads 1 = .started (some asked)
        (.error (terminalStartupFailure (.Startup "no such file"))) ∧
      ∀ i config, t.threads i ≠ .filtered (.ok config) := by
  obtain ⟨s, t, hrun, hlater, hcell, r, hplace⟩ : ∃ s t,
      (system reading).run {} (twoFailures.take 4) = some s ∧
      (system reading).run s (twoFailures.drop 4) = some t ∧
      s.cell = some (.ok ⟨asked, .error (.Startup "no such file")⟩) ∧
      ∃ r, t.threads 1 = .started (some asked) r := ⟨_, _, rfl, rfl, rfl, _, rfl⟩
  obtain ⟨-, -, -, hfailed⟩ := process_final (System.reach_of_run rfl hrun) hcell hlater
  obtain ⟨htold, -, hfilter⟩ := hfailed (.Startup "no such file") rfl
  refine ⟨s, t, hrun, hlater, ?_, hfilter⟩
  rcases htold 1 asked r hplace with rfl | ⟨runtime, hruntime, hother⟩
  · exact hplace
  · cases hruntime
    exact absurd rfl hother

/-! ## The last stop -/

/-- **The runtime is stopped once**: when it is no longer in its slot, exactly one thread has taken it
to stop it, and while it is there nobody has. -/
theorem process_stopped_once (h : (system c).Reachable s) :
    (∀ i j, Took (s.threads i) → Took (s.threads j) → i = j) ∧
      ∀ runtime, s.cell = some (.ok runtime) → (s.runtime = false ↔ ∃ i, Took (s.threads i)) := by
  have hi := Inv.of_reachable h
  refine ⟨hi.alone, fun runtime hcell => ⟨hi.taken runtime hcell, ?_⟩⟩
  rintro ⟨i, htook⟩
  exact ((hi.threads i).took htook).1

theorem process_stopped_once_twoStarts :
    ∃ s, (system reading).run {} twoStarts = some s ∧ s.runtime = false ∧
      s.threads 3 = .stopped (.ok true) ∧ s.threads 4 = .stopped (.ok false) ∧
      ∀ i, Took (s.threads i) → i = 3 := by
  obtain ⟨s, hrun, hslot, h3, h4⟩ : ∃ s, (system reading).run {} twoStarts = some s ∧
      s.runtime = false ∧ s.threads 3 = .stopped (.ok true) ∧ s.threads 4 = .stopped (.ok false) :=
    ⟨_, rfl, rfl, rfl, rfl⟩
  obtain ⟨hone, -⟩ := process_stopped_once (System.reach_of_run rfl hrun)
  refine ⟨s, hrun, hslot, h3, h4, fun i hi => hone i 3 hi ?_⟩
  rw [h3]
  trivial

/-! ## Nobody waits for ever -/

/-- The thread is in `start`. -/
def Place.inStart : Place → Bool
  | .hooking _ | .joining _ | .starting _ => true
  | _ => false

/-- The steps that answer a thread in `start`: its own, and the end of a startup. -/
def Answering (i : ℕ) (registered : Bool) (startup : Except BridgeError (Except BridgeError String))
    (a : Action) : Prop :=
  a = .hook i registered ∨ a = .join i ∨ ∃ j, a = .report j startup

variable {registered : Bool} {startup : Except BridgeError (Except BridgeError String)}

variable (startup) in
/-- A startup that ends answers its thread, and sets the cell for the others. -/
theorem report_step {config : ProcessRuntimeConfig} (hplace : s.threads j = .starting config) :
    ∃ t, step c s (.report j startup) = some t ∧ t.cell.isSome ∧
      (∃ requested r, t.threads j = .started requested r) ∧
      ∀ i, i ≠ j → t.threads i = s.threads i := by
  simp only [step, hplace, Option.some.injEq, exists_eq_left']
  exact ⟨rfl, ⟨_, _, put_self⟩, fun i hij => put_other hij⟩

variable (registered) in
theorem hook_step {config : ProcessRuntimeConfig} (hplace : s.threads i = .hooking config) :
    ∃ t, step c s (.hook i registered) = some t ∧
      (t.threads i = .joining config ∨ ∃ requested r, t.threads i = .started requested r) := by
  cases hhook : s.hook with
  | none =>
    cases registered <;>
      simp only [step, hplace, hhook, registerHook, Option.some.injEq, exists_eq_left', if_true]
    · exact .inr ⟨_, _, put_self⟩
    · exact .inl put_self
  | some result =>
    cases result <;> simp only [step, hplace, hhook, Option.some.injEq, exists_eq_left']
    · exact .inr ⟨_, _, put_self⟩
    · exact .inl put_self

theorem leads_starting {config : ProcessRuntimeConfig} (hplace : s.threads i = .starting config) :
    (system c).Leads (Answering i registered startup)
      (fun t => ∃ requested r, t.threads i = .started requested r) s := by
  obtain ⟨t, ht, -, hstarted, -⟩ := report_step (c := c) startup hplace
  exact .next (.inr (.inr ⟨i, rfl⟩)) ht (.here hstarted)

theorem leads_joined {config : ProcessRuntimeConfig} (hplace : s.threads i = .joining config)
    (hcell : s.cell.isSome) :
    (system c).Leads (Answering i registered startup)
      (fun t => ∃ requested r, t.threads i = .started requested r) s := by
  obtain ⟨cell, hcell⟩ := Option.isSome_iff_exists.mp hcell
  have ht : (system c).step s (.join i) =
      some (s.put i (.started (some config) (joined cell config))) := by
    simp only [system, step, hplace, hcell]
  exact .next (.inr (.inl rfl)) ht (.here ⟨_, _, put_self⟩)

theorem leads_joining (h : Inv s) {config : ProcessRuntimeConfig}
    (hplace : s.threads i = .joining config) :
    (system c).Leads (Answering i registered startup)
      (fun t => ∃ requested r, t.threads i = .started requested r) s := by
  cases hcell : s.cell with
  | some cell => exact leads_joined hplace (by rw [hcell]; rfl)
  | none =>
    cases hfree : s.initializing with
    | none =>
      have ht : (system c).step s (.join i) = some
          { s.put i (.starting config) with initializing := some i, starts := s.starts + 1 } := by
        simp only [system, step, hplace, hcell, hfree, if_true]
      exact .next (.inr (.inl rfl)) ht (leads_starting put_self)
    | some j =>
      -- the thread that runs the closure ends it first
      obtain ⟨config', hj⟩ := h.busy j hfree
      have hij : i ≠ j := by
        rintro rfl
        rw [hplace] at hj
        cases hj
      obtain ⟨t, ht, hset, -, hsame⟩ := report_step (c := c) startup hj
      exact .next (.inr (.inr ⟨j, rfl⟩)) ht (leads_joined ((hsame i hij).trans hplace) hset)

/-- **Nobody waits for ever in `start`**: its own steps and the end of one startup answer every
thread, however the hook and the startup come out. -/
theorem process_returns (h : (system c).Reachable s) (hi : (s.threads i).inStart = true)
    (registered : Bool) (startup : Except BridgeError (Except BridgeError String)) :
    (system c).Leads (Answering i registered startup)
      (fun t => ∃ requested r, t.threads i = .started requested r) s := by
  have hinv := Inv.of_reachable h
  cases hplace : s.threads i with
  | starting config => exact leads_starting hplace
  | joining config => exact leads_joining hinv hplace
  | hooking config =>
    obtain ⟨t, ht, hplaced⟩ := hook_step (c := c) registered hplace
    refine .next (.inl rfl) ht ?_
    rcases hplaced with hjoining | hstarted
    · exact leads_joining (hinv.step ht) hjoining
    · exact .here hstarted
  | _ => simp [hplace, Place.inStart] at hi

/-- A thread joins while another one starts the runtime. -/
theorem process_returns_twoStarts :
    ∃ s, (system reading).run {} (twoStarts.take 5) = some s ∧
      (system reading).Leads (Answering 1 true (.ok (.ok "runtime")))
        (fun t => ∃ requested r, t.threads 1 = .started requested r) s := by
  obtain ⟨s, hrun, hplace⟩ : ∃ s, (system reading).run {} (twoStarts.take 5) = some s ∧
      (s.threads 1).inStart = true := ⟨_, rfl, rfl⟩
  exact ⟨s, hrun, process_returns (System.reach_of_run rfl hrun) hplace _ _⟩

end Ruvoy.Process
