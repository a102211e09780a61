import Ruvoy.Runtime.Model

/-!
# What is known of a submitted call

* `Place.Ok`, `TaskOk`: what is known of a call by where it is, and `StageOk`, of the reactor by where
  it is;
* `Inv`: the invariant; `Beside`, `Moves`, `Inv.move`: a step of one call is nothing to the others;
* `Inv.acquire`, `Inv.send`, `Inv.signal`, `Inv.tell`: the steps of the clients keep it.
-/

set_option autoImplicit false

namespace Ruvoy.Runtime

open Runs

variable {V : Type}

/-! ## The invariant -/

/-- What is received before the reactor stops. -/
def beforeShutdown (commands : List Command) : List Command := commands.takeWhile (· ≠ .Shutdown)

/-- What is known of a call by its place. -/
def Place.Ok (s : State V) (n : Notes) (i : ℕ) (k : Task V) : Place → Prop
  | .outside | .admitted =>
    .Call i ∉ s.commands ∧ i ∉ s.batch ∧ k.signalling = false ∧ k.result = none
  | .refused => k.signalling = false ∧ ∃ e, k.result = some (.error e)
  | .queued => .Call i ∈ s.commands ∧ i ∉ s.batch
  | .batched => i ∈ s.batch
  | .calling | .failing _ => i ∈ s.running
  | .responding => i ∈ s.running ∧ (k.fiber.pc.over = true → k.fiber.stream.Settled)
  | .done => k.fiber.stream.Settled
  | .dropped => s.stage.gone = true ∧ i ∈ n.behind

/-- The application was not given the call. -/
def Place.unseen : Place → Bool
  | .outside | .admitted | .queued | .dropped => true
  | _ => false

structure TaskOk (s : State V) (n : Notes) (i : ℕ) (k : Task V) : Prop where
  place : k.place.Ok s n i k
  pending : k.signalling = true → k.result = none
  unseen : k.place.unseen = true → k.fiber.stream.accepted = []
  late : i ∈ n.late → i ∈ n.behind ∨ k.result = some (.error .RuntimeStopped)
  behind : i ∈ n.behind → k.place = .queued ∨ k.place = .dropped
  /-- The `Shutdown` is received first. -/
  order : i ∈ n.behind → s.shuttingDown = false → .Call i ∉ beforeShutdown s.commands

/-- What is known of the reactor by its stage. -/
def StageOk (s : State V) : Stage → Prop
  | .waiting => s.shuttingDown = false ∧ s.batch = []
  | .receiving => s.shuttingDown = false
  | .starting | .failed => True
  | .stopping => s.shuttingDown = true ∧ s.batch = []
  | .stopped => s.shuttingDown = true ∧ s.batch = [] ∧ s.running = []
  | .exited | .closed =>
    s.shuttingDown = true ∧ s.batch = [] ∧ s.running = [] ∧ s.commands = []

structure Inv (s : State V) (n : Notes) : Prop where
  tasks : ∀ i, TaskOk s n i (s.tasks i)
  stage : StageOk s s.stage
  clients : s.clients = false → s.shutdownSent = true
  shutdown : s.shuttingDown = true → s.shutdownSent = true
  told : .Shutdown ∈ s.commands → s.shutdownSent = true
  /-- The `Shutdown` was received, or is to be. -/
  sent : s.shutdownSent = true → s.shuttingDown = true ∨ .Shutdown ∈ s.commands
  /-- After it only calls that came late are left. -/
  sealed : s.shuttingDown = true → ∀ i, .Call i ∈ s.commands → i ∈ n.behind
  order : s.commands.Pairwise fun c d => c = .Shutdown → ∀ i, d = .Call i → i ∈ n.behind

variable {s t : State V} {n m : Notes}

/-- Nothing that is known of a call changes. -/
structure Beside (s t : State V) (n m : Notes) (i : ℕ) : Prop where
  calls : .Call i ∈ t.commands ↔ .Call i ∈ s.commands
  batch : i ∈ t.batch ↔ i ∈ s.batch
  running : i ∈ s.running → i ∈ t.running
  gone : s.stage.gone = true → t.stage.gone = true
  late : i ∈ m.late → i ∈ n.late
  behind : i ∈ m.behind ↔ i ∈ n.behind
  order : t.shuttingDown = false → s.shuttingDown = false ∧
    (.Call i ∈ beforeShutdown t.commands → .Call i ∈ beforeShutdown s.commands)

theorem Beside.same {i : ℕ} (hc : t.commands = s.commands) (hb : t.batch = s.batch)
    (hr : t.running = s.running) (hst : t.stage = s.stage) (hs : t.shuttingDown = s.shuttingDown) :
    Beside s t n n i := by
  refine ⟨by rw [hc], by rw [hb], by rw [hr]; exact id, by rw [hst]; exact id, id, Iff.rfl, ?_⟩
  rw [hs, hc]
  exact fun h => ⟨h, id⟩

theorem Beside.place {i : ℕ} (b : Beside s t n m i) {k : Task V} {p : Place} (h : p.Ok s n i k) :
    p.Ok t m i k := by
  cases p with
  | outside | admitted => exact ⟨fun hc => h.1 (b.calls.mp hc), fun hb => h.2.1 (b.batch.mp hb), h.2.2⟩
  | refused => exact h
  | queued => exact ⟨b.calls.mpr h.1, fun hb => h.2 (b.batch.mp hb)⟩
  | batched => exact b.batch.mpr h
  | calling | failing e => exact b.running h
  | responding => exact ⟨b.running h.1, h.2⟩
  | done => exact h
  | dropped => exact ⟨b.gone h.1, b.behind.mpr h.2⟩

theorem TaskOk.beside {i : ℕ} {k : Task V} (h : TaskOk s n i k) (b : Beside s t n m i) :
    TaskOk t m i k where
  place := b.place h.place
  pending := h.pending
  unseen := h.unseen
  late hl := (h.late (b.late hl)).imp b.behind.mpr id
  behind hb := h.behind (b.behind.mp hb)
  order hb hs := fun hc => h.order (b.behind.mp hb) (b.order hs).1 ((b.order hs).2 hc)

/-! ## Steps of one call -/

/-- A step of one call leaves the reactor and the channel alone, but for the tasks that run. -/
structure Moves (s t : State V) (i : ℕ) (k : Task V) : Prop where
  tasks : t.tasks = Function.update s.tasks i k
  commands : t.commands = s.commands
  stage : t.stage = s.stage
  batch : t.batch = s.batch
  shuttingDown : t.shuttingDown = s.shuttingDown
  shutdownSent : t.shutdownSent = s.shutdownSent
  clients : t.clients = s.clients
  fewer : ∀ j ∈ t.running, j ∈ s.running
  running : ∀ j ≠ i, j ∈ s.running → j ∈ t.running

theorem Moves.put (s : State V) (i : ℕ) (k : Task V) : Moves s (s.put i k) i k :=
  ⟨rfl, rfl, rfl, rfl, rfl, rfl, rfl, fun _ h => h, fun _ _ h => h⟩

theorem Moves.complete (s : State V) (i : ℕ) (fiber : Rack.State V) :
    Moves s (s.complete i fiber) i { s.tasks i with place := .done, fiber := fiber } :=
  ⟨rfl, rfl, rfl, rfl, rfl, rfl, rfl, fun _ h => List.mem_of_mem_erase h,
    fun _ hne h => (List.mem_erase_of_ne hne).mpr h⟩

theorem Moves.beside {i : ℕ} {k : Task V} (h : Moves s t i k) {j : ℕ} (hj : j ≠ i)
    (hl : j ∈ m.late → j ∈ n.late) (hb : m.behind = n.behind) : Beside s t n m j where
  calls := by rw [h.commands]
  batch := by rw [h.batch]
  running := h.running j hj
  gone := by rw [h.stage]; exact id
  late := hl
  behind := by rw [hb]
  order := by rw [h.shuttingDown, h.commands]; exact fun hs => ⟨hs, id⟩

theorem StageOk.mono {p : Stage} (h : StageOk s p) (hs : t.shuttingDown = s.shuttingDown)
    (hb : t.batch = s.batch) (hc : t.commands = s.commands) (hr : ∀ j ∈ t.running, j ∈ s.running) :
    StageOk t p := by
  have hnil : s.running = [] → t.running = [] := by
    intro hn
    apply List.eq_nil_iff_forall_not_mem.mpr
    intro j hj
    have := hr j hj
    rw [hn] at this
    cases this
  cases p with
  | waiting | stopping => exact ⟨hs.trans h.1, hb.trans h.2⟩
  | receiving => exact hs.trans h
  | starting | failed => trivial
  | stopped => exact ⟨hs.trans h.1, hb.trans h.2.1, hnil h.2.2⟩
  | exited | closed => exact ⟨hs.trans h.1, hb.trans h.2.1, hnil h.2.2.1, hc.trans h.2.2.2⟩

/-- What is known of a call after its step, and of the others, which the step is nothing to. -/
theorem tasks_update {i : ℕ} {k : Task V} (h : ∀ j, TaskOk s n j (s.tasks j))
    (ht : t.tasks = Function.update s.tasks i k) (hk : TaskOk t m i k)
    (hb : ∀ j ≠ i, Beside s t n m j) (j : ℕ) : TaskOk t m j (t.tasks j) := by
  rw [ht]
  by_cases hj : j = i
  · subst hj
    rw [Function.update_self]
    exact hk
  · rw [Function.update_of_ne hj]
    exact (h j).beside (hb j hj)

theorem Inv.move (h : Inv s n) {i : ℕ} {k : Task V} (hm : Moves s t i k)
    (hl : ∀ j ≠ i, j ∈ m.late → j ∈ n.late) (hb : m.behind = n.behind) (hk : TaskOk t m i k) :
    Inv t m where
  tasks := tasks_update h.tasks hm.tasks hk fun j hj => hm.beside hj (hl j hj) hb
  stage := by
    rw [hm.stage]
    exact h.stage.mono hm.shuttingDown hm.batch hm.commands hm.fewer
  clients := by rw [hm.clients, hm.shutdownSent]; exact h.clients
  shutdown := by rw [hm.shuttingDown, hm.shutdownSent]; exact h.shutdown
  told := by rw [hm.commands, hm.shutdownSent]; exact h.told
  sent := by rw [hm.shuttingDown, hm.shutdownSent, hm.commands]; exact h.sent
  sealed := by rw [hm.shuttingDown, hm.commands, hb]; exact h.sealed
  order := by rw [hm.commands, hb]; exact h.order

theorem Inv.goes (h : Inv s n) {i : ℕ} {k : Task V} (hm : Moves s t i k) (hp : k.place.Ok t n i k)
    (hsig : k.signalling = (s.tasks i).signalling) (hres : k.result = (s.tasks i).result)
    (hun : k.place.unseen = true → k.fiber.stream.accepted = [])
    (hb : k.place = (s.tasks i).place ∨ (s.tasks i).place ≠ .queued ∧ (s.tasks i).place ≠ .dropped) :
    Inv t n := by
  have hi := h.tasks i
  have hbehind : i ∈ n.behind → k.place = (s.tasks i).place := by
    intro hmem
    refine hb.resolve_right fun hne => ?_
    rcases hi.behind hmem with hq | hd
    · exact hne.1 hq
    · exact hne.2 hd
  refine h.move hm (fun _ _ => id) rfl ⟨hp, ?_, hun, ?_, ?_, ?_⟩
  · rw [hsig, hres]
    exact hi.pending
  · rw [hres]
    exact hi.late
  · intro hmem
    rw [hbehind hmem]
    exact hi.behind hmem
  · rw [hm.shuttingDown, hm.commands]
    exact hi.order

theorem TaskOk.unnoted {i : ℕ} {k : Task V} (h : TaskOk s n i k)
    (hp : k.place = .outside ∨ k.place = .admitted) : i ∉ n.late ∧ i ∉ n.behind := by
  have hplace := h.place
  have hb : i ∉ n.behind := by
    intro hmem
    rcases hp with hp | hp <;> rcases h.behind hmem with hq | hq <;> rw [hp] at hq <;> cases hq
  refine ⟨fun hmem => ?_, hb⟩
  have hres : k.result = none := by
    rcases hp with hp | hp <;> rw [hp] at hplace <;> exact hplace.2.2.2
  rcases h.late hmem with hmem | hsome
  · exact hb hmem
  · rw [hres] at hsome
    cases hsome

theorem Inv.acquire (h : Inv s n) {i : ℕ} (hp : (s.tasks i).place = .outside) :
    Inv (s.acquire i) n := by
  have hi := h.tasks i
  have hplace := hi.place
  rw [hp] at hplace
  obtain ⟨hc, hb, hsig, hres⟩ := hplace
  obtain ⟨hl, hbe⟩ := hi.unnoted (Or.inl hp)
  have hacc := hi.unseen (by rw [hp]; rfl)
  unfold State.acquire
  split_ifs
  · refine h.goes (i := i) (k := { s.tasks i with place := .admitted }) ?_ ⟨hc, hb, hsig, hres⟩ rfl rfl
      (fun _ => hacc) (Or.inr ?_)
    · exact ⟨rfl, rfl, rfl, rfl, rfl, rfl, rfl, fun _ h => h, fun _ _ h => h⟩
    · rw [hp]
      exact ⟨by rintro ⟨⟩, by rintro ⟨⟩⟩
  · refine h.move (Moves.put s i _) (fun _ _ => id) rfl ⟨⟨hsig, _, rfl⟩, ?_, ?_, ?_, ?_, ?_⟩
    · exact fun hs => absurd (hsig.symm.trans hs) (by rintro ⟨⟩)
    · rintro ⟨⟩
    · exact fun hmem => absurd hmem hl
    · exact fun hmem => absurd hmem hbe
    · exact fun hmem => absurd hmem hbe

theorem Inv.signal (h : Inv s n) {i : ℕ} (hs : (s.tasks i).signalling = true) :
    Inv (s.put i { s.tasks i with signalling := false, result := some s.signalled }) n := by
  have hi := h.tasks i
  have hres := hi.pending hs
  have hplace : (s.tasks i).place.Ok s n i
      { s.tasks i with signalling := false, result := some s.signalled } := by
    have hp := hi.place
    cases hpl : (s.tasks i).place with
    | outside | admitted =>
      rw [hpl] at hp
      exact absurd (hp.2.2.1.symm.trans hs) (by rintro ⟨⟩)
    | refused =>
      rw [hpl] at hp
      exact absurd (hp.1.symm.trans hs) (by rintro ⟨⟩)
    | _ =>
      rw [hpl] at hp
      exact hp
  refine h.move (Moves.put s i _) (fun _ _ => id) rfl ⟨?_, ?_, hi.unseen, ?_, hi.behind, hi.order⟩
  · exact hplace
  · rintro ⟨⟩
  · intro hmem
    rcases hi.late hmem with hmem | hsome
    · exact Or.inl hmem
    · rw [hres] at hsome
      cases hsome

/-! ## Commands sent -/

theorem beforeShutdown_of_mem {commands : List Command} (h : .Shutdown ∈ commands) (d : Command) :
    beforeShutdown (commands ++ [d]) = beforeShutdown commands := by
  unfold beforeShutdown
  induction commands with
  | nil => cases h
  | cons c rest ih =>
    rw [List.cons_append, List.takeWhile_cons, List.takeWhile_cons]
    by_cases hc : c = .Shutdown
    · simp [hc]
    · have hrest : .Shutdown ∈ rest := (List.mem_cons.mp h).resolve_left fun he => hc he.symm
      rw [ih hrest]

theorem mem_beforeShutdown {commands : List Command} {c : Command} (h : c ∈ beforeShutdown commands) :
    c ∈ commands :=
  (List.takeWhile_sublist _).subset h

theorem mem_beforeShutdown_concat {commands : List Command} {c d : Command} (hne : c ≠ d)
    (h : c ∈ beforeShutdown (commands ++ [d])) : c ∈ beforeShutdown commands := by
  by_cases hs : .Shutdown ∈ commands
  · rwa [beforeShutdown_of_mem hs] at h
  · have hc : c ∈ commands := by
      have hmem := mem_beforeShutdown h
      rw [List.mem_append, List.mem_singleton] at hmem
      exact hmem.resolve_right hne
    have hall : beforeShutdown commands = commands := by
      apply List.takeWhile_eq_self_iff.mpr
      intro x hx
      have hne' : x ≠ .Shutdown := fun he => hs (he ▸ hx)
      simpa using hne'
    rwa [hall]

/-- One more command in the channel is nothing to the calls it does not carry. -/
theorem beside_concat {c : Command} {i : ℕ} (hc : c ≠ .Call i) (ht : t.commands = s.commands ++ [c])
    (hb : t.batch = s.batch) (hr : t.running = s.running) (hst : t.stage = s.stage)
    (hsd : t.shuttingDown = s.shuttingDown) (hl : i ∈ m.late → i ∈ n.late)
    (hbe : i ∈ m.behind ↔ i ∈ n.behind) : Beside s t n m i where
  calls := by
    rw [ht, List.mem_append, List.mem_singleton]
    exact ⟨fun h => h.resolve_right fun he => hc he.symm, Or.inl⟩
  batch := by rw [hb]
  running := by rw [hr]; exact id
  gone := by rw [hst]; exact id
  late := hl
  behind := hbe
  order := by
    rw [hsd, ht]
    exact fun hs => ⟨hs, mem_beforeShutdown_concat hc.symm⟩

/-- The channel is open: what is known of the reactor does not speak of it. -/
theorem StageOk.concat {p : Stage} (h : StageOk s p) (hp : p.gone = false)
    (hs : t.shuttingDown = s.shuttingDown) (hb : t.batch = s.batch) (hr : t.running = s.running) :
    StageOk t p := by
  cases p with
  | waiting | stopping => exact ⟨hs.trans h.1, hb.trans h.2⟩
  | receiving => exact hs.trans h
  | starting | failed => trivial
  | stopped => exact ⟨hs.trans h.1, hb.trans h.2.1, hr.trans h.2.2⟩
  | exited | closed => cases hp

theorem StageOk.shuttingDown {p : Stage} (h : StageOk s p) (hp : p.gone = true) :
    s.shuttingDown = true := by
  cases p with
  | exited | closed => exact h.1
  | _ => cases hp

/-! ### The notes of a send -/

theorem note_late_ne {i j : ℕ} (hj : j ≠ i) (hmem : j ∈ (note s (.send i) n).late) : j ∈ n.late := by
  dsimp only [note] at hmem
  split_ifs at hmem
  · exact (List.mem_cons.mp hmem).resolve_left hj
  · exact hmem

theorem note_late_self {i : ℕ} (hl : i ∉ n.late) (hmem : i ∈ (note s (.send i) n).late) :
    s.shuttingDown = true := by
  dsimp only [note] at hmem
  split_ifs at hmem with hd
  · exact hd
  · exact absurd hmem hl

theorem note_behind_gone {i : ℕ} (hg : s.stage.gone = true) :
    (note s (.send i) n).behind = n.behind := by
  simp [note, hg]

theorem note_behind {i j : ℕ} (hg : s.stage.gone = false) :
    j ∈ (note s (.send i) n).behind ↔ s.shutdownSent = true ∧ j = i ∨ j ∈ n.behind := by
  cases hs : s.shutdownSent <;> simp [note, hg, hs]

/-! ### Sends -/

theorem Inv.refuse (h : Inv s n) {i : ℕ} (hp : (s.tasks i).place = .admitted)
    (hg : s.stage.gone = true) : Inv (s.refuse i) (note s (.send i) n) := by
  have hi := h.tasks i
  have hplace := hi.place
  rw [hp] at hplace
  obtain ⟨-, -, hsig, -⟩ := hplace
  have hbe : i ∉ (note s (.send i) n).behind := by
    rw [note_behind_gone hg]
    exact (hi.unnoted (Or.inr hp)).2
  have hm : Moves s (s.refuse i) i { s.tasks i with
      place := .refused, result := some (.error .RuntimeStopped) } :=
    ⟨rfl, rfl, rfl, rfl, rfl, rfl, rfl, fun _ h => h, fun _ _ h => h⟩
  refine h.move hm (fun j hj => note_late_ne hj) (note_behind_gone hg)
    ⟨⟨hsig, _, rfl⟩, ?_, ?_, fun _ => Or.inr rfl, ?_, ?_⟩
  · exact fun hs => absurd (hsig.symm.trans hs) (by rintro ⟨⟩)
  · rintro ⟨⟩
  · exact fun hmem => absurd hmem hbe
  · exact fun hmem => absurd hmem hbe

theorem Inv.queued (h : Inv s n) {i : ℕ} (hp : (s.tasks i).place = .admitted)
    (hg : s.stage.gone = false) :
    TaskOk (s.enqueue i) (note s (.send i) n) i
      { s.tasks i with place := .queued, signalling := true } := by
  have hi := h.tasks i
  have hplace := hi.place
  rw [hp] at hplace
  obtain ⟨hc, hb, -, hres⟩ := hplace
  obtain ⟨hl, hbe⟩ := hi.unnoted (Or.inr hp)
  refine ⟨⟨?_, hb⟩, fun _ => hres, fun _ => hi.unseen (by rw [hp]; rfl), ?_, fun _ => Or.inl rfl, ?_⟩
  · exact List.mem_append_right _ (List.mem_singleton_self _)
  · intro hmem
    have hsent := h.shutdown (note_late_self hl hmem)
    exact Or.inl ((note_behind hg).mpr (Or.inl ⟨hsent, rfl⟩))
  · intro hmem hd hcall
    have hsent : s.shutdownSent = true := (((note_behind hg).mp hmem).resolve_right hbe).1
    have hin : .Shutdown ∈ s.commands := by
      refine (h.sent hsent).resolve_left fun hs => ?_
      exact absurd (hs.symm.trans hd) (by rintro ⟨⟩)
    have hcall' : .Call i ∈ beforeShutdown (s.commands ++ [.Call i]) := hcall
    rw [beforeShutdown_of_mem hin] at hcall'
    exact hc (mem_beforeShutdown hcall')

theorem Inv.enqueue (h : Inv s n) {i : ℕ} (hp : (s.tasks i).place = .admitted)
    (hg : s.stage.gone = false) : Inv (s.enqueue i) (note s (.send i) n) := by
  have hother : ∀ j, j ∈ n.behind → j ∈ (note s (.send i) n).behind :=
    fun j hj => (note_behind hg).mpr (Or.inr hj)
  have hself : s.shutdownSent = true → i ∈ (note s (.send i) n).behind :=
    fun hs => (note_behind hg).mpr (Or.inl ⟨hs, rfl⟩)
  refine ⟨?_, h.stage.concat hg rfl rfl rfl, h.clients, h.shutdown, ?_, ?_, ?_, ?_⟩
  · refine tasks_update h.tasks rfl (h.queued hp hg) fun j hj => ?_
    refine beside_concat (c := .Call i) ?_ rfl rfl rfl rfl rfl (note_late_ne hj) ?_
    · exact fun he => hj (Command.Call.inj he).symm
    · exact ⟨fun hmem => ((note_behind hg).mp hmem).resolve_left fun hs => hj hs.2, hother j⟩
  · intro hmem
    have hmem' : .Shutdown ∈ s.commands ++ [.Call i] := hmem
    rw [List.mem_append, List.mem_singleton] at hmem'
    exact h.told (hmem'.resolve_right (by rintro ⟨⟩))
  · exact fun hs => (h.sent hs).imp id (List.mem_append_left _)
  · intro hd j hmem
    have hmem' : .Call j ∈ s.commands ++ [.Call i] := hmem
    rw [List.mem_append, List.mem_singleton] at hmem'
    rcases hmem' with hmem' | hj
    · exact hother j (h.sealed hd j hmem')
    · cases hj
      exact hself (h.shutdown hd)
  · refine List.pairwise_append.mpr ⟨?_, List.pairwise_singleton _ _, ?_⟩
    · exact h.order.imp fun hcd he j hd => hother j (hcd he j hd)
    · intro c hc d hd he j hj
      rw [List.mem_singleton] at hd
      subst he
      rw [hd, Command.Call.injEq] at hj
      subst hj
      exact hself (h.told hc)

theorem Inv.send (h : Inv s n) {i : ℕ} (hp : (s.tasks i).place = .admitted) :
    Inv (s.send i) (note s (.send i) n) := by
  unfold State.send
  cases hg : s.stage.gone with
  | true => exact h.refuse hp hg
  | false => exact h.enqueue hp hg

theorem Inv.tell (h : Inv s n) {c : Command} (hc : c.isCall = false) {b : Bool}
    (hb : b = true ↔ s.shutdownSent = true ∨ c = .Shutdown) :
    Inv { s with commands := s.tell c, shutdownSent := b } n := by
  have hmono : s.shutdownSent = true → b = true := fun hs => hb.mpr (Or.inl hs)
  cases hg : s.stage.gone with
  | true =>
    have hcmd : s.tell c = s.commands := if_pos hg
    rw [hcmd]
    refine ⟨fun j => ?_, ?_, fun hcl => hmono (h.clients hcl), fun hd => hmono (h.shutdown hd),
      fun hm => hmono (h.told hm), fun _ => Or.inl (h.stage.shuttingDown hg), h.sealed, h.order⟩
    · exact (h.tasks j).beside (Beside.same rfl rfl rfl rfl rfl)
    · exact h.stage.mono rfl rfl rfl fun _ h => h
  | false =>
    have hcmd : s.tell c = s.commands ++ [c] := if_neg (by simp [hg])
    have hne : ∀ i, c ≠ .Call i := by
      intro i he
      rw [he] at hc
      cases hc
    rw [hcmd]
    refine ⟨fun j => ?_, h.stage.concat hg rfl rfl rfl, fun hcl => hmono (h.clients hcl),
      fun hd => hmono (h.shutdown hd), ?_, ?_, ?_, ?_⟩
    · exact (h.tasks j).beside (beside_concat (hne j) rfl rfl rfl rfl rfl id Iff.rfl)
    · intro hm
      have hm' : .Shutdown ∈ s.commands ++ [c] := hm
      rw [List.mem_append, List.mem_singleton] at hm'
      exact hb.mpr (hm'.imp h.told Eq.symm)
    · intro hs
      rcases hb.mp hs with hsent | hshut
      · exact (h.sent hsent).imp id (List.mem_append_left _)
      · exact Or.inr (List.mem_append_right _ (List.mem_singleton.mpr hshut.symm))
    · intro hd i hm
      have hm' : .Call i ∈ s.commands ++ [c] := hm
      rw [List.mem_append, List.mem_singleton] at hm'
      exact h.sealed hd i (hm'.resolve_right fun he => hne i he.symm)
    · refine List.pairwise_append.mpr ⟨h.order, List.pairwise_singleton _ _, ?_⟩
      intro d _ e he _ i hi
      rw [List.mem_singleton] at he
      exact absurd (he.symm.trans hi) (hne i)

end Ruvoy.Runtime
