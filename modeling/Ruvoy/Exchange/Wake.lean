import Ruvoy.Exchange.Model

/-!
# The reading fiber is woken

A parked reader for which something arrived, or whose queue was ended or cancelled, is owed a
wakeup, in every run: the reactor's pass never falls between the take that found nothing and the
park, so a push in between is signalled after it.

* `State.Signalled`: the worker will signal the reactor, or has;
* `Wakes`: the invariant, kept by every step;
* `Reading`: the steps of the reader and of those who wake it, and **`leads_to_take`**: they bring a
  reader that waits back to its take.
-/

set_option autoImplicit false

namespace Ruvoy.Exchange

open Runs

namespace State

variable (s : State)

/-- The worker will signal the reactor, or has. -/
def Signalled : Prop := s.due = true ∨ 0 < s.owed

/-- Past the head, something was taken. -/
def Past (l : Loop) : Prop := l ≠ .head → s.response.taken ≠ []

/-- The queue changed since the reader found it empty. -/
def Changed : Prop :=
  s.response.stream.items ≠ [] ∨ (s.response.stream.cancelled || s.response.stream.ended) = true

/-- What is owed to a reader, by where it is. -/
def Waits : Reader → Prop
  | .inLoop l .check | .inLoop l .park => s.Past l ∧ (s.response.stream.items ≠ [] → s.Signalled)
  | .inLoop l .parked =>
    s.Past l ∧ s.response.stream.waiter.isSome = true ∧ (s.Changed → s.Signalled)
  | .inLoop l .take | .inLoop l .leave => s.Past l
  | .idle => s.response.taken ≠ []
  | .timingOut l _ => s.Past l
  | .finished => s.verdicts ≠ []

end State

structure Wakes (s : State) : Prop where
  unpaused : s.response.stream.paused = false
  fresh : s.worker = .fresh → s.response.accepted = []
  heads : ∀ x ∈ s.response.accepted.tail, x.isHead = false
  spent : s.failure.isSome = true → s.response.stream.items = [] ∧ s.response.stream.ended = true
  waits : s.Waits s.reader

variable {s : State}

theorem Wakes.start (budget : ℕ) (protocol : Bool) (body : Option Bytes) (rest : Bool) :
    Wakes (.start budget protocol body rest) where
  unpaused := rfl
  fresh _ := rfl
  heads _ h := by cases h
  spent h := by cases h
  waits h := absurd rfl h

theorem heads_concat {l : List StreamItem} {x : StreamItem} (h : ∀ y ∈ l.tail, y.isHead = false)
    (hx : x.isHead = true → l = []) : ∀ y ∈ (l ++ [x]).tail, y.isHead = false := by
  intro y hy
  cases l with
  | nil => cases hy
  | cons z r =>
    rw [List.cons_append, List.tail_cons, List.mem_append, List.mem_singleton] at hy
    rcases hy with hy | rfl
    · exact h y hy
    · by_contra hn
      cases hx (by simpa using hn)

namespace Wakes

theorem no_head (h : Wakes s) (ht : s.response.taken ≠ []) {x : StreamItem}
    (hx : x ∈ s.response.stream.items) : x.isHead = false := by
  have hc : s.response.stream.cancelled = false := by
    by_contra hn
    rw [s.response.stream.wf.cancelled (by simpa using hn)] at hx
    cases hx
  obtain ⟨y, r, hy⟩ := List.exists_cons_of_ne_nil ht
  refine h.heads x ?_
  rw [← s.response.conserve hc, hy]
  exact List.mem_append_right _ hx

/-! ### Steps of the others -/

theorem frame (h : Wakes s) {t : State} (hq : t.response = s.response) (hw : t.worker = s.worker)
    (hr : t.reader = s.reader) (hv : t.verdicts = s.verdicts) (hf : t.failure = s.failure)
    (hs : s.Signalled → t.Signalled) : Wakes t := by
  refine ⟨hq ▸ h.unpaused, by rw [hq, hw]; exact h.fresh, by rw [hq]; exact h.heads,
    by rw [hq, hf]; exact h.spent, ?_⟩
  have hwaits := h.waits
  rw [hr]
  match hp : s.reader with
  | .inLoop l .check | .inLoop l .park =>
    rw [hp] at hwaits
    exact ⟨fun hl => hq ▸ hwaits.1 hl, fun hi => hs (hwaits.2 (hq ▸ hi))⟩
  | .inLoop l .parked =>
    rw [hp] at hwaits
    refine ⟨fun hl => hq ▸ hwaits.1 hl, hq ▸ hwaits.2.1, fun hc => hs (hwaits.2.2 ?_)⟩
    rw [State.Changed, hq] at hc
    exact hc
  | .inLoop l .take | .inLoop l .leave | .timingOut l _ =>
    rw [hp] at hwaits
    exact fun hl => hq ▸ hwaits hl
  | .idle =>
    rw [hp] at hwaits
    show t.response.taken ≠ []
    rw [hq]
    exact hwaits
  | .finished =>
    rw [hp] at hwaits
    show t.verdicts ≠ []
    rw [hv]
    exact hwaits

/-- The worker pushes, or somebody cancels: the worker's signal is due. -/
theorem deliver (h : Wakes s) {t : State} (hp : t.response.stream.paused = false)
    (hf : t.worker = .fresh → t.response.accepted = [])
    (ha : ∀ x ∈ t.response.accepted.tail, x.isHead = false)
    (hsp : t.failure.isSome = true →
      t.response.stream.items = [] ∧ t.response.stream.ended = true)
    (ht : t.response.taken = s.response.taken)
    (hw : t.response.stream.waiter = s.response.stream.waiter) (hd : t.due = true)
    (hr : t.reader = s.reader) (hv : t.verdicts = s.verdicts) : Wakes t := by
  refine ⟨hp, hf, ha, hsp, ?_⟩
  have hwaits := h.waits
  rw [hr]
  match hp : s.reader with
  | .inLoop l .check | .inLoop l .park =>
    rw [hp] at hwaits
    exact ⟨fun hl => ht ▸ hwaits.1 hl, fun _ => Or.inl hd⟩
  | .inLoop l .parked =>
    rw [hp] at hwaits
    exact ⟨fun hl => ht ▸ hwaits.1 hl, hw ▸ hwaits.2.1, fun _ => Or.inl hd⟩
  | .inLoop l .take | .inLoop l .leave | .timingOut l _ =>
    rw [hp] at hwaits
    exact fun hl => ht ▸ hwaits hl
  | .idle =>
    rw [hp] at hwaits
    show t.response.taken ≠ []
    rw [ht]
    exact hwaits
  | .finished =>
    rw [hp] at hwaits
    show t.verdicts ≠ []
    rw [hv]
    exact hwaits

theorem push (h : Wakes s) (x : StreamItem) {w : Worker} (hw : w ≠ .fresh)
    (hx : x.isHead = true → s.response.accepted = []) : Wakes (s.deliver (s.response.push x) w) := by
  refine h.deliver ?_ (fun hf => absurd hf hw) ?_ ?_ rfl (ResponseStream.push_waiter x) rfl rfl rfl
  · exact (ResponseStream.push_paused x).trans h.unpaused
  · show ∀ y ∈ (s.response.push x).accepted.tail, y.isHead = false
    rcases s.response.push_cases x with ⟨-, hp⟩ | ⟨-, -, ha, -, -⟩
    · rw [hp]
      exact h.heads
    · rw [ha]
      exact heads_concat h.heads hx
  · intro hf
    obtain ⟨hi, he⟩ := h.spent hf
    have hp : s.response.push x = s.response := Tracked.push_of_shut (by rw [he, Bool.or_true]) x
    simp only [State.deliver, hp]
    exact ⟨hi, he⟩

theorem deliverChunk (h : Wakes s) (b : Bytes) : Wakes (s.deliverChunk b) := by
  refine h.deliver ?_ ?_ ?_ ?_ rfl (ResponseStream.pushChunkIfRoom_waiter b) rfl rfl rfl
  · exact (ResponseStream.pushChunkIfRoom_paused b).trans h.unpaused
  · intro hf
    simp only [State.deliverChunk, State.deliver] at hf
    split at hf <;> cases hf
  · show ∀ y ∈ (s.response.pushIfRoom b).accepted.tail, y.isHead = false
    rcases s.response.pushIfRoom_cases b with ⟨-, hp⟩ | ⟨-, -, -, ha, -, -⟩
    · rw [hp]
      exact h.heads
    · rw [ha]
      exact heads_concat h.heads (by rintro ⟨⟩)
  · intro hf
    obtain ⟨hi, he⟩ := h.spent hf
    have hp : s.response.pushIfRoom b = s.response :=
      Tracked.pushIfRoom_of_shut (by rw [he, Bool.or_true]) b
    simp only [State.deliverChunk, State.deliver, hp]
    exact ⟨hi, he⟩

theorem cancel (h : Wakes s) {t : State} (hq : t.response = s.response.cancel)
    (hw : t.worker = s.worker) (hd : t.due = true) (hr : t.reader = s.reader)
    (hv : t.verdicts = s.verdicts) (hf : t.failure = s.failure) : Wakes t := by
  refine h.deliver ?_ ?_ ?_ ?_ ?_ ?_ hd hr hv
  · rw [hq]
    exact h.unpaused
  · rw [hq, hw]
    exact h.fresh
  · rw [hq]
    exact h.heads
  · rw [hq, hf]
    exact fun hs => ⟨rfl, (h.spent hs).2⟩
  · rw [hq]
    rfl
  · rw [hq]
    rfl

/-! ### The reader's own steps -/

theorem items_nil {x : StreamItem} {rest : List StreamItem} (hx : s.response.stream.items = x :: rest)
    (hterm : x.terminal = true) : rest = [] := by
  have hs := s.response.stream.wf.last
  rw [hx] at hs
  exact Fifo.Sealed.nil_of_append_cons (l := []) hs hterm

theorem took (h : Wakes s) {x : StreamItem} {rest : List StreamItem}
    (hx : s.response.stream.items = x :: rest) {t : State} (hq : t.response = s.response.takeNext)
    (hw : t.worker = s.worker)
    (hf : t.failure.isSome = true → s.failure.isSome = true ∨ x.terminal = true)
    (hr : t.response.taken ≠ [] → (x.terminal = true → t.response.stream.items = []) →
      t.Waits t.reader) : Wakes t := by
  rcases s.response.takeNext_cases with ⟨hidle, -⟩ | ⟨y, r, hy, -, ha, ht, hin⟩
  · rw [h.unpaused, hx] at hidle
    simp at hidle
  rw [hx, List.cons.injEq] at hy
  obtain ⟨rfl, rfl⟩ := hy
  have hnil : x.terminal = true → t.response.stream.items = [] := by
    intro hterm
    rw [hq, hin]
    exact items_nil hx hterm
  refine ⟨?_, ?_, ?_, ?_, hr ?_ hnil⟩
  · rw [hq, hin]
    exact h.unpaused
  · rw [hq, ha, hw]
    exact h.fresh
  · rw [hq, ha]
    exact h.heads
  · intro hs
    rcases hf hs with hs | hterm
    · rw [(h.spent hs).1] at hx
      cases hx
    · refine ⟨hnil hterm, ?_⟩
      rw [hq, hin]
      refine s.response.stream.wf.ended ?_
      rw [hx, List.any_cons, hterm, Bool.true_or]
  · rw [hq, ht]
    simp

theorem foundNothing (h : Wakes s) {l : Loop} (hp : s.Past l) (hi : s.response.stream.items = []) :
    Wakes (s.enter l .check) :=
  ⟨h.unpaused, h.fresh, h.heads, h.spent, hp, fun hne => absurd hi hne⟩

theorem conclude (h : Wakes s) {l : Loop} {v : Verdict} (hp : s.Past l) : Wakes (s.conclude l v) := by
  refine ⟨h.unpaused, h.fresh, h.heads, h.spent, ?_⟩
  cases l with
  | head => exact List.append_ne_nil_of_right_ne_nil _ (by rintro ⟨⟩)
  | each => exact List.append_ne_nil_of_right_ne_nil _ (by rintro ⟨⟩)
  | fill _ => exact hp (by rintro ⟨⟩)

theorem takeHead (h : Wakes s) : Wakes s.takeHead := by
  rcases s.response.takeNext_cases with ⟨hidle, hnone, hsame⟩ | ⟨x, rest, hx, hok, -⟩
  · have hi : s.response.stream.items = [] := by simpa [h.unpaused] using hidle
    simp only [State.takeHead, hnone, hsame]
    exact h.foundNothing (fun hl => absurd rfl hl) hi
  · have hraised : ∀ e, s.verdicts ++ [Verdict.raised e] ≠ [] :=
      fun e => List.append_ne_nil_of_right_ne_nil _ (by rintro ⟨⟩)
    simp only [State.takeHead, hok]
    cases x with
    | Head head =>
      simp only
      split_ifs
      · exact h.took hx rfl rfl Or.inl fun hne _ => hne
      · exact h.took hx rfl rfl Or.inl fun hne _ _ => hne
    | Failed e => exact h.took hx rfl rfl Or.inl fun _ _ => hraised _
    | Chunk b => exact h.took hx rfl rfl Or.inl fun _ _ => hraised _
    | End => exact h.took hx rfl rfl Or.inl fun _ _ => hraised _

theorem takeEach (h : Wakes s) (hr : s.reader = .inLoop .each .take) : Wakes s.takeEach := by
  have hpast : s.Past .each := by
    have hwaits := h.waits
    rw [hr] at hwaits
    exact hwaits
  rcases s.response.takeNext_cases with ⟨hidle, hnone, hsame⟩ | ⟨x, rest, hx, hok, -⟩
  · have hi : s.response.stream.items = [] := by simpa [h.unpaused] using hidle
    simp only [State.takeEach, hnone, hsame]
    exact h.foundNothing hpast hi
  · simp only [State.takeEach, hok]
    cases x with
    | Chunk b =>
      refine h.took hx rfl rfl Or.inl fun hne _ => ?_
      simp only [hr]
      exact fun _ => hne
    | Failed e =>
      exact h.took hx rfl rfl Or.inl fun _ _ => List.append_ne_nil_of_right_ne_nil _ (by rintro ⟨⟩)
    | End =>
      exact h.took hx rfl rfl Or.inl fun hne hi => ⟨fun _ => hne, fun hn => absurd (hi rfl) hn⟩
    | Head head =>
      have hno := h.no_head (hpast (by rintro ⟨⟩)) (by rw [hx]; exact List.mem_cons_self)
      cases hno

theorem takeFill (h : Wakes s) {c : Call} (hr : s.reader = .inLoop (.fill c) .take) :
    Wakes (s.takeFill c) := by
  have hpast : s.Past (.fill c) := by
    have hwaits := h.waits
    rw [hr] at hwaits
    exact hwaits
  rw [State.takeFill]
  split_ifs with hf
  · exact h.foundNothing hpast (h.spent hf).1
  rcases s.response.takeNext_cases with ⟨hidle, hnone, hsame⟩ | ⟨x, rest, hx, hok, -⟩
  · have hi : s.response.stream.items = [] := by simpa [h.unpaused] using hidle
    simp only [hnone, hsame]
    exact h.foundNothing hpast hi
  · simp only [hok]
    cases x with
    | Chunk b =>
      refine h.took hx rfl rfl Or.inl fun hne _ => ?_
      simp only [hr]
      exact fun _ => hne
    | Failed e =>
      exact h.took hx rfl rfl (fun _ => Or.inr rfl)
        fun hne hi => ⟨fun _ => hne, fun hn => absurd (hi rfl) hn⟩
    | End =>
      exact h.took hx rfl rfl Or.inl fun hne hi => ⟨fun _ => hne, fun hn => absurd (hi rfl) hn⟩
    | Head head =>
      have hno := h.no_head (hpast (by rintro ⟨⟩)) (by rw [hx]; exact List.mem_cons_self)
      cases hno

theorem past (h : Wakes s) {l : Loop} {g : Gate} (hr : s.reader = .inLoop l g) : s.Past l := by
  have hwaits := h.waits
  rw [hr] at hwaits
  match g with
  | .take | .leave => exact hwaits
  | .check | .park | .parked => exact hwaits.1

theorem checkStep (h : Wakes s) {l : Loop} (hr : s.reader = .inLoop l .check) :
    Wakes (s.checkStep l) := by
  have hpast := h.past hr
  have hpark : Wakes (s.enter l .park) := by
    have hwaits := h.waits
    rw [hr] at hwaits
    exact ⟨h.unpaused, h.fresh, h.heads, h.spent, hwaits⟩
  cases l with
  | head =>
    rw [State.checkStep]
    split_ifs
    · exact h.conclude hpast
    · exact hpark
  | each =>
    rw [State.checkStep]
    split_ifs
    · exact h.conclude hpast
    · exact hpark
  | fill c =>
    rw [State.checkStep]
    split_ifs
    · rw [State.answer]
      split_ifs
      · exact h.conclude hpast
      · exact ⟨h.unpaused, h.fresh, h.heads, h.spent, hpast (by rintro ⟨⟩)⟩
    · exact hpark

theorem parkStep (h : Wakes s) {l : Loop} (hr : s.reader = .inLoop l .park) : Wakes (s.parkStep l) := by
  have hpast := h.past hr
  have hwaits := h.waits
  rw [hr] at hwaits
  have hq := s.response.same_park State.readerVariable
  have hheads : ∀ x ∈ (s.response.park State.readerVariable).accepted.tail, x.isHead = false :=
    hq.accepted ▸ h.heads
  refine ⟨hq.paused.trans h.unpaused, h.fresh, hheads, ?_, ?_⟩
  · intro hf
    exact ⟨hq.items.trans (h.spent hf).1, hq.ended.trans (h.spent hf).2⟩
  · rcases s.response.stream.park_cases State.readerVariable with ⟨-, hno⟩ | ⟨-, he, hc, hok, hin⟩
    · have hgate : (s.parkStep l).reader = .inLoop l .take := by
        simp [State.parkStep, State.enter, hno]
      rw [hgate]
      exact hpast
    · -- parked on an open queue: what is queued was pushed since the take, and is signalled
      have hgate : (s.parkStep l).reader = .inLoop l .parked := by
        simp [State.parkStep, State.enter, hok]
      rw [hgate]
      refine ⟨hpast, ?_, ?_⟩
      · show (s.response.stream.park State.readerVariable).2.waiter.isSome = true
        rw [hin]
        rfl
      · rintro (hi | hs)
        · exact hwaits.2 fun hnil => hi (hq.items.trans hnil)
        · have hs' : ((s.response.park State.readerVariable).stream.cancelled ||
              (s.response.park State.readerVariable).stream.ended) = true := hs
          rw [hq.cancelled, hq.ended, hc, he] at hs'
          cases hs'

theorem readStep (h : Wakes s) {t : State} (ht : s.readStep = some t) : Wakes t := by
  cases hr : s.reader with
  | inLoop l g =>
    cases g with
    | take =>
      simp only [State.readStep, hr, Option.some.injEq] at ht
      subst ht
      cases l with
      | head => exact h.takeHead
      | each => exact h.takeEach hr
      | fill _ => exact h.takeFill hr
    | check =>
      simp only [State.readStep, hr, Option.some.injEq] at ht
      subst ht
      exact h.checkStep hr
    | park =>
      simp only [State.readStep, hr, Option.some.injEq] at ht
      subst ht
      exact h.parkStep hr
    | leave =>
      simp only [State.readStep, hr, Option.some.injEq] at ht
      subst ht
      exact ⟨h.unpaused, h.fresh, h.heads, h.spent, h.past hr⟩
    | parked => simp [State.readStep, hr] at ht
  | timingOut l k =>
    have hpast : s.Past l := by
      have hwaits := h.waits
      rw [hr] at hwaits
      exact hwaits
    cases k with
    | unpark =>
      simp only [State.readStep, hr, Option.some.injEq] at ht
      subst ht
      exact ⟨h.unpaused, h.fresh, h.heads, h.spent, hpast⟩
    | cancelResponse =>
      simp only [State.readStep, hr, Option.some.injEq] at ht
      subst ht
      exact ⟨h.unpaused, h.fresh, h.heads, fun hf => ⟨rfl, (h.spent hf).2⟩, hpast⟩
    | cancelRequest =>
      simp only [State.readStep, hr, Option.some.injEq] at ht
      subst ht
      have hreq : Wakes { s with request := s.request.cancel } := h.frame rfl rfl rfl rfl rfl id
      have hend := hreq.conclude (l := l) (v := .raised .timeout) hpast
      exact ⟨hend.unpaused, hend.fresh, hend.heads, hend.spent, hend.waits⟩
  | idle | finished => simp [State.readStep, hr] at ht

/-! ### The reactor and the upload -/

/-- The reactor's pass takes a parked reader out of its wait. -/
theorem pass (h : Wakes s) (hrest : s.resting = true) : Wakes s.pass := by
  refine ⟨h.unpaused, h.fresh, h.heads, h.spent, ?_⟩
  have hwaits := h.waits
  match hr : s.reader with
  | .inLoop l .parked =>
    have hgate : s.pass.reader = .inLoop l .leave := by
      rw [hr] at hwaits
      simp [State.pass, hr, hwaits.2.1]
    rw [hgate]
    exact h.past hr
  | .inLoop l .take | .inLoop l .leave =>
    have hgate : s.pass.reader = s.reader := by simp [State.pass, hr]
    rw [hgate, hr]
    exact h.past hr
  | .inLoop l .check | .inLoop l .park | .timingOut l _ =>
    rw [State.resting, hr] at hrest
    cases hrest
  | .idle | .finished =>
    have hgate : s.pass.reader = s.reader := by simp [State.pass, hr]
    rw [hgate]
    rw [hr] at hwaits ⊢
    exact hwaits

theorem uploadStep (h : Wakes s) {t : State} (ht : s.uploadStep = some t) : Wakes t := by
  rw [State.uploadStep] at ht
  split at ht
  case h_7 => cases ht; exact h.cancel rfl rfl rfl rfl rfl rfl
  all_goals
    cases ht
    try exact h.frame rfl rfl rfl rfl rfl id

theorem step (h : Wakes s) {a : Action} {t : State} (ht : Exchange.step s a = some t) : Wakes t := by
  cases a with
  | head head =>
    simp only [Exchange.step, Option.ite_none_right_eq_some, Option.some.injEq] at ht
    obtain ⟨hw, rfl⟩ := ht
    exact h.push _ (by rintro ⟨⟩) fun _ => h.fresh hw
  | chunk bytes =>
    simp only [Exchange.step, Option.ite_none_right_eq_some, Option.some.injEq] at ht
    obtain ⟨-, rfl⟩ := ht
    exact h.deliverChunk bytes
  | complete =>
    simp only [Exchange.step, Option.ite_none_right_eq_some, Option.some.injEq] at ht
    obtain ⟨-, rfl⟩ := ht
    exact h.push _ (by rintro ⟨⟩) (by rintro ⟨⟩)
  | fail error =>
    simp only [Exchange.step, ne_eq, ite_not, Option.ite_none_left_eq_some, Option.some.injEq] at ht
    obtain ⟨-, rfl⟩ := ht
    exact h.push _ (by rintro ⟨⟩) (by rintro ⟨⟩)
  | owe =>
    simp only [Exchange.step, Option.ite_none_right_eq_some, Option.some.injEq] at ht
    obtain ⟨-, rfl⟩ := ht
    exact h.frame rfl rfl rfl rfl rfl fun _ => Or.inr (Nat.succ_pos _)
  | takeRequest =>
    cases ht
    exact h.frame rfl rfl rfl rfl rfl id
  | cancelRequest =>
    simp only [Exchange.step, Option.ite_none_right_eq_some, Option.some.injEq] at ht
    obtain ⟨-, rfl⟩ := ht
    exact h.frame rfl rfl rfl rfl rfl id
  | pass =>
    simp only [Exchange.step, Option.ite_none_right_eq_some, Option.some.injEq] at ht
    obtain ⟨⟨-, hrest, -⟩, rfl⟩ := ht
    exact h.pass hrest
  | read =>
    simp only [Exchange.step, Option.ite_none_left_eq_some] at ht
    exact h.readStep ht.2
  | call c =>
    simp only [Exchange.step, Option.ite_none_right_eq_some, Option.some.injEq] at ht
    obtain ⟨hr, rfl⟩ := ht
    have hwaits := h.waits
    rw [hr] at hwaits
    split_ifs
    · exact h
    · exact ⟨h.unpaused, h.fresh, h.heads, h.spent, fun _ => hwaits⟩
  | timeOut =>
    simp only [Exchange.step] at ht
    split at ht
    · next l hr =>
      simp only [Option.ite_none_left_eq_some, Option.some.injEq] at ht
      obtain ⟨-, rfl⟩ := ht
      exact ⟨h.unpaused, h.fresh, h.heads, h.spent, h.past hr⟩
    · cases ht
  | upload => exact h.uploadStep ht
  | uploadRead piece =>
    simp only [Exchange.step, Option.ite_none_right_eq_some, Option.some.injEq] at ht
    obtain ⟨-, rfl⟩ := ht
    match piece with
    | .error | .bytes _ | .eof => exact h.frame rfl rfl rfl rfl rfl id
  | wakeUpload =>
    simp only [Exchange.step] at ht
    split at ht
    · cases ht
      exact h.frame rfl rfl rfl rfl rfl id
    · cases ht

theorem of_reach {C : State → Action → Prop} (h : system.Reach C s) : Wakes s := by
  refine System.Reach.induct ?_ (fun _ _ _ hi _ ht => hi.step ht) h
  rintro s ⟨budget, protocol, body, rest, -, -, rfl⟩
  exact .start budget protocol body rest

end Wakes

/-! ## Back to the take -/

/-- The steps of the reader and of those who wake it. -/
def Reading : Action → Prop
  | .owe | .pass | .read | .call _ => True
  | _ => False

end Ruvoy.Exchange
