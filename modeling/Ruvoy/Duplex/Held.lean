import Ruvoy.Duplex.Model

/-!
# What a duplex stream holds

A call drains the queue before it asks whether it has enough, and what is drained makes room that the
producer refills.

* `State.held`: the bytes pulled off the queue and not handed to the application;
* `refillsNeeded`: no call with enough in the buffer is begun over a queue that holds something, and
  while a call drains the queue it is refilled only as long as the call is short;
* `Within`, `HeldInv`: what the buffer holds at each gate of a call;
* **`held_bounded`**: they stay within the budget and the length of the call;
* `held_unbounded`: without the condition there is no bound.
-/

set_option autoImplicit false

namespace Ruvoy.Duplex

open Runs
open Exchange (Call Gate)

/-- The bytes taken off the queue that were not handed out: the buffer, without what is left of the
bytes the stream began with. -/
def State.held (s : State) : ℕ := min s.buffer.length (bodyOf s.source.taken).length

/-- The length of a call; `none` when it asks for everything. -/
def lengthOf : Call → Option ℕ
  | .readAll => none
  | .read length | .readPartial length => some length

/-- The length of the call in progress. -/
def State.asked (s : State) : Option ℕ := s.place.elim (some 0) fun p => lengthOf p.1

/-- The buffer would hold what the call waits for, with all that is queued. -/
def State.enough (s : State) : Call → Bool
  | .readAll => false
  | .read length => decide (length ≤ s.buffer.length + s.source.stream.bufferedBytes)
  | .readPartial _ => decide (0 < s.buffer.length + s.source.stream.bufferedBytes)

/-- A call that drains is begun only when the buffer is short of it or nothing is queued, and while its
drain loop runs the producer pushes only as long as the buffer and the queue are short of it. -/
def refillsNeeded (s : State) : Action → Bool
  | .call c => decide (c = .read 0) || !s.satisfied c || decide (s.source.stream.bufferedBytes = 0)
  | .push _ =>
    match s.place with
    | some (c, .take) => !s.enough c
    | _ => true
  | _ => true

/-- What the buffer holds at each gate: where the call waits it is short, and where it drains, what is
queued counts already. -/
def Within (s : State) : Prop :=
  match s.place with
  | none => bodyOf s.source.taken = [] ∨ s.buffer.length ≤ s.source.stream.maxBufferedBytes
  | some (c, .take) => ∀ n, lengthOf c = some n →
      bodyOf s.source.taken = [] ∧ s.source.stream.bufferedBytes = 0 ∨
        s.buffer.length + s.source.stream.bufferedBytes ≤ s.source.stream.maxBufferedBytes + n
  | some (c, .check) => ∀ n, lengthOf c = some n →
      bodyOf s.source.taken = [] ∨ s.buffer.length ≤ s.source.stream.maxBufferedBytes + n
  | some (c, _) => s.satisfied c = false

structure HeldInv (s : State) : Prop where
  queued : s.source.stream.bufferedBytes ≤ s.source.stream.maxBufferedBytes
  fits : Within s

variable {s t : State}

/-- A call that is not satisfied finds less in the buffer than it asks for. -/
theorem length_le_of_short {c : Call} (h : s.satisfied c = false) {n : ℕ} (hn : lengthOf c = some n) :
    s.buffer.length ≤ n := by
  cases c with
  | readAll => cases hn
  | read length =>
    cases hn
    simp only [State.satisfied, ge_iff_le, decide_eq_false_iff_not] at h
    omega
  | readPartial length =>
    simp only [State.satisfied, Bool.not_eq_false'] at h
    rw [List.isEmpty_iff.mp h]
    exact Nat.zero_le _

theorem length_le_of_not_enough {c : Call} (h : s.enough c = false) {n : ℕ}
    (hn : lengthOf c = some n) : s.buffer.length ≤ n := by
  cases c with
  | readAll => cases hn
  | read length =>
    cases hn
    simp only [State.enough, decide_eq_false_iff_not] at h
    omega
  | readPartial length =>
    simp only [State.enough, decide_eq_false_iff_not] at h
    omega

theorem HeldInv.init (budget : ℕ) (buffered : Bytes) :
    HeldInv { source := Tracked.new budget, buffer := buffered } where
  queued := Nat.zero_le _
  fits := Or.inl rfl

/-! ## The call -/

/-- A call that drains is short of what it asks for, or finds nothing queued. -/
theorem HeldInv.begin (h : HeldInv s) (hp : s.place = none) {c : Call}
    (hc : s.satisfied c = false ∨ s.source.stream.bufferedBytes = 0) : HeldInv (s.enter c .take) where
  queued := h.queued
  fits := by
    have hfits := h.fits
    simp only [Within, hp] at hfits
    intro n hn
    show _ ∧ s.source.stream.bufferedBytes = 0 ∨ s.buffer.length + s.source.stream.bufferedBytes ≤
      s.source.stream.maxBufferedBytes + n
    rcases hc with hshort | hempty
    · have hlen := length_le_of_short hshort hn
      have hq := h.queued
      exact Or.inr (by omega)
    · refine hfits.imp (fun hnil => ⟨hnil, hempty⟩) fun hle => ?_
      omega

theorem HeldInv.again (h : HeldInv s) {c : Call} (hc : s.satisfied c = false) {q : Tracked}
    (hb : q.stream.bufferedBytes = s.source.stream.bufferedBytes)
    (hm : q.stream.maxBufferedBytes = s.source.stream.maxBufferedBytes) :
    HeldInv ({ s with source := q }.enter c .take) where
  queued := by
    show q.stream.bufferedBytes ≤ q.stream.maxBufferedBytes
    rw [hb, hm]
    exact h.queued
  fits := by
    intro n hn
    have hlen := length_le_of_short hc hn
    have hq := h.queued
    refine Or.inr ?_
    show s.buffer.length + q.stream.bufferedBytes ≤ q.stream.maxBufferedBytes + n
    omega

theorem HeldInv.answer (h : HeldInv s) {c : Call} (hc : s.place = some (c, .check)) :
    HeldInv (s.answer c) := by
  have hfits : ∀ n, lengthOf c = some n →
      bodyOf s.source.taken = [] ∨ s.buffer.length ≤ s.source.stream.maxBufferedBytes + n := by
    have := h.fits
    simpa only [Within, hc] using this
  have hempty : ∀ a, s.buffer.isEmpty = true → HeldInv (s.conclude a) := by
    intro a he
    refine ⟨h.queued, Or.inr ?_⟩
    show s.buffer.length ≤ _
    rw [List.isEmpty_iff.mp he]
    exact Nat.zero_le _
  have hgive : ∀ length, lengthOf c = some length → HeldInv (s.give (min length s.buffer.length)) := by
    intro length hlen
    refine ⟨h.queued, (hfits length hlen).imp id fun hle => ?_⟩
    show (s.buffer.drop (min length s.buffer.length)).length ≤ s.source.stream.maxBufferedBytes
    rw [List.length_drop]
    omega
  cases c with
  | readAll =>
    unfold State.answer
    split_ifs with he
    · exact hempty _ he
    · refine ⟨h.queued, Or.inr ?_⟩
      show (s.buffer.drop s.buffer.length).length ≤ _
      rw [List.drop_length]
      exact Nat.zero_le _
  | read length | readPartial length =>
    unfold State.answer
    split_ifs with he
    · exact hempty _ he
    · exact hgive length rfl

/-- **One round of `drain`**: what it pulls was queued, and counted with the buffer already. -/
theorem HeldInv.drain (h : HeldInv s) {c : Call} (hc : s.place = some (c, .take)) :
    HeldInv (s.drain c) := by
  have hfits : ∀ n, lengthOf c = some n →
      bodyOf s.source.taken = [] ∧ s.source.stream.bufferedBytes = 0 ∨
        s.buffer.length + s.source.stream.bufferedBytes ≤ s.source.stream.maxBufferedBytes + n := by
    have := h.fits
    simpa only [Within, hc] using this
  have hover : ∀ n, lengthOf c = some n →
      bodyOf s.source.taken = [] ∨ s.buffer.length ≤ s.source.stream.maxBufferedBytes + n :=
    fun n hn => (hfits n hn).imp And.left fun hle => by omega
  unfold State.drain
  by_cases hf : s.failure.isSome = true
  · rw [if_pos hf]
    exact ⟨h.queued, hover⟩
  · rw [if_neg hf]
    rcases s.source.takeNext_cases with ⟨-, hnone, hq⟩ | ⟨x, rest, hitems, hsome, -, htaken, hin⟩
    · rw [hnone, hq]
      exact ⟨h.queued, hover⟩
    · have hsize : x.bytes.length ≤ s.source.stream.bufferedBytes :=
        s.source.stream.wf.size_le hitems
      have hleft : s.source.takeNext.stream.bufferedBytes =
          s.source.stream.bufferedBytes - x.bytes.length := by
        rw [hin, ResponseStreamInner.tail_bytes]
      have hbody : bodyOf s.source.takeNext.taken = bodyOf s.source.taken ++ x.bytes := by
        rw [htaken, bodyOf_append]
        simp
      have hqueued : s.source.takeNext.stream.bufferedBytes ≤ s.source.stream.maxBufferedBytes := by
        have := h.queued
        omega
      simp only [hsome]
      cases x with
      | Chunk chunk =>
        refine ⟨hqueued, ?_⟩
        simp only [Within, hc]
        intro n hn
        show bodyOf s.source.takeNext.taken = [] ∧ s.source.takeNext.stream.bufferedBytes = 0 ∨
          (s.buffer ++ chunk).length + s.source.takeNext.stream.bufferedBytes ≤
            s.source.stream.maxBufferedBytes + n
        rw [bytes_chunk] at hsize hleft hbody
        rcases hfits n hn with ⟨hnil, hzero⟩ | hle
        · have hchunk : chunk = [] := List.eq_nil_of_length_eq_zero (by omega)
          refine Or.inl ⟨?_, by omega⟩
          rw [hbody, hnil, hchunk]
          rfl
        · refine Or.inr ?_
          rw [List.length_append]
          omega
      | Head head | End | Failed error =>
        refine ⟨hqueued, fun n hn => (hover n hn).imp (fun hnil => ?_) id⟩
        show bodyOf s.source.takeNext.taken = []
        rw [hbody, hnil]
        rfl

theorem HeldInv.next (h : HeldInv s) (ht : s.next = some t) : HeldInv t := by
  have hfits := h.fits
  unfold State.next at ht
  cases hp : s.place with
  | none =>
    simp only [hp] at ht
    cases ht
  | some p =>
    obtain ⟨c, g⟩ := p
    simp only [Within, hp] at hfits
    cases g with
    | take =>
      simp only [hp, Option.some.injEq] at ht
      exact ht ▸ h.drain hp
    | check =>
      simp only [hp, Option.some.injEq] at ht
      subst ht
      unfold State.check
      split_ifs with hover
      · exact h.answer hp
      · refine ⟨h.queued, ?_⟩
        show s.satisfied c = false
        exact Bool.eq_false_iff.mpr fun hs => hover (by rw [hs]; rfl)
    | park =>
      simp only [hp, Option.some.injEq] at ht
      subst ht
      split_ifs
      · refine ⟨?_, hfits⟩
        show (s.source.stream.park State.readerVariable).2.bufferedBytes ≤ _
        rw [ResponseStream.park_bytes]
        exact h.queued
      · exact h.again hfits (s.source.stream.park_bytes _) rfl
    | leave =>
      simp only [hp, Option.some.injEq] at ht
      subst ht
      exact h.again hfits rfl rfl
    | parked =>
      simp only [hp] at ht
      cases ht

/-! ## The producer -/

/-- The queue takes what there is room for, and where a call drains it is short of that. -/
theorem HeldInv.push (h : HeldInv s) {bytes : Bytes} (hn : refillsNeeded s (.push bytes) = true) :
    HeldInv { s with source := s.source.pushWithinBudget bytes } := by
  have hqueued : (s.source.pushWithinBudget bytes).stream.bufferedBytes ≤
      s.source.stream.maxBufferedBytes := by
    have hq := h.queued
    show (s.source.stream.pushChunkWithinBudget bytes).2.bufferedBytes ≤ _
    rcases s.source.stream.pushChunkWithinBudget_cases bytes with ⟨-, hin⟩ | ⟨k, -, hk, -, -, -, -, hin⟩
    · rw [hin]
      exact hq
    · rw [hin, ResponseStreamInner.append_bytes, bytes_chunk, List.length_take]
      simp only [ResponseStream.spareCapacity, ResponseStreamInner.spareCapacity] at hk
      omega
  refine ⟨hqueued, ?_⟩
  have hfits := h.fits
  cases hp : s.place with
  | none =>
    simp only [Within, hp] at hfits ⊢
    exact hfits
  | some p =>
    obtain ⟨c, g⟩ := p
    cases g with
    | take =>
      simp only [refillsNeeded, hp, Bool.not_eq_true'] at hn
      simp only [Within]
      intro n hlen
      have hshort := length_le_of_not_enough hn hlen
      refine Or.inr ?_
      show s.buffer.length + _ ≤ s.source.stream.maxBufferedBytes + n
      omega
    | _ =>
      simp only [Within, hp] at hfits ⊢
      exact hfits

theorem HeldInv.source (h : HeldInv s) {q : Tracked}
    (hb : q.stream.bufferedBytes ≤ s.source.stream.bufferedBytes)
    (hm : q.stream.maxBufferedBytes = s.source.stream.maxBufferedBytes)
    (ht : q.taken = s.source.taken) : HeldInv { s with source := q } := by
  have hqueued : q.stream.bufferedBytes ≤ q.stream.maxBufferedBytes := by
    rw [hm]
    exact hb.trans h.queued
  refine ⟨hqueued, ?_⟩
  have hfits := h.fits
  cases hp : s.place with
  | none =>
    simp only [Within, hp, hm, ht] at hfits ⊢
    exact hfits
  | some p =>
    obtain ⟨c, g⟩ := p
    cases g with
    | take =>
      simp only [Within, hp, hm, ht] at hfits ⊢
      exact fun n hn => (hfits n hn).imp (fun h0 => ⟨h0.1, by omega⟩) fun hle => by omega
    | check =>
      simp only [Within, hp, hm, ht] at hfits ⊢
      exact hfits
    | _ =>
      simp only [Within, hp] at hfits ⊢
      exact hfits

theorem HeldInv.step (h : HeldInv s) {a : Action} (hn : refillsNeeded s a = true)
    (ht : step s a = some t) : HeldInv t := by
  cases a with
  | call c =>
    simp only [Duplex.step, Option.ite_none_right_eq_some, Option.some.injEq] at ht
    obtain ⟨hnone, rfl⟩ := ht
    split_ifs with hzero
    · have hfits := h.fits
      simp only [Within, hnone] at hfits
      exact ⟨h.queued, hfits⟩
    · refine h.begin hnone ?_
      simpa [refillsNeeded, hzero] using hn
  | next => exact h.next ht
  | wake =>
    simp only [Duplex.step] at ht
    split at ht
    · next c hc =>
      cases ht
      have hfits := h.fits
      simp only [Within, hc] at hfits
      exact ⟨h.queued, hfits⟩
    · cases ht
  | push bytes =>
    cases ht
    exact h.push hn
  | finish | fail error =>
    cases ht
    refine h.source ?_ rfl rfl
    rcases s.source.push_cases _ with ⟨-, hq⟩ | ⟨-, -, -, -, hin⟩
    · rw [hq]
    · rw [hin]
      rfl
  | cancel =>
    cases ht
    exact h.source (Nat.zero_le _) rfl rfl

theorem HeldInv.of_reach (h : system.Reach (fun s a => refillsNeeded s a = true) s) : HeldInv s := by
  refine h.induct ?_ fun s a t hs hn ht => hs.step hn ht
  rintro s ⟨budget, buffered, rfl⟩
  exact .init budget buffered

/-- **A duplex stream holds no more than its queue's budget and the length of the call**, when no call
with enough in the buffer is begun over a queue that holds something, and a queue that is being drained
is refilled only as long as the call is short. -/
theorem held_bounded (h : system.Reach (fun s a => refillsNeeded s a = true) s) {n : ℕ}
    (hn : s.asked = some n) : s.held ≤ s.source.stream.maxBufferedBytes + n := by
  have hfits := (HeldInv.of_reach h).fits
  have hnil : bodyOf s.source.taken = [] → s.held ≤ s.source.stream.maxBufferedBytes + n := by
    intro hnil
    rw [State.held, hnil]
    exact (min_le_right _ _).trans (Nat.zero_le _)
  refine (?_ : bodyOf s.source.taken = [] ∨ _).elim hnil (min_le_left _ _).trans
  cases hp : s.place with
  | none =>
    simp only [Within, hp] at hfits
    exact hfits.imp id fun hle => by omega
  | some p =>
    obtain ⟨c, g⟩ := p
    have hlen : lengthOf c = some n := by
      rw [← hn, State.asked, hp]
      rfl
    simp only [Within, hp] at hfits
    cases g with
    | take => exact (hfits n hlen).imp And.left fun hle => by omega
    | check => exact hfits n hlen
    | park | parked | leave =>
      have := length_le_of_short hfits hlen
      exact Or.inr (by omega)

/-- A call for one byte takes both chunks that are queued; the queue is refilled before the next. -/
def refilledBetween : List Action :=
  [.push [104], .push [105], .call (.read 1), .next, .next, .next, .next, .push [106, 107],
    .call (.read 2), .next]

theorem held_bounded_refilledBetween :
    ∃ s, system.runIf refillsNeeded { source := Tracked.new 2 } refilledBetween = some s ∧
      s.asked = some 2 ∧ s.held = 3 ∧ s.held ≤ s.source.stream.maxBufferedBytes + 2 := by
  have hr : system.runIf refillsNeeded { source := Tracked.new 2 } refilledBetween = some _ := rfl
  exact ⟨_, hr, rfl, rfl, held_bounded (System.reach_of_runIf ⟨2, [], rfl⟩ hr) rfl⟩

/-! ## Without the condition -/

/-- In the loop of `drain`, with the queue emptied and `k` bytes pulled. -/
structure Pulled (s : State) (k : ℕ) : Prop where
  place : s.place = some (.read 1, .take)
  failure : s.failure = none
  buffer : s.buffer.length = k
  taken : (bodyOf s.source.taken).length = k
  items : s.source.stream.items = []
  uncancelled : s.source.stream.cancelled = false
  unended : s.source.stream.ended = false
  unpaused : s.source.stream.paused = false
  max : s.source.stream.maxBufferedBytes = 1

/-- The producer refills the queue, and the loop pulls that too. -/
theorem Pulled.again {k : ℕ} (h : Pulled s k) :
    ∃ t, system.run s [.push [7], .next] = some t ∧ Pulled t (k + 1) := by
  have hempty : s.source.stream.bufferedBytes = 0 := by
    rw [s.source.bytes_eq, h.items]
    rfl
  have hroom : min ([7] : Bytes).length s.source.stream.spareCapacity = 1 := by
    rw [ResponseStream.spareCapacity, ResponseStreamInner.spareCapacity, h.max, hempty]
    rfl
  obtain ⟨-, hpush⟩ := ResponseStream.pushChunkWithinBudget_of_open h.uncancelled h.unended [7]
  rw [hroom, if_pos Nat.one_pos] at hpush
  have hin : (s.source.pushWithinBudget [7]).stream.inner = s.source.stream.inner.append (.Chunk [7]) :=
    hpush
  have hitems : (s.source.pushWithinBudget [7]).stream.items = [.Chunk [7]] := by
    rw [hin, ResponseStreamInner.append_items, h.items]
    rfl
  rcases (s.source.pushWithinBudget [7]).takeNext_cases with
    ⟨hidle, -⟩ | ⟨x, rest, hx, hsome, -, htaken, hleft⟩
  · rw [hitems, hin] at hidle
    rcases hidle with hp | hnil
    · exact absurd (h.unpaused.symm.trans hp) Bool.false_ne_true
    · cases hnil
  · rw [hitems] at hx
    cases hx
    have hnext : State.next { s with source := s.source.pushWithinBudget [7] } = some { s with
        source := (s.source.pushWithinBudget [7]).takeNext
        buffer := s.buffer ++ [7] } := by
      simp [State.next, h.place, State.drain, h.failure, hsome]
    have hrun : system.run s [.push [7], .next] = some { s with
        source := (s.source.pushWithinBudget [7]).takeNext
        buffer := s.buffer ++ [7] } := by
      show (State.next { s with source := s.source.pushWithinBudget [7] }).bind _ = _
      rw [hnext]
      rfl
    refine ⟨_, hrun, h.place, h.failure, ?_, ?_, ?_, ?_, ?_, ?_, h.max⟩
    · show (s.buffer ++ [7]).length = k + 1
      rw [List.length_append, h.buffer]
      rfl
    · show (bodyOf (s.source.pushWithinBudget [7]).takeNext.taken).length = k + 1
      rw [htaken, bodyOf_append, List.length_append]
      exact congrArg (· + 1) h.taken
    · exact congrArg ResponseStreamInner.items hleft
    · refine (congrArg ResponseStreamInner.cancelled hleft).trans ?_
      rw [hin]
      exact h.uncancelled
    · refine (congrArg ResponseStreamInner.ended hleft).trans ?_
      rw [hin]
      rfl
    · refine (congrArg ResponseStreamInner.paused hleft).trans ?_
      rw [hin]
      exact h.unpaused

theorem pulled_reachable (k : ℕ) : ∃ s, system.Reachable s ∧ Pulled s k := by
  induction k with
  | zero =>
    have hr : system.run { source := Tracked.new 1 } [.call (.read 1)] = some _ := rfl
    refine ⟨_, System.reach_of_run ⟨1, [], rfl⟩ hr, ?_⟩
    exact ⟨rfl, rfl, rfl, rfl, rfl, rfl, rfl, rfl, rfl⟩
  | succ k ih =>
    obtain ⟨s, hs, hk⟩ := ih
    obtain ⟨t, ht, hk'⟩ := hk.again
    exact ⟨t, hs.run ht, hk'⟩

/-- **No bound depends on the budget and the length of the call alone.** A call for one byte, over a
queue of one byte, pulls as many as the producer cares to push. -/
theorem held_unbounded :
    ¬ ∃ bound : ℕ → ℕ → ℕ, ∀ s n, system.Reachable s → s.asked = some n →
      s.held < bound s.source.stream.maxBufferedBytes n := by
  rintro ⟨bound, hall⟩
  obtain ⟨s, hs, hk⟩ := pulled_reachable (bound 1 1)
  have hlt := hall s 1 hs (by rw [State.asked, hk.place]; rfl)
  rw [hk.max, State.held, hk.buffer, hk.taken, min_self] at hlt
  exact lt_irrefl _ hlt

end Ruvoy.Duplex
