import Ruvoy.Relay.Outcome

/-!
# A relay comes to an end

Once both streams have ended, or their sources are cancelled, the relay is on its way: as long as the
workers take what is written, its fibers get to the end of both directions and it returns or raises.

* `Copy.rank`: how far a direction is from its end; `Closer`, one step of that way;
* `Inv.further`: a direction that goes on takes a step, is woken, or waits for the worker that empties
  its sink;
* **`relay_ends`**: from any reachable state.
-/

set_option autoImplicit false

namespace Ruvoy.Relay

open Runs
open Exchange (Gate TimeOut)
open Tracked (Shut)

/-! ## One direction -/

/-- Where in `copy` the direction is. A round that finds the end goes forward, and one that does not goes
back to the take for less than the item it finds is worth. -/
def Copy.gate (c : Copy) : ℕ :=
  match c.place with
  | .write _ _ .parked => 32
  | .write _ _ .leave => 31
  | .write _ _ .test => 30
  | .write _ _ .park => 29
  | .write _ _ .write => 28
  | .read .parked => 26
  | .enter => 25
  | .read .check => if c.finished then 19 else 24
  | .read .leave => 24
  | .read .park => 23
  | .read .take => 20
  | .closeWrite => 10
  | .timingOut .unpark => 9
  | .timingOut .cancelResponse => 8
  | .timingOut .cancelRequest => 7
  | .ended _ | .stopped => 0

/-- What is still to be read. -/
def Copy.ahead (c : Copy) : ℕ :=
  10 * c.source.stream.items.length + 200 * ((bodyOf c.source.stream.items).length + c.buffer.length)

/-- What the two queues and the buffer hold: every byte has to be taken, read and written, and every
item that is queued taken off. -/
def Copy.load (c : Copy) : ℕ :=
  c.ahead + 5 * c.sink.stream.items.length + 3 * c.sink.stream.paused.toNat

/-- How far a direction is from its end. -/
def Copy.rank (c : Copy) : ℕ :=
  if c.place.live then 1 + c.gate + c.load + 100 * c.place.inHand.length else 0

/-- The source accepts nothing more, and what it holds can be taken. -/
structure Copy.Closing (c : Copy) : Prop where
  shut : c.source.Shut
  unpaused : c.source.stream.paused = false

/-- A step closer to the end. -/
def Closer (c d : Copy) : Prop := d.Closing ∧ d.rank < c.rank

section Direction

variable {c₀ c d : Copy}

theorem rank_of_dead (hlive : c.place.live = false) : c.rank = 0 := by
  rw [Copy.rank, hlive]
  rfl

theorem closer (hlive : c.place.live = true) (hd : d.Closing)
    (hlt : d.place.live = true → d.gate + d.load + 100 * d.place.inHand.length <
      c.gate + c.load + 100 * c.place.inHand.length) : Closer c d := by
  refine ⟨hd, ?_⟩
  rw [Copy.rank, Copy.rank, if_pos hlive]
  split_ifs with hl
  · have := hlt hl
    omega
  · omega

theorem closer_goto (h : c.Closing) {p₀ p : Place} (hp : c.place = p₀) (hlive : p₀.live = true)
    (hhand : p.live = true → p.inHand = p₀.inHand ∧ (c.goto p).gate < c.gate) :
    Closer c (c.goto p) := by
  refine closer (hp ▸ hlive) ⟨h.shut, h.unpaused⟩ fun hl => ?_
  obtain ⟨hsame, hlt⟩ := hhand hl
  show (c.goto p).gate + c.load + 100 * p.inHand.length < _
  rw [hsame, ← hp]
  omega

theorem closer_move (h : c.Closing) {q r : Tracked} {p₀ p : Place} (hp : c.place = p₀)
    (hlive : p₀.live = true) (hq : q.Same c.source) (hr : r.Same c.sink) (hhand : p.inHand = p₀.inHand)
    (hgate : Copy.gate { c with source := q, sink := r, place := p } < c.gate) :
    Closer c { c with source := q, sink := r, place := p } := by
  have hload : Copy.load { c with source := q, sink := r, place := p } = c.load := by
    simp only [Copy.load, Copy.ahead, hq.items, hr.items, hr.paused]
  refine closer (hp ▸ hlive) ⟨hq.shut.mpr h.shut, hq.paused.trans h.unpaused⟩ fun _ => ?_
  rw [hload]
  show Copy.gate _ + c.load + 100 * p.inHand.length < _
  rw [hhand, ← hp]
  omega

theorem finished_of_nil (h : c.Closing) (hnil : c.source.stream.items = []) : c.finished = true := by
  have hbytes : c.source.stream.bufferedBytes = 0 := by
    rw [c.source.bytes_eq, hnil]
    rfl
  rw [Copy.finished, ResponseStream.isFinished, ResponseStreamInner.isFinished, hbytes]
  rcases h.shut with hc | he
  · rw [hc]
    simp
  · rw [he]
    simp

/-- At the check the gate says whether the round finds the end. -/
theorem gate_check (hp : c.place = .read .check) : 19 ≤ c.gate ∧ c.gate ≤ 24 := by
  rw [Copy.gate, hp]
  show 19 ≤ (if c.finished then 19 else 24) ∧ (if c.finished then 19 else 24) ≤ 24
  split_ifs <;> omega

theorem closer_drain (h : c.Closing) (hp : c.place = .read .take) : Closer c c.drain := by
  have hlive : c.place.live = true := by rw [hp]; rfl
  have hgate : c.gate = 20 := by rw [Copy.gate, hp]
  unfold Copy.drain
  split_ifs with hf
  · refine closer_goto h hp rfl fun _ => ⟨rfl, ?_⟩
    have hfin : c.finished = true := by rw [Copy.finished, hf, Bool.true_or]
    rw [hgate]
    show (if c.finished then 19 else 24) < 20
    rw [if_pos hfin]
    decide
  · rcases c.source.takeNext_cases with ⟨hidle, hno, hq⟩ | ⟨x, rest, hitems, hx, -, -, hin⟩
    · have hnil : c.source.stream.items = [] := by
        rcases hidle with hpaused | hnil
        · rw [h.unpaused] at hpaused
          cases hpaused
        · exact hnil
      simp only [hno, hq]
      refine closer_goto h hp rfl fun _ => ⟨rfl, ?_⟩
      rw [hgate]
      show (if c.finished then 19 else 24) < 20
      rw [if_pos (finished_of_nil h hnil)]
      decide
    · have hleft : c.source.takeNext.stream.items = rest := by
        rw [hin]
        rfl
      have hclosing : c.source.takeNext.Shut ∧ c.source.takeNext.stream.paused = false := by
        refine ⟨h.shut.imp (fun hc => ?_) fun he => ?_, ?_⟩
        · exact ResponseStream.takeNext_cancelled.trans hc
        · exact ResponseStream.takeNext_ended.trans he
        · exact ResponseStream.takeNext_paused.trans h.unpaused
      simp only [hx]
      cases x with
      | Chunk chunk =>
        refine closer hlive ⟨hclosing.1, hclosing.2⟩ fun _ => ?_
        simp only [Copy.gate, Copy.load, Copy.ahead, hp, hleft, hitems, List.length_cons, bodyOf_cons,
          bytes_chunk, List.length_append]
        omega
      | _ =>
        refine closer hlive ⟨hclosing.1, hclosing.2⟩ fun _ => ?_
        refine lt_of_le_of_lt
          (Nat.add_le_add_right (Nat.add_le_add_right (gate_check rfl).2 _) _) ?_
        simp only [Copy.goto, Copy.load, Copy.ahead, hp, hgate, hleft, hitems, List.length_cons,
          bodyOf_cons, bytes_head, bytes_end, bytes_failed, List.nil_append, Place.inHand]
        omega

theorem closer_check (h : c.Closing) (hp : c.place = .read .check) : Closer c c.check := by
  have hlive : c.place.live = true := by rw [hp]; rfl
  unfold Copy.check Copy.answer Copy.send
  by_cases hb : c.buffer = []
  · simp only [hb, List.isEmpty_nil, Bool.not_true, Bool.false_or, if_true]
    split_ifs with hfin
    · refine closer_goto h hp rfl fun _ => ?_
      have hgate : c.gate = 19 := by
        rw [Copy.gate, hp]
        exact if_pos hfin
      cases hf : c.failure with
      | none =>
        refine ⟨rfl, ?_⟩
        rw [hgate]
        show 10 < 19
        decide
      | some error =>
        refine ⟨rfl, ?_⟩
        rw [hgate]
        show 0 < 19
        decide
    · refine closer_goto h hp rfl fun _ => ⟨rfl, ?_⟩
      have hgate : c.gate = 24 := by
        rw [Copy.gate, hp]
        exact if_neg hfin
      rw [hgate]
      show 23 < 24
      decide
  · have hne : c.buffer.isEmpty = false := by simpa using hb
    simp only [hne, Bool.not_false, Bool.true_or, if_true, Bool.false_eq_true, if_false]
    have hpos : 0 < (c.buffer.take relayBytes).length := by
      rw [List.length_take]
      have := List.length_pos_of_ne_nil hb
      have hbytes : 0 < relayBytes := by decide
      omega
    have hsplit : (c.buffer.take relayBytes).length + (c.buffer.drop relayBytes).length =
        c.buffer.length := by
      rw [← List.length_append, List.take_append_drop]
    split_ifs with hw
    · exact closer hlive ⟨h.shut, h.unpaused⟩ fun hl => by cases hl
    · refine closer hlive ⟨h.shut, h.unpaused⟩ fun _ => ?_
      have hgate := (gate_check hp).1
      have hhand : c.place.inHand = [] := by rw [hp]; rfl
      rw [hhand]
      simp only [Copy.goto, Copy.load, Copy.ahead, Place.inHand, List.length_nil]
      show 30 + _ + _ < _
      omega

/-- A worker empties a sink that is full: it resumes it, or takes an item off. -/
theorem closer_empty (h : c.Closing) (hlive : c.place.live = true) (hfull : c.sink.stream.full = true) :
    ∃ op, (op = .takeNext ∨ op = .setPaused false) ∧ Closer c { c with sink := c.sink.apply op } := by
  cases hp : c.sink.stream.paused with
  | true =>
    refine ⟨.setPaused false, Or.inr rfl, closer hlive ⟨h.shut, h.unpaused⟩ fun _ => ?_⟩
    show c.gate + (c.ahead + 5 * c.sink.stream.items.length + 3 * false.toNat) +
      100 * c.place.inHand.length < c.gate + c.load + _
    rw [Copy.load, hp]
    simp only [Bool.toNat_false, Bool.toNat_true]
    omega
  | false =>
    have hbytes : c.sink.stream.maxBufferedBytes ≤ c.sink.stream.bufferedBytes := by
      simpa [ResponseStream.full, ResponseStreamInner.full, hp] using hfull
    have hpos := c.sink.stream.max_pos
    have hne : c.sink.stream.items ≠ [] := by
      intro hnil
      have hzero := c.sink.bytes_eq
      rw [hnil] at hzero
      simp only [bodyOf_nil, List.length_nil] at hzero
      omega
    refine ⟨.takeNext, Or.inl rfl, closer hlive ⟨h.shut, h.unpaused⟩ fun _ => ?_⟩
    rcases c.sink.takeNext_cases with ⟨hidle, -, -⟩ | ⟨x, rest, hitems, -, -, -, hin⟩
    · rcases hidle with hpaused | hnil
      · rw [hp] at hpaused
        cases hpaused
      · exact absurd hnil hne
    · have hleft : c.sink.takeNext.stream.items = rest := by
        rw [hin]
        rfl
      have hpaused : c.sink.takeNext.stream.paused = c.sink.stream.paused :=
        ResponseStream.takeNext_paused
      show c.gate + (c.ahead + 5 * c.sink.takeNext.stream.items.length +
        3 * c.sink.takeNext.stream.paused.toNat) + 100 * c.place.inHand.length < c.gate + c.load + _
      rw [Copy.load, hleft, hpaused, hitems, List.length_cons]
      omega

/-- A write with room takes at least a byte, and one with nobody left ends the direction. -/
theorem closer_write (h : c.Closing) {size : ℕ} {left : Bytes} (hp : c.place = .write size left .write)
    (hne : left ≠ []) (hroom : c.sink.stream.cancelled = true ∨ c.sink.stream.full = false) :
    Closer c (c.writeStep size left) := by
  have hlive : c.place.live = true := by rw [hp]; rfl
  have hgate : c.gate = 28 := by rw [Copy.gate, hp]
  have hhand : c.place.inHand = left := by rw [hp]; rfl
  unfold Copy.writeStep
  cases htook : (c.sink.stream.pushChunkWithinBudget left).1 with
  | none => exact closer hlive ⟨h.shut, h.unpaused⟩ fun hl => by cases hl
  | some taken =>
    refine closer hlive ⟨h.shut, h.unpaused⟩ fun _ => ?_
    have hpos := List.length_pos_of_ne_nil hne
    have hopen : c.sink.stream.cancelled = false ∧ c.sink.stream.ended = false := by
      by_contra hshut
      have hs : (c.sink.stream.cancelled || c.sink.stream.ended) = true := by
        by_contra hno
        exact hshut (ResponseStreamInner.open_of_not_shut hno)
      rw [ResponseStream.pushChunkWithinBudget_of_shut hs] at htook
      cases htook
    have hspare : 0 < c.sink.stream.spareCapacity := by
      rcases hroom with hcan | hfull
      · rw [hopen.1] at hcan
        cases hcan
      · have hlt : c.sink.stream.bufferedBytes < c.sink.stream.maxBufferedBytes := by
          simpa [ResponseStream.full, ResponseStreamInner.full] using
            (Bool.or_eq_false_iff.mp hfull).2
        rw [ResponseStream.spareCapacity, ResponseStreamInner.spareCapacity]
        omega
    obtain ⟨hsome, hin⟩ := ResponseStream.pushChunkWithinBudget_of_open hopen.1 hopen.2 left
    rw [htook, Option.some.injEq] at hsome
    rw [if_pos (by omega), ← hsome] at hin
    have hitems : (c.sink.pushWithinBudget left).stream.items.length =
        c.sink.stream.items.length + 1 := by
      show (c.sink.stream.pushChunkWithinBudget left).2.items.length = _
      rw [hin, ResponseStreamInner.append_items, List.length_append, List.length_singleton]
    have hpaused : (c.sink.pushWithinBudget left).stream.paused = c.sink.stream.paused :=
      ResponseStream.pushChunkWithinBudget_paused left
    have hdrop : (left.drop taken).length + taken = left.length := by
      rw [List.length_drop]
      omega
    rw [hgate, hhand]
    show 30 + (c.ahead + 5 * (c.sink.pushWithinBudget left).stream.items.length +
      3 * (c.sink.pushWithinBudget left).stream.paused.toNat) + 100 * (left.drop taken).length < _
    rw [Copy.load, hitems, hpaused]
    omega

/-- A direction takes a step, is woken, or its sink is emptied. -/
inductive Further (c : Copy) : Prop
  | next {d : Copy} : c.next = some d → Closer c d → Further c
  | woken {d : Copy} : c.ready = true → c.woken = some d → Closer c d → Further c
  | emptied {op : QueueOp} : op = .takeNext ∨ op = .setPaused false →
      Closer c { c with sink := c.sink.apply op } → Further c

theorem further_read (h : c.Closing) {g : Gate} (hp : c.place = .read g) : Further c := by
  cases g with
  | take => exact .next (by rw [Copy.next, hp]) (closer_drain h hp)
  | check => exact .next (by rw [Copy.next, hp]) (closer_check h hp)
  | park =>
    have hno : (c.source.stream.park Copy.fiberVariable).1 = false := by
      rcases c.source.stream.park_cases Copy.fiberVariable with ⟨-, hno⟩ | ⟨-, he, hcan, -⟩
      · rw [hno]
      · rcases h.shut with hshut | hshut
        · rw [hcan] at hshut
          cases hshut
        · rw [he] at hshut
          cases hshut
    have ht : c.next =
        some ({ c with source := c.source.park Copy.fiberVariable }.goto (.read .take)) := by
      simp only [Copy.next, hp, hno]
      rfl
    refine .next ht (closer_move h hp rfl (c.source.same_park _) (.refl _) rfl ?_)
    rw [show c.gate = 23 by rw [Copy.gate, hp]]
    show 20 < 23
    decide
  | parked =>
    have hready : c.ready = true := by
      rw [Copy.ready, hp]
      rcases h.shut with hc | he
      · simp [hc]
      · simp [he]
    have ht : c.woken = some (c.goto (.read .leave)) := by rw [Copy.woken, hp]
    refine .woken hready ht (closer_goto h hp rfl fun _ => ⟨rfl, ?_⟩)
    rw [show c.gate = 26 by rw [Copy.gate, hp]]
    show 24 < 26
    decide
  | leave =>
    have ht : c.next = some ({ c with source := c.source.unpark }.goto (.read .take)) := by
      simp only [Copy.next, hp]
    refine .next ht (closer_move h hp rfl c.source.same_unpark (.refl _) rfl ?_)
    rw [show c.gate = 24 by rw [Copy.gate, hp]]
    show 20 < 24
    decide

theorem further_timingOut (h : c.Closing) {k : TimeOut} (hp : c.place = .timingOut k) : Further c := by
  cases k with
  | unpark =>
    have ht : c.next =
        some ({ c with source := c.source.unpark }.goto (.timingOut .cancelResponse)) := by
      simp only [Copy.next, hp]
    refine .next ht (closer_move h hp rfl c.source.same_unpark (.refl _) rfl ?_)
    rw [show c.gate = 9 by rw [Copy.gate, hp]]
    show 8 < 9
    decide
  | cancelResponse =>
    have ht : c.next =
        some ({ c with source := c.source.cancel }.goto (.timingOut .cancelRequest)) := by
      simp only [Copy.next, hp]
    refine .next ht (closer (by rw [hp]; rfl) ⟨Or.inl rfl, h.unpaused⟩ fun _ => ?_)
    have hgate : c.gate = 8 := by rw [Copy.gate, hp]
    have hhand : c.place.inHand = [] := by rw [hp]; rfl
    rw [hgate, hhand]
    show 7 + (10 * 0 + 200 * (0 + c.buffer.length) + 5 * c.sink.stream.items.length +
      3 * c.sink.stream.paused.toNat) + 100 * 0 < _
    rw [Copy.load, Copy.ahead, List.length_nil]
    omega
  | cancelRequest =>
    have ht : c.next = some (c.goto (.ended (.raised .timedOut))) := by rw [Copy.next, hp]
    exact .next ht (closer_goto h hp rfl fun hl => by cases hl)

theorem further_write (hi : Inv c₀ c) (h : c.Closing) {size : ℕ} {left : Bytes} {g : WriteGate}
    (hp : c.place = .write size left g) : Further c := by
  have hlive : c.place.live = true := by rw [hp]; rfl
  have hfits := hi.fits
  rw [hp] at hfits
  by_cases hnil : left = []
  · subst hnil
    have hg : g = .test := by
      by_contra hne
      exact hfits.2 hne rfl
    subst hg
    have ht : c.next = some ({ c with bytesWritten := c.bytesWritten + size }.goto .enter) := by
      simp only [Copy.next, hp]
    refine .next ht (closer hlive ⟨h.shut, h.unpaused⟩ fun _ => ?_)
    have hgate : c.gate = 30 := by rw [Copy.gate, hp]
    have hhand : c.place.inHand = [] := by rw [hp]; rfl
    rw [hgate, hhand]
    show 25 + c.load + 100 * 0 < _
    omega
  · by_cases hfull : c.sink.stream.full = true ∧ c.sink.stream.cancelled = false
    · obtain ⟨op, hop, hcloser⟩ := closer_empty h hlive hfull.1
      exact .emptied hop hcloser
    · have hroom : c.sink.stream.cancelled = true ∨ c.sink.stream.full = false := by
        by_cases hf : c.sink.stream.full = true
        · left
          by_contra hcan
          exact hfull ⟨hf, by simpa using hcan⟩
        · right
          simpa using hf
      cases g with
      | test =>
        obtain ⟨b, more, rfl⟩ := List.exists_cons_of_ne_nil hnil
        have hopen : c.next = some (c.goto (.write size (b :: more)
            (if c.sink.stream.isSaturated then .park else .write))) := by
          rw [Copy.next, hp]
        refine .next hopen (closer_goto h hp rfl fun _ => ⟨rfl, ?_⟩)
        rw [show c.gate = 30 by rw [Copy.gate, hp]]
        split_ifs
        · show 29 < 30
          decide
        · show 28 < 30
          decide
      | park =>
        have hno : (c.sink.stream.parkWriter Copy.fiberVariable).1 = false := by
          rcases c.sink.stream.parkWriter_cases Copy.fiberVariable with ⟨-, hno⟩ | ⟨hcan, hf, -⟩
          · rw [hno]
          · exact absurd ⟨hf, hcan⟩ hfull
        have ht : c.next = some ({ c with sink := c.sink.parkWriter Copy.fiberVariable }.goto
            (.write size left .write)) := by
          simp only [Copy.next, hp, hno]
          rfl
        refine .next ht (closer_move h hp rfl (.refl _) (c.sink.same_parkWriter _) rfl ?_)
        rw [show c.gate = 29 by rw [Copy.gate, hp]]
        show 28 < 29
        decide
      | parked =>
        have hready : c.ready = true := by
          rw [Copy.ready, hp]
          rcases hroom with hc | hf
          · simp [hc]
          · simp [hf]
        have ht : c.woken = some (c.goto (.write size left .leave)) := by rw [Copy.woken, hp]
        refine .woken hready ht (closer_goto h hp rfl fun _ => ⟨rfl, ?_⟩)
        rw [show c.gate = 32 by rw [Copy.gate, hp]]
        show 31 < 32
        decide
      | leave =>
        have ht : c.next = some ({ c with sink := c.sink.unpark }.goto (.write size left .write)) := by
          simp only [Copy.next, hp]
        refine .next ht (closer_move h hp rfl (.refl _) c.sink.same_unpark rfl ?_)
        rw [show c.gate = 31 by rw [Copy.gate, hp]]
        show 28 < 31
        decide
      | write =>
        have ht : c.next = some (c.writeStep size left) := by simp only [Copy.next, hp]
        exact .next ht (closer_write h hp hnil hroom)

/-- **A direction that goes on comes closer to its end.** -/
theorem further (hi : Inv c₀ c) (h : c.Closing) (hlive : c.place.live = true) : Further c := by
  cases hp : c.place with
  | enter =>
    have ht : c.next = some (c.goto
        (if c.readClosed then .ended (.raised .notOpened) else .read .take)) := by
      rw [Copy.next, hp]
    refine .next ht ?_
    split_ifs
    · exact closer_goto h hp rfl fun hl => by cases hl
    · refine closer_goto h hp rfl fun _ => ⟨rfl, ?_⟩
      rw [show c.gate = 25 by rw [Copy.gate, hp]]
      show 20 < 25
      decide
  | read g => exact further_read h hp
  | timingOut k => exact further_timingOut h hp
  | write size left g => exact further_write hi h hp
  | closeWrite =>
    have ht : c.next = some (c.closeWrite.goto (.ended .eof)) := by rw [Copy.next, hp]
    refine .next ht (closer hlive ?_ fun hl => by cases hl)
    unfold Copy.closeWrite
    split_ifs <;> exact ⟨h.shut, h.unpaused⟩
  | ended e => rw [hp] at hlive; cases hlive
  | stopped => rw [hp] at hlive; cases hlive

end Direction

/-! ## The relay -/

/-- A fiber that was not stopped by the relay is never found stopped. -/
def Going (s : State) : Prop := ∀ n, s.main = .collect n → ∀ d, (s.copy d).place ≠ .stopped

/-- What is left for the fiber of the relay to do. -/
def Main.rank : Main → ℕ
  | .collect n => 12 - n
  | .closing .back .halves => 10
  | .closing .back .cancelResponse => 9
  | .closing .back .cancelRequest => 8
  | .closing .out .halves => 7
  | .closing .out .cancelResponse => 6
  | .closing .out .cancelRequest => 5
  | .stopping .out _ => 4
  | .stopping .back _ => 3
  | .done _ => 0

def State.rank (s : State) : ℕ := s.out.rank + s.back.rank + s.main.rank

/-- The steps of the fibers, and of the workers that empty the sinks. -/
def Onwards : Action → Prop
  | .next _ | .wake _ | .main => True
  | .sink _ op => op = .takeNext ∨ op = .setPaused false
  | _ => False

variable {out back : Copy} {s t : State}

theorem rank_setCopy (d : Direction) (c : Copy) :
    (s.setCopy d c).rank + (s.copy d).rank = s.rank + c.rank := by
  cases d with
  | out =>
    show c.rank + s.back.rank + s.main.rank + s.out.rank = s.out.rank + s.back.rank + s.main.rank + _
    omega
  | back =>
    show s.out.rank + c.rank + s.main.rank + s.back.rank = s.out.rank + s.back.rank + s.main.rank + _
    omega

theorem going_setCopy (h : Going s) {d : Direction} {c : Copy}
    (hc : (s.copy d).place ≠ .stopped → c.place ≠ .stopped) : Going (s.setCopy d c) := by
  intro n hm e
  rw [State.setCopy_main] at hm
  exact s.setCopy_each (P := fun _ c => c.place ≠ .stopped) hc (h n hm e)

theorem Going.step (h : Going s) {a : Action} (ht : Relay.step s a = some t) : Going t := by
  have hwoken : ∀ {d : Direction} {c : Copy}, (s.copy d).woken = some c → Going (s.setCopy d c) := by
    intro d c hc
    refine going_setCopy h fun _ => ?_
    unfold Copy.woken at hc
    split at hc
    · cases hc
      rintro ⟨⟩
    · cases hc
      rintro ⟨⟩
    · cases hc
  cases a with
  | source d op =>
    simp only [Relay.step, Option.ite_none_right_eq_some, Option.some.injEq] at ht
    obtain ⟨-, rfl⟩ := ht
    exact going_setCopy h id
  | sink d op =>
    simp only [Relay.step, Option.ite_none_right_eq_some, Option.some.injEq] at ht
    obtain ⟨-, rfl⟩ := ht
    exact going_setCopy h id
  | next d =>
    simp only [Relay.step, State.nextStep, Option.map_eq_some_iff] at ht
    obtain ⟨c, hc, rfl⟩ := ht
    have hfirst : Going (if (s.copy d).place = .timingOut .cancelRequest then s.cancelSink d.other
        else s) := by
      split_ifs
      · exact going_setCopy h id
      · exact h
    exact going_setCopy hfirst fun _ => (effect_next hc).going
  | wake d =>
    simp only [Relay.step, Option.ite_none_right_eq_some, Option.map_eq_some_iff] at ht
    obtain ⟨-, c, hc, rfl⟩ := ht
    exact hwoken hc
  | wakeStale d =>
    simp only [Relay.step, Option.map_eq_some_iff] at ht
    obtain ⟨c, hc, rfl⟩ := ht
    exact hwoken hc
  | timeOut d =>
    simp only [Relay.step, Option.ite_none_right_eq_some, Option.some.injEq] at ht
    obtain ⟨-, rfl⟩ := ht
    exact going_setCopy h fun _ => by rintro ⟨⟩
  | main =>
    simp only [Relay.step] at ht
    cases mainStep_moves ht with
    | @pops popped e rest hm => exact fun n _ d => h popped hm d
    | @halves d =>
      intro n hn
      simp only at hn
      split_ifs at hn
      cases d <;> cases hn
    | response => rintro n ⟨⟩
    | @request d =>
      intro n hn
      cases d <;> cases hn
    | @stops d r =>
      intro n hn
      cases d <;> cases hn
  | interrupt =>
    simp only [Relay.step] at ht
    split at ht
    · simp only [Option.ite_none_right_eq_some, Option.some.injEq] at ht
      obtain ⟨-, rfl⟩ := ht
      rintro n ⟨⟩
    · cases ht

theorem all_setCopy {P : Copy → Prop} (h : ∀ d, P (s.copy d)) {e : Direction} {c : Copy} (hc : P c) :
    ∀ d, P ((s.setCopy e c).copy d) := by
  intro d
  exact s.setCopy_each (P := fun _ c => P c) (fun _ => hc) (h d)

/-- A direction that is over, and whose source is closing. -/
def Over (c : Copy) : Prop := c.place.live = false ∧ c.Closing

/-- **The fiber of the relay finishes alone** once both directions are over. -/
theorem mainStep_closer (h : ∀ d, Over (s.copy d)) (hle : ∀ n, s.main = .collect n → n ≤ 1)
    (ht : s.mainStep = some t) : (∀ d, Over (t.copy d)) ∧ t.main.rank < s.main.rank := by
  have hwrite : ∀ c : Copy, Over c → Over c.closeWrite := by
    intro c hc
    unfold Copy.closeWrite
    split_ifs
    · exact hc
    · exact ⟨hc.1, hc.2.shut, hc.2.unpaused⟩
  have hafter : ∀ (d : Direction) (k : Closing),
      (State.afterClosing d).rank < (Main.closing d k).rank := by
    intro d k
    cases d <;> cases k <;> decide
  cases mainStep_moves ht with
  | @pops popped e rest hm =>
    have hlow := hle popped hm
    refine ⟨h, ?_⟩
    rw [hm, show (Main.collect popped).rank = 12 - popped from rfl]
    cases e.failure with
    | some error =>
      show 4 < 12 - popped
      omega
    | none =>
      simp only
      split_ifs with hzero
      · show 12 - 1 < 12 - popped
        omega
      · show 10 < 12 - popped
        omega
  | @halves d hm =>
    have hread : ∀ f, Over ((s.setCopy d { s.copy d with readClosed := true }).copy f) :=
      all_setCopy h ⟨(h d).1, (h d).2.shut, (h d).2.unpaused⟩
    refine ⟨all_setCopy hread (hwrite _ (h d.other)), ?_⟩
    rw [hm]
    simp only
    split_ifs
    · show (Main.closing d .cancelResponse).rank < (Main.closing d .halves).rank
      cases d <;> decide
    · exact hafter d .halves
  | @response d hm =>
    refine ⟨all_setCopy h ⟨(h d).1, Or.inl rfl, (h d).2.unpaused⟩, ?_⟩
    rw [hm]
    show (Main.closing d .cancelRequest).rank < (Main.closing d .cancelResponse).rank
    cases d <;> decide
  | @request d hm =>
    refine ⟨all_setCopy h ⟨(h d.other).1, (h d.other).2.shut, (h d.other).2.unpaused⟩, ?_⟩
    rw [hm]
    exact hafter d .cancelRequest
  | @stops d r hm =>
    have hstop : Over (s.copy d).stop := by
      rcases (s.copy d).stop_cases with ⟨-, hsame⟩ | ⟨hlive, -⟩
      · rw [hsame]
        exact h d
      · rw [(h d).1] at hlive
        cases hlive
    refine ⟨all_setCopy h hstop, ?_⟩
    rw [hm]
    cases d with
    | out => exact (by decide : 3 < 4)
    | back => exact (by decide : 0 < 3)

/-- The relay goes on towards its end. -/
structure Winding (s₀ s : State) : Prop where
  inv : RelayInv s₀ s
  going : Going s
  closing : ∀ d, (s.copy d).Closing

theorem RelayInv.collect_le {s₀ : State} (h : RelayInv s₀ s) {n : ℕ} (hm : s.main = .collect n) :
    n ≤ 1 := by
  obtain ⟨popped, -, hpopped⟩ := h.tally
  rw [hm] at hpopped
  exact hpopped.2.1

theorem Winding.endings {s₀ : State} (h : Winding s₀ s) (hdead : ∀ d, (s.copy d).place.live = false)
    {n : ℕ} (hm : s.main = .collect n) : s.endings ≠ [] := by
  intro hnil
  obtain ⟨popped, hperm, hpopped⟩ := h.inv.tally
  rw [hm] at hpopped
  obtain ⟨hlen, hle, -⟩ := hpopped
  have hsome : ∀ d, ((s.copy d).ending.toList).length = 1 := by
    intro d
    have hne := h.going n hm d
    have hlive := hdead d
    unfold Copy.ending
    cases hp : (s.copy d).place with
    | ended e => rfl
    | stopped => exact absurd hp hne
    | _ => rw [hp] at hlive; cases hlive
  have hcount := hperm.length_eq
  have hout := hsome .out
  have hback := hsome .back
  rw [hnil, List.append_nil, State.ended, List.length_append] at hcount
  change (s.out.ending.toList).length = 1 at hout
  change (s.back.ending.toList).length = 1 at hback
  omega

theorem Winding.closer {s₀ : State} (h : Winding s₀ s) {d : Direction} {c : Copy} {a : Action}
    (ht : Relay.step s a = some (s.setCopy d c)) (hc : Closer (s.copy d) c) :
    Winding s₀ (s.setCopy d c) ∧ (s.setCopy d c).rank < s.rank := by
  refine ⟨⟨h.inv.step ht, h.going.step ht, all_setCopy h.closing hc.1⟩, ?_⟩
  have hsum := rank_setCopy (s := s) d c
  have hlt := hc.2
  omega

/-- **A direction that is not over takes the relay closer to its end.** -/
theorem Winding.direction {s₀ : State} (h : Winding s₀ s) {d : Direction}
    (hlive : (s.copy d).place.live = true) :
    ∃ a t, Onwards a ∧ Relay.step s a = some t ∧ Winding s₀ t ∧ t.rank < s.rank := by
  cases further (h.inv.copies d) (h.closing d) hlive with
  | next hnext hc =>
    rename_i c
    obtain ⟨u, hu, hcopy, hrank, hclosing⟩ : ∃ u : State,
        Relay.step s (.next d) = some (u.advance d c) ∧ u.copy d = s.copy d ∧ u.rank ≤ s.rank ∧
          ∀ e, (u.copy e).Closing := by
      refine ⟨if (s.copy d).place = .timingOut .cancelRequest then s.cancelSink d.other else s, ?_, ?_⟩
      · simp only [Relay.step, State.nextStep, hnext, Option.map_some]
      · split_ifs
        · refine ⟨s.copy_setCopy_ne d.other_ne.symm _, ?_, all_setCopy h.closing ?_⟩
          · have hsum := rank_setCopy (s := s) d.other
              { s.copy d.other with sink := (s.copy d.other).sink.cancel }
            have hle : Copy.rank { s.copy d.other with sink := (s.copy d.other).sink.cancel } ≤
                (s.copy d.other).rank := by
              unfold Copy.rank
              simp only
              split_ifs
              · show 1 + (s.copy d.other).gate + ((s.copy d.other).ahead + 5 * 0 +
                  3 * (s.copy d.other).sink.stream.paused.toNat) + _ ≤ _
                rw [Copy.load]
                omega
              · exact le_rfl
            show (s.setCopy d.other _).rank ≤ s.rank
            omega
          · exact ⟨(h.closing d.other).shut, (h.closing d.other).unpaused⟩
        · exact ⟨rfl, le_rfl, h.closing⟩
    refine ⟨.next d, _, trivial, hu, ⟨h.inv.step hu, h.going.step hu, all_setCopy hclosing hc.1⟩, ?_⟩
    have hsum := rank_setCopy (s := u) d c
    have hlt := hc.2
    rw [hcopy] at hsum
    have hsame : (u.advance d c).rank = (u.setCopy d c).rank := rfl
    omega
  | woken hready hw hc =>
    rename_i c
    have ht : Relay.step s (.wake d) = some (s.setCopy d c) := by
      simp only [Relay.step, hready, if_true, hw, Option.map_some]
    exact ⟨.wake d, _, trivial, ht, h.closer ht hc⟩
  | emptied hop hc =>
    rename_i op
    have ht : Relay.step s (.sink d op) =
        some (s.setCopy d { s.copy d with sink := (s.copy d).sink.apply op }) := by
      rcases hop with rfl | rfl <;> rfl
    exact ⟨.sink d op, _, hop, ht, h.closer ht hc⟩

/-- **Once both directions are over, the fiber of the relay takes a step.** -/
theorem Winding.main {s₀ : State} (h : Winding s₀ s) (hdead : ∀ d, (s.copy d).place.live = false)
    (hdone : ∀ r, s.main ≠ .done r) :
    ∃ t, Relay.step s .main = some t ∧ Winding s₀ t ∧ t.rank < s.rank := by
  have hstep : ∃ t, s.mainStep = some t := by
    unfold State.mainStep
    cases hm : s.main with
    | collect n =>
      obtain ⟨e, rest, he⟩ := List.exists_cons_of_ne_nil (h.endings hdead hm)
      simp only [he]
      exact ⟨_, rfl⟩
    | closing d k => cases k <;> exact ⟨_, rfl⟩
    | stopping d r => cases d <;> exact ⟨_, rfl⟩
    | done r => exact absurd hm (hdone r)
  obtain ⟨t, ht⟩ := hstep
  have hstart : ∀ d, Over (s.copy d) := fun d => ⟨hdead d, h.closing d⟩
  obtain ⟨hover, hlt⟩ := mainStep_closer hstart (fun n hm => h.inv.collect_le hm) ht
  have hzero : ∀ {u : State}, (∀ d, Over (u.copy d)) → u.rank = u.main.rank := by
    intro u hu
    have hu_out : u.out.rank = 0 := rank_of_dead (hu .out).1
    have hu_back : u.back.rank = 0 := rank_of_dead (hu .back).1
    rw [State.rank, hu_out, hu_back]
    omega
  refine ⟨t, ht, ⟨h.inv.step (a := .main) ht, h.going.step (a := .main) ht, fun d => (hover d).2⟩, ?_⟩
  rw [hzero hover, hzero hstart]
  exact hlt

/-- **A relay ends.** Once each of the two sources accepts nothing more, its fibers, with the workers
that empty the sinks, take it from any reachable state to its return, or to what it raises. -/
theorem relay_ends (hout : out.Begins) (hback : back.Begins) (h : (system out back).Reachable s)
    (hshut : ∀ d, (s.copy d).source.Shut) :
    (system out back).Leads Onwards (fun t => ∃ r, t.main = .done r) s := by
  have hgoing : Going s := by
    refine h.induct (P := Going) ?_ fun s a t hg _ ht => Going.step (a := a) hg ht
    rintro _ rfl n _ d
    cases d with
    | out => exact fun hp => by cases hout.place.symm.trans hp
    | back => exact fun hp => by cases hback.place.symm.trans hp
  have hinv := RelayInv.of_reach hout hback h
  have hstart : Winding (start out back) s :=
    ⟨hinv, hgoing, fun d => ⟨hshut d, (hinv.copies d).unpaused⟩⟩
  by_cases hdone : ∃ r, s.main = .done r
  · exact .here hdone
  refine System.Leads.of_rank State.rank
    (I := fun t => Winding (start out back) t ∧ ¬ ∃ r, t.main = .done r) ?_ ⟨hstart, hdone⟩
  rintro t ⟨ht, hnot⟩
  have hnext : ∃ a u, Onwards a ∧ Relay.step t a = some u ∧ Winding (start out back) u ∧
      u.rank < t.rank := by
    by_cases hlive : ∃ d, (t.copy d).place.live = true
    · obtain ⟨d, hd⟩ := hlive
      exact ht.direction hd
    · have hdead : ∀ d, (t.copy d).place.live = false := by
        intro d
        by_contra hd
        exact hlive ⟨d, by simpa using hd⟩
      obtain ⟨u, hu, hw, hlt⟩ := ht.main hdead fun r hr => hnot ⟨r, hr⟩
      exact ⟨.main, u, trivial, hu, hw, hlt⟩
  obtain ⟨a, u, ha, hu, hw, hlt⟩ := hnext
  refine ⟨a, u, ha, hu, ?_⟩
  by_cases hend : ∃ r, u.main = .done r
  · exact Or.inl hend
  · exact Or.inr ⟨⟨hw, hend⟩, hlt⟩

theorem relay_ends_copiesTwo :
    ∃ s, (system fresh fresh).run (start fresh fresh) (copiesTwo.take 3) = some s ∧
      (system fresh fresh).Leads Onwards (fun t => ∃ r, t.main = .done r) s := by
  obtain ⟨s, hrun, hout, hback⟩ : ∃ s,
      (system fresh fresh).run (start fresh fresh) (copiesTwo.take 3) = some s ∧
        s.out.source.stream.ended = true ∧ s.back.source.stream.ended = true := ⟨_, rfl, rfl, rfl⟩
  refine ⟨s, hrun, relay_ends fresh_begins fresh_begins (System.reach_of_run rfl hrun) fun d => ?_⟩
  cases d with
  | out => exact Or.inr hout
  | back => exact Or.inr hback

end Ruvoy.Relay
