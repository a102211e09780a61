import Ruvoy.Stream.Model

/-!
# The chunk queue conserves its items

A `History` is a queue with the list of items it accepted and the list of items taken off it, as
the callers see them: an item is recorded as accepted exactly when the push said so. The queue
refines the ledger of `Fifo.Ledger`, operation by operation, and a `Tracked` queue carries the
proof, so nothing later has to be said again about the flags and the byte counter.

* `History.push`, `History.pushWithinBudget`, `History.pushIfRoom`, `History.takeNext`,
  `History.cancel`, `History.mark`: the operations with their records;
* `History.Inv`: some ledger has the same history, and `Tracked`, the queue that carries it;
* `QueueOp`, `Tracked.apply`, `Tracked.run`: runs of operations in any order;
* **`queue_conserves`**: what holds after every run.
-/

set_option autoImplicit false

namespace Ruvoy

open Fifo

/-- A queue with what it accepted and what was taken off it. -/
structure History where
  stream : ResponseStream
  accepted : List StreamItem := []
  taken : List StreamItem := []

namespace History

variable (h : History)

/-- Record an acceptance. -/
def accept (ok : Bool) (x : StreamItem) : List StreamItem :=
  if ok then h.accepted ++ [x] else h.accepted

def push (x : StreamItem) : History :=
  { h with stream := (h.stream.push x).2, accepted := h.accept (h.stream.push x).1 x }

/-- A push within the budget is recorded as the slice that was taken, if any was. -/
def pushWithinBudget (b : Bytes) : History :=
  let r := h.stream.pushChunkWithinBudget b
  { h with
    stream := r.2
    accepted := h.accept (decide (0 < r.1.getD 0)) (.Chunk (b.take (r.1.getD 0))) }

def pushIfRoom (b : Bytes) : History :=
  let r := h.stream.pushChunkIfRoom b
  { h with stream := r.2, accepted := h.accept (r.1 == some true) (.Chunk b) }

def takeNext : History :=
  { h with stream := h.stream.takeNext.2, taken := h.taken ++ h.stream.takeNext.1.toList }

def cancel : History := { h with stream := h.stream.cancel }

/-- An operation that leaves the items and the cancelled and ended flags alone. -/
def mark (f : ResponseStream → ResponseStream) : History := { h with stream := f h.stream }

/-! ## The queue refines a ledger -/

/-- The ledger `l` has the history of `h`. -/
structure Refines (l : Ledger StreamItem.terminal) : Prop where
  accepted : l.accepted = h.accepted
  taken : l.taken = h.taken
  queued : l.queued = h.stream.items
  discarded : l.discarded = h.stream.cancelled
  closed : l.closed = h.stream.ended

/-- Some ledger has this history. -/
def Inv : Prop := ∃ l, h.Refines l

variable {h}

theorem Inv.new (m : ℕ) : Inv { stream := ResponseStream.new m } :=
  ⟨.empty, rfl, rfl, rfl, rfl, rfl⟩

theorem Refines.append {l : Ledger StreamItem.terminal} (r : h.Refines l) {s : ResponseStream}
    {x : StreamItem} (hc : h.stream.cancelled = false) (he : h.stream.ended = false)
    (hs : s.inner = h.stream.inner.append x) :
    Refines { h with stream := s, accepted := h.accepted ++ [x] } (l.accept x) := by
  obtain ⟨ha, ht, hq, hd⟩ := Ledger.accept_of_open (r.discarded.trans hc) (r.closed.trans he) x
  refine ⟨?_, ht.trans r.taken, ?_, ?_, ?_⟩
  · rw [ha, r.accepted]
  · rw [hq, r.queued, hs, ResponseStreamInner.append_items]
  · rw [hd, hs, ResponseStreamInner.append_cancelled, hc]
  · have hl : l.accepted.any StreamItem.terminal = false := r.closed.trans he
    rw [Ledger.closed, ha, List.any_append, hl, hs]
    simp

theorem Inv.push (hi : h.Inv) (x : StreamItem) : (h.push x).Inv := by
  obtain ⟨l, r⟩ := hi
  by_cases hs : (h.stream.cancelled || h.stream.ended) = true
  · rw [History.push, ResponseStream.push_of_shut hs]
    exact ⟨l, r⟩
  · obtain ⟨hc, he⟩ := ResponseStreamInner.open_of_not_shut hs
    obtain ⟨hok, hin⟩ := ResponseStream.push_of_open hc he x
    refine ⟨l.accept x, ?_⟩
    simpa only [History.push, accept, hok, if_true] using r.append hc he hin

theorem Inv.pushWithinBudget (hi : h.Inv) (b : Bytes) : (h.pushWithinBudget b).Inv := by
  obtain ⟨l, r⟩ := hi
  by_cases hs : (h.stream.cancelled || h.stream.ended) = true
  · rw [History.pushWithinBudget, ResponseStream.pushChunkWithinBudget_of_shut hs]
    exact ⟨l, r⟩
  · obtain ⟨hc, he⟩ := ResponseStreamInner.open_of_not_shut hs
    obtain ⟨hn, hin⟩ := ResponseStream.pushChunkWithinBudget_of_open hc he b
    by_cases hp : 0 < min b.length h.stream.spareCapacity
    · rw [if_pos hp] at hin
      refine ⟨l.accept (.Chunk (b.take (min b.length h.stream.spareCapacity))), ?_⟩
      simpa only [History.pushWithinBudget, accept, hn, Option.getD_some, hp, decide_true,
        if_true] using r.append hc he hin
    · rw [if_neg hp] at hin
      refine ⟨l, ?_, r.taken, ?_, ?_, ?_⟩
      · simpa only [History.pushWithinBudget, accept, hn, Option.getD_some, hp, decide_false,
          Bool.false_eq_true, if_false] using r.accepted
      all_goals simp only [History.pushWithinBudget, hin]
      exacts [r.queued, r.discarded, r.closed]

theorem Inv.pushIfRoom (hi : h.Inv) (b : Bytes) : (h.pushIfRoom b).Inv := by
  obtain ⟨l, r⟩ := hi
  by_cases hs : (h.stream.cancelled || h.stream.ended) = true
  · rw [History.pushIfRoom, ResponseStream.pushChunkIfRoom_of_shut hs]
    exact ⟨l, r⟩
  · obtain ⟨hc, he⟩ := ResponseStreamInner.open_of_not_shut hs
    rcases ResponseStream.pushChunkIfRoom_of_open hc he b with hf | ⟨hok, hin⟩
    · rw [History.pushIfRoom, hf]
      exact ⟨l, r⟩
    · refine ⟨l.accept (.Chunk b), ?_⟩
      simpa only [History.pushIfRoom, accept, hok, beq_self_eq_true, if_true] using
        r.append hc he hin

theorem Inv.takeNext (hi : h.Inv) : h.takeNext.Inv := by
  obtain ⟨l, r⟩ := hi
  by_cases hp : h.stream.paused = true ∨ h.stream.items = []
  · rw [History.takeNext, ResponseStream.takeNext_of_idle hp]
    exact ⟨l, by simpa using r⟩
  · push Not at hp
    obtain ⟨hp, hne⟩ := hp
    obtain ⟨x, rest, hx⟩ := List.exists_cons_of_ne_nil hne
    obtain ⟨hok, hin⟩ := ResponseStream.takeNext_of_cons (by simpa using hp) hx
    obtain ⟨ha, ht, hq, hd⟩ := Ledger.take_of_cons (r.queued.trans hx)
    have hcl : l.take.closed = l.closed := by rw [Ledger.closed, ha]; rfl
    refine ⟨l.take, ?_, ?_, ?_, ?_, ?_⟩
    · rw [ha, r.accepted]; rfl
    · rw [ht, r.taken, History.takeNext, hok]; rfl
    · rw [hq, History.takeNext, hin, ResponseStreamInner.tail_items]
    · rw [hd, r.discarded, History.takeNext, hin, ResponseStreamInner.tail_cancelled]
    · rw [hcl, r.closed, History.takeNext, hin, ResponseStreamInner.tail_ended]

theorem Inv.cancel (hi : h.Inv) : h.cancel.Inv := by
  obtain ⟨l, r⟩ := hi
  exact ⟨l.discard, r.accepted, r.taken, rfl, rfl, r.closed⟩

theorem Inv.mark (hi : h.Inv) {f : ResponseStream → ResponseStream}
    (h1 : (f h.stream).items = h.stream.items) (h2 : (f h.stream).cancelled = h.stream.cancelled)
    (h3 : (f h.stream).ended = h.stream.ended) : (h.mark f).Inv := by
  obtain ⟨l, r⟩ := hi
  exact ⟨l, r.accepted, r.taken, r.queued.trans h1.symm, r.discarded.trans h2.symm,
    r.closed.trans h3.symm⟩

end History

/-! ## Tracked queues -/

/-- A queue with its history, and the proof that a ledger has the same history. -/
structure Tracked extends History where
  inv : toHistory.Inv

namespace Tracked

/-- A new queue, with nothing accepted. -/
def new (m : ℕ) : Tracked := ⟨{ stream := ResponseStream.new m }, .new m⟩

variable (t : Tracked)

def push (x : StreamItem) : Tracked := ⟨t.toHistory.push x, t.inv.push x⟩
def pushWithinBudget (b : Bytes) : Tracked := ⟨t.toHistory.pushWithinBudget b, t.inv.pushWithinBudget b⟩
def pushIfRoom (b : Bytes) : Tracked := ⟨t.toHistory.pushIfRoom b, t.inv.pushIfRoom b⟩
def takeNext : Tracked := ⟨t.toHistory.takeNext, t.inv.takeNext⟩
def cancel : Tracked := ⟨t.toHistory.cancel, t.inv.cancel⟩

def setPaused (p : Bool) : Tracked :=
  ⟨t.toHistory.mark (·.setPaused p), t.inv.mark rfl rfl rfl⟩

def unpark : Tracked := ⟨t.toHistory.mark (·.unpark.2), t.inv.mark rfl rfl rfl⟩

def park (w : Variable) : Tracked :=
  ⟨t.toHistory.mark fun s => (s.park w).2, t.inv.mark (by simp) (by simp) (by simp)⟩

def parkWriter (w : Variable) : Tracked :=
  ⟨t.toHistory.mark fun s => (s.parkWriter w).2, t.inv.mark (by simp) (by simp) (by simp)⟩

variable {t}

@[ext] theorem ext {t u : Tracked} (h : t.toHistory = u.toHistory) : t = u := by
  cases t; cases u; cases h; rfl

/-- **Until it is cancelled, what was taken followed by what is queued is what was accepted.** -/
theorem conserve (h : t.stream.cancelled = false) : t.taken ++ t.stream.items = t.accepted := by
  obtain ⟨l, r⟩ := t.inv
  rw [← r.accepted, ← r.taken, ← r.queued]
  exact l.conserve (r.discarded.trans h)

theorem taken_prefix : t.taken <+: t.accepted := by
  obtain ⟨l, r⟩ := t.inv
  rw [← r.accepted, ← r.taken]
  exact l.taken_prefix

/-- Only the last accepted item may be one that nothing follows. -/
theorem accepted_sealed : Sealed StreamItem.terminal t.accepted := by
  obtain ⟨l, r⟩ := t.inv
  rw [← r.accepted]
  exact l.final_last

/-- The queue has ended once it accepted an item that nothing follows. -/
theorem any_terminal : t.accepted.any StreamItem.terminal = t.stream.ended := by
  obtain ⟨l, r⟩ := t.inv
  rw [← r.closed, Ledger.closed, r.accepted]

theorem ended_iff : t.stream.ended = true ↔ ∃ x ∈ t.accepted, x.terminal = true := by
  rw [← any_terminal, List.any_eq_true]

theorem bytes_eq : t.stream.bufferedBytes = (bodyOf t.stream.items).length := t.stream.wf.bytes

theorem body_nil_of_bytes (h : t.stream.bufferedBytes = 0) : bodyOf t.stream.items = [] := by
  rw [t.bytes_eq] at h
  exact List.eq_nil_of_length_eq_zero h

/-- Once an item that nothing follows was taken, everything accepted was taken. -/
theorem taken_eq_of_terminal {x : StreamItem} (hx : x ∈ t.taken) (hterm : x.terminal = true) :
    t.taken = t.accepted := by
  obtain ⟨l, r, hl⟩ := List.append_of_mem hx
  obtain ⟨rest, hrest⟩ := t.taken_prefix
  have hs := t.accepted_sealed
  rw [← hrest, hl, List.append_assoc, List.cons_append] at hs
  have hnil := (List.append_eq_nil_iff.mp (hs.nil_of_append_cons hterm)).2
  rw [← hrest, hnil, List.append_nil]

theorem taken_all (hc : t.stream.cancelled = false) {x : StreamItem} (hx : x ∈ t.taken)
    (hterm : x.terminal = true) : t.stream.items = [] ∧ t.taken = t.accepted := by
  have hall := taken_eq_of_terminal hx hterm
  have hsplit := t.conserve hc
  rw [hall] at hsplit
  exact ⟨List.append_right_eq_self.mp hsplit, hall⟩

/-- Something is left in a queue that has ended, as long as its last item was not taken. -/
theorem items_ne_nil (hc : t.stream.cancelled = false) (he : t.stream.ended = true)
    (hfree : ∀ x ∈ t.taken, x.terminal = false) : t.stream.items ≠ [] := by
  intro hnil
  obtain ⟨x, hx, hterm⟩ := ended_iff.mp he
  rw [← t.conserve hc, hnil, List.append_nil] at hx
  rw [hfree x hx] at hterm
  cases hterm

theorem terminal_unique {x y : StreamItem} (hx : x ∈ t.accepted) (hy : y ∈ t.accepted)
    (hxt : x.terminal = true) (hyt : y.terminal = true) : x = y := by
  have hs := t.accepted_sealed
  have hlast : ∀ z ∈ t.accepted, z.terminal = true → t.accepted.getLast? = some z := by
    intro z hz hzt
    obtain ⟨l, r, hl⟩ := List.append_of_mem hz
    rw [hl] at hs
    rw [hl, hs.nil_of_append_cons hzt, List.getLast?_concat]
  have hxy := (hlast x hx hxt).symm.trans (hlast y hy hyt)
  exact Option.some.inj hxy

/-- A push is refused and changes nothing, or an open queue has one more item. -/
theorem push_cases (t : Tracked) (x : StreamItem) :
    ((t.stream.cancelled || t.stream.ended) = true ∧ t.push x = t) ∨
      (t.stream.cancelled = false ∧ t.stream.ended = false ∧ (t.push x).accepted = t.accepted ++ [x] ∧
        (t.push x).taken = t.taken ∧ (t.push x).stream.inner = t.stream.inner.append x) := by
  rcases t.stream.push_cases x with ⟨hs, h⟩ | ⟨hc, he, hok, hin⟩
  · refine Or.inl ⟨hs, ?_⟩
    ext1
    simp [push, History.push, History.accept, h]
  · refine Or.inr ⟨hc, he, ?_, rfl, hin⟩
    simp [push, History.push, History.accept, hok]

theorem pushWithinBudget_cases (t : Tracked) (b : Bytes) :
    (t.pushWithinBudget b).accepted = t.accepted ∨
      ∃ c, (t.pushWithinBudget b).accepted = t.accepted ++ [.Chunk c] := by
  simp only [pushWithinBudget, History.pushWithinBudget, History.accept]
  split_ifs
  · exact Or.inr ⟨_, rfl⟩
  · exact Or.inl rfl

theorem pushWithinBudget_body (t : Tracked) (b : Bytes) : bodyOf (t.pushWithinBudget b).accepted =
    bodyOf t.accepted ++ b.take ((t.stream.pushChunkWithinBudget b).1.getD 0) := by
  simp only [pushWithinBudget, History.pushWithinBudget, History.accept]
  split_ifs with htook
  · rw [bodyOf_append, bodyOf_cons, bytes_chunk, bodyOf_nil, List.append_nil]
  · have hnone : (t.stream.pushChunkWithinBudget b).1.getD 0 = 0 := by
      rw [decide_eq_true_eq] at htook
      omega
    rw [hnone, List.take_zero, List.append_nil]

/-- A delivery is refused and changes nothing, or an open queue has it whole. -/
theorem pushIfRoom_cases (t : Tracked) (b : Bytes) :
    ((t.stream.pushChunkIfRoom b).1 ≠ some true ∧ t.pushIfRoom b = t) ∨
      (t.stream.cancelled = false ∧ t.stream.ended = false ∧
        (t.stream.pushChunkIfRoom b).1 = some true ∧
        (t.pushIfRoom b).accepted = t.accepted ++ [.Chunk b] ∧ (t.pushIfRoom b).taken = t.taken ∧
        (t.pushIfRoom b).stream.inner = t.stream.inner.append (.Chunk b)) := by
  rcases t.stream.pushChunkIfRoom_cases b with ⟨hno, h⟩ | ⟨hc, he, hok, hin⟩
  · have hne : (t.stream.pushChunkIfRoom b).1 ≠ some true := by
      rcases hno with ⟨hn, -⟩ | ⟨hn, -⟩ <;> rw [hn] <;> rintro ⟨⟩
    refine Or.inl ⟨hne, ?_⟩
    ext1
    simp [pushIfRoom, History.pushIfRoom, History.accept, h, hne]
  · refine Or.inr ⟨hc, he, hok, ?_, rfl, hin⟩
    simp [pushIfRoom, History.pushIfRoom, History.accept, hok]

/-- A take gives nothing and changes nothing, or gives the oldest item of an unpaused queue. -/
theorem takeNext_cases (t : Tracked) :
    ((t.stream.paused = true ∨ t.stream.items = []) ∧ t.stream.takeNext.1 = none ∧ t.takeNext = t) ∨
      ∃ x rest, t.stream.items = x :: rest ∧ t.stream.takeNext.1 = some x ∧
        t.takeNext.accepted = t.accepted ∧ t.takeNext.taken = t.taken ++ [x] ∧
        t.takeNext.stream.inner = t.stream.inner.tail x rest := by
  rcases t.stream.takeNext_cases with ⟨hi, h⟩ | ⟨x, rest, -, hx, hok, hin⟩
  · refine Or.inl ⟨hi, by rw [h], ?_⟩
    ext1
    simp [takeNext, History.takeNext, h]
  · refine Or.inr ⟨x, rest, hx, hok, rfl, ?_, hin⟩
    simp [takeNext, History.takeNext, hok]

/-- Two queues that differ at most in their slots. -/
structure Same (t u : Tracked) : Prop where
  accepted : t.accepted = u.accepted
  taken : t.taken = u.taken
  items : t.stream.items = u.stream.items
  bytes : t.stream.bufferedBytes = u.stream.bufferedBytes
  cancelled : t.stream.cancelled = u.stream.cancelled
  ended : t.stream.ended = u.stream.ended
  paused : t.stream.paused = u.stream.paused

theorem Same.refl (t : Tracked) : t.Same t := ⟨rfl, rfl, rfl, rfl, rfl, rfl, rfl⟩

theorem same_unpark (t : Tracked) : t.unpark.Same t := ⟨rfl, rfl, rfl, rfl, rfl, rfl, rfl⟩

theorem same_park (t : Tracked) (w : Variable) : (t.park w).Same t :=
  ⟨rfl, rfl, ResponseStream.park_items w, ResponseStream.park_bytes w,
    ResponseStream.park_cancelled w, ResponseStream.park_ended w, ResponseStream.park_paused w⟩

end Tracked

/-! ## Runs of operations -/

/-- The operations of a `ResponseStream`, each atomic under the lock. -/
inductive QueueOp
  | pushHead (head : ResponseHead)
  | pushChunk (chunk : Bytes)
  | pushChunkWithinBudget (bytes : Bytes)
  | pushChunkIfRoom (chunk : Bytes)
  | pushEnd
  | pushFailure (error : BridgeError)
  | takeNext
  | cancel
  | setPaused (paused : Bool)
  | park (waiter : Variable)
  | parkWriter (waiter : Variable)
  | unpark
  deriving DecidableEq, Repr

/-- The queue refuses the operation, when it is a push: it returns `false` or nothing. -/
def ResponseStream.Refuses (s : ResponseStream) : QueueOp → Prop
  | .pushHead head => (s.pushHead head).1 = false
  | .pushChunk chunk => (s.pushChunk chunk).1 = false
  | .pushChunkWithinBudget bytes => (s.pushChunkWithinBudget bytes).1 = none
  | .pushChunkIfRoom chunk => (s.pushChunkIfRoom chunk).1 = none
  | .pushEnd => s.pushEnd.1 = false
  | .pushFailure error => (s.pushFailure error).1 = false
  | _ => True

namespace Tracked

/-- One operation. -/
def apply (t : Tracked) : QueueOp → Tracked
  | .pushHead head => t.push (.Head head)
  | .pushChunk chunk => t.push (.Chunk chunk)
  | .pushChunkWithinBudget bytes => t.pushWithinBudget bytes
  | .pushChunkIfRoom chunk => t.pushIfRoom chunk
  | .pushEnd => t.push .End
  | .pushFailure error => t.push (.Failed error)
  | .takeNext => t.takeNext
  | .cancel => t.cancel
  | .setPaused paused => t.setPaused paused
  | .park waiter => t.park waiter
  | .parkWriter waiter => t.parkWriter waiter
  | .unpark => t.unpark

/-- A finite sequence of operations. -/
def run (t : Tracked) (ops : List QueueOp) : Tracked := ops.foldl apply t

/-! ### Shut queues -/

variable {t : Tracked}

theorem push_of_shut (h : (t.stream.cancelled || t.stream.ended) = true) (x : StreamItem) :
    t.push x = t := by
  ext1
  simp [push, History.push, History.accept, ResponseStream.push_of_shut h]

theorem pushWithinBudget_of_shut (h : (t.stream.cancelled || t.stream.ended) = true) (b : Bytes) :
    t.pushWithinBudget b = t := by
  ext1
  simp [pushWithinBudget, History.pushWithinBudget, History.accept,
    ResponseStream.pushChunkWithinBudget_of_shut h]

theorem pushIfRoom_of_shut (h : (t.stream.cancelled || t.stream.ended) = true) (b : Bytes) :
    t.pushIfRoom b = t := by
  ext1
  simp [pushIfRoom, History.pushIfRoom, History.accept, ResponseStream.pushChunkIfRoom_of_shut h]

theorem refuses_of_shut {s : ResponseStream} (h : (s.cancelled || s.ended) = true) (op : QueueOp) :
    s.Refuses op := by
  cases op with
  | pushHead | pushChunk | pushEnd | pushFailure =>
    simp [ResponseStream.Refuses, ResponseStream.pushHead, ResponseStream.pushChunk,
      ResponseStream.pushEnd, ResponseStream.pushFailure, ResponseStream.push_of_shut h]
  | pushChunkWithinBudget b =>
    simp [ResponseStream.Refuses, ResponseStream.pushChunkWithinBudget_of_shut h]
  | pushChunkIfRoom b => simp [ResponseStream.Refuses, ResponseStream.pushChunkIfRoom_of_shut h]
  | _ => trivial

theorem apply_accepted_of_shut (h : (t.stream.cancelled || t.stream.ended) = true) (op : QueueOp) :
    (t.apply op).accepted = t.accepted := by
  cases op with
  | pushHead | pushChunk | pushEnd | pushFailure => simp only [apply, push_of_shut h]
  | pushChunkWithinBudget b => simp only [apply, pushWithinBudget_of_shut h]
  | pushChunkIfRoom b => simp only [apply, pushIfRoom_of_shut h]
  | _ => rfl

/-- Only a cancel cancels the queue, and for good. -/
theorem apply_cancelled (t : Tracked) (op : QueueOp) :
    (t.apply op).stream.cancelled = (t.stream.cancelled || op == .cancel) := by
  cases op with
  | cancel => simp [apply, cancel, History.cancel, ResponseStreamInner.cancel]
  | setPaused p => simp [apply, setPaused, History.mark, ResponseStreamInner.setPaused]
  | unpark => simp [apply, unpark, History.mark]
  | park w => simp [apply, park, History.mark]
  | parkWriter w => simp [apply, parkWriter, History.mark]
  | takeNext => simp [apply, takeNext, History.takeNext]
  | pushChunkWithinBudget b => simp [apply, pushWithinBudget, History.pushWithinBudget]
  | pushChunkIfRoom b => simp [apply, pushIfRoom, History.pushIfRoom]
  | pushHead | pushChunk | pushEnd | pushFailure => simp [apply, push, History.push]

theorem run_cancelled (t : Tracked) (ops : List QueueOp) :
    (t.run ops).stream.cancelled = (t.stream.cancelled || ops.contains .cancel) := by
  induction ops generalizing t with
  | nil => simp [run]
  | cons op ops ih =>
    have h := ih (t.apply op)
    rw [apply_cancelled, Bool.or_assoc] at h
    rw [List.contains_cons, Bool.beq_comm]
    exact h

/-- **The queue conserves its items.** After every sequence of operations: the counter is the
number of queued bytes, which the next subtraction does not exceed; until a cancel, the items taken
followed by the items queued are the accepted ones in order; at most one accepted item is an `End`
or a `Failed`, and nothing is accepted after it; and from a cancel on the queue is empty and
refuses every push. -/
theorem queue_conserves (m : ℕ) (ops : List QueueOp) :
    let t := (new m).run ops
    t.stream.bufferedBytes = (t.stream.items.map fun x => x.bytes.length).sum ∧
    (∀ x rest, t.stream.items = x :: rest → x.bytes.length ≤ t.stream.bufferedBytes) ∧
    (.cancel ∉ ops → t.taken ++ t.stream.items = t.accepted) ∧
    (t.accepted.countP StreamItem.terminal ≤ 1 ∧
      (∀ before x after, t.accepted = before ++ x :: after → x.terminal = true → after = []) ∧
      (t.accepted.any StreamItem.terminal = true →
        ∀ op, t.stream.Refuses op ∧ (t.apply op).accepted = t.accepted)) ∧
    (.cancel ∈ ops → t.stream.items = [] ∧ t.stream.bufferedBytes = 0 ∧
      ∀ op, t.stream.Refuses op ∧ (t.apply op).accepted = t.accepted) := by
  intro t
  have hcancel : t.stream.cancelled = ops.contains .cancel := by
    have h := run_cancelled (new m) ops
    rwa [show (new m).stream.cancelled = false from rfl, Bool.false_or] at h
  refine ⟨?_, fun x rest hx => t.stream.wf.size_le hx, fun hc => ?_, ⟨?_, ?_, ?_⟩, fun hc => ?_⟩
  · rw [t.bytes_eq, bodyOf, List.length_flatMap]
  · exact t.conserve (by rw [hcancel]; simpa using hc)
  · exact t.accepted_sealed.countP_le_one
  · intro before x after h hx
    have hs := t.accepted_sealed
    rw [h] at hs
    exact hs.nil_of_append_cons hx
  · intro ha op
    have hshut : (t.stream.cancelled || t.stream.ended) = true := by
      rw [← t.any_terminal, ha, Bool.or_true]
    exact ⟨refuses_of_shut hshut op, apply_accepted_of_shut hshut op⟩
  · have hcan : t.stream.cancelled = true := by rw [hcancel]; simpa using hc
    have hnil := t.stream.wf.cancelled hcan
    have hshut : (t.stream.cancelled || t.stream.ended) = true := by rw [hcan, Bool.true_or]
    refine ⟨hnil, ?_, fun op => ⟨refuses_of_shut hshut op, apply_accepted_of_shut hshut op⟩⟩
    rw [t.bytes_eq, hnil]
    rfl

end Tracked

end Ruvoy
