import Ruvoy.Lib.Ledger

/-!
# The chunk queue between the Ruby thread and an Envoy worker

`ResponseStream` of `src/stream.rs`: a queue of items under one lock, bounded by buffered bytes,
with a flag for each of cancelled, ended and paused, and one slot for the variable a waiting fiber
is parked on. Every operation below is one lock acquisition. The operations are first written on
the fields the lock protects (`ResponseStreamInner`); a `ResponseStream` is such a record with the
proof that the byte counter, the flags and the items agree.

* `Head`, `Chunk`, `End`, `Failed`: the items, with `bodyOf`, the bytes of a list of them;
* `ResponseStreamInner.Wf`: the agreement, kept by `push`, `pushChunkWithinBudget`,
  `pushChunkIfRoom`, `takeNext`, `cancel`, `park`, `parkWriter`, `unpark` and `setPaused`;
* `ResponseStream`: the bundled queue.
-/

set_option autoImplicit false

namespace Ruvoy

/-- `Vec<u8>`. -/
abbrev Bytes : Type := List UInt8

/-- The identity of an `Async::Variable`, which the queue holds as an opaque handle. -/
abbrev Variable : Type := ℕ

/-- Everything that can go wrong between a producer thread and the Ruby runtime. -/
inductive BridgeError
  | Io (message : String)
  | Spawn (message : String)
  | Startup (message : String)
  | Ruby (message : String)
  | InvalidResponse (message : String)
  | Overloaded
  | RuntimeStopped
  | ResponseTimeout
  | RuntimePanicked (message : String)
  | Upstream (message : String)
  | UpstreamTooLarge (message : String)
  | UpstreamOverflow (message : String)
  deriving DecidableEq, Repr

/-- `BridgeError` as it is displayed, and sent to the client in a local reply. -/
def BridgeError.display : BridgeError → String
  | .Io message => s!"bridge I/O error: {message}"
  | .Spawn message => s!"failed to spawn Ruby runtime thread: {message}"
  | .Startup message => s!"Ruby runtime startup failed: {message}"
  | .Ruby message => s!"Ruby call failed: {message}"
  | .InvalidResponse message => s!"invalid Rack-like response: {message}"
  | .Overloaded => "Ruby runtime admission limit reached"
  | .RuntimeStopped => "Ruby runtime has stopped"
  | .ResponseTimeout => "timed out waiting for Ruby runtime"
  | .RuntimePanicked message => s!"Ruby runtime panicked: {message}"
  | .Upstream message => s!"upstream call failed: {message}"
  | .UpstreamTooLarge message => s!"upstream response too large: {message}"
  | .UpstreamOverflow message => s!"upstream stream overflowed: {message}"

/-- The response head, published before the body has been produced. -/
structure ResponseHead where
  status : ℕ
  headers : List (String × String)
  rubyThreadObjectId : ℕ
  deriving DecidableEq, Repr

/-- What the Envoy worker still has to send downstream. -/
inductive StreamItem
  | Head (head : ResponseHead)
  | Chunk (bytes : Bytes)
  | End
  | Failed (error : BridgeError)
  deriving DecidableEq, Repr

/-! ## Items -/

/-- Nothing follows this item. -/
def StreamItem.terminal : StreamItem → Bool
  | .End | .Failed _ => true
  | .Head _ | .Chunk _ => false

def StreamItem.isHead : StreamItem → Bool
  | .Head _ => true
  | _ => false

/-- The body bytes of an item. -/
def StreamItem.bytes : StreamItem → Bytes
  | .Chunk bytes => bytes
  | _ => []

/-- The body bytes of a list of items, in order. -/
def bodyOf (items : List StreamItem) : Bytes := items.flatMap StreamItem.bytes

@[simp] theorem bodyOf_nil : bodyOf [] = [] := rfl

@[simp] theorem bodyOf_cons (x : StreamItem) (xs : List StreamItem) :
    bodyOf (x :: xs) = x.bytes ++ bodyOf xs := rfl

@[simp] theorem bodyOf_append (xs ys : List StreamItem) :
    bodyOf (xs ++ ys) = bodyOf xs ++ bodyOf ys := List.flatMap_append

@[simp] theorem bytes_head (h : ResponseHead) : (StreamItem.Head h).bytes = [] := rfl
@[simp] theorem bytes_chunk (b : Bytes) : (StreamItem.Chunk b).bytes = b := rfl
@[simp] theorem bytes_end : StreamItem.End.bytes = [] := rfl
@[simp] theorem bytes_failed (e : BridgeError) : (StreamItem.Failed e).bytes = [] := rfl

@[simp] theorem terminal_head (h : ResponseHead) : (StreamItem.Head h).terminal = false := rfl
@[simp] theorem terminal_chunk (b : Bytes) : (StreamItem.Chunk b).terminal = false := rfl
@[simp] theorem terminal_end : StreamItem.End.terminal = true := rfl
@[simp] theorem terminal_failed (e : BridgeError) : (StreamItem.Failed e).terminal = true := rfl

/-! ## The fields under the lock -/

/-- What the lock of a `ResponseStream` protects. -/
structure ResponseStreamInner where
  items : List StreamItem := []
  bufferedBytes : ℕ := 0
  cancelled : Bool := false
  ended : Bool := false
  paused : Bool := false
  waiter : Option Variable := none
  deriving DecidableEq, Repr

namespace ResponseStreamInner

variable (s : ResponseStreamInner)

def cancel : ResponseStreamInner := { s with cancelled := true, items := [], bufferedBytes := 0 }

/-- Park a reading fiber, unless a read would not have to wait. -/
def park (waiter : Variable) : Bool × ResponseStreamInner :=
  if s.bufferedBytes > 0 || s.ended || s.cancelled then (false, s)
  else (true, { s with waiter := some waiter })

/-- Take the parked fiber's handle, if any. -/
def unpark : Option Variable × ResponseStreamInner := (s.waiter, { s with waiter := none })

def full (maxBufferedBytes : ℕ) : Bool := s.paused || decide (s.bufferedBytes ≥ maxBufferedBytes)

/-- Park a writing fiber, unless a write would not have to wait. -/
def parkWriter (maxBufferedBytes : ℕ) (waiter : Variable) : Bool × ResponseStreamInner :=
  if s.cancelled || !s.full maxBufferedBytes then (false, s)
  else (true, { s with waiter := some waiter })

def writerOwedWakeup (maxBufferedBytes : ℕ) : Bool :=
  s.waiter.isSome && (s.cancelled || !s.full maxBufferedBytes)

def isFinished : Bool := s.cancelled || (s.ended && s.bufferedBytes == 0)

def setPaused (paused : Bool) : ResponseStreamInner := { s with paused := paused }

def spareCapacity (maxBufferedBytes : ℕ) : ℕ := maxBufferedBytes - s.bufferedBytes

def push (item : StreamItem) : Bool × ResponseStreamInner :=
  if s.cancelled || s.ended then (false, s)
  else
    let s := match item with
      | .Chunk chunk => { s with bufferedBytes := s.bufferedBytes + chunk.length }
      | .End | .Failed _ => { s with ended := true }
      | .Head _ => s
    (true, { s with items := s.items ++ [item] })

/-- Queue as much of `bytes` as there is room for; the number of bytes taken. -/
def pushChunkWithinBudget (maxBufferedBytes : ℕ) (bytes : Bytes) :
    Option ℕ × ResponseStreamInner :=
  if s.cancelled || s.ended then (none, s)
  else
    let taken := min bytes.length (maxBufferedBytes - s.bufferedBytes)
    if taken > 0 then
      (some taken, { s with
        bufferedBytes := s.bufferedBytes + taken
        items := s.items ++ [.Chunk (bytes.take taken)] })
    else (some taken, s)

/-- Queue `chunk` whole if it fits the budget or the queue holds no bytes. -/
def pushChunkIfRoom (maxBufferedBytes : ℕ) (chunk : Bytes) : Option Bool × ResponseStreamInner :=
  if s.cancelled || s.ended then (none, s)
  else
    let room := maxBufferedBytes - s.bufferedBytes
    if s.bufferedBytes > 0 && chunk.length > room then (some false, s)
    else (some true, { s with
      bufferedBytes := s.bufferedBytes + chunk.length
      items := s.items ++ [.Chunk chunk] })

/-- Take the next item, unless the downstream is paused. -/
def takeNext : Option StreamItem × ResponseStreamInner :=
  if s.paused then (none, s)
  else match s.items with
    | [] => (none, s)
    | item :: rest =>
      let s := { s with items := rest }
      match item with
      | .Chunk chunk => (some item, { s with bufferedBytes := s.bufferedBytes - chunk.length })
      | _ => (some item, s)

/-! ## The two ways the items change -/

/-- One more item at the back of an open queue. -/
def append (x : StreamItem) : ResponseStreamInner :=
  { s with
    items := s.items ++ [x]
    bufferedBytes := s.bufferedBytes + x.bytes.length
    ended := x.terminal }

/-- The oldest item is gone and `rest` is left. -/
def tail (x : StreamItem) (rest : List StreamItem) : ResponseStreamInner :=
  { s with items := rest, bufferedBytes := s.bufferedBytes - x.bytes.length }

@[simp] theorem append_items (x : StreamItem) : (s.append x).items = s.items ++ [x] := rfl
@[simp] theorem append_bytes (x : StreamItem) :
    (s.append x).bufferedBytes = s.bufferedBytes + x.bytes.length := rfl
@[simp] theorem append_cancelled (x : StreamItem) : (s.append x).cancelled = s.cancelled := rfl
@[simp] theorem append_ended (x : StreamItem) : (s.append x).ended = x.terminal := rfl
@[simp] theorem append_paused (x : StreamItem) : (s.append x).paused = s.paused := rfl
@[simp] theorem append_waiter (x : StreamItem) : (s.append x).waiter = s.waiter := rfl

@[simp] theorem tail_items (x : StreamItem) (r : List StreamItem) : (s.tail x r).items = r := rfl
@[simp] theorem tail_bytes (x : StreamItem) (r : List StreamItem) :
    (s.tail x r).bufferedBytes = s.bufferedBytes - x.bytes.length := rfl
@[simp] theorem tail_cancelled (x : StreamItem) (r : List StreamItem) :
    (s.tail x r).cancelled = s.cancelled := rfl
@[simp] theorem tail_ended (x : StreamItem) (r : List StreamItem) : (s.tail x r).ended = s.ended := rfl
@[simp] theorem tail_paused (x : StreamItem) (r : List StreamItem) :
    (s.tail x r).paused = s.paused := rfl
@[simp] theorem tail_waiter (x : StreamItem) (r : List StreamItem) :
    (s.tail x r).waiter = s.waiter := rfl

/-! ## The fields agree -/

/-- The byte counter counts the queued bytes, a cancelled queue is empty, and an item nothing
follows is queued last and only in a queue that has ended. -/
structure Wf : Prop where
  bytes : s.bufferedBytes = (bodyOf s.items).length
  cancelled : s.cancelled = true → s.items = []
  ended : s.items.any StreamItem.terminal = true → s.ended = true
  last : Fifo.Sealed StreamItem.terminal s.items

variable {s}

theorem Wf.init : Wf {} := ⟨rfl, fun _ => rfl, by rintro ⟨⟩, Fifo.sealed_nil⟩

theorem Wf.cancel (_ : s.Wf) : s.cancel.Wf := ⟨rfl, fun _ => rfl, by rintro ⟨⟩, Fifo.sealed_nil⟩

theorem Wf.waiter (h : s.Wf) (w : Option Variable) : Wf { s with waiter := w } :=
  ⟨h.bytes, h.cancelled, h.ended, h.last⟩

theorem Wf.setPaused (h : s.Wf) (p : Bool) : (s.setPaused p).Wf :=
  ⟨h.bytes, h.cancelled, h.ended, h.last⟩

theorem Wf.append (h : s.Wf) (hc : s.cancelled = false) (he : s.ended = false) (x : StreamItem) :
    (s.append x).Wf := by
  have ha : s.items.any StreamItem.terminal = false := by
    by_contra hn
    have := h.ended (by simpa using hn)
    rw [he] at this
    exact Bool.noConfusion this
  refine ⟨?_, ?_, ?_, Fifo.sealed_concat ha x⟩
  · simp [ResponseStreamInner.append, h.bytes]
  · intro hc'
    have : s.cancelled = true := hc'
    rw [hc] at this
    exact Bool.noConfusion this
  · intro hx
    simp only [ResponseStreamInner.append] at hx ⊢
    rw [List.any_append, ha, Bool.false_or] at hx
    simpa using hx

theorem push_of_open (hc : s.cancelled = false) (he : s.ended = false) (x : StreamItem) :
    s.push x = (true, s.append x) := by
  have hs : (s.cancelled || s.ended) = false := by simp [hc, he]
  simp only [push, hs]
  cases x <;> simp [append, he]

theorem push_of_shut (h : (s.cancelled || s.ended) = true) (x : StreamItem) : s.push x = (false, s) := by
  simp [push, h]

theorem open_of_not_shut (h : ¬ (s.cancelled || s.ended) = true) :
    s.cancelled = false ∧ s.ended = false := by
  simpa using h

theorem Wf.push (h : s.Wf) (x : StreamItem) : (s.push x).2.Wf := by
  by_cases hs : (s.cancelled || s.ended) = true
  · rw [push_of_shut hs]
    exact h
  · obtain ⟨hc, he⟩ := open_of_not_shut hs
    rw [push_of_open hc he]
    exact h.append hc he x

theorem pushChunkWithinBudget_of_shut (h : (s.cancelled || s.ended) = true) (m : ℕ) (b : Bytes) :
    s.pushChunkWithinBudget m b = (none, s) := by
  simp [pushChunkWithinBudget, h]

/-- An open queue takes what it has room for, and queues it unless that is nothing. -/
theorem pushChunkWithinBudget_of_open (hc : s.cancelled = false) (he : s.ended = false) (m : ℕ)
    (b : Bytes) :
    s.pushChunkWithinBudget m b =
      (some (min b.length (s.spareCapacity m)),
        if 0 < min b.length (s.spareCapacity m) then
          s.append (.Chunk (b.take (min b.length (s.spareCapacity m)))) else s) := by
  have hs : ¬ (s.cancelled || s.ended) = true := by simp [hc, he]
  unfold pushChunkWithinBudget
  rw [if_neg hs]
  by_cases hn : 0 < min b.length (s.spareCapacity m)
  · have hn' : min b.length (m - s.bufferedBytes) > 0 := hn
    rw [if_pos hn]
    simp only [if_pos hn', append, he, terminal_chunk, bytes_chunk, List.length_take, spareCapacity]
    simp [min_comm]
  · have hn' : ¬ min b.length (m - s.bufferedBytes) > 0 := hn
    rw [if_neg hn]
    simp only [if_neg hn', spareCapacity]

theorem pushChunkIfRoom_of_shut (h : (s.cancelled || s.ended) = true) (m : ℕ) (b : Bytes) :
    s.pushChunkIfRoom m b = (none, s) := by
  simp [pushChunkIfRoom, h]

/-- An open queue takes a delivery whole or refuses it whole. -/
theorem pushChunkIfRoom_of_open (hc : s.cancelled = false) (he : s.ended = false) (m : ℕ) (b : Bytes) :
    s.pushChunkIfRoom m b =
      if s.bufferedBytes > 0 ∧ b.length > s.spareCapacity m then (some false, s)
      else (some true, s.append (.Chunk b)) := by
  have hs : ¬ (s.cancelled || s.ended) = true := by simp [hc, he]
  unfold pushChunkIfRoom
  rw [if_neg hs]
  simp only [Bool.and_eq_true, decide_eq_true_eq]
  by_cases hn : s.bufferedBytes > 0 ∧ b.length > s.spareCapacity m
  · rw [if_pos hn]
    exact if_pos hn
  · rw [if_neg hn]
    refine (if_neg hn).trans ?_
    simp only [append, he, terminal_chunk, bytes_chunk]

theorem Wf.pushChunkWithinBudget (h : s.Wf) (m : ℕ) (b : Bytes) :
    (s.pushChunkWithinBudget m b).2.Wf := by
  by_cases hs : (s.cancelled || s.ended) = true
  · rw [pushChunkWithinBudget_of_shut hs]
    exact h
  · obtain ⟨hc, he⟩ := open_of_not_shut hs
    rw [pushChunkWithinBudget_of_open hc he]
    simp only
    split_ifs
    · exact h.append hc he _
    · exact h

theorem Wf.pushChunkIfRoom (h : s.Wf) (m : ℕ) (b : Bytes) : (s.pushChunkIfRoom m b).2.Wf := by
  by_cases hs : (s.cancelled || s.ended) = true
  · rw [pushChunkIfRoom_of_shut hs]
    exact h
  · obtain ⟨hc, he⟩ := open_of_not_shut hs
    rw [pushChunkIfRoom_of_open hc he]
    split_ifs
    · exact h
    · exact h.append hc he _

theorem takeNext_of_cons (hp : s.paused = false) {x : StreamItem} {rest : List StreamItem}
    (hi : s.items = x :: rest) :
    s.takeNext = (some x, s.tail x rest) := by
  cases x <;> simp [takeNext, tail, hp, hi]

theorem takeNext_of_paused (hp : s.paused = true) : s.takeNext = (none, s) := by
  simp [takeNext, hp]

theorem takeNext_of_nil (hi : s.items = []) : s.takeNext = (none, s) := by
  simp [takeNext, hi]

theorem Wf.tail (h : s.Wf) {x : StreamItem} {rest : List StreamItem} (hi : s.items = x :: rest) :
    (s.tail x rest).Wf := by
  refine ⟨?_, ?_, ?_, ?_⟩
  · simp [ResponseStreamInner.tail, h.bytes, hi]
  · intro hc
    rw [h.cancelled hc] at hi
    cases hi
  · intro hr
    have hr' : rest.any StreamItem.terminal = true := hr
    exact h.ended (by rw [hi, List.any_cons, hr', Bool.or_true])
  · intro y hy
    cases rest with
    | nil => cases hy
    | cons z r => exact h.last y (by rw [hi]; exact List.mem_cons_of_mem _ hy)

theorem Wf.takeNext (h : s.Wf) : s.takeNext.2.Wf := by
  cases hp : s.paused with
  | true => rw [takeNext_of_paused hp]; exact h
  | false =>
    cases hi : s.items with
    | nil => rw [takeNext_of_nil hi]; exact h
    | cons x rest => rw [takeNext_of_cons hp hi]; exact h.tail hi

/-- **The subtraction in `take_next` never saturates.** -/
theorem Wf.size_le (h : s.Wf) {x : StreamItem} {rest : List StreamItem} (hi : s.items = x :: rest) :
    x.bytes.length ≤ s.bufferedBytes := by
  rw [h.bytes, hi]
  simp

theorem Wf.park (h : s.Wf) (w : Variable) : (s.park w).2.Wf := by
  unfold ResponseStreamInner.park
  split_ifs
  · exact h
  · exact h.waiter _

theorem Wf.parkWriter (h : s.Wf) (m : ℕ) (w : Variable) : (s.parkWriter m w).2.Wf := by
  unfold ResponseStreamInner.parkWriter
  split_ifs
  · exact h
  · exact h.waiter _

end ResponseStreamInner

/-! ## The queue -/

/-- The queue: the fields under the lock, in agreement, and the byte budget. -/
structure ResponseStream extends inner : ResponseStreamInner where
  maxBufferedBytes : ℕ
  max_pos : 0 < maxBufferedBytes
  wf : inner.Wf

namespace ResponseStream

/-- A queue that holds at most `maxBufferedBytes` of body data. -/
def new (maxBufferedBytes : ℕ) : ResponseStream where
  inner := {}
  maxBufferedBytes := max maxBufferedBytes 1
  max_pos := by omega
  wf := .init

variable (s : ResponseStream)

/-- The same queue with other fields under the lock. -/
def update (t : ResponseStreamInner) (h : t.Wf) : ResponseStream :=
  ⟨t, s.maxBufferedBytes, s.max_pos, h⟩

def cancel : ResponseStream := s.update s.inner.cancel s.wf.cancel

def park (w : Variable) : Bool × ResponseStream :=
  ((s.inner.park w).1, s.update (s.inner.park w).2 (s.wf.park w))

def unpark : Option Variable × ResponseStream :=
  (s.inner.unpark.1, s.update s.inner.unpark.2 (s.wf.waiter none))

def full : Bool := s.inner.full s.maxBufferedBytes

def parkWriter (w : Variable) : Bool × ResponseStream :=
  ((s.inner.parkWriter s.maxBufferedBytes w).1,
    s.update (s.inner.parkWriter s.maxBufferedBytes w).2 (s.wf.parkWriter s.maxBufferedBytes w))

def writerOwedWakeup : Bool := s.inner.writerOwedWakeup s.maxBufferedBytes

def isFinished : Bool := s.inner.isFinished

def isCancelled : Bool := s.cancelled

def setPaused (p : Bool) : ResponseStream := s.update (s.inner.setPaused p) (s.wf.setPaused p)

def spareCapacity : ℕ := s.inner.spareCapacity s.maxBufferedBytes

/-- The producer must wait. -/
def isSaturated : Bool := s.full

def push (item : StreamItem) : Bool × ResponseStream :=
  ((s.inner.push item).1, s.update (s.inner.push item).2 (s.wf.push item))

def pushHead (head : ResponseHead) : Bool × ResponseStream := s.push (.Head head)
def pushChunk (chunk : Bytes) : Bool × ResponseStream := s.push (.Chunk chunk)
def pushEnd : Bool × ResponseStream := s.push .End
def pushFailure (error : BridgeError) : Bool × ResponseStream := s.push (.Failed error)

def pushChunkWithinBudget (bytes : Bytes) : Option ℕ × ResponseStream :=
  ((s.inner.pushChunkWithinBudget s.maxBufferedBytes bytes).1,
    s.update (s.inner.pushChunkWithinBudget s.maxBufferedBytes bytes).2
      (s.wf.pushChunkWithinBudget s.maxBufferedBytes bytes))

def pushChunkIfRoom (chunk : Bytes) : Option Bool × ResponseStream :=
  ((s.inner.pushChunkIfRoom s.maxBufferedBytes chunk).1,
    s.update (s.inner.pushChunkIfRoom s.maxBufferedBytes chunk).2
      (s.wf.pushChunkIfRoom s.maxBufferedBytes chunk))

def takeNext : Option StreamItem × ResponseStream :=
  (s.inner.takeNext.1, s.update s.inner.takeNext.2 s.wf.takeNext)

/-! ### What each operation does, case by case -/

variable {s}

@[simp] theorem update_inner (t : ResponseStreamInner) (h : t.Wf) : (s.update t h).inner = t := rfl

@[simp] theorem update_max (t : ResponseStreamInner) (h : t.Wf) :
    (s.update t h).maxBufferedBytes = s.maxBufferedBytes := rfl

@[simp] theorem update_self : s.update s.inner s.wf = s := rfl

theorem push_of_open (hc : s.cancelled = false) (he : s.ended = false) (x : StreamItem) :
    (s.push x).1 = true ∧ (s.push x).2.inner = s.inner.append x := by
  simp only [push, ResponseStreamInner.push_of_open hc he, update_inner, and_self]

theorem push_of_shut (h : (s.cancelled || s.ended) = true) (x : StreamItem) :
    s.push x = (false, s) := by
  simp only [push, ResponseStreamInner.push_of_shut h, update_self]

theorem pushChunkWithinBudget_of_shut (h : (s.cancelled || s.ended) = true) (b : Bytes) :
    s.pushChunkWithinBudget b = (none, s) := by
  simp only [pushChunkWithinBudget, ResponseStreamInner.pushChunkWithinBudget_of_shut h, update_self]

theorem pushChunkWithinBudget_of_open (hc : s.cancelled = false) (he : s.ended = false) (b : Bytes) :
    (s.pushChunkWithinBudget b).1 = some (min b.length s.spareCapacity) ∧
      (s.pushChunkWithinBudget b).2.inner =
        if 0 < min b.length s.spareCapacity then
          s.inner.append (.Chunk (b.take (min b.length s.spareCapacity))) else s.inner := by
  simp only [pushChunkWithinBudget, ResponseStreamInner.pushChunkWithinBudget_of_open hc he,
    update_inner, spareCapacity]
  exact ⟨trivial, rfl⟩

theorem pushChunkIfRoom_of_shut (h : (s.cancelled || s.ended) = true) (b : Bytes) :
    s.pushChunkIfRoom b = (none, s) := by
  simp only [pushChunkIfRoom, ResponseStreamInner.pushChunkIfRoom_of_shut h, update_self]

theorem pushChunkIfRoom_of_open (hc : s.cancelled = false) (he : s.ended = false) (b : Bytes) :
    s.pushChunkIfRoom b = (some false, s) ∨
      (s.pushChunkIfRoom b).1 = some true ∧
        (s.pushChunkIfRoom b).2.inner = s.inner.append (.Chunk b) := by
  simp only [pushChunkIfRoom, ResponseStreamInner.pushChunkIfRoom_of_open hc he]
  split_ifs
  · exact Or.inl rfl
  · exact Or.inr ⟨rfl, rfl⟩

theorem takeNext_of_cons (hp : s.paused = false) {x : StreamItem} {rest : List StreamItem}
    (hi : s.items = x :: rest) :
    s.takeNext.1 = some x ∧ s.takeNext.2.inner = s.inner.tail x rest := by
  simp only [takeNext, ResponseStreamInner.takeNext_of_cons hp hi, update_inner, and_self]

theorem takeNext_of_idle (h : s.paused = true ∨ s.items = []) : s.takeNext = (none, s) := by
  rcases h with hp | hi
  · simp only [takeNext, ResponseStreamInner.takeNext_of_paused hp, update_self]
  · simp only [takeNext, ResponseStreamInner.takeNext_of_nil hi, update_self]

/-- A take gives nothing and changes nothing, or gives the oldest item of an unpaused queue. -/
theorem takeNext_cases (s : ResponseStream) :
    ((s.paused = true ∨ s.items = []) ∧ s.takeNext = (none, s)) ∨
      ∃ x rest, s.paused = false ∧ s.items = x :: rest ∧ s.takeNext.1 = some x ∧
        s.takeNext.2.inner = s.inner.tail x rest := by
  by_cases h : s.paused = true ∨ s.items = []
  · exact Or.inl ⟨h, takeNext_of_idle h⟩
  · push Not at h
    obtain ⟨hp, hne⟩ := h
    obtain ⟨x, rest, hx⟩ := List.exists_cons_of_ne_nil hne
    have hp' : s.paused = false := by simpa using hp
    exact Or.inr ⟨x, rest, hp', hx, takeNext_of_cons hp' hx⟩

theorem push_cases (s : ResponseStream) (x : StreamItem) :
    ((s.cancelled || s.ended) = true ∧ s.push x = (false, s)) ∨
      (s.cancelled = false ∧ s.ended = false ∧ (s.push x).1 = true ∧
        (s.push x).2.inner = s.inner.append x) := by
  by_cases h : (s.cancelled || s.ended) = true
  · exact Or.inl ⟨h, push_of_shut h x⟩
  · obtain ⟨hc, he⟩ := ResponseStreamInner.open_of_not_shut h
    exact Or.inr ⟨hc, he, push_of_open hc he x⟩

/-- The slice a push within the budget takes, when it takes one. -/
theorem pushChunkWithinBudget_cases (s : ResponseStream) (b : Bytes) :
    (((s.pushChunkWithinBudget b).1 = none ∧ (s.cancelled || s.ended) = true ∨
        (s.pushChunkWithinBudget b).1 = some 0) ∧ (s.pushChunkWithinBudget b).2.inner = s.inner) ∨
      ∃ n, 0 < n ∧ n ≤ s.spareCapacity ∧ n ≤ b.length ∧ s.cancelled = false ∧ s.ended = false ∧
        (s.pushChunkWithinBudget b).1 = some n ∧
        (s.pushChunkWithinBudget b).2.inner = s.inner.append (.Chunk (b.take n)) := by
  by_cases h : (s.cancelled || s.ended) = true
  · rw [pushChunkWithinBudget_of_shut h]
    exact Or.inl ⟨Or.inl ⟨rfl, h⟩, rfl⟩
  · obtain ⟨hc, he⟩ := ResponseStreamInner.open_of_not_shut h
    obtain ⟨hn, hin⟩ := pushChunkWithinBudget_of_open hc he b
    by_cases hp : 0 < min b.length s.spareCapacity
    · rw [if_pos hp] at hin
      exact Or.inr ⟨_, hp, min_le_right _ _, min_le_left _ _, hc, he, hn, hin⟩
    · rw [if_neg hp] at hin
      have h0 : min b.length s.spareCapacity = 0 := by omega
      exact Or.inl ⟨Or.inr (h0 ▸ hn), hin⟩

theorem pushChunkIfRoom_cases (s : ResponseStream) (b : Bytes) :
    (((s.pushChunkIfRoom b).1 = none ∧ (s.cancelled || s.ended) = true ∨
        (s.pushChunkIfRoom b).1 = some false ∧ s.cancelled = false ∧ s.ended = false) ∧
      (s.pushChunkIfRoom b).2 = s) ∨
      (s.cancelled = false ∧ s.ended = false ∧ (s.pushChunkIfRoom b).1 = some true ∧
        (s.pushChunkIfRoom b).2.inner = s.inner.append (.Chunk b)) := by
  by_cases h : (s.cancelled || s.ended) = true
  · rw [pushChunkIfRoom_of_shut h]
    exact Or.inl ⟨Or.inl ⟨rfl, h⟩, rfl⟩
  · obtain ⟨hc, he⟩ := ResponseStreamInner.open_of_not_shut h
    rcases pushChunkIfRoom_of_open hc he b with hf | ⟨hok, hin⟩
    · rw [hf]
      exact Or.inl ⟨Or.inr ⟨rfl, hc, he⟩, rfl⟩
    · exact Or.inr ⟨hc, he, hok, hin⟩

/-- A reader parks only where a read would wait. -/
theorem park_cases (s : ResponseStream) (w : Variable) :
    ((s.bufferedBytes > 0 ∨ s.ended = true ∨ s.cancelled = true) ∧ s.park w = (false, s)) ∨
      (s.bufferedBytes = 0 ∧ s.ended = false ∧ s.cancelled = false ∧ (s.park w).1 = true ∧
        (s.park w).2.inner = { s.inner with waiter := some w }) := by
  simp only [park, ResponseStreamInner.park]
  split_ifs with h
  · simp only [Bool.or_eq_true, decide_eq_true_eq, or_assoc] at h
    exact Or.inl ⟨h, rfl⟩
  · simp only [Bool.or_eq_true, decide_eq_true_eq, not_or, Bool.not_eq_true] at h
    exact Or.inr ⟨by omega, h.1.2, h.2, rfl, rfl⟩

/-- A writer parks only where a write would wait. -/
theorem parkWriter_cases (s : ResponseStream) (w : Variable) :
    ((s.cancelled = true ∨ s.full = false) ∧ s.parkWriter w = (false, s)) ∨
      (s.cancelled = false ∧ s.full = true ∧ (s.parkWriter w).1 = true ∧
        (s.parkWriter w).2.inner = { s.inner with waiter := some w }) := by
  simp only [parkWriter, ResponseStreamInner.parkWriter, full]
  split_ifs with h
  · simp only [Bool.or_eq_true, Bool.not_eq_true'] at h
    exact Or.inl ⟨h, rfl⟩
  · simp only [Bool.or_eq_true, Bool.not_eq_true', not_or, Bool.not_eq_true, Bool.not_eq_false] at h
    exact Or.inr ⟨h.1, h.2, rfl, rfl⟩

/-! ### What no operation of a kind changes -/

@[simp] theorem cancel_inner : s.cancel.inner = s.inner.cancel := rfl
@[simp] theorem setPaused_inner (p : Bool) : (s.setPaused p).inner = s.inner.setPaused p := rfl
@[simp] theorem unpark_fst : s.unpark.1 = s.waiter := rfl
@[simp] theorem unpark_inner : s.unpark.2.inner = { s.inner with waiter := none } := rfl

@[simp] theorem push_max (x : StreamItem) : (s.push x).2.maxBufferedBytes = s.maxBufferedBytes := rfl
@[simp] theorem takeNext_max : s.takeNext.2.maxBufferedBytes = s.maxBufferedBytes := rfl
@[simp] theorem cancel_max : s.cancel.maxBufferedBytes = s.maxBufferedBytes := rfl
@[simp] theorem setPaused_max (p : Bool) :
    (s.setPaused p).maxBufferedBytes = s.maxBufferedBytes := rfl
@[simp] theorem unpark_max : s.unpark.2.maxBufferedBytes = s.maxBufferedBytes := rfl
@[simp] theorem park_max (w : Variable) :
    (s.park w).2.maxBufferedBytes = s.maxBufferedBytes := rfl
@[simp] theorem parkWriter_max (w : Variable) :
    (s.parkWriter w).2.maxBufferedBytes = s.maxBufferedBytes := rfl
@[simp] theorem pushChunkWithinBudget_max (b : Bytes) :
    (s.pushChunkWithinBudget b).2.maxBufferedBytes = s.maxBufferedBytes := rfl
@[simp] theorem pushChunkIfRoom_max (b : Bytes) :
    (s.pushChunkIfRoom b).2.maxBufferedBytes = s.maxBufferedBytes := rfl

theorem push_frame (x : StreamItem) : (s.push x).2.cancelled = s.cancelled ∧
    (s.push x).2.paused = s.paused ∧ (s.push x).2.waiter = s.waiter := by
  rcases s.push_cases x with ⟨_, h⟩ | ⟨_, _, _, h⟩ <;> simp [h]

@[simp] theorem push_cancelled (x : StreamItem) : (s.push x).2.cancelled = s.cancelled :=
  (push_frame x).1
@[simp] theorem push_paused (x : StreamItem) : (s.push x).2.paused = s.paused := (push_frame x).2.1
@[simp] theorem push_waiter (x : StreamItem) : (s.push x).2.waiter = s.waiter := (push_frame x).2.2

theorem pushChunkWithinBudget_frame (b : Bytes) :
    (s.pushChunkWithinBudget b).2.cancelled = s.cancelled ∧
      (s.pushChunkWithinBudget b).2.paused = s.paused ∧
      (s.pushChunkWithinBudget b).2.waiter = s.waiter ∧
      (s.pushChunkWithinBudget b).2.ended = s.ended := by
  rcases s.pushChunkWithinBudget_cases b with ⟨_, h⟩ | ⟨n, _, _, _, _, he, _, h⟩
  · simp [h]
  · simp [h, he]

@[simp] theorem pushChunkWithinBudget_cancelled (b : Bytes) :
    (s.pushChunkWithinBudget b).2.cancelled = s.cancelled := (pushChunkWithinBudget_frame b).1
@[simp] theorem pushChunkWithinBudget_paused (b : Bytes) :
    (s.pushChunkWithinBudget b).2.paused = s.paused := (pushChunkWithinBudget_frame b).2.1
@[simp] theorem pushChunkWithinBudget_waiter (b : Bytes) :
    (s.pushChunkWithinBudget b).2.waiter = s.waiter := (pushChunkWithinBudget_frame b).2.2.1
@[simp] theorem pushChunkWithinBudget_ended (b : Bytes) :
    (s.pushChunkWithinBudget b).2.ended = s.ended := (pushChunkWithinBudget_frame b).2.2.2

theorem pushChunkIfRoom_frame (b : Bytes) : (s.pushChunkIfRoom b).2.cancelled = s.cancelled ∧
    (s.pushChunkIfRoom b).2.paused = s.paused ∧ (s.pushChunkIfRoom b).2.waiter = s.waiter ∧
    (s.pushChunkIfRoom b).2.ended = s.ended := by
  rcases s.pushChunkIfRoom_cases b with ⟨_, h⟩ | ⟨_, he, _, h⟩
  · simp [h]
  · simp [h, he]

@[simp] theorem pushChunkIfRoom_cancelled (b : Bytes) :
    (s.pushChunkIfRoom b).2.cancelled = s.cancelled := (pushChunkIfRoom_frame b).1
@[simp] theorem pushChunkIfRoom_paused (b : Bytes) :
    (s.pushChunkIfRoom b).2.paused = s.paused := (pushChunkIfRoom_frame b).2.1
@[simp] theorem pushChunkIfRoom_waiter (b : Bytes) :
    (s.pushChunkIfRoom b).2.waiter = s.waiter := (pushChunkIfRoom_frame b).2.2.1
@[simp] theorem pushChunkIfRoom_ended (b : Bytes) :
    (s.pushChunkIfRoom b).2.ended = s.ended := (pushChunkIfRoom_frame b).2.2.2

theorem takeNext_frame : s.takeNext.2.cancelled = s.cancelled ∧ s.takeNext.2.paused = s.paused ∧
    s.takeNext.2.waiter = s.waiter ∧ s.takeNext.2.ended = s.ended := by
  rcases s.takeNext_cases with ⟨_, h⟩ | ⟨x, rest, _, _, _, h⟩ <;> simp [h]

@[simp] theorem takeNext_cancelled : s.takeNext.2.cancelled = s.cancelled := takeNext_frame.1
@[simp] theorem takeNext_paused : s.takeNext.2.paused = s.paused := takeNext_frame.2.1
@[simp] theorem takeNext_waiter : s.takeNext.2.waiter = s.waiter := takeNext_frame.2.2.1
@[simp] theorem takeNext_ended : s.takeNext.2.ended = s.ended := takeNext_frame.2.2.2

theorem park_frame (w : Variable) : (s.park w).2.items = s.items ∧
    (s.park w).2.bufferedBytes = s.bufferedBytes ∧ (s.park w).2.cancelled = s.cancelled ∧
    (s.park w).2.paused = s.paused ∧ (s.park w).2.ended = s.ended := by
  rcases s.park_cases w with ⟨_, h⟩ | ⟨_, _, _, _, h⟩ <;> simp [h]

@[simp] theorem park_items (w : Variable) : (s.park w).2.items = s.items := (park_frame w).1
@[simp] theorem park_bytes (w : Variable) : (s.park w).2.bufferedBytes = s.bufferedBytes :=
  (park_frame w).2.1
@[simp] theorem park_cancelled (w : Variable) : (s.park w).2.cancelled = s.cancelled :=
  (park_frame w).2.2.1
@[simp] theorem park_paused (w : Variable) : (s.park w).2.paused = s.paused := (park_frame w).2.2.2.1
@[simp] theorem park_ended (w : Variable) : (s.park w).2.ended = s.ended := (park_frame w).2.2.2.2

theorem parkWriter_frame (w : Variable) : (s.parkWriter w).2.items = s.items ∧
    (s.parkWriter w).2.bufferedBytes = s.bufferedBytes ∧ (s.parkWriter w).2.cancelled = s.cancelled ∧
    (s.parkWriter w).2.paused = s.paused ∧ (s.parkWriter w).2.ended = s.ended := by
  rcases s.parkWriter_cases w with ⟨_, h⟩ | ⟨_, _, _, h⟩ <;> simp [h]

@[simp] theorem parkWriter_items (w : Variable) : (s.parkWriter w).2.items = s.items :=
  (parkWriter_frame w).1
@[simp] theorem parkWriter_bytes (w : Variable) : (s.parkWriter w).2.bufferedBytes = s.bufferedBytes :=
  (parkWriter_frame w).2.1
@[simp] theorem parkWriter_cancelled (w : Variable) : (s.parkWriter w).2.cancelled = s.cancelled :=
  (parkWriter_frame w).2.2.1
@[simp] theorem parkWriter_paused (w : Variable) : (s.parkWriter w).2.paused = s.paused :=
  (parkWriter_frame w).2.2.2.1
@[simp] theorem parkWriter_ended (w : Variable) : (s.parkWriter w).2.ended = s.ended :=
  (parkWriter_frame w).2.2.2.2

end ResponseStream

end Ruvoy
