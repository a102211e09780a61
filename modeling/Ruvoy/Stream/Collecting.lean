import Ruvoy.Lib.Runs
import Ruvoy.Stream.Collect

/-!
# A response in one piece

`FiberRuntimeClient::call` and `submit_collected` of `src/fiber.rs`: the client of a response that is
to be had whole. Producers work on the response queue and then run the waker of its handle. With
`submit_collected` the waker itself takes the items, under a lock, and calls the completion; with
`call` it puts a token into a channel of one slot, and the caller takes the items.

* `Feed`, `produces`: the queue, and the producers that owe a wake;
* `Collected.response`: what the response comes to with its last item;
* `Collecting`, `collectStep`: `submit_collected`, and **`collected_once`**: the completion is called
  once at most, with the whole response, and is not forgotten;
* `Calling`, `callStep`: `call`, and **`call_collected`**: the whole response or its failure is
  returned, and the caller does not sleep on it.
-/

set_option autoImplicit false

namespace Ruvoy.Whole

open Runs

/-! ## The producers -/

/-- Producers neither take nor cancel nor pause. -/
def produces : QueueOp → Bool
  | .takeNext | .cancel | .setPaused _ => false
  | _ => true

/-- The response queue. -/
structure Feed where
  queue : Tracked
  /-- Producers between an operation that added an item and `handle.wake`. -/
  owing : ℕ := 0

namespace Feed

variable (f : Feed)

/-- `ResponseStream::new(usize::MAX)`. -/
def new : Feed where
  queue := .new (2 ^ 64 - 1)

def produce (op : QueueOp) : Feed where
  queue := f.queue.apply op
  owing := if (f.queue.apply op).accepted = f.queue.accepted then f.owing else f.owing + 1

def wake : Feed := { f with owing := f.owing - 1 }

def take : Feed := { f with queue := f.queue.takeNext }

/-- Nobody has cancelled or paused the queue. -/
def Ok : Prop := f.queue.stream.cancelled = false ∧ f.queue.stream.paused = false

end Feed

theorem apply_produces (q : Tracked) {op : QueueOp} (h : produces op = true) :
    (q.apply op).taken = q.taken ∧ (q.apply op).stream.cancelled = q.stream.cancelled ∧
      (q.apply op).stream.paused = q.stream.paused := by
  cases op with
  | takeNext | cancel | setPaused => cases h
  | pushHead x => exact ⟨rfl, ResponseStream.push_cancelled _, ResponseStream.push_paused _⟩
  | pushChunk x => exact ⟨rfl, ResponseStream.push_cancelled _, ResponseStream.push_paused _⟩
  | pushEnd => exact ⟨rfl, ResponseStream.push_cancelled _, ResponseStream.push_paused _⟩
  | pushFailure e => exact ⟨rfl, ResponseStream.push_cancelled _, ResponseStream.push_paused _⟩
  | pushChunkWithinBudget b =>
    exact ⟨rfl, ResponseStream.pushChunkWithinBudget_cancelled _,
      ResponseStream.pushChunkWithinBudget_paused _⟩
  | pushChunkIfRoom b =>
    exact ⟨rfl, ResponseStream.pushChunkIfRoom_cancelled _, ResponseStream.pushChunkIfRoom_paused _⟩
  | park w => exact ⟨rfl, ResponseStream.park_cancelled _, ResponseStream.park_paused _⟩
  | parkWriter w =>
    exact ⟨rfl, ResponseStream.parkWriter_cancelled _, ResponseStream.parkWriter_paused _⟩
  | unpark => exact ⟨rfl, rfl, rfl⟩

variable {f : Feed}

theorem Feed.Ok.produce (h : f.Ok) {op : QueueOp} (hop : produces op = true) : (f.produce op).Ok := by
  obtain ⟨-, hc, hp⟩ := apply_produces f.queue hop
  exact ⟨hc.trans h.1, hp.trans h.2⟩

theorem Feed.Ok.take (h : f.Ok) : f.take.Ok :=
  ⟨ResponseStream.takeNext_cancelled.trans h.1, ResponseStream.takeNext_paused.trans h.2⟩

theorem produce_taken {op : QueueOp} (hop : produces op = true) :
    (f.produce op).queue.taken = f.queue.taken :=
  (apply_produces f.queue hop).1

theorem produce_owes (h : f.Ok) {op : QueueOp} (hop : produces op = true) :
    (f.produce op).queue.stream.items = f.queue.stream.items ∧ (f.produce op).owing = f.owing ∨
      0 < (f.produce op).owing := by
  have htaken := produce_taken (f := f) hop
  have hitems := Tracked.conserve (h.produce hop).1
  by_cases hsame : (f.queue.apply op).accepted = f.queue.accepted
  · refine Or.inl ⟨?_, if_pos hsame⟩
    rw [htaken, show (f.produce op).queue.accepted = f.queue.accepted from hsame,
      ← Tracked.conserve h.1] at hitems
    exact List.append_cancel_left hitems
  · exact Or.inr (by rw [Feed.produce, if_neg hsame]; exact Nat.succ_pos _)

theorem take_cases (h : f.Ok) :
    (f.queue.stream.takeNext.1 = none ∧ f.queue.stream.items = [] ∧ f.take = f) ∨
      ∃ x, f.queue.stream.takeNext.1 = some x ∧ f.take.queue.taken = f.queue.taken ++ [x] := by
  rcases f.queue.takeNext_cases with ⟨hidle, hnone, hsame⟩ | ⟨x, rest, -, hx, -, htaken, -⟩
  · refine Or.inl ⟨hnone, hidle.resolve_left (by rw [h.2]; decide), ?_⟩
    rw [Feed.take, hsame]
  · exact Or.inr ⟨x, hx, htaken⟩

/-! ## The whole response -/

/-- What the response comes to with its last item. -/
def Collected.response (c : Collected) : StreamItem → Option (Except BridgeError Response)
  | .End => some (match c.head with
    | some head => .ok ⟨head.status, head.headers, c.body, head.rubyThreadObjectId⟩
    | none => .error (.InvalidResponse "stream ended without a head"))
  | .Failed error => some (.error error)
  | .Head _ | .Chunk _ => none

/-- The result of a stream that accepted these items. -/
def Result (items : List StreamItem) (r : Except BridgeError Response) : Prop :=
  ∃ rest x, items = rest ++ [x] ∧ Collected.response (collect rest) x = some r

theorem terminal_of_response {c : Collected} {x : StreamItem} {r : Except BridgeError Response}
    (h : Collected.response c x = some r) : x.terminal = true := by
  cases x with
  | Head _ | Chunk _ => cases h
  | End | Failed _ => rfl

/-- What was taken with its end is all that was accepted. -/
theorem Result.of_taken {q : Tracked} {r : Except BridgeError Response} (h : Result q.taken r) :
    Result q.accepted r := by
  obtain ⟨rest, x, htaken, hr⟩ := h
  have hx : x ∈ q.taken := by
    rw [htaken]
    exact List.mem_append_right _ (List.mem_singleton_self _)
  exact ⟨rest, x, (Tracked.taken_eq_of_terminal hx (terminal_of_response hr)).symm.trans htaken, hr⟩

/-! ## The completion -/

/-- `submit_collected`, from the moment the call is queued. -/
structure Collecting where
  feed : Feed := .new
  /-- `head` and `body`. -/
  collected : Collected := {}
  /-- `completion`, until it is called. -/
  completion : Bool := true
  /-- What it was called with. -/
  completed : List (Except BridgeError Response) := []
  /-- Wakers at the lock. -/
  blocked : ℕ := 0
  /-- A waker has the lock. -/
  locked : Bool := false

namespace Collecting

variable (s : Collecting)

/-- `finish`. -/
def finish (result : Except BridgeError Response) : Collecting :=
  if s.completion then { s with completion := false, completed := s.completed ++ [result] } else s

/-- What the waker does with what it took. -/
def receive : Option StreamItem → Collecting
  | none => { s with locked := false }
  | some (.Head head) => { s with collected := { s.collected with head := some head } }
  | some (.Chunk chunk) => { s with collected := { s.collected with body := s.collected.body ++ chunk } }
  | some (.Failed error) => s.finish (.error error)
  | some .End =>
    match s.collected.head with
    | some head =>
      { s with collected := {} }.finish
        (.ok ⟨head.status, head.headers, s.collected.body, head.rubyThreadObjectId⟩)
    | none => s.finish (.error (.InvalidResponse "stream ended without a head"))

end Collecting

inductive CollectAction
  | produce (op : QueueOp)
  /-- Who owes a wake calls the waker, or someone who does not. -/
  | wake (owed : Bool)
  | lock
  | take
  deriving DecidableEq

def collectStep (s : Collecting) : CollectAction → Option Collecting
  | .produce op => if produces op = true then some { s with feed := s.feed.produce op } else none
  | .wake owed =>
    if owed then
      if 0 < s.feed.owing then some { s with feed := s.feed.wake, blocked := s.blocked + 1 } else none
    else some { s with blocked := s.blocked + 1 }
  | .lock =>
    if 0 < s.blocked ∧ s.locked = false then some { s with blocked := s.blocked - 1, locked := true }
    else none
  | .take =>
    if s.locked then some ({ s with feed := s.feed.take }.receive s.feed.queue.stream.takeNext.1)
    else none

def collecting : System Collecting CollectAction where
  init s := s = {}
  step := collectStep

/-- What is so of the collector. -/
structure CollectInv (s : Collecting) : Prop where
  ok : s.feed.Ok
  going : s.completion = true → s.completed = [] ∧ s.collected = collect s.feed.queue.taken ∧
    ∀ x ∈ s.feed.queue.taken, x.terminal = false
  done : s.completion = false → ∃ r, s.completed = [r] ∧ Result s.feed.queue.taken r
  heard : s.feed.owing = 0 → s.blocked = 0 → s.locked = false → s.feed.queue.stream.items = []

variable {s t : Collecting}

theorem CollectInv.produce (h : CollectInv s) {op : QueueOp} (hop : produces op = true) :
    CollectInv { s with feed := s.feed.produce op } := by
  have htaken := produce_taken (f := s.feed) hop
  refine ⟨h.ok.produce hop, ?_, ?_, fun ho hb hl => ?_⟩
  · rw [htaken]
    exact h.going
  · rw [htaken]
    exact h.done
  · rcases produce_owes h.ok hop with ⟨hitems, howing⟩ | hpos
    · exact hitems.trans (h.heard (howing.symm.trans ho) hb hl)
    · exact absurd ho hpos.ne'

theorem take_none_of_result (h : f.Ok) {r : Except BridgeError Response}
    (hr : Result f.queue.taken r) : f.queue.stream.takeNext.1 = none := by
  obtain ⟨rest, x, htaken, hx⟩ := hr
  have hmem : x ∈ f.queue.taken := by
    rw [htaken]
    exact List.mem_append_right _ (List.mem_singleton_self _)
  have hitems := (Tracked.taken_all h.1 hmem (terminal_of_response hx)).1
  rw [ResponseStream.takeNext_of_idle (Or.inr hitems)]

theorem CollectInv.ends (h : CollectInv s) {x : StreamItem} {r : Except BridgeError Response}
    (hc : s.completion = true) (hl : s.locked = true)
    (htaken : s.feed.take.queue.taken = s.feed.queue.taken ++ [x])
    (hr : Collected.response s.collected x = some r) (c : Collected) :
    CollectInv ({ s with feed := s.feed.take, collected := c }.finish r) := by
  have hfin : { s with feed := s.feed.take, collected := c }.finish r =
      { s with
        feed := s.feed.take, collected := c, completion := false, completed := s.completed ++ [r] } :=
    if_pos hc
  obtain ⟨hnone, hcollected, -⟩ := h.going hc
  rw [hfin]
  refine ⟨h.ok.take, (by rintro ⟨⟩), fun _ => ⟨r, ?_, s.feed.queue.taken, x, htaken, ?_⟩, ?_⟩
  · show s.completed ++ [r] = [r]
    rw [hnone]
    rfl
  · rw [← hcollected]
    exact hr
  · intro _ _ hno
    exact absurd (hl.symm.trans hno) (by decide)

theorem CollectInv.take (h : CollectInv s) (hl : s.locked = true) :
    CollectInv ({ s with feed := s.feed.take }.receive s.feed.queue.stream.takeNext.1) := by
  rcases take_cases h.ok with ⟨hnone, hitems, hsame⟩ | ⟨x, hx, htaken⟩
  · rw [hnone, hsame]
    exact ⟨h.ok, h.going, h.done, fun _ _ _ => hitems⟩
  · have hc : s.completion = true := by
      by_contra hno
      obtain ⟨r, -, hr⟩ := h.done (by simpa using hno)
      rw [take_none_of_result h.ok hr] at hx
      cases hx
    obtain ⟨hnone, hcollected, hfree⟩ := h.going hc
    have hgo : x.terminal = false → CollectInv { s with
        feed := s.feed.take, collected := s.collected.add x } := by
      intro hterm
      refine ⟨h.ok.take, fun _ => ⟨hnone, ?_, ?_⟩, fun hno => ?_, fun _ _ hno => ?_⟩
      · show s.collected.add x = collect s.feed.take.queue.taken
        rw [htaken, collect_concat, ← hcollected]
      · rw [htaken]
        exact terminal_free_concat hfree hterm
      · exact absurd (hc.symm.trans hno) (by decide)
      · exact absurd (hl.symm.trans hno) (by decide)
    rw [hx]
    cases x with
    | Head head => exact hgo rfl
    | Chunk chunk => exact hgo rfl
    | Failed error => exact h.ends hc hl htaken rfl _
    | End =>
      simp only [Collecting.receive]
      split
      · rename_i head hhead
        exact h.ends hc hl htaken (by rw [Collected.response, hhead]) _
      · rename_i hhead
        exact h.ends hc hl htaken (by rw [Collected.response, hhead]) _

theorem CollectInv.step (h : CollectInv s) {a : CollectAction} (ht : collectStep s a = some t) :
    CollectInv t := by
  cases a with
  | produce op =>
    simp only [collectStep, Option.ite_none_right_eq_some, Option.some.injEq] at ht
    obtain ⟨hop, rfl⟩ := ht
    exact h.produce hop
  | wake owed =>
    simp only [collectStep] at ht
    split_ifs at ht with ho hpos
    · cases ht
      exact ⟨h.ok, h.going, h.done, fun _ hb => absurd hb (Nat.succ_ne_zero _)⟩
    · cases ht
      exact ⟨h.ok, h.going, h.done, fun _ hb => absurd hb (Nat.succ_ne_zero _)⟩
  | lock =>
    simp only [collectStep, Option.ite_none_right_eq_some, Option.some.injEq] at ht
    obtain ⟨-, rfl⟩ := ht
    exact ⟨h.ok, h.going, h.done, fun _ _ hl => by cases hl⟩
  | take =>
    simp only [collectStep, Option.ite_none_right_eq_some, Option.some.injEq] at ht
    obtain ⟨hl, rfl⟩ := ht
    exact h.take hl

theorem ok_new : Feed.new.Ok := ⟨rfl, rfl⟩

theorem CollectInv.of_reachable (h : collecting.Reachable s) : CollectInv s := by
  refine System.Reach.induct ?_ (fun s a t hs _ ht => hs.step ht) h
  rintro s rfl
  refine ⟨ok_new, fun _ => ⟨rfl, rfl, ?_⟩, (by rintro ⟨⟩), fun _ _ _ => rfl⟩
  rintro x ⟨⟩

/-- **The completion is called once at most, with the whole response**; and when no producer owes a
wake and no waker runs, a response that is over was completed. -/
theorem collected_once (h : collecting.Reachable s) :
    s.completed.length ≤ 1 ∧ (∀ r ∈ s.completed, Result s.feed.queue.accepted r) ∧
      (s.feed.owing = 0 → s.blocked = 0 → s.locked = false →
        (∃ x ∈ s.feed.queue.accepted, x.terminal = true) → s.completed ≠ []) := by
  have hi := CollectInv.of_reachable h
  cases hc : s.completion with
  | true =>
    obtain ⟨hnone, -, hfree⟩ := hi.going hc
    rw [hnone]
    refine ⟨Nat.zero_le _, (by rintro r ⟨⟩), fun ho hb hl => ?_⟩
    intro hover
    exact absurd (hi.heard ho hb hl) (Tracked.items_ne_nil hi.ok.1 (Tracked.ended_iff.mpr hover) hfree)
  | false =>
    obtain ⟨r, hr, hresult⟩ := hi.done hc
    rw [hr]
    refine ⟨Nat.le_refl _, fun r' hr' => ?_, fun _ _ _ _ => List.cons_ne_nil _ _⟩
    rw [List.mem_singleton.mp hr']
    exact hresult.of_taken

/-! ## The caller -/

/-- Where `call` is. -/
inductive CallPlace
  /-- In `while let Some(item) = stream.take_next()`. -/
  | draining
  /-- In `recv_timeout`. -/
  | waiting
  | returned (r : Except BridgeError Response)
  deriving DecidableEq

/-- `call`, from the moment its request is queued. -/
structure Calling where
  feed : Feed := .new
  collected : Collected := {}
  /-- What the waker puts into the channel. -/
  token : Bool := false
  /-- The deadline has passed. -/
  expired : Bool := false
  place : CallPlace := .draining

namespace Calling

variable (s : Calling)

/-- What the caller does with what it took. -/
def receive : Option StreamItem → Calling
  | none =>
    { s with place := if s.expired then .returned (.error .ResponseTimeout) else .waiting }
  | some (.Head head) => { s with collected := { s.collected with head := some head } }
  | some (.Chunk chunk) => { s with collected := { s.collected with body := s.collected.body ++ chunk } }
  | some (.Failed error) => { s with place := .returned (.error error) }
  | some .End =>
    match s.collected.head with
    | some head =>
      { s with
        place := .returned (.ok ⟨head.status, head.headers, s.collected.body, head.rubyThreadObjectId⟩) }
    | none => { s with place := .returned (.error (.InvalidResponse "stream ended without a head")) }

end Calling

inductive CallAction
  | produce (op : QueueOp)
  | wake (owed : Bool)
  | take
  /-- The token is there. -/
  | recv
  | expire
  /-- `recv_timeout` gives up. -/
  | timeout
  deriving DecidableEq

def callStep (s : Calling) : CallAction → Option Calling
  | .produce op => if produces op = true then some { s with feed := s.feed.produce op } else none
  | .wake owed =>
    -- `try_send` into a full channel does nothing
    if owed then
      if 0 < s.feed.owing then some { s with feed := s.feed.wake, token := true } else none
    else some { s with token := true }
  | .take =>
    if s.place = .draining then
      some ({ s with feed := s.feed.take }.receive s.feed.queue.stream.takeNext.1)
    else none
  | .recv =>
    if s.place = .waiting ∧ s.token then some { s with token := false, place := .draining } else none
  | .expire => some { s with expired := true }
  | .timeout => if s.place = .waiting ∧ s.expired then some { s with place := .draining } else none

def calling : System Calling CallAction where
  init s := s = {}
  step := callStep

/-- What is so of the caller. -/
structure CallInv (s : Calling) : Prop where
  ok : s.feed.Ok
  going : (∀ r, s.place ≠ .returned r) →
    s.collected = collect s.feed.queue.taken ∧ ∀ x ∈ s.feed.queue.taken, x.terminal = false
  done : ∀ r, s.place = .returned r →
    r = .error .ResponseTimeout ∧ s.expired = true ∨ Result s.feed.queue.taken r
  heard : s.place = .waiting → s.feed.owing = 0 → s.token = false → s.feed.queue.stream.items = []

section Caller

variable {s t : Calling}

theorem CallInv.take (h : CallInv s) (hp : s.place = .draining) :
    CallInv ({ s with feed := s.feed.take }.receive s.feed.queue.stream.takeNext.1) := by
  obtain ⟨hcollected, hfree⟩ := h.going (by rw [hp]; rintro r ⟨⟩)
  rcases take_cases h.ok with ⟨hnone, hitems, hsame⟩ | ⟨x, hx, htaken⟩
  · rw [hnone, hsame]
    refine ⟨h.ok, fun _ => ⟨hcollected, hfree⟩, fun r hr => ?_, fun _ _ _ => hitems⟩
    simp only [Calling.receive] at hr
    split_ifs at hr with hexpired
    cases hr
    exact Or.inl ⟨rfl, hexpired⟩
  · have hgo : x.terminal = false → CallInv { s with
        feed := s.feed.take, collected := s.collected.add x } := by
      intro hterm
      refine ⟨h.ok.take, fun _ => ⟨?_, ?_⟩, fun r hr => ?_, fun hw => ?_⟩
      · show s.collected.add x = collect s.feed.take.queue.taken
        rw [htaken, collect_concat, ← hcollected]
      · rw [htaken]
        exact terminal_free_concat hfree hterm
      · cases hp.symm.trans hr
      · cases hp.symm.trans hw
    have hend : ∀ r, Collected.response s.collected x = some r →
        CallInv { s with feed := s.feed.take, place := .returned r } := by
      intro r hr
      refine ⟨h.ok.take, fun hno => absurd rfl (hno r), fun r' hr' => Or.inr ?_, (by rintro ⟨⟩)⟩
      cases hr'
      exact ⟨s.feed.queue.taken, x, htaken, by rw [← hcollected]; exact hr⟩
    rw [hx]
    cases x with
    | Head head => exact hgo rfl
    | Chunk chunk => exact hgo rfl
    | Failed error => exact hend _ rfl
    | End =>
      simp only [Calling.receive]
      split
      · rename_i head hhead
        exact hend _ (by rw [Collected.response, hhead])
      · rename_i hhead
        exact hend _ (by rw [Collected.response, hhead])

theorem CallInv.step (h : CallInv s) {a : CallAction} (ht : callStep s a = some t) : CallInv t := by
  cases a with
  | produce op =>
    simp only [callStep, Option.ite_none_right_eq_some, Option.some.injEq] at ht
    obtain ⟨hop, rfl⟩ := ht
    have htaken := produce_taken (f := s.feed) hop
    refine ⟨h.ok.produce hop, ?_, ?_, fun hw ho htoken => ?_⟩
    · rw [htaken]
      exact h.going
    · rw [htaken]
      exact h.done
    · rcases produce_owes h.ok hop with ⟨hitems, howing⟩ | hpos
      · exact hitems.trans (h.heard hw (howing.symm.trans ho) htoken)
      · exact absurd ho hpos.ne'
  | wake owed =>
    simp only [callStep] at ht
    split_ifs at ht with ho hpos
    · cases ht
      exact ⟨h.ok, h.going, h.done, fun _ _ hno => by cases hno⟩
    · cases ht
      exact ⟨h.ok, h.going, h.done, fun _ _ hno => by cases hno⟩
  | take =>
    simp only [callStep, Option.ite_none_right_eq_some, Option.some.injEq] at ht
    obtain ⟨hp, rfl⟩ := ht
    exact h.take hp
  | recv =>
    simp only [callStep, Option.ite_none_right_eq_some, Option.some.injEq] at ht
    obtain ⟨⟨hp, -⟩, rfl⟩ := ht
    exact ⟨h.ok, fun _ => h.going (by rw [hp]; rintro r ⟨⟩), (by rintro r ⟨⟩), by rintro ⟨⟩⟩
  | expire =>
    simp only [callStep, Option.some.injEq] at ht
    subst ht
    exact ⟨h.ok, h.going, fun r hr => (h.done r hr).imp (fun hd => ⟨hd.1, rfl⟩) id, h.heard⟩
  | timeout =>
    simp only [callStep, Option.ite_none_right_eq_some, Option.some.injEq] at ht
    obtain ⟨⟨hp, -⟩, rfl⟩ := ht
    exact ⟨h.ok, fun _ => h.going (by rw [hp]; rintro r ⟨⟩), (by rintro r ⟨⟩), by rintro ⟨⟩⟩

theorem CallInv.of_reachable (h : calling.Reachable s) : CallInv s := by
  refine System.Reach.induct ?_ (fun s a t hs _ ht => hs.step ht) h
  rintro s rfl
  refine ⟨ok_new, fun _ => ⟨rfl, ?_⟩, (by rintro r ⟨⟩), by rintro ⟨⟩⟩
  rintro x ⟨⟩

/-- The caller's own steps, and the wakes that producers owe. -/
def hears : CallAction → Bool
  | .wake owed => owed
  | .take | .recv => true
  | _ => false

def CallPlace.rank : CallPlace → ℕ
  | .waiting => 1
  | _ => 0

/-- How far the caller is from the end of the response, at most. -/
def callRank (s : Calling) : ℕ :=
  s.feed.queue.stream.items.length + s.feed.owing + s.place.rank

theorem receive_feed (i : Option StreamItem) : (s.receive i).feed = s.feed := by
  unfold Calling.receive
  split <;> try rfl
  split <;> rfl

theorem receive_some (x : StreamItem) : (s.receive (some x)).place = s.place ∨
    ∃ r, (s.receive (some x)).place = .returned r ∧ Collected.response s.collected x = some r := by
  cases x with
  | Head head => exact Or.inl rfl
  | Chunk chunk => exact Or.inl rfl
  | Failed error => exact Or.inr ⟨_, rfl, rfl⟩
  | End =>
    refine Or.inr ?_
    simp only [Calling.receive]
    split
    · rename_i head hhead
      exact ⟨_, rfl, by rw [Collected.response, hhead]⟩
    · rename_i hhead
      exact ⟨_, rfl, by rw [Collected.response, hhead]⟩

/-- The caller is there, or has the response. -/
def CallOk (s : Calling) : Prop :=
  (∀ r, s.place ≠ .returned r) ∨ ∃ r, s.place = .returned r ∧ Result s.feed.queue.taken r

/-- **The caller gets on with a response that is over**, whether or not its deadline has passed. -/
theorem call_next (h : CallInv s) (hp : ∀ r, s.place ≠ .returned r) {x : StreamItem}
    (hx : x ∈ s.feed.queue.accepted) (hterm : x.terminal = true) :
    ∃ a t, hears a = true ∧ callStep s a = some t ∧ CallOk t ∧
      t.feed.queue.accepted = s.feed.queue.accepted ∧ callRank t < callRank s := by
  obtain ⟨hcollected, hfree⟩ := h.going hp
  have hne : s.feed.queue.stream.items ≠ [] :=
    Tracked.items_ne_nil h.ok.1 (Tracked.ended_iff.mpr ⟨x, hx, hterm⟩) hfree
  cases hplace : s.place with
  | returned r => exact absurd hplace (hp r)
  | waiting =>
    cases htoken : s.token with
    | true =>
      refine ⟨.recv, { s with token := false, place := .draining }, rfl, ?_, Or.inl ?_, rfl, ?_⟩
      · simp only [callStep, hplace, htoken, and_self, if_true]
      · rintro r ⟨⟩
      · simp only [callRank, hplace, CallPlace.rank]
        omega
    | false =>
      have howing : 0 < s.feed.owing :=
        Nat.pos_of_ne_zero fun ho => hne (h.heard hplace ho htoken)
      refine ⟨.wake true, { s with feed := s.feed.wake, token := true }, rfl, ?_, Or.inl hp, rfl, ?_⟩
      · simp only [callStep, howing, if_true]
      · simp only [callRank, Feed.wake]
        omega
  | draining =>
    rcases s.feed.queue.takeNext_cases with ⟨hidle, -, -⟩ | ⟨y, rest, hitems, hy, hacc, htaken, hin⟩
    · exact absurd (hidle.resolve_left (by rw [h.ok.2]; decide)) hne
    · set u : Calling := { s with feed := s.feed.take } with hu
      have hfeed : (u.receive (some y)).feed = s.feed.take := receive_feed _
      have hlen : (s.feed.take.queue.stream.items).length + 1 = s.feed.queue.stream.items.length := by
        rw [show s.feed.take.queue.stream.items = rest from congrArg (·.items) hin, hitems]
        rfl
      refine ⟨.take, u.receive (some y), rfl, ?_, ?_, ?_, ?_⟩
      · simp only [callStep, hplace, if_true, hy, hu]
      · rcases receive_some (s := u) y with hsame | ⟨r, hr, hresponse⟩
        · refine Or.inl fun r hr => ?_
          exact absurd (hsame.symm.trans hr) (hp r)
        · refine Or.inr ⟨r, hr, s.feed.queue.taken, y, ?_, ?_⟩
          · rw [hfeed]
            exact htaken
          · rw [← hcollected]
            exact hresponse
      · rw [hfeed]
        exact hacc
      · have hrank : (u.receive (some y)).place.rank = 0 := by
          rcases receive_some (s := u) y with hsame | ⟨r, hr, -⟩
          · rw [hsame, show u.place = .draining from hplace]
            rfl
          · rw [hr]
            rfl
        have hzero : s.place.rank = 0 := by
          rw [hplace]
          rfl
        rw [callRank, callRank, hrank, hfeed, hzero]
        show (s.feed.take.queue.stream.items).length + s.feed.owing + 0 < _
        omega

/-- **`call` returns the whole response, or that it took too long**; and once the response is over the
caller does not sleep on it, and gets it whether or not its deadline has passed. -/
theorem call_collected (h : calling.Reachable s) :
    (∀ r, s.place = .returned r →
      r = .error .ResponseTimeout ∧ s.expired = true ∨ Result s.feed.queue.accepted r) ∧
    ((∃ x ∈ s.feed.queue.accepted, x.terminal = true) → (∀ r, s.place ≠ .returned r) →
      (s.place = .waiting → s.token = true ∨ 0 < s.feed.owing) ∧
      calling.Leads (fun a => hears a)
        (fun t => ∃ r, t.place = .returned r ∧ Result s.feed.queue.accepted r) s) := by
  have hi := CallInv.of_reachable h
  refine ⟨fun r hr => (hi.done r hr).imp id Result.of_taken, ?_⟩
  rintro ⟨x, hx, hterm⟩ hp
  refine ⟨fun hw => ?_, ?_⟩
  · by_contra hno
    rw [not_or, Bool.not_eq_true, Nat.not_lt, Nat.le_zero] at hno
    exact Tracked.items_ne_nil hi.ok.1 (Tracked.ended_iff.mpr ⟨x, hx, hterm⟩) (hi.going hp).2
      (hi.heard hw hno.2 hno.1)
  · refine (System.Leads.of_reach callRank (K := fun t => CallOk t ∧
      t.feed.queue.accepted = s.feed.queue.accepted) (P := fun t => ∃ r, t.place = .returned r)
      ?_ h ⟨Or.inl hp, rfl⟩).bind fun t ht => .here ?_
    · rintro u hu ⟨-, hacc⟩ hnot
      obtain ⟨a, v, ha, hv, hok, hsame, hlt⟩ :=
        call_next (CallInv.of_reachable hu) (fun r hr => hnot ⟨r, hr⟩) (hacc.symm ▸ hx) hterm
      exact ⟨a, v, ha, hv, ⟨hok, hsame.trans hacc⟩, hlt⟩
    · obtain ⟨⟨hok, hacc⟩, r, hr⟩ := ht
      obtain ⟨r', hr', hresult⟩ := hok.resolve_left fun hno => hno r hr
      exact ⟨r', hr', hacc ▸ hresult.of_taken⟩

end Caller

/-! ## Two runs -/

/-- A response in two pieces, one of them pushed while a waker runs. -/
def twoPieces : List CollectAction :=
  [.produce (.pushHead ⟨200, [], 0⟩), .wake true, .produce (.pushChunk [1]), .lock, .take, .take,
    .produce (.pushChunk [2]), .wake true, .take, .take, .produce .pushEnd, .wake true, .lock, .wake true,
    .take, .take, .lock, .take, .lock, .take]

theorem collected_once_twoPieces :
    ∃ s, collecting.run {} twoPieces = some s ∧ s.completed = [.ok ⟨200, [], [1, 2], 0⟩] ∧
      Result s.feed.queue.accepted (.ok ⟨200, [], [1, 2], 0⟩) := by
  obtain ⟨s, hrun, hdone⟩ : ∃ s, collecting.run {} twoPieces = some s ∧
      s.completed = [.ok ⟨200, [], [1, 2], 0⟩] := ⟨_, rfl, rfl⟩
  refine ⟨s, hrun, hdone, (collected_once (System.reach_of_run rfl hrun)).2.1 _ ?_⟩
  rw [hdone]
  exact List.mem_singleton_self _

/-- The end comes after the deadline. -/
def lateEnd : List CallAction :=
  [.produce (.pushHead ⟨200, [], 0⟩), .take, .take, .expire, .produce .pushEnd, .timeout]

theorem call_collected_lateEnd :
    ∃ s, calling.run {} lateEnd = some s ∧ s.expired = true ∧
      calling.Leads (fun a => hears a)
        (fun t => ∃ r, t.place = .returned r ∧ Result s.feed.queue.accepted r) s := by
  obtain ⟨s, hrun, hexpired, hplace, hend⟩ : ∃ s, calling.run {} lateEnd = some s ∧
      s.expired = true ∧ s.place = .draining ∧
        s.feed.queue.accepted = [.Head ⟨200, [], 0⟩, .End] := ⟨_, rfl, rfl, rfl, rfl⟩
  refine ⟨s, hrun, hexpired, ((call_collected (System.reach_of_run rfl hrun)).2 ?_ ?_).2⟩
  · exact ⟨.End, by rw [hend]; simp, rfl⟩
  · rw [hplace]
    rintro r ⟨⟩

end Ruvoy.Whole
