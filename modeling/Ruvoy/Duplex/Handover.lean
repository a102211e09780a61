import Ruvoy.Duplex.Model
import Ruvoy.Input.Reader

/-!
# Rack input handed over to a duplex stream

A streaming body gets a stream over what is left of the request body: `detach` of
`ruby/request_body.rb` gives the bytes that were pulled and not read, and the queue that the rest
comes from, and `ruby/rack_streaming_body_reader.rb` makes the stream of both.

* `RequestBody.detach`, `Handed`, `State`, `step`, `system`: the calls of `rack.input`, the handover,
  and the calls of the stream, with the worker that pushes the body between any two steps;
* `Fits`, `Reads`: a reader of the rest of the body, and what its calls may answer;
* `HandedInv`: what was answered, what is in the buffer and in the queue, and what is still to arrive
  are the rest of the body;
* **`handover_whole`**: the calls of the stream read the rest of the body, and every call returns.
-/

set_option autoImplicit false

namespace Ruvoy.Input

/-- `detach`, without the queue. -/
def RequestBody.detach (b : RequestBody) : Bytes × RequestBody :=
  if b.unread = 0 then ([], b) else b.take b.unread

end Ruvoy.Input

namespace Ruvoy.Duplex

open Runs
open Exchange (Call Gate)

/-! ## The handover -/

/-- After the handover. -/
structure Handed where
  /-- The position of `rack.input` when it was detached. -/
  position : ℕ
  /-- The chunks of the body that the worker is still to push. -/
  arriving : List Bytes
  stream : State
  /-- The calls of the stream, with the one in progress. -/
  calls : List Call := []

namespace Handover

inductive State
  | input (s : Input.State)
  | handed (h : Handed)

inductive Action
  /-- A call of `rack.input` begins or goes on, or the worker pushes meanwhile. -/
  | input (a : Input.Action)
  /-- The reader of a streaming body detaches `rack.input` and makes the stream. -/
  | handOver
  | call (c : Call)
  | next
  | wake
  | push
  | finish
  deriving DecidableEq

/-- `input.detach`, and `Stream.new` over what it gives. -/
def handOver (s : Input.State) : Handed where
  position := s.body.position
  arriving := s.arriving
  stream := { source := s.source, buffer := s.body.detach.1 }

/-- A step of the stream's fiber. -/
def stream (h : Handed) (a : Duplex.Action) (calls : List Call) : Option State :=
  (Duplex.step h.stream a).map fun d => .handed { h with stream := d, calls := calls }

def step : State → Action → Option State
  | .input s, .input a => (Input.step s a).map .input
  | .input s, .handOver => if s.place = none then some (.handed (handOver s)) else none
  | .handed h, .call c => stream h (.call c) (h.calls ++ [c])
  | .handed h, .next => stream h .next h.calls
  | .handed h, .wake => stream h .wake h.calls
  | .handed h, .push =>
    match h.arriving with
    | chunk :: rest =>
      some (.handed { h with
        arriving := rest
        stream := { h.stream with source := h.stream.source.push (.Chunk chunk) } })
    | [] => none
  | .handed h, .finish =>
    match h.arriving with
    | [] => some (.handed { h with
        stream := { h.stream with source := h.stream.source.push .End } })
    | _ => none
  | _, _ => none

/-- A request whose body arrives in these chunks. -/
def system (chunks : List Bytes) : System State Action where
  init s := ∃ budget, s = .input { source := Tracked.new budget, arriving := chunks }
  step := step

end Handover

/-! ## A reader of the rest of the body -/

/-- The bytes that a call returned. -/
def Answer.bytes : Answer → Bytes
  | .data bytes => bytes
  | _ => []

/-- What a call may answer when `rest` is left to read. -/
def Fits (rest : Bytes) : Call → Answer → Prop
  | .readAll, a => a = .data rest
  | .read n, a => if rest = [] then a = .nothing else a = .data (rest.take n)
  | .readPartial n, a =>
    if rest = [] then a = .eof
    else ∃ m, 0 < m ∧ m ≤ n ∧ m ≤ rest.length ∧ a = .data (rest.take m)

/-- The calls with their answers read on through `rest`. -/
def Reads : Bytes → List (Call × Answer) → Prop
  | _, [] => True
  | rest, (c, a) :: log => Fits rest c a ∧ Reads (rest.drop a.bytes.length) log

/-- The strings that were returned, concatenated. -/
def returned (answers : List Answer) : Bytes := answers.flatMap Answer.bytes

/-- The call found nothing left, or took all there was. -/
def Exhausts : Call × Answer → Prop
  | (.readAll, _) => True
  | (_, .nothing) => True
  | (_, .eof) => True
  | _ => False

section Reader

variable {rest : Bytes} {c : Call} {a : Answer} {log : List (Call × Answer)}

theorem Fits.bytes (h : Fits rest c a) : a.bytes = rest.take a.bytes.length := by
  cases c with
  | readAll =>
    cases h
    exact List.take_length.symm
  | read n =>
    unfold Fits at h
    split_ifs at h
    · rw [h]
      rfl
    · rw [h]
      show rest.take n = rest.take (rest.take n).length
      rw [List.length_take, ← List.take_eq_take_min]
  | readPartial n =>
    unfold Fits at h
    split_ifs at h
    · rw [h]
      rfl
    · obtain ⟨m, -, -, hm, rfl⟩ := h
      show rest.take m = rest.take (rest.take m).length
      rw [List.length_take, min_eq_left hm]

theorem reads_concat : Reads rest (log ++ [(c, a)]) ↔
    Reads rest log ∧ Fits (rest.drop (returned (log.map Prod.snd)).length) c a := by
  induction log generalizing rest with
  | nil => simp [Reads, returned]
  | cons p log ih =>
    obtain ⟨c', a'⟩ := p
    simp only [List.cons_append, Reads, ih, List.map_cons, returned, List.flatMap_cons,
      List.length_append, List.drop_drop, and_assoc]

/-- A call that found nothing left, or took all there was, leaves nothing. -/
theorem Fits.exhausts (h : Fits rest c a) (he : Exhausts (c, a)) : a.bytes = rest := by
  cases c with
  | readAll =>
    cases h
    rfl
  | read n =>
    unfold Fits at h
    split_ifs at h with hrest
    · rw [h, hrest]
      rfl
    · rw [h] at he
      exact he.elim
  | readPartial n =>
    unfold Fits at h
    split_ifs at h with hrest
    · rw [h, hrest]
      rfl
    · obtain ⟨m, -, -, -, rfl⟩ := h
      exact he.elim

/-- **What was returned is a beginning of the rest**, and all of it once a call left nothing. -/
theorem Reads.whole (h : Reads rest log) : returned (log.map Prod.snd) <+: rest ∧
    ((∃ p ∈ log, Exhausts p) → returned (log.map Prod.snd) = rest) := by
  induction log generalizing rest with
  | nil =>
    refine ⟨List.nil_prefix, ?_⟩
    rintro ⟨p, hp, -⟩
    cases hp
  | cons p log ih =>
    obtain ⟨c, a⟩ := p
    obtain ⟨hfits, hlog⟩ := h
    obtain ⟨hpre, hall⟩ := ih hlog
    have hsplit : a.bytes ++ rest.drop a.bytes.length = rest := by
      nth_rewrite 1 [hfits.bytes]
      exact List.take_append_drop ..
    have hcons : returned (((c, a) :: log).map Prod.snd) = a.bytes ++ returned (log.map Prod.snd) := rfl
    rw [hcons]
    constructor
    · obtain ⟨more, hmore⟩ := hpre
      refine ⟨more, ?_⟩
      rw [List.append_assoc, hmore, hsplit]
    · rintro ⟨p, hp, he⟩
      rcases List.mem_cons.mp hp with rfl | hp
      · have hrest := hfits.exhausts he
        have hnil : rest.drop a.bytes.length = [] := by rw [hrest, List.drop_length]
        rw [hnil, List.prefix_nil] at hpre
        rw [hpre, List.append_nil, hrest]
      · rw [hall ⟨p, hp, he⟩, hsplit]

end Reader

/-! ## What is left -/

/-- What the stream can still read: its buffer, the queue and what is to arrive. -/
def Handed.ahead (h : Handed) : Bytes :=
  h.stream.buffer ++ bodyOf h.stream.source.stream.items ++ h.arriving.flatten

/-- Lengths are positive. -/
def positive : Call → Bool
  | .readAll => true
  | .read n | .readPartial n => decide (0 < n)

structure HandedInv (rest : Bytes) (h : Handed) : Prop where
  uncancelled : h.stream.source.stream.cancelled = false
  unpaused : h.stream.source.stream.paused = false
  kinds : ∀ x ∈ h.stream.source.stream.items, x = .End ∨ ∃ chunk, x = .Chunk chunk
  ended : h.stream.source.stream.ended = true → h.arriving = []
  failure : h.stream.failure = none
  /-- Nothing is lost and nothing is repeated. -/
  left : returned h.stream.answers ++ h.ahead = rest
  log : ∃ log, log.map Prod.snd = h.stream.answers ∧
    h.calls = log.map Prod.fst ++ (h.stream.place.map Prod.fst).toList ∧ Reads rest log
  bytesRead : h.stream.bytesRead = (returned h.stream.answers).length
  place : ∀ p, h.stream.place = some p → positive p.1 = true

/-- **What was pulled and not read goes to the stream**, the rest stays where it is. -/
theorem HandedInv.handOver {body : Bytes} {s : Input.State} (h : Input.Kept body s) :
    HandedInv (body.drop s.body.position) (Handover.handOver s) where
  uncancelled := h.uncancelled
  unpaused := h.unpaused
  kinds x hx := by
    refine h.kinds x ?_
    rw [← Tracked.conserve h.uncancelled]
    exact List.mem_append_right _ hx
  ended := h.ended
  failure := rfl
  left := by
    have hsize := h.size
    have hpos := h.position
    have hleft : s.body.detach.1 = s.body.contents.drop s.body.position := by
      unfold Input.RequestBody.detach
      have hun := h.unread_eq
      split_ifs with hu
      · rw [hu] at hun
        exact (List.eq_nil_of_length_eq_zero hun.symm).symm
      · rw [h.take_fst, hun, List.take_length]
    have hbody : s.body.contents ++ (bodyOf s.source.stream.items ++ s.arriving.flatten) = body := by
      rw [← List.append_assoc, h.contents, ← bodyOf_append, Tracked.conserve h.uncancelled, h.whole]
    show s.body.detach.1 ++ bodyOf s.source.stream.items ++ s.arriving.flatten = _
    rw [hleft, ← hbody, List.drop_append_of_le_length (by omega), List.append_assoc]
  log := ⟨[], rfl, rfl, trivial⟩
  bytesRead := rfl
  place p hp := by cases hp

namespace HandedInv

variable {rest : Bytes} {h t : Handed}

theorem ahead_eq (hi : HandedInv rest h) :
    rest.drop (returned h.stream.answers).length = h.ahead := by
  rw [← hi.left, List.drop_left]

/-- **A finished queue has given up everything.** -/
theorem ahead_of_finished (hi : HandedInv rest h) (hf : h.stream.finished = true) :
    h.ahead = h.stream.buffer := by
  have hf' : (h.stream.source.stream.cancelled || (h.stream.source.stream.ended &&
      h.stream.source.stream.bufferedBytes == 0)) = true := by
    have hfin : (h.stream.failure.isSome || h.stream.source.stream.isFinished) = true := hf
    rw [hi.failure] at hfin
    exact hfin
  rw [hi.uncancelled, Bool.false_or, Bool.and_eq_true, beq_iff_eq] at hf'
  rw [Handed.ahead, Tracked.body_nil_of_bytes hf'.2, hi.ended hf'.1]
  simp only [List.flatten_nil, List.append_nil]

theorem goesOn (hi : HandedInv rest h) (hq : t.stream.source.stream.cancelled = false)
    (hp : t.stream.source.stream.paused = false)
    (hk : ∀ x ∈ t.stream.source.stream.items, x = .End ∨ ∃ chunk, x = .Chunk chunk)
    (he : t.stream.source.stream.ended = true → t.arriving = []) (ha : t.ahead = h.ahead)
    (hs : t.stream = { h.stream with
      source := t.stream.source
      buffer := t.stream.buffer
      place := t.stream.place })
    (hplace : t.stream.place.map Prod.fst = h.stream.place.map Prod.fst)
    (hcalls : t.calls = h.calls) : HandedInv rest t := by
  have hanswers : t.stream.answers = h.stream.answers := by rw [hs]
  refine ⟨hq, hp, hk, he, ?_, ?_, ?_, ?_, ?_⟩
  · rw [hs]
    exact hi.failure
  · rw [hanswers, ha]
    exact hi.left
  · obtain ⟨log, hvalues, hc, hreads⟩ := hi.log
    refine ⟨log, ?_, ?_, hreads⟩
    · rw [hanswers, hvalues]
    · rw [hcalls, hplace, hc]
  · rw [hanswers, ← hi.bytesRead, hs]
  · intro p hp
    cases hold : h.stream.place with
    | none =>
      rw [hold, hp] at hplace
      cases hplace
    | some p' =>
      rw [hold, hp] at hplace
      rw [Option.some.inj hplace]
      exact hi.place p' hold

/-! ### What a call answers -/

/-- The call is over with this answer, and what it returned has left the buffer. -/
def Concludes (d d' : State) (a : Answer) : Prop :=
  d' = { d with
    buffer := d.buffer.drop a.bytes.length
    bytesRead := d.bytesRead + a.bytes.length
    place := none
    answers := d.answers ++ [a] } ∧ a.bytes = d.buffer.take a.bytes.length

theorem concludes_give {d : State} {n : ℕ} (hn : n ≤ d.buffer.length) :
    Concludes d (d.give n) (.data (d.buffer.take n)) := by
  have hlen : (d.buffer.take n).length = n := by rw [List.length_take, min_eq_left hn]
  refine ⟨?_, ?_⟩
  · show d.give n = { d with
      buffer := d.buffer.drop (d.buffer.take n).length
      bytesRead := d.bytesRead + (d.buffer.take n).length
      place := none
      answers := d.answers ++ [.data (d.buffer.take n)] }
    rw [hlen]
    unfold State.give State.conclude
    rw [hlen]
  · show d.buffer.take n = d.buffer.take (d.buffer.take n).length
    rw [hlen]

theorem concludes_nil {d : State} {a : Answer} (ha : a.bytes = []) : Concludes d (d.conclude a) a := by
  constructor
  · rw [ha]
    rfl
  · rw [ha]
    rfl

/-- **What a call answers** when the buffer is a beginning of what is left, and holds what the call
waits for or is all of it. -/
theorem answer_fits {d : State} {c : Call} {left : Bytes} (hf : d.failure = none)
    (hc : positive c = true) (hb : d.buffer <+: left) (he : d.satisfied c = true ∨ d.buffer = left) :
    ∃ a, Fits left c a ∧ Concludes d (d.answer c) a := by
  obtain ⟨more, hmore⟩ := hb
  have htake : ∀ m ≤ d.buffer.length, d.buffer.take m = left.take m := fun m hm => by
    rw [← hmore, List.take_append_of_le_length hm]
  have hlen : d.buffer.length ≤ left.length := by
    rw [← hmore, List.length_append]
    exact Nat.le_add_right _ _
  cases c with
  | readAll =>
    have hall : d.buffer = left := he.resolve_left (by rintro ⟨⟩)
    unfold State.answer
    split_ifs with hnil
    · rw [List.isEmpty_iff] at hnil
      rw [hf]
      exact ⟨.data [], by rw [← hall, hnil]; rfl, concludes_nil rfl⟩
    · have hgive := concludes_give (d := d) (n := d.buffer.length) le_rfl
      rw [List.take_length] at hgive
      exact ⟨.data d.buffer, by rw [hall]; rfl, hgive⟩
  | read n =>
    have hn : 0 < n := of_decide_eq_true hc
    have henough : n ≤ d.buffer.length ∨ d.buffer = left := he.imp_left of_decide_eq_true
    unfold State.answer
    split_ifs with hnil
    · rw [List.isEmpty_iff] at hnil
      have hleft : left = [] := by
        rcases henough with hle | heq
        · rw [hnil, List.length_nil] at hle
          omega
        · rw [← heq, hnil]
      rw [hf]
      exact ⟨.nothing, (if_pos hleft).mpr rfl, concludes_nil rfl⟩
    · rw [List.isEmpty_iff] at hnil
      have hleft : left ≠ [] := by
        rintro rfl
        exact hnil (List.append_eq_nil_iff.mp hmore).1
      refine ⟨_, ?_, concludes_give (min_le_right n _)⟩
      refine (if_neg hleft).mpr ?_
      rw [htake _ (min_le_right n _)]
      rcases henough with hle | heq
      · rw [min_eq_left hle]
      · rw [heq, ← List.take_eq_take_min]
  | readPartial n =>
    have hn : 0 < n := of_decide_eq_true hc
    unfold State.answer
    split_ifs with hnil
    · have hleft : left = [] := by
        rcases he with hsat | heq
        · rw [State.satisfied, hnil] at hsat
          cases hsat
        · rw [← heq, List.isEmpty_iff.mp hnil]
      rw [hf]
      exact ⟨.eof, (if_pos hleft).mpr rfl, concludes_nil rfl⟩
    · rw [List.isEmpty_iff] at hnil
      have hpos := List.length_pos_of_ne_nil hnil
      have hleft : left ≠ [] := by
        rintro rfl
        exact hnil (List.append_eq_nil_iff.mp hmore).1
      refine ⟨_, ?_, concludes_give (min_le_right n _)⟩
      refine (if_neg hleft).mpr ⟨min n d.buffer.length, by omega, min_le_left _ _, by omega, ?_⟩
      rw [htake _ (min_le_right n _)]

/-- A call returns: its answer is what it read of the rest. -/
theorem concludes (hi : HandedInv rest h) {c : Call} {g : Gate} {a : Answer} {d : State}
    (hplace : h.stream.place = some (c, g)) (hfits : Fits h.ahead c a)
    (hd : Concludes h.stream d a) : HandedInv rest { h with stream := d } := by
  obtain ⟨rfl, hbytes⟩ := hd
  have hreturned : returned (h.stream.answers ++ [a]) = returned h.stream.answers ++ a.bytes := by
    rw [returned, List.flatMap_append]
    simp only [List.flatMap_cons, List.flatMap_nil, List.append_nil]
    rfl
  have hsplit : a.bytes ++ h.stream.buffer.drop a.bytes.length = h.stream.buffer := by
    nth_rewrite 1 [hbytes]
    exact List.take_append_drop ..
  refine ⟨hi.uncancelled, hi.unpaused, hi.kinds, hi.ended, hi.failure, ?_, ?_, ?_, ?_⟩
  · show returned (h.stream.answers ++ [a]) ++ (h.stream.buffer.drop a.bytes.length ++
      bodyOf h.stream.source.stream.items ++ h.arriving.flatten) = rest
    rw [hreturned, ← hi.left, Handed.ahead, List.append_assoc, ← List.append_assoc a.bytes,
      ← List.append_assoc a.bytes, hsplit]
  · obtain ⟨log, hvalues, hcalls, hreads⟩ := hi.log
    refine ⟨log ++ [(c, a)], ?_, ?_, reads_concat.mpr ⟨hreads, ?_⟩⟩
    · rw [List.map_append, hvalues]
      rfl
    · rw [hplace] at hcalls
      show h.calls = _
      rw [hcalls, List.map_append]
      exact (List.append_nil _).symm
    · rw [hvalues, hi.ahead_eq]
      exact hfits
  · show h.stream.bytesRead + a.bytes.length = (returned (h.stream.answers ++ [a])).length
    rw [hreturned, List.length_append, hi.bytesRead]
  · rintro p ⟨⟩

/-! ### Every step -/

theorem drain (hi : HandedInv rest h) {c : Call} (hplace : h.stream.place = some (c, .take)) :
    HandedInv rest { h with stream := h.stream.drain c } := by
  have hf : h.stream.failure.isSome = false := by
    rw [hi.failure]
    rfl
  unfold State.drain
  simp only [hf, Bool.false_eq_true, if_false]
  rcases h.stream.source.takeNext_cases with ⟨-, hnone, hq⟩ | ⟨x, more, hitems, hsome, -, -, hin⟩
  · simp only [hnone, hq]
    exact hi.goesOn hi.uncancelled hi.unpaused hi.kinds hi.ended rfl rfl (by rw [hplace]; rfl) rfl
  · have hx : x ∈ h.stream.source.stream.items := by
      rw [hitems]
      exact List.mem_cons_self
    have hmore : h.stream.source.takeNext.stream.items = more := by
      rw [hin]
      rfl
    have hkinds : ∀ y ∈ h.stream.source.takeNext.stream.items, y = .End ∨ ∃ chunk, y = .Chunk chunk := by
      rw [hmore]
      intro y hy
      refine hi.kinds y ?_
      rw [hitems]
      exact List.mem_cons_of_mem _ hy
    have hu : h.stream.source.takeNext.stream.cancelled = false := by
      rw [hin]
      exact hi.uncancelled
    have hp : h.stream.source.takeNext.stream.paused = false := by
      rw [hin]
      exact hi.unpaused
    have he : h.stream.source.takeNext.stream.ended = true → h.arriving = [] := by
      rw [hin]
      exact hi.ended
    rcases hi.kinds x hx with rfl | ⟨chunk, rfl⟩
    · simp only [hsome]
      refine hi.goesOn hu hp hkinds he ?_ rfl (by rw [hplace]; rfl) rfl
      show h.stream.buffer ++ bodyOf h.stream.source.takeNext.stream.items ++ h.arriving.flatten = _
      rw [hmore, Handed.ahead, hitems, bodyOf_cons]
      rfl
    · simp only [hsome]
      refine hi.goesOn hu hp hkinds he ?_ rfl rfl rfl
      show h.stream.buffer ++ chunk ++ bodyOf h.stream.source.takeNext.stream.items ++
        h.arriving.flatten = _
      rw [hmore, Handed.ahead, hitems, bodyOf_cons]
      simp only [List.append_assoc]
      rfl

theorem answers (hi : HandedInv rest h) {c : Call} {g : Gate} (hplace : h.stream.place = some (c, g))
    (hdone : (h.stream.satisfied c || h.stream.finished) = true) :
    ∃ a, Fits h.ahead c a ∧ Concludes h.stream (h.stream.answer c) a := by
  have hbuffer : h.stream.buffer <+: h.ahead := by
    rw [Handed.ahead, List.append_assoc]
    exact List.prefix_append _ _
  rw [Bool.or_eq_true] at hdone
  have henough : h.stream.satisfied c = true ∨ h.stream.buffer = h.ahead :=
    hdone.imp_right fun hf => (hi.ahead_of_finished hf).symm
  exact answer_fits hi.failure (hi.place _ hplace) hbuffer henough

theorem check (hi : HandedInv rest h) {c : Call} (hplace : h.stream.place = some (c, .check)) :
    HandedInv rest { h with stream := h.stream.check c } := by
  unfold State.check
  split_ifs with hdone
  · obtain ⟨a, hfits, hd⟩ := hi.answers hplace hdone
    exact hi.concludes hplace hfits hd
  · exact hi.goesOn hi.uncancelled hi.unpaused hi.kinds hi.ended rfl rfl (by rw [hplace]; rfl) rfl

theorem same (hi : HandedInv rest h) {q : Tracked} (hq : q.Same h.stream.source) {c : Call} {g g' : Gate}
    (hplace : h.stream.place = some (c, g)) :
    HandedInv rest { h with stream := { h.stream with source := q, place := some (c, g') } } := by
  refine hi.goesOn (hq.cancelled.trans hi.uncancelled) (hq.paused.trans hi.unpaused) ?_ ?_ ?_ rfl
    (by rw [hplace]; rfl) rfl
  · show ∀ x ∈ q.stream.items, _
    rw [hq.items]
    exact hi.kinds
  · show q.stream.ended = true → _
    rw [hq.ended]
    exact hi.ended
  · show h.stream.buffer ++ bodyOf q.stream.items ++ h.arriving.flatten = _
    rw [hq.items]
    rfl

theorem next (hi : HandedInv rest h) {d : State} (ht : h.stream.next = some d) :
    HandedInv rest { h with stream := d } := by
  unfold State.next at ht
  split at ht
  · rename_i c hplace
    cases ht
    exact hi.drain hplace
  · rename_i c hplace
    cases ht
    exact hi.check hplace
  · rename_i c hplace
    cases ht
    exact hi.same (h.stream.source.same_park _) hplace
  · rename_i c hplace
    cases ht
    exact hi.same h.stream.source.same_unpark hplace
  · cases ht
  · cases ht

theorem call (hi : HandedInv rest h) {c : Call} (hc : positive c = true)
    (hnone : h.stream.place = none) :
    HandedInv rest { h with stream := h.stream.enter c .take, calls := h.calls ++ [c] } := by
  refine ⟨hi.uncancelled, hi.unpaused, hi.kinds, hi.ended, hi.failure, hi.left, ?_, hi.bytesRead, ?_⟩
  · obtain ⟨log, hvalues, hcalls, hreads⟩ := hi.log
    refine ⟨log, hvalues, ?_, hreads⟩
    rw [hnone] at hcalls
    show h.calls ++ [c] = _
    rw [hcalls]
    simp only [Option.map_none, Option.toList_none, List.append_nil]
    rfl
  · rintro p hp
    cases hp
    exact hc

theorem pushed (hi : HandedInv rest h) {x : StreamItem} {more : List Bytes}
    (hx : x = .End ∧ h.arriving = [] ∧ more = [] ∨
      ∃ chunk, x = .Chunk chunk ∧ h.arriving = chunk :: more) :
    HandedInv rest { h with
      arriving := more
      stream := { h.stream with source := h.stream.source.push x } } := by
  rcases h.stream.source.push_cases x with ⟨hshut, hq⟩ | ⟨-, -, -, -, hin⟩
  · -- the queue has ended, so nothing was left to arrive
    rw [hi.uncancelled, Bool.false_or] at hshut
    have hnil := hi.ended hshut
    rcases hx with ⟨-, -, rfl⟩ | ⟨chunk, -, hcons⟩
    · rw [hq]
      refine hi.goesOn hi.uncancelled hi.unpaused hi.kinds (fun _ => rfl) ?_ rfl rfl rfl
      rw [Handed.ahead, Handed.ahead, hnil]
    · rw [hnil] at hcons
      cases hcons
  · have hitems : (h.stream.source.push x).stream.items = h.stream.source.stream.items ++ [x] := by
      rw [hin, ResponseStreamInner.append_items]
    refine hi.goesOn ?_ ?_ ?_ ?_ ?_ rfl rfl rfl
    · show (h.stream.source.push x).stream.cancelled = false
      rw [hin]
      exact hi.uncancelled
    · show (h.stream.source.push x).stream.paused = false
      rw [hin]
      exact hi.unpaused
    · show ∀ y ∈ (h.stream.source.push x).stream.items, _
      rw [hitems]
      intro y hy
      rcases List.mem_append.mp hy with hy | hy
      · exact hi.kinds y hy
      · rw [List.mem_singleton.mp hy]
        rcases hx with ⟨rfl, -⟩ | ⟨chunk, rfl, -⟩
        · exact Or.inl rfl
        · exact Or.inr ⟨chunk, rfl⟩
    · show (h.stream.source.push x).stream.ended = true → more = []
      intro hend
      rw [hin] at hend
      rcases hx with ⟨-, -, rfl⟩ | ⟨chunk, rfl, -⟩
      · rfl
      · cases hend
    · show h.stream.buffer ++ bodyOf (h.stream.source.push x).stream.items ++ more.flatten = _
      rw [hitems, bodyOf_append, bodyOf_cons, bodyOf_nil, List.append_nil, Handed.ahead]
      rcases hx with ⟨rfl, hnil, rfl⟩ | ⟨chunk, rfl, hcons⟩
      · rw [hnil]
        simp only [List.append_assoc]
        rfl
      · rw [hcons]
        simp only [List.append_assoc, List.flatten_cons]
        rfl

end HandedInv

/-- Before the handover what was pulled is kept, and after it nothing is lost. -/
def Handover.Inv (body : Bytes) : Handover.State → Prop
  | .input s => Input.Kept body s
  | .handed h => HandedInv (body.drop h.position) h

/-- The calls of the stream have positive lengths. -/
def Handover.proper : Handover.Action → Bool
  | .call c => positive c
  | _ => true

/-- **Every step keeps the rest of the body.** -/
theorem Handover.Inv.step {body : Bytes} {s t : Handover.State} {a : Handover.Action}
    (h : Handover.Inv body s) (ha : Handover.proper a = true) (ht : Handover.step s a = some t) :
    Handover.Inv body t := by
  cases s with
  | input s =>
    cases a with
    | input a =>
      simp only [Handover.step, Option.map_eq_some_iff] at ht
      obtain ⟨u, hu, rfl⟩ := ht
      exact Input.Kept.step h hu
    | handOver =>
      simp only [Handover.step, Option.ite_none_right_eq_some, Option.some.injEq] at ht
      obtain ⟨-, rfl⟩ := ht
      exact HandedInv.handOver h
    | _ => cases ht
  | handed h' =>
    have hi : HandedInv (body.drop h'.position) h' := h
    cases a with
    | input a => cases ht
    | handOver => cases ht
    | call c =>
      simp only [Handover.step, Handover.stream, Option.map_eq_some_iff] at ht
      obtain ⟨d, hd, rfl⟩ := ht
      simp only [Duplex.step, Option.ite_none_right_eq_some, Option.some.injEq] at hd
      obtain ⟨hnone, rfl⟩ := hd
      have hc : c ≠ .read 0 := by
        rintro rfl
        cases ha
      rw [if_neg hc]
      exact hi.call ha hnone
    | next =>
      simp only [Handover.step, Handover.stream, Option.map_eq_some_iff] at ht
      obtain ⟨d, hd, rfl⟩ := ht
      exact hi.next hd
    | wake =>
      simp only [Handover.step, Handover.stream, Option.map_eq_some_iff] at ht
      obtain ⟨d, hd, rfl⟩ := ht
      simp only [Duplex.step] at hd
      split at hd
      · rename_i c hplace
        cases hd
        exact hi.same (.refl _) hplace
      · cases hd
    | push =>
      simp only [Handover.step] at ht
      split at ht
      · rename_i chunk more harr
        cases ht
        exact hi.pushed (Or.inr ⟨chunk, rfl, harr⟩)
      · cases ht
    | finish =>
      simp only [Handover.step] at ht
      split at ht
      · rename_i harr
        cases ht
        have hend : HandedInv _ { h' with
            arriving := []
            stream := { h'.stream with source := h'.stream.source.push .End } } :=
          hi.pushed (Or.inl ⟨rfl, harr, rfl⟩)
        rwa [← harr] at hend
      · cases ht

theorem Handover.Inv.of_reach {chunks : List Bytes} {s : Handover.State}
    (h : (Handover.system chunks).Reach (fun _ a => Handover.proper a = true) s) :
    Handover.Inv chunks.flatten s := by
  refine h.induct ?_ fun s a t hi ha ht => hi.step ha ht
  rintro _ ⟨budget, rfl⟩
  exact Input.Kept.init chunks budget

/-! ## Every call returns -/

/-- How far the call in progress is from its return once the queue has ended. -/
def Handed.rank (h : Handed) : ℕ :=
  6 * h.stream.source.stream.items.length +
    h.stream.place.elim 0 fun p => Input.Gate.weight h.stream.source.stream.items p.2

def Handover.State.rank : Handover.State → ℕ
  | .input _ => 0
  | .handed h => h.rank

/-- The call `c` has returned, or is a step closer to it. -/
def Further (c : Call) (h t : Handed) : Prop :=
  t.stream.source.stream.ended = true ∧ t.calls = h.calls ∧ t.position = h.position ∧
    (t.stream.place = none ∧ (∃ a, t.stream.answers = h.stream.answers ++ [a]) ∨
      (∃ g, t.stream.place = some (c, g)) ∧ t.stream.answers = h.stream.answers ∧ t.rank < h.rank)

namespace HandedInv

variable {rest : Bytes} {h : Handed} {c : Call}

theorem drain_further (hi : HandedInv rest h) (he : h.stream.source.stream.ended = true)
    (hplace : h.stream.place = some (c, .take)) :
    Further c h { h with stream := h.stream.drain c } := by
  have hf : h.stream.failure.isSome = false := by
    rw [hi.failure]
    rfl
  unfold State.drain
  simp only [hf, Bool.false_eq_true, if_false]
  rcases h.stream.source.takeNext_cases with ⟨hidle, hnone, hq⟩ | ⟨x, more, hitems, hsome, -, -, hin⟩
  · have hnil : h.stream.source.stream.items = [] := by
      rcases hidle with hp | hnil
      · rw [hi.unpaused] at hp
        cases hp
      · exact hnil
    simp only [hnone, hq]
    refine ⟨he, rfl, rfl, Or.inr ⟨⟨_, rfl⟩, rfl, ?_⟩⟩
    simp [Handed.rank, State.enter, hnil, hplace, Input.Gate.weight]
  · have hx : x ∈ h.stream.source.stream.items := by
      rw [hitems]
      exact List.mem_cons_self
    have hmore : h.stream.source.takeNext.stream.items = more := by
      rw [hin]
      rfl
    have hended : h.stream.source.takeNext.stream.ended = true := by
      rw [hin]
      exact he
    rcases hi.kinds x hx with rfl | ⟨chunk, rfl⟩
    · simp only [hsome]
      refine ⟨hended, rfl, rfl, Or.inr ⟨⟨_, rfl⟩, rfl, ?_⟩⟩
      simp only [Handed.rank, State.enter, hitems, hplace, hmore, Option.elim_some, Input.Gate.weight,
        List.length_cons]
      split_ifs <;> omega
    · simp only [hsome]
      refine ⟨hended, rfl, rfl, Or.inr ⟨⟨_, hplace⟩, rfl, ?_⟩⟩
      simp only [Handed.rank, hitems, hplace, hmore, Option.elim_some, Input.Gate.weight,
        List.length_cons]
      omega

theorem check_further (hi : HandedInv rest h) (he : h.stream.source.stream.ended = true)
    (hplace : h.stream.place = some (c, .check)) :
    Further c h { h with stream := h.stream.check c } := by
  unfold State.check
  split_ifs with hdone
  · obtain ⟨a, -, hd, -⟩ := hi.answers hplace hdone
    rw [hd]
    exact ⟨he, rfl, rfl, Or.inl ⟨rfl, a, rfl⟩⟩
  · have hne : h.stream.source.stream.items ≠ [] := by
      intro hnil
      refine hdone ?_
      rw [Bool.or_eq_true, State.finished, Bool.or_eq_true]
      refine Or.inr (Or.inr ?_)
      show (_ || (h.stream.source.stream.ended && h.stream.source.stream.bufferedBytes == 0)) = true
      rw [Tracked.bytes_eq, hnil, he]
      exact Bool.or_true _
    refine ⟨he, rfl, rfl, Or.inr ⟨⟨_, rfl⟩, rfl, ?_⟩⟩
    simp [Handed.rank, State.enter, hplace, Input.Gate.weight, hne]

/-- **Once the body has ended, the call in progress takes a step, and comes closer to its return.** -/
theorem further (hi : HandedInv rest h) (he : h.stream.source.stream.ended = true) {g : Gate}
    (hplace : h.stream.place = some (c, g)) :
    ∃ a t, (a = .next ∨ a = .wake) ∧ Handover.step (.handed h) a = some (.handed t) ∧
      Further c h t := by
  have hnext : ∀ {d : State}, h.stream.next = some d → Further c h { h with stream := d } →
      ∃ a t, (a = .next ∨ a = .wake) ∧ Handover.step (.handed h) a = some (.handed t) ∧
        Further c h t := by
    intro d hd hf
    refine ⟨.next, _, Or.inl rfl, ?_, hf⟩
    simp only [Handover.step, Handover.stream, Duplex.step, hd, Option.map_some]
  cases g with
  | take => exact hnext (by rw [State.next, hplace]) (hi.drain_further he hplace)
  | check => exact hnext (by rw [State.next, hplace]) (hi.check_further he hplace)
  | park =>
    refine hnext (by rw [State.next, hplace]) ?_
    rcases h.stream.source.stream.park_cases State.readerVariable with ⟨-, hpark⟩ | ⟨-, hopen, -⟩
    · have hsame := h.stream.source.same_park State.readerVariable
      refine ⟨hsame.ended.trans he, rfl, rfl, Or.inr ⟨⟨_, rfl⟩, rfl, ?_⟩⟩
      show 6 * (h.stream.source.park State.readerVariable).stream.items.length + _ < _
      rw [hsame.items]
      simp [Handed.rank, State.enter, hplace, hpark, Input.Gate.weight]
    · rw [he] at hopen
      cases hopen
  | leave =>
    have ht : h.stream.next =
        some ({ h.stream with source := h.stream.source.unpark }.enter c .take) := by
      rw [State.next, hplace]
      rfl
    refine hnext ht ⟨he, rfl, rfl, Or.inr ⟨⟨_, rfl⟩, rfl, ?_⟩⟩
    show 6 * h.stream.source.stream.items.length + 1 < _
    simp [Handed.rank, hplace, Input.Gate.weight]
  | parked =>
    refine ⟨.wake, { h with stream := h.stream.enter c .leave }, Or.inr rfl, ?_, he, rfl, rfl,
      Or.inr ⟨⟨_, rfl⟩, rfl, ?_⟩⟩
    · simp only [Handover.step, Handover.stream, Duplex.step, hplace, Option.map_some]
    · simp [Handed.rank, State.enter, hplace, Input.Gate.weight]

/-- The worker can push what is left of the body, and its end. -/
theorem leads_ended (chunks : List Bytes) (hi : HandedInv rest h) :
    (Handover.system chunks).Leads (fun a => ∀ c, a ≠ .call c)
      (fun s => ∃ t, s = .handed t ∧ HandedInv rest t ∧ t.stream.source.stream.ended = true ∧
        t.stream.place = h.stream.place ∧ t.stream.answers = h.stream.answers ∧ t.calls = h.calls ∧
        t.position = h.position) (.handed h) := by
  induction harr : h.arriving generalizing h with
  | nil =>
    have ht : Handover.step (.handed h) .finish = some (.handed { h with
        stream := { h.stream with source := h.stream.source.push .End } }) := by
      simp only [Handover.step, harr]
    have hend : (h.stream.source.push .End).stream.ended = true := by
      rcases h.stream.source.push_cases .End with ⟨hshut, hq⟩ | ⟨-, -, -, -, hin⟩
      · rw [hi.uncancelled, Bool.false_or] at hshut
        rwa [hq]
      · rw [hin]
        rfl
    have hnext : HandedInv rest { h with
        arriving := []
        stream := { h.stream with source := h.stream.source.push .End } } :=
      hi.pushed (Or.inl ⟨rfl, harr, rfl⟩)
    rw [← harr] at hnext
    exact .next (a := .finish) (by rintro c ⟨⟩) ht (.here ⟨_, rfl, hnext, hend, rfl, rfl, rfl, rfl⟩)
  | cons chunk more ih =>
    have ht : Handover.step (.handed h) .push = some (.handed { h with
        arriving := more
        stream := { h.stream with source := h.stream.source.push (.Chunk chunk) } }) := by
      simp only [Handover.step, harr]
    exact .next (a := .push) (by rintro c ⟨⟩) ht
      (ih (hi.pushed (Or.inr ⟨chunk, rfl, harr⟩)) rfl)

/-- **A call that began returns**, once the body has ended. -/
theorem leads_returned {chunks : List Bytes} (hi : HandedInv rest h)
    (hrest : rest = chunks.flatten.drop h.position)
    (he : h.stream.source.stream.ended = true) {g : Gate} (hplace : h.stream.place = some (c, g)) :
    (Handover.system chunks).Leads (fun a => ∀ c, a ≠ .call c)
      (fun s => ∃ t, s = .handed t ∧ t.calls = h.calls ∧ t.stream.place = none ∧
        ∃ a, t.stream.answers = h.stream.answers ++ [a]) (.handed h) := by
  refine System.Leads.of_rank Handover.State.rank
    (I := fun s => ∃ t, s = .handed t ∧ HandedInv rest t ∧ t.position = h.position ∧
      t.stream.source.stream.ended = true ∧ t.calls = h.calls ∧
      (∃ g, t.stream.place = some (c, g)) ∧ t.stream.answers = h.stream.answers) ?_
    ⟨h, rfl, hi, rfl, he, rfl, ⟨g, hplace⟩, rfl⟩
  rintro s ⟨t, rfl, hti, hpos, hend, hcalls, ⟨g', hg'⟩, hanswers⟩
  obtain ⟨a, u, ha, hu, hend', hcalls', hpos', hcases⟩ := hti.further hend hg'
  have hinv : Handover.Inv chunks.flatten (.handed t) := by
    rw [Handover.Inv, hpos, ← hrest]
    exact hti
  have hui := hinv.step (by rcases ha with rfl | rfl <;> rfl) hu
  rw [Handover.Inv, hpos', hpos, ← hrest] at hui
  have hown : ∀ c, a ≠ .call c := by rcases ha with rfl | rfl <;> rintro c ⟨⟩
  refine ⟨a, _, hown, hu, ?_⟩
  rcases hcases with ⟨hnone, v, hv⟩ | ⟨hat, hsame, hlt⟩
  · exact Or.inl ⟨u, rfl, hcalls'.trans hcalls, hnone, v, by rw [hv, hanswers]⟩
  · exact Or.inr ⟨⟨u, rfl, hui, hpos'.trans hpos, hend', hcalls'.trans hcalls, hat,
      hsame.trans hanswers⟩, hlt⟩

theorem log_eq (hi : HandedInv rest h) :
    (h.calls.zip h.stream.answers).map Prod.snd = h.stream.answers ∧
      Reads rest (h.calls.zip h.stream.answers) ∧
      h.calls.length = h.stream.answers.length + if h.stream.place.isSome then 1 else 0 := by
  obtain ⟨log, hvalues, hcalls, hreads⟩ := hi.log
  have hlen : (log.map Prod.fst).length = h.stream.answers.length := by
    rw [← hvalues, List.length_map, List.length_map]
  have hzip : h.calls.zip h.stream.answers = log := by
    calc h.calls.zip h.stream.answers
        = (log.map Prod.fst ++ (h.stream.place.map Prod.fst).toList).zip (h.stream.answers ++ []) := by
          rw [hcalls, List.append_nil]
      _ = (log.map Prod.fst).zip h.stream.answers := by
          rw [List.zip_append hlen, List.zip_nil_right, List.append_nil]
      _ = log := by
          rw [← hvalues, List.zip_map']
          simp
  refine ⟨?_, ?_, ?_⟩
  · rw [hzip, hvalues]
  · rw [hzip]
    exact hreads
  · rw [hcalls, List.length_append, hlen]
    cases h.stream.place <;> rfl

end HandedInv

/-- **Handing `rack.input` over to a stream loses and repeats nothing.** Whatever was called of
`rack.input`, and however the body arrives, the calls of the stream read on through the rest of the
body from the position at the handover: `read(n)` returns `n` bytes unless fewer are left, and `nil`
when none are; `readpartial(n)` returns some of them, at most `n`, and raises `EOFError` when none
are. What they returned, concatenated, is a beginning of that rest, and all of it once a call left
nothing; `bytes_read` counts it; and a call in progress can always come to return. -/
theorem handover_whole (chunks : List Bytes) {h : Handed}
    (hr : (Handover.system chunks).Reach (fun _ a => Handover.proper a = true) (.handed h)) :
    Reads (chunks.flatten.drop h.position) (h.calls.zip h.stream.answers) ∧
      h.calls.length = h.stream.answers.length + (if h.stream.place.isSome then 1 else 0) ∧
      returned h.stream.answers <+: chunks.flatten.drop h.position ∧
      ((∃ p ∈ h.calls.zip h.stream.answers, Exhausts p) →
        returned h.stream.answers = chunks.flatten.drop h.position) ∧
      h.stream.bytesRead = (returned h.stream.answers).length ∧
      (h.stream.place.isSome = true →
        (Handover.system chunks).Leads (fun a => ∀ c, a ≠ .call c)
          (fun s => ∃ t, s = .handed t ∧ t.calls = h.calls ∧ t.stream.place = none ∧
            ∃ a, t.stream.answers = h.stream.answers ++ [a]) (.handed h)) := by
  have hi : HandedInv (chunks.flatten.drop h.position) h := Handover.Inv.of_reach hr
  obtain ⟨hlog, hreads, hcount⟩ := hi.log_eq
  have hwhole := hreads.whole
  rw [hlog] at hwhole
  refine ⟨hreads, hcount, hwhole.1, hwhole.2, hi.bytesRead, fun hsome => ?_⟩
  obtain ⟨p, hplace⟩ := Option.isSome_iff_exists.mp hsome
  obtain ⟨c, g⟩ := p
  refine (hi.leads_ended chunks).bind ?_
  rintro s ⟨t, rfl, hti, hend, hp, hanswers, hcalls, hpos⟩
  rw [← hanswers, ← hcalls]
  exact hti.leads_returned (by rw [hpos]) hend (hp.trans hplace)

/-- Two bytes are read and one again; the rest is read from the stream, whose last call waits. -/
def readAgain : List Handover.Action :=
  [.input .push, .input (.call (.read (some 2))), .input .next, .input .next, .input .next,
    .input (.call .rewind), .input (.call (.read (some 1))), .input .next, .input .next, .handOver,
    .call (.read 2), .next, .next, .push, .call (.readPartial 5), .next, .next, .next,
    .call .readAll, .next, .next, .next]

theorem handover_whole_readAgain :
    ∃ h, (Handover.system [[1, 2, 3], [4], [5, 6]]).run
        (.input { source := Tracked.new 8, arriving := [[1, 2, 3], [4], [5, 6]] }) readAgain =
          some (.handed h) ∧
      h.position = 1 ∧ h.stream.answers = [.data [2, 3], .data [4]] ∧
      returned h.stream.answers <+: [2, 3, 4, 5, 6] ∧
      (Handover.system [[1, 2, 3], [4], [5, 6]]).Leads (fun a => ∀ c, a ≠ .call c)
        (fun s => ∃ t, s = .handed t ∧ t.calls = [.read 2, .readPartial 5, .readAll] ∧
          t.stream.place = none ∧ ∃ a, t.stream.answers = [.data [2, 3], .data [4], a]) (.handed h) := by
  have hr : (Handover.system [[1, 2, 3], [4], [5, 6]]).runIf (fun _ => Handover.proper)
      (.input { source := Tracked.new 8, arriving := [[1, 2, 3], [4], [5, 6]] }) readAgain =
        some (.handed _) := rfl
  have hall := handover_whole [[1, 2, 3], [4], [5, 6]] (System.reach_of_runIf ⟨8, rfl⟩ hr)
  exact ⟨_, rfl, rfl, rfl, hall.2.2.1, hall.2.2.2.2.2 rfl⟩

end Ruvoy.Duplex
