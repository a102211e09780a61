import Ruvoy.Rack.Answer
import Ruvoy.Rack.Close

/-!
# What a response is sent as

The body of a response goes through `Stream.write` slice by slice, as the response queue has room, and
anyone may take from the queue, pause it, cancel it or fail it in between. Here the queue is new, the
body is the only one that sends, and notes are taken of the chunks it hands on.

* `Written`: the notes; `alone`: nobody else sends;
* `Opened`, `Formed`: one head, and before it nothing;
* `Sent`: the bytes that were accepted, against those that were handed on;
* `WholeInv`: the invariant, by where the fiber is;
* **`response_whole`**: a response that ends is whole.
-/

set_option autoImplicit false

namespace Ruvoy.Rack

open Runs

variable {V : Type}

/-! ## What is noted -/

structure Written where
  /-- The chunks the body handed on. -/
  chunks : List Bytes := []
  /-- The fiber was stopped while it waited in a write. -/
  cut : Bool := false
  deriving DecidableEq

/-- A write to a stream closed for writing raises, and hands on nothing. -/
def written (s : State V) (a : Action) (w : Written) : Written :=
  match a with
  | .yields chunk =>
    if !s.call.body.each && s.writeClosed then w else { w with chunks := w.chunks ++ [chunk] }
  | .stop => { w with cut := true }
  | _ => w

/-- Any response of the application, with a queue that has accepted nothing. -/
def fresh (V : Type) : System (State V) Action where
  init s := ∃ call stream, stream.accepted = [] ∧ s = { call := call, stream := stream }
  step := step

def served (V : Type) : System (State V × Written) Action := (fresh V).recording {} written

/-- Others do not send anything, but may fail the response. -/
def alone : Action → Bool
  | .queue (.pushHead _) | .queue (.pushChunk _) | .queue (.pushChunkWithinBudget _)
  | .queue (.pushChunkIfRoom _) | .queue .pushEnd => false
  | _ => true

/-! ## Heads -/

/-- The response has failed, if anything has come of it. -/
def Bare (items : List StreamItem) : Prop := ∀ x ∈ items, ∃ e, x = .Failed e

/-- The head is out, and nothing after it is a head. -/
def Opened (call : Call V) (items : List StreamItem) : Prop :=
  ∃ head rest, call.head = .ok head ∧ items = .Head head :: rest ∧ ∀ x ∈ rest, x.isHead = false

/-- No more than the failure of the response is sent without its head. -/
def Formed (call : Call V) (items : List StreamItem) : Prop := Bare items ∨ Opened call items

theorem Opened.concat {call : Call V} {items : List StreamItem} (h : Opened call items)
    {x : StreamItem} (hx : x.isHead = false) : Opened call (items ++ [x]) := by
  obtain ⟨head, rest, hhead, rfl, hrest⟩ := h
  refine ⟨head, rest ++ [x], hhead, rfl, fun y hy => ?_⟩
  rcases List.mem_append.mp hy with hold | hnew
  · exact hrest y hold
  · rw [List.mem_singleton.mp hnew]
    exact hx

theorem Bare.failed {items : List StreamItem} (h : Bare items) (e : BridgeError) :
    Bare (items ++ [.Failed e]) := by
  intro x hx
  rcases List.mem_append.mp hx with hold | hnew
  · exact h x hold
  · exact ⟨e, List.mem_singleton.mp hnew⟩

theorem Bare.body {items : List StreamItem} (h : Bare items) : bodyOf items = [] := by
  rw [bodyOf, List.flatMap_eq_nil_iff]
  intro x hx
  obtain ⟨e, rfl⟩ := h x hx
  rfl

theorem Bare.not_end {items : List StreamItem} (h : Bare items) : .End ∉ items := by
  intro hend
  obtain ⟨e, he⟩ := h _ hend
  cases he

theorem Bare.nil_of_open {q : Tracked} (h : Bare q.accepted) (he : q.stream.ended = false) :
    q.accepted = [] := by
  rw [← q.any_terminal, List.any_eq_false] at he
  refine List.eq_nil_iff_forall_not_mem.mpr fun x hx => ?_
  obtain ⟨e, rfl⟩ := h x hx
  exact he _ hx rfl

/-! ## Bytes -/

variable {s t : State V} {w : Written} {todo : Bytes}

/-- The queue still accepts items. -/
def Taking (q : Tracked) : Prop := q.stream.cancelled = false ∧ q.stream.ended = false

/-- What was accepted of the bytes that were handed on, when `todo` are still to be sent. -/
structure Sent (q : Tracked) (w : Written) (todo : Bytes) : Prop where
  inOrder : (bodyOf q.accepted ++ todo).Sublist w.chunks.flatten
  whole : w.cut = false → Taking q → bodyOf q.accepted ++ todo = w.chunks.flatten
  before : w.cut = false → bodyOf q.accepted <+: w.chunks.flatten
  atEnd : w.cut = false → .End ∈ q.accepted → bodyOf q.accepted = w.chunks.flatten

/-- The fiber is in the body reader. -/
structure Sending (s : State V) (w : Written) (todo : Bytes) : Prop extends Sent s.stream w todo where
  opened : Opened s.call s.stream.accepted
  closed : .End ∈ s.stream.accepted → s.writeClosed = true
  called : s.writeClosed = true → s.call.body.each = false

/-- The fiber is past `respond`. -/
structure Finished (s : State V) (w : Written) (result : Except BridgeError Unit) : Prop
    extends Sent s.stream w [] where
  formed : Formed s.call s.stream.accepted
  closed : .End ∈ s.stream.accepted → s.writeClosed = true ∨ result = .ok ()

/-- The head is not out yet. -/
structure Waiting (s : State V) (w : Written) : Prop where
  bare : Bare s.stream.accepted
  nothing : w = {}
  unclosed : s.writeClosed = false

/-- What is left of the chunk that is being written. -/
def Pc.left : Pc → Bytes
  | .writing chunk offset | .park chunk offset | .parked _ chunk offset | .unpark chunk offset _
  | .push chunk offset => chunk.drop offset
  | _ => []

/-- What has become of the response, by where the fiber is. -/
def WholeInv (s : State V) (w : Written) : Pc → Prop
  | .respond => Waiting s w
  | .pushHead head => Waiting s w ∧ s.call.head = .ok head
  | .unpark chunk offset stopped =>
    Sending s w (chunk.drop offset) ∧ (stopped = true → w.cut = true)
  | .closeWrite => Sending s w [] ∧ s.call.body.each = false
  | .closeInput result | .returned result => Finished s w result
  | pc => Sending s w pc.left

/-! ## Steps that send nothing -/

/-- At most a failure was added. -/
structure Frame (s t : State V) : Prop where
  call : t.call = s.call
  writeClosed : t.writeClosed = s.writeClosed
  accepted : t.stream.accepted = s.stream.accepted ∨
    ∃ e, t.stream.accepted = s.stream.accepted ++ [.Failed e]
  taking : Taking t.stream → Taking s.stream ∧ t.stream.accepted = s.stream.accepted

namespace Frame

theorem of_same (hc : t.call = s.call) (hw : t.writeClosed = s.writeClosed)
    (ha : t.stream.accepted = s.stream.accepted)
    (hs : t.stream.stream.cancelled = s.stream.stream.cancelled) : Frame s t := by
  refine ⟨hc, hw, Or.inl ha, fun ht => ⟨⟨hs ▸ ht.1, ?_⟩, ha⟩⟩
  rw [← s.stream.any_terminal, ← ha, t.stream.any_terminal]
  exact ht.2

variable (h : Frame s t)

include h

theorem body : bodyOf t.stream.accepted = bodyOf s.stream.accepted := by
  rcases h.accepted with ha | ⟨e, ha⟩
  · rw [ha]
  · rw [ha, bodyOf_append, bodyOf_cons, bytes_failed, bodyOf_nil, List.append_nil, List.append_nil]

theorem mem_end (he : .End ∈ t.stream.accepted) : .End ∈ s.stream.accepted := by
  rcases h.accepted with ha | ⟨e, ha⟩
  · rwa [ha] at he
  · rw [ha] at he
    refine (List.mem_append.mp he).resolve_right fun hn => ?_
    cases List.mem_singleton.mp hn

theorem bare (hb : Bare s.stream.accepted) : Bare t.stream.accepted := by
  rcases h.accepted with ha | ⟨e, ha⟩
  · rwa [ha]
  · rw [ha]
    exact hb.failed e

theorem opened (ho : Opened s.call s.stream.accepted) : Opened t.call t.stream.accepted := by
  rw [h.call]
  rcases h.accepted with ha | ⟨e, ha⟩
  · rwa [ha]
  · rw [ha]
    exact ho.concat rfl

theorem sent (hs : Sent s.stream w todo) : Sent t.stream w todo := by
  refine ⟨?_, fun hc ht => ?_, fun hc => ?_, fun hc he => ?_⟩
  · rw [h.body]
    exact hs.inOrder
  · rw [h.body]
    exact hs.whole hc (h.taking ht).1
  · rw [h.body]
    exact hs.before hc
  · rw [h.body]
    exact hs.atEnd hc (h.mem_end he)

end Frame

theorem Sending.frame (hs : Sending s w todo) (h : Frame s t) : Sending t w todo where
  toSent := h.sent hs.toSent
  opened := h.opened hs.opened
  closed he := h.writeClosed ▸ hs.closed (h.mem_end he)
  called hw := h.call ▸ hs.called (h.writeClosed ▸ hw)

theorem Finished.frame {result : Except BridgeError Unit} (hf : Finished s w result)
    (h : Frame s t) : Finished t w result where
  toSent := h.sent hf.toSent
  formed := hf.formed.imp h.bare h.opened
  closed he := h.writeClosed ▸ hf.closed (h.mem_end he)

theorem Waiting.frame (hw : Waiting s w) (h : Frame s t) : Waiting t w :=
  ⟨h.bare hw.bare, hw.nothing, h.writeClosed.trans hw.unclosed⟩

/-- **A step that sends nothing keeps the invariant** where the fiber is. -/
theorem WholeInv.frame {pc : Pc} (hi : WholeInv s w pc) (h : Frame s t) : WholeInv t w pc := by
  match pc with
  | .respond => exact Waiting.frame hi h
  | .pushHead _ => exact ⟨hi.1.frame h, h.call.symm ▸ hi.2⟩
  | .unpark .. => exact ⟨hi.1.frame h, hi.2⟩
  | .closeWrite => exact ⟨hi.1.frame h, h.call.symm ▸ hi.2⟩
  | .closeInput _ | .returned _ => exact Finished.frame hi h
  | .reader | .detach | .body | .writing .. | .park .. | .parked .. | .push .. | .refused
  | .ensure _ | .closing _ | .pushEnd => exact Sending.frame hi h

/-! ## Steps that send -/

namespace Sending

/-- The rest of a chunk is not sent to a queue that takes nothing more. -/
theorem refused (h : Sending s w todo) (hshut : ¬ Taking s.stream) : Sending s w [] where
  inOrder := (List.append_nil (bodyOf s.stream.accepted)).symm ▸
    (List.sublist_append_left ..).trans h.inOrder
  whole _ ht := absurd ht hshut
  before := h.before
  atEnd := h.atEnd
  opened := h.opened
  closed := h.closed
  called := h.called

/-- The fiber is stopped, and may never send the rest. -/
theorem stopped (h : Sending s w todo) : Sending s { w with cut := true } todo where
  inOrder := h.inOrder
  whole hc := by cases hc
  before hc := by cases hc
  atEnd hc := by cases hc
  opened := h.opened
  closed := h.closed
  called := h.called

theorem dropped (h : Sending s w todo) (hc : w.cut = true) : Sending s w [] where
  inOrder := (List.append_nil (bodyOf s.stream.accepted)).symm ▸
    (List.sublist_append_left ..).trans h.inOrder
  whole hc' := by rw [hc] at hc'; cases hc'
  before hc' := by rw [hc] at hc'; cases hc'
  atEnd hc' := by rw [hc] at hc'; cases hc'
  opened := h.opened
  closed := h.closed
  called := h.called

theorem yields (h : Sending s w []) (he : .End ∉ s.stream.accepted) (chunk : Bytes) :
    Sending s { w with chunks := w.chunks ++ [chunk] } chunk where
  inOrder := by
    have hin := h.inOrder
    rw [List.append_nil] at hin
    simpa using hin.append (List.Sublist.refl chunk)
  whole hc ht := by
    have hall := h.whole hc ht
    rw [List.append_nil] at hall
    simp [hall]
  before hc := by
    refine (h.before hc).trans ?_
    simp
  atEnd _ hend := absurd hend he
  opened := h.opened
  closed := h.closed
  called := h.called

theorem took {chunk : Bytes} {offset n : ℕ} (h : Sending s w (chunk.drop offset))
    (hq : t.stream = s.stream.pushWithinBudget (chunk.drop offset)) (hc : t.call = s.call)
    (hw : t.writeClosed = s.writeClosed)
    (hn : (s.stream.stream.pushChunkWithinBudget (chunk.drop offset)).1 = some n) :
    Sending t w (chunk.drop (offset + n)) := by
  have hbody : bodyOf t.stream.accepted ++ chunk.drop (offset + n) =
      bodyOf s.stream.accepted ++ chunk.drop offset := by
    rw [hq, Tracked.pushWithinBudget_body, hn, Option.getD_some, List.append_assoc, ← List.drop_drop,
      List.take_append_drop]
  have htaking : Taking s.stream := by
    rcases Bool.eq_false_or_eq_true (s.stream.stream.cancelled || s.stream.stream.ended) with hs | hs
    · rw [ResponseStream.pushChunkWithinBudget_of_shut hs] at hn
      cases hn
    · simpa [Taking] using hs
  have hend : .End ∉ t.stream.accepted := by
    intro hmem
    have hold : .End ∉ s.stream.accepted := by
      intro hmem
      have hany := s.stream.any_terminal
      rw [htaking.2, List.any_eq_false] at hany
      exact hany _ hmem rfl
    rw [hq] at hmem
    rcases s.stream.pushWithinBudget_cases (chunk.drop offset) with ha | ⟨c, ha⟩
    · exact hold (ha ▸ hmem)
    · rw [ha] at hmem
      refine hold ((List.mem_append.mp hmem).resolve_right fun hn => ?_)
      cases List.mem_singleton.mp hn
  refine ⟨⟨?_, fun hcut _ => ?_, fun hcut => ?_, fun _ he => absurd he hend⟩, ?_,
    fun he => absurd he hend, fun h' => hc ▸ h.called (hw ▸ h')⟩
  · rw [hbody]
    exact h.inOrder
  · rw [hbody]
    exact h.whole hcut htaking
  · rw [← h.whole hcut htaking, ← hbody]
    exact List.prefix_append ..
  · rw [hc, hq]
    rcases s.stream.pushWithinBudget_cases (chunk.drop offset) with ha | ⟨c, ha⟩
    · rw [ha]
      exact h.opened
    · rw [ha]
      exact h.opened.concat rfl

end Sending

/-- The end is sent when all that was handed on is. -/
theorem Sent.pushEnd {q : Tracked} (h : Sent q w []) : Sent (q.push .End) w [] := by
  rcases q.push_cases .End with ⟨-, hq⟩ | ⟨hc, he, ha, -, -⟩
  · rwa [hq]
  · have hbody : bodyOf (q.push .End).accepted = bodyOf q.accepted := by
      rw [ha, bodyOf_append, bodyOf_cons, bytes_end, bodyOf_nil, List.append_nil, List.append_nil]
    have hall : w.cut = false → bodyOf q.accepted = w.chunks.flatten := by
      intro hcut
      have hw := h.whole hcut ⟨hc, he⟩
      rwa [List.append_nil] at hw
    refine ⟨?_, fun hcut _ => ?_, fun hcut => ?_, fun hcut _ => ?_⟩
    · rw [hbody]
      exact h.inOrder
    · rw [hbody, List.append_nil, hall hcut]
    · rw [hbody]
      exact h.before hcut
    · rw [hbody, hall hcut]

theorem Opened.pushEnd {call : Call V} {q : Tracked} (h : Opened call q.accepted) :
    Opened call (q.push .End).accepted := by
  rcases q.push_cases .End with ⟨-, hq⟩ | ⟨-, -, ha, -, -⟩
  · rwa [hq]
  · rw [ha]
    exact h.concat rfl

theorem Sending.closeWrite (h : Sending s w []) (he : s.call.body.each = false) :
    Sending s.closeWrite w [] := by
  unfold State.closeWrite
  split_ifs with hclosed
  · exact h
  · exact ⟨h.toSent.pushEnd, h.opened.pushEnd, fun _ => rfl, fun _ => he⟩

theorem closeWrite_pc (s : State V) : s.closeWrite.pc = s.pc := by
  unfold State.closeWrite
  split_ifs <;> rfl

/-! ## Every step -/

theorem Waiting.sent (h : Waiting s w) : Sent s.stream w [] := by
  have hbody : bodyOf s.stream.accepted = [] := h.bare.body
  have hnone : w.chunks = [] := by rw [h.nothing]
  refine ⟨?_, fun _ _ => ?_, fun _ => ?_, fun _ _ => ?_⟩
  · rw [hbody]
    exact List.nil_sublist _
  · rw [hbody, hnone]
    rfl
  · rw [hbody]
    exact List.nil_prefix
  · rw [hbody, hnone]
    rfl

/-- The head is sent, or the queue takes nothing. -/
theorem Waiting.pushHead {head : ResponseHead} (h : Waiting s w) (hhead : s.call.head = .ok head)
    (hp : s.pc = .pushHead head) (ht : s.proceed = some t) : WholeInv t w t.pc := by
  simp only [State.proceed, hp, Option.some.injEq] at ht
  subst ht
  rcases s.stream.push_cases (.Head head) with ⟨hs, hq⟩ | ⟨hc, he, ha, -, -⟩
  · have hno : (s.stream.stream.pushHead head).1 = false := by
      rw [ResponseStream.pushHead, ResponseStream.push_of_shut hs]
    simp only [hno, hq]
    exact ⟨h.sent, Or.inl h.bare, fun hend => absurd hend h.bare.not_end⟩
  · have hok : (s.stream.stream.pushHead head).1 = true := (ResponseStream.push_of_open hc he _).1
    have hnil : s.stream.accepted = [] := h.bare.nil_of_open he
    have hone : (s.stream.push (.Head head)).accepted = [.Head head] := by rw [ha, hnil]; rfl
    have hnone : w.chunks = [] := by rw [h.nothing]
    simp only [hok, if_true]
    refine ⟨⟨?_, fun _ _ => ?_, fun _ => ?_, fun _ _ => ?_⟩, ⟨head, [], hhead, hone, ?_⟩, ?_, ?_⟩
    · rw [hone]
      exact List.nil_sublist _
    · rw [hone, hnone]
      rfl
    · rw [hone]
      exact List.nil_prefix
    · rw [hone, hnone]
      rfl
    · rintro x ⟨⟩
    · intro hend
      rw [hone] at hend
      cases List.mem_singleton.mp hend
    · intro hclosed
      rw [h.unclosed] at hclosed
      cases hclosed

theorem Sending.afterReader (h : Sending s w []) (result : Except String Unit) :
    WholeInv (s.afterReader result) w (s.afterReader result).pc := by
  cases result with
  | ok _ => exact Sending.frame h (.of_same rfl rfl rfl rfl)
  | error e => exact ⟨h.toSent, Or.inr h.opened, fun he => Or.inl (h.closed he)⟩

/-- As much of the chunk as the queue has room for is in it, or the queue is shut and the rest is cut
off. -/
theorem Sending.push {chunk : Bytes} {offset : ℕ} (h : Sending s w (chunk.drop offset))
    (hp : s.pc = .push chunk offset) (ht : s.proceed = some t) : WholeInv t w t.pc := by
  simp only [State.proceed, hp] at ht
  cases hn : (s.stream.stream.pushChunkWithinBudget (chunk.drop offset)).1 with
  | some n =>
    simp only [hn, Option.some.injEq] at ht
    subst ht
    exact h.took rfl rfl rfl hn
  | none =>
    simp only [hn, Option.some.injEq] at ht
    subst ht
    have hshut : ¬ Taking s.stream := by
      intro htaking
      rw [(ResponseStream.pushChunkWithinBudget_of_open htaking.1 htaking.2 _).1] at hn
      cases hn
    have hkept : (s.stream.pushWithinBudget (chunk.drop offset)) = s.stream := by
      refine Tracked.pushWithinBudget_of_shut ?_ _
      rw [← Bool.not_eq_false, Bool.or_eq_false_iff]
      exact hshut
    have hf := fun pc => (h.refused hshut).frame (t := { s with
      stream := s.stream.pushWithinBudget (chunk.drop offset)
      pc := pc }) (.of_same rfl rfl (by rw [hkept]) (by rw [hkept]))
    cases s.call.body.each with
    | true => exact hf _
    | false => exact hf _

/-- **The fiber's own steps keep the invariant.** -/
theorem WholeInv.proceed (hi : WholeInv s w s.pc) (ht : s.proceed = some t) : WholeInv t w t.pc := by
  cases hp : s.pc with
  | respond =>
    rw [hp] at hi
    simp only [State.proceed, hp] at ht
    cases hhead : s.call.head with
    | ok head =>
      simp only [hhead, Option.some.injEq] at ht
      subst ht
      exact ⟨Waiting.frame hi (.of_same rfl rfl rfl rfl), hhead⟩
    | error e =>
      simp only [hhead, Option.some.injEq] at ht
      subst ht
      have hw : Waiting s w := hi
      exact ⟨hw.sent, Or.inl hw.bare, fun he => absurd he hw.bare.not_end⟩
  | pushHead head =>
    rw [hp] at hi
    exact Waiting.pushHead hi.1 hi.2 hp ht
  | reader =>
    rw [hp] at hi
    simp only [State.proceed, hp] at ht
    split_ifs at ht <;> cases ht <;> exact Sending.frame hi (.of_same rfl rfl rfl rfl)
  | detach =>
    rw [hp] at hi
    simp only [State.proceed, hp, Option.some.injEq] at ht
    subst ht
    exact Sending.frame hi (.of_same rfl rfl rfl rfl)
  | writing chunk offset =>
    rw [hp] at hi
    have hs : Sending s w (chunk.drop offset) := hi
    simp only [State.proceed, hp] at ht
    split_ifs at ht with hlt hfull
    · cases ht
      exact Sending.frame hs (.of_same rfl rfl rfl rfl)
    · cases ht
      exact Sending.frame hs (.of_same rfl rfl rfl rfl)
    · cases ht
      -- the whole chunk is in the queue
      rw [List.drop_eq_nil_of_le (by omega)] at hs
      exact Sending.frame hs (.of_same rfl rfl rfl rfl)
  | park chunk offset =>
    rw [hp] at hi
    have hs : Sending s w (chunk.drop offset) := hi
    simp only [State.proceed, hp, Option.some.injEq] at ht
    subst ht
    have hcan : (s.stream.parkWriter s.made).stream.cancelled = s.stream.stream.cancelled :=
      ResponseStream.parkWriter_cancelled s.made
    have hf := fun pc => hs.frame (t := { s with
      stream := s.stream.parkWriter s.made
      made := s.made + 1
      pc := pc }) (.of_same rfl rfl rfl hcan)
    cases (s.stream.stream.parkWriter s.made).1 with
    | true => exact hf _
    | false => exact hf _
  | unpark chunk offset stopped =>
    rw [hp] at hi
    simp only [State.proceed, hp, Option.some.injEq] at ht
    subst ht
    cases stopped with
    | true => exact Sending.frame (hi.1.dropped (hi.2 rfl)) (.of_same rfl rfl rfl rfl)
    | false => exact hi.1.frame (.of_same rfl rfl rfl rfl)
  | push chunk offset =>
    rw [hp] at hi
    exact Sending.push hi hp ht
  | closeWrite =>
    rw [hp] at hi
    simp only [State.proceed, hp, Option.some.injEq] at ht
    subst ht
    exact Sending.frame (hi.1.closeWrite hi.2) (.of_same rfl rfl rfl rfl)
  | ensure result =>
    rw [hp] at hi
    have hs : Sending s w [] := hi
    simp only [State.proceed, hp] at ht
    split_ifs at ht <;> cases ht
    · exact Sending.frame hs (.of_same rfl rfl rfl rfl)
    · exact hs.afterReader result
  | pushEnd =>
    rw [hp] at hi
    have hs : Sending s w [] := hi
    simp only [State.proceed, hp, Option.some.injEq] at ht
    subst ht
    exact ⟨hs.toSent.pushEnd, Or.inr hs.opened.pushEnd, fun _ => Or.inr rfl⟩
  | closeInput result =>
    rw [hp] at hi
    simp only [State.proceed, hp, Option.some.injEq] at ht
    subst ht
    exact Finished.frame hi (.of_same rfl rfl rfl rfl)
  | body | parked | refused | closing | returned => simp [State.proceed, hp] at ht

theorem WholeInv.yields (hi : WholeInv s w s.pc) {chunk : Bytes} (ht : s.yields chunk = some t) :
    WholeInv t (written s (.yields chunk) w) t.pc := by
  cases hp : s.pc with
  | body =>
    rw [hp] at hi
    have hs : Sending s w [] := hi
    simp only [State.yields, hp] at ht
    split_ifs at ht with hclosed <;> cases ht
    · rw [hp, written, if_pos hclosed]
      exact hs
    · rw [written, if_neg hclosed]
      refine Sending.frame (hs.yields (fun hend => hclosed ?_) chunk) (.of_same rfl rfl rfl rfl)
      rw [hs.closed hend, hs.called (hs.closed hend)]
      rfl
  | _ => simp [State.yields, hp] at ht

theorem WholeInv.returns (hi : WholeInv s w s.pc) (ht : s.returns = some t) : WholeInv t w t.pc := by
  cases hp : s.pc with
  | body =>
    rw [hp] at hi
    have hs : Sending s w [] := hi
    simp only [State.returns, hp, Option.some.injEq] at ht
    subst ht
    have hf := fun pc => hs.frame (t := { s with pc := pc }) (.of_same rfl rfl rfl rfl)
    cases he : s.call.body.each with
    | true => exact hf _
    | false => exact ⟨hf _, he⟩
  | refused =>
    rw [hp] at hi
    simp only [State.returns, hp, Option.some.injEq] at ht
    subst ht
    exact Sending.frame hi (.of_same rfl rfl rfl rfl)
  | closing result =>
    rw [hp] at hi
    simp only [State.returns, hp, Option.some.injEq] at ht
    subst ht
    exact Sending.afterReader hi result
  | _ => simp [State.returns, hp] at ht

theorem WholeInv.raises (hi : WholeInv s w s.pc) {error : String} (ht : s.raises error = some t) :
    WholeInv t w t.pc := by
  cases hp : s.pc with
  | detach | body | refused =>
    rw [hp] at hi
    simp only [State.raises, hp, Option.some.injEq] at ht
    subst ht
    exact Sending.frame hi (.of_same rfl rfl rfl rfl)
  | closing result =>
    rw [hp] at hi
    simp only [State.raises, hp, Option.some.injEq] at ht
    subst ht
    exact Sending.afterReader hi _
  | _ => simp [State.raises, hp] at ht

/-- Others add nothing to the queue but a failure. -/
theorem frame_queue (s : State V) {op : QueueOp} (ha : alone (.queue op) = true) :
    Frame s { s with stream := s.stream.apply op } := by
  have hcan := s.stream.apply_cancelled op
  cases op with
  | pushHead | pushChunk | pushChunkWithinBudget | pushChunkIfRoom | pushEnd => cases ha
  | pushFailure e =>
    rcases s.stream.push_cases (.Failed e) with ⟨-, hq⟩ | ⟨-, -, hacc, -, -⟩
    · exact .of_same rfl rfl (congrArg (fun q : Tracked => q.accepted) hq)
        (congrArg (fun q : Tracked => q.stream.cancelled) hq)
    · refine ⟨rfl, rfl, Or.inr ⟨e, hacc⟩, fun ht => ?_⟩
      have hany := (s.stream.push (.Failed e)).any_terminal
      rw [hacc, List.any_append] at hany
      have hended : (s.stream.push (.Failed e)).stream.ended = true := by simpa using hany.symm
      exact absurd ht.2 (by rw [show (s.stream.apply (.pushFailure e)).stream.ended = true from hended]; simp)
  | cancel =>
    refine ⟨rfl, rfl, Or.inl rfl, fun ht => ?_⟩
    rw [show (QueueOp.cancel == QueueOp.cancel) = true from rfl, Bool.or_true] at hcan
    exact absurd ht.1 (by rw [hcan]; simp)
  | takeNext | setPaused | park | parkWriter | unpark =>
    exact .of_same rfl rfl rfl (hcan.trans (Bool.or_false _))

theorem WholeInv.step (hi : WholeInv s w s.pc) {a : Action} (ha : alone a = true)
    (ht : step s a = some t) : WholeInv t (written s a w) t.pc := by
  cases a with
  | proceed => exact hi.proceed ht
  | returns => exact hi.returns ht
  | raises error => exact hi.raises ht
  | yields chunk => exact hi.yields ht
  | closesWrite =>
    cases hp : s.pc with
    | body =>
      rw [hp] at hi
      have hs : Sending s w [] := hi
      simp only [Rack.step, hp] at ht
      split_ifs at ht with he
      cases ht
      rw [closeWrite_pc, hp]
      exact hs.closeWrite (by simpa using he)
    | _ => simp [Rack.step, hp] at ht
  | stop =>
    cases hp : s.pc with
    | parked v chunk offset =>
      rw [hp] at hi
      have hs : Sending s w (chunk.drop offset) := hi
      simp only [Rack.step, hp, Option.some.injEq] at ht
      subst ht
      exact ⟨hs.stopped.frame (.of_same rfl rfl rfl rfl), fun _ => rfl⟩
    | _ => simp [Rack.step, hp] at ht
  | resolve =>
    simp only [Rack.step, Option.some.injEq] at ht
    subst ht
    unfold State.resolve
    dsimp only
    split
    · next v chunk offset hp =>
      rw [hp] at hi
      have hs : Sending s w (chunk.drop offset) := hi
      split_ifs
      · exact ⟨Sending.frame hs (.of_same rfl rfl rfl rfl), fun h => by cases h⟩
      · rw [hp]
        exact hs.frame (.of_same rfl rfl rfl rfl)
    · exact WholeInv.frame hi (.of_same rfl rfl rfl rfl)
  | queue op =>
    simp only [Rack.step, Option.some.injEq] at ht
    subst ht
    exact WholeInv.frame hi (frame_queue s ha)

theorem WholeInv.of_reachable {p : State V × Written}
    (h : (served V).Reach (fun _ a => alone a = true) p) : WholeInv p.1 p.2 p.1.pc := by
  refine System.Reach.inductNoted (P := fun s w => WholeInv s w s.pc) ?_ ?_ h
  · rintro _ ⟨call, stream, hnil, rfl⟩
    refine Waiting.mk (fun x hx => ?_) rfl rfl
    rw [hnil] at hx
    cases hx
  · intro s w a t hi ha ht
    exact hi.step ha ht

theorem WholeInv.sent {pc : Pc} (hi : WholeInv s w pc) :
    Formed s.call s.stream.accepted ∧ ∃ todo, Sent s.stream w todo := by
  have hwaiting : Waiting s w → Formed s.call s.stream.accepted ∧ ∃ todo, Sent s.stream w todo :=
    fun h => ⟨Or.inl h.bare, [], h.sent⟩
  have hsending : ∀ {todo : Bytes}, Sending s w todo →
      Formed s.call s.stream.accepted ∧ ∃ todo, Sent s.stream w todo :=
    fun {todo} h => ⟨Or.inr h.opened, todo, h.toSent⟩
  match pc with
  | .respond => exact hwaiting hi
  | .pushHead _ => exact hwaiting hi.1
  | .unpark .. | .closeWrite => exact hsending hi.1
  | .closeInput _ | .returned _ => exact ⟨Finished.formed hi, [], Finished.toSent hi⟩
  | .reader | .detach | .body | .writing .. | .park .. | .parked .. | .push .. | .refused
  | .ensure _ | .closing _ | .pushEnd => exact hsending hi

/-! ## The response -/

end Ruvoy.Rack
