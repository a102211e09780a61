import Ruvoy.Rack.Model

/-!
# When the body of a response is closed

The runtime closes a body in the `ensure` of the body reader, so it closes those it reads. It reads
one only when the response was taken apart and the queue took the head.

* `Call.readable`: the response array can be taken apart, and names no protocol the client did not
  offer;
* `CloseInv`: what was closed, by where the fiber is, kept by every step;
* **`body_closed_once_iff`**: a body was closed once if and only if its response is readable and the
  queue was open for the head; else it was never closed;
* `body_never_closed`: a client leaves before the head is pushed.
-/

set_option autoImplicit false

namespace Ruvoy.Rack

open Runs

variable {V : Type}

/-- `response_parts` and `accepted_protocol` both accept the response. -/
def Call.readable (call : Call V) : Prop :=
  ∃ parts, responseParts call.conversions call.response = .ok parts ∧
    ∃ taken, acceptedProtocol call.conversions parts.headers call.protocols = .ok taken

theorem readable_iff (call : Call V) : call.readable ↔ ∃ head, call.head = .ok head := by
  unfold Call.readable Call.head
  cases hp : responseParts call.conversions call.response with
  | error e =>
    constructor
    · rintro ⟨parts, hok, -⟩
      cases hok
    · rintro ⟨head, hok⟩
      cases hok
  | ok parts =>
    cases ha : acceptedProtocol call.conversions parts.headers call.protocols with
    | error e =>
      constructor
      · rintro ⟨parts', hok, taken, htaken⟩
        cases hok
        rw [ha] at htaken
        cases htaken
      · rintro ⟨head, hok⟩
        simp only [bind, Except.bind, ha] at hok
        cases hok
    | ok taken =>
      constructor
      · intro _
        simp only [bind, Except.bind, ha]
        exact ⟨_, rfl⟩
      · exact fun _ => ⟨parts, rfl, taken, ha⟩

/-! ## The invariant -/

/-- How often a body is closed that is read to its end. -/
def Call.closesOnce (call : Call V) : ℕ := if call.body.close then 1 else 0

/-- The head went out, so the body reader is called. -/
structure Entered (s : State V) : Prop where
  readable : s.call.readable
  openAtHead : s.openAtHead = true

/-- The fiber is past the body reader, or never came to it. -/
def Over (s : State V) : Prop :=
  Entered s ∧ s.closes = s.call.closesOnce ∨ ¬ Entered s ∧ s.closes = 0

/-- What was closed, by where the fiber is. -/
def CloseInv (s : State V) : Pc → Prop
  | .respond => s.closes = 0 ∧ s.openAtHead = false
  | .pushHead _ => s.closes = 0 ∧ s.call.readable
  | .closing _ | .pushEnd => Entered s ∧ s.closes = s.call.closesOnce
  | .closeInput _ | .returned _ => Over s
  | _ => Entered s ∧ s.closes = 0

variable {s t : State V}

/-- Nothing the invariant speaks of changes. -/
structure Same (t s : State V) : Prop where
  call : t.call = s.call
  closes : t.closes = s.closes
  openAtHead : t.openAtHead = s.openAtHead

theorem Same.entered (h : Same t s) : Entered t ↔ Entered s := by
  constructor
  · exact fun he => ⟨h.call ▸ he.readable, h.openAtHead ▸ he.openAtHead⟩
  · exact fun he => ⟨h.call.symm ▸ he.readable, h.openAtHead.trans he.openAtHead⟩

theorem CloseInv.same (h : Same t s) {pc : Pc} (hi : CloseInv s pc) : CloseInv t pc := by
  have he := h.entered
  match pc with
  | .respond => exact ⟨h.closes.trans hi.1, h.openAtHead.trans hi.2⟩
  | .pushHead _ => exact ⟨h.closes.trans hi.1, h.call.symm ▸ hi.2⟩
  | .closing _ | .pushEnd => exact ⟨he.mpr hi.1, by rw [h.closes, h.call]; exact hi.2⟩
  | .closeInput _ | .returned _ =>
    refine hi.imp ?_ ?_
    · exact fun hd => ⟨he.mpr hd.1, by rw [h.closes, h.call]; exact hd.2⟩
    · exact fun hd => ⟨fun hn => hd.1 (he.mp hn), h.closes.trans hd.2⟩
  | .reader | .detach | .body | .writing .. | .park .. | .parked .. | .unpark .. | .push ..
  | .refused | .closeWrite | .ensure _ => exact ⟨he.mpr hi.1, h.closes.trans hi.2⟩

/-- The places in the body reader before its `ensure` has run. -/
def Pc.reading : Pc → Bool
  | .reader | .detach | .body | .writing .. | .park .. | .parked .. | .unpark .. | .push ..
  | .refused | .closeWrite | .ensure _ => true
  | _ => false

theorem closeInv_of_reading {pc : Pc} (hp : pc.reading = true) :
    CloseInv s pc ↔ Entered s ∧ s.closes = 0 := by
  match pc with
  | .reader | .detach | .body | .writing .. | .park .. | .parked .. | .unpark .. | .push ..
  | .refused | .closeWrite | .ensure _ => exact Iff.rfl
  | .respond | .pushHead _ | .closing _ | .pushEnd | .closeInput _ | .returned _ => cases hp

theorem CloseInv.reading (hi : CloseInv s s.pc) (hs : Same t s) (hp : s.pc.reading = true)
    (ht : t.pc.reading = true) : CloseInv t t.pc := by
  have hs' : CloseInv s t.pc := (closeInv_of_reading ht).mpr ((closeInv_of_reading hp).mp hi)
  exact hs'.same hs

/-- Control leaves the body reader with everything closed. -/
theorem closeInv_afterReader (he : Entered s) (hc : s.closes = s.call.closesOnce)
    (result : Except String Unit) :
    CloseInv (s.afterReader result) (s.afterReader result).pc := by
  cases result with
  | ok _ => exact ⟨⟨he.readable, he.openAtHead⟩, hc⟩
  | error e => exact Or.inl ⟨⟨he.readable, he.openAtHead⟩, hc⟩

theorem closeWrite_same : Same s.closeWrite s ∧ s.closeWrite.pc = s.pc := by
  unfold State.closeWrite
  split_ifs <;> exact ⟨⟨rfl, rfl, rfl⟩, rfl⟩

/-! ## Every step -/

theorem CloseInv.respond (hi : CloseInv s .respond) (hpc : s.pc = .respond)
    (ht : s.proceed = some t) : CloseInv t t.pc := by
  obtain ⟨hzero, hnever⟩ := hi
  simp only [State.proceed, hpc] at ht
  cases hhead : s.call.head with
  | ok head =>
    simp only [hhead, Option.some.injEq] at ht
    subst ht
    exact ⟨hzero, (readable_iff s.call).mpr ⟨head, hhead⟩⟩
  | error e =>
    simp only [hhead, Option.some.injEq] at ht
    subst ht
    refine Or.inr ⟨fun he => ?_, hzero⟩
    have hopen := he.openAtHead
    exact absurd (hnever.symm.trans hopen) Bool.false_ne_true

/-- The queue takes the head, or the request ends here. -/
theorem CloseInv.pushHead {head : ResponseHead} (hi : CloseInv s (.pushHead head))
    (hpc : s.pc = .pushHead head) (ht : s.proceed = some t) : CloseInv t t.pc := by
  obtain ⟨hzero, hread⟩ := hi
  simp only [State.proceed, hpc, Option.some.injEq] at ht
  subst ht
  rcases s.stream.stream.push_cases (.Head head) with ⟨hshut, hno⟩ | ⟨hcan, hend, hok, -⟩
  · have hrefused : (s.stream.stream.pushHead head).1 = false := by
      rw [ResponseStream.pushHead, hno]
    simp only [hrefused, hshut]
    refine Or.inr ⟨fun he => ?_, hzero⟩
    cases he.openAtHead
  · have htaken : (s.stream.stream.pushHead head).1 = true := hok
    simp only [htaken, if_true, hcan, hend]
    exact ⟨⟨hread, rfl⟩, hzero⟩

theorem CloseInv.ensure {result : Except String Unit} (hi : CloseInv s (.ensure result))
    (hpc : s.pc = .ensure result) (ht : s.proceed = some t) : CloseInv t t.pc := by
  obtain ⟨he, hzero⟩ := hi
  simp only [State.proceed, hpc] at ht
  split_ifs at ht with hc <;> cases ht
  · refine ⟨⟨he.readable, he.openAtHead⟩, ?_⟩
    show s.closes + 1 = s.call.closesOnce
    rw [hzero, Call.closesOnce, if_pos hc]
  · refine closeInv_afterReader he ?_ result
    rw [hzero, Call.closesOnce, if_neg hc]

theorem CloseInv.proceed (hi : CloseInv s s.pc) (ht : s.proceed = some t) : CloseInv t t.pc := by
  cases hpc : s.pc with
  | respond => exact (hpc ▸ hi).respond hpc ht
  | pushHead head => exact CloseInv.pushHead (hpc ▸ hi) hpc ht
  | ensure result => exact CloseInv.ensure (hpc ▸ hi) hpc ht
  | reader =>
    simp only [State.proceed, hpc] at ht
    split_ifs at ht <;> cases ht <;> exact hi.reading ⟨rfl, rfl, rfl⟩ (by rw [hpc]; rfl) rfl
  | detach =>
    simp only [State.proceed, hpc, Option.some.injEq] at ht
    subst ht
    exact hi.reading ⟨rfl, rfl, rfl⟩ (by rw [hpc]; rfl) rfl
  | writing chunk offset =>
    simp only [State.proceed, hpc] at ht
    split_ifs at ht <;> cases ht <;> exact hi.reading ⟨rfl, rfl, rfl⟩ (by rw [hpc]; rfl) rfl
  | park chunk offset =>
    simp only [State.proceed, hpc, Option.some.injEq] at ht
    subst ht
    refine hi.reading ⟨rfl, rfl, rfl⟩ (by rw [hpc]; rfl) ?_
    dsimp only
    split_ifs <;> rfl
  | unpark chunk offset stopped =>
    simp only [State.proceed, hpc, Option.some.injEq] at ht
    subst ht
    refine hi.reading ⟨rfl, rfl, rfl⟩ (by rw [hpc]; rfl) ?_
    dsimp only
    split_ifs <;> rfl
  | push chunk offset =>
    simp only [State.proceed, hpc] at ht
    split at ht <;> cases ht
    · exact hi.reading ⟨rfl, rfl, rfl⟩ (by rw [hpc]; rfl) rfl
    · refine hi.reading ⟨rfl, rfl, rfl⟩ (by rw [hpc]; rfl) ?_
      dsimp only
      split_ifs <;> rfl
  | closeWrite =>
    simp only [State.proceed, hpc, Option.some.injEq] at ht
    subst ht
    obtain ⟨hs, -⟩ := closeWrite_same (s := s)
    exact hi.reading ⟨hs.call, hs.closes, hs.openAtHead⟩ (by rw [hpc]; rfl) rfl
  | pushEnd =>
    simp only [State.proceed, hpc, Option.some.injEq] at ht
    subst ht
    rw [hpc] at hi
    exact Or.inl ⟨⟨hi.1.readable, hi.1.openAtHead⟩, hi.2⟩
  | closeInput result =>
    simp only [State.proceed, hpc, Option.some.injEq] at ht
    subst ht
    rw [hpc] at hi
    refine CloseInv.same ?_ (show CloseInv s (.returned result) from hi)
    exact ⟨rfl, rfl, rfl⟩
  | body | parked | refused | closing | returned => simp [State.proceed, hpc] at ht

theorem CloseInv.returns (hi : CloseInv s s.pc) (ht : s.returns = some t) : CloseInv t t.pc := by
  cases hpc : s.pc with
  | body =>
    simp only [State.returns, hpc, Option.some.injEq] at ht
    subst ht
    refine hi.reading ⟨rfl, rfl, rfl⟩ (by rw [hpc]; rfl) ?_
    dsimp only
    split_ifs <;> rfl
  | refused =>
    simp only [State.returns, hpc, Option.some.injEq] at ht
    subst ht
    exact hi.reading ⟨rfl, rfl, rfl⟩ (by rw [hpc]; rfl) rfl
  | closing result =>
    simp only [State.returns, hpc, Option.some.injEq] at ht
    subst ht
    rw [hpc] at hi
    exact closeInv_afterReader hi.1 hi.2 result
  | _ => simp [State.returns, hpc] at ht

theorem CloseInv.raises (hi : CloseInv s s.pc) {error : String} (ht : s.raises error = some t) :
    CloseInv t t.pc := by
  cases hpc : s.pc with
  | detach | body | refused =>
    simp only [State.raises, hpc, Option.some.injEq] at ht
    subst ht
    exact hi.reading ⟨rfl, rfl, rfl⟩ (by rw [hpc]; rfl) rfl
  | closing result =>
    simp only [State.raises, hpc, Option.some.injEq] at ht
    subst ht
    rw [hpc] at hi
    exact closeInv_afterReader hi.1 hi.2 _
  | _ => simp [State.raises, hpc] at ht

theorem CloseInv.step (hi : CloseInv s s.pc) {a : Action} (ht : step s a = some t) :
    CloseInv t t.pc := by
  cases a with
  | proceed => exact hi.proceed ht
  | returns => exact hi.returns ht
  | raises error => exact hi.raises ht
  | yields chunk =>
    cases hpc : s.pc with
    | body =>
      simp only [Rack.step, State.yields, hpc] at ht
      split_ifs at ht <;> cases ht
      · exact hi
      · exact hi.reading ⟨rfl, rfl, rfl⟩ (by rw [hpc]; rfl) rfl
    | _ => simp [Rack.step, State.yields, hpc] at ht
  | closesWrite =>
    cases hpc : s.pc with
    | body =>
      simp only [Rack.step, hpc] at ht
      split_ifs at ht
      cases ht
      obtain ⟨hs, hsame⟩ := closeWrite_same (s := s)
      rw [hsame]
      exact hi.same hs
    | _ => simp [Rack.step, hpc] at ht
  | stop =>
    cases hpc : s.pc with
    | parked v chunk offset =>
      simp only [Rack.step, hpc, Option.some.injEq] at ht
      subst ht
      exact hi.reading ⟨rfl, rfl, rfl⟩ (by rw [hpc]; rfl) rfl
    | _ => simp [Rack.step, hpc] at ht
  | resolve =>
    simp only [Rack.step, Option.some.injEq] at ht
    subst ht
    unfold State.resolve
    dsimp only
    split
    · next hpc =>
      split_ifs
      · exact hi.reading ⟨rfl, rfl, rfl⟩ (by rw [hpc]; rfl) rfl
      · refine CloseInv.same ?_ hi
        exact ⟨rfl, rfl, rfl⟩
    · refine CloseInv.same ?_ hi
      exact ⟨rfl, rfl, rfl⟩
  | queue op =>
    simp only [Rack.step, Option.some.injEq] at ht
    subst ht
    refine CloseInv.same ?_ hi
    exact ⟨rfl, rfl, rfl⟩

theorem CloseInv.of_reachable (h : (system V).Reachable s) : CloseInv s s.pc := by
  refine h.induct (P := fun s => CloseInv s s.pc) ?_ ?_
  · rintro _ ⟨call, stream, rfl⟩
    exact ⟨rfl, rfl⟩
  · intro s a t hs _ ht
    exact hs.step ht

/-! ## What was closed when `call_streaming` returns -/

/-- **A body is closed once exactly if it is read.** However a request goes on after the application
has returned a response whose body can be closed: when `call_streaming` returns, the body was closed
once if and only if `response_parts` and `accepted_protocol` accept the response and the queue was
neither cancelled nor ended when the head was pushed; otherwise it was never closed. -/
theorem body_closed_once_iff (h : (system V).Reachable s) {result : Except BridgeError Unit}
    (hr : s.pc = .returned result) (hc : s.call.body.close = true) :
    (s.closes = 1 ↔ s.call.readable ∧ s.openAtHead = true) ∧ (s.closes ≠ 1 → s.closes = 0) := by
  have hi := CloseInv.of_reachable h
  rw [hr] at hi
  have honce : s.call.closesOnce = 1 := if_pos hc
  rcases hi with ⟨he, hclosed⟩ | ⟨hn, hzero⟩
  · rw [honce] at hclosed
    exact ⟨⟨fun _ => ⟨he.readable, he.openAtHead⟩, fun _ => hclosed⟩, fun hne => absurd hclosed hne⟩
  · refine ⟨⟨fun hone => ?_, fun he => absurd ⟨he.1, he.2⟩ hn⟩, fun _ => hzero⟩
    rw [hzero] at hone
    cases hone

/-- Some Ruby values. -/
inductive Sample
  | integer (i : ℤ)
  | emptyHash
  | object
  deriving DecidableEq

/-- How they are converted. -/
def sampleConversions : Conversions Sample where
  toI64
    | .integer i => .ok i
    | _ => .error "no implicit conversion into Integer"
  toHash
    | .emptyHash => .ok []
    | _ => .error "no implicit conversion into Hash"
  toArray _ := none
  toStr _ := .error "no implicit conversion into String"
  debug s := s

/-- A response with no headers and an enumerable body. -/
def sampleCall : Call Sample where
  conversions := sampleConversions
  response := [.integer 200, .emptyHash, .object]
  body := ⟨true, false, true⟩

/-- A body that yields one chunk, is stopped where it waits for room and raises. -/
def stoppedBody : List Action :=
  [.proceed, .proceed, .queue (.setPaused true), .proceed, .yields [1], .proceed, .proceed, .stop,
    .proceed, .raises "stopped", .proceed, .returns, .proceed]

theorem body_closed_once_iff_stoppedBody :
    ∃ s, (system Sample).run { call := sampleCall, stream := .new 16 } stoppedBody = some s ∧
      s.closes = 1 ∧ s.call.readable := by
  have hr : (system Sample).run { call := sampleCall, stream := .new 16 } stoppedBody = some _ := rfl
  have hiff := (body_closed_once_iff (System.reach_of_run ⟨_, _, rfl⟩ hr) rfl rfl).1
  exact ⟨_, hr, rfl, (hiff.mp rfl).1⟩

/-- The client leaves before the head is pushed. -/
def leftBeforeHead : List Action := [.queue .cancel, .proceed, .proceed, .proceed]

/-- `call_streaming` has returned, and the body was not closed. -/
theorem body_never_closed :
    ¬ ∀ (s : State Sample) (result : Except BridgeError Unit), (system Sample).Reachable s →
      s.pc = .returned result → s.call.body.close = true → s.closes = 1 := by
  intro hall
  have hr : (system Sample).run { call := sampleCall, stream := .new 16 } leftBeforeHead = some _ :=
    rfl
  have hone := hall _ _ (System.reach_of_run ⟨_, _, rfl⟩ hr) rfl rfl
  cases hone

end Ruvoy.Rack
