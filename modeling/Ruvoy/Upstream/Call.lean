import Ruvoy.Rack.Headers
import Ruvoy.Stream.Collect
import Ruvoy.Upstream.Answers
import Ruvoy.Upstream.Heads

/-!
# A call, from the fiber that makes it to what it gets

`Ruvoy::Upstream#call` of `ruby/upstream.rb` once `dispatch` has queued the call, with
`UpstreamCall#response` of `src/extensions.rs`: take what the worker has pushed, park, and take again
when the reactor has resolved the variable. The fiber that makes a call is the only one that has its
response. The others, the workers and the reactor do what they do in `Upstream.system`.

* `Caller`, `Place`, `CallEnd`: the fiber, and how `call` comes out;
* `Calling`, `callStep`, `calling`: the fibers of all calls, with what Envoy reported of each;
* `CallerInv`: what a fiber has, by what was taken of its response;
* `Report.Gives`, **`call_answers`**: `call` returns what Envoy reported, or raises what it failed with;
* **`call_ends`**: a call that Envoy reported done, or whose request finishes, comes to its end.
-/

set_option autoImplicit false

namespace Ruvoy.Upstream

open Runs

/-! ## The fiber of a call -/

/-- How `call` comes out. -/
inductive CallEnd
  /-- `rack_response`. -/
  | returned (status : ℕ) (headers : Hash String Rack.RackValue) (body : Bytes)
  /-- `upstream_error`. -/
  | raised (error : BridgeError)
  /-- `response` was called after it had given the response. -/
  | alreadyTaken
  /-- The fiber was stopped where it waited. -/
  | stopped

/-- Where the fiber is. -/
inductive Place
  /-- About to call `response`. -/
  | enter
  /-- In its loop, about to take an item. -/
  | take
  /-- About to park. -/
  | park
  | parked
  /-- Woken, about to `unpark`. -/
  | leave
  | done (r : CallEnd)

/-- `UpstreamCall`, and where its fiber is. -/
structure Caller where
  collected : Collected := {}
  taken : Bool := false
  place : Place := .enter

namespace Caller

variable (c : Caller)

def goto (p : Place) : Caller := { c with place := p }

/-- One round of the loop of `response`. -/
def receive : Option StreamItem → Caller
  | none => c.goto .park
  | some .End =>
    match c.collected.head with
    | some head =>
      { c with collected := {}, taken := true }.goto
        (.done (.returned head.status (Rack.rackHeaders head.headers) c.collected.body))
    | none =>
      { c with taken := true }.goto
        (.done (.raised (.Upstream "the response ended before its head")))
  | some (.Failed error) => { c with taken := true }.goto (.done (.raised error))
  | some item => { c with collected := c.collected.add item }

end Caller

/-- The fibers of all calls, by the number of the response. -/
structure Calling where
  up : State
  callers : ℕ → Caller := fun _ => {}

namespace Calling

variable (s : Calling)

/-- The fiber goes on, with what it does to its response. -/
def fiber (n : ℕ) (op : FiberOp) (c : Caller) : Option Calling :=
  (step s.up (.fiber op)).map fun up => ⟨up, Function.update s.callers n c⟩

/-- The fiber goes on by itself. -/
def goes (n : ℕ) (p : Place) : Calling :=
  { s with callers := Function.update s.callers n ((s.callers n).goto p) }

/-- The variable of the fiber. -/
def callVariable : Variable := 0

/-- The next step of `call`, for a call that was queued. -/
def next (n : ℕ) : Option Calling :=
  let c := s.callers n
  match c.place with
  | .enter => some (s.goes n (if c.taken then .done .alreadyTaken else .take))
  | .take => s.fiber n (.take (.call n)) (c.receive (s.up.calls n).stream.takeNext.1)
  | .park =>
    s.fiber n (.park (.call n) callVariable)
      (c.goto (if ((s.up.calls n).stream.park callVariable).1 then .parked else .enter))
  | .parked =>
    -- the reactor takes the variable out of the slot to resolve it
    if (s.up.calls n).stream.waiter = none then some (s.goes n .leave) else none
  | .leave => s.fiber n (.unpark (.call n)) (c.goto .enter)
  | .done _ => none

/-- `stop`, where the fiber waits: the `ensure` of `Park.on` gives the variable back. -/
def stop (n : ℕ) : Option Calling :=
  match (s.callers n).place with
  | .parked => s.fiber n (.unpark (.call n)) ((s.callers n).goto (.done .stopped))
  | _ => none

end Calling

/-- Nobody but its fiber uses the response of a call. -/
def Action.others : Action → Bool
  | .fiber (.take (.call _)) | .fiber (.park (.call _) _) | .fiber (.unpark (.call _)) => false
  | _ => true

inductive CallAction
  | up (a : Action)
  | next (n : ℕ)
  | stop (n : ℕ)

def callStep (s : Calling) : CallAction → Option Calling
  | .up a => if a.others then (step s.up a).map fun up => { s with up := up } else none
  | .next n => if .call n ∈ s.up.accepted then s.next n else none
  | .stop n => if .call n ∈ s.up.accepted then s.stop n else none

/-- The reports of a run. -/
def callReport (s : Calling) (a : CallAction) (e : List Report) : List Report :=
  match a with
  | .up a => report s.up a e
  | _ => e

/-- A filter with a route, with any settings, with what Envoy reported of its calls. -/
def calling : System (Calling × List Report) CallAction :=
  System.recording { init := fun s => ∃ config, s = { up := { config := config } }, step := callStep } []
    callReport

/-! ## What Envoy's report of a call comes to -/

namespace Report

variable (r : Report)

/-- The header lines of the response, none where Envoy gave none. -/
def lines : Headers := r.headers.getD []

/-- The parts of the body. -/
def parts : List Bytes := r.body.getD []

def size : ℕ := (r.parts.map List.length).sum

end Report

variable {s t : Calling} {a : CallAction} {e : List Report} {n m : ℕ}

/-! ## The steps of the others -/

/-- A step is one of the calls and streams of the request, or they are as before. -/
theorem callStep_up (ht : callStep s a = some t) :
    (∃ b, step s.up b = some t.up ∧ ∀ e, callReport s a e = report s.up b e) ∨
      t.up = s.up ∧ ∀ e, callReport s a e = e := by
  have hfiber : ∀ {n : ℕ} {op : FiberOp} {c : Caller}, s.fiber n op c = some t →
      (∀ e, callReport s a e = e) →
      ∃ b, step s.up b = some t.up ∧ ∀ e, callReport s a e = report s.up b e := by
    intro n op c hf he
    obtain ⟨up, hup, rfl⟩ := Option.map_eq_some_iff.mp hf
    exact ⟨.fiber op, hup, he⟩
  cases a with
  | up b =>
    simp only [callStep, Option.ite_none_right_eq_some] at ht
    obtain ⟨up, hup, rfl⟩ := Option.map_eq_some_iff.mp ht.2
    exact Or.inl ⟨b, hup, fun _ => rfl⟩
  | next n =>
    simp only [callStep, Option.ite_none_right_eq_some] at ht
    have ht := ht.2
    unfold Calling.next at ht
    dsimp only at ht
    split at ht
    · cases ht
      exact Or.inr ⟨rfl, fun _ => rfl⟩
    · exact Or.inl (hfiber ht fun _ => rfl)
    · exact Or.inl (hfiber ht fun _ => rfl)
    · split at ht <;> cases ht
      exact Or.inr ⟨rfl, fun _ => rfl⟩
    · exact Or.inl (hfiber ht fun _ => rfl)
    · cases ht
  | stop n =>
    simp only [callStep, Option.ite_none_right_eq_some] at ht
    have ht := ht.2
    unfold Calling.stop at ht
    split at ht
    · exact Or.inl (hfiber ht fun _ => rfl)
    · cases ht

section Responses

variable {u v : State}

/-- What was taken of a response, after a step in which nobody takes. -/
theorem taken_step {b : Action} (ht : step u b = some v) (hb : b ≠ .fiber (.take (.call n))) :
    (v.calls n).taken = (u.calls n).taken := by
  have hturn := calls_step ht n
  generalize v.calls n = q at hturn
  cases hturn with
  | taken h => exact absurd h hb
  | _ => rfl

theorem step_take : step u (.fiber (.take (.call n))) =
    if u.ruby = .idle ∧ n < u.nextCall then some (u.setCall n (·.takeNext)) else none := by
  simp only [step, State.made, FiberOp.ref, State.fiber, Ref.readable, if_true, decide_eq_true_eq]
  rfl

theorem step_park (w : Variable) : step u (.fiber (.park (.call n) w)) =
    if u.ruby = .idle ∧ n < u.nextCall then some (u.setCall n (·.park w)) else none := by
  simp only [step, State.made, FiberOp.ref, State.fiber, Ref.readable, if_true, decide_eq_true_eq]
  rfl

theorem step_unpark : step u (.fiber (.unpark (.call n))) =
    if u.ruby = .idle ∧ n < u.nextCall then some (u.setCall n (·.unpark)) else none := by
  simp only [step, State.made, FiberOp.ref, State.fiber, decide_eq_true_eq]
  rfl

theorem take_call (ht : step u (.fiber (.take (.call n))) = some v) :
    v.calls n = (u.calls n).takeNext := by
  rw [step_take, Option.ite_none_right_eq_some, Option.some.injEq] at ht
  obtain ⟨-, rfl⟩ := ht
  rw [setCall_calls, if_pos rfl]

end Responses

/-! ## What the fiber has -/

/-- How the response ends with an item, after what was collected. -/
def ending (c : Collected) : StreamItem → Option CallEnd
  | .End => some (c.head.elim (.raised (.Upstream "the response ended before its head")) fun head =>
      .returned head.status (Rack.rackHeaders head.headers) c.body)
  | .Failed error => some (.raised error)
  | .Head _ | .Chunk _ => none

/-- What a fiber has of the response `q`. -/
structure CallerInv (q : Tracked) (c : Caller) : Prop where
  /-- It has what was taken, which is no end. -/
  going : (∀ r, c.place ≠ .done r) →
    c.taken = false ∧ c.collected = collect q.taken ∧ ∀ y ∈ q.taken, y.terminal = false
  ended : ∀ r, c.place = .done r →
    r = .stopped ∨ ∃ items x, q.taken = items ++ [x] ∧ ending (collect items) x = some r

theorem CallerInv.of_taken {q q' : Tracked} {c : Caller} (h : CallerInv q c)
    (hq : q'.taken = q.taken) : CallerInv q' c :=
  ⟨fun hp => hq ▸ h.going hp, fun r hr => hq ▸ h.ended r hr⟩

theorem CallerInv.goto {q : Tracked} {c : Caller} (h : CallerInv q c)
    (hc : ∀ r, c.place ≠ .done r) {p : Place} (hp : ∀ r, p = .done r → r = .stopped) :
    CallerInv q (c.goto p) :=
  ⟨fun _ => h.going hc, fun r hr => Or.inl (hp r hr)⟩

theorem CallerInv.receive {q : Tracked} {c : Caller} (h : CallerInv q c) (hc : c.place = .take) :
    CallerInv q.takeNext (c.receive q.stream.takeNext.1) := by
  have hplace : ∀ r, c.place ≠ .done r := by
    rw [hc]
    rintro r ⟨⟩
  obtain ⟨htaken, hcollected, hfree⟩ := h.going hplace
  rcases Tracked.takeNext_cases q with ⟨-, hnone, hsame⟩ | ⟨x, rest, -, hx, -, htake, -⟩
  · rw [hnone, hsame]
    exact h.goto hplace (by rintro r ⟨⟩)
  · rw [hx]
    have hgo : ∀ y, x = y → y.terminal = false →
        CallerInv q.takeNext { c with collected := c.collected.add y } := by
      rintro y rfl hterm
      refine ⟨fun _ => ⟨htaken, ?_, ?_⟩, fun r hr => absurd hr (hplace r)⟩
      · rw [htake, collect_concat, ← hcollected]
      · rw [htake]
        exact terminal_free_concat hfree hterm
    have hend : ∀ c' r, c'.place = .done r → ending c.collected x = some r →
        CallerInv q.takeNext c' := by
      intro c' r hr hending
      refine ⟨fun hp => absurd hr (hp r), fun r' hr' => Or.inr ⟨q.taken, x, htake, ?_⟩⟩
      rw [hr, Place.done.injEq] at hr'
      rw [← hcollected, hending, hr']
    cases x with
    | Head head => exact hgo _ rfl rfl
    | Chunk chunk => exact hgo _ rfl rfl
    | Failed error => exact hend _ (.raised error) rfl rfl
    | End =>
      simp only [Caller.receive]
      split
      · rename_i head hhead
        exact hend _ (.returned head.status (Rack.rackHeaders head.headers) c.collected.body) rfl
          (by rw [ending, hhead]; rfl)
      · rename_i hhead
        exact hend _ (.raised (.Upstream "the response ended before its head")) rfl
          (by rw [ending, hhead]; rfl)

section Steps

variable {m : ℕ}

theorem CallerInv.goes (h : ∀ n, CallerInv (s.up.calls n) (s.callers n)) {p : Place}
    (hc : ∀ r, (s.callers m).place ≠ .done r) (hp : ∀ r, p = .done r → r = .stopped) (n : ℕ) :
    CallerInv ((s.goes m p).up.calls n) ((s.goes m p).callers n) := by
  show CallerInv (s.up.calls n) (Function.update s.callers m ((s.callers m).goto p) n)
  by_cases hnm : n = m
  · subst hnm
    rw [Function.update_self]
    exact (h n).goto hc hp
  · rw [Function.update_of_ne hnm]
    exact h n

/-- What a fiber does to its response takes nothing of another's. -/
theorem CallerInv.fiber (h : ∀ n, CallerInv (s.up.calls n) (s.callers n)) {op : FiberOp} {c : Caller}
    (hf : s.fiber m op c = some t) (hop : ∀ k, op = .take (.call k) → k = m)
    (hc : ∀ up, step s.up (.fiber op) = some up → CallerInv (up.calls m) c) (n : ℕ) :
    CallerInv (t.up.calls n) (t.callers n) := by
  obtain ⟨up, hup, rfl⟩ := Option.map_eq_some_iff.mp hf
  show CallerInv (up.calls n) (Function.update s.callers m c n)
  by_cases hnm : n = m
  · subst hnm
    rw [Function.update_self]
    exact hc up hup
  · rw [Function.update_of_ne hnm]
    refine (h n).of_taken (taken_step hup fun heq => hnm ?_)
    rw [Action.fiber.injEq] at heq
    exact hop n heq

theorem CallerInv.moves (h : ∀ n, CallerInv (s.up.calls n) (s.callers n)) {op : FiberOp} {p : Place}
    (hf : s.fiber m op ((s.callers m).goto p) = some t) (hop : ∀ k, op ≠ .take (.call k))
    (hc : ∀ r, (s.callers m).place ≠ .done r) (hp : ∀ r, p = .done r → r = .stopped) (n : ℕ) :
    CallerInv (t.up.calls n) (t.callers n) := by
  refine CallerInv.fiber h hf (fun k hk => absurd hk (hop k)) (fun up hup => ?_) n
  refine ((h m).goto hc hp).of_taken (taken_step hup fun heq => ?_)
  rw [Action.fiber.injEq] at heq
  exact hop m heq

theorem CallerInv.next (h : ∀ n, CallerInv (s.up.calls n) (s.callers n)) (ht : s.next m = some t)
    (n : ℕ) : CallerInv (t.up.calls n) (t.callers n) := by
  have hgoing : ∀ {p : Place}, (s.callers m).place = p → (∀ r, p ≠ .done r) →
      ∀ r, (s.callers m).place ≠ .done r := fun hp hne r hr => hne r (hp.symm.trans hr)
  unfold Calling.next at ht
  dsimp only at ht
  split at ht
  · rename_i hp
    have hc := hgoing hp (by rintro r ⟨⟩)
    rw [((h m).going hc).1] at ht
    cases ht
    exact CallerInv.goes h hc (by rintro r ⟨⟩) n
  · rename_i hp
    refine CallerInv.fiber h ht (fun k hk => ?_) (fun up hup => ?_) n
    · rw [FiberOp.take.injEq, Ref.call.injEq] at hk
      exact hk.symm
    · rw [take_call hup]
      exact (h m).receive hp
  · rename_i hp
    refine CallerInv.moves h ht (by rintro k ⟨⟩) (hgoing hp (by rintro r ⟨⟩)) ?_ n
    split <;> rintro r ⟨⟩
  · rename_i hp
    obtain ⟨-, rfl⟩ := of_guard ht
    exact CallerInv.goes h (hgoing hp (by rintro r ⟨⟩)) (by rintro r ⟨⟩) n
  · rename_i hp
    exact CallerInv.moves h ht (by rintro k ⟨⟩) (hgoing hp (by rintro r ⟨⟩)) (by rintro r ⟨⟩) n
  · cases ht

theorem CallerInv.stop (h : ∀ n, CallerInv (s.up.calls n) (s.callers n)) (ht : s.stop m = some t)
    (n : ℕ) : CallerInv (t.up.calls n) (t.callers n) := by
  unfold Calling.stop at ht
  split at ht
  · rename_i hp
    refine CallerInv.moves h ht (by rintro k ⟨⟩) (fun r hr => ?_) (fun r hr => ?_) n
    · rw [hp] at hr
      cases hr
    · exact (Place.done.inj hr).symm
  · cases ht

/-- **What every step of the fibers leaves them with.** -/
theorem CallerInv.step (h : ∀ n, CallerInv (s.up.calls n) (s.callers n))
    (ht : callStep s a = some t) (n : ℕ) : CallerInv (t.up.calls n) (t.callers n) := by
  cases a with
  | up b =>
    obtain ⟨hb, ht⟩ := Option.ite_none_right_eq_some.mp ht
    obtain ⟨up, hup, rfl⟩ := Option.map_eq_some_iff.mp ht
    refine (h n).of_taken (taken_step hup ?_)
    rintro rfl
    cases hb
  | next m => exact CallerInv.next h (Option.ite_none_right_eq_some.mp ht).2 n
  | stop m => exact CallerInv.stop h (Option.ite_none_right_eq_some.mp ht).2 n

end Steps

/-! ## What the call comes to -/

/-- What holds of the calls of a request. -/
structure CallInv (s : Calling) (e : List Report) : Prop where
  answers : Answers s.up e
  books : Books s.up
  ended : Ended s.up
  callers : ∀ n, CallerInv (s.up.calls n) (s.callers n)

theorem CallInv.step (h : CallInv s e) (ht : callStep s a = some t) :
    CallInv t (callReport s a e) := by
  have hcallers := CallerInv.step h.callers ht
  rcases callStep_up ht with ⟨b, hb, he⟩ | ⟨hup, he⟩
  · rw [he e]
    exact ⟨h.answers.step h.books hb, h.books.step hb, h.ended.step hb, hcallers⟩
  · rw [he e]
    exact ⟨hup ▸ h.answers, hup ▸ h.books, hup ▸ h.ended, hcallers⟩

theorem CallInv.of_reachable {p : Calling × List Report} (hr : calling.Reachable p) :
    CallInv p.1 p.2 := by
  refine System.Reach.inductNoted (P := CallInv) ?_ (fun s e a t h _ ht => h.step ht) hr
  rintro _ ⟨config, rfl⟩
  refine ⟨Answers.init config, Books.init config, Ended.init config, fun n => ⟨fun _ => ?_, ?_⟩⟩
  · exact ⟨rfl, rfl, by rintro y ⟨⟩⟩
  · rintro r ⟨⟩

theorem answer_fits {r : Report} {limit : ℕ} (h : r.size ≤ limit) :
    answer r.lines r.parts limit = match headOf r.lines with
      | none => .error (.Upstream "the response carried no valid :status")
      | some head => .ok (head, r.parts.flatten) := if_neg (Nat.not_lt.mpr h)

/-- A call that is answered while its fiber is parked. -/
def answeredParked : List CallAction :=
  [.up (.queue "a" [] [] 0), .up .event, .up .work, .up .work, .up .work, .up (.returns .Success 7),
    .up (.order [] []), .next 0, .next 0, .next 0,
    .up (.calloutDone 7 .Success (some [(":status", "200"), ("a", "b")]) (some [[1], [2]])),
    .up .work, .up .work, .up .work, .up .work, .up .work, .up .takeWakeups, .up .resolve,
    .next 0, .next 0, .next 0, .next 0, .next 0, .next 0]

/-- What Envoy reports in it. -/
def answeredReport : Report where
  call := 0
  result := .Success
  headers := some [(":status", "200"), ("a", "b")]
  body := some [[1], [2]]

/-- The worker, the reactor, the Ruby thread in the middle of a close, and the fiber of the call. -/
def Ends (n : ℕ) : CallAction → Prop
  | .up .work | .up (.order ..) | .up .ruby | .up .takeWakeups | .up .resolve => True
  | .next m => m = n
  | _ => False

def Ruby.rank : Ruby → ℕ
  | .idle => 0
  | .wantReset _ => 1
  | .closeRequest _ => 2
  | .closeResponse _ => 3

def Place.rank : Place → ℕ
  | .parked => 4
  | .park | .leave => 3
  | .enter => 2
  | .take => 1
  | .done _ => 0

/-- How far the call is from its end, once it is being told. -/
def callRank (n : ℕ) (s : Calling) : ℕ :=
  8 * cost s.up.handler + 5 * (s.up.calls n).stream.items.length + (s.callers n).place.rank +
    2 * s.up.wakeups.length + s.up.resolving.length + s.up.ruby.rank

/-- What an access leaves of a call's response, of the wakeups and of the Ruby thread. -/
theorem micro_rank (u : State) (n : ℕ) (m : Micro) (rest : List Micro) :
    5 * ((u.micro m rest).calls n).stream.items.length + 2 * (u.micro m rest).wakeups.length ≤
      5 * (u.calls n).stream.items.length + 2 * u.wakeups.length + 5 ∧
      (u.micro m rest).resolving = u.resolving ∧ (u.micro m rest).ruby = u.ruby := by
  cases m with
  | push r x =>
    refine ⟨?_, by cases r <;> rfl, by cases r <;> rfl⟩
    have hw : (u.micro (.push r x) rest).wakeups = u.wakeups := by cases r <;> rfl
    have hlen : ((u.micro (.push r x) rest).calls n).stream.items.length ≤
        (u.calls n).stream.items.length + 1 := by
      by_cases hrn : r = .call n
      · subst hrn
        have hpush : (u.micro (.push (.call n) x) rest).calls n = (u.calls n).push x := by
          show (u.setCall n (·.push x)).calls n = _
          rw [setCall_calls, if_pos rfl]
        rw [hpush]
        rcases Tracked.push_cases (u.calls n) x with ⟨-, hsame⟩ | ⟨-, -, -, -, hin⟩
        · rw [hsame]
          exact Nat.le_succ _
        · show ((u.calls n).push x).stream.inner.items.length ≤ _
          rw [hin, ResponseStreamInner.append_items, List.length_append]
          exact Nat.le_refl _
      · have hsame : (u.micro (.push r x) rest).calls n = u.calls n :=
          queueAt_onQueue_ne (q := .call n) (·.push x) (Ne.symm hrn)
        rw [hsame]
        exact Nat.le_succ _
    rw [hw]
    omega
  | data k bytes endStream =>
    have hsame : (u.deliverData k bytes endStream rest).calls = u.calls ∧
        (u.deliverData k bytes endStream rest).wakeups = u.wakeups ∧
        (u.deliverData k bytes endStream rest).resolving = u.resolving ∧
        (u.deliverData k bytes endStream rest).ruby = u.ruby := by
      unfold State.deliverData
      split
      · exact ⟨rfl, rfl, rfl, rfl⟩
      · dsimp only
        split
        · split <;> exact ⟨rfl, rfl, rfl, rfl⟩
        · exact ⟨rfl, rfl, rfl, rfl⟩
        · exact ⟨rfl, rfl, rfl, rfl⟩
    rw [State.micro, hsame.1, hsame.2.1]
    exact ⟨by omega, hsame.2.2⟩
  | stopped k =>
    simp only [State.micro]
    split <;> exact ⟨Nat.le_add_right _ _, rfl, rfl⟩
  | wake r =>
    refine ⟨?_, rfl, rfl⟩
    simp only [State.micro, List.length_append, List.length_singleton]
    omega
  | _ => exact ⟨Nat.le_add_right _ _, rfl, rfl⟩

theorem ruby_closer {u : State} (hu : u.ruby ≠ .idle) :
    ∃ v, u.rubyStep = some v ∧ v.handler = u.handler ∧ v.calls = u.calls ∧
      v.wakeups = u.wakeups ∧ v.resolving = u.resolving ∧ v.ruby.rank < u.ruby.rank := by
  cases hr : u.ruby with
  | idle => exact absurd hr hu
  | closeResponse m =>
    have hs : u.rubyStep =
        some { u.onQueue (.response m) (·.cancel) with ruby := .closeRequest m } := by
      simp only [State.rubyStep, hr]
    exact ⟨_, hs, rfl, rfl, rfl, rfl, Nat.lt_succ_self 2⟩
  | closeRequest m =>
    have hs : u.rubyStep = some { u.onQueue (.request m) (·.cancel) with ruby := .wantReset m } := by
      simp only [State.rubyStep, hr]
    exact ⟨_, hs, rfl, rfl, rfl, rfl, Nat.lt_succ_self 1⟩
  | wantReset m =>
    have hs : u.rubyStep =
        some { u.setChannel m ({ · with resetWanted := true }) with ruby := .idle } := by
      simp only [State.rubyStep, hr]
    exact ⟨_, hs, rfl, rfl, rfl, rfl, Nat.lt_succ_self 0⟩

/-- What was told of between callbacks was told whole. -/
theorem Answers.told_whole {u : State} (h : Answers u e) (hh : u.handler = []) (hk : u.said n ≠ []) :
    (u.calls n).stream.ended = true := by
  have hsaid : u.said n = (u.calls n).accepted := by
    rw [State.said, hh]
    exact List.append_nil _
  have hterm : ∃ x ∈ u.said n, x.terminal = true := by
    by_cases hr : ∃ r ∈ e, r.call = n
    · obtain ⟨r, hr, rfl⟩ := hr
      rw [h.reported r hr]
      exact exists_terminal_deliver ..
    · rcases h.unreported n fun r hm heq => hr ⟨r, hm, heq⟩ with hnil | ⟨text, htext⟩
      · exact absurd hnil hk
      · rw [htext]
        exact ⟨_, List.mem_cons_self, rfl⟩
  rw [Tracked.ended_iff, ← hsaid]
  exact hterm

theorem Books.accepted_of_done {u : State} (h : Books u) {i : Item} (hi : i ∈ u.done) :
    i ∈ u.accepted := by
  refine h.accepted_of_handed (h.handed.mem_iff.mpr ?_)
  simp only [State.done, State.inHand, State.atWork, List.mem_append] at hi ⊢
  tauto

section Steps

variable (hacc : .call n ∈ s.up.accepted)

include hacc

theorem fiber_closer {o : FiberOp} {f : Tracked → Tracked} {c : Caller}
    (hn : s.next n = s.fiber n o c) (hstep : step s.up (.fiber o) = some (s.up.setCall n f))
    (hlt : 5 * (f (s.up.calls n)).stream.items.length + c.place.rank <
      5 * (s.up.calls n).stream.items.length + (s.callers n).place.rank) :
    ∃ a t, Ends n a ∧ callStep s a = some t ∧ callRank n t < callRank n s := by
  refine ⟨.next n, ⟨s.up.setCall n f, Function.update s.callers n c⟩, rfl, ?_, ?_⟩
  · simp only [callStep, hacc, if_true]
    rw [hn, Calling.fiber, hstep]
    rfl
  · simp only [callRank, setCall_calls, if_true, Function.update_self]
    show 8 * cost s.up.handler + _ + _ + 2 * s.up.wakeups.length + s.up.resolving.length +
      s.up.ruby.rank < _
    omega

theorem goes_closer {p : Place} (hn : s.next n = some (s.goes n p))
    (hlt : p.rank < (s.callers n).place.rank) :
    ∃ a t, Ends n a ∧ callStep s a = some t ∧ callRank n t < callRank n s := by
  refine ⟨.next n, s.goes n p, rfl, ?_, ?_⟩
  · simp only [callStep, hacc, if_true]
    exact hn
  · simp only [callRank, Calling.goes, Function.update_self, Caller.goto]
    omega

end Steps

/-- The reactor's part: it takes the wakeups it was told of, and resolves them one after the other. -/
theorem reactor_closer (hl : s.up.listed (.call n)) :
    ∃ a t, Ends n a ∧ callStep s a = some t ∧ callRank n t < callRank n s := by
  cases hres : s.up.resolving with
  | nil =>
    have hmem : .call n ∈ s.up.wakeups := by
      refine hl.resolve_right ?_
      rw [hres]
      exact List.not_mem_nil
    have hpos := List.length_pos_of_mem hmem
    refine ⟨.up .takeWakeups, ⟨{ s.up with wakeups := [], resolving := s.up.wakeups }, s.callers⟩,
      trivial, ?_, ?_⟩
    · simp only [callStep, Action.others, if_true, step, hres, Option.map_some]
    · simp only [callRank, hres, List.length_nil]
      omega
  | cons r rest =>
    refine ⟨.up .resolve, ⟨{ s.up.onQueue r (·.unpark) with resolving := rest }, s.callers⟩,
      trivial, ?_, ?_⟩
    · simp only [callStep, Action.others, if_true, step, hres, Option.map_some]
    · have hitems : ((s.up.onQueue r (·.unpark)).calls n).stream.items =
          (s.up.calls n).stream.items := by
        by_cases hr : r = .call n
        · subst hr
          rw [State.onQueue, setCall_calls, if_pos rfl]
          rfl
        · have hsame : (s.up.onQueue r (·.unpark)).calls n = s.up.calls n :=
            queueAt_onQueue_ne (q := .call n) (·.unpark) (Ne.symm hr)
          rw [hsame]
      have heq := onQueue_eq s.up r (·.unpark)
      simp only [callRank, hitems, hres, List.length_cons]
      rw [heq]
      dsimp only
      omega

theorem rank_receive (c : Caller) (x : StreamItem) :
    (c.receive (some x)).place.rank ≤ c.place.rank := by
  cases x with
  | Head _ | Chunk _ => exact Nat.le_refl _
  | Failed error => exact Nat.zero_le _
  | End =>
    simp only [Caller.receive]
    split <;> exact Nat.zero_le _

section Closer

variable (h : CallInv s e) (hk : s.up.said n ≠ [])

include h hk

theorem caller_closer (hh : s.up.handler = []) (hruby : s.up.ruby = .idle)
    (hnot : ∀ r, (s.callers n).place ≠ .done r) :
    ∃ a t, Ends n a ∧ callStep s a = some t ∧ callRank n t < callRank n s := by
  have hacc : .call n ∈ s.up.accepted := h.books.accepted_of_done (h.answers.done n hk)
  have hmade : n < s.up.nextCall := h.books.known (.call n) (List.mem_append_left _ hacc)
  have hended := h.answers.told_whole hh hk
  obtain ⟨hcancelled, hpaused⟩ := h.answers.opened n
  obtain ⟨htaken, -, hfree⟩ := (h.callers n).going hnot
  cases hp : (s.callers n).place with
  | enter =>
    refine goes_closer hacc (p := .take) ?_ ?_
    · simp only [Calling.next, hp, htaken, Bool.false_eq_true, if_false]
    · rw [hp]
      exact Nat.lt_succ_self 1
  | take =>
    have hne := Tracked.items_ne_nil hcancelled hended hfree
    rcases Tracked.takeNext_cases (s.up.calls n) with ⟨hidle, -⟩ | ⟨x, rest, hitems, hx, -, -, hin⟩
    · exact absurd (hidle.resolve_left (by rw [hpaused]; decide)) hne
    · refine fiber_closer hacc (o := .take (.call n)) (f := (·.takeNext))
        (c := (s.callers n).receive (some x)) ?_ ?_ ?_
      · simp only [Calling.next, hp, hx]
      · rw [step_take, if_pos ⟨hruby, hmade⟩]
      · have hrank := rank_receive (s.callers n) x
        have hlen : (s.up.calls n).takeNext.stream.items = rest := congrArg (·.items) hin
        rw [hlen, hitems, List.length_cons]
        omega
  | park =>
    have hpark : (s.up.calls n).stream.park Calling.callVariable = (false, (s.up.calls n).stream) := by
      rcases ResponseStream.park_cases (s.up.calls n).stream Calling.callVariable with
        ⟨-, hno⟩ | ⟨-, hopen, -⟩
      · exact hno
      · rw [hended] at hopen
        cases hopen
    refine fiber_closer hacc (o := .park (.call n) Calling.callVariable)
      (f := (·.park Calling.callVariable)) (c := (s.callers n).goto .enter) ?_ ?_ ?_
    · simp only [Calling.next, hp, hpark, Bool.false_eq_true, if_false]
    · rw [step_park, if_pos ⟨hruby, hmade⟩]
    · have hitems : ((s.up.calls n).park Calling.callVariable).stream.items =
          (s.up.calls n).stream.items := ResponseStream.park_items _
      rw [hitems, hp]
      exact Nat.lt_succ_self _
  | parked =>
    cases hw : (s.up.calls n).stream.waiter with
    | none =>
      refine goes_closer hacc (p := .leave) ?_ ?_
      · simp only [Calling.next, hp, hw, if_true]
      · rw [hp]
        exact Nat.lt_succ_self 3
    | some w =>
      -- between callbacks who waits on a response that is over is listed for the reactor
      have hheard := h.answers.heard n (by rw [parked, hw]; rfl) hended
      rw [hh] at hheard
      exact reactor_closer (hheard.resolve_left (by rintro ⟨⟩))
  | leave =>
    refine fiber_closer hacc (o := .unpark (.call n)) (f := (·.unpark))
      (c := (s.callers n).goto .enter) ?_ ?_ ?_
    · simp only [Calling.next, hp]
    · rw [step_unpark, if_pos ⟨hruby, hmade⟩]
    · rw [hp]
      exact Nat.lt_succ_self _
  | done r => exact absurd hp (hnot r)

/-- **A call that is being told comes a step nearer to its end.** -/
theorem call_closer (hnot : ∀ r, (s.callers n).place ≠ .done r) :
    ∃ a t, Ends n a ∧ callStep s a = some t ∧ callRank n t < callRank n s := by
  cases hh : s.up.handler with
  | cons m rest =>
    refine ⟨.up .work, { s with up := s.up.micro m rest }, trivial, ?_, ?_⟩
    · simp only [callStep, Action.others, if_true, step, hh, Option.map_some]
    · have hcost := cost_micro (s := s.up) m rest
      obtain ⟨hrank, hres, hruby⟩ := micro_rank s.up n m rest
      simp only [callRank, hres, hruby, hh]
      omega
  | nil =>
    by_cases hruby : s.up.ruby = .idle
    · exact caller_closer h hk hh hruby hnot
    · have hstep := ruby_closer hruby
      obtain ⟨u, hu, hhandler, hcalls, hwakeups, hres, hrank⟩ := hstep
      refine ⟨.up .ruby, { s with up := u }, trivial, ?_, ?_⟩
      · simp only [callStep, Action.others, if_true, step, hu, Option.map_some]
      · simp only [callRank, hhandler, hcalls, hwakeups, hres]
        omega

end Closer

/-- What a call was told is not taken back. -/
theorem CallInv.said_kept (h : CallInv s e) (ht : callStep s a = some t) (hk : s.up.said n ≠ []) :
    t.up.said n ≠ [] := by
  rcases callStep_up ht with ⟨b, hb, -⟩ | ⟨hup, -⟩
  · rcases h.answers.said_step h.books hb n with ⟨hsame, -⟩ | ⟨hnil, -⟩
    · rwa [hsame]
    · exact absurd hnil hk
  · rwa [hup]

theorem told_ends {p : Calling × List Report} (hr : calling.Reachable p) (hk : p.1.up.said n ≠ []) :
    calling.Leads (Ends n) (fun q => ∃ c, (q.1.callers n).place = .done c) p := by
  have hlead := System.Leads.of_reach (A := Ends n) (P := fun q => ∃ c, (q.1.callers n).place = .done c)
    (K := fun q => q.1.up.said n ≠ []) (fun q => callRank n q.1) ?_ hr hk
  · exact hlead.bind fun q hq => .here hq.2
  · rintro ⟨s, e⟩ hs hsaid hnot
    have h := CallInv.of_reachable hs
    obtain ⟨a, t, ha, ht, hlt⟩ := call_closer h hsaid fun r hr => hnot ⟨r, hr⟩
    exact ⟨a, (t, callReport s a e), ha, System.recording_step.mpr ⟨ht, rfl⟩, h.said_kept ht hsaid, hlt⟩

/-- The worker's own steps are steps of the whole. -/
theorem leads_worker {P : State → Prop} {u : State} (hl : system.Leads Worker P u)
    {callers : ℕ → Caller} {e : List Report} (hr : calling.Reachable (⟨u, callers⟩, e)) :
    calling.Leads (Ends n) (fun q => P q.1.up ∧ calling.Reachable q) (⟨u, callers⟩, e) := by
  induction hl generalizing e with
  | here hp => exact .here ⟨hp, hr⟩
  | @next u v b hb ht _ ih =>
    have hothers : b.others = true := by
      cases b with
      | fiber op => exact hb.elim
      | _ => rfl
    have hends : Ends n (.up b) := by
      cases b with
      | work => trivial
      | order => trivial
      | _ => exact hb.elim
    have hstep : calling.step (⟨u, callers⟩, e) (.up b) = some (⟨v, callers⟩, report u b e) := by
      refine System.recording_step.mpr ⟨?_, rfl⟩
      show callStep ⟨u, callers⟩ (.up b) = some ⟨v, callers⟩
      have ht : step u b = some v := ht
      simp only [callStep, hothers, if_true, ht, Option.map_some]
    exact .next hends hstep (ih (.step hr trivial hstep))

/-- **A call comes to its end**, by the steps of the worker, the reactor and its own fiber, once Envoy
has reported it done or its request has finished. -/
theorem call_ends {p : Calling × List Report} (hr : calling.Reachable p)
    (ha : .call n ∈ p.1.up.accepted)
    (ho : (∃ r ∈ p.2, r.call = n) ∨ p.1.up.stage ≠ .live) :
    calling.Leads (Ends n) (fun q => ∃ c, (q.1.callers n).place = .done c) p := by
  obtain ⟨s, e⟩ := p
  have h := CallInv.of_reachable hr
  rcases ho with ⟨r, hmem, rfl⟩ | hstage
  · refine told_ends hr ?_
    rw [h.answers.reported r hmem]
    exact Answers.told_ne_nil r _
  · have hl := (leads_idle h.books hstage).inv (I := fun u => .call n ∈ u.accepted)
      (fun u b v _ hu hv => (accepted_kept hv).subset hu) ha
    refine (leads_worker hl hr).bind ?_
    rintro ⟨t, e'⟩ ⟨⟨⟨hidle, hst⟩, hacc⟩, ht⟩
    refine told_ends ht ?_
    have h' := CallInv.of_reachable ht
    have hcompleted : Completed t.up := by
      cases hs : t.up.stage with
      | live => exact absurd (hst.symm.trans hs) hstage
      | complete => exact Or.inl ⟨hs, hidle⟩
      | dropped => exact Or.inr hs
    obtain ⟨hhanded, hsettled⟩ := h'.books.accepted_perm hcompleted
    have hover := h'.ended.settled _ (hsettled.mem_iff.mp (hhanded.mem_iff.mp hacc))
    have hended : (t.up.calls n).stream.ended = true := by
      have hover : isOver (t.up.calls n) = true := hover
      rw [isOver, (h'.answers.opened n).1, Bool.false_or] at hover
      exact hover
    obtain ⟨x, hx, -⟩ := Tracked.ended_iff.mp hended
    exact List.ne_nil_of_mem (List.mem_append_left _ hx)

/-- Envoy has just reported the call done, and its fiber is parked. -/
theorem call_ends_answeredParked :
    ∃ p, calling.run ({ up := { config := { settings := ⟨10, 10⟩ } } }, [])
        (answeredParked.take 11) = some p ∧ (p.1.callers 0).place = .parked ∧
      calling.Leads (Ends 0) (fun q => ∃ c, (q.1.callers 0).place = .done c) p := by
  obtain ⟨p, hrun, hreports, hplace, hacc⟩ : ∃ p,
      calling.run ({ up := { config := { settings := ⟨10, 10⟩ } } }, [])
          (answeredParked.take 11) = some p ∧
        p.2 = [answeredReport] ∧ (p.1.callers 0).place = .parked ∧ p.1.up.accepted = [.call 0] :=
    ⟨_, rfl, rfl, rfl, rfl⟩
  refine ⟨p, hrun, hplace, call_ends (System.reach_of_run ⟨⟨_, rfl⟩, rfl⟩ hrun) ?_ (Or.inl ?_)⟩
  · rw [hacc]
    exact List.mem_cons_self
  · rw [hreports]
    exact ⟨answeredReport, List.mem_cons_self, rfl⟩

end Ruvoy.Upstream
