import Ruvoy.Upstream.Ends

/-!
# What a callback has left to do

* `Micro.basic`, `Basic`: accesses that push no chunk, where every delivery is one that was reported;
* `basic_close`, `basic_onReset`, …: the scripts of the handlers;
* `Scripted`, **`handler_step`**: the script after a step is what was left of the one before with basic
  accesses ahead of it, or a new one: basic, but for the answer to a call.
-/

set_option autoImplicit false

namespace Ruvoy.Upstream

open Runs

/-- The access pushes no chunk and nothing to a request queue; bytes that it delivers are not empty, and
`p` holds of them. -/
def Micro.basic (p : Bytes → Bool) : Micro → Bool
  | .push (.request _) _ => false
  | .push _ (.Chunk _) => false
  | .data _ bytes _ => !bytes.isEmpty && p bytes
  | _ => true

/-- All accesses of a script. -/
def Basic (p : Bytes → Bool) (l : List Micro) : Prop := l.all (Micro.basic p) = true

section Scripts

variable {p : Bytes → Bool}

theorem Basic.append {l l' : List Micro} (h : Basic p l) (h' : Basic p l') : Basic p (l ++ l') := by
  rw [Basic, List.all_append, h, h', Bool.and_self]

theorem basic_flatMap {β : Type} {bs : List β} {f : β → List Micro} (h : ∀ b, Basic p (f b)) :
    Basic p (bs.flatMap f) := by
  induction bs with
  | nil => rfl
  | cons b bs ih =>
    rw [List.flatMap_cons]
    exact (h b).append ih

theorem basic_map {β : Type} {bs : List β} {f : β → Micro} (h : ∀ b, (f b).basic p = true) :
    Basic p (bs.map f) := by
  rw [Basic, List.all_map, List.all_eq_true]
  exact fun b _ => h b

variable (o : OpenStream)

theorem basic_headersArrived (headers : Headers) (endStream : Bool) :
    Basic p (o.headersArrived headers endStream).2 := by
  unfold OpenStream.headersArrived
  split
  · rfl
  · split
    · rfl
    · cases endStream <;> rfl

theorem basic_dataArrived (handle : ℕ) {data : List Bytes} (endStream : Bool)
    (hp : data.flatten ≠ [] → p data.flatten = true) :
    Basic p (o.dataArrived handle data endStream).2 := by
  unfold OpenStream.dataArrived
  split
  · rfl
  · split
    · cases endStream <;> rfl
    · rename_i hne
      have hp := hp fun h => hne (List.isEmpty_iff.mpr h)
      rw [Bool.not_eq_true] at hne
      simp [Basic, Micro.basic, hne, hp]

theorem basic_trailersArrived (trailers : Headers) : Basic p (o.trailersArrived trailers).2 := by
  unfold OpenStream.trailersArrived
  split <;> rfl

theorem basic_completed : Basic p o.completed.2 := by
  unfold OpenStream.completed
  split <;> rfl

theorem basic_resetByEnvoy (reason : ResetReason) : Basic p (o.resetByEnvoy reason).2 := by
  unfold OpenStream.resetByEnvoy
  dsimp only
  split <;> split <;> rfl

theorem basic_abandon : Basic p o.abandon.2 := by
  unfold OpenStream.abandon
  dsimp only
  split <;> split <;> rfl

theorem basic_close {r : OpenStream × List Micro} (h : Basic p r.2) : Basic p (OpenStream.close r) :=
  (h.append (show Basic p (wakeStream _) from rfl)).append rfl

theorem basic_onReset (reason : ResetReason) : Basic p (o.onReset reason) := by
  unfold OpenStream.onReset
  split
  · exact basic_close (basic_completed o)
  · split
    · rfl
    · exact basic_close (basic_resetByEnvoy o reason)

theorem basic_abandoned (calls : List PendingCall) (streams : List UpstreamStreamRequest)
    (opened : List OpenStream) (counting : Bool) :
    Basic p (calls.flatMap State.abandonCall ++ streams.flatMap State.abandonQueued ++
      opened.flatMap State.abandonOpen ++
      (if counting then calls.map (fun c => Micro.count c.item c.cluster .Abandoned) ++
        streams.map (fun r => Micro.count r.item r.cluster .Abandoned) ++
        opened.map (fun o => Micro.count o.item o.cluster o.abandon.1.counted) else [])) := by
  refine Basic.append (Basic.append (Basic.append ?_ ?_) ?_) ?_
  · exact basic_flatMap fun c => rfl
  · exact basic_flatMap fun r => rfl
  · exact basic_flatMap fun o => (basic_abandon o).append rfl
  · split
    · exact Basic.append (Basic.append (basic_map fun _ => rfl) (basic_map fun _ => rfl))
        (basic_map fun _ => rfl)
    · rfl

end Scripts

/-! ## The script after a step -/

variable {s t : State}

/-- What is left of the callback after a step `a` from `s`. -/
inductive Scripted (p : Bytes → Bool) (s : State) (a : Action) : List Micro → Prop
  /-- No callback begins or goes on. -/
  | rests : (a = .work → s.handler = []) → Scripted p s a s.handler
  | goesOn {m : Micro} {rest l : List Micro} : a = .work → s.handler = m :: rest → Basic p l →
    Scripted p s a (l ++ rest)
  | begins {l : List Micro} : s.handler = [] → Basic p l → Scripted p s a l
  /-- A call is answered. -/
  | answered {id : ℕ} {result : CalloutResult} {headers : Option Headers} {body : Option (List Bytes)}
    {call : PendingCall} {l : List Micro} : a = .calloutDone id result headers body →
    s.handler = [] → Basic p l →
    Scripted p s a ((deliver result headers body s.config.settings.maxResponseBytes).1.map
      (.push (.call call.response)) ++ l)

section Handler

variable {p : Bytes → Bool} {a : Action}

theorem scripted_micro {m : Micro} {rest : List Micro} (hh : s.handler = m :: rest) :
    Scripted p s .work (s.micro m rest).handler := by
  have hgo : ∀ {l : List Micro}, Basic p l → Scripted p s .work (l ++ rest) :=
    fun hl => .goesOn rfl hh hl
  have hrest : Scripted p s .work rest := hgo (l := []) rfl
  cases m with
  | data k bytes endStream =>
    simp only [State.micro, State.deliverData]
    split
    · exact hrest
    · split
      · split
        · exact hgo (l := [_]) rfl
        · exact hrest
      · exact hgo (l := [_, _, _]) rfl
      · exact hgo (l := [_]) rfl
  | stopped k =>
    simp only [State.micro]
    split <;> exact hrest
  | resetStopped o reason => exact hgo (basic_close (basic_resetByEnvoy _ reason))
  | checkWriter n =>
    simp only [State.micro]
    split
    · exact hgo (l := [_]) rfl
    · exact hrest
  | _ => exact hrest

theorem scripted_outerStep {o : Outer} {rest : List Outer} (hh : s.handler = [])
    (ht : s.outerStep o rest = some t) : Scripted p s a t.handler := by
  have hsame : Scripted p s a s.handler := .rests fun _ => hh
  cases o with
  | startStream r =>
    simp only [State.outerStep] at ht
    split at ht <;> cases ht
    · exact .begins hh rfl
    · exact hsame
  | pumpOne k =>
    simp only [State.outerStep] at ht
    split at ht
    · cases ht
      exact hsame
    · split at ht
      · split at ht <;> cases ht <;> exact hsame
      · split at ht <;> cases ht <;> exact hsame
  | pumpTake k =>
    simp only [State.outerStep] at ht
    split at ht <;> cases ht
    · exact hsame
    · unfold State.sendItem
      split <;> exact hsame
  | pumpWriter k =>
    simp only [State.outerStep] at ht
    split at ht <;> cases ht
    · exact hsame
    · dsimp only
      split
      · exact .begins hh rfl
      · exact .begins hh rfl
  | inCallout r => cases ht
  | inStart r requestEnded => cases ht
  | pump => cases ht
  | abandon c => cases ht
  | _ =>
    cases ht
    exact hsame

theorem scripted_envoyReturns {result : InitResult} {id : ℕ} (ha : a ≠ .work)
    (ht : s.envoyReturns result id = some t) : Scripted p s a t.handler := by
  have hsame : Scripted p s a s.handler := .rests fun h => absurd h ha
  cases envoyReturns_moves ht with
  | call | stream => exact hsame
  | noCall hh | noStream hh => exact .begins hh rfl

theorem scripted_ordered {calls handles : List ℕ} (ha : a ≠ .work)
    (ht : s.ordered calls handles = some t) : Scripted p s a t.handler := by
  cases ordered_moves ht with
  | pump => exact .rests fun h => absurd h ha
  | abandon hh => exact .begins hh (basic_abandoned ..)

/-- A fiber leaves the worker's part alone. -/
theorem fiber_eq {op : FiberOp} (ht : s.fiber op = some t) :
    t = { s with calls := t.calls, channels := t.channels, ruby := t.ruby } := by
  cases op with
  | take r =>
    simp only [State.fiber, Option.ite_none_right_eq_some, Option.some.injEq] at ht
    obtain ⟨-, rfl⟩ := ht
    cases r <;> rfl
  | park r v =>
    simp only [State.fiber, Option.ite_none_right_eq_some, Option.some.injEq] at ht
    obtain ⟨-, rfl⟩ := ht
    cases r <;> rfl
  | unpark r =>
    cases ht
    cases r <;> rfl
  | _ =>
    cases ht
    rfl

theorem rubyStep_eq (ht : s.rubyStep = some t) :
    t = { s with calls := t.calls, channels := t.channels, ruby := t.ruby } := by
  cases rubyStep_moves ht <;> rfl

theorem scripted_onOpenStream {k : ℕ} {f : OpenStream → OpenStream × List Micro} (ha : a ≠ .work)
    (hc : s.reports k = true) (hf : ∀ o, Basic p (f o).2) :
    Scripted p s a (s.onOpenStream k f).handler := by
  unfold State.onOpenStream
  split
  · exact .rests fun h => absurd h ha
  · exact .begins (callable_handler (reports_callable hc)) ((hf _).append rfl)

theorem scripted_onFinished {k : ℕ} {f : OpenStream → List Micro} (ha : a ≠ .work)
    (hc : s.reports k = true) (hf : ∀ o, Basic p (f o)) :
    Scripted p s a (s.onFinished k f).handler := by
  unfold State.onFinished
  split
  · exact .rests fun h => absurd h ha
  · exact .begins (callable_handler (reports_callable hc)) (hf _)

/-- **What is left of a callback after a step.** -/
theorem handler_step (ht : step s a = some t)
    (hp : ∀ k data endStream, a = .streamData k data endStream → data.flatten ≠ [] →
      p data.flatten = true) : Scripted p s a t.handler := by
  cases step_moves ht with
  | queue =>
    unfold State.queue
    dsimp only
    split <;> exact .rests (by rintro ⟨⟩)
  | queueStream =>
    unfold State.queueStream
    dsimp only
    split <;> split <;> exact .rests (by rintro ⟨⟩)
  | fiber _ ht =>
    rw [fiber_eq ht]
    exact .rests (by rintro ⟨⟩)
  | ruby ht =>
    rw [rubyStep_eq ht]
    exact .rests (by rintro ⟨⟩)
  | calloutDone hc =>
    unfold State.onHttpCalloutDone
    split
    · exact .rests (by rintro ⟨⟩)
    · exact .answered rfl (callable_handler hc) rfl
  | streamHeaders hc headers endStream =>
    exact scripted_onOpenStream (by rintro ⟨⟩) hc fun o => basic_headersArrived o headers endStream
  | @streamData k hc data endStream =>
    exact scripted_onOpenStream (by rintro ⟨⟩) hc fun o =>
      basic_dataArrived o k endStream (hp k data endStream rfl)
  | streamTrailers hc trailers =>
    exact scripted_onOpenStream (by rintro ⟨⟩) hc fun o => basic_trailersArrived o trailers
  | streamComplete hc =>
    exact scripted_onFinished (by rintro ⟨⟩) hc fun o => basic_close (basic_completed o)
  | streamReset hc reason =>
    exact scripted_onFinished (by rintro ⟨⟩) hc fun o => basic_onReset o reason
  | micro hh => exact scripted_micro hh
  | outerStep hh _ ht => exact scripted_outerStep hh ht
  | returns ht => exact scripted_envoyReturns (by rintro ⟨⟩) ht
  | order ht => exact scripted_ordered (by rintro ⟨⟩) ht
  | @resolve r =>
    rw [onQueue_eq s r]
    exact .rests (by rintro ⟨⟩)
  | event | complete | drop | takeWakeups => exact .rests (by rintro ⟨⟩)

end Handler

end Ruvoy.Upstream
