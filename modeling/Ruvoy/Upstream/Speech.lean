import Ruvoy.Upstream.Count
import Ruvoy.Upstream.Queues
import Ruvoy.Upstream.Told

/-!
# What a callback is about to tell

The response stream of a call is written by the worker alone, in the callbacks: by `deliver` when Envoy
reports the call done, and with one failure when Envoy turns the call away or the request finishes
first. Whoever is told something is woken in the same callback.

* `CallTurn`, `calls_step`: what a step does to the response of a call;
* `saying`, `Mute`, `Heralded`: what a list of accesses tells a call, and that it wakes it then;
* `Report`, `reporting`: the runs, with what Envoy reported of each call;
* `Speech`, **`speech_step`**: what is left to tell after a step;
* `done_step`, `listed_step`: what is counted stays counted, and a wakeup stays owed until resolved.
-/

set_option autoImplicit false

namespace Ruvoy.Upstream

open Runs

variable {s t : State}

/-! ## The response of a call -/

/-- What a step `a` from `s` does to the response of a call: it is the given one after the step. -/
inductive CallTurn (s : State) (a : Action) (n : ℕ) : Tracked → Prop
  | same : (a = .work → ∀ x rest, s.handler ≠ .push (.call n) x :: rest) →
    (a = .resolve → ∀ rest, s.resolving ≠ .call n :: rest) → CallTurn s a n (s.calls n)
  | pushed {x : StreamItem} {rest : List Micro} : a = .work →
    s.handler = .push (.call n) x :: rest → CallTurn s a n ((s.calls n).push x)
  | taken : a = .fiber (.take (.call n)) → CallTurn s a n (s.calls n).takeNext
  | parked {v : Variable} : a = .fiber (.park (.call n) v) → CallTurn s a n ((s.calls n).park v)
  | unparked : a = .fiber (.unpark (.call n)) → CallTurn s a n (s.calls n).unpark
  | resolved {rest : List Ref} : a = .resolve → s.resolving = .call n :: rest →
    CallTurn s a n (s.calls n).unpark

section Calls

variable {a : Action} {n : ℕ}

theorem turn_same (ha : a ≠ .work) (hr : a ≠ .resolve) (hc : t.calls = s.calls) :
    CallTurn s a n (t.calls n) := by
  rw [hc]
  exact .same (fun h => absurd h ha) fun h => absurd h hr

/-- One queue is changed: that of this call, another one, or none of a call. -/
theorem turn_onQueue {r : Ref} {f : Tracked → Tracked} (hc : t.calls = (s.onQueue r f).calls)
    (hother : r ≠ .call n → (a = .work → ∀ x rest, s.handler ≠ .push (.call n) x :: rest) ∧
      (a = .resolve → ∀ rest, s.resolving ≠ .call n :: rest))
    (hf : r = .call n → CallTurn s a n (f (s.calls n))) : CallTurn s a n (t.calls n) := by
  rw [hc]
  by_cases hr : r = .call n
  · subst hr
    rw [State.onQueue, setCall_calls, if_pos rfl]
    exact hf rfl
  · have hsame : (s.onQueue r f).calls n = s.calls n := queueAt_onQueue_ne (q := .call n) f (Ne.symm hr)
    rw [hsame]
    exact .same (hother hr).1 (hother hr).2

theorem turn_micro {m : Micro} {rest : List Micro} (hh : s.handler = m :: rest) :
    CallTurn s .work n ((s.micro m rest).calls n) := by
  have hsame : ∀ t : State, (∀ x, m ≠ .push (.call n) x) → t.calls = s.calls →
      CallTurn s .work n (t.calls n) := by
    intro t hm hc
    rw [hc]
    refine .same (fun _ x rest' h => hm x ?_) (by rintro ⟨⟩)
    rw [hh] at h
    exact (List.cons.inj h).1
  cases m with
  | push r x =>
    refine turn_onQueue (f := (·.push x)) rfl (fun hr => ⟨fun _ y rest' h => hr ?_, by rintro ⟨⟩⟩)
      fun hr => ?_
    · rw [hh] at h
      exact (Micro.push.inj (List.cons.inj h).1).1
    · exact .pushed rfl (hr ▸ hh)
  | data k bytes endStream =>
    have hcalls : (s.deliverData k bytes endStream rest).calls = s.calls := by
      unfold State.deliverData
      split
      · rfl
      · dsimp only
        split
        · split <;> rfl
        · rfl
        · rfl
    exact hsame (s.deliverData k bytes endStream rest) (by rintro _ ⟨⟩) hcalls
  | stopped k =>
    have hcalls : (s.micro (.stopped k) rest).calls = s.calls := by
      simp only [State.micro]
      split <;> rfl
    exact hsame (s.micro (.stopped k) rest) (by rintro _ ⟨⟩) hcalls
  | _ => exact hsame (s.micro _ rest) (by rintro _ ⟨⟩) rfl

theorem calls_outerStep {o : Outer} {rest : List Outer} (ht : s.outerStep o rest = some t) :
    t.calls = s.calls := by
  cases o with
  | startStream r =>
    simp only [State.outerStep] at ht
    split at ht <;> cases ht <;> rfl
  | pumpOne k =>
    simp only [State.outerStep] at ht
    split at ht
    · cases ht
      rfl
    · split at ht
      · split at ht <;> cases ht <;> rfl
      · split at ht <;> cases ht <;> rfl
  | pumpTake k =>
    simp only [State.outerStep] at ht
    split at ht <;> cases ht
    · rfl
    · unfold State.sendItem
      split <;> rfl
  | pumpWriter k =>
    simp only [State.outerStep] at ht
    split at ht <;> cases ht <;> rfl
  | inCallout r => cases ht
  | inStart r requestEnded => cases ht
  | pump => cases ht
  | abandon c => cases ht
  | _ =>
    cases ht
    rfl

theorem turn_fiber {op : FiberOp} (ht : s.fiber op = some t) :
    CallTurn s (.fiber op) n (t.calls n) := by
  have hwork : ∀ {r : Ref}, r ≠ .call n →
      (Action.fiber op = .work → ∀ x rest, s.handler ≠ .push (.call n) x :: rest) ∧
        (Action.fiber op = .resolve → ∀ rest, s.resolving ≠ .call n :: rest) :=
    fun _ => ⟨by rintro ⟨⟩, by rintro ⟨⟩⟩
  cases op with
  | take r =>
    simp only [State.fiber, Option.ite_none_right_eq_some, Option.some.injEq] at ht
    obtain ⟨-, rfl⟩ := ht
    exact turn_onQueue (f := (·.takeNext)) rfl hwork fun hr => .taken (hr ▸ rfl)
  | park r v =>
    simp only [State.fiber, Option.ite_none_right_eq_some, Option.some.injEq] at ht
    obtain ⟨-, rfl⟩ := ht
    exact turn_onQueue (f := (·.park v)) rfl hwork fun hr => .parked (hr ▸ rfl)
  | unpark r =>
    cases ht
    exact turn_onQueue (f := (·.unpark)) rfl hwork fun hr => .unparked (hr ▸ rfl)
  | _ =>
    cases ht
    exact turn_same (by rintro ⟨⟩) (by rintro ⟨⟩) rfl

/-- **What a step does to the response of a call**: nobody cancels or pauses it. -/
theorem calls_step (ht : step s a = some t) (n : ℕ) : CallTurn s a n (t.calls n) := by
  cases step_moves ht with
  | queue =>
    refine turn_same (by rintro ⟨⟩) (by rintro ⟨⟩) ?_
    unfold State.queue
    dsimp only
    split <;> rfl
  | queueStream =>
    refine turn_same (by rintro ⟨⟩) (by rintro ⟨⟩) ?_
    unfold State.queueStream
    dsimp only
    split <;> split <;> rfl
  | fiber _ ht => exact turn_fiber ht
  | ruby ht =>
    refine turn_same (by rintro ⟨⟩) (by rintro ⟨⟩) ?_
    cases rubyStep_moves ht <;> rfl
  | calloutDone =>
    refine turn_same (by rintro ⟨⟩) (by rintro ⟨⟩) ?_
    unfold State.onHttpCalloutDone
    split <;> rfl
  | streamHeaders | streamData | streamTrailers =>
    refine turn_same (by rintro ⟨⟩) (by rintro ⟨⟩) ?_
    unfold State.onOpenStream
    split <;> rfl
  | streamComplete | streamReset =>
    refine turn_same (by rintro ⟨⟩) (by rintro ⟨⟩) ?_
    unfold State.onFinished
    split <;> rfl
  | micro hh => exact turn_micro hh
  | outerStep hh _ ht =>
    rw [calls_outerStep ht]
    refine .same (fun _ x rest' h => ?_) (by rintro ⟨⟩)
    rw [hh] at h
    cases h
  | returns ht => exact turn_same (by rintro ⟨⟩) (by rintro ⟨⟩) (envoyReturns_frame ht).calls
  | order ht => exact turn_same (by rintro ⟨⟩) (by rintro ⟨⟩) (ordered_frame ht).calls
  | resolve hr =>
    refine turn_onQueue (f := (·.unpark)) rfl (fun hne => ⟨by rintro ⟨⟩, fun _ rest' h => hne ?_⟩)
      fun h => .resolved rfl (h ▸ hr)
    rw [hr] at h
    exact (List.cons.inj h).1
  | event | complete | drop | takeWakeups => exact turn_same (by rintro ⟨⟩) (by rintro ⟨⟩) rfl

end Calls

/-! ## What is left to tell -/

/-- What an access pushes to the response of call `n`. -/
def Micro.saying (n : ℕ) : Micro → List StreamItem
  | .push (.call m) x => if m = n then [x] else []
  | _ => []

/-- What is left to push to it. -/
def saying (n : ℕ) (l : List Micro) : List StreamItem := l.flatMap (Micro.saying n)

/-- What call `n` has been told, with what it is about to be told. -/
def State.said (s : State) (n : ℕ) : List StreamItem := (s.calls n).accepted ++ saying n s.handler

/-- The access tells no call anything. -/
def Micro.mute : Micro → Bool
  | .push (.call _) _ => false
  | _ => true

def Mute (l : List Micro) : Prop := l.all Micro.mute = true

/-- Whoever is told something is woken later. -/
def Heralded : List Micro → Prop
  | [] => True
  | m :: l => (∀ n, m.saying n ≠ [] → .wake (.call n) ∈ l) ∧ Heralded l

theorem saying_append (n : ℕ) (l l' : List Micro) : saying n (l ++ l') = saying n l ++ saying n l' :=
  List.flatMap_append

theorem saying_of_mute (n : ℕ) {l : List Micro} (h : Mute l) : saying n l = [] := by
  rw [saying, List.flatMap_eq_nil_iff]
  intro m hm
  have hmute := List.all_eq_true.mp h m hm
  cases m with
  | push r x =>
    cases r with
    | call k => cases hmute
    | _ => rfl
  | _ => rfl

theorem saying_pushes (n : ℕ) (items : List StreamItem) :
    saying n (items.map (.push (.call n))) = items := by
  induction items with
  | nil => rfl
  | cons x items ih =>
    rw [List.map_cons, saying, List.flatMap_cons, Micro.saying, if_pos rfl]
    exact congrArg (x :: ·) ih

theorem saying_pushes_ne {n m : ℕ} (hne : m ≠ n) (items : List StreamItem) :
    saying n (items.map (.push (.call m))) = [] := by
  rw [saying, List.flatMap_eq_nil_iff]
  intro a ha
  obtain ⟨x, -, rfl⟩ := List.mem_map.mp ha
  exact if_neg hne

theorem Mute.append {l l' : List Micro} (h : Mute l) (h' : Mute l') : Mute (l ++ l') := by
  rw [Mute, List.all_append, h, h', Bool.and_self]

theorem mute_flatMap {β : Type} {bs : List β} {f : β → List Micro} (h : ∀ b, Mute (f b)) :
    Mute (bs.flatMap f) := by
  induction bs with
  | nil => rfl
  | cons b bs ih =>
    rw [List.flatMap_cons]
    exact (h b).append ih

theorem mute_map {β : Type} {bs : List β} {f : β → Micro} (h : ∀ b, (f b).mute = true) :
    Mute (bs.map f) := by
  rw [Mute, List.all_map, List.all_eq_true]
  exact fun b _ => h b

theorem Heralded.append {l l' : List Micro} (h : Heralded l) (h' : Heralded l') :
    Heralded (l ++ l') := by
  induction l with
  | nil => exact h'
  | cons m l ih =>
    exact ⟨fun n hn => List.mem_append_left _ (h.1 n hn), ih h.2⟩

theorem heralded_flatMap {β : Type} {bs : List β} {f : β → List Micro} (h : ∀ b, Heralded (f b)) :
    Heralded (bs.flatMap f) := by
  induction bs with
  | nil => trivial
  | cons b bs ih =>
    rw [List.flatMap_cons]
    exact (h b).append ih

theorem heralded_of_mute {l : List Micro} (h : Mute l) : Heralded l := by
  induction l with
  | nil => trivial
  | cons m l ih =>
    rw [Mute, List.all_cons, Bool.and_eq_true] at h
    refine ⟨fun n hn => absurd ?_ hn, ih h.2⟩
    have hm := saying_of_mute n (l := [m]) (by rw [Mute, List.all_cons, h.1]; rfl)
    rwa [saying, List.flatMap_singleton] at hm

theorem heralded_pushes {n : ℕ} (items : List StreamItem) {l : List Micro}
    (hw : .wake (.call n) ∈ l) (h : Heralded l) : Heralded (items.map (.push (.call n)) ++ l) := by
  induction items with
  | nil => exact h
  | cons x items ih =>
    refine ⟨fun m hm => ?_, ih⟩
    by_cases hnm : n = m
    · exact hnm ▸ List.mem_append_right _ hw
    · exact absurd (if_neg hnm) hm

section Scripts

variable (o : OpenStream)

theorem mute_headersArrived (headers : Headers) (endStream : Bool) :
    Mute (o.headersArrived headers endStream).2 := by
  unfold OpenStream.headersArrived
  split
  · rfl
  · split
    · rfl
    · cases endStream <;> rfl

theorem mute_dataArrived (handle : ℕ) (data : List Bytes) (endStream : Bool) :
    Mute (o.dataArrived handle data endStream).2 := by
  unfold OpenStream.dataArrived
  split
  · rfl
  · split
    · cases endStream <;> rfl
    · rfl

theorem mute_trailersArrived (trailers : Headers) : Mute (o.trailersArrived trailers).2 := by
  unfold OpenStream.trailersArrived
  split <;> rfl

theorem mute_completed : Mute o.completed.2 := by
  unfold OpenStream.completed
  split <;> rfl

theorem mute_resetByEnvoy (reason : ResetReason) : Mute (o.resetByEnvoy reason).2 := by
  unfold OpenStream.resetByEnvoy
  dsimp only
  split <;> split <;> rfl

theorem mute_abandon : Mute o.abandon.2 := by
  unfold OpenStream.abandon
  dsimp only
  split <;> split <;> rfl

theorem mute_close {r : OpenStream × List Micro} (h : Mute r.2) : Mute (OpenStream.close r) :=
  (h.append (show Mute (wakeStream _) from rfl)).append rfl

theorem mute_onReset (reason : ResetReason) : Mute (o.onReset reason) := by
  unfold OpenStream.onReset
  split
  · exact mute_close (mute_completed o)
  · split
    · rfl
    · exact mute_close (mute_resetByEnvoy o reason)

end Scripts

/-! ## What Envoy reports of a call -/

/-- Envoy reported a call done. -/
structure Report where
  call : ℕ
  result : CalloutResult
  headers : Option Headers
  body : Option (List Bytes)

/-- What is pushed for it. -/
def Report.told (r : Report) (limit : ℕ) : List StreamItem := (deliver r.result r.headers r.body limit).1

/-- The reports of a run. -/
def report (s : State) (a : Action) (e : List Report) : List Report :=
  match a with
  | .calloutDone id result headers body =>
    e ++ ((s.inFlight.lookup id).map fun c => ⟨c.response, result, headers, body⟩).toList
  | _ => e

def reporting : System (State × List Report) Action := system.recording [] report

/-- The items that are counted, or about to be by the callback that runs. -/
def State.done (s : State) : List Item := s.handler.flatMap Micro.items ++ s.settled

/-- What the calls of a list are told that fail. -/
def failures (calls : List (ℕ × String)) : List Micro :=
  calls.flatMap fun c => [.push (.call c.1) (.Failed (.Upstream c.2)), .wake (.call c.1)]

/-- What is left of the callback after a step `a` from `s`, by what it tells. -/
inductive Speech (s : State) (a : Action) : List Micro → Prop
  | rests : (a = .work → s.handler = []) → (∀ e, report s a e = e) → Speech s a s.handler
  | goesOn {m : Micro} {rest l : List Micro} : a = .work → s.handler = m :: rest → Mute l →
    Speech s a (l ++ rest)
  /-- Envoy reported a call done. -/
  | answered {r : Report} {l : List Micro} : s.handler = [] → (∀ e, report s a e = e ++ [r]) →
    Mute l → .wake (.call r.call) ∈ l → .call r.call ∈ l.flatMap Micro.items →
    .call r.call ∉ s.done →
    Speech s a ((r.told s.config.settings.maxResponseBytes).map (.push (.call r.call)) ++ l)
  /-- Calls are turned away, or abandoned. -/
  | failed {r : List (ℕ × String)} {l : List Micro} : s.handler = [] →
    (∀ e, report s a e = e) → Mute l → (r.map Prod.fst).Nodup →
    (∀ c ∈ r, .call c.1 ∈ l.flatMap Micro.items ∧ .call c.1 ∉ s.done) →
    Speech s a (failures r ++ l)

theorem Speech.begins {a : Action} {l : List Micro} (hh : s.handler = [])
    (hr : ∀ e, report s a e = e) (hl : Mute l) : Speech s a l :=
  .failed (r := []) hh hr hl .nil (by rintro _ ⟨⟩)

theorem Books.not_done (h : Books s) {i : Item}
    (hi : i ∈ s.waiting ∨ i ∈ s.outer.flatMap Outer.items ∨ i ∈ s.inFlight.values.map (·.item)) :
    i ∉ s.done := by
  have hacc := (List.nodup_append.mp h.once).1
  have hnd := List.nodup_append.mp (h.queued.nodup_iff.mp hacc)
  have hin := h.handed.nodup_iff.mp hnd.2.1
  have hhand : i ∈ s.done → i ∈ s.inHand := by
    intro hd
    simp only [State.done, State.inHand, State.atWork, List.mem_append] at hd ⊢
    tauto
  rw [State.inHand, List.nodup_append] at hin
  rcases hi with hw | ho | hf
  · exact fun hd => hnd.2.2 i hw i (h.handed.mem_iff.mpr (hhand hd)) rfl
  · intro hd
    refine hin.2.2 i ho i ?_ rfl
    simp only [State.done, State.atWork, List.mem_append] at hd ⊢
    tauto
  · intro hd
    have hat := hin.2.1
    rw [State.atWork, List.nodup_append, List.nodup_append, List.nodup_append] at hat
    rcases List.mem_append.mp hd with hh | hs
    · exact hat.1.1.2.2 i hh i hf rfl
    · exact hat.2.2 i (List.mem_append_left _ (List.mem_append_right _ hf)) i hs rfl

/-- What waits and what is in flight are told apart by their numbers. -/
theorem Books.abandoned_nodup (h : Books s) {calls : List ℕ} (hp : calls.Perm s.inFlight.keys) :
    ((s.queued.map (·.response)) ++ (s.inFlight.pick calls).map (·.response)).Nodup := by
  have hacc := (List.nodup_append.mp h.once).1
  have hnd := h.queued.nodup_iff.mp hacc
  have hall : (s.waiting ++ s.inHand).Nodup := (h.handed.append_left _).nodup_iff.mp hnd
  have hsub : (s.queued.map (·.item) ++ s.inFlight.values.map (·.item)).Sublist
      (s.waiting ++ s.inHand) := by
    refine (List.sublist_append_left _ _).append ?_
    rw [State.inHand, State.atWork]
    refine List.Sublist.trans ?_ (List.sublist_append_right _ _)
    refine List.Sublist.trans ?_ (List.sublist_append_left _ _)
    refine List.Sublist.trans ?_ (List.sublist_append_left _ _)
    exact List.sublist_append_right _ _
  have hitems := hall.sublist hsub
  have hperm : (s.queued.map (·.item) ++ (s.inFlight.pick calls).map (·.item)).Perm
      (s.queued.map (·.item) ++ s.inFlight.values.map (·.item)) :=
    ((Table.pick_perm hp).map _).append_left _
  have hpick := hperm.nodup_iff.mpr hitems
  refine List.Nodup.of_map Item.call ?_
  rw [List.map_append, List.map_map, List.map_map]
  exact hpick

section Speech

variable {a : Action}

theorem speech_micro {m : Micro} {rest : List Micro} (hh : s.handler = m :: rest) :
    Speech s .work (s.micro m rest).handler := by
  have hgo : ∀ {l : List Micro}, Mute l → Speech s .work (l ++ rest) := fun hl => .goesOn rfl hh hl
  have hrest : Speech s .work rest := hgo (l := []) rfl
  cases m with
  | data k bytes endStream =>
    simp only [State.micro, State.deliverData]
    split
    · exact hrest
    · split
      · split
        · exact hgo (l := [_]) rfl
        · exact hrest
      · exact hgo (l := [_, _, _]) rfl
      · exact hgo (l := [_]) rfl
  | stopped k =>
    simp only [State.micro]
    split <;> exact hrest
  | resetStopped o reason => exact hgo (mute_close (mute_resetByEnvoy _ reason))
  | checkWriter n =>
    simp only [State.micro]
    split
    · exact hgo (l := [_]) rfl
    · exact hrest
  | _ => exact hrest

theorem speech_outerStep {o : Outer} {rest : List Outer} (hh : s.handler = [])
    (ht : s.outerStep o rest = some t) : Speech s .work t.handler := by
  have hsame : Speech s .work s.handler := .rests (fun _ => hh) fun _ => rfl
  cases o with
  | startStream r =>
    simp only [State.outerStep] at ht
    split at ht <;> cases ht
    · exact .begins hh (fun _ => rfl) rfl
    · exact hsame
  | pumpOne k =>
    simp only [State.outerStep] at ht
    split at ht
    · cases ht
      exact hsame
    · split at ht
      · split at ht <;> cases ht <;> exact hsame
      · split at ht <;> cases ht <;> exact hsame
  | pumpTake k =>
    simp only [State.outerStep] at ht
    split at ht <;> cases ht
    · exact hsame
    · unfold State.sendItem
      split <;> exact hsame
  | pumpWriter k =>
    simp only [State.outerStep] at ht
    split at ht <;> cases ht
    · exact hsame
    · dsimp only
      split
      · exact .begins hh (fun _ => rfl) rfl
      · exact .begins hh (fun _ => rfl) rfl
  | inCallout r => cases ht
  | inStart r requestEnded => cases ht
  | pump => cases ht
  | abandon c => cases ht
  | _ =>
    cases ht
    exact hsame

theorem speech_envoyReturns (hb : Books s) {result : InitResult} {id : ℕ}
    (ht : s.envoyReturns result id = some t) : Speech s (.returns result id) t.handler := by
  have hsame : Speech s (.returns result id) s.handler := .rests (by rintro ⟨⟩) fun _ => rfl
  cases envoyReturns_moves ht with
  | call | stream => exact hsame
  | @noCall r rest text hh ho =>
    have hitem : Item.call r.response ∈ s.outer.flatMap Outer.items := by
      rw [ho]
      exact List.mem_cons_self
    refine .failed (r := [(r.response, text)])
      (l := [.count r.item r.cluster .Refused]) hh (fun _ => rfl) rfl
      (List.nodup_singleton _) fun c hc => ?_
    rw [List.mem_singleton.mp hc]
    exact ⟨List.mem_cons_self, hb.not_done (Or.inr (Or.inl hitem))⟩
  | noStream hh => exact .begins hh (fun _ => rfl) rfl

/-- Nothing is left when the abandoned are not counted. -/
theorem Books.counting_or_shut (h : Books s) {counting : Bool} {rest : List Outer}
    (ho : s.outer = .abandon counting :: rest) : counting = true ∨ Shut s := by
  have hp := h.phase
  unfold Phase at hp
  rw [ho] at hp
  split at hp
  · exact absurd hp.2 (by simp [Outer.abandons])
  · rcases hp with ⟨-, hc, -⟩ | ⟨hc, -⟩
    · cases hc
      exact Or.inl rfl
    · cases hc
  · exact Or.inr hp.2.2

theorem speech_ordered (hb : Books s) {calls handles : List ℕ}
    (ht : s.ordered calls handles = some t) : Speech s (.order calls handles) t.handler := by
  cases ordered_moves ht with
  | pump => exact .rests (by rintro ⟨⟩) fun _ => rfl
  | @abandon counting rest hh ho hcalls =>
    have hunsent : (if s.upstreams then s.queued else []).Sublist s.queued := by
      split
      · exact .refl _
      · exact List.nil_sublist _
    unfold State.abandonUpstreams
    dsimp only
    generalize hu : (if s.upstreams then s.queued else []) = unsent at hunsent
    generalize hw : (unsent.map fun r => (⟨r.response, r.cluster⟩ : PendingCall)) ++
      s.inFlight.pick calls = waiting
    have hresponses : waiting.map (·.response) =
        unsent.map (·.response) ++ (s.inFlight.pick calls).map (·.response) := by
      rw [← hw, List.map_append, List.map_map]
      rfl
    have hfail : waiting.flatMap State.abandonCall =
        failures (waiting.map fun c => (c.response, "the request finished before the call did")) := by
      rw [failures, List.flatMap_map]
      rfl
    rw [hfail, List.append_assoc, List.append_assoc]
    refine .failed hh (fun _ => rfl) ?_ ?_ fun c hc => ?_
    · refine Mute.append (mute_flatMap fun r => rfl) (Mute.append (mute_flatMap fun o => ?_) ?_)
      · exact (mute_abandon o).append rfl
      · split
        · exact Mute.append (Mute.append (mute_map fun _ => rfl) (mute_map fun _ => rfl))
            (mute_map fun _ => rfl)
        · rfl
    · rw [List.map_map, show waiting.map (Prod.fst ∘ fun c : PendingCall => (c.response, _)) =
        waiting.map (·.response) from rfl, hresponses]
      exact (hb.abandoned_nodup hcalls).sublist ((hunsent.map _).append (.refl _))
    · obtain ⟨w, hmem, rfl⟩ := List.mem_map.mp hc
      have hwhere : w.item ∈ s.waiting ∨ w.item ∈ s.outer.flatMap Outer.items ∨
          w.item ∈ s.inFlight.values.map (·.item) := by
        rw [← hw] at hmem
        rcases List.mem_append.mp hmem with hq | hf
        · obtain ⟨r, hr, rfl⟩ := List.mem_map.mp hq
          exact Or.inl (List.mem_append_left _ (List.mem_map_of_mem (hunsent.subset hr)))
        · exact Or.inr (Or.inr (List.mem_map_of_mem ((Table.pick_perm hcalls).mem_iff.mp hf)))
      refine ⟨?_, hb.not_done hwhere⟩
      rcases hb.counting_or_shut ho with rfl | hshut
      · simp only [List.flatMap_append, List.mem_append, if_true, List.flatMap_map, Micro.items]
        refine Or.inr (Or.inr (Or.inl (Or.inl ?_)))
        exact List.mem_flatMap.mpr ⟨w, hmem, List.mem_singleton_self _⟩
      · rw [← hw, ← hu, hshut.upstreams, hshut.inFlight] at hmem
        have hnone : Table.pick (∅ : Table PendingCall) calls = [] := by
          rw [Table.pick, List.filterMap_eq_nil_iff]
          exact fun k _ => rfl
        rw [hnone] at hmem
        cases hmem

theorem speech_onOpenStream {k : ℕ} {f : OpenStream → OpenStream × List Micro} (ha : a ≠ .work)
    (hc : s.reports k = true) (hr : ∀ e, report s a e = e) (hf : ∀ o, Mute (f o).2) :
    Speech s a (s.onOpenStream k f).handler := by
  unfold State.onOpenStream
  split
  · exact .rests (fun h => absurd h ha) hr
  · exact .begins (callable_handler (reports_callable hc)) hr ((hf _).append rfl)

theorem speech_onFinished {k : ℕ} {f : OpenStream → List Micro} (ha : a ≠ .work)
    (hc : s.reports k = true) (hr : ∀ e, report s a e = e) (hf : ∀ o, Mute (f o)) :
    Speech s a (s.onFinished k f).handler := by
  unfold State.onFinished
  split
  · exact .rests (fun h => absurd h ha) hr
  · exact .begins (callable_handler (reports_callable hc)) hr (hf _)

/-- The report of a call is what its response is given, and only once. -/
theorem speech_calloutDone (hb : Books s) {id : ℕ} (hc : s.callable = true) (result : CalloutResult)
    (headers : Option Headers) (body : Option (List Bytes)) :
    Speech s (.calloutDone id result headers body)
      (s.onHttpCalloutDone id result headers body).handler := by
  have hh := callable_handler hc
  unfold State.onHttpCalloutDone
  cases hid : s.inFlight.lookup id with
  | none =>
    refine .rests (by rintro ⟨⟩) fun e => ?_
    rw [report, hid]
    exact List.append_nil e
  | some call =>
    have hflight : call.item ∈ s.inFlight.values.map (·.item) :=
      List.mem_map_of_mem (Table.mem_values_of_lookup hid)
    refine .answered (r := ⟨call.response, result, headers, body⟩)
      (l := [.count call.item call.cluster _, .wake (.call call.response)]) hh (fun e => ?_) rfl
      (List.mem_cons_of_mem _ List.mem_cons_self) List.mem_cons_self
      (hb.not_done (Or.inr (Or.inr hflight)))
    rw [report, hid]
    rfl

/-- **What is left to tell after a step.** -/
theorem speech_step (hb : Books s) (ht : step s a = some t) : Speech s a t.handler := by
  cases step_moves ht with
  | queue =>
    unfold State.queue
    dsimp only
    split <;> exact .rests (by rintro ⟨⟩) fun _ => rfl
  | queueStream =>
    unfold State.queueStream
    dsimp only
    split <;> split <;> exact .rests (by rintro ⟨⟩) fun _ => rfl
  | fiber _ ht =>
    rw [fiber_eq ht]
    exact .rests (by rintro ⟨⟩) fun _ => rfl
  | ruby ht =>
    rw [rubyStep_eq ht]
    exact .rests (by rintro ⟨⟩) fun _ => rfl
  | calloutDone hc _ _ result headers body => exact speech_calloutDone hb hc result headers body
  | streamHeaders hc headers endStream =>
    exact speech_onOpenStream (by rintro ⟨⟩) hc (fun _ => rfl) fun o =>
      mute_headersArrived o headers endStream
  | @streamData k hc data endStream =>
    exact speech_onOpenStream (by rintro ⟨⟩) hc (fun _ => rfl) fun o =>
      mute_dataArrived o k data endStream
  | streamTrailers hc trailers =>
    exact speech_onOpenStream (by rintro ⟨⟩) hc (fun _ => rfl) fun o =>
      mute_trailersArrived o trailers
  | streamComplete hc =>
    exact speech_onFinished (by rintro ⟨⟩) hc (fun _ => rfl) fun o => mute_close (mute_completed o)
  | streamReset hc reason =>
    exact speech_onFinished (by rintro ⟨⟩) hc (fun _ => rfl) fun o => mute_onReset o reason
  | micro hh => exact speech_micro hh
  | outerStep hh _ ht => exact speech_outerStep hh ht
  | returns ht => exact speech_envoyReturns hb ht
  | order ht => exact speech_ordered hb ht
  | @resolve r =>
    rw [onQueue_eq s r]
    exact .rests (by rintro ⟨⟩) fun _ => rfl
  | event | complete | drop | takeWakeups => exact .rests (by rintro ⟨⟩) fun _ => rfl

end Speech

/-! ## What is counted, and who is woken -/

section Frame

variable {a : Action}

/-- Nothing is counted, and nobody woken, but by an access of a callback and by the reactor. -/
structure Beside (s t : State) : Prop where
  settled : t.settled = s.settled
  wakeups : t.wakeups = s.wakeups
  resolving : t.resolving = s.resolving
  accepted : s.accepted <+: t.accepted

theorem Untouched.beside (h : Untouched s t) : Beside s t :=
  ⟨h.settled, h.wakeups, h.resolving, h.accepted.symm ▸ List.prefix_rfl⟩

theorem beside_outerStep {o : Outer} {rest : List Outer} (ht : s.outerStep o rest = some t) :
    Beside s t := by
  cases o with
  | startStream r =>
    simp only [State.outerStep] at ht
    split at ht <;> cases ht <;> exact ⟨rfl, rfl, rfl, List.prefix_rfl⟩
  | pumpOne k =>
    simp only [State.outerStep] at ht
    split at ht
    · cases ht
      exact ⟨rfl, rfl, rfl, List.prefix_rfl⟩
    · split at ht
      · split at ht <;> cases ht <;> exact ⟨rfl, rfl, rfl, List.prefix_rfl⟩
      · split at ht <;> cases ht <;> exact ⟨rfl, rfl, rfl, List.prefix_rfl⟩
  | pumpTake k =>
    simp only [State.outerStep] at ht
    split at ht <;> cases ht
    · exact ⟨rfl, rfl, rfl, List.prefix_rfl⟩
    · unfold State.sendItem
      split <;> exact ⟨rfl, rfl, rfl, List.prefix_rfl⟩
  | pumpWriter k =>
    simp only [State.outerStep] at ht
    split at ht <;> cases ht <;> exact ⟨rfl, rfl, rfl, List.prefix_rfl⟩
  | inCallout r => cases ht
  | inStart r requestEnded => cases ht
  | pump => cases ht
  | abandon c => cases ht
  | _ =>
    cases ht
    exact ⟨rfl, rfl, rfl, List.prefix_rfl⟩

theorem beside_step (ht : step s a = some t) (ha : ∀ m rest, a = .work → s.handler ≠ m :: rest)
    (htake : a ≠ .takeWakeups) (hresolve : a ≠ .resolve) : Beside s t := by
  cases step_moves ht with
  | queue =>
    unfold State.queue
    dsimp only
    split
    · exact ⟨rfl, rfl, rfl, List.prefix_rfl⟩
    · exact ⟨rfl, rfl, rfl, List.prefix_append _ _⟩
  | queueStream =>
    unfold State.queueStream
    dsimp only
    split <;> split
    · exact ⟨rfl, rfl, rfl, List.prefix_rfl⟩
    · exact ⟨rfl, rfl, rfl, List.prefix_rfl⟩
    · exact ⟨rfl, rfl, rfl, List.prefix_append _ _⟩
    · exact ⟨rfl, rfl, rfl, List.prefix_append _ _⟩
  | fiber _ ht =>
    rw [fiber_eq ht]
    exact ⟨rfl, rfl, rfl, List.prefix_rfl⟩
  | ruby ht =>
    rw [rubyStep_eq ht]
    exact ⟨rfl, rfl, rfl, List.prefix_rfl⟩
  | calloutDone =>
    unfold State.onHttpCalloutDone
    split <;> exact ⟨rfl, rfl, rfl, List.prefix_rfl⟩
  | streamHeaders | streamData | streamTrailers =>
    unfold State.onOpenStream
    split <;> exact ⟨rfl, rfl, rfl, List.prefix_rfl⟩
  | streamComplete | streamReset =>
    unfold State.onFinished
    split <;> exact ⟨rfl, rfl, rfl, List.prefix_rfl⟩
  | micro hh => exact absurd hh (ha _ _ rfl)
  | outerStep _ _ ht => exact beside_outerStep ht
  | returns ht => exact (envoyReturns_frame ht).beside
  | order ht => exact (ordered_frame ht).beside
  | takeWakeups => exact absurd rfl htake
  | resolve => exact absurd rfl hresolve
  | event | complete | drop => exact ⟨rfl, rfl, rfl, List.prefix_rfl⟩

theorem done_micro {m : Micro} {rest : List Micro} (hh : s.handler = m :: rest) {i : Item}
    (hi : i ∈ s.done) : i ∈ (s.micro m rest).done := by
  have hsettled : i ∈ s.settled → i ∈ (s.micro m rest).settled := by
    intro hs
    cases m with
    | push r x => cases r <;> exact hs
    | data k bytes endStream =>
      simp only [State.micro, State.deliverData]
      split
      · exact hs
      · split
        · split <;> exact hs
        · exact hs
        · exact hs
    | stopped k =>
      simp only [State.micro]
      split <;> exact hs
    | count j cluster outcome => exact List.mem_append_left _ hs
    | _ => exact hs
  have hrest : i ∈ rest.flatMap Micro.items → i ∈ (s.micro m rest).handler.flatMap Micro.items := by
    intro hr
    have hsc := scripted_micro (p := fun _ => true) hh
    generalize (s.micro m rest).handler = l at hsc
    cases hsc with
    | rests hn =>
      rw [hn rfl] at hh
      cases hh
    | goesOn _ hh' _ =>
      rw [hh] at hh'
      obtain ⟨-, rfl⟩ := List.cons.inj hh'
      rw [List.flatMap_append]
      exact List.mem_append_right _ hr
    | begins hn =>
      rw [hn] at hh
      cases hh
    | answered hc => cases hc
  rw [State.done, hh, List.flatMap_cons, List.mem_append, List.mem_append] at hi
  rcases hi with (hm | hr) | hs
  · cases m with
    | count j cluster outcome =>
      exact List.mem_append_right _ (List.mem_append_right _ hm)
    | resetStopped o reason =>
      refine List.mem_append_left _ ?_
      have hclose := (stays_resetByEnvoy
        { o with outcome := some (o.stoppedByFiber (s.channels o.channel).timedOut) } reason).close
      simp only [State.micro, List.flatMap_append, hclose]
      exact List.mem_append_left _ hm
    | _ => cases hm
  · exact List.mem_append_left _ (hrest hr)
  · exact List.mem_append_right _ (hsettled hs)

/-- **What is counted, or about to be, stays so.** -/
theorem done_step (hb : Books s) (ht : step s a = some t) {i : Item} (hi : i ∈ s.done) : i ∈ t.done := by
  have hrest : t.settled = s.settled → (s.handler = [] ∨ t.handler = s.handler) → i ∈ t.done := by
    intro hs hh
    rw [State.done, List.mem_append] at hi ⊢
    rw [hs]
    rcases hh with hh | hh
    · rw [hh] at hi
      exact Or.inr (hi.elim (by rintro ⟨⟩) id)
    · rw [hh]
      exact hi
  by_cases hm : ∃ m rest, a = .work ∧ s.handler = m :: rest
  · obtain ⟨m, rest, rfl, hh⟩ := hm
    simp only [step, hh, Option.some.injEq] at ht
    exact ht ▸ done_micro hh hi
  · have hspeech := speech_step hb ht
    have hsettled : t.settled = s.settled := by
      by_cases hta : a = .takeWakeups
      · subst hta
        simp only [step, Option.ite_none_right_eq_some, Option.some.injEq] at ht
        rw [← ht.2]
      · by_cases hre : a = .resolve
        · subst hre
          simp only [step] at ht
          split at ht
          · cases ht
            rw [onQueue_eq s]
          · cases ht
        · exact (beside_step ht (fun m rest ha hh => hm ⟨m, rest, ha, hh⟩) hta hre).settled
    refine hrest hsettled ?_
    generalize t.handler = l at hspeech
    cases hspeech with
    | rests => exact Or.inr rfl
    | goesOn ha hh => exact absurd ⟨_, _, ha, hh⟩ hm
    | answered hh => exact Or.inl hh
    | failed hh => exact Or.inl hh

/-- **What was accepted stays accepted.** -/
theorem accepted_kept (ht : step s a = some t) : s.accepted <+: t.accepted := by
  by_cases hm : ∃ m rest, a = .work ∧ s.handler = m :: rest
  · obtain ⟨m, rest, rfl, hh⟩ := hm
    simp only [step, hh, Option.some.injEq] at ht
    rw [← ht]
    cases m with
    | push r x => cases r <;> exact List.prefix_rfl
    | data k bytes endStream =>
      simp only [State.micro, State.deliverData]
      split
      · exact List.prefix_rfl
      · split
        · split <;> exact List.prefix_rfl
        · exact List.prefix_rfl
        · exact List.prefix_rfl
    | stopped k =>
      simp only [State.micro]
      split <;> exact List.prefix_rfl
    | _ => exact List.prefix_rfl
  · by_cases hta : a = .takeWakeups
    · subst hta
      simp only [step, Option.ite_none_right_eq_some, Option.some.injEq] at ht
      rw [← ht.2]
    · by_cases hre : a = .resolve
      · subst hre
        simp only [step] at ht
        split at ht
        · cases ht
          rw [onQueue_eq s]
        · cases ht
      · exact (beside_step ht (fun m rest ha hh => hm ⟨m, rest, ha, hh⟩) hta hre).accepted

/-- **A wakeup that is owed stays owed until it is resolved.** -/
theorem listed_step (ht : step s a = some t) {r : Ref} (hr : s.listed r) :
    t.listed r ∨ a = .resolve ∧ ∃ rest, s.resolving = r :: rest := by
  by_cases hm : ∃ m rest, a = .work ∧ s.handler = m :: rest
  · obtain ⟨m, rest, rfl, hh⟩ := hm
    simp only [step, hh, Option.some.injEq] at ht
    refine Or.inl ?_
    rw [← ht]
    cases m with
    | push r x => cases r <;> exact hr
    | data k bytes endStream =>
      simp only [State.micro, State.deliverData]
      split
      · exact hr
      · split
        · split <;> exact hr
        · exact hr
        · exact hr
    | stopped k =>
      simp only [State.micro]
      split <;> exact hr
    | wake q => exact hr.imp_left (List.mem_append_left _)
    | _ => exact hr
  · by_cases hta : a = .takeWakeups
    · subst hta
      simp only [step, Option.ite_none_right_eq_some, Option.some.injEq] at ht
      obtain ⟨hnone, rfl⟩ := ht
      rcases hr with hw | hn
      · exact Or.inl (Or.inr hw)
      · rw [hnone] at hn
        cases hn
    · by_cases hre : a = .resolve
      · subst hre
        simp only [step] at ht
        split at ht
        · rename_i q rest hq
          cases ht
          rcases hr with hw | hn
          · refine Or.inl (Or.inl ?_)
            rw [onQueue_eq s]
            exact hw
          · rw [hq] at hn
            rcases List.mem_cons.mp hn with rfl | hlater
            · exact Or.inr ⟨rfl, rest, hq⟩
            · exact Or.inl (Or.inr hlater)
        · cases ht
      · have hb := beside_step ht (fun m rest ha hh => hm ⟨m, rest, ha, hh⟩) hta hre
        rw [State.listed, hb.wakeups, hb.resolving]
        exact Or.inl hr

end Frame

end Ruvoy.Upstream
