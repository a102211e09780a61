import Ruvoy.Upstream.Queues

/-!
# The request bodies of streams

What becomes of the request queue of a channel: a fiber writes and ends it, `open_stream` ends it at
once when there is no body, the worker takes from it at the start of the stream and in the pump, and
whatever else happens leaves what it accepted and what was taken of it alone. Of a run, notes are
taken of what the state forgets: the channel a handle was given out for, and how a body came to its
end.

* `Notes`, `note`, `watched`: the system with its notes;
* `Rests`, `request_step`: what a step does to the request queue of a channel;
* `Bodies`: what the notes say of the request queues (`Bodies.step`).
-/

set_option autoImplicit false

namespace Ruvoy.Upstream

open Runs

/-! ## Notes -/

/-- What is noted of a run. -/
structure Notes where
  /-- The handles that `start_http_stream` returned, with the channels they were started for. -/
  owner : List (ℕ × ℕ) := []
  /-- The channels a fiber called `finish` on. -/
  finishes : List ℕ := []
  /-- The channels that were opened without a body. -/
  bodiless : List ℕ := []
  deriving DecidableEq

/-- What is noted of a step. -/
def note (s : State) : Action → Notes → Notes
  | .returns result id, e =>
    match s.outer with
    | .inStart r _ :: _ =>
      if (refusal result r.cluster).isNone then { e with owner := (id, r.channel) :: e.owner } else e
    | _ => e
  | .fiber (.finish n), e => { e with finishes := n :: e.finishes }
  | .queueStream _ _ _ hasBody, e =>
    if hasBody then e else { e with bodiless := s.nextChannel :: e.bodiless }
  | _, e => e

/-- The system with its notes. -/
def watched : System (State × Notes) Action := system.recording {} note

/-! ## The callback writes to no request queue -/

/-- The access writes to no request queue. -/
def Micro.plain : Micro → Bool
  | .push (.request _) _ => false
  | _ => true

/-- All that is left of the callback. -/
def Plain (l : List Micro) : Prop := l.all Micro.plain = true

theorem Plain.append {l l' : List Micro} (h : Plain l) (h' : Plain l') : Plain (l ++ l') := by
  rw [Plain, List.all_append, h, h', Bool.and_self]

theorem plain_cons {m : Micro} {l : List Micro} (h : Plain (m :: l)) : Plain l := by
  rw [Plain, List.all_cons, Bool.and_eq_true] at h
  exact h.2

theorem plain_of_basic {p : Bytes → Bool} {l : List Micro} (h : Basic p l) : Plain l := by
  rw [Plain, List.all_eq_true]
  rw [Basic, List.all_eq_true] at h
  intro m hm
  have hb := h m hm
  cases m with
  | push r x =>
    cases r with
    | request n => cases hb
    | _ => rfl
  | _ => rfl

variable {s t : State}

/-- **Every step leaves a callback that writes to no request queue.** -/
theorem plain_step {a : Action} (h : Plain s.handler) (ht : step s a = some t) :
    Plain t.handler := by
  have hscript := handler_step (p := fun _ => true) ht fun _ _ _ _ _ => rfl
  generalize t.handler = l at hscript ⊢
  cases hscript with
  | rests _ => exact h
  | goesOn _ hh hl =>
    rw [hh] at h
    exact (plain_of_basic hl).append (plain_cons h)
  | begins _ hl => exact plain_of_basic hl
  | answered _ _ hl =>
    refine Plain.append ?_ (plain_of_basic hl)
    rw [Plain, List.all_map, List.all_eq_true]
    exact fun _ _ => rfl

/-! ## What a step does to a request queue -/

/-- The request queue of a channel. -/
def State.request (s : State) (n : ℕ) : Tracked := (s.channels n).request

/-- What the queue accepted and what was taken of it are left alone. -/
structure Rests (q q' : Tracked) : Prop where
  accepted : q'.accepted = q.accepted
  taken : q'.taken = q.taken
  paused : q'.stream.paused = q.stream.paused
  cancelled : q.stream.cancelled = true → q'.stream.cancelled = true

theorem Rests.refl (q : Tracked) : Rests q q := ⟨rfl, rfl, rfl, id⟩

theorem rests_of_idles {q q' : Tracked} (h : Idles q q') : Rests q q' := by
  cases h with
  | same => exact .refl q
  | cancelled => exact ⟨rfl, rfl, rfl, fun _ => rfl⟩
  | unparked => exact ⟨rfl, rfl, rfl, id⟩
  | parked v => exact ⟨rfl, rfl, ResponseStream.park_paused v, (ResponseStream.park_cancelled v).trans⟩
  | writer v =>
    exact ⟨rfl, rfl, ResponseStream.parkWriter_paused v, (ResponseStream.parkWriter_cancelled v).trans⟩

theorem request_onQueue (r : Ref) (f : Tracked → Tracked) (n : ℕ) :
    (s.onQueue r f).request n = if r = .request n then f (s.request n) else s.request n := by
  split
  · rename_i heq
    rw [heq]
    exact queueAt_onQueue_self (.request n) f
  · rename_i hne
    exact queueAt_onQueue_ne (q := .request n) f fun heq => hne heq.symm

theorem request_onQueue_self (f : Tracked → Tracked) (n : ℕ) :
    (s.onQueue (.request n) f).request n = f (s.request n) :=
  queueAt_onQueue_self (.request n) f

/-- What a step does to the request queue of channel `n`: it is `q` after the step. -/
inductive Turn (s : State) (a : Action) (n : ℕ) : Tracked → Prop
  | rests {q : Tracked} : Rests (s.request n) q → Turn s a n q
  /-- The worker takes the first of the body at the start of the stream. -/
  | first {r : UpstreamStreamRequest} {rest : List Outer} : a = .work → s.handler = [] →
    s.outer = .firstItem r :: rest → r.channel = n → Turn s a n (s.request n).takeNext
  /-- The worker takes an item in the pump. -/
  | pumped {k : ℕ} {o : OpenStream} {rest : List Outer} : a = .work → s.handler = [] →
    s.outer = .pumpTake k :: rest → s.openStreams.lookup k = some o → o.channel = n →
    Turn s a n (s.request n).takeNext
  | written {bytes : Bytes} : a = .fiber (.write n bytes) →
    Turn s a n ((s.request n).pushWithinBudget bytes)
  | ended : a = .fiber (.finish n) → Turn s a n ((s.request n).push .End)
  /-- The channel is opened without a body. -/
  | bodiless {cluster : String} {headers : Fields} {timeout : ℕ} :
    a = .queueStream cluster headers timeout false → n = s.nextChannel →
    Turn s a n ((s.request n).push .End)

/-- **What a step does to a request queue.** -/
theorem request_step {a : Action} (hp : Plain s.handler) (ht : step s a = some t) (n : ℕ) :
    Turn s a n (t.request n) := by
  have hchange : Change s a (.request n) (t.request n) := queue_step ht (.request n)
  generalize t.request n = q at hchange ⊢
  cases hchange with
  | idles h => exact .rests (rests_of_idles h)
  | taken _ hr => cases hr
  | first ha hh ho => exact .first ha hh ho rfl
  | pumped ha hh ho hk => exact .pumped ha hh ho hk rfl
  | pushed ha hh =>
    rw [hh, Plain, List.all_cons, Bool.and_eq_true] at hp
    cases hp.1
  | written ha => exact .written ha
  | ended ha => exact .ended ha
  | bodiless ha => exact .bodiless ha rfl

/-! ## What the notes say of a request queue -/

/-- The queues of the channels and the notes taken. -/
structure Bodies (s : State) (e : Notes) : Prop where
  plain : Plain s.handler
  unpaused : ∀ n, (s.request n).stream.paused = false
  /-- A channel that is still to be made has accepted nothing. -/
  fresh : ∀ n, s.nextChannel ≤ n → (s.request n).accepted = []
  /-- A body comes to its end by `finish`, or by being none. -/
  finish : ∀ n, .End ∈ (s.request n).accepted → n ∈ e.finishes ∨ n ∈ e.bodiless
  bodiless : ∀ n ∈ e.bodiless, (s.request n).accepted = [.End] ∨
    (s.request n).accepted = [] ∧ (s.request n).stream.cancelled = true

theorem Bodies.init (config : Config) : Bodies { config := config } {} := by
  refine ⟨rfl, fun _ => rfl, fun _ _ => rfl, ?_, ?_⟩
  · rintro n ⟨⟩
  · rintro n ⟨⟩

theorem shut_of_bodiless {q : Tracked}
    (h : q.accepted = [.End] ∨ q.accepted = [] ∧ q.stream.cancelled = true) :
    (q.stream.cancelled || q.stream.ended) = true := by
  rcases h with hend | ⟨-, hc⟩
  · rw [← q.any_terminal, hend]
    exact Bool.or_true _
  · rw [hc, Bool.true_or]

section Notes

variable {a : Action} {e : Notes} {n : ℕ}

theorem finishes_note (h : n ∈ e.finishes) : n ∈ (note s a e).finishes := by
  unfold note
  split
  · split
    · split <;> exact h
    · exact h
  · exact List.mem_cons_of_mem _ h
  · split <;> exact h
  · exact h

theorem bodiless_mono (h : n ∈ e.bodiless) : n ∈ (note s a e).bodiless := by
  unfold note
  split
  · split
    · split <;> exact h
    · exact h
  · exact h
  · split
    · exact h
    · exact List.mem_cons_of_mem _ h
  · exact h

theorem bodiless_note (h : n ∈ (note s a e).bodiless) :
    n ∈ e.bodiless ∨ (∃ cluster headers timeout, a = .queueStream cluster headers timeout false) ∧
      n = s.nextChannel := by
  unfold note at h
  split at h
  · split at h
    · split at h <;> exact Or.inl h
    · exact Or.inl h
  · exact Or.inl h
  · split at h
    · exact Or.inl h
    · rename_i hb
      rcases List.mem_cons.mp h with rfl | h
      · exact Or.inr ⟨⟨_, _, _, by rw [Bool.not_eq_true] at hb; rw [hb]⟩, rfl⟩
      · exact Or.inl h
  · exact Or.inl h

end Notes

/-- What a step adds to what a request queue accepted: nothing, or an item when the queue was open. An
end is added by `finish`, and when a channel is opened without a body. -/
theorem accepted_step {a : Action} (hp : Plain s.handler) (ht : step s a = some t) (n : ℕ) :
    (t.request n).accepted = (s.request n).accepted ∨
      ∃ x, (t.request n).accepted = (s.request n).accepted ++ [x] ∧ n < t.nextChannel ∧
        ((s.request n).stream.cancelled || (s.request n).stream.ended) = false ∧
        (x = .End → a = .fiber (.finish n) ∨
          (∃ cluster headers timeout, a = .queueStream cluster headers timeout false) ∧
            n = s.nextChannel) := by
  have hnext := (frame_step ht).2
  have hmade : ∀ {op : FiberOp}, a = .fiber op → op.ref = .request n → n < t.nextChannel := by
    rintro op rfl hr
    simp only [step, Option.ite_none_right_eq_some, hr] at ht
    have hn : n < s.nextChannel := of_decide_eq_true ht.1.2
    rw [hnext]
    exact hn
  have hturn := request_step hp ht n
  generalize t.request n = q at hturn
  cases hturn with
  | rests hr => exact Or.inl hr.accepted
  | first => exact Or.inl rfl
  | pumped => exact Or.inl rfl
  | written ha =>
    rename_i bytes
    by_cases hs : ((s.request n).stream.cancelled || (s.request n).stream.ended) = true
    · exact Or.inl (by rw [Tracked.pushWithinBudget_of_shut hs])
    · rw [Bool.not_eq_true] at hs
      rcases (s.request n).pushWithinBudget_cases bytes with heq | ⟨c, heq⟩
      · exact Or.inl heq
      · exact Or.inr ⟨_, heq, hmade ha rfl, hs, by rintro ⟨⟩⟩
  | ended ha =>
    rcases (s.request n).push_cases .End with ⟨-, heq⟩ | ⟨hc, he, heq, -, -⟩
    · exact Or.inl (by rw [heq])
    · exact Or.inr ⟨_, heq, hmade ha rfl, by rw [hc, he]; rfl, fun _ => Or.inl ha⟩
  | bodiless ha hn =>
    rcases (s.request n).push_cases .End with ⟨-, heq⟩ | ⟨hc, he, heq, -, -⟩
    · exact Or.inl (by rw [heq])
    · refine Or.inr ⟨_, heq, ?_, by rw [hc, he]; rfl, fun _ => Or.inr ⟨⟨_, _, _, ha⟩, hn⟩⟩
      rw [hnext, ha, hn]
      exact Nat.lt_succ_self _

theorem unpaused_step {a : Action} (hp : Plain s.handler) (ht : step s a = some t) (n : ℕ) :
    (t.request n).stream.paused = (s.request n).stream.paused := by
  have hturn := request_step hp ht n
  generalize t.request n = q at hturn ⊢
  cases hturn with
  | rests hr => exact hr.paused
  | first => exact ResponseStream.takeNext_paused
  | pumped => exact ResponseStream.takeNext_paused
  | written => exact ResponseStream.pushChunkWithinBudget_paused _
  | ended => exact ResponseStream.push_paused _
  | bodiless => exact ResponseStream.push_paused _

theorem cancelled_step {a : Action} (hp : Plain s.handler) (ht : step s a = some t) (n : ℕ)
    (hc : (s.request n).stream.cancelled = true) : (t.request n).stream.cancelled = true := by
  have hturn := request_step hp ht n
  generalize t.request n = q at hturn ⊢
  cases hturn with
  | rests hr => exact hr.cancelled hc
  | first => exact ResponseStream.takeNext_cancelled.trans hc
  | pumped => exact ResponseStream.takeNext_cancelled.trans hc
  | written => exact (ResponseStream.pushChunkWithinBudget_cancelled _).trans hc
  | ended => exact (ResponseStream.push_cancelled _).trans hc
  | bodiless => exact (ResponseStream.push_cancelled _).trans hc

/-- The queue of a channel that is opened without a body takes its end, unless it is cancelled. -/
theorem accepted_bodiless {cluster : String} {headers : Fields} {timeout : ℕ}
    (hfresh : (s.request s.nextChannel).accepted = [])
    (ht : step s (.queueStream cluster headers timeout false) = some t) :
    (t.request s.nextChannel).accepted = [.End] ∨ (t.request s.nextChannel).accepted = [] ∧
      (t.request s.nextChannel).stream.cancelled = true := by
  have hpush : t.request s.nextChannel = (s.request s.nextChannel).push .End := by
    simp only [step, Option.ite_none_right_eq_some, Option.some.injEq] at ht
    obtain ⟨-, rfl⟩ := ht
    refine Eq.trans ?_ (request_onQueue_self (s := s) (·.push .End) s.nextChannel)
    unfold State.queueStream
    dsimp only
    split <;> rfl
  rw [hpush]
  rcases (s.request s.nextChannel).push_cases .End with ⟨hs, heq⟩ | ⟨-, -, heq, -, -⟩
  · rw [heq]
    rw [← Tracked.any_terminal, hfresh, List.any_nil, Bool.or_false] at hs
    exact Or.inr ⟨hfresh, hs⟩
  · rw [hfresh] at heq
    exact Or.inl heq

/-- **Every step keeps what the notes say.** -/
theorem Bodies.step {a : Action} {e : Notes} (h : Bodies s e) (ht : step s a = some t) :
    Bodies t (note s a e) := by
  have hadds := accepted_step h.plain ht
  refine ⟨plain_step h.plain ht, fun n => ?_, fun n hn => ?_, fun n hn => ?_, fun n hn => ?_⟩
  · rw [unpaused_step h.plain ht]
    exact h.unpaused n
  · rcases hadds n with heq | ⟨x, -, hlt, -⟩
    · have hnext := (frame_step ht).2
      exact heq.trans (h.fresh n (by omega))
    · omega
  · have hold : .End ∈ (s.request n).accepted →
        n ∈ (note s a e).finishes ∨ n ∈ (note s a e).bodiless := fun hend =>
      (h.finish n hend).imp finishes_note bodiless_mono
    rcases hadds n with heq | ⟨x, heq, -, -, hx⟩
    · rw [heq] at hn
      exact hold hn
    · rw [heq] at hn
      rcases List.mem_append.mp hn with hn | hn
      · exact hold hn
      · rcases hx (List.mem_singleton.mp hn).symm with rfl | ⟨⟨_, _, _, rfl⟩, rfl⟩
        · exact Or.inl List.mem_cons_self
        · exact Or.inr List.mem_cons_self
  · rcases bodiless_note hn with hold | ⟨⟨cluster, headers, timeout, rfl⟩, rfl⟩
    · have hb := h.bodiless n hold
      have hsame : (t.request n).accepted = (s.request n).accepted := by
        rcases hadds n with heq | ⟨x, -, -, hs, -⟩
        · exact heq
        · rw [shut_of_bodiless hb] at hs
          cases hs
      rw [hsame]
      exact hb.imp_right fun hc => ⟨hc.1, cancelled_step h.plain ht n hc.2⟩
    · exact accepted_bodiless (h.fresh _ (Nat.le_refl _)) ht

theorem Bodies.of_reachable {e : Notes} (hr : watched.Reachable (s, e)) : Bodies s e := by
  refine hr.inductNoted (P := Bodies) ?_ ?_
  · rintro s ⟨config, rfl⟩
    exact .init config
  · intro s e a t h _ ht
    exact h.step ht

end Ruvoy.Upstream
