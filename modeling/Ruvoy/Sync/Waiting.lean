import Ruvoy.Sync.Answers

/-!
# Who waits for the serial runtime

A filter that waits is answered, if the runtime gets to its call. It does, unless a `Shutdown` is
before the call on the channel: the runtime leaves the call there, drops it with its completion, and
nobody tells the filter.

* `Asks`: what a request callback does to the state, whichever it is;
* `Bond`: what the loop of the runtime has to do with its clients;
* `Ahead`, `Stranded`: a call that the runtime will get to, and one it will not;
* `Stranded.step`: a stranded call stays where it is;
* **`sync_replied_iff`**: a filter that waits may be answered if and only if its call is not stranded,
  and then the others' steps lead to its answer.
-/

set_option autoImplicit false

namespace Ruvoy.Sync

open Runs

/-! ## The runtime and its clients -/

section Serial

variable {r r' : Serial.State} {a : Serial.Action}

theorem serial_closed (ha : a ≠ .close) (h : Serial.step r a = some r') : r'.closed = r.closed := by
  cases a with
  | close => exact absurd rfl ha
  | send command =>
    simp only [Serial.step, Option.ite_none_right_eq_some, Option.some.injEq] at h
    obtain ⟨-, rfl⟩ := h
    rfl
  | signal => exact (Serial.drains_frame (l := {}) rfl h).1
  | wake => exact (Serial.drains_frame (l := {}) rfl h).1
  | read => exact (Serial.drains_frame (l := {}) rfl h).1
  | receive => exact (Serial.drains_frame (l := {}) rfl h).1

/-- A runtime that has stopped only hears of its clients. -/
theorem serial_stopped (hs : r.stage = .stopped) (h : Serial.step r a = some r') :
    r'.stage = .stopped := by
  cases a with
  | send command | signal | close =>
    simp only [Serial.step, Option.ite_none_right_eq_some, Option.some.injEq] at h
    obtain ⟨-, rfl⟩ := h
    exact hs
  | wake | read | receive => simp [Serial.step, hs] at h

/-- While its clients are there the runtime stops at a `Shutdown` only. -/
theorem serial_goes (hc : r.closed = false) (hs : r.stage ≠ .stopped) (ha : a ≠ .receive)
    (h : Serial.step r a = some r') : r'.stage ≠ .stopped := by
  cases a with
  | receive => exact absurd rfl ha
  | send command | signal | close =>
    simp only [Serial.step, Option.ite_none_right_eq_some, Option.some.injEq] at h
    obtain ⟨-, rfl⟩ := h
    exact hs
  | wake =>
    simp only [Serial.step, Option.ite_none_right_eq_some, Option.some.injEq] at h
    obtain ⟨-, rfl⟩ := h
    rintro ⟨⟩
  | read =>
    simp only [Serial.step, Option.ite_none_right_eq_some, hc, Bool.false_eq_true, if_false] at h
    obtain ⟨-, h⟩ := h
    split_ifs at h <;> rw [Option.some.injEq] at h <;> subst h
    · exact hs
    · rintro ⟨⟩

theorem receive_goes (hc : r.closed = false) (hs : r.commands.head? ≠ some .Shutdown)
    (h : Serial.step r .receive = some r') : r'.stage ≠ .stopped := by
  simp only [Serial.step, Option.ite_none_right_eq_some] at h
  obtain ⟨hst, h⟩ := h
  split at h
  · rw [hc] at h
    cases h
    rintro ⟨⟩
  · rename_i hq
    rw [hq] at hs
    exact absurd rfl hs
  · cases h
    rw [hst]
    rintro ⟨⟩

theorem send_senders {k : Serial.Command} (h : Serial.step r (.send k) = some r') :
    r'.senders = r.senders + 1 := by
  simp only [Serial.step, Option.ite_none_right_eq_some, Option.some.injEq] at h
  obtain ⟨-, rfl⟩ := h
  rfl

theorem signal_senders (h : Serial.step r .signal = some r') : r'.senders + 1 = r.senders := by
  simp only [Serial.step, Option.ite_none_right_eq_some, Option.some.injEq] at h
  obtain ⟨hpos, rfl⟩ := h
  exact Nat.succ_pred_eq_of_pos hpos

/-- The loop of the runtime thread. -/
def inLoop : Serial.Action → Bool
  | .wake | .read | .receive => true
  | _ => false

theorem loop_senders (ha : inLoop a = true) (h : Serial.step r a = some r') :
    r'.senders = r.senders := by
  cases a with
  | send command | signal | close => cases ha
  | wake =>
    simp only [Serial.step, Option.ite_none_right_eq_some, Option.some.injEq] at h
    obtain ⟨-, rfl⟩ := h
    rfl
  | read =>
    simp only [Serial.step, Option.ite_none_right_eq_some] at h
    obtain ⟨-, h⟩ := h
    split_ifs at h <;> rw [Option.some.injEq] at h <;> subst h <;> rfl
  | receive =>
    simp only [Serial.step, Option.ite_none_right_eq_some] at h
    obtain ⟨-, h⟩ := h
    split at h <;> cases h <;> rfl

end Serial

/-- What is so between the runtime and its clients. -/
structure Bond (s : State) : Prop where
  log : ∃ l, Serial.noted.Reachable (s.runtime, l)
  there : s.runtime.closed = false
  senders : s.readerOpen = true → s.runtime.senders = s.others + s.signalling.length
  stopped : s.readerOpen = false → s.runtime.stage = .stopped

variable {c : Config} {s t : State} {n m : ℕ}

/-! ## The request callbacks -/

/-- A request callback changes its stream, and may submit the call. -/
inductive Asks (s t : State) (n : ℕ) : Prop
  | stays (f : Stream → Stream) (eq : t = s.update n f)
  | submits (f : Stream → Stream) (eq : (s.update n f).submit n = some t)

theorem onRequestHeaders_asks {headers : List (Bytes × Bytes)} {endOfStream : Bool}
    (ht : s.onRequestHeaders c n headers endOfStream = some t) : Asks s t n := by
  unfold State.onRequestHeaders at ht
  split at ht
  · exact .submits _ ht
  · cases ht
    exact .stays _ rfl

theorem onRequestBody_asks {received : Option (List Bytes)} {endOfStream : Bool}
    (ht : s.onRequestBody n received endOfStream = some t) : Asks s t n := by
  simp only [State.onRequestBody, update_update] at ht
  split at ht
  · cases ht
    exact .stays _ rfl
  · split at ht
    · cases ht
      exact .stays _ rfl
    · split at ht
      · exact .submits _ ht
      · cases ht
        exact .stays _ rfl

theorem onRequestTrailers_asks (ht : s.onRequestTrailers n = some t) : Asks s t n := by
  simp only [State.onRequestTrailers] at ht
  split at ht
  · exact .submits _ ht
  · cases ht
    exact .stays _ rfl

/-! ## The steps, beside the streams -/

/-- What a step does to the runtime, its channel and its clients. -/
inductive Beside (s t : State) : Prop
  | still (runtime : t.runtime = s.runtime) (channel : t.channel = s.channel)
      (reader : t.readerOpen = s.readerOpen)
      (clients : s.readerOpen = true →
        t.others + t.signalling.length = s.others + s.signalling.length)
  /-- The loop moves or hears of a client, and takes no command. -/
  | serial (a : Serial.Action) (new : List Command) (other : a ≠ .close ∧ a ≠ .receive)
      (runtime : Serial.step s.runtime a = some t.runtime) (channel : t.channel = s.channel ++ new)
      (reader : t.readerOpen = s.readerOpen)
      (clients : s.readerOpen = true → t.runtime.senders + (s.others + s.signalling.length) =
        s.runtime.senders + (t.others + t.signalling.length))
  | receive (turn : s.turn = .loop) (runtime : Serial.step s.runtime .receive = some t.runtime)
      (channel : t.channel = s.channel.tail) (reader : t.readerOpen = s.readerOpen)
      (others : t.others = s.others) (signalling : t.signalling = s.signalling)
  | closing (runtime : t.runtime = s.runtime) (channel : t.channel = s.channel)
      (stopped : s.runtime.stage = .stopped) (reader : t.readerOpen = false)

theorem beside_submit (ht : s.submit n = some t) : Beside s t := by
  unfold State.submit at ht
  split at ht
  · cases ht
    exact .still rfl rfl rfl fun _ => rfl
  · dsimp only at ht
    split at ht
    · obtain ⟨u, hu, rfl⟩ := Option.map_eq_some_iff.mp ht
      obtain ⟨runtime, hr, rfl⟩ := Option.map_eq_some_iff.mp hu
      refine .serial _ _ ⟨by rintro ⟨⟩, by rintro ⟨⟩⟩ hr rfl rfl fun _ => ?_
      have hsend : runtime.senders = s.runtime.senders + 1 := send_senders hr
      show runtime.senders + (s.others + s.signalling.length) =
        s.runtime.senders + (s.others + (s.signalling ++ [n]).length)
      rw [List.length_append, List.length_singleton]
      omega
    · cases ht
      exact .still rfl rfl rfl fun _ => rfl

theorem Beside.after_update {f : Stream → Stream} (h : Beside (s.update n f) t) : Beside s t := by
  cases h with
  | still h1 h2 h3 h4 => exact .still h1 h2 h3 h4
  | serial a new h1 h2 h3 h4 h5 => exact .serial a new h1 h2 h3 h4 h5
  | receive h1 h2 h3 h4 h5 h6 => exact .receive h1 h2 h3 h4 h5 h6
  | closing h1 h2 h3 h4 => exact .closing h1 h2 h3 h4

theorem Asks.beside (h : Asks s t n) : Beside s t := by
  cases h with
  | stays f ht =>
    subst ht
    exact .still rfl rfl rfl fun _ => rfl
  | submits f ht => exact (beside_submit ht).after_update

theorem beside_signal (hn : n ∈ s.signalling) (ht : s.signal c n = some t) : Beside s t := by
  rcases signal_cases ht with ⟨r, hr, rfl⟩ | ⟨hclosed, rfl⟩
  · refine .serial _ [] ⟨by rintro ⟨⟩, by rintro ⟨⟩⟩ hr (List.append_nil _).symm rfl fun _ => ?_
    have hsig := signal_senders hr
    have hlen := List.length_erase_add_one hn
    show r.senders + (s.others + s.signalling.length) =
      s.runtime.senders + (s.others + (s.signalling.erase n).length)
    omega
  · refine .still rfl rfl rfl fun ho => ?_
    rw [hclosed] at ho
    cases ho

theorem beside_send {command : Command} {u : State} (hu : s.send command = some u) :
    Beside s { u with others := u.others + 1 } := by
  obtain ⟨r, hr, rfl⟩ := send_eq hu
  refine .serial _ _ ⟨by rintro ⟨⟩, by rintro ⟨⟩⟩ hr rfl rfl fun _ => ?_
  have hsend := send_senders hr
  show r.senders + (s.others + s.signalling.length) =
    s.runtime.senders + (s.others + 1 + s.signalling.length)
  omega

theorem beside_signalOther {r : Serial.State} (hp : 0 < s.others)
    (hr : Serial.step s.runtime .signal = some r) :
    Beside s { s with runtime := r, others := s.others - 1 } := by
  refine .serial _ [] ⟨by rintro ⟨⟩, by rintro ⟨⟩⟩ hr (List.append_nil _).symm rfl fun _ => ?_
  have hsig := signal_senders hr
  show r.senders + (s.others + s.signalling.length) =
    s.runtime.senders + (s.others - 1 + s.signalling.length)
  omega

theorem beside_loop {a : Serial.Action} {r : Serial.State} (ha : inLoop a = true)
    (hne : a ≠ .close ∧ a ≠ .receive) (hr : Serial.step s.runtime a = some r) :
    Beside s { s with runtime := r } :=
  .serial a [] hne hr (List.append_nil _).symm rfl fun _ => congrArg (· + _) (loop_senders ha hr)

theorem beside_receive (hl : s.turn = .loop) (ht : s.receive = some t) : Beside s t := by
  obtain ⟨r, hr, ht⟩ := receive_eq ht
  rw [ht]
  exact .receive hl hr rfl rfl rfl rfl

theorem beside_step {a : Action} (ht : step c s a = some t) : Beside s t := by
  cases step_moves ht with
  | requestHeaders _ _ ht => exact (onRequestHeaders_asks ht).beside
  | requestBody _ _ _ ht => exact (onRequestBody_asks ht).beside
  | requestTrailers _ _ _ ht => exact (onRequestTrailers_asks ht).beside
  | signal hn ht => exact beside_signal hn ht
  | send _ hu => exact beside_send hu
  | signalOther hp hr => exact beside_signalOther hp hr
  | unheard _ hclosed =>
    refine .still rfl rfl rfl fun ho => ?_
    rw [hclosed] at ho
    cases ho
  | wake _ hr | read _ hr => exact beside_loop rfl ⟨by rintro ⟨⟩, by rintro ⟨⟩⟩ hr
  | receive hl ht => exact beside_receive hl ht
  | dropReader hs => exact .closing rfl rfl hs rfl
  | scheduled | destroy | answer | commit | dropReceiver => exact .still rfl rfl rfl fun _ => rfl

theorem Bond.serial (h : Bond s) {a : Serial.Action} (ha : a ≠ .close)
    (hr : Serial.step s.runtime a = some t.runtime) (hreader : t.readerOpen = s.readerOpen)
    (hsenders : s.readerOpen = true → t.runtime.senders = t.others + t.signalling.length) : Bond t where
  log := by
    obtain ⟨l, hl⟩ := h.log
    exact ⟨_, hl.step trivial (System.recording_step.mpr ⟨hr, rfl⟩ :
      Serial.noted.step (s.runtime, l) a = some (t.runtime, Serial.note s.runtime a l))⟩
  there := (serial_closed ha hr).trans h.there
  senders ho := hsenders (hreader ▸ ho)
  stopped ho := serial_stopped (h.stopped (hreader ▸ ho)) hr

theorem Bond.beside (h : Bond s) (hb : Beside s t) : Bond t := by
  cases hb with
  | still hr _ hreader hclients =>
    refine ⟨hr ▸ h.log, hr ▸ h.there, fun ho => ?_, fun ho => ?_⟩
    · rw [hreader] at ho
      rw [hr, h.senders ho, hclients ho]
    · rw [hreader] at ho
      rw [hr, h.stopped ho]
  | serial a _ ha hr _ hreader hclients =>
    refine h.serial ha.1 hr hreader fun ho => ?_
    have hc := hclients ho
    have hs := h.senders ho
    omega
  | receive _ hr _ hreader hothers hsignalling =>
    refine h.serial (by rintro ⟨⟩) hr hreader fun ho => ?_
    rw [loop_senders rfl hr, h.senders ho, hothers, hsignalling]
  | closing hr _ hstopped hreader =>
    refine ⟨hr ▸ h.log, hr ▸ h.there, fun ho => ?_, fun _ => by rw [hr, hstopped]⟩
    rw [hreader] at ho
    cases ho

theorem Bond.of_reachable (h : (system c).Reachable s) : Bond s := by
  refine System.Reach.induct ?_ (fun s a t hs _ ht => hs.beside (beside_step ht)) h
  rintro s ⟨capacity, rfl⟩
  exact ⟨⟨{}, .init ⟨⟨capacity, rfl⟩, rfl⟩⟩, rfl, fun _ => rfl, by rintro ⟨⟩⟩

/-! ## Calls that are never run -/

/-- The calls before the first `Shutdown`. -/
def ahead (commands : List Command) : List Job := jobsOf (commands.takeWhile (· ≠ .Shutdown))

theorem ahead_cons (command : Command) (rest : List Command) :
    ahead (command :: rest) = if command = .Shutdown then [] else command.job.toList ++ ahead rest := by
  by_cases h : command = .Shutdown
  · simp [ahead, h]
  · rw [if_neg h, ahead, List.takeWhile_cons_of_pos (by simpa using h), jobsOf_cons]
    rfl

/-- No command is ahead of those that were there before. -/
theorem ahead_append {commands new : List Command} {job : Job} (h : job ∈ ahead (commands ++ new)) :
    job ∈ ahead commands ∨ ahead commands = jobsOf commands := by
  rw [ahead, List.takeWhile_append] at h
  split at h
  · rename_i hall
    refine Or.inr ?_
    rw [ahead, (List.takeWhile_prefix _).eq_of_length hall]
  · exact Or.inl h

/-- The call of a stream is on the channel, and the runtime will not get to it. -/
def Stranded (s : State) (n : ℕ) : Prop :=
  (∃ job ∈ jobsOf s.channel, job.stream = n) ∧
    (s.runtime.stage = .stopped ∨ ∀ job ∈ ahead s.channel, job.stream ≠ n)

theorem Stranded.append (h : Stranded s n) {new : List Command}
    (hchannel : t.channel = s.channel ++ new)
    (hstage : s.runtime.stage = .stopped → t.runtime.stage = .stopped) : Stranded t n := by
  obtain ⟨⟨job, hjob, hn⟩, hwhere⟩ := h
  refine ⟨⟨job, ?_, hn⟩, hwhere.imp hstage fun hnot j hj hjn => ?_⟩
  · rw [hchannel, jobsOf, List.filterMap_append]
    exact List.mem_append_left _ hjob
  · rw [hchannel] at hj
    rcases ahead_append hj with hold | hall
    · exact hnot j hold hjn
    · exact hnot job (hall ▸ hjob) hn

/-- The runtime takes a command that is ahead of the call, or stops. -/
theorem Stranded.receive (h : Stranded s n) (hline : Line s)
    (hr : Serial.step s.runtime .receive = some t.runtime) (hchannel : t.channel = s.channel.tail) :
    Stranded t n := by
  obtain ⟨⟨job, hjob, hn⟩, hwhere⟩ := h
  have hkinds := hline.kinds
  simp only [Serial.step, Option.ite_none_right_eq_some] at hr
  obtain ⟨hstage, hr⟩ := hr
  have hnot : ∀ j ∈ ahead s.channel, j.stream ≠ n := by
    refine hwhere.resolve_left ?_
    rw [hstage]
    rintro ⟨⟩
  cases hq : s.channel with
  | nil =>
    rw [hq] at hjob
    cases hjob
  | cons command rest =>
    rw [hq] at hjob hnot hkinds hchannel
    rw [jobsOf_cons] at hjob
    rw [ahead_cons] at hnot
    cases command with
    | Shutdown =>
      simp only [← hkinds, List.map_cons, Command.kind, Option.some.injEq] at hr
      exact ⟨⟨job, by rw [hchannel]; exact hjob, hn⟩, Or.inl (by rw [← hr])⟩
    | ForceGc =>
      refine ⟨⟨job, by rw [hchannel]; exact hjob, hn⟩, Or.inr fun k hk => hnot k ?_⟩
      rw [hchannel] at hk
      exact hk
    | Call j =>
      have hj : j.stream ≠ n := hnot j (by simp [Command.job])
      refine ⟨⟨job, ?_, hn⟩, Or.inr fun k hk => hnot k ?_⟩
      · rw [hchannel]
        refine (List.mem_cons.mp hjob).resolve_left ?_
        rintro rfl
        exact hj hn
      · rw [hchannel] at hk
        simp [Command.job, show k ∈ ahead rest from hk]

/-- **A stranded call stays where it is.** -/
theorem Stranded.beside (h : Stranded s n) (hline : Line s) (hb : Beside s t) : Stranded t n := by
  cases hb with
  | still hr hc => exact h.append (hc.trans (List.append_nil _).symm) fun hst => by rw [hr, hst]
  | serial a new _ hr hc => exact h.append hc fun hst => serial_stopped hst hr
  | receive _ hr hc => exact h.receive hline hr hc
  | closing hr hc => exact h.append (hc.trans (List.append_nil _).symm) fun hst => by rw [hr, hst]

/-! ## The stream of a call -/

/-- The stream that a step is about. -/
def Action.stream : Action → Option ℕ
  | .requestHeaders n _ _ | .requestBody n _ _ | .requestTrailers n => some n
  | .signal n | .scheduled n | .destroy n => some n
  | _ => none

theorem submit_other (ht : s.submit m = some t) (h : n ≠ m) : t.streams n = s.streams n := by
  unfold State.submit at ht
  split at ht
  · cases ht
    exact update_other _ h
  · dsimp only at ht
    split at ht
    · obtain ⟨u, hu, rfl⟩ := Option.map_eq_some_iff.mp ht
      obtain ⟨runtime, -, rfl⟩ := Option.map_eq_some_iff.mp hu
      exact Function.update_of_ne h _ _
    · cases ht
      rw [update_other _ h, update_other _ h]

theorem Asks.other (h : Asks s t m) (hn : n ≠ m) : t.streams n = s.streams n := by
  cases h with
  | stays f ht =>
    subst ht
    exact update_other f hn
  | submits f ht => exact (submit_other ht hn).trans (update_other f hn)

/-- A step that is not about a stream leaves its filter in its state. -/
theorem stream_step {a : Action} (ha : a.stream ≠ some n) (ht : step c s a = some t) :
    (t.streams n).filter.state = (s.streams n).filter.state ∧
      (t.streams n).destroyed = (s.streams n).destroyed := by
  have hsame : t.streams n = s.streams n → _ := fun h =>
    (⟨by rw [h], by rw [h]⟩ : (t.streams n).filter.state = (s.streams n).filter.state ∧
      (t.streams n).destroyed = (s.streams n).destroyed)
  have hne : ∀ {m : ℕ}, some m ≠ some n → n ≠ m := fun h heq => h (congrArg some heq.symm)
  cases step_moves ht with
  | requestHeaders _ _ ht => exact hsame ((onRequestHeaders_asks ht).other (hne ha))
  | requestBody _ _ _ ht => exact hsame ((onRequestBody_asks ht).other (hne ha))
  | requestTrailers _ _ _ ht => exact hsame ((onRequestTrailers_asks ht).other (hne ha))
  | signal _ ht =>
    rcases signal_cases ht with ⟨r, -, rfl⟩ | ⟨-, rfl⟩ <;> exact hsame (update_other _ (hne ha))
  | scheduled | destroy => exact hsame (update_other _ (hne ha))
  | send _ hu =>
    obtain ⟨r, -, rfl⟩ := send_eq hu
    exact hsame rfl
  | receive _ ht =>
    obtain ⟨r, -, ht⟩ := receive_eq ht
    exact hsame (by rw [ht])
  | @answer job =>
    by_cases hn : n = job.stream
    · rw [State.answer, hn, update_same]
      exact ⟨rfl, rfl⟩
    · exact hsame (update_other _ hn)
  | @commit m =>
    by_cases hn : n = m
    · rw [State.commit, hn, update_same]
      split <;> exact ⟨rfl, rfl⟩
    · exact hsame (update_other _ hn)
  | signalOther | unheard | wake | read | dropReader | dropReceiver => exact hsame rfl

theorem Inv.waiting (h : Inv c s) (hw : (s.streams n).filter.state = .Waiting) :
    (s.streams n).headers ≠ none ∧ (s.streams n).ended = true ∧ (s.streams n).replies = [] ∧
      n ∉ s.signalling ∧ Sent s n := by
  cases (h.streams n).phase with
  | waiting h1 _ h2 h3 h4 h5 => exact ⟨h1, h2, h3, h4, h5⟩
  | fresh _ hs => rw [hs] at hw; cases hw
  | collecting _ _ hs => rw [hs] at hw; cases hw
  | submitting _ hs => rw [hs] at hw; cases hw
  | responded _ hs => rw [hs] at hw; cases hw

/-- **A filter whose call is stranded goes on waiting.** -/
theorem Stranded.waits (h : Stranded s n) (hi : Inv c s)
    (hw : (s.streams n).filter.state = .Waiting) {a : Action} (ht : step c s a = some t) :
    (t.streams n).filter.state = .Waiting := by
  obtain ⟨hheaders, hended, -, hstill, -⟩ := hi.waiting hw
  by_cases ha : a.stream = some n
  · cases step_moves ht with
    | requestHeaders _ hf =>
      cases ha
      exact absurd hf hheaders
    | requestBody _ _ he | requestTrailers _ _ he =>
      cases ha
      exact absurd (hended.symm.trans he) (by decide)
    | signal hn =>
      cases ha
      exact absurd hn hstill
    | scheduled hcalm hevents =>
      -- nothing was answered, so no event was committed
      cases ha
      obtain ⟨⟨job, hjob, rfl⟩, -⟩ := h
      have hnot := hi.line.not_got (List.mem_append_right _ hjob)
      cases (hi.streams job.stream).slot hcalm.2 with
      | empty _ he => rw [he] at hevents; cases hevents
      | filled r _ _ _ hg => exact absurd hg (hnot r)
      | ready r _ _ _ hg => exact absurd hg (hnot r)
      | handed _ _ _ r hg => exact absurd hg (hnot r)
    | destroy =>
      cases ha
      rw [update_same]
      exact hw
    | _ => cases ha
  · exact (stream_step ha ht).1.trans hw

/-! ## Calls that are run -/

/-- The steps of the runtime, of callbacks that have sent a call, and of Envoy handing over the
stream's event, when the application answers with this. -/
def Drains (n : ℕ) (r : Answer) : Action → Prop
  | .signal _ | .signalOther | .wake | .read | .receive | .commit => True
  | .answer result => result = r
  | .scheduled m => m = n
  | _ => False

/-- What such a step keeps. -/
structure Keeps (s t : State) (n : ℕ) : Prop where
  channel : t.channel <:+ s.channel
  destroyed : (t.streams n).destroyed = (s.streams n).destroyed
  signalling : ∀ m ∈ t.signalling, m ∈ s.signalling
  accepted : t.accepted = s.accepted

theorem onScheduled_destroyed (x : Stream) (event : ℕ) :
    (x.onScheduled c n event).destroyed = x.destroyed := by
  unfold Stream.onScheduled
  split_ifs
  · rfl
  · split <;> rfl

theorem update_destroyed {f : Stream → Stream} (hf : ∀ x, (f x).destroyed = x.destroyed) :
    ((s.update m f).streams n).destroyed = (s.streams n).destroyed := by
  by_cases hm : n = m
  · subst hm
    rw [update_same, hf]
  · rw [update_other f hm]

theorem keeps_signal (ht : s.signal c m = some t) : Keeps s t n := by
  rcases signal_cases ht with ⟨r, -, rfl⟩ | ⟨-, rfl⟩
  · refine ⟨List.suffix_rfl, ?_, fun _ => List.mem_of_mem_erase, rfl⟩
    rw [update_destroyed]
    exact fun _ => rfl
  · refine ⟨List.suffix_rfl, ?_, fun _ => List.mem_of_mem_erase, rfl⟩
    rw [update_destroyed]
    exact fun _ => rfl

theorem Drains.keeps {r : Answer} {a : Action} (ha : Drains n r a) (ht : step c s a = some t) :
    Keeps s t n := by
  have hstream : a.stream ≠ some n → (t.streams n).destroyed = (s.streams n).destroyed :=
    fun hne => (stream_step hne ht).2
  cases step_moves ht with
  | signal _ ht => exact keeps_signal ht
  | signalOther | unheard | wake | read => exact ⟨List.suffix_rfl, rfl, fun _ => id, rfl⟩
  | receive _ ht =>
    have hd := hstream (by rintro ⟨⟩)
    obtain ⟨r, -, ht⟩ := receive_eq ht
    rw [ht] at hd ⊢
    exact ⟨List.tail_suffix _, hd, fun _ => id, rfl⟩
  | answer | commit => exact ⟨List.suffix_rfl, hstream (by rintro ⟨⟩), fun _ => id, rfl⟩
  | scheduled =>
    cases ha
    refine ⟨List.suffix_rfl, ?_, fun _ => id, rfl⟩
    rw [update_same, onScheduled_destroyed]
  | _ => cases ha

/-- A call that the runtime will get to, it still does. -/
theorem not_stranded_step (h : ¬ Stranded s n) (hline : Line s) (hbond : Bond s) (hb : Beside s t)
    (hsuffix : t.channel <:+ s.channel) : ¬ Stranded t n := by
  rintro ⟨⟨job, hjob, hn⟩, hwhere⟩
  have hjobs : jobsOf t.channel <:+ jobsOf s.channel := hsuffix.filterMap _
  have hold : s.runtime.stage ≠ .stopped ∧ ∃ k ∈ ahead s.channel, k.stream = n := by
    by_contra hnot
    refine h ⟨⟨job, hjobs.subset hjob, hn⟩, ?_⟩
    rw [not_and_or, not_not] at hnot
    exact hnot.imp id fun hnone k hk hkn => hnone ⟨k, hk, hkn⟩
  obtain ⟨hstage, k, hk, hkn⟩ := hold
  suffices hnew : t.runtime.stage ≠ .stopped ∧ ∃ k ∈ ahead t.channel, k.stream = n by
    obtain ⟨hgoes, k, hk, hkn⟩ := hnew
    exact hwhere.elim hgoes fun hnone => hnone k hk hkn
  cases hb with
  | still hr hc => exact ⟨by rw [hr]; exact hstage, k, by rw [hc]; exact hk, hkn⟩
  | serial a new ha hr hc =>
    refine ⟨serial_goes hbond.there hstage ha.2 hr, k, ?_, hkn⟩
    have hlen := hsuffix.length_le
    rw [hc, List.length_append] at hlen
    rw [hc, List.length_eq_zero_iff.mp (show new.length = 0 by omega), List.append_nil]
    exact hk
  | closing _ _ hstopped => exact absurd hstopped hstage
  | receive _ hr hc =>
    have hkinds := hline.kinds
    have honce := hline.once
    rw [← hline.order, List.map_append, List.nodup_append] at honce
    have hnodup := honce.2.1
    cases hq : s.channel with
    | nil =>
      rw [hq] at hk
      cases hk
    | cons command rest =>
      rw [hq] at hk hkinds hc hnodup
      rw [ahead_cons] at hk
      split_ifs at hk with hcommand
      · cases hk
      · refine ⟨receive_goes hbond.there ?_ hr, k, ?_, hkn⟩
        · rw [← hkinds]
          cases command with
          | Shutdown => exact absurd rfl hcommand
          | Call _ | ForceGc => rintro ⟨⟩
        · rw [hc]
          refine (List.mem_append.mp hk).resolve_left fun hhead => ?_
          cases command with
          | Shutdown | ForceGc => cases hhead
          | Call j =>
            rw [List.mem_singleton.mp hhead] at hkn
            rw [hc] at hjob
            rw [jobsOf_cons, List.map_append, List.nodup_append] at hnodup
            exact hnodup.2.2 j.stream (by simp [Command.job]) job.stream (List.mem_map_of_mem hjob)
              (hkn.trans hn.symm)

def Turn.rank : Turn → ℕ
  | .loop => 0
  | .committing _ => 2
  | .running _ => 3

/-- How far it is to the answer of a stream, at most. -/
def rank (n : ℕ) (s : State) : ℕ :=
  4 * Serial.rank s.runtime + s.turn.rank + (s.streams n).events.length

/-- The runtime will get to the call of a stream, or has, and told the filter. -/
structure Hopeful (c : Config) (n : ℕ) (s : State) : Prop where
  reachable : (system c).Reachable s
  there : (s.streams n).destroyed = false
  still : n ∉ s.signalling
  sent : Sent s n
  met : ¬ Stranded s n
  told : (s.streams n).filter.state = .Waiting ∨
    ∃ r reply, (s.streams n).replies = [reply] ∧ Tells c n r reply ∧ Got s n r

theorem loop_step (hbond : Bond s) (hturn : s.turn = .loop) (hstill : n ∉ s.signalling) (r : Answer)
    (hstage : s.runtime.stage ≠ .stopped) {a : Serial.Action} {runtime : Serial.State}
    (ha : Serial.drains a = true) (hr : Serial.step s.runtime a = some runtime) :
    ∃ b t, Drains n r b ∧ step c s b = some t ∧ t.runtime = runtime ∧ t.turn.rank ≤ 3 ∧
      (t.streams n).events = (s.streams n).events := by
  have hopen : s.readerOpen = true := by
    by_contra hclosed
    exact hstage (hbond.stopped (by simpa using hclosed))
  have hloop : s.turn.rank ≤ 3 := by
    rw [hturn]
    decide
  cases a with
  | send command | close => cases ha
  | wake =>
    refine ⟨.wake, { s with runtime := runtime }, trivial, ?_, rfl, hloop, rfl⟩
    simp only [step, hturn, if_true, hr, Option.map_some]
  | read =>
    refine ⟨.read, { s with runtime := runtime }, trivial, ?_, rfl, hloop, rfl⟩
    simp only [step, hturn, if_true, hr, Option.map_some]
  | receive =>
    have ht : ∃ t, s.receive = some t ∧ t.runtime = runtime ∧ t.turn.rank ≤ 3 ∧
        (t.streams n).events = (s.streams n).events := by
      simp only [State.receive, hr, Option.map_some, Option.some.injEq, exists_eq_left']
      split
      · exact ⟨rfl, le_rfl, rfl⟩
      · exact ⟨rfl, hloop, rfl⟩
    obtain ⟨t, ht, hrest⟩ := ht
    exact ⟨.receive, t, trivial, by simp only [step, hturn, if_true, ht], hrest⟩
  | signal =>
    have hpos : 0 < s.runtime.senders := by
      simp only [Serial.step, Option.ite_none_right_eq_some] at hr
      exact hr.1
    by_cases hothers : 0 < s.others
    · refine ⟨.signalOther, { s with runtime := runtime, others := s.others - 1 }, trivial, ?_, rfl,
        hloop, rfl⟩
      simp only [step, hothers, hopen, if_true, hr, Option.map_some]
    · have hsenders := hbond.senders hopen
      cases hq : s.signalling with
      | nil =>
        rw [hq] at hsenders
        exact absurd hpos (by rw [hsenders]; simpa using hothers)
      | cons m rest =>
        have hm : m ∈ s.signalling := by
          rw [hq]
          exact List.mem_cons_self ..
        have hne : n ≠ m := by
          rintro rfl
          exact hstill hm
        have ht : step c s (.signal m) =
            some ({ s with runtime := runtime, signalling := s.signalling.erase m }.update m fun x =>
              { x with filter := { x.filter with state := .Waiting } }) := by
          simp only [step, hm, State.signal, hopen, if_true, hr, Option.map_some]
        exact ⟨.signal m, _, trivial, ht, rfl, hloop, by rw [update_other _ hne]⟩

/-- **There is a step towards the answer.** -/
theorem Hopeful.next (h : Hopeful c n s) (hw : (s.streams n).filter.state = .Waiting) (r : Answer) :
    ∃ a t, Drains n r a ∧ step c s a = some t ∧ rank n t < rank n s := by
  have hi := Inv.of_reachable h.reachable
  have hbond := Bond.of_reachable h.reachable
  have hcalm : s.Calm n := ⟨h.still, h.there⟩
  cases hturn : s.turn with
  | running job =>
    refine ⟨.answer r, s.answer job r, rfl, by simp only [step, hturn], ?_⟩
    have hevents : ((s.answer job r).streams n).events = (s.streams n).events := by
      by_cases hn : n = job.stream
      · rw [State.answer, hn, update_same]
      · rw [State.answer, update_other _ hn]
    show 4 * Serial.rank s.runtime + 2 + ((s.answer job r).streams n).events.length < rank n s
    rw [hevents, rank, hturn, Turn.rank]
    omega
  | committing m =>
    refine ⟨.commit, s.commit m, trivial, by simp only [step, hturn], ?_⟩
    have hevents : ((s.commit m).streams n).events.length ≤ (s.streams n).events.length + 1 := by
      by_cases hn : n = m
      · rw [State.commit, hn, update_same]
        split
        · exact Nat.le_succ _
        · exact (List.length_append ..).le
      · rw [State.commit, update_other _ hn]
        exact Nat.le_succ _
    show 4 * Serial.rank s.runtime + 0 + ((s.commit m).streams n).events.length < rank n s
    rw [rank, hturn, Turn.rank]
    omega
  | loop =>
    cases (hi.streams n).slot h.there with
    | filled _ _ _ hon => rw [hturn] at hon; cases hon
    | handed hs => rw [hw] at hs; cases hs
    | ready r' hresult hevents =>
      have ht : step c s (.scheduled n) =
          some (s.update n fun x => { x with events := [] }.onScheduled c n responseEventId) := by
        simp only [step, hcalm, hevents, if_true]
      have hnone : ({ s.streams n with events := [] }.onScheduled c n responseEventId).events = [] := by
        obtain ⟨reply, hready, -⟩ := onScheduled_ready (c := c) (n := n)
          (x := { s.streams n with events := [] }) hw hresult
        rw [hready]
        rfl
      refine ⟨.scheduled n, _, rfl, ht, ?_⟩
      rw [rank, rank, update_same, hnone, hevents]
      exact Nat.lt_succ_self _
    | empty _ _ _ hnone =>
      -- the call is on the channel, and the runtime has not stopped
      obtain ⟨job, hjob, hn⟩ := h.sent
      have hon : ∃ job ∈ jobsOf s.channel, job.stream = n := by
        refine ⟨job, ?_, hn⟩
        rw [← hi.line.order, hturn] at hjob
        refine (List.mem_append.mp hjob).resolve_left fun hmem => ?_
        rw [show Turn.loop.job.toList = [] from rfl, List.append_nil] at hmem
        obtain ⟨p, hp, rfl⟩ := List.mem_map.mp hmem
        exact hnone p.2 ⟨p.1, hn, hp⟩
      have hstage : s.runtime.stage ≠ .stopped := fun hst => h.met ⟨hon, Or.inl hst⟩
      obtain ⟨l, hl⟩ := hbond.log
      have hcommands : s.runtime.commands ≠ [] := by
        rw [← hi.line.kinds]
        intro hnil
        obtain ⟨j, hj, -⟩ := hon
        rw [List.map_eq_nil_iff.mp hnil] at hj
        cases hj
      have hshutdown : Serial.Command.Shutdown ∉ l.received := by
        intro hmem
        have hlast := (Serial.noted_ok hl).last (fun hst => hstage ?_) _ hmem
        · cases hlast
        · cases hst' : s.runtime.stage with
          | stopped => rfl
          | _ => simp [Serial.view, hst', Serial.Stage.phase] at hst
      obtain ⟨a, runtime, ha, hr, hlt⟩ := Serial.drains_step hl hbond.there hcommands hshutdown
      obtain ⟨b, t, hb, ht, hruntime, hrank, hevents⟩ :=
        loop_step (c := c) hbond hturn h.still r hstage ha hr
      have hloop : s.turn.rank = 0 := by
        rw [hturn]
        rfl
      refine ⟨b, t, hb, ht, ?_⟩
      dsimp only at hlt
      rw [rank, rank, hruntime, hevents, hloop]
      omega

theorem Hopeful.step (h : Hopeful c n s) (hw : (s.streams n).filter.state = .Waiting) {r : Answer}
    {a : Action} (ha : Drains n r a) (ht : step c s a = some t) : Hopeful c n t := by
  have hi := Inv.of_reachable h.reachable
  have hk := ha.keeps ht
  have hreach : (system c).Reachable t := h.reachable.step trivial ht
  have hsent : Sent t n := by
    rw [Sent, hk.accepted]
    exact h.sent
  refine ⟨hreach, hk.destroyed.trans h.there, fun hn => h.still (hk.signalling n hn), hsent,
    not_stranded_step h.met hi.line (Bond.of_reachable h.reachable) (beside_step ht) hk.channel, ?_⟩
  by_cases hstream : a.stream = some n
  · cases a with
    | signal m =>
      cases hstream
      simp only [Sync.step, Option.ite_none_right_eq_some] at ht
      exact absurd ht.1 h.still
    | scheduled m =>
      cases hstream
      -- the event is there, and the result with it
      simp only [Sync.step, Option.ite_none_right_eq_some] at ht
      obtain ⟨hcalm, ht⟩ := ht
      cases (hi.streams n).slot hcalm.2 with
      | empty _ he => rw [he] at ht; cases ht
      | filled _ _ he => rw [he] at ht; cases ht
      | handed hs => rw [hw] at hs; cases hs
      | ready r' hresult he _ hg =>
        rw [he] at ht
        cases ht
        obtain ⟨reply, hready, htells⟩ := onScheduled_ready (c := c) (n := n)
          (x := { s.streams n with events := [] }) hw hresult
        refine Or.inr ⟨r', reply, ?_, htells, hg⟩
        rw [update_same, hready]
        exact congrArg (· ++ [_]) (hi.waiting hw).2.2.1
    | requestHeaders m headers endOfStream => exact ha.elim
    | requestBody m received endOfStream => exact ha.elim
    | requestTrailers m => exact ha.elim
    | destroy m => exact ha.elim
    | _ => cases hstream
  · exact Or.inl ((stream_step hstream ht).1.trans hw)

/-- **A filter that waits may be answered if and only if its call is not stranded**; and then the
runtime and the clients that have sent a call lead to its answer, whatever the application answers. -/
theorem sync_replied_iff (h : (system c).Reachable s) (hw : (s.streams n).filter.state = .Waiting)
    (hd : (s.streams n).destroyed = false) :
    ((system c).Leads (fun _ => True) (fun t => (t.streams n).replies ≠ []) s ↔ ¬ Stranded s n) ∧
      (¬ Stranded s n → ∀ r, (system c).Leads (Drains n r)
        (fun t => ∃ r' reply, (t.streams n).replies = [reply] ∧ Tells c n r' reply ∧ Got t n r') s) := by
  have hi := Inv.of_reachable h
  obtain ⟨-, -, -, hstill, hsent⟩ := hi.waiting hw
  have hleads : ¬ Stranded s n → ∀ r, (system c).Leads (Drains n r)
      (fun t => ∃ r' reply, (t.streams n).replies = [reply] ∧ Tells c n r' reply ∧ Got t n r') s := by
    intro hmet r
    have hto := System.Leads.of_reach (A := Drains n r) (rank n) (K := Hopeful c n)
      (P := fun t => (t.streams n).filter.state ≠ .Waiting) ?_ h ⟨h, hd, hstill, hsent, hmet, Or.inl hw⟩
    · exact hto.bind fun t ht => .here (ht.1.told.resolve_left ht.2)
    · intro t _ hk hnot
      rw [not_not] at hnot
      obtain ⟨a, u, ha, hu, hlt⟩ := hk.next hnot r
      exact ⟨a, u, ha, hu, hk.step hnot ha hu, hlt⟩
  refine ⟨⟨fun hl hstranded => ?_, fun hmet => ?_⟩, hleads⟩
  · -- stranded it goes on waiting, on any run
    have hinv := hl.inv (I := fun t => (system c).Reachable t ∧ Stranded t n ∧
      (t.streams n).filter.state = .Waiting) ?_ ⟨h, hstranded, hw⟩
    · have hnone : ∀ {u : State}, (system c).Leads (fun _ => True) (fun t => (t.streams n).replies ≠ [] ∧
          (system c).Reachable t ∧ Stranded t n ∧ (t.streams n).filter.state = .Waiting) u → False := by
        intro u hu
        induction hu with
        | here hp => exact hp.1 ((Inv.of_reachable hp.2.1).waiting hp.2.2.2).2.2.1
        | next _ _ _ ih => exact ih
      exact hnone hinv
    · rintro t a u - ⟨hreach, hst, hwait⟩ hu
      have hit := Inv.of_reachable hreach
      exact ⟨hreach.step trivial hu, hst.beside hit.line (beside_step hu), hst.waits hit hwait hu⟩
  · refine ((hleads hmet (.error .Overloaded)).mono fun _ _ => trivial).bind fun t ht => .here ?_
    obtain ⟨r', reply, hreplies, -⟩ := ht
    rw [hreplies]
    exact List.cons_ne_nil _ _

/-- A request is sent and waits. -/
def oneWaits : List Action := [.requestHeaders 0 [] true, .signal 0]

/-- A request is sent after a `Shutdown`. -/
def behindShutdown : List Action :=
  [.send .Shutdown, .requestHeaders 0 [] true, .signalOther, .signal 0, .wake]

theorem sync_replied_iff_oneWaits :
    (∃ s, (system oneThread).run asleep oneWaits = some s ∧
      (system oneThread).Leads (fun _ => True) (fun t => (t.streams 0).replies ≠ []) s) ∧
    ∃ s, (system oneThread).run asleep behindShutdown = some s ∧
      ¬ (system oneThread).Leads (fun _ => True) (fun t => (t.streams 0).replies ≠ []) s := by
  constructor
  · obtain ⟨s, hrun, hw, hd, hstage, hahead⟩ : ∃ s, (system oneThread).run asleep oneWaits = some s ∧
        (s.streams 0).filter.state = .Waiting ∧ (s.streams 0).destroyed = false ∧
          s.runtime.stage = .waiting ∧ (ahead s.channel).map Job.stream = [0] :=
      ⟨_, rfl, rfl, rfl, rfl, rfl⟩
    refine ⟨s, hrun, (sync_replied_iff (System.reach_of_run ⟨8, rfl⟩ hrun) hw hd).1.mpr ?_⟩
    rintro ⟨-, hst | hnone⟩
    · rw [hstage] at hst
      cases hst
    · obtain ⟨job, hjob, hn⟩ := List.mem_map.mp (hahead.symm ▸ List.mem_singleton_self 0)
      exact hnone job hjob hn
  · obtain ⟨s, hrun, hw, hd, hon, hnone⟩ : ∃ s, (system oneThread).run asleep behindShutdown = some s ∧
        (s.streams 0).filter.state = .Waiting ∧ (s.streams 0).destroyed = false ∧
          (∃ job ∈ jobsOf s.channel, job.stream = 0) ∧ ahead s.channel = [] :=
      ⟨_, rfl, rfl, rfl, ⟨_, List.mem_cons_self .., rfl⟩, rfl⟩
    refine ⟨s, hrun, fun hl => ?_⟩
    refine (sync_replied_iff (System.reach_of_run ⟨8, rfl⟩ hrun) hw hd).1.mp hl ⟨hon, Or.inr ?_⟩
    rw [hnone]
    rintro job ⟨⟩

end Ruvoy.Sync
