import Ruvoy.Sync.Steps

/-!
# What the serial runtime's filters answer

* `Sent`, `Got`: the calls of a stream, and what they came to;
* `Excuse`, `Shows`, `Tells`, `Why`: what a reply says, and why it was sent;
* `Phase`, `Slot`: how far the filter of a stream is, and its result;
* `Inv`, `Inv.step`: the invariant of all streams and the channel between them and the runtime.
-/

set_option autoImplicit false

namespace Ruvoy.Sync

open Runs

/-- The calls among some commands. -/
def jobsOf (commands : List Command) : List Job := commands.filterMap Command.job

@[simp] theorem jobsOf_nil : jobsOf [] = [] := rfl

theorem jobsOf_cons (command : Command) (rest : List Command) :
    jobsOf (command :: rest) = command.job.toList ++ jobsOf rest := by
  cases command <;> rfl

theorem jobsOf_concat (commands : List Command) (command : Command) :
    jobsOf (commands ++ [command]) = jobsOf commands ++ command.job.toList := by
  rw [jobsOf, List.filterMap_append]
  cases command <;> rfl

/-- A call of the stream was sent. -/
def Sent (s : State) (n : ℕ) : Prop := ∃ job ∈ s.accepted, job.stream = n

/-- A call of the stream came to this. -/
def Got (s : State) (n : ℕ) (r : Answer) : Prop := ∃ job, job.stream = n ∧ (job, r) ∈ s.answered

/-- The request that Envoy has delivered so far. -/
def delivered (c : Config) (headers : List (Bytes × Bytes)) (frames : List Bytes) : Request :=
  { copyHeaders c headers with body := frames.flatten }

/-! ## What a reply says -/

/-- Plain text of the filter's own. -/
structure Excuse (status : ℕ) (body details : String) (reply : Reply) : Prop where
  status : reply.status = status
  headers : reply.headers = [("content-type", utf8 "text/plain"), ("x-ruvoy-error", utf8 "true")]
  body : reply.body = utf8 body
  details : reply.details = details

/-- The threads that are named where diagnostics are on. -/
def threads (c : Config) (n : ℕ) : List (String × Bytes) :=
  if c.diagnosticsEnabled then
    [("x-ruvoy-runtime-rust-thread-id", utf8 c.runtimeThreadId),
      ("x-ruvoy-worker-rust-thread-id", utf8 (c.workerThreadId n))]
  else []

/-- The application's response: its status, its body, and its fields that are no pseudo-headers, in
order. -/
structure Shows (c : Config) (n : ℕ) (response : Response) (reply : Reply) : Prop where
  status : reply.status = response.status
  body : reply.body = response.body
  headers : ∃ own, reply.headers = own ++ threads c n ∧
    own = (response.headers.filter fun h => h.1.toList.head? ≠ some ':').map fun h => (h.1, utf8 h.2)
  details : reply.details = "ruvoy_sync_rack_response"

/-- What a filter replies when its call comes to this. -/
def Tells (c : Config) (n : ℕ) : Answer → Reply → Prop
  | .ok response => Shows c n response
  | .error error => Excuse 500 error.display "ruvoy_sync_ruby_error"

theorem bridgeError_excuse (status : ℕ) (body details : String) :
    Excuse status body details (Stream.bridgeError status body details) := ⟨rfl, rfl, rfl, rfl⟩

theorem rackResponse_shows (c : Config) (n : ℕ) (response : Response) :
    Shows c n response (Stream.rackResponse c n response) := ⟨rfl, rfl, ⟨_, rfl, rfl⟩, rfl⟩

/-- Why a filter sends a reply, and which. -/
inductive Why (c : Config) (s : State) (n : ℕ) (reply : Reply) : Prop
  | tooLarge (h : maxRequestBodyBytes < (s.streams n).frames.flatten.length) (hs : ¬ Sent s n)
      (excuse : Excuse 413 "request body exceeds the 2 MiB limit" "ruvoy_sync_body_too_large" reply)
  | stopped (h : s.receiverOpen = false) (hs : ¬ Sent s n)
      (excuse : Excuse 503 BridgeError.RuntimeStopped.display "ruvoy_sync_submit_failed" reply)
  | brokenPipe (h : s.readerOpen = false)
      (excuse : Excuse 503 (BridgeError.Io c.brokenPipe).display "ruvoy_sync_submit_failed" reply)
  | answered (r : Answer) (h : Got s n r) (tells : Tells c n r reply)

/-- How far the filter of a stream is. -/
inductive Phase (c : Config) (x : Stream) (signalling sent : Prop) (why : Reply → Prop) : Prop
  | fresh (headers : x.headers = none) (state : x.filter.state = .Collecting) (frames : x.frames = [])
      (ended : x.ended = false) (replies : x.replies = []) (still : ¬ signalling) (unsent : ¬ sent)
  | collecting (fields : List (Bytes × Bytes)) (headers : x.headers = some fields)
      (state : x.filter.state = .Collecting) (request : x.filter.request = some (delivered c fields x.frames))
      (small : x.frames.flatten.length ≤ maxRequestBodyBytes)
      (ended : x.ended = false) (replies : x.replies = []) (still : ¬ signalling) (unsent : ¬ sent)
  | submitting (headers : x.headers ≠ none) (state : x.filter.state = .Collecting) (ended : x.ended = true)
      (replies : x.replies = []) (on : signalling) (sent : sent)
  | waiting (headers : x.headers ≠ none) (state : x.filter.state = .Waiting) (ended : x.ended = true)
      (replies : x.replies = []) (still : ¬ signalling) (sent : sent)
  | responded (headers : x.headers ≠ none) (state : x.filter.state = .Responded) (reply : Reply)
      (replies : x.replies = [reply]) (why : why reply) (still : ¬ signalling)

/-- The result of a stream, and the event for it. -/
inductive Slot (x : Stream) (committing : Prop) (got : Answer → Prop) : Prop
  | empty (result : x.filter.result = none) (events : x.events = []) (still : ¬ committing)
      (none : ∀ r, ¬ got r)
  | filled (r : Answer) (result : x.filter.result = some r) (events : x.events = [])
      (on : committing) (got : got r)
  | ready (r : Answer) (result : x.filter.result = some r) (events : x.events = [responseEventId])
      (still : ¬ committing) (got : got r)
  | handed (state : x.filter.state = .Responded) (events : x.events = []) (still : ¬ committing)
      (r : Answer) (got : got r)

/-- What is so of a stream. -/
structure StreamInv (c : Config) (s : State) (n : ℕ) : Prop where
  phase : Phase c (s.streams n) (n ∈ s.signalling) (Sent s n) (Why c s n)
  slot : (s.streams n).destroyed = false →
    Slot (s.streams n) (s.turn = .committing n) (Got s n)
  /-- What was sent is the whole request. -/
  whole : ∀ job ∈ s.accepted, job.stream = n → (s.streams n).ended = true ∧
    (s.streams n).frames.flatten.length ≤ maxRequestBodyBytes ∧
    ∃ headers, (s.streams n).headers = some headers ∧
      job.request = delivered c headers (s.streams n).frames

/-- What is so of the channel and the runtime thread. -/
structure Line (s : State) : Prop where
  kinds : s.channel.map Command.kind = s.runtime.commands
  order : s.answered.map Prod.fst ++ s.turn.job.toList ++ jobsOf s.channel = s.accepted
  once : (s.accepted.map Job.stream).Nodup
  committing : ∀ n, s.turn = .committing n → ∃ r, Got s n r
  nodup : s.signalling.Nodup

structure Inv (c : Config) (s : State) : Prop where
  line : Line s
  streams : ∀ n, StreamInv c s n

variable {c : Config} {s t : State} {n m : ℕ}

/-! ## What a step leaves alone -/

theorem Why.mono {reply : Reply} (h : Why c s n reply)
    (hframes : (s.streams n).frames.flatten.length ≤ (t.streams n).frames.flatten.length)
    (hsent : Sent t n → Sent s n) (hgot : ∀ r, Got s n r → Got t n r)
    (hreader : s.readerOpen = false → t.readerOpen = false)
    (hreceiver : s.receiverOpen = false → t.receiverOpen = false) : Why c t n reply := by
  cases h with
  | tooLarge h hs hexcuse =>
    exact .tooLarge (lt_of_lt_of_le h hframes) (fun ht => hs (hsent ht)) hexcuse
  | stopped h hs hexcuse => exact .stopped (hreceiver h) (fun ht => hs (hsent ht)) hexcuse
  | brokenPipe h hexcuse => exact .brokenPipe (hreader h) hexcuse
  | answered r h htells => exact .answered r (hgot _ h) htells

theorem Phase.congr {x : Stream} {a a' b b' : Prop} {w w' : Reply → Prop} (h : Phase c x a b w)
    (ha : a ↔ a') (hb : b ↔ b') (hw : ∀ r, w r → w' r) : Phase c x a' b' w' := by
  have ha' := not_congr ha
  have hb' := not_congr hb
  cases h with
  | fresh h1 h2 h3 h4 h5 h6 h7 => exact .fresh h1 h2 h3 h4 h5 (ha'.mp h6) (hb'.mp h7)
  | collecting f h1 h2 h3 h4 h5 h6 h7 h8 =>
    exact .collecting f h1 h2 h3 h4 h5 h6 (ha'.mp h7) (hb'.mp h8)
  | submitting h1 h2 h3 h4 h5 h6 => exact .submitting h1 h2 h3 h4 (ha.mp h5) (hb.mp h6)
  | waiting h1 h2 h3 h4 h5 h6 => exact .waiting h1 h2 h3 h4 (ha'.mp h5) (hb.mp h6)
  | responded h1 h2 reply h3 h4 h5 => exact .responded h1 h2 reply h3 (hw _ h4) (ha'.mp h5)

/-- The result and the event of a stream have no part in it. -/
theorem Phase.of_same {x y : Stream} {a b : Prop} {w : Reply → Prop} (h : Phase c x a b w)
    (hh : y.headers = x.headers) (hs : y.filter.state = x.filter.state)
    (hr : y.filter.request = x.filter.request) (hf : y.frames = x.frames) (he : y.ended = x.ended)
    (hp : y.replies = x.replies) : Phase c y a b w := by
  cases h with
  | fresh h1 h2 h3 h4 h5 h6 h7 =>
    exact .fresh (hh.trans h1) (hs.trans h2) (hf.trans h3) (he.trans h4) (hp.trans h5) h6 h7
  | collecting f h1 h2 h3 h4 h5 h6 h7 h8 =>
    exact .collecting f (hh.trans h1) (hs.trans h2) (by rw [hf]; exact hr.trans h3) (by rw [hf]; exact h4)
      (he.trans h5) (hp.trans h6) h7 h8
  | submitting h1 h2 h3 h4 h5 h6 =>
    exact .submitting (by rw [hh]; exact h1) (hs.trans h2) (he.trans h3) (hp.trans h4) h5 h6
  | waiting h1 h2 h3 h4 h5 h6 =>
    exact .waiting (by rw [hh]; exact h1) (hs.trans h2) (he.trans h3) (hp.trans h4) h5 h6
  | responded h1 h2 reply h3 h4 h5 =>
    exact .responded (by rw [hh]; exact h1) (hs.trans h2) reply (hp.trans h3) h4 h5

theorem Slot.congr {x : Stream} {a a' : Prop} {g g' : Answer → Prop} (h : Slot x a g)
    (ha : a ↔ a') (hg : ∀ r, g r ↔ g' r) : Slot x a' g' := by
  have ha' := not_congr ha
  cases h with
  | empty h1 h2 h3 h4 => exact .empty h1 h2 (ha'.mp h3) fun r => mt (hg r).mpr (h4 r)
  | filled r h1 h2 h3 h4 => exact .filled r h1 h2 (ha.mp h3) ((hg r).mp h4)
  | ready r h1 h2 h3 h4 => exact .ready r h1 h2 (ha'.mp h3) ((hg r).mp h4)
  | handed h1 h2 h3 r h4 => exact .handed h1 h2 (ha'.mp h3) r ((hg r).mp h4)

/-- A step that has to do with other streams. -/
structure Apart (s t : State) (n : ℕ) : Prop where
  stream : t.streams n = s.streams n
  signalling : n ∈ t.signalling ↔ n ∈ s.signalling
  committing : t.turn = .committing n ↔ s.turn = .committing n
  accepted : ∀ job : Job, job.stream = n → (job ∈ t.accepted ↔ job ∈ s.accepted)
  answered : ∀ (job : Job) (r : Answer), job.stream = n →
    ((job, r) ∈ t.answered ↔ (job, r) ∈ s.answered)
  reader : s.readerOpen = false → t.readerOpen = false
  receiver : s.receiverOpen = false → t.receiverOpen = false

theorem Apart.trans {u : State} (h : Apart s t n) (h' : Apart t u n) : Apart s u n where
  stream := h'.stream.trans h.stream
  signalling := h'.signalling.trans h.signalling
  committing := h'.committing.trans h.committing
  accepted job hn := (h'.accepted job hn).trans (h.accepted job hn)
  answered job r hn := (h'.answered job r hn).trans (h.answered job r hn)
  reader hr := h'.reader (h.reader hr)
  receiver hr := h'.receiver (h.receiver hr)

theorem Apart.sent (h : Apart s t n) : Sent t n ↔ Sent s n := by
  constructor
  · rintro ⟨job, hjob, hn⟩
    exact ⟨job, (h.accepted job hn).mp hjob, hn⟩
  · rintro ⟨job, hjob, hn⟩
    exact ⟨job, (h.accepted job hn).mpr hjob, hn⟩

theorem Apart.got (h : Apart s t n) (r : Answer) : Got t n r ↔ Got s n r := by
  constructor
  · rintro ⟨job, hn, hjob⟩
    exact ⟨job, hn, (h.answered job r hn).mp hjob⟩
  · rintro ⟨job, hn, hjob⟩
    exact ⟨job, hn, (h.answered job r hn).mpr hjob⟩

theorem StreamInv.apart (h : StreamInv c s n) (ha : Apart s t n) : StreamInv c t n where
  phase := by
    rw [ha.stream]
    refine h.phase.congr ha.signalling.symm ha.sent.symm fun r hr => ?_
    exact hr.mono (by rw [ha.stream]) ha.sent.mp (fun r => (ha.got r).mpr) ha.reader ha.receiver
  slot := by
    rw [ha.stream]
    exact fun hd => (h.slot hd).congr ha.committing.symm fun r => (ha.got r).symm
  whole := by
    rw [ha.stream]
    intro job hjob hn
    exact h.whole job ((ha.accepted job hn).mp hjob) hn

/-! ## One stream moves -/

@[simp] theorem update_same (f : Stream → Stream) : (s.update n f).streams n = f (s.streams n) :=
  Function.update_self ..

theorem update_update (f g : Stream → Stream) : (s.update n f).update n g = s.update n (g ∘ f) := by
  simp only [State.update, Function.update_self, Function.update_idem, Function.comp_apply]

theorem update_other (f : Stream → Stream) (h : m ≠ n) : (s.update n f).streams m = s.streams m :=
  Function.update_of_ne h ..

theorem apart_update (f : Stream → Stream) (h : m ≠ n) : Apart s (s.update n f) m where
  stream := update_other f h
  signalling := Iff.rfl
  committing := Iff.rfl
  accepted _ _ := Iff.rfl
  answered _ _ _ := Iff.rfl
  reader h := h
  receiver h := h

theorem Line.update (h : Line s) (f : Stream → Stream) : Line (s.update n f) :=
  ⟨h.kinds, h.order, h.once, h.committing, h.nodup⟩

theorem Inv.move (h : Inv c s) (n : ℕ) (hline : Line t) (hapart : ∀ m, m ≠ n → Apart s t m)
    (hn : StreamInv c t n) : Inv c t where
  line := hline
  streams m := by
    by_cases hmn : m = n
    · exact hmn ▸ hn
    · exact (h.streams m).apart (hapart m hmn)

theorem Inv.pass (h : Inv c s) (hline : Line t) (hapart : ∀ m, Apart s t m) : Inv c t :=
  ⟨hline, fun m => (h.streams m).apart (hapart m)⟩

theorem Inv.update (h : Inv c s) (f : Stream → Stream) (hn : StreamInv c (s.update n f) n) :
    Inv c (s.update n f) :=
  h.move n (h.line.update f) (fun _ => apart_update f) hn

theorem Line.sent_of_got (h : Line s) {r : Answer} (hg : Got s n r) : Sent s n := by
  obtain ⟨job, hn, hjob⟩ := hg
  refine ⟨job, ?_, hn⟩
  rw [← h.order, List.append_assoc]
  exact List.mem_append_left _ (List.mem_map_of_mem hjob)

theorem Slot.of_same {x y : Stream} {a : Prop} {g : Answer → Prop} (h : Slot x a g)
    (hr : y.filter.result = x.filter.result) (he : y.events = x.events)
    (hs : x.filter.state = .Responded → y.filter.state = .Responded) : Slot y a g := by
  cases h with
  | empty h1 h2 h3 h4 => exact .empty (hr.trans h1) (he.trans h2) h3 h4
  | filled r h1 h2 h3 h4 => exact .filled r (hr.trans h1) (he.trans h2) h3 h4
  | ready r h1 h2 h3 h4 => exact .ready r (hr.trans h1) (he.trans h2) h3 h4
  | handed h1 h2 h3 r h4 => exact .handed (hs h1) (he.trans h2) h3 r h4

/-! ## The channel and the wake socket -/

section Runtime

variable {r r' : Serial.State}

theorem send_commands {k : Serial.Command} (h : Serial.step r (.send k) = some r') :
    r'.commands = r.commands ++ [k] := by
  simp only [Serial.step, Option.ite_none_right_eq_some, Option.some.injEq] at h
  obtain ⟨-, rfl⟩ := h
  rfl

theorem signal_commands (h : Serial.step r .signal = some r') : r'.commands = r.commands := by
  simp only [Serial.step, Option.ite_none_right_eq_some, Option.some.injEq] at h
  obtain ⟨-, rfl⟩ := h
  rfl

theorem wake_commands (h : Serial.step r .wake = some r') : r'.commands = r.commands := by
  simp only [Serial.step, Option.ite_none_right_eq_some, Option.some.injEq] at h
  obtain ⟨-, rfl⟩ := h
  rfl

theorem read_commands (h : Serial.step r .read = some r') : r'.commands = r.commands := by
  simp only [Serial.step, Option.ite_none_right_eq_some] at h
  obtain ⟨-, h⟩ := h
  split_ifs at h <;> rw [Option.some.injEq] at h <;> subst h <;> rfl

theorem receive_commands (h : Serial.step r .receive = some r') :
    r'.commands = r.commands.tail := by
  simp only [Serial.step, Option.ite_none_right_eq_some] at h
  obtain ⟨-, h⟩ := h
  split at h
  · rename_i hq
    cases h
    rw [hq]
    rfl
  · rename_i hq
    cases h
    rw [hq]
    rfl
  · rename_i hq
    cases h
    rw [hq]
    rfl

end Runtime

/-! ## The requests -/

/-- The whole request of a stream is there, and was not sent. -/
structure Due (c : Config) (s : State) (n : ℕ) (fields : List (Bytes × Bytes)) : Prop where
  headers : (s.streams n).headers = some fields
  request : (s.streams n).filter.request = some (delivered c fields (s.streams n).frames)
  small : (s.streams n).frames.flatten.length ≤ maxRequestBodyBytes
  ended : (s.streams n).ended = true
  state : (s.streams n).filter.state = .Collecting
  replies : (s.streams n).replies = []
  still : n ∉ s.signalling
  unsent : ¬ Sent s n
  slot : Slot (s.streams n) (s.turn = .committing n) (Got s n)

/-- The state after a call was sent. -/
def State.calling (s : State) (runtime : Serial.State) (job : Job) : State :=
  { s with
    runtime := runtime
    channel := s.channel ++ [.Call job]
    signalling := s.signalling ++ [job.stream]
    accepted := s.accepted ++ [job] }

theorem Line.calling (h : Line s) {runtime : Serial.State} {job : Job}
    (hr : Serial.step s.runtime (.send .Call) = some runtime) (hs : ¬ Sent s job.stream)
    (hn : job.stream ∉ s.signalling) : Line (s.calling runtime job) where
  kinds := by
    show (s.channel ++ [Command.Call job]).map Command.kind = runtime.commands
    rw [List.map_append, h.kinds, send_commands hr]
    rfl
  order := by
    show s.answered.map Prod.fst ++ s.turn.job.toList ++ jobsOf (s.channel ++ [.Call job]) =
      s.accepted ++ [job]
    rw [jobsOf_concat, ← List.append_assoc, h.order]
    rfl
  once := by
    show ((s.accepted ++ [job]).map Job.stream).Nodup
    rw [List.map_append, List.map_singleton, ← List.concat_eq_append, List.nodup_concat]
    refine ⟨fun hmem => ?_, h.once⟩
    obtain ⟨j, hj, hjn⟩ := List.mem_map.mp hmem
    exact hs ⟨j, hj, hjn⟩
  committing := h.committing
  nodup := by
    show (s.signalling ++ [job.stream]).Nodup
    rw [← List.concat_eq_append, List.nodup_concat]
    exact ⟨hn, h.nodup⟩

theorem apart_calling (runtime : Serial.State) (job : Job) (h : m ≠ job.stream) :
    Apart s (s.calling runtime job) m where
  stream := rfl
  signalling := by simp [State.calling, h]
  committing := Iff.rfl
  accepted j hj := by
    have hne : j ≠ job := by
      rintro rfl
      exact h hj.symm
    simp [State.calling, hne]
  answered _ _ _ := Iff.rfl
  reader h := h
  receiver h := h

theorem Due.update {fields : List (Bytes × Bytes)} (f : Stream → Stream)
    (headers : (f (s.streams n)).headers = some fields)
    (request : (f (s.streams n)).filter.request = some (delivered c fields (f (s.streams n)).frames))
    (small : (f (s.streams n)).frames.flatten.length ≤ maxRequestBodyBytes)
    (ended : (f (s.streams n)).ended = true) (state : (f (s.streams n)).filter.state = .Collecting)
    (replies : (f (s.streams n)).replies = []) (still : n ∉ s.signalling) (unsent : ¬ Sent s n)
    (slot : Slot (f (s.streams n)) (s.turn = .committing n) (Got s n)) :
    Due c (s.update n f) n fields := by
  refine ⟨?_, ?_, ?_, ?_, ?_, ?_, still, unsent, ?_⟩
  all_goals rw [update_same]
  all_goals assumption

/-- **A submission**, of the whole request. -/
theorem Due.submit {l : List (Bytes × Bytes)} (h : Due c s n l) (hline : Line s)
    (hothers : ∀ m, m ≠ n → StreamInv c s m) (ht : s.submit n = some t) : Inv c t := by
  have hheaders : (s.streams n).headers ≠ none := by
    rw [h.headers]
    rintro ⟨⟩
  unfold State.submit at ht
  simp only [h.request] at ht
  set f : Stream → Stream := fun x => { x with filter := { x.filter with request := none } }
  have hun : (s.update n f).streams n = f (s.streams n) := update_same f
  have hslot : Slot ((s.update n f).streams n) (s.turn = .committing n) (Got s n) :=
    hun ▸ h.slot.of_same rfl rfl id
  cases hopen : s.receiverOpen with
  | true =>
    rw [if_pos (show (s.update n f).receiverOpen = true from hopen), Option.map_eq_some_iff] at ht
    obtain ⟨v, hv, rfl⟩ := ht
    obtain ⟨runtime, hruntime, rfl⟩ := Option.map_eq_some_iff.mp hv
    set job : Job := ⟨n, delivered c l (s.streams n).frames⟩
    refine ⟨(hline.update f).calling hruntime h.unsent h.still, fun m => ?_⟩
    by_cases hmn : m = n
    · subst hmn
      refine ⟨?_, fun _ => hslot, fun j hj hjm => ?_⟩
      · show Phase c ((s.update m f).streams m) (m ∈ s.signalling ++ [m]) _ _
        rw [hun]
        exact .submitting hheaders h.state h.ended h.replies (by simp) ⟨job, by simp, rfl⟩
      · show ((s.update m f).streams m).ended = true ∧ _
        rcases List.mem_append.mp hj with hold | hnew
        · exact absurd ⟨j, hold, hjm⟩ h.unsent
        · rw [List.mem_singleton.mp hnew]
          refine ⟨by rw [hun]; exact h.ended, ?_, l, ?_, ?_⟩
          · show ((s.update m f).streams m).frames.flatten.length ≤ _
            rw [hun]
            exact h.small
          · show ((s.update m f).streams m).headers = _
            rw [hun]
            exact h.headers
          · show _ = delivered c l ((s.update m f).streams m).frames
            rw [hun]
    · exact ((hothers m hmn).apart (apart_update f hmn)).apart (apart_calling runtime job hmn)
  | false =>
    have hclosed : ¬ (s.update n f).receiverOpen = true := fun h' => by cases hopen.symm.trans h'
    rw [if_neg hclosed, Option.some.injEq] at ht
    subst ht
    refine ⟨(hline.update _).update _, fun m => ?_⟩
    by_cases hmn : m = n
    · subst hmn
      refine ⟨?_, fun _ => ?_, fun j hj hjm => absurd ⟨j, hj, hjm⟩ h.unsent⟩
      · rw [update_same, hun]
        refine .responded hheaders rfl _ ?_ (.stopped hopen h.unsent (bridgeError_excuse ..)) h.still
        show (s.streams m).replies ++ _ = _
        rw [h.replies]
        rfl
      · rw [update_same]
        exact hslot.of_same rfl rfl fun _ => rfl
    · exact ((hothers m hmn).apart (apart_update _ hmn)).apart (apart_update _ hmn)

/-! ## The steps -/

/-- A stream of which Envoy may still deliver is about to collect, collecting or done. -/
theorem Inv.requestHeaders (h : Inv c s) (hcalm : s.Calm n) (hfresh : (s.streams n).headers = none)
    {headers : List (Bytes × Bytes)} {endOfStream : Bool}
    (ht : s.onRequestHeaders c n headers endOfStream = some t) : Inv c t := by
  have hslot := (h.streams n).slot hcalm.2
  cases (h.streams n).phase with
  | fresh _ hstate hframes _ hreplies hstill hunsent =>
    unfold State.onRequestHeaders at ht
    set f : Stream → Stream := fun x =>
      { x.returning .StopIteration with
        headers := some headers
        ended := endOfStream
        filter := { x.filter with request := some (copyHeaders c headers) } }
    have hf : (s.update n f).streams n = f (s.streams n) := update_same f
    have hrequest : some (copyHeaders c headers) = some (delivered c headers (s.streams n).frames) := by
      rw [hframes]
      rfl
    have hsmall : (s.streams n).frames.flatten.length ≤ maxRequestBodyBytes := by
      rw [hframes]
      exact Nat.zero_le _
    cases endOfStream with
    | true =>
      have hdue : Due c (s.update n f) n headers :=
        .update f rfl hrequest hsmall rfl hstate hreplies hstill hunsent (hslot.of_same rfl rfl id)
      exact hdue.submit (h.line.update f) (fun m hm => (h.streams m).apart (apart_update f hm)) ht
    | false =>
      cases ht
      refine h.update f ⟨?_, fun _ => ?_, fun job hjob hjn => absurd ⟨job, hjob, hjn⟩ hunsent⟩
      · rw [update_same]
        exact .collecting headers rfl hstate hrequest hsmall rfl hreplies hstill hunsent
      · rw [update_same]
        exact hslot.of_same rfl rfl id
  | collecting _ hh => rw [hfresh] at hh; cases hh
  | submitting hh => exact absurd hfresh hh
  | waiting hh => exact absurd hfresh hh
  | responded hh => exact absurd hfresh hh

theorem copyReceivedBody_eq {f : SyncRackFilter} {request : Request} (hr : f.request = some request)
    (received : Option (List Bytes)) :
    f.copyReceivedBody received =
      if maxRequestBodyBytes < request.body.length + ((received.map List.flatten).getD []).length then
        none
      else
        some { f with
          request := some { request with
            body := request.body ++ (received.map List.flatten).getD [] } } := by
  unfold SyncRackFilter.copyReceivedBody
  rw [hr]

theorem Inv.answered (h : Inv c s) (f : Stream → Stream) (hd : (s.streams n).destroyed = false)
    (hstate : (s.streams n).filter.state = .Responded)
    (hend : (s.streams n).ended = true → (f (s.streams n)).ended = true ∧
      (f (s.streams n)).frames = (s.streams n).frames)
    (hheaders : (f (s.streams n)).headers = (s.streams n).headers)
    (hfilter : (f (s.streams n)).filter = (s.streams n).filter)
    (hframes : (s.streams n).frames.flatten.length ≤ (f (s.streams n)).frames.flatten.length)
    (hevents : (f (s.streams n)).events = (s.streams n).events)
    (hreplies : (f (s.streams n)).replies = (s.streams n).replies) : Inv c (s.update n f) := by
  refine h.update f ⟨?_, fun _ => ?_, fun job hjob hjn => ?_⟩
  · rw [update_same]
    cases (h.streams n).phase with
    | responded h1 h2 reply h3 h4 h5 =>
      refine .responded (hheaders ▸ h1) (hfilter ▸ h2) reply (hreplies.trans h3) ?_ h5
      exact h4.mono (by rw [update_same]; exact hframes) id (fun _ => id) id id
    | fresh _ h2 => rw [h2] at hstate; cases hstate
    | collecting _ _ h2 => rw [h2] at hstate; cases hstate
    | submitting _ h2 => rw [h2] at hstate; cases hstate
    | waiting _ h2 => rw [h2] at hstate; cases hstate
  · rw [update_same]
    exact ((h.streams n).slot hd).of_same (by rw [hfilter]) hevents fun _ => by rw [hfilter, hstate]
  · rw [update_same]
    obtain ⟨hended, hsmall, headers, hh, hrequest⟩ := (h.streams n).whole job hjob hjn
    obtain ⟨hended', hsame⟩ := hend hended
    rw [hsame, hheaders]
    exact ⟨hended', hsmall, headers, hh, hrequest⟩

theorem Inv.requestBody (h : Inv c s) (hcalm : s.Calm n) (hheaders : (s.streams n).headers ≠ none)
    (hopen : (s.streams n).ended = false) {received : Option (List Bytes)} {endOfStream : Bool}
    (ht : s.onRequestBody n received endOfStream = some t) : Inv c t := by
  have hslot := (h.streams n).slot hcalm.2
  unfold State.onRequestBody at ht
  set frame := (received.map List.flatten).getD [] with hframe
  set f : Stream → Stream := fun x => { x with frames := x.frames ++ [frame], ended := endOfStream }
  have hf : (s.update n f).streams n = f (s.streams n) := update_same f
  have hflat : (f (s.streams n)).frames.flatten = (s.streams n).frames.flatten ++ frame := by
    show ((s.streams n).frames ++ [frame]).flatten = _
    rw [List.flatten_append, List.flatten_singleton]
  have hlen : (f (s.streams n)).frames.flatten.length =
      (s.streams n).frames.flatten.length + frame.length := by
    rw [hflat, List.length_append]
  simp only [hf, update_update] at ht
  cases (h.streams n).phase with
  | fresh hh => exact absurd hh hheaders
  | submitting _ _ he => rw [hopen] at he; cases he
  | waiting _ _ he => rw [hopen] at he; cases he
  | responded _ hstate =>
    have hnot : (f (s.streams n)).filter.state ≠ .Collecting := by
      show (s.streams n).filter.state ≠ _
      rw [hstate]
      decide
    rw [if_pos hnot, Option.some.injEq] at ht
    subst ht
    refine h.answered _ hcalm.2 hstate (fun he => ?_) rfl rfl ?_ rfl rfl
    · rw [hopen] at he
      cases he
    · show (s.streams n).frames.flatten.length ≤ (f (s.streams n)).frames.flatten.length
      omega
  | collecting fields hh hstate hrequest hsmall hend hreplies hstill hunsent =>
    have hnot : ¬ (f (s.streams n)).filter.state ≠ .Collecting := not_not_intro hstate
    have hwhole : some { delivered c fields (s.streams n).frames with
        body := (delivered c fields (s.streams n).frames).body ++ frame } =
        some (delivered c fields (f (s.streams n)).frames) := by
      simp only [delivered, hflat]
    rw [if_neg hnot, copyReceivedBody_eq (show (f (s.streams n)).filter.request = _ from hrequest)] at ht
    simp only [← hframe] at ht
    by_cases hbig : maxRequestBodyBytes <
        (delivered c fields (s.streams n).frames).body.length + frame.length
    · rw [if_pos hbig] at ht
      cases ht
      refine h.update _ ⟨?_, fun _ => ?_, fun job hjob hjn => absurd ⟨job, hjob, hjn⟩ hunsent⟩
      · rw [update_same]
        refine .responded hheaders rfl _ (congrArg (· ++ [_]) hreplies)
          (.tooLarge ?_ hunsent (bridgeError_excuse ..)) hstill
        rw [update_same]
        show _ < (f (s.streams n)).frames.flatten.length
        rw [hlen]
        exact hbig
      · rw [update_same]
        exact hslot.of_same rfl rfl fun _ => rfl
    · rw [if_neg hbig] at ht
      have hfits : (f (s.streams n)).frames.flatten.length ≤ maxRequestBodyBytes := by
        rw [hlen]
        exact not_lt.mp hbig
      cases endOfStream with
      | true =>
        refine Due.submit (l := fields) ?_ (h.line.update _)
          (fun m hm => (h.streams m).apart (apart_update _ hm)) ht
        exact .update _ hh hwhole hfits rfl hstate hreplies hstill hunsent (hslot.of_same rfl rfl id)
      | false =>
        cases ht
        refine h.update _ ⟨?_, fun _ => ?_, fun job hjob hjn => absurd ⟨job, hjob, hjn⟩ hunsent⟩
        · rw [update_same]
          exact .collecting fields hh hstate hwhole hfits rfl hreplies hstill hunsent
        · rw [update_same]
          exact hslot.of_same rfl rfl id

theorem Inv.requestTrailers (h : Inv c s) (hcalm : s.Calm n)
    (hheaders : (s.streams n).headers ≠ none) (hopen : (s.streams n).ended = false)
    (ht : s.onRequestTrailers n = some t) : Inv c t := by
  have hslot := (h.streams n).slot hcalm.2
  unfold State.onRequestTrailers at ht
  set f : Stream → Stream := fun x => { x.returning .StopIteration with ended := true }
  have hf : (s.update n f).streams n = f (s.streams n) := update_same f
  simp only [hf] at ht
  cases (h.streams n).phase with
  | fresh hh => exact absurd hh hheaders
  | submitting _ _ he => rw [hopen] at he; cases he
  | waiting _ _ he => rw [hopen] at he; cases he
  | responded _ hstate =>
    have hnot : (f (s.streams n)).filter.state ≠ .Collecting := by
      show (s.streams n).filter.state ≠ _
      rw [hstate]
      decide
    rw [if_neg hnot, Option.some.injEq] at ht
    subst ht
    exact h.answered _ hcalm.2 hstate (fun _ => ⟨rfl, rfl⟩) rfl rfl le_rfl rfl rfl
  | collecting fields hh hstate hrequest hsmall hend hreplies hstill hunsent =>
    rw [if_pos (show (f (s.streams n)).filter.state = .Collecting from hstate)] at ht
    refine Due.submit (l := fields) ?_ (h.line.update f)
      (fun m hm => (h.streams m).apart (apart_update f hm)) ht
    exact .update f hh hrequest hsmall rfl hstate hreplies hstill hunsent (hslot.of_same rfl rfl id)

theorem apart_erase (h : m ≠ n) (r : Serial.State) :
    Apart s { s with runtime := r, signalling := s.signalling.erase n } m where
  stream := rfl
  signalling := List.mem_erase_of_ne h
  committing := Iff.rfl
  accepted _ _ := Iff.rfl
  answered _ _ _ := Iff.rfl
  reader h := h
  receiver h := h

theorem Line.erase (h : Line s) {r : Serial.State} (hr : r.commands = s.runtime.commands) :
    Line { s with runtime := r, signalling := s.signalling.erase n } :=
  ⟨h.kinds.trans hr.symm, h.order, h.once, h.committing, h.nodup.erase n⟩

theorem Inv.signal (h : Inv c s) (hn : n ∈ s.signalling) (ht : s.signal c n = some t) : Inv c t := by
  have hgone : n ∉ s.signalling.erase n := h.line.nodup.not_mem_erase
  cases (h.streams n).phase with
  | fresh _ _ _ _ _ hs => exact absurd hn hs
  | collecting _ _ _ _ _ _ _ hs => exact absurd hn hs
  | waiting _ _ _ _ hs => exact absurd hn hs
  | responded _ _ _ _ _ hs => exact absurd hn hs
  | submitting hheaders hstate hended hreplies _ hsent =>
    unfold State.signal at ht
    cases hopen : s.readerOpen with
    | true =>
      rw [if_pos hopen] at ht
      obtain ⟨runtime, hr, rfl⟩ := Option.map_eq_some_iff.mp ht
      refine h.move n ((h.line.erase (signal_commands hr)).update _)
        (fun m hm => (apart_erase hm runtime).trans (apart_update _ hm)) ⟨?_, fun hd => ?_, ?_⟩
      · rw [update_same]
        exact .waiting hheaders rfl hended hreplies hgone hsent
      · rw [update_same] at hd ⊢
        exact ((h.streams n).slot hd).of_same rfl rfl fun hr => by rw [hstate] at hr; cases hr
      · rw [update_same]
        exact (h.streams n).whole
    | false =>
      rw [if_neg (by rw [hopen]; decide), Option.some.injEq] at ht
      subst ht
      refine h.move n ((h.line.erase rfl).update _)
        (fun m hm => (apart_erase hm s.runtime).trans (apart_update _ hm)) ⟨?_, fun hd => ?_, ?_⟩
      · rw [update_same]
        exact .responded hheaders rfl _ (congrArg (· ++ [_]) hreplies)
          (.brokenPipe hopen (bridgeError_excuse ..)) hgone
      · rw [update_same] at hd ⊢
        exact ((h.streams n).slot hd).of_same rfl rfl fun _ => rfl
      · rw [update_same]
        exact (h.streams n).whole

/-! ## The answers -/

/-- What `on_scheduled` does for the filter that waits, and has its result. -/
theorem onScheduled_ready {x : Stream} (hs : x.filter.state = .Waiting) {r : Answer}
    (hr : x.filter.result = some r) :
    ∃ reply, x.onScheduled c n responseEventId = x.takeResult.respond reply ∧ Tells c n r reply := by
  have hguard : ¬ (responseEventId ≠ responseEventId ∨ x.filter.state ≠ .Waiting) := by simp [hs]
  unfold Stream.onScheduled
  rw [if_neg hguard, hr]
  cases r with
  | ok response => exact ⟨_, rfl, rackResponse_shows c n response⟩
  | error error => exact ⟨_, rfl, bridgeError_excuse 500 error.display "ruvoy_sync_ruby_error"⟩

theorem onScheduled_done {x : Stream} (hs : x.filter.state ≠ .Waiting) (event : ℕ) :
    x.onScheduled c n event = x :=
  if_pos (Or.inr hs)

theorem Inv.scheduled (h : Inv c s) (hcalm : s.Calm n) {event : ℕ} {rest : List ℕ}
    (he : (s.streams n).events = event :: rest) :
    Inv c (s.update n fun x => { x with events := rest }.onScheduled c n event) := by
  cases (h.streams n).slot hcalm.2 with
  | empty _ hnone => rw [he] at hnone; cases hnone
  | filled _ _ hnone => rw [he] at hnone; cases hnone
  | handed _ hnone => rw [he] at hnone; cases hnone
  | ready r hresult hevents hstill hgot =>
    rw [he] at hevents
    cases hevents
    have hsent := h.line.sent_of_got hgot
    cases (h.streams n).phase with
    | fresh _ _ _ _ _ _ hunsent => exact absurd hsent hunsent
    | collecting _ _ _ _ _ _ _ _ hunsent => exact absurd hsent hunsent
    | submitting _ _ _ _ hon => exact absurd hon hcalm.1
    | waiting hheaders hstate hended hreplies hstill' =>
      set x : Stream := { s.streams n with events := [] } with hx
      obtain ⟨reply, hscheduled, htells⟩ :
          ∃ reply, x.onScheduled c n responseEventId = x.takeResult.respond reply ∧ Tells c n r reply :=
        onScheduled_ready (x := x) hstate hresult
      refine h.update _ ⟨?_, fun _ => ?_, ?_⟩
      · rw [update_same, ← hx, hscheduled]
        exact .responded hheaders rfl _ (congrArg (· ++ [_]) hreplies) (.answered r hgot htells) hstill'
      · rw [update_same, ← hx, hscheduled]
        exact .handed rfl rfl hstill r hgot
      · rw [update_same, ← hx, hscheduled]
        exact (h.streams n).whole
    | responded hheaders hstate reply hreplies hwhy hstill' =>
      set x : Stream := { s.streams n with events := [] } with hx
      have hscheduled : x.onScheduled c n responseEventId = x :=
        onScheduled_done (by show (s.streams n).filter.state ≠ _; rw [hstate]; decide) _
      refine h.update _ ⟨?_, fun _ => ?_, ?_⟩
      · rw [update_same, ← hx, hscheduled]
        refine .responded hheaders hstate reply hreplies ?_ hstill'
        refine hwhy.mono ?_ id (fun _ => id) id id
        rw [update_same, ← hx, hscheduled]
      · rw [update_same, ← hx, hscheduled]
        exact .handed hstate rfl hstill r hgot
      · rw [update_same, ← hx, hscheduled]
        exact (h.streams n).whole

theorem Inv.destroy (h : Inv c s) :
    Inv c (s.update n fun x => { x with destroyed := true, events := [] }) := by
  refine h.update _ ⟨?_, fun hd => ?_, ?_⟩
  · rw [update_same]
    refine ((h.streams n).phase.congr Iff.rfl Iff.rfl fun _ hr => ?_).of_same rfl rfl rfl rfl rfl rfl
    exact hr.mono (by rw [update_same]) id (fun _ => id) id id
  · rw [update_same] at hd
    cases hd
  · rw [update_same]
    exact (h.streams n).whole

/-! ## The runtime thread -/

theorem apart_all (hstreams : t.streams = s.streams) (hsignalling : t.signalling = s.signalling)
    (hcommitting : ∀ n, t.turn = .committing n ↔ s.turn = .committing n)
    (haccepted : t.accepted = s.accepted) (hanswered : t.answered = s.answered)
    (hreader : s.readerOpen = false → t.readerOpen = false)
    (hreceiver : s.receiverOpen = false → t.receiverOpen = false) (n : ℕ) : Apart s t n where
  stream := by rw [hstreams]
  signalling := by rw [hsignalling]
  committing := hcommitting n
  accepted _ _ := by rw [haccepted]
  answered _ _ _ := by rw [hanswered]
  reader := hreader
  receiver := hreceiver

/-- The runtime's socket or loop moves, and takes no command. -/
theorem Inv.beside (h : Inv c s) {r : Serial.State} (hr : r.commands = s.runtime.commands)
    (k : ℕ) : Inv c { s with runtime := r, others := k } :=
  h.pass ⟨h.line.kinds.trans hr.symm, h.line.order, h.line.once, h.line.committing, h.line.nodup⟩
    (apart_all rfl rfl (fun _ => Iff.rfl) rfl rfl id id)

theorem Inv.sendOther (h : Inv c s) {command : Command} (hc : command.job = none)
    (ht : s.send command = some t) (k : ℕ) : Inv c { t with others := k } := by
  obtain ⟨runtime, hr, rfl⟩ := Option.map_eq_some_iff.mp ht
  refine h.pass ⟨?_, ?_, h.line.once, h.line.committing, h.line.nodup⟩
    (apart_all rfl rfl (fun _ => Iff.rfl) rfl rfl id id)
  · show (s.channel ++ [command]).map Command.kind = runtime.commands
    rw [List.map_append, h.line.kinds, send_commands hr]
    rfl
  · show _ ++ jobsOf (s.channel ++ [command]) = _
    rw [jobsOf_concat, hc, Option.toList_none, List.append_nil]
    exact h.line.order

theorem Inv.receive (h : Inv c s) (hturn : s.turn = .loop) (ht : s.receive = some t) : Inv c t := by
  obtain ⟨runtime, hr, hreceived⟩ := Option.map_eq_some_iff.mp ht
  have hkinds : s.channel.tail.map Command.kind = runtime.commands := by
    rw [List.map_tail, h.line.kinds, receive_commands hr]
  have horder := h.line.order
  rw [hturn, show Turn.loop.job.toList = [] from rfl, List.append_nil] at horder
  split at hreceived
  · rename_i job rest hchannel
    subst hreceived
    rw [hchannel] at hkinds horder
    refine h.pass ⟨hkinds, ?_, h.line.once, ?_, h.line.nodup⟩ (apart_all rfl rfl ?_ rfl rfl id id)
    · rw [jobsOf_cons] at horder
      rw [← horder, List.append_assoc]
      rfl
    · rintro n ⟨⟩
    · intro n
      simp [hturn]
  · rename_i hnot
    subst hreceived
    refine h.pass ⟨hkinds, ?_, h.line.once, h.line.committing, h.line.nodup⟩
      (apart_all rfl rfl (fun _ => Iff.rfl) rfl rfl id id)
    show s.answered.map Prod.fst ++ s.turn.job.toList ++ jobsOf s.channel.tail = s.accepted
    rw [hturn, show Turn.loop.job.toList = [] from rfl, List.append_nil, ← horder]
    cases hchannel : s.channel with
    | nil => rfl
    | cons command rest =>
      cases command with
      | Call job => exact absurd hchannel (hnot job rest)
      | ForceGc | Shutdown => rfl

/-- A call that is running or on the channel was not answered before. -/
theorem Line.not_got (h : Line s) {j : Job} (hjob : j ∈ s.turn.job.toList ++ jobsOf s.channel)
    (r : Answer) : ¬ Got s j.stream r := by
  rintro ⟨k, hk, hkr⟩
  have honce := h.once
  rw [← h.order, List.append_assoc, List.map_append, List.nodup_append] at honce
  refine honce.2.2 j.stream ?_ j.stream (List.mem_map_of_mem hjob) rfl
  rw [← hk]
  exact List.mem_map_of_mem (List.mem_map_of_mem hkr)

theorem Inv.answer (h : Inv c s) {job : Job} (hturn : s.turn = .running job) (result : Answer) :
    Inv c (s.answer job result) := by
  have hgot : Got (s.answer job result) job.stream result :=
    ⟨job, rfl, List.mem_append_right _ (List.mem_singleton_self _)⟩
  have hmono : ∀ {n : ℕ} (r : Answer), Got s n r → Got (s.answer job result) n r := by
    rintro n r ⟨j, hj, hjr⟩
    exact ⟨j, hj, List.mem_append_left _ hjr⟩
  refine h.move job.stream ⟨h.line.kinds, ?_, h.line.once, ?_, h.line.nodup⟩ (fun m hm => ?_)
    ⟨?_, fun hd => ?_, ?_⟩
  · show (s.answered ++ [(job, result)]).map Prod.fst ++ [] ++ jobsOf s.channel = s.accepted
    rw [← h.line.order, hturn, List.map_append, List.append_nil]
    rfl
  · rintro n hn
    cases hn
    exact ⟨result, hgot⟩
  · refine (Apart.mk rfl Iff.rfl ?_ (fun _ _ => Iff.rfl) ?_ id id :
      Apart s { s with turn := .committing job.stream, answered := s.answered ++ [(job, result)] } m).trans
      (apart_update _ hm)
    · simp [hturn, Ne.symm hm]
    · rintro j r rfl
      have hne : j ≠ job := by
        rintro rfl
        exact hm rfl
      simp [hne]
  · rw [State.answer, update_same]
    refine ((h.streams job.stream).phase.congr Iff.rfl Iff.rfl fun _ hr => ?_).of_same rfl rfl rfl rfl
      rfl rfl
    exact hr.mono (by rw [update_same]) id hmono id id
  · rw [State.answer, update_same] at hd ⊢
    have hnone := h.line.not_got (j := job) (by rw [hturn]; exact List.mem_cons_self ..)
    cases (h.streams job.stream).slot hd with
    | empty _ hevents => exact .filled result rfl hevents rfl hgot
    | filled r _ _ _ hr => exact absurd hr (hnone r)
    | ready r _ _ _ hr => exact absurd hr (hnone r)
    | handed _ _ _ r hr => exact absurd hr (hnone r)
  · rw [State.answer, update_same]
    exact (h.streams job.stream).whole

theorem Inv.commit (h : Inv c s) (hturn : s.turn = .committing n) : Inv c (s.commit n) := by
  have hx : (s.commit n).streams n = if (s.streams n).destroyed then s.streams n
      else { s.streams n with events := (s.streams n).events ++ [responseEventId] } :=
    update_same _
  refine h.move n ⟨h.line.kinds, ?_, h.line.once, ?_, h.line.nodup⟩ (fun m hm => ?_) ?_
  · have horder := h.line.order
    rwa [hturn] at horder
  · rintro m ⟨⟩
  · refine (Apart.mk rfl Iff.rfl ?_ (fun _ _ => Iff.rfl) (fun _ _ _ => Iff.rfl) id id :
      Apart s { s with turn := .loop } m).trans (apart_update _ hm)
    simp [hturn, Ne.symm hm]
  · have hphase : ∀ {w : Reply → Prop}, (∀ r, Why c s n r → w r) →
        Phase c ((s.commit n).streams n) (n ∈ s.signalling) (Sent s n) w := by
      intro w hw
      rw [hx]
      split
      · exact (h.streams n).phase.congr Iff.rfl Iff.rfl hw
      · exact ((h.streams n).phase.congr Iff.rfl Iff.rfl hw).of_same rfl rfl rfl rfl rfl rfl
    refine ⟨hphase fun _ hr => hr.mono (by rw [hx]; split <;> rfl) id (fun _ => id) id id, fun hd => ?_, ?_⟩
    · cases hdestroyed : (s.streams n).destroyed with
      | true =>
        rw [hdestroyed, if_pos rfl] at hx
        rw [hx, hdestroyed] at hd
        cases hd
      | false =>
        rw [hx, hdestroyed, if_neg (by decide)]
        cases (h.streams n).slot hdestroyed with
        | filled r hr he _ hg => exact .ready r hr (congrArg (· ++ [_]) he) (by rintro ⟨⟩) hg
        | empty _ _ hs => exact absurd hturn hs
        | ready _ _ _ hs => exact absurd hturn hs
        | handed _ _ hs => exact absurd hturn hs
    · rw [hx]
      split <;> exact (h.streams n).whole

/-! ## The runs -/

theorem Inv.step (h : Inv c s) {a : Action} (ht : step c s a = some t) : Inv c t := by
  cases step_moves ht with
  | requestHeaders hc hf ht => exact h.requestHeaders hc hf ht
  | requestBody hc hh he ht => exact h.requestBody hc hh he ht
  | requestTrailers hc hh he ht => exact h.requestTrailers hc hh he ht
  | signal hn ht => exact h.signal hn ht
  | scheduled hc he => exact h.scheduled hc he
  | destroy => exact h.destroy
  | send hj hu => exact h.sendOther hj hu _
  | signalOther _ hr => exact h.beside (signal_commands hr) _
  | unheard => exact h.beside rfl _
  | wake _ hr => exact h.beside (wake_commands hr) _
  | read _ hr => exact h.beside (read_commands hr) _
  | receive hl ht => exact h.receive hl ht
  | answer hl result => exact h.answer hl result
  | commit hl => exact h.commit hl
  | dropReader =>
    exact h.pass ⟨h.line.kinds, h.line.order, h.line.once, h.line.committing, h.line.nodup⟩
      (apart_all rfl rfl (fun _ => Iff.rfl) rfl rfl (fun _ => rfl) id)
  | dropReceiver =>
    exact h.pass ⟨h.line.kinds, h.line.order, h.line.once, h.line.committing, h.line.nodup⟩
      (apart_all rfl rfl (fun _ => Iff.rfl) rfl rfl id fun _ => rfl)

theorem Inv.of_reachable (h : (system c).Reachable s) : Inv c s := by
  refine System.Reach.induct ?_ (fun s a t hs _ ht => hs.step ht) h
  rintro s ⟨capacity, rfl⟩
  refine ⟨⟨rfl, rfl, List.nodup_nil, by rintro n ⟨⟩, List.nodup_nil⟩, fun n => ⟨?_, fun _ => ?_, by simp⟩⟩
  · exact .fresh rfl rfl rfl rfl rfl (by simp) (by simp [Sent])
  · exact .empty rfl rfl (by simp) (by simp [Got])

/-- **The application is run on whole requests**, on each of a stream once at most, one after the other
in the order in which they were sent. -/
theorem sync_calls (h : (system c).Reachable s) :
    s.answered.map Prod.fst ++ s.turn.job.toList ++ jobsOf s.channel = s.accepted ∧
      (s.accepted.map Job.stream).Nodup ∧
      ∀ job ∈ s.accepted, (s.streams job.stream).ended = true ∧
        (s.streams job.stream).frames.flatten.length ≤ maxRequestBodyBytes ∧
        ∃ headers, (s.streams job.stream).headers = some headers ∧
          job.request = delivered c headers (s.streams job.stream).frames := by
  obtain ⟨hline, hstreams⟩ := Inv.of_reachable h
  exact ⟨hline.order, hline.once, fun job hjob => (hstreams job.stream).whole job hjob rfl⟩

/-! ## Two requests -/

def oneThread : Config where
  diagnosticsEnabled := true
  runtimeThreadId := "ThreadId(2)"
  workerThreadId _ := "ThreadId(1)"
  lossy _ := ""
  requestHeader _ _ := none
  brokenPipe := "Broken pipe (os error 32)"

def asleep : State := { runtime := { socket := .empty 8 } }

def page : Response := ⟨200, [("a", "b"), (":c", "d")], [7], 0⟩

/-- Two requests, one with a body, of which the second fails. -/
def twoRequests : List Action :=
  [.requestHeaders 0 [] false, .requestBody 0 (some [[1], [2]]) false, .requestHeaders 1 [] true,
    .requestBody 0 none true, .signal 1, .wake, .signal 0, .read, .read, .receive,
    .answer (.error .Overloaded), .commit, .receive, .scheduled 1, .answer (.ok page), .commit,
    .scheduled 0]

theorem sync_calls_twoRequests :
    ∃ s, (system oneThread).run asleep twoRequests = some s ∧
      s.answered.map Prod.fst = s.accepted ∧ s.accepted.map Job.stream = [1, 0] := by
  obtain ⟨s, hrun, hturn, hchannel, hjobs⟩ :
      ∃ s, (system oneThread).run asleep twoRequests = some s ∧ s.turn = .loop ∧ s.channel = [] ∧
        s.accepted.map Job.stream = [1, 0] := ⟨_, rfl, rfl, rfl, rfl⟩
  have horder := (sync_calls (System.reach_of_run ⟨8, rfl⟩ hrun)).1
  rw [hturn, hchannel, show Turn.loop.job.toList = [] from rfl, jobsOf_nil, List.append_nil,
    List.append_nil] at horder
  exact ⟨s, hrun, horder, hjobs⟩

end Ruvoy.Sync
