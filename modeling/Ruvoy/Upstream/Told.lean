import Ruvoy.Lib.Outline
import Ruvoy.Upstream.Ends

/-!
# Fibers hear that a channel is over

When the worker is done with a channel its response is over and its request queue is cancelled, and a
fiber parked on either has been put on the list of wakeups. A callback ends the response and cancels
the request queue before it wakes, and wakes before it counts: `telling` is the outline of that order.

The one channel the worker is done with unseen is a stream that it skips: nobody is woken there, so a
fiber that is parked while another closes the channel before it was started stays parked (`skipsNobody` rules it out).

* `Fact`, `Holds`, `HoldsMono`: what may be said of a channel, for good;
* `telling`: what each access relies on and brings about;
* `Told`: the invariant, kept by every step that skips no stream under a parked fiber (`Told.step`);
* **`channel_over_heard`**: what holds when the worker is done with a channel.
-/

set_option autoImplicit false

namespace Ruvoy.Upstream

open Runs

/-! ## What holds for good -/

/-- The fiber parked on a queue is on the list of wakeups, or has been taken off it to be resolved. -/
def State.listed (s : State) (r : Ref) : Prop := r ∈ s.wakeups ∨ r ∈ s.resolving

/-- What may be said of a channel. -/
inductive Fact
  /-- Its response is over. -/
  | ended (n : ℕ)
  /-- Its request queue is cancelled. -/
  | gone (n : ℕ)
  /-- Its response is over, and whoever is parked on it has been woken. -/
  | reader (n : ℕ)
  /-- The same of its request queue. -/
  | writer (n : ℕ)

/-- The slot of a queue is taken. -/
def parked (q : Tracked) : Bool := q.stream.waiter.isSome

def cancelled (q : Tracked) : Bool := q.stream.cancelled

def Holds (s : State) : Fact → Prop
  | .ended n => isOver (s.channels n).response = true
  | .gone n => cancelled (s.channels n).request = true
  | .reader n => isOver (s.channels n).response = true ∧
    (parked (s.channels n).response = true → s.listed (.response n))
  | .writer n => cancelled (s.channels n).request = true ∧
    (parked (s.channels n).request = true → s.listed (.request n))

variable {s t : State}

/-- What held holds. -/
def HoldsMono (s t : State) : Prop := ∀ f, Holds s f → Holds t f

/-- An operation that keeps `g` and, where `g` holds, parks nobody. -/
def Calm (g : Tracked → Bool) (f : Tracked → Tracked) : Prop :=
  ∀ q, g q = true → g (f q) = true ∧ (parked (f q) = true → parked q = true)

theorem calm_push (x : StreamItem) : Calm isOver (·.push x) ∧ Calm cancelled (·.push x) := by
  have hw : ∀ q : Tracked, parked (q.push x) = parked q := fun q =>
    congrArg Option.isSome (ResponseStream.push_waiter x)
  refine ⟨fun q hq => ⟨keeps_push x q hq, fun hp => (hw q).symm.trans hp⟩, fun q hq => ⟨?_, ?_⟩⟩
  · exact (ResponseStream.push_cancelled x).trans hq
  · exact fun hp => (hw q).symm.trans hp

theorem calm_takeNext : Calm isOver (·.takeNext) ∧ Calm cancelled (·.takeNext) := by
  have hw : ∀ q : Tracked, parked q.takeNext = parked q := fun q =>
    congrArg Option.isSome ResponseStream.takeNext_waiter
  refine ⟨fun q hq => ⟨keeps_takeNext q hq, fun hp => (hw q).symm.trans hp⟩, fun q hq => ⟨?_, ?_⟩⟩
  · exact ResponseStream.takeNext_cancelled.trans hq
  · exact fun hp => (hw q).symm.trans hp

theorem calm_pushIfRoom (b : Bytes) : Calm isOver (·.pushIfRoom b) := by
  intro q hq
  refine ⟨keeps_pushIfRoom b q hq, fun hp => ?_⟩
  exact (congrArg Option.isSome (ResponseStream.pushChunkIfRoom_waiter b)).symm.trans hp

theorem calm_pushWithinBudget (b : Bytes) : Calm cancelled (·.pushWithinBudget b) := by
  intro q hq
  refine ⟨(ResponseStream.pushChunkWithinBudget_cancelled b).trans hq, fun hp => ?_⟩
  exact (congrArg Option.isSome (ResponseStream.pushChunkWithinBudget_waiter b)).symm.trans hp

theorem calm_cancel (g : Tracked → Bool) (hg : ∀ q : Tracked, g q.cancel = true) : Calm g (·.cancel) :=
  fun q _ => ⟨hg q, id⟩

theorem calm_unpark (g : Tracked → Bool) (hg : ∀ q : Tracked, g q.unpark = g q) : Calm g (·.unpark) :=
  fun q hq => ⟨(hg q).trans hq, fun hp => Bool.noConfusion hp⟩

/-- Nobody parks on a response that is over. -/
theorem calm_park (v : Variable) : Calm isOver (·.park v) := by
  intro q hq
  have hrefused : (q.park v).stream = q.stream := by
    rcases ResponseStream.park_cases q.stream v with ⟨-, hp⟩ | ⟨-, hc, he, -⟩
    · exact congrArg Prod.snd hp
    · rw [isOver, hc, he] at hq
      cases hq
  refine ⟨keeps_park v q hq, fun hp => ?_⟩
  rw [parked, hrefused] at hp
  exact hp

theorem calm_parkWriter (v : Variable) : Calm cancelled (·.parkWriter v) := by
  intro q hq
  have hrefused : (q.parkWriter v).stream = q.stream := by
    rcases ResponseStream.parkWriter_cases q.stream v with ⟨-, hp⟩ | ⟨hc, -⟩
    · exact congrArg Prod.snd hp
    · rw [cancelled, hc] at hq
      cases hq
  refine ⟨?_, fun hp => ?_⟩
  · rw [cancelled, hrefused]
    exact hq
  · rw [parked, hrefused] at hp
    exact hp

theorem holdsMono_of_eq (hn : t.channels = s.channels) (hl : ∀ r, s.listed r → t.listed r) :
    HoldsMono s t := by
  intro f hf
  cases f with
  | ended n => rwa [Holds, hn]
  | gone n => rwa [Holds, hn]
  | reader n =>
    rw [Holds, hn]
    exact ⟨hf.1, fun hp => hl _ (hf.2 hp)⟩
  | writer n =>
    rw [Holds, hn]
    exact ⟨hf.1, fun hp => hl _ (hf.2 hp)⟩

theorem holdsMono_setChannel (n : ℕ) (f : StreamChannel → StreamChannel)
    (hr : ∀ c, isOver c.response = true →
      isOver (f c).response = true ∧ (parked (f c).response = true → parked c.response = true))
    (hq : ∀ c, cancelled c.request = true →
      cancelled (f c).request = true ∧ (parked (f c).request = true → parked c.request = true)) :
    HoldsMono s (s.setChannel n f) := by
  have hch : ∀ m, (s.setChannel n f).channels m = s.channels m ∨
      (s.setChannel n f).channels m = f (s.channels m) := by
    intro m
    rw [setChannel_channels]
    split
    · rename_i heq
      exact Or.inr (by rw [heq])
    · exact Or.inl rfl
  intro g hg
  cases g with
  | ended m =>
    rcases hch m with heq | heq <;> rw [Holds, heq]
    · exact hg
    · exact (hr _ hg).1
  | gone m =>
    rcases hch m with heq | heq <;> rw [Holds, heq]
    · exact hg
    · exact (hq _ hg).1
  | reader m =>
    rcases hch m with heq | heq <;> rw [Holds, heq]
    · exact hg
    · exact ⟨(hr _ hg.1).1, fun hp => hg.2 ((hr _ hg.1).2 hp)⟩
  | writer m =>
    rcases hch m with heq | heq <;> rw [Holds, heq]
    · exact hg
    · exact ⟨(hq _ hg.1).1, fun hp => hg.2 ((hq _ hg.1).2 hp)⟩

theorem holdsMono_response (n : ℕ) {f : Tracked → Tracked} (hf : Calm isOver f) :
    HoldsMono s (s.onQueue (.response n) f) :=
  holdsMono_setChannel n (fun c => { c with response := f c.response }) (fun c => hf c.response)
    fun _ hq => ⟨hq, id⟩

theorem holdsMono_request (n : ℕ) {f : Tracked → Tracked} (hf : Calm cancelled f) :
    HoldsMono s (s.onQueue (.request n) f) :=
  holdsMono_setChannel n (fun c => { c with request := f c.request }) (fun _ hr => ⟨hr, id⟩)
    fun c => hf c.request

theorem holdsMono_call (n : ℕ) (f : Tracked → Tracked) : HoldsMono s (s.onQueue (.call n) f) :=
  holdsMono_of_eq rfl fun _ => id

theorem holdsMono_onQueue (r : Ref) {f : Tracked → Tracked} (ho : Calm isOver f)
    (hc : Calm cancelled f) : HoldsMono s (s.onQueue r f) := by
  cases r with
  | call n => exact holdsMono_call n f
  | response n => exact holdsMono_response n ho
  | request n => exact holdsMono_request n hc

theorem holdsMono_flags (n : ℕ) (f : StreamChannel → StreamChannel)
    (hr : ∀ c, (f c).response = c.response) (hq : ∀ c, (f c).request = c.request) :
    HoldsMono s (s.setChannel n f) := by
  refine holdsMono_setChannel n f (fun c hc => ?_) fun c hc => ?_
  · rw [hr]
    exact ⟨hc, id⟩
  · rw [hq]
    exact ⟨hc, id⟩

theorem not_parked_unpark (q : Tracked) : parked q.unpark = false := rfl

/-- The reactor takes a fiber off the list and out of the slot. -/
theorem holdsMono_resolve {r : Ref} {rest : List Ref} (hr : s.resolving = r :: rest) :
    HoldsMono s { s.onQueue r (·.unpark) with resolving := rest } := by
  have hmono : HoldsMono s (s.onQueue r (·.unpark)) :=
    holdsMono_onQueue r (calm_unpark isOver fun _ => rfl) (calm_unpark cancelled fun _ => rfl)
  have hlisted : ∀ r', r' ≠ r → s.listed r' →
      State.listed { s.onQueue r (·.unpark) with resolving := rest } r' := by
    intro r' hne hl
    have hw : (s.onQueue r (·.unpark)).wakeups = s.wakeups := by cases r <;> rfl
    rcases hl with hl | hl
    · exact Or.inl (by rw [hw]; exact hl)
    · rw [hr] at hl
      exact Or.inr ((List.mem_cons.mp hl).resolve_left hne)
  intro f hf
  have hf' := hmono f hf
  cases f with
  | ended n => exact hf'
  | gone n => exact hf'
  | reader n =>
    refine ⟨hf'.1, fun hp => ?_⟩
    have hne : Ref.response n ≠ r := by
      rintro rfl
      rw [State.onQueue, setChannel_channels, if_pos rfl, not_parked_unpark] at hp
      cases hp
    refine hlisted _ hne (hf.2 ?_)
    have hsame : ((s.onQueue r (·.unpark)).channels n).response = (s.channels n).response := by
      cases r with
      | call m => rfl
      | request m =>
        rw [State.onQueue, setChannel_channels]
        split
        · rename_i heq
          rw [heq]
        · rfl
      | response m =>
        rw [State.onQueue, setChannel_channels, if_neg (fun heq => hne (congrArg Ref.response heq))]
    rw [← hsame]
    exact hp
  | writer n =>
    refine ⟨hf'.1, fun hp => ?_⟩
    have hne : Ref.request n ≠ r := by
      rintro rfl
      rw [State.onQueue, setChannel_channels, if_pos rfl, not_parked_unpark] at hp
      cases hp
    refine hlisted _ hne (hf.2 ?_)
    have hsame : ((s.onQueue r (·.unpark)).channels n).request = (s.channels n).request := by
      cases r with
      | call m => rfl
      | response m =>
        rw [State.onQueue, setChannel_channels]
        split
        · rename_i heq
          rw [heq]
        · rfl
      | request m =>
        rw [State.onQueue, setChannel_channels, if_neg (fun heq => hne (congrArg Ref.request heq))]
    rw [← hsame]
    exact hp

/-! ## The outline -/

/-- What an access relies on. -/
def Micro.wants : Micro → Fact → Prop
  | .count (.stream n) _ _, f => f = .reader n ∨ f = .writer n
  | .wantReset n, f => f = .gone n
  | .resetStopped o _, f => o.responseEnded = true ∧ f = .ended o.channel
  | _, _ => False

/-- What an access brings about, where `P` holds. -/
def Micro.brings (P : Fact → Prop) : Micro → Fact → Prop
  | .push (.response n) x, f => x.terminal = true ∧ f = .ended n
  | .cancelRequest n, f => f = .gone n
  | .wake (.response n), f => P (.ended n) ∧ f = .reader n
  | .wake (.request n), f => P (.gone n) ∧ f = .writer n
  | .checkWriter n, f => P (.gone n) ∧ f = .writer n
  | _, _ => False

theorem brings_mono {P Q : Fact → Prop} {m : Micro} {f : Fact} (h : ∀ g, P g → Q g)
    (hm : m.brings P f) : m.brings Q f := by
  cases m with
  | wake r =>
    cases r with
    | call n => exact hm
    | response n => exact ⟨h _ hm.1, hm.2⟩
    | request n => exact ⟨h _ hm.1, hm.2⟩
  | checkWriter n => exact ⟨h _ hm.1, hm.2⟩
  | push r x => cases r <;> exact hm
  | _ => exact hm

/-- The order in which a channel is ended and its fibers are woken. -/
def telling : Outline Micro Fact := ⟨Micro.wants, Micro.brings, brings_mono⟩

section Scripts

variable {P : Fact → Prop}

theorem valid_channelFail (n : ℕ) (error : BridgeError) : telling.Valid P (channelFail n error) := by
  refine ⟨fun _ hf => hf.elim, fun _ hf => hf.elim, fun f hf => ?_, trivial⟩
  exact Or.inr hf

theorem after_channelFail (n : ℕ) (error : BridgeError) :
    telling.after P (channelFail n error) (.ended n) ∧
      telling.after P (channelFail n error) (.gone n) :=
  ⟨Or.inl (Or.inl (Or.inr ⟨rfl, rfl⟩)), Or.inl (Or.inr rfl)⟩

theorem valid_wakeStream (n : ℕ) : telling.Valid P (wakeStream n) :=
  ⟨fun _ hf => hf.elim, fun _ hf => hf.elim, trivial⟩

/-- Whoever is parked hears of the end, once it is there. -/
theorem after_wakeStream {n : ℕ} (he : P (.ended n)) (hg : P (.gone n)) :
    telling.after P (wakeStream n) (.reader n) ∧ telling.after P (wakeStream n) (.writer n) :=
  ⟨Or.inl (Or.inr ⟨he, rfl⟩), Or.inr ⟨Or.inl hg, rfl⟩⟩

variable (o : OpenStream)

theorem valid_fail (error : BridgeError) : telling.Valid P (o.fail error).2 := valid_channelFail _ _

theorem valid_finish : telling.Valid P o.finish.2 := ⟨fun _ hf => hf.elim, trivial⟩

theorem valid_headersArrived (headers : Headers) (endStream : Bool) :
    telling.Valid P (o.headersArrived headers endStream).2 := by
  unfold OpenStream.headersArrived
  split
  · trivial
  · split
    · exact valid_fail o _
    · cases endStream with
      | false => exact ⟨fun _ hf => hf.elim, trivial⟩
      | true => exact ⟨fun _ hf => hf.elim, fun _ hf => hf.elim, trivial⟩

theorem valid_dataArrived (handle : ℕ) (data : List Bytes) (endStream : Bool) :
    telling.Valid P (o.dataArrived handle data endStream).2 := by
  unfold OpenStream.dataArrived
  split
  · trivial
  · split
    · cases endStream with
      | false => trivial
      | true => exact valid_finish o
    · exact ⟨fun _ hf => hf.elim, trivial⟩

theorem valid_trailersArrived (trailers : Headers) :
    telling.Valid P (o.trailersArrived trailers).2 := by
  unfold OpenStream.trailersArrived
  split
  · trivial
  · exact ⟨fun _ hf => hf.elim, fun _ hf => hf.elim, trivial⟩

/-- A stream that Envoy is done with: its response is over and its request queue cancelled. -/
structure Leaves (P : Fact → Prop) (o : OpenStream) (r : OpenStream × List Micro) : Prop where
  channel : r.1.channel = o.channel
  valid : telling.Valid P r.2
  ended : telling.after P r.2 (.ended o.channel)
  gone : telling.after P r.2 (.gone o.channel)

variable {o}

theorem leaves_gone {stream : OpenStream} {r : OpenStream × List Micro}
    (hP : stream.responseEnded = true → P (.ended o.channel)) (hs : stream.channel = o.channel)
    (hr : r.1.channel = o.channel) (hv : telling.Valid P r.2)
    (he : telling.after P r.2 (.ended o.channel)) :
    Leaves P o (OpenStream.gone (if stream.responseEnded then (stream, []) else r)) := by
  by_cases hended : stream.responseEnded = true
  · rw [if_pos hended]
    exact ⟨hs, ⟨fun _ hf => hf.elim, trivial⟩, Or.inl (hP hended), Or.inr (congrArg Fact.gone hs.symm)⟩
  · rw [if_neg hended]
    refine ⟨hr, hv.append ⟨fun _ hf => hf.elim, trivial⟩, ?_, ?_⟩
    · rw [OpenStream.gone, Outline.after_append]
      exact Or.inl he
    · rw [OpenStream.gone, Outline.after_append]
      exact Or.inr (congrArg Fact.gone hr.symm)

theorem leaves_completed (hP : o.responseEnded = true → P (.ended o.channel)) :
    Leaves P o o.completed :=
  leaves_gone hP rfl rfl (valid_finish o) (Or.inr ⟨rfl, rfl⟩)

theorem leaves_resetByEnvoy (hP : o.responseEnded = true → P (.ended o.channel))
    (reason : ResetReason) : Leaves P o (o.resetByEnvoy reason) := by
  unfold OpenStream.resetByEnvoy
  dsimp only
  split
  · exact leaves_gone hP rfl rfl (valid_channelFail _ _) (after_channelFail _ _).1
  · exact leaves_gone hP rfl rfl (valid_channelFail _ _) (after_channelFail _ _).1

theorem leaves_abandon (hP : o.responseEnded = true → P (.ended o.channel)) : Leaves P o o.abandon :=
  leaves_gone hP rfl rfl (valid_channelFail _ _) (after_channelFail _ _).1

theorem Leaves.close {r : OpenStream × List Micro} (h : Leaves P o r) :
    telling.Valid P (OpenStream.close r) := by
  rw [OpenStream.close, List.append_assoc, Outline.valid_append, Outline.valid_append]
  refine ⟨h.valid, valid_wakeStream _, fun f hf => ?_, trivial⟩
  rw [h.channel]
  have hwoken := after_wakeStream h.ended h.gone
  have hf' : f = .reader o.channel ∨ f = .writer o.channel := by
    rw [← h.channel]
    exact hf
  rcases hf' with rfl | rfl
  · exact hwoken.1
  · exact hwoken.2

theorem valid_onReset (hP : o.responseEnded = true → P (.ended o.channel)) (reason : ResetReason) :
    telling.Valid P (o.onReset reason) := by
  unfold OpenStream.onReset
  split
  · exact (leaves_completed hP).close
  · split
    · refine ⟨fun f hf => ?_, trivial⟩
      rw [hf.2]
      exact hP hf.1
    · exact (leaves_resetByEnvoy hP reason).close

end Scripts

/-! ## The invariant -/

structure Told (s : State) : Prop where
  valid : telling.Valid (Holds s) s.handler
  settled : ∀ n, .stream n ∈ s.settled → Holds s (.reader n) ∧ Holds s (.writer n)
  reset : ∀ n, (s.channels n).resetWanted = true → Holds s (.gone n)
  ruby : ∀ n, s.ruby = .wantReset n → Holds s (.gone n)

theorem Told.init (config : Config) : Told { config := config } := by
  refine ⟨trivial, ?_, ?_, ?_⟩
  · rintro _ ⟨⟩
  · intro n hn
    cases hn
  · intro n hn
    cases hn

theorem Told.works (h : Told s) (hm : HoldsMono s t) (hv : telling.Valid (Holds t) t.handler)
    (hset : ∀ n, .stream n ∈ t.settled →
      .stream n ∈ s.settled ∨ Holds t (.reader n) ∧ Holds t (.writer n))
    (hr : ∀ n, (t.channels n).resetWanted = true →
      (s.channels n).resetWanted = true ∨ Holds t (.gone n))
    (hruby : ∀ n, t.ruby = .wantReset n → s.ruby = .wantReset n ∨ Holds t (.gone n)) : Told t := by
  refine ⟨hv, ?_, ?_, ?_⟩
  · intro n hn
    rcases hset n hn with hold | hnow
    · exact ⟨hm _ (h.settled n hold).1, hm _ (h.settled n hold).2⟩
    · exact hnow
  · exact fun n hn => (hr n hn).elim (fun hn => hm _ (h.reset n hn)) id
  · exact fun n hn => (hruby n hn).elim (fun hn => hm _ (h.ruby n hn)) id

theorem Told.beside (h : Told s) (hm : HoldsMono s t) (hh : t.handler = s.handler)
    (hs : t.settled = s.settled)
    (hr : ∀ n, (t.channels n).resetWanted = true →
      (s.channels n).resetWanted = true ∨ Holds t (.gone n))
    (hruby : ∀ n, t.ruby = .wantReset n → s.ruby = .wantReset n ∨ Holds t (.gone n)) : Told t := by
  refine h.works hm ?_ ?_ hr hruby
  · rw [hh]
    exact h.valid.mono hm
  · rw [hs]
    exact fun n hn => Or.inl hn

theorem Told.onQueue (h : Told s) (r : Ref) {f : Tracked → Tracked}
    (hm : HoldsMono s (s.onQueue r f)) : Told (s.onQueue r f) := by
  have heq := onQueue_eq s r f
  refine h.beside hm ?_ ?_ ?_ ?_
  · rw [heq]
  · rw [heq]
  · intro n hn
    rw [onQueue_resetWanted] at hn
    exact Or.inl hn
  · intro n hn
    rw [heq] at hn
    exact Or.inl hn

/-! ## The callback that runs -/

section Micro

variable {m : Micro} {rest l : List Micro}

theorem Told.left (h : Told s) (hh : s.handler = m :: rest) (hm : HoldsMono s t)
    (hb : ∀ f, m.brings (Holds s) f → Holds t f) : telling.Valid (Holds t) rest := by
  have hv := h.valid
  rw [hh] at hv
  exact hv.2.mono fun f hf => hf.elim (hm f) (hb f)

theorem Told.quiet (h : Told s) (hm : HoldsMono s t) (hv : telling.Valid (Holds t) t.handler)
    (hs : t.settled = s.settled)
    (hr : ∀ n, (t.channels n).resetWanted = true →
      (s.channels n).resetWanted = true ∨ Holds t (.gone n)) (hruby : t.ruby = s.ruby) : Told t := by
  refine h.works hm hv ?_ hr ?_
  · rw [hs]
    exact fun n hn => Or.inl hn
  · rw [hruby]
    exact fun n hn => Or.inl hn

theorem Told.goesOn (h : Told s) (hn : t.channels = s.channels) (hw : t.wakeups = s.wakeups)
    (hr : t.resolving = s.resolving) (hs : t.settled = s.settled) (hruby : t.ruby = s.ruby)
    (hv : telling.Valid (Holds s) t.handler) : Told t := by
  have hm : HoldsMono s t := holdsMono_of_eq hn fun r hl => by
    rw [State.listed, hw, hr]
    exact hl
  refine h.quiet hm (hv.mono hm) hs (fun n hn' => Or.inl ?_) hruby
  rw [← hn]
  exact hn'

theorem Told.deliverData (h : Told s) {k : ℕ} {bytes : Bytes} {endStream : Bool}
    (hh : s.handler = .data k bytes endStream :: rest) :
    Told (s.deliverData k bytes endStream rest) := by
  have hrest : ∀ u : State, HoldsMono s u → telling.Valid (Holds u) rest :=
    fun u hm => h.left hh hm fun f hf => hf.elim
  unfold State.deliverData
  cases hk : s.openStreams.lookup k with
  | none => exact h.goesOn rfl rfl rfl rfl rfl (hrest s fun _ => id)
  | some o =>
    have hm : HoldsMono s (s.onQueue (.response o.channel) (·.pushIfRoom bytes)) :=
      holdsMono_response _ (calm_pushIfRoom bytes)
    have hu := h.onQueue (.response o.channel) hm
    dsimp only
    split
    · split
      · exact hu.goesOn rfl rfl rfl rfl rfl ((valid_finish o).append (hrest _ hm))
      · exact hu.goesOn rfl rfl rfl rfl rfl (hrest _ hm)
    · exact hu.goesOn rfl rfl rfl rfl rfl ((valid_fail o _).append (hrest _ hm))
    · exact hu.goesOn rfl rfl rfl rfl rfl
        (Outline.Valid.append ⟨fun _ hf => hf.elim, trivial⟩ (hrest _ hm))

/-- A fiber that is parked on a request queue that is cancelled is owed a wakeup. -/
theorem owed_of_cancelled {q : Tracked} (hc : cancelled q = true) :
    q.stream.writerOwedWakeup = parked q := by
  have hc' : q.stream.inner.cancelled = true := hc
  rw [ResponseStream.writerOwedWakeup, ResponseStreamInner.writerOwedWakeup, hc', Bool.true_or,
    Bool.and_true]
  rfl

theorem Told.push (h : Told s) {r : Ref} {x : StreamItem} (hh : s.handler = .push r x :: rest) :
    Told (s.micro (.push r x) rest) := by
  have hm : HoldsMono s (s.onQueue r (·.push x)) :=
    holdsMono_onQueue r (calm_push x).1 (calm_push x).2
  refine (h.onQueue r hm).goesOn rfl rfl rfl rfl rfl (h.left hh hm fun f hf => ?_)
  cases r with
  | call n => exact hf.elim
  | request n => exact hf.elim
  | response n =>
    rw [hf.2, Holds, State.onQueue, setChannel_channels, if_pos rfl]
    exact over_push _ hf.1

theorem Told.setTrailers (h : Told s) {n : ℕ} {trailers : Headers}
    (hh : s.handler = .setTrailers n trailers :: rest) :
    Told (s.micro (.setTrailers n trailers) rest) := by
  have hm : HoldsMono s (s.setChannel n ({ · with trailers := some trailers })) :=
    holdsMono_flags n _ (fun _ => rfl) fun _ => rfl
  refine h.quiet (fun f hf => hm f hf) (h.left hh (fun f hf => hm f hf) fun f hf => hf.elim) rfl
    ?_ rfl
  intro n' hn'
  rcases resetWanted_setChannel s n n' ({ · with trailers := some trailers }) hn' with
    hold | ⟨rfl, hnow⟩
  · exact Or.inl hold
  · exact Or.inl hnow

theorem Told.cancelRequest (h : Told s) {n : ℕ} (hh : s.handler = .cancelRequest n :: rest) :
    Told (s.micro (.cancelRequest n) rest) := by
  have hm : HoldsMono s (s.onQueue (.request n) (·.cancel)) :=
    holdsMono_request n (calm_cancel _ fun _ => rfl)
  refine (h.onQueue (.request n) hm).goesOn rfl rfl rfl rfl rfl (h.left hh hm fun f hf => ?_)
  rw [show f = .gone n from hf, Holds, State.onQueue, setChannel_channels, if_pos rfl]
  rfl

theorem Told.wantReset (h : Told s) {n : ℕ} (hh : s.handler = .wantReset n :: rest)
    (hgone : Holds s (.gone n)) : Told (s.micro (.wantReset n) rest) := by
  have hm : HoldsMono s (s.setChannel n ({ · with resetWanted := true })) :=
    holdsMono_flags n _ (fun _ => rfl) fun _ => rfl
  refine h.quiet (fun f hf => hm f hf) (h.left hh (fun f hf => hm f hf) fun f hf => hf.elim) rfl
    ?_ rfl
  intro n' hn'
  rcases resetWanted_setChannel s n n' ({ · with resetWanted := true }) hn' with hold | ⟨rfl, -⟩
  · exact Or.inl hold
  · exact Or.inr (hm _ hgone)

theorem Told.wake (h : Told s) {r : Ref} (hh : s.handler = .wake r :: rest) :
    Told (s.micro (.wake r) rest) := by
  have hnow : State.listed (s.micro (.wake r) rest) r :=
    Or.inl (List.mem_append_right _ List.mem_cons_self)
  have hm : HoldsMono s (s.micro (.wake r) rest) :=
    holdsMono_of_eq rfl fun _ => Or.imp_left (List.mem_append_left _)
  refine h.quiet hm (h.left hh hm fun f hf => ?_) rfl (fun n hn => Or.inl hn) rfl
  cases r with
  | call n => exact hf.elim
  | response n =>
    rw [hf.2]
    exact ⟨hf.1, fun _ => hnow⟩
  | request n =>
    rw [hf.2]
    exact ⟨hf.1, fun _ => hnow⟩

/-- A writer that is parked on a request that is gone is owed a wakeup, and is woken next. -/
theorem Told.checkWriter (h : Told s) {n : ℕ} (hh : s.handler = .checkWriter n :: rest) :
    Told (s.micro (.checkWriter n) rest) := by
  refine h.goesOn rfl rfl rfl rfl rfl ?_
  by_cases hw : (s.channels n).request.stream.writerOwedWakeup = true
  · simp only [State.micro, hw, if_true]
    have hv := h.valid
    rw [hh] at hv
    exact ⟨fun _ hf => hf.elim, hv.2⟩
  · simp only [State.micro, hw]
    refine h.left hh (fun _ => id) fun f hf => ?_
    rw [hf.2]
    refine ⟨hf.1, fun hp => absurd ?_ hw⟩
    rw [owed_of_cancelled hf.1]
    exact hp

theorem Told.micro (h : Told s) (hh : s.handler = m :: rest) : Told (s.micro m rest) := by
  have hwants : ∀ f, m.wants f → Holds s f := by
    have hv := h.valid
    rw [hh] at hv
    exact hv.1
  have hrest : (∀ f, m.brings (Holds s) f → False) → telling.Valid (Holds s) rest :=
    fun hb => h.left hh (fun _ => id) fun f hf => (hb f hf).elim
  cases m with
  | push r x => exact h.push hh
  | data k bytes endStream => exact h.deliverData hh
  | stopped k =>
    have hv := hrest fun f hf => hf
    cases hk : s.openStreams.lookup k with
    | none =>
      simp only [State.micro, hk]
      exact h.goesOn rfl rfl rfl rfl rfl hv
    | some o =>
      simp only [State.micro, hk]
      exact h.goesOn rfl rfl rfl rfl rfl hv
  | resetStopped o reason =>
    refine h.goesOn rfl rfl rfl rfl rfl (Outline.Valid.append ?_ (hrest fun f hf => hf))
    refine Leaves.close (leaves_resetByEnvoy ?_ reason)
    exact fun hended => hwants _ ⟨hended, rfl⟩
  | setTrailers n trailers => exact h.setTrailers hh
  | cancelRequest n => exact h.cancelRequest hh
  | wantReset n => exact h.wantReset hh (hwants _ rfl)
  | wake r => exact h.wake hh
  | checkWriter n => exact h.checkWriter hh
  | count i cluster outcome =>
    have hm : HoldsMono s (s.micro (.count i cluster outcome) rest) :=
      holdsMono_of_eq rfl fun _ => id
    refine h.works hm ((hrest ?_).mono hm) ?_ (fun n hn => Or.inl hn) fun n hn => Or.inl hn
    · exact fun f hf => hf
    · intro n hn
      rcases List.mem_append.mp hn with hold | hnow
      · exact Or.inl hold
      · have hi := List.mem_singleton.mp hnow
        subst hi
        exact Or.inr ⟨hm _ (hwants _ (Or.inl rfl)), hm _ (hwants _ (Or.inr rfl))⟩

end Micro

/-! ## `send_upstream_calls` -/

instance (s : State) (r : Ref) : Decidable (s.listed r) :=
  inferInstanceAs (Decidable (r ∈ s.wakeups ∨ r ∈ s.resolving))

/-- Nobody is parked on a queue, or whoever is has been woken. -/
def State.heard (s : State) (r : Ref) (q : Tracked) : Bool := !parked q || decide (s.listed r)

/-- No stream is skipped at its start while a fiber is parked on its channel that nobody woke. -/
def skipsNobody (s : State) : Action → Bool
  | .work =>
    match s.handler, s.outer with
    | [], .startStream r :: _ =>
      !(s.channels r.channel).resetWanted ||
        s.heard (.response r.channel) (s.channels r.channel).response &&
          s.heard (.request r.channel) (s.channels r.channel).request
    | _, _ => true
  | _ => true

theorem listed_of_heard {r : Ref} {q : Tracked} (h : s.heard r q = true) (hp : parked q = true) :
    s.listed r := by
  rw [State.heard, hp] at h
  exact of_decide_eq_true h

section Outer

variable {o : Outer} {rest : List Outer}

/-- A stream that is skipped was closed, and no fiber is left parked. -/
theorem valid_skip (he : Ended s) (h : Told s) {r : UpstreamStreamRequest} (hh : s.handler = [])
    (ho : s.outer = .startStream r :: rest) (hreset : (s.channels r.channel).resetWanted = true)
    (hc : skipsNobody s .work = true) :
    telling.Valid (Holds s) [.count r.item r.cluster .Abandoned] := by
  simp only [skipsNobody, hh, ho, hreset, Bool.not_true, Bool.false_or, Bool.and_eq_true] at hc
  refine ⟨fun f hf => ?_, trivial⟩
  rcases hf with rfl | rfl
  · exact ⟨he.reset r.channel hreset, listed_of_heard hc.1⟩
  · exact ⟨h.reset r.channel hreset, listed_of_heard hc.2⟩

theorem Told.sendItem (h : Told s) (hh : s.handler = []) {k : ℕ} {stream : OpenStream}
    (item : Option StreamItem) : Told (s.sendItem k stream rest item) := by
  have hv : telling.Valid (Holds s) s.handler := by
    rw [hh]
    trivial
  unfold State.sendItem
  split <;> exact h.goesOn rfl rfl rfl rfl rfl hv

theorem Told.outerStep (h : Told s) (he : Ended s) (hh : s.handler = []) (ho : s.outer = o :: rest)
    (hc : skipsNobody s .work = true) (ht : s.outerStep o rest = some t) : Told t := by
  have hv : telling.Valid (Holds s) s.handler := h.valid
  cases o with
  | startStream r =>
    simp only [State.outerStep] at ht
    split at ht
    · rename_i hreset
      cases ht
      exact h.goesOn rfl rfl rfl rfl rfl (valid_skip he h hh ho hreset hc)
    · cases ht
      exact h.goesOn rfl rfl rfl rfl rfl hv
  | firstItem r =>
    cases ht
    have hm : HoldsMono s (s.onQueue (.request r.channel) (·.takeNext)) :=
      holdsMono_request _ calm_takeNext.2
    exact (h.onQueue _ hm).goesOn rfl rfl rfl rfl rfl (hv.mono hm)
  | pumpOne k =>
    simp only [State.outerStep] at ht
    split at ht
    · cases ht
      exact h.goesOn rfl rfl rfl rfl rfl hv
    · split at ht
      · split at ht <;> cases ht <;> exact h.goesOn rfl rfl rfl rfl rfl hv
      · split at ht <;> cases ht <;> exact h.goesOn rfl rfl rfl rfl rfl hv
  | pumpTake k =>
    simp only [State.outerStep] at ht
    split at ht
    · cases ht
      exact h.goesOn rfl rfl rfl rfl rfl hv
    · rename_i stream hk
      cases ht
      have hm : HoldsMono s (s.onQueue (.request stream.channel) (·.takeNext)) :=
        holdsMono_request _ calm_takeNext.2
      exact (h.onQueue _ hm).sendItem hh _
  | pumpWriter k =>
    simp only [State.outerStep] at ht
    split at ht
    · cases ht
      exact h.goesOn rfl rfl rfl rfl rfl hv
    · cases ht
      refine h.goesOn rfl rfl rfl rfl rfl ?_
      dsimp only
      split
      · exact ⟨fun _ hf => hf.elim, trivial⟩
      · trivial
  | inCallout r => cases ht
  | inStart r requestEnded => cases ht
  | pump => cases ht
  | abandon c => cases ht
  | _ =>
    cases ht
    exact h.goesOn rfl rfl rfl rfl rfl hv

/-- What Envoy refuses has failed, and its fibers have been woken, before it is counted. -/
theorem Told.envoyReturns (h : Told s) {result : InitResult} {id : ℕ}
    (ht : s.envoyReturns result id = some t) : Told t := by
  cases envoyReturns_moves ht with
  | call | stream => exact h.goesOn rfl rfl rfl rfl rfl h.valid
  | noCall =>
    refine h.goesOn rfl rfl rfl rfl rfl ?_
    exact ⟨fun _ hf => hf.elim, fun _ hf => hf.elim, fun _ hf => hf.elim, trivial⟩
  | @noStream r =>
    refine h.goesOn rfl rfl rfl rfl rfl ?_
    rw [List.append_assoc, Outline.valid_append, Outline.valid_append]
    refine ⟨valid_channelFail _ _, valid_wakeStream _, fun f hf => ?_, trivial⟩
    have hfail := after_channelFail (P := Holds s) r.channel
    rcases hf with rfl | rfl
    · exact (after_wakeStream (hfail _).1 (hfail _).2).1
    · exact (after_wakeStream (hfail _).1 (hfail _).2).2

end Outer

/-! ## The end of the request -/

section Abandon

variable {P : Fact → Prop}

/-- A script that ends a channel and wakes its fibers. -/
structure Tells (P : Fact → Prop) (n : ℕ) (l : List Micro) : Prop where
  valid : telling.Valid P l
  reader : telling.after P l (.reader n)
  writer : telling.after P l (.writer n)

theorem tells_wakeStream {n : ℕ} {l : List Micro} (hv : telling.Valid P l)
    (he : telling.after P l (.ended n)) (hg : telling.after P l (.gone n)) :
    Tells P n (l ++ wakeStream n) := by
  have hw := after_wakeStream he hg
  refine ⟨hv.append (valid_wakeStream n), ?_, ?_⟩
  · rw [Outline.after_append]
    exact hw.1
  · rw [Outline.after_append]
    exact hw.2

theorem tells_abandonQueued (r : UpstreamStreamRequest) :
    Tells P r.channel (State.abandonQueued r) :=
  tells_wakeStream (valid_channelFail _ _) (after_channelFail _ _).1 (after_channelFail _ _).2

theorem tells_abandonOpen {o : OpenStream} (hP : o.responseEnded = true → P (.ended o.channel)) :
    Tells P o.channel (State.abandonOpen o) :=
  tells_wakeStream (leaves_abandon hP).valid (leaves_abandon hP).ended (leaves_abandon hP).gone

theorem valid_abandonCall (c : PendingCall) : telling.Valid P (State.abandonCall c) :=
  ⟨fun _ hf => hf.elim, fun _ hf => hf.elim, trivial⟩

theorem valid_count {β : Type} {l : List β} {item : β → Item} {cluster : β → String}
    {outcome : β → CallOutcome}
    (h : ∀ b ∈ l, ∀ n, item b = .stream n → P (.reader n) ∧ P (.writer n)) :
    telling.Valid P (l.map fun b => .count (item b) (cluster b) (outcome b)) := by
  induction l generalizing P with
  | nil => trivial
  | cons b l ih =>
    refine ⟨fun f hf => ?_, ih fun b' hb n hn => ?_⟩
    · have hb := h b List.mem_cons_self
      have hwants : (Micro.count (item b) (cluster b) (outcome b)).wants f := hf
      cases hi : item b with
      | call n =>
        rw [hi] at hwants
        exact hwants.elim
      | stream n =>
        rw [hi] at hwants
        rcases hwants with rfl | rfl
        · exact (hb n hi).1
        · exact (hb n hi).2
    · exact (h b' (List.mem_cons_of_mem b hb) n hn).imp Or.inl Or.inl

/-- All that is abandoned is failed and woken first, and counted after. -/
theorem valid_abandoned {calls : List PendingCall} {streams : List UpstreamStreamRequest}
    {opened : List OpenStream} (counting : Bool)
    (hP : ∀ o ∈ opened, o.responseEnded = true → P (.ended o.channel)) :
    telling.Valid P (calls.flatMap State.abandonCall ++ streams.flatMap State.abandonQueued ++
      opened.flatMap State.abandonOpen ++
      (if counting then
        calls.map (fun c => Micro.count c.item c.cluster .Abandoned) ++
          streams.map (fun r => Micro.count r.item r.cluster .Abandoned) ++
          opened.map (fun o => Micro.count o.item o.cluster o.abandon.1.counted)
        else [])) := by
  refine Outline.valid_append.mpr ⟨?_, ?_⟩
  · refine Outline.Valid.append (Outline.Valid.append ?_ ?_) ?_
    · exact Outline.valid_flatMap fun c _ => valid_abandonCall c
    · exact Outline.valid_flatMap fun r _ => (tells_abandonQueued r).valid
    · exact Outline.valid_flatMap fun o ho => (tells_abandonOpen (hP o ho)).valid
  · cases counting with
    | false => trivial
    | true =>
      rw [Outline.after_append, Outline.after_append]
      refine Outline.Valid.append (Outline.Valid.append ?_ ?_) ?_
      · exact valid_count fun c _ n hn => Item.noConfusion hn
      · refine valid_count fun r hr n hn => ?_
        cases hn
        have htold : ∀ Q : Fact → Prop, Tells Q r.channel (State.abandonQueued r) :=
          fun _ => tells_abandonQueued r
        exact ⟨Outline.le_after _ (Outline.after_flatMap hr (htold _).reader),
          Outline.le_after _ (Outline.after_flatMap hr (htold _).writer)⟩
      · refine valid_count fun o ho n hn => ?_
        cases hn
        have hP' := fun hended => Outline.le_after (o := telling)
          (l := streams.flatMap State.abandonQueued) _
          (Outline.le_after (o := telling) (l := calls.flatMap State.abandonCall) _ (hP o ho hended))
        have htold := tells_abandonOpen hP'
        exact ⟨Outline.after_flatMap ho htold.reader, Outline.after_flatMap ho htold.writer⟩

theorem Told.ordered (h : Told s) (he : Ended s) {calls handles : List ℕ}
    (ht : s.ordered calls handles = some t) : Told t := by
  cases ordered_moves ht with
  | pump => exact h.goesOn rfl rfl rfl rfl rfl h.valid
  | @abandon counting rest hh _ _ hp =>
    refine h.goesOn rfl rfl rfl rfl rfl (valid_abandoned counting fun o ho hended => ?_)
    exact he.isOver hh ((Table.pick_perm hp).mem_iff.mp ho) hended

end Abandon

/-! ## The callbacks -/

theorem valid_pushes {P : Fact → Prop} (n : ℕ) (items : List StreamItem) :
    telling.Valid P (items.map (.push (.call n))) := by
  induction items generalizing P with
  | nil => trivial
  | cons x items ih => exact ⟨fun _ hf => hf.elim, ih⟩

theorem Told.calloutDone (h : Told s) (id : ℕ) (result : CalloutResult)
    (headers : Option Headers) (body : Option (List Bytes)) :
    Told (s.onHttpCalloutDone id result headers body) := by
  unfold State.onHttpCalloutDone
  cases hk : s.inFlight.lookup id with
  | none => exact h
  | some call =>
    refine h.goesOn rfl rfl rfl rfl rfl ((valid_pushes _ _).append ?_)
    exact ⟨fun _ hf => hf.elim, fun _ hf => hf.elim, trivial⟩

theorem Told.onOpenStream (h : Told s) {k : ℕ} {f : OpenStream → OpenStream × List Micro}
    (hf : ∀ o, telling.Valid (Holds s) (f o).2) : Told (s.onOpenStream k f) := by
  unfold State.onOpenStream
  cases hk : s.openStreams.lookup k with
  | none => exact h
  | some o => exact h.goesOn rfl rfl rfl rfl rfl ((hf o).append (valid_wakeStream _))

theorem Told.onFinished (h : Told s) (he : Ended s) (hh : s.handler = []) {k : ℕ}
    {f : OpenStream → List Micro}
    (hf : ∀ o, (o.responseEnded = true → Holds s (.ended o.channel)) →
      telling.Valid (Holds s) (f o)) : Told (s.onFinished k f) := by
  unfold State.onFinished
  cases hk : s.openStreams.lookup k with
  | none => exact h
  | some o =>
    refine h.goesOn rfl rfl rfl rfl rfl (hf o fun hended => ?_)
    exact he.isOver hh (Table.mem_values_of_lookup hk) hended

/-! ## The fibers -/

theorem Told.closing (h : Told s) (n : ℕ) :
    Told { s.onQueue (.response n) (·.cancel) with ruby := .closeRequest n } := by
  have hm : HoldsMono s (s.onQueue (.response n) (·.cancel)) :=
    holdsMono_response n (calm_cancel _ fun _ => rfl)
  refine h.beside (fun f hf => hm f hf) rfl rfl ?_ ?_
  · exact fun n' hn => Or.inl ((onQueue_resetWanted (.response n) _ n').symm.trans hn)
  · intro n' hn
    cases hn

theorem Told.queue (h : Told s) (cluster : String) (headers : Fields) (body : Bytes)
    (timeout : ℕ) : Told (s.queue cluster headers body timeout) := by
  simp only [State.queue]
  split <;> exact h.goesOn rfl rfl rfl rfl rfl h.valid

theorem Told.queueStream (h : Told s) (cluster : String) (headers : Fields) (timeout : ℕ)
    (hasBody : Bool) : Told (s.queueStream cluster headers timeout hasBody) := by
  have hopened : Told (if hasBody then s else
      s.onQueue (.request s.nextChannel) (·.push .End)) := by
    split
    · exact h
    · exact h.onQueue _ (holdsMono_request _ (calm_push _).2)
  simp only [State.queueStream]
  split <;> exact hopened.goesOn rfl rfl rfl rfl rfl hopened.valid

theorem Told.fiber (h : Told s) {op : FiberOp} (ht : s.fiber op = some t) : Told t := by
  cases op with
  | take r =>
    simp only [State.fiber, Option.ite_none_right_eq_some, Option.some.injEq] at ht
    obtain ⟨-, rfl⟩ := ht
    exact h.onQueue r (holdsMono_onQueue r calm_takeNext.1 calm_takeNext.2)
  | park r v =>
    simp only [State.fiber, Option.ite_none_right_eq_some, Option.some.injEq] at ht
    obtain ⟨hr, rfl⟩ := ht
    cases r with
    | call n => exact h.onQueue _ (holdsMono_call n _)
    | response n => exact h.onQueue _ (holdsMono_response n (calm_park v))
    | request n => cases hr
  | unpark r =>
    cases ht
    exact h.onQueue r
      (holdsMono_onQueue r (calm_unpark isOver fun _ => rfl) (calm_unpark cancelled fun _ => rfl))
  | write n bytes =>
    cases ht
    exact h.onQueue _ (holdsMono_request n (calm_pushWithinBudget bytes))
  | finish n =>
    cases ht
    exact h.onQueue _ (holdsMono_request n (calm_push _).2)
  | parkWriter n v =>
    cases ht
    exact h.onQueue _ (holdsMono_request n (calm_parkWriter v))
  | close n =>
    cases ht
    exact h.closing n
  | timeOut n =>
    cases ht
    have hm : HoldsMono s (s.setChannel n ({ · with timedOut := true })) :=
      holdsMono_flags n _ (fun _ => rfl) fun _ => rfl
    refine h.beside (fun f hf => hm f hf) rfl rfl ?_ ?_
    · intro n' hn'
      rcases resetWanted_setChannel s n n' ({ · with timedOut := true }) hn' with hold | ⟨rfl, hnow⟩
      · exact Or.inl hold
      · exact Or.inl hnow
    · intro n' hn
      cases hn

/-- The Ruby thread cancels the request queue before it raises the flag. -/
theorem Told.rubyStep (h : Told s) (ht : s.rubyStep = some t) : Told t := by
  cases rubyStep_moves ht with
  | response => exact h.closing _
  | @request n =>
    have hm : HoldsMono s (s.onQueue (.request n) (·.cancel)) :=
      holdsMono_request n (calm_cancel _ fun _ => rfl)
    refine h.beside (fun f hf => hm f hf) rfl rfl ?_ ?_
    · exact fun n' hn => Or.inl ((onQueue_resetWanted (.request n) _ n').symm.trans hn)
    · intro n' hn
      cases hn
      refine Or.inr ?_
      rw [Holds, State.onQueue, setChannel_channels, if_pos rfl]
      rfl
  | @reset n hruby =>
    have hm : HoldsMono s (s.setChannel n ({ · with resetWanted := true })) :=
      holdsMono_flags n _ (fun _ => rfl) fun _ => rfl
    refine h.beside (fun f hf => hm f hf) rfl rfl ?_ ?_
    · intro n' hn'
      rcases resetWanted_setChannel s n n' ({ · with resetWanted := true }) hn' with hold | ⟨rfl, -⟩
      · exact Or.inl hold
      · exact Or.inr (hm _ (h.ruby n' hruby))
    · intro n' hn
      cases hn

/-! ## Every step -/

theorem Told.takeWakeups (h : Told s) (hnil : s.resolving = []) :
    Told { s with wakeups := [], resolving := s.wakeups } := by
  have hm : HoldsMono s { s with wakeups := [], resolving := s.wakeups } := by
    refine holdsMono_of_eq rfl fun r hl => Or.inr ?_
    rcases hl with hl | hl
    · exact hl
    · rw [hnil] at hl
      cases hl
  exact h.beside hm rfl rfl (fun n hn => Or.inl hn) fun n hn => Or.inl hn

theorem Told.resolve (h : Told s) {r : Ref} {rest : List Ref} (hr : s.resolving = r :: rest) :
    Told { s.onQueue r (·.unpark) with resolving := rest } := by
  have heq := onQueue_eq s r (·.unpark)
  refine h.beside (holdsMono_resolve hr) ?_ ?_ ?_ ?_
  · rw [heq]
  · rw [heq]
  · intro n hn
    exact Or.inl ((onQueue_resetWanted r _ n).symm.trans hn)
  · intro n hn
    rw [heq] at hn
    exact Or.inl hn

/-- **Every step that skips no stream under a parked fiber keeps the fibers told.** -/
theorem Told.step {a : Action} (h : Told s) (he : Ended s) (hc : skipsNobody s a = true)
    (ht : step s a = some t) : Told t := by
  cases step_moves ht with
  | queue _ cluster headers body timeout => exact h.queue cluster headers body timeout
  | queueStream _ cluster headers timeout hasBody =>
    exact h.queueStream cluster headers timeout hasBody
  | fiber _ ht => exact h.fiber ht
  | ruby ht => exact h.rubyStep ht
  | event | complete | drop => exact h.goesOn rfl rfl rfl rfl rfl h.valid
  | @calloutDone id _ _ _ result headers body =>
    have hd := h.calloutDone id result headers body
    exact hd.goesOn rfl rfl rfl rfl rfl hd.valid
  | streamHeaders _ headers endStream =>
    exact h.onOpenStream (valid_headersArrived · headers endStream)
  | @streamData k _ data endStream => exact h.onOpenStream (valid_dataArrived · k data endStream)
  | streamTrailers _ trailers => exact h.onOpenStream (valid_trailersArrived · trailers)
  | @streamComplete k hr =>
    have hd := h.onFinished (k := k) he (callable_handler (reports_callable hr))
      fun _ hP => (leaves_completed hP).close
    exact hd.goesOn rfl rfl rfl rfl rfl hd.valid
  | @streamReset k hr reason =>
    have hd := h.onFinished (k := k) he (callable_handler (reports_callable hr))
      fun _ hP => valid_onReset hP reason
    exact hd.goesOn rfl rfl rfl rfl rfl hd.valid
  | micro hh => exact h.micro hh
  | outerStep hh ho ht => exact h.outerStep he hh ho hc ht
  | returns ht => exact h.envoyReturns ht
  | order ht => exact h.ordered he ht
  | takeWakeups hnil => exact h.takeWakeups hnil
  | resolve hr => exact h.resolve hr

theorem Told.of_reach (h : system.Reach (fun s a => skipsNobody s a = true) s) : Told s := by
  refine h.inductOn (fun s hs => ?_) ?_ ?_ (Q := Ended)
  · exact .of_reachable (hs.mono fun _ _ _ => trivial)
  · rintro _ ⟨config, rfl⟩
    exact .init config
  · intro s a t he hs hc ht
    exact hs.step he hc ht

/-! ## The worker is done with a channel -/

/-- The channel was handed over, and is neither queued, nor being started, nor open, nor in the hands
of a callback that removes it. -/
structure Done (s : State) (n : ℕ) : Prop where
  accepted : .stream n ∈ s.accepted
  queued : ∀ r ∈ s.streams, r.channel ≠ n
  starting : ∀ o ∈ s.outer, .stream n ∉ o.items
  opened : ∀ o ∈ s.openStreams.values, o.channel ≠ n
  removing : ∀ m ∈ s.handler, .stream n ∉ m.items

theorem Done.settled {n : ℕ} (h : Done s n) (hb : Books s) : .stream n ∈ s.settled := by
  rcases List.mem_append.mp (hb.queued.mem_iff.mp h.accepted) with hwait | hhanded
  · rcases List.mem_append.mp hwait with hcall | hstream
    · obtain ⟨r, -, heq⟩ := List.mem_map.mp hcall
      cases heq
    · obtain ⟨r, hr, heq⟩ := List.mem_map.mp hstream
      exact absurd (Item.stream.inj heq) (h.queued r hr)
  · have hin := hb.handed.mem_iff.mp hhanded
    simp only [State.inHand, State.atWork, List.mem_append, List.mem_flatMap, List.mem_map] at hin
    rcases hin with ⟨o, ho, hi⟩ | ((⟨m, hm, hi⟩ | ⟨c, -, hi⟩) | ⟨o, ho, hi⟩) | hsettled
    · exact absurd hi (h.starting o ho)
    · exact absurd hi (h.removing m hm)
    · cases hi
    · exact absurd (Item.stream.inj hi) (h.opened o ho)
    · exact hsettled

/-- **Fibers hear that a channel is over**, when no stream is skipped at its start under a fiber that
is parked on its channel and not on the list of wakeups. Once the worker is done with a channel its
response has ended or is cancelled, and a fiber in the slot of its response or of its request queue
is on the list. -/
theorem channel_over_heard (h : system.Reach (fun s a => skipsNobody s a = true) s) {n : ℕ}
    (hd : Done s n) :
    isOver (s.channels n).response = true ∧
      (parked (s.channels n).response = true → s.listed (.response n)) ∧
      (parked (s.channels n).request = true → s.listed (.request n)) := by
  have hb := Books.of_reachable (h.mono fun _ _ _ => trivial)
  obtain ⟨hreader, hwriter⟩ := (Told.of_reach h).settled n (hd.settled hb)
  exact ⟨hreader.1, hreader.2, hwriter.2⟩

/-- A stream that is closed before its start and skipped, and one that Envoy resets under a fiber
that waits for its response and one that waits to write. -/
def resetUnderFibers : List Action :=
  [.queueStream "a" [] 0 true, .fiber (.close 0), .ruby, .ruby, .queueStream "b" [] 0 true, .event,
    .work, .work, .work, .work, .work, .work, .returns .Success 5, .order [] [5], .work, .work, .work,
    .fiber (.park (.response 1) 7), .fiber (.write 1 [1, 2]), .fiber (.parkWriter 1 8),
    .streamReset 5 .RemoteReset, .work, .work, .work, .work, .work, .work, .work, .work]

theorem channel_over_heard_resetUnderFibers :
    ∃ s, system.runIf skipsNobody { config := { settings := ⟨10, 2⟩ } } resetUnderFibers = some s ∧
      s.settled = [.stream 0, .stream 1] ∧ parked (s.channels 1).response = true ∧
      parked (s.channels 1).request = true ∧ isOver (s.channels 1).response = true ∧
      s.listed (.response 1) ∧ s.listed (.request 1) := by
  have hr : system.runIf skipsNobody { config := { settings := ⟨10, 2⟩ } } resetUnderFibers =
    some _ := rfl
  have hheard := channel_over_heard (n := 1) (System.reach_of_runIf ⟨_, rfl⟩ hr)
    ⟨List.mem_cons_of_mem _ List.mem_cons_self, by rintro _ ⟨⟩, by rintro _ ⟨⟩, by rintro _ ⟨⟩,
      by rintro _ ⟨⟩⟩
  exact ⟨_, hr, rfl, rfl, rfl, hheard.1, hheard.2.1 rfl, hheard.2.2 rfl⟩

/-- A fiber waits for the response, another one closes the channel before the worker starts it, and
the worker skips it. -/
def skippedUnderReader : List Action :=
  [.queueStream "a" [] 0 true, .fiber (.park (.response 0) 7), .fiber (.close 0), .ruby, .ruby, .event,
    .work, .work, .work, .work, .order [] []]

/-- The worker is done with the channel, and the fiber in the slot of its response is on no list. -/
theorem reader_left_behind :
    ¬ ∀ s, system.Reachable s → ∀ n, Done s n → parked (s.channels n).response = true →
      s.listed (.response n) := by
  intro hall
  have hr : system.run { config := { settings := ⟨10, 2⟩ } } skippedUnderReader = some _ := rfl
  have hno := hall _ (System.reach_of_run ⟨_, rfl⟩ hr) 0
    ⟨List.mem_cons_self, by rintro _ ⟨⟩, by rintro _ ⟨⟩, by rintro _ ⟨⟩, by rintro _ ⟨⟩⟩ rfl
  rcases hno with hno | hno <;> cases hno

end Ruvoy.Upstream
