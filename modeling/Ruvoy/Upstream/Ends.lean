import Ruvoy.Upstream.Books

/-!
# Every response is over before it is counted

The response of an item is over once its stream has ended or was cancelled. What is left of a
callback pushes the end of a response before it counts the item, or finds the response over: a list
of accesses is `Covered` when each of those that need a response to be over comes after it is.

* `isOver`, `Keeps`: queues that are over, and the operations that leave them so;
* `Micro.ends`, `Micro.needs`, `Covered`: what an access brings about and what it relies on;
* `Ended`: what holds of the responses in every state, kept by every step (`Ended.step`).
-/

set_option autoImplicit false

namespace Ruvoy.Upstream

open Runs

/-! ## Queues that are over -/

/-- The queue has ended or was cancelled. -/
def isOver (q : Tracked) : Bool := q.stream.cancelled || q.stream.ended

/-- An operation after which what was over is over. -/
def Keeps (f : Tracked → Tracked) : Prop := ∀ q, isOver q = true → isOver (f q) = true

theorem keeps_push (x : StreamItem) : Keeps (·.push x) := by
  intro q hq
  have : (q.push x).stream = q.stream := congrArg Prod.snd (ResponseStream.push_of_shut hq x)
  rw [isOver, this]
  exact hq

theorem keeps_pushIfRoom (b : Bytes) : Keeps (·.pushIfRoom b) := by
  intro q hq
  have : (q.pushIfRoom b).stream = q.stream :=
    congrArg Prod.snd (ResponseStream.pushChunkIfRoom_of_shut hq b)
  rw [isOver, this]
  exact hq

theorem keeps_takeNext : Keeps (·.takeNext) := by
  intro q hq
  have hc : q.takeNext.stream.cancelled = q.stream.cancelled := ResponseStream.takeNext_cancelled
  have he : q.takeNext.stream.ended = q.stream.ended := ResponseStream.takeNext_ended
  rw [isOver, hc, he]
  exact hq

theorem keeps_cancel : Keeps (·.cancel) := fun _ _ => rfl

theorem keeps_park (v : Variable) : Keeps (·.park v) := by
  intro q hq
  have hc : (q.park v).stream.cancelled = q.stream.cancelled := ResponseStream.park_cancelled v
  have he : (q.park v).stream.ended = q.stream.ended := ResponseStream.park_ended v
  rw [isOver, hc, he]
  exact hq

theorem keeps_unpark : Keeps (·.unpark) := fun _ hq => hq

theorem over_push (q : Tracked) {x : StreamItem} (hx : x.terminal = true) :
    isOver (q.push x) = true := by
  by_cases hq : isOver q = true
  · exact keeps_push x q hq
  · obtain ⟨hc, he⟩ := ResponseStreamInner.open_of_not_shut hq
    have hin := (ResponseStream.push_of_open hc he x).2
    have hended : (q.push x).stream.ended = true := by
      show (q.stream.push x).2.inner.ended = true
      rw [hin]
      exact hx
    rw [isOver, hended, Bool.or_true]

/-- The response of an item. -/
def State.response (s : State) : Item → Tracked
  | .call n => s.calls n
  | .stream n => (s.channels n).response

/-- The response of an item is over. -/
def Over (s : State) (i : Item) : Prop := isOver (s.response i) = true

variable {s t : State}

/-- What was over is over. -/
def OverMono (s t : State) : Prop := ∀ i, Over s i → Over t i

theorem overMono_of_eq (hc : t.calls = s.calls) (hn : t.channels = s.channels) : OverMono s t := by
  rintro (n | n) hi
  · rwa [Over, State.response, hc]
  · rwa [Over, State.response, hn]

theorem setChannel_channels (n m : ℕ) (f : StreamChannel → StreamChannel) :
    (s.setChannel n f).channels m = if m = n then f (s.channels n) else s.channels m :=
  Function.update_apply ..

theorem setCall_calls (n m : ℕ) (f : Tracked → Tracked) :
    (s.setCall n f).calls m = if m = n then f (s.calls n) else s.calls m :=
  Function.update_apply ..

theorem overMono_setChannel (n : ℕ) (f : StreamChannel → StreamChannel)
    (hf : ∀ c, isOver c.response = true → isOver (f c).response = true) :
    OverMono s (s.setChannel n f) := by
  rintro (m | m) hi
  · exact hi
  · rw [Over, State.response, setChannel_channels]
    split
    · rename_i heq
      subst heq
      exact hf _ hi
    · exact hi

/-- No request queue is a response. -/
theorem overMono_request (n : ℕ) (f : Tracked → Tracked) : OverMono s (s.onQueue (.request n) f) :=
  overMono_setChannel n (fun c => { c with request := f c.request }) fun _ hc => hc

theorem overMono_onQueue (r : Ref) {f : Tracked → Tracked} (hf : Keeps f) :
    OverMono s (s.onQueue r f) := by
  cases r with
  | call n =>
    rintro (m | m) hi
    · rw [Over, State.response, State.onQueue, setCall_calls]
      split
      · rename_i heq
        subst heq
        exact hf _ hi
      · exact hi
    · exact hi
  | response n =>
    exact overMono_setChannel n (fun c => { c with response := f c.response }) fun c hc => hf _ hc
  | request n => exact overMono_request n f

/-! ## Lists of accesses -/

/-- The responses an access ends. -/
def Micro.ends : Micro → List Item
  | .push (.call n) x => if x.terminal then [.call n] else []
  | .push (.response n) x => if x.terminal then [.stream n] else []
  | _ => []

/-- The responses that have to be over at an access. -/
def Micro.needs : Micro → List Item
  | .count i _ _ => [i]
  | .wantReset n => [.stream n]
  | .resetStopped o _ => if o.responseEnded then [o.item] else []
  | _ => []

/-- Where `P` is over at first, each access finds over what it needs. -/
def Covered (P : Item → Prop) : List Micro → Prop
  | [] => True
  | m :: rest => (∀ i ∈ m.needs, P i) ∧ Covered (fun i => P i ∨ i ∈ m.ends) rest

theorem Covered.mono {P Q : Item → Prop} (hPQ : ∀ i, P i → Q i) {l : List Micro} (h : Covered P l) :
    Covered Q l := by
  induction l generalizing P Q with
  | nil => trivial
  | cons m l ih => exact ⟨fun i hi => hPQ i (h.1 i hi), ih (fun i => Or.imp_left (hPQ i)) h.2⟩

theorem covered_append {P : Item → Prop} {l l' : List Micro} :
    Covered P (l ++ l') ↔ Covered P l ∧ Covered (fun i => P i ∨ i ∈ l.flatMap Micro.ends) l' := by
  induction l generalizing P with
  | nil => simp [Covered]
  | cons m l ih =>
    rw [List.cons_append, Covered, Covered, ih, and_assoc, List.flatMap_cons]
    simp only [List.mem_append, or_assoc]

theorem Covered.append {P : Item → Prop} {l l' : List Micro} (h : Covered P l) (h' : Covered P l') :
    Covered P (l ++ l') :=
  covered_append.mpr ⟨h, h'.mono fun _ => Or.inl⟩

theorem covered_flatMap {β : Type} {P : Item → Prop} {l : List β} {f : β → List Micro}
    (h : ∀ b ∈ l, Covered P (f b)) : Covered P (l.flatMap f) := by
  induction l with
  | nil => trivial
  | cons b l ih =>
    rw [List.flatMap_cons]
    exact (h b List.mem_cons_self).append (ih fun b' hb => h b' (List.mem_cons_of_mem b hb))

theorem covered_count {β : Type} {P : Item → Prop} {l : List β} {item : β → Item}
    {cluster : β → String} {outcome : β → CallOutcome} (h : ∀ b ∈ l, P (item b)) :
    Covered P (l.map fun b => .count (item b) (cluster b) (outcome b)) := by
  induction l generalizing P with
  | nil => trivial
  | cons b l ih =>
    refine ⟨fun i hi => ?_, ih fun b' hb => Or.inl (h b' (List.mem_cons_of_mem b hb))⟩
    rw [List.mem_singleton.mp hi]
    exact h b List.mem_cons_self

/-! ## The handlers of a stream -/

/-- A handler ends the response before it relies on the end, and says so. -/
structure EndsWell (o : OpenStream) (r : OpenStream × List Micro) : Prop where
  covered : Covered (fun i => o.responseEnded = true ∧ i = o.item) r.2
  ended : r.1.responseEnded = true → o.responseEnded = true ∨ o.item ∈ r.2.flatMap Micro.ends

theorem covered_channelFail {P : Item → Prop} (n : ℕ) (error : BridgeError) :
    Covered P (channelFail n error) := by
  refine ⟨by rintro _ ⟨⟩, by rintro _ ⟨⟩, fun i hi => ?_, trivial⟩
  rw [List.mem_singleton.mp hi]
  exact Or.inl (Or.inr List.mem_cons_self)

theorem ends_channelFail (n : ℕ) (error : BridgeError) :
    .stream n ∈ (channelFail n error).flatMap Micro.ends := List.mem_cons_self

theorem covered_wakeStream {P : Item → Prop} (n : ℕ) : Covered P (wakeStream n) :=
  ⟨by rintro _ ⟨⟩, by rintro _ ⟨⟩, trivial⟩

section Handlers

variable (o : OpenStream)

theorem endsWell_idle : EndsWell o (o, []) := ⟨trivial, Or.inl⟩

theorem endsWell_finish : EndsWell o o.finish :=
  ⟨⟨by rintro _ ⟨⟩, trivial⟩, fun _ => Or.inr List.mem_cons_self⟩

theorem endsWell_fail (error : BridgeError) : EndsWell o (o.fail error) :=
  ⟨covered_channelFail _ _, fun _ => Or.inr (ends_channelFail _ _)⟩

theorem endsWell_headersArrived (headers : Headers) (endStream : Bool) :
    EndsWell o (o.headersArrived headers endStream) := by
  unfold OpenStream.headersArrived
  split
  · exact endsWell_idle o
  · split
    · exact endsWell_fail o _
    · cases endStream with
      | false => exact ⟨⟨by rintro _ ⟨⟩, trivial⟩, Or.inl⟩
      | true => exact ⟨⟨by rintro _ ⟨⟩, by rintro _ ⟨⟩, trivial⟩, fun _ => Or.inr List.mem_cons_self⟩

theorem endsWell_dataArrived (handle : ℕ) (data : List Bytes) (endStream : Bool) :
    EndsWell o (o.dataArrived handle data endStream) := by
  unfold OpenStream.dataArrived
  split
  · exact endsWell_idle o
  · split
    · cases endStream with
      | false => exact endsWell_idle o
      | true => exact endsWell_finish o
    · exact ⟨⟨by rintro _ ⟨⟩, trivial⟩, Or.inl⟩

theorem endsWell_trailersArrived (trailers : Headers) :
    EndsWell o (o.trailersArrived trailers) := by
  unfold OpenStream.trailersArrived
  split
  · exact endsWell_idle o
  · exact ⟨⟨by rintro _ ⟨⟩, by rintro _ ⟨⟩, trivial⟩, fun _ => Or.inr List.mem_cons_self⟩

/-- A stream that Envoy is done with, where the handler has ended its response. -/
structure Finishes (o : OpenStream) (r : OpenStream × List Micro) : Prop extends EndsWell o r where
  done : r.1.responseEnded = true

theorem finishes_gone {o stream : OpenStream} {r : OpenStream × List Micro}
    (hs : stream.responseEnded = o.responseEnded)
    (hr : Covered (fun i => o.responseEnded = true ∧ i = o.item) r.2)
    (hd : r.1.responseEnded = true) (he : o.item ∈ r.2.flatMap Micro.ends) :
    Finishes o (OpenStream.gone (if stream.responseEnded then (stream, []) else r)) := by
  by_cases hended : stream.responseEnded = true
  · rw [if_pos hended]
    exact ⟨⟨⟨by rintro _ ⟨⟩, trivial⟩, fun _ => Or.inl (hs ▸ hended)⟩, hended⟩
  · rw [if_neg hended]
    refine ⟨⟨hr.append ⟨by rintro _ ⟨⟩, trivial⟩, fun _ => Or.inr ?_⟩, hd⟩
    rw [OpenStream.gone, List.flatMap_append]
    exact List.mem_append_left _ he

theorem finishes_completed : Finishes o o.completed :=
  finishes_gone rfl (endsWell_finish o).covered rfl List.mem_cons_self

theorem finishes_resetByEnvoy (reason : ResetReason) : Finishes o (o.resetByEnvoy reason) := by
  unfold OpenStream.resetByEnvoy
  dsimp only
  split
  · exact finishes_gone rfl (covered_channelFail _ _) rfl (ends_channelFail _ _)
  · exact finishes_gone rfl (covered_channelFail _ _) rfl (ends_channelFail _ _)

theorem finishes_abandon : Finishes o o.abandon :=
  finishes_gone rfl (covered_channelFail _ _) rfl (ends_channelFail _ _)

/-- A stream whose response is over where it has ended is closed with it over. -/
theorem Finishes.close {o : OpenStream} {r : OpenStream × List Micro} {P : Item → Prop}
    (h : Finishes o r) (hi : r.1.item = o.item) (hP : o.responseEnded = true → P o.item) :
    Covered P (OpenStream.close r) := by
  have hc : Covered P r.2 := h.covered.mono fun i hi => hi.2 ▸ hP hi.1
  rw [OpenStream.close, List.append_assoc, covered_append]
  refine ⟨hc, ?_⟩
  refine Covered.append (covered_wakeStream _) ⟨fun i hmem => ?_, trivial⟩
  rw [List.mem_singleton.mp hmem, hi]
  exact (h.ended h.done).imp_left hP

theorem covered_onReset {P : Item → Prop} (reason : ResetReason)
    (hP : o.responseEnded = true → P o.item) : Covered P (o.onReset reason) := by
  unfold OpenStream.onReset
  split
  · exact (finishes_completed o).close (stays_completed o).1 hP
  · split
    · refine ⟨fun i hi => ?_, trivial⟩
      simp only [Micro.needs, List.mem_ite_nil_right, List.mem_singleton] at hi
      rw [hi.2]
      exact hP hi.1
    · exact (finishes_resetByEnvoy o reason).close (stays_resetByEnvoy o reason).1 hP

end Handlers

/-! ## The invariant -/

structure Ended (s : State) : Prop where
  covered : Covered (Over s) s.handler
  settled : ∀ i ∈ s.settled, Over s i
  opened : ∀ o ∈ s.openStreams.values, o.responseEnded = true →
    Over s o.item ∨ o.item ∈ s.handler.flatMap Micro.ends
  reset : ∀ n, (s.channels n).resetWanted = true → Over s (.stream n)
  ruby : ∀ n, s.ruby = .closeRequest n ∨ s.ruby = .wantReset n → Over s (.stream n)

theorem Ended.init (config : Config) : Ended { config := config } := by
  refine ⟨trivial, by rintro _ ⟨⟩, by rintro _ ⟨⟩, ?_, ?_⟩
  · intro n hn
    cases hn
  · rintro n (hn | hn) <;> cases hn

theorem onQueue_resetWanted (r : Ref) (f : Tracked → Tracked) (n : ℕ) :
    ((s.onQueue r f).channels n).resetWanted = (s.channels n).resetWanted := by
  cases r with
  | call m => rfl
  | response m =>
    rw [State.onQueue, setChannel_channels]
    split
    · rename_i heq
      rw [heq]
    · rfl
  | request m =>
    rw [State.onQueue, setChannel_channels]
    split
    · rename_i heq
      rw [heq]
    · rfl

theorem resetWanted_setChannel (s : State) (n n' : ℕ) (f : StreamChannel → StreamChannel)
    (h : ((s.setChannel n f).channels n').resetWanted = true) :
    (s.channels n').resetWanted = true ∨ n' = n ∧ (f (s.channels n)).resetWanted = true := by
  rw [setChannel_channels] at h
  split at h
  · rename_i heq
    exact Or.inr ⟨heq, h⟩
  · exact Or.inl h

theorem over_of_ends {r : Ref} {x : StreamItem} {i : Item} (hi : i ∈ (Micro.push r x).ends) :
    Over (s.onQueue r (·.push x)) i := by
  cases r with
  | call n =>
    simp only [Micro.ends, List.mem_ite_nil_right, List.mem_singleton] at hi
    obtain ⟨hx, rfl⟩ := hi
    rw [Over, State.response, State.onQueue, setCall_calls, if_pos rfl]
    exact over_push _ hx
  | response n =>
    simp only [Micro.ends, List.mem_ite_nil_right, List.mem_singleton] at hi
    obtain ⟨hx, rfl⟩ := hi
    rw [Over, State.response, State.onQueue, setChannel_channels, if_pos rfl]
    exact over_push _ hx
  | request n => cases hi

theorem Ended.beside (h : Ended s) (hm : OverMono s t) (hh : t.handler = s.handler)
    (hs : t.settled = s.settled) (ho : t.openStreams = s.openStreams)
    (hr : ∀ n, (t.channels n).resetWanted = true →
      (s.channels n).resetWanted = true ∨ Over t (.stream n))
    (hruby : ∀ n, t.ruby = .closeRequest n ∨ t.ruby = .wantReset n →
      (s.ruby = .closeRequest n ∨ s.ruby = .wantReset n) ∨ Over t (.stream n)) : Ended t := by
  refine ⟨?_, ?_, ?_, ?_, ?_⟩
  · rw [hh]
    exact h.covered.mono hm
  · rw [hs]
    exact fun i hi => hm i (h.settled i hi)
  · rw [ho, hh]
    exact fun o hmem hended => (h.opened o hmem hended).imp_left (hm _)
  · exact fun n hn => (hr n hn).elim (fun hn => hm _ (h.reset n hn)) id
  · exact fun n hn => (hruby n hn).elim (fun hn => hm _ (h.ruby n hn)) id

theorem Ended.onQueue (h : Ended s) (r : Ref) {f : Tracked → Tracked} (hm : OverMono s (s.onQueue r f)) :
    Ended (s.onQueue r f) := by
  have heq := onQueue_eq s r f
  refine h.beside hm ?_ ?_ ?_ ?_ ?_
  · rw [heq]
  · rw [heq]
  · rw [heq]
  · intro n hn
    rw [onQueue_resetWanted] at hn
    exact Or.inl hn
  · intro n hn
    rw [heq] at hn
    exact Or.inl hn

/-! ## The callback that runs -/

/-- After an access, what is left of the callback is covered and ends what was to be ended. -/
structure Left (s t : State) (rest : List Micro) : Prop where
  mono : OverMono s t
  covered : Covered (Over t) rest
  opened : ∀ o ∈ s.openStreams.values, o.responseEnded = true →
    Over t o.item ∨ o.item ∈ rest.flatMap Micro.ends

section Micro

variable {m : Micro} {rest l : List Micro}

theorem Ended.left (h : Ended s) (hh : s.handler = m :: rest) (hm : OverMono s t)
    (he : ∀ i ∈ m.ends, Over t i) : Left s t rest := by
  have hc := h.covered
  rw [hh] at hc
  refine ⟨hm, hc.2.mono fun i hi => hi.elim (hm i) (he i), fun o ho hended => ?_⟩
  have ho := h.opened o ho hended
  rw [hh, List.flatMap_cons, List.mem_append] at ho
  rcases ho with hover | hnow | hlater
  · exact Or.inl (hm _ hover)
  · exact Or.inl (he _ hnow)
  · exact Or.inr hlater

/-- Between callbacks everything that has ended is over. -/
theorem Ended.isOver (h : Ended s) (hh : s.handler = []) {o : OpenStream}
    (ho : o ∈ s.openStreams.values) (hended : o.responseEnded = true) : Over s o.item := by
  have hopen := h.opened o ho hended
  rw [hh] at hopen
  exact hopen.elim id (by rintro ⟨⟩)

theorem Ended.between (h : Ended s) (hh : s.handler = []) (hm : OverMono s t) : Left s t [] :=
  ⟨hm, trivial, fun _ ho hended => Or.inl (hm _ (h.isOver hh ho hended))⟩

theorem Ended.works (h : Ended s) (hl : Left s t rest) (hnew : t.handler = l ++ rest)
    (hc : Covered (Over t) l) (hset : ∀ i ∈ t.settled, i ∈ s.settled ∨ Over t i)
    (hopen : ∀ o ∈ t.openStreams.values, o.responseEnded = true →
      (∃ o' ∈ s.openStreams.values, o'.responseEnded = true ∧ o'.item = o.item) ∨
        Over t o.item ∨ o.item ∈ l.flatMap Micro.ends)
    (hr : ∀ n, (t.channels n).resetWanted = true →
      (s.channels n).resetWanted = true ∨ Over t (.stream n)) (hruby : t.ruby = s.ruby) :
    Ended t := by
  refine ⟨?_, ?_, ?_, ?_, ?_⟩
  · rw [hnew]
    exact hc.append hl.covered
  · exact fun i hi => (hset i hi).elim (fun hi => hl.mono i (h.settled i hi)) id
  · intro o ho hended
    rw [hnew, List.flatMap_append, List.mem_append]
    rcases hopen o ho hended with ⟨o', ho', hended', hi⟩ | hover | hnow
    · rw [← hi]
      exact (hl.opened o' ho' hended').imp_right Or.inr
    · exact Or.inl hover
    · exact Or.inr (Or.inl hnow)
  · exact fun n hn => (hr n hn).elim (fun hn => hl.mono _ (h.reset n hn)) id
  · rw [hruby]
    exact fun n hn => hl.mono _ (h.ruby n hn)

theorem Ended.quiet (h : Ended s) (hl : Left s t rest) (hnew : t.handler = l ++ rest)
    (hc : Covered (Over t) l)
    (ht : t = { s with
      calls := t.calls, channels := t.channels, handler := t.handler, wakeups := t.wakeups })
    (hr : ∀ n, (t.channels n).resetWanted = true →
      (s.channels n).resetWanted = true ∨ Over t (.stream n)) : Ended t := by
  refine h.works hl hnew hc ?_ ?_ hr (by rw [ht])
  · rw [ht]
    exact fun i hi => Or.inl hi
  · have ho : t.openStreams = s.openStreams := by rw [ht]
    rw [ho]
    exact fun o ho hended => Or.inl ⟨o, ho, hended, rfl⟩

theorem Ended.update (h : Ended s) {k : ℕ} {o : OpenStream} {r : OpenStream × List Micro}
    (hk : s.openStreams.lookup k = some o) (hi : r.1.item = o.item)
    (hl : Left s (s.update k r rest) rest) (hc : Covered (Over s) r.2)
    (he : r.1.responseEnded = true →
      o.responseEnded = true ∨ Over s o.item ∨ o.item ∈ r.2.flatMap Micro.ends) :
    Ended (s.update k r rest) := by
  refine h.works hl rfl (hc.mono hl.mono) (fun i hi => Or.inl hi) ?_ (fun n hn => Or.inl hn) rfl
  intro o' ho' hended
  rcases List.mem_cons.mp ho' with rfl | hold
  · rw [hi]
    rcases he hended with hwas | hover | hnow
    · exact Or.inl ⟨o, Table.mem_values_of_lookup hk, hwas, rfl⟩
    · exact Or.inr (Or.inl (hl.mono _ hover))
    · exact Or.inr (Or.inr hnow)
  · exact Or.inl ⟨o', Table.mem_of_mem_values_erase hold, hended, rfl⟩

/-- A delivery that is turned away finds the response over. -/
theorem over_of_pushIfRoom {q : Tracked} {bytes : Bytes}
    (h : (q.stream.pushChunkIfRoom bytes).1 = none) : isOver q = true := by
  by_contra hq
  obtain ⟨hc, he⟩ := ResponseStreamInner.open_of_not_shut hq
  rcases ResponseStream.pushChunkIfRoom_of_open hc he bytes with hfull | ⟨hok, -⟩
  · rw [hfull] at h
    cases h
  · rw [hok] at h
    cases h

theorem Ended.deliverData (h : Ended s) {k : ℕ} {bytes : Bytes} {endStream : Bool}
    (hh : s.handler = .data k bytes endStream :: rest) :
    Ended (s.deliverData k bytes endStream rest) := by
  unfold State.deliverData
  cases hk : s.openStreams.lookup k with
  | none =>
    exact h.quiet (l := []) (h.left hh (overMono_of_eq rfl rfl) (by rintro _ ⟨⟩)) rfl trivial rfl
      fun n hn => Or.inl hn
  | some o =>
    have hm : OverMono s (s.onQueue (.response o.channel) (·.pushIfRoom bytes)) :=
      overMono_onQueue _ (keeps_pushIfRoom bytes)
    have hu := h.onQueue (.response o.channel) hm
    have hleft : ∀ r, Left (s.onQueue (.response o.channel) (·.pushIfRoom bytes))
        ((s.onQueue (.response o.channel) (·.pushIfRoom bytes)).update k r rest) rest :=
      fun r => hu.left hh (overMono_of_eq rfl rfl) (by rintro _ ⟨⟩)
    dsimp only
    split
    · split
      · exact hu.update hk (stays_finish o).1 (hleft _) ⟨by rintro _ ⟨⟩, trivial⟩
          fun _ => Or.inr (Or.inr List.mem_cons_self)
      · exact hu.quiet (l := []) (hu.left hh (overMono_of_eq rfl rfl) (by rintro _ ⟨⟩)) rfl trivial rfl
          fun n hn => Or.inl hn
    · exact hu.update hk (stays_fail o _).1 (hleft _) (covered_channelFail _ _)
        fun _ => Or.inr (Or.inr (ends_channelFail _ _))
    · rename_i hrefused
      have hover : Over s o.item := over_of_pushIfRoom hrefused
      exact hu.update hk rfl (hleft _) ⟨by rintro _ ⟨⟩, trivial⟩ fun _ => Or.inr (Or.inl (hm _ hover))

theorem Ended.micro (h : Ended s) (hh : s.handler = m :: rest) : Ended (s.micro m rest) := by
  have hneeds : ∀ i ∈ m.needs, Over s i := by
    have hc := h.covered
    rw [hh] at hc
    exact hc.1
  have hsame : ∀ (t : State) (n : ℕ), t.channels = s.channels →
      (t.channels n).resetWanted = true → (s.channels n).resetWanted = true ∨ Over t (.stream n) :=
    fun t n ht hn => Or.inl (ht ▸ hn)
  cases m with
  | push r x =>
    have hm : OverMono s (s.onQueue r (·.push x)) := overMono_onQueue r (keeps_push x)
    have hl : Left s ((s.micro (.push r x) rest)) rest :=
      h.left hh (fun i hi => hm i hi) fun i hi => over_of_ends hi
    refine h.quiet (l := []) hl rfl trivial ?_ ?_
    · cases r <;> rfl
    · exact fun n hn => Or.inl ((onQueue_resetWanted r _ n).symm.trans hn)
  | data k bytes endStream => exact h.deliverData hh
  | stopped k =>
    have hl : ∀ t : State, t.calls = s.calls → t.channels = s.channels → Left s t rest :=
      fun t hc hn => h.left hh (overMono_of_eq hc hn) (by rintro _ ⟨⟩)
    cases hk : s.openStreams.lookup k with
    | none =>
      simp only [State.micro, hk]
      exact h.quiet (l := []) (hl _ rfl rfl) rfl trivial rfl fun n => hsame _ n rfl
    | some o =>
      simp only [State.micro, hk]
      exact h.update hk rfl (hl _ rfl rfl) trivial Or.inl
  | resetStopped o reason =>
    refine h.quiet (h.left hh (overMono_of_eq rfl rfl) (by rintro _ ⟨⟩)) rfl ?_ rfl
      fun n => hsame _ n rfl
    refine (finishes_resetByEnvoy _ reason).close (stays_resetByEnvoy _ reason).1 fun hended => ?_
    have hended' : o.responseEnded = true := hended
    refine hneeds o.item ?_
    rw [Micro.needs, if_pos hended']
    exact List.mem_cons_self
  | setTrailers n trailers =>
    have hm : OverMono s (s.setChannel n ({ · with trailers := some trailers })) :=
      overMono_setChannel n _ fun _ hc => hc
    refine h.quiet (l := []) (h.left hh (fun i hi => hm i hi) (by rintro _ ⟨⟩)) rfl trivial rfl ?_
    intro n' hn'
    rcases resetWanted_setChannel s n n' ({ · with trailers := some trailers }) hn' with
      hold | ⟨rfl, hnow⟩
    · exact Or.inl hold
    · exact Or.inl hnow
  | cancelRequest n =>
    have hm : OverMono s (s.onQueue (.request n) (·.cancel)) := overMono_request n _
    refine h.quiet (l := []) (h.left hh (fun i hi => hm i hi) (by rintro _ ⟨⟩)) rfl trivial rfl ?_
    exact fun n' hn => Or.inl ((onQueue_resetWanted (.request n) _ n').symm.trans hn)
  | wantReset n =>
    have hm : OverMono s (s.setChannel n ({ · with resetWanted := true })) :=
      overMono_setChannel n _ fun _ hc => hc
    refine h.quiet (l := []) (h.left hh (fun i hi => hm i hi) (by rintro _ ⟨⟩)) rfl trivial rfl ?_
    intro n' hn'
    rcases resetWanted_setChannel s n n' ({ · with resetWanted := true }) hn' with hold | ⟨rfl, -⟩
    · exact Or.inl hold
    · exact Or.inr (hm _ (hneeds _ List.mem_cons_self))
  | wake r =>
    exact h.quiet (l := []) (h.left hh (overMono_of_eq rfl rfl) (by rintro _ ⟨⟩)) rfl trivial rfl
      fun n => hsame _ n rfl
  | checkWriter n =>
    have hl : Left s (s.micro (.checkWriter n) rest) rest :=
      h.left hh (overMono_of_eq rfl rfl) (by rintro _ ⟨⟩)
    by_cases hw : (s.channels n).request.stream.writerOwedWakeup = true
    · refine h.quiet (l := [.wake (.request n)]) hl ?_ ⟨by rintro _ ⟨⟩, trivial⟩ rfl
        fun n => hsame _ n rfl
      simp only [State.micro, hw, if_true]
      rfl
    · refine h.quiet (l := []) hl ?_ trivial rfl fun n => hsame _ n rfl
      simp only [State.micro, hw]
      rfl
  | count i cluster outcome =>
    refine h.works (l := []) (h.left hh (overMono_of_eq rfl rfl) (by rintro _ ⟨⟩)) rfl trivial ?_
      (fun o ho hended => Or.inl ⟨o, ho, hended, rfl⟩) (fun n => hsame _ n rfl) rfl
    intro j hj
    rcases List.mem_append.mp hj with hold | hnow
    · exact Or.inl hold
    · rw [List.mem_singleton.mp hnow]
      exact Or.inr (hneeds i List.mem_cons_self)

end Micro

/-! ## `send_upstream_calls` -/

section Outer

variable {o : Outer} {rest : List Outer}

theorem Ended.goesOn (h : Ended s) (hm : OverMono s t) (hh : t.handler = s.handler)
    (hs : t.settled = s.settled) (hc : ∀ n, (t.channels n).resetWanted = (s.channels n).resetWanted)
    (hruby : t.ruby = s.ruby)
    (hopen : ∀ o ∈ t.openStreams.values, o.responseEnded = true →
      ∃ o' ∈ s.openStreams.values, o'.responseEnded = true ∧ o'.item = o.item) : Ended t := by
  refine ⟨?_, ?_, ?_, ?_, ?_⟩
  · rw [hh]
    exact h.covered.mono hm
  · rw [hs]
    exact fun i hi => hm i (h.settled i hi)
  · intro o ho hended
    obtain ⟨o', ho', hended', hi⟩ := hopen o ho hended
    rw [hh, ← hi]
    exact (h.opened o' ho' hended').imp_left (hm _)
  · exact fun n hn => hm _ (h.reset n ((hc n).symm.trans hn))
  · rw [hruby]
    exact fun n hn => hm _ (h.ruby n hn)

theorem opened_insert {k : ℕ} {stream : OpenStream}
    (hnew : stream.responseEnded = true →
      ∃ o' ∈ s.openStreams.values, o'.responseEnded = true ∧ o'.item = stream.item) :
    ∀ o ∈ Table.values (s.openStreams.insert k stream), o.responseEnded = true →
      ∃ o' ∈ s.openStreams.values, o'.responseEnded = true ∧ o'.item = o.item := by
  intro o ho hended
  rcases List.mem_cons.mp ho with rfl | hold
  · exact hnew hended
  · exact ⟨o, Table.mem_of_mem_values_erase hold, hended, rfl⟩

theorem Ended.sendItem (h : Ended s) {k : ℕ} {stream : OpenStream}
    (hk : s.openStreams.lookup k = some stream) (item : Option StreamItem) :
    Ended (s.sendItem k stream rest item) := by
  have hmem := Table.mem_values_of_lookup hk
  unfold State.sendItem
  split
  · exact h.goesOn (overMono_of_eq rfl rfl) rfl rfl (fun _ => rfl) rfl
      fun o ho hended => ⟨o, ho, hended, rfl⟩
  · exact h.goesOn (overMono_of_eq rfl rfl) rfl rfl (fun _ => rfl) rfl
      (opened_insert fun hended => ⟨stream, hmem, hended, rfl⟩)
  · exact h.goesOn (overMono_of_eq rfl rfl) rfl rfl (fun _ => rfl) rfl
      fun o ho hended => ⟨o, ho, hended, rfl⟩

theorem Ended.begins (h : Ended s) (hh : s.handler = []) (hc : Covered (Over s) t.handler)
    (ht : t = { s with handler := t.handler, outer := t.outer }) : Ended t := by
  have hm : OverMono s t := by
    rw [ht]
    exact overMono_of_eq rfl rfl
  refine h.works (h.between hh hm) (List.append_nil _).symm (hc.mono hm) ?_ ?_ ?_ (by rw [ht])
  · rw [ht]
    exact fun i hi => Or.inl hi
  · have ho : t.openStreams = s.openStreams := by rw [ht]
    rw [ho]
    exact fun o ho hended => Or.inl ⟨o, ho, hended, rfl⟩
  · have hn : t.channels = s.channels := by rw [ht]
    rw [hn]
    exact fun n hn => Or.inl hn

/-- **One step of `send_upstream_calls`.** A stream that is skipped was closed. -/
theorem Ended.outerStep (h : Ended s) (hh : s.handler = [])
    (ht : s.outerStep o rest = some t) : Ended t := by
  have hsame : ∀ t : State, t.calls = s.calls → t.channels = s.channels → t.handler = s.handler →
      t.settled = s.settled → t.ruby = s.ruby → t.openStreams = s.openStreams → Ended t := by
    intro t hcalls hchannels hhandler hsettled hruby hopen
    refine h.goesOn (overMono_of_eq hcalls hchannels) hhandler hsettled (fun n => ?_) hruby ?_
    · rw [hchannels]
    · rw [hopen]
      exact fun o ho hended => ⟨o, ho, hended, rfl⟩
  cases o with
  | startStream r =>
    simp only [State.outerStep] at ht
    split at ht
    · rename_i hreset
      cases ht
      refine h.begins hh ⟨fun i hi => ?_, trivial⟩ rfl
      rw [List.mem_singleton.mp hi]
      exact h.reset r.channel hreset
    · cases ht
      exact hsame _ rfl rfl rfl rfl rfl rfl
  | firstItem r =>
    cases ht
    have hm : OverMono s (s.onQueue (.request r.channel) (·.takeNext)) := overMono_request _ _
    exact h.goesOn (fun i hi => hm i hi) rfl rfl (onQueue_resetWanted (.request r.channel) _) rfl
      fun o ho hended => ⟨o, ho, hended, rfl⟩
  | pumpOne k =>
    simp only [State.outerStep] at ht
    split at ht
    · cases ht
      exact hsame _ rfl rfl rfl rfl rfl rfl
    · rename_i stream hk
      split at ht
      · split at ht
        · cases ht
          exact hsame _ rfl rfl rfl rfl rfl rfl
        · cases ht
          exact h.goesOn (overMono_of_eq rfl rfl) rfl rfl (fun _ => rfl) rfl
            (opened_insert fun hended => ⟨stream, Table.mem_values_of_lookup hk, hended, rfl⟩)
      · split at ht <;> cases ht <;> exact hsame _ rfl rfl rfl rfl rfl rfl
  | pumpTake k =>
    simp only [State.outerStep] at ht
    split at ht
    · cases ht
      exact hsame _ rfl rfl rfl rfl rfl rfl
    · rename_i stream hk
      cases ht
      exact (h.onQueue (.request stream.channel) (overMono_request _ _)).sendItem hk _
  | pumpWriter k =>
    simp only [State.outerStep] at ht
    split at ht
    · cases ht
      exact hsame _ rfl rfl rfl rfl rfl rfl
    · cases ht
      refine h.begins hh ?_ rfl
      dsimp only
      split
      · exact ⟨by rintro _ ⟨⟩, trivial⟩
      · trivial
  | inCallout r => cases ht
  | inStart r requestEnded => cases ht
  | pump => cases ht
  | abandon c => cases ht
  | _ =>
    cases ht
    exact hsame _ rfl rfl rfl rfl rfl rfl

/-- What Envoy refuses has failed before it is counted. -/
theorem Ended.envoyReturns (h : Ended s) {result : InitResult} {id : ℕ}
    (ht : s.envoyReturns result id = some t) : Ended t := by
  cases envoyReturns_moves ht with
  | call =>
    exact h.goesOn (overMono_of_eq rfl rfl) rfl rfl (fun _ => rfl) rfl
      fun o ho hended => ⟨o, ho, hended, rfl⟩
  | noCall hh =>
    refine h.begins hh ⟨by rintro _ ⟨⟩, by rintro _ ⟨⟩, fun i hi => ?_, trivial⟩ rfl
    rw [List.mem_singleton.mp hi]
    exact Or.inl (Or.inr List.mem_cons_self)
  | stream =>
    exact h.goesOn (overMono_of_eq rfl rfl) rfl rfl (fun _ => rfl) rfl (opened_insert (by rintro ⟨⟩))
  | noStream hh =>
    refine h.begins hh ?_ rfl
    refine covered_append.mpr ⟨(covered_channelFail _ _).append (covered_wakeStream _), ?_, trivial⟩
    intro i hi
    rw [List.mem_singleton.mp hi]
    exact Or.inr List.mem_cons_self

end Outer

/-! ## The end of the request -/

section Abandon

variable {P : Item → Prop}

theorem covered_abandonCall (c : PendingCall) : Covered P (State.abandonCall c) :=
  ⟨by rintro _ ⟨⟩, by rintro _ ⟨⟩, trivial⟩

theorem covered_abandonQueued (r : UpstreamStreamRequest) : Covered P (State.abandonQueued r) :=
  (covered_channelFail _ _).append (covered_wakeStream _)

theorem covered_abandonOpen {o : OpenStream} (hP : o.responseEnded = true → P o.item) :
    Covered P (State.abandonOpen o) :=
  ((finishes_abandon o).covered.mono fun _ hi => hi.2 ▸ hP hi.1).append (covered_wakeStream _)

theorem ends_abandonCall (c : PendingCall) : c.item ∈ (State.abandonCall c).flatMap Micro.ends :=
  List.mem_cons_self

theorem ends_abandonQueued (r : UpstreamStreamRequest) :
    r.item ∈ (State.abandonQueued r).flatMap Micro.ends := List.mem_cons_self

theorem ends_abandonOpen (o : OpenStream) :
    o.responseEnded = true ∨ o.item ∈ (State.abandonOpen o).flatMap Micro.ends := by
  refine ((finishes_abandon o).ended (finishes_abandon o).done).imp_right fun hmem => ?_
  rw [State.abandonOpen, List.flatMap_append]
  exact List.mem_append_left _ hmem

theorem mem_ends_flatMap {β : Type} {l : List β} {f : β → List Micro} {b : β} (hb : b ∈ l) {i : Item}
    (hi : i ∈ (f b).flatMap Micro.ends) : i ∈ (l.flatMap f).flatMap Micro.ends := by
  rw [List.flatMap_assoc]
  exact List.mem_flatMap.mpr ⟨b, hb, hi⟩

/-- All that is abandoned is failed first, and counted after. -/
theorem covered_abandoned {calls : List PendingCall} {streams : List UpstreamStreamRequest}
    {opened : List OpenStream} (counting : Bool)
    (hP : ∀ o ∈ opened, o.responseEnded = true → P o.item) :
    Covered P (calls.flatMap State.abandonCall ++ streams.flatMap State.abandonQueued ++
      opened.flatMap State.abandonOpen ++
      (if counting then
        calls.map (fun c => Micro.count c.item c.cluster .Abandoned) ++
          streams.map (fun r => Micro.count r.item r.cluster .Abandoned) ++
          opened.map (fun o => Micro.count o.item o.cluster o.abandon.1.counted)
        else [])) := by
  refine covered_append.mpr ⟨?_, ?_⟩
  · refine Covered.append (Covered.append ?_ ?_) ?_
    · exact covered_flatMap fun c _ => covered_abandonCall c
    · exact covered_flatMap fun r _ => covered_abandonQueued r
    · exact covered_flatMap fun o ho => covered_abandonOpen (hP o ho)
  · cases counting with
    | false => trivial
    | true =>
      simp only [List.flatMap_append, List.mem_append]
      refine Covered.append (Covered.append ?_ ?_) ?_
      · exact covered_count fun c hc =>
          Or.inr (Or.inl (Or.inl (mem_ends_flatMap hc (ends_abandonCall c))))
      · exact covered_count fun r hr =>
          Or.inr (Or.inl (Or.inr (mem_ends_flatMap hr (ends_abandonQueued r))))
      · refine covered_count fun o ho => ?_
        exact (ends_abandonOpen o).imp (hP o ho) fun hi => Or.inr (mem_ends_flatMap ho hi)

theorem Ended.ordered (h : Ended s) {calls handles : List ℕ}
    (ht : s.ordered calls handles = some t) : Ended t := by
  cases ordered_moves ht with
  | pump =>
    exact h.goesOn (overMono_of_eq rfl rfl) rfl rfl (fun _ => rfl) rfl
      fun o ho hended => ⟨o, ho, hended, rfl⟩
  | @abandon counting rest hh _ _ hp =>
    have hm : OverMono s (s.abandonUpstreams counting rest calls handles) :=
      overMono_of_eq rfl rfl
    refine h.works (h.between hh hm) (List.append_nil _).symm ?_ (fun i hi => Or.inl hi) (by rintro _ ⟨⟩)
      (fun n hn => Or.inl hn) rfl
    refine covered_abandoned counting fun o ho hended => ?_
    exact hm _ (h.isOver hh ((Table.pick_perm hp).mem_iff.mp ho) hended)

end Abandon

/-! ## The callbacks -/

/-- Every answer of a call ends its response. -/
theorem exists_terminal_deliver (result : CalloutResult) (headers : Option Headers)
    (body : Option (List Bytes)) (limit : ℕ) :
    ∃ x ∈ (deliver result headers body limit).1, x.terminal = true := by
  unfold deliver
  dsimp only
  split
  · exact ⟨.End, List.mem_append_right _ List.mem_cons_self, rfl⟩
  · exact ⟨.Failed _, List.mem_cons_self, rfl⟩

theorem covered_pushes {P : Item → Prop} (n : ℕ) (items : List StreamItem) :
    Covered P (items.map (.push (.call n))) := by
  induction items generalizing P with
  | nil => trivial
  | cons x items ih => exact ⟨by rintro _ ⟨⟩, ih⟩

theorem Ended.calloutDone (h : Ended s) (hh : s.handler = []) (id : ℕ) (result : CalloutResult)
    (headers : Option Headers) (body : Option (List Bytes)) :
    Ended (s.onHttpCalloutDone id result headers body) := by
  unfold State.onHttpCalloutDone
  cases hk : s.inFlight.lookup id with
  | none => exact h
  | some call =>
    refine h.works (h.between hh (overMono_of_eq rfl rfl)) (List.append_nil _).symm ?_
      (fun i hi => Or.inl hi) (fun o ho hended => Or.inl ⟨o, ho, hended, rfl⟩)
      (fun n hn => Or.inl hn) rfl
    refine covered_append.mpr ⟨covered_pushes _ _, fun i hi => ?_, by rintro _ ⟨⟩, trivial⟩
    rw [List.mem_singleton.mp hi]
    obtain ⟨x, hx, hterminal⟩ := exists_terminal_deliver result headers body
      s.config.settings.maxResponseBytes
    refine Or.inr (List.mem_flatMap.mpr ⟨_, List.mem_map_of_mem hx, ?_⟩)
    rw [Micro.ends, if_pos hterminal]
    exact List.mem_cons_self

theorem Ended.onOpenStream (h : Ended s) (hh : s.handler = []) {k : ℕ}
    {f : OpenStream → OpenStream × List Micro} (hf : ∀ o, EndsWell o (f o))
    (hs : ∀ o, Stays o (f o)) : Ended (s.onOpenStream k f) := by
  unfold State.onOpenStream
  cases hk : s.openStreams.lookup k with
  | none => exact h
  | some o =>
    have hmem := Table.mem_values_of_lookup hk
    refine h.works (h.between hh (overMono_of_eq rfl rfl)) (List.append_nil _).symm ?_
      (fun i hi => Or.inl hi) ?_ (fun n hn => Or.inl hn) rfl
    · refine Covered.append ((hf o).covered.mono fun i hi => ?_) (covered_wakeStream _)
      rw [hi.2]
      exact h.isOver hh hmem hi.1
    · intro o' ho' hended
      rcases List.mem_cons.mp ho' with rfl | hold
      · rw [(hs o).1]
        rcases (hf o).ended hended with hwas | hnow
        · exact Or.inl ⟨o, hmem, hwas, rfl⟩
        · refine Or.inr (Or.inr ?_)
          show o.item ∈ ((f o).2 ++ wakeStream o.channel).flatMap Micro.ends
          rw [List.flatMap_append]
          exact List.mem_append_left _ hnow
      · exact Or.inl ⟨o', Table.mem_of_mem_values_erase hold, hended, rfl⟩

theorem Ended.onFinished (h : Ended s) (hh : s.handler = []) {k : ℕ} {f : OpenStream → List Micro}
    (hf : ∀ o, (o.responseEnded = true → Over s o.item) → Covered (Over s) (f o)) :
    Ended (s.onFinished k f) := by
  unfold State.onFinished
  cases hk : s.openStreams.lookup k with
  | none => exact h
  | some o =>
    refine h.works (h.between hh (overMono_of_eq rfl rfl)) (List.append_nil _).symm ?_
      (fun i hi => Or.inl hi) ?_ (fun n hn => Or.inl hn) rfl
    · exact (hf o fun hended => h.isOver hh (Table.mem_values_of_lookup hk) hended).mono
        (overMono_of_eq rfl rfl)
    · exact fun o' ho' hended => Or.inl ⟨o', Table.mem_of_mem_values_erase ho', hended, rfl⟩

/-! ## The fibers -/

theorem over_cancel (s : State) (n : ℕ) : Over (s.onQueue (.response n) (·.cancel)) (.stream n) := by
  rw [Over, State.response, State.onQueue, setChannel_channels, if_pos rfl]
  rfl

/-- The flag of a channel is raised by the Ruby thread once its response is cancelled. -/
theorem Ended.closing (h : Ended s) (n : ℕ) :
    Ended { s.onQueue (.response n) (·.cancel) with ruby := .closeRequest n } := by
  have hm : OverMono s (s.onQueue (.response n) (·.cancel)) := overMono_onQueue _ keeps_cancel
  refine h.beside (fun i hi => hm i hi) rfl rfl rfl ?_ ?_
  · exact fun n' hn => Or.inl ((onQueue_resetWanted (.response n) _ n').symm.trans hn)
  · rintro n' (hn | hn) <;> cases hn
    exact Or.inr (over_cancel s n)

theorem Ended.queue (h : Ended s) (cluster : String) (headers : Fields) (body : Bytes)
    (timeout : ℕ) : Ended (s.queue cluster headers body timeout) := by
  simp only [State.queue]
  split <;>
    exact h.beside (overMono_of_eq rfl rfl) rfl rfl rfl (fun n hn => Or.inl hn) fun n hn => Or.inl hn

theorem Ended.queueStream (h : Ended s) (cluster : String) (headers : Fields) (timeout : ℕ)
    (hasBody : Bool) : Ended (s.queueStream cluster headers timeout hasBody) := by
  have hopened : Ended (if hasBody then s else
      s.onQueue (.request s.nextChannel) (·.push .End)) := by
    split
    · exact h
    · exact h.onQueue _ (overMono_request _ _)
  simp only [State.queueStream]
  split <;>
    exact hopened.beside (overMono_of_eq rfl rfl) rfl rfl rfl (fun n hn => Or.inl hn)
      fun n hn => Or.inl hn

theorem Ended.fiber (h : Ended s) {op : FiberOp} (ht : s.fiber op = some t) : Ended t := by
  cases op with
  | take r =>
    simp only [State.fiber, Option.ite_none_right_eq_some, Option.some.injEq] at ht
    obtain ⟨-, rfl⟩ := ht
    exact h.onQueue r (overMono_onQueue r keeps_takeNext)
  | park r v =>
    simp only [State.fiber, Option.ite_none_right_eq_some, Option.some.injEq] at ht
    obtain ⟨-, rfl⟩ := ht
    exact h.onQueue r (overMono_onQueue r (keeps_park v))
  | unpark r =>
    cases ht
    exact h.onQueue r (overMono_onQueue r keeps_unpark)
  | write n bytes => cases ht; exact h.onQueue _ (overMono_request n _)
  | finish n => cases ht; exact h.onQueue _ (overMono_request n _)
  | parkWriter n v => cases ht; exact h.onQueue _ (overMono_request n _)
  | close n => cases ht; exact h.closing n
  | timeOut n =>
    cases ht
    have hm : OverMono s (s.setChannel n ({ · with timedOut := true })) :=
      overMono_setChannel n _ fun _ hc => hc
    refine h.beside (fun i hi => hm i hi) rfl rfl rfl ?_ ?_
    · intro n' hn'
      rcases resetWanted_setChannel s n n' ({ · with timedOut := true }) hn' with hold | ⟨rfl, hnow⟩
      · exact Or.inl hold
      · exact Or.inl hnow
    · rintro n' (hn | hn) <;> cases hn

theorem Ended.rubyStep (h : Ended s) (ht : s.rubyStep = some t) : Ended t := by
  cases rubyStep_moves ht with
  | response => exact h.closing _
  | @request n hruby =>
    have hm : OverMono s (s.onQueue (.request n) (·.cancel)) := overMono_request n _
    refine h.beside (fun i hi => hm i hi) rfl rfl rfl ?_ ?_
    · exact fun n' hn => Or.inl ((onQueue_resetWanted (.request n) _ n').symm.trans hn)
    · rintro n' (hn | hn) <;> cases hn
      exact Or.inl (Or.inl hruby)
  | @reset n hruby =>
    have hm : OverMono s (s.setChannel n ({ · with resetWanted := true })) :=
      overMono_setChannel n _ fun _ hc => hc
    refine h.beside (fun i hi => hm i hi) rfl rfl rfl ?_ ?_
    · intro n' hn'
      rcases resetWanted_setChannel s n n' ({ · with resetWanted := true }) hn' with hold | ⟨rfl, -⟩
      · exact Or.inl hold
      · exact Or.inr (hm _ (h.ruby n' (Or.inr hruby)))
    · rintro n' (hn | hn) <;> cases hn

/-! ## Every step -/

/-- **Every step keeps the responses ended.** -/
theorem Ended.step {a : Action} (h : Ended s) (ht : step s a = some t) : Ended t := by
  cases step_moves ht with
  | queue _ cluster headers body timeout => exact h.queue cluster headers body timeout
  | queueStream _ cluster headers timeout hasBody =>
    exact h.queueStream cluster headers timeout hasBody
  | fiber _ ht => exact h.fiber ht
  | ruby ht => exact h.rubyStep ht
  | event | complete | drop | takeWakeups =>
    exact h.beside (overMono_of_eq rfl rfl) rfl rfl rfl (fun n hn => Or.inl hn) fun n hn => Or.inl hn
  | @calloutDone id hc _ _ result headers body =>
    have hd := h.calloutDone (callable_handler hc) id result headers body
    exact hd.beside (overMono_of_eq rfl rfl) rfl rfl rfl (fun n hn => Or.inl hn)
      fun n hn => Or.inl hn
  | streamHeaders hr headers endStream =>
    exact h.onOpenStream (callable_handler (reports_callable hr))
      (endsWell_headersArrived · headers endStream) (stays_headersArrived · headers endStream)
  | @streamData k hr data endStream =>
    exact h.onOpenStream (callable_handler (reports_callable hr))
      (endsWell_dataArrived · k data endStream) (stays_dataArrived · k data endStream)
  | streamTrailers hr trailers =>
    exact h.onOpenStream (callable_handler (reports_callable hr))
      (endsWell_trailersArrived · trailers) (stays_trailersArrived · trailers)
  | @streamComplete k hr =>
    have hd := h.onFinished (k := k) (callable_handler (reports_callable hr))
      fun o hP => (finishes_completed o).close (stays_completed o).1 hP
    exact hd.beside (overMono_of_eq rfl rfl) rfl rfl rfl (fun n hn => Or.inl hn)
      fun n hn => Or.inl hn
  | @streamReset k hr reason =>
    have hd := h.onFinished (k := k) (callable_handler (reports_callable hr))
      fun o hP => covered_onReset o reason hP
    exact hd.beside (overMono_of_eq rfl rfl) rfl rfl rfl (fun n hn => Or.inl hn)
      fun n hn => Or.inl hn
  | micro hh => exact h.micro hh
  | outerStep hh _ ht => exact h.outerStep hh ht
  | returns ht => exact h.envoyReturns ht
  | order ht => exact h.ordered ht
  | @resolve r =>
    exact (h.onQueue r (overMono_onQueue r keeps_unpark)).beside (overMono_of_eq rfl rfl) rfl rfl rfl
      (fun n hn => Or.inl hn) fun n hn => Or.inl hn

theorem Ended.of_reachable (hr : system.Reachable s) : Ended s :=
  hr.induct (by rintro _ ⟨config, rfl⟩; exact Ended.init config) fun _ _ _ h _ ht => h.step ht

end Ruvoy.Upstream
