import Ruvoy.Input.Model

/-!
# Rack input behaves like a reader over the whole body

* `Memory.call`, `Memory.replay`: a reader that holds the complete body, and what a sequence of calls
  returns on it;
* `Kept`: what was pulled is kept, in memory or in the file, and is a beginning of the body;
* `search_spec`: the search by windows finds the first separator;
* `InputInv`: the calls that returned agree with the reader in memory, and the one in progress is on its
  way to do so;
* **`input_reads_body`**: they agree in every run, and every call returns.
-/

set_option autoImplicit false

namespace Ruvoy.Input

open Runs
open Exchange (Gate)
open Search

/-! ## The reader in memory -/

namespace Memory

/-- A call on a reader that holds `body`: what it returns, and the new position. -/
def call (body : Bytes) (position : ℕ) : Call → Value × ℕ
  | .read none => (.str (body.drop position), body.length)
  | .read (some length) =>
    if length = 0 then (.str [], position)
    else if body.length ≤ position then (.nil, position)
    else (.str ((body.drop position).take length), min (position + length) body.length)
  | .gets none =>
    if body.length ≤ position then (.nil, position) else (.str (body.drop position), body.length)
  | .gets (some separator) =>
    if body.length ≤ position then (.nil, position)
    else match index (body.drop position) separator with
      | some i =>
        (.str ((body.drop position).take (i + separator.length)), position + (i + separator.length))
      | none => (.str (body.drop position), body.length)
  | .each => (.yielded (pieces readSize (body.drop position)), body.length)
  | .rewind => (.zero, 0)

/-- What a sequence of calls returns, and where the reader is then. -/
def replay (body : Bytes) (calls : List Call) : List Value × ℕ :=
  calls.foldl (fun r c => (r.1 ++ [(call body r.2 c).1], (call body r.2 c).2)) ([], 0)

theorem replay_concat (body : Bytes) (calls : List Call) (c : Call) :
    replay body (calls ++ [c]) =
      ((replay body calls).1 ++ [(call body (replay body calls).2 c).1],
        (call body (replay body calls).2 c).2) := by
  rw [replay, List.foldl_append]
  rfl

end Memory

/-! ## What is kept -/

def Storage.contents : Storage → Bytes
  | .memory kept => kept
  | .file written => written

theorem Storage.slice_eq (st : Storage) (offset length : ℕ) :
    st.slice offset length = (st.contents.drop offset).take length := by
  cases st <;> rfl

/-- What is kept of the body. -/
def RequestBody.contents (b : RequestBody) : Bytes := b.storage.contents

theorem peek_eq {b : RequestBody} (h : b.size = b.contents.length) (offset length : ℕ) :
    b.peek offset length = (b.contents.drop offset).take length := by
  unfold RequestBody.peek
  split_ifs with hpos
  · rw [Storage.slice_eq, h]
    show (b.contents.drop offset).take _ = _
    rw [← List.length_drop, ← List.take_eq_take_min]
  · rw [h] at hpos
    rcases Nat.eq_zero_or_pos length with h0 | h0
    · rw [h0, List.take_zero]
    · rw [List.drop_eq_nil_of_le (by omega), List.take_nil]

theorem keep_contents (b : RequestBody) (chunk : Bytes) :
    (b.keep chunk).contents = b.contents ++ chunk := by
  obtain ⟨storage, size, position⟩ := b
  cases storage with
  | memory kept =>
    simp only [RequestBody.keep, RequestBody.contents]
    split_ifs <;> rfl
  | file written => rfl

/-- The queue has the body as far as it arrived, and the object keeps what was pulled. -/
structure Kept (body : Bytes) (s : State) : Prop where
  uncancelled : s.source.stream.cancelled = false
  unpaused : s.source.stream.paused = false
  whole : bodyOf s.source.accepted ++ s.arriving.flatten = body
  kinds : ∀ x ∈ s.source.accepted, x = .End ∨ ∃ chunk, x = .Chunk chunk
  ended : s.source.stream.ended = true → s.arriving = []
  contents : s.body.contents = bodyOf s.source.taken
  size : s.body.size = s.body.contents.length
  position : s.body.position ≤ s.body.size

variable {body : Bytes} {s t : State}

theorem Kept.init (chunks : List Bytes) (budget : ℕ) :
    Kept chunks.flatten { source := Tracked.new budget, arriving := chunks } where
  uncancelled := rfl
  unpaused := rfl
  whole := rfl
  kinds := by rintro _ ⟨⟩
  ended := by rintro ⟨⟩
  contents := rfl
  size := rfl
  position := le_rfl

namespace Kept

/-- What is kept is a beginning of the body. -/
theorem beginning (h : Kept body s) : s.body.contents <+: body := by
  obtain ⟨rest, hrest⟩ := Tracked.taken_prefix (t := s.source)
  refine ⟨bodyOf rest ++ s.arriving.flatten, ?_⟩
  rw [h.contents, ← h.whole, ← hrest, bodyOf_append, List.append_assoc]

/-- **A finished queue has given up everything.** -/
theorem contents_of_finished (h : Kept body s) (hf : s.finished = true) : s.body.contents = body := by
  have hf' : (s.source.stream.cancelled || (s.source.stream.ended && s.source.stream.bufferedBytes == 0)) =
    true := hf
  rw [h.uncancelled, Bool.false_or, Bool.and_eq_true, beq_iff_eq] at hf'
  obtain ⟨hend, hbytes⟩ := hf'
  have hitems := Tracked.body_nil_of_bytes hbytes
  have hall := congrArg bodyOf (Tracked.conserve h.uncancelled)
  rw [bodyOf_append, hitems, List.append_nil] at hall
  rw [h.contents, hall, ← h.whole, h.ended hend]
  exact (List.append_nil _).symm

theorem unread_eq (h : Kept body s) :
    s.body.unread = (s.body.contents.drop s.body.position).length := by
  rw [List.length_drop, ← h.size]
  rfl

/-- What is handed out of what is kept is what the body has there, as far as it was waited for. -/
theorem take_of_enough (h : Kept body s) {n : ℕ} (hn : n ≤ s.body.unread ∨ s.body.contents = body) :
    (s.body.contents.drop s.body.position).take n = (body.drop s.body.position).take n ∧
      min n s.body.unread = min n (body.length - s.body.position) := by
  obtain ⟨more, hmore⟩ := h.beginning
  have hp := h.position
  have hs := h.size
  rcases hn with hn | hn
  · have hlen : n ≤ (s.body.contents.drop s.body.position).length := by rwa [← h.unread_eq]
    constructor
    · rw [← hmore, List.drop_append_of_le_length (by omega), List.take_append_of_le_length hlen]
    · rw [← hmore, List.length_append, ← hs]
      unfold RequestBody.unread at hn ⊢
      omega
  · refine ⟨by rw [hn], ?_⟩
    rw [← hn, ← hs]
    rfl

theorem take_fst (h : Kept body s) (length : ℕ) :
    (s.body.take length).1 = (s.body.contents.drop s.body.position).take length :=
  peek_eq h.size _ _

theorem take_position (h : Kept body s) (length : ℕ) :
    (s.body.take length).2.position = s.body.position + min length s.body.unread := by
  show s.body.position + (s.body.take length).1.length = _
  rw [h.take_fst, List.length_take, h.unread_eq]

theorem move (h : Kept body s) (hq : t.source = s.source) (ha : t.arriving = s.arriving)
    (hs : t.body = { s.body with position := t.body.position })
    (hp : t.body.position ≤ s.body.size) : Kept body t where
  uncancelled := hq ▸ h.uncancelled
  unpaused := hq ▸ h.unpaused
  whole := by rw [hq, ha]; exact h.whole
  kinds := hq ▸ h.kinds
  ended := by rw [hq, ha]; exact h.ended
  contents := by rw [hs, hq]; exact h.contents
  size := by rw [hs]; exact h.size
  position := by rw [hs]; exact hp

theorem take_le (h : Kept body s) (length : ℕ) : (s.body.take length).2.position ≤ s.body.size := by
  rw [h.take_position]
  have := h.position
  unfold RequestBody.unread
  omega

theorem same (h : Kept body s) (hq : t.source.Same s.source) (ha : t.arriving = s.arriving)
    (hb : t.body = s.body) : Kept body t where
  uncancelled := hq.cancelled.trans h.uncancelled
  unpaused := hq.paused.trans h.unpaused
  whole := by rw [hq.accepted, ha]; exact h.whole
  kinds := by rw [hq.accepted]; exact h.kinds
  ended := by rw [hq.ended, ha]; exact h.ended
  contents := by rw [hb, hq.taken]; exact h.contents
  size := hb ▸ h.size
  position := hb ▸ h.position

theorem pulled (h : Kept body s) {x : StreamItem} {rest : List StreamItem}
    (htaken : s.source.takeNext.taken = s.source.taken ++ [x])
    (hin : s.source.takeNext.stream.inner = s.source.stream.inner.tail x rest)
    (hq : t.source = s.source.takeNext) (ha : t.arriving = s.arriving)
    (hc : t.body.contents = s.body.contents ++ x.bytes) (hs : t.body.size = t.body.contents.length)
    (hp : t.body.position ≤ t.body.size) : Kept body t where
  uncancelled := by rw [hq, hin]; exact h.uncancelled
  unpaused := by rw [hq, hin]; exact h.unpaused
  whole := by rw [hq, ha]; exact h.whole
  kinds := by rw [hq]; exact h.kinds
  ended := by rw [hq, ha, hin]; exact h.ended
  contents := by
    rw [hc, h.contents, hq, htaken, bodyOf_append]
    simp only [bodyOf_cons, bodyOf_nil, List.append_nil]
  size := hs
  position := hp

theorem pushed (h : Kept body s) {x : StreamItem} {rest : List Bytes}
    (hx : x = .End ∧ s.arriving = [] ∧ rest = [] ∨
      ∃ chunk, x = .Chunk chunk ∧ s.arriving = chunk :: rest) :
    Kept body { s with source := s.source.push x, arriving := rest } := by
  have hbytes : x.bytes ++ rest.flatten = s.arriving.flatten := by
    rcases hx with ⟨rfl, hnil, rfl⟩ | ⟨chunk, rfl, hcons⟩
    · rw [hnil]
      rfl
    · rw [hcons]
      rfl
  rcases s.source.push_cases x with ⟨hshut, hq⟩ | ⟨hc, he, ha, ht, hin⟩
  · -- the queue has ended, so nothing was left to arrive
    rw [h.uncancelled, Bool.false_or] at hshut
    have hnil := h.ended hshut
    rcases hx with ⟨-, -, rfl⟩ | ⟨chunk, -, hcons⟩
    · rw [hq]
      exact ⟨h.uncancelled, h.unpaused, by rw [← hnil]; exact h.whole, h.kinds, fun _ => rfl, h.contents,
        h.size, h.position⟩
    · rw [hnil] at hcons
      cases hcons
  · refine ⟨?_, ?_, ?_, ?_, ?_, ?_, h.size, h.position⟩
    · rw [hin]
      exact h.uncancelled
    · rw [hin]
      exact h.unpaused
    · show bodyOf (s.source.push x).accepted ++ rest.flatten = body
      rw [ha, bodyOf_append, List.append_assoc]
      simp only [bodyOf_cons, bodyOf_nil, List.append_nil]
      rw [hbytes]
      exact h.whole
    · show ∀ y ∈ (s.source.push x).accepted, _
      rw [ha]
      intro y hy
      rcases List.mem_append.mp hy with hy | hy
      · exact h.kinds y hy
      · rw [List.mem_singleton.mp hy]
        rcases hx with ⟨rfl, -⟩ | ⟨chunk, rfl, -⟩
        · exact Or.inl rfl
        · exact Or.inr ⟨chunk, rfl⟩
    · intro hend
      rw [hin] at hend
      rcases hx with ⟨-, -, rfl⟩ | ⟨chunk, rfl, -⟩
      · rfl
      · cases hend
    · show s.body.contents = bodyOf (s.source.push x).taken
      rw [ht]
      exact h.contents

/-! ### Whatever is called -/

theorem conclude (h : Kept body s) (c : Call) (v : Value) : Kept body (s.conclude c v) :=
  h.move rfl rfl rfl h.position

theorem hand (h : Kept body s) (c : Call) (length : ℕ) : Kept body (s.hand c length) :=
  h.move rfl rfl rfl (h.take_le length)

theorem answer (h : Kept body s) (found : Option ℕ) (f : Filling) : Kept body (s.answer found f) := by
  cases f with
  | readAll => exact h.hand _ _
  | read n | getsAll | gets sep start =>
    simp only [State.answer]
    split_ifs
    · exact h.conclude _ _
    · exact h.hand _ _
  | each yielded =>
    simp only [State.answer]
    split_ifs
    · exact h.conclude _ _
    · exact h.move rfl rfl rfl (h.take_le _)

theorem enter (h : Kept body s) (f : Filling) (g : Gate) : Kept body (s.enter f g) :=
  h.move rfl rfl rfl h.position

theorem check (h : Kept body s) (f : Filling) : Kept body (s.check f) := by
  cases f with
  | readAll | getsAll | read n | each yielded =>
    simp only [State.check]
    split_ifs
    · exact h.answer _ _
    · exact h.enter _ _
  | gets sep start =>
    simp only [State.check]
    split_ifs
    · exact h.answer _ (.gets sep _)
    · exact h.enter _ _

/-- **One round of the loop that pulls** keeps what it pulls. -/
theorem pull (h : Kept body s) (f : Filling) : Kept body (s.pull f) := by
  rcases s.source.takeNext_cases with ⟨-, hnone, hq⟩ | ⟨x, rest, hi, hsome, -, htaken, hin⟩
  · simp only [State.pull, hnone, hq]
    exact h.enter f .check
  · have hx : x ∈ s.source.accepted := by
      rw [← Tracked.conserve h.uncancelled, hi]
      exact List.mem_append_right _ List.mem_cons_self
    rcases h.kinds x hx with rfl | ⟨chunk, rfl⟩
    · simp only [State.pull, hsome]
      exact h.pulled htaken hin rfl rfl (List.append_nil _).symm h.size h.position
    · simp only [State.pull, hsome]
      have hsize : (s.body.keep chunk).size = (s.body.keep chunk).contents.length := by
        rw [keep_contents, List.length_append, ← h.size]
        rfl
      exact h.pulled htaken hin rfl rfl (keep_contents _ _) hsize
        (Nat.le_trans h.position (Nat.le_add_right _ _))

theorem next (h : Kept body s) (ht : s.next = some t) : Kept body t := by
  unfold State.next at ht
  split at ht
  · cases ht
    exact h.pull _
  · cases ht
    exact h.check _
  · cases ht
    exact h.same (s.source.same_park _) rfl rfl
  · cases ht
    exact h.same s.source.same_unpark rfl rfl
  · cases ht
  · cases ht

theorem begin (h : Kept body s) (c : Call) : Kept body (s.begin c) := by
  cases c with
  | read length =>
    cases length with
    | none => exact h.enter _ _
    | some n =>
      simp only [State.begin]
      split_ifs
      · exact h.conclude _ _
      · exact h.enter _ _
  | gets separator => cases separator <;> exact h.enter _ _
  | each => exact h.enter _ _
  | rewind => exact h.move rfl rfl rfl (Nat.zero_le _)

/-- **Every step keeps what was pulled**, whatever is called. -/
theorem step {a : Action} (h : Kept body s) (ht : Input.step s a = some t) : Kept body t := by
  cases a with
  | call c =>
    simp only [Input.step, Option.ite_none_right_eq_some, Option.some.injEq] at ht
    obtain ⟨-, rfl⟩ := ht
    exact h.begin c
  | next => exact h.next ht
  | wake =>
    simp only [Input.step] at ht
    split at ht
    · cases ht
      exact h.enter _ _
    · cases ht
  | push =>
    simp only [Input.step] at ht
    split at ht
    · rename_i chunk rest harr
      cases ht
      exact h.pushed (Or.inr ⟨chunk, rfl, harr⟩)
    · cases ht
  | finish =>
    simp only [Input.step] at ht
    split at ht
    · rename_i harr
      cases ht
      have hk : Kept body { s with source := s.source.push .End, arriving := [] } :=
        h.pushed (Or.inl ⟨rfl, harr, rfl⟩)
      rwa [← harr] at hk
    · cases ht

end Kept

/-! ## The search -/

theorem readSize_pos : 0 < readSize := by decide

/-- The windows overlap by one less than the separator, so one that straddles two is seen. -/
theorem searchIn_spec {b : RequestBody} (hb : b.size = b.contents.length) {sep : Bytes} (hs : sep ≠ [])
    {windows : ℕ} : ∀ {start : ℕ}, b.size ≤ start + windows →
      (∀ i, b.searchIn sep windows start = some i → First sep b.contents start i) ∧
        (b.searchIn sep windows start = none → ∀ j, start ≤ j → ¬ Occurs sep b.contents j) := by
  have hpos := List.length_pos_iff.mpr hs
  have hbehind : ∀ {start : ℕ}, b.size ≤ start → ∀ j, start ≤ j → ¬ Occurs sep b.contents j := by
    intro start hle j hj ho
    have := ho.add_le hs
    omega
  induction windows with
  | zero =>
    intro start hle
    exact ⟨by rintro _ ⟨⟩, fun _ => hbehind (by omega)⟩
  | succ windows ih =>
    intro start hle
    rw [RequestBody.searchIn]
    by_cases hlt : start < b.size
    · rw [if_pos hlt, peek_eq hb]
      cases hfound : index ((b.contents.drop start).take (readSize + sep.length - 1)) sep with
      | some k =>
        have hfirst := (index_eq_some_iff hs).mp hfound
        have hk := hfirst.occurs.add_le hs
        have hlen := List.length_take_le (readSize + sep.length - 1) (b.contents.drop start)
        refine ⟨fun i hi => ?_, by rintro ⟨⟩⟩
        cases hi
        refine ⟨Nat.le_add_right _ _, (occurs_window (by omega)).mp hfirst.occurs, fun j hj hjk => ?_⟩
        obtain ⟨d, rfl⟩ := Nat.exists_eq_add_of_le hj
        rw [← occurs_window (n := readSize + sep.length - 1) (by omega)]
        exact hfirst.least d (Nat.zero_le d) (by omega)
      | none =>
        have hnone := (index_eq_none_iff hs).mp hfound
        have hwindow : ∀ j, start ≤ j → j < start + readSize → ¬ Occurs sep b.contents j := by
          intro j hj hjr
          obtain ⟨d, rfl⟩ := Nat.exists_eq_add_of_le hj
          rw [← occurs_window (n := readSize + sep.length - 1) (by omega)]
          exact hnone d
        have hr := readSize_pos
        have hnext : b.size ≤ start + readSize + windows := by omega
        obtain ⟨hsome, hno⟩ := ih hnext
        refine ⟨fun i hi => ?_, fun hi j hj => ?_⟩
        · have hfirst := hsome i hi
          refine ⟨by have := hfirst.le; omega, hfirst.occurs, fun j hj hji => ?_⟩
          rcases Nat.lt_or_ge j (start + readSize) with hjr | hjr
          · exact hwindow j hj hjr
          · exact hfirst.least j hjr hji
        · rcases Nat.lt_or_ge j (start + readSize) with hjr | hjr
          · exact hwindow j hj hjr
          · exact hno hi j hjr
    · rw [if_neg hlt]
      exact ⟨by rintro _ ⟨⟩, fun _ => hbehind (by omega)⟩

/-- **The search finds the first separator among the bytes kept.** -/
theorem search_spec {b : RequestBody} (hb : b.size = b.contents.length) {sep : Bytes} (hs : sep ≠ [])
    (start : ℕ) : (∀ i, b.search sep start = some i → First sep b.contents start i) ∧
      (b.search sep start = none → ∀ j, start ≤ j → ¬ Occurs sep b.contents j) :=
  searchIn_spec hb hs (by omega)

/-! ## The calls -/

/-- Where the reader in memory is after the calls that returned. -/
def State.mark (s : State) (body : Bytes) : ℕ := (Memory.replay body (s.log.map Prod.fst)).2

/-- A call in progress that began at `mark`: `each` has yielded the pieces up to the position, and a
search has left no separator behind it that lies within the bytes kept. -/
def Filling.Going (body : Bytes) (b : RequestBody) (mark : ℕ) : Filling → Prop
  | .readAll | .getsAll => b.position = mark
  | .read length => b.position = mark ∧ 0 < length
  | .gets separator start => b.position = mark ∧ separator ≠ [] ∧ mark ≤ start ∧
    ∀ i, mark ≤ i → i < start → i + separator.length ≤ b.size ∧ ¬ Occurs separator b.contents i
  | .each yielded =>
    yielded ++ pieces readSize (body.drop b.position) = pieces readSize (body.drop mark)

structure InputInv (body : Bytes) (s : State) : Prop where
  kept : Kept body s
  log : (Memory.replay body (s.log.map Prod.fst)).1 = s.log.map Prod.snd
  idle : s.place = none → s.body.position = s.mark body
  going : ∀ f g, s.place = some (f, g) → f.Going body s.body (s.mark body)

/-- Separators are not empty. -/
def proper : Action → Bool
  | .call (.gets (some separator)) => !separator.isEmpty
  | _ => true

theorem InputInv.init (chunks : List Bytes) (budget : ℕ) :
    InputInv chunks.flatten { source := Tracked.new budget, arriving := chunks } where
  kept := .init chunks budget
  log := rfl
  idle _ := rfl
  going := by rintro _ _ ⟨⟩

namespace InputInv

theorem enter (h : InputInv body s) {f : Filling} {g : Gate} (hk : Kept body t) (hl : t.log = s.log)
    (hp : t.place = some (f, g)) (hf : f.Going body t.body (s.mark body)) : InputInv body t where
  kept := hk
  log := by rw [hl]; exact h.log
  idle hn := by rw [hp] at hn; cases hn
  going f' g' h' := by
    rw [hp] at h'
    cases h'
    have hm : t.mark body = s.mark body := by
      unfold State.mark
      rw [hl]
    rw [hm]
    exact hf

theorem conclude (h : InputInv body s) {c : Call} {v : Value} (hk : Kept body t)
    (hl : t.log = s.log ++ [(c, v)]) (hp : t.place = none)
    (hc : Memory.call body (s.mark body) c = (v, t.body.position)) : InputInv body t := by
  have hreplay : Memory.replay body (t.log.map Prod.fst) =
      ((Memory.replay body (s.log.map Prod.fst)).1 ++ [v], t.body.position) := by
    rw [hl, List.map_append, List.map_singleton, Memory.replay_concat]
    show (_ ++ [(Memory.call body (s.mark body) c).1], (Memory.call body (s.mark body) c).2) = _
    rw [hc]
  refine ⟨hk, ?_, fun _ => ?_, fun f g hn => ?_⟩
  · rw [hreplay, hl, List.map_append, h.log]
    rfl
  · rw [State.mark, hreplay]
  · rw [hp] at hn
    cases hn

theorem hand (h : InputInv body s) {c : Call} {length : ℕ}
    (hc : Memory.call body (s.mark body) c =
      (.str ((s.body.contents.drop s.body.position).take length),
        s.body.position + min length s.body.unread)) : InputInv body (s.hand c length) := by
  refine h.conclude (h.kept.hand c length) rfl rfl ?_
  rw [hc, h.kept.take_fst]
  exact congrArg _ (h.kept.take_position length).symm

theorem at_end (h : InputInv body s) (hw : s.body.contents = body) (hu : s.body.unread = 0) :
    s.body.position = body.length := by
  have hp := h.kept.position
  have hs := h.kept.size
  rw [hw] at hs
  unfold RequestBody.unread at hu
  omega

theorem length_unread (h : InputInv body s) (hw : s.body.contents = body) :
    body.length = s.body.position + s.body.unread := by
  have hp := h.kept.position
  have hs := h.kept.size
  rw [hw] at hs
  unfold RequestBody.unread
  omega

theorem take_unread (h : InputInv body s) (hw : s.body.contents = body) :
    (s.body.contents.drop s.body.position).take s.body.unread = body.drop s.body.position := by
  rw [h.kept.unread_eq, List.take_length, hw]

theorem not_at_end (h : InputInv body s) (hu : s.body.unread ≠ 0) : ¬ body.length ≤ s.body.position := by
  have hle := h.kept.beginning.length_le
  have hs := h.kept.size
  unfold RequestBody.unread at hu
  omega

theorem answer_readAll (h : InputInv body s) {g : Gate} (hg : s.place = some (.readAll, g))
    (hw : s.body.contents = body) : InputInv body (s.answer none .readAll) := by
  have hp : s.body.position = s.mark body := h.going _ _ hg
  refine h.hand ?_
  rw [Memory.call, ← hp, h.take_unread hw, min_self, ← h.length_unread hw]

theorem answer_getsAll (h : InputInv body s) {g : Gate} (hg : s.place = some (.getsAll, g))
    (hw : s.body.contents = body) : InputInv body (s.answer none .getsAll) := by
  have hp : s.body.position = s.mark body := h.going _ _ hg
  unfold State.answer
  split_ifs with hu
  · refine h.conclude (h.kept.same (.refl _) rfl rfl) rfl rfl ?_
    rw [Memory.call, ← hp, if_pos (h.at_end hw hu).ge]
    rfl
  · refine h.hand ?_
    rw [Memory.call, ← hp, if_neg (h.not_at_end hu), h.take_unread hw, min_self, ← h.length_unread hw]

theorem answer_read (h : InputInv body s) {n : ℕ} {g : Gate} (hg : s.place = some (.read n, g))
    (hn : n ≤ s.body.unread ∨ s.body.contents = body) : InputInv body (s.answer none (.read n)) := by
  obtain ⟨hp, hpos⟩ : s.body.position = s.mark body ∧ 0 < n := h.going _ _ hg
  obtain ⟨htake, hmin⟩ := h.kept.take_of_enough hn
  unfold State.answer
  split_ifs with hu
  · have hw := hn.resolve_left (by omega)
    refine h.conclude (h.kept.same (.refl _) rfl rfl) rfl rfl ?_
    rw [Memory.call, if_neg (by omega), ← hp, if_pos (h.at_end hw hu).ge]
    rfl
  · have hne := h.not_at_end hu
    refine h.hand ?_
    rw [Memory.call, if_neg (by omega), ← hp, if_neg hne]
    have htake' : (s.body.contents.drop s.body.position).take (min n s.body.unread) =
        (body.drop s.body.position).take n := by
      rw [h.kept.unread_eq, ← List.take_eq_take_min]
      exact htake
    refine Prod.ext (congrArg Value.str htake'.symm) ?_
    show min (s.body.position + n) body.length = s.body.position + min (min n s.body.unread) s.body.unread
    omega

/-- **A separator that was found is the first one in the body.** -/
theorem answer_found (h : InputInv body s) {sep : Bytes} {start next i : ℕ} {g : Gate}
    (hg : s.place = some (.gets sep start, g)) (hi : s.body.search sep start = some i) :
    InputInv body (s.answer (some i) (.gets sep next)) := by
  obtain ⟨hp, hs, hstart, hclear⟩ := h.going _ _ hg
  have hpos := List.length_pos_iff.mpr hs
  have hfirst := (search_spec h.kept.size hs start).1 i hi
  have hfits := hfirst.occurs.add_le hs
  rw [← h.kept.size] at hfits
  -- nothing was left behind where the search began, so this is the first from the position on
  have hfrom : First sep s.body.contents s.body.position i := by
    have hle := hfirst.le
    refine ⟨by omega, hfirst.occurs, fun j hj hji => ?_⟩
    rcases Nat.lt_or_ge j start with hjs | hjs
    · exact (hclear j (hp ▸ hj) hjs).2
    · exact hfirst.least j hjs hji
  have hle := hfrom.le
  obtain ⟨more, hmore⟩ := h.kept.beginning
  have hindex : index (body.drop s.body.position) sep = some (i - s.body.position) := by
    rw [← hmore]
    exact index_drop_eq_some hs (hfrom.append hs)
  have hlen : i + sep.length - s.body.position ≤ s.body.unread := by
    unfold RequestBody.unread
    omega
  have hu : s.body.unread ≠ 0 := by
    unfold RequestBody.unread
    omega
  obtain ⟨htake, -⟩ := h.kept.take_of_enough (Or.inl hlen)
  simp only [State.answer, if_neg hu]
  refine h.hand ?_
  rw [Memory.call, ← hp, if_neg (h.not_at_end hu), hindex]
  show (Value.str ((body.drop s.body.position).take (i - s.body.position + sep.length)), _) = _
  rw [show i - s.body.position + sep.length = i + sep.length - s.body.position by omega, ← htake]
  refine Prod.ext rfl ?_
  show s.body.position + (i + sep.length - s.body.position) = _
  rw [Option.elim_some, Nat.min_eq_left hlen]

/-- A body with no separator left is read to its end. -/
theorem answer_gets_rest (h : InputInv body s) {sep : Bytes} {start next : ℕ} {g : Gate}
    (hg : s.place = some (.gets sep start, g)) (hi : s.body.search sep start = none)
    (hw : s.body.contents = body) : InputInv body (s.answer none (.gets sep next)) := by
  obtain ⟨hp, hs, -, hclear⟩ := h.going _ _ hg
  have hnone := (search_spec h.kept.size hs start).2 hi
  have hindex : index (body.drop s.body.position) sep = none := by
    rw [← hw]
    refine index_drop_eq_none hs fun j hj => ?_
    rcases Nat.lt_or_ge j start with hjs | hjs
    · exact (hclear j (hp ▸ hj) hjs).2
    · exact hnone j hjs
  unfold State.answer
  split_ifs with hu
  · refine h.conclude (h.kept.same (.refl _) rfl rfl) rfl rfl ?_
    rw [Memory.call, ← hp, if_pos (h.at_end hw hu).ge]
    rfl
  · refine h.hand ?_
    rw [Memory.call, ← hp, if_neg (h.not_at_end hu), hindex]
    rw [Option.elim_none, h.take_unread hw, min_self, ← h.length_unread hw]

theorem answer_each (h : InputInv body s) {yielded : List Bytes} {g : Gate}
    (hg : s.place = some (.each yielded, g))
    (hn : readSize ≤ s.body.unread ∨ s.body.contents = body) :
    InputInv body (s.answer none (.each yielded)) := by
  have hgo : yielded ++ pieces readSize (body.drop s.body.position) =
    pieces readSize (body.drop (s.mark body)) := h.going _ _ hg
  have hr := readSize_pos
  simp only [State.answer]
  split_ifs with hu
  · have hw := hn.resolve_left (by omega)
    have hend := h.at_end hw hu
    refine h.conclude (h.kept.same (.refl _) rfl rfl) rfl rfl ?_
    rw [Memory.call, ← hgo, hend, List.drop_length, pieces_nil, List.append_nil]
    exact congrArg _ hend.symm
  · obtain ⟨htake, hmin⟩ := h.kept.take_of_enough hn
    have hne : body.drop s.body.position ≠ [] := by
      rw [← List.length_pos_iff, List.length_drop]
      have := h.not_at_end hu
      omega
    have hpiece : (s.body.take (min readSize s.body.unread)).1 = (body.drop s.body.position).take readSize := by
      rw [h.kept.take_fst, h.kept.unread_eq, ← List.take_eq_take_min]
      exact htake
    have hrest : body.drop (s.body.take (min readSize s.body.unread)).2.position =
        (body.drop s.body.position).drop readSize := by
      rw [h.kept.take_position, min_assoc, min_self, hmin, List.drop_drop]
      rcases Nat.le_total readSize (body.length - s.body.position) with hle | hle
      · rw [Nat.min_eq_left hle]
      · rw [Nat.min_eq_right hle, List.drop_eq_nil_of_le (by omega), List.drop_eq_nil_of_le (by omega)]
    refine h.enter (h.kept.move rfl rfl rfl (h.kept.take_le _)) rfl rfl ?_
    show (yielded ++ [(s.body.take (min readSize s.body.unread)).1]) ++
      pieces readSize (body.drop (s.body.take (min readSize s.body.unread)).2.position) = _
    rw [hpiece, hrest, List.append_assoc, List.singleton_append, ← pieces_of_ne_nil hr hne]
    exact hgo

/-- **The block of `fill` lets a call go on only when it returns what the reader in memory does.** -/
theorem check (h : InputInv body s) {f : Filling} {g : Gate} (hg : s.place = some (f, g)) :
    InputInv body (s.check f) := by
  have hgo := h.going f g hg
  have hwait : ∀ {f' : Filling}, f'.Going body s.body (s.mark body) → InputInv body (s.enter f' .park) :=
    fun hf' => h.enter (h.kept.same (.refl _) rfl rfl) rfl rfl hf'
  have hdone : s.finished = true → s.body.contents = body := h.kept.contents_of_finished
  cases f with
  | readAll =>
    simp only [State.check]
    split_ifs with hf
    · exact h.answer_readAll hg (hdone hf)
    · exact hwait hgo
  | read n =>
    simp only [State.check]
    split_ifs with hf
    · rw [Bool.or_eq_true, decide_eq_true_eq] at hf
      exact h.answer_read hg (hf.imp id hdone)
    · exact hwait hgo
  | getsAll =>
    simp only [State.check]
    split_ifs with hf
    · exact h.answer_getsAll hg (hdone hf)
    · exact hwait hgo
  | gets sep start =>
    obtain ⟨hp, hs, hstart, hclear⟩ := hgo
    have hspec := search_spec h.kept.size hs start
    simp only [State.check]
    cases hi : s.body.search sep start with
    | some i =>
      simp only [Option.isSome_some, Bool.true_or, if_true]
      exact h.answer_found hg hi
    | none =>
      simp only [Option.isSome_none, Bool.false_or]
      split_ifs with hf
      · exact h.answer_gets_rest hg hi (hdone hf)
      · refine hwait ⟨hp, hs, by omega, fun j hj hjn => ⟨by omega, ?_⟩⟩
        rcases Nat.lt_or_ge j start with hjs | hjs
        · exact (hclear j hj hjs).2
        · exact hspec.2 hi j hjs
  | each yielded =>
    simp only [State.check]
    split_ifs with hf
    · rw [Bool.or_eq_true, decide_eq_true_eq] at hf
      exact h.answer_each hg (hf.imp id hdone)
    · exact hwait hgo

/-- What is kept only grows, and what a search has seen stays seen. -/
theorem going_keep {f : Filling} {b : RequestBody} {mark : ℕ} (hb : b.size = b.contents.length)
    (hf : f.Going body b mark) (chunk : Bytes) : f.Going body (b.keep chunk) mark := by
  cases f with
  | readAll | getsAll | read n | each yielded => exact hf
  | gets sep start =>
    obtain ⟨hp, hs, hstart, hclear⟩ := hf
    refine ⟨hp, hs, hstart, fun i hi hlt => ?_⟩
    obtain ⟨hfits, hno⟩ := hclear i hi hlt
    refine ⟨Nat.le_trans hfits (Nat.le_add_right _ _), ?_⟩
    rw [keep_contents, occurs_append (by omega)]
    exact hno

theorem pull (h : InputInv body s) {f : Filling} {g : Gate} (hg : s.place = some (f, g)) :
    InputInv body (s.pull f) := by
  have hgo := h.going f g hg
  have hk := h.kept.pull f
  rcases s.source.takeNext_cases with ⟨-, hnone, -⟩ | ⟨x, rest, hi, hsome, -⟩
  · simp only [State.pull, hnone] at hk ⊢
    exact h.enter hk rfl rfl hgo
  · have hx : x ∈ s.source.accepted := by
      rw [← Tracked.conserve h.kept.uncancelled, hi]
      exact List.mem_append_right _ List.mem_cons_self
    rcases h.kept.kinds x hx with rfl | ⟨chunk, rfl⟩
    · simp only [State.pull, hsome] at hk ⊢
      exact h.enter hk rfl rfl hgo
    · simp only [State.pull, hsome] at hk ⊢
      exact h.enter hk rfl hg (going_keep h.kept.size hgo chunk)

theorem begin (h : InputInv body s) (hn : s.place = none) {c : Call} (hc : proper (.call c) = true) :
    InputInv body (s.begin c) := by
  have hp := h.idle hn
  have hk := h.kept.begin c
  cases c with
  | read length =>
    cases length with
    | none => exact h.enter hk rfl rfl hp
    | some n =>
      simp only [State.begin] at hk ⊢
      split_ifs at hk ⊢ with h0
      · refine h.conclude hk rfl rfl ?_
        rw [Memory.call, if_pos h0, ← hp]
        rfl
      · exact h.enter hk rfl rfl ⟨hp, Nat.pos_of_ne_zero h0⟩
  | gets separator =>
    cases separator with
    | none => exact h.enter hk rfl rfl hp
    | some sep =>
      have hs : sep ≠ [] := by
        rintro rfl
        cases hc
      refine h.enter hk rfl rfl ⟨hp, hs, hp.ge, fun i hi hlt => ?_⟩
      rw [hp] at hlt
      omega
  | each => exact h.enter hk rfl rfl (congrArg (fun n => [] ++ pieces readSize (body.drop n)) hp)
  | rewind => exact h.conclude hk rfl rfl rfl

theorem next (h : InputInv body s) (ht : s.next = some t) : InputInv body t := by
  have hk := h.kept.next ht
  cases hplace : s.place with
  | none =>
    rw [State.next, hplace] at ht
    cases ht
  | some place =>
    obtain ⟨f, g⟩ := place
    have hgo := h.going f g hplace
    rw [State.next, hplace] at ht
    cases g with
    | take =>
      cases ht
      exact h.pull hplace
    | check =>
      cases ht
      exact h.check hplace
    | park =>
      cases ht
      exact h.enter hk rfl rfl hgo
    | leave =>
      cases ht
      exact h.enter hk rfl rfl hgo
    | parked => cases ht

theorem push (h : InputInv body s) (hk : Kept body t) (hb : t.body = s.body) (hp : t.place = s.place)
    (hl : t.log = s.log) : InputInv body t where
  kept := hk
  log := by rw [hl]; exact h.log
  idle hn := by
    rw [State.mark, hl, hb]
    exact h.idle (hp ▸ hn)
  going f g hg := by
    rw [State.mark, hl, hb]
    exact h.going f g (hp ▸ hg)

theorem step (h : InputInv body s) {a : Action} (ha : proper a = true) (ht : Input.step s a = some t) :
    InputInv body t := by
  have hk := h.kept.step ht
  cases a with
  | call c =>
    simp only [Input.step, Option.ite_none_right_eq_some, Option.some.injEq] at ht
    obtain ⟨hn, rfl⟩ := ht
    exact h.begin hn ha
  | next => exact h.next ht
  | wake =>
    simp only [Input.step] at ht
    split at ht
    · rename_i f hplace
      cases ht
      exact h.enter hk rfl rfl (h.going f _ hplace)
    · cases ht
  | push =>
    simp only [Input.step] at ht
    split at ht
    · rename_i chunk rest harr
      cases ht
      exact h.push hk rfl rfl rfl
    · cases ht
  | finish =>
    simp only [Input.step] at ht
    split at ht
    · rename_i harr
      cases ht
      exact h.push hk rfl rfl rfl
    · cases ht

theorem of_reach {chunks : List Bytes} (h : (system chunks).Reach (fun _ a => proper a = true) s) :
    InputInv chunks.flatten s := by
  refine h.induct ?_ fun s a t hi ha ht => hi.step ha ht
  rintro _ ⟨budget, rfl⟩
  exact .init chunks budget

end InputInv

/-! ## Every call returns -/

/-- A call has returned, and its value is in the log. -/
def Returned (c : Call) (s t : State) : Prop := t.place = none ∧ ∃ v, t.log = s.log ++ [(c, v)]

/-- A call is still in progress, at this gate. -/
def Ongoing (c : Call) (g : Gate) (s t : State) : Prop :=
  t.log = s.log ∧ ∃ f, f.call = c ∧ t.place = some (f, g)

/-- After `fill` a call returns, or is the `each` that took a piece and reads the next. -/
theorem answer_cases (s : State) (found : Option ℕ) (f : Filling) :
    (s.answer found f).source = s.source ∧
      (Returned f.call s (s.answer found f) ∨ Ongoing f.call .take s (s.answer found f) ∧
        s.body.unread ≠ 0 ∧ (s.answer found f).body = (s.body.take (min readSize s.body.unread)).2) := by
  have hreturned : ∀ {t : State} {v : Value}, t.place = none → t.log = s.log ++ [(f.call, v)] →
    Returned f.call s t := fun hp hl => ⟨hp, _, hl⟩
  cases f with
  | readAll => exact ⟨rfl, Or.inl (hreturned rfl rfl)⟩
  | read n | getsAll | gets sep start =>
    simp only [State.answer]
    split_ifs <;> exact ⟨rfl, Or.inl (hreturned rfl rfl)⟩
  | each yielded =>
    simp only [State.answer]
    split_ifs with hu
    · exact ⟨rfl, Or.inl (hreturned rfl rfl)⟩
    · exact ⟨rfl, Or.inr ⟨⟨rfl, .each (yielded ++ [_]), rfl, rfl⟩, hu, rfl⟩⟩

/-- The block of `fill` lets the call go on, or the queue is not finished and the fiber is to park. -/
theorem check_cases (s : State) (f : Filling) :
    (∃ found f', f'.call = f.call ∧ s.check f = s.answer found f') ∨
      s.finished = false ∧ ∃ f', f'.call = f.call ∧ s.check f = s.enter f' .park := by
  have hor : ∀ {b : Bool}, ¬ (b || s.finished) = true → s.finished = false := by
    intro b hb
    rw [Bool.or_eq_true, not_or, Bool.not_eq_true, Bool.not_eq_true] at hb
    exact hb.2
  cases f with
  | readAll | getsAll =>
    simp only [State.check]
    split_ifs with hf
    · exact Or.inl ⟨_, _, rfl, rfl⟩
    · exact Or.inr ⟨by simpa using hf, _, rfl, rfl⟩
  | read n | each yielded =>
    simp only [State.check]
    split_ifs with hf
    · exact Or.inl ⟨_, _, rfl, rfl⟩
    · exact Or.inr ⟨hor hf, _, rfl, rfl⟩
  | gets sep start =>
    simp only [State.check]
    split_ifs with hf
    · exact Or.inl ⟨_, .gets sep _, rfl, rfl⟩
    · exact Or.inr ⟨hor hf, .gets sep (max (s.body.size + 1 - sep.length) s.body.position), rfl, rfl⟩

/-- How far a call is from its next look at the queue. An empty queue that has ended is finished. -/
def Gate.weight (items : List StreamItem) : Gate → ℕ
  | .take => 1
  | .park => 2
  | .check => if items = [] then 0 else 3
  | .leave => 4
  | .parked => 5

/-- Falls at every step of a call once the queue has ended: bytes of the body left to hand out, then items
left to pull, then gates left to pass. -/
def State.rank (body : Bytes) (s : State) : ℕ ×ₗ ℕ :=
  toLex (body.length - s.body.position,
    6 * s.source.stream.items.length + s.place.elim 0 fun place => Gate.weight s.source.stream.items place.2)

theorem rank_lt_of_items (hb : t.body.position = s.body.position)
    (h : 6 * t.source.stream.items.length +
        t.place.elim 0 (fun place => Gate.weight t.source.stream.items place.2) <
      6 * s.source.stream.items.length +
        s.place.elim 0 fun place => Gate.weight s.source.stream.items place.2) :
    t.rank body < s.rank body := by
  rw [State.rank, State.rank, hb]
  exact Prod.Lex.toLex_lt_toLex.mpr (Or.inr ⟨rfl, h⟩)

/-- A call that began is one step further, and its rank is lower. -/
def Further (body : Bytes) (c : Call) (s t : State) : Prop :=
  t.source.stream.ended = true ∧
    (Returned c s t ∨ (∃ g, Ongoing c g s t) ∧ t.rank body < s.rank body)

theorem finished_of_nil (he : s.source.stream.ended = true)
    (hi : s.source.stream.items = []) : s.finished = true := by
  show (s.source.stream.cancelled || (s.source.stream.ended && s.source.stream.bufferedBytes == 0)) = true
  rw [Tracked.bytes_eq, hi, he, Bool.true_and]
  exact Bool.or_true _

namespace InputInv

theorem pull_further (h : InputInv body s) (he : s.source.stream.ended = true) {f : Filling}
    (hg : s.place = some (f, .take)) : Further body f.call s (s.pull f) := by
  rcases s.source.takeNext_cases with ⟨hidle, hnone, hq⟩ | ⟨x, rest, hi, hsome, -, htaken, hin⟩
  · have hnil : s.source.stream.items = [] := by
      rcases hidle with hp | hnil
      · rw [h.kept.unpaused] at hp
        cases hp
      · exact hnil
    simp only [State.pull, hnone, hq]
    refine ⟨he, Or.inr ⟨⟨_, rfl, f, rfl, rfl⟩, rank_lt_of_items rfl ?_⟩⟩
    simp [State.enter, hnil, hg, Gate.weight]
  · have hx : x ∈ s.source.accepted := by
      rw [← Tracked.conserve h.kept.uncancelled, hi]
      exact List.mem_append_right _ List.mem_cons_self
    have hitems : s.source.takeNext.stream.items = rest := by rw [hin]; rfl
    have hended : s.source.takeNext.stream.ended = true := by rw [hin]; exact he
    rcases h.kept.kinds x hx with rfl | ⟨chunk, rfl⟩
    · simp only [State.pull, hsome]
      refine ⟨hended, Or.inr ⟨⟨_, rfl, f, rfl, rfl⟩, rank_lt_of_items rfl ?_⟩⟩
      simp only [State.enter, hi, hg, hitems, Option.elim_some, Gate.weight, List.length_cons]
      split_ifs <;> omega
    · simp only [State.pull, hsome]
      refine ⟨hended, Or.inr ⟨⟨_, rfl, f, rfl, hg⟩, rank_lt_of_items rfl ?_⟩⟩
      simp only [hi, hg, hitems, Option.elim_some, Gate.weight, List.length_cons]
      omega

theorem check_further (h : InputInv body s) (he : s.source.stream.ended = true) {f : Filling}
    (hg : s.place = some (f, .check)) : Further body f.call s (s.check f) := by
  rcases check_cases s f with ⟨found, f', hcall, heq⟩ | ⟨hunfinished, f', hcall, heq⟩
  · obtain ⟨hq, hgo⟩ := answer_cases s found f'
    rw [heq, ← hcall]
    refine ⟨hq ▸ he, hgo.imp id ?_⟩
    rintro ⟨hon, hu, hb⟩
    refine ⟨⟨_, hon⟩, Prod.Lex.toLex_lt_toLex.mpr (Or.inl ?_)⟩
    have hend := h.not_at_end hu
    have hr := readSize_pos
    rw [hb, h.kept.take_position]
    omega
  · have hne : s.source.stream.items ≠ [] := by
      intro hnil
      rw [finished_of_nil he hnil] at hunfinished
      cases hunfinished
    rw [heq, ← hcall]
    refine ⟨he, Or.inr ⟨⟨_, rfl, f', rfl, rfl⟩, rank_lt_of_items rfl ?_⟩⟩
    simp [State.enter, hg, Gate.weight, hne]

/-- **Once the body has ended, the call in progress takes a step, and comes closer to its return.** -/
theorem further (h : InputInv body s) (he : s.source.stream.ended = true) {f : Filling} {g : Gate}
    (hg : s.place = some (f, g)) :
    ∃ a t, (a = .next ∨ a = .wake) ∧ Input.step s a = some t ∧ Further body f.call s t := by
  have hnext : ∀ {t : State}, s.next = some t → Further body f.call s t →
    ∃ a t, (a = .next ∨ a = .wake) ∧ Input.step s a = some t ∧ Further body f.call s t :=
    fun ht hf => ⟨.next, _, Or.inl rfl, ht, hf⟩
  cases g with
  | take => exact hnext (by rw [State.next, hg]) (h.pull_further he hg)
  | check => exact hnext (by rw [State.next, hg]) (h.check_further he hg)
  | park =>
    refine hnext (by rw [State.next, hg]) ?_
    rcases s.source.stream.park_cases State.readerVariable with ⟨-, hpark⟩ | ⟨-, hopen, -⟩
    · have hsame := s.source.same_park State.readerVariable
      refine ⟨hsame.ended.trans he, Or.inr ⟨⟨_, rfl, f, rfl, rfl⟩, rank_lt_of_items rfl ?_⟩⟩
      show 6 * (s.source.park State.readerVariable).stream.items.length + _ < _
      rw [hsame.items]
      simp [State.enter, hg, hpark, Gate.weight]
    · rw [he] at hopen
      cases hopen
  | leave =>
    have ht : s.next = some ({ s with source := s.source.unpark }.enter f .take) := by
      rw [State.next, hg]
    refine hnext ht ⟨he, Or.inr ⟨⟨_, rfl, f, rfl, rfl⟩, rank_lt_of_items rfl ?_⟩⟩
    show 6 * s.source.stream.items.length + 1 < _
    simp [hg, Gate.weight]
  | parked =>
    refine ⟨.wake, s.enter f .leave, Or.inr rfl, by simp only [Input.step, hg], he,
      Or.inr ⟨⟨_, rfl, f, rfl, rfl⟩, rank_lt_of_items rfl ?_⟩⟩
    simp [State.enter, hg, Gate.weight]

/-- The worker can push what is left of the body, and its end. -/
theorem leads_ended {chunks : List Bytes} (h : InputInv body s) :
    (system chunks).Leads (fun a => ∀ c, a ≠ .call c)
      (fun t => InputInv body t ∧ t.source.stream.ended = true ∧ t.place = s.place ∧ t.log = s.log) s := by
  induction harr : s.arriving generalizing s with
  | nil =>
    have ht : Input.step s .finish = some { s with source := s.source.push .End } := by
      simp only [Input.step, harr]
    have hend : (s.source.push .End).stream.ended = true := by
      rcases s.source.push_cases .End with ⟨hshut, hq⟩ | ⟨-, -, -, -, hin⟩
      · rw [h.kept.uncancelled, Bool.false_or] at hshut
        rwa [hq]
      · rw [hin]
        rfl
    exact .next (a := .finish) (by rintro c ⟨⟩) ht (.here ⟨h.step rfl ht, hend, rfl, rfl⟩)
  | cons chunk rest ih =>
    have ht : Input.step s .push =
        some { s with source := s.source.push (.Chunk chunk), arriving := rest } := by
      simp only [Input.step, harr]
    have hgo := ih (s := { s with source := s.source.push (.Chunk chunk), arriving := rest })
      (h.step rfl ht) rfl
    exact .next (a := .push) (by rintro c ⟨⟩) ht hgo

/-- **A call that began returns**, once the body has ended, and with what the reader in memory gives. -/
theorem leads_returned (chunks : List Bytes) (h : InputInv body s) (he : s.source.stream.ended = true)
    {f : Filling} {g : Gate} (hg : s.place = some (f, g)) :
    (system chunks).Leads (fun a => ∀ c, a ≠ .call c)
      (fun t => t.place = none ∧ t.log = s.log ++ [(f.call, (Memory.call body (s.mark body) f.call).1)]) s := by
  refine System.Leads.of_rank (State.rank body)
    (I := fun t => InputInv body t ∧ t.source.stream.ended = true ∧ ∃ g, Ongoing f.call g s t) ?_
    ⟨h, he, g, rfl, f, rfl, hg⟩
  rintro t ⟨hi, hend, g', hlog, f', hcall, hg'⟩
  obtain ⟨a, u, ha, hu, hend', hcases⟩ := hi.further hend hg'
  have hi' := hi.step (by rcases ha with rfl | rfl <;> rfl) hu
  have hown : ∀ c, a ≠ .call c := by rcases ha with rfl | rfl <;> rintro c ⟨⟩
  refine ⟨a, u, hown, hu, ?_⟩
  rw [hcall] at hcases
  rcases hcases with ⟨hnone, v, hv⟩ | ⟨⟨g'', hlog', hat⟩, hlt⟩
  · refine Or.inl ⟨hnone, ?_⟩
    rw [hlog] at hv
    have hvalues := hi'.log
    rw [hv, List.map_append, List.map_append, List.map_singleton, List.map_singleton,
      Memory.replay_concat, h.log] at hvalues
    have hval : (Memory.call body (s.mark body) f.call).1 = v :=
      List.singleton_injective (List.append_cancel_left hvalues)
    rw [hv, hval]
  · exact Or.inr ⟨⟨hi', hend', g'', hlog'.trans hlog, hat⟩, hlt⟩

end InputInv

/-- **Rack input behaves like a reader over the complete body.** Whatever the division into chunks and
the order of their arrival and the calls, every call that returned gave what the same calls give on a
reader that holds the whole body, and a call in progress can always come to return that. -/
theorem input_reads_body (chunks : List Bytes) {s : State}
    (h : (system chunks).Reach (fun _ a => proper a = true) s) :
    s.log.map Prod.snd = (Memory.replay chunks.flatten (s.log.map Prod.fst)).1 ∧
      ∀ f g, s.place = some (f, g) →
        (system chunks).Leads (fun a => ∀ c, a ≠ .call c)
          (fun t => t.place = none ∧ t.log = s.log ++
            [(f.call, (Memory.call chunks.flatten (s.mark chunks.flatten) f.call).1)]) s := by
  have hi := InputInv.of_reach h
  refine ⟨hi.log.symm, fun f g hg => hi.leads_ended.bind ?_⟩
  rintro t ⟨hi', hend, hplace, hlog⟩
  have hback := hi'.leads_returned chunks hend (hplace.trans hg)
  rwa [hlog, show t.mark chunks.flatten = s.mark chunks.flatten by rw [State.mark, hlog]; rfl] at hback

/-- A separator is cut by the first chunk, whose search finds nothing; the fiber parks, and the rest is
read when it has arrived and ended. -/
def straddling : List Action :=
  [.push, .call (.gets (some [13, 10])), .next, .next, .next, .next, .push, .wake, .next, .next, .next,
    .next, .call (.read none), .next, .next, .next]

theorem input_reads_body_straddling :
    ∃ s, (system [[97, 13], [10, 98]]).run { source := Tracked.new 8, arriving := [[97, 13], [10, 98]] }
        straddling = some s ∧
      s.log = [(.gets (some [13, 10]), .str [97, 13, 10])] ∧ s.place = some (.readAll, .parked) ∧
      (system [[97, 13], [10, 98]]).Leads (fun a => ∀ c, a ≠ .call c)
        (fun t => t.place = none ∧ t.log = s.log ++ [(.read none, .str [98])]) s := by
  have hr : (system [[97, 13], [10, 98]]).runIf (fun _ => proper)
    { source := Tracked.new 8, arriving := [[97, 13], [10, 98]] } straddling = some _ := rfl
  have hboth := input_reads_body [[97, 13], [10, 98]] (System.reach_of_runIf ⟨8, rfl⟩ hr)
  exact ⟨_, rfl, rfl, rfl, hboth.2 .readAll .parked rfl⟩

end Ruvoy.Input
