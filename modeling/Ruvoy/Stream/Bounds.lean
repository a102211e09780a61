import Ruvoy.Stream.History

/-!
# How many bytes a queue holds

A queue holds the bytes of its chunks. What can add to them are the three pushes of a chunk: of what
fits of it, of all of it if it fits or nothing is queued, and of all of it.

* `chunksOf`: the chunks among the items, and `bytes_chunksOf`; `held`: how many bytes are queued;
* `Tracked.Eases`: an operation after which no chunk is new; `eases_push`, `eases_takeNext`, …;
* `Tracked.Within`: the queue holds no more than its budget, `Within.pushWithinBudget`;
* `Tracked.WithinOrOne`: no more than its budget, or one chunk, `WithinOrOne.pushIfRoom`.
-/

set_option autoImplicit false

namespace Ruvoy

/-! ## Chunks -/

def StreamItem.isChunk : StreamItem → Bool
  | .Chunk _ => true
  | _ => false

/-- The chunks among the items. -/
def chunksOf (items : List StreamItem) : List StreamItem := items.filter StreamItem.isChunk

@[simp] theorem chunksOf_nil : chunksOf [] = [] := rfl

@[simp] theorem chunksOf_append (xs ys : List StreamItem) :
    chunksOf (xs ++ ys) = chunksOf xs ++ chunksOf ys := List.filter_append ..

@[simp] theorem chunksOf_chunk (b : Bytes) : chunksOf [.Chunk b] = [.Chunk b] := rfl

theorem chunksOf_other {x : StreamItem} (hx : x.isChunk = false) : chunksOf [x] = [] := by
  simp [chunksOf, hx]

theorem bytes_of_not_chunk {x : StreamItem} (hx : x.isChunk = false) : x.bytes = [] := by
  cases x with
  | Chunk b => cases hx
  | _ => rfl

theorem bytes_chunksOf (items : List StreamItem) : bodyOf (chunksOf items) = bodyOf items := by
  induction items with
  | nil => rfl
  | cons x items ih =>
    cases hx : x.isChunk with
    | true =>
      rw [chunksOf, List.filter_cons_of_pos hx, bodyOf_cons, bodyOf_cons, ← ih]
      rfl
    | false =>
      rw [chunksOf, List.filter_cons_of_neg (by simp [hx]), bodyOf_cons, bytes_of_not_chunk hx, ← ih]
      rfl

theorem length_bodyOf_sublist {xs ys : List StreamItem} (h : xs.Sublist ys) :
    (bodyOf xs).length ≤ (bodyOf ys).length := by
  induction h with
  | slnil => exact le_rfl
  | cons y _ ih =>
    rw [bodyOf_cons, List.length_append]
    omega
  | cons_cons y _ ih =>
    rw [bodyOf_cons, bodyOf_cons, List.length_append, List.length_append]
    omega

/-- How many bytes are queued. -/
def held (q : Tracked) : ℕ := (bodyOf q.stream.items).length

theorem held_eq (q : Tracked) : held q = q.stream.bufferedBytes := q.bytes_eq.symm

namespace Tracked

theorem bytes_eq_chunks (q : Tracked) :
    q.stream.bufferedBytes = (bodyOf (chunksOf q.stream.items)).length := by
  rw [bytes_chunksOf, q.bytes_eq]

/-! ## Operations that add no chunk -/

/-- The queue `p` has become `q`, and no chunk is new. -/
structure Eases (p q : Tracked) : Prop where
  budget : q.stream.maxBufferedBytes = p.stream.maxBufferedBytes
  chunks : (chunksOf q.stream.items).Sublist (chunksOf p.stream.items)

variable {p q : Tracked}

theorem Eases.refl (q : Tracked) : Eases q q := ⟨rfl, List.Sublist.refl _⟩

theorem Eases.bytes (h : Eases p q) : q.stream.bufferedBytes ≤ p.stream.bufferedBytes := by
  rw [q.bytes_eq_chunks, p.bytes_eq_chunks]
  exact length_bodyOf_sublist h.chunks

theorem eases_of_items (hb : q.stream.maxBufferedBytes = p.stream.maxBufferedBytes)
    (hi : q.stream.items = p.stream.items) : Eases p q := by
  refine ⟨hb, ?_⟩
  rw [hi]

theorem eases_push (q : Tracked) {x : StreamItem} (hx : x.isChunk = false) : Eases q (q.push x) := by
  rcases q.push_cases x with ⟨-, h⟩ | ⟨-, -, -, -, h⟩
  · rw [h]
    exact .refl q
  · refine ⟨rfl, ?_⟩
    rw [h, ResponseStreamInner.append_items, chunksOf_append, chunksOf_other hx, List.append_nil]

theorem eases_takeNext (q : Tracked) : Eases q q.takeNext := by
  rcases q.takeNext_cases with ⟨-, -, h⟩ | ⟨x, rest, hx, -, -, -, h⟩
  · rw [h]
    exact .refl q
  · refine ⟨rfl, ?_⟩
    rw [h, ResponseStreamInner.tail_items, hx]
    exact (List.sublist_cons_self x rest).filter _

theorem eases_cancel (q : Tracked) : Eases q q.cancel := ⟨rfl, List.nil_sublist _⟩

theorem eases_setPaused (q : Tracked) (b : Bool) : Eases q (q.setPaused b) := eases_of_items rfl rfl

theorem eases_unpark (q : Tracked) : Eases q q.unpark := eases_of_items rfl rfl

theorem eases_park (q : Tracked) (v : Variable) : Eases q (q.park v) :=
  eases_of_items rfl (ResponseStream.park_items v)

theorem eases_parkWriter (q : Tracked) (v : Variable) : Eases q (q.parkWriter v) :=
  eases_of_items rfl (ResponseStream.parkWriter_items v)

/-! ## Within the budget -/

/-- The queue holds no more than its budget. -/
structure Within (m : ℕ) (q : Tracked) : Prop where
  budget : q.stream.maxBufferedBytes = m
  bytes : q.stream.bufferedBytes ≤ m

variable {m : ℕ}

theorem Within.new (hm : 0 < m) : Within m (new m) := ⟨max_eq_left hm, Nat.zero_le _⟩

theorem Within.eases (h : Within m p) (he : Eases p q) : Within m q :=
  ⟨he.budget.trans h.budget, he.bytes.trans h.bytes⟩

/-- **A slice that fits is all that is queued.** -/
theorem Within.pushWithinBudget (h : Within m q) (b : Bytes) : Within m (q.pushWithinBudget b) := by
  refine ⟨h.budget, ?_⟩
  rcases ResponseStream.pushChunkWithinBudget_cases q.stream b with
    ⟨-, hin⟩ | ⟨n, -, hroom, -, -, -, -, hin⟩
  · show (q.stream.pushChunkWithinBudget b).2.bufferedBytes ≤ m
    rw [hin]
    exact h.bytes
  · show (q.stream.pushChunkWithinBudget b).2.bufferedBytes ≤ m
    have hspare : q.stream.spareCapacity = m - q.stream.bufferedBytes := by
      rw [← h.budget]
      rfl
    have hbytes := h.bytes
    rw [hspare] at hroom
    rw [hin, ResponseStreamInner.append_bytes, bytes_chunk, List.length_take]
    omega

theorem bytes_push_le (q : Tracked) (b : Bytes) :
    (q.push (.Chunk b)).stream.bufferedBytes ≤ q.stream.bufferedBytes + b.length := by
  rcases q.push_cases (.Chunk b) with ⟨-, h⟩ | ⟨-, -, -, -, h⟩
  · rw [h]
    omega
  · rw [h, ResponseStreamInner.append_bytes, bytes_chunk]

/-- The queue holds no more than its budget, or a single chunk; and no chunk in it is empty. -/
structure WithinOrOne (m : ℕ) (q : Tracked) : Prop where
  budget : q.stream.maxBufferedBytes = m
  bytes : q.stream.bufferedBytes ≤ m ∨ ∃ b, chunksOf q.stream.items = [.Chunk b]
  nonempty : .Chunk [] ∉ q.stream.items

theorem WithinOrOne.new (hm : 0 < m) : WithinOrOne m (Tracked.new m) :=
  ⟨max_eq_left hm, Or.inl (Nat.zero_le _), List.not_mem_nil⟩

theorem mem_chunksOf {items : List StreamItem} {b : Bytes} :
    .Chunk b ∈ chunksOf items ↔ .Chunk b ∈ items := by
  simp [chunksOf, StreamItem.isChunk]

theorem WithinOrOne.eases (h : WithinOrOne m p) (he : Eases p q) : WithinOrOne m q := by
  refine ⟨he.budget.trans h.budget, ?_, fun hmem => ?_⟩
  · rcases h.bytes with hb | ⟨b, hb⟩
    · exact Or.inl (he.bytes.trans hb)
    · have hsub := he.chunks
      rw [hb, List.sublist_singleton] at hsub
      rcases hsub with hnil | hone
      · left
        rw [q.bytes_eq_chunks, hnil]
        exact Nat.zero_le m
      · exact Or.inr ⟨b, hone⟩
  · exact h.nonempty (mem_chunksOf.mp (he.chunks.subset (mem_chunksOf.mpr hmem)))

theorem WithinOrOne.chunks_nil (h : WithinOrOne m q) (hb : q.stream.bufferedBytes = 0) :
    chunksOf q.stream.items = [] := by
  have hnil := q.body_nil_of_bytes hb
  refine List.eq_nil_iff_forall_not_mem.mpr fun x hx => ?_
  obtain ⟨hmem, hchunk⟩ := List.mem_filter.mp hx
  cases x with
  | Chunk b =>
    have hb' : b = [] := by
      obtain ⟨l, r, hl⟩ := List.append_of_mem hmem
      rw [hl, bodyOf_append, bodyOf_cons] at hnil
      exact (List.append_eq_nil_iff.mp (List.append_eq_nil_iff.mp hnil).2).1
    rw [hb'] at hmem
    exact h.nonempty hmem
  | _ => cases hchunk

/-- A delivery that does not fit, where bytes are queued, leaves the queue as it was. -/
theorem pushIfRoom_of_full (h : q.stream.maxBufferedBytes = m) {b : Bytes} (hne : b ≠ [])
    (hq : 0 < q.stream.bufferedBytes) (hb : m < q.stream.bufferedBytes + b.length) :
    q.pushIfRoom b = q := by
  rcases q.pushIfRoom_cases b with ⟨-, hsame⟩ | ⟨hc, he, hok, -⟩
  · exact hsame
  · have hfull : q.stream.bufferedBytes > 0 ∧
        b.length > q.stream.inner.spareCapacity q.stream.maxBufferedBytes := by
      refine ⟨hq, ?_⟩
      show b.length > q.stream.maxBufferedBytes - q.stream.bufferedBytes
      have hpos := List.length_pos_of_ne_nil hne
      omega
    have hno : (q.stream.pushChunkIfRoom b).1 = some false := by
      show (q.stream.inner.pushChunkIfRoom q.stream.maxBufferedBytes b).1 = some false
      rw [ResponseStreamInner.pushChunkIfRoom_of_open hc he, if_pos hfull]
    rw [hno] at hok
    cases hok

/-- **A delivery is taken whole only if it fits, or alone.** -/
theorem WithinOrOne.pushIfRoom (h : WithinOrOne m q) {b : Bytes} (hb : b ≠ []) :
    WithinOrOne m (q.pushIfRoom b) := by
  rcases q.pushIfRoom_cases b with ⟨-, hsame⟩ | ⟨-, -, -, -, -, hin⟩
  · rw [hsame]
    exact h
  · have hitems : (q.pushIfRoom b).stream.items = q.stream.items ++ [.Chunk b] := by
      rw [hin, ResponseStreamInner.append_items]
    refine ⟨h.budget, ?_, ?_⟩
    · by_cases hq : q.stream.bufferedBytes = 0
      · right
        refine ⟨b, ?_⟩
        rw [hitems, chunksOf_append, h.chunks_nil hq, List.nil_append, chunksOf_chunk]
      · left
        rw [hin, ResponseStreamInner.append_bytes, bytes_chunk]
        by_contra hover
        have hsame : (q.pushIfRoom b).stream.bufferedBytes = q.stream.bufferedBytes := by
          rw [pushIfRoom_of_full h.budget hb (by omega) (by omega)]
        rw [hin, ResponseStreamInner.append_bytes, bytes_chunk] at hsame
        have hpos := List.length_pos_of_ne_nil hb
        omega
    · rw [hitems, List.mem_append, List.mem_singleton, StreamItem.Chunk.injEq]
      rintro (hmem | hnil)
      · exact h.nonempty hmem
      · exact hb hnil.symm

end Tracked

end Ruvoy
