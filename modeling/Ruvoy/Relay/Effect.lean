import Ruvoy.Relay.Copy

/-!
# What a step of one direction changes

A step of `copy` touches few of the fields of its two streams, and says so by the place it goes to.

* `Effect`, `effect_next`: the flags and the source before and after a step;
* `Undisturbed`: a source that no worker cancels is emptied before its end is seen;
* `Kept`: the flags of the streams change only where the direction ends;
* `Onward`: what the relay needs to know of a change to one direction.
-/

set_option autoImplicit false

namespace Ruvoy.Relay

open Tracked (Later)

/-! ## A direction that nobody cuts off -/

/-- As long as no worker cancels the source, it is cancelled only by a timeout or after the end, and
the end comes after everything was taken. -/
structure Undisturbed (c : Copy) : Prop where
  cancelled : c.source.stream.cancelled = true →
    c.place.live = false ∨ c.place = .timingOut .cancelRequest
  emptied : c.place = .closeWrite ∨ c.place = .ended .eof → c.source.Emptied

/-- The flags of the streams change only where the direction ends. -/
structure Kept (c₀ c : Copy) : Prop where
  read : c.place ≠ .ended .refused → c.readClosed = c₀.readClosed
  write : c.place ≠ .ended .eof → c.writeClosed = c₀.writeClosed

section Direction

variable {c₀ c d : Copy}

theorem Undisturbed.fill (h : Undisturbed c) {op : QueueOp} (hop : fills op = true)
    (hne : op ≠ .cancel) : Undisturbed { c with source := c.source.apply op } := by
  refine ⟨fun hc => h.cancelled ?_, fun hp => ?_⟩
  · have hsame := c.source.apply_cancelled op
    rw [show (c.source.apply op).stream.cancelled = true from hc] at hsame
    have hno : (op == QueueOp.cancel) = false := by simpa using hne
    rw [hno, Bool.or_false] at hsame
    exact hsame.symm
  · obtain ⟨he, hall⟩ := h.emptied hp
    obtain ⟨hlater, htaken, -⟩ := fills_later hop c.source
    refine ⟨hlater.ended he, ?_⟩
    show bodyOf (c.source.apply op).taken = bodyOf (c.source.apply op).accepted
    rw [htaken, Tracked.apply_accepted_of_shut (by rw [he, Bool.or_true])]
    exact hall

/-- What a step of `copy` does to the flags and the source. -/
structure Effect (c d : Copy) : Prop where
  live : c.place.live = true
  readClosed : d.place = .ended .refused ∨ d.readClosed = c.readClosed
  writeClosed : d.place = .ended .eof ∨ d.writeClosed = c.writeClosed
  cancelled : d.place = .timingOut .cancelRequest ∨
    d.source.stream.cancelled = c.source.stream.cancelled
  timedOut : c.place = .timingOut .cancelRequest → d.place = .ended (.raised .timedOut)
  closing : d.place = .closeWrite → c.place = .read .check ∧ c.AtEnd ∧ d.source = c.source
  eof : d.place = .ended .eof → c.place = .closeWrite ∧ d.source = c.source
  going : d.place ≠ .stopped

/-- Neither the end of the stream nor a stop. -/
def Place.onward : Place → Bool
  | .closeWrite | .ended .eof | .stopped => false
  | _ => true

theorem Effect.plain (hlive : c.place.live = true) (hr : d.readClosed = c.readClosed)
    (hw : d.writeClosed = c.writeClosed) (hc : d.source.stream.cancelled = c.source.stream.cancelled)
    (ht : c.place ≠ .timingOut .cancelRequest) (hd : d.place.onward = true) : Effect c d := by
  have hne : ∀ {p : Place}, p.onward = false → d.place ≠ p := by
    rintro p hp rfl
    rw [hd] at hp
    cases hp
  exact ⟨hlive, Or.inr hr, Or.inr hw, Or.inr hc, fun h => absurd h ht, fun h => absurd h (hne rfl),
    fun h => absurd h (hne rfl), hne rfl⟩

theorem Effect.goto {p₀ p : Place} (hp₀ : c.place = p₀) (hlive : p₀.live = true)
    (ht : p₀ ≠ .timingOut .cancelRequest) (hp : p.onward = true) : Effect c (c.goto p) :=
  .plain (hp₀ ▸ hlive) rfl rfl rfl (hp₀ ▸ ht) hp

theorem effect_drain (hp : c.place = .read .take) : Effect c c.drain := by
  have hlive : c.place.live = true := by rw [hp]; rfl
  have hout : c.place ≠ .timingOut .cancelRequest := by rw [hp]; rintro ⟨⟩
  have hcancel : c.source.takeNext.stream.cancelled = c.source.stream.cancelled :=
    ResponseStream.takeNext_cancelled
  unfold Copy.drain
  split_ifs
  · exact .goto hp rfl (by rintro ⟨⟩) rfl
  · split
    · exact .plain hlive rfl rfl hcancel hout (by rw [hp]; rfl)
    · exact .plain hlive rfl rfl hcancel hout rfl
    · exact .plain hlive rfl rfl hcancel hout rfl

theorem effect_check (hp : c.place = .read .check) : Effect c c.check := by
  have hlive : c.place.live = true := by rw [hp]; rfl
  have hout : c.place ≠ .timingOut .cancelRequest := by rw [hp]; rintro ⟨⟩
  unfold Copy.check Copy.answer Copy.send
  by_cases hb : c.buffer = []
  · simp only [hb, List.isEmpty_nil, Bool.not_true, Bool.false_or, if_true]
    split_ifs with hfin
    · cases hf : c.failure with
      | none =>
        exact ⟨hlive, Or.inr rfl, Or.inr rfl, Or.inr rfl, fun ht => absurd ht hout,
          fun _ => ⟨hp, Inv.atEnd hb hf hfin, rfl⟩, by rintro ⟨⟩, by rintro ⟨⟩⟩
      | some error => exact .goto hp rfl (by rintro ⟨⟩) rfl
    · exact .goto hp rfl (by rintro ⟨⟩) rfl
  · have hne : c.buffer.isEmpty = false := by simpa using hb
    simp only [hne, Bool.not_false, Bool.true_or, if_true, Bool.false_eq_true, if_false]
    split_ifs
    · exact .plain hlive rfl rfl rfl hout rfl
    · exact .plain hlive rfl rfl rfl hout rfl

theorem effect_next (ht : c.next = some d) : Effect c d := by
  unfold Copy.next at ht
  split at ht
  · rename_i hp
    cases ht
    split_ifs <;> exact .goto hp rfl (by rintro ⟨⟩) rfl
  · rename_i hp
    cases ht
    exact effect_drain hp
  · rename_i hp
    cases ht
    exact effect_check hp
  · rename_i hp
    cases ht
    exact .plain (by rw [hp]; rfl) rfl rfl (ResponseStream.park_cancelled _) (by rw [hp]; rintro ⟨⟩) rfl
  · rename_i hp
    cases ht
    exact .plain (by rw [hp]; rfl) rfl rfl rfl (by rw [hp]; rintro ⟨⟩) rfl
  · rename_i hp
    cases ht
    exact .plain (by rw [hp]; rfl) rfl rfl rfl (by rw [hp]; rintro ⟨⟩) rfl
  · rename_i hp
    cases ht
    exact ⟨by rw [hp]; rfl, Or.inr rfl, Or.inr rfl, Or.inl rfl,
      fun h => absurd (hp.symm.trans h) (by rintro ⟨⟩), by rintro ⟨⟩, by rintro ⟨⟩, by rintro ⟨⟩⟩
  · rename_i hp
    cases ht
    exact ⟨by rw [hp]; rfl, Or.inr rfl, Or.inr rfl, Or.inr rfl, fun _ => rfl, by rintro ⟨⟩, by rintro ⟨⟩,
      by rintro ⟨⟩⟩
  · rename_i hp
    cases ht
    exact .plain (by rw [hp]; rfl) rfl rfl rfl (by rw [hp]; rintro ⟨⟩) rfl
  · rename_i hp
    cases ht
    exact .goto hp rfl (by rintro ⟨⟩) rfl
  · rename_i hp
    cases ht
    exact .plain (by rw [hp]; rfl) rfl rfl rfl (by rw [hp]; rintro ⟨⟩) rfl
  · rename_i hp
    cases ht
    exact .plain (by rw [hp]; rfl) rfl rfl rfl (by rw [hp]; rintro ⟨⟩) rfl
  · rename_i hp
    cases ht
    unfold Copy.writeStep
    split
    · exact .plain (by rw [hp]; rfl) rfl rfl rfl (by rw [hp]; rintro ⟨⟩) rfl
    · exact ⟨by rw [hp]; rfl, Or.inl rfl, Or.inr rfl, Or.inr rfl,
        fun h => absurd (hp.symm.trans h) (by rintro ⟨⟩), by rintro ⟨⟩, by rintro ⟨⟩, by rintro ⟨⟩⟩
  · rename_i hp
    cases ht
    have hsame : c.closeWrite.source = c.source ∧ c.closeWrite.readClosed = c.readClosed := by
      unfold Copy.closeWrite
      split_ifs <;> exact ⟨rfl, rfl⟩
    exact ⟨by rw [hp]; rfl, Or.inr hsame.2, Or.inl rfl, Or.inr (congrArg (·.stream.cancelled) hsame.1),
      fun h => absurd (hp.symm.trans h) (by rintro ⟨⟩), by rintro ⟨⟩,
      fun _ => ⟨hp, hsame.1⟩, by rintro ⟨⟩⟩
  · cases ht
  · cases ht
  · cases ht
  · cases ht

theorem Undisturbed.next (h : Undisturbed c) (ht : c.next = some d) : Undisturbed d := by
  have he := effect_next ht
  refine ⟨fun hc => ?_, ?_⟩
  · rcases he.cancelled with hout | hsame
    · exact Or.inr hout
    · rcases h.cancelled (hsame ▸ hc) with hl | hout
      · rw [he.live] at hl
        cases hl
      · rw [he.timedOut hout]
        exact Or.inl rfl
  · rintro (hp | hp)
    · obtain ⟨hcheck, hend, hsame⟩ := he.closing hp
      rw [hsame]
      refine hend.spent.resolve_left fun hc => ?_
      rcases h.cancelled hc with hl | hout
      · rw [he.live] at hl
        cases hl
      · rw [hcheck] at hout
        cases hout
    · obtain ⟨hclose, hsame⟩ := he.eof hp
      rw [hsame]
      exact h.emptied (Or.inl hclose)

theorem Undisturbed.same (h : Undisturbed c) (hs : d.source = c.source) (hp : d.place = c.place) :
    Undisturbed d := by
  refine ⟨fun hc => ?_, fun hend => ?_⟩
  · rw [hp]
    exact h.cancelled (hs ▸ hc)
  · rw [hs]
    exact h.emptied (hp ▸ hend)

theorem Undisturbed.resumed (h : Undisturbed c) (hs : d.source = c.source) (hlive : c.place.live = true)
    (hout : c.place ≠ .timingOut .cancelRequest) (hcw : d.place ≠ .closeWrite)
    (he : d.place ≠ .ended .eof) : Undisturbed d := by
  refine ⟨fun hc => ?_, fun hend => absurd hend (not_or.mpr ⟨hcw, he⟩)⟩
  rcases h.cancelled (hs ▸ hc) with hl | ht
  · rw [hlive] at hl
    cases hl
  · exact absurd ht hout

theorem Undisturbed.woken (h : Undisturbed c) (ht : c.woken = some d) : Undisturbed d := by
  unfold Copy.woken at ht
  split at ht
  · rename_i hp
    cases ht
    exact h.resumed rfl (by rw [hp]; rfl) (by rw [hp]; rintro ⟨⟩) (by rintro ⟨⟩) (by rintro ⟨⟩)
  · rename_i hp
    cases ht
    exact h.resumed rfl (by rw [hp]; rfl) (by rw [hp]; rintro ⟨⟩) (by rintro ⟨⟩) (by rintro ⟨⟩)
  · cases ht

/-- The end of a stream is seen before the relay cancels its queue. -/
theorem Undisturbed.cancelSource (h : Undisturbed c) (hlive : c.place.live = false) :
    Undisturbed { c with source := c.source.cancel } :=
  ⟨fun _ => Or.inl hlive, fun hp => h.emptied hp⟩

theorem Undisturbed.stop (h : Undisturbed c) : Undisturbed c.stop := by
  rcases c.stop_cases with ⟨-, hsame⟩ | ⟨-, hp⟩
  · rw [hsame]
    exact h
  · refine ⟨fun _ => Or.inl (by rw [hp]; rfl), fun hend => ?_⟩
    rw [hp] at hend
    rcases hend with hcw | he
    · cases hcw
    · cases he

theorem Kept.next (h : Inv c₀ c) (ht : c.next = some d) : Kept c₀ d := by
  have he := effect_next ht
  obtain ⟨hr, hw⟩ := h.opened he.live
  exact ⟨fun hne => (he.readClosed.resolve_left hne).trans hr,
    fun hne => (he.writeClosed.resolve_left hne).trans hw⟩

theorem ending_of_live (h : c.place.live = true) : c.ending = none := by
  unfold Copy.ending
  split
  · rename_i e hp
    rw [hp] at h
    cases h
  · rfl

theorem ending_eq_some {e : Ending} : c.ending = some e ↔ c.place = .ended e := by
  unfold Copy.ending
  split
  · rename_i f hp
    rw [hp, Option.some.injEq, Place.ended.injEq]
  · rename_i hp
    constructor
    · rintro ⟨⟩
    · exact fun h => absurd h (hp e)

theorem ending_stop : c.stop.ending = c.ending := by
  rcases c.stop_cases with ⟨-, hsame⟩ | ⟨hlive, hp⟩
  · rw [hsame]
  · rw [ending_of_live hlive, Copy.ending, hp]

/-- What is true of one direction before is true of it after; the flags may change once the relay
`closes` its streams. -/
structure Onward (closes : Bool) (c₀ c d : Copy) : Prop where
  inv : Inv c₀ d
  live : c.place.live = false → d.place.live = false
  read : c.readClosed = true → d.readClosed = true
  write : c.writeClosed = true → d.writeClosed = true
  kept : closes = false → Kept c₀ c → Kept c₀ d

variable {m : Bool}

theorem Onward.same (hinv : Inv c₀ d) (hp : d.place = c.place) (hr : d.readClosed = c.readClosed)
    (hw : d.writeClosed = c.writeClosed) : Onward m c₀ c d :=
  ⟨hinv, fun hl => hp ▸ hl, fun h => hr.trans h, fun h => hw.trans h,
    fun _ hk => ⟨fun hne => hr.trans (hk.read (hp ▸ hne)),
      fun hne => hw.trans (hk.write (hp ▸ hne))⟩⟩

theorem Onward.goes (hinv : Inv c₀ d) (hlive : c.place.live = true) (hr : d.readClosed = c.readClosed)
    (hw : d.writeClosed = c.writeClosed) (hold : Inv c₀ c) : Onward m c₀ c d := by
  obtain ⟨hr₀, hw₀⟩ := hold.opened hlive
  exact ⟨hinv, fun hl => absurd (hlive.symm.trans hl) (by decide), fun h => hr.trans h,
    fun h => hw.trans h, fun _ _ => ⟨fun _ => hr.trans hr₀, fun _ => hw.trans hw₀⟩⟩

theorem Onward.next (h : Inv c₀ c) (ht : c.next = some d) : Onward m c₀ c d := by
  have he := effect_next ht
  have hd := h.next ht
  refine ⟨hd, fun hl => ?_, fun hr => ?_, fun hw => ?_, fun _ _ => Kept.next h ht⟩
  · rw [he.live] at hl
    cases hl
  · rcases he.readClosed with hp | hsame
    · have hfits := hd.fits
      rw [hp] at hfits
      exact hfits.1
    · exact hsame.trans hr
  · rcases he.writeClosed with hp | hsame
    · have hfits := hd.fits
      rw [hp] at hfits
      exact hfits.2
    · exact hsame.trans hw

theorem Onward.stop (h : Inv c₀ c) : Onward m c₀ c c.stop := by
  rcases c.stop_cases with ⟨-, hsame⟩ | ⟨hlive, -⟩
  · rw [hsame]
    exact .same h rfl rfl rfl
  · refine .goes h.stop hlive ?_ ?_ h
    · unfold Copy.stop
      split <;> rfl
    · unfold Copy.stop
      split <;> rfl

theorem woken_live (ht : c.woken = some d) : c.place.live = true ∧ d.ending = none ∧
    d.readClosed = c.readClosed ∧ d.writeClosed = c.writeClosed ∧ d.source = c.source ∧
    d.place ≠ .closeWrite := by
  unfold Copy.woken at ht
  split at ht
  · rename_i hp
    cases ht
    exact ⟨by rw [hp]; rfl, rfl, rfl, rfl, rfl, by rintro ⟨⟩⟩
  · rename_i hp
    cases ht
    exact ⟨by rw [hp]; rfl, rfl, rfl, rfl, rfl, by rintro ⟨⟩⟩
  · cases ht

end Direction

end Ruvoy.Relay
