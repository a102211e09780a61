import Ruvoy.Relay.Effect

/-!
# What a relay comes to

* `Tally`: what was popped and what is queued are the endings of the two directions;
* `RelayInv`: both directions keep their invariant, and how far the fiber of the relay has come says
  which streams are closed and which fibers are stopped;
* **`relay_carries`**: in every reachable state nothing between the two streams is repeated or reordered,
  and nothing is lost but the rest of one piece, by a direction that was refused or stopped;
* **`relay_returned`**: a relay that returns has closed both streams, and has written all that it read in
  both directions, or found nobody left to write to;
* **`relay_raised`**: a relay that raises does so with what ended one direction, and leaves both streams
  as they were.
-/

set_option autoImplicit false

namespace Ruvoy.Relay

open Runs

/-! ## The relay -/

namespace State

variable (s : State)

@[simp] theorem copy_setCopy_same (d : Direction) (c : Copy) : (s.setCopy d c).copy d = c := by
  cases d <;> rfl

theorem copy_setCopy_ne {d e : Direction} (h : e ≠ d) (c : Copy) :
    (s.setCopy d c).copy e = s.copy e := by
  cases d <;> cases e <;> first | rfl | exact absurd rfl h

/-- What held of a direction holds of it after a change, when it does of the direction that changed. -/
theorem setCopy_each {P : Direction → Copy → Prop} {d e : Direction} {c : Copy}
    (hc : P d (s.copy d) → P d c) (h : P e (s.copy e)) : P e ((s.setCopy d c).copy e) := by
  by_cases hed : e = d
  · subst hed
    rw [copy_setCopy_same]
    exact hc h
  · rw [copy_setCopy_ne s hed]
    exact h

@[simp] theorem setCopy_main (d : Direction) (c : Copy) : (s.setCopy d c).main = s.main := by
  cases d <;> rfl

/-- The endings there are. -/
def ended : List Ending := s.out.ending.toList ++ s.back.ending.toList

/-- The stream that direction `d` reads is closed. -/
def Closed (d : Direction) : Prop :=
  (s.copy d).readClosed = true ∧ (s.copy d.other).writeClosed = true

/-- Where the fiber of the relay is once it has stopped a direction. -/
def afterStop (r : Result) : Direction → Main
  | .out => .stopping .back r
  | .back => .done r

end State

/-- What a step of the fiber of the relay comes to. -/
inductive MainMoves (s : State) : State → Prop
  | pops {popped : ℕ} {e : Ending} {rest : List Ending} (main : s.main = .collect popped)
      (endings : s.endings = e :: rest) :
      MainMoves s { s with
        endings := rest
        main := match e.failure with
          | some error => .stopping .out (.raised error)
          | none => if popped = 0 then .collect 1 else .closing .back .halves }
  | halves {d : Direction} (main : s.main = .closing d .halves) :
      MainMoves s { s.closeHalves d with
        main := if (s.copy d).upstream then .closing d .cancelResponse else State.afterClosing d }
  | response {d : Direction} (main : s.main = .closing d .cancelResponse) :
      MainMoves s { s.setCopy d { s.copy d with source := (s.copy d).source.cancel } with
        main := .closing d .cancelRequest }
  | request {d : Direction} (main : s.main = .closing d .cancelRequest) :
      MainMoves s { s.cancelSink d.other with main := State.afterClosing d }
  | stops {d : Direction} {r : Result} (main : s.main = .stopping d r) :
      MainMoves s { s.setCopy d (s.copy d).stop with main := State.afterStop r d }

theorem mainStep_moves {s t : State} (ht : s.mainStep = some t) : MainMoves s t := by
  unfold State.mainStep at ht
  cases hm : s.main with
  | collect popped =>
    cases he : s.endings with
    | nil =>
      simp only [hm, he] at ht
      cases ht
    | cons e rest =>
      simp only [hm, he, Option.some.injEq] at ht
      exact ht ▸ .pops hm he
  | closing d k =>
    cases k with
    | halves =>
      simp only [hm, Option.some.injEq] at ht
      exact ht ▸ .halves hm
    | cancelResponse =>
      simp only [hm, Option.some.injEq] at ht
      exact ht ▸ .response hm
    | cancelRequest =>
      simp only [hm, Option.some.injEq] at ht
      exact ht ▸ .request hm
  | stopping d r =>
    cases d with
    | out =>
      simp only [hm, Option.some.injEq] at ht
      exact ht ▸ .stops (d := .out) hm
    | back =>
      simp only [hm, Option.some.injEq] at ht
      exact ht ▸ .stops (d := .back) hm
  | done r =>
    simp only [hm] at ht
    cases ht

theorem Direction.other_ne (d : Direction) : d.other ≠ d := by cases d <;> rintro ⟨⟩

/-- None of these endings is a failure. -/
def Calm (popped : List Ending) : Prop := ∀ e ∈ popped, e.failure = none

/-- What was popped, for the place of the fiber of the relay. -/
def Reckoned (popped : List Ending) : Main → Prop
  | .collect n => popped.length = n ∧ n ≤ 1 ∧ Calm popped
  | .closing _ _ | .stopping _ .returned | .done .returned => popped.length = 2 ∧ Calm popped
  | .stopping _ (.raised error) | .done (.raised error) => .raised error ∈ popped
  | .stopping _ .interrupted | .done .interrupted => True

/-- Which streams are closed there. -/
def Closes (s : State) : Main → Prop
  | .collect _ | .closing .back .halves => True
  | .closing .back _ | .closing .out .halves => s.Closed .back
  | .closing .out _ | .stopping _ .returned | .done .returned => s.Closed .back ∧ s.Closed .out
  | .stopping _ _ | .done _ => True

/-- The relay closes its streams only when it returns. -/
def Main.closes : Main → Bool
  | .closing _ _ | .stopping _ .returned | .done .returned => true
  | _ => false

/-- Which fibers are stopped there. -/
def Stops (s : State) : Main → Prop
  | .stopping .back _ => s.out.place.live = false
  | .done _ => s.out.place.live = false ∧ s.back.place.live = false
  | _ => True

theorem Closes.mono {s t : State} (hst : ∀ d, s.Closed d → t.Closed d) {m : Main} (h : Closes s m) :
    Closes t m := by
  cases m with
  | collect n => trivial
  | closing d k =>
    cases d with
    | out =>
      cases k with
      | halves => exact hst _ h
      | _ => exact ⟨hst _ h.1, hst _ h.2⟩
    | back =>
      cases k with
      | halves => trivial
      | _ => exact hst _ h
  | stopping d r | done r =>
    cases r with
    | returned => exact ⟨hst _ h.1, hst _ h.2⟩
    | _ => trivial

theorem Stops.mono {s t : State}
    (hst : ∀ d, (s.copy d).place.live = false → (t.copy d).place.live = false) {m : Main}
    (h : Stops s m) : Stops t m := by
  cases m with
  | stopping d r =>
    cases d with
    | out => trivial
    | back => exact hst .out h
  | done r => exact ⟨hst .out h.1, hst .back h.2⟩
  | _ => trivial

structure RelayInv (s₀ s : State) : Prop where
  copies : ∀ d, Inv (s₀.copy d) (s.copy d)
  tally : ∃ popped, (popped ++ s.endings).Perm s.ended ∧ Reckoned popped s.main
  closes : Closes s s.main
  stops : Stops s s.main
  kept : s.main.closes = false → ∀ d, Kept (s₀.copy d) (s.copy d)

namespace RelayInv

variable {s₀ s t : State}

/-- After two endings without a failure both directions are over, and quietly. -/
theorem both (h : RelayInv s₀ s) (hm : s.main.closes = true) (d : Direction) :
    ∃ e, (s.copy d).place = .ended e ∧ e.failure = none := by
  obtain ⟨popped, hperm, hpopped⟩ := h.tally
  have htwo : popped.length = 2 ∧ Calm popped := by
    cases hmain : s.main with
    | collect n => rw [hmain] at hm; cases hm
    | closing d k => rw [hmain] at hpopped; exact hpopped
    | stopping d r | done r =>
      cases r with
      | returned => rw [hmain] at hpopped; exact hpopped
      | _ => rw [hmain] at hm; cases hm
  obtain ⟨hlen, hcalm⟩ := htwo
  have hcount := hperm.length_eq
  rw [List.length_append, hlen, State.ended, List.length_append] at hcount
  have hle : ∀ o : Option Ending, o.toList.length ≤ 1 := by
    intro o
    cases o <;> simp
  have hout := hle s.out.ending
  have hback := hle s.back.ending
  have hnil : s.endings = [] := List.eq_nil_of_length_eq_zero (by omega)
  rw [hnil, List.append_nil] at hperm
  have hsome : ∃ e, (s.copy d).ending = some e := by
    rw [← Option.isSome_iff_exists, ← Option.length_toList_eq_one_iff]
    cases d
    · show s.out.ending.toList.length = 1
      omega
    · show s.back.ending.toList.length = 1
      omega
  obtain ⟨e, he⟩ := hsome
  refine ⟨e, ending_eq_some.mp he, hcalm e (hperm.mem_iff.mpr ?_)⟩
  cases d with
  | out => exact List.mem_append_left _ (Option.mem_toList.mpr he)
  | back => exact List.mem_append_right _ (Option.mem_toList.mpr he)

theorem set (h : RelayInv s₀ s) {d : Direction} {c : Copy} {l : List Ending}
    (hc : Onward s.main.closes (s₀.copy d) (s.copy d) c)
    (hl : (s.endings ++ (s.setCopy d c).ended).Perm (l ++ s.ended)) :
    RelayInv s₀ { s.setCopy d c with endings := l } := by
  have hread : ∀ e, (s.copy e).readClosed = true → ((s.setCopy d c).copy e).readClosed = true :=
    fun _ he => s.setCopy_each (P := fun _ c => c.readClosed = true) hc.read he
  have hwrite : ∀ e, (s.copy e).writeClosed = true → ((s.setCopy d c).copy e).writeClosed = true :=
    fun _ he => s.setCopy_each (P := fun _ c => c.writeClosed = true) hc.write he
  have hlive : ∀ e, (s.copy e).place.live = false → ((s.setCopy d c).copy e).place.live = false :=
    fun _ he => s.setCopy_each (P := fun _ c => c.place.live = false) hc.live he
  have hclosed : ∀ e, s.Closed e → (s.setCopy d c).Closed e :=
    fun e he => ⟨hread e he.1, hwrite e.other he.2⟩
  have hmain : (s.setCopy d c).main = s.main := s.setCopy_main d c
  obtain ⟨popped, hperm, hpopped⟩ := h.tally
  refine ⟨fun e => ?_, ⟨popped, ?_, hmain.symm ▸ hpopped⟩, ?_, ?_, fun hm e => ?_⟩
  · exact s.setCopy_each (P := fun e c => Inv (s₀.copy e) c) (fun _ => hc.inv) (h.copies e)
  · show (popped ++ l).Perm (s.setCopy d c).ended
    have hall : (s.endings ++ (popped ++ l)).Perm (s.endings ++ (s.setCopy d c).ended) := by
      refine List.Perm.trans ?_ hl.symm
      refine List.Perm.trans ?_ (List.Perm.append_left l hperm)
      refine List.Perm.trans (List.perm_append_comm_assoc _ _ _) ?_
      refine List.Perm.trans (List.Perm.append_left popped List.perm_append_comm) ?_
      exact List.perm_append_comm_assoc _ _ _
    exact (List.perm_append_left_iff _).mp hall
  · show Closes (s.setCopy d c) (s.setCopy d c).main
    rw [hmain]
    exact h.closes.mono hclosed
  · show Stops (s.setCopy d c) (s.setCopy d c).main
    rw [hmain]
    exact h.stops.mono hlive
  · exact s.setCopy_each (P := fun e c => Kept (s₀.copy e) c) (hc.kept (hmain ▸ hm))
      (h.kept (hmain ▸ hm) e)

theorem setCopy (h : RelayInv s₀ s) {d : Direction} {c : Copy}
    (hc : Onward s.main.closes (s₀.copy d) (s.copy d) c) (he : c.ending = (s.copy d).ending) :
    RelayInv s₀ (s.setCopy d c) := by
  have hended : (s.setCopy d c).ended = s.ended := by
    cases d with
    | out => exact congrArg (·.toList ++ _) he
    | back => exact congrArg (_ ++ ·.toList) he
  have hset : { s.setCopy d c with endings := s.endings } = s.setCopy d c := by cases d <;> rfl
  exact hset ▸ h.set hc (hended ▸ List.Perm.refl _)

theorem move (h : RelayInv s₀ s) {m : Main} (hrec : ∀ popped, Reckoned popped s.main → Reckoned popped m)
    (hcloses : Closes s m) (hstops : Stops s m) (hkept : m.closes = false → s.main.closes = false) :
    RelayInv s₀ { s with main := m } := by
  obtain ⟨popped, hperm, hpopped⟩ := h.tally
  refine ⟨h.copies, ⟨popped, hperm, hrec popped hpopped⟩, ?_, ?_, fun hm => h.kept (hkept hm)⟩
  · exact hcloses.mono fun d hd => hd
  · exact hstops.mono fun d hd => hd

theorem woken (h : RelayInv s₀ s) {d : Direction} (ht : (s.copy d).woken.map (s.setCopy d) = some t) :
    RelayInv s₀ t := by
  rw [Option.map_eq_some_iff] at ht
  obtain ⟨c, hc, rfl⟩ := ht
  obtain ⟨hlive, hend, hr, hw, -⟩ := woken_live hc
  exact h.setCopy (.goes ((h.copies d).woken hc) hlive hr hw (h.copies d))
    (hend.trans (ending_of_live hlive).symm)

/-- **A step of a direction.** -/
theorem nextStep (h : RelayInv s₀ s) {d : Direction} (ht : s.nextStep d = some t) : RelayInv s₀ t := by
  unfold State.nextStep at ht
  rw [Option.map_eq_some_iff] at ht
  obtain ⟨c, hc, rfl⟩ := ht
  -- The cancel at the end of a `time_out` is a worker's operation to the other direction.
  have hfirst : RelayInv s₀
      (if (s.copy d).place = .timingOut .cancelRequest then s.cancelSink d.other else s) := by
    split_ifs
    · exact h.setCopy (.same ((h.copies d.other).empty (o := .cancel) rfl) rfl rfl rfl) rfl
    · exact h
  have hcopy : State.copy
      (if (s.copy d).place = .timingOut .cancelRequest then s.cancelSink d.other else s) d =
        s.copy d := by
    split_ifs
    · exact s.copy_setCopy_ne d.other_ne.symm _
    · rfl
  generalize (if (s.copy d).place = .timingOut .cancelRequest then s.cancelSink d.other else s) = u
    at hfirst hcopy
  rw [← hcopy] at hc
  have hnone : (u.copy d).ending = none := ending_of_live (effect_next hc).live
  refine hfirst.set (.next (hfirst.copies d) hc) ?_
  rw [List.append_assoc]
  refine List.Perm.append_left _ ?_
  cases d with
  | out =>
    show (c.ending.toList ++ u.back.ending.toList).Perm
      (c.ending.toList ++ (u.out.ending.toList ++ u.back.ending.toList))
    rw [show u.out.ending = none from hnone]
    exact List.Perm.refl _
  | back =>
    show (u.out.ending.toList ++ c.ending.toList).Perm
      (c.ending.toList ++ (u.out.ending.toList ++ u.back.ending.toList))
    rw [show u.back.ending = none from hnone, Option.toList_none, List.append_nil]
    exact List.perm_append_comm

theorem pop (h : RelayInv s₀ s) {popped : ℕ} (hm : s.main = .collect popped) {e : Ending}
    {rest : List Ending} (he : s.endings = e :: rest) :
    RelayInv s₀ { s with
      endings := rest
      main := match e.failure with
        | some error => .stopping .out (.raised error)
        | none => if popped = 0 then .collect 1 else .closing .back .halves } := by
  obtain ⟨before, hperm, hbefore⟩ := h.tally
  rw [hm] at hbefore
  obtain ⟨hlen, hle, hcalm⟩ := hbefore
  have hall : ((before ++ [e]) ++ rest).Perm s.ended := by
    rw [List.append_assoc, List.singleton_append, ← he]
    exact hperm
  have hkept := h.kept (by rw [hm]; rfl)
  cases hf : e.failure with
  | some error =>
    have hraised : e = .raised error := by
      cases e with
      | raised error' =>
        rw [Ending.failure, Option.some.injEq] at hf
        rw [hf]
      | _ => cases hf
    refine ⟨h.copies, ⟨before ++ [e], hall, ?_⟩, trivial, trivial, fun _ => hkept⟩
    show Ending.raised error ∈ before ++ [e]
    rw [← hraised]
    exact List.mem_append_right _ (List.mem_singleton_self e)
  | none =>
    have hcalm' : Calm (before ++ [e]) := by
      intro f hmem
      rcases List.mem_append.mp hmem with hold | hnew
      · exact hcalm f hold
      · rw [List.mem_singleton.mp hnew]
        exact hf
    by_cases hzero : popped = 0
    · rw [if_pos hzero]
      refine ⟨h.copies, ⟨before ++ [e], hall, ?_, le_rfl, hcalm'⟩, trivial, trivial, fun _ => hkept⟩
      rw [List.length_append, List.length_singleton, hlen, hzero]
    · rw [if_neg hzero]
      refine ⟨h.copies, ⟨before ++ [e], hall, ?_, hcalm'⟩, trivial, trivial, fun hc => by cases hc⟩
      rw [List.length_append, List.length_singleton, hlen]
      omega

theorem closeWrite_closed (c : Copy) : c.closeWrite.writeClosed = true ∧
    c.closeWrite.place = c.place ∧ c.closeWrite.readClosed = c.readClosed := by
  unfold Copy.closeWrite
  split_ifs with hw
  · exact ⟨hw, rfl, rfl⟩
  · exact ⟨rfl, rfl, rfl⟩

/-- `close_read` and `close_write` of one stream, after both directions ended. -/
theorem closeHalves (h : RelayInv s₀ s) {d : Direction} (hm : s.main = .closing d .halves) :
    RelayInv s₀ (s.closeHalves d) ∧ (s.closeHalves d).Closed d ∧
      (s.closeHalves d).main = .closing d .halves := by
  have hcl : s.main.closes = true := by rw [hm]; rfl
  have hdead : ∀ e, (s.copy e).place.live = false := by
    intro e
    obtain ⟨f, hf, -⟩ := h.both hcl e
    rw [hf]
    rfl
  have hread : RelayInv s₀ (s.setCopy d { s.copy d with readClosed := true }) := by
    refine h.setCopy ⟨(h.copies d).closeRead (hdead d), id, fun _ => rfl, id, fun hc => ?_⟩ rfl
    rw [hcl] at hc
    cases hc
  obtain ⟨hwrite, hplace, hflag⟩ := closeWrite_closed (s.copy d.other)
  have hother : (s.setCopy d { s.copy d with readClosed := true }).copy d.other = s.copy d.other :=
    s.copy_setCopy_ne d.other_ne _
  have hinv : Inv (s₀.copy d.other) (s.copy d.other).closeWrite := by
    have hclose := (h.copies d.other).closeWrite (p := (s.copy d.other).place) rfl rfl rfl id
      (hdead d.other) (fun hf => ?_) id id
    · have hsame : (s.copy d.other).closeWrite.goto (s.copy d.other).place =
          (s.copy d.other).closeWrite := by
        rw [← hplace]
        rfl
      rwa [hsame] at hclose
    · obtain ⟨e, he, hcalm⟩ := h.both hcl d.other
      rw [he] at hf ⊢
      cases e with
      | raised error => cases hcalm
      | eof =>
        refine ⟨⟨?_, ?_, ?_⟩, hwrite⟩
        all_goals unfold Copy.closeWrite
        all_goals split_ifs
        exacts [hf.1.buffer, hf.1.buffer, hf.1.failure, hf.1.failure, hf.1.spent, hf.1.spent]
      | refused =>
        refine ⟨hflag.trans hf.1, ?_⟩
        unfold Copy.closeWrite
        split_ifs
        · exact hf.2
        · exact Tracked.shut_push_end _
  refine ⟨hread.setCopy ⟨hother.symm ▸ hinv, ?_, ?_, fun _ => hwrite, fun hc => ?_⟩ ?_, ⟨?_, ?_⟩, ?_⟩
  · rw [hother, hplace]
    exact id
  · rw [hother, hflag]
    exact id
  · rw [State.setCopy_main, hcl] at hc
    cases hc
  · rw [hother, Copy.ending, Copy.ending, hplace]
  · rw [State.closeHalves, State.copy_setCopy_ne _ d.other_ne.symm, State.copy_setCopy_same]
  · rw [State.closeHalves, State.copy_setCopy_same]
    exact hwrite
  · rw [State.closeHalves, State.setCopy_main, State.setCopy_main, hm]

/-- After a stream is closed, the fiber of the relay goes on to what is left. -/
theorem afterClosing (h : RelayInv s₀ s) {d : Direction} {k : Closing} (hm : s.main = .closing d k)
    (hc : s.Closed d) : RelayInv s₀ { s with main := State.afterClosing d } := by
  have hcloses := h.closes
  rw [hm] at hcloses
  have hrec : ∀ popped, Reckoned popped s.main → popped.length = 2 ∧ Calm popped := by
    rw [hm]
    exact fun _ => id
  have hkept : s.main.closes = true := by rw [hm]; rfl
  cases d with
  | back => exact h.move hrec hc trivial fun hf => by cases hf
  | out =>
    refine h.move hrec ⟨?_, hc⟩ trivial fun hf => by cases hf
    cases k with
    | halves => exact hcloses
    | _ => exact hcloses.1

theorem stopCopy (h : RelayInv s₀ s) {d : Direction} {r : Result} (hm : s.main = .stopping d r) :
    RelayInv s₀ { s.setCopy d (s.copy d).stop with main := State.afterStop r d } := by
  have hset : RelayInv s₀ (s.setCopy d (s.copy d).stop) :=
    h.setCopy (.stop (h.copies d)) ending_stop
  have hmain : (s.setCopy d (s.copy d).stop).main = .stopping d r := (s.setCopy_main d _).trans hm
  have hcloses := hset.closes
  have hstops := h.stops
  rw [hmain] at hcloses
  rw [hm] at hstops
  refine hset.move (fun popped hpopped => ?_) ?_ ?_ fun hf => ?_
  · rw [hmain] at hpopped
    cases d <;> cases r <;> exact hpopped
  · cases d <;> cases r <;> exact hcloses
  · cases d with
    | out => exact s.out.stop_live
    | back => exact ⟨hstops, s.back.stop_live⟩
  · rw [hmain]
    cases d <;> cases r <;> exact hf

/-- **The fiber of the relay keeps it**, wherever it is. -/
theorem mainStep (h : RelayInv s₀ s) (ht : s.mainStep = some t) : RelayInv s₀ t := by
  cases mainStep_moves ht with
  | pops hm he => exact h.pop hm he
  | @halves d hm =>
    obtain ⟨hinv, hclosed, hmain⟩ := h.closeHalves hm
    split_ifs
    · refine hinv.move (fun popped => ?_) ?_ trivial fun hf => by cases hf
      · rw [hmain]
        exact id
      · have hprior := hinv.closes
        rw [hmain] at hprior
        cases d with
        | back => exact hclosed
        | out => exact ⟨hprior, hclosed⟩
    · exact hinv.afterClosing hmain hclosed
  | @response d hm =>
    have hset : RelayInv s₀ (s.setCopy d { s.copy d with source := (s.copy d).source.cancel }) :=
      h.setCopy (.same ((h.copies d).fill (o := .cancel) rfl) rfl rfl rfl) rfl
    have hprior := hset.closes
    rw [State.setCopy_main, hm] at hprior
    refine hset.move (fun popped => ?_) ?_ trivial fun hf => by cases hf
    · rw [State.setCopy_main, hm]
      exact id
    · cases d <;> exact hprior
  | @request d hm =>
    have hset : RelayInv s₀ (s.cancelSink d.other) :=
      h.setCopy (.same ((h.copies d.other).empty (o := .cancel) rfl) rfl rfl rfl) rfl
    have hmain : (s.cancelSink d.other).main = .closing d .cancelRequest := by
      rw [State.cancelSink, State.setCopy_main, hm]
    have hprior := hset.closes
    rw [hmain] at hprior
    refine hset.afterClosing hmain ?_
    cases d with
    | back => exact hprior
    | out => exact hprior.2
  | stops hm => exact h.stopCopy hm

/-- **Every step keeps it.** -/
theorem step (h : RelayInv s₀ s) {a : Action} (ht : Relay.step s a = some t) : RelayInv s₀ t := by
  cases a with
  | source d op =>
    simp only [Relay.step, Option.ite_none_right_eq_some, Option.some.injEq] at ht
    obtain ⟨hop, rfl⟩ := ht
    exact h.setCopy (.same ((h.copies d).fill hop) rfl rfl rfl) rfl
  | sink d op =>
    simp only [Relay.step, Option.ite_none_right_eq_some, Option.some.injEq] at ht
    obtain ⟨hop, rfl⟩ := ht
    exact h.setCopy (.same ((h.copies d).empty hop) rfl rfl rfl) rfl
  | next d => exact h.nextStep ht
  | wake d =>
    simp only [Relay.step, Option.ite_none_right_eq_some] at ht
    exact h.woken ht.2
  | wakeStale d => exact h.woken ht
  | timeOut d =>
    simp only [Relay.step, Option.ite_none_right_eq_some, Option.some.injEq] at ht
    obtain ⟨⟨hu, hp⟩, rfl⟩ := ht
    have hlive : (s.copy d).place.live = true := by rw [hp]; rfl
    exact h.setCopy (.goes ((h.copies d).timeOut hp hu) hlive rfl rfl (h.copies d))
      (ending_of_live hlive).symm
  | main => exact h.mainStep ht
  | interrupt =>
    simp only [Relay.step] at ht
    cases hm : s.main with
    | collect popped =>
      simp only [hm, Option.ite_none_right_eq_some, Option.some.injEq] at ht
      obtain ⟨-, rfl⟩ := ht
      refine h.move (fun _ _ => trivial) trivial trivial fun _ => ?_
      rw [hm]
      rfl
    | _ =>
      simp only [hm] at ht
      cases ht

end RelayInv

/-- Nothing happened yet. -/
def start (out back : Copy) : State := { out := out, back := back }

variable {out back : Copy} {s : State}

theorem RelayInv.start (hout : out.Begins) (hback : back.Begins) :
    RelayInv (start out back) (start out back) := by
  have hnone : ∀ {c : Copy}, c.Begins → c.ending = none := by
    intro c hc
    rw [Copy.ending, hc.place]
  refine ⟨fun d => ?_, ⟨[], ?_, rfl, Nat.zero_le 1, ?_⟩, trivial, trivial, fun _ d => ?_⟩
  · cases d with
    | out => exact hout.inv
    | back => exact hback.inv
  · show List.Perm [] (out.ending.toList ++ back.ending.toList)
    rw [hnone hout, hnone hback]
    exact List.Perm.refl _
  · exact fun e he => absurd he List.not_mem_nil
  · exact ⟨fun _ => rfl, fun _ => rfl⟩

theorem RelayInv.of_reach {C : State → Action → Prop} (hout : out.Begins) (hback : back.Begins)
    (h : (system out back).Reach C s) : RelayInv (Relay.start out back) s := by
  refine h.induct ?_ fun s a t hi _ ht => hi.step ht
  rintro _ rfl
  exact .start hout hback

/-! ## The end of a direction that no worker cuts off -/

/-- Nobody cancels the queue that direction `d` reads. -/
def uncut (d : Direction) (a : Action) : Bool := decide (a ≠ .source d .cancel)

section Uncut

variable {s₀ t : State} {d e : Direction}

theorem undisturbed_setCopy (h : Undisturbed (s.copy d)) {c : Copy}
    (hc : e = d → Undisturbed (s.copy e) → Undisturbed c) : Undisturbed ((s.setCopy e c).copy d) := by
  exact s.setCopy_each (P := fun x c => x = d → Undisturbed c)
    (fun hp hx => hc hx (hp hx)) (fun _ => h) rfl

theorem undisturbed_mainStep (hr : RelayInv s₀ s) (h : Undisturbed (s.copy d))
    (ht : s.mainStep = some t) : Undisturbed (t.copy d) := by
  cases mainStep_moves ht with
  | pops => exact h
  | @halves e =>
    have hwrite : (s.copy e.other).closeWrite.source = (s.copy e.other).source ∧
        (s.copy e.other).closeWrite.place = (s.copy e.other).place := by
      unfold Copy.closeWrite
      split_ifs <;> exact ⟨rfl, rfl⟩
    have hread : Undisturbed ((s.setCopy e { s.copy e with readClosed := true }).copy d) :=
      undisturbed_setCopy h fun _ hu => hu.same rfl rfl
    refine undisturbed_setCopy (e := e.other) hread fun _ hu => ?_
    rw [State.copy_setCopy_ne _ e.other_ne] at hu
    exact hu.same hwrite.1 hwrite.2
  | @response e hm =>
    refine undisturbed_setCopy h fun _ hu => hu.cancelSource ?_
    obtain ⟨f, hf, -⟩ := hr.both (by rw [hm]; rfl) e
    rw [hf]
    rfl
  | request => exact undisturbed_setCopy h fun _ hu => hu.same rfl rfl
  | stops => exact undisturbed_setCopy h fun _ hu => hu.stop

theorem undisturbed_nextStep (h : Undisturbed (s.copy d)) (ht : s.nextStep e = some t) :
    Undisturbed (t.copy d) := by
  unfold State.nextStep at ht
  rw [Option.map_eq_some_iff] at ht
  obtain ⟨c, hc, rfl⟩ := ht
  have hadvance : ∀ u : State, Undisturbed (u.copy d) → u.copy e = s.copy e →
      Undisturbed ((u.advance e c).copy d) := by
    intro u hu hsame
    refine undisturbed_setCopy (s := u) hu fun _ hue => ?_
    rw [hsame] at hue
    exact hue.next hc
  split_ifs
  · refine hadvance _ (undisturbed_setCopy h fun _ hu => hu.same rfl rfl) ?_
    exact s.copy_setCopy_ne e.other_ne.symm _
  · exact hadvance s h rfl

theorem undisturbed_step (hr : RelayInv s₀ s) (h : Undisturbed (s.copy d)) {a : Action}
    (ha : uncut d a = true) (ht : Relay.step s a = some t) : Undisturbed (t.copy d) := by
  cases a with
  | source e op =>
    simp only [Relay.step, Option.ite_none_right_eq_some, Option.some.injEq] at ht
    obtain ⟨hop, rfl⟩ := ht
    refine undisturbed_setCopy h fun he hu => hu.fill hop ?_
    rintro rfl
    exact of_decide_eq_true ha (he ▸ rfl)
  | sink e op =>
    simp only [Relay.step, Option.ite_none_right_eq_some, Option.some.injEq] at ht
    obtain ⟨-, rfl⟩ := ht
    exact undisturbed_setCopy h fun _ hu => hu.same rfl rfl
  | next e => exact undisturbed_nextStep h ht
  | wake e =>
    simp only [Relay.step, Option.ite_none_right_eq_some, Option.map_eq_some_iff] at ht
    obtain ⟨-, c, hc, rfl⟩ := ht
    exact undisturbed_setCopy h fun _ hu => hu.woken hc
  | wakeStale e =>
    simp only [Relay.step, Option.map_eq_some_iff] at ht
    obtain ⟨c, hc, rfl⟩ := ht
    exact undisturbed_setCopy h fun _ hu => hu.woken hc
  | timeOut e =>
    simp only [Relay.step, Option.ite_none_right_eq_some, Option.some.injEq] at ht
    obtain ⟨⟨-, hp⟩, rfl⟩ := ht
    exact undisturbed_setCopy h fun _ hu => hu.resumed rfl (by rw [hp]; rfl) (by rw [hp]; rintro ⟨⟩)
      (by rintro ⟨⟩) (by rintro ⟨⟩)
  | main => exact undisturbed_mainStep hr h ht
  | interrupt =>
    simp only [Relay.step] at ht
    split at ht
    · simp only [Option.ite_none_right_eq_some, Option.some.injEq] at ht
      obtain ⟨-, rfl⟩ := ht
      exact h
    · cases ht

/-- A direction whose source is not cancelled when the relay begins, nor by a worker later. -/
theorem Undisturbed.of_reach (hout : out.Begins) (hback : back.Begins)
    (hopen : ((start out back).copy d).source.stream.cancelled = false)
    (h : (system out back).Reach (fun _ a => uncut d a) s) : Undisturbed (s.copy d) := by
  refine h.inductOn (fun s hs => RelayInv.of_reach hout hback hs) ?_
    fun s a t hr hu ha ht => undisturbed_step hr hu ha ht
  rintro _ rfl
  have hplace : ((start out back).copy d).place = .enter := by
    cases d with
    | out => exact hout.place
    | back => exact hback.place
  refine ⟨fun hc => ?_, fun hp => ?_⟩
  · exact absurd (hopen.symm.trans hc) (by decide)
  · rw [show (State.copy { out := out, back := back } d).place = .enter from hplace] at hp
    rcases hp with hcw | he
    · cases hcw
    · cases he

end Uncut

/-! ## The results -/

/-- A direction that left a piece unwritten: nobody was there to write to, a half was closed before it
began, or its fiber was stopped. -/
def GivesUp (c₀ c : Copy) : Prop :=
  c.place = .ended .refused ∧ c.sink.Shut ∨
    c.place = .ended (.raised .notOpened) ∧ (c₀.readClosed = true ∨ c₀.writeClosed = true) ∨
    c.place = .stopped

/-- What was read since the relay began is written, in hand, given up or still buffered, in order. No
more than a piece is in hand or given up, and nothing is given up by a direction that `GivesUp` does not
speak of. The streams count what was read and the pieces that were written whole. -/
def Carried (c₀ c : Copy) : Prop :=
  ∃ read written, c.source.taken = c₀.source.taken ++ read ∧
    c.sink.accepted = c₀.sink.accepted ++ written ∧
    bodyOf written ++ c.place.inHand ++ c.dropped ++ c.buffer = c₀.buffer ++ bodyOf read ∧
    (c.place.inHand ++ c.dropped).length ≤ relayBytes ∧
    c.bytesRead = c₀.bytesRead + (bodyOf written ++ c.place.inHand ++ c.dropped).length ∧
    c.bytesWritten ≤ c₀.bytesWritten + (bodyOf written).length ∧
    (¬ GivesUp c₀ c → c.dropped = [] ∧
      c.bytesWritten + c.place.partly = c₀.bytesWritten + (bodyOf written).length)

/-- All that was buffered and all that was read since was written, and is counted at both ends. -/
def Written (c₀ c : Copy) : Prop :=
  ∃ read, c.source.taken = c₀.source.taken ++ read ∧
    bodyOf c.sink.accepted = bodyOf c₀.sink.accepted ++ c₀.buffer ++ bodyOf read ∧
    c.bytesRead + c₀.bytesWritten = c.bytesWritten + c₀.bytesRead

/-- All that was buffered and all that the source accepted was written. -/
def Copied (c₀ c : Copy) : Prop :=
  bodyOf c.sink.accepted =
    bodyOf c₀.sink.accepted ++ c₀.buffer ++
      (bodyOf c.source.accepted).drop (bodyOf c₀.source.taken).length

/-- The source accepted its end; or a failure, which no fiber has seen. -/
def Copy.SourceOver (c : Copy) : Prop :=
  .End ∈ c.source.accepted ∨ ∃ error, .Failed error ∈ c.source.accepted ∧ .Failed error ∉ c.source.taken

/-- No fiber waits at a queue of the direction. -/
def Copy.Idle (c : Copy) : Prop := c.source.stream.waiter = none ∧ c.sink.stream.waiter = none

section Results

variable {c₀ c : Copy}

theorem Inv.whole_of_not (h : Inv c₀ c) (hn : ¬ GivesUp c₀ c) : c.place.whole = true := by
  have hfits := h.fits
  cases hp : c.place with
  | stopped => exact absurd (Or.inr (Or.inr hp)) hn
  | ended e =>
    rw [hp] at hfits
    cases e with
    | refused => exact absurd (Or.inl ⟨hp, hfits.2⟩) hn
    | raised error =>
      cases error with
      | notOpened => exact absurd (Or.inr (Or.inl ⟨hp, hfits⟩)) hn
      | _ => rfl
    | _ => rfl
  | _ => rfl

theorem Inv.carries (h : Inv c₀ c) : Carried c₀ c := by
  obtain ⟨read, htaken, hcarried⟩ := h.carried
  obtain ⟨written, hgrown⟩ := h.grown
  have hread := h.read
  have hcounted := h.counted
  have hwritten := h.written
  rw [← hgrown, bodyOf_append] at hcarried hread hcounted hwritten
  simp only [List.append_assoc, List.append_cancel_left_eq] at hcarried
  simp only [List.length_append] at hread hcounted hwritten
  refine ⟨read, written, htaken, hgrown.symm, ?_, h.piece, ?_, ?_, fun hn => ?_⟩
  · simp only [List.append_assoc]
    exact hcarried
  · simp only [List.length_append]
    omega
  · omega
  · obtain ⟨hnone, hcount⟩ := hwritten (h.whole_of_not hn)
    exact ⟨hnone, by omega⟩

/-- At the end of the source nothing is left of what was read. -/
theorem Inv.writtenAll (h : Inv c₀ c) (hp : c.place = .ended .eof) : Written c₀ c := by
  obtain ⟨read, htaken, hcarried⟩ := h.carried
  obtain ⟨hdropped, hcount⟩ := h.written (by rw [hp]; rfl)
  have hfits := h.fits
  have hread := h.read
  rw [hp] at hcarried hcount hfits hread
  rw [hdropped, hfits.1.buffer] at hcarried
  rw [hdropped] at hread
  simp only [Place.inHand, Place.partly, List.append_nil] at hcarried hread hcount
  exact ⟨read, htaken, hcarried, by omega⟩

/-- What ends a source that was read to its end. -/
theorem Inv.over (h : Inv c₀ c) (hf : c.failure = none) (hended : c.source.stream.ended = true) :
    c.SourceOver := by
  obtain ⟨x, hx, hterm⟩ := Tracked.ended_iff.mp hended
  cases x with
  | End => exact Or.inl hx
  | Failed error =>
    refine Or.inr ⟨error, hx, fun htaken => ?_⟩
    rw [← h.failure, hf] at htaken
    cases htaken
  | _ => cases hterm

/-- Nothing is left of what was taken, and all was taken. -/
theorem Inv.copied (h : Inv c₀ c) (hhand : c.place.inHand = []) (hwhole : c.place.whole = true)
    (hb : c.buffer = []) (hall : bodyOf c.source.taken = bodyOf c.source.accepted) : Copied c₀ c := by
  obtain ⟨read, htaken, hcarried⟩ := h.carried
  rw [hhand, (h.written hwhole).1, hb] at hcarried
  simp only [List.append_nil] at hcarried
  rw [Copied, ← hall, htaken, bodyOf_append, List.drop_left, hcarried]

theorem Inv.idle (h : Inv c₀ c) (hlive : c.place.live = false) : c.Idle := by
  refine ⟨h.source_idle ?_, h.sink_idle ?_⟩
  all_goals
    cases hp : c.place with
    | ended e => rfl
    | stopped => rfl
    | _ => rw [hp] at hlive; cases hlive

end Results

/-- A direction between two empty queues. -/
def fresh : Copy := { source := .new 8, sink := .new 8 }

theorem fresh_begins : fresh.Begins := by
  refine ⟨rfl, rfl, rfl, rfl, rfl, fun e => ?_, fun h => by cases h⟩
  simp [fresh, Tracked.new]

/-- The stream the relay is called on sends two bytes and its end, the other its end; both directions
come to it, and the relay returns. -/
def copiesTwo : List Action :=
  [.source .out (.pushChunk [1, 2]), .source .out .pushEnd, .source .back .pushEnd] ++
    List.replicate 11 (.next .out) ++ List.replicate 4 (.next .back) ++ List.replicate 6 .main

/-- The first stream fails behind two bytes while the other direction waits. -/
def failsBehindTwo : List Action :=
  [.source .out (.pushChunk [1, 2]), .source .out (.pushFailure .RuntimeStopped)] ++
    List.replicate 4 (.next .back) ++ List.replicate 10 (.next .out) ++ List.replicate 3 .main

/-- **Nothing is repeated or reordered between the two streams**, in any reachable state and in either
direction, and nothing is lost but the rest of one piece, by a direction that found nobody to write to or
a half closed, or was stopped. -/
theorem relay_carries (hout : out.Begins) (hback : back.Begins)
    (h : (system out back).Reachable s) (d : Direction) :
    Carried ((start out back).copy d) (s.copy d) :=
  ((RelayInv.of_reach hout hback h).copies d).carries

theorem relay_carries_copiesTwo :
    ∃ s, (system fresh fresh).run (start fresh fresh) (copiesTwo.take 8) = some s ∧
      s.out.place.inHand = [1, 2] ∧ Carried fresh s.out := by
  obtain ⟨s, hrun, hhand⟩ : ∃ s,
      (system fresh fresh).run (start fresh fresh) (copiesTwo.take 8) = some s ∧
        s.out.place.inHand = [1, 2] := ⟨_, rfl, rfl⟩
  exact ⟨s, hrun, hhand,
    relay_carries fresh_begins fresh_begins (System.reach_of_run rfl hrun) .out⟩

/-- **A relay that returns** has closed both streams and left no fiber waiting, and in each direction it
has written all that it read, and the end after it, or found nobody left to write to. Where no worker
cancels the source, that is all the source accepted; but a failure behind it may be left unseen. -/
theorem relay_returned (hout : out.Begins) (hback : back.Begins) (h : (system out back).Reachable s)
    (hm : s.main = .done .returned) (d : Direction) :
    s.Closed d ∧ (s.copy d).Idle ∧ (s.copy d).sink.Shut ∧
      ((s.copy d).place = .ended .eof ∧ Written ((start out back).copy d) (s.copy d) ∨
        (s.copy d).place = .ended .refused) ∧
      (((start out back).copy d).source.stream.cancelled = false →
        (system out back).Reach (fun _ a => uncut d a) s → (s.copy d).place = .ended .eof →
        Copied ((start out back).copy d) (s.copy d) ∧ (s.copy d).SourceOver) := by
  have hr := RelayInv.of_reach hout hback h
  have hinv := hr.copies d
  have hcloses := hr.closes
  rw [hm] at hcloses
  have hclosed : ∀ e, s.Closed e := by
    intro e
    cases e with
    | out => exact hcloses.2
    | back => exact hcloses.1
  have hshut : (s.copy d).sink.Shut := by
    refine hinv.closed ?_
    have hother := (hclosed d.other).2
    rwa [show d.other.other = d by cases d <;> rfl] at hother
  obtain ⟨e, hp, hcalm⟩ := hr.both (by rw [hm]; rfl) d
  refine ⟨hclosed d, hinv.idle (by rw [hp]; rfl), hshut, ?_, fun hopen huncut hend => ?_⟩
  · cases e with
    | raised error => cases hcalm
    | refused => exact Or.inr hp
    | eof => exact Or.inl ⟨hp, hinv.writtenAll hp⟩
  · obtain ⟨hended, hall⟩ := (Undisturbed.of_reach hout hback hopen huncut).emptied (Or.inr hend)
    have hfits := hinv.fits
    rw [hend] at hfits
    exact ⟨hinv.copied (by rw [hend]; rfl) (by rw [hend]; rfl) hfits.1.buffer hall,
      hinv.over hfits.1.failure hended⟩

theorem relay_returned_copiesTwo :
    ∃ s, (system fresh fresh).runIf (fun _ a => uncut .out a) (start fresh fresh) copiesTwo = some s ∧
      s.out.source.accepted = [.Chunk [1, 2], .End] ∧ s.Closed .out ∧ s.out.Idle ∧
        Copied fresh s.out ∧ s.out.SourceOver := by
  obtain ⟨s, hrun, hm, hp, haccepted⟩ : ∃ s,
      (system fresh fresh).runIf (fun _ a => uncut .out a) (start fresh fresh) copiesTwo = some s ∧
        s.main = .done .returned ∧ s.out.place = .ended .eof ∧
        s.out.source.accepted = [.Chunk [1, 2], .End] := ⟨_, rfl, rfl, rfl, rfl⟩
  have huncut := System.reach_of_runIf rfl hrun
  obtain ⟨hclosed, hidle, -, -, hall⟩ := relay_returned fresh_begins fresh_begins
    (huncut.mono fun _ _ _ => trivial) hm .out
  obtain ⟨hcopied, hover⟩ := hall rfl huncut hp
  exact ⟨s, hrun, haccepted, hclosed, hidle, hcopied, hover⟩

/-- What a relay raises, by the direction that it comes from. -/
def Caused (c₀ c : Copy) : RelayError → Prop
  | .failed error => .Failed error ∈ c.source.accepted ∧ Copied c₀ c
  | .timedOut => c₀.upstream = true ∧ c.source.stream.cancelled = true
  | .notOpened => c₀.readClosed = true ∨ c₀.writeClosed = true

/-- **A relay that raises** does so with what ended one of its directions: the failure of its source,
behind everything that came before it, the silence of an upstream stream, or a stream that was closed
before. It leaves no fiber waiting, and closes only what a direction closed that had ended. -/
theorem relay_raised (hout : out.Begins) (hback : back.Begins)
    (h : (system out back).Reachable s) {error : RelayError} (hm : s.main = .done (.raised error)) :
    (∃ d, (s.copy d).place = .ended (.raised error) ∧
        Caused ((start out back).copy d) (s.copy d) error) ∧
      ∀ d, (s.copy d).Idle ∧ Kept ((start out back).copy d) (s.copy d) := by
  have hr := RelayInv.of_reach hout hback h
  have hstops := hr.stops
  rw [hm] at hstops
  have hdead : ∀ d, (s.copy d).place.live = false := by
    intro d
    cases d with
    | out => exact hstops.1
    | back => exact hstops.2
  refine ⟨?_, fun d => ⟨(hr.copies d).idle (hdead d), hr.kept (by rw [hm]; rfl) d⟩⟩
  obtain ⟨popped, hperm, hpopped⟩ := hr.tally
  rw [hm] at hpopped
  have hmem : Ending.raised error ∈ s.ended := hperm.mem_iff.mp (List.mem_append_left _ hpopped)
  have hd : ∃ d, (s.copy d).place = .ended (.raised error) := by
    rcases List.mem_append.mp hmem with ho | hb
    · exact ⟨.out, ending_eq_some.mp (Option.mem_toList.mp ho)⟩
    · exact ⟨.back, ending_eq_some.mp (Option.mem_toList.mp hb)⟩
  obtain ⟨d, hp⟩ := hd
  refine ⟨d, hp, ?_⟩
  have hinv := hr.copies d
  have hfits := hinv.fits
  rw [hp] at hfits
  cases error with
  | failed e =>
    have htaken := (hinv.failure e).mp hfits.2
    have hall := Tracked.taken_eq_of_terminal htaken rfl
    exact ⟨hall ▸ htaken, hinv.copied (by rw [hp]; rfl) (by rw [hp]; rfl) hfits.1 (by rw [hall])⟩
  | timedOut => exact ⟨hinv.upstream ▸ hfits.1, hfits.2⟩
  | notOpened => exact hfits

theorem relay_raised_failsBehindTwo :
    ∃ s, (system fresh fresh).run (start fresh fresh) failsBehindTwo = some s ∧
      (∃ d, (s.copy d).place = .ended (.raised (.failed .RuntimeStopped)) ∧
        Caused fresh (s.copy d) (.failed .RuntimeStopped)) ∧
      s.back.place = .stopped ∧ s.back.Idle := by
  obtain ⟨s, hrun, hm, hp⟩ : ∃ s,
      (system fresh fresh).run (start fresh fresh) failsBehindTwo = some s ∧
        s.main = .done (.raised (.failed .RuntimeStopped)) ∧ s.back.place = .stopped :=
    ⟨_, rfl, rfl, rfl⟩
  obtain ⟨⟨d, hd, hcaused⟩, hidle⟩ :=
    relay_raised fresh_begins fresh_begins (System.reach_of_run rfl hrun) hm
  refine ⟨s, hrun, ⟨d, hd, ?_⟩, hp, (hidle .back).1⟩
  cases d <;> exact hcaused

end Ruvoy.Relay
