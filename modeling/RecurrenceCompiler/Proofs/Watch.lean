import Mathlib.Data.List.Infix
import RecurrenceCompiler.Watch

/-!
# One rebuild a burst

When a rebuild happens is told by the events alone (`DueAt`): the last change that calls for one came a
quiet period before, and no time has passed since that already reached its end. A watcher follows its
events (`Follows`): it has at most the one timer it knows of, and the timer runs exactly while a rebuild
is due. Every step keeps this, whatever a rebuild does, so it holds after every run.

Nothing is asked of the type of times; in particular it may be that of floating-point numbers.
-/

namespace RecurrenceCompiler

variable {τ ε σ : Type}

/-! ## Events -/

/-- A change calls for a rebuild if its file is unknown or a definition file. -/
def WatchEvent.IsTrigger : WatchEvent τ → Prop
  | .change file => file = none ∨ ∃ stem : String, file = some (stem ++ ".json")
  | .advance _ => False
  | .close => False

/-- The time after events. -/
def clockAfter [Add τ] (start : τ) (es : List (WatchEvent τ)) : τ :=
  es.foldl (fun now e => match e with | .advance time => now + time | _ => now) start

/-- After events, a rebuild is due at a time: it ends the quiet period after a change that called for it.
No other such change has come since, the watcher is not closed, and the time has not been reached. -/
def DueAt [Add τ] [LE τ] (delay start : τ) (es : List (WatchEvent τ)) (due : τ) : Prop :=
  ∃ before e after, es = before ++ e :: after ∧ e.IsTrigger ∧ due = clockAfter start before + delay ∧
    .close ∉ es ∧ (∀ f ∈ after, ¬f.IsTrigger) ∧
    ∀ mid time, mid ++ [.advance time] <+: after →
      ¬due ≤ clockAfter start (before ++ e :: (mid ++ [.advance time]))

theorem Watcher.isRelevant_iff {file : Option String} :
    isRelevant file = true ↔ (WatchEvent.change (τ := τ) file).IsTrigger := by
  cases file with
  | none => exact iff_of_true rfl (.inl rfl)
  | some file =>
    rw [isRelevant, List.isSuffixOf_iff_suffix]
    constructor
    · rintro ⟨stem, h⟩
      refine .inr ⟨String.ofList stem, congrArg some (String.toList_inj.1 ?_)⟩
      rw [String.toList_append, String.toList_ofList, h]
    · rintro (h | ⟨stem, h⟩)
      · cases h
      · cases h
        exact ⟨stem.toList, (String.toList_append ..).symm⟩

section
variable [Add τ]

@[simp] theorem clockAfter_concat_advance (start time : τ) (es : List (WatchEvent τ)) :
    clockAfter start (es ++ [.advance time]) = clockAfter start es + time := by
  simp [clockAfter]

@[simp] theorem clockAfter_concat_change (start : τ) (es : List (WatchEvent τ)) (file : Option String) :
    clockAfter start (es ++ [.change file]) = clockAfter start es := by
  simp [clockAfter]

@[simp] theorem clockAfter_concat_close (start : τ) (es : List (WatchEvent τ)) :
    clockAfter start (es ++ [.close]) = clockAfter start es := by
  simp [clockAfter]

variable [LE τ] {delay start due time : τ} {es : List (WatchEvent τ)} {e : WatchEvent τ}

theorem not_dueAt_nil : ¬DueAt delay start [] due := by
  rintro ⟨before, e, after, h, -⟩
  exact absurd h.symm (by simp)

theorem not_dueAt_of_close (h : .close ∈ es) : ¬DueAt delay start es due := by
  rintro ⟨_, _, _, -, -, -, hopen, -⟩
  exact hopen h

/-- A change that calls for a rebuild puts it off, whatever was due before. -/
theorem dueAt_concat_trigger (he : e.IsTrigger) :
    DueAt delay start (es ++ [e]) due ↔ .close ∉ es ∧ due = clockAfter start es + delay := by
  have hne : .close ∉ [e] := by
    rintro h
    rw [← List.mem_singleton.1 h] at he
    exact he
  constructor
  · rintro ⟨before, f, after, heq, -, hdue, hopen, hquiet, -⟩
    obtain rfl | ⟨after, g, rfl⟩ := List.eq_nil_or_concat' after
    · obtain ⟨rfl, -⟩ := List.append_inj' heq rfl
      exact ⟨fun h => hopen (List.mem_append_left _ h), hdue⟩
    · rw [← List.cons_append, ← List.append_assoc] at heq
      obtain ⟨-, h⟩ := List.append_inj' heq rfl
      cases h
      exact absurd he (hquiet e (by simp))
  · rintro ⟨hopen, hdue⟩
    refine ⟨es, e, [], rfl, he, hdue, ?_, List.forall_mem_nil _, ?_⟩
    · rw [List.mem_append, not_or]
      exact ⟨hopen, hne⟩
    · intro mid time h
      exact absurd (List.prefix_nil.1 h) (by simp)

/-- Any other event keeps a rebuild due as long as it does not close the watcher and the time is not
reached. -/
theorem dueAt_concat_quiet (he : ¬e.IsTrigger) :
    DueAt delay start (es ++ [e]) due ↔ DueAt delay start es due ∧ e ≠ .close ∧
      ∀ time, e = .advance time → ¬due ≤ clockAfter start es + time := by
  constructor
  · rintro ⟨before, f, after, heq, hf, hdue, hopen, hquiet, hlate⟩
    obtain rfl | ⟨after, g, rfl⟩ := List.eq_nil_or_concat' after
    · obtain ⟨-, h⟩ := List.append_inj' heq rfl
      cases h
      exact absurd hf he
    rw [← List.cons_append, ← List.append_assoc] at heq
    obtain ⟨rfl, h⟩ := List.append_inj' heq rfl
    cases h
    refine ⟨⟨before, f, after, rfl, hf, hdue, fun h => hopen (List.mem_append_left _ h),
      fun g hg => hquiet g (List.mem_append_left _ hg), fun mid time h =>
        hlate mid time (h.trans (List.prefix_append ..))⟩, ?_, ?_⟩
    · rintro rfl
      exact hopen (by simp)
    · rintro time rfl
      have h := hlate after time List.prefix_rfl
      rwa [← List.cons_append, ← List.append_assoc, clockAfter_concat_advance] at h
  · rintro ⟨⟨before, f, after, rfl, hf, hdue, hopen, hquiet, hlate⟩, hne, hnot⟩
    refine ⟨before, f, after ++ [e], by simp, hf, hdue, ?_, ?_, ?_⟩
    · rw [List.mem_append, not_or]
      exact ⟨hopen, fun h => hne (List.mem_singleton.1 h).symm⟩
    · exact List.forall_mem_append.2 ⟨hquiet, List.forall_mem_singleton.2 he⟩
    · intro mid time h
      rw [List.prefix_concat_iff] at h
      obtain h | h := h
      · obtain ⟨rfl, hlast⟩ := List.append_inj' h rfl
        rw [← List.cons_append, ← List.append_assoc, clockAfter_concat_advance]
        exact hnot time (List.singleton_inj.1 hlast).symm
      · exact hlate mid time h

end

/-! ## One timer -/

namespace Debounce

variable {d : Debounce τ} {timer : Timer τ}

/-- The only running timer is the one of the quiet period. -/
inductive OneTimer (d : Debounce τ) : Prop where
  | idle (htimers : d.timers = []) (htimer : d.timer = none)
  | waiting (t : Timer τ) (htimers : d.timers = [t]) (htimer : d.timer = some t.id)

theorem OneTimer.cancel_eq (h : d.OneTimer) :
    d.cancel = { d with toClock := { d.toClock with timers := [] }, timer := none } := by
  cases h with
  | idle htimers htimer =>
    obtain ⟨⟨now, timers, started⟩, delay, timer⟩ := d
    cases htimers
    cases htimer
    rfl
  | waiting t htimers htimer => simp [cancel, htimer, Clock.stop, htimers]

/-- A trigger leaves one timer, that of the new quiet period. -/
theorem OneTimer.trigger_eq [Add τ] (h : d.OneTimer) :
    d.trigger = { d with
      toClock := ⟨d.now, [⟨d.started, d.now + d.delay⟩], d.started + 1⟩, timer := some d.started } := by
  rw [trigger, h.cancel_eq]
  rfl

variable [Add τ] [LE τ] [DecidableLE τ] {run : ExceptT ε (StateM σ) Unit} {time : τ}

/-- As long as no timer ends, time just passes. -/
theorem advance_of_waiting (h : ∀ t ∈ d.timers, ¬t.due ≤ d.now + time) :
    d.advance run time = pure ({ d with now := d.now + time }, []) := by
  have hended : Clock.ended { d.toClock with now := d.now + time } = [] := by
    rw [Clock.ended, List.filter_eq_nil_iff.2 (by simpa using h), List.mergeSort_nil]
  rw [advance, hended, fireAll]

/-- The one timer ends: the run is made, and nothing is pending before it starts. -/
theorem advance_of_ended (htimers : d.timers = [timer]) (hdue : timer.due ≤ d.now + time) :
    d.advance run time = do
      let outcome ← run.run
      return ({ d with toClock := ⟨d.now + time, [], d.started⟩, timer := none },
        [⟨timer.due, outcome⟩]) := by
  have hended : Clock.ended { d.toClock with now := d.now + time } = [timer] := by
    rw [Clock.ended, htimers, List.filter_cons_of_pos (by simpa using hdue), List.filter_nil,
      List.mergeSort_singleton]
  rw [advance, hended]
  simp [fireAll, fire, Clock.stop, htimers]

end Debounce

/-! ## Attempts -/

/-- What a rebuild comes to: the build, and after an error its handler in the state that the build left. -/
def Rebuild.result (r : Rebuild ε σ) (s : σ) : Except ε Unit × σ :=
  match r.build.run.run s with
  | (.ok _, s') => (.ok (), s')
  | (.error err, s') => (r.onError err).run.run s'

theorem Rebuild.attempt_run (r : Rebuild ε σ) (s : σ) : r.attempt.run.run s = r.result s := by
  have hattempt : r.attempt = ExceptT.tryCatch r.build r.onError := rfl
  rw [hattempt, ExceptT.tryCatch, ExceptT.run_mk, StateT.run_bind, result, ExceptT.run]
  generalize StateT.run r.build s = built
  obtain ⟨outcome, s'⟩ := built
  cases outcome with
  | ok => rfl
  | error => rfl

/-- A handler that takes every error lets none escape from a rebuild. -/
theorem Rebuild.result_eq_ok {r : Rebuild ε σ} (h : ∀ err s, ((r.onError err).run.run s).1 = .ok ())
    (s : σ) : (r.result s).1 = .ok () := by
  rw [result]
  split
  · rfl
  · exact h _ _

/-! ## Steps and runs -/

namespace Watcher

variable [Add τ] [LE τ] {delay start : τ} {w : Watcher τ} {es : List (WatchEvent τ)}

/-- A watcher is where events have led it. -/
structure Follows (delay start : τ) (es : List (WatchEvent τ)) (w : Watcher τ) : Prop where
  delay_eq : w.delay = delay
  now_eq : w.now = clockAfter start es
  closed_iff : w.closed = true ↔ .close ∈ es
  oneTimer : w.OneTimer
  /-- The timer runs exactly while a rebuild is due. -/
  dueAt_iff : ∀ due, DueAt delay start es due ↔ ∃ t ∈ w.timers, t.due = due

theorem follows_watch (delay start : τ) : (watch delay start).Follows delay start [] where
  delay_eq := rfl
  now_eq := rfl
  closed_iff := iff_of_false Bool.false_ne_true List.not_mem_nil
  oneTimer := .idle rfl rfl
  dueAt_iff due := iff_of_false not_dueAt_nil (by rintro ⟨t, ht, -⟩; cases ht)

/-- A change that calls for a rebuild starts the one timer anew. -/
theorem Follows.trigger {file : Option String} (h : w.Follows delay start es)
    (hopen : w.closed = false) (hfile : (WatchEvent.change (τ := τ) file).IsTrigger) :
    Follows delay start (es ++ [.change file]) { w with toDebounce := w.trigger } := by
  have hclose : .close ∉ es := by
    rw [← h.closed_iff, hopen]
    exact Bool.false_ne_true
  rw [h.oneTimer.trigger_eq]
  refine ⟨h.delay_eq, ?_, ?_, .waiting _ rfl rfl, fun due => ?_⟩
  · rw [clockAfter_concat_change]
    exact h.now_eq
  · simpa using h.closed_iff
  · rw [dueAt_concat_trigger hfile, h.delay_eq, h.now_eq]
    simp [hclose, eq_comm]

/-- Any other change, or one after closing, leaves everything as it is. -/
theorem Follows.ignore {file : Option String} (h : w.Follows delay start es)
    (hfile : w.closed = true ∨ ¬(WatchEvent.change (τ := τ) file).IsTrigger) :
    w.Follows delay start (es ++ [.change file]) := by
  refine ⟨h.delay_eq, ?_, by simpa using h.closed_iff, h.oneTimer, fun due => ?_⟩
  · rw [clockAfter_concat_change]
    exact h.now_eq
  rw [← h.dueAt_iff]
  obtain hclosed | hfile := hfile
  · have hclose := h.closed_iff.1 hclosed
    exact iff_of_false (not_dueAt_of_close (List.mem_append_left _ hclose)) (not_dueAt_of_close hclose)
  · rw [dueAt_concat_quiet hfile]
    simp

theorem Follows.close (h : w.Follows delay start es) :
    Follows delay start (es ++ [.close]) { toDebounce := w.cancel, closed := true } := by
  have hclose : .close ∈ es ++ [.close] := List.mem_append_right _ (List.mem_singleton_self _)
  rw [h.oneTimer.cancel_eq]
  refine ⟨h.delay_eq, ?_, iff_of_true rfl hclose, .idle rfl rfl, fun due =>
    iff_of_false (not_dueAt_of_close hclose) (by rintro ⟨t, ht, -⟩; cases ht)⟩
  rw [clockAfter_concat_close]
  exact h.now_eq

variable [DecidableLE τ] {r : Rebuild ε σ} {s : σ}

/-- The rebuilds that an event leads to: one when the clock reaches the time of the one that is due,
else none. -/
def Rebuilds (delay start : τ) (es : List (WatchEvent τ)) (e : WatchEvent τ)
    (fs : List (Firing τ ε)) : Prop :=
  fs.length ≤ 1 ∧ ∀ due, due ∈ fs.map Firing.time ↔
    ∃ time, e = .advance time ∧ DueAt delay start es due ∧ due ≤ clockAfter start es + time

/-- Time passes: the timer ends and the rebuild is made, or it goes on. -/
theorem Follows.step_advance (h : w.Follows delay start es) (r : Rebuild ε σ) (time : τ) (s : σ) :
    (∃ t, w.timers = [t] ∧ t.due ≤ w.now + time ∧ (w.step r (.advance time)).run s =
      (({ w with toClock := ⟨w.now + time, [], w.started⟩, timer := none },
        [⟨t.due, (r.result s).1⟩]), (r.result s).2)) ∨
    ((∀ t ∈ w.timers, ¬t.due ≤ w.now + time) ∧
      (w.step r (.advance time)).run s = (({ w with now := w.now + time }, []), s)) := by
  by_cases hend : ∃ t ∈ w.timers, t.due ≤ w.now + time
  · obtain ⟨t, ht, hle⟩ := hend
    have htimers : w.timers = [t] := by
      cases h.oneTimer with
      | idle htimers htimer => rw [htimers] at ht; cases ht
      | waiting u htimers htimer =>
        rw [htimers] at ht
        rw [htimers, List.mem_singleton.1 ht]
    refine .inl ⟨t, htimers, hle, ?_⟩
    rw [step, Debounce.advance_of_ended htimers hle, ← r.attempt_run]
    rfl
  · have hwait : ∀ t ∈ w.timers, ¬t.due ≤ w.now + time := fun t ht hle => hend ⟨t, ht, hle⟩
    refine .inr ⟨hwait, ?_⟩
    rw [step, Debounce.advance_of_waiting hwait]
    rfl

/-- Time passes: the timer ends or goes on. -/
theorem Follows.advance (h : w.Follows delay start es) (r : Rebuild ε σ) (time : τ) (s : σ) :
    ((w.step r (.advance time)).run s).1.1.Follows delay start (es ++ [.advance time]) ∧
      Rebuilds delay start es (.advance time) ((w.step r (.advance time)).run s).1.2 := by
  have hnow : w.now + time = clockAfter start (es ++ [.advance time]) := by
    rw [clockAfter_concat_advance, h.now_eq]
  have hclosed : w.closed = true ↔ .close ∈ es ++ [.advance time] := by simpa using h.closed_iff
  have hdue (due : τ) : DueAt delay start (es ++ [.advance time]) due ↔
      (∃ t ∈ w.timers, t.due = due) ∧ ¬due ≤ w.now + time := by
    rw [dueAt_concat_quiet id, h.dueAt_iff, h.now_eq]
    simp
  obtain ⟨t, htimers, hle, hstep⟩ | ⟨hwait, hstep⟩ := h.step_advance r time s <;> rw [hstep]
  · refine ⟨⟨h.delay_eq, hnow, hclosed, .idle rfl rfl, fun due => ?_⟩, Nat.le_refl 1, fun due => ?_⟩
    · rw [hdue]
      refine iff_of_false ?_ (by rintro ⟨u, hu, -⟩; cases hu)
      rintro ⟨⟨u, hu, rfl⟩, hlate⟩
      rw [htimers, List.mem_singleton] at hu
      subst hu
      exact hlate hle
    · simp only [h.dueAt_iff, htimers, ← h.now_eq, List.mem_singleton, List.map_cons, List.map_nil]
      constructor
      · rintro rfl
        exact ⟨time, rfl, ⟨t, rfl, rfl⟩, hle⟩
      · rintro ⟨-, -, ⟨u, rfl, rfl⟩, -⟩
        rfl
  · refine ⟨⟨h.delay_eq, hnow, hclosed, ?_, fun due => ?_⟩, Nat.zero_le 1, fun due => ?_⟩
    · cases h.oneTimer with
      | idle htimers htimer => exact .idle htimers htimer
      | waiting t htimers htimer => exact .waiting t htimers htimer
    · rw [hdue]
      refine ⟨And.left, fun ht => ⟨ht, ?_⟩⟩
      obtain ⟨t, ht, rfl⟩ := ht
      exact hwait t ht
    · refine iff_of_false List.not_mem_nil ?_
      rintro ⟨time', he, hat, hle⟩
      cases he
      obtain ⟨t, ht, rfl⟩ := (h.dueAt_iff due).1 hat
      exact hwait t ht (h.now_eq ▸ hle)

/-- One step. -/
theorem Follows.step (h : w.Follows delay start es) (r : Rebuild ε σ) (e : WatchEvent τ) (s : σ) :
    ((w.step r e).run s).1.1.Follows delay start (es ++ [e]) ∧
      Rebuilds delay start es e ((w.step r e).run s).1.2 := by
  have hnone (he : ∀ time, e ≠ .advance time) : Rebuilds delay start es e ([] : List (Firing τ ε)) := by
    refine ⟨Nat.zero_le 1, fun due => iff_of_false List.not_mem_nil ?_⟩
    rintro ⟨time, heq, -⟩
    exact he time heq
  cases e with
  | change file =>
    refine ⟨?_, hnone (by simp)⟩
    show Follows _ _ _ (if _ then _ else _)
    split
    · next hcond =>
      rw [Bool.and_eq_true, Bool.not_eq_true', isRelevant_iff (τ := τ)] at hcond
      exact h.trigger hcond.1 hcond.2
    · next hcond =>
      rw [Bool.and_eq_true, Bool.not_eq_true', isRelevant_iff (τ := τ), not_and_or,
        Bool.not_eq_false] at hcond
      exact h.ignore hcond
  | advance time => exact h.advance r time s
  | close => exact ⟨h.close, hnone (by simp)⟩

/-- **A firing is one attempt at a rebuild**: it has the outcome of the build and its handler, in the state
before the event, and leaves their state. An event without a firing leaves the state as it is. -/
theorem Follows.result_of_step (h : w.Follows delay start es) (r : Rebuild ε σ) (e : WatchEvent τ)
    (s : σ) : (((w.step r e).run s).1.2 = [] ∧ ((w.step r e).run s).2 = s) ∨
      ∃ f, ((w.step r e).run s).1.2 = [f] ∧ (f.outcome, ((w.step r e).run s).2) = r.result s := by
  cases e with
  | change file => exact .inl ⟨rfl, rfl⟩
  | close => exact .inl ⟨rfl, rfl⟩
  | advance time =>
    obtain ⟨t, -, -, hstep⟩ | ⟨-, hstep⟩ := h.step_advance r time s <;> rw [hstep]
    · exact .inr ⟨_, rfl, rfl⟩
    · exact .inl ⟨rfl, rfl⟩

/-- A whole run, by induction on the events; what came before is part of the invariant. -/
theorem Follows.run {before : List (WatchEvent τ)} (h : w.Follows delay start before)
    (r : Rebuild ε σ) (es : List (WatchEvent τ)) (s : σ) :
    ((w.run r es).run s).1.1.Follows delay start (before ++ es) := by
  induction es generalizing w before s with
  | nil =>
    rw [List.append_nil]
    exact h
  | cons e es ih =>
    have hrest := ih (h.step r e s).1 ((w.step r e).run s).2
    rw [List.append_assoc, List.singleton_append] at hrest
    exact hrest

end Watcher

/-! ## What a rebuild does -/

section

variable {ε' σ' : Type}

/-- When runs are made does not depend on what they do. -/
theorem Debounce.fireAll_congr (d : Debounce τ) (run : ExceptT ε (StateM σ) Unit)
    (run' : ExceptT ε' (StateM σ') Unit) (ts : List (Timer τ)) (s : σ) (s' : σ') :
    ((d.fireAll run ts).run s).1.1 = ((d.fireAll run' ts).run s').1.1 ∧
      ((d.fireAll run ts).run s).1.2.map Firing.time =
        ((d.fireAll run' ts).run s').1.2.map Firing.time := by
  induction ts generalizing d s s' with
  | nil => exact ⟨rfl, rfl⟩
  | cons t ts ih =>
    obtain ⟨hd, htimes⟩ := ih { d with toClock := d.stop t.id, timer := none } (run.run.run s).2
      (run'.run.run s').2
    exact ⟨hd, congrArg (t.due :: ·) htimes⟩

variable [Add τ] [LE τ] [DecidableLE τ]

theorem Watcher.step_congr (w : Watcher τ) (r : Rebuild ε σ) (r' : Rebuild ε' σ') (e : WatchEvent τ)
    (s : σ) (s' : σ') :
    ((w.step r e).run s).1.1 = ((w.step r' e).run s').1.1 ∧
      ((w.step r e).run s).1.2.map Firing.time = ((w.step r' e).run s').1.2.map Firing.time := by
  cases e with
  | change file => exact ⟨rfl, rfl⟩
  | close => exact ⟨rfl, rfl⟩
  | advance time =>
    obtain ⟨hd, htimes⟩ := Debounce.fireAll_congr { w.toDebounce with now := w.now + time } r.attempt
      r'.attempt (Clock.ended { w.toClock with now := w.now + time }) s s'
    exact ⟨congrArg (fun d => { w with toDebounce := d }) hd, htimes⟩

/-- When rebuilds are made does not depend on what they do, in particular not on which of them fail. -/
theorem Watcher.run_congr (w : Watcher τ) (r : Rebuild ε σ) (r' : Rebuild ε' σ')
    (es : List (WatchEvent τ)) (s : σ) (s' : σ') :
    ((w.run r es).run s).1.1 = ((w.run r' es).run s').1.1 ∧
      ((w.run r es).run s).1.2.map Firing.time = ((w.run r' es).run s').1.2.map Firing.time := by
  induction es generalizing w s s' with
  | nil => exact ⟨rfl, rfl⟩
  | cons e es ih =>
    obtain ⟨hw, htimes⟩ := w.step_congr r r' e s s'
    obtain ⟨hlast, hrest⟩ := ih ((w.step r e).run s).1.1 ((w.step r e).run s).2 ((w.step r' e).run s').2
    constructor
    · calc ((w.run r (e :: es)).run s).1.1
          = ((((w.step r e).run s).1.1.run r es).run ((w.step r e).run s).2).1.1 := rfl
        _ = ((((w.step r e).run s).1.1.run r' es).run ((w.step r' e).run s').2).1.1 := hlast
        _ = ((w.run r' (e :: es)).run s').1.1 := by rw [hw]; rfl
    · calc ((w.run r (e :: es)).run s).1.2.map Firing.time
          = (((w.step r e).run s).1.2 ++
              ((((w.step r e).run s).1.1.run r es).run ((w.step r e).run s).2).1.2).map Firing.time := rfl
        _ = (((w.step r' e).run s').1.2 ++
              ((((w.step r e).run s).1.1.run r' es).run ((w.step r' e).run s').2).1.2).map
                Firing.time := by rw [List.map_append, htimes, hrest, List.map_append]
        _ = ((w.run r' (e :: es)).run s').1.2.map Firing.time := by rw [hw]; rfl

end

/-! ## The watch -/

/-- **A watch rebuilds once a burst and never after it was closed.** For every quiet period, every way to
rebuild and every run of events, the next event leads to a rebuild at a time exactly if the clock then
reaches the time and the last change that called for a rebuild came the quiet period before, with no
closing after it; there is at most one rebuild then and at most one timer at all times. A change of
another file changes nothing. When rebuilds happen does not depend on what they do, so not on which of
them fail, and a handler that takes every error lets none escape. A rebuild runs the build, and its
handler if it fails, and what they do to the state is all that the event does to it. -/
theorem Watcher.rebuilds_once_a_burst [Add τ] [LE τ] [DecidableLE τ] (delay start : τ)
    (r : Rebuild ε σ) (s : σ) (es : List (WatchEvent τ)) (e : WatchEvent τ) :
    let past := ((watch delay start).run r es).run s
    let w := past.1.1
    let next := (w.step r e).run past.2
    let rebuilds := next.1.2
    (∀ due, due ∈ rebuilds.map Firing.time ↔
      ∃ time, e = .advance time ∧ DueAt delay start es due ∧ due ≤ clockAfter start es + time) ∧
    rebuilds.length ≤ 1 ∧
    w.timers.length ≤ 1 ∧
    (∀ file, e = .change file → ¬e.IsTrigger → next = ((w, []), past.2)) ∧
    (.close ∈ es → rebuilds = []) ∧
    (∀ (ε' σ' : Type) (r' : Rebuild ε' σ') (s' : σ'),
      (((watch delay start).run r' es).run s').1.2.map Firing.time = past.1.2.map Firing.time) ∧
    ((∀ err s, ((r.onError err).run.run s).1 = .ok ()) → ∀ f ∈ rebuilds, f.outcome = .ok ()) ∧
    (∀ f ∈ rebuilds, (f.outcome, next.2) = r.result past.2) ∧
    (rebuilds = [] → next.2 = past.2) := by
  intro past w next rebuilds
  have hw : w.Follows delay start es := (follows_watch delay start).run r es s
  obtain ⟨hone, hrebuilds⟩ : Rebuilds delay start es e rebuilds := (hw.step r e past.2).2
  have hresult : (rebuilds = [] ∧ next.2 = past.2) ∨
      ∃ f, rebuilds = [f] ∧ (f.outcome, next.2) = r.result past.2 := hw.result_of_step r e past.2
  have houtcome : ∀ f ∈ rebuilds, (f.outcome, next.2) = r.result past.2 := by
    intro f hf
    obtain ⟨hnone, -⟩ | ⟨g, hfired, hg⟩ := hresult
    · rw [hnone] at hf
      cases hf
    · rw [hfired] at hf
      obtain rfl := List.mem_singleton.1 hf
      exact hg
  refine ⟨hrebuilds, hone, ?_, ?_, ?_, ?_, fun h f hf => ?_, houtcome, fun hnone => ?_⟩
  · cases hw.oneTimer with
    | idle htimers htimer =>
      rw [htimers]
      exact Nat.zero_le 1
    | waiting t htimers htimer =>
      rw [htimers]
      exact Nat.le_refl 1
  · rintro file rfl hfile
    rw [← isRelevant_iff] at hfile
    have hcond : ¬(!w.closed && isRelevant file) = true := fun h => hfile (Bool.and_eq_true_iff.1 h).2
    show ((if (!w.closed && isRelevant file) = true then _ else w, []), past.2) = _
    rw [if_neg hcond]
  · intro hclose
    rw [List.eq_nil_iff_forall_not_mem]
    intro f hf
    obtain ⟨-, -, hdue, -⟩ := (hrebuilds f.time).1 (List.mem_map_of_mem hf)
    exact not_dueAt_of_close hclose hdue
  · intro ε' σ' r' s'
    exact ((watch delay start).run_congr r' r es s' s).2
  · exact (congrArg Prod.fst (houtcome f hf)).trans (Rebuild.result_eq_ok h past.2)
  · obtain ⟨-, hstate⟩ | ⟨f, hfired, -⟩ := hresult
    · exact hstate
    · rw [hnone] at hfired
      cases hfired

/-- Two changes in one burst, and builds that are counted by ones and all fail, with a handler that counts
by tens: one rebuild, at the end of the quiet period after the second change, that adds eleven. A
change of another file leads to nothing, nor does the passing of time once the watcher is closed. -/
theorem Watcher.rebuilds_once_a_burst_of_two :
    let r : Rebuild String Nat :=
      { build := do modify (· + 1); throw "failed", onError := fun _ => modify (· + 10) }
    let burst : List (WatchEvent Nat) := [.change (some "a.json"), .advance 2, .change none]
    let past := ((watch 3 0).run r burst).run 0
    let fired := (past.1.1.step r (.advance 4)).run past.2
    let closed := ((watch 3 0).run r (burst ++ [.close])).run 0
    let late := (closed.1.1.step r (.advance 4)).run closed.2
    fired.1.2.map Firing.time = [5] ∧ (∀ f ∈ fired.1.2, f.outcome = .ok ()) ∧
      fired.2 = past.2 + 11 ∧
      (past.1.1.step r (.change (some "a.txt"))).run past.2 = ((past.1.1, []), past.2) ∧
      late.1.2 = [] ∧ late.2 = closed.2 := by
  intro r burst past fired closed late
  have hdue : DueAt 3 0 burst 5 := by
    refine ⟨[.change (some "a.json"), .advance 2], .change none, [], rfl, .inl rfl, rfl, by simp [burst],
      List.forall_mem_nil _, fun mid time h => absurd (List.prefix_nil.1 h) (by simp)⟩
  have htxt : ¬(WatchEvent.change (τ := Nat) (some "a.txt")).IsTrigger := by
    rw [← isRelevant_iff]
    decide
  have hhandled : ∀ err s, ((r.onError err).run.run s).1 = .ok () := fun _ _ => rfl
  obtain ⟨hat, hone, -, -, -, -, hcaught, hresult, -⟩ := rebuilds_once_a_burst 3 0 r 0 burst (.advance 4)
  obtain ⟨-, -, -, hignored, -⟩ := rebuilds_once_a_burst 3 0 r 0 burst (.change (some "a.txt"))
  obtain ⟨-, -, -, -, hnone, -, -, -, hkept⟩ :=
    rebuilds_once_a_burst 3 0 r 0 (burst ++ [.close]) (.advance 4)
  have hfive : 5 ∈ fired.1.2.map Firing.time := (hat 5).2 ⟨4, rfl, hdue, by decide⟩
  obtain ⟨f, hf⟩ : ∃ f, fired.1.2 = [f] := by
    refine List.length_eq_one_iff.1 (Nat.le_antisymm hone (List.length_pos_iff.2 ?_))
    intro hnil
    rw [hnil] at hfive
    cases hfive
  have hlate : late.1.2 = [] := hnone (by simp)
  refine ⟨?_, hcaught hhandled, ?_, hignored _ rfl htxt, hlate, hkept hlate⟩
  · rw [hf] at hfive ⊢
    exact congrArg (· :: []) (List.mem_singleton.1 hfive).symm
  · exact congrArg Prod.snd (hresult f (hf ▸ List.mem_singleton_self f))

end RecurrenceCompiler
