import Ece357.Sched.Steps

/-!
# Ece357.Sched.Selection

**Who gets the processor.** Two paths of `sched.c` change `current`: the switch at the
end of `sched_switch`, and the hand-over to a sleeping parent inside `sched_exit`. The
first selects by dynamic priority and obeys it in every state (`schedSwitch_obeys`). The
second does not select at all: it obeys the priorities exactly when no READY task outranks
the parent it happens to wake (`switch_obeys_iff`), and that parent may have the lowest
priority there is (`handover_inverts`).
-/

namespace Ece357.Sched

open Ece357.Machine Ece357.ProcTable State

variable {s s' u : State}

/-- No READY task has a higher dynamic priority than the current one. -/
def State.Obeys (s : State) : Prop :=
  ∀ p, s.InTable p → (s.heap p).state = .ready → dynPriority (s.heap p) ≤ dynPriority s.cur

/-! ### The steps that keep `current` -/

theorem waitRound_current (freed : SchedProc → SchedProc) (s : State) :
    (waitRound freed s).current = s.current := by
  unfold waitRound
  dsimp only
  split <;> rfl

theorem schedWait_current (freed : SchedProc → SchedProc) (s : State) :
    (schedWait freed s).current = s.current := by
  unfold schedWait
  dsimp only
  split
  · rfl
  · exact waitRound_current freed _

theorem schedFork_current {mem : Option (Ptr × SchedProc)} {newsp : Addr}
    (hs : schedFork mem newsp s = some s') : s'.current = s.current := by
  unfold schedFork at hs
  split at hs
  · obtain rfl := Option.some.inj hs
    rfl
  · dsimp only at hs
    split_ifs at hs <;> (obtain rfl := Option.some.inj hs; rfl)

/-- A step that does not enter `sched_switch` keeps `current`, or it is a `sched_exit`. -/
theorem step_not_enters {l : Label} (hu : entersSwitch s l = none) (hs : step s l = some s') :
    s'.current = s.current ∨ ∃ code, l = .exit code ∧ s' = schedExit code s := by
  cases step_direct hu hs with
  | fork _ _ hs => exact .inl (schedFork_current hs)
  | exit _ code => exact .inr ⟨code, rfl, rfl⟩
  | wait _ freed => exact .inl (schedWait_current freed s)
  | nice _ niceval => exact .inl rfl
  | waitAgain _ freed => exact .inl (waitRound_current freed _)
  | exitReturn _ freed => exact .inl rfl
  | tickReturn _ freed => exact .inl rfl

/-! ### Handing over the processor -/

/-- Resuming a task obeys the priorities if nobody else READY outranks it. -/
theorem resume_obeys {by_ q : Ptr} : (resume s by_ q).Obeys ↔ ∀ p, s.InTable p → p ≠ q →
    (s.heap p).state = .ready → dynPriority (s.heap p) ≤ dynPriority (s.heap q) := by
  have hprio : ∀ p, dynPriority ((resume s by_ q).heap p) = dynPriority (s.heap p) := fun p =>
    resume_field dynPriority s (fun _ => rfl) by_ q p
  have hcur : dynPriority (resume s by_ q).cur = dynPriority (s.heap q) := by
    unfold State.cur
    rw [resume_current]
    exact hprio q
  have hother : ∀ p, p ≠ q → (resume s by_ q).heap p = s.heap p := by
    intro p hp
    rw [resume_eq]
    exact Function.update_of_ne hp ..
  constructor
  · intro h p hp hne hready
    rw [← hprio p, ← hcur]
    refine h p ((inTable_congr (resume_procs s by_ q) p).mpr hp) ?_
    rw [hother p hne]
    exact hready
  · intro h p hp hready
    have hne : p ≠ q := by
      intro hpq
      rw [hpq, resume_eq] at hready
      simp at hready
    rw [hprio p, hcur]
    rw [hother p hne] at hready
    exact h p ((inTable_congr (resume_procs s by_ q) p).mp hp) hne hready

/-- **`sched_switch` obeys the priorities** whenever it switches. -/
theorem schedSwitch_obeys (hchange : (schedSwitch u).current ≠ u.current) :
    (schedSwitch u).Obeys := by
  rcases schedSwitch_spec u with ⟨heq, -⟩ | ⟨i, q, -, hsel, heq⟩
  · rw [heq] at hchange
    exact absurd rfl hchange
  · split_ifs at heq with hpid
    · rw [heq] at hchange
      exact absurd rfl hchange
    · have hsaved : ∀ {β : Type} (g : SchedProc → β),
          (∀ r : SchedProc, g { r with ctx := ⟨.switch, (selecting u).frames⟩ } = g r) → ∀ p,
          g ((savectx (selecting u) (selecting u).current .switch).heap p) =
            g ((selecting u).heap p) := fun g hg => savectx_field g _ hg
      rw [heq]
      refine resume_obeys.mpr fun p hp _ hready => ?_
      rw [hsaved dynPriority fun _ => rfl, hsaved dynPriority fun _ => rfl]
      rw [hsaved SchedProc.state fun _ => rfl] at hready
      exact hsel.best p hp hready

theorem Wakes.unique {i j : Nat} {q r : Ptr} (h : Wakes s i q) (h' : Wakes s j r) : q = r := by
  rcases Nat.lt_trichotomy i j with hlt | rfl | hgt
  · exact absurd h.asleep (h'.lowest i hlt q h.slot)
  · exact Option.some.inj (h.slot.symm.trans h'.slot)
  · exact absurd h'.asleep (h.lowest j hgt r h'.slot)

/-- Nobody else READY outranks the parent that a `sched_exit` would wake. -/
def WakesBest (s : State) : Prop := ∀ i q, Wakes s i q → ∀ p, s.InTable p → p ≠ s.current →
  (s.heap p).state = .ready → dynPriority (s.heap p) ≤ dynPriority (s.heap q)

theorem schedExit_obeys {code : Int} (hchange : (schedExit code s).current ≠ s.current) :
    (schedExit code s).Obeys ↔ WakesBest s := by
  have hprio : ∀ p, dynPriority ((s.exited code).heap p) = dynPriority (s.heap p) :=
    exited_field dynPriority s fun _ => rfl
  rcases schedExit_cases s code with ⟨heq, -⟩ | ⟨i, q, hwakes, heq⟩
  · rw [heq] at hchange
    exact absurd rfl hchange
  · rw [heq, resume_obeys]
    constructor
    · intro h j r hr p hp hne hready
      obtain rfl := hwakes.unique hr
      have hpq : p ≠ q := by
        intro hpq
        rw [hpq, hwakes.asleep.2.2] at hready
        cases hready
      rw [← hprio p, ← hprio q]
      exact h p hp hpq (by rw [exited_heap hne]; exact hready)
    · intro h p hp _ hready
      have hne : p ≠ s.current := by
        intro hpc
        subst hpc
        simp [exited, State.modify, State.log] at hready
      rw [exited_heap hne] at hready
      rw [hprio p, hprio q]
      exact h i q hwakes p hp hne hready

/-- **When a change of `current` obeys the priorities**: always, except that a `sched_exit`
that hands over to its sleeping parent does so only if nobody READY outranks that parent.
The states need not even be reachable. -/
theorem switch_obeys_iff {l : Label} (hs : step s l = some s') (hchange : s'.current ≠ s.current) :
    s'.Obeys ↔ ((∃ code, l = .exit code) → WakesBest s) := by
  cases hu : entersSwitch s l with
  | some u =>
      have heq := step_enters hu hs
      rw [heq, ← (entersSwitch_quiet hu).current] at hchange
      have hnot : ¬ ∃ code, l = .exit code := by
        intro hexit
        obtain ⟨code, rfl⟩ := hexit
        cases hu
      rw [heq]
      exact ⟨fun _ hexit => absurd hexit hnot, fun _ => schedSwitch_obeys hchange⟩
  | none =>
      rcases step_not_enters hu hs with hsame | ⟨code, rfl, rfl⟩
      · exact absurd hsame hchange
      · rw [schedExit_obeys hchange]
        exact ⟨fun h _ => h, fun h => h ⟨code, rfl⟩⟩

/-- The initial process goes to sleep, and its child gets the processor. -/
theorem switch_obeys_iff_sleep : ∃ s s' : State, step s (.go id) = some s' ∧
    s'.current ≠ s.current ∧ s'.Obeys := by
  have hrun : ∃ s, sched.Reach System.any s ∧
      ((step s (.go id)).any fun s' => s'.current ≠ s.current) = true :=
    start_reach _ (fun _ _ => true) [.fork (some (101, blank)) 65536, .wait id]
      _ (fun _ _ _ _ => trivial) (by decide +kernel)
  obtain ⟨s, -, hs⟩ := hrun
  obtain ⟨s', hstep, hs'⟩ := (Option.any_eq_true _ _).mp hs
  have hne : s'.current ≠ s.current := of_decide_eq_true hs'
  refine ⟨s, s', hstep, hne, (switch_obeys_iff hstep hne).mpr fun hexit => ?_⟩
  obtain ⟨code, hexit⟩ := hexit
  cases hexit

/-- **A hand-over to a task of lower priority.** The initial process has nice value 19 and
waits for its child A; A creates B and exits. The initial process runs, with priority 1,
while B is READY with priority 20. -/
theorem handover_inverts : ¬ ∀ s l s', sched.Reach Disciplined s → step s l = some s' →
    s'.current ≠ s.current → s'.Obeys := by
  intro hall
  have hrun : ∃ s, sched.Reach Disciplined s ∧ ((step s (.exit 0)).any fun s' =>
      s'.current ≠ s.current && s'.procs 2 = some 102 && (s'.heap 102).state = .ready &&
        dynPriority (s'.heap 102) = 20 && dynPriority s'.cur = 1) = true :=
    start_reach _ (fun s l => decide (Disciplined s l))
      [.nice 19, .fork (some (101, blank)) 65536, .wait id, .go id,
        .fork (some (102, blank)) 131072]
      _ (fun _ _ _ => of_decide_eq_true) (by decide +kernel)
  obtain ⟨s, hreach, hs⟩ := hrun
  obtain ⟨s', hstep, hs'⟩ := (Option.any_eq_true _ _).mp hs
  simp only [Bool.and_eq_true, decide_eq_true_eq] at hs'
  obtain ⟨⟨⟨⟨hne, hslot⟩, hready⟩, hhigh⟩, hlow⟩ := hs'
  have hle := hall s _ s' hreach hstep hne 102 ⟨2, by simp [schedNproc], hslot⟩ hready
  rw [hhigh, hlow] at hle
  omega

end Ece357.Sched
