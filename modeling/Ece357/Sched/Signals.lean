import Ece357.Sched.Exiting
import Ece357.Sched.Selection

/-!
# Ece357.Sched.Signals

**Who unblocks the signals.** All tasks share one signal mask: it is set in one task
and cleared in another, behind a `restorectx`. Three calls come back to task code with
signals blocked: a `sched_fork` without memory or pid, a `sched_wait` without a child,
and a `sched_exit` with nobody to take over, which returns (`Exiting`). `Completes` says
at the call that it is none of these: where all calls complete, task code never runs with
signals blocked, and any call that does not can come back so (`signals_unblocked`).
-/

namespace Ece357.Sched

open Ece357.Machine Ece357.ProcTable State

/-- If the running task stands in its own code, signals are unblocked. -/
def CodeUnblocked (s : State) : Prop := s.frames = [] → s.blocked = false

/-- The call takes none of the early returns: `sched_fork` gets memory and finds a free slot,
`sched_wait` has a child to wait for, `sched_exit` leaves somebody to take over. -/
def Completes (s : State) : Label → Prop
  | .fork mem _ => mem ≠ none ∧ ∃ i < schedNproc, s.procs i = none
  | .wait _ => ∃ q, s.InTable q ∧ (s.heap q).ppid = s.cur.pid
  | .exit _ => s.HasSuccessor
  | _ => True

variable {s s' : State}

theorem resume_unblocked (s : State) (by_ q : Ptr) : (resume s by_ q).blocked = false := by
  rw [resume_eq]

/-- `sched_switch` returns with its caller's frames, or has resumed a task. -/
theorem schedSwitch_frames (s : State) :
    (schedSwitch s).frames = s.frames ∨ (schedSwitch s).blocked = false := by
  have hframes : (selecting s).frames = s.frames := rfl
  unfold schedSwitch
  rw [updateCurrent_eq]
  dsimp only
  split
  · exact .inl hframes
  · split_ifs
    · exact .inl hframes
    · exact .inr (resume_unblocked _ _ _)

theorem schedSwitch_code (h : s.frames ≠ []) : CodeUnblocked (schedSwitch s) := by
  intro hcode
  rcases schedSwitch_frames s with hframes | hopen
  · exact absurd (hframes.symm.trans hcode) h
  · exact hopen

theorem schedFork_code (hcall : s.frames = []) {mem : Option (Ptr × SchedProc)} {newsp : Addr}
    (hs : schedFork mem newsp s = some s') :
    CodeUnblocked s' ↔ mem ≠ none ∧ ∃ i < schedNproc, s.procs i = none := by
  unfold schedFork at hs
  cases mem with
  | none =>
      obtain rfl := Option.some.inj hs
      constructor
      · intro h
        cases h hcall
      · intro h
        exact absurd rfl h.1
  | some m =>
      obtain ⟨z, content⟩ := m
      have hpid : nextpid (s.sigBlock.malloc z content) = nextpid s := rfl
      simp only [hpid] at hs
      rcases nextpid_cases s with ⟨hnone, hfull⟩ | ⟨i, hi, hsome, hfree, -⟩
      · rw [if_pos (by omega)] at hs
        obtain rfl := Option.some.inj hs
        constructor
        · intro h
          cases h hcall
        · intro h
          obtain ⟨-, i, hi, hfree⟩ := h
          exact absurd hfree (hfull i hi)
      · rw [if_neg (by omega), if_neg (Nat.not_lt_zero _)] at hs
        split_ifs at hs
        obtain rfl := Option.some.inj hs
        exact ⟨fun _ => ⟨by simp, i, hi, hfree⟩, fun _ _ => rfl⟩

theorem schedExit_code (s : State) (code : Int) : CodeUnblocked (schedExit code s) := by
  intro hcode
  unfold schedExit at hcode ⊢
  dsimp only at hcode ⊢
  split at hcode
  · exact resume_unblocked _ _ _
  · cases hcode

theorem waitRound_code (freed : SchedProc → SchedProc) (s : State) :
    CodeUnblocked (waitRound freed s) := by
  intro _
  unfold waitRound
  split <;> rfl

theorem schedWait_code (hcall : s.frames = []) (freed : SchedProc → SchedProc) :
    CodeUnblocked (schedWait freed s) ↔ ∃ q, s.InTable q ∧ (s.heap q).ppid = s.cur.pid := by
  unfold schedWait
  dsimp only
  cases hfind : s.sigBlock.findProc fun q => q.ppid = s.sigBlock.cur.pid with
  | none =>
      constructor
      · intro h
        cases h hcall
      · intro h
        obtain ⟨q, hq, hpar⟩ := h
        exact absurd hpar (of_decide_eq_false (findProc_none.mp hfind q hq))
  | some found =>
      obtain ⟨i, q⟩ := found
      obtain ⟨hi, hq, htest⟩ := findProc_some hfind
      exact ⟨fun _ => ⟨q, ⟨i, hi, hq⟩, of_decide_eq_true htest⟩, fun _ => waitRound_code freed _⟩

/-- A step that enters `sched_switch` does so with a frame to come back to. -/
theorem entersSwitch_frames {u : State} {l : Label} (hu : entersSwitch s l = some u) :
    u.frames ≠ [] := by
  unfold entersSwitch at hu
  split at hu
  · obtain rfl := Option.some.inj hu
    exact List.cons_ne_nil _ _
  · split at hu
    · obtain rfl := Option.some.inj hu
      exact List.cons_ne_nil _ _
    · obtain rfl := Option.some.inj hu
      exact List.cons_ne_nil _ _
    · cases hu
  · cases hu

/-- **One step**, where nobody stands before the return of a `sched_exit`: if it takes none of the
early returns, it ends with signals unblocked, or not in task code at all. -/
theorem step_code (h : CodeUnblocked s) (hreturn : Frame.exitReturn ∉ s.frames) {l : Label}
    (hok : Completes s l) (hs : step s l = some s') : CodeUnblocked s' := by
  cases hu : entersSwitch s l with
  | some u =>
      rw [step_enters hu hs]
      exact schedSwitch_code (entersSwitch_frames hu)
  | none =>
      cases step_direct hu hs with
      | fork hcall _ hs => exact (schedFork_code hcall hs).mpr hok
      | exit _ code => exact schedExit_code s code
      | wait hcall freed => exact (schedWait_code hcall freed).mpr hok
      | nice _ niceval => exact h
      | waitAgain hfs freed => exact waitRound_code freed _
      -- The mask would be left as `sched_switch` left it.
      | exitReturn hfs freed => exact absurd (hfs ▸ List.mem_cons_self) hreturn
      | tickReturn hfs freed => exact fun _ => rfl

/-- A call that takes one of the early returns comes back with signals blocked. -/
theorem call_blocks {l : Label} (hs : step s l = some s') (hnot : ¬ Completes s l) :
    ∃ t, sched.Run System.any s' t ∧ t.current = s.current ∧ t.frames = [] ∧ t.blocked = true := by
  -- what does not complete at once has come back at once
  have hback : (CodeUnblocked s' ↔ Completes s l) → s'.current = s.current →
      ∃ t, sched.Run System.any s' t ∧ t.current = s.current ∧ t.frames = [] ∧
        t.blocked = true := by
    intro hcode hcurrent
    obtain ⟨hframes, hblocked⟩ := Classical.not_imp.mp (mt hcode.mp hnot)
    exact ⟨s', .refl, hcurrent, hframes, eq_true_of_ne_false hblocked⟩
  cases l with
  | tick | nice | go => exact absurd trivial hnot
  | fork mem newsp =>
      simp only [step, Option.ite_none_right_eq_some] at hs
      obtain ⟨⟨hcall, hok⟩, hs⟩ := hs
      exact hback (schedFork_code hcall hs) (schedFork_current hs)
  | exit code =>
      simp only [step, Option.ite_none_right_eq_some, Option.some.injEq] at hs
      obtain ⟨hcall, rfl⟩ := hs
      obtain ⟨t, hrun, hcurrent, hframes, -, hblocked⟩ := schedExit_returns hcall hnot
      exact ⟨t, hrun, hcurrent, hframes, hblocked⟩
  | wait freed =>
      simp only [step, Option.ite_none_right_eq_some, Option.some.injEq] at hs
      obtain ⟨hcall, rfl⟩ := hs
      exact hback (schedWait_code hcall freed) (schedWait_current freed s)

/-- **Task code runs with signals unblocked**, in every run whose calls take none of the early
returns; and any call that takes one can come back to its caller with signals blocked. -/
theorem signals_unblocked (s : State) :
    (sched.Reach Completes s → s.frames = [] → s.blocked = false) ∧
    ∀ l s', step s l = some s' → ¬ Completes s l →
      ∃ t, sched.Run System.any s' t ∧ t.current = s.current ∧ t.frames = [] ∧
        t.blocked = true := by
  refine ⟨fun h => ?_, fun l s' hs hnot => call_blocks hs hnot⟩
  refine h.invariant (I := CodeUnblocked) (fun ha _ => ha.started.blocked) ?_
  intro a l b ha hcode hok hs
  have hleaves : ∀ {s l}, Completes s l → LeavesSuccessor s l := by
    intro s l hok hexit
    obtain ⟨code, rfl⟩ := hexit
    exact hok
  obtain ⟨hreach, hh, -⟩ := handing_of_reach hleaves ha
  have hsound := Sound.of_reach (fun hok => hok.2.sparesSelf) hreach
  exact step_code hcode (exitReturn_not_mem hsound hh) hok hs

/-- A check for `Completes`. -/
def completes (s : State) : Label → Bool
  | .fork mem _ => mem.isSome && decide (0 < nextpid s)
  | .wait _ => (s.findProc fun q => q.ppid = s.cur.pid).isSome
  | .exit code => leavesSuccessor s (.exit code)
  | _ => true

theorem Completes.of_check {l : Label} (h : completes s l = true) : Completes s l := by
  cases l with
  | tick => trivial
  | nice niceval => trivial
  | go freed => trivial
  | exit code =>
      have hleaves : leavesSuccessor s (.exit code) = true := h
      exact LeavesSuccessor.of_check hleaves ⟨code, rfl⟩
  | fork mem newsp =>
      simp only [completes, Bool.and_eq_true, decide_eq_true_eq] at h
      rcases nextpid_cases s with ⟨hnone, -⟩ | ⟨i, hi, -, hfree, -⟩
      · omega
      · exact ⟨Option.isSome_iff_ne_none.mp h.1, i, hi, hfree⟩
  | wait freed =>
      obtain ⟨found, hfind⟩ := Option.isSome_iff_exists.mp h
      obtain ⟨hi, hq, htest⟩ := findProc_some hfind
      exact ⟨found.2, ⟨found.1, hi, hq⟩, of_decide_eq_true htest⟩

/-- A child exits to its parent in `sched_wait`, which goes on in its own code. If the child calls
`sched_wait` instead, it has no children, and comes back with signals blocked. -/
theorem signals_unblocked_child :
    (∃ s : State, s.trace.head? = some (.waitReturned 100 0 (some 7)) ∧ s.frames = [] ∧
      s.blocked = false) ∧
    ∃ s s' t : State, s.cur.pid = 2 ∧ step s (.wait id) = some s' ∧ sched.Run System.any s' t ∧
      t.frames = [] ∧ t.blocked = true := by
  constructor
  · have hrun : ∃ s, sched.Reach Completes s ∧
        (s.trace.head? = some (.waitReturned 100 0 (some 7)) && s.frames = []) = true :=
      start_reach _ completes
        [.fork (some (101, blank)) 65536, .wait id, .go id, .exit 7, .go id]
        _ (fun _ _ _ => .of_check) (by decide +kernel)
    obtain ⟨s, hreach, hs⟩ := hrun
    simp only [Bool.and_eq_true, decide_eq_true_eq] at hs
    exact ⟨s, hs.1, hs.2, (signals_unblocked s).1 hreach hs.2⟩
  · have hrun : ∃ s, sched.Reach Completes s ∧ (s.cur.pid = 2 && s.frames = [] &&
        (s.findProc fun q => q.ppid = s.cur.pid).isNone) = true :=
      start_reach _ completes [.fork (some (101, blank)) 65536, .wait id, .go id]
        _ (fun _ _ _ => .of_check) (by decide +kernel)
    obtain ⟨s, -, hs⟩ := hrun
    simp only [Bool.and_eq_true, decide_eq_true_eq, Option.isNone_iff_eq_none] at hs
    obtain ⟨⟨hpid, hcall⟩, hnone⟩ := hs
    have hstep : step s (.wait id) = some (schedWait id s) := by simp [step, hcall]
    have hchildless : ¬ Completes s (.wait id) := by
      intro hok
      obtain ⟨q, hq, hpar⟩ := hok
      exact absurd hpar (of_decide_eq_false (findProc_none.mp hnone q hq))
    obtain ⟨t, hrun, -, hframes, hblocked⟩ := (signals_unblocked s).2 _ _ hstep hchildless
    exact ⟨s, _, t, hpid, hstep, hrun, hframes, hblocked⟩

/-- **A `sched_wait` without children returns with all signals blocked**: the child of
the example above calls it. -/
theorem childless_wait_blocks : ¬ ∀ s l s', sched.Reach System.any s → s.frames = [] →
    s.blocked = false → ((∃ mem newsp, l = .fork mem newsp) ∨ ∃ freed, l = .wait freed) →
    step s l = some s' → s'.frames = [] → s'.blocked = false := by
  intro hall
  have hrun : ∃ s, sched.Reach System.any s ∧ (s.frames = [] && !s.blocked &&
      (schedWait id s).frames = [] && (schedWait id s).blocked) = true :=
    start_reach _ (fun _ _ => true) [.fork (some (101, blank)) 65536, .wait id, .go id]
      _ (fun _ _ _ _ => trivial) (by decide +kernel)
  obtain ⟨s, hreach, hs⟩ := hrun
  simp only [Bool.and_eq_true, Bool.not_eq_true', decide_eq_true_eq] at hs
  obtain ⟨⟨⟨hcode, hopen⟩, hcode'⟩, hblocked⟩ := hs
  have hstep : step s (.wait id) = some (schedWait id s) := by simp [step, hcode]
  have hreopened := hall s _ _ hreach hcode hopen (.inr ⟨id, rfl⟩) hstep hcode'
  rw [hreopened] at hblocked
  cases hblocked

end Ece357.Sched
