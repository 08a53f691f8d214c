import Ece357.Sched.Exiting

/-!
# Ece357.Sched.Running

**Is exactly the current task RUNNING?** Nobody else ever is. The current task itself,
when it executes its own code, is RUNNING or it is one of two things it should not be:

* READY — `sched_switch` puts the task on the run queue first and selects then; if the best
  task is the one that called, it returns without making it RUNNING again;
* ZOMBIE — a `sched_exit` has returned.

So the property holds in every run in which each task that yields to `sched_switch` is
outranked by another READY task, and each exiting task leaves a successor
(`running_in_own_code`). A single tick of a task that is alone breaks it (`tick_leaves_ready`).
-/

namespace Ece357.Sched

open Ece357.Machine Ece357.ProcTable State

variable {s s' u : State}

/-- A READY task is to be selected before the current one: it has a higher dynamic priority,
or as high a one in a lower slot. -/
def State.Outranked (s : State) : Prop :=
  ∃ j < schedNproc, ∃ p, s.procs j = some p ∧ p ≠ s.current ∧ (s.heap p).state = .ready ∧
    (dynPriority s.cur < dynPriority (s.heap p) ∨ dynPriority s.cur = dynPriority (s.heap p) ∧
      ∃ i, j < i ∧ i < schedNproc ∧ s.procs i = some s.current)

/-- A task that enters `sched_switch` awake and alive is outranked there. -/
def YieldsOutranked (s : State) (l : Label) : Prop := ∀ u, entersSwitch s l = some u →
  u.cur.state ≠ .sleeping → u.cur.state ≠ .zombie → u.Outranked

/-- The current task executes its own code, outside the scheduler. -/
def State.InOwnCode (s : State) : Prop := s.frames = []

/-- The current task is RUNNING, and no other record in the table is. -/
def State.OneRunning (s : State) : Prop :=
  s.cur.state = .running ∧ ∀ p, s.InTable p → (s.heap p).state = .running → p = s.current

/-! ### The current task is never READY -/

/-- Who is outranked is not the task to select. -/
theorem State.Outranked.not_selected (h : Base u) (hout : u.Outranked) {i : Nat}
    (hsel : Selected (selecting u) i u.current) : False := by
  obtain ⟨j, hj, p, hp, hne, hready, hhigher⟩ := hout
  have hpin : u.InTable p := ⟨j, hj, hp⟩
  have hst : ((selecting u).heap p).state = .ready := (selecting_state hne).trans hready
  have hbest := hsel.best p hpin hst
  have hcur : dynPriority ((selecting u).heap u.current) = dynPriority u.cur :=
    selecting_dynPriority u _
  rw [selecting_dynPriority, hcur] at hbest
  rcases hhigher with hlt | ⟨heq, k, hjk, hk, hcurrent⟩
  · omega
  · obtain rfl := h.slot_inj hk hsel.lt hcurrent hsel.slot
    have hlow := hsel.lowest j hjk p hp hst
    rw [selecting_dynPriority, hcur] at hlow
    omega

/-- `sched_switch`, called by a task that is outranked, asleep or dead, does not come back
to it READY. -/
theorem schedSwitch_not_ready (h : Base u)
    (hout : u.cur.state ≠ .sleeping → u.cur.state ≠ .zombie → u.Outranked) :
    (schedSwitch u).cur.state ≠ .ready := by
  rcases schedSwitch_best h with ⟨heq, hnone⟩ | ⟨i, q, -, hsel, ⟨rfl, heq⟩ | ⟨-, heq⟩⟩
  · rw [heq]
    exact hnone _ h.current
  · -- Who was asleep or dead is not READY when it is its turn to be selected.
    have hready : Table.leave u.cur.state = .ready :=
      (selecting_cur_state u).symm.trans hsel.ready
    refine absurd hsel fun hsel => (hout ?_ ?_).not_selected h hsel
    · intro hst
      rw [hst] at hready
      cases hready
    · intro hst
      rw [hst] at hready
      cases hready
  · rw [heq]
    show (resume _ _ q).cur.state ≠ _
    simp [resume_eq, State.cur]

theorem Move.cur_not_ready (h : Sound s) (hlive : s.cur.state ≠ .zombie)
    (hst : s.cur.state ≠ .ready) {l : Label} (hm : Move s (some l) s') : s'.cur.state ≠ .ready := by
  cases hm with
  | quiet hq => exact hq.cur_state h ▸ hst
  | forkFail hq => exact hq.cur_state h ▸ hst
  | noChild hq => exact hq.cur_state h ▸ hst
  | exitReturn hq => exact hq.cur_state h ▸ hst
  | @fork z content newsp i hcall hi hfree hlow hz =>
      show ((s.forked z content i newsp).heap s.current).state ≠ .ready
      rw [forked_heap (h.base.ne_of_free h.base.current hz)]
      exact hst
  | exit => simp [exited, State.modify, State.log, State.cur]
  | exitWake => simp [resume_eq, State.cur]
  | @reap l freed i z hround hi hz hparent hzombie =>
      have hne : s.current ≠ z := fun hcz => hlive (by rw [State.cur, hcz]; exact hzombie)
      show ((s.reaped i z _).heap s.current).state ≠ .ready
      rw [reaped_heap hne]
      exact hst
  | sleep => simp [slept, State.modify, State.cur]

/-! ### Runs -/

/-- Exits leave a successor, and who yields is outranked. -/
def KeepsRunning (s : State) (l : Label) : Prop := LeavesSuccessor s l ∧ YieldsOutranked s l

theorem cur_not_ready (h : sched.Reach KeepsRunning s) : s.cur.state ≠ .ready := by
  refine h.invariant (I := fun a => a.cur.state ≠ .ready) (fun ha => ?_) fun hreach ha hok hs => ?_
  · simp [(Initial.started ha).state]
  · obtain ⟨hdisc, hh, -⟩ := handing_of_reach And.left hreach
    have hsound := Sound.of_reach (fun hok => hok.2.sparesSelf) hdisc
    rcases step_cases hsound hs with ⟨hm, hexit⟩ | ⟨u, hu, rfl, hq⟩
    · exact hm.cur_not_ready hsound (fun hz => hexit _ (hh hz).1) ha
    · exact schedSwitch_not_ready (hsound.quiet hq).base (hok.2 u hu)

/-- **Exactly the current task is RUNNING** whenever it executes its own code, in every run
in which each exit leaves a successor and each task that yields is outranked. -/
theorem running_in_own_code (h : sched.Reach KeepsRunning s) (hcode : s.InOwnCode) :
    s.OneRunning := by
  obtain ⟨hdisc, hh, -⟩ := handing_of_reach And.left h
  have hsound := Sound.of_reach (fun hok => hok.2.sparesSelf) hdisc
  have hwf := Table.Wf.of_reach (hdisc.mono fun hok => hok.2)
  refine ⟨?_, fun p hp hst => ?_⟩
  · cases hst : s.cur.state with
    | running => rfl
    | ready => exact absurd hst (cur_not_ready h)
    | zombie =>
        have hframes := (hh hst).1
        rw [hcode] at hframes
        cases hframes
    | sleeping =>
        -- Who sleeps is inside `sched_wait`.
        have hwait := hwf.sleeps _ _ hsound.base.entry_cur hst
        have hnone : s.frames = [] := hcode
        simp [entryOf, stackOf, hnone] at hwait
  · have hcur := hwf.running _ _ (hsound.base.entry_of hp) hst
    exact (hsound.base.pid_eq_cur hp).mp hcur

/-- A check for `KeepsRunning` on calls and on a sleeping task's switch. -/
def keepsRunning (s : State) : Label → Bool
  | .tick => false
  | .exit _ => false
  | .go _ => s.cur.state = .sleeping && s.frames = [.waitSwitch]
  | _ => true

theorem KeepsRunning.of_check {l : Label} (h : keepsRunning s l = true) : KeepsRunning s l := by
  cases l with
  | tick => cases h
  | exit => cases h
  | go freed =>
      simp only [keepsRunning, Bool.and_eq_true, decide_eq_true_eq] at h
      constructor
      · intro hexit
        obtain ⟨code, hl⟩ := hexit
        cases hl
      · intro u hu hawake
        simp only [entersSwitch, h.2, Option.some.injEq] at hu
        subst hu
        exact absurd h.1 hawake
  | fork | wait | nice =>
      constructor
      · intro hexit
        obtain ⟨code, hl⟩ := hexit
        cases hl
      · intro u hu
        cases hu

/-- A child of the sleeping initial process runs. -/
theorem running_in_own_code_child : ∃ s : State, s.current = 101 ∧ s.InOwnCode ∧
    s.OneRunning := by
  have hrun : ∃ s, sched.Reach KeepsRunning s ∧ (s.current = 101 && s.frames = []) = true :=
    start_reach _ keepsRunning [.fork (some (101, blank)) 65536, .wait id, .go id]
      _ (fun _ _ _ => KeepsRunning.of_check) (by decide +kernel)
  obtain ⟨s, hreach, hs⟩ := hrun
  rw [Bool.and_eq_true, decide_eq_true_eq, decide_eq_true_eq] at hs
  exact ⟨s, hs.1, hs.2, running_in_own_code hreach hs.2⟩

/-- **A tick leaves the task it interrupts READY** if that task is the best. -/
theorem tick_leaves_ready : ¬ ∀ s, sched.Reach Disciplined s → s.InOwnCode → s.OneRunning := by
  intro hall
  have hrun : ∃ s, sched.Reach Disciplined s ∧
      (s.frames = [] && s.cur.state = .ready && !s.blocked) = true :=
    start_reach _ (fun s l => decide (Disciplined s l)) [.tick, .go id]
      _ (fun _ _ _ => of_decide_eq_true) (by decide +kernel)
  obtain ⟨s, hreach, hs⟩ := hrun
  simp only [Bool.and_eq_true, decide_eq_true_eq] at hs
  have hone := (hall s hreach hs.1.1).1
  rw [hs.1.2] at hone
  cases hone

end Ece357.Sched
