import Ece357.Sched.Refine

/-!
# Ece357.Sched.Exiting

**Does `sched_exit` return?** Its doc says that it will not, and that another runnable
process will be scheduled. The code hands over to a sleeping parent, or else calls
`sched_switch`, which returns early when no task is READY; then `sched_exit` returns into
a task that is dead.

So it matters who is left at the call. If every call finds a successor (another READY task,
or its parent asleep), then none returns, whatever ticks arrive in the window before the
switch: nobody but the dead task could use up the successor. A call that finds none does
return, unless a task becomes READY, which nobody is left to do (`sched_exit_no_return`).
-/

namespace Ece357.Sched

open Ece357.Machine Ece357.ProcTable State

variable {s s' : State}

/-- Somebody can take over from the current task if it exits: another task that is READY,
or its parent, asleep. -/
def State.HasSuccessor (s : State) : Prop :=
  (∃ q, s.InTable q ∧ q ≠ s.current ∧ (s.heap q).state = .ready) ∨
    ∃ q, s.InTable q ∧ s.ParentAsleep q

/-- Every `sched_exit` is called with a successor. -/
def LeavesSuccessor (s : State) (l : Label) : Prop :=
  (∃ code, l = .exit code) → s.HasSuccessor

/-- If the current task is dead, it is about to call `sched_switch`, which will find
somebody READY. -/
def State.Handing (s : State) : Prop := s.cur.state = .zombie →
  s.frames = [.exitSwitch] ∧ ∃ q, s.InTable q ∧ q ≠ s.current ∧ (s.heap q).state = .ready

/-- No call of `sched_exit` has returned. -/
def NoExitReturned (h : List Event) : Prop := ∀ task, .exitReturned task ∉ h

theorem NoExitReturned.append {old : List Event} (hold : NoExitReturned old) (new : List Event)
    (hnew : ∀ e ∈ new, ∀ task, e ≠ .exitReturned task) : NoExitReturned (new ++ old) := by
  intro task he
  rcases List.mem_append.mp he with he | he
  · exact hnew _ he task rfl
  · exact hold task he

theorem State.Handing.of_alive (h : s.cur.state ≠ .zombie) : s.Handing := fun hz => absurd hz h

theorem NoExitReturned.resume {u : State} {by_ q : Ptr} {old : List Event}
    (hold : NoExitReturned old) (new : List Event) (htrace : u.trace = new ++ old)
    (hnew : ∀ e ∈ new, ∀ task, e ≠ .exitReturned task) :
    NoExitReturned (Sched.resume u by_ q).trace := by
  rw [resume_trace_append by_ q htrace]
  exact hold.append _ (forall_resume (by simp) (by simp) hnew)

theorem resume_alive (by_ q : Ptr) : (resume s by_ q).cur.state ≠ .zombie := by
  simp [resume_eq, State.cur]

theorem Quiet.cur_state {new : List Event} (h : Sound s) (hq : Quiet s new s') :
    s'.cur.state = s.cur.state := by
  unfold State.cur
  rw [hq.current]
  exact (hq.record _ h.base.current).state

/-! ### A step with a successor at hand -/

/-- A call, or a step inside `sched_wait`: the task was alive, and is, or it has just died
and leaves somebody READY. -/
theorem Move.handing (h : Sound s) (hh : s.Handing) {l : Label} (hok : LeavesSuccessor s l)
    (hm : Move s (some l) s') (hexit : ∀ fs, s.frames ≠ .exitSwitch :: fs) :
    s'.Handing ∧ (NoExitReturned s.trace → NoExitReturned s'.trace) := by
  have halive : s.cur.state ≠ .zombie := fun hz => hexit _ (hh hz).1
  have hquiet : ∀ {new}, Quiet s new s' → (∀ e ∈ new, ∀ task, e ≠ .exitReturned task) →
      s'.Handing ∧ (NoExitReturned s.trace → NoExitReturned s'.trace) := by
    intro new hq hnew
    refine ⟨.of_alive (hq.cur_state h ▸ halive), fun hold => ?_⟩
    rw [hq.trace]
    exact hold.append _ hnew
  cases hm with
  | quiet hq => exact hquiet hq (by simp)
  | forkFail hq => exact hquiet hq (by simp)
  | noChild hq => exact hquiet hq (by simp)
  | exitReturn hq htop =>
      -- only a dead task stands behind its own `sched_switch`
      have hnot := h.cur.not_exitReturn halive
      simp [htop] at hnot
  | @fork z content newsp i hcall hi hfree hlow hz =>
      have hcur : s.current ≠ z := h.base.ne_of_free h.base.current hz
      refine ⟨.of_alive ?_, fun hold => ?_⟩
      · show ((s.forked z content i newsp).heap s.current).state ≠ .zombie
        rw [forked_heap hcur]
        exact halive
      · exact hold.append [_, _, _] (by simp)
  | @exit code hcall hawake =>
      refine ⟨fun _ => ⟨rfl, ?_⟩, fun hold => hold.append [_] (by simp)⟩
      -- a sleeping parent would have been woken
      rcases hok ⟨code, rfl⟩ with ⟨q, hq, hne, hready⟩ | ⟨q, hq, hne, hpid, hst⟩
      · exact ⟨q, hq, hne, by show ((s.exited code).heap q).state = _; rwa [exited_heap hne]⟩
      · exact absurd hst (hawake q hq hne hpid)
  | @exitWake code q =>
      refine ⟨.of_alive (resume_alive _ _), fun hold => ?_⟩
      exact hold.resume [_] rfl (by simp)
  | @reap l freed i z hround hi hz hparent hzombie =>
      have hne : s.current ≠ z := fun hcz => halive (by rw [State.cur, hcz]; exact hzombie)
      refine ⟨.of_alive ?_, fun hold => hold.append [_, _] (by simp)⟩
      show ((s.reaped i z _).heap s.current).state ≠ .zombie
      rw [reaped_heap hne]
      exact halive
  | sleep => exact ⟨.of_alive (by simp [slept, State.modify, State.cur]), id⟩

/-- A dead task that finds somebody READY in `sched_switch` does not come back. -/
theorem schedSwitch_handing (h : Base s) (hh : s.cur.state = .zombie →
    ∃ q, s.InTable q ∧ q ≠ s.current ∧ (s.heap q).state = .ready) :
    (schedSwitch s).cur.state ≠ .zombie ∧
      (NoExitReturned s.trace → NoExitReturned (schedSwitch s).trace) := by
  have hdead : (selecting s).cur.state = .zombie → s.cur.state = .zombie := fun hz =>
    Table.leave_zombie ((selecting_cur_state s).symm.trans hz)
  rcases schedSwitch_cases h with ⟨heq, hnone⟩ | ⟨heq, hstay⟩ | ⟨i, q, -, -, -, -, -, heq⟩
  · rw [heq]
    refine ⟨fun hz => ?_, id⟩
    obtain ⟨q, hq, hne, hready⟩ := hh (hdead hz)
    exact hnone q hq ((selecting_state hne).trans hready)
  · rw [heq]
    exact ⟨by simp [hstay], id⟩
  · rw [heq]
    exact ⟨resume_alive _ _, fun hold => hold.resume [_] rfl (by simp)⟩

theorem step_handing (h : Sound s) (hh : s.Handing) {l : Label} (hok : LeavesSuccessor s l)
    (hs : step s l = some s') :
    s'.Handing ∧ (NoExitReturned s.trace → NoExitReturned s'.trace) := by
  rcases step_cases h hs with ⟨hm, hexit⟩ | ⟨u, -, rfl, hq⟩
  · exact hm.handing h hh hok hexit
  · have hready : u.cur.state = .zombie →
        ∃ q, u.InTable q ∧ q ≠ u.current ∧ (u.heap q).state = .ready := by
      intro hz
      obtain ⟨q, hq', hne, hready⟩ := (hh ((hq.cur_state h).symm.trans hz)).2
      exact ⟨q, (inTable_congr hq.procs q).mpr hq', hq.current ▸ hne,
        (hq.record q hq').state.trans hready⟩
    obtain ⟨halive, htrace⟩ := schedSwitch_handing (h.quiet hq).base hready
    exact ⟨.of_alive halive, fun hold => htrace (by rw [hq.trace]; exact hold)⟩

/-! ### Runs -/

/-- Where every exit leaves a successor, nobody runs on after its own exit. -/
theorem State.Handing.disciplined (hh : s.Handing) {l : Label} (hs : step s l = some s') :
    Disciplined s l := by
  intro hcall hz
  have hframes := (hh hz).1
  cases l with
  | tick | go => cases hcall
  | fork | exit | wait | nice => simp [step, hframes] at hs

theorem Started.handing (h : Started s) : s.Handing := .of_alive (by simp [h.state])

/-- Runs in which every exit leaves a successor are disciplined. -/
theorem handing_of_reach {ok : State → Label → Prop}
    (hleaves : ∀ {s l}, ok s l → LeavesSuccessor s l) (h : sched.Reach ok s) :
    sched.Reach (fun s l => ok s l ∧ Disciplined s l) s ∧ s.Handing ∧ NoExitReturned s.trace := by
  refine h.invariant (I := fun a => sched.Reach (fun s l => ok s l ∧ Disciplined s l) a ∧
    a.Handing ∧ NoExitReturned a.trace) (fun ha => ?_) fun _ ha hok hs => ?_
  · have hstarted := Initial.started ha
    refine ⟨.init ha, hstarted.handing, fun task he => ?_⟩
    rw [hstarted.trace] at he
    cases he
  · obtain ⟨hreach, hh, htrace⟩ := ha
    have hsound := Sound.of_reach (fun hok => hok.2.sparesSelf) hreach
    obtain ⟨hh', htrace'⟩ := step_handing hsound hh (hleaves hok) hs
    exact ⟨hreach.step ⟨hok, hh.disciplined hs⟩ hs, hh', htrace' htrace⟩

/-- Then nobody stands before the return, either. -/
theorem exitReturn_not_mem (hsound : Sound s) (hh : s.Handing) : Frame.exitReturn ∉ s.frames := by
  intro hmem
  by_cases hz : s.cur.state = .zombie
  · rw [(hh hz).1] at hmem
    simp at hmem
  · exact hsound.cur.not_exitReturn hz hmem

/-- A `sched_exit` without a successor returns: nobody is READY when it switches. The mask is as
`sched_switch` has left it. -/
theorem schedExit_returns {code : Int} (hcall : s.frames = []) (hnone : ¬ s.HasSuccessor) :
    ∃ t, sched.Run System.any (schedExit code s) t ∧ t.current = s.current ∧ t.frames = [] ∧
      t.trace = .exitReturned s.current :: (schedExit code s).trace ∧ t.blocked = true := by
  obtain ⟨u, hu⟩ : ∃ u : State,
    u = { s.exited code with blocked := false, frames := .exitReturn :: s.frames } := ⟨_, rfl⟩
  have hexit : schedExit code s =
      { s.exited code with blocked := false, frames := .exitSwitch :: s.frames } := by
    rcases schedExit_cases s code with ⟨heq, -⟩ | ⟨i, q, hwakes, -⟩
    · exact heq
    · exact absurd (.inr ⟨q, hwakes.inTable, hwakes.asleep⟩) hnone
  have hidle : ∀ p, u.InTable p → ((selecting u).heap p).state ≠ .ready := by
    intro p hp hready
    rw [(selecting_inTable hp).1.state] at hready
    subst hu
    by_cases hpc : p = s.current
    · subst hpc
      simp [yielded, State.modify, exited, State.log, Table.leave] at hready
    · refine hnone (.inl ⟨p, hp, hpc, ?_⟩)
      simpa [yielded, State.modify, exited, State.log, hpc] using hready
  have hswitch : schedSwitch u = selecting u := by
    rcases schedSwitch_spec u with ⟨heq, -⟩ | ⟨i, q, -, hsel, -⟩
    · exact heq
    · exact absurd hsel.ready (hidle q hsel.inTable)
  have hgo : step (schedExit code s) (.go id) = some (selecting u) := by
    rw [hexit, ← hswitch, hu]
    rfl
  have hback : step (selecting u) (.go id) =
      some ({ selecting u with frames := s.frames }.log (.exitReturned s.current)) := by
    rw [hu]
    rfl
  refine ⟨_, .head ⟨.go id, trivial, hgo⟩ (.single ⟨.go id, trivial, hback⟩), ?_, hcall, ?_, rfl⟩
  · rw [hu]
    rfl
  · rw [hexit, hu]
    rfl

/-- **When `sched_exit` does not return.** In a run in which every call leaves a successor,
no call has returned, and nobody stands before the return; and any call that leaves none
can return to its caller. -/
theorem sched_exit_no_return (s : State) :
    (sched.Reach LeavesSuccessor s →
      NoExitReturned s.trace ∧ Frame.exitReturn ∉ s.frames) ∧
    ∀ code s', step s (.exit code) = some s' → ¬ s.HasSuccessor →
      ∃ t, sched.Run System.any s' t ∧ t.current = s.current ∧ t.frames = [] ∧
        t.trace = .exitReturned s.current :: s'.trace := by
  refine ⟨fun h => ?_, fun code s' hs hnone => ?_⟩
  · obtain ⟨hreach, hh, htrace⟩ := handing_of_reach id h
    have hsound := Sound.of_reach (fun hok => hok.2.sparesSelf) hreach
    exact ⟨htrace, exitReturn_not_mem hsound hh⟩
  · simp only [step, Option.ite_none_right_eq_some, Option.some.injEq] at hs
    obtain ⟨hcall, rfl⟩ := hs
    obtain ⟨t, hrun, hcurrent, hframes, htrace, -⟩ := schedExit_returns hcall hnone
    exact ⟨t, hrun, hcurrent, hframes, htrace⟩

/-- A check for `LeavesSuccessor`: a RUNNING task exits to its sleeping parent. -/
def leavesSuccessor (s : State) : Label → Bool
  | .exit _ => s.cur.state = .running &&
      (s.findProc fun q => q.pid = s.cur.ppid && q.state = .sleeping).isSome
  | _ => true

theorem LeavesSuccessor.of_check {l : Label} (h : leavesSuccessor s l = true) :
    LeavesSuccessor s l := by
  intro hexit
  obtain ⟨code, rfl⟩ := hexit
  simp only [leavesSuccessor, Bool.and_eq_true, decide_eq_true_eq, Option.isSome_iff_exists] at h
  obtain ⟨hrun, ⟨i, q⟩, hfind⟩ := h
  obtain ⟨hi, hq, htest⟩ := findProc_some hfind
  rw [Bool.and_eq_true, decide_eq_true_eq, decide_eq_true_eq] at htest
  refine .inr ⟨q, ⟨i, hi, hq⟩, fun hqc => ?_, htest⟩
  rw [hqc] at htest
  rw [State.cur, htest.2] at hrun
  cases hrun

/-- A child exits to the sleeping initial process, and its `sched_exit` does not return; that
of the initial process, alone, does. -/
theorem sched_exit_no_return_child :
    (∃ s : State, s.current = 100 ∧ (s.heap 101).state = .zombie ∧
      NoExitReturned s.trace ∧ Frame.exitReturn ∉ s.frames) ∧
    ∃ s' t, step start (.exit 0) = some s' ∧ sched.Run System.any s' t ∧ t.frames = [] ∧
      t.trace = .exitReturned start.current :: s'.trace := by
  have hrun : ∃ s, sched.Reach LeavesSuccessor s ∧
      (s.current = 100 && (s.heap 101).state = .zombie) = true :=
    start_reach _ leavesSuccessor [.fork (some (101, blank)) 65536, .wait id, .go id, .exit 7]
      _ (fun _ _ _ => LeavesSuccessor.of_check) (by decide +kernel)
  obtain ⟨s, hreach, hs⟩ := hrun
  rw [Bool.and_eq_true, decide_eq_true_eq, decide_eq_true_eq] at hs
  refine ⟨⟨s, hs.1, hs.2, (sched_exit_no_return s).1 hreach⟩, ?_⟩
  have hstarted := start_initial.started
  have hexit : step start (.exit 0) = some (schedExit 0 start) := by
    simp [step, hstarted.frames]
  have halone : ¬ start.HasSuccessor := by
    intro hsucc
    rcases hsucc with ⟨q, hq, hne, -⟩ | ⟨q, hq, hne, -⟩
    · exact hne (hstarted.inTable hq)
    · exact hne (hstarted.inTable hq)
  obtain ⟨t, hback, -, hframes, htrace⟩ := (sched_exit_no_return start).2 0 _ hexit halone
  exact ⟨_, t, hexit, hback, hframes, htrace⟩

/-- **A `sched_exit` that returns.** The initial process is alone and exits. -/
theorem sched_exit_alone_returns : ¬ ∀ s, sched.Reach Disciplined s → NoExitReturned s.trace := by
  intro hall
  have hrun : ∃ s, sched.Reach Disciplined s ∧
      (s.trace = [.exitReturned 100, .exited 100 0] && s.frames = []) = true :=
    start_reach _ (fun s l => decide (Disciplined s l)) [.exit 0, .go id, .go id]
      _ (fun _ _ _ => of_decide_eq_true) (by decide +kernel)
  obtain ⟨s, hreach, hs⟩ := hrun
  rw [Bool.and_eq_true, decide_eq_true_eq] at hs
  exact hall s hreach 100 (by rw [hs.1]; simp)

end Ece357.Sched
