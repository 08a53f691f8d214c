import Ece357.Sched.Steps

/-!
# Ece357.Sched.Childless

**When `sched_wait` finds nobody to wait for.** The search for a child asks which records have
the caller's pid as `ppid`, and the initial process is its own parent. So a call fails exactly
if the caller has no child and is not its own parent either, and what it should do, to fail
exactly if there is no child, it does unless the caller is its own only child
(`wait_fails_iff`). There the initial process goes to sleep, and nobody will wake it.

The initial process is the only one of which this is true, unless a dead task reaps its own
record (`own_parent`).
-/

namespace Ece357.Sched

open Ece357.Machine Ece357.ProcTable State

variable {s s' : State}

/-! ### The answers of `sched_wait` -/

/-- Some process other than the caller has the caller's pid as its parent's. -/
def State.HasChild (s : State) : Prop :=
  ∃ q, s.InTable q ∧ q ≠ s.current ∧ (s.heap q).ppid = s.cur.pid

/-- The caller is in the table as its own child. -/
def State.OwnChild (s : State) : Prop := s.InTable s.current ∧ s.cur.ppid = s.cur.pid

/-- `sched_wait` has returned -1 and left the process table alone. -/
structure WaitFails (s s' : State) : Prop where
  procs : s'.procs = s.procs
  heap : s'.heap = s.heap
  trace : s'.trace = .waitReturned s.current (-1) none :: s.trace

/-- `sched_wait` has returned 0. -/
def WaitReturns (s s' : State) : Prop :=
  ∃ z code, s'.trace = .waitReturned s.current 0 (some code) :: .reaped s.current z :: s.trace

/-- `sched_wait` fails exactly if there is no child; otherwise it returns 0 or sleeps. -/
def WaitAnswers (s s' : State) : Prop :=
  (WaitFails s s' ↔ ¬ s.HasChild) ∧
    (¬ WaitFails s s' → WaitReturns s s' ∨ (s'.heap s.current).state = .sleeping)

theorem hasChild_or_own :
    (∃ q, s.InTable q ∧ (s.heap q).ppid = s.cur.pid) ↔ s.HasChild ∨ s.OwnChild := by
  constructor
  · intro hfound
    obtain ⟨q, hq, hppid⟩ := hfound
    by_cases hcur : q = s.current
    · subst hcur
      exact .inr ⟨hq, hppid⟩
    · exact .inl ⟨q, hq, hcur, hppid⟩
  · intro hwho
    rcases hwho with ⟨q, hq, -, hppid⟩ | ⟨hcur, hppid⟩
    · exact ⟨q, hq, hppid⟩
    · exact ⟨s.current, hcur, hppid⟩

/-- A round that finds no zombie child puts the caller to sleep; one that does returns 0. -/
theorem waitRound_answers (freed : SchedProc → SchedProc) (s : State) :
    ¬ WaitFails s (waitRound freed s) ∧
      (WaitReturns s (waitRound freed s) ∨
        ((waitRound freed s).heap s.current).state = .sleeping) := by
  rcases waitRound_spec freed s with ⟨i, -, z, -, -, -, heq⟩ | ⟨-, heq⟩
  · rw [heq]
    refine ⟨fun hfails => ?_, .inl ⟨z, _, rfl⟩⟩
    have hlen := congrArg List.length hfails.trace
    simp [State.reaped] at hlen
  · rw [heq]
    refine ⟨fun hfails => ?_, .inr (by simp [State.slept, State.modify])⟩
    have hlen := congrArg List.length hfails.trace
    simp [State.slept, State.modify] at hlen

/-- **The search of `sched_wait`** counts the caller among its children. -/
theorem schedWait_answers (freed : SchedProc → SchedProc) (s : State) :
    (WaitFails s (schedWait freed s) ↔ ¬ (s.HasChild ∨ s.OwnChild)) ∧
    (¬ WaitFails s (schedWait freed s) →
      WaitReturns s (schedWait freed s) ∨
        ((schedWait freed s).heap s.current).state = .sleeping) := by
  unfold schedWait
  dsimp only
  rw [← hasChild_or_own]
  cases hfind : s.sigBlock.findProc fun q => q.ppid = s.sigBlock.cur.pid with
  | none =>
      have hfails : WaitFails s (s.sigBlock.log (.waitReturned s.current (-1) none)) :=
        ⟨rfl, rfl, rfl⟩
      refine ⟨⟨fun _ => ?_, fun _ => hfails⟩, fun hno => absurd hfails hno⟩
      intro hfound
      obtain ⟨q, hq, hppid⟩ := hfound
      exact of_decide_eq_false (findProc_none.mp hfind q hq) hppid
  | some found =>
      obtain ⟨i, q⟩ := found
      obtain ⟨hi, hq, htest⟩ := findProc_some hfind
      -- the round starts with the table, the caller and the past of `s`
      obtain ⟨hno, hanswer⟩ := waitRound_answers freed s.sigBlock
      refine ⟨⟨fun hfails => absurd ⟨hfails.procs, hfails.heap, hfails.trace⟩ hno, fun hnone => ?_⟩,
        fun _ => hanswer⟩
      exact absurd ⟨q, ⟨i, hi, hq⟩, of_decide_eq_true htest⟩ hnone

/-! ### Who is its own parent -/

/-- The initial process is its own parent, and no other process is. -/
def RootOnly (s : State) : Prop :=
  ∀ p, s.InTable p → ((s.heap p).ppid = (s.heap p).pid ↔ (s.heap p).pid = 1)

theorem RootOnly.move (hroot : RootOnly s) (h : Base s) {m : Option Label} (hm : Move s m s') :
    RootOnly s' := by
  intro p hp
  rcases hm.inTable hp with hold | ⟨content, i, newsp, hi, hfree, rfl⟩
  · obtain ⟨hpid, hppid⟩ := Prod.mk.inj (hm.numbers h hold hp)
    rw [hpid, hppid]
    exact hroot p hold
  · -- the parent has a slot of its own, and so has the initial process
    obtain ⟨c, hc, hcur⟩ := h.current
    have hpid : s.cur.pid = c + 1 := h.pid c hc _ hcur
    obtain ⟨r, hr, -⟩ := h.root
    have hci : c ≠ i := by
      intro heq
      subst heq
      rw [hfree] at hcur
      cases hcur
    have hzero : i ≠ 0 := by
      intro heq
      subst heq
      rw [hfree] at hr
      cases hr
    simp only [State.forked, Function.update_self, newRecord, hpid]
    omega

theorem own_parent (h : sched.Reach SparesSelf s) : RootOnly s := by
  refine invariant_of_moves (I := RootOnly) id h (fun ha p hp => ?_)
    fun _ hsound hroot _ hm => hroot.move hsound.base hm
  obtain rfl := ha.inTable hp
  have hpid := ha.pid
  have hppid := ha.ppid
  rw [State.cur] at hpid hppid
  rw [hpid, hppid]

/-- **When `sched_wait` answers as it should**: a call, in any state, fails exactly if there is
no child, unless the caller is its own only child; and the initial process is its own child, as
no other process is in any run in which no dead task reaps itself. -/
theorem wait_fails_iff (s s' : State) (freed : SchedProc → SchedProc)
    (hs : step s (.wait freed) = some s') :
    (WaitAnswers s s' ↔ (s.OwnChild → s.HasChild)) ∧
    (sched.Reach SparesSelf s → (s.OwnChild ↔ s.cur.pid = 1)) := by
  simp only [step, Option.ite_none_right_eq_some, Option.some.injEq] at hs
  obtain ⟨-, rfl⟩ := hs
  obtain ⟨hfails, hanswer⟩ := schedWait_answers freed s
  refine ⟨⟨fun hshould hown => ?_, fun himp => ⟨?_, hanswer⟩⟩, fun hreach => ?_⟩
  · by_contra hno
    exact hfails.mp (hshould.1.mpr hno) (.inr hown)
  · rw [hfails, not_or]
    exact and_iff_left_of_imp fun hno hown => hno (himp hown)
  · have hcur := (Sound.of_reach id hreach).base.current
    have hroot : s.cur.ppid = s.cur.pid ↔ s.cur.pid = 1 := own_parent hreach s.current hcur
    rw [← hroot]
    exact and_iff_right hcur

/-! ### The initial process alone -/

/-- The initial process has forked a child, and waits for it. -/
theorem wait_fails_iff_child : ∃ s s', step s (.wait id) = some s' ∧ WaitAnswers s s' := by
  obtain ⟨s, -, hs⟩ := start_reach System.any (fun _ _ => true) [.fork (some (101, blank)) 65536]
    (fun s => s.procs 1 = some 101 && s.current = 100 && s.frames = [] && (s.heap 100).pid = 1 &&
      (s.heap 101).ppid = 1) (fun _ _ _ _ => trivial) (by decide +kernel)
  simp only [Bool.and_eq_true, decide_eq_true_eq] at hs
  obtain ⟨⟨⟨⟨hone, hcur⟩, hframes⟩, hpid⟩, hppid⟩ := hs
  have hstep : step s (.wait id) = some (schedWait id s) := by simp [step, hframes]
  have hchild : s.HasChild := by
    refine ⟨101, ⟨1, by simp [schedNproc], hone⟩, by rw [hcur]; decide, ?_⟩
    rw [State.cur, hcur, hpid, hppid]
  exact ⟨s, _, hstep, (wait_fails_iff s _ id hstep).1.mpr fun _ => hchild⟩

/-- **The initial process waits for itself**: it is alone in the table, and `sched_wait` puts it
to sleep instead of failing. -/
theorem wait_alone_sleeps : ¬ ∀ (s s' : State) (freed : SchedProc → SchedProc),
    sched.Reach System.any s → step s (.wait freed) = some s' → WaitAnswers s s' := by
  intro hall
  have hstart := start_initial.started
  have hstep : step start (.wait id) = some (schedWait id start) := by simp [step, hstart.frames]
  have hanswers := hall start _ id (.init start_initial) hstep
  have hown : start.OwnChild :=
    ⟨hstart.sound.base.current, hstart.ppid.trans hstart.pid.symm⟩
  have hnone : ¬ start.HasChild := by
    intro hfound
    obtain ⟨q, hq, hne, -⟩ := hfound
    exact hne (hstart.inTable hq)
  exact (schedWait_answers id start).1.mp (hanswers.1.mpr hnone) (.inr hown)

end Ece357.Sched
