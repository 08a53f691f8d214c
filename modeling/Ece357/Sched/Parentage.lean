import Ece357.Machine.History
import Ece357.Sched.Waiting

/-!
# Ece357.Sched.Parentage

**Whose child is reaped.** A parent is remembered as a pid, and pids are given out
again; so that `sched_wait` removes a record its caller created is a statement about
the history of the run, not about the table. It holds as long as no `sched_fork`
gives out a pid that some record still names as its parent's (`reaps_own_child`).
Without that, a task reaps an orphan of the process whose pid it inherited
(`reaps_orphan`).
-/

namespace Ece357.Sched

open Ece357.Machine Ece357.ProcTable State

/-- The event puts the record at `p` into the table or takes it out. -/
def Event.turns (p : Ptr) : Event → Prop
  | .forked _ q => q = p
  | .reaped _ q => q = p
  | _ => False

/-- The record at `z` was put into the table by the task with record `parent`, and both
have been there since. -/
def Own (h : List Event) (parent z : Ptr) : Prop :=
  Since (fun e => ¬ e.turns z ∧ ¬ e.turns parent) (· = .forked parent z) h

/-- What must have happened before an event: a `sched_wait` that returns 0 has just
reaped, and what it reaped was created by its caller. -/
def Reaping : Event → List Event → Prop
  | .reaped parent z, h => Own h parent z
  | .waitReturned parent ret _, h => ret = 0 → ∃ z older, h = .reaped parent z :: older
  | _, _ => True

/-- An event of no interest here. -/
def Event.Silent (e : Event) : Prop := (∀ p, ¬ e.turns p) ∧ ∀ h, Reaping e h

/-- Parent numbers in the table tell the truth, and every reaping did. -/
structure Parented (s : State) : Prop where
  own : ∀ z p, s.InTable z → s.InTable p → (s.heap z).pid ≠ 1 →
    (s.heap z).ppid = (s.heap p).pid → Own s.trace p z
  past : Always Reaping s.trace

variable {s s' : State}

theorem Own.append {h new : List Event} {p z : Ptr} (ho : Own h p z)
    (hnew : ∀ e ∈ new, ¬ e.turns z ∧ ¬ e.turns p) : Own (new ++ h) p z :=
  Since.append ho hnew

/-- Moves that leave the slots alone and put nothing of interest on record. -/
theorem Parented.keep (h : Parented s) (hbase : Base s) {m : Option Label} (hm : Move s m s')
    (new : List Event) (hnew : ∀ e ∈ new, e.Silent) (hprocs : s'.procs = s.procs)
    (htrace : s'.trace = new ++ s.trace) : Parented s' := by
  have hin : ∀ p, s'.InTable p → s.InTable p := fun p => (inTable_congr hprocs p).mp
  have hnumbers : ∀ p, s'.InTable p → (s'.heap p).numbers = (s.heap p).numbers := fun p hp =>
    hm.numbers hbase (hin p hp) hp
  constructor
  · intro z p hz hp hroot hparent
    obtain ⟨hpidz, hppidz⟩ := Prod.mk.inj (hnumbers z hz)
    obtain ⟨hpidp, -⟩ := Prod.mk.inj (hnumbers p hp)
    rw [hpidz] at hroot
    rw [hppidz, hpidp] at hparent
    rw [htrace]
    exact (h.own z p (hin z hz) (hin p hp) hroot hparent).append fun e he =>
      ⟨(hnew e he).1 z, (hnew e he).1 p⟩
  · rw [htrace]
    exact h.past.append fun e he => (hnew e he).2

/-- Resuming a task is of no interest, if what came before is of none. -/
theorem Event.silent_resume {by_ q : Ptr} {ctx : Savectx} {new : List Event}
    (hnew : ∀ e ∈ new, e.Silent) : ∀ e ∈ resumption q ctx ++ .restored by_ q ctx :: new, e.Silent :=
  forall_resume ⟨fun _ => id, fun _ => trivial⟩ ⟨fun _ => id, fun _ => trivial⟩ hnew

theorem Parented.fork (h : Parented s) (hsound : Sound s) {z : Ptr} {content : SchedProc}
    {newsp : Addr} {i : Nat} (hi : i < schedNproc) (hfree : s.procs i = none)
    (hz : s.live z = false) (hfresh : ∀ q, s.InTable q → (s.heap q).ppid ≠ i + 1) :
    Parented (s.forked z content i newsp) := by
  have hheap : ∀ p, s.InTable p → (s.forked z content i newsp).heap p = s.heap p :=
    fun p hp => forked_heap (hsound.base.ne_of_free hp hz)
  have hnew : (s.forked z content i newsp).heap z = newRecord s content i newsp := by
    simp [forked]
  constructor
  · intro y p hy hp hroot hparent
    rcases (forked_inTable hi hfree).mp hy with rfl | hyold
    · rw [hnew] at hparent
      rcases (forked_inTable hi hfree).mp hp with rfl | hpold
      · -- A record is not its own parent: its creator was in another slot.
        rw [hnew] at hparent
        obtain ⟨c, hc, hcur⟩ := hsound.base.current
        have hpid : s.cur.pid = c + 1 := hsound.base.pid c hc _ hcur
        simp only [newRecord, hpid] at hparent
        obtain rfl : c = i := by omega
        rw [hfree] at hcur
        cases hcur
      · rw [hheap p hpold] at hparent
        obtain rfl := hsound.base.pid_inj hsound.base.current hpold hparent
        refine since_cons.mpr (.inr ⟨⟨id, id⟩, since_cons.mpr (.inr ⟨⟨id, id⟩, ?_⟩)⟩)
        exact since_cons.mpr (.inl rfl)
    · rcases (forked_inTable hi hfree).mp hp with rfl | hpold
      · rw [hheap y hyold, hnew] at hparent
        exact absurd hparent (hfresh y hyold)
      · have hyz := hsound.base.ne_of_free hyold hz
        have hpz := hsound.base.ne_of_free hpold hz
        rw [hheap y hyold] at hroot
        rw [hheap y hyold, hheap p hpold] at hparent
        have hown := h.own y p hyold hpold hroot hparent
        refine since_cons.mpr (.inr ⟨⟨id, id⟩, since_cons.mpr (.inr ⟨⟨id, id⟩, ?_⟩)⟩)
        exact since_cons.mpr (.inr ⟨⟨hyz.symm, hpz.symm⟩, hown⟩)
  · exact always_cons.mpr ⟨trivial, always_cons.mpr ⟨trivial, always_cons.mpr ⟨trivial, h.past⟩⟩⟩

theorem Parented.reap (h : Parented s) (hsound : Sound s) {z : Ptr} {gone : SchedProc} {i : Nat}
    (hi : i < schedNproc) (hz : s.procs i = some z) (hne : z ≠ s.current)
    (hparent : (s.heap z).ppid = s.cur.pid) : Parented (s.reaped i z gone) := by
  have hheap : ∀ p, p ≠ z → (s.reaped i z gone).heap p = s.heap p := fun p => reaped_heap
  have hzin : s.InTable z := ⟨i, hi, hz⟩
  constructor
  · intro y p hy hp hroot hpar
    obtain ⟨hy, hyz⟩ := (hsound.base.reaped_inTable hi hz).mp hy
    obtain ⟨hp, hpz⟩ := (hsound.base.reaped_inTable hi hz).mp hp
    rw [hheap y hyz] at hroot
    rw [hheap y hyz, hheap p hpz] at hpar
    have hown := h.own y p hy hp hroot hpar
    exact since_cons.mpr (.inr ⟨⟨id, id⟩, since_cons.mpr (.inr ⟨⟨hyz.symm, hpz.symm⟩, hown⟩)⟩)
  · have hown := h.own z s.current hzin hsound.base.current
      (hsound.base.child_pid hzin hne hparent) hparent
    exact always_cons.mpr ⟨fun _ => ⟨z, s.trace, rfl⟩, always_cons.mpr ⟨hown, h.past⟩⟩

/-- Every move keeps parent numbers true, if forks give out fresh ones. -/
theorem Parented.move (h : Parented s) (hsound : Sound s) {m : Option Label}
    (hok : onCalls (fun s l => SparesSelf s l ∧ ForksFresh s l) s m) (hm : Move s m s') :
    Parented s' := by
  have hquiet : ∀ {new}, Quiet s new s' → (∀ e ∈ new, e.Silent) → Parented s' := fun hq hnew =>
    h.keep hsound.base hm _ hnew hq.procs hq.trace
  have hkeep := fun new => h.keep hsound.base hm new
  cases hm with
  | quiet hq => exact hquiet hq (by simp)
  | forkFail hq => exact hquiet hq (by simp [Event.Silent, Event.turns, Reaping])
  | noChild hq => exact hquiet hq (by simp [Event.Silent, Event.turns, Reaping])
  | exitReturn hq => exact hquiet hq (by simp [Event.Silent, Event.turns, Reaping])
  | fork hcall hi hfree hlow hz =>
      -- no record names the new number as its parent's
      refine h.fork hsound hi hfree hz fun q hq => ?_
      have hfresh := (hok _ rfl).2 ⟨_, _, rfl⟩ q hq
      rwa [nextpid_eq hi hfree hlow] at hfresh
  | @exit code hcall hawake =>
      refine hkeep [.exited s.current code] ?_ rfl rfl
      simp [Event.Silent, Event.turns, Reaping]
  | @exitWake code q hcall hq hne hparent hasleep =>
      have hexit : ∀ e ∈ [Event.exited s.current code], e.Silent := by
        simp [Event.Silent, Event.turns, Reaping]
      exact hkeep _ (Event.silent_resume hexit) (resume_procs ..) (resume_trace_append _ _ rfl)
  | reap hround hi hz hparent hzombie =>
      exact h.reap hsound hi hz (hsound.reap_ne hround (hok _ rfl).1 hparent hzombie) hparent
  | sleep => exact hkeep [] (by simp) rfl rfl
  | yield => exact hkeep [] (by simp) rfl rfl
  | @dispatch q hq hne hready hcur =>
      have hsaved : ∀ e ∈ [Event.saved s.current s.current ⟨.switch, s.frames⟩], e.Silent := by
        simp [Event.Silent, Event.turns, Reaping]
      exact hkeep _ (Event.silent_resume hsaved) (resume_procs ..) (resume_trace_append _ _ rfl)

theorem Started.parented (h : Started s) : Parented s := by
  constructor
  · intro z p hz _ hroot
    obtain ⟨i, -, hz⟩ := hz
    obtain ⟨-, rfl⟩ := h.slot hz
    exact absurd h.pid hroot
  · rw [h.trace]
    exact always_nil _

/-! ### Reaping one's own children -/

/-- **Whoever is reaped was created by the reaper.** In every run in which no
`sched_fork` gives out a pid that some record still names as its parent's, and no dead
task reaps itself: a `sched_wait` that returns 0 has just taken a record out of the
table, and that record was put there by a `sched_fork` of the same task; neither
record left or entered the table in between, so it has not been reaped before either. -/
theorem reaps_own_child (h : sched.Reach (fun s l => SparesSelf s l ∧ ForksFresh s l) s) :
    (∀ new parent code old, s.trace = new ++ .waitReturned parent 0 code :: old →
      ∃ z older, old = .reaped parent z :: older) ∧
    ∀ new parent z old, s.trace = new ++ .reaped parent z :: old →
      ∃ mid older, old = mid ++ .forked parent z :: older ∧
        ∀ e ∈ mid, ¬ e.turns z ∧ ¬ e.turns parent := by
  have hpar : Parented s := invariant_of_moves (I := Parented) And.left h Started.parented
    fun _ hsound hp hok hm => hp.move hsound hok hm
  constructor
  · intro new parent code old heq
    exact hpar.past new _ old heq rfl
  · intro new parent z old heq
    obtain ⟨mid, e, older, hold, rfl, hmid⟩ := hpar.past new _ old heq
    exact ⟨mid, older, hold, hmid⟩

/-- A check for `SparesSelf`. -/
def sparesSelf (s : State) : Bool := s.cur.state ≠ .zombie

theorem SparesSelf.of_check {l : Label} (h : sparesSelf s = true) : SparesSelf s l :=
  fun _ hz => absurd hz (of_decide_eq_true h)

/-- The initial process reaps the child it created. -/
theorem reaps_own_child_first : ∃ s : State, ∃ mid older, s.trace =
    .waitReturned 100 0 (some 5) :: .reaped 100 101 :: mid ++ .forked 100 101 :: older ∧
      ∀ e ∈ mid, ¬ e.turns 101 ∧ ¬ e.turns 100 := by
  have hrun : ∃ s, sched.Reach (fun s l => SparesSelf s l ∧ ForksFresh s l) s ∧
      decide (s.trace.take 2 = [.waitReturned 100 0 (some 5), .reaped 100 101]) = true := by
    refine start_reach _ (fun s _ => sparesSelf s && forksFresh s)
      [.fork (some (101, blank)) 65536, .wait id, .go id, .exit 5, .go id]
      _ (fun l _ s hl => ?_) (by decide +kernel)
    rw [Bool.and_eq_true] at hl
    exact ⟨.of_check hl.1, .of_check hl.2⟩
  obtain ⟨s, hreach, hs⟩ := hrun
  have htrace : s.trace = [.waitReturned 100 0 (some 5)] ++ .reaped 100 101 :: s.trace.drop 2 := by
    rw [← List.take_append_drop 2 s.trace, of_decide_eq_true hs]
    simp
  obtain ⟨mid, older, hold, hmid⟩ := (reaps_own_child hreach).2 _ _ _ _ htrace
  exact ⟨s, mid, older, by rw [htrace, hold]; rfl, hmid⟩

/-- **Without the condition on forks a task reaps somebody else's child.** The initial
process creates A (pid 2), A creates B (pid 3, parent number 2) and exits, and is
reaped. The next child of the initial process gets pid 2 again. It calls `sched_wait`
without having created anybody, sleeps, and when B exits it reaps B. -/
theorem reaps_orphan : ¬ ∀ s, sched.Reach System.any s →
    ∀ new parent z old, s.trace = new ++ .reaped parent z :: old →
      ∃ mid older, old = mid ++ .forked parent z :: older ∧
        ∀ e ∈ mid, ¬ e.turns z ∧ ¬ e.turns parent := by
  intro hall
  have hrun : ∃ s, sched.Reach System.any s ∧
      (s.trace.take 2 = [.waitReturned 103 0 (some 7), .reaped 103 102] &&
        !s.trace.contains (.forked 103 102)) = true :=
    start_reach _ (fun s l => decide (Disciplined s l))
      [.fork (some (101, blank)) 65536, .wait id, .go id, .fork (some (102, blank)) 131072,
        .exit 0, .go id, .fork (some (103, blank)) 196608, .wait id, .go id, .wait id, .go id,
        .exit 7, .go id] _ (fun _ _ _ _ => trivial) (by decide +kernel)
  obtain ⟨s, hreach, hs⟩ := hrun
  simp only [Bool.and_eq_true, decide_eq_true_eq, Bool.not_eq_true', List.contains_eq_mem,
    decide_eq_false_iff_not] at hs
  obtain ⟨htop, hnever⟩ := hs
  have htrace : s.trace = [.waitReturned 103 0 (some 7)] ++ .reaped 103 102 :: s.trace.drop 2 := by
    rw [← List.take_append_drop 2 s.trace, htop]
    simp
  obtain ⟨mid, older, hold, -⟩ := hall s hreach _ _ _ _ htrace
  refine hnever ?_
  rw [htrace, hold]
  simp

end Ece357.Sched
