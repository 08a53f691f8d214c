import Mathlib.Data.Finset.Card
import Mathlib.Data.Finset.Range
import Mathlib.Data.Multiset.MapFold
import Ece357.ProcTable.Family
import Ece357.Sched.Refine

/-!
# Ece357.Sched.Driver

**The driver of `ps9/main.c`.** `init` forks `n` children in a row and then waits `n`
times; each child works, sets its nice value as it likes, and exits with its own pid.
`Driver n` is that program as a condition on the steps; ticks come whenever signals
are unblocked, so every schedule is covered.

The tables of its runs are those of one family (`ProcTable.Family`). Hence somebody
can always run, and a `sched_exit` always finds somebody to switch to. The books of the
driver balance throughout: the pids given out are the codes delivered and the children
still in the table (`Driven.balance`).
-/

namespace Ece357.Sched

open Ece357.Machine Ece357.ProcTable State

/-! ### The books of a run -/

def Event.isForked : Event → Bool
  | .forked .. => true
  | _ => false

def Event.isWaitReturned : Event → Bool
  | .waitReturned .. => true
  | _ => false

/-- The exit code a `sched_wait` stored. -/
def Event.code : Event → Option Int
  | .waitReturned _ _ code => code
  | _ => none

/-- The pid of a child that a `sched_fork` returned. -/
def Event.childPid : Event → Option Int
  | .forkReturned _ _ ret => if 0 < ret then some ret else none
  | _ => none

def forkCount (h : List Event) : Nat := h.countP Event.isForked

def waitCount (h : List Event) : Nat := h.countP Event.isWaitReturned

/-- The exit codes delivered, newest first. -/
def codes (h : List Event) : List Int := h.filterMap Event.code

/-- The pids of the children created, newest first. -/
def childPids (h : List Event) : List Int := h.filterMap Event.childPid

/-- The program: `n` forks and then `n` waits by the initial process, with memory for
all of them and freed records still readable; the others exit with their own pids. -/
def Driver (n : Nat) (s : State) (l : Label) : Prop :=
  Disciplined s l ∧ match l with
  | .tick => True
  | .fork mem newsp =>
      s.cur.pid = 1 ∧ forkCount s.trace < n ∧ mem ≠ none ∧ newsp ≠ mapFailed
  | .wait freed =>
      s.cur.pid = 1 ∧ forkCount s.trace = n ∧ waitCount s.trace < n ∧ freed = id
  | .exit code => s.cur.pid ≠ 1 ∧ code = s.cur.pid
  | .nice _ => s.cur.pid ≠ 1
  | .go freed => freed = id

variable {s s' : State} {n : Nat}

theorem Driver.sparesSelf {l : Label} (h : Driver n s l) : SparesSelf s l := h.1.sparesSelf

/-! ### The family -/

theorem Base.entry_cur_waiting (h : Base s) (hcall : s.frames = []) {e : Entry Int}
    (he : s.table.entry s.table.cur = some e) : e.waiting = false := by
  rw [h.entry_cur] at he
  obtain rfl := Option.some.inj he
  simp [entryOf, stackOf, hcall]

/-- The driver's steps are those of one parent and its children. -/
theorem Driver.oneParent {ok : State → Label → Prop} (hdrive : ∀ {s l}, ok s l → Driver n s l)
    {m : Option Label} {a : Table.Act Int} (h : Sound s) (hok : onCalls ok s m)
    (ha : Acts s m a) : Table.OneParent 1 s.table a := by
  have hround : ∀ {freed l}, m = some l → WaitRound freed s.frames l →
      ∀ e, s.table.entry s.table.cur = some e → e.waiting = false → s.table.cur = 1 := by
    intro freed l hm hround e he hw
    have hd := hdrive (hok l hm)
    generalize hfs : s.frames = fs at hround
    cases hround with
    | first => exact hd.2.1
    | again =>
        -- A task standing inside `sched_wait` is waiting, unless it is dead.
        rw [h.base.entry_cur] at he
        obtain rfl := Option.some.inj he
        have hz : (s.heap s.current).state = .zombie := by
          simpa [entryOf, stackOf, hfs, Frame.isWait] using hw
        have hdead := h.cur.dead hz
        simp [hfs, Frame.isWait] at hdead
  cases ha with
  | fork hcall => exact (hdrive (hok _ rfl)).2.1
  | sleep hr => exact hround rfl hr
  | reap hr => exact hround rfl hr
  | exit hcall => exact (hdrive (hok _ rfl)).2.1
  | switch => trivial

section Runs
variable {ok : State → Label → Prop} (hdrive : ∀ {s l}, ok s l → Driver n s l)
include hdrive

theorem family_of_moves (h : moves.Reach (onCalls ok) s) :
    s.table.Wf ∧ Table.Family 1 s.table := by
  have hreach : (Table.machine 1).Reach (Table.OneParent 1) s.table :=
    moves_table (fun hok => (hdrive hok).1) (Driver.oneParent hdrive) h
  exact ⟨.reach hreach, .reach hreach⟩

theorem family_of_reach (h : sched.Reach ok s) : s.table.Wf ∧ Table.Family 1 s.table :=
  family_of_moves hdrive (reach_moves (fun hok => (hdrive hok).sparesSelf) h)

end Runs

/-! ### `sched_exit` does not return -/

/-- Only in `sched_exit`, after its `sched_switch`, does a task come to stand before
its return. -/
theorem FrameMove.exitReturn {fs fs' : List Frame} (h : FrameMove fs fs')
    (hmem : Frame.exitReturn ∈ fs') : Frame.exitReturn ∈ fs ∨ ∃ gs, fs = .exitSwitch :: gs := by
  cases h with
  | same => exact .inl hmem
  | push => exact .inl (by simpa using hmem)
  | pop => exact .inl (List.mem_cons_of_mem _ hmem)
  | waitGo => exact .inl (by simpa using hmem)
  | exitGo => exact .inr ⟨_, rfl⟩
  | exitPop => exact .inl (List.mem_cons_of_mem _ hmem)

theorem Move.frames_exitReturn (h : Sound s) {m : Option Label} (hm : Move s m s')
    (hmem : Frame.exitReturn ∈ s'.frames) :
    Frame.exitReturn ∈ s.frames ∨ ∃ gs, s.frames = .exitSwitch :: gs := by
  cases hm with
  | quiet hq => exact hq.frames.exitReturn hmem
  | forkFail hq => exact hq.frames.exitReturn hmem
  | noChild hq => exact hq.frames.exitReturn hmem
  | exitReturn hq => exact hq.frames.exitReturn hmem
  | fork => exact .inl hmem
  | exit => simp at hmem
  | @exitWake code q hcall hq hne hparent hasleep =>
      have hfits := h.ctx q hq hne (by simp [hasleep])
      refine absurd ?_ (hfits.not_exitReturn (by simp [hasleep]))
      simpa [resume_eq, State.exited, State.modify, State.log, hne] using hmem
  | reap => simp [State.reaped] at hmem
  | sleep => simp [slept] at hmem
  | yield => exact .inl hmem
  | @dispatch q hq hne hready hcur =>
      have hfits := h.ctx q hq hne (by simp [hready])
      refine absurd ?_ (hfits.not_exitReturn (by simp [hready]))
      simpa [resume_eq, savectx, State.modify, State.log, hne] using hmem

theorem selecting_other {p : Ptr} (hp : s.InTable p) (hne : p ≠ s.current) :
    Same (s.heap p) ((selecting s).heap p) := by
  have hsame := (selecting_inTable hp).1
  rwa [show s.yielded.heap p = s.heap p by simp [yielded, State.modify, hne]] at hsame

/-- `sched_switch` returns where it was called, or resumes a task that is not in
`sched_exit`; if the caller is dead and somebody else is READY, it does resume one. -/
theorem schedSwitch_exitReturn (h : Sound s) (hmem : Frame.exitReturn ∈ (schedSwitch s).frames) :
    Frame.exitReturn ∈ s.frames ∧ (s.cur.state = .zombie →
      ∀ p, s.InTable p → (s.heap p).state ≠ .ready) := by
  have hyield : ((selecting s).heap s.current).state = Table.leave s.cur.state := by
    rw [((selecting_inTable h.base.current).1).state]
    simp [yielded, State.modify, State.cur]
  rcases schedSwitch_cases h.base with
    ⟨heq, hidle⟩ | ⟨heq, hstay⟩ | ⟨i, q, -, hi, hp, hne, hready, heq⟩
  · rw [heq] at hmem
    refine ⟨hmem, fun hz p hp hready => hidle p hp ?_⟩
    have hne : p ≠ s.current := by
      intro hpc
      subst hpc
      have hst : (s.heap s.current).state = .zombie := hz
      rw [hready] at hst
      cases hst
    rw [(selecting_other hp hne).state]
    exact hready
  · rw [heq] at hmem
    refine ⟨hmem, fun hz => ?_⟩
    change ((selecting s).heap s.current).state = .ready at hstay
    rw [hyield, hz] at hstay
    cases hstay
  · have hsame := selecting_other ⟨i, hi, hp⟩ hne
    have hst : (s.heap q).state = .ready := hsame.state ▸ hready
    have hfits := h.ctx q ⟨i, hi, hp⟩ hne (by simp [hst])
    refine absurd ?_ (hfits.not_exitReturn (by simp [hst]))
    have hnc : q ≠ (selecting s).current := hne
    rw [heq] at hmem
    change _ ∈ (resume (savectx (selecting s) (selecting s).current .switch)
      (selecting s).current q).frames at hmem
    rw [← hsame.ctx]
    simpa [resume_eq, savectx, State.modify, State.log, hnc] using hmem

/-- In the runs of the driver no task stands before the return of `sched_exit`. -/
theorem driver_frames (h : sched.Reach (Driver n) s) : Frame.exitReturn ∉ s.frames := by
  refine h.invariant (I := fun a => Frame.exitReturn ∉ a.frames) (fun ha hmem => ?_) ?_
  · rw [ha.started.frames] at hmem
    cases hmem
  · intro a l b hreach hnot hok hs hmem
    have hsound := Sound.of_reach Driver.sparesSelf hreach
    rcases step_cases hsound hs with ⟨hm, hswitch⟩ | ⟨u, -, rfl, hq⟩
    · rcases hm.frames_exitReturn hsound hmem with hold | ⟨gs, hgs⟩
      · exact hnot hold
      · exact hswitch gs hgs
    · obtain ⟨hu, hnone⟩ := schedSwitch_exitReturn (hsound.quiet hq) hmem
      rcases hq.frames.exitReturn hu with hold | ⟨gs, hgs⟩
      · exact hnot hold
      · -- A task that calls `sched_switch` from `sched_exit` is dead, and `init` is READY.
        have hdead : a.cur.state = .zombie := by
          by_contra hz
          have halive := hsound.cur.alive hz
          simp [hgs, Frame.isExit] at halive
        obtain ⟨hwf, hfam⟩ := family_of_reach (fun hok => hok) hreach
        obtain ⟨r, hr, -⟩ := hfam.alive
        obtain ⟨p, hp, -, rfl⟩ := hsound.base.entry_eq.mp hr
        have hready := hfam.dying _ _ hsound.base.entry_cur hdead hr
        have hcur : u.cur.state = .zombie := by
          unfold State.cur
          rw [hq.current, (hq.record _ hsound.base.current).state]
          exact hdead
        refine hnone hcur p ?_ ?_
        · exact (inTable_congr hq.procs p).mpr hp
        · rw [(hq.record p hp).state]
          exact hready

/-! ### The books balance -/

/-- The slots that hold children. -/
def childSlots (s : State) : Finset Nat :=
  (Finset.range schedNproc).filter fun i => i ≠ 0 ∧ s.procs i ≠ none

theorem mem_childSlots {i : Nat} :
    i ∈ childSlots s ↔ i < schedNproc ∧ i ≠ 0 ∧ s.procs i ≠ none := by
  unfold childSlots
  rw [Finset.mem_filter, Finset.mem_range]

theorem childSlots_congr (hprocs : s'.procs = s.procs) : childSlots s' = childSlots s := by
  unfold childSlots
  rw [hprocs]

theorem childSlots_forked {z : Ptr} {content : SchedProc} {i : Nat} {newsp : Addr}
    (hi : i < schedNproc) (hi0 : i ≠ 0) :
    childSlots (s.forked z content i newsp) = insert i (childSlots s) := by
  ext j
  rw [Finset.mem_insert, mem_childSlots, mem_childSlots]
  by_cases hji : j = i
  · subst hji
    simp [forked, hi, hi0]
  · simp [forked, hji]

theorem childSlots_reaped {z : Ptr} {gone : SchedProc} {i : Nat} (hi : i < schedNproc)
    (hi0 : i ≠ 0) (hz : s.procs i = some z) :
    childSlots s = insert i (childSlots (s.reaped i z gone)) := by
  ext j
  rw [Finset.mem_insert, mem_childSlots, mem_childSlots]
  by_cases hji : j = i
  · subst hji
    simp [hi, hi0, hz]
  · simp [State.reaped, hji]

/-- No `sched_exit` returned, no `sched_wait` and no `sched_fork` failed. -/
def Event.Fine : Event → Prop
  | .exitReturned _ => False
  | .waitReturned _ ret _ => ret = 0
  | .forkReturned _ _ ret => 0 ≤ ret
  | _ => True

/-- An event that goes into none of the books. -/
def Event.Neutral (e : Event) : Prop :=
  e.isForked = false ∧ e.isWaitReturned = false ∧ e.code = none ∧ e.childPid = none ∧ e.Fine

theorem books_append {new h : List Event} (hnew : ∀ e ∈ new, e.Neutral) :
    forkCount (new ++ h) = forkCount h ∧ waitCount (new ++ h) = waitCount h ∧
      codes (new ++ h) = codes h ∧ childPids (new ++ h) = childPids h := by
  induction new with
  | nil => exact ⟨rfl, rfl, rfl, rfl⟩
  | cons e new ih =>
      obtain ⟨hf, hw, hc, hp⟩ := ih fun x hx => hnew x (List.mem_cons_of_mem _ hx)
      obtain ⟨hef, hew, hec, hep, -⟩ := hnew e (List.mem_cons_self ..)
      unfold forkCount waitCount codes childPids at *
      rw [List.cons_append, List.countP_cons_of_neg (by simp [hef]),
        List.countP_cons_of_neg (by simp [hew]), List.filterMap_cons_none hec,
        List.filterMap_cons_none hep]
      exact ⟨hf, hw, hc, hp⟩

/-- What is true of the books while the driver runs. -/
structure Driven (n : Nat) (s : State) : Prop where
  fine : ∀ e ∈ s.trace, e.Fine
  /-- Whoever is dead left its pid as its exit code. -/
  coded : ∀ p, s.InTable p → (s.heap p).state = .zombie → (s.heap p).exitCode = (s.heap p).pid
  /-- The pids given out are the codes delivered and the pids of the children left. -/
  balance : (codes s.trace : Multiset Int) + (childSlots s).val.map (fun i : Nat => (i : Int) + 1) =
    (childPids s.trace : Multiset Int)
  forks : forkCount s.trace = (childPids s.trace).length
  waits : waitCount s.trace = (codes s.trace).length
  atMost : forkCount s.trace ≤ n
  waiting : Table.RootWaits 1 s.table → forkCount s.trace = n ∧ waitCount s.trace < n

theorem Driven.card (h : Driven n s) :
    waitCount s.trace + (childSlots s).card = forkCount s.trace := by
  have hcard := congrArg Multiset.card h.balance
  simp only [Multiset.card_add, Multiset.coe_card, Multiset.card_map, Finset.card_val] at hcard
  rw [h.forks, h.waits]
  exact hcard

/-- Moves that leave the slots alone and go into none of the books. -/
theorem Driven.keep (h : Driven n s) (new : List Event) (hnew : ∀ e ∈ new, e.Neutral)
    (htrace : s'.trace = new ++ s.trace) (hprocs : s'.procs = s.procs)
    (hcoded : ∀ p, s.InTable p → (s'.heap p).state = .zombie →
      (s'.heap p).exitCode = (s'.heap p).pid)
    (hwaits : Table.RootWaits 1 s'.table → forkCount s.trace = n ∧ waitCount s.trace < n) :
    Driven n s' := by
  obtain ⟨hf, hw, hc, hp⟩ := books_append (h := s.trace) hnew
  rw [← htrace] at hf hw hc hp
  refine ⟨fun e he => ?_, fun p hp' => hcoded p ((inTable_congr hprocs p).mp hp'),
    ?_, ?_, ?_, ?_, ?_⟩
  · rw [htrace] at he
    rcases List.mem_append.mp he with he | he
    · exact (hnew e he).2.2.2.2
    · exact h.fine e he
  · rw [hc, hp, childSlots_congr hprocs]
    exact h.balance
  · rw [hf, hp]
    exact h.forks
  · rw [hw, hc]
    exact h.waits
  · rw [hf]
    exact h.atMost
  · rw [hf, hw]
    exact hwaits

theorem Driven.fork (h : Driven n s) (hsound : Sound s) {z : Ptr} {content : SchedProc} {i : Nat}
    {newsp : Addr} (hi : i < schedNproc) (hfree : s.procs i = none) (hz : s.live z = false)
    (hcount : forkCount s.trace < n)
    (hwaits : ¬ Table.RootWaits 1 (s.forked z content i newsp).table) :
    Driven n (s.forked z content i newsp) := by
  have htrace : (s.forked z content i newsp).trace = .forkReturned s.current (some z) (i + 1) ::
      .saved s.current z ⟨.fork, s.frames⟩ :: .forked s.current z :: s.trace := rfl
  have hpos : (0 : Int) < i + 1 := by omega
  have hf : forkCount (s.forked z content i newsp).trace = forkCount s.trace + 1 := by
    simp [forkCount, htrace, List.countP_cons, Event.isForked]
  have hw : waitCount (s.forked z content i newsp).trace = waitCount s.trace := by
    simp [waitCount, htrace, Event.isWaitReturned]
  have hc : codes (s.forked z content i newsp).trace = codes s.trace := by
    simp [codes, htrace, List.filterMap_cons, Event.code]
  have hp : childPids (s.forked z content i newsp).trace =
      ((i : Int) + 1) :: childPids s.trace := by
    simp [childPids, htrace, List.filterMap_cons, Event.childPid, hpos]
  obtain ⟨r, hr, -⟩ := hsound.base.root
  have hi0 : i ≠ 0 := by
    intro hi0
    rw [hi0, hr] at hfree
    cases hfree
  have hnot : i ∉ childSlots s := by
    rw [mem_childSlots]
    simp [hfree]
  refine ⟨fun e he => ?_, fun p hpin hst => ?_, ?_, ?_, ?_, ?_, fun hroot => absurd hroot hwaits⟩
  · rw [htrace] at he
    simp only [List.mem_cons] at he
    rcases he with rfl | rfl | rfl | he
    · exact hpos.le
    · trivial
    · trivial
    · exact h.fine e he
  · rcases (forked_inTable hi hfree).mp hpin with rfl | hold
    · simp [forked, newRecord] at hst
    · rw [forked_heap (hsound.base.ne_of_free hold hz)] at hst ⊢
      exact h.coded p hold hst
  · -- one more pid given out, one more child in the table
    rw [hc, hp, childSlots_forked hi hi0, Finset.insert_val_of_notMem hnot, Multiset.map_cons,
      Multiset.add_cons, h.balance]
    rfl
  · rw [hf, hp, h.forks]
    rfl
  · rw [hw, hc]
    exact h.waits
  · rw [hf]
    exact hcount

theorem Driven.reap (h : Driven n s) (hsound : Sound s) {z : Ptr} {i : Nat} (hi : i < schedNproc)
    (hz : s.procs i = some z) (hne : z ≠ s.current) (hparent : (s.heap z).ppid = s.cur.pid)
    (hzombie : (s.heap z).state = .zombie)
    (hwaits : ¬ Table.RootWaits 1 (s.reaped i z (s.heap z)).table) :
    Driven n (s.reaped i z (s.heap z)) := by
  have hzin : s.InTable z := ⟨i, hi, hz⟩
  have hcode : (s.heap z).exitCode = i + 1 :=
    (h.coded z hzin hzombie).trans (hsound.base.pid i hi z hz)
  have htrace : (s.reaped i z (s.heap z)).trace =
      .waitReturned s.current 0 (some (i + 1)) :: .reaped s.current z :: s.trace := by
    rw [← hcode]
    rfl
  have hf : forkCount (s.reaped i z (s.heap z)).trace = forkCount s.trace := by
    simp [forkCount, htrace, Event.isForked]
  have hw : waitCount (s.reaped i z (s.heap z)).trace = waitCount s.trace + 1 := by
    simp [waitCount, htrace, List.countP_cons, Event.isWaitReturned]
  have hc : codes (s.reaped i z (s.heap z)).trace = ((i : Int) + 1) :: codes s.trace := by
    simp [codes, htrace, List.filterMap_cons, Event.code]
  have hp : childPids (s.reaped i z (s.heap z)).trace = childPids s.trace := by
    simp [childPids, htrace, List.filterMap_cons, Event.childPid]
  have hi0 : i ≠ 0 := by
    intro hi0
    subst hi0
    exact hsound.base.child_pid hzin hne hparent (hsound.base.pid 0 hi z hz)
  have hnot : i ∉ childSlots (s.reaped i z (s.heap z)) := by
    rw [mem_childSlots]
    simp [State.reaped]
  -- a pid moves from the children left to the codes delivered
  have hold := h.balance
  rw [childSlots_reaped hi hi0 hz, Finset.insert_val_of_notMem hnot, Multiset.map_cons,
    Multiset.add_cons] at hold
  refine ⟨fun e he => ?_, fun p hpin hst => ?_, ?_, ?_, ?_, ?_, fun hroot => absurd hroot hwaits⟩
  · rw [htrace] at he
    simp only [List.mem_cons] at he
    rcases he with rfl | rfl | he
    · rfl
    · trivial
    · exact h.fine e he
  · obtain ⟨hp', hpz⟩ := (hsound.base.reaped_inTable hi hz).mp hpin
    rw [reaped_heap hpz] at hst ⊢
    exact h.coded p hp' hst
  · rw [hc, hp, ← Multiset.cons_coe, Multiset.cons_add]
    exact hold
  · rw [hf, hp]
    exact h.forks
  · rw [hw, hc, h.waits]
    rfl
  · rw [hf]
    exact h.atMost

/-- There is a free slot for each of the `n` forks. -/
theorem Driven.free_slot (h : Driven n s) (hn : n ≤ 1022) (hcount : forkCount s.trace < n) :
    ¬ ∀ i < schedNproc, s.procs i ≠ none := by
  intro hfull
  have hslots : childSlots s = (Finset.range schedNproc).erase 0 := by
    ext i
    rw [mem_childSlots, Finset.mem_erase, Finset.mem_range]
    constructor
    · intro hi
      exact ⟨hi.2.1, hi.1⟩
    · intro hi
      exact ⟨hi.2, hi.1, hfull i hi.2⟩
  have hcard := h.card
  rw [hslots, Finset.card_erase_of_mem (by simp [schedNproc]), Finset.card_range] at hcard
  simp only [schedNproc] at hcard
  omega

/-- Resuming a task goes into none of the books. -/
theorem Event.neutral_resume {by_ q : Ptr} {ctx : Savectx} {new : List Event}
    (hnew : ∀ e ∈ new, e.Neutral) :
    ∀ e ∈ resumption q ctx ++ .restored by_ q ctx :: new, e.Neutral :=
  forall_resume ⟨rfl, rfl, rfl, rfl, Int.le_refl 0⟩ ⟨rfl, rfl, rfl, rfl, trivial⟩ hnew

/-- After a move `init` waits only if it did before, or has just called `sched_wait`. -/
theorem Move.rootWaits (h : Sound s) {m : Option Label} (hlive : onCalls Disciplined s m)
    (hm : Move s m s') (hw : Table.RootWaits 1 s'.table) :
    Table.RootWaits 1 s.table ∨ ∃ freed, m = some (.wait freed) := by
  rcases hm.refines h hlive with heq | ⟨a, hs, ha⟩
  · exact .inl (heq ▸ hw)
  · rcases hs.rootWaits hw with ⟨hold, -⟩ | ⟨rfl, hcur⟩
    · exact .inl hold
    · cases ha with
      | sleep hround =>
          have halive : (s.heap s.current).state ≠ .zombie := h.wait_alive hround (hlive _ rfl)
          generalize hfs : s.frames = fs at hround
          cases hround with
          | first => exact .inr ⟨_, rfl⟩
          | again =>
              refine .inl ⟨s.entryOf s.current, hcur ▸ h.base.entry_cur, ?_⟩
              simp [entryOf, stackOf, hfs, Frame.isWait, halive]

/-- A move keeps it that the dead have left their pids as their exit codes, if whoever exits
does so with its pid. -/
theorem Move.coded {m : Option Label} (hm : Move s m s') (hbase : Base s)
    (hcoded : ∀ p, s.InTable p → (s.heap p).state = .zombie →
      (s.heap p).exitCode = (s.heap p).pid)
    (hexit : ∀ code, m = some (.exit code) → code = s.cur.pid) {p : Ptr} (hp : s.InTable p)
    (hp' : s'.InTable p) (hz : (s'.heap p).state = .zombie) :
    (s'.heap p).exitCode = (s'.heap p).pid := by
  have hkept : (s'.heap p).state = (s.heap p).state →
      (s'.heap p).exitCode = (s.heap p).exitCode → (s'.heap p).pid = (s.heap p).pid →
      (s'.heap p).exitCode = (s'.heap p).pid := by
    intro hst hcode hpid
    rw [hcode, hpid]
    exact hcoded p hp (hst ▸ hz)
  cases hm with
  | quiet hq | forkFail hq | noChild hq | exitReturn hq =>
      have hsame := hq.record p hp
      exact hkept hsame.state hsame.exitCode hsame.pid
  | fork hcall hi hfree hlow hlive =>
      have hpz := hbase.ne_of_free hp hlive
      exact hkept (by rw [forked_heap hpz]) (by rw [forked_heap hpz]) (by rw [forked_heap hpz])
  | @exit code =>
      by_cases hpc : p = s.current
      · subst hpc
        simpa [State.exited, State.modify, State.log, State.cur] using hexit code rfl
      · apply hkept <;> simp [State.exited, State.modify, State.log, hpc]
  | @exitWake code q =>
      by_cases hpq : p = q
      · subst hpq
        simp [resume_eq] at hz
      · by_cases hpc : p = s.current
        · subst hpc
          simpa [resume_eq, State.exited, State.modify, State.log, hpq, State.cur] using
            hexit code rfl
        · apply hkept <;> simp [resume_eq, State.exited, State.modify, State.log, hpc, hpq]
  | reap _ hi hslot =>
      have hpz := ((hbase.reaped_inTable hi hslot).mp hp').2
      exact hkept (by rw [reaped_heap hpz]) (by rw [reaped_heap hpz]) (by rw [reaped_heap hpz])
  | sleep =>
      by_cases hpc : p = s.current
      · subst hpc
        simp [slept, State.modify] at hz
      · apply hkept <;> simp [slept, State.modify, hpc]
  | yield =>
      rw [yielded_field SchedProc.exitCode s fun _ => rfl,
        yielded_field SchedProc.pid s fun _ => rfl]
      refine hcoded p hp ?_
      by_cases hpc : p = s.current
      · subst hpc
        simp only [yielded, State.modify, Function.update_self] at hz
        exact Table.leave_zombie hz
      · simpa [yielded, State.modify, hpc] using hz
  | @dispatch q =>
      by_cases hpq : p = q
      · subst hpq
        simp [resume_eq] at hz
      · have hsame : (resume (savectx s s.current .switch) s.current q).heap p =
            (savectx s s.current .switch).heap p := by simp [resume_eq, hpq]
        apply hkept
        · rw [hsame]
          exact savectx_field SchedProc.state s (fun _ => rfl) p
        · rw [hsame]
          exact savectx_field SchedProc.exitCode s (fun _ => rfl) p
        · rw [hsame]
          exact savectx_field SchedProc.pid s (fun _ => rfl) p

/-- Every move of the driver keeps its books. -/
theorem Driven.move (h : Driven n s) (hn : n ≤ 1022) (hsound : Sound s)
    (hfam : Table.Family 1 s.table) {m : Option Label}
    (hok : onCalls (fun s l => Driver n s l ∧ Frame.exitReturn ∉ s.frames) s m)
    (hm : Move s m s') : Driven n s' := by
  have hlive : onCalls Disciplined s m := fun l hl => (hok l hl).1.1
  have hwaits : Table.RootWaits 1 s'.table → forkCount s.trace = n ∧ waitCount s.trace < n := by
    intro hw
    rcases hm.rootWaits hsound hlive hw with hold | ⟨freed, rfl⟩
    · exact h.waiting hold
    · obtain ⟨-, -, hf, hlt, -⟩ := (hok _ rfl).1
      exact ⟨hf, hlt⟩
  have hcoded : s'.procs = s.procs → ∀ p, s.InTable p → (s'.heap p).state = .zombie →
      (s'.heap p).exitCode = (s'.heap p).pid := by
    intro hprocs p hp hz
    refine hm.coded hsound.base h.coded (fun code hcode => ?_) hp
      ((inTable_congr hprocs p).mpr hp) hz
    exact ((hok _ hcode).1.2).2
  have hexit : ∀ code, ∀ e ∈ [Event.exited s.current code], e.Neutral := by
    intro code e he
    obtain rfl := List.mem_singleton.mp he
    exact ⟨rfl, rfl, rfl, rfl, trivial⟩
  cases hm with
  | quiet hq => exact h.keep [] (by simp) hq.trace hq.procs (hcoded hq.procs) hwaits
  | forkFail hq hcall hwhy =>
      obtain ⟨-, -, hlt, hmem, -⟩ := (hok _ rfl).1
      exact absurd (hwhy.resolve_left hmem) (h.free_slot hn hlt)
  | noChild hq hcall hnone =>
      -- The initial process is its own child.
      obtain ⟨-, hpid, -⟩ := (hok _ rfl).1
      have hppid := (hsound.base.root_eq hsound.base.current hpid).2
      exact absurd (hppid.trans hpid.symm) (hnone _ hsound.base.current)
  | exitReturn hq htop =>
      have hnot := (hok _ rfl).2
      simp [htop] at hnot
  | @fork z content newsp i hcall hi hfree hlow hz =>
      obtain ⟨-, hpid, hlt, -⟩ := (hok _ rfl).1
      refine h.fork hsound hi hfree hz hlt fun hw => ?_
      obtain ⟨e, he, hwait⟩ :=
        ((Move.fork hcall hi hfree hlow hz ‹_›).rootWaits hsound hlive hw).resolve_right (by simp)
      have hquiet := hsound.base.entry_cur_waiting hcall (e := e) (by
        show s.table.entry s.cur.pid = some e
        rw [hpid]
        exact he)
      rw [hwait] at hquiet
      cases hquiet
  | @exit code hcall hawake =>
      exact h.keep [.exited s.current code] (hexit code) rfl rfl (hcoded rfl) hwaits
  | @exitWake code q hcall hq hne hparent hasleep =>
      exact h.keep _ (Event.neutral_resume (hexit code)) (resume_trace_append _ _ rfl)
        (resume_procs ..) (hcoded (resume_procs ..)) hwaits
  | @reap l freed i z hround hi hz hparent hzombie =>
      have hdrive := (hok l rfl).1
      have hne := hsound.reap_ne hround hdrive.sparesSelf hparent hzombie
      have hfreed : freed = id := by
        generalize hfs : s.frames = fs at hround
        cases hround with
        | first => exact hdrive.2.2.2.2
        | again => exact hdrive.2
      have hone : Table.OneParent 1 s.table (.reap (s.heap z).pid) :=
        Driver.oneParent And.left hsound hok (.reap hround)
      have hcur : s.table.cur = 1 := hfam.waiter hsound.base.entry_cur hone
      subst hfreed
      refine h.reap hsound hi hz hne hparent hzombie fun hw => ?_
      rw [table_reaped hsound hi hz hne hparent] at hw
      obtain ⟨e, he, hwait⟩ := hw
      rw [Table.reaped_entry, if_pos hcur.symm] at he
      split_ifs at he
      obtain rfl := Option.some.inj he
      cases hwait
  | sleep => exact h.keep [] (by simp) rfl rfl (hcoded rfl) hwaits
  | yield => exact h.keep [] (by simp) rfl rfl (hcoded rfl) hwaits
  | @dispatch q hq hne hready hrun =>
      have hsaved : ∀ e ∈ [Event.saved s.current s.current ⟨.switch, s.frames⟩], e.Neutral := by
        intro e he
        obtain rfl := List.mem_singleton.mp he
        exact ⟨rfl, rfl, rfl, rfl, trivial⟩
      exact h.keep _ (Event.neutral_resume hsaved) (resume_trace_append _ _ rfl)
        (resume_procs ..) (hcoded (resume_procs ..)) hwaits

theorem Started.driven (h : Started s) : Driven n s := by
  have hslots : childSlots s = ∅ := by
    ext i
    rw [mem_childSlots]
    simp only [Finset.notMem_empty, iff_false, not_and, not_not]
    intro _ hi0
    cases hp : s.procs i with
    | none => rfl
    | some p => exact absurd (h.slot hp).1 hi0
  refine ⟨fun e he => ?_, fun p hp hz => ?_, ?_, ?_, ?_, ?_, fun hw => ?_⟩
  · rw [h.trace] at he
    cases he
  · obtain ⟨i, -, hp⟩ := hp
    obtain ⟨-, rfl⟩ := h.slot hp
    have hst : (s.heap s.current).state = .running := h.state
    rw [hst] at hz
    cases hz
  · rw [h.trace, hslots]
    rfl
  · rw [h.trace]
    rfl
  · rw [h.trace]
    rfl
  · rw [h.trace]
    exact Nat.zero_le n
  · obtain ⟨e, he, hwait⟩ := hw
    rw [h.table_eq] at he
    obtain rfl := Option.some.inj he
    cases hwait

theorem Driven.of_reach (hn : n ≤ 1022) (h : sched.Reach (Driver n) s) : Driven n s := by
  refine invariant_of_moves (I := Driven n) (fun hok => hok.1.sparesSelf)
    (h.strengthen driver_frames) Started.driven ?_
  intro a m b hreach hsound ha hok hm
  exact ha.move hn hsound (family_of_moves And.left hreach).2 hok hm

/-- While `init` has children to wait for, somebody can run. -/
theorem driver_runnable (hn : n ≤ 1022) (h : sched.Reach (Driver n) s)
    (hleft : waitCount s.trace < n) :
    ∃ p, s.InTable p ∧ ((s.heap p).state = .ready ∨ (s.heap p).state = .running) := by
  have hdriven := Driven.of_reach hn h
  have hbase := (Sound.of_reach Driver.sparesSelf h).base
  obtain ⟨hwf, hfam⟩ := family_of_reach (fun hok => hok) h
  have hchild : Table.RootWaits 1 s.table → ∃ k e, s.table.entry k = some e ∧ k ≠ 1 := by
    intro hroot
    -- All the children were created, and more of them than were waited for.
    have hforks := (hdriven.waiting hroot).1
    have hcard := hdriven.card
    have hsome : 0 < (childSlots s).card := by omega
    obtain ⟨i, hi⟩ := Finset.card_pos.mp hsome
    obtain ⟨hlt, hi0, hslot⟩ := mem_childSlots.mp hi
    obtain ⟨p, hp⟩ := Option.ne_none_iff_exists'.mp hslot
    have hpid := hbase.pid i hlt p hp
    exact ⟨(s.heap p).pid, s.entryOf p, hbase.entry_of ⟨i, hlt, hp⟩, by omega⟩
  obtain ⟨k, e, he, hrun⟩ := hfam.exists_runnable hwf hchild
  obtain ⟨p, hp, -, rfl⟩ := hbase.entry_eq.mp he
  exact ⟨p, hp, hrun⟩

/-- **The driver's law.** With up to 1022 children, however they are scheduled: no
`sched_exit` returns, every `sched_wait` that returns returns 0 (and every `sched_fork`
a pid), the codes delivered by `n` waits are the children's pids in some order, with only
`init` left in the table, and until then there is always a process to run. -/
theorem driver_law (hn : n ≤ 1022) (h : sched.Reach (Driver n) s) :
    (∀ task, .exitReturned task ∉ s.trace) ∧
    (∀ task ret code, .waitReturned task ret code ∈ s.trace → ret = 0) ∧
    (∀ task z ret, .forkReturned task z ret ∈ s.trace → 0 ≤ ret) ∧
    (waitCount s.trace = n →
      (codes s.trace).Perm (childPids s.trace) ∧ (codes s.trace).length = n ∧
      ∀ p, s.InTable p → (s.heap p).pid = 1) ∧
    (waitCount s.trace < n →
      ∃ p, s.InTable p ∧ ((s.heap p).state = .ready ∨ (s.heap p).state = .running)) := by
  have hdriven := Driven.of_reach hn h
  have hbase := (Sound.of_reach Driver.sparesSelf h).base
  refine ⟨fun task he => hdriven.fine _ he, fun task ret code he => hdriven.fine _ he,
    fun task z ret he => hdriven.fine _ he, fun hall => ?_, driver_runnable hn h⟩
  have hcard := hdriven.card
  have hmost := hdriven.atMost
  have hslots : childSlots s = ∅ := Finset.card_eq_zero.mp (by omega)
  refine ⟨?_, hdriven.waits.symm.trans hall, fun p hp => ?_⟩
  · have hbalance := hdriven.balance
    rw [hslots] at hbalance
    simpa using hbalance
  · obtain ⟨i, hi, hp⟩ := hp
    rw [hbase.pid i hi p hp]
    by_contra hne
    have hmem : i ∈ childSlots s := mem_childSlots.mpr ⟨hi, by omega, by simp [hp]⟩
    rw [hslots] at hmem
    cases hmem

/-- A check of the driver's conditions, but for those on freed records. -/
def driverOk (n : Nat) (s : State) : Label → Bool
  | .tick | .go _ => true
  | .fork mem newsp => s.cur.state ≠ .zombie && s.cur.pid = 1 && forkCount s.trace < n &&
      mem.isSome && newsp ≠ mapFailed
  | .wait _ => s.cur.state ≠ .zombie && s.cur.pid = 1 && forkCount s.trace = n &&
      waitCount s.trace < n
  | .exit code => s.cur.state ≠ .zombie && s.cur.pid ≠ 1 && code = s.cur.pid
  | .nice _ => s.cur.state ≠ .zombie && s.cur.pid ≠ 1

theorem Driver.of_check {l : Label} (hfreed : ∀ freed, l = .wait freed ∨ l = .go freed → freed = id)
    (h : driverOk n s l = true) : Driver n s l := by
  unfold Driver Disciplined
  cases l with
  | tick => exact ⟨nofun, trivial⟩
  | go freed => exact ⟨nofun, hfreed freed (.inr rfl)⟩
  | fork mem newsp =>
      simp only [driverOk, Bool.and_eq_true, decide_eq_true_eq] at h
      obtain ⟨⟨⟨⟨halive, hpid⟩, hlt⟩, hmem⟩, hsp⟩ := h
      exact ⟨fun _ => halive, hpid, hlt, Option.isSome_iff_ne_none.mp hmem, hsp⟩
  | wait freed =>
      simp only [driverOk, Bool.and_eq_true, decide_eq_true_eq] at h
      obtain ⟨⟨⟨halive, hpid⟩, hall⟩, hlt⟩ := h
      exact ⟨fun _ => halive, hpid, hall, hlt, hfreed freed (.inl rfl)⟩
  | exit code =>
      simp only [driverOk, Bool.and_eq_true, decide_eq_true_eq] at h
      exact ⟨fun _ => h.1.1, h.1.2, h.2⟩
  | nice niceval =>
      simp only [driverOk, Bool.and_eq_true, decide_eq_true_eq] at h
      exact ⟨fun _ => h.1, h.2⟩

/-- Two children, who exit one after the other while `init` sleeps. -/
theorem driver_law_two : ∃ s : State, waitCount s.trace = 2 ∧ codes s.trace = [3, 2] ∧
    (codes s.trace).Perm (childPids s.trace) ∧ ∀ p, s.InTable p → (s.heap p).pid = 1 := by
  have hrun : ∃ s, sched.Reach (Driver 2) s ∧
      (waitCount s.trace = 2 && codes s.trace = [3, 2]) = true := by
    refine start_reach _ (driverOk 2) [.fork (some (101, blank)) 65536,
      .fork (some (102, blank)) 131072, .wait id, .go id, .exit 2, .go id, .wait id, .go id,
      .exit 3, .go id] _ (fun l hl s => Driver.of_check ?_) (by decide +kernel)
    simp only [List.mem_cons, List.not_mem_nil, or_false] at hl
    intro freed hf
    rcases hf with rfl | rfl <;> simpa using hl
  obtain ⟨s, hreach, hs⟩ := hrun
  rw [Bool.and_eq_true, decide_eq_true_eq, decide_eq_true_eq] at hs
  obtain ⟨hperm, -, hleft⟩ := (driver_law (by omega) hreach).2.2.2.1 hs.1
  exact ⟨s, hs.1, hs.2, hperm, hleft⟩

end Ece357.Sched
