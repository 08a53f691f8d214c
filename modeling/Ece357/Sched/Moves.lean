import Ece357.Sched.Model

/-!
# Ece357.Sched.Moves

**What a step of the scheduler is made of.** Every step of the machine is a short
sequence of `Move`s, of ten kinds, each with the guard under which the code makes
it and its exact effect on the process table. The step function is not unfolded
again by anything proved about the table: an invariant is checked move by move.

A move that is the first of its step carries the step's label, so that a
condition on calls is a condition on moves; the others carry none.
-/

namespace Ece357.Sched

open Ece357.Machine Ece357.ProcTable State

/-! ### Looking things up in the table -/

namespace State

/-- The record at `p` is in some slot of the process table. -/
def InTable (s : State) (p : Ptr) : Prop := ∃ i < schedNproc, s.procs i = some p

theorem inTable_congr {s s' : State} (hprocs : s'.procs = s.procs) (p : Ptr) :
    s'.InTable p ↔ s.InTable p := by
  unfold InTable
  rw [hprocs]

theorem findProc_none {s : State} {test : SchedProc → Bool} :
    s.findProc test = none ↔ ∀ p, s.InTable p → test (s.heap p) = false := by
  unfold findProc
  rw [firstSlot_eq_none]
  constructor
  · intro h p hp
    obtain ⟨i, hi, hp⟩ := hp
    have hslot := h i hi
    simpa [slot, hp] using hslot
  · intro h i hi
    unfold slot
    cases hp : s.procs i with
    | none => rfl
    | some p => simp [h p ⟨i, hi, hp⟩]

theorem findProc_some {s : State} {test : SchedProc → Bool} {i : Nat} {p : Ptr}
    (h : s.findProc test = some (i, p)) :
    i < schedNproc ∧ s.procs i = some p ∧ test (s.heap p) = true := by
  obtain ⟨j, hj, hslot, -⟩ := firstSlot_eq_some h
  unfold slot at hslot
  cases hp : s.procs j with
  | none => simp [hp] at hslot
  | some q =>
      simp only [hp, Option.ite_none_right_eq_some, Option.some.injEq, Prod.mk.injEq] at hslot
      obtain ⟨htest, rfl, rfl⟩ := hslot
      exact ⟨hj, hp, htest⟩

/-- The search found the lowest slot that passes. -/
theorem findProc_lowest {s : State} {test : SchedProc → Bool} {i j : Nat} {p q : Ptr}
    (h : s.findProc test = some (i, p)) (hj : j < i) (hq : s.procs j = some q) :
    test (s.heap q) = false := by
  obtain ⟨k, -, hslot, hbefore⟩ := firstSlot_eq_some h
  have hki : k = i := by
    unfold slot at hslot
    cases hp : s.procs k with
    | none => simp [hp] at hslot
    | some r =>
        simp only [hp, Option.ite_none_right_eq_some, Option.some.injEq, Prod.mk.injEq] at hslot
        exact hslot.2.1
  have hnone := hbefore j (hki ▸ hj)
  simpa [slot, hq] using hnone

end State

/-- `nextpid` finds the lowest free slot. -/
theorem nextpid_cases (s : State) :
    (nextpid s = -1 ∧ ∀ i < schedNproc, s.procs i ≠ none) ∨
    ∃ i < schedNproc, nextpid s = i + 1 ∧ s.procs i = none ∧ ∀ j < i, s.procs j ≠ none := by
  unfold nextpid
  cases hs : firstSlot schedNproc fun i => if s.procs i = none then some i else none with
  | none =>
      refine .inl ⟨rfl, fun i hi hfree => ?_⟩
      have hnone := firstSlot_eq_none.mp hs i hi
      simp [hfree] at hnone
  | some i =>
      obtain ⟨j, hj, hfound, hbefore⟩ := firstSlot_eq_some hs
      simp only [Option.ite_none_right_eq_some, Option.some.injEq] at hfound
      obtain ⟨hfree, rfl⟩ := hfound
      refine .inr ⟨j, hj, rfl, hfree, fun k hk hfreek => ?_⟩
      have hnone := hbefore k hk
      simp [hfreek] at hnone

theorem nextpid_eq {s : State} {i : Nat} (hi : i < schedNproc) (hfree : s.procs i = none)
    (hlow : ∀ j < i, s.procs j ≠ none) : nextpid s = i + 1 := by
  rcases nextpid_cases s with ⟨-, hfull⟩ | ⟨j, -, hsome, hfreej, hlowj⟩
  · exact absurd hfree (hfull i hi)
  · have hji : ¬ j < i := fun hlt => hlow j hlt hfreej
    have hij : ¬ i < j := fun hlt => hlowj i hlt hfree
    omega

/-! ### Resuming a task -/

/-- What the trace shows of a return into a context: a first return from `sched_fork`
if it was saved there, nothing if it was saved in `sched_switch`. -/
def resumption (p : Ptr) (ctx : Savectx) : List Event :=
  match ctx.pc with
  | .fork => [.forkReturned p (some p) 0]
  | .switch => []

/-- Make `q` the current task, RUNNING, and continue in its context. -/
def resume (s : State) (by_ q : Ptr) : State :=
  restorectx { s.modify q fun r => { r with state := .running } with current := q } by_

theorem resume_eq (s : State) (by_ q : Ptr) : resume s by_ q =
    { s with
      heap := Function.update s.heap q { s.heap q with state := .running }
      current := q
      blocked := false
      frames := (s.heap q).ctx.frames
      trace := resumption q (s.heap q).ctx ++ .restored by_ q (s.heap q).ctx :: s.trace } := by
  cases hpc : (s.heap q).ctx.pc <;>
    simp [resume, restorectx, State.modify, State.cur, State.log, State.sigUnblock, resumption, hpc]

@[simp] theorem resume_procs (s : State) (by_ q : Ptr) : (resume s by_ q).procs = s.procs := by
  rw [resume_eq]

@[simp] theorem resume_current (s : State) (by_ q : Ptr) : (resume s by_ q).current = q := by
  rw [resume_eq]

theorem resume_trace (s : State) (by_ q : Ptr) : (resume s by_ q).trace =
    resumption q (s.heap q).ctx ++ .restored by_ q (s.heap q).ctx :: s.trace := by
  rw [resume_eq]

theorem resume_trace_append {s : State} {new old : List Event} (by_ q : Ptr)
    (htrace : s.trace = new ++ old) : (resume s by_ q).trace =
      (resumption q (s.heap q).ctx ++ .restored by_ q (s.heap q).ctx :: new) ++ old := by
  rw [resume_trace, htrace, List.append_assoc]
  rfl

/-- What is true of the two events of a resumption and of those before is true of all. -/
theorem forall_resume {P : Event → Prop} {by_ q : Ptr} {ctx : Savectx} {new : List Event}
    (hreturned : P (.forkReturned q (some q) 0)) (hrestored : P (.restored by_ q ctx))
    (hnew : ∀ e ∈ new, P e) : ∀ e ∈ resumption q ctx ++ .restored by_ q ctx :: new, P e := by
  intro e he
  rcases List.mem_append.mp he with he | he
  · unfold resumption at he
    split at he
    · obtain rfl := List.mem_singleton.mp he
      exact hreturned
    · cases he
  · rcases List.mem_cons.mp he with rfl | he
    · exact hrestored
    · exact hnew e he

/-! ### The effects of the moves -/

/-- The fields of a record that only the calls of the operations and the switches
change, as opposed to the accounting of ticks and priorities. -/
structure Same (a b : SchedProc) : Prop where
  pid : b.pid = a.pid
  ppid : b.ppid = a.ppid
  state : b.state = a.state
  exitCode : b.exitCode = a.exitCode
  stack : b.stack = a.stack
  ctx : b.ctx = a.ctx

theorem Same.refl (a : SchedProc) : Same a a := ⟨rfl, rfl, rfl, rfl, rfl, rfl⟩

/-- How the running task moves within the scheduler, its innermost frames first. -/
inductive FrameMove : List Frame → List Frame → Prop
  | same (fs : List Frame) : FrameMove fs fs
  | push (fs : List Frame) : FrameMove fs (.tickReturn :: fs)
  | pop (fs : List Frame) : FrameMove (.tickReturn :: fs) fs
  | waitGo (fs : List Frame) : FrameMove (.waitSwitch :: fs) (.waitBlock :: fs)
  | exitGo (fs : List Frame) : FrameMove (.exitSwitch :: fs) (.exitReturn :: fs)
  | exitPop (fs : List Frame) : FrameMove (.exitReturn :: fs) fs

/-- The table, its records and `current` stay as they are, accounting apart; `new`
is what the trace gains. -/
structure Quiet (s : State) (new : List Event) (s' : State) : Prop where
  procs : s'.procs = s.procs
  live : s'.live = s.live
  current : s'.current = s.current
  procCount : s'.procCount = s.procCount
  mapped : s'.mapped = s.mapped
  record : ∀ p, s.InTable p → Same (s.heap p) (s'.heap p)
  frames : FrameMove s.frames s'.frames
  trace : s'.trace = new ++ s.trace

/-- The record a `sched_fork` of the current task puts into the table. -/
def newRecord (s : State) (content : SchedProc) (i : Nat) (newsp : Addr) : SchedProc :=
  { content with
    pid := i + 1, ppid := s.cur.pid, state := .ready, priority := 20, niceval := 0,
    totalTicks := s.cur.totalTicks, stack := newsp, ctx := ⟨.fork, s.frames⟩ }

namespace State

/-- A `sched_fork` that went through, with slot `i` for the record at `z`. -/
def forked (s : State) (z : Ptr) (content : SchedProc) (i : Nat) (newsp : Addr) : State :=
  { s with
    heap := Function.update s.heap z (newRecord s content i newsp)
    live := Function.update s.live z true
    procs := Function.update s.procs i (some z)
    procCount := s.procCount + 1
    mapped := newsp :: s.mapped
    blocked := false
    trace := .forkReturned s.current (some z) (i + 1) ::
      .saved s.current z ⟨.fork, s.frames⟩ :: .forked s.current z :: s.trace }

/-- The current task is a ZOMBIE with an exit code. -/
def exited (s : State) (code : Int) : State :=
  ({ s with procCount := s.procCount - 1 }.modify s.current
    fun r => { r with state := .zombie, exitCode := code }).log (.exited s.current code)

/-- The current task gives up its turn: READY, unless asleep or dead. -/
def yielded (s : State) : State :=
  s.modify s.current fun r => { r with state := Table.leave r.state }

/-- The current task sleeps, about to call `sched_switch` from `sched_wait`. -/
def slept (s : State) : State :=
  { s.modify s.current fun r => { r with state := .sleeping } with
    blocked := false, frames := [.waitSwitch] }

/-- The current task took the record `z` out of slot `i`; `gone` is what `free` left. -/
def reaped (s : State) (i : Nat) (z : Ptr) (gone : SchedProc) : State :=
  { s with
    heap := Function.update s.heap z gone
    live := Function.update s.live z false
    procs := Function.update s.procs i none
    blocked := false
    frames := []
    trace := .waitReturned s.current 0 (some gone.exitCode) :: .reaped s.current z :: s.trace }

end State

/-! ### What the moves leave alone -/

section Slots
variable {s : State} {z p : Ptr} {content gone : SchedProc} {i j : Nat} {newsp : Addr}

theorem forked_heap (hp : p ≠ z) : (s.forked z content i newsp).heap p = s.heap p := by
  simp [State.forked, hp]

theorem reaped_heap (hp : p ≠ z) : (s.reaped i z gone).heap p = s.heap p := by
  simp [State.reaped, hp]

theorem forked_slot (hfree : s.procs i = none) :
    (s.forked z content i newsp).procs j = some p ↔ (j = i ∧ p = z) ∨ s.procs j = some p := by
  by_cases hji : j = i
  · subst hji
    simp [State.forked, hfree, eq_comm]
  · simp [State.forked, hji]

theorem reaped_slot : (s.reaped i z gone).procs j = some p ↔ j ≠ i ∧ s.procs j = some p := by
  by_cases hji : j = i <;> simp [State.reaped, hji]

end Slots

section Fields
variable {β : Type*} (g : SchedProc → β) (s : State)

/-- A store into a record leaves every other field of every record as it was. -/
theorem modify_field {f : SchedProc → SchedProc} (hf : ∀ r, g (f r) = g r) (p q : Ptr) :
    g ((s.modify p f).heap q) = g (s.heap q) := by
  by_cases hq : q = p
  · subst hq
    simpa [State.modify] using hf (s.heap q)
  · simp [State.modify, hq]

theorem resume_field (hg : ∀ r : SchedProc, g { r with state := .running } = g r) (by_ p q : Ptr) :
    g ((resume s by_ p).heap q) = g (s.heap q) := by
  rw [resume_eq]
  exact modify_field g s hg p q

theorem exited_field {code : Int}
    (hg : ∀ r : SchedProc, g { r with state := .zombie, exitCode := code } = g r) (q : Ptr) :
    g ((s.exited code).heap q) = g (s.heap q) := modify_field g _ hg _ q

theorem yielded_field (hg : ∀ r : SchedProc, g { r with state := Table.leave r.state } = g r)
    (q : Ptr) : g (s.yielded.heap q) = g (s.heap q) := modify_field g _ hg _ q

theorem slept_field (hg : ∀ r : SchedProc, g { r with state := .sleeping } = g r) (q : Ptr) :
    g (s.slept.heap q) = g (s.heap q) := modify_field g _ hg _ q

theorem savectx_field {owner : Ptr} {site : Site}
    (hg : ∀ r : SchedProc, g { r with ctx := ⟨site, s.frames⟩ } = g r) (q : Ptr) :
    g ((savectx s owner site).heap q) = g (s.heap q) := modify_field g _ hg _ q

end Fields

/-! ### The moves, with their guards -/

/-- A step label under which `sched_wait` runs a round of its loop, given the stack it
is found on. -/
inductive WaitRound (freed : SchedProc → SchedProc) : List Frame → Label → Prop
  | first : WaitRound freed [] (.wait freed)
  | again : WaitRound freed [.waitBlock] (.go freed)

/-- One move, labelled with its step if it is the first of that step. -/
inductive Move (s : State) : Option Label → State → Prop
  /-- Ticks, priorities and frames only. -/
  | quiet {m s'} (h : Quiet s [] s') : Move s m s'
  /-- `sched_fork` gives up: no memory, or no pid. -/
  | forkFail {mem newsp s'} (h : Quiet s [.forkReturned s.current none (-1)] s')
      (hcall : s.frames = []) (hwhy : mem = none ∨ ∀ i < schedNproc, s.procs i ≠ none) :
      Move s (some (.fork mem newsp)) s'
  /-- `sched_wait` finds no child. -/
  | noChild {freed s'} (h : Quiet s [.waitReturned s.current (-1) none] s')
      (hcall : s.frames = []) (hnone : ∀ q, s.InTable q → (s.heap q).ppid ≠ s.cur.pid) :
      Move s (some (.wait freed)) s'
  /-- `sched_exit` returns. -/
  | exitReturn {freed s'} (h : Quiet s [.exitReturned s.current] s') {fs : List Frame}
      (htop : s.frames = .exitReturn :: fs) : Move s (some (.go freed)) s'
  /-- `sched_fork` goes through, with the lowest free slot. -/
  | fork {z content newsp i} (hcall : s.frames = []) (hi : i < schedNproc)
      (hfree : s.procs i = none) (hlow : ∀ j < i, s.procs j ≠ none) (hz : s.live z = false)
      (hsp : newsp ∉ s.mapped) :
      Move s (some (.fork (some (z, content)) newsp)) (s.forked z content i newsp)
  /-- `sched_exit`, with nobody to wake. -/
  | exit {code} (hcall : s.frames = [])
      (hawake : ∀ q, s.InTable q → q ≠ s.current → (s.heap q).pid = s.cur.ppid →
        (s.heap q).state ≠ .sleeping) :
      Move s (some (.exit code))
        { s.exited code with blocked := false, frames := [.exitSwitch] }
  /-- `sched_exit` wakes the sleeping parent and hands over to it. -/
  | exitWake {code q} (hcall : s.frames = []) (hq : s.InTable q) (hne : q ≠ s.current)
      (hparent : (s.heap q).pid = s.cur.ppid) (hasleep : (s.heap q).state = .sleeping) :
      Move s (some (.exit code)) (resume (s.exited code) s.current q)
  /-- `sched_wait` reaps a zombie child. -/
  | reap {l freed i z} (hround : WaitRound freed s.frames l) (hi : i < schedNproc)
      (hz : s.procs i = some z) (hparent : (s.heap z).ppid = s.cur.pid)
      (hzombie : (s.heap z).state = .zombie) :
      Move s (some l) (s.reaped i z (freed (s.heap z)))
  /-- `sched_wait` finds a child but no zombie child. -/
  | sleep {l freed} (hround : WaitRound freed s.frames l)
      (hchild : s.frames = [] → ∃ q, s.InTable q ∧ (s.heap q).ppid = s.cur.pid)
      (hquiet : ∀ q, s.InTable q → (s.heap q).ppid = s.cur.pid → (s.heap q).state ≠ .zombie) :
      Move s (some l) s.slept
  /-- `sched_switch` puts the current task on the wait queue. -/
  | yield : Move s none s.yielded
  /-- `sched_switch` switches to another task. -/
  | dispatch {q} (hq : s.InTable q) (hne : q ≠ s.current) (hready : (s.heap q).state = .ready)
      (hcur : s.cur.state ≠ .running) :
      Move s none (resume (savectx s s.current .switch) s.current q)

/-- The scheduler, move by move. -/
def moves : System State (Option Label) where
  Init := Initial
  Step s m s' := Move s m s'

/-- A condition on the steps of the scheduler, asked of the moves that begin one. -/
def onCalls (ok : State → Label → Prop) (s : State) (m : Option Label) : Prop :=
  ∀ l, m = some l → ok s l

end Ece357.Sched
