import Ece357.Sched.Steps

/-!
# Ece357.Sched.Startup

**Starting up**, statement by statement: `sched_init` of `ps9/sched.c`, from its first statement
to the entry of `init_fn`. The timer is armed and `sched_tick` made its handler early on, so that
a tick may come before any of the statements after that. One that comes before the handler is
there ends the program. One that comes after that, but before `current` is set, runs
`sched_tick`, which follows the null pointer.

The block that `malloc` hands out for the process table may contain anything, and nothing clears
it. If it happens to contain null pointers only, and no tick comes too early, then what
`sched_init` leaves is as it should be (`init_establishes`). Both are needed
(`init_not_establishes`).
-/

namespace Ece357.Sched

open Ece357.Machine Ece357.ProcTable State

/-! ### `sched_init` as a machine -/

/-- The statements of `sched_init`, in their order. -/
inductive Stmt
  /-- `tick_count = 0` and the `malloc` of the table. -/
  | mallocTable
  | setitimer
  | signal
  | sigfillset
  | mallocProc
  /-- `p->pid = nextpid()`. -/
  | pid
  /-- `p->ppid = p->pid`. -/
  | ppid
  /-- `p->stack = mmap(...)`. -/
  | stack
  /-- The other fields of `*p`. -/
  | fields
  /-- `current = p`. -/
  | current
  /-- `running->procs[0] = p`. -/
  | slot
  /-- `proc_count = 1`. -/
  | procCount
  /-- The transfer of execution to `init_fn`. -/
  | transfer
  deriving DecidableEq, Repr

/-- The timer is armed when this statement is next. -/
def Stmt.armed : Stmt → Bool
  | .mallocTable | .setitimer => false
  | _ => true

/-- There is a handler for the signal of the timer when this statement is next. -/
def Stmt.handled : Stmt → Bool
  | .mallocTable | .setitimer | .signal => false
  | _ => true

/-- There is a current task when this statement is next. -/
def Stmt.hasCurrent : Stmt → Bool
  | .slot | .procCount | .transfer => true
  | _ => false

/-- Where `sched_init` stands, or what it has come to. -/
inductive InitPc
  | before (next : Stmt)
  /-- It has called `exit`. -/
  | exited
  /-- The signal of the timer has ended the program. -/
  | killed
  /-- `sched_tick` has been run without a current task. -/
  | nullTick
  /-- `init_fn` has been entered. -/
  | initFn
  deriving DecidableEq, Repr

/-- `sched_init` and the globals of `sched.c`. -/
structure Startup where
  pc : InitPc
  /-- The local variable `p`. -/
  p : Ptr
  globals : State

/-- What happens next, with the answer of the system. -/
inductive InitLabel
  /-- `malloc` hands out a block with this content, or NULL. -/
  | table (content : Option (Nat → Option Ptr))
  | timer (succeeds : Bool)
  | proc (mem : Option (Ptr × SchedProc))
  | area (newsp : Addr)
  /-- A statement to which the system has nothing to answer. -/
  | plain
  /-- The signal of the timer is delivered. -/
  | tick
  /-- `sched_tick` returns. -/
  | tickReturn

/-- Is this not a statement of `sched_init`? -/
def InitLabel.isTick : InitLabel → Bool
  | .tick | .tickReturn => true
  | _ => false

/-- Execute a statement. -/
def execStmt (b : Startup) : Stmt → InitLabel → Option Startup
  | .mallocTable, .table none => some { b with pc := .exited }
  | .mallocTable, .table (some content) =>
      some { b with pc := .before .setitimer,
                    globals := { b.globals with tickCount := 0, procs := content } }
  | .setitimer, .timer succeeds =>
      some { b with pc := if succeeds then .before .signal else .exited }
  | .signal, .plain => some { b with pc := .before .sigfillset }
  | .sigfillset, .plain => some { b with pc := .before .mallocProc }
  | .mallocProc, .proc none => some { b with pc := .exited }
  | .mallocProc, .proc (some (p, content)) =>
      some { pc := .before .pid, p := p, globals := b.globals.malloc p content }
  | .pid, .plain =>
      let pid := nextpid b.globals
      some { b with pc := if pid < 0 then .exited else .before .ppid,
                    globals := b.globals.modify b.p fun r => { r with pid := pid } }
  | .ppid, .plain =>
      some { b with pc := .before .stack,
                    globals := b.globals.modify b.p fun r => { r with ppid := r.pid } }
  | .stack, .area newsp =>
      some { b with
        pc := if newsp < 0 then .exited else .before .fields
        globals := { b.globals.modify b.p fun r => { r with stack := newsp } with
          mapped := if newsp = mapFailed then b.globals.mapped else newsp :: b.globals.mapped } }
  | .fields, .plain =>
      some { b with
        pc := .before .current
        globals := b.globals.modify b.p fun r =>
          { r with state := .running, priority := 20, niceval := 0, totalTicks := 0 } }
  | .current, .plain =>
      some { b with pc := .before .slot, globals := { b.globals with current := b.p } }
  | .slot, .plain =>
      some { b with
        pc := .before .procCount
        globals := { b.globals with procs := Function.update b.globals.procs 0 (some b.p) } }
  | .procCount, .plain =>
      some { b with pc := .before .transfer, globals := { b.globals with procCount := 1 } }
  | .transfer, .plain => some { b with pc := .initFn }
  | _, _ => none

/-- The signal of the timer, when `next` is the next statement. -/
def initTick (b : Startup) (next : Stmt) : Option Startup :=
  if next.armed = false then none
  else if next.handled = false then some { b with pc := .killed }
  else if next.hasCurrent = false then some { b with pc := .nullTick }
  else if b.globals.blocked then none
  else some { b with globals := schedTick b.globals }

/-- One step. `sched_init` goes on when it is not interrupted by `sched_tick`, and, once there is
a current task, only as that task. -/
def initStep (b : Startup) (l : InitLabel) : Option Startup :=
  match b.pc with
  | .before next =>
      match l with
      | .tick => initTick b next
      | .tickReturn =>
          match b.globals.frames with
          | .tickReturn :: fs =>
              some { b with globals := { b.globals.sigUnblock with frames := fs } }
          | _ => none
      | l =>
          if b.globals.frames = [] ∧ (next.hasCurrent = true → b.globals.current = b.p) then
            execStmt b next l
          else none
  | _ => none

/-- The call of `sched_init`: the globals are as the program starts with them. -/
def Startup.Init (b : Startup) : Prop :=
  b.pc = .before .mallocTable ∧ b.globals.procCount = 0 ∧ b.globals.blocked = false ∧
    b.globals.frames = [] ∧ b.globals.mapped = [] ∧ b.globals.trace = []

/-- `sched_init` as a machine. -/
def startup : System Startup InitLabel := .ofFun Startup.Init initStep

/-! ### What it should establish -/

/-- The initial process is alone in the table. -/
structure State.Lone (s : State) : Prop where
  slot : s.procs 0 = some s.current
  others : ∀ i < schedNproc, i ≠ 0 → s.procs i = none

/-- The state that `sched_init` is to leave. -/
structure State.Established (s : State) : Prop where
  lone : s.Lone
  pid : s.cur.pid = 1
  ppid : s.cur.ppid = 1
  procCount : s.procCount = 1

/-- The step puts no new record into the table, and no dead task waits for itself. -/
def ForksNobody (s : State) (l : Label) : Prop := SparesSelf s l ∧
  ∀ mem newsp s', l = .fork mem newsp → step s l = some s' → s'.procs = s.procs

/-- The next `sched_fork` that succeeds returns 2. -/
def State.NextForkReturns (s : State) (pid : Int) : Prop :=
  ∀ t, sched.Run ForksNobody s t → ∀ mem newsp t' v, step t (.fork mem newsp) = some t' →
    t'.returned = some v → 0 < v → v = pid

/-- No `sched_tick` is run without a current task, and when `init_fn` is about to be entered, the
globals are as they should be, with the record that was allocated as the current task. -/
structure Startup.Correct (b : Startup) : Prop where
  ticks : b.pc ≠ .nullTick
  globals : b.pc = .before .transfer → b.globals.Established
  current : b.pc = .before .transfer → b.globals.current = b.p
  nextFork : b.pc = .before .transfer → b.globals.NextForkReturns 2

/-- The block that `malloc` hands out for the table contains null pointers only. -/
def NullBlock (_ : Startup) (l : InitLabel) : Prop :=
  ∀ content, l = .table (some content) → ∀ i < schedNproc, content i = none

/-- No tick comes when there is a handler but no current task. -/
def NoEarlyTick (b : Startup) (l : InitLabel) : Prop :=
  l = .tick → ∀ next, b.pc = .before next → next.handled = true → next.hasCurrent = true

def Undisturbed (b : Startup) (l : InitLabel) : Prop := NullBlock b l ∧ NoEarlyTick b l

/-! ### A tick for the initial process -/

section Tick
variable {s u : State}

/-- From `u` to `s'`, signals have been blocked and the current task made READY; the table is
the same. -/
structure Stays (u s' : State) : Prop where
  current : s'.current = u.current
  procs : s'.procs = u.procs
  live : s'.live = u.live
  procCount : s'.procCount = u.procCount
  frames : s'.frames = u.frames
  blocked : s'.blocked = true
  ready : s'.cur.state = .ready
  pid : ∀ p, (s'.heap p).pid = (u.heap p).pid
  ppid : ∀ p, (s'.heap p).ppid = (u.heap p).ppid

/-- Where nobody else is in the table, `sched_switch` stays with the current task. -/
theorem schedSwitch_alone (honly : ∀ p, u.InTable p → p = u.current)
    (hawake : u.cur.state = .running ∨ u.cur.state = .ready) : Stays u (schedSwitch u) := by
  have hpid := schedSwitch_field SchedProc.pid (fun _ _ _ _ => rfl) u
  have hppid := schedSwitch_field SchedProc.ppid (fun _ _ _ _ => rfl) u
  rcases schedSwitch_spec u with ⟨heq, -⟩ | ⟨i, q, -, hsel, heq⟩
  · have hready : (selecting u).cur.state = .ready := by
      rw [selecting_cur_state]
      rcases hawake with hst | hst <;> rw [hst] <;> rfl
    rw [heq] at hpid hppid ⊢
    exact ⟨rfl, rfl, rfl, rfl, rfl, rfl, hready, hpid, hppid⟩
  · obtain rfl := honly q hsel.inTable
    have hready : ((selecting u).modify u.current
        fun r => { r with state := .ready }).cur.state = .ready := by
      simp [State.cur, State.modify, selecting, yielded, updatePriorities, sigBlock]
    rw [heq.trans (if_pos rfl)] at hpid hppid ⊢
    exact ⟨rfl, rfl, rfl, rfl, rfl, rfl, hready, hpid, hppid⟩

/-- A tick for a task that is alone in the table. -/
theorem schedTick_alone (honly : ∀ p, s.InTable p → p = s.current)
    (hawake : s.cur.state = .running ∨ s.cur.state = .ready) :
    Stays { s with frames := .tickReturn :: s.frames } (schedTick s) := by
  have hfield : ∀ {β : Type} (g : SchedProc → β),
      (∀ (r : SchedProc) k, g { r with totalTicks := k } = g r) → ∀ p,
      g ((s.modify s.current fun r => { r with totalTicks := r.totalTicks + 1 }).heap p) =
        g (s.heap p) := fun g hg p => modify_field g s (fun r => hg r _) s.current p
  have hstate := hfield SchedProc.state (fun _ _ => rfl) s.current
  have hstays := schedSwitch_alone (u := { s.modify s.current fun r =>
      { r with totalTicks := r.totalTicks + 1 } with
    tickCount := s.tickCount + 1, frames := .tickReturn :: s.frames }) honly
    (hawake.imp hstate.trans hstate.trans)
  exact ⟨hstays.current, hstays.procs, hstays.live, hstays.procCount, hstays.frames,
    hstays.blocked, hstays.ready,
    fun p => (hstays.pid p).trans (hfield SchedProc.pid (fun _ _ => rfl) p),
    fun p => (hstays.ppid p).trans (hfield SchedProc.ppid (fun _ _ => rfl) p)⟩

end Tick

/-! ### What holds before each statement -/

/-- There is nothing in the table. -/
structure State.Fresh (s : State) : Prop where
  frames : s.frames = []
  table : ∀ i < schedNproc, s.procs i = none

namespace Startup

/-- The record of the initial process is allocated and has its numbers. -/
structure Recorded (b : Startup) : Prop where
  live : b.globals.live b.p = true
  pid : (b.globals.heap b.p).pid = 1
  ppid : (b.globals.heap b.p).ppid = 1

/-- There is a current task, and slot 0 contains what it should. -/
structure Going (b : Startup) (slot : Option Ptr) : Prop where
  recorded : b.Recorded
  current : b.globals.current = b.p
  awake : (b.globals.heap b.p).state = .running ∨ (b.globals.heap b.p).state = .ready
  slot : b.globals.procs 0 = slot
  others : ∀ i < schedNproc, i ≠ 0 → b.globals.procs i = none
  frames : b.globals.frames = [] ∨ b.globals.frames = [.tickReturn] ∧ b.globals.blocked = true

/-- What holds when a statement is next. -/
def Prepared (b : Startup) : Stmt → Prop
  | .mallocTable => b.globals.frames = []
  | .setitimer | .signal | .sigfillset | .mallocProc => b.globals.Fresh
  | .pid => b.globals.Fresh ∧ b.globals.live b.p = true
  | .ppid => b.globals.Fresh ∧ b.globals.live b.p = true ∧ (b.globals.heap b.p).pid = 1
  | .stack | .fields => b.globals.Fresh ∧ b.Recorded
  | .current => b.globals.Fresh ∧ b.Recorded ∧ (b.globals.heap b.p).state = .running
  | .slot => b.Going none
  | .procCount => b.Going (some b.p)
  | .transfer => b.Going (some b.p) ∧ b.globals.procCount = 1

/-- The invariant. -/
def OnCourse (b : Startup) : Prop :=
  match b.pc with
  | .before next => b.Prepared next
  | .nullTick => False
  | _ => True

end Startup

variable {b b' : Startup} {next : Stmt} {l : InitLabel}

theorem nextpid_fresh {s : State} (h : s.Fresh) : nextpid s = 1 :=
  nextpid_eq (i := 0) (by simp [schedNproc]) (h.table 0 (by simp [schedNproc])) fun _ hj =>
    absurd hj (Nat.not_lt_zero _)

/-- A statement makes what the next one finds. -/
theorem execStmt_onCourse (h : b.Prepared next)
    (htable : ∀ content, l = .table (some content) → ∀ i < schedNproc, content i = none)
    (hframes : b.globals.frames = []) (hs : execStmt b next l = some b') : b'.OnCourse := by
  unfold execStmt at hs
  split at hs
  case h_16 => cases hs
  all_goals (obtain rfl := Option.some.inj hs)
  · trivial
  · exact ⟨hframes, htable _ rfl⟩
  · rename_i succeeds
    cases succeeds with
    | false => trivial
    | true => exact h
  · exact h
  · exact h
  · trivial
  · exact ⟨⟨hframes, h.table⟩, Function.update_self ..⟩
  · obtain ⟨hfresh, hlive⟩ := h
    rw [nextpid_fresh hfresh]
    exact ⟨⟨hframes, hfresh.table⟩, hlive, by simp [State.modify]⟩
  · obtain ⟨hfresh, hlive, hpid⟩ := h
    exact ⟨⟨hframes, hfresh.table⟩, hlive, by simp [State.modify, hpid],
      by simp [State.modify, hpid]⟩
  · obtain ⟨hfresh, hrec⟩ := h
    rw [if_neg (Nat.not_lt_zero _)]
    exact ⟨⟨hframes, hfresh.table⟩, hrec.live, by simp [State.modify, hrec.pid],
      by simp [State.modify, hrec.ppid]⟩
  · obtain ⟨hfresh, hrec⟩ := h
    exact ⟨⟨hframes, hfresh.table⟩, ⟨hrec.live, by simp [State.modify, hrec.pid],
      by simp [State.modify, hrec.ppid]⟩, by simp [State.modify]⟩
  · obtain ⟨hfresh, hrec, hst⟩ := h
    exact ⟨⟨hrec.live, hrec.pid, hrec.ppid⟩, rfl, .inl hst,
      hfresh.table 0 (by simp [schedNproc]), fun i hi _ => hfresh.table i hi, .inl hframes⟩
  · refine ⟨⟨h.recorded.live, h.recorded.pid, h.recorded.ppid⟩, h.current, h.awake,
      by simp, fun i hi hne => ?_, .inl hframes⟩
    exact (Function.update_of_ne hne ..).trans (h.others i hi hne)
  · exact ⟨⟨⟨h.recorded.live, h.recorded.pid, h.recorded.ppid⟩, h.current, h.awake, h.slot,
      h.others, .inl hframes⟩, rfl⟩
  · trivial

/-- Once there is a current task, a tick finds nobody else, and changes no more than it should. -/
theorem Startup.Going.tick {slot : Option Ptr} (h : b.Going slot) (hslot : ∀ q ∈ slot, q = b.p)
    (hunblocked : b.globals.blocked = false) :
    Startup.Going { b with globals := schedTick b.globals } slot ∧
      (schedTick b.globals).procCount = b.globals.procCount := by
  have hframes : b.globals.frames = [] := by
    rcases h.frames with hframes | ⟨-, hblocked⟩
    · exact hframes
    · rw [hunblocked] at hblocked
      cases hblocked
  have honly : ∀ q, b.globals.InTable q → q = b.globals.current := by
    intro q hq
    obtain ⟨i, hi, hq⟩ := hq
    rw [h.current]
    by_cases hi0 : i = 0
    · subst hi0
      exact hslot q (h.slot.symm.trans hq)
    · rw [h.others i hi hi0] at hq
      cases hq
  have hawake := h.awake
  rw [← h.current] at hawake
  have hstays := schedTick_alone honly hawake
  refine ⟨⟨⟨?_, ?_, ?_⟩, hstays.current.trans h.current, ?_, ?_, fun i hi hne => ?_, ?_⟩,
    hstays.procCount⟩
  · exact (congrFun hstays.live b.p).trans h.recorded.live
  · exact (hstays.pid b.p).trans h.recorded.pid
  · exact (hstays.ppid b.p).trans h.recorded.ppid
  · have hready := hstays.ready
    rw [State.cur, hstays.current] at hready
    exact .inr (h.current ▸ hready)
  · exact (congrFun hstays.procs 0).trans h.slot
  · exact (congrFun hstays.procs i).trans (h.others i hi hne)
  · exact .inr ⟨hstays.frames.trans (congrArg _ hframes), hstays.blocked⟩

/-- The handler returns to `sched_init`. -/
theorem Startup.Going.tickReturn {slot : Option Ptr} (h : b.Going slot) {fs : List Frame}
    (hfs : b.globals.frames = .tickReturn :: fs) :
    Startup.Going { b with globals := { b.globals.sigUnblock with frames := fs } } slot := by
  have hnil : fs = [] := by
    rcases h.frames with hframes | ⟨hframes, -⟩
    · rw [hframes] at hfs
      cases hfs
    · rw [hframes] at hfs
      exact (List.cons.inj hfs).2.symm
  exact ⟨⟨h.recorded.live, h.recorded.pid, h.recorded.ppid⟩, h.current, h.awake, h.slot, h.others,
    .inl hnil⟩

/-- Until there is a current task, `sched_init` is not interrupted. -/
theorem Startup.Prepared.frames (h : b.Prepared next) (hnext : next.hasCurrent = false) :
    b.globals.frames = [] := by
  cases next with
  | mallocTable => exact h
  | setitimer | signal | sigfillset | mallocProc => exact h.frames
  | pid | ppid | stack | fields | current => exact h.1.frames
  | slot | procCount | transfer => cases hnext

/-- From then on, what keeps the current task and its slot keeps what has been prepared. -/
theorem Startup.Prepared.keep (h : b.Prepared next) (hnext : next.hasCurrent = true) {s : State}
    (hgoing : ∀ slot : Option Ptr, (∀ q ∈ slot, q = b.p) → b.Going slot →
      Startup.Going { b with globals := s } slot ∧ s.procCount = b.globals.procCount) :
    Startup.Prepared { b with globals := s } next := by
  cases next with
  | slot => exact (hgoing none (by simp) h).1
  | procCount => exact (hgoing (some b.p) (by simp) h).1
  | transfer =>
      obtain ⟨hkept, hcount⟩ := hgoing (some b.p) (by simp) h.1
      exact ⟨hkept, hcount.trans h.2⟩
  | _ => cases hnext

theorem Startup.onCourse_before (hpc : b.pc = .before next) : b.OnCourse ↔ b.Prepared next := by
  unfold Startup.OnCourse
  rw [hpc]

theorem initTick_onCourse (h : b.Prepared next) (hpc : b.pc = .before next)
    (hok : next.handled = true → next.hasCurrent = true) (hs : initTick b next = some b') :
    b'.OnCourse := by
  unfold initTick at hs
  split_ifs at hs with harmed hhandled hcurrent hblocked
  · obtain rfl := Option.some.inj hs
    trivial
  · rw [hok (by simpa using hhandled)] at hcurrent
    cases hcurrent
  · obtain rfl := Option.some.inj hs
    have hkept : Startup.Prepared { b with globals := schedTick b.globals } next :=
      h.keep (by simpa using hcurrent) fun slot hslot hgoing =>
        hgoing.tick hslot (by simpa using hblocked)
    refine (Startup.onCourse_before ?_).mpr hkept
    exact hpc

theorem initStep_onCourse (h : b.OnCourse) (hok : Undisturbed b l) (hs : initStep b l = some b') :
    b'.OnCourse := by
  unfold initStep at hs
  split at hs
  case h_2 => cases hs
  rename_i next hpc
  have hprep : b.Prepared next := (Startup.onCourse_before hpc).mp h
  split at hs
  · exact initTick_onCourse hprep hpc (hok.2 rfl next hpc) hs
  · split at hs
    case h_2 => cases hs
    rename_i fs hfs
    obtain rfl := Option.some.inj hs
    have hnext : next.hasCurrent = true := by
      by_contra hno
      rw [hprep.frames (by simpa using hno)] at hfs
      cases hfs
    have hkept : Startup.Prepared
        { b with globals := { b.globals.sigUnblock with frames := fs } } next :=
      hprep.keep hnext fun slot _ hgoing => ⟨hgoing.tickReturn hfs, rfl⟩
    refine (Startup.onCourse_before ?_).mpr hkept
    exact hpc
  · split_ifs at hs with hguard
    exact execStmt_onCourse hprep hok.1 hguard.1 hs

/-! ### The next child -/

section Next
variable {s s' t : State}

/-- The state that `sched_init` leaves, with a handler of the timer that may still be running. -/
structure State.Launched (s : State) : Prop where
  established : s.Established
  live : s.live s.current = true
  awake : s.cur.state ≠ .zombie
  frames : s.frames = [] ∨ s.frames = [.tickReturn]

theorem State.Lone.only (h : s.Lone) {p : Ptr} (hp : s.InTable p) : p = s.current := by
  obtain ⟨i, hi, hp⟩ := hp
  by_cases hi0 : i = 0
  · subst hi0
    exact Option.some.inj (hp.symm.trans h.slot)
  · rw [h.others i hi hi0] at hp
    cases hp

theorem State.Launched.sound (h : s.Launched) : Sound s := by
  have hlone := h.established.lone
  have hpos : 0 < schedNproc := by simp [schedNproc]
  refine ⟨⟨fun i hi p hp => ?_, fun p hp => ?_, ⟨0, hpos, hlone.slot⟩, s.current, hlone.slot,
    h.established.ppid⟩, ?_, fun p hp hne => absurd (hlone.only hp) hne⟩
  · obtain rfl := hlone.only ⟨i, hi, hp⟩
    by_cases hi0 : i = 0
    · subst hi0
      exact h.established.pid
    · rw [hlone.others i hi hi0] at hp
      cases hp
  · rw [hlone.only hp]
    exact h.live
  · rcases h.frames with hframes | hframes
    · rw [hframes]
      exact .nil _
    · rw [hframes]
      exact ⟨.base _, fun hz => absurd hz h.awake, fun _ => rfl⟩

/-- Whoever is alone in the table stays alone, unless it forks. -/
theorem State.Lone.move (h : s.Lone) (hsound : Sound s) {m : Option Label}
    (hself : onCalls SparesSelf s m) (hfork : ∀ mem newsp, m ≠ some (.fork mem newsp))
    (hm : Move s m s') : s'.Lone := by
  have hnobody : ∀ {q}, s.InTable q → q ≠ s.current → s'.Lone := fun hq hne =>
    absurd (h.only hq) hne
  cases hm with
  | quiet hq | noChild hq | exitReturn hq =>
      exact ⟨by rw [hq.procs, hq.current]; exact h.slot, by rw [hq.procs]; exact h.others⟩
  | forkFail => exact absurd rfl (hfork _ _)
  | fork => exact absurd rfl (hfork _ _)
  | exit => exact ⟨h.slot, h.others⟩
  | exitWake _ hq hne => exact hnobody hq hne
  | reap hround hi hz hparent hzombie =>
      exact hnobody ⟨_, hi, hz⟩ (hsound.reap_ne hround (hself _ rfl) hparent hzombie)
  | sleep => exact ⟨h.slot, h.others⟩
  | yield => exact ⟨h.slot, h.others⟩
  | dispatch hq hne => exact hnobody hq hne

/-- A `sched_fork` of a task that is alone in the first slot gets pid 2, if it succeeds. -/
theorem State.Lone.fork (h : s.Lone) (hbase : Base s) {mem : Option (Ptr × SchedProc)}
    {newsp : Addr} (hs : step s (.fork mem newsp) = some s') :
    (s'.Lone ∧ s'.returned = some (-1)) ∨ (s'.procs ≠ s.procs ∧ s'.returned = some 2) := by
  simp only [step, Option.ite_none_right_eq_some] at hs
  rcases schedFork_cases hbase hs.1.2 hs.2 with
    ⟨-, hq⟩ | ⟨z, content, i, -, hi, hfree, hlow, -, -, rfl⟩
  · refine .inl ⟨⟨?_, ?_⟩, ?_⟩
    · rw [hq.procs, hq.current]
      exact h.slot
    · rw [hq.procs]
      exact h.others
    · rw [State.returned, hq.trace]
      rfl
  · have hone : i = 1 := by
      have hne : i ≠ 0 := by
        intro hi0
        rw [hi0, h.slot] at hfree
        cases hfree
      have hle : ¬ 1 < i := fun hlt => hlow 1 hlt (h.others 1 (by omega) (by decide))
      omega
    subst hone
    refine .inr ⟨fun hsame => ?_, rfl⟩
    have hnew : (s.forked z content 1 newsp).procs 1 = some z := by simp [State.forked]
    rw [hsame, hfree] at hnew
    cases hnew

theorem State.Lone.step (h : s.Lone) (hsound : Sound s) {l : Label} (hok : ForksNobody s l)
    (hs : Sched.step s l = some s') : s'.Lone := by
  by_cases hfork : ∃ mem newsp, l = .fork mem newsp
  · obtain ⟨mem, newsp, rfl⟩ := hfork
    rcases h.fork hsound.base hs with ⟨hlone, -⟩ | ⟨hnew, -⟩
    · exact hlone
    · exact absurd (hok.2 mem newsp s' rfl hs) hnew
  · have hrun : moves.Run (onCalls fun a k => SparesSelf a k ∧ ∀ mem newsp, k ≠ .fork mem newsp)
        s s' := step_run hsound ⟨hok.1, fun mem newsp heq => hfork ⟨mem, newsp, heq⟩⟩ hs
    refine (hrun.invariant (I := fun a => Sound a ∧ a.Lone) ⟨hsound, h⟩ ?_).2
    intro a m b ha hok hm
    have hself : onCalls SparesSelf a m := fun k hk => (hok k hk).1
    exact ⟨ha.1.move hself hm,
      ha.2.move ha.1 hself (fun mem newsp heq => (hok _ heq).2 mem newsp rfl) hm⟩

/-- **The next `sched_fork` that succeeds returns 2**, whatever happens before it. -/
theorem State.Launched.nextFork (h : s.Launched) : s.NextForkReturns 2 := by
  intro t hrun mem newsp t' v hs hv hpos
  have hkept : Sound t ∧ t.Lone := by
    refine hrun.invariant (I := fun a => Sound a ∧ a.Lone) ⟨h.sound, h.established.lone⟩ ?_
    intro a l c ha hok hst
    exact ⟨ha.1.step hok.1 hst, ha.2.step ha.1 hok hst⟩
  rcases hkept.2.fork hkept.1.base hs with ⟨-, hfailed⟩ | ⟨-, htwo⟩
  · rw [hfailed] at hv
    obtain rfl := Option.some.inj hv
    omega
  · exact (Option.some.inj (htwo.symm.trans hv)).symm

end Next

/-! ### Starting up -/

theorem Startup.Going.launched (h : b.Going (some b.p)) (hcount : b.globals.procCount = 1) :
    b.globals.Launched := by
  have hcur : b.globals.cur = b.globals.heap b.p := by rw [State.cur, h.current]
  refine ⟨⟨⟨by rw [h.slot, h.current], h.others⟩, ?_, ?_, hcount⟩, ?_, ?_, ?_⟩
  · rw [hcur]
    exact h.recorded.pid
  · rw [hcur]
    exact h.recorded.ppid
  · rw [h.current]
    exact h.recorded.live
  · rw [hcur]
    rcases h.awake with hst | hst <;> simp [hst]
  · exact h.frames.imp_right And.left

/-- **What `sched_init` leaves**, in every run in which the block of the table contains null
pointers only, and no tick comes between the call of `signal` and the setting of `current`. -/
theorem init_establishes (h : startup.Reach Undisturbed b) : b.Correct := by
  have hcourse : b.OnCourse := by
    refine h.invariant (fun ha => ?_) fun _ ha hok hs => initStep_onCourse ha hok hs
    exact (Startup.onCourse_before ha.1).mpr ha.2.2.2.1
  have hlaunched : b.pc = .before .transfer → b.globals.Launched := by
    intro hpc
    obtain ⟨hgoing, hcount⟩ := (Startup.onCourse_before hpc).mp hcourse
    exact hgoing.launched hcount
  refine ⟨fun hpc => ?_, fun hpc => (hlaunched hpc).established, fun hpc => ?_,
    fun hpc => (hlaunched hpc).nextFork⟩
  · rw [Startup.OnCourse, hpc] at hcourse
    exact hcourse
  · obtain ⟨hgoing, -⟩ := (Startup.onCourse_before hpc).mp hcourse
    exact hgoing.current

/-- The program as it is loaded. -/
def loaded : Startup where
  pc := .before .mallocTable
  p := 0
  globals := { heap := fun _ => blank, live := fun _ => false, procs := fun _ => none,
               current := 0, procCount := 0, tickCount := 0, blocked := false, frames := [],
               mapped := [], trace := [] }

theorem loaded_init : startup.Init loaded := ⟨rfl, rfl, rfl, rfl, rfl, rfl⟩

/-- A run from there that comes to its end. -/
theorem loaded_reach (ok : Startup → InitLabel → Prop) (okb : Startup → InitLabel → Bool)
    (ls : List InitLabel) (p : Startup → Bool) (hok : ∀ l ∈ ls, ∀ b, okb b l = true → ok b l)
    (h : (System.exec initStep okb loaded ls).any p = true) :
    ∃ b, startup.Reach ok b ∧ p b = true :=
  System.reach_of_exec startup ok initStep okb id loaded_init ls p hok h

/-- The answers under which `sched_init` comes to its transfer to `init_fn`. -/
def answers (content : Nat → Option Ptr) (mem : Ptr × SchedProc) (newsp : Addr) :
    List InitLabel :=
  [.table (some content), .timer true, .plain, .plain, .proc (some mem), .plain, .plain,
    .area newsp, .plain, .plain, .plain, .plain]

/-- A check for the labels of a run. -/
def undisturbed (b : Startup) : InitLabel → Bool
  | .table (some content) => (List.range schedNproc).all fun i => (content i).isNone
  | .tick =>
      match b.pc with
      | .before next => !next.handled || next.hasCurrent
      | _ => true
  | _ => true

theorem Undisturbed.of_check (h : undisturbed b l = true) : Undisturbed b l := by
  constructor
  · intro content hl i hi
    subst hl
    exact Option.isNone_iff_eq_none.mp (List.all_eq_true.mp h i (List.mem_range.mpr hi))
  · intro hl next hpc hhandled
    subst hl
    simpa [undisturbed, hpc, hhandled] using h

/-- The initial process is interrupted by a tick before it is in the table. -/
theorem init_establishes_tick : ∃ b : Startup, b.pc = .before .transfer ∧
    b.globals.tickCount = 1 ∧ b.globals.Established ∧ b.globals.current = 100 := by
  have hrun : ∃ b, startup.Reach Undisturbed b ∧
      (b.pc = .before .transfer && b.globals.tickCount = 1 && b.p = 100) = true :=
    loaded_reach _ undisturbed
      ((answers (fun _ => none) (100, blank) 65536).insertIdx 10 .tick |>.insertIdx 11 .tickReturn)
      _ (fun _ _ _ => Undisturbed.of_check) (by decide +kernel)
  obtain ⟨b, hreach, hb⟩ := hrun
  simp only [Bool.and_eq_true, decide_eq_true_eq] at hb
  obtain ⟨⟨hpc, hcount⟩, hp⟩ := hb
  have hcorrect := init_establishes hreach
  exact ⟨b, hpc, hcount, hcorrect.globals hpc, (hcorrect.current hpc).trans hp⟩

/-- **Neither condition can be dropped.** In the first run, the block of the table contains an
address in slot 5, which is still there when `init_fn` is entered. In the second, a tick comes
right after the call of `signal`. -/
theorem init_not_establishes : (¬ ∀ b, startup.Reach NoEarlyTick b → b.Correct) ∧
    ¬ ∀ b, startup.Reach NullBlock b → b.Correct := by
  constructor
  · intro hall
    have hrun : ∃ b, startup.Reach NoEarlyTick b ∧
        (b.pc = .before .transfer && b.globals.procs 5 = some 7) = true :=
      loaded_reach _ (fun _ l => !l.isTick)
        (answers (fun i => if i = 5 then some 7 else none) (100, blank) 65536)
        _ (fun l _ b hl htick => by simp [htick, InitLabel.isTick] at hl) (by decide +kernel)
    obtain ⟨b, hreach, hb⟩ := hrun
    simp only [Bool.and_eq_true, decide_eq_true_eq] at hb
    have hnone := ((hall b hreach).globals hb.1).lone.others 5 (by simp [schedNproc]) (by decide)
    rw [hb.2] at hnone
    cases hnone
  · intro hall
    have hrun : ∃ b, startup.Reach NullBlock b ∧ decide (b.pc = .nullTick) = true :=
      loaded_reach _ (fun b l => l.isTick || undisturbed b l)
        [.table (some fun _ => none), .timer true, .plain, .tick]
        _ (fun l _ b hl content heq => by
          subst heq
          have hcheck : undisturbed b (.table (some content)) = true := hl
          exact (Undisturbed.of_check hcheck).1 content rfl) (by decide +kernel)
    obtain ⟨b, hreach, hb⟩ := hrun
    exact (hall b hreach).ticks (of_decide_eq_true hb)

/-- A statement that is not interrupted. -/
theorem exec_stmt (b' : Startup) {ls : List InitLabel} (hpc : b.pc = .before next)
    (hframes : b.globals.frames = [])
    (hcur : next.hasCurrent = true → b.globals.current = b.p) (hl : l.isTick = false)
    (hexec : execStmt b next l = some b') : System.exec initStep (fun _ _ => true) b (l :: ls) =
      System.exec initStep (fun _ _ => true) b' ls := by
  have hstep : initStep b l = some b' := by
    unfold initStep
    simp only [hpc, hframes]
    split
    · cases hl
    · cases hl
    · exact (if_pos ⟨trivial, hcur⟩).trans hexec
  rw [System.exec, if_pos rfl, hstep]
  rfl

section Untroubled
variable {p : Ptr} {g : State} {ls : List InitLabel}

/-- The statements down to the record of the initial process. -/
theorem exec_allocations (hframes : g.frames = []) (content : Nat → Option Ptr) (p' : Ptr)
    (record : SchedProc) :
    System.exec initStep (fun _ _ => true) ⟨.before .mallocTable, p, g⟩
        (.table (some content) :: .timer true :: .plain :: .plain ::
          .proc (some (p', record)) :: ls) =
      System.exec initStep (fun _ _ => true)
        ⟨.before .pid, p', { g with tickCount := 0, procs := content }.malloc p' record⟩ ls := by
  rw [exec_stmt _ rfl hframes (by simp [Stmt.hasCurrent]) rfl rfl,
    exec_stmt ⟨.before .signal, p, { g with tickCount := 0, procs := content }⟩
      rfl hframes (by simp [Stmt.hasCurrent]) rfl rfl,
    exec_stmt ⟨.before .sigfillset, p, { g with tickCount := 0, procs := content }⟩
      rfl hframes (by simp [Stmt.hasCurrent]) rfl rfl,
    exec_stmt ⟨.before .mallocProc, p, { g with tickCount := 0, procs := content }⟩
      rfl hframes (by simp [Stmt.hasCurrent]) rfl rfl,
    exec_stmt _ rfl hframes (by simp [Stmt.hasCurrent]) rfl rfl]

/-- The statements that fill the record. -/
theorem exec_record (hframes : g.frames = []) (hpid : ¬ nextpid g < 0) {newsp : Addr}
    (hmap : newsp ≠ mapFailed) :
    System.exec initStep (fun _ _ => true) ⟨.before .pid, p, g⟩
        (.plain :: .plain :: .area newsp :: .plain :: ls) =
      System.exec initStep (fun _ _ => true)
        ⟨.before .current, p,
          { g.modify p fun r => { r with
              pid := nextpid g, ppid := nextpid g, stack := newsp, state := .running,
              priority := 20, niceval := 0, totalTicks := 0 } with
            mapped := newsp :: g.mapped }⟩ ls := by
  rw [exec_stmt ⟨.before .ppid, p, g.modify p fun r => { r with pid := nextpid g }⟩
      rfl hframes (by simp [Stmt.hasCurrent]) rfl (by simp [execStmt, hpid]),
    exec_stmt ⟨.before .stack, p, g.modify p fun r => { r with
        pid := nextpid g, ppid := nextpid g }⟩
      rfl hframes (by simp [Stmt.hasCurrent]) rfl (by simp [execStmt, State.modify]),
    exec_stmt ⟨.before .fields, p, { g.modify p fun r => { r with
        pid := nextpid g, ppid := nextpid g, stack := newsp } with mapped := newsp :: g.mapped }⟩
      rfl hframes (by simp [Stmt.hasCurrent]) rfl (by simp [execStmt, State.modify, hmap]),
    exec_stmt _ rfl hframes (by simp [Stmt.hasCurrent]) rfl (by simp [execStmt, State.modify]; rfl)]
  rfl

/-- The statements that set the globals. -/
theorem exec_globals (hframes : g.frames = []) :
    System.exec initStep (fun _ _ => true) ⟨.before .current, p, g⟩ [.plain, .plain, .plain] =
      some ⟨.before .transfer, p, { g with
        current := p, procs := Function.update g.procs 0 (some p), procCount := 1 }⟩ := by
  rw [exec_stmt ⟨.before .slot, p, { g with current := p }⟩
      rfl hframes (by simp [Stmt.hasCurrent]) rfl rfl,
    exec_stmt ⟨.before .procCount, p, { g with
      current := p, procs := Function.update g.procs 0 (some p) }⟩
      rfl hframes (fun _ => rfl) rfl rfl,
    exec_stmt _ rfl hframes (fun _ => rfl) rfl rfl]
  rfl

/-- **Without ticks, `sched_init` does what it does as one step.** -/
theorem init_schedInit (hinit : startup.Init b) {content : Nat → Option Ptr} {record : SchedProc}
    {newsp : Addr} {s : State}
    (hs : schedInit b.globals.heap b.globals.live content p record newsp = some s) :
    System.exec initStep (fun _ _ => true) b (answers content (p, record) newsp) =
      some { pc := .before .transfer, p := p, globals := s } := by
  obtain ⟨pc, p₀, heap, live, procs, current, procCount, tickCount, blocked, frames, mapped,
    trace⟩ := b
  obtain ⟨rfl, hglobals⟩ := hinit
  dsimp only at hglobals hs
  obtain ⟨rfl, rfl, rfl, rfl, rfl⟩ := hglobals
  unfold schedInit at hs
  simp only [Option.ite_none_left_eq_some, Option.some.injEq, not_or] at hs
  obtain ⟨⟨hpid, -, hmap⟩, rfl⟩ := hs
  unfold answers
  refine (exec_allocations rfl content p record).trans ?_
  refine (exec_record rfl ?_ hmap).trans ?_
  · exact hpid
  · exact exec_globals rfl

end Untroubled

end Ece357.Sched
