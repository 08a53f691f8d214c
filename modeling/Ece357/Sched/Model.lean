import Mathlib.Logic.Function.Basic
import Ece357.Machine.CData
import Ece357.Machine.Run
import Ece357.Machine.Scan
import Ece357.ProcTable.Basic

/-!
# Ece357.Sched.Model

The **simulated-task scheduler** of `ps9/sched.c`, function by function.

**Memory.** Records live in a heap of addresses; `malloc` hands out any address
not in use, with arbitrary content, and `free` leaves arbitrary content behind.
The process table is an array of addresses, `current` is an address.

**Control.** A critical section (all signals blocked) runs without interruption,
so it is one step. Between critical sections the running task stands at a point
where signals may be unblocked; these points are the `Frame`s, and a task's call
stack is the list of those frames it is inside, innermost first. The empty list
is the task's own code. A timer tick is a step of its own, possible whenever
signals are unblocked; it pushes the frame of the handler on whatever stack it
interrupts. The return of `sched_fork` and of `sched_wait` is taken together with
the `SIG_UNBLOCK` before it: nothing but the task's own registers is touched
between the two.

**Contexts.** `savectx` records which of its two call sites it was executed at
and the frames under it; `restorectx` continues there, with the frames saved.

The `trace` is a ghost: the events of the run so far, newest first. Nothing in the
code reads it. Diagnostic output is left out.
-/

namespace Ece357.Sched

open Ece357.Machine Ece357.ProcTable

/-! ### Data -/

/-- The address of a `struct sched_proc`. -/
abbrev Ptr := Nat

/-- A 64-bit address of a stack area. -/
abbrev Addr := Nat

/-- `SCHED_NPROC`. -/
@[irreducible] def schedNproc : Nat := 1023

/-- `MAP_FAILED`, that is `(void *)-1`. -/
def mapFailed : Addr := 2 ^ 64 - 1

/-- Where a task can stand inside the scheduler, outside its critical sections. -/
inductive Frame
  /-- `sched_wait`, between `SIG_UNBLOCK` and the call of `sched_switch`. -/
  | waitSwitch
  /-- `sched_wait`, between the return of `sched_switch` and `SIG_BLOCK`. -/
  | waitBlock
  /-- `sched_exit`, between `SIG_UNBLOCK` and the call of `sched_switch`. -/
  | exitSwitch
  /-- `sched_exit`, after the return of `sched_switch`. -/
  | exitReturn
  /-- `sched_tick`, after the return of `sched_switch`. -/
  | tickReturn
  deriving DecidableEq, Repr

/-- The two call sites of `savectx`. -/
inductive Site
  | fork
  | switch
  deriving DecidableEq, Repr

/-- `struct savectx`: the saved program counter, and the call stack the saved
stack and frame pointers stand for. -/
structure Savectx where
  pc : Site
  frames : List Frame
  deriving DecidableEq, Repr

/-- `struct sched_proc`. -/
structure SchedProc where
  pid : Int
  ppid : Int
  state : Status
  priority : Int
  niceval : Int
  exitCode : Int
  totalTicks : Int
  stack : Addr
  ctx : Savectx
  deriving DecidableEq, Repr

/-- What happened, for the ghost trace. Tasks are named by their records. -/
inductive Event
  /-- A record was put into the table by a `sched_fork` of `parent`. -/
  | forked (parent child : Ptr)
  /-- A call of `sched_fork` returned `ret` in `task`; `newProc` is the value of
  its local variable `new_proc`, if it got that far. -/
  | forkReturned (task : Ptr) (newProc : Option Ptr) (ret : Int)
  | exited (task : Ptr) (code : Int)
  /-- A record was taken out of the table by a `sched_wait` of `parent`. -/
  | reaped (parent child : Ptr)
  /-- A call of `sched_wait` returned `ret`, having stored `exitCode`, if anything. -/
  | waitReturned (task : Ptr) (ret : Int) (exitCode : Option Int)
  | exitReturned (task : Ptr)
  /-- `savectx` filled the `ctx` of `owner`, executed by task `by_`. -/
  | saved (by_ owner : Ptr) (ctx : Savectx)
  /-- `restorectx` was executed by task `by_` on the `ctx` of `owner`. -/
  | restored (by_ owner : Ptr) (ctx : Savectx)
  deriving DecidableEq, Repr

/-- The globals of `sched.c`, the heap, and the state of the one running task. -/
structure State where
  heap : Ptr → SchedProc
  /-- Is there an allocated record at this address? -/
  live : Ptr → Bool
  /-- `running->procs`; only slots below `SCHED_NPROC` exist. -/
  procs : Nat → Option Ptr
  current : Ptr
  procCount : Int
  tickCount : Int
  /-- Are all signals blocked? (The code blocks and unblocks them all together.) -/
  blocked : Bool
  /-- The call stack of `current` inside the scheduler. -/
  frames : List Frame
  /-- The stack areas mapped so far. -/
  mapped : List Addr
  /-- Ghost: the events so far, newest first. -/
  trace : List Event

namespace State

/-- `*current`. -/
def cur (s : State) : SchedProc := s.heap s.current

/-- Store into the record at `p`. -/
def modify (s : State) (p : Ptr) (f : SchedProc → SchedProc) : State :=
  { s with heap := Function.update s.heap p (f (s.heap p)) }

def log (s : State) (e : Event) : State := { s with trace := e :: s.trace }

/-- `sigprocmask(SIG_BLOCK, &block_mask, NULL)`. -/
def sigBlock (s : State) : State := { s with blocked := true }

/-- `sigprocmask(SIG_UNBLOCK, &block_mask, NULL)`. -/
def sigUnblock (s : State) : State := { s with blocked := false }

def malloc (s : State) (p : Ptr) (content : SchedProc) : State :=
  { s with heap := Function.update s.heap p content, live := Function.update s.live p true }

/-- `free(p)`; `content` is what is found at the address afterwards. -/
def free (s : State) (p : Ptr) (content : SchedProc) : State :=
  { s with heap := Function.update s.heap p content, live := Function.update s.live p false }

/-- `running->procs[i] && <test on *running->procs[i]>`, with the pointer found. -/
def slot (s : State) (test : SchedProc → Bool) (i : Nat) : Option (Nat × Ptr) :=
  match s.procs i with
  | some p => if test (s.heap p) then some (i, p) else none
  | none => none

/-- The loop `for (i = 0; i < SCHED_NPROC; ++i)` that stops at the first record
passing the test. -/
def findProc (s : State) (test : SchedProc → Bool) : Option (Nat × Ptr) :=
  firstSlot schedNproc (s.slot test)

end State

open State

/-! ### Context switching -/

/-- `savectx(&owner->ctx)` executed at `site`, on its first return. -/
def savectx (s : State) (owner : Ptr) (site : Site) : State :=
  (s.modify owner fun r => { r with ctx := ⟨site, s.frames⟩ }).log
    (.saved s.current owner ⟨site, s.frames⟩)

/-- `restorectx(&(current->ctx), 1)`, executed by the task `by_`: control continues
after the `savectx` that filled the context. In `sched_fork` that is the child's
`returnval = 0` and return; in `sched_switch` it is the return to the caller the
saved stack holds. Both unblock all signals first. -/
def restorectx (s : State) (by_ : Ptr) : State :=
  let ctx := s.cur.ctx
  let s := (s.log (.restored by_ s.current ctx)).sigUnblock
  match ctx.pc with
  | .fork => { s with frames := ctx.frames }.log (.forkReturned s.current (some s.current) 0)
  | .switch => { s with frames := ctx.frames }

/-! ### `nextpid` and `sched_fork` -/

/-- The lowest pid whose slot is free, or -1. -/
def nextpid (s : State) : Int :=
  match firstSlot schedNproc fun i => if s.procs i = none then some i else none with
  | some i => i + 1
  | none => -1

/-- `sched_fork`, with the answers of `malloc` (an address and what it contains, or
NULL) and of `mmap`. `none` is the fault of the `memcpy` to an area that could not
be mapped: the test `< 0` on a pointer is an unsigned comparison. -/
def schedFork (mem : Option (Ptr × SchedProc)) (newsp : Addr) (s : State) : Option State :=
  let s := s.sigBlock
  let parent := s.current
  match mem with
  | none => some (s.log (.forkReturned s.current none (-1)))
  | some (newProc, content) =>
      let s := s.malloc newProc content
      let pid := nextpid s
      if pid < 0 then
        some ((s.free newProc content).log (.forkReturned s.current none (-1)))
      else
        let s := s.modify newProc fun r =>
          { r with pid := pid, ppid := (s.heap parent).pid, state := .ready, priority := 20,
                   niceval := 0, totalTicks := (s.heap parent).totalTicks }
        if newsp < 0 then
          some ((s.free newProc content).log (.forkReturned s.current none (-1)))
        else if newsp = mapFailed then none
        else
          let s := { s.modify newProc fun r => { r with stack := newsp } with
                      mapped := newsp :: s.mapped
                      procs := Function.update s.procs (pid - 1).toNat (some newProc)
                      procCount := s.procCount + 1 }
          let s := savectx (s.log (.forked parent newProc)) newProc .fork
          some (s.sigUnblock.log (.forkReturned s.current (some newProc) pid))

/-! ### `sched_exit` -/

/-- `sched_exit`, up to its switch to a sleeping parent or its `SIG_UNBLOCK`. -/
def schedExit (code : Int) (s : State) : State :=
  let s := s.sigBlock
  let exiting := s.current
  let s := { s with procCount := s.procCount - 1 }
  let s := (s.modify s.current fun r => { r with state := .zombie, exitCode := code }).log
    (.exited s.current code)
  match s.findProc fun q => q.pid = s.cur.ppid && q.state = .sleeping with
  | some (_, q) =>
      let s := { s.modify q fun r => { r with state := .running } with current := q }
      restorectx s exiting
  | none => { s.sigUnblock with frames := .exitSwitch :: s.frames }

/-! ### `sched_wait` -/

/-- One round of the loop of `sched_wait`, signals blocked: reap a zombie child and
return, or go to sleep and unblock. `freed` says what `free` leaves at an address,
given what was there; the exit code is read from the freed record. -/
def waitRound (freed : SchedProc → SchedProc) (s : State) : State :=
  match s.findProc fun q => q.ppid = s.cur.pid && q.state = .zombie with
  | some (i, zombieChild) =>
      let s := s.free zombieChild (freed (s.heap zombieChild))
      let s := { s with procs := Function.update s.procs i none }
      let s := s.log (.reaped s.current zombieChild)
      let exitCode := (s.heap zombieChild).exitCode
      s.sigUnblock.log (.waitReturned s.current 0 (some exitCode))
  | none =>
      let s := s.modify s.current fun r => { r with state := .sleeping }
      { s.sigUnblock with frames := .waitSwitch :: s.frames }

/-- `sched_wait`, up to the end of its first round. -/
def schedWait (freed : SchedProc → SchedProc) (s : State) : State :=
  let s := s.sigBlock
  match s.findProc fun q => q.ppid = s.cur.pid with
  | none => s.log (.waitReturned s.current (-1) none)
  | some _ => waitRound freed s

/-! ### `sched_nice` -/

/-- The clamp of `sched_nice`. -/
def clampNice (niceval : Int) : Int :=
  if niceval > 19 then 19 else if niceval < -20 then -20 else niceval

def schedNice (niceval : Int) (s : State) : State :=
  s.modify s.current fun r => { r with niceval := clampNice niceval }

/-! ### `sched_switch` and `sched_tick` -/

/-- The dynamic priority `sched_switch` computes from a record: a `long`, converted to `int`. -/
def dynPriority (r : SchedProc) : Int :=
  let temp := toInt (20 - r.niceval - Int.tdiv r.totalTicks (20 - r.niceval))
  if temp ≤ 0 then 1 else temp

/-- "Update all priorities". -/
def updatePriorities (s : State) : State :=
  { s with heap :=
      mapSlots schedNproc s.procs (fun r => { r with priority := dynPriority r }) s.heap }

/-- "Update the current state". -/
def updateCurrent (s : State) : State :=
  if s.cur.state ≠ .sleeping ∧ s.cur.state ≠ .zombie then
    s.modify s.current fun r => { r with state := .ready }
  else s

/-- "Select the READY task with the highest priority": its slot, if there is one. -/
def selectBest (s : State) : Option Nat :=
  (bestSlot schedNproc fun i => match s.procs i with
    | some p => if (s.heap p).state = .ready then some (s.heap p).priority else none
    | none => none).2

/-- "Current process goes on the wait queue and context is switched to new process". -/
def switchTo (bestProc : Ptr) (s : State) : State :=
  let leaving := s.current
  let s := savectx s s.current .switch
  let s := { s.modify bestProc fun r => { r with state := .running } with current := bestProc }
  restorectx s leaving

/-- `sched_switch`. The first two outcomes return with signals still blocked. -/
def schedSwitch (s : State) : State :=
  let s := updateCurrent (updatePriorities s.sigBlock)
  match (selectBest s).bind s.procs with
  | none => s
  | some bestProc =>
      if (s.heap bestProc).pid = s.cur.pid then
        s.modify s.current fun r => { r with state := .ready }
      else switchTo bestProc s

/-- `sched_tick`, entered from a point with signals unblocked: the kernel blocks
`SIGVTALRM` and pushes the frame it will return through. -/
def schedTick (s : State) : State :=
  let s := s.modify s.current fun r => { r with totalTicks := r.totalTicks + 1 }
  schedSwitch { s with tickCount := s.tickCount + 1, frames := .tickReturn :: s.frames }

/-! ### Starting up -/

/-- `sched_init`, on a heap and a table with the given contents, up to the entry of
`init_fn`: an address and content for the first record, and its stack area. -/
def schedInit (heap : Ptr → SchedProc) (live : Ptr → Bool) (table : Nat → Option Ptr)
    (p : Ptr) (content : SchedProc) (stack : Addr) : Option State :=
  let s : State :=
    { heap := heap, live := live, procs := table, current := p, procCount := 0, tickCount := 0,
      blocked := false, frames := [], mapped := [stack], trace := [] }
  let s := s.malloc p content
  let pid := nextpid s
  if pid < 0 ∨ stack < 0 ∨ stack = mapFailed then none
  else
    let s := s.modify p fun r =>
      { r with pid := pid, ppid := pid, stack := stack, state := .running, priority := 20,
               niceval := 0, totalTicks := 0 }
    some { s with procs := Function.update s.procs 0 (some p), procCount := 1 }

/-! ### The machine -/

/-- Who does what in one step, with the environment's answers. -/
inductive Label
  /-- The timer signal is delivered. -/
  | tick
  /-- The running task, in its own code, calls an operation. -/
  | fork (mem : Option (Ptr × SchedProc)) (newsp : Addr)
  | exit (code : Int)
  | wait (freed : SchedProc → SchedProc)
  | nice (niceval : Int)
  /-- The running task goes on inside the scheduler. -/
  | go (freed : SchedProc → SchedProc)

/-- Is the step a call made by task code? -/
def Label.isCall : Label → Bool
  | .tick | .go _ => false
  | _ => true

/-- Go on from the innermost frame. -/
def goStep (freed : SchedProc → SchedProc) (s : State) : Option State :=
  match s.frames with
  | [] => none
  | .waitSwitch :: fs => some (schedSwitch { s with frames := .waitBlock :: fs })
  | .waitBlock :: fs => some (waitRound freed { s.sigBlock with frames := fs })
  | .exitSwitch :: fs => some (schedSwitch { s with frames := .exitReturn :: fs })
  | .exitReturn :: fs => some ({ s with frames := fs }.log (.exitReturned s.current))
  -- Return from the handler: the mask of the interrupted point comes back.
  | .tickReturn :: fs => some { s.sigUnblock with frames := fs }

/-- `malloc` answers with an address not in use, `mmap` with an area not mapped. -/
def allocOk (s : State) (mem : Option (Ptr × SchedProc)) (newsp : Addr) : Bool :=
  (match mem with
    | some (p, _) => !s.live p
    | none => true) && !s.mapped.contains newsp

/-- One step; `none` when it cannot happen. -/
def step (s : State) : Label → Option State
  | .tick => if s.blocked then none else some (schedTick s)
  | .fork mem newsp =>
      if s.frames = [] ∧ allocOk s mem newsp then schedFork mem newsp s else none
  | .exit code => if s.frames = [] then some (schedExit code s) else none
  | .wait freed => if s.frames = [] then some (schedWait freed s) else none
  | .nice niceval => if s.frames = [] then some (schedNice niceval s) else none
  | .go freed => goStep freed s

/-- The states `sched_init` leaves on a zeroed table. -/
def Initial (s : State) : Prop :=
  ∃ heap live p content stack, schedInit heap live (fun _ => none) p content stack = some s

/-- The scheduler as a machine. -/
def sched : System State Label := .ofFun Initial step

/-- The discipline on callers: no task calls an operation after its own `sched_exit`. -/
def Disciplined (s : State) (l : Label) : Prop := l.isCall = true → s.cur.state ≠ .zombie

instance (s : State) (l : Label) : Decidable (Disciplined s l) :=
  inferInstanceAs (Decidable (_ → _))

end Ece357.Sched
