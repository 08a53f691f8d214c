import Mathlib.Logic.Function.Basic
import Ece357.Machine.Ghost

/-!
# Ece357.Semaphore.Model

The **shared-memory semaphores** of `ps7/sem.c`, at the granularity of single
memory accesses and system calls, for any number of processes.

Each process runs `semTry`, `semWait` and `semInc` in any order. `instr` is the
code: one constructor of `Pc` stands before each exchange, load, store and
system call of the three functions, and `instr` says what that one access does
to the shared struct and to the process. A step of the whole system lets one
process execute one instruction, or start a call, or delivers a pending
`SIGUSR1` to a process that does not block it.

The registers a C compiler keeps between a load and the following store are
arguments of the control points (`tryStore v`, `incStore v`), and so is the
loop index of the scan in `semInc`. The counters `incs` and `decs` of `State`
are ghosts: nothing in the code reads them.
-/

namespace Ece357.Semaphore

open Ece357.Machine

/-! ### Signals and masks -/

/-- Signal numbers. -/
abbrev Signal := Fin 65

def SIGINT : Signal := 2
def SIGKILL : Signal := 9
def SIGUSR1 : Signal := 10
def SIGTERM : Signal := 15
def SIGSTOP : Signal := 19

/-- A `sigset_t`, as its membership test. -/
abbrev SigSet := Signal → Bool

/-- The signals that the C library keeps to itself, `SIGCANCEL` and `SIGSETXID`. -/
def internal (n : Signal) : Bool := n = 32 || n = 33

def sigfillset : SigSet := fun n => !internal n

def sigdelset (m : SigSet) (n : Signal) : SigSet := Function.update m n false

/-- The signals the kernel never lets a process block. -/
def unblockable (n : Signal) : Bool := n = SIGKILL || n = SIGSTOP

/-- The signals that the kernel lets a mask block. Signal numbers start at 1. -/
def blockable (n : Signal) : Bool := n ≠ 0 && !unblockable n

/-- `sigprocmask(SIG_BLOCK, &set, _)`. -/
def sigBlock (mask set : SigSet) : SigSet := fun n => mask n || (set n && !unblockable n)

/-- `sigprocmask(SIG_UNBLOCK, &set, NULL)`. -/
def sigUnblock (mask set : SigSet) : SigSet := fun n => mask n && !set n

/-- The mask `sigsuspend(&set)` installs for the time of the sleep. -/
def suspendMask (set : SigSet) : SigSet := fun n => set n && !unblockable n

/-- `new_mask` of `semWait`: every signal that a program can name, but `SIGINT` and `SIGUSR1`. -/
def newMask : SigSet := sigdelset (sigdelset sigfillset SIGINT) SIGUSR1

/-! ### The shared struct -/

/-- `N_PROC` of `sem.h`. -/
def nProc : Nat := 64

/-- `struct sem`: the lock byte, the count, and the pids of the registered
waiters (0 for a slot nobody waits in). -/
structure Sem where
  lock : Int
  count : Int
  procs : Nat → Int

/-- `sem_init`, on a struct with any previous content. -/
def semInit (s : Sem) (count : Int) : Sem where
  count := count
  lock := 0
  procs i := if i < nProc then 0 else s.procs i

/-- The exchange of `tas64.S`: the old lock byte, and the struct with the lock taken. -/
def tas (s : Sem) : Int × Sem := (s.lock, { s with lock := 1 })

/-! ### Processes -/

/-- The three operations a process can call. -/
inductive Op
  | semTry
  | semWait
  | semInc
  deriving DecidableEq, Repr

/-- Control points; each stands *before* the access it is named after. -/
inductive Pc
  /-- Outside the three functions. -/
  | idle
  | tryTas
  /-- The load of `if (s->count)`. -/
  | tryTest
  | tryLoad
  | tryStore (v : Int)
  /-- `s->lock = 0`; the ghost says whether this call decremented the count. -/
  | tryUnlock (took : Bool)
  /-- The load of `return (s->count + 1 > 0)`. -/
  | tryRet (took : Bool)
  /-- `sem_try` has computed its result and returns it. -/
  | tryDone (took : Bool) (ret : Int)
  | waitRegister
  | waitTas
  /-- `signal(SIGUSR1, usr1_handler)`. -/
  | waitSignal
  | waitBlock
  /-- The load of `if (s->count > 0)`. -/
  | waitTest
  | waitClear
  | waitLoad
  | waitStore (v : Int)
  /-- `s->lock = 0; return`. -/
  | waitUnlock
  /-- `s->lock = 0` of a round that found the count at zero. -/
  | waitRelease
  | waitSuspend
  /-- Asleep inside `sigsuspend`. -/
  | waitAsleep
  | waitUnblock
  | incTas
  | incLoad
  | incStore (v : Int)
  /-- The load of `if (s->procs[i])`, or the end of the loop. -/
  | incScan (i : Nat)
  /-- The load of the argument of `kill(s->procs[i], SIGUSR1)`. -/
  | incKill (i : Nat)
  /-- The call of `kill` with the pid just loaded. -/
  | incSend (i : Nat) (pid : Int)
  | incUnlock
  deriving DecidableEq, Repr

/-- Where a call starts. -/
def Op.entry : Op → Pc
  | .semTry => .tryTas
  | .semWait => .waitRegister
  | .semInc => .incTas

/-- What the kernel keeps for one process, and where the process stands. -/
structure Local where
  pc : Pc
  /-- The signal mask of the process. -/
  mask : SigSet
  /-- The mask `sigsuspend` will put back. -/
  saved : SigSet
  /-- A `SIGUSR1` has been sent and not yet delivered. -/
  usr1Pending : Bool
  /-- `signal(SIGUSR1, usr1_handler)` has been executed. -/
  usr1Handler : Bool
  alive : Bool

/-- The numbers the code reads for a process: `my_procnum`, distinct and inside
the array, and `getpid()`, distinct and positive. -/
structure Config (P : Type) where
  myProcnum : P → Nat
  pid : P → Int
  myProcnum_lt : ∀ p, myProcnum p < nProc
  myProcnum_inj : ∀ {p q}, myProcnum p = myProcnum q → p = q
  pid_pos : ∀ p, 0 < pid p
  pid_inj : ∀ {p q}, pid p = pid q → p = q

/-! ### Instructions -/

/-- What an instruction does beyond the struct and the process itself. -/
inductive Effect
  | silent
  /-- Ghost: an increment of the count has been stored. -/
  | incremented
  /-- Ghost: a decrement of the count has been stored. -/
  | decremented
  /-- `kill(pid, SIGUSR1)`. -/
  | kill (pid : Int)
  deriving DecidableEq, Repr

/-- The result of one instruction. -/
structure Outcome where
  sem : Sem
  loc : Local
  fx : Effect

variable {P : Type}

/-- `while (tas(&s->lock)) ;` — one turn: leave the loop for `next` when the old
byte was 0. -/
def spin (s : Sem) (l : Local) (next : Pc) : Outcome :=
  ⟨(tas s).2, if (tas s).1 ≠ 0 then l else { l with pc := next }, .silent⟩

@[simp] theorem spin_sem (s : Sem) (l : Local) (next : Pc) :
    (spin s l next).sem = { s with lock := 1 } := rfl

@[simp] theorem spin_fx (s : Sem) (l : Local) (next : Pc) : (spin s l next).fx = .silent := rfl

theorem spin_pc (s : Sem) (l : Local) (next : Pc) :
    (spin s l next).loc.pc = if s.lock = 0 then next else l.pc := by
  by_cases hs : s.lock = 0 <;> simp [spin, tas, hs]

/-- One instruction of process `p`, as the code at its control point says. -/
def instr (c : Config P) (p : P) (s : Sem) (l : Local) : Option Outcome :=
  match l.pc with
  | .idle => none
  -- sem_try
  | .tryTas => some (spin s l .tryTest)
  | .tryTest =>
      some ⟨s, { l with pc := if s.count ≠ 0 then .tryLoad else .tryUnlock false }, .silent⟩
  | .tryLoad => some ⟨s, { l with pc := .tryStore s.count }, .silent⟩
  | .tryStore v =>
      some ⟨{ s with count := v - 1 }, { l with pc := .tryUnlock true }, .decremented⟩
  | .tryUnlock took => some ⟨{ s with lock := 0 }, { l with pc := .tryRet took }, .silent⟩
  | .tryRet took =>
      some ⟨s, { l with pc := .tryDone took (if s.count + 1 > 0 then 1 else 0) }, .silent⟩
  | .tryDone _ _ => some ⟨s, { l with pc := .idle }, .silent⟩
  -- sem_wait
  | .waitRegister =>
      some ⟨{ s with procs := Function.update s.procs (c.myProcnum p) (c.pid p) },
        { l with pc := .waitTas }, .silent⟩
  | .waitTas => some (spin s l .waitSignal)
  | .waitSignal => some ⟨s, { l with pc := .waitBlock, usr1Handler := true }, .silent⟩
  | .waitBlock => some ⟨s, { l with pc := .waitTest, mask := sigBlock l.mask newMask }, .silent⟩
  | .waitTest =>
      some ⟨s, { l with pc := if s.count > 0 then .waitClear else .waitRelease }, .silent⟩
  | .waitClear =>
      some ⟨{ s with procs := Function.update s.procs (c.myProcnum p) 0 },
        { l with pc := .waitLoad }, .silent⟩
  | .waitLoad => some ⟨s, { l with pc := .waitStore s.count }, .silent⟩
  | .waitStore v =>
      some ⟨{ s with count := v - 1 }, { l with pc := .waitUnlock }, .decremented⟩
  | .waitUnlock => some ⟨{ s with lock := 0 }, { l with pc := .idle }, .silent⟩
  | .waitRelease => some ⟨{ s with lock := 0 }, { l with pc := .waitSuspend }, .silent⟩
  | .waitSuspend =>
      some ⟨s, { l with pc := .waitAsleep, saved := l.mask, mask := suspendMask newMask },
        .silent⟩
  -- Only a delivered signal ends the sleep (`Local.deliver`).
  | .waitAsleep => none
  | .waitUnblock =>
      some ⟨s, { l with pc := .waitTas, mask := sigUnblock l.mask newMask }, .silent⟩
  -- sem_inc
  | .incTas => some (spin s l .incLoad)
  | .incLoad => some ⟨s, { l with pc := .incStore s.count }, .silent⟩
  | .incStore v =>
      some ⟨{ s with count := v + 1 }, { l with pc := .incScan 0 }, .incremented⟩
  | .incScan i =>
      some ⟨s, { l with pc :=
        if i < nProc then (if s.procs i ≠ 0 then .incKill i else .incScan (i + 1))
        else .incUnlock }, .silent⟩
  | .incKill i => some ⟨s, { l with pc := .incSend i (s.procs i) }, .silent⟩
  | .incSend i pid => some ⟨s, { l with pc := .incScan (i + 1) }, .kill pid⟩
  | .incUnlock => some ⟨{ s with lock := 0 }, { l with pc := .idle }, .silent⟩

/-- A signal sent by `kill` becomes pending. -/
def Local.receive (l : Local) (hit : Bool) : Local :=
  { l with usr1Pending := l.usr1Pending || hit }

/-- Delivery of a pending, unblocked `SIGUSR1`: the (empty) handler runs and ends
a `sigsuspend`, which puts the old mask back; without a handler the default
action terminates the process. -/
def Local.deliver (l : Local) : Local :=
  if l.usr1Handler then
    if l.pc = .waitAsleep then
      { l with usr1Pending := false, mask := l.saved, pc := .waitUnblock }
    else { l with usr1Pending := false }
  else { l with usr1Pending := false, alive := false }

/-! ### The system -/

/-- Shared struct, all processes, and the two ghost counters. -/
structure State (P : Type) where
  sem : Sem
  loc : P → Local
  /-- Ghost: completed increments of the count. -/
  incs : Nat
  /-- Ghost: completed decrements of the count. -/
  decs : Nat

/-- Does `kill` with this effect reach the process with this pid? Pid 0 stands
for the whole process group. -/
def Effect.hits (fx : Effect) (pid : Int) : Bool :=
  match fx with
  | .kill v => v = pid || v = 0
  | _ => false

variable [DecidableEq P]

/-- Install the outcome of an instruction of `p`. -/
def State.install (c : Config P) (s : State P) (p : P) (o : Outcome) : State P where
  sem := o.sem
  loc q := (Function.update s.loc p o.loc q).receive (o.fx.hits (c.pid q))
  incs := if o.fx = .incremented then s.incs + 1 else s.incs
  decs := if o.fx = .decremented then s.decs + 1 else s.decs

/-- Who does what in one step. -/
inductive Label (P : Type)
  /-- A process outside the three functions calls one of them. -/
  | call (p : P) (op : Op)
  /-- A process executes its next instruction. -/
  | exec (p : P)
  /-- A pending `SIGUSR1` is delivered to a process. -/
  | deliver (p : P)

/-- One step; `none` when it cannot happen. -/
def step (c : Config P) (s : State P) : Label P → Option (State P)
  | .call p op =>
      if (s.loc p).alive ∧ (s.loc p).pc = .idle then
        some { s with loc := Function.update s.loc p { s.loc p with pc := op.entry } }
      else none
  | .exec p =>
      if (s.loc p).alive then (instr c p s.sem (s.loc p)).map (s.install c p) else none
  | .deliver p =>
      if (s.loc p).alive ∧ (s.loc p).usr1Pending ∧ (s.loc p).mask SIGUSR1 = false then
        some { s with loc := Function.update s.loc p (s.loc p).deliver }
      else none

/-- A start state: `sem_init` has run with the given count, every process is
outside the operations and nothing is pending. Masks and handlers are free. -/
structure Initial (count : Int) (s : State P) : Prop where
  sem : ∃ m, s.sem = semInit m count
  idle : ∀ p, (s.loc p).pc = .idle
  alive : ∀ p, (s.loc p).alive = true
  noPending : ∀ p, (s.loc p).usr1Pending = false
  incs : s.incs = 0
  decs : s.decs = 0

/-- Every process has executed `signal(SIGUSR1, usr1_handler)`, or none has. -/
def Handlers (installed : Bool) (s : State P) : Prop :=
  ∀ p, (s.loc p).usr1Handler = installed

/-- The semaphore machine, started with `count` and with `extra` true of the
start state. -/
def system (c : Config P) (count : Int) (extra : State P → Prop) : System (State P) (Label P) :=
  .ofFun (fun s => Initial count s ∧ extra s) (step c)

/-! ### A concrete pair -/

/-- Two processes, with `my_procnum` 0 and 1 and pids 100 and 101. -/
def pair : Config Bool where
  myProcnum p := if p then 1 else 0
  pid p := if p then 101 else 100
  myProcnum_lt := by decide
  myProcnum_inj := by decide
  pid_pos := by decide
  pid_inj := by decide

/-- Two processes about to start, nothing blocked, with or without the handler. -/
def pairStart (count : Int) (handler : Bool) : State Bool where
  sem := semInit ⟨0, 0, fun _ => 0⟩ count
  loc _ := ⟨.idle, fun _ => false, fun _ => false, false, handler, true⟩
  incs := 0
  decs := 0

theorem pairStart_initial (count : Int) (handler : Bool) :
    Initial count (pairStart count handler) :=
  ⟨⟨_, rfl⟩, fun _ => rfl, fun _ => rfl, fun _ => rfl, rfl, rfl⟩

/-- Execute a list of labels of the pair, checking a step condition on the way. -/
theorem pair_reach (count : Int) (handler : Bool) (extra : State Bool → Prop)
    (ok : State Bool → Label Bool → Prop) [∀ s l, Decidable (ok s l)]
    (hextra : extra (pairStart count handler)) (ls : List (Label Bool)) (p : State Bool → Prop)
    [DecidablePred p]
    (h : (System.exec (step pair) (fun s l => decide (ok s l)) (pairStart count handler) ls).any
      (fun s => decide (p s)) = true) :
    ∃ s, (system pair count extra).Reach ok s ∧ p s := by
  obtain ⟨s, hreach, hs⟩ := System.reach_of_exec (system pair count extra) ok (step pair)
    (fun s l => decide (ok s l)) id ⟨pairStart_initial count handler, hextra⟩ ls
    (fun s => decide (p s)) (fun _ _ _ => of_decide_eq_true) h
  exact ⟨s, hreach, of_decide_eq_true hs⟩

/-- The same with an observer. -/
theorem pair_watch {η : Type} (count : Int) (handler : Bool) (first : State Bool → η)
    (next : State Bool → State Bool → η → η) (ok : State Bool → Label Bool → Prop)
    [∀ s l, Decidable (ok s l)] (ls : List (Label Bool)) (p : State Bool × η → Prop)
    [DecidablePred p]
    (h : (System.exec (System.watch (step pair) next) (fun x l => decide (ok x.1 l))
      (pairStart count handler, first (pairStart count handler)) ls).any
      (fun x => decide (p x)) = true) :
    ∃ x, ((system pair count fun _ => True).observed first next).Reach (System.beside ok) x ∧
      p x := by
  obtain ⟨x, hreach, hx⟩ := System.reach_of_watch (fun s => Initial count s ∧ True) (step pair)
    first next (fun s l => decide (ok s l)) ⟨pairStart_initial count handler, trivial⟩ ls
    (fun x => decide (p x)) (fun _ _ _ => of_decide_eq_true) h
  exact ⟨x, hreach, of_decide_eq_true hx⟩

end Ece357.Semaphore
