import Ece357.CatGrepMore.Copy
import Ece357.Machine.Descriptors
import Ece357.Machine.Run

/-!
# Ece357.CatGrepMore.Model

The **processes** of `ps4/main.c`: the original one and all that descend from it by `fork`,
each with its own variables and descriptors, interleaved in any order. A process executes the
code of `main` and `pipeFile` call by call until it ends or becomes another program by
`execvp`; a child whose `execvp` fails goes on in the code that was meant for its parent. An
exec'd program keeps its descriptors until it ends.

Processes are numbered as they are created, the original one first, and numbers are not used
again. The two ends of a pipe are named by the process that made it, the position of the file
it was made for, and which of the two pipes it is. A signal may end any process at any moment
(`kill`), and SIGINT is delivered to the code here at any moment (`interrupt`): with the
handler installed it jumps to the `setjmp` that has filled `int_jb`, if the call of `pipeFile`
that executed it has not returned, and behaves in no defined way otherwise.

What is printed on the way and the exit status that `wait3` delivers are left out. It is printed to
descriptor 2, which is taken to be no end of a pipe: where 2 and another one of the first three are
closed when the program starts, `pipe` may return it, and the messages go into the pipe.
-/

namespace Ece357.CatGrepMore

open Ece357.Machine

/-! ### Descriptors -/

/-- `pipe1fds` or `pipe2fds`. -/
inductive Pipe
  | one
  | two
  deriving DecidableEq, Repr

inductive Dir
  | read
  | write
  deriving DecidableEq, Repr

/-- What a descriptor refers to: something the program was started with, the input file at a
position, or an end of a pipe that `owner` made for the file at a position. -/
inductive Desc
  | external (n : Nat)
  | input (file : Nat)
  | pipe (owner file : Nat) (which : Pipe) (dir : Dir)
  deriving DecidableEq, Repr

def Desc.writable : Desc → Bool
  | .external _ => true
  | .input _ => false
  | .pipe _ _ _ dir => dir = .write

/-! ### Control points -/

/-- The arm of the first `switch` for the child. -/
inductive GrepPc
  | closeW1 | closeR2 | dupIn | dupOut | closeR1 | closeW2 | exec
  deriving DecidableEq, Repr

/-- The arm of the second `switch` for the child. -/
inductive PagerPc
  | closeW2 | dupIn | closeR1 | exec
  deriving DecidableEq, Repr

/-- The call a process stands before. -/
inductive Pc
  /-- `signal(SIGINT, int_handler)`. -/
  | install
  /-- The check of `argc`. -/
  | usage
  /-- The head of the loop over the files. -/
  | loop
  /-- `pipeFile` has been called. -/
  | enter
  | setjmp1 | pipe1 | pipe2 | setjmp2 | fork1
  | grep (g : GrepPc)
  | closeR1 | fork2
  | pager (q : PagerPc)
  | closeR2 | closeW2 | open
  | copy (c : Copying)
  | closeW1 | wait3
  /-- The end of `pipeFile`. -/
  | ret
  /-- Not in this code any more: `execvp` has succeeded. -/
  | program
  deriving DecidableEq, Repr

/-- Whether a call of `pipeFile` has not returned. -/
def Pc.inCall : Pc → Bool
  | .install | .usage | .loop | .program => false
  | _ => true

/-! ### Processes -/

/-- How a process ended. -/
inductive Ending
  | exited (status : Nat)
  /-- By the report after `setjmp`, with these statistics, and `exit(1)`. -/
  | interrupted (t : Totals)
  | killed
  deriving DecidableEq, Repr

inductive Life
  | running
  /-- `longjmp` to a call that has returned. -/
  | undefined
  | ended (e : Ending)
  /-- Reaped by its parent, or not created yet. -/
  | absent
  deriving DecidableEq, Repr

/-- The child arm through which a process came into being. -/
inductive Role
  | original
  | grep
  | pager
  deriving DecidableEq, Repr

structure Proc where
  pc : Pc
  life : Life
  parent : Option Nat
  role : Role
  fds : FdTable Desc
  i : Nat
  pipe1fds : Nat × Nat
  pipe2fds : Nat × Nat
  totals : Totals
  handler : Bool
  /-- The position of the file whose call of `pipeFile` has filled `int_jb`. -/
  int_jb : Option Nat

/-- What does not change: the arguments, the contents of the files, and the limit on
descriptors. -/
structure World where
  argv : List CStr
  content : CStr → List Byte
  openMax : Nat

def World.numInputFiles (w : World) : Nat := w.argv.length - 2

/-- `inputFiles[i]`. -/
def World.inputFile (w : World) (i : Nat) : CStr := w.argv.getD (i + 2) []

/-- The system's answers to a call: whether it succeeds, and for the calls that need more,
what the copy loop meets and which child `wait3` delivers. -/
structure Answer where
  ok : Bool
  io : Answers
  child : Nat

namespace Proc

variable (pr : Proc)

/-- The end of a process, which closes all its descriptors. -/
def die (e : Ending) : Proc := { pr with life := .ended e, fds := .empty }

/-- `close(fd)`, whose result nobody looks at. -/
def close (fd : Nat) (next : Pc) : Proc := { pr with fds := pr.fds.close fd, pc := next }

/-- Go on with the result of a call, or `exit(1)` if it fails. -/
def orExit {α : Type} (ok : Bool) (result : Option α) (next : α → Proc) : Proc :=
  match ok, result with
  | true, some r => next r
  | _, _ => pr.die (.exited 1)

def dup2 (w : World) (ok : Bool) (old new : Nat) (next : Pc) : Proc :=
  pr.orExit ok (pr.fds.dup2 w.openMax old new) fun T => { pr with fds := T, pc := next }

/-- `execvp`; after a failed one the process goes on after the `switch`. -/
def execvp (ok : Bool) (next : Pc) : Proc := { pr with pc := if ok then .program else next }

def grepArm (w : World) (ok : Bool) : GrepPc → Proc
  | .closeW1 => pr.close pr.pipe1fds.2 (.grep .closeR2)
  | .closeR2 => pr.close pr.pipe2fds.1 (.grep .dupIn)
  | .dupIn => pr.dup2 w ok pr.pipe1fds.1 0 (.grep .dupOut)
  | .dupOut => pr.dup2 w ok pr.pipe2fds.2 1 (.grep .closeR1)
  | .closeR1 => pr.close pr.pipe1fds.1 (.grep .closeW2)
  | .closeW2 => pr.close pr.pipe2fds.2 (.grep .exec)
  | .exec => pr.execvp ok .fork2

def pagerArm (w : World) (ok : Bool) : PagerPc → Proc
  | .closeW2 => pr.close pr.pipe2fds.2 (.pager .dupIn)
  | .dupIn => pr.dup2 w ok pr.pipe2fds.1 0 (.pager .closeR1)
  -- the read end of pipe 1, which the parent had closed before the `fork`
  | .closeR1 => pr.close pr.pipe1fds.1 (.pager .exec)
  | .exec => pr.execvp ok .ret

/-- The answers that a turn of the copy loop can get: a `write` fails if `pipe1fds[1]` is not
open for writing. -/
def answers (a : Answers) : Answers :=
  if (pr.fds pr.pipe1fds.2).any Desc.writable then a else { a with write := none, retry := none }

/-- One turn of the copy loop. The line about it on `stderr` does not go into the pipe. -/
def copy (a : Answers) (c : Copying) : Proc :=
  match copyTurn (pr.answers a) c with
  | .again c' wrstatus => { pr with pc := .copy c', totals := pr.totals.count wrstatus }
  | .eof => { pr with pc := .closeW1 }
  | .failed => pr.die (.exited 1)

/-- `pipe(pipe1fds)` in process `p`. -/
def openPipe1 (w : World) (p : Nat) (ok : Bool) : Proc :=
  pr.orExit ok (pr.fds.pipe w.openMax (.pipe p pr.i .one .read) (.pipe p pr.i .one .write))
    fun (a, b, T) => { pr with fds := T, pipe1fds := (a, b), pc := .pipe2 }

/-- `pipe(pipe2fds)` in process `p`. -/
def openPipe2 (w : World) (p : Nat) (ok : Bool) : Proc :=
  pr.orExit ok (pr.fds.pipe w.openMax (.pipe p pr.i .two .read) (.pipe p pr.i .two .write))
    fun (a, b, T) => { pr with fds := T, pipe2fds := (a, b), pc := .setjmp2 }

/-- `open(fileName, O_RDONLY, 0777)`. The descriptor is not closed again. -/
def openFile (w : World) (ok : Bool) : Proc :=
  pr.orExit ok (pr.fds.allocate w.openMax (.input pr.i))
    fun (_, T) => { pr with fds := T, pc := .copy ⟨w.content (w.inputFile pr.i), []⟩ }

/-- The `longjmp` of `int_handler`. -/
def interrupt : Proc :=
  if pr.handler = false then pr.die .killed
  else if pr.pc.inCall ∧ pr.int_jb = some pr.i then pr.die (.interrupted pr.totals)
  else { pr with life := .undefined }

end Proc

/-- What a process does next. -/
inductive Act
  | goes (pr : Proc)
  | forks (parent child : Proc)
  | waits
  /-- It runs another program. -/
  | elsewhere

/-- `fork` in process `p`, with `exit(1)` if it fails. -/
def Proc.fork (pr : Proc) (p : Nat) (ok : Bool) (parent child : Pc) (role : Role) : Act :=
  if ok then .forks { pr with pc := parent } { pr with pc := child, parent := some p, role := role }
  else .goes (pr.die (.exited 1))

/-- The next call of process `p`. -/
def Proc.act (w : World) (p : Nat) (a : Answer) (pr : Proc) : Act :=
  match pr.pc with
  | .install => .goes { pr with handler := true, pc := .usage }
  | .usage =>
      .goes (if w.argv.length < 3 then pr.die (.exited 1) else { pr with i := 0, pc := .loop })
  | .loop =>
      .goes (if pr.i < w.numInputFiles then { pr with pc := .enter } else pr.die (.exited 0))
  | .enter =>
      .goes { pr with
        totals := { pr.totals with totalFiles := toInt (pr.totals.totalFiles + 1) }
        pc := .setjmp1 }
  | .setjmp1 => .goes { pr with int_jb := some pr.i, pc := .pipe1 }
  | .pipe1 => .goes (pr.openPipe1 w p a.ok)
  | .pipe2 => .goes (pr.openPipe2 w p a.ok)
  | .setjmp2 => .goes { pr with int_jb := some pr.i, pc := .fork1 }
  | .fork1 => pr.fork p a.ok .closeR1 (.grep .closeW1) .grep
  | .grep g => .goes (pr.grepArm w a.ok g)
  | .closeR1 => .goes (pr.close pr.pipe1fds.1 .fork2)
  | .fork2 => pr.fork p a.ok .closeR2 (.pager .closeW2) .pager
  | .pager q => .goes (pr.pagerArm w a.ok q)
  | .closeR2 => .goes (pr.close pr.pipe2fds.1 .closeW2)
  | .closeW2 => .goes (pr.close pr.pipe2fds.2 .open)
  | .open => .goes (pr.openFile w a.ok)
  | .copy c => .goes (pr.copy a.io c)
  | .closeW1 => .goes (pr.close pr.pipe1fds.2 .wait3)
  | .wait3 => .waits
  | .ret => .goes { pr with i := pr.i + 1, pc := .loop }
  | .program => .elsewhere

/-! ### The system -/

/-- All processes; the next one gets number `count`. -/
structure State where
  procs : Nat → Proc
  count : Nat

def State.set (s : State) (p : Nat) (pr : Proc) : State :=
  { s with procs := Function.update s.procs p pr }

/-- The child gets the next number. -/
def State.spawn (s : State) (p : Nat) (parent child : Proc) : State where
  procs := Function.update (Function.update s.procs p parent) s.count child
  count := s.count + 1

/-- Whether `q` is a child of `p` that has not been reaped. -/
def State.IsChild (s : State) (p q : Nat) : Prop :=
  q < s.count ∧ (s.procs q).parent = some p ∧ (s.procs q).life ≠ .absent

instance (s : State) (p q : Nat) : Decidable (s.IsChild p q) :=
  inferInstanceAs (Decidable (_ ∧ _ ∧ _))

def Life.isEnded : Life → Bool
  | .ended _ => true
  | _ => false

/-- `wait3(&status, 0, &ru)` in `p`: it delivers a child that has ended, fails if there is no
child, and blocks otherwise. -/
def State.wait3 (s : State) (p q : Nat) : Option State :=
  if s.IsChild p q ∧ (s.procs q).life.isEnded then
    some ((s.set q { s.procs q with life := .absent }).set p { s.procs p with pc := .ret })
  else if ∀ c < s.count, ¬ s.IsChild p c then
    some (s.set p ((s.procs p).die (.exited 1)))
  else none

inductive Label
  /-- `p` executes its next call. -/
  | run (p : Nat) (a : Answer)
  /-- The program that `p` has become ends. -/
  | finish (p : Nat) (status : Nat)
  /-- A signal ends `p`. -/
  | kill (p : Nat)
  /-- SIGINT is delivered to `p`, which executes this code. -/
  | interrupt (p : Nat)

/-- One step; `none` if it cannot be taken. -/
def step (w : World) (s : State) : Label → Option State
  | .run p a =>
      if (s.procs p).life ≠ .running then none
      else
        match (s.procs p).act w p a with
        | .goes pr => some (s.set p pr)
        | .forks parent child => some (s.spawn p parent child)
        | .waits => s.wait3 p a.child
        | .elsewhere => none
  | .finish p status =>
      if (s.procs p).life = .running ∧ (s.procs p).pc = .program then
        some (s.set p ((s.procs p).die (.exited status)))
      else none
  | .kill p =>
      if (s.procs p).life = .running then some (s.set p ((s.procs p).die .killed)) else none
  | .interrupt p =>
      if (s.procs p).life = .running ∧ (s.procs p).pc ≠ .program then
        some (s.set p (s.procs p).interrupt)
      else none

/-- The process at the start of `main`, with these descriptors. -/
def Proc.start (fds : FdTable Desc) : Proc where
  pc := .install
  life := .running
  parent := none
  role := .original
  fds := fds
  i := 0
  pipe1fds := (0, 0)
  pipe2fds := (0, 0)
  totals := ⟨0, 0⟩
  handler := false
  int_jb := none

/-- A number that no process has yet. -/
def Proc.unused : Proc := { Proc.start .empty with life := .absent }

/-- The descriptors with which a program is started: nothing of its own making. -/
def Inherited (fds : FdTable Desc) : Prop := ∀ n d, fds n = some d → ∃ m, d = .external m

/-- The start of `main`. -/
def State.start (fds : FdTable Desc) : State where
  procs := Function.update (fun _ => .unused) 0 (.start fds)
  count := 1

/-- The processes of a run of the program. -/
def system (w : World) : System State Label :=
  .ofFun (fun s => ∃ fds, Inherited fds ∧ s = .start fds) (step w)

end Ece357.CatGrepMore
