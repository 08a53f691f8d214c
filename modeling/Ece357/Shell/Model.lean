import Ece357.Machine.CData
import Mathlib.Data.List.Basic

/-!
# Ece357.Shell.Model

The **shell** of `ps3/main.c`. `main` reads its script line by line and hands every line that
is no comment to `executeCommand`, which splits it into arguments, forks, and waits for the
child; the child resolves the redirections and becomes the command by `execvp`.

A child whose `execvp` fails frees `args` and leaves the `switch`, after which `args` is freed
once more. What comes of the second `free` is not defined by the C standard: the library may
notice it and abort the process, or it goes unnoticed, and the child returns to the loop of
`main`, where it goes on with its own copy of what is left of the script. The system's answer
says which.

A process is named by the numbers of the lines at which its ancestors forked, its own first;
the original one has the empty name. `wait3` blocks a process until its child has ended, so
the calls of `fork` in the whole tree have an order. A command that never ends shows like a
`wait3` that fails: its process does not go on. A line without an argument reads through a
null pointer, which ends the process. Messages, exit statuses and times are left out.

The loops that copy the arguments store one pointer behind each vector, into what the library
keeps there about its memory (`Bounds`). A later call of `malloc`, `realloc` or `free` may notice
that, and abort the process; whether it does, before the `fork` of a line or behind it, is the
system's answer, too. If it does not, nothing else is taken to come of it.

Each process has its own copy of what is left of the script, as if all of it were in the buffer
of the stream by the first `fork`. That a child which calls `exit` sets back the offset of the
script, which it shares with its parent, is left out.
-/

namespace Ece357.Shell

open Ece357.Machine

/-! ### Reading the script -/

/-- `getline`: up to and including the next newline, and what is left of the script. -/
def getline : CStr → Option (CStr × CStr)
  | [] => none
  | '\n' :: cs => some (['\n'], cs)
  | c :: cs =>
      match getline cs with
      | none => some ([c], [])
      | some (line, rest) => some (c :: line, rest)

theorem getline_less {script line rest : CStr} (h : getline script = some (line, rest)) :
    rest.length < script.length := by
  fun_induction getline script generalizing line rest with
  | case1 => cases h
  | case2 cs =>
      obtain ⟨-, rfl⟩ : ['\n'] = line ∧ cs = rest := by simpa using h
      simp
  | case3 c cs _ hnone ih =>
      obtain ⟨-, rfl⟩ : [c] = line ∧ [] = rest := by simpa using h
      simp
  | case4 c cs _ line' rest' hsome ih =>
      obtain ⟨-, rfl⟩ : c :: line' = line ∧ rest' = rest := by simpa using h
      have hless := ih hsome
      simp only [List.length_cons]
      omega

/-- `line[0] == '#'`. -/
def isComment (line : CStr) : Bool := line.head? = some '#'

/-! ### Splitting a line -/

/-- The character that ends a C string. -/
def nul : Char := Char.ofNat 0

/-- The delimiters of `getArguments`. -/
def isDelimiter (c : Char) : Bool := c = '\t' || c = ' '

/-- `strtok`: skip the delimiters, and take what comes before the next one. -/
def strtok (s : CStr) : Option (CStr × CStr) :=
  match s.dropWhile isDelimiter with
  | [] => none
  | c :: cs =>
      some ((c :: cs).takeWhile (! isDelimiter ·), ((c :: cs).dropWhile (! isDelimiter ·)).drop 1)

theorem strtok_less {s arg rest : CStr} (h : strtok s = some (arg, rest)) :
    rest.length < s.length := by
  have hskip := (List.dropWhile_suffix isDelimiter (l := s)).length_le
  unfold strtok at h
  cases hs : s.dropWhile isDelimiter with
  | nil => simp [hs] at h
  | cons c cs =>
      have hword := (List.dropWhile_suffix (! isDelimiter ·) (l := c :: cs)).length_le
      rw [hs] at h hskip
      obtain ⟨-, rfl⟩ := Prod.mk.inj (Option.some.inj h)
      simp only [List.length_drop, List.length_cons] at hword hskip ⊢
      omega

/-- The loop of `getArguments`. -/
def strtokAll (s : CStr) : List CStr :=
  match _hs : strtok s with
  | none => []
  | some (arg, rest) => arg :: strtokAll rest
termination_by s.length
decreasing_by exact strtok_less _hs

theorem strtokAll_none {s : CStr} (h : strtok s = none) : strtokAll s = [] := by
  rw [strtokAll]
  split <;> simp_all

theorem strtokAll_some {s arg rest : CStr} (h : strtok s = some (arg, rest)) :
    strtokAll s = arg :: strtokAll rest := by
  rw [strtokAll]
  split <;> simp_all

/-- `getArguments`: the last character of the string is overwritten first. -/
def getArguments (line : CStr) : List CStr := strtokAll (line.takeWhile (· ≠ nul)).dropLast

/-- `s[i]`, of a string that ends with `nul`. -/
def charAt (s : CStr) (i : Nat) : Char := s.getD i nul

def isRedirect (arg : CStr) : Bool :=
  charAt arg 0 = '<' || charAt arg 0 = '>' || (charAt arg 0 = '2' && charAt arg 1 = '>')

def getCommandArgCount (args : List CStr) : Nat := args.countP (! isRedirect ·)

def getRedirectArgCount (args : List CStr) : Nat := args.countP isRedirect

/-- `commandArgs`: as many arguments from the start as are no redirections. -/
def commandArgs (args : List CStr) : List CStr := args.take (getCommandArgCount args)

/-- `redirectArgs`: as many arguments after those as are redirections. -/
def redirectArgs (args : List CStr) : List CStr :=
  (args.drop (getCommandArgCount args)).take (getRedirectArgCount args)

/-! ### The child -/

inductive Mode
  | read
  | truncate
  | append
  deriving DecidableEq, Repr

/-- What one argument asks for: a file, how to open it, and the descriptor to replace. -/
structure Redirection where
  fileName : CStr
  mode : Mode
  fileNum : Nat
  deriving DecidableEq, Repr

/-- The chain of conditions in the loop over `redirectArgs`; `none` if none of them holds. -/
def redirection (arg : CStr) : Option Redirection :=
  if charAt arg 0 = '<' then some ⟨arg.drop 1, .read, 0⟩
  else if charAt arg 0 = '>' ∧ charAt arg 1 ≠ '>' then some ⟨arg.drop 1, .truncate, 1⟩
  else if charAt arg 0 = '2' ∧ charAt arg 1 = '>' then some ⟨arg.drop 2, .truncate, 2⟩
  else if charAt arg 0 = '>' ∧ charAt arg 1 = '>' then some ⟨arg.drop 2, .append, 1⟩
  else if charAt arg 0 = '2' ∧ charAt arg 1 = '>' ∧ charAt arg 2 = '>' then
    some ⟨arg.drop 3, .append, 2⟩
  else none

/-- The system's answers to one execution of `executeCommand`. -/
structure Answers where
  /-- Whether the library has memory for all that is asked of it before the `fork`, and notices
  nothing of what has been stored behind a vector by then, on this line or an earlier one. -/
  memory : Bool
  /-- `gettimeofday(&start_time, NULL)`. -/
  startTime : Bool
  fork : Bool
  /-- Whether `fd` is a descriptor after the `k`-th redirection. -/
  opened : Nat → Option Redirection → Bool
  /-- Whether the `dup2` of the `k`-th redirection succeeds. -/
  dupped : Nat → Option Redirection → Bool
  execvp : Bool
  /-- Whether the second `free(args)` goes unnoticed, and what the child has stored behind the
  vectors, too. -/
  unnoticed : Bool
  wait : Bool
  /-- `gettimeofday(&end_time, NULL)`. -/
  endTime : Bool
  /-- Whether the process itself, when it frees the vectors, notices nothing of that. -/
  frees : Bool

/-- Every call succeeds, and nothing is noticed. -/
def Answers.smooth : Answers where
  memory := true
  startTime := true
  fork := true
  opened _ _ := true
  dupped _ _ := true
  execvp := true
  unnoticed := true
  wait := true
  endTime := true
  frees := true

/-- What becomes of a child. -/
inductive ChildEnd
  | exited
  | replaced (file : CStr) (argv : List CStr)
  | aborted
  /-- It returns from `executeCommand`. -/
  | continues
  deriving DecidableEq, Repr

/-- The loop over `redirectArgs`, from the `k`-th on: whether it comes to its end. -/
def redirect (a : Answers) : Nat → List CStr → Bool
  | _, [] => true
  | k, arg :: rest =>
      a.opened k (redirection arg) && a.dupped k (redirection arg) && redirect a (k + 1) rest

/-- The arm of the `switch` for the child, and what follows it. -/
def childArm (a : Answers) (args : List CStr) : ChildEnd :=
  if redirect a 0 (redirectArgs args) = false then .exited
  else if a.execvp then .replaced (args.headD []) (commandArgs args)
  else if a.unnoticed then .continues
  else .aborted

/-! ### The shell -/

/-- What an execution of `executeCommand` comes to. -/
inductive Executed
  /-- The process ends before `fork`. -/
  | stopped
  /-- `fork` is called; what becomes of the child, if there is one, and whether the process
  itself returns. -/
  | forked (child : Option ChildEnd) (returns : Bool)
  deriving DecidableEq, Repr

def executeCommand (a : Answers) (line : CStr) : Executed :=
  if getArguments line = [] then .stopped
  else if a.memory = false then .stopped
  else if a.startTime = false then .stopped
  else if a.fork = false then .forked none false
  else .forked (some (childArm a (getArguments line))) (a.wait && a.endTime && a.frees)

/-- The lines at which the ancestors of a process have forked, its own first. -/
abbrev Name := List Nat

/-- The system's answers to each process at each line. -/
abbrev Env := Name → Nat → Answers

/-- A call of `fork`. -/
structure Fork where
  process : Name
  line : Nat
  deriving DecidableEq, Repr

/-- The loop of `main` in a process, from line `n` of the script on: the calls of `fork` in
that process and in all that descend from it, in the order in which they happen. -/
def main (env : Env) (process : Name) (n : Nat) (script : CStr) : List Fork :=
  match _hline : getline script with
  | none => []
  | some (line, rest) =>
      if isComment line then main env process (n + 1) rest
      else
        match executeCommand (env process n) line with
        | .stopped => []
        | .forked child returns =>
            ⟨process, n⟩ ::
              ((if child = some .continues then main env (n :: process) (n + 1) rest else []) ++
                if returns then main env process (n + 1) rest else [])
termination_by script.length
decreasing_by all_goals exact getline_less _hline

end Ece357.Shell
