import Ece357.Machine.Fifo
import Ece357.Machine.Words

/-!
# Ece357.FifoTest.Model

The **FIFO test** of `ps7/fifoTest.c`: many writers and one reader. Each writer sends the numbers
from 0 on, with its own number in the bits from 24 up; the reader counts for each writer what
comes next. The FIFO itself is known by what `fifo.h` promises of it.

A turn of a loop is one step, since all it shares with other processes is the call of `fifo_wr` or
`fifo_rd`. The test uses 56 writers and 100 numbers of each; the model has what there is room for.
-/

namespace Ece357.FifoTest

open Ece357.Machine

/-- `numWriters` and `longs_per_writer`, as far as an `int` shifted by 24, and the bits below,
have room for them. -/
structure Config where
  numWriters : Nat
  longsPerWriter : Nat
  writers_pos : 0 < numWriters
  writers_le : numWriters ≤ 127
  longs_le : longsPerWriter ≤ 2 ^ 24

/-- The numbers in the source. -/
def Config.source : Config := ⟨56, 100, by decide, by decide, by decide⟩

/-- How many words the reader waits for. -/
def Config.total (c : Config) : Nat := c.numWriters * c.longsPerWriter

/-! ### Words -/

/-- `j + (my_procnum << 24)`, with the shift of an `int`. -/
def encode (procnum : Nat) (j : Word) : Word :=
  j + (BitVec.ofNat 32 procnum <<< 24).signExtend 64

/-- `(int)(num >> 24)` -/
def writerOf (num : Word) : BitVec 32 := (num >>> 24).setWidth 32

/-- `num - ((unsigned long)writer << 24)` -/
def numberOf (num : Word) : Word := num - (writerOf num).signExtend 64 <<< 24

/-! ### The reader -/

/-- How the reader ends. -/
inductive Result
  /-- `Success!` -/
  | success
  /-- `Test failed:` -/
  | failed
  /-- `trackers` is accessed where it has no element, which leaves the rest undefined. -/
  | outside
  deriving DecidableEq, Repr

/-- The reader: the words read so far, what it waits for of each writer, and its end. -/
structure Reader (c : Config) where
  j : Nat
  trackers : Fin c.numWriters → Word
  result : Option Result

/-- The test of the `for` loop. -/
def loopTest (c : Config) (j : Nat) : Option Result := if j < c.total then none else some .success

/-- The reader in front of its loop. -/
def Reader.start (c : Config) : Reader c := ⟨0, fun _ => 0, loopTest c 0⟩

/-- A turn of the loop, with the word that `fifo_rd` has returned. -/
def Reader.read {c : Config} (r : Reader c) (num : Word) : Reader c :=
  let i := (writerOf num).toInt - 1
  if h : 0 ≤ i ∧ i.toNat < c.numWriters then
    let w : Fin c.numWriters := ⟨i.toNat, h.2⟩
    let trackers := Function.update r.trackers w (r.trackers w + 1)
    if r.trackers w ≠ numberOf num then { r with trackers := trackers, result := some .failed }
    else ⟨r.j + 1, trackers, loopTest c (r.j + 1)⟩
  else { r with result := some .outside }

/-- The reader, given words one after the other, as long as its loop goes on. -/
def Reader.readAll (c : Config) (nums : List Word) : Reader c :=
  nums.foldl (fun r num => if r.result = none then r.read num else r) (.start c)

/-! ### All processes -/

/-- The process that forks the writers and becomes the last of them. -/
inductive Launcher
  /-- At the test of its loop. -/
  | forking (i : Nat)
  | writing
  | exited
  deriving DecidableEq, Repr

/-- Writer `w`, with `my_procnum = w + 1`, has sent `sent w` numbers, once it has been started. -/
structure State (c : Config) (F : Fifo Word) where
  queue : F.Queue
  reader : Reader c
  launcher : Launcher
  started : Fin c.numWriters → Bool
  sent : Fin c.numWriters → Nat
  /-- Ghost: the words read so far. -/
  got : List Word

/-- What can happen next. -/
inductive Act (c : Config)
  /-- The launcher forks a writer. -/
  | fork
  /-- The `fork` fails, and the launcher exits. -/
  | forkFails
  /-- The launcher leaves its loop. -/
  | become
  /-- A writer writes its next number. -/
  | write (w : Fin c.numWriters)
  /-- The reader reads a word. -/
  | read

variable {c : Config} {F : Fifo Word}

/-- The word that writer `w` sends as its number `j`. -/
def msg (c : Config) (w : Fin c.numWriters) (j : Nat) : Word :=
  encode (w + 1) (BitVec.ofNat 64 j)

def start (c : Config) (F : Fifo Word) : State c F :=
  ⟨F.empty, .start c, .forking 1, fun _ => false, fun _ => 0, []⟩

def step (s : State c F) : Act c → Option (State c F)
  | .fork =>
      match s.launcher with
      | .forking i =>
          if h : i < c.numWriters then
            some { s with launcher := .forking (i + 1),
                          started := Function.update s.started ⟨i - 1, by omega⟩ true }
          else none
      | _ => none
  | .forkFails =>
      match s.launcher with
      | .forking i => if i < c.numWriters then some { s with launcher := .exited } else none
      | _ => none
  | .become =>
      match s.launcher with
      | .forking i =>
          if i < c.numWriters then none
          else
            some { s with launcher := .writing,
                          started := Function.update s.started
                            ⟨c.numWriters - 1, Nat.sub_one_lt_of_lt c.writers_pos⟩ true }
      | _ => none
  | .write w =>
      if s.started w = true ∧ s.sent w < c.longsPerWriter then
        (F.wr s.queue (msg c w (s.sent w))).map fun q =>
          { s with queue := q, sent := Function.update s.sent w (s.sent w + 1) }
      else none
  | .read =>
      if s.reader.result = none then
        (F.rd s.queue).map fun r =>
          { s with queue := r.2, reader := s.reader.read r.1, got := s.got ++ [r.1] }
      else none

/-- Is it a `fork` that fails? -/
def Act.fails : Act c → Bool
  | .forkFails => true
  | _ => false

/-- `test2`, from the first `fork` on. -/
def test2 (c : Config) (F : Fifo Word) : System (State c F) (Act c) := .ofFun (· = start c F) step

/-! ### One writer -/

/-- `test1`: the parent writes the numbers below `n`, the child compares. -/
structure State1 (F : Fifo Word) where
  queue : F.Queue
  sent : Nat
  i : Nat
  success : Bool
  /-- Ghost: the words read so far. -/
  got : List Word

/-- What can happen next in `test1`. -/
inductive Act1
  | write
  | read

def step1 (n : Nat) (s : State1 F) : Act1 → Option (State1 F)
  | .write =>
      if s.sent < n then
        (F.wr s.queue (BitVec.ofNat 64 s.sent)).map fun q =>
          { s with queue := q, sent := s.sent + 1 }
      else none
  | .read =>
      if s.i < n then
        (F.rd s.queue).map fun r =>
          { s with queue := r.2, i := s.i + 1, success := s.success && BitVec.ofNat 64 s.i == r.1,
                   got := s.got ++ [r.1] }
      else none

def start1 (F : Fifo Word) : State1 F := ⟨F.empty, 0, 0, true, []⟩

/-- What `test1` prints behind its loop. -/
def printed (n : Nat) (s : State1 F) : Option Bool := if s.i < n then none else some s.success

end Ece357.FifoTest
