import Mathlib.Algebra.BigOperators.Group.Finset.Basic
import Mathlib.Data.Fintype.Basic
import Mathlib.Logic.Function.Basic
import Ece357.Machine.Run

/-!
# Ece357.TasTest.Model

The **spin lock test** of `ps7/tasTest.c`: processes that share two words of memory and
increment the first one, each a number of times, under the lock in the second.

The lock is taken by `tas` (`tas64.S`), which exchanges one byte, and is released by the store
of a whole word. `map[0] += 1` is a load and a store. These are the steps of a process; what it
does between them is its own affair. A process that has not been forked yet is one that has
not moved, so forking is left out.
-/

namespace Ece357.TasTest

open Ece357.Machine

/-- The shared mapping, as far as it is used: `map[0]` and `map[1]`. -/
structure Map where
  counter : BitVec 32
  lock : BitVec 32
  deriving DecidableEq, Repr

/-- `tas`: `xchgb` exchanges the low byte of the word with 1, `movsbq` extends the old byte,
of which the caller sees the low 32 bits. The result and the word afterwards. -/
def tas (lock : BitVec 32) : BitVec 32 × BitVec 32 :=
  (((lock.setWidth 8).signExtend 64).setWidth 32, (lock &&& 0xffffff00#32) ||| 1#32)

/-- Where a process stands. -/
inductive Pc
  /-- The test of the `for` loop. -/
  | test
  /-- `tas(&map[1])`. -/
  | tas
  /-- The load of `map[0] += 1`. -/
  | load
  /-- Its store, with the value loaded. -/
  | store (v : BitVec 32)
  /-- `map[1] = 0`. -/
  | unlock
  /-- Behind the loop. -/
  | done
  deriving DecidableEq, Repr

/-- A process: where it stands, and its loop counter. -/
structure Local where
  pc : Pc
  j : Nat
  deriving DecidableEq, Repr

/-- One step of a process that runs through its loop `n` times. -/
def instr (n : Nat) (m : Map) (l : Local) : Option (Map × Local) :=
  match l.pc with
  | .test => some (m, { l with pc := if l.j < n then .tas else .done })
  | .tas =>
      some ({ m with lock := (tas m.lock).2 },
        { l with pc := if (tas m.lock).1 ≠ 0 then .tas else .load })
  | .load => some (m, { l with pc := .store m.counter })
  | .store v => some ({ m with counter := v + 1 }, { l with pc := .unlock })
  | .unlock => some ({ m with lock := 0 }, { pc := .test, j := l.j + 1 })
  | .done => none

/-- The shared memory and all processes. -/
structure State (P : Type) where
  map : Map
  loc : P → Local

variable {P : Type} [DecidableEq P]

/-- A step of process `p`; `iters` says how often each runs through its loop. -/
def step (iters : P → Nat) (s : State P) (p : P) : Option (State P) :=
  (instr (iters p) s.map (s.loc p)).map fun ml => ⟨ml.1, Function.update s.loc p ml.2⟩

/-- `main` has set `map[0]` and `map[1]` to 0, and every process is about to start its loop. -/
def start : State P := ⟨⟨0, 0⟩, fun _ => ⟨.test, 0⟩⟩

def system (iters : P → Nat) : System (State P) P := .ofFun (· = start) (step iters)

/-- Between a successful `tas` and the store that frees the lock. -/
def Pc.inCrit : Pc → Bool
  | .load | .store _ | .unlock => true
  | _ => false

/-- The loop bodies completed so far, by all processes. -/
def State.completed [Fintype P] (s : State P) : Nat := ∑ p, (s.loc p).j

end Ece357.TasTest
