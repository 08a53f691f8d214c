import Ece357.Machine.CData
import Ece357.Machine.Stream

/-!
# Ece357.Copycat.Model

The **concatenation tool** of `ps1/main.c`, which is one function: `main` parses its
options, moves the operands to the front of `argv` and copies them to the output.

The contents of the input files are those that are found when they are read, and stay the same;
standard input is a stream, so what one `-` has read is not there for the next. What the system
answers to the `n`-th call of `read` and `write`, and to the `open` of each operand, is given by an
environment.

Where the code reads a null pointer, or declares an array of negative length, the C
standard defines no behaviour, and `main` ends as `undefined`. Messages and timing are left
out; so are, until `Disk`, an output file that is an operand, or that cannot be opened or closed,
and the limit that the stack sets to `buf`.
-/

namespace Ece357.Copycat

open Ece357.Machine

/-! ### Options -/

/-- What the option loop has found. -/
structure Options where
  outfile : Option CStr
  bufferSize : Int
  numToRemove : Nat
  deriving DecidableEq, Repr

/-- The defaults. -/
def defaults : Options := ⟨none, 4096, 1⟩

/-- The loop over `argv`, from some argument on. The value of the last argument is the
null pointer behind it: no output file for `-o`, but nothing `atoi` could read for `-b`. -/
def getOptions : List CStr → Options → Option Options
  | [], o => some o
  | ['-', 'o'] :: [], o => some { o with outfile := none, numToRemove := o.numToRemove + 2 }
  | ['-', 'o'] :: value :: rest, o =>
      getOptions rest { o with outfile := some value, numToRemove := o.numToRemove + 2 }
  | ['-', 'b'] :: [], _ => none
  | ['-', 'b'] :: value :: rest, o =>
      getOptions rest { o with bufferSize := atoi value, numToRemove := o.numToRemove + 2 }
  | _ :: rest, o => getOptions rest o

/-- The operands: as many arguments as are left are moved down by the number removed, and
`-` stands in if there are none. The count is negative if the last argument is `-o`. -/
def inputFiles (argv : List CStr) (numToRemove : Nat) : List CStr :=
  if argv.length = numToRemove then [['-']] else argv.drop numToRemove

/-! ### Copying -/

/-- What can be read: the contents of each file, and of standard input. -/
structure Files where
  content : CStr → List Byte
  stdin : List Byte

/-- The system's answers: to the `open` of the `k`-th operand, and to the `n`-th `read` and
the `write` after it, with the number of bytes it wants to deliver or take, if it does not
fail. -/
structure Env where
  opens : Nat → Bool
  read : Nat → Option Nat
  write : Nat → Option Nat

/-- What copying one file came to. -/
structure Copied where
  /-- Did the loop end with a `read` of 0 bytes? Otherwise with an error. -/
  ok : Bool
  /-- What the output accepted. -/
  accepted : List Byte
  /-- What was not read. -/
  rest : List Byte
  /-- How many `read`s there were so far. -/
  calls : Nat

/-- The loop `while ((byteNum = read(infd, buf, bufferSize)) > 0)`. -/
def copyLoop (env : Env) (bufferSize n : Nat) (rest : List Byte) : Copied :=
  match env.read n with
  | none => ⟨false, [], rest, n + 1⟩
  | some want =>
      let byteNum := readAmount bufferSize want rest.length
      if _hend : byteNum = 0 then ⟨true, [], rest, n + 1⟩
      else
        match env.write n with
        | none => ⟨false, [], rest.drop byteNum, n + 1⟩
        | some part =>
            if writeAmount byteNum part ≠ byteNum then
              ⟨false, (rest.take byteNum).take (writeAmount byteNum part), rest.drop byteNum, n + 1⟩
            else
              let r := copyLoop env bufferSize (n + 1) (rest.drop byteNum)
              { r with accepted := rest.take byteNum ++ r.accepted }
termination_by rest.length
decreasing_by exact length_drop_readAmount _hend

/-- How `main` ends. -/
inductive Exit
  | returned (code : Int)
  | undefined
  deriving DecidableEq, Repr

/-- How `main` ends, and what the output has accepted by then. -/
structure Outcome where
  exit : Exit
  accepted : List Byte
  deriving DecidableEq, Repr

/-- The loop over the input files, from the `k`-th on; `n` counts the `read`s. -/
def copyFiles (env : Env) (files : Files) (bufferSize : Int) :
    List CStr → Nat → Nat → List Byte → Outcome
  | [], _, _, _ => ⟨.returned 0, []⟩
  | f :: fs, k, n, stdin =>
      if f ≠ ['-'] ∧ env.opens k = false then ⟨.returned (-1), []⟩
      -- `char buf[bufferSize]`
      else if bufferSize < 0 then ⟨.undefined, []⟩
      else
        let r := copyLoop env bufferSize.toNat n (if f = ['-'] then stdin else files.content f)
        if r.ok = false then ⟨.returned (-1), r.accepted⟩
        else
          let later := copyFiles env files bufferSize fs (k + 1) r.calls
            (if f = ['-'] then r.rest else stdin)
          { later with accepted := r.accepted ++ later.accepted }

/-- `main`. -/
def main (env : Env) (files : Files) (argv : List CStr) : Outcome :=
  match getOptions argv defaults with
  | none => ⟨.undefined, []⟩
  | some o => copyFiles env files o.bufferSize (inputFiles argv o.numToRemove) 0 0 files.stdin

end Ece357.Copycat
