import Ece357.Copycat.Exact

/-!
# Ece357.Copycat.Disk

**The output is on the disk, too.** `main` truncates its output file when it opens it, and what it
reads from there afterwards is what it has written itself. So the contents of an operand are here
what is found at each `read`, and a loop is given fuel: one that reads what it writes has no end
(`Disk.copyLoop_endless`). The `open` of the output file may fail, after which every `write` does;
there may be no room for the buffer on the stack; and `close` may fail, of which `main` wants to
tell with the result of `strerror`, which is not declared.

Where the output file is no operand, the loops come to their end, and the copying is that of the
`Model` (`Disk.copyFiles_eq`).
-/

namespace Ece357.Copycat

open Ece357.Machine

/-- What `main` finds, apart from the answers to the calls for its operands. Descriptors 0, 1 and 2
are open when it is started, and standard output is not the file behind an operand. -/
structure Disk where
  /-- The contents at the start. -/
  files : Files
  /-- Whether the file is the one behind an operand, under this name or another; behind `-`, whether
  standard input is read from it. -/
  isOperand : CStr → CStr → Bool
  /-- Whether the file can be opened for output. -/
  creates : CStr → Bool
  /-- Whether `close(outfd)` succeeds. -/
  closes : Bool
  /-- How large an array there is room for on the stack. -/
  stack : Int

/-- What `outfd` is. -/
inductive Output
  | stdout
  | file (outfile : CStr)
  /-- -1 -/
  | invalid
  deriving DecidableEq, Repr

/-- The answers to calls with this `outfd`. -/
def Output.answers (out : Output) (env : Env) : Env :=
  if out = .invalid then { env with write := fun _ => none } else env

/-- What a copy loop has come to, and `main` with it. -/
structure Progress where
  /-- Did the loop end with a `read` of 0 bytes? Otherwise with an error. -/
  ok : Bool
  /-- What the output has accepted from all `write`s so far. -/
  accepted : List Byte
  /-- Where in the file the next `read` begins. -/
  offset : Nat
  calls : Nat
  deriving DecidableEq, Repr

namespace Disk

variable (d : Disk)

/-- The output is standard output if no file is given. -/
def output : Option CStr → Output
  | none => .stdout
  | some outfile => if d.creates outfile then .file outfile else .invalid

/-- What is in the file behind an operand when the output has accepted so much: an output file is
truncated as it is opened. -/
def present (out : Output) (accepted : List Byte) (f : CStr) : List Byte :=
  match out with
  | .file outfile =>
      if d.isOperand outfile f then accepted else d.files.source f d.files.stdin
  | _ => d.files.source f d.files.stdin

/-- The loop `while ((byteNum = read(infd, buf, bufferSize)) > 0)`. -/
def copyLoop (env : Env) (out : Output) (bufferSize : Nat) (f : CStr) :
    Nat → Nat → Nat → List Byte → Option Progress
  | 0, _, _, _ => none
  | fuel + 1, n, offset, accepted =>
      match env.read n with
      | none => some ⟨false, accepted, offset, n + 1⟩
      | some want =>
          let rest := (d.present out accepted f).drop offset
          let byteNum := readAmount bufferSize want rest.length
          if byteNum = 0 then some ⟨true, accepted, offset, n + 1⟩
          else
            match env.write n with
            | none => some ⟨false, accepted, offset + byteNum, n + 1⟩
            | some part =>
                let accepted := accepted ++ (rest.take byteNum).take (writeAmount byteNum part)
                if writeAmount byteNum part ≠ byteNum then
                  some ⟨false, accepted, offset + byteNum, n + 1⟩
                else copyLoop env out bufferSize f fuel (n + 1) (offset + byteNum) accepted

/-- The loop over the input files, from the `k`-th on; `stdinOffset` is where standard input is
read on. -/
def copyFiles (env : Env) (out : Output) (bufferSize : Int) (fuel : Nat) :
    List CStr → Nat → Nat → Nat → List Byte → Option Outcome
  | [], _, _, _, accepted => some ⟨.returned 0, accepted⟩
  | f :: fs, k, n, stdinOffset, accepted =>
      if f ≠ ['-'] ∧ env.opens k = false then some ⟨.returned (-1), accepted⟩
      -- `char buf[bufferSize]`
      else if bufferSize < 0 ∨ d.stack < bufferSize then some ⟨.undefined, accepted⟩
      else
        match d.copyLoop env out bufferSize.toNat f fuel n
            (if f = ['-'] then stdinOffset else 0) accepted with
        | none => none
        | some r =>
            if r.ok = false then some ⟨.returned (-1), r.accepted⟩
            else copyFiles env out bufferSize fuel fs (k + 1) r.calls
              (if f = ['-'] then r.offset else stdinOffset) r.accepted

/-- `close(outfd)`. The message about a failure reads through what is left of the pointer that
`strerror` returns, in an `int`. -/
def close (out : Output) (o : Outcome) : Outcome :=
  if o.exit = .returned 0 ∧ (out = .invalid ∨ d.closes = false) then { o with exit := .undefined }
  else o

/-- `main`, with so much fuel for each of its loops. -/
def main (env : Env) (fuel : Nat) (argv : List CStr) : Option Outcome :=
  match getOptions argv defaults with
  | none => some ⟨.undefined, []⟩
  | some o =>
      let out := d.output o.outfile
      (d.copyFiles (out.answers env) out o.bufferSize fuel (inputFiles argv o.numToRemove) 0 0 0
        []).map (d.close out)

/-- The output file is no operand. -/
def Apart (out : Output) (fs : List CStr) : Prop :=
  ∀ outfile, out = .file outfile → ∀ f ∈ fs, d.isOperand outfile f = false

/-- More than the contents of any operand. -/
def Enough (fuel : Nat) (fs : List CStr) : Prop :=
  ∀ f ∈ fs, (d.files.source f d.files.stdin).length < fuel

/-! ### An output file that is no operand -/

variable {d} {env : Env} {out : Output}

/-- What is read then does not depend on what is written. -/
theorem Apart.present_eq {fs : List CStr} (h : d.Apart out fs) {f : CStr} (hf : f ∈ fs)
    (accepted : List Byte) : d.present out accepted f = d.files.source f d.files.stdin := by
  cases out with
  | file outfile => exact if_neg (by simp [h outfile rfl f hf])
  | stdout => rfl
  | invalid => rfl

theorem Apart.tail {f : CStr} {fs : List CStr} (h : d.Apart out (f :: fs)) : d.Apart out fs :=
  fun outfile hout g hg => h outfile hout g (List.mem_cons_of_mem f hg)

/-- What is left of a file, and what has been accepted, as in the `Model`. -/
structure Follows (contents accepted : List Byte) (r : Copied) (p : Progress) : Prop where
  ok : p.ok = r.ok
  accepted : p.accepted = accepted ++ r.accepted
  rest : contents.drop p.offset = r.rest
  calls : p.calls = r.calls

variable (env) in
/-- A loop over a file that keeps its contents is the one of the `Model`, with enough fuel. -/
theorem copyLoop_eq {f : CStr} {contents : List Byte}
    (hcontents : ∀ accepted, d.present out accepted f = contents) (bufferSize fuel : Nat) :
    ∀ n offset accepted, (contents.drop offset).length < fuel →
      ∃ p, d.copyLoop env out bufferSize f fuel n offset accepted = some p ∧
        Follows contents accepted
          (Copycat.copyLoop env bufferSize n (contents.drop offset)) p := by
  induction fuel with
  | zero => exact fun n offset accepted h => absurd h (Nat.not_lt_zero _)
  | succ fuel ih =>
      intro n offset accepted hfuel
      rw [copyLoop, Copycat.copyLoop, hcontents]
      cases env.read n with
      | none => exact ⟨_, rfl, rfl, (List.append_nil _).symm, rfl, rfl⟩
      | some want =>
          dsimp only
          by_cases hend : readAmount bufferSize want (contents.drop offset).length = 0
          · rw [if_pos hend, dif_pos hend]
            exact ⟨_, rfl, rfl, (List.append_nil _).symm, rfl, rfl⟩
          · rw [if_neg hend, dif_neg hend]
            have hdrop : (contents.drop offset).drop
                (readAmount bufferSize want (contents.drop offset).length) =
              contents.drop
                (offset + readAmount bufferSize want (contents.drop offset).length) := by
              rw [List.drop_drop]
            cases env.write n with
            | none => exact ⟨_, rfl, rfl, (List.append_nil _).symm, hdrop.symm, rfl⟩
            | some part =>
                dsimp only
                split_ifs with hshort
                · exact ⟨_, rfl, rfl, rfl, hdrop.symm, rfl⟩
                · -- the chunk is written whole, and less is left of the file
                  have hless := length_drop_readAmount hend
                  rw [hdrop] at hless ⊢
                  rw [not_not.mp hshort, List.take_take, Nat.min_self]
                  obtain ⟨p, hp, hok, haccepted, hrest, hcalls⟩ := ih (n + 1)
                    (offset + readAmount bufferSize want (contents.drop offset).length)
                    (accepted ++ (contents.drop offset).take
                      (readAmount bufferSize want (contents.drop offset).length)) (by omega)
                  exact ⟨p, hp, hok, by rw [haccepted, List.append_assoc], hrest, hcalls⟩

/-- **Where the output file is no operand, and the buffer fits the stack**, the copying is that of
the `Model`. -/
theorem copyFiles_eq {bufferSize : Int} (hstack : bufferSize ≤ d.stack) {fuel : Nat}
    (fs : List CStr) (hapart : d.Apart out fs) (hfuel : d.Enough fuel fs) :
    ∀ k n stdinOffset accepted, d.copyFiles env out bufferSize fuel fs k n stdinOffset accepted =
      some { Copycat.copyFiles env d.files bufferSize fs k n (d.files.stdin.drop stdinOffset) with
        accepted := accepted ++ (Copycat.copyFiles env d.files bufferSize fs k n
          (d.files.stdin.drop stdinOffset)).accepted } := by
  induction fs with
  | nil =>
      intro k n stdinOffset accepted
      rw [copyFiles, Copycat.copyFiles, List.append_nil]
  | cons f fs ih =>
      intro k n stdinOffset accepted
      rw [copyFiles, Copycat.copyFiles]
      by_cases hopen : f ≠ ['-'] ∧ env.opens k = false
      · rw [if_pos hopen, if_pos hopen, List.append_nil]
      · rw [if_neg hopen, if_neg hopen]
        by_cases hneg : bufferSize < 0
        · rw [if_pos (.inl hneg), if_pos hneg, List.append_nil]
        · rw [if_neg (by omega), if_neg hneg]
          have hlen := hfuel f List.mem_cons_self
          obtain ⟨p, hp, hok, haccepted, hrest, hcalls⟩ :=
            copyLoop_eq env (hapart.present_eq List.mem_cons_self) bufferSize.toNat fuel n
              (if f = ['-'] then stdinOffset else 0) accepted
              (by rw [List.length_drop]; omega)
          have hsource : (d.files.source f d.files.stdin).drop
              (if f = ['-'] then stdinOffset else 0) =
                if f = ['-'] then d.files.stdin.drop stdinOffset else d.files.content f := by
            unfold Files.source
            split_ifs <;> rfl
          rw [hsource] at hok haccepted hrest hcalls
          rw [hp]
          dsimp only
          generalize Copycat.copyLoop env bufferSize.toNat n
            (if f = ['-'] then d.files.stdin.drop stdinOffset else d.files.content f) = r
            at hok haccepted hrest hcalls ⊢
          rw [hok]
          by_cases hfailed : r.ok = false
          · rw [if_pos hfailed, if_pos hfailed, haccepted]
          · have hstdin : d.files.stdin.drop (if f = ['-'] then p.offset else stdinOffset) =
                if f = ['-'] then r.rest else d.files.stdin.drop stdinOffset := by
              rw [← hrest, Files.source]
              split_ifs <;> rfl
            rw [if_neg hfailed, if_neg hfailed,
              ih hapart.tail fun g hg => hfuel g (List.mem_cons_of_mem f hg), hstdin, hcalls,
              haccepted, List.append_assoc]

variable (env out) in
/-- Without room for the buffer, nothing is copied. -/
theorem copyFiles_no_room {bufferSize : Int} (hstack : d.stack < bufferSize) (fs : List CStr)
    (k n stdinOffset : Nat) (accepted : List Byte) : ∃ exit,
      (∀ fuel, d.copyFiles env out bufferSize fuel fs k n stdinOffset accepted =
        some ⟨exit, accepted⟩) ∧ (exit = .returned 0 → fs = []) := by
  cases fs with
  | nil => exact ⟨_, fun _ => rfl, fun _ => rfl⟩
  | cons f fs =>
      have hroom : bufferSize < 0 ∨ d.stack < bufferSize := .inr hstack
      by_cases hopen : f ≠ ['-'] ∧ env.opens k = false
      · exact ⟨_, fun _ => by rw [copyFiles, if_pos hopen], fun h => by cases h⟩
      · exact ⟨_, fun _ => by rw [copyFiles, if_neg hopen, if_pos hroom], fun h => by cases h⟩

/-! ### An output file that is one -/

/-- **A file that is copied behind its own end has no end**, once there is a byte in it. -/
theorem copyLoop_endless {outfile f : CStr} (hout : d.isOperand outfile f = true) {bufferSize : Nat}
    (hsize : 0 < bufferSize) (hread : ∀ n, ∃ want, env.read n = some want)
    (hwrite : ∀ n, ∃ part, env.write n = some part ∧ bufferSize ≤ part) (fuel : Nat) :
    ∀ n offset accepted, offset < accepted.length →
      d.copyLoop env (.file outfile) bufferSize f fuel n offset accepted = none := by
  induction fuel with
  | zero => exact fun n offset accepted h => rfl
  | succ fuel ih =>
      intro n offset accepted hbehind
      obtain ⟨want, hwant⟩ := hread n
      obtain ⟨part, hpart, hwhole⟩ := hwrite n
      have hpresent : d.present (.file outfile) accepted f = accepted := if_pos hout
      rw [copyLoop, hwant, hpart, hpresent]
      dsimp only
      have hleft : (accepted.drop offset).length = accepted.length - offset := List.length_drop
      generalize hnum : readAmount bufferSize want (accepted.drop offset).length = byteNum
      have hchunk : 0 < byteNum ∧ byteNum ≤ bufferSize ∧ byteNum ≤ accepted.length - offset := by
        unfold readAmount at hnum
        omega
      have hall : writeAmount byteNum part = byteNum := by
        unfold writeAmount
        omega
      rw [if_neg (by omega), hall, if_neg (not_not.mpr rfl), List.take_take, Nat.min_self]
      refine ih (n + 1) (offset + byteNum) _ ?_
      rw [List.length_append, List.length_take]
      omega

end Disk

end Ece357.Copycat
