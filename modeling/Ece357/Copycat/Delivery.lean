import Ece357.Copycat.Disk
import Ece357.Copycat.Operands

/-!
# Ece357.Copycat.Delivery

**From the command line to the output**, where the options come first and the output file is no
operand. Whatever the system does, and whenever it fails, what the loops have written by then is a
beginning of the operands' contents, one after the other: no byte is lost in between, repeated or
out of its place. If `main` returns 0, that is all of them, and it does return 0 if the system
serves every call and the buffer fits the stack (`operands_delivered`).

Where no output file is given, the messages of `main` go to standard output as well; they are not
counted here.
-/

namespace Ece357.Copycat

open Ece357.Machine

variable {env : Env} {files : Files}

/-! ### Whatever fails -/

/-- A copy loop, however it ends, has copied a beginning of what there was. -/
theorem copyLoop_beginning (bufferSize : Nat) (rest : List Byte) :
    ∀ n, (copyLoop env bufferSize n rest).accepted <+: rest := by
  induction hlen : rest.length using Nat.strongRecOn generalizing rest with
  | _ len ih =>
      intro n
      rw [copyLoop]
      cases env.read n with
      | none => exact List.nil_prefix
      | some want =>
          dsimp only
          split_ifs with hend
          · exact List.nil_prefix
          · cases env.write n with
            | none => exact List.nil_prefix
            | some part =>
                dsimp only
                split_ifs with hshort
                · exact (List.take_prefix ..).trans (List.take_prefix ..)
                · -- a chunk and what is left make up the file again
                  have hless := length_drop_readAmount hend
                  have hlater := ih _ (lt_of_lt_of_eq hless hlen) _ rfl (n + 1)
                  have hboth := (List.prefix_append_right_inj
                    (rest.take (readAmount bufferSize want rest.length))).mpr hlater
                  rw [List.take_append_drop] at hboth
                  exact hboth

/-- One turn of the loop over the files, if it comes to copying. -/
theorem copyFiles_turn (bufferSize : Int) (f : CStr) (fs : List CStr) (k n : Nat)
    (stdin : List Byte) :
    (copyFiles env files bufferSize (f :: fs) k n stdin).accepted = [] ∨
    ∃ r, r = copyLoop env bufferSize.toNat n (files.source f stdin) ∧
      (copyFiles env files bufferSize (f :: fs) k n stdin).accepted = if r.ok then r.accepted ++
          (copyFiles env files bufferSize fs (k + 1) r.calls (stdinAfter f r stdin)).accepted
        else r.accepted := by
  rw [copyFiles]
  by_cases hopen : f ≠ ['-'] ∧ env.opens k = false
  · rw [if_pos hopen]
    exact .inl rfl
  · rw [if_neg hopen]
    by_cases hneg : bufferSize < 0
    · rw [if_pos hneg]
      exact .inl rfl
    · rw [if_neg hneg]
      refine .inr ⟨_, rfl, ?_⟩
      cases hok : (copyLoop env bufferSize.toNat n (files.source f stdin)).ok with
      | false =>
          unfold Files.source at hok ⊢
          simp [hok]
      | true =>
          unfold Files.source at hok ⊢
          simp [hok, stdinAfter]

/-- Without a buffer nothing is ever accepted. -/
theorem copyFiles_nothing {bufferSize : Int} (hsize : bufferSize ≤ 0) (fs : List CStr) :
    ∀ k n stdin, (copyFiles env files bufferSize fs k n stdin).accepted = [] := by
  have hzero : bufferSize.toNat = 0 := by omega
  induction fs with
  | nil => exact fun k n stdin => rfl
  | cons f fs ih =>
      intro k n stdin
      rcases copyFiles_turn bufferSize f fs k n stdin with hnone | ⟨r, hr, heq⟩
      · exact hnone
      · have hnothing : r.accepted = [] := by
          rw [hr, hzero]
          exact (copyLoop_zero n _).1
        rw [heq, hnothing, ih]
        split <;> rfl

/-- What the output has accepted is a beginning of what there is to copy. -/
theorem copyFiles_beginning (bufferSize : Int) (fs : List CStr) : ∀ k n stdin,
    (copyFiles env files bufferSize fs k n stdin).accepted <+: files.concat stdin fs := by
  by_cases hsize : bufferSize ≤ 0
  · intro k n stdin
    rw [copyFiles_nothing hsize]
    exact List.nil_prefix
  · induction fs with
    | nil => exact fun k n stdin => List.nil_prefix
    | cons f fs ih =>
        intro k n stdin
        rcases copyFiles_turn bufferSize f fs k n stdin with hnone | ⟨r, hr, heq⟩
        · rw [hnone]
          exact List.nil_prefix
        · rw [heq, Files.concat_cons]
          by_cases hok : r.ok = true
          · -- a file that is copied well is copied whole
            rw [hr] at hok
            obtain ⟨hall, hleft⟩ := copyLoop_exact (by omega) _ n hok
            rw [← hr] at hok hall hleft
            have hlater := ih (k + 1) r.calls (stdinAfter f r stdin)
            rw [if_pos hok, hall, List.prefix_append_right_inj]
            rw [stdinAfter, hleft] at hlater ⊢
            exact hlater
          · rw [if_neg hok, hr]
            exact (copyLoop_beginning _ _ n).trans (List.prefix_append ..)

/-! ### When nothing fails -/

/-- The system opens every file, and reads, and writes what it is offered, if that is no more
than the buffer holds. -/
structure Env.Serves (env : Env) (bufferSize : Int) : Prop where
  opens : ∀ k, env.opens k = true
  read : ∀ n, ∃ want, env.read n = some want
  write : ∀ n, ∃ part : Nat, env.write n = some part ∧ bufferSize ≤ part

theorem copyLoop_serves {bufferSize : Nat} (h : env.Serves bufferSize) (rest : List Byte) :
    ∀ n, (copyLoop env bufferSize n rest).ok = true := by
  induction hlen : rest.length using Nat.strongRecOn generalizing rest with
  | _ len ih =>
      intro n
      obtain ⟨want, hwant⟩ := h.read n
      obtain ⟨part, hpart, hle⟩ := h.write n
      rw [copyLoop, hwant]
      dsimp only
      split_ifs with hend
      · rfl
      · rw [hpart]
        dsimp only
        split_ifs with hshort
        · -- no chunk is larger than the buffer
          exfalso
          refine hshort ?_
          have hchunk : readAmount bufferSize want rest.length ≤ bufferSize := by
            unfold readAmount
            omega
          unfold writeAmount
          omega
        · exact ih _ (hlen ▸ length_drop_readAmount hend) _ rfl (n + 1)

theorem copyFiles_serves {bufferSize : Int} (hsize : 0 ≤ bufferSize) (h : env.Serves bufferSize)
    (fs : List CStr) :
    ∀ k n stdin, (copyFiles env files bufferSize fs k n stdin).exit = .returned 0 := by
  have hbuffer : (bufferSize.toNat : Int) = bufferSize := Int.toNat_of_nonneg hsize
  induction fs with
  | nil => exact fun k n stdin => rfl
  | cons f fs ih =>
      intro k n stdin
      have hok : ∀ rest, (copyLoop env bufferSize.toNat n rest).ok = true := fun rest =>
        copyLoop_serves (hbuffer.symm ▸ h) rest n
      rw [copyFiles, if_neg (by simp [h.opens]), if_neg (by omega)]
      dsimp only
      rw [if_neg (by simp [hok])]
      exact ih _ _ _

/-! ### The command line -/

/-- The output of this command line. -/
def Disk.outputOf (d : Disk) (items : List Item) : Output := d.output (lastValue .o items)

/-- The system serves all calls of `main`, and the buffer fits the stack. -/
structure Disk.Serves (d : Disk) (env : Env) (items : List Item) : Prop where
  calls : env.Serves (bufferSizeOf items)
  opened : d.outputOf items ≠ .invalid
  closes : d.closes = true
  stack : bufferSizeOf items ≤ d.stack

theorem Disk.close_accepted (d : Disk) (out : Output) (o : Outcome) :
    (d.close out o).accepted = o.accepted := by
  unfold Disk.close
  split_ifs <;> rfl

theorem Disk.exit_of_close {d : Disk} {out : Output} {o : Outcome}
    (h : (d.close out o).exit = .returned 0) : o.exit = .returned 0 := by
  unfold Disk.close at h
  split_ifs at h
  exact h

theorem Disk.close_served {d : Disk} {out : Output} (hopened : out ≠ .invalid)
    (hcloses : d.closes = true) (o : Outcome) : d.close out o = o :=
  if_neg fun h => h.2.elim hopened (by simp [hcloses])

theorem Disk.main_items {prog : CStr} {items : List Item} (hprog : Plain prog)
    (hfirst : OptionsFirst items) (d : Disk) (env : Env) (fuel : Nat) :
    d.main env fuel (prog :: strings items) =
      (d.copyFiles ((d.outputOf items).answers env) (d.outputOf items) (bufferSizeOf items) fuel
        (filesOf items) 0 0 0 []).map (d.close (d.outputOf items)) := by
  rw [Disk.main, getOptions_plain hprog, getOptions_items]
  dsimp only
  rw [(inputFiles_iff prog items).mpr hfirst]
  rfl

/-- **The operands are delivered.** If the options come first, the name of the program is none, and
the output file is no operand, then `main` comes to an end, and what the `write`s of its loops have
put out by then is a beginning of the contents of the operands. With a positive buffer size that is
all of them if `main` returns 0, as it does if nothing fails and the buffer fits the stack. -/
theorem operands_delivered {prog : CStr} {items : List Item} (hprog : Plain prog)
    (hfirst : OptionsFirst items) (d : Disk) (env : Env)
    (hapart : d.Apart (d.outputOf items) (filesOf items)) : ∃ outcome,
    (∀ fuel, d.Enough fuel (filesOf items) →
      d.main env fuel (prog :: strings items) = some outcome) ∧
    outcome.accepted <+: d.files.concat d.files.stdin (filesOf items) ∧
    (0 < bufferSizeOf items →
      (outcome.exit = .returned 0 →
        outcome.accepted = d.files.concat d.files.stdin (filesOf items)) ∧
      (d.Serves env items → outcome.exit = .returned 0)) := by
  by_cases hstack : bufferSizeOf items ≤ d.stack
  · -- the copying is that of the `Model`, with the answers that this output gives
    let copied := copyFiles ((d.outputOf items).answers env) d.files (bufferSizeOf items)
      (filesOf items) 0 0 d.files.stdin
    refine ⟨d.close (d.outputOf items) copied, fun fuel hfuel => ?_, ?_, fun hsize =>
      ⟨fun hexit => ?_, fun hserves => ?_⟩⟩
    · rw [Disk.main_items hprog hfirst, Disk.copyFiles_eq hstack _ hapart hfuel]
      rfl
    · rw [Disk.close_accepted]
      exact copyFiles_beginning _ _ 0 0 _
    · have hcopied : copied.Exact (d.files.concat d.files.stdin (filesOf items)) :=
        copyFiles_exact hsize _ 0 0 _
      obtain ⟨code, hcode, hexact⟩ := hcopied
      rw [Disk.exit_of_close hexit] at hcode
      rw [Disk.close_accepted]
      exact hexact (Exit.returned.inj hcode).symm
    · have hanswers : (d.outputOf items).answers env = env := if_neg hserves.opened
      have hcopied : copied.exit = .returned 0 :=
        copyFiles_serves (Int.le_of_lt hsize) (hanswers.symm ▸ hserves.calls) _ 0 0 _
      rw [Disk.close_served hserves.opened hserves.closes]
      exact hcopied
  · obtain ⟨exit, hnothing, hnone⟩ := Disk.copyFiles_no_room ((d.outputOf items).answers env)
      (d.outputOf items) (Int.not_le.mp hstack) (filesOf items) 0 0 0 []
    refine ⟨d.close (d.outputOf items) ⟨exit, []⟩, fun fuel _ => ?_, ?_, fun _ =>
      ⟨fun hexit => ?_, fun hserves => absurd hserves.stack hstack⟩⟩
    · rw [Disk.main_items hprog hfirst, hnothing]
      rfl
    · rw [Disk.close_accepted]
      exact List.nil_prefix
    · rw [Disk.close_accepted, hnone (Disk.exit_of_close hexit)]
      rfl

/-- A disk on which files contain three bytes, and have one name each. -/
def sampleDisk : Disk := ⟨⟨fun _ => [1, 2, 3], []⟩, fun o f => o = f, fun _ => true, true, 8192⟩

/-- `copycat -b 2 -o o f`, with a `write` that fails. -/
theorem operands_delivered_fails : ∃ outcome,
    sampleDisk.main ⟨fun _ => true, fun _ => some 2, fun n => if n = 1 then none else some 2⟩ 4
      [['c'], ['-', 'b'], ['2'], ['-', 'o'], ['o'], ['f']] = some outcome ∧
    outcome.accepted <+: [1, 2, 3] := by
  have hprog : Plain ['c'] := by decide
  have hfirst : OptionsFirst
      [.option .b ['2'], .option .o ['o'], .operand ['f'] (by decide)] :=
    (inputFiles_iff ['c'] _).mp (by decide)
  have hapart : sampleDisk.Apart (.file ['o']) [['f']] := by
    intro outfile hout f hf
    obtain rfl := Output.file.inj hout
    obtain rfl := List.mem_singleton.mp hf
    decide
  have hfuel : sampleDisk.Enough 4 [['f']] := by
    intro f hf
    obtain rfl := List.mem_singleton.mp hf
    decide
  obtain ⟨outcome, hmain, hbeginning, -⟩ := operands_delivered hprog hfirst sampleDisk
    ⟨fun _ => true, fun _ => some 2, fun n => if n = 1 then none else some 2⟩ hapart
  exact ⟨outcome, hmain 4 hfuel, hbeginning⟩

end Ece357.Copycat
