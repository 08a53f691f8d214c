import Ece357.Copycat.Model

/-!
# Ece357.Copycat.Exact

**Is the output the concatenation of the inputs?** For a positive buffer size it is, for
every way the system may cut reads and writes, whenever `main` returns 0: the copy loop
ends well only at the end of the file, and only after writes that took every chunk whole
(`copyLoop_exact`).

A buffer size of 0, which `atoi` makes of anything that is not a number, asks `read` for
nothing; it delivers nothing, which the loop takes for the end of the file, and `main`
reports success without having copied anything. A negative size is no size of an array at
all. So the program is exact precisely when the size is positive, or there was nothing to
copy in the first place (`main_exact_iff`).
-/

namespace Ece357.Copycat

open Ece357.Machine

variable {env : Env} {files : Files}

/-- The contents of the input files in order, with `stdin` left on standard input: the
first `-` takes all of it. -/
def Files.concat (files : Files) : List Byte → List CStr → List Byte
  | _, [] => []
  | stdin, f :: fs =>
      if f = ['-'] then stdin ++ files.concat [] fs else files.content f ++ files.concat stdin fs

/-- If `main` returns 0, the output has accepted the contents of the inputs in order. -/
def Outcome.Exact (contents : List Byte) (o : Outcome) : Prop :=
  ∃ code, o.exit = .returned code ∧ (code = 0 → o.accepted = contents)

/-! ### One file -/

/-- A copy loop that ends well has come to the end of the file, or else has copied a chunk
whole and goes on to end well. -/
theorem copyLoop_ok {bufferSize n : Nat} {rest : List Byte}
    (hok : (copyLoop env bufferSize n rest).ok = true) : ∃ want,
    (readAmount bufferSize want rest.length = 0 ∧
      copyLoop env bufferSize n rest = ⟨true, [], rest, n + 1⟩) ∨
    ∃ byteNum, byteNum = readAmount bufferSize want rest.length ∧ byteNum ≠ 0 ∧
      (copyLoop env bufferSize (n + 1) (rest.drop byteNum)).ok = true ∧
      copyLoop env bufferSize n rest = { copyLoop env bufferSize (n + 1) (rest.drop byteNum) with
        accepted := rest.take byteNum ++
          (copyLoop env bufferSize (n + 1) (rest.drop byteNum)).accepted } := by
  rw [copyLoop] at hok ⊢
  cases hread : env.read n with
  | none => simp [hread] at hok
  | some want =>
      refine ⟨want, ?_⟩
      simp only [hread] at hok ⊢
      by_cases hend : readAmount bufferSize want rest.length = 0
      · rw [dif_pos hend]
        exact .inl ⟨hend, rfl⟩
      · rw [dif_neg hend] at hok ⊢
        cases hwrite : env.write n with
        | none => simp [hwrite] at hok
        | some part =>
            simp only [hwrite] at hok ⊢
            split_ifs at hok ⊢ with hshort
            exact .inr ⟨_, rfl, hend, hok, rfl⟩

/-- A copy loop with room for at least a byte that ends well has copied everything. -/
theorem copyLoop_exact {bufferSize : Nat} (hsize : 0 < bufferSize) (rest : List Byte) :
    ∀ n, (copyLoop env bufferSize n rest).ok = true →
      (copyLoop env bufferSize n rest).accepted = rest ∧
        (copyLoop env bufferSize n rest).rest = [] := by
  induction hlen : rest.length using Nat.strongRecOn generalizing rest with
  | _ len ih =>
      intro n hok
      obtain ⟨want, ⟨hend, heq⟩ | ⟨byteNum, rfl, hend, hlater, heq⟩⟩ := copyLoop_ok hok
      · have hleft : rest.length = 0 := (readAmount_eq_zero.mp hend).resolve_left (by omega)
        obtain rfl := List.eq_nil_of_length_eq_zero hleft
        rw [heq]
        exact ⟨rfl, rfl⟩
      · have hless := length_drop_readAmount hend
        obtain ⟨hall, hnone⟩ := ih _ (hlen ▸ hless) _ rfl (n + 1) hlater
        rw [heq]
        exact ⟨by rw [hall, List.take_append_drop], hnone⟩

/-- A copy loop without a buffer copies nothing. -/
theorem copyLoop_zero (n : Nat) (rest : List Byte) :
    (copyLoop env 0 n rest).accepted = [] ∧ (copyLoop env 0 n rest).rest = rest := by
  rw [copyLoop]
  cases env.read n with
  | none => exact ⟨rfl, rfl⟩
  | some want => simp [readAmount]

/-! ### All files -/

/-- What is on standard input after a file. -/
def stdinAfter (f : CStr) (r : Copied) (stdin : List Byte) : List Byte :=
  if f = ['-'] then r.rest else stdin

/-- What there is to read from a file. -/
def Files.source (files : Files) (f : CStr) (stdin : List Byte) : List Byte :=
  if f = ['-'] then stdin else files.content f

theorem Files.concat_cons (files : Files) (f : CStr) (fs : List CStr) (stdin : List Byte) :
    files.concat stdin (f :: fs) =
      files.source f stdin ++ files.concat (if f = ['-'] then [] else stdin) fs := by
  rw [concat, source]
  split_ifs <;> rfl

/-- One turn of the loop over the files: it gives up, or the file has been copied by a loop
that ended well. -/
theorem copyFiles_cons {bufferSize : Int} (hsize : 0 ≤ bufferSize) (f : CStr) (fs : List CStr)
    (k n : Nat) (stdin : List Byte) :
    (copyFiles env files bufferSize (f :: fs) k n stdin).exit = .returned (-1) ∨
    ∃ r later, r = copyLoop env bufferSize.toNat n (files.source f stdin) ∧ r.ok = true ∧
      later = copyFiles env files bufferSize fs (k + 1) r.calls (stdinAfter f r stdin) ∧
      copyFiles env files bufferSize (f :: fs) k n stdin =
        { later with accepted := r.accepted ++ later.accepted } := by
  rw [copyFiles, if_neg (show ¬ bufferSize < 0 by omega)]
  by_cases hopen : f ≠ ['-'] ∧ env.opens k = false
  · rw [if_pos hopen]
    exact .inl rfl
  · rw [if_neg hopen]
    cases hok : (copyLoop env bufferSize.toNat n (files.source f stdin)).ok with
    | false =>
        left
        have hok' := hok
        unfold Files.source at hok'
        simp [hok']
    | true =>
        refine .inr ⟨_, _, rfl, hok, rfl, ?_⟩
        unfold Files.source at hok
        simp [hok, stdinAfter, Files.source]

/-- With a positive buffer size the copy is exact. -/
theorem copyFiles_exact {bufferSize : Int} (hsize : 0 < bufferSize) (fs : List CStr) :
    ∀ k n stdin, (copyFiles env files bufferSize fs k n stdin).Exact (files.concat stdin fs) := by
  induction fs with
  | nil => exact fun k n stdin => ⟨0, rfl, fun _ => rfl⟩
  | cons f fs ih =>
      intro k n stdin
      rcases copyFiles_cons (Int.le_of_lt hsize) f fs k n stdin with
        hfail | ⟨r, later, hr, hok, hl, heq⟩
      · exact ⟨-1, hfail, fun h => by cases h⟩
      · rw [hr] at hok
        obtain ⟨hall, hnone⟩ := copyLoop_exact (by omega) _ n hok
        rw [← hr] at hall hnone
        obtain ⟨code, hcode, hlater⟩ := ih (k + 1) r.calls (stdinAfter f r stdin)
        rw [← hl] at hcode hlater
        refine ⟨code, by rw [heq]; exact hcode, fun hzero => ?_⟩
        rw [heq, Files.concat_cons]
        dsimp only
        rw [hall, hlater hzero, stdinAfter, hnone]

/-- Without a buffer nothing is copied. -/
theorem copyFiles_zero (fs : List CStr) : ∀ k n stdin, ∃ code,
    (copyFiles env files 0 fs k n stdin).exit = .returned code ∧
      (code = 0 → (copyFiles env files 0 fs k n stdin).accepted = []) := by
  induction fs with
  | nil => exact fun k n stdin => ⟨0, rfl, fun _ => rfl⟩
  | cons f fs ih =>
      intro k n stdin
      rcases copyFiles_cons (Int.le_refl 0) f fs k n stdin with hfail | ⟨r, later, hr, -, hl, heq⟩
      · exact ⟨-1, hfail, fun h => by cases h⟩
      · obtain ⟨code, hcode, hlater⟩ := ih (k + 1) r.calls (stdinAfter f r stdin)
        rw [← hl] at hcode hlater
        refine ⟨code, by rw [heq]; exact hcode, fun hzero => ?_⟩
        have hnothing : r.accepted = [] := by
          rw [hr]
          exact (copyLoop_zero n _).1
        rw [heq]
        dsimp only
        rw [hnothing, hlater hzero]
        rfl

/-! ### The system at its best -/

/-- A system that opens every file, and reads and writes as much as it can. -/
def smooth : Env := ⟨fun _ => true, fun _ => some (2 ^ 31), fun _ => some (2 ^ 31)⟩

/-- Without a buffer every file is "copied", and the program is content. -/
theorem copyFiles_smooth_zero (fs : List CStr) :
    ∀ k n stdin, copyFiles smooth files 0 fs k n stdin = ⟨.returned 0, []⟩ := by
  induction fs with
  | nil => exact fun k n stdin => rfl
  | cons f fs ih =>
      intro k n stdin
      have hloop : ∀ rest, copyLoop smooth 0 n rest = ⟨true, [], rest, n + 1⟩ := by
        intro rest
        rw [copyLoop]
        simp [smooth, readAmount]
      rw [copyFiles, if_neg (by simp [smooth]), if_neg (by omega)]
      simp [hloop, ih]

theorem copyFiles_smooth_neg {bufferSize : Int} (hneg : bufferSize < 0) {fs : List CStr}
    (hne : fs ≠ []) (k n : Nat) (stdin : List Byte) :
    (copyFiles smooth files bufferSize fs k n stdin).exit = .undefined := by
  cases fs with
  | nil => exact absurd rfl hne
  | cons f fs => rw [copyFiles, if_neg (by simp [smooth]), if_pos hneg]

/-- **When the output is the concatenation of the inputs**, whatever the system answers: the
buffer size is positive, or it is 0 and all inputs are empty, or there is no input file. -/
theorem main_exact_iff {argv : List CStr} {o : Options}
    (hoptions : getOptions argv defaults = some o) :
    (∀ env, (main env files argv).Exact
      (files.concat files.stdin (inputFiles argv o.numToRemove))) ↔
    0 < o.bufferSize ∨
      o.bufferSize = 0 ∧ files.concat files.stdin (inputFiles argv o.numToRemove) = [] ∨
      inputFiles argv o.numToRemove = [] := by
  have hmain : ∀ env, main env files argv =
      copyFiles env files o.bufferSize (inputFiles argv o.numToRemove) 0 0 files.stdin := by
    intro env
    rw [main, hoptions]
  simp only [hmain]
  generalize inputFiles argv o.numToRemove = fs
  constructor
  · intro h
    -- one friendly environment tells which buffer sizes fail
    obtain ⟨code, hexit, hexact⟩ := h smooth
    rcases Int.lt_trichotomy o.bufferSize 0 with hneg | hzero | hpos
    · right
      right
      by_contra hne
      rw [copyFiles_smooth_neg hneg hne] at hexit
      cases hexit
    · right
      left
      rw [hzero, copyFiles_smooth_zero] at hexit hexact
      obtain rfl : 0 = code := by simpa using hexit
      exact ⟨hzero, (hexact rfl).symm⟩
    · exact .inl hpos
  · intro h env
    rcases h with hpos | ⟨hzero, hempty⟩ | hnone
    · exact copyFiles_exact hpos fs 0 0 _
    · rw [hzero, hempty]
      exact copyFiles_zero fs 0 0 _
    · rw [hnone]
      exact ⟨0, rfl, fun _ => rfl⟩

/-- `copycat -b 2 f` on a file of three bytes. -/
theorem main_exact_iff_two : (main smooth ⟨fun _ => [1, 2, 3], []⟩
    [['c'], ['-', 'b'], ['2'], ['f']]).Exact [1, 2, 3] :=
  (main_exact_iff (o := ⟨none, 2, 3⟩) (by decide)).mpr (.inl (by decide)) smooth

/-- **`copycat -b abc f` copies nothing and returns 0**, and nothing goes wrong on the way. -/
theorem main_not_exact : ¬ ∀ env files argv o, getOptions argv defaults = some o →
    (main env files argv).Exact (files.concat files.stdin (inputFiles argv o.numToRemove)) := by
  intro hall
  have hoptions : getOptions [['c'], ['-', 'b'], ['a', 'b', 'c'], ['f']] defaults =
      some ⟨none, 0, 3⟩ := by decide
  obtain ⟨code, hexit, hexact⟩ := hall smooth ⟨fun _ => [1], []⟩ _ _ hoptions
  rw [main, hoptions] at hexit hexact
  dsimp only at hexit hexact
  rw [copyFiles_smooth_zero] at hexit hexact
  obtain rfl : 0 = code := by simpa using hexit
  exact absurd (hexact rfl) (by decide)

end Ece357.Copycat
