import Ece357.Shell.Redirections

/-!
# Ece357.Shell.Bounds

**Which elements of its arrays the shell uses.** The two loops that copy arguments go one step
too far, so that a line with arguments always takes one of them behind its array
(`copy_overruns`); a line without any has no first argument to show. Nothing goes wrong only
when the process ends before that, for want of memory in `getArguments` (`uses_inside_iff`).
After `getArguments` no use is farther off than the element right behind its array
(`bodyUses_atMostBehind`).

What a program does after a use outside of an array is not defined. The uses are listed as if
it went on.
-/

namespace Ece357.Shell

open Ece357.Machine

inductive Buffer
  | line
  | args
  | commandArgs
  | redirectArgs
  deriving DecidableEq, Repr

/-- An element of an array that is read or written, with the size the array has by then. -/
structure Use where
  buffer : Buffer
  size : Nat
  index : Int
  deriving DecidableEq, Repr

def Use.Inside (u : Use) : Prop := 0 ≤ u.index ∧ u.index < u.size

instance (u : Use) : Decidable u.Inside := inferInstanceAs (Decidable (_ ∧ _))

/-- `n` elements of an array of `size` elements, one after the other from `start` on. -/
def usesFrom (buffer : Buffer) (size start n : Nat) : List Use :=
  (List.range n).map fun i => ⟨buffer, size, (start + i : Nat)⟩

/-- Inside, or the one element right behind. -/
def Use.AtMostBehind (u : Use) : Prop := 0 ≤ u.index ∧ u.index ≤ u.size

theorem usesFrom_atMostBehind {buffer : Buffer} {size start n : Nat} (h : start + n ≤ size + 1) :
    ∀ u ∈ usesFrom buffer size start n, u.AtMostBehind := by
  intro u hu
  obtain ⟨i, hi, rfl⟩ := List.mem_map.mp hu
  have hlt := List.mem_range.mp hi
  unfold Use.AtMostBehind
  dsimp only
  omega

theorem forall_mem_ite_nil {α : Type} {c : Prop} [Decidable c] {l : List α} {P : α → Prop}
    (h : c → ∀ u ∈ l, P u) : ∀ u ∈ (if c then l else []), P u := by
  intro u hu
  split_ifs at hu with hc
  · exact h hc u hu
  · cases hu

/-- One element too many is taken of an array. -/
theorem overrun_mem (buffer : Buffer) (size : Nat) :
    ⟨buffer, size, size⟩ ∈ usesFrom buffer size 0 (size + 1) :=
  List.mem_map.mpr ⟨size, List.mem_range.mpr (Nat.lt_succ_self size), by rw [Nat.zero_add]⟩

/-! ### `getArguments` -/

def strlen (s : CStr) : Nat := (s.takeWhile (· ≠ nul)).length

theorem strlen_le (s : CStr) : strlen s ≤ s.length := (List.takeWhile_prefix _).length_le

/-- `line[strlen(line) - 1]`, of the bytes that `getline` has delivered: of an empty string, by
wrapping around, the one in front of them. -/
def lineUse (line : CStr) : Use := ⟨.line, line.length, strlen line - 1⟩

theorem lineUse_inside_iff (line : CStr) : (lineUse line).Inside ↔ 0 < strlen line := by
  have hle := strlen_le line
  unfold Use.Inside lineUse
  dsimp only
  omega

/-- `args[*count-1]`, as long as `realloc` gives room for one more. -/
def tokenUses (alloc : Nat → Bool) : Nat → List CStr → List Use
  | _, [] => []
  | count, _ :: rest =>
      if alloc count then ⟨.args, count + 1, count⟩ :: tokenUses alloc (count + 1) rest else []

theorem tokenUses_inside (alloc : Nat → Bool) (count : Nat) (args : List CStr) :
    ∀ u ∈ tokenUses alloc count args, u.Inside := by
  induction args generalizing count with
  | nil => exact fun u hu => absurd hu List.not_mem_nil
  | cons arg args ih =>
      intro u hu
      unfold tokenUses at hu
      split_ifs at hu
      · rcases List.mem_cons.mp hu with rfl | hu
        · unfold Use.Inside
          dsimp only
          omega
        · exact ih (count + 1) u hu
      · cases hu

def getArgumentsUses (alloc : Nat → Bool) (line : CStr) : List Use :=
  lineUse line :: tokenUses alloc 0 (getArguments line)

/-- `getArguments` returns. -/
def returns (alloc : Nat → Bool) (line : CStr) : Bool :=
  (List.range (getArguments line).length).all alloc

/-! ### `executeCommand` -/

/-- `getCommandArgCount` and `getRedirectArgCount` look at all arguments. -/
def countUses (args : List CStr) : List Use := usesFrom .args args.length 0 args.length

/-- The loop that copies to `commandArgs`, and the null pointer at the end of the array, which
has grown by then. -/
def commandUses (args : List CStr) : List Use :=
  let count := getCommandArgCount args
  if 0 < count then
    usesFrom .args args.length 0 (count + 1) ++ usesFrom .commandArgs count 0 (count + 1) ++
      [⟨.commandArgs, count + 1, count⟩]
  else []

/-- The loop that copies to `redirectArgs`. -/
def redirectUses (args : List CStr) : List Use :=
  let count := getRedirectArgCount args
  if 0 < count then
    usesFrom .args args.length (getCommandArgCount args) (count + 1) ++
      usesFrom .redirectArgs count 0 (count + 1)
  else []

/-- The command as it is shown: `args[0]`, and the arguments behind the first. -/
def displayUses (args : List CStr) : List Use :=
  ⟨.args, args.length, 0⟩ ::
    (usesFrom .commandArgs (getCommandArgCount args + 1) 1 (getCommandArgCount args - 1) ++
      usesFrom .redirectArgs (getRedirectArgCount args) 0 (getRedirectArgCount args))

/-- The child: the redirections that the loop comes to, and `args[0]` for `execvp`. -/
def childUses (a : Answers) (args : List CStr) : List Use :=
  usesFrom .redirectArgs (getRedirectArgCount args) 0 (opens a 0 (redirectArgs args)).length ++
    if redirect a 0 (redirectArgs args) then [⟨.args, args.length, 0⟩] else []

def bodyUses (a : Answers) (args : List CStr) : List Use :=
  countUses args ++ commandUses args ++ countUses args ++ redirectUses args ++ displayUses args ++
    if a.startTime && a.fork then childUses a args else []

/-- All uses in an execution of `executeCommand`; `alloc` says which calls of `realloc` in
`getArguments` succeed. -/
def executeCommandUses (alloc : Nat → Bool) (a : Answers) (line : CStr) : List Use :=
  getArgumentsUses alloc line ++
    if returns alloc line then bodyUses a (getArguments line) else []

/-- A line with arguments takes one of the loops behind its array. -/
theorem copy_overruns {args : List CStr} (hne : args ≠ []) :
    (⟨.commandArgs, getCommandArgCount args, getCommandArgCount args⟩ ∈ commandUses args) ∨
      (⟨.redirectArgs, getRedirectArgCount args, getRedirectArgCount args⟩ ∈
        redirectUses args) := by
  by_cases hcommand : 0 < getCommandArgCount args
  · left
    unfold commandUses
    rw [if_pos hcommand, List.mem_append, List.mem_append]
    exact .inl (.inr (overrun_mem .commandArgs _))
  · right
    have hredirect : 0 < getRedirectArgCount args := by
      have hcounts := counts_add args
      have hpos := List.length_pos_iff.mpr hne
      omega
    unfold redirectUses
    rw [if_pos hredirect, List.mem_append]
    exact .inr (overrun_mem .redirectArgs _)

/-- Behind `getArguments` there is always a use outside of its array. -/
theorem bodyUses_outside (a : Answers) (args : List CStr) : ∃ u ∈ bodyUses a args, ¬ u.Inside := by
  have hend (buffer : Buffer) (n : Nat) : ¬ (⟨buffer, n, n⟩ : Use).Inside := by
    unfold Use.Inside
    dsimp only
    omega
  unfold bodyUses
  simp only [List.mem_append]
  by_cases hne : args = []
  · subst hne
    exact ⟨⟨.args, 0, 0⟩, .inl (.inr List.mem_cons_self), hend .args 0⟩
  · rcases copy_overruns hne with h | h
    · exact ⟨_, .inl (.inl (.inl (.inl (.inr h)))), hend _ _⟩
    · exact ⟨_, .inl (.inl (.inr h)), hend _ _⟩

/-- No use is farther off than that. -/
theorem bodyUses_atMostBehind (a : Answers) (args : List CStr) :
    ∀ u ∈ bodyUses a args, u.AtMostBehind := by
  have hcounts := counts_add args
  have hfirst : (⟨.args, args.length, 0⟩ : Use).AtMostBehind := by
    unfold Use.AtMostBehind
    dsimp only
    omega
  have hcount : ∀ u ∈ countUses args, u.AtMostBehind := usesFrom_atMostBehind (by omega)
  have hcommand : ∀ u ∈ commandUses args, u.AtMostBehind := by
    refine forall_mem_ite_nil fun _ => ?_
    simp only [List.forall_mem_append, List.forall_mem_singleton]
    refine ⟨⟨usesFrom_atMostBehind (by omega), usesFrom_atMostBehind (by omega)⟩, ?_⟩
    unfold Use.AtMostBehind
    dsimp only
    omega
  have hredirect : ∀ u ∈ redirectUses args, u.AtMostBehind := by
    refine forall_mem_ite_nil fun _ => ?_
    rw [List.forall_mem_append]
    exact ⟨usesFrom_atMostBehind (by omega), usesFrom_atMostBehind (by omega)⟩
  have hdisplay : ∀ u ∈ displayUses args, u.AtMostBehind := by
    unfold displayUses
    rw [List.forall_mem_cons, List.forall_mem_append]
    exact ⟨hfirst, usesFrom_atMostBehind (by omega), usesFrom_atMostBehind (by omega)⟩
  have hchild : ∀ u ∈ childUses a args, u.AtMostBehind := by
    have hopens := opens_length_le a 0 (redirectArgs args)
    have hlen : (redirectArgs args).length ≤ getRedirectArgCount args := List.length_take_le ..
    unfold childUses
    rw [List.forall_mem_append]
    refine ⟨usesFrom_atMostBehind (by omega), forall_mem_ite_nil fun _ => ?_⟩
    exact List.forall_mem_singleton.mpr hfirst
  unfold bodyUses
  simp only [List.forall_mem_append]
  exact ⟨⟨⟨⟨⟨hcount, hcommand⟩, hcount⟩, hredirect⟩, hdisplay⟩, forall_mem_ite_nil fun _ => hchild⟩

/-- **All uses are inside their arrays just where the line is not empty as a string and the
process ends for want of memory while it is split.** -/
theorem uses_inside_iff (alloc : Nat → Bool) (a : Answers) (line : CStr) :
    (∀ u ∈ executeCommandUses alloc a line, u.Inside) ↔
      0 < strlen line ∧ ∃ k < (getArguments line).length, alloc k = false := by
  unfold executeCommandUses getArgumentsUses
  rw [List.cons_append, List.forall_mem_cons, lineUse_inside_iff]
  refine and_congr_right fun _ => ?_
  rw [List.forall_mem_append]
  constructor
  · rintro ⟨-, hbody⟩
    by_contra hall
    have hreturns : returns alloc line = true := by
      refine List.all_eq_true.mpr fun k hk => ?_
      by_contra hk'
      exact hall ⟨k, List.mem_range.mp hk, by simpa using hk'⟩
    rw [if_pos hreturns] at hbody
    obtain ⟨u, hu, houtside⟩ := bodyUses_outside a (getArguments line)
    exact houtside (hbody u hu)
  · rintro ⟨k, hk, halloc⟩
    have hstops : returns alloc line = false := by
      refine List.all_eq_false.mpr ⟨k, List.mem_range.mpr hk, ?_⟩
      simp [halloc]
    refine ⟨tokenUses_inside alloc 0 _, ?_⟩
    rw [if_neg (by simp [hstops])]
    exact fun u hu => absurd hu List.not_mem_nil

/-- The line `ls`: `commandArgs` has one element, and the second is written. -/
theorem uses_not_inside :
    ¬ ∀ (alloc : Nat → Bool) (a : Answers) (line : CStr),
      ∀ u ∈ executeCommandUses alloc a line, u.Inside := by
  intro h
  have hls := h (fun _ => true) .smooth "ls\n".toList ⟨.commandArgs, 1, 1⟩ (by decide +kernel)
  revert hls
  decide

end Ece357.Shell
