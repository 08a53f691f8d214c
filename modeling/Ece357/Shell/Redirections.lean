import Ece357.Machine.Descriptors
import Ece357.Shell.Model
import Mathlib.Data.Option.Basic

/-!
# Ece357.Shell.Redirections

**Arguments and redirections.** `executeCommand` counts the arguments that are no redirections
wherever they stand, but copies them by position: the two vectors are right for the lines that
have such an argument, and all of them in front (`separated_iff`).

The loop of the child tells the five operators apart by a chain of conditions. The one for
`2>>` comes behind the one for `2>`, which holds of every `2>>` as well (`opens_meaning_iff`).

On the table of descriptors every turn opens a file at the lowest free number, copies it to the
number of the operator and closes the first one. The lowest free number is thus the same at
every turn. A redirection to that very number is closed again at once
(`redirectTable_composed_iff`).
-/

namespace Ece357.Shell

open Ece357.Machine

/-! ### The vectors -/

/-- The vector given to `execvp`. Without an argument that is no redirection nothing is stored
in it, not even the null pointer at its end. -/
def execVector (args : List CStr) : List (Option CStr) :=
  if getCommandArgCount args = 0 then [] else (commandArgs args).map some ++ [none]

/-- The file given to `execvp`. -/
def execFile (args : List CStr) : Option CStr := args.head?

/-- The arguments that are no redirections. -/
def plain (args : List CStr) : List CStr := args.filter (! isRedirect ·)

/-- The vectors hold the two kinds of arguments, each in their order, and the file is the first
argument that is no redirection. -/
structure Separated (args : List CStr) : Prop where
  vector : execVector args = (plain args).map some ++ [none]
  file : ∃ arg, execFile args = some arg ∧ (plain args).head? = some arg
  redirections : redirectArgs args = args.filter isRedirect

/-- No argument stands behind a redirection unless it is one. -/
def RedirectionsLast (args : List CStr) : Prop :=
  args.Pairwise fun x y => isRedirect x = true → isRedirect y = true

theorem getCommandArgCount_eq (args : List CStr) : getCommandArgCount args = (plain args).length :=
  List.countP_eq_length_filter

theorem getCommandArgCount_ne_zero {args : List CStr} (h : plain args ≠ []) :
    getCommandArgCount args ≠ 0 := by
  rw [getCommandArgCount_eq]
  exact fun h0 => h (List.length_eq_zero_iff.mp h0)

/-- Every argument is counted once. -/
theorem counts_add (args : List CStr) :
    getCommandArgCount args + getRedirectArgCount args = args.length := by
  have h := List.length_eq_countP_add_countP isRedirect (l := args)
  unfold getCommandArgCount getRedirectArgCount
  simp only [Bool.not_eq_true, Bool.decide_eq_false] at h
  omega

theorem commandArgs_append_redirectArgs (args : List CStr) :
    commandArgs args ++ redirectArgs args = args := by
  have hcounts := counts_add args
  have hlen : (args.drop (getCommandArgCount args)).length = getRedirectArgCount args := by
    rw [List.length_drop]
    omega
  unfold commandArgs redirectArgs
  rw [← hlen, List.take_length, List.take_append_drop]

/-- Arguments in order are sorted by kind. -/
theorem RedirectionsLast.split {args : List CStr} (h : RedirectionsLast args) :
    plain args ++ args.filter isRedirect = args := by
  induction args with
  | nil => rfl
  | cons arg args ih =>
      obtain ⟨hbehind, hrest⟩ := List.pairwise_cons.mp h
      cases harg : isRedirect arg with
      | false =>
          unfold plain at ih ⊢
          rw [List.filter_cons_of_pos (by simp [harg]), List.filter_cons_of_neg (by simp [harg]),
            List.cons_append, ih hrest]
      | true =>
          -- Nothing but redirections follows.
          have hall : ∀ other ∈ arg :: args, isRedirect other = true :=
            List.forall_mem_cons.mpr ⟨harg, fun other hmem => hbehind other hmem harg⟩
          have hplain : plain (arg :: args) = [] :=
            List.filter_eq_nil_iff.mpr fun other hmem => by simp [hall other hmem]
          rw [hplain, List.nil_append, List.filter_eq_self.mpr hall]

theorem redirectionsLast_of_split {args : List CStr}
    (h : plain args ++ args.filter isRedirect = args) : RedirectionsLast args := by
  unfold RedirectionsLast
  rw [← h, List.pairwise_append]
  refine ⟨?_, ?_, ?_⟩
  · refine List.pairwise_of_forall_mem_list fun x hx y _ hredirect => ?_
    have hnot := List.of_mem_filter hx
    simp [hredirect] at hnot
  · exact List.pairwise_of_forall_mem_list fun x _ y hy _ => List.of_mem_filter hy
  · exact fun x _ y hy _ => List.of_mem_filter hy

/-- **The vectors are right just for the lines with a command in front of all redirections**, where
`execvp` is reached. What is stored behind the two vectors while they are filled may end the shell
before that, for lines that meet the condition, too. -/
theorem separated_iff (line : CStr) :
    Separated (getArguments line) ↔
      plain (getArguments line) ≠ [] ∧ RedirectionsLast (getArguments line) := by
  generalize getArguments line = args
  have happend := commandArgs_append_redirectArgs args
  constructor
  · intro h
    obtain ⟨arg, -, hhead⟩ := h.file
    have hne : plain args ≠ [] := List.ne_nil_of_mem (List.mem_of_mem_head? hhead)
    refine ⟨hne, redirectionsLast_of_split ?_⟩
    have hvector := h.vector
    rw [execVector, if_neg (getCommandArgCount_ne_zero hne), List.append_left_inj] at hvector
    have hcommand := List.map_injective_iff.mpr (Option.some_injective CStr) hvector
    rwa [hcommand, h.redirections] at happend
  · rintro ⟨hne, hlast⟩
    have hsplit := hlast.split
    have hcommand : commandArgs args = plain args := by
      unfold commandArgs
      conv_lhs => rw [← hsplit]
      rw [List.take_left' (by rw [hsplit, getCommandArgCount_eq])]
    refine ⟨?_, ?_, ?_⟩
    · rw [execVector, if_neg (getCommandArgCount_ne_zero hne), hcommand]
    · obtain ⟨arg, rest, hplain⟩ := List.exists_cons_of_ne_nil hne
      refine ⟨arg, ?_, by rw [hplain]; rfl⟩
      unfold execFile
      rw [← hsplit, hplain]
      rfl
    · rw [hcommand] at happend
      exact List.append_cancel_left (happend.trans hsplit.symm)

/-- In `>f ls` the first argument is given to the command, and the second is taken for a
redirection. -/
theorem not_separated :
    ¬ ∀ line, getArguments line ≠ [] → Separated (getArguments line) := by
  intro h
  have hvector := (h ">f ls\n".toList (by decide +kernel)).vector
  revert hvector
  decide +kernel

/-! ### The operators -/

inductive Operator
  | input
  | output
  | error
  | outputAppend
  | errorAppend
  deriving DecidableEq, Repr

namespace Operator

def spelling : Operator → CStr
  | input => ['<']
  | output => ['>']
  | error => ['2', '>']
  | outputAppend => ['>', '>']
  | errorAppend => ['2', '>', '>']

def mode : Operator → Mode
  | input => .read
  | output => .truncate
  | error => .truncate
  | outputAppend => .append
  | errorAppend => .append

def fileNum : Operator → Nat
  | input => 0
  | output => 1
  | error => 2
  | outputAppend => 1
  | errorAppend => 2

end Operator

/-- An operator and the name of a file. -/
structure Token where
  op : Operator
  name : CStr
  ne_nil : name ≠ []
  no_operator : name.head? ≠ some '>'

namespace Token

/-- How the token is written. -/
def text (t : Token) : CStr := t.op.spelling ++ t.name

/-- What the token asks for. -/
def meaning (t : Token) : Redirection := ⟨t.name, t.op.mode, t.op.fileNum⟩

theorem name_eq (t : Token) : ∃ c name, t.name = c :: name ∧ c ≠ '>' := by
  obtain ⟨c, name, hname⟩ := List.exists_cons_of_ne_nil t.ne_nil
  refine ⟨c, name, hname, ?_⟩
  rintro rfl
  have hhead := t.no_operator
  rw [hname] at hhead
  exact hhead rfl

/-- The operator is the longest one that the text begins with. -/
theorem longest (t : Token) {op : Operator} (h : op.spelling <+: t.text) :
    op.spelling.length ≤ t.op.spelling.length := by
  obtain ⟨c, name, hname, hc⟩ := t.name_eq
  unfold text at h
  rw [hname] at h
  revert h
  cases t.op <;> cases op <;> simp [Operator.spelling, List.cons_prefix_cons, Ne.symm hc]

/-- The chain of conditions gives every token its meaning except those with `2>>`. -/
theorem redirection_eq_iff (t : Token) :
    redirection t.text = some t.meaning ↔ t.op ≠ .errorAppend := by
  obtain ⟨c, name, hname, hc⟩ := t.name_eq
  unfold text meaning
  rw [hname]
  cases t.op <;>
    simp [redirection, Operator.spelling, Operator.mode, Operator.fileNum, charAt, hc]

end Token

/-- The calls of `open` in the loop over `redirectArgs`, from the `k`-th on: the loop ends the
process when an `open` or a `dup2` fails. -/
def opens (a : Answers) : Nat → List CStr → List (Option Redirection)
  | _, [] => []
  | k, arg :: rest =>
      redirection arg ::
        if a.opened k (redirection arg) && a.dupped k (redirection arg) then opens a (k + 1) rest
        else []

theorem opens_length_le (a : Answers) (k : Nat) (args : List CStr) :
    (opens a k args).length ≤ args.length := by
  induction args generalizing k with
  | nil => exact Nat.le_refl _
  | cons arg args ih =>
      have hrest := ih (k + 1)
      unfold opens
      split_ifs
      · simpa using hrest
      · simp

/-- Every file is opened that is asked for if the loop comes to its end. -/
theorem opens_length {a : Answers} {k : Nat} {args : List CStr} (h : redirect a k args = true) :
    (opens a k args).length = args.length := by
  induction args generalizing k with
  | nil => rfl
  | cons arg args ih =>
      unfold redirect at h
      obtain ⟨hok, hrest⟩ := Bool.and_eq_true_iff.mp h
      rw [opens, if_pos hok, List.length_cons, ih hrest, List.length_cons]

/-- No token has the operator `2>>` up to the first whose `open` or `dup2` fails. -/
def NoErrorAppend (a : Answers) : Nat → List Token → Prop
  | _, [] => True
  | k, t :: rest =>
      t.op ≠ .errorAppend ∧
        ((a.opened k (some t.meaning) && a.dupped k (some t.meaning)) = true →
          NoErrorAppend a (k + 1) rest)

theorem opens_prefix_iff (a : Answers) (k : Nat) (tokens : List Token) :
    opens a k (tokens.map Token.text) <+: tokens.map (fun t => some t.meaning) ↔
      NoErrorAppend a k tokens := by
  induction tokens generalizing k with
  | nil => exact ⟨fun _ => trivial, fun _ => List.prefix_rfl⟩
  | cons t tokens ih =>
      rw [List.map_cons, List.map_cons, opens, List.cons_prefix_cons, NoErrorAppend,
        t.redirection_eq_iff]
      refine and_congr_right fun hop => ?_
      rw [t.redirection_eq_iff.mpr hop]
      cases (a.opened k (some t.meaning) && a.dupped k (some t.meaning)) with
      | true => simpa using ih (k + 1)
      | false => simp

/-- **The operators mean what they spell just where the loop does not come to a `2>>`.** -/
theorem opens_meaning_iff (a : Answers) (tokens : List Token) :
    (opens a 0 (tokens.map Token.text) <+: tokens.map (fun t => some t.meaning) ↔
      NoErrorAppend a 0 tokens) ∧
    (redirect a 0 (tokens.map Token.text) = true →
      (opens a 0 (tokens.map Token.text)).length = tokens.length) := by
  refine ⟨opens_prefix_iff a 0 tokens, fun h => ?_⟩
  rw [opens_length h, List.length_map]

/-- `>out` and `2>err` are opened as they are meant. -/
theorem opens_meaning_iff_files :
    opens .smooth 0 [">out".toList, "2>err".toList] <+:
      [some ⟨"out".toList, .truncate, 1⟩, some ⟨"err".toList, .truncate, 2⟩] :=
  (opens_meaning_iff .smooth
      [⟨.output, "out".toList, by decide, by decide⟩,
        ⟨.error, "err".toList, by decide, by decide⟩]).1.mpr
    ⟨by decide, fun _ => ⟨by decide, fun _ => trivial⟩⟩

/-- `2>>log` truncates the file `>log`. -/
theorem opens_not_meaning :
    ¬ ∀ (a : Answers) (tokens : List Token),
      opens a 0 (tokens.map Token.text) <+: tokens.map (fun t => some t.meaning) := by
  intro h
  have hlog := h .smooth [⟨.errorAppend, "log".toList, by decide, by decide⟩]
  revert hlog
  decide

/-! ### The table of descriptors -/

section Table

variable {δ : Type*}

/-- A turn of the loop over `redirectArgs`; `d` is what the new descriptor refers to. -/
def redirectStep (limit : Nat) (T : FdTable δ) (arg : CStr) (d : δ) : Option (FdTable δ) :=
  match redirection arg with
  | none => none
  | some r =>
      match T.allocate limit d with
      | none => none
      | some (fd, T₁) => (T₁.dup2 limit fd r.fileNum).map (·.close fd)

/-- The loop, over the arguments and what their calls of `open` give; `none` if one fails. -/
def redirectTable (limit : Nat) : FdTable δ → List (CStr × δ) → Option (FdTable δ)
  | T, [] => some T
  | T, (arg, d) :: rest =>
      match redirectStep limit T arg d with
      | none => none
      | some T' => redirectTable limit T' rest

/-- The descriptor that an argument names. -/
def target (arg : CStr) : Option Nat :=
  if charAt arg 0 = '<' then some 0
  else if charAt arg 0 = '>' then some 1
  else if charAt arg 0 = '2' ∧ charAt arg 1 = '>' then some 2
  else none

/-- The file opened by the last argument that names `n`. -/
def lastOpened (n : Nat) (tokens : List (CStr × δ)) : Option δ :=
  (tokens.reverse.find? fun t => target t.1 = some n).map Prod.snd

/-- The descriptors that are named refer to the files opened last for them, and the others to
what they did. -/
def Composed (T : FdTable δ) (tokens : List (CStr × δ)) (T' : FdTable δ) : Prop :=
  ∀ n, T' n = (lastOpened n tokens).or (T n)

theorem redirection_fileNum (arg : CStr) :
    (redirection arg).map Redirection.fileNum = target arg := by
  unfold redirection target
  split_ifs <;> simp_all

theorem lastOpened_cons (n : Nat) (arg : CStr) (d : δ) (tokens : List (CStr × δ)) :
    lastOpened n ((arg, d) :: tokens) =
      (lastOpened n tokens).or (if target arg = some n then some d else none) := by
  unfold lastOpened
  rw [List.reverse_cons, List.find?_append, Option.map_or]
  by_cases h : target arg = some n <;> simp [h]

theorem lastOpened_eq_none {n : Nat} {tokens : List (CStr × δ)} :
    lastOpened n tokens = none ↔ ∀ t ∈ tokens, target t.1 ≠ some n := by
  simp [lastOpened]

/-- A turn changes the descriptor that is named, unless its number is the lowest free one. -/
theorem redirectStep_inv {limit : Nat} {T T' : FdTable δ} {arg : CStr} {d : δ}
    (h : redirectStep limit T arg d = some T') :
    ∃ low n, T.lowestFree limit = some low ∧ target arg = some n ∧
      T' = if n = low then T else T.set n d := by
  unfold redirectStep at h
  cases hr : redirection arg with
  | none => simp [hr] at h
  | some r =>
      cases halloc : T.allocate limit d with
      | none => simp [hr, halloc] at h
      | some fdT =>
          obtain ⟨fd, T₁⟩ := fdT
          simp only [hr, halloc, Option.map_eq_some_iff] at h
          obtain ⟨T₂, hdup, rfl⟩ := h
          obtain ⟨hlt, hfree, hused, rfl⟩ := FdTable.allocate_inv halloc
          obtain ⟨e, he, rfl⟩ := FdTable.dup2_inv hdup
          obtain rfl : d = e := by simpa [FdTable.set] using he
          refine ⟨fd, r.fileNum, FdTable.lowestFree_eq_some.mpr ⟨hlt, hfree, hused⟩, ?_, ?_⟩
          · rw [← redirection_fileNum, hr]
            rfl
          · funext m
            by_cases hm : m = fd
            · subst hm
              by_cases hn : r.fileNum = m
              · simp [FdTable.close, hn, hfree]
              · simp [FdTable.close, FdTable.set, hn, hfree, Ne.symm hn]
            · by_cases hn : r.fileNum = fd
              · simp [FdTable.close, FdTable.set, hn, hm]
              · by_cases hmn : m = r.fileNum <;> simp [FdTable.close, FdTable.set, hn, hm, hmn]

/-- The lowest free number stays free, and the lowest. -/
theorem lowestFree_set {limit n low : Nat} {T : FdTable δ} {d : δ} (hne : n ≠ low)
    (h : T.lowestFree limit = some low) : (T.set n d).lowestFree limit = some low := by
  rw [FdTable.lowestFree_eq_some] at h ⊢
  obtain ⟨hlt, hfree, hused⟩ := h
  refine ⟨hlt, ?_, fun m hm => ?_⟩
  · simpa [FdTable.set, Ne.symm hne] using hfree
  · by_cases hmn : m = n
    · simp [FdTable.set, hmn]
    · simpa [FdTable.set, hmn] using hused m hm

theorem redirectStep_lowestFree {limit low : Nat} {T T' : FdTable δ} {arg : CStr} {d : δ}
    (hlow : T.lowestFree limit = some low) (h : redirectStep limit T arg d = some T') :
    T'.lowestFree limit = some low := by
  obtain ⟨low', n, hlow', -, rfl⟩ := redirectStep_inv h
  obtain rfl : low = low' := Option.some.inj (hlow.symm.trans hlow')
  split_ifs with hn
  · exact hlow
  · exact lowestFree_set hn hlow

/-- What every number refers to at the end of the loop. -/
theorem redirectTable_eq {limit low : Nat} {T T' : FdTable δ} {tokens : List (CStr × δ)}
    (hlow : T.lowestFree limit = some low) (h : redirectTable limit T tokens = some T') (n : Nat) :
    T' n = if n = low then none else (lastOpened n tokens).or (T n) := by
  induction tokens generalizing T with
  | nil =>
      obtain rfl : T = T' := Option.some.inj h
      split_ifs with hn
      · rw [hn]
        exact (FdTable.lowestFree_eq_some.mp hlow).2.1
      · rfl
  | cons t tokens ih =>
      obtain ⟨arg, d⟩ := t
      unfold redirectTable at h
      cases hstep : redirectStep limit T arg d with
      | none => simp [hstep] at h
      | some T₁ =>
          simp only [hstep] at h
          rw [ih (redirectStep_lowestFree hlow hstep) h]
          obtain ⟨low', m, hlow', htarget, rfl⟩ := redirectStep_inv hstep
          obtain rfl : low = low' := Option.some.inj (hlow.symm.trans hlow')
          by_cases hn : n = low
          · rw [if_pos hn, if_pos hn]
          · rw [if_neg hn, if_neg hn, lastOpened_cons, htarget, Option.or_assoc]
            -- the first argument names the lowest free number, or `n`, or another one
            by_cases hm : m = low
            · rw [if_pos hm, if_neg (by simpa [hm] using Ne.symm hn), Option.none_or]
            · rw [if_neg hm]
              by_cases hmn : m = n
              · simp [FdTable.set, hmn]
              · simp [FdTable.set, hmn, Ne.symm hmn]

/-- The loop comes to its end if the arguments are redirections, and name numbers below the limit,
one of which is free. -/
theorem redirectTable_total {limit low : Nat} {T : FdTable δ} {tokens : List (CStr × δ)}
    (hlow : T.lowestFree limit = some low)
    (htargets : ∀ t ∈ tokens, ∃ n < limit, target t.1 = some n) :
    ∃ T', redirectTable limit T tokens = some T' := by
  induction tokens generalizing T with
  | nil => exact ⟨T, rfl⟩
  | cons t tokens ih =>
      obtain ⟨arg, d⟩ := t
      obtain ⟨n, hn, htarget⟩ := htargets (arg, d) List.mem_cons_self
      rw [← redirection_fileNum, Option.map_eq_some_iff] at htarget
      obtain ⟨r, hr, hfileNum⟩ := htarget
      obtain ⟨T₁, hstep⟩ : ∃ T₁, redirectStep limit T arg d = some T₁ := by
        simp [redirectStep, hr, FdTable.allocate, hlow, FdTable.dup2, FdTable.set, hfileNum, hn]
      obtain ⟨T', h⟩ := ih (redirectStep_lowestFree hlow hstep) fun t ht =>
        htargets t (List.mem_cons_of_mem _ ht)
      exact ⟨T', by simp [redirectTable, hstep, h]⟩

/-- Where all calls succeed, the loop on the table comes as far as the loop of the child. -/
theorem redirect_of_redirectTable {limit : Nat} {T T' : FdTable δ} {tokens : List (CStr × δ)}
    {a : Answers} (hok : ∀ k r, (a.opened k (some r) && a.dupped k (some r)) = true)
    (h : redirectTable limit T tokens = some T') (k : Nat) :
    redirect a k (tokens.map Prod.fst) = true := by
  induction tokens generalizing T k with
  | nil => rfl
  | cons t tokens ih =>
      obtain ⟨arg, d⟩ := t
      unfold redirectTable at h
      cases hr : redirection arg with
      | none => simp [redirectStep, hr] at h
      | some r =>
          cases hstep : redirectStep limit T arg d with
          | none => simp [hstep] at h
          | some T₁ =>
              simp only [hstep] at h
              rw [List.map_cons, redirect, hr, hok, Bool.true_and]
              exact ih h (k + 1)

/-- **Redirections compose just where none names the lowest number free at the start.** -/
theorem redirectTable_composed_iff (limit : Nat) (T : FdTable δ) (tokens : List (CStr × δ)) :
    ((∃ low, T.lowestFree limit = some low) →
      (∀ t ∈ tokens, ∃ n < limit, target t.1 = some n) →
      ∃ T', redirectTable limit T tokens = some T') ∧
    ∀ T', redirectTable limit T tokens = some T' →
      (Composed T tokens T' ↔ ∀ t ∈ tokens, T.lowestFree limit ≠ target t.1) := by
  refine ⟨fun ⟨low, hlow⟩ htargets => redirectTable_total hlow htargets, fun T' h => ?_⟩
  cases hlow : T.lowestFree limit with
  | none =>
      -- No file can be opened, so that there is no argument.
      cases tokens with
      | nil =>
          obtain rfl : T = T' := Option.some.inj h
          exact ⟨fun _ t ht => absurd ht List.not_mem_nil, fun _ n => rfl⟩
      | cons t tokens =>
          obtain ⟨arg, d⟩ := t
          unfold redirectTable at h
          cases hstep : redirectStep limit T arg d with
          | none => simp [hstep] at h
          | some T₁ =>
              obtain ⟨low, -, hlow', -⟩ := redirectStep_inv hstep
              rw [hlow] at hlow'
              cases hlow'
  | some low =>
      have hfree : T low = none := (FdTable.lowestFree_eq_some.mp hlow).2.1
      have hend := redirectTable_eq hlow h
      constructor
      · intro hcomposed t ht hnamed
        have hlast := hcomposed low
        rw [hend, if_pos rfl, hfree, Option.or_none] at hlast
        exact lastOpened_eq_none.mp hlast.symm t ht hnamed.symm
      · intro hnone n
        rw [hend]
        split_ifs with hn
        · have hlast : lastOpened low tokens = none :=
            lastOpened_eq_none.mpr fun t ht htarget => hnone t ht htarget.symm
          rw [hn, hlast, hfree, Option.or_none]
        · rfl

end Table

/-- With 0, 1 and 2 open, `<f` and `>g` come to where they belong. -/
theorem redirectTable_composed_iff_files :
    ∃ T', redirectTable 4 (fun n => if n < 3 then some n else none)
        [("<f".toList, 10), (">g".toList, 11)] = some T' ∧
      T' 0 = some 10 ∧ T' 1 = some 11 ∧ T' 2 = some 2 := by
  obtain ⟨T', h⟩ := (redirectTable_composed_iff 4 (fun n => if n < 3 then some n else none)
    [("<f".toList, 10), (">g".toList, 11)]).1 ⟨3, by decide⟩ (by decide)
  have hcomposed := ((redirectTable_composed_iff 4 (fun n => if n < 3 then some n else none)
    [("<f".toList, 10), (">g".toList, 11)]).2 T' h).mpr (by decide)
  exact ⟨T', h, hcomposed 0, hcomposed 1, hcomposed 2⟩

/-- With 0 closed at the start, `<f` is opened at 0, and closed. -/
theorem redirectTable_not_composed :
    ¬ ∀ (limit : Nat) (T T' : FdTable Nat) (tokens : List (CStr × Nat)),
      redirectTable limit T tokens = some T' → Composed T tokens T' := by
  intro h
  let T : FdTable Nat := fun n => if n = 1 ∨ n = 2 then some n else none
  have hlow : T.lowestFree 4 = some 0 := by decide
  have htotal : ∃ T', redirectTable 4 T [("<f".toList, 10)] = some T' :=
    redirectTable_total hlow (by decide)
  obtain ⟨T', hend⟩ := htotal
  have hcomposed := h 4 T T' _ hend 0
  rw [redirectTable_eq hlow hend 0] at hcomposed
  revert hcomposed
  decide

end Ece357.Shell
