import Ece357.Shell.Redirections
import Ece357.Shell.Tokens
import Ece357.Shell.Tree

/-!
# Ece357.Shell.Script

**From a script to the programs it runs.** A command is a program with its arguments, and files
for its descriptors. Written down with the words first, the operators other than `2>>` and any
gaps between them, a line each, and with comments in between, commands make a script
(`scriptOf`). Whatever fails when the shell runs it, each child it forks, in whatever process,
opens files of the command in its line, in order and as they are meant; and if it becomes a
program, it has opened them all, and it is that program with exactly these arguments. If nothing
fails, and nothing is noticed of what is stored behind the vectors, there is one such child for
each command, in order (`script_runs`). Every process reads the script from a copy of its own.
-/

namespace Ece357.Shell

open Ece357.Machine

/-! ### Commands -/

/-- A command that the shell can be given. -/
structure Command where
  program : CStr
  arguments : List CStr
  redirections : List Token
  word : ∀ w ∈ program :: arguments, IsWord w
  no_redirect : ∀ w ∈ program :: arguments, isRedirect w = false
  no_comment : program.head? ≠ some '#'
  name : ∀ t ∈ redirections, IsWord t.name
  no_errorAppend : ∀ t ∈ redirections, t.op ≠ .errorAppend

namespace Command

/-- What is written for the command. -/
def args (c : Command) : List CStr :=
  c.program :: c.arguments ++ c.redirections.map Token.text

/-- What the command asks for. -/
def meanings (c : Command) : List (Option Redirection) := c.redirections.map fun t => some t.meaning

end Command

theorem Operator.spelling_subset (op : Operator) : op.spelling ⊆ ['<', '>', '2'] := by
  cases op <;> decide

theorem Token.isRedirect_text (t : Token) : isRedirect t.text = true := by
  unfold isRedirect text
  cases t.op <;> rfl

/-- An operator puts nothing into a word that ends it. -/
theorem Token.isWord_text {t : Token} (h : IsWord t.name) : IsWord t.text := by
  have hmem : ∀ c ∈ t.text, c ∈ ['<', '>', '2'] ∨ c ∈ t.name := by
    intro c hc
    refine (List.mem_append.mp hc).imp_left fun hop => ?_
    exact Operator.spelling_subset t.op hop
  have hplain : ∀ c ∈ ['<', '>', '2'], isDelimiter c = false ∧ c ≠ '\n' ∧ c ≠ nul := by
    intro c hc
    simp only [List.mem_cons, List.not_mem_nil, or_false] at hc
    rcases hc with rfl | rfl | rfl <;> decide
  refine ⟨⟨fun hnil => h.ne_nil (List.append_eq_nil_iff.mp hnil).2, fun c hc => ?_⟩, fun hc => ?_,
    fun hc => ?_⟩
  · rcases hmem c hc with hop | hname
    · exact (hplain c hop).1
    · exact h.no_separator c hname
  · rcases hmem _ hc with hop | hname
    · exact (hplain _ hop).2.1 rfl
    · exact h.no_newline hname
  · rcases hmem _ hc with hop | hname
    · exact (hplain _ hop).2.2 rfl
    · exact h.no_nul hname

theorem noErrorAppend_of_forall {a : Answers} {tokens : List Token}
    (h : ∀ t ∈ tokens, t.op ≠ .errorAppend) (k : Nat) : NoErrorAppend a k tokens := by
  induction tokens generalizing k with
  | nil => trivial
  | cons t tokens ih =>
      obtain ⟨ht, hrest⟩ := List.forall_mem_cons.mp h
      exact ⟨ht, fun _ => ih hrest (k + 1)⟩

namespace Command

variable (c : Command)

theorem isWord_args : ∀ w ∈ c.args, IsWord w := by
  intro w hw
  rcases List.mem_append.mp hw with hw | hw
  · exact c.word w hw
  · obtain ⟨t, ht, rfl⟩ := List.mem_map.mp hw
    exact Token.isWord_text (c.name t ht)

theorem getCommandArgCount_args :
    getCommandArgCount c.args = (c.program :: c.arguments).length := by
  unfold getCommandArgCount args
  rw [List.countP_append]
  have hwords : (c.program :: c.arguments).countP (! isRedirect ·) =
      (c.program :: c.arguments).length :=
    List.countP_eq_length.mpr fun w hw => by simp [c.no_redirect w hw]
  have hnone : (c.redirections.map Token.text).countP (! isRedirect ·) = 0 := by
    refine List.countP_eq_zero.mpr fun w hw => ?_
    obtain ⟨t, -, rfl⟩ := List.mem_map.mp hw
    simp [t.isRedirect_text]
  rw [hwords, hnone, Nat.add_zero]

/-- The vectors of `executeCommand` hold what they should. -/
theorem commandArgs_args : commandArgs c.args = c.program :: c.arguments := by
  unfold commandArgs
  rw [c.getCommandArgCount_args]
  exact List.take_left

theorem redirectArgs_args : redirectArgs c.args = c.redirections.map Token.text := by
  have happend := commandArgs_append_redirectArgs c.args
  rw [c.commandArgs_args] at happend
  exact List.append_cancel_left happend

/-- Each file is opened as it is meant, up to the first that cannot be. -/
theorem opens_args (a : Answers) : opens a 0 (redirectArgs c.args) <+: c.meanings := by
  rw [c.redirectArgs_args]
  exact (opens_prefix_iff a 0 c.redirections).mpr (noErrorAppend_of_forall c.no_errorAppend 0)

end Command

/-! ### Scripts -/

/-- What can stand in a line. -/
inductive Item
  | comment (text : CStr) (no_newline : '\n' ∉ text)
  /-- A command, with what stands between its words. -/
  | command (c : Command) (sep : Nat → CStr) (gaps : ∀ k, IsGap isDelimiter (sep k))

/-- The line without its newline. -/
def Item.body : Item → CStr
  | .comment text _ => '#' :: text
  | .command c sep _ => joinGaps sep 0 c.args

/-- The script that has these lines. -/
def scriptOf (items : List Item) : CStr := items.flatMap fun item => item.body ++ ['\n']

/-- The commands of a script, with the numbers of their lines from `n` on. -/
def commandsOf (n : Nat) : List Item → List (Nat × Command)
  | [] => []
  | .comment .. :: items => commandsOf (n + 1) items
  | .command c .. :: items => (n, c) :: commandsOf (n + 1) items

theorem Item.no_newline (item : Item) : '\n' ∉ item.body := by
  cases item with
  | comment text h => simpa [body] using h
  | command c sep gaps => exact newline_not_mem_join gaps c.isWord_args

theorem scriptOf_cons (item : Item) (items : List Item) :
    getline (scriptOf (item :: items)) = some (item.body ++ ['\n'], scriptOf items) := by
  have happend : scriptOf (item :: items) = item.body ++ '\n' :: scriptOf items := by
    unfold scriptOf
    rw [List.flatMap_cons, List.append_assoc, List.singleton_append]
  rw [happend]
  exact getline_newline item.no_newline _

/-- What is joined begins with the first list. -/
theorem joinGaps_cons {α : Type} (gap : Nat → List α) (k : Nat) (w : List α) (ws : List (List α)) :
    ∃ tail, joinGaps gap k (w :: ws) = w ++ tail := by
  cases ws with
  | nil => exact ⟨[], (List.append_nil w).symm⟩
  | cons w' ws => exact ⟨_, rfl⟩

theorem isComment_command {c : Command} {sep : Nat → CStr} (rest : CStr) :
    isComment (joinGaps sep 0 c.args ++ rest) = false := by
  obtain ⟨d, ds, hprogram⟩ := List.exists_cons_of_ne_nil
    (c.word c.program List.mem_cons_self).ne_nil
  have hd := c.no_comment
  rw [hprogram] at hd
  obtain ⟨tail, htail⟩ := joinGaps_cons sep 0 c.program
    (c.arguments ++ c.redirections.map Token.text)
  have hhead : (joinGaps sep 0 c.args ++ rest).head? = some d := by
    rw [Command.args, List.cons_append, htail, hprogram]
    rfl
  unfold isComment
  rw [hhead]
  exact decide_eq_false hd

theorem commands_comment {n : Nat} {script line rest : CStr}
    (h : getline script = some (line, rest)) (hcomment : isComment line = true) :
    commands n script = commands (n + 1) rest := by
  rw [commands]
  split <;> simp_all

/-- The shell finds the commands of a script, and the arguments of each. -/
theorem commands_scriptOf (items : List Item) (n : Nat) :
    (commands n (scriptOf items)).map (fun l => (l.1, getArguments l.2)) =
      (commandsOf n items).map fun l => (l.1, l.2.args) := by
  induction items generalizing n with
  | nil =>
      rw [commands_none rfl]
      rfl
  | cons item items ih =>
      have hline := scriptOf_cons item items
      cases item with
      | comment text h =>
          rw [commands_comment hline rfl]
          exact ih (n + 1)
      | command c sep gaps =>
          rw [commands_some hline (isComment_command _), commandsOf, List.map_cons, List.map_cons,
            ih]
          rw [Item.body, join_newline gaps c.isWord_args]

/-! ### Children -/

/-- A child of the shell: who forked it, for which line, what it opens, and what becomes of it. -/
structure Child where
  parent : Name
  line : Nat
  opened : List (Option Redirection)
  ends : ChildEnd
  deriving DecidableEq, Repr

/-- The child forked for a line, if there is one. -/
def childFor (a : Answers) (process : Name) (n : Nat) (line : CStr) : Option ChildEnd → List Child
  | none => []
  | some ends => [⟨process, n, opens a 0 (redirectArgs (getArguments line)), ends⟩]

/-- The children of a process, and of those that descend from it, for these lines. -/
def children (env : Env) (process : Name) : List (Nat × CStr) → List Child
  | [] => []
  | (n, line) :: rest =>
      match executeCommand (env process n) line with
      | .stopped => []
      | .forked child returns =>
          childFor (env process n) process n line child ++
            ((if child = some .continues then children env (n :: process) rest else []) ++
              if returns then children env process rest else [])

/-- There is a child for each call of `fork` that succeeds, and for no other. -/
theorem children_runLines (env : Env) (lines : List (Nat × CStr)) (process : Name) :
    (children env process lines).map (fun child => (⟨child.parent, child.line⟩ : Fork)) =
      (runLines env process lines).filter fun f => (env f.process f.line).fork := by
  induction lines generalizing process with
  | nil => rfl
  | cons l rest ih =>
      obtain ⟨n, line⟩ := l
      rw [children, runLines]
      unfold executeCommand
      split_ifs with hargs hmemory htime hfork
      · rfl
      · rfl
      · rfl
      · simp [childFor, hfork]
      · -- the child's own children come before those that are forked after it
        have hif : ∀ (p : Prop) [Decidable p] (q : Name),
            (if p then children env q rest else []).map
                (fun child => (⟨child.parent, child.line⟩ : Fork)) =
              (if p then runLines env q rest else []).filter fun f =>
                (env f.process f.line).fork := by
          intro p _ q
          split_ifs
          · exact ih q
          · rfl
        dsimp only
        rw [List.map_append, List.map_append, hif, hif,
          List.filter_cons_of_pos (by simpa using hfork), List.filter_append]
        rfl

/-- A child that does what the command in its line asks for, as far as it comes. -/
structure Child.Obeys (child : Child) (c : Command) : Prop where
  opened : child.opened <+: c.meanings
  replaced : ∀ file argv, child.ends = .replaced file argv →
    file = c.program ∧ argv = c.program :: c.arguments ∧ child.opened = c.meanings

/-- What becomes of the child for a command. -/
theorem childArm_obeys (a : Answers) (process : Name) (n : Nat) (c : Command) :
    Child.Obeys ⟨process, n, opens a 0 (redirectArgs c.args), childArm a c.args⟩ c := by
  refine ⟨c.opens_args a, fun file argv hends => ?_⟩
  unfold childArm at hends
  split_ifs at hends with hredirect hexec
  obtain ⟨rfl, rfl⟩ := ChildEnd.replaced.inj hends
  refine ⟨rfl, c.commandArgs_args, (c.opens_args a).eq_of_length ?_⟩
  rw [opens_length (by simpa using hredirect), c.redirectArgs_args, Command.meanings,
    List.length_map, List.length_map]

/-- Every child obeys the command in its line, in any process and whatever fails. -/
theorem children_obey (env : Env) {lines : List (Nat × CStr)} {cs : List (Nat × Command)}
    (h : lines.map (fun l => (l.1, getArguments l.2)) = cs.map fun l => (l.1, l.2.args))
    (process : Name) : ∀ child ∈ children env process lines,
      ∃ c, (child.line, c) ∈ cs ∧ child.Obeys c := by
  induction cs generalizing lines process with
  | nil =>
      obtain rfl := List.map_eq_nil_iff.mp h
      intro child hchild
      cases hchild
  | cons l' cs ih =>
      obtain ⟨n, c⟩ := l'
      obtain ⟨l, rest, rfl, hl, hrest⟩ := List.map_eq_cons_iff.mp h
      obtain ⟨m, line⟩ := l
      obtain ⟨rfl, hargs⟩ := Prod.mk.inj hl
      dsimp only at hargs
      have hlater : ∀ q, ∀ child ∈ children env q rest,
          ∃ c', (child.line, c') ∈ (m, c) :: cs ∧ child.Obeys c' := by
        intro q child hchild
        obtain ⟨c', hc', hobeys⟩ := ih hrest q child hchild
        exact ⟨c', List.mem_cons_of_mem _ hc', hobeys⟩
      intro child hchild
      rw [children] at hchild
      unfold executeCommand at hchild
      rw [hargs] at hchild
      split_ifs at hchild with hnone hmemory htime hfork
      · cases hchild
      · cases hchild
      · cases hchild
      · simp [childFor] at hchild
      · dsimp only at hchild
        rcases List.mem_append.mp hchild with hself | hchild
        · obtain rfl := List.mem_singleton.mp hself
          rw [hargs]
          exact ⟨c, List.mem_cons_self, childArm_obeys _ process m c⟩
        · rcases List.mem_append.mp hchild with hchild | hchild
          · split_ifs at hchild
            · exact hlater _ child hchild
            · cases hchild
          · split_ifs at hchild
            · exact hlater _ child hchild
            · cases hchild

/-- Nothing fails, and nothing is noticed of what is stored behind the vectors. -/
structure Answers.Obliging (a : Answers) : Prop where
  memory : a.memory = true
  startTime : a.startTime = true
  fork : a.fork = true
  opened : ∀ k r, a.opened k r = true
  dupped : ∀ k r, a.dupped k r = true
  execvp : a.execvp = true
  wait : a.wait = true
  endTime : a.endTime = true
  frees : a.frees = true

theorem Answers.Obliging.redirect {a : Answers} (h : a.Obliging) (args : List CStr) (k : Nat) :
    Shell.redirect a k args = true := by
  induction args generalizing k with
  | nil => rfl
  | cons arg args ih =>
      rw [Shell.redirect, h.opened, h.dupped, ih]
      rfl

/-- What is to become of the child for a command. -/
def Command.child (process : Name) (n : Nat) (c : Command) : Child :=
  ⟨process, n, c.meanings, .replaced c.program (c.program :: c.arguments)⟩

theorem Answers.Obliging.child {a : Answers} (h : a.Obliging) (process : Name) (n : Nat)
    (c : Command) : (⟨process, n, opens a 0 (redirectArgs c.args), childArm a c.args⟩ : Child) =
      c.child process n := by
  have hends : childArm a c.args = .replaced c.program (c.program :: c.arguments) := by
    unfold childArm
    rw [if_neg (by simp [h.redirect]), if_pos h.execvp, c.commandArgs_args]
    rfl
  have hopened := ((childArm_obeys a process n c).replaced _ _ hends).2.2
  dsimp only at hopened
  rw [hends, hopened]
  rfl

/-- If nothing fails, each command has its child, and no other process forks. -/
theorem children_obliging {env : Env} (henv : ∀ process n, (env process n).Obliging)
    {lines : List (Nat × CStr)} {cs : List (Nat × Command)}
    (h : lines.map (fun l => (l.1, getArguments l.2)) = cs.map fun l => (l.1, l.2.args))
    (process : Name) : children env process lines = cs.map fun l => l.2.child process l.1 := by
  induction cs generalizing lines with
  | nil =>
      obtain rfl := List.map_eq_nil_iff.mp h
      rfl
  | cons l' cs ih =>
      obtain ⟨n, c⟩ := l'
      obtain ⟨l, rest, rfl, hl, hrest⟩ := List.map_eq_cons_iff.mp h
      obtain ⟨m, line⟩ := l
      obtain ⟨rfl, hargs⟩ := Prod.mk.inj hl
      dsimp only at hargs
      have hok := henv process m
      have hchild := hok.child process m c
      have hends := congrArg Child.ends hchild
      dsimp only [Command.child] at hends
      have hne : c.args ≠ [] := by simp [Command.args]
      rw [children, executeCommand, hargs, if_neg hne, if_neg (by simp [hok.memory]),
        if_neg (by simp [hok.startTime]), if_neg (by simp [hok.fork])]
      dsimp only
      rw [childFor, hargs, hchild, hends, if_neg (by simp), hok.wait, hok.endTime, hok.frees,
        Bool.and_self, Bool.and_self, if_pos rfl, ih hrest]
      rfl

/-- **Scripts run as they are meant.** For every script of commands and comments, and whatever
fails or is noticed: the shell has a child for each `fork` that succeeds, in the original process
or in one that goes on after its `execvp` has failed, and the child obeys the command in its line.
If nothing fails, and nothing is noticed, the children are one for each command, in order. -/
theorem script_runs (env : Env) (items : List Item) :
    (children env [] (commands 0 (scriptOf items))).map
        (fun child => (⟨child.parent, child.line⟩ : Fork)) =
      (main env [] 0 (scriptOf items)).filter (fun f => (env f.process f.line).fork) ∧
    (∀ child ∈ children env [] (commands 0 (scriptOf items)),
      ∃ c, (child.line, c) ∈ commandsOf 0 items ∧ child.Obeys c) ∧
    ((∀ process n, (env process n).Obliging) →
      children env [] (commands 0 (scriptOf items)) =
        (commandsOf 0 items).map fun l => l.2.child [] l.1) := by
  have hcommands := commands_scriptOf items 0
  refine ⟨?_, children_obey env hcommands [], fun henv => children_obliging henv hcommands []⟩
  rw [children_runLines, main_eq_runLines]

/-- `ls -l >out`, behind a comment. -/
theorem script_runs_ls : ∃ c : Command,
    children (fun _ _ => .smooth) [] (commands 0 "#list\nls -l >out\n".toList) = [c.child [] 1] ∧
    c.program = "ls".toList ∧ c.arguments = ["-l".toList] ∧
    c.meanings = [some ⟨"out".toList, .truncate, 1⟩] := by
  have hls : IsWord ['l', 's'] := ⟨⟨by decide, by simp [isDelimiter]⟩, by decide, by decide⟩
  have hlong : IsWord ['-', 'l'] := ⟨⟨by decide, by simp [isDelimiter]⟩, by decide, by decide⟩
  have hout : IsWord ['o', 'u', 't'] := ⟨⟨by decide, by simp [isDelimiter]⟩, by decide, by decide⟩
  let c : Command :=
    { program := ['l', 's']
      arguments := [['-', 'l']]
      redirections := [⟨.output, ['o', 'u', 't'], by decide, by decide⟩]
      word := List.forall_mem_cons.mpr ⟨hls, List.forall_mem_singleton.mpr hlong⟩
      no_redirect := by decide
      no_comment := by decide
      name := List.forall_mem_singleton.mpr hout
      no_errorAppend := by decide }
  have hgaps : ∀ _ : Nat, IsGap isDelimiter [' '] := fun _ =>
    ⟨by decide, by simp [isDelimiter]⟩
  refine ⟨c, ?_, rfl, rfl, rfl⟩
  exact (script_runs (fun _ _ => .smooth)
    [.comment "list".toList (by decide), .command c (fun _ => [' ']) hgaps]).2.2
      fun _ _ => ⟨rfl, rfl, rfl, fun _ _ => rfl, fun _ _ => rfl, rfl, rfl, rfl, rfl⟩

end Ece357.Shell
