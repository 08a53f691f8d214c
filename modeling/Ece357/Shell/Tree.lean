import Ece357.Shell.Model

/-!
# Ece357.Shell.Tree

**Which processes fork, and for which lines.** A child whose `execvp` fails does not exit as
it does when a redirection fails: it returns to the loop of `main` and runs the rest of the
script, every line of which is forked once more, before its parent goes on. As that child's
own children may do the same, the calls of `fork` form a tree (`runLines`).

The calls are one for each line, by the original process, precisely if no child that goes on
comes to a `fork` of its own and nothing ends the original process early
(`fork_once_per_line_iff`).
-/

namespace Ece357.Shell

open Ece357.Machine

/-! ### Lines instead of characters -/

/-- The lines of a script that are no comments, with their numbers from `n` on. -/
def commands (n : Nat) (script : CStr) : List (Nat × CStr) :=
  match _hline : getline script with
  | none => []
  | some (line, rest) =>
      if isComment line then commands (n + 1) rest else (n, line) :: commands (n + 1) rest
termination_by script.length
decreasing_by all_goals exact getline_less _hline

theorem commands_none {n : Nat} {script : CStr} (h : getline script = none) :
    commands n script = [] := by
  rw [commands]
  split <;> simp_all

theorem commands_some {n : Nat} {script line rest : CStr}
    (h : getline script = some (line, rest)) (hcomment : isComment line = false) :
    commands n script = (n, line) :: commands (n + 1) rest := by
  rw [commands]
  split <;> simp_all

/-- The calls of `fork` in a process, and in those that descend from it, for these lines. -/
def runLines (env : Env) (process : Name) : List (Nat × CStr) → List Fork
  | [] => []
  | (n, line) :: rest =>
      match executeCommand (env process n) line with
      | .stopped => []
      | .forked child returns =>
          ⟨process, n⟩ ::
            ((if child = some .continues then runLines env (n :: process) rest else []) ++
              if returns then runLines env process rest else [])

/-- The loop over the script is the loop over its lines that are no comments. -/
theorem main_eq_runLines (env : Env) (script : CStr) : ∀ process n,
    main env process n script = runLines env process (commands n script) := by
  induction hlen : script.length using Nat.strongRecOn generalizing script with
  | _ len ih =>
      intro process n
      rw [main, commands]
      cases hline : getline script with
      | none => rfl
      | some lr =>
          obtain ⟨line, rest⟩ := lr
          have hrest := ih _ (hlen ▸ getline_less hline) rest rfl
          dsimp only
          split_ifs with hcomment
          · exact hrest process (n + 1)
          · rw [runLines]
            cases executeCommand (env process n) line with
            | stopped => rfl
            | forked child returns => simp only [hrest]

/-! ### One line -/

/-- Whether the process comes to the `fork` for a line. -/
def Answers.Forks (a : Answers) (line : CStr) : Prop :=
  getArguments line ≠ [] ∧ a.memory = true ∧ a.startTime = true

/-- Whether the process comes back from the line. -/
def Answers.Returns (a : Answers) : Prop :=
  a.fork = true ∧ a.wait = true ∧ a.endTime = true ∧ a.frees = true

/-- Whether the child for the line goes on in the code of the shell. -/
def Answers.ChildGoesOn (a : Answers) (line : CStr) : Prop :=
  redirect a 0 (redirectArgs (getArguments line)) = true ∧ a.execvp = false ∧ a.unnoticed = true

theorem childArm_continues {a : Answers} {line : CStr} :
    childArm a (getArguments line) = .continues ↔ a.ChildGoesOn line := by
  unfold childArm Answers.ChildGoesOn
  cases redirect a 0 (redirectArgs (getArguments line)) <;> cases a.execvp <;>
    cases a.unnoticed <;> simp

theorem executeCommand_stopped {a : Answers} {line : CStr} (h : ¬ a.Forks line) :
    executeCommand a line = .stopped := by
  unfold executeCommand
  split_ifs with hargs hmemory htime
  · rfl
  · rfl
  · rfl
  all_goals exact absurd ⟨hargs, by simpa using hmemory, by simpa using htime⟩ h

theorem executeCommand_forked {a : Answers} {line : CStr} (h : a.Forks line) :
    ∃ child returns, executeCommand a line = .forked child returns ∧
      (child = some .continues ↔ a.fork = true ∧ a.ChildGoesOn line) ∧
      (returns = true ↔ a.Returns) := by
  unfold executeCommand
  obtain ⟨hargs, hmemory, htime⟩ := h
  rw [if_neg hargs, if_neg (by simp [hmemory]), if_neg (by simp [htime])]
  cases hfork : a.fork with
  | false => exact ⟨none, false, rfl, by simp, by simp [Answers.Returns, hfork]⟩
  | true =>
      refine ⟨_, _, rfl, ?_, by simp [Answers.Returns, hfork, and_assoc]⟩
      simp [childArm_continues]

/-! ### The whole tree -/

/-- Whether a process forks once for each of these lines, and nobody else does: it comes to
the `fork` for each of them, and it returns from all but the last, for each of which the
child does not go on, or else does not come to the `fork` for the line after. -/
def Orderly (env : Env) (process : Name) : List (Nat × CStr) → Prop
  | [] => True
  | [(n, line)] => (env process n).Forks line
  | (n, line) :: (n', line') :: rest =>
      (env process n).Forks line ∧ (env process n).Returns ∧
        ((env process n).ChildGoesOn line → ¬ (env (n :: process) n').Forks line') ∧
        Orderly env process ((n', line') :: rest)

theorem runLines_stopped {env : Env} {process : Name} {n : Nat} {line : CStr}
    {rest : List (Nat × CStr)} (h : ¬ (env process n).Forks line) :
    runLines env process ((n, line) :: rest) = [] := by
  rw [runLines, executeCommand_stopped h]

/-- A process that comes to its first `fork` is the first to fork. -/
theorem runLines_forks {env : Env} {process : Name} {n : Nat} {line : CStr}
    (rest : List (Nat × CStr)) (h : (env process n).Forks line) :
    ∃ later, runLines env process ((n, line) :: rest) = ⟨process, n⟩ :: later := by
  obtain ⟨child, returns, heq, -⟩ := executeCommand_forked h
  rw [runLines, heq]
  exact ⟨_, rfl⟩

/-- A child that does not come to its first `fork` leaves no trace. -/
theorem runLines_child {env : Env} {process : Name} {n : Nat} {line : CStr}
    {rest : List (Nat × CStr)} {goesOn : Prop} [Decidable goesOn]
    (h : goesOn → ¬ (env process n).Forks line) :
    (if goesOn then runLines env process ((n, line) :: rest) else []) = [] := by
  split_ifs with hgoes
  · exact runLines_stopped (h hgoes)
  · rfl

/-- The calls of `fork` are one for each line, in order, by one process. -/
theorem runLines_eq_iff (env : Env) (process : Name) (cs : List (Nat × CStr)) :
    runLines env process cs = cs.map (fun c => ⟨process, c.1⟩) ↔ Orderly env process cs := by
  induction cs with
  | nil => simp [runLines, Orderly]
  | cons c rest ih =>
      obtain ⟨n, line⟩ := c
      by_cases hforks : (env process n).Forks line
      · obtain ⟨child, returns, heq, hchild, hreturns⟩ := executeCommand_forked hforks
        rw [runLines, heq]
        cases rest with
        | nil => simp [runLines, Orderly, hforks]
        | cons c' rest =>
            obtain ⟨n', line'⟩ := c'
            rw [List.map_cons, List.cons_inj_right, Orderly]
            constructor
            · intro h
              have hquiet : child = some .continues → ¬ (env (n :: process) n').Forks line' := by
                intro hgoes hfork
                obtain ⟨later, hlater⟩ := runLines_forks rest hfork
                rw [if_pos hgoes, hlater] at h
                -- the first fork after `n` would be the child's, not the process's own
                have hsame := congrArg Fork.process (List.head_eq_of_cons_eq h)
                exact List.cons_ne_self n process hsame
              rw [runLines_child hquiet, List.nil_append] at h
              cases returns with
              -- the process has stopped, but there are lines left
              | false => cases h
              | true =>
                  have hreturn := hreturns.mp rfl
                  exact ⟨hforks, hreturn, fun hgoes => hquiet (hchild.mpr ⟨hreturn.1, hgoes⟩),
                    ih.mp h⟩
            · intro hgood
              obtain ⟨-, hreturn, hgoes, hrest⟩ := hgood
              have hquiet : child = some .continues → ¬ (env (n :: process) n').Forks line' :=
                fun hcontinues => hgoes (hchild.mp hcontinues).2
              rw [runLines_child hquiet, List.nil_append, if_pos (hreturns.mpr hreturn)]
              exact ih.mpr hrest
      · rw [runLines_stopped hforks]
        cases rest <;> simp [Orderly, hforks]

/-- **When each line is executed once**, by the original process and in script order, for every
script and every answer of the system: to what it is asked, and to what is stored behind the
vectors. -/
theorem fork_once_per_line_iff (env : Env) (script : CStr) :
    main env [] 0 script = (commands 0 script).map (fun c => ⟨[], c.1⟩) ↔
      Orderly env [] (commands 0 script) := by
  rw [main_eq_runLines]
  exact runLines_eq_iff env [] _

/-! ### Where only `execvp` fails -/

/-- Every call but `execvp` succeeds, nothing is noticed, and a child whose `execvp` fails goes
on. -/
def Answers.OnlyExecFails (a : Answers) : Prop :=
  a.memory = true ∧ a.startTime = true ∧ a.fork = true ∧ (∀ k r, a.opened k r = true) ∧
    (∀ k r, a.dupped k r = true) ∧ a.unnoticed = true ∧ a.wait = true ∧ a.endTime = true ∧
    a.frees = true

theorem Answers.OnlyExecFails.childGoesOn {a : Answers} (h : a.OnlyExecFails) (line : CStr) :
    a.ChildGoesOn line ↔ a.execvp = false := by
  obtain ⟨-, -, -, hopened, hdupped, hunnoticed, -⟩ := h
  have hredirect : ∀ args k, redirect a k args = true := by
    intro args
    induction args with
    | nil => exact fun k => rfl
    | cons arg rest ih => simp [redirect, hopened, hdupped, ih]
  simp [Answers.ChildGoesOn, hredirect, hunnoticed]

/-- If all calls but `execvp` succeed, and no line is without an argument, then what has to
succeed is the `execvp` for every line but the last. -/
theorem orderly_iff_execvp {env : Env} {process : Name} {cs : List (Nat × CStr)}
    (honly : ∀ process n, (env process n).OnlyExecFails)
    (hargs : ∀ c ∈ cs, getArguments c.2 ≠ []) :
    Orderly env process cs ↔ ∀ c ∈ cs.dropLast, (env process c.1).execvp = true := by
  induction cs with
  | nil => simp [Orderly]
  | cons c rest ih =>
      obtain ⟨n, line⟩ := c
      have hforks : ∀ process, (env process n).Forks line := fun process =>
        ⟨hargs _ List.mem_cons_self, (honly process n).1, (honly process n).2.1⟩
      have hrest := ih fun c hc => hargs c (List.mem_cons_of_mem _ hc)
      cases rest with
      | nil => simp [Orderly, hforks]
      | cons c' rest =>
          obtain ⟨n', line'⟩ := c'
          have hnext : (env (n :: process) n').Forks line' :=
            ⟨hargs _ (List.mem_cons_of_mem _ List.mem_cons_self), (honly _ n').1, (honly _ n').2.1⟩
          obtain ⟨-, -, hfork, -, -, -, hwait, hend, hfrees⟩ := honly process n
          rw [Orderly, hrest, (honly process n).childGoesOn]
          simp [hforks, hnext, Answers.Returns, hfork, hwait, hend, hfrees]

/-! ### A command that does not exist -/

/-- A system where every call succeeds but `execvp`, which finds no command, and where the
second `free` goes unnoticed. -/
def noCommands : Env := fun _ _ => { Answers.smooth with execvp := false }

/-- **The second line is forked twice**, by the original process and by the child for the
first. -/
theorem second_line_forked_twice : ¬ ∀ (env : Env) (script : CStr),
    (∀ process n, (env process n).OnlyExecFails) →
    (∀ c ∈ commands 0 script, getArguments c.2 ≠ []) →
    main env [] 0 script = (commands 0 script).map fun c => ⟨[], c.1⟩ := by
  intro hall
  have hargs : getArguments ['a', '\n'] = [['a']] := by
    have hcut : (['a', '\n'].takeWhile (· ≠ nul)).dropLast = ['a'] := by decide
    have hword : strtok ['a'] = some (['a'], []) := by decide
    rw [getArguments, hcut, strtokAll_some hword, strtokAll_none (by decide)]
  have hcommands : commands 0 ['a', '\n', 'a', '\n'] = [(0, ['a', '\n']), (1, ['a', '\n'])] := by
    have hfirst : getline ['a', '\n', 'a', '\n'] = some (['a', '\n'], ['a', '\n']) := by decide
    have hsecond : getline ['a', '\n'] = some (['a', '\n'], []) := by decide
    rw [commands_some hfirst (by decide), commands_some hsecond (by decide),
      commands_none (by decide)]
  have honce := hall noCommands ['a', '\n', 'a', '\n']
    (fun _ _ => ⟨rfl, rfl, rfl, fun _ _ => rfl, fun _ _ => rfl, rfl, rfl, rfl, rfl⟩)
    (by simp [hcommands, hargs])
  rw [main_eq_runLines, hcommands] at honce
  simp [runLines, executeCommand, hargs, noCommands, Answers.smooth, childArm, redirect,
    redirectArgs, getRedirectArgCount, isRedirect, charAt] at honce

end Ece357.Shell
