import Ece357.CatGrepMore.PipeEnds

/-!
# Ece357.CatGrepMore.Interrupts

**When the handler may jump.** `main` installs `int_handler` before anything else, and
`int_jb` is filled only inside `pipeFile`. So a SIGINT finds a buffer of a call that has not
returned from the first `setjmp` of a call to its end, and nowhere else: before the first
file the buffer is empty, and between two files, and up to the `setjmp` of the next call, it
is that of a call that has returned (`Proc.Jumps`).

There `longjmp` ends in the statistics and `exit(1)`, and elsewhere it does nothing that is
defined (`interrupt_defined_iff`).
-/

namespace Ece357.CatGrepMore

open Ece357.Machine

/-- From the first `setjmp` of a call of `pipeFile` to the end of the call. -/
def Pc.armed : Pc → Bool
  | .install | .usage | .loop | .enter | .setjmp1 | .program => false
  | _ => true

/-- `int_jb` has been filled by a `setjmp` in a call of `pipeFile` that has not returned. -/
def Proc.LiveJump (pr : Proc) : Prop := pr.pc.inCall = true ∧ pr.int_jb = some pr.i

/-- What is in `int_jb`, by control point. -/
def Proc.Jumps (pr : Proc) : Prop :=
  match pr.pc with
  | .install | .usage => pr.int_jb = none
  | .loop | .enter | .setjmp1 => ∀ j, pr.int_jb = some j → j < pr.i
  | .program => True
  | _ => pr.int_jb = some pr.i

variable {w : World} {s s' : State} {pr pr' : Proc} {p : Nat} {a : Answer}

theorem Proc.Jumps.liveJump_iff (h : pr.Jumps) : pr.LiveJump ↔ pr.pc.armed = true := by
  unfold LiveJump
  unfold Jumps at h
  cases hpc : pr.pc <;> simp only [hpc] at h <;> simp only [Pc.inCall, Pc.armed, h]
  case enter | setjmp1 =>
    simp only [true_and, Bool.false_eq_true, iff_false]
    exact fun hj => absurd (h pr.i hj) (Nat.lt_irrefl _)
  all_goals simp

theorem Proc.Jumps.die (h : pr.Jumps) (e : Ending) : (pr.die e).Jumps := h

theorem Proc.Jumps.orExit {α : Type} {ok : Bool} {result : Option α} {next : α → Proc}
    (h : pr.Jumps) (hnext : ∀ r, (next r).Jumps) : (pr.orExit ok result next).Jumps :=
  Proc.orExit_induction (h.die _) hnext

/-- One call of a process. -/
theorem Proc.Jumps.act (h : pr.Jumps) (hact : pr.act w p a = .goes pr') : pr'.Jumps := by
  have hold := h
  unfold Jumps at h
  unfold Proc.act at hact
  obtain ⟨pc, hpc⟩ : ∃ pc, pr.pc = pc := ⟨_, rfl⟩
  rw [hpc] at hact h
  cases pc with
  | wait3 | program => cases hact
  | fork1 | fork2 =>
      dsimp only [Proc.fork] at hact
      split_ifs at hact
      obtain rfl := Act.goes.inj hact
      exact hold.die _
  | usage =>
      obtain rfl := Act.goes.inj hact
      split_ifs
      · exact hold.die _
      · intro j hj
        rw [h] at hj
        cases hj
  | loop =>
      obtain rfl := Act.goes.inj hact
      split_ifs
      · exact h
      · exact hold.die _
  | ret =>
      obtain rfl := Act.goes.inj hact
      intro j hj
      -- the next call begins, and the buffer is that of the last
      obtain rfl := Option.some.inj (h.symm.trans hj)
      exact Nat.lt_succ_self _
  | pipe1 | pipe2 | «open» =>
      obtain rfl := Act.goes.inj hact
      exact hold.orExit fun _ => h
  | grep g =>
      obtain rfl := Act.goes.inj hact
      cases g with
      | dupIn | dupOut => exact hold.orExit fun _ => h
      | exec =>
          -- a program has no buffer; a failed `execvp` leaves it as it is
          simp only [Proc.grepArm, Proc.execvp]
          split_ifs
          · trivial
          · exact h
      | _ => exact h
  | pager q =>
      obtain rfl := Act.goes.inj hact
      cases q with
      | dupIn => exact hold.orExit fun _ => h
      | exec =>
          simp only [Proc.pagerArm, Proc.execvp]
          split_ifs
          · trivial
          · exact h
      | _ => exact h
  | copy c =>
      obtain rfl := Act.goes.inj hact
      unfold Proc.copy
      cases copyTurn (pr.answers a.io) c with
      | again | eof => exact h
      | failed => exact hold.die _
  | setjmp1 | setjmp2 =>
      obtain rfl := Act.goes.inj hact
      rfl
  | _ =>
      obtain rfl := Act.goes.inj hact
      exact h

/-- One step, for every process. -/
theorem ProcMove.jumps (h : ProcMove w s p pr) (hs : ∀ q, (s.procs q).Jumps) : pr.Jumps := by
  cases h with
  | stays => exact hs p
  | goes hrun hact => exact (hs p).act hact
  | forks hrun hact =>
      have hold := hs p
      unfold Proc.Jumps at hold
      rcases Proc.act_forks hact with ⟨hpc, rfl, -⟩ | ⟨hpc, rfl, -⟩ <;> rw [hpc] at hold <;>
        exact hold
  | @born q a parent child hnew hrun hact =>
      have hold := hs q
      unfold Proc.Jumps at hold
      rcases Proc.act_forks hact with ⟨hpc, -, rfl⟩ | ⟨hpc, -, rfl⟩ <;> rw [hpc] at hold <;>
        exact hold
  | waited hrun hpc =>
      have hold := hs p
      unfold Proc.Jumps at hold
      rw [hpc] at hold
      exact hold
  | reaped | ends | undefined => exact hs p

theorem jumps {ok : State → Label → Prop} (h : (system w).Reach ok s) :
    ∀ p, (s.procs p).Jumps := by
  refine h.invariant (I := fun s => ∀ p, (s.procs p).Jumps) ?_ ?_
  · intro s₀ hstart p
    obtain ⟨fds, -, rfl⟩ := hstart
    by_cases hp : p = 0
    · simp [State.start, hp, Proc.Jumps, Proc.start]
    · simp [State.start, hp, Proc.Jumps, Proc.unused, Proc.start]
  · intro s l s' _ hs _ hstep p
    exact (step_proc hstep p).jumps hs

/-- **When SIGINT is handled**: in every state reached, `int_jb` of a process with the handler
is that of a call of `pipeFile` that has not returned, and a SIGINT ends it with its statistics
and status 1, exactly if the process is between the first `setjmp` of a call and its end. -/
theorem interrupt_defined_iff (w : World) (s : State) (h : (system w).Reach System.any s) (p : Nat)
    (hrun : (s.procs p).life = .running) (hpc : (s.procs p).pc ≠ .program)
    (hhandler : (s.procs p).handler = true) :
    ((s.procs p).LiveJump ∧ ∃ s', step w s (.interrupt p) = some s' ∧
      (s'.procs p).life = .ended (.interrupted (s.procs p).totals)) ↔
    (s.procs p).pc.armed = true := by
  rw [← (jumps h p).liveJump_iff, and_iff_left_iff_imp]
  intro hlive
  refine ⟨_, by rw [step, if_pos ⟨hrun, hpc⟩], ?_⟩
  have hjump : (s.procs p).interrupt = (s.procs p).die (.interrupted (s.procs p).totals) := by
    unfold Proc.interrupt
    rw [if_neg (by simp [hhandler])]
    exact if_pos hlive
  simp [State.set, hjump, Proc.die]

/-! ### An interrupt before the first file -/

/-- The original process has come to its copy loop. -/
theorem interrupt_defined_iff_copying : ∃ s, (system oneFile).Reach System.any s ∧
    (s.procs 0).LiveJump := by
  obtain ⟨s, hs, hcheck⟩ := System.reach_of_exec (system oneFile) System.any (step oneFile)
    (fun _ _ => true) (fun h => h) ⟨standardFds, inherited_standardFds, rfl⟩
    (List.replicate 14 (.run 0 ⟨true, ⟨some 1, some 1, none⟩, 0⟩))
    (fun s => decide ((s.procs 0).life = .running ∧ (s.procs 0).pc = .copy ⟨[], []⟩ ∧
      (s.procs 0).handler = true))
    (fun _ _ _ _ => trivial) (by decide +kernel)
  obtain ⟨hrun, hpc, hhandler⟩ := of_decide_eq_true hcheck
  have hdefined := interrupt_defined_iff oneFile s hs 0 hrun (by rw [hpc]; nofun) hhandler
  exact ⟨s, hs, (hdefined.mpr (by rw [hpc]; rfl)).1⟩

/-- **A jump to nowhere**: SIGINT comes after `signal` and before the first `setjmp`. -/
theorem interrupt_undefined : ¬ ∀ (w : World) (s : State), (system w).Reach System.any s →
    (s.procs 0).life = .running → (s.procs 0).pc ≠ .program → (s.procs 0).handler = true →
      (s.procs 0).LiveJump := by
  intro hall
  obtain ⟨s, hs, hcheck⟩ := System.reach_of_exec (system oneFile) System.any (step oneFile)
    (fun _ _ => true) (fun h => h) ⟨standardFds, inherited_standardFds, rfl⟩
    [.run 0 ⟨true, ⟨none, none, none⟩, 0⟩]
    (fun s => decide ((s.procs 0).life = .running ∧ (s.procs 0).pc = .usage ∧
      (s.procs 0).handler = true))
    (fun _ _ _ _ => trivial) (by decide +kernel)
  obtain ⟨hrun, hpc, hhandler⟩ := of_decide_eq_true hcheck
  have hlive := (hall oneFile s hs hrun (by rw [hpc]; nofun) hhandler).1
  rw [hpc] at hlive
  cases hlive

end Ece357.CatGrepMore
