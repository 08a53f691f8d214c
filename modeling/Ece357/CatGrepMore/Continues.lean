import Ece357.CatGrepMore.PipeEnds

/-!
# Ece357.CatGrepMore.Continues

**Who executes the code of the parent.** A child leaves its arm of the `switch` in one way
only: by an `execvp` that fails. The grep child is then before the second `fork`, and the
pager child at the end of `pipeFile`, from where it goes on to the next file.

So as long as every `execvp` succeeds, only the original process forks for the second time,
copies a file or returns from `pipeFile`; and the first `execvp` that fails makes another
process do so (`only_original_iff`).
-/

namespace Ece357.CatGrepMore

open Ece357.Machine

variable {w : World} {s s' : State} {p : Nat} {a : Answer}

/-- The second `fork`, a turn of the copy loop, or the return from `pipeFile`. -/
def Pc.continues : Pc → Bool
  | .fork2 | .copy _ | .ret => true
  | _ => false

/-- Nobody but the original process can take one of these steps next. -/
def State.OnlyOriginal (w : World) (s : State) : Prop :=
  ∀ p a s', step w s (.run p a) = some s' → (s.procs p).pc.continues = true → p = 0

theorem Pc.ofParent_of_continues {pc : Pc} (h : pc.continues = true) : pc.ofParent = true := by
  cases pc <;> first | rfl | cases h

theorem running_of_run (hstep : step w s (.run p a) = some s') : (s.procs p).life = .running := by
  by_contra hdead
  simp [step, hdead] at hstep

theorem State.Sound.onlyOriginal (h : s.Sound) : s.OnlyOriginal w := by
  intro p a s' hstep hcont
  exact ((h.procs p).parentCode (running_of_run hstep) (Pc.ofParent_of_continues hcont)).1

/-- A process in the code of the parent that need not wait can always move. -/
theorem run_continues (hrun : (s.procs p).life = .running)
    (hcont : (s.procs p).pc.continues = true) : ∃ s', step w s (.run p a) = some s' := by
  cases hpc : (s.procs p).pc with
  | fork2 => cases hok : a.ok <;> simp [step, hrun, Proc.act, hpc, Proc.fork, hok]
  | copy | ret => simp [step, hrun, Proc.act, hpc]
  | _ =>
      rw [hpc] at hcont
      cases hcont

/-- A failed `execvp` leads into the code of the parent. -/
theorem execvp_fails (hpc : (s.procs p).pc = .grep .exec ∨ (s.procs p).pc = .pager .exec)
    (hok : a.ok = false) (hstep : step w s (.run p a) = some s') :
    (s.procs p).life = .running ∧ (s'.procs p).life = .running ∧
      (s'.procs p).pc.continues = true := by
  have hrun := running_of_run hstep
  rcases hpc with hpc | hpc
  · simp only [step, hrun, Proc.act, hpc, Proc.grepArm, Proc.execvp, hok, ne_eq, not_true_eq_false,
      if_false, Option.some.injEq, Bool.false_eq_true] at hstep
    subst hstep
    simp [State.set, hrun, Pc.continues]
  · simp only [step, hrun, Proc.act, hpc, Proc.pagerArm, Proc.execvp, hok, ne_eq,
      not_true_eq_false, if_false, Option.some.injEq, Bool.false_eq_true] at hstep
    subst hstep
    simp [State.set, hrun, Pc.continues]

/-- **Only the original process goes on**, in every run in which every `execvp` succeeds; and
a step from there keeps it so precisely when it is not an `execvp` that fails. -/
theorem only_original_iff (w : World) (s : State) (h : (system w).Reach ExecSucceeds s) :
    s.OnlyOriginal w ∧
      ∀ l s', step w s l = some s' → (s'.OnlyOriginal w ↔ ExecSucceeds s l) := by
  refine ⟨(sound h).onlyOriginal, fun l s' hstep => ⟨fun honly => ?_, fun hok => ?_⟩⟩
  · cases l with
    | finish | kill | interrupt => trivial
    | run p a =>
        intro hpc
        by_contra hfail
        obtain ⟨hrun, hrun', hcont⟩ := execvp_fails hpc (by simpa using hfail) hstep
        obtain ⟨s'', hnext⟩ := run_continues (w := w) (a := a) hrun' hcont
        obtain rfl := honly p a s'' hnext hcont
        -- the original process is not in the arm of a child
        rcases ((sound h).procs 0).alive (Life.holds_running hrun) with ⟨-, ho⟩ | ⟨hne, -⟩
        · have hcode := ho.code
          rcases hpc with hpc | hpc <;> simp [hpc, Pc.ofParent] at hcode
        · exact hne rfl
  · exact ((sound h).step hok hstep).onlyOriginal

/-! ### A second process goes on -/

theorem only_original_iff_waiting : ∃ s, (system oneFile).Reach ExecSucceeds s ∧
    (s.procs 2).fds 4 = some (.pipe 0 0 .one .write) ∧ s.OnlyOriginal oneFile := by
  obtain ⟨s, hs, -, -, hend⟩ := pager_holds
  exact ⟨s, hs, hend, (only_original_iff oneFile s hs).1⟩

/-- **The child forks too**: where the `execvp` of grep fails, its process stands before the
second `fork`. -/
theorem grep_continues : ¬ ∀ (w : World) (s : State), (system w).Reach System.any s →
    s.OnlyOriginal w := by
  intro hall
  obtain ⟨s, hs, hcheck⟩ := System.reach_of_exec (system oneFile) System.any (step oneFile)
    (fun _ _ => true) (fun h => h) ⟨standardFds, inherited_standardFds, rfl⟩
    (oneFileRun ++ [.run 1 ⟨false, ⟨none, none, none⟩, 0⟩])
    (fun s => decide ((s.procs 1).life = .running ∧ (s.procs 1).pc = .fork2))
    (fun _ _ _ _ => trivial) (by decide +kernel)
  obtain ⟨hrun, hpc⟩ := of_decide_eq_true hcheck
  have hcont : (s.procs 1).pc.continues = true := by rw [hpc]; rfl
  obtain ⟨s', hnext⟩ := run_continues (w := oneFile) (a := ⟨true, ⟨none, none, none⟩, 0⟩) hrun hcont
  have hone := hall oneFile s hs 1 _ s' hnext hcont
  cases hone

end Ece357.CatGrepMore
