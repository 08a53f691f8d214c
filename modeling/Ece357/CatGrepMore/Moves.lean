import Ece357.CatGrepMore.Model

/-!
# Ece357.CatGrepMore.Moves

**What a step of the processes is made of**: every step is one of the five kinds of `Move`,
each with the guard under which it is made and its exact effect. The step function is not
unfolded again by anything that is proved about all processes.

A process copies its file turn by turn; other processes may move in between. If none does,
its turns are those of `copyLoop` (`copyLoop_run`), so what is proved of the loop holds of the
processes.
-/

namespace Ece357.CatGrepMore

open Ece357.Machine

variable {w : World} {s s' : State} {pr pr' : Proc} {p : Nat} {a : Answer}

/-! ### Calls -/

/-- A call that `exit(1)` follows if it fails. -/
theorem Proc.orExit_cases {α : Type} {ok : Bool} {result : Option α}
    {next : α → Proc} (h : pr.orExit ok result next = pr') :
    pr' = pr.die (.exited 1) ∨ ∃ r, result = some r ∧ pr' = next r := by
  subst h
  cases ok with
  | false => exact .inl rfl
  | true =>
      cases result with
      | none => exact .inl rfl
      | some r => exact .inr ⟨r, rfl, rfl⟩

/-- What holds of a process that exits and of one that goes on holds after the call. -/
theorem Proc.orExit_induction {α : Type} {C : Proc → Prop} {ok : Bool} {result : Option α}
    {next : α → Proc} (hdie : C (pr.die (.exited 1))) (hnext : ∀ r, C (next r)) :
    C (pr.orExit ok result next) := by
  obtain ⟨pr', hpr⟩ : ∃ pr', pr.orExit ok result next = pr' := ⟨_, rfl⟩
  rw [hpr]
  rcases Proc.orExit_cases hpr with rfl | ⟨r, -, rfl⟩
  · exact hdie
  · exact hnext r

theorem Proc.fork_ne_waits {ok : Bool} {parent child : Pc} {role : Role} :
    pr.fork p ok parent child role ≠ .waits := by
  unfold Proc.fork
  split <;> nofun

theorem Proc.act_waits (h : pr.act w p a = .waits) : pr.pc = .wait3 := by
  unfold Proc.act at h
  cases hpc : pr.pc with
  | wait3 => rfl
  | fork1 | fork2 =>
      rw [hpc] at h
      exact absurd h Proc.fork_ne_waits
  | _ =>
      rw [hpc] at h
      cases h

theorem Proc.fork_forks {ok : Bool} {pc pc' : Pc} {role : Role} {parent child : Proc}
    (h : pr.fork p ok pc pc' role = .forks parent child) :
    parent = { pr with pc := pc } ∧
      child = { pr with pc := pc', parent := some p, role := role } := by
  unfold Proc.fork at h
  split at h
  · obtain ⟨rfl, rfl⟩ := Act.forks.inj h
    exact ⟨rfl, rfl⟩
  · cases h

/-- The two calls of `fork`. -/
theorem Proc.act_forks {parent child : Proc} (h : pr.act w p a = .forks parent child) :
    (pr.pc = .fork1 ∧ parent = { pr with pc := .closeR1 } ∧
      child = { pr with pc := .grep .closeW1, parent := some p, role := .grep }) ∨
    (pr.pc = .fork2 ∧ parent = { pr with pc := .closeR2 } ∧
      child = { pr with pc := .pager .closeW2, parent := some p, role := .pager }) := by
  unfold Proc.act at h
  cases hpc : pr.pc with
  | fork1 =>
      rw [hpc] at h
      exact .inl ⟨rfl, Proc.fork_forks h⟩
  | fork2 =>
      rw [hpc] at h
      exact .inr ⟨rfl, Proc.fork_forks h⟩
  | _ =>
      rw [hpc] at h
      cases h

/-- What no call of a process changes: where it comes from; and it runs on or ends. -/
structure Proc.Frame (pr pr' : Proc) : Prop where
  parent : pr'.parent = pr.parent
  role : pr'.role = pr.role
  life : pr'.life = pr.life ∨ ∃ e, pr'.life = .ended e

theorem Proc.frame_die (e : Ending) : pr.Frame (pr.die e) := ⟨rfl, rfl, .inr ⟨e, rfl⟩⟩

theorem Proc.frame_orExit {α : Type} {ok : Bool} {result : Option α} {next : α → Proc}
    (hnext : ∀ r, pr.Frame (next r)) : pr.Frame (pr.orExit ok result next) :=
  Proc.orExit_induction (pr.frame_die _) hnext

theorem Proc.frame_copy (io : Answers) (c : Copying) : pr.Frame (pr.copy io c) := by
  unfold Proc.copy
  cases copyTurn (pr.answers io) c with
  | again c' wrstatus => exact ⟨rfl, rfl, .inl rfl⟩
  | eof => exact ⟨rfl, rfl, .inl rfl⟩
  | failed => exact pr.frame_die _

theorem Proc.act_frame (h : pr.act w p a = .goes pr') : pr.Frame pr' := by
  have hsame : ∀ {qr : Proc}, qr.parent = pr.parent → qr.role = pr.role → qr.life = pr.life →
      pr.Frame qr := fun hparent hrole hlife => ⟨hparent, hrole, .inl hlife⟩
  unfold Proc.act at h
  cases hpc : pr.pc with
  | wait3 | program =>
      rw [hpc] at h
      cases h
  | fork1 | fork2 =>
      rw [hpc] at h
      dsimp only [Proc.fork] at h
      split_ifs at h
      obtain rfl := Act.goes.inj h
      exact pr.frame_die _
  | usage | loop =>
      rw [hpc] at h
      obtain rfl := Act.goes.inj h
      split_ifs
      · first | exact pr.frame_die _ | exact hsame rfl rfl rfl
      · first | exact pr.frame_die _ | exact hsame rfl rfl rfl
  | pipe1 | pipe2 | «open» =>
      rw [hpc] at h
      obtain rfl := Act.goes.inj h
      exact Proc.frame_orExit fun _ => hsame rfl rfl rfl
  | grep g =>
      rw [hpc] at h
      obtain rfl := Act.goes.inj h
      cases g with
      | dupIn | dupOut => exact Proc.frame_orExit fun _ => hsame rfl rfl rfl
      | _ => exact hsame rfl rfl rfl
  | pager q =>
      rw [hpc] at h
      obtain rfl := Act.goes.inj h
      cases q with
      | dupIn => exact Proc.frame_orExit fun _ => hsame rfl rfl rfl
      | _ => exact hsame rfl rfl rfl
  | copy c =>
      rw [hpc] at h
      obtain rfl := Act.goes.inj h
      exact pr.frame_copy _ _
  | _ =>
      rw [hpc] at h
      obtain rfl := Act.goes.inj h
      exact hsame rfl rfl rfl

/-! ### Steps -/

/-- What a step does. -/
inductive Move (w : World) (s : State) : Label → State → Prop
  /-- A process executes a call. -/
  | goes {p : Nat} {a : Answer} {pr : Proc} (hrun : (s.procs p).life = .running)
      (hact : (s.procs p).act w p a = .goes pr) : Move w s (.run p a) (s.set p pr)
  /-- A process forks. -/
  | forks {p : Nat} {a : Answer} {parent child : Proc} (hrun : (s.procs p).life = .running)
      (hact : (s.procs p).act w p a = .forks parent child) :
      Move w s (.run p a) (s.spawn p parent child)
  /-- `wait3` reaps a child that has ended. -/
  | reaps {p q : Nat} {a : Answer} (hrun : (s.procs p).life = .running)
      (hpc : (s.procs p).pc = .wait3) (hchild : s.IsChild p q)
      (hended : (s.procs q).life.isEnded = true) :
      Move w s (.run p a)
        ((s.set q { s.procs q with life := .absent }).set p { s.procs p with pc := .ret })
  /-- A process ends: by `wait3` without a child, by a signal, or in another program. -/
  | ends {l : Label} {p : Nat} {e : Ending} (hrun : (s.procs p).life = .running) :
      Move w s l (s.set p ((s.procs p).die e))
  /-- A jump that is not defined. -/
  | undefined {l : Label} {p : Nat} (hrun : (s.procs p).life = .running) :
      Move w s l (s.set p { s.procs p with life := .undefined })

theorem wait3_move {q : Nat} (hrun : (s.procs p).life = .running)
    (hpc : (s.procs p).pc = .wait3) (h : s.wait3 p q = some s') : Move w s (.run p a) s' := by
  unfold State.wait3 at h
  split_ifs at h with hchild hnone
  · obtain rfl := Option.some.inj h
    exact .reaps hrun hpc hchild.1 hchild.2
  · obtain rfl := Option.some.inj h
    exact .ends hrun

theorem interrupt_move {l : Label} (hrun : (s.procs p).life = .running) :
    Move w s l (s.set p (s.procs p).interrupt) := by
  unfold Proc.interrupt
  split_ifs
  · exact .ends hrun
  · exact .ends hrun
  · exact .undefined hrun

/-- Every step is a move. -/
theorem step_move {l : Label} (h : step w s l = some s') : Move w s l s' := by
  cases l with
  | run p a =>
      simp only [step] at h
      by_cases hrun : (s.procs p).life = .running
      · rw [if_neg (not_not_intro hrun)] at h
        cases hact : (s.procs p).act w p a with
        | goes pr =>
            rw [hact] at h
            obtain rfl := Option.some.inj h
            exact .goes hrun hact
        | forks parent child =>
            rw [hact] at h
            obtain rfl := Option.some.inj h
            exact .forks hrun hact
        | waits =>
            rw [hact] at h
            exact wait3_move hrun (Proc.act_waits hact) h
        | elsewhere =>
            rw [hact] at h
            cases h
      · rw [if_pos hrun] at h
        cases h
  | finish p status =>
      simp only [step] at h
      split_ifs at h with hrun
      obtain rfl := Option.some.inj h
      exact .ends hrun.1
  | kill p =>
      simp only [step] at h
      split_ifs at h with hrun
      obtain rfl := Option.some.inj h
      exact .ends hrun
  | interrupt p =>
      simp only [step] at h
      split_ifs at h with hrun
      obtain rfl := Option.some.inj h
      exact interrupt_move hrun.1

/-- What a step does to process `q`. -/
inductive ProcMove (w : World) (s : State) (q : Nat) : Proc → Prop
  | stays : ProcMove w s q (s.procs q)
  | goes {a : Answer} {pr : Proc} (hrun : (s.procs q).life = .running)
      (hact : (s.procs q).act w q a = .goes pr) : ProcMove w s q pr
  | forks {a : Answer} {parent child : Proc} (hrun : (s.procs q).life = .running)
      (hact : (s.procs q).act w q a = .forks parent child) : ProcMove w s q parent
  /-- It is the child of a `fork`. -/
  | born {p : Nat} {a : Answer} {parent child : Proc} (hnew : q = s.count)
      (hrun : (s.procs p).life = .running)
      (hact : (s.procs p).act w p a = .forks parent child) : ProcMove w s q child
  /-- It returns from `wait3`. -/
  | waited (hrun : (s.procs q).life = .running) (hpc : (s.procs q).pc = .wait3) :
      ProcMove w s q { s.procs q with pc := .ret }
  /-- Its parent returns from `wait3`. -/
  | reaped (hended : (s.procs q).life.isEnded = true) :
      ProcMove w s q { s.procs q with life := .absent }
  | ends (hrun : (s.procs q).life = .running) (e : Ending) : ProcMove w s q ((s.procs q).die e)
  | undefined (hrun : (s.procs q).life = .running) :
      ProcMove w s q { s.procs q with life := .undefined }

theorem step_proc {l : Label} (h : step w s l = some s') (q : Nat) :
    ProcMove w s q (s'.procs q) := by
  have hset : ∀ {p : Nat} {pr : Proc}, (q = p → ProcMove w s q pr) →
      ProcMove w s q ((s.set p pr).procs q) := by
    intro p pr hmove
    by_cases hq : q = p
    · simpa [State.set, hq] using hq ▸ hmove hq
    · simpa [State.set, hq] using ProcMove.stays
  cases step_move h with
  | goes hrun hact => exact hset fun hq => by subst hq; exact .goes hrun hact
  | @forks p a parent child hrun hact =>
      simp only [State.spawn]
      -- the child gets the next number, which is not that of its parent
      by_cases hnew : q = s.count
      · rw [hnew, Function.update_self, ← hnew]
        exact .born hnew hrun hact
      · rw [Function.update_of_ne hnew]
        by_cases hq : q = p
        · subst hq
          rw [Function.update_self]
          exact .forks hrun hact
        · rw [Function.update_of_ne hq]
          exact .stays
  | @reaps p r a hrun hpc hchild hended =>
      have hpr : r ≠ p := by
        intro heq
        subst heq
        simp [hrun, Life.isEnded] at hended
      by_cases hq : q = p
      · subst hq
        simpa [State.set] using ProcMove.waited hrun hpc
      · by_cases hr : q = r
        · subst hr
          simpa [State.set, hq] using ProcMove.reaped hended
        · simpa [State.set, hq, hr] using ProcMove.stays
  | ends hrun => exact hset fun hq => by subst hq; exact .ends hrun _
  | undefined hrun => exact hset fun hq => by subst hq; exact .undefined hrun

/-- The numbers from `count` on have not been used. -/
theorem unused {ok : State → Label → Prop} (hs : (system w).Reach ok s) {p : Nat}
    (hp : s.count ≤ p) : s.procs p = .unused := by
  have hset : ∀ {s : State} {p : Nat} {pr : Proc}, (s.procs p).life ≠ .absent →
      (∀ q, s.count ≤ q → s.procs q = .unused) →
      ∀ q, (s.set p pr).count ≤ q → (s.set p pr).procs q = .unused := by
    intro s p pr hlife h q hq
    by_cases heq : q = p
    · subst heq
      rw [h q hq] at hlife
      exact absurd rfl hlife
    · simpa [State.set, heq] using h q hq
  refine hs.invariant (I := fun s => ∀ p, s.count ≤ p → s.procs p = .unused) ?_ ?_ p hp
  · intro s₀ hstart p hp
    obtain ⟨fds, -, rfl⟩ := hstart
    have hne : p ≠ 0 := Nat.ne_of_gt hp
    simp [State.start, hne]
  · intro s l s' _ h _ hstep
    cases step_move hstep with
    | goes hrun | ends hrun | undefined hrun => exact hset (by rw [hrun]; nofun) h
    | @forks p a parent child hrun =>
        intro q hq
        have hp : p ≠ q := by
          intro heq
          subst heq
          rw [h p (Nat.le_of_succ_le hq)] at hrun
          cases hrun
        simp only [State.spawn] at hq ⊢
        rw [Function.update_of_ne (by omega), Function.update_of_ne (Ne.symm hp)]
        exact h q (by omega)
    | @reaps p q a hrun hpc hchild hended =>
        refine hset ?_ (hset hchild.2.2 h)
        by_cases heq : p = q
        · subst heq
          simp [hrun, Life.isEnded] at hended
        · simp [State.set, heq, hrun]

/-! ### The copy loop -/

theorem Proc.copy_again {c c' : Copying} {io : Answers} {wrstatus : Nat}
    (hfd : (pr.fds pr.pipe1fds.2).any Desc.writable = true)
    (h : copyTurn io c = .again c' wrstatus) :
    pr.copy io c = { pr with pc := .copy c', totals := pr.totals.count wrstatus } := by
  rw [Proc.copy, Proc.answers, if_pos hfd, h]

theorem Proc.copy_eof {c : Copying} {io : Answers}
    (hfd : (pr.fds pr.pipe1fds.2).any Desc.writable = true) (h : copyTurn io c = .eof) :
    pr.copy io c = { pr with pc := .closeW1 } := by
  rw [Proc.copy, Proc.answers, if_pos hfd, h]

/-- A turn of the loop in a process. -/
theorem copy_step {c : Copying} (hrun : (s.procs p).life = .running)
    (hpc : (s.procs p).pc = .copy c) (io : Answers) :
    step w s (.run p ⟨true, io, 0⟩) = some (s.set p ((s.procs p).copy io c)) := by
  simp only [step, Proc.act, hrun, hpc]
  rfl

theorem State.set_set (s : State) (p : Nat) (pr pr' : Proc) :
    (s.set p pr).set p pr' = s.set p pr' := by
  simp [set]

/-- **A process copies its file by `copyLoop`**: if the loop comes to its end, the turns of the
process take it to the `close` behind the loop, with the bytes counted that the loop counts. -/
theorem copyLoop_run {answers : Nat → Answers} {n n' : Nat} {c c' : Copying} {t t' : Totals}
    (h : copyLoop answers n c t = some (n', c', t')) (hrun : (s.procs p).life = .running)
    (hpc : (s.procs p).pc = .copy c) (htotals : (s.procs p).totals = t)
    (hfd : ((s.procs p).fds (s.procs p).pipe1fds.2).any Desc.writable = true) :
    (system w).Run System.any s
      (s.set p { s.procs p with pc := .closeW1, totals := t' }) := by
  induction hlen : c.rest.length using Nat.strongRecOn generalizing n c t s with
  | _ len ih =>
      have hstep := copy_step (w := w) hrun hpc (answers n)
      rcases copyLoop_cases h with ⟨hend, heq⟩ | ⟨c₁, wrstatus, hturn, hlater⟩
      · obtain ⟨-, -, rfl⟩ : n' = n + 1 ∧ c' = c ∧ t' = t := by simpa using heq
        rw [Proc.copy_eof hfd hend] at hstep
        rw [← htotals]
        exact .single ⟨_, trivial, hstep⟩
      · rw [Proc.copy_again hfd hturn] at hstep
        obtain ⟨pr, hpr⟩ : ∃ pr : Proc, pr = { s.procs p with
          pc := .copy c₁, totals := (s.procs p).totals.count wrstatus } := ⟨_, rfl⟩
        rw [← hpr] at hstep
        have hself : (s.set p pr).procs p = pr := Function.update_self ..
        have hrest := ih _ (hlen ▸ copyTurn_less hturn) (s := s.set p pr) hlater
          (by rw [hself, hpr]; exact hrun) (by rw [hself, hpr]) (by rw [hself, hpr, htotals])
          (by rw [hself, hpr]; exact hfd) rfl
        rw [State.set_set, hself] at hrest
        subst hpr
        exact .head ⟨_, trivial, hstep⟩ hrest

end Ece357.CatGrepMore
