import Ece357.Sched.Sound

/-!
# Ece357.Sched.Steps

**Every step is a run of moves.** One lemma for each function of the scheduler
says which moves it makes; `step_run` puts them together and `reach_moves` carries
it over runs, so that what the moves keep holds in every state the scheduler
reaches.
-/

namespace Ece357.Sched

open Ece357.Machine Ece357.ProcTable State

variable {s s' : State}

/-! ### `sched_fork`, `sched_exit`, `sched_wait` -/

/-- The value that the call of `sched_fork` just finished has returned. -/
def State.returned (s : State) : Option Int :=
  match s.trace with
  | .forkReturned _ _ ret :: _ => some ret
  | _ => none

/-- `sched_fork` gives up without memory or without a pid, or goes through; the new record may
take the address of a current task that has been freed. -/
theorem schedFork_spec (h : Placed s) {mem : Option (Ptr × SchedProc)} {newsp : Addr}
    (hok : allocOk s mem newsp = true) (hs : schedFork mem newsp s = some s') :
    ((mem = none ∨ ∀ i < schedNproc, s.procs i ≠ none) ∧
      Quiet s [.forkReturned s.current none (-1)] s') ∨
    ∃ z content i, mem = some (z, content) ∧ i < schedNproc ∧ s.procs i = none ∧
      (∀ j < i, s.procs j ≠ none) ∧ s.live z = false ∧ newsp ∉ s.mapped ∧
      s' = { s.forked z content i newsp with
        heap := Function.update s.heap z (newRecord (s.malloc z content) content i newsp) } := by
  unfold schedFork at hs
  cases mem with
  | none =>
      obtain rfl := Option.some.inj hs
      exact .inl ⟨.inl rfl, rfl, rfl, rfl, rfl, rfl, fun p _ => .refl _, .same _, rfl⟩
  | some m =>
      obtain ⟨z, content⟩ := m
      simp only [allocOk, Bool.and_eq_true, Bool.not_eq_true', List.contains_eq_mem,
        decide_eq_false_iff_not] at hok
      have hz : ∀ p, s.InTable p → p ≠ z := fun p hp => h.ne_of_free hp hok.1
      have hpid : nextpid (s.sigBlock.malloc z content) = nextpid s := rfl
      simp only [hpid] at hs
      rcases nextpid_cases s with ⟨hnone, hfull⟩ | ⟨i, hi, hsome, hfree, hlow⟩
      · rw [if_pos (by omega)] at hs
        obtain rfl := Option.some.inj hs
        refine .inl ⟨.inr hfull, rfl, ?_, rfl, rfl, rfl, fun p hp => ?_, .same _, rfl⟩
        · simp [free, malloc, sigBlock, State.log, ← hok.1]
        · simpa [free, malloc, sigBlock, State.log, hz p hp] using Same.refl _
      · rw [if_neg (by omega), if_neg (Nat.not_lt_zero _)] at hs
        split_ifs at hs with hfail
        obtain rfl := Option.some.inj hs
        refine .inr ⟨z, content, i, rfl, hi, hfree, hlow, hok.1, hok.2, ?_⟩
        simp [forked, newRecord, savectx, State.modify, State.log, malloc, sigBlock, sigUnblock,
          State.cur, hsome]

/-- The same, while the current task is in the table. -/
theorem schedFork_cases (h : Base s) {mem : Option (Ptr × SchedProc)} {newsp : Addr}
    (hok : allocOk s mem newsp = true) (hs : schedFork mem newsp s = some s') :
    ((mem = none ∨ ∀ i < schedNproc, s.procs i ≠ none) ∧
      Quiet s [.forkReturned s.current none (-1)] s') ∨
    ∃ z content i, mem = some (z, content) ∧ i < schedNproc ∧ s.procs i = none ∧
      (∀ j < i, s.procs j ≠ none) ∧ s.live z = false ∧ newsp ∉ s.mapped ∧
      s' = s.forked z content i newsp := by
  rcases schedFork_spec h.placed hok hs with
    hfail | ⟨z, content, i, hmem, hi, hfree, hlow, hz, hsp, heq⟩
  · exact .inl hfail
  · have hcur : s.current ≠ z := h.ne_of_free h.current hz
    have hrec : newRecord (s.malloc z content) content i newsp = newRecord s content i newsp := by
      simp [newRecord, malloc, State.cur, hcur]
    refine .inr ⟨z, content, i, hmem, hi, hfree, hlow, hz, hsp, ?_⟩
    rw [heq, hrec]
    rfl

theorem schedFork_move (h : Base s) (hcall : s.frames = []) {mem : Option (Ptr × SchedProc)}
    {newsp : Addr} (hok : allocOk s mem newsp = true) (hs : schedFork mem newsp s = some s') :
    Move s (some (.fork mem newsp)) s' := by
  rcases schedFork_cases h hok hs with
    ⟨hwhy, hq⟩ | ⟨z, content, i, rfl, hi, hfree, hlow, hz, hsp, rfl⟩
  · exact .forkFail hq hcall hwhy
  · exact .fork hcall hi hfree hlow hz hsp

/-- `q`, another task, sleeps and has the pid that the current task names as its parent's. -/
def State.ParentAsleep (s : State) (q : Ptr) : Prop :=
  q ≠ s.current ∧ (s.heap q).pid = s.cur.ppid ∧ (s.heap q).state = .sleeping

/-- `q`, in slot `i`, is the sleeping parent that a `sched_exit` would find first. -/
structure Wakes (s : State) (i : Nat) (q : Ptr) : Prop where
  lt : i < schedNproc
  slot : s.procs i = some q
  asleep : s.ParentAsleep q
  lowest : ∀ j < i, ∀ p, s.procs j = some p → ¬ s.ParentAsleep p

theorem Wakes.inTable {i : Nat} {q : Ptr} (h : Wakes s i q) : s.InTable q := ⟨i, h.lt, h.slot⟩

theorem exited_cur (s : State) (code : Int) :
    (s.exited code).cur = { s.cur with state := .zombie, exitCode := code } := by
  simp [exited, State.modify, State.log, State.cur]

theorem exited_heap {q : Ptr} (hq : q ≠ s.current) (code : Int) :
    (s.exited code).heap q = s.heap q := by
  simp [exited, State.modify, State.log, hq]

/-- How `sched_exit` goes on when it has looked for a sleeping parent. -/
def afterExited (s : State) (code : Int) : Option (Nat × Ptr) → State
  | some (_, q) => resume { s.exited code with blocked := true } s.current q
  | none => { (s.exited code).sigBlock.sigUnblock with frames := .exitSwitch :: s.frames }

/-- `sched_exit` hands over to the first sleeping parent, or finds none. -/
theorem schedExit_cases (s : State) (code : Int) :
    (schedExit code s = { s.exited code with blocked := false, frames := .exitSwitch :: s.frames } ∧
      ∀ q, s.InTable q → ¬ s.ParentAsleep q) ∨
    ∃ i q, Wakes s i q ∧ schedExit code s = resume (s.exited code) s.current q := by
  -- The exiting task is dead by then, so the test holds of nobody but a sleeping parent.
  have htest : ∀ q, (((s.exited code).heap q).pid = (s.exited code).cur.ppid &&
      ((s.exited code).heap q).state = .sleeping) = true ↔ s.ParentAsleep q := by
    intro q
    rw [Bool.and_eq_true, decide_eq_true_eq, decide_eq_true_eq, exited_cur]
    by_cases hq : q = s.current
    · subst hq
      have hself : (s.exited code).heap s.current = (s.exited code).cur := rfl
      simp [ParentAsleep, hself, exited_cur]
    · simp [ParentAsleep, exited_heap hq, hq]
  have hexit : schedExit code s = afterExited s code ((s.exited code).findProc fun q =>
      q.pid = (s.exited code).cur.ppid && q.state = .sleeping) := rfl
  rw [hexit]
  cases hfind : (s.exited code).findProc fun q =>
      q.pid = (s.exited code).cur.ppid && q.state = .sleeping with
  | none =>
      refine .inl ⟨rfl, fun q hq hasleep => ?_⟩
      have hfalse := findProc_none.mp hfind q hq
      exact Bool.false_ne_true (hfalse.symm.trans ((htest q).mpr hasleep))
  | some found =>
      obtain ⟨i, q⟩ := found
      obtain ⟨hi, hq, hfound⟩ := findProc_some hfind
      refine .inr ⟨i, q, ⟨hi, hq, (htest q).mp hfound, fun j hj p hp hasleep => ?_⟩, ?_⟩
      · have hfalse := findProc_lowest hfind hj hp
        exact Bool.false_ne_true (hfalse.symm.trans ((htest p).mpr hasleep))
      · show resume { s.exited code with blocked := true } s.current q = _
        rw [resume_eq, resume_eq]

theorem schedExit_move (hcall : s.frames = []) (code : Int) :
    Move s (some (.exit code)) (schedExit code s) := by
  rcases schedExit_cases s code with ⟨heq, hnone⟩ | ⟨i, q, hwakes, heq⟩
  · rw [heq, hcall]
    exact .exit hcall fun q hq hne hpid hst => hnone q hq ⟨hne, hpid, hst⟩
  · rw [heq]
    obtain ⟨hne, hpid, hst⟩ := hwakes.asleep
    exact .exitWake hcall hwakes.inTable hne hpid hst

/-- One round of the loop of `sched_wait`: it reaps a zombie child, or there is none and the
task goes to sleep. -/
theorem waitRound_spec (freed : SchedProc → SchedProc) (s : State) :
    (∃ i < schedNproc, ∃ z, s.procs i = some z ∧ (s.heap z).ppid = s.cur.pid ∧
      (s.heap z).state = .zombie ∧
      waitRound freed s = { s.reaped i z (freed (s.heap z)) with frames := s.frames }) ∨
    ((∀ q, s.InTable q → (s.heap q).ppid = s.cur.pid → (s.heap q).state ≠ .zombie) ∧
      waitRound freed s = { s.slept with frames := .waitSwitch :: s.frames }) := by
  unfold waitRound
  cases hfind : s.findProc fun q => q.ppid = s.cur.pid && q.state = .zombie with
  | none =>
      refine .inr ⟨fun q hq hpar hz => ?_, rfl⟩
      have htest := findProc_none.mp hfind q hq
      simp [hpar, hz] at htest
  | some found =>
      obtain ⟨i, z⟩ := found
      obtain ⟨hi, hz, htest⟩ := findProc_some hfind
      simp only [Bool.and_eq_true, decide_eq_true_eq] at htest
      exact .inl ⟨i, hi, z, hz, htest.1, htest.2, by
        simp [State.reaped, free, State.log, sigUnblock]⟩

/-- The same, in the critical section that starts in `s`. -/
theorem waitRound_cases (freed : SchedProc → SchedProc) (s : State) :
    (∃ i < schedNproc, ∃ z, s.procs i = some z ∧ (s.heap z).ppid = s.cur.pid ∧
      (s.heap z).state = .zombie ∧
      waitRound freed { s with blocked := true, frames := [] } = s.reaped i z (freed (s.heap z))) ∨
    ((∀ q, s.InTable q → (s.heap q).ppid = s.cur.pid → (s.heap q).state ≠ .zombie) ∧
      waitRound freed { s with blocked := true, frames := [] } = s.slept) :=
  waitRound_spec freed { s with blocked := true, frames := [] }

theorem waitRound_move {freed : SchedProc → SchedProc} {l : Label}
    (hround : WaitRound freed s.frames l)
    (hchild : s.frames = [] → ∃ q, s.InTable q ∧ (s.heap q).ppid = s.cur.pid) :
    Move s (some l) (waitRound freed { s with blocked := true, frames := [] }) := by
  rcases waitRound_cases freed s with ⟨i, hi, z, hz, hpar, hzombie, heq⟩ | ⟨hquiet, heq⟩
  · rw [heq]
    exact .reap hround hi hz hpar hzombie
  · rw [heq]
    exact .sleep hround hchild hquiet

theorem schedWait_move (hcall : s.frames = []) (freed : SchedProc → SchedProc) :
    Move s (some (.wait freed)) (schedWait freed s) := by
  unfold schedWait
  dsimp only
  cases hfind : s.sigBlock.findProc fun q => q.ppid = s.sigBlock.cur.pid with
  | none =>
      have hnone : ∀ q, s.InTable q → (s.heap q).ppid ≠ s.cur.pid := fun q hq =>
        of_decide_eq_false (findProc_none.mp hfind q hq)
      have hquiet : Quiet s [.waitReturned s.current (-1) none]
          (s.sigBlock.log (.waitReturned s.current (-1) none)) :=
        ⟨rfl, rfl, rfl, rfl, rfl, fun p _ => .refl _, .same _, rfl⟩
      exact .noChild hquiet hcall hnone
  | some found =>
      obtain ⟨i, q⟩ := found
      obtain ⟨hi, hq, htest⟩ := findProc_some hfind
      have hround : WaitRound freed s.frames (.wait freed) := by
        rw [hcall]
        exact .first
      have hmove := waitRound_move hround fun _ => ⟨q, ⟨i, hi, hq⟩, of_decide_eq_true htest⟩
      have hsame : ({ s with blocked := true, frames := [] } : State) = s.sigBlock := by
        simp [sigBlock, ← hcall]
      rw [hsame] at hmove
      exact hmove

/-! ### `sched_switch` -/

theorem dynPriority_pos (r : SchedProc) : 0 < dynPriority r := by
  unfold dynPriority
  dsimp only
  split_ifs <;> omega

theorem updatePriorities_inTable {p : Ptr} (hp : s.InTable p) :
    (updatePriorities s).heap p = { s.heap p with priority := dynPriority (s.heap p) } :=
  (mapSlots_apply (f := fun r : SchedProc => { r with priority := dynPriority r }) (fun _ => rfl)
    schedNproc s.procs s.heap p).1 hp

theorem updateCurrent_eq (s : State) : updateCurrent s = s.yielded := by
  unfold updateCurrent yielded
  split_ifs with h
  · unfold State.cur at h
    cases hst : (s.heap s.current).state <;> simp_all [Table.leave, State.modify]
  · have hsame : { s.heap s.current with state := Table.leave (s.heap s.current).state } =
        s.heap s.current := by
      unfold State.cur at h
      cases hst : (s.heap s.current).state <;> simp_all [Table.leave]
      all_goals rw [← hst]
    simp [State.modify, hsame]

/-- The state in which `sched_switch` selects: priorities updated, current yielded. -/
def selecting (s : State) : State := (updatePriorities s.sigBlock).yielded

theorem selecting_inTable {p : Ptr} (hp : s.InTable p) :
    Same (s.yielded.heap p) ((selecting s).heap p) ∧
      ((selecting s).heap p).priority = dynPriority (s.heap p) := by
  have hup := updatePriorities_inTable (s := s.sigBlock) hp
  have hcurrent : (updatePriorities s.sigBlock).current = s.current := rfl
  by_cases hpc : p = s.current
  · subst hpc
    simp only [selecting, yielded, State.modify, hcurrent, Function.update_self, hup]
    exact ⟨⟨rfl, rfl, rfl, rfl, rfl, rfl⟩, rfl⟩
  · simp only [selecting, yielded, State.modify, hcurrent, Function.update_of_ne hpc, hup]
    exact ⟨⟨rfl, rfl, rfl, rfl, rfl, rfl⟩, rfl⟩

theorem dynPriority_congr {a b : SchedProc} (hnice : a.niceval = b.niceval)
    (hticks : a.totalTicks = b.totalTicks) : dynPriority a = dynPriority b := by
  unfold dynPriority
  rw [hnice, hticks]

/-- The pass over the priorities touches no other field. -/
theorem updatePriorities_field {β : Type*} (g : SchedProc → β)
    (hg : ∀ (r : SchedProc) v, g { r with priority := v } = g r) (s : State) (p : Ptr) :
    g ((updatePriorities s).heap p) = g (s.heap p) := by
  by_cases hp : s.InTable p
  · rw [updatePriorities_inTable hp]
    exact hg ..
  · have hout : (updatePriorities s).heap p = s.heap p :=
      (mapSlots_apply (f := fun r : SchedProc => { r with priority := dynPriority r })
        (fun _ => rfl) schedNproc s.procs s.heap p).2 fun i hi hpi => hp ⟨i, hi, hpi⟩
    rw [hout]

theorem selecting_field {β : Type*} (g : SchedProc → β)
    (hg : ∀ (r : SchedProc) v st, g { r with priority := v, state := st } = g r) (s : State)
    (p : Ptr) : g ((selecting s).heap p) = g (s.heap p) := by
  refine (yielded_field g _ (fun r => hg r r.priority (Table.leave r.state)) p).trans ?_
  exact updatePriorities_field g (fun r v => hg r v r.state) s.sigBlock p

theorem selecting_dynPriority (s : State) (p : Ptr) :
    dynPriority ((selecting s).heap p) = dynPriority (s.heap p) :=
  selecting_field dynPriority (fun _ _ _ => rfl) s p

theorem selecting_cur_state (s : State) : (selecting s).cur.state = Table.leave s.cur.state := by
  have hstate := updatePriorities_field SchedProc.state (fun _ _ => rfl) s.sigBlock s.current
  have hself : (selecting s).cur = { (updatePriorities s.sigBlock).heap s.current with
      state := Table.leave ((updatePriorities s.sigBlock).heap s.current).state } :=
    Function.update_self ..
  rw [hself, hstate]
  rfl

theorem selecting_state {p : Ptr} (hp : p ≠ s.current) :
    ((selecting s).heap p).state = (s.heap p).state := by
  have hother : (selecting s).heap p = (updatePriorities s.sigBlock).heap p :=
    Function.update_of_ne hp ..
  rw [hother]
  exact updatePriorities_field SchedProc.state (fun _ _ => rfl) s.sigBlock p

/-- `q`, in slot `i`, is the task to select: READY, no READY task has a higher dynamic
priority, and none in a lower slot has as high a one. -/
structure Selected (s : State) (i : Nat) (q : Ptr) : Prop where
  lt : i < schedNproc
  slot : s.procs i = some q
  ready : (s.heap q).state = .ready
  best : ∀ p, s.InTable p → (s.heap p).state = .ready →
    dynPriority (s.heap p) ≤ dynPriority (s.heap q)
  lowest : ∀ j < i, ∀ p, s.procs j = some p → (s.heap p).state = .ready →
    dynPriority (s.heap p) < dynPriority (s.heap q)

theorem Selected.inTable {i : Nat} {q : Ptr} (h : Selected s i q) : s.InTable q :=
  ⟨i, h.lt, h.slot⟩

/-- The priority that counts in a slot: that of the READY task there. -/
def State.readyPriority (s : State) (i : Nat) : Option Int :=
  match s.procs i with
  | some p => if (s.heap p).state = .ready then some (s.heap p).priority else none
  | none => none

theorem State.readyPriority_eq_some {s : State} {i : Nat} {v : Int} :
    s.readyPriority i = some v ↔
      ∃ p, s.procs i = some p ∧ (s.heap p).state = .ready ∧ (s.heap p).priority = v := by
  unfold readyPriority
  cases s.procs i <;> simp

/-- The selection loop, on a table whose priorities are up to date: it finds nobody if
nobody is READY, and otherwise the task to select. -/
theorem selectBest_cases
    (hup : ∀ p, s.InTable p → (s.heap p).priority = dynPriority (s.heap p)) :
    (selectBest s = none ∧ ∀ p, s.InTable p → (s.heap p).state ≠ .ready) ∨
    ∃ i q, selectBest s = some i ∧ Selected s i q := by
  have hbest := bestSlot_isBest schedNproc s.readyPriority
  obtain ⟨acc, hacc⟩ : ∃ acc, acc = bestSlot schedNproc s.readyPriority := ⟨_, rfl⟩
  have hsel : selectBest s = acc.2 := hacc ▸ rfl
  rw [← hacc] at hbest
  have hscore : ∀ i < schedNproc, ∀ p, s.procs i = some p → (s.heap p).state = .ready →
      dynPriority (s.heap p) ≤ acc.1 := by
    intro i hi p hp hready
    rw [← hup p ⟨i, hi, hp⟩]
    exact hbest.max i hi _ (State.readyPriority_eq_some.mpr ⟨p, hp, hready, rfl⟩)
  cases hi : acc.2 with
  | none =>
      refine .inl ⟨hsel.trans hi, fun p hp hready => ?_⟩
      obtain ⟨i, hlt, hp⟩ := hp
      have hle := hscore i hlt p hp hready
      -- the search starts from 0, and every priority is above that
      have hpos := dynPriority_pos (s.heap p)
      rw [hbest.start hi] at hle
      omega
  | some i =>
      obtain ⟨hlt, hfound, -, hlow⟩ := hbest.found i hi
      obtain ⟨q, hq, hready, hprio⟩ := State.readyPriority_eq_some.mp hfound
      rw [hup q ⟨i, hlt, hq⟩] at hprio
      refine .inr ⟨i, q, hsel.trans hi, hlt, hq, hready, fun p hp hst => ?_,
        fun j hj p hp hst => ?_⟩
      · obtain ⟨j, hj, hp⟩ := hp
        rw [hprio]
        exact hscore j hj p hp hst
      · rw [hprio, ← hup p ⟨j, Nat.lt_trans hj hlt, hp⟩]
        exact hlow j hj _ (State.readyPriority_eq_some.mpr ⟨p, hp, hst, rfl⟩)

/-- How `sched_switch` goes on when it has looked for the best task. -/
def afterSelecting (s : State) (current : Ptr) : Option Ptr → State
  | none => s
  | some q =>
      if (s.heap q).pid = s.cur.pid then s.modify current fun r => { r with state := .ready }
      else switchTo q s

/-- What `sched_switch` does in any state: nothing if nobody is READY; otherwise it stays
with the current task or switches, according to the pid of the task selected. -/
theorem schedSwitch_spec (s : State) :
    (schedSwitch s = selecting s ∧ ∀ p, s.InTable p → ((selecting s).heap p).state ≠ .ready) ∨
    ∃ i q, selectBest (selecting s) = some i ∧ Selected (selecting s) i q ∧
      schedSwitch s = if ((selecting s).heap q).pid = (selecting s).cur.pid then
          (selecting s).modify s.current fun r => { r with state := .ready }
        else switchTo q (selecting s) := by
  have hdef : schedSwitch s = afterSelecting (selecting s) s.current
      ((selectBest (selecting s)).bind (selecting s).procs) := by
    unfold schedSwitch
    rw [updateCurrent_eq]
    rfl
  have hup : ∀ p, (selecting s).InTable p →
      ((selecting s).heap p).priority = dynPriority ((selecting s).heap p) := by
    intro p hp
    rw [selecting_dynPriority s p, (selecting_inTable (s := s) hp).2]
  rcases selectBest_cases hup with ⟨hnone, hidle⟩ | ⟨i, q, hi, hsel⟩
  · refine .inl ⟨?_, hidle⟩
    rw [hdef, hnone]
    rfl
  · refine .inr ⟨i, q, hi, hsel, ?_⟩
    rw [hdef, hi, Option.bind_some, hsel.slot]
    rfl

/-- `sched_switch` changes priorities, states and contexts, and nothing else in any record. -/
theorem schedSwitch_field {β : Type*} (g : SchedProc → β)
    (hg : ∀ (r : SchedProc) v st c, g { r with priority := v, state := st, ctx := c } = g r)
    (s : State) (p : Ptr) : g ((schedSwitch s).heap p) = g (s.heap p) := by
  have hselecting : g ((selecting s).heap p) = g (s.heap p) :=
    selecting_field g (fun r v st => hg r v st r.ctx) s p
  rcases schedSwitch_spec s with ⟨heq, -⟩ | ⟨i, q, -, -, heq⟩
  · rw [heq, hselecting]
  · rw [heq, ← hselecting]
    split_ifs
    · exact modify_field g (selecting s) (f := fun r => { r with state := .ready })
        (fun r => hg r r.priority .ready r.ctx) s.current p
    · show g ((resume _ _ q).heap p) = _
      rw [resume_field g _ fun r => hg r r.priority .running r.ctx]
      exact savectx_field g _ (fun r => hg r r.priority r.state _) p

/-- Where no other record has the pid of the current one, the task selected is the current one
or another. -/
theorem schedSwitch_choice (hcurrent : s.InTable s.current)
    (hunique : ∀ p, s.InTable p → (s.heap p).pid = s.cur.pid → p = s.current) :
    (schedSwitch s = selecting s ∧ ∀ p, s.InTable p → ((selecting s).heap p).state ≠ .ready) ∨
    ∃ i q, selectBest (selecting s) = some i ∧ Selected (selecting s) i q ∧
      (q = s.current ∧ schedSwitch s = selecting s ∨
        q ≠ s.current ∧ schedSwitch s = switchTo q (selecting s)) := by
  rcases schedSwitch_spec s with hidle | ⟨i, q, hi, hsel, heq⟩
  · exact .inl hidle
  · refine .inr ⟨i, q, hi, hsel, ?_⟩
    have hpids : ∀ p, s.InTable p → ((selecting s).heap p).pid = (s.heap p).pid := by
      intro p hp
      rw [(selecting_inTable hp).1.pid, yielded_field SchedProc.pid s fun _ => rfl]
    split_ifs at heq with hpid
    · have hqc : q = s.current := by
        refine hunique q hsel.inTable ?_
        rw [← hpids q hsel.inTable, State.cur, ← hpids _ hcurrent]
        exact hpid
      subst hqc
      refine .inl ⟨rfl, heq.trans ?_⟩
      have hself : { (selecting s).heap s.current with state := .ready } =
          (selecting s).heap s.current := by rw [← hsel.ready]
      simp [State.modify, hself]
    · refine .inr ⟨fun hqc => hpid ?_, heq⟩
      rw [hqc]
      rfl

/-- On a well-formed table, the task selected is the current one or another. -/
theorem schedSwitch_best (h : Base s) :
    (schedSwitch s = selecting s ∧ ∀ p, s.InTable p → ((selecting s).heap p).state ≠ .ready) ∨
    ∃ i q, selectBest (selecting s) = some i ∧ Selected (selecting s) i q ∧
      (q = s.current ∧ schedSwitch s = selecting s ∨
        q ≠ s.current ∧ schedSwitch s = switchTo q (selecting s)) :=
  schedSwitch_choice h.current fun _ hp hpid => h.pid_inj hp h.current hpid

/-- What `sched_switch` does: nothing READY, or the current task is the best, or a
switch to the task in the slot selected. -/
theorem schedSwitch_cases (h : Base s) :
    (schedSwitch s = selecting s ∧ ∀ p, s.InTable p → ((selecting s).heap p).state ≠ .ready) ∨
    (schedSwitch s = selecting s ∧ (selecting s).cur.state = .ready) ∨
    ∃ i q, selectBest (selecting s) = some i ∧ i < schedNproc ∧ s.procs i = some q ∧
      q ≠ s.current ∧ ((selecting s).heap q).state = .ready ∧
      schedSwitch s = switchTo q (selecting s) := by
  rcases schedSwitch_best h with hidle | ⟨i, q, hi, hsel, ⟨rfl, heq⟩ | ⟨hne, heq⟩⟩
  · exact .inl hidle
  · exact .inr (.inl ⟨heq, hsel.ready⟩)
  · exact .inr (.inr ⟨i, q, hi, hsel.lt, hsel.slot, hne, hsel.ready, heq⟩)

theorem Quiet.priorities {u : State} (h : Quiet s [] u) :
    Quiet s [] (updatePriorities u.sigBlock) := by
  refine ⟨h.procs, h.live, h.current, h.procCount, h.mapped, fun p hp => ?_, h.frames, h.trace⟩
  have hsame := h.record p hp
  have hpu : u.sigBlock.InTable p := by
    obtain ⟨i, hi, hp⟩ := hp
    exact ⟨i, hi, h.procs ▸ hp⟩
  rw [updatePriorities_inTable hpu]
  exact ⟨hsame.pid, hsame.ppid, hsame.state, hsame.exitCode, hsame.stack, hsame.ctx⟩

/-- `sched_switch`, called in `u`: the current task yields, and another one may be
dispatched. -/
theorem schedSwitch_run {ok : State → Label → Prop} {l : Label} {u : State} (h : Sound s)
    (hl : ok s l) (hq : Quiet s [] u) : moves.Run (onCalls ok) s (schedSwitch u) := by
  have hyield : moves.Run (onCalls ok) s (selecting u) := by
    have hfirst : moves.Next (onCalls ok) s (updatePriorities u.sigBlock) :=
      ⟨some l, fun k hk => Option.some.inj hk ▸ hl, .quiet hq.priorities⟩
    have hsecond : moves.Next (onCalls ok) (updatePriorities u.sigBlock) (selecting u) :=
      ⟨none, (fun k hk => by cases hk), .yield⟩
    exact (Relation.ReflTransGen.single hfirst).tail hsecond
  rcases schedSwitch_cases (h.quiet hq).base with
    ⟨heq, -⟩ | ⟨heq, -⟩ | ⟨i, q, -, hi, hp, hne, hready, heq⟩
  · rw [heq]
    exact hyield
  · rw [heq]
    exact hyield
  · rw [heq]
    refine hyield.tail ⟨none, (fun k hk => by cases hk), ?_⟩
    refine .dispatch ⟨i, hi, hp⟩ hne hready ?_
    simpa [State.cur, selecting, yielded, State.modify] using Table.leave_ne_running _

/-! ### Steps and runs -/

/-- The state in which a step enters `sched_switch`, if it does. -/
def entersSwitch (s : State) : Label → Option State
  | .tick => some
      { s.modify s.current fun r => { r with totalTicks := r.totalTicks + 1 } with
        tickCount := s.tickCount + 1, frames := .tickReturn :: s.frames }
  | .go _ => match s.frames with
      | .waitSwitch :: fs => some { s with frames := .waitBlock :: fs }
      | .exitSwitch :: fs => some { s with frames := .exitReturn :: fs }
      | _ => none
  | _ => none

theorem step_enters {u : State} {l : Label} (hu : entersSwitch s l = some u)
    (hs : step s l = some s') : s' = schedSwitch u := by
  cases l with
  | tick =>
      simp only [step, Option.ite_none_left_eq_some] at hs
      obtain rfl := Option.some.inj hu
      exact (Option.some.inj hs.2).symm
  | go freed =>
      change goStep freed s = some s' at hs
      unfold goStep at hs
      unfold entersSwitch at hu
      split at hs <;> simp_all only [Option.some.injEq, reduceCtorEq]
  | fork | exit | wait | nice => cases hu

/-- Up to the call of `sched_switch` only ticks and frames change. -/
theorem entersSwitch_quiet {u : State} {l : Label} (hu : entersSwitch s l = some u) :
    Quiet s [] u := by
  have hsame : ∀ p, s.InTable p → Same (s.heap p) (s.heap p) := fun p _ => .refl _
  unfold entersSwitch at hu
  split at hu
  · obtain rfl := Option.some.inj hu
    refine ⟨rfl, rfl, rfl, rfl, rfl, fun p hp => ?_, .push _, rfl⟩
    by_cases hpc : p = s.current
    · subst hpc
      simp only [State.modify, Function.update_self]
      exact ⟨rfl, rfl, rfl, rfl, rfl, rfl⟩
    · simpa [State.modify, hpc] using Same.refl _
  · split at hu
    · rename_i fs hfs
      obtain rfl := Option.some.inj hu
      exact ⟨rfl, rfl, rfl, rfl, rfl, hsame, hfs ▸ .waitGo _, rfl⟩
    · rename_i fs hfs
      obtain rfl := Option.some.inj hu
      exact ⟨rfl, rfl, rfl, rfl, rfl, hsame, hfs ▸ .exitGo _, rfl⟩
    · cases hu
  · cases hu

/-- What a step does that does not enter `sched_switch`. -/
inductive Direct (s : State) : Label → State → Prop
  | fork {mem : Option (Ptr × SchedProc)} {newsp : Addr} {s' : State} (hcall : s.frames = [])
      (hok : allocOk s mem newsp = true) (hs : schedFork mem newsp s = some s') :
      Direct s (.fork mem newsp) s'
  | exit (hcall : s.frames = []) (code : Int) : Direct s (.exit code) (schedExit code s)
  | wait (hcall : s.frames = []) (freed : SchedProc → SchedProc) :
      Direct s (.wait freed) (schedWait freed s)
  | nice (hcall : s.frames = []) (niceval : Int) : Direct s (.nice niceval) (schedNice niceval s)
  /-- `sched_wait` goes round its loop again. -/
  | waitAgain {fs : List Frame} (hfs : s.frames = .waitBlock :: fs)
      (freed : SchedProc → SchedProc) :
      Direct s (.go freed) (waitRound freed { s.sigBlock with frames := fs })
  | exitReturn {fs : List Frame} (hfs : s.frames = .exitReturn :: fs)
      (freed : SchedProc → SchedProc) :
      Direct s (.go freed) ({ s with frames := fs }.log (.exitReturned s.current))
  | tickReturn {fs : List Frame} (hfs : s.frames = .tickReturn :: fs)
      (freed : SchedProc → SchedProc) : Direct s (.go freed) { s.sigUnblock with frames := fs }

theorem step_direct {l : Label} (hu : entersSwitch s l = none) (hs : step s l = some s') :
    Direct s l s' := by
  cases l with
  | tick => cases hu
  | fork mem newsp =>
      simp only [step, Option.ite_none_right_eq_some] at hs
      exact .fork hs.1.1 hs.1.2 hs.2
  | exit code =>
      simp only [step, Option.ite_none_right_eq_some, Option.some.injEq] at hs
      obtain ⟨hcall, rfl⟩ := hs
      exact .exit hcall code
  | wait freed =>
      simp only [step, Option.ite_none_right_eq_some, Option.some.injEq] at hs
      obtain ⟨hcall, rfl⟩ := hs
      exact .wait hcall freed
  | nice niceval =>
      simp only [step, Option.ite_none_right_eq_some, Option.some.injEq] at hs
      obtain ⟨hcall, rfl⟩ := hs
      exact .nice hcall niceval
  | go freed =>
      change goStep freed s = some s' at hs
      unfold goStep at hs
      split at hs
      · cases hs
      · rename_i fs hfs
        simp [entersSwitch, hfs] at hu
      · rename_i fs hfs
        obtain rfl := Option.some.inj hs
        exact .waitAgain hfs freed
      · rename_i fs hfs
        simp [entersSwitch, hfs] at hu
      · rename_i fs hfs
        obtain rfl := Option.some.inj hs
        exact .exitReturn hfs freed
      · rename_i fs hfs
        obtain rfl := Option.some.inj hs
        exact .tickReturn hfs freed

/-- A step that does not enter `sched_switch` is one move. -/
theorem step_move {l : Label} (h : Sound s) (hu : entersSwitch s l = none)
    (hs : step s l = some s') : Move s (some l) s' := by
  have hsame : ∀ p, s.InTable p → Same (s.heap p) (s.heap p) := fun p _ => .refl _
  cases step_direct hu hs with
  | fork hcall hok hs => exact schedFork_move h.base hcall hok hs
  | exit hcall code => exact schedExit_move hcall code
  | wait hcall freed => exact schedWait_move hcall freed
  | nice hcall niceval =>
      refine .quiet ⟨rfl, rfl, rfl, rfl, rfl, fun p hp => ?_, .same _, rfl⟩
      by_cases hpc : p = s.current
      · subst hpc
        simp only [schedNice, State.modify, Function.update_self]
        exact ⟨rfl, rfl, rfl, rfl, rfl, rfl⟩
      · simpa [schedNice, State.modify, hpc] using Same.refl _
  | waitAgain hfs freed =>
      have hshape := h.cur.shape
      rw [hfs] at hshape
      -- `sched_wait` is called from task code only, so there is nothing below
      obtain rfl := hshape.tail_nil (by simp)
      have hround : WaitRound freed s.frames (.go freed) := hfs ▸ .again
      refine waitRound_move hround fun hnil => ?_
      rw [hfs] at hnil
      cases hnil
  | exitReturn hfs freed =>
      exact .exitReturn ⟨rfl, rfl, rfl, rfl, rfl, hsame, hfs ▸ .exitPop _, rfl⟩ hfs
  | tickReturn hfs freed => exact .quiet ⟨rfl, rfl, rfl, rfl, rfl, hsame, hfs ▸ .pop _, rfl⟩

/-- Who stands before the `sched_switch` of `sched_exit` enters it in the next step. -/
theorem step_not_exitSwitch {l : Label} (hu : entersSwitch s l = none) (hs : step s l = some s')
    (fs : List Frame) : s.frames ≠ .exitSwitch :: fs := by
  intro hfs
  cases l with
  | tick => cases hu
  | go freed => simp [entersSwitch, hfs] at hu
  | fork | exit | wait | nice => simp [step, hfs] at hs

/-- A step is one move, or a call of `sched_switch` after some accounting. -/
theorem step_cases {l : Label} (h : Sound s) (hs : step s l = some s') :
    (Move s (some l) s' ∧ ∀ fs, s.frames ≠ .exitSwitch :: fs) ∨
    ∃ u, entersSwitch s l = some u ∧ s' = schedSwitch u ∧ Quiet s [] u := by
  cases hu : entersSwitch s l with
  | none => exact .inl ⟨step_move h hu hs, step_not_exitSwitch hu hs⟩
  | some u => exact .inr ⟨u, rfl, step_enters hu hs, entersSwitch_quiet hu⟩

/-- A step is a run of moves that begins with a move of its label. -/
theorem step_run {ok : State → Label → Prop} {l : Label} (h : Sound s) (hl : ok s l)
    (hs : step s l = some s') : moves.Run (onCalls ok) s s' := by
  rcases step_cases h hs with ⟨hm, -⟩ | ⟨u, -, rfl, hq⟩
  · exact .single ⟨some l, fun k hk => Option.some.inj hk ▸ hl, hm⟩
  · exact schedSwitch_run h hl hq

theorem Sound.step {l : Label} (h : Sound s) (hself : SparesSelf s l) (hs : step s l = some s') :
    Sound s' := by
  have hrun : moves.Run (onCalls SparesSelf) s s' := step_run h hself hs
  exact hrun.invariant h fun ha hok hm => ha.move hok hm

/-- What `sched_init` leaves behind. -/
structure Started (s : State) : Prop where
  procs : s.procs = Function.update (fun _ => none) 0 (some s.current)
  pid : s.cur.pid = 1
  ppid : s.cur.ppid = 1
  state : s.cur.state = .running
  live : s.live s.current = true
  procCount : s.procCount = 1
  frames : s.frames = []
  blocked : s.blocked = false
  mapped : s.mapped = [s.cur.stack]
  trace : s.trace = []

theorem nextpid_zeroed (h : s.procs = fun _ => none) : nextpid s = 1 := by
  rcases nextpid_cases s with ⟨-, hfull⟩ | ⟨i, hi, hsome, -, hlow⟩
  · exact absurd (congrFun h 0) (hfull 0 (by simp [schedNproc]))
  · cases i with
    | zero => simpa using hsome
    | succ i => exact absurd (congrFun h 0) (hlow 0 (Nat.succ_pos i))

theorem Initial.started (h : Initial s) : Started s := by
  obtain ⟨heap, live, p, content, stack, hs⟩ := h
  unfold schedInit at hs
  dsimp only at hs
  rw [nextpid_zeroed rfl] at hs
  simp only [Option.ite_none_left_eq_some, Option.some.injEq] at hs
  obtain ⟨-, rfl⟩ := hs
  exact ⟨rfl, by simp [State.modify, State.cur, malloc], by simp [State.modify, State.cur, malloc],
    by simp [State.modify, State.cur, malloc], by simp [State.modify, malloc], rfl, rfl, rfl,
    by simp [State.modify, State.cur, malloc], rfl⟩

theorem Started.slot (h : Started s) {i : Nat} {p : Ptr} (hp : s.procs i = some p) :
    i = 0 ∧ p = s.current := by
  rw [h.procs, Function.update_apply] at hp
  split_ifs at hp with hi
  exact ⟨hi, (Option.some.inj hp).symm⟩

theorem Started.inTable (h : Started s) {p : Ptr} (hp : s.InTable p) : p = s.current := by
  obtain ⟨i, -, hp⟩ := hp
  exact (h.slot hp).2

theorem Started.sound (h : Started s) : Sound s := by
  have hcur : s.procs 0 = some s.current := by simp [h.procs]
  have hpos : 0 < schedNproc := by simp [schedNproc]
  refine ⟨⟨fun i hi p hp => ?_, ?_, ⟨0, hpos, hcur⟩, s.current, hcur, h.ppid⟩, ?_, ?_⟩
  · obtain ⟨rfl, rfl⟩ := h.slot hp
    exact h.pid
  · intro p hp
    obtain ⟨i, hi, hp⟩ := hp
    obtain ⟨-, rfl⟩ := h.slot hp
    exact h.live
  · rw [h.frames]
    exact .nil _
  · intro p hp hne
    obtain ⟨i, hi, hp⟩ := hp
    exact absurd (h.slot hp).2 hne

section Runs
variable {ok : State → Label → Prop} (hself : ∀ {s l}, ok s l → SparesSelf s l)
include hself

theorem Sound.of_moves (h : moves.Reach (onCalls ok) s) : Sound s :=
  h.invariant (fun ha => ha.started.sound) fun _ ha hok hm =>
    ha.move (fun l hl => hself (hok l hl)) hm

/-- **Runs of the scheduler are runs of moves.** -/
theorem reach_moves (h : sched.Reach ok s) : moves.Reach (onCalls ok) s :=
  h.invariant (I := fun a => moves.Reach (onCalls ok) a) (fun ha => .init (M := moves) ha)
    fun _ ha hok hs => ha.run (step_run (Sound.of_moves hself ha) hok hs)

theorem Sound.of_reach (h : sched.Reach ok s) : Sound s := .of_moves hself (reach_moves hself h)

/-- **Invariant rule.** What every move from a sound state keeps holds in every reachable
state. -/
theorem invariant_of_moves {I : State → Prop} (h : sched.Reach ok s)
    (hstart : ∀ {a}, Started a → I a) (hmove : ∀ {a m b}, moves.Reach (onCalls ok) a → Sound a →
      I a → onCalls ok a m → Move a m b → I b) : I s := by
  refine System.Reach.invariant (I := I) (reach_moves hself h) (fun ha => hstart ha.started) ?_
  intro a m b hreach hi hok hm
  exact hmove hreach (Sound.of_moves hself hreach) hi hok hm

end Runs

/-! ### Executing the scheduler -/

/-- A record as `malloc` may hand it out. -/
def blank : SchedProc := ⟨0, 0, .ready, 0, 0, 0, 0, 0, ⟨.fork, []⟩⟩

theorem schedInit_isSome : (schedInit (fun _ => blank) (fun _ => false) (fun _ => none)
    100 blank 0).isSome = true := by
  unfold schedInit
  dsimp only
  rw [nextpid_zeroed rfl]
  rfl

/-- The scheduler just started, with the record of the initial process at 100. -/
def start : State := (schedInit (fun _ => blank) (fun _ => false) (fun _ => none)
  100 blank 0).get schedInit_isSome

theorem start_initial : Initial start :=
  ⟨_, _, _, _, _, (Option.some_get schedInit_isSome).symm⟩

/-- What an execution from `start` ends in is reachable. -/
theorem start_reach (ok : State → Label → Prop) (okb : State → Label → Bool)
    (ls : List Label) (p : State → Bool) (hok : ∀ l ∈ ls, ∀ s, okb s l = true → ok s l)
    (h : (System.exec step okb start ls).any p = true) : ∃ s, sched.Reach ok s ∧ p s = true :=
  System.reach_of_exec sched ok step okb id start_initial ls p hok h

theorem Disciplined.sparesSelf {l : Label} (h : Disciplined s l) : SparesSelf s l := by
  intro hwait hz
  obtain ⟨freed, rfl⟩ := hwait
  exact absurd hz (h rfl)

end Ece357.Sched
