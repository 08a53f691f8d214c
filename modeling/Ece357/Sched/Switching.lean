import Ece357.Sched.Ticks
import Ece357.Sched.Priority

/-!
# Ece357.Sched.Switching

**One call of `sched_switch`, as a whole.** Its three passes over the table (priorities, the
current task, the selection) come to this: if nobody can be selected, or the current task is
the one to select, it stays current; otherwise the task to select becomes current and RUNNING,
and the context of the caller is saved in its record (`schedSwitch_picks`).

Nothing is asked of the state but pids that number the slots, a current task that is in the
table, and nice values in their range. Who can be selected, and who is to be, is said of the
state in which `sched_switch` is called.
-/

namespace Ece357.Sched

open Ece357.ProcTable State

variable {s : State}

namespace State

/-- Pids number the slots. -/
def PidsNumberSlots (s : State) : Prop :=
  ∀ i < schedNproc, ∀ p, s.procs i = some p → (s.heap p).pid = i + 1

/-- A task that counts as READY in the selection: one that is READY, or the current one unless
it sleeps or is dead. -/
def Candidate (s : State) (p : Ptr) : Prop := s.InTable p ∧
  ((s.heap p).state = .ready ∨
    p = s.current ∧ (s.heap p).state ≠ .sleeping ∧ (s.heap p).state ≠ .zombie)

/-- `q`, in slot `i`, is the candidate in the lowest slot among those of maximal priority. -/
structure Best (s : State) (i : Nat) (q : Ptr) : Prop where
  lt : i < schedNproc
  slot : s.procs i = some q
  candidate : s.Candidate q
  max : ∀ p, s.Candidate p → dynPriority (s.heap p) ≤ dynPriority (s.heap q)
  lowest : ∀ j < i, ∀ p, s.procs j = some p → s.Candidate p →
    dynPriority (s.heap p) < dynPriority (s.heap q)

/-- From `s` to `s'`, what no call of `sched_switch` touches is as it was. -/
structure Untouched (s s' : State) : Prop where
  procs : s'.procs = s.procs
  live : s'.live = s.live
  mapped : s'.mapped = s.mapped
  procCount : s'.procCount = s.procCount
  tickCount : s'.tickCount = s.tickCount
  pid : ∀ p, (s'.heap p).pid = (s.heap p).pid
  ppid : ∀ p, (s'.heap p).ppid = (s.heap p).ppid
  niceval : ∀ p, (s'.heap p).niceval = (s.heap p).niceval
  exitCode : ∀ p, (s'.heap p).exitCode = (s.heap p).exitCode
  totalTicks : ∀ p, (s'.heap p).totalTicks = (s.heap p).totalTicks
  stack : ∀ p, (s'.heap p).stack = (s.heap p).stack
  state : ∀ p, p ≠ s.current → p ≠ s'.current → (s'.heap p).state = (s.heap p).state
  ctx : ∀ p, p ≠ s.current → (s'.heap p).ctx = (s.heap p).ctx

end State

/-! ### Who can be selected -/

theorem PidsNumberSlots.unique (h : s.PidsNumberSlots) (hcur : s.InTable s.current) :
    ∀ p, s.InTable p → (s.heap p).pid = s.cur.pid → p = s.current := by
  intro p hp hpid
  obtain ⟨i, hi, hpi⟩ := hp
  obtain ⟨j, hj, hcj⟩ := hcur
  have hpn := h i hi p hpi
  have hcn := h j hj s.current hcj
  have hij : i = j := by
    rw [State.cur] at hpid
    omega
  exact Option.some.inj (hpi.symm.trans (hij ▸ hcj))

/-- The second pass makes the candidates READY, and nobody else. -/
theorem selecting_ready {p : Ptr} (hp : s.InTable p) :
    ((selecting s).heap p).state = .ready ↔ s.Candidate p := by
  rw [(selecting_inTable hp).1.state, State.Candidate, and_iff_right hp]
  by_cases hpc : p = s.current
  · subst hpc
    cases hst : (s.heap s.current).state <;> simp [yielded, State.modify, hst, Table.leave]
  · simp [yielded, State.modify, hpc]

/-- The task selected is the one to select. -/
theorem Selected.isBest {i : Nat} {q : Ptr} (h : Selected (selecting s) i q) : s.Best i q := by
  have hin : s.InTable q := h.inTable
  refine ⟨h.lt, h.slot, (selecting_ready hin).mp h.ready, fun p hp => ?_, fun j hj p hpj hp => ?_⟩
  · have hle := h.best p hp.1 ((selecting_ready hp.1).mpr hp)
    rwa [selecting_dynPriority, selecting_dynPriority] at hle
  · have hlt := h.lowest j hj p hpj ((selecting_ready hp.1).mpr hp)
    rwa [selecting_dynPriority, selecting_dynPriority] at hlt

/-- There is one task to select. -/
theorem Best.unique {i j : Nat} {q r : Ptr} (h : s.Best i q) (h' : s.Best j r) : q = r := by
  have hle := h.max r h'.candidate
  have hge := h'.max q h.candidate
  rcases Nat.lt_trichotomy i j with hlt | rfl | hgt
  · have hlow := h'.lowest i hlt q h.slot h.candidate
    omega
  · exact Option.some.inj (h.slot.symm.trans h'.slot)
  · have hlow := h.lowest j hgt r h'.slot h'.candidate
    omega

/-! ### What is left alone -/

theorem selecting_ctx (p : Ptr) : ((selecting s).heap p).ctx = (s.heap p).ctx :=
  selecting_field SchedProc.ctx (fun _ _ _ => rfl) s p

/-- Outside the records, the switch changes who runs and how, and leaves the rest. -/
theorem schedSwitch_globals (s : State) : (schedSwitch s).live = s.live ∧
    (schedSwitch s).mapped = s.mapped ∧ (schedSwitch s).procCount = s.procCount := by
  rcases schedSwitch_spec s with ⟨heq, -⟩ | ⟨i, q, -, -, heq⟩
  · rw [heq]
    exact ⟨rfl, rfl, rfl⟩
  · rw [heq]
    split_ifs
    · exact ⟨rfl, rfl, rfl⟩
    · show (resume _ _ q).live = _ ∧ (resume _ _ q).mapped = _ ∧ (resume _ _ q).procCount = _
      rw [resume_eq]
      exact ⟨rfl, rfl, rfl⟩

/-- The records of a switch from the current task to `q`. -/
theorem switchTo_heap {q : Ptr} (hq : q ≠ s.current) :
    (switchTo q (selecting s)).heap =
      Function.update (Function.update (selecting s).heap s.current
          { (selecting s).heap s.current with ctx := ⟨.switch, s.frames⟩ }) q
        { (selecting s).heap q with state := .running } := by
  show (resume _ _ q).heap = _
  rw [resume_eq]
  have hother : (savectx (selecting s) (selecting s).current .switch).heap q =
      (selecting s).heap q := Function.update_of_ne hq ..
  simp only [hother]
  rfl

theorem schedSwitch_untouched (hcur : s.InTable s.current) (h : s.PidsNumberSlots) :
    Untouched s (schedSwitch s) := by
  obtain ⟨hprocs, htick, -⟩ := schedSwitch_accounts s
  obtain ⟨hlive, hmapped, hcount⟩ := schedSwitch_globals s
  have hfield : ∀ {β : Type} (g : SchedProc → β),
      (∀ (r : SchedProc) v st c, g { r with priority := v, state := st, ctx := c } = g r) →
      ∀ p, g ((schedSwitch s).heap p) = g (s.heap p) := fun g hg => schedSwitch_field g hg s
  refine ⟨hprocs, hlive, hmapped, hcount, htick, hfield _ fun _ _ _ _ => rfl,
    hfield _ fun _ _ _ _ => rfl, hfield _ fun _ _ _ _ => rfl, hfield _ fun _ _ _ _ => rfl,
    hfield _ fun _ _ _ _ => rfl, hfield _ fun _ _ _ _ => rfl, ?_, ?_⟩
  all_goals
    rcases schedSwitch_choice hcur (PidsNumberSlots.unique h hcur) with
      ⟨heq, -⟩ | ⟨i, q, -, -, ⟨-, heq⟩ | ⟨hq, heq⟩⟩
  · intro p hp _
    rw [heq, selecting_state hp]
  · intro p hp _
    rw [heq, selecting_state hp]
  · intro p hp hpq
    have hnew : (schedSwitch s).current = q := by
      rw [heq]
      exact resume_current _ _ _
    rw [hnew] at hpq
    rw [heq, switchTo_heap hq, Function.update_of_ne hpq, Function.update_of_ne hp,
      selecting_state hp]
  · intro p _
    rw [heq, selecting_ctx]
  · intro p _
    rw [heq, selecting_ctx]
  · intro p hp
    rw [heq, switchTo_heap hq]
    by_cases hpq : p = q
    · subst hpq
      rw [Function.update_self]
      exact selecting_ctx p
    · rw [Function.update_of_ne hpq, Function.update_of_ne hp, selecting_ctx]

/-! ### The call -/

/-- `sched_switch` came back to its caller, without changing `current`. -/
structure Stayed (s s' : State) : Prop where
  current : s'.current = s.current
  frames : s'.frames = s.frames

/-- `sched_switch` saved the context of its caller and went on in that of `q`. -/
structure SwitchedTo (s s' : State) (q : Ptr) : Prop where
  current : s'.current = q
  running : (s'.heap q).state = .running
  saved : (s'.heap s.current).ctx = ⟨.switch, s.frames⟩
  frames : s'.frames = (s.heap q).ctx.frames

theorem switchTo_switched {q : Ptr} (hq : q ≠ s.current) :
    SwitchedTo s (switchTo q (selecting s)) q := by
  refine ⟨resume_current _ _ _, ?_, ?_, ?_⟩
  · rw [switchTo_heap hq, Function.update_self]
  · rw [switchTo_heap hq, Function.update_of_ne hq.symm, Function.update_self]
  · have hother : (savectx (selecting s) (selecting s).current .switch).heap q =
        (selecting s).heap q := Function.update_of_ne hq ..
    show (resume _ _ q).frames = _
    rw [resume_eq]
    simp only [hother, selecting_ctx]

/-- **What a call of `sched_switch` does.** No division in it is by zero. If nobody can be
selected, or the current task is the one to select, it stays; if somebody can be, there is one
to select, and if that is another task, it becomes current. The priorities are those of the
formula, and everything else is left alone. -/
theorem schedSwitch_picks (s : State) (hpids : s.PidsNumberSlots) (hcur : s.InTable s.current)
    (hnice : ∀ p, s.InTable p → -20 ≤ (s.heap p).niceval ∧ (s.heap p).niceval ≤ 19) :
    (∀ p, s.InTable p → 20 - (s.heap p).niceval ≠ 0 ∧
      ((schedSwitch s).heap p).priority = dynPriority (s.heap p)) ∧
    ((∀ p, ¬ s.Candidate p) ∨ (∃ i, s.Best i s.current) → Stayed s (schedSwitch s)) ∧
    ((∃ p, s.Candidate p) → ∃ i q, s.Best i q) ∧
    (∀ i q, s.Best i q → q ≠ s.current → SwitchedTo s (schedSwitch s) q) ∧
    Untouched s (schedSwitch s) := by
  refine ⟨fun p hp => ⟨?_, schedSwitch_priority hp⟩, ?_, ?_, ?_, schedSwitch_untouched hcur hpids⟩
  · have hhigh := (hnice p hp).2
    omega
  all_goals
    rcases schedSwitch_choice hcur (PidsNumberSlots.unique hpids hcur) with
      ⟨heq, hidle⟩ | ⟨i, q, -, hsel, ⟨rfl, heq⟩ | ⟨hq, heq⟩⟩
  -- nobody is READY, the current task is selected, or another one
  · intro _
    rw [heq]
    exact ⟨rfl, rfl⟩
  · intro _
    rw [heq]
    exact ⟨rfl, rfl⟩
  · intro hstay
    rcases hstay with hnone | ⟨j, hbest⟩
    · exact absurd hsel.isBest.candidate (hnone q)
    · exact absurd (Best.unique hsel.isBest hbest) hq
  · intro hsome
    obtain ⟨p, hp⟩ := hsome
    exact absurd ((selecting_ready hp.1).mpr hp) (hidle p hp.1)
  · intro _
    exact ⟨i, s.current, hsel.isBest⟩
  · intro _
    exact ⟨i, q, hsel.isBest⟩
  · intro i q hbest _
    exact absurd ((selecting_ready hbest.candidate.1).mpr hbest.candidate)
      (hidle q hbest.candidate.1)
  · intro j r hbest hr
    exact absurd (Best.unique hbest hsel.isBest) hr
  · intro j r hbest _
    obtain rfl := Best.unique hsel.isBest hbest
    rw [heq]
    exact switchTo_switched hq

/-- The initial process goes to sleep to wait for its child, and the child is selected. -/
theorem schedSwitch_picks_child : ∃ s i q, s.Best i q ∧ q ≠ s.current ∧
    SwitchedTo s (schedSwitch s) q := by
  have hrun : ∃ s, sched.Reach Disciplined s ∧ (s.cur.state = .sleeping &&
      s.procs 1 = some 101 && (s.heap 101).state = .ready) = true :=
    start_reach _ (fun s l => decide (Disciplined s l))
      [.fork (some (101, blank)) 65536, .wait id] _ (fun _ _ _ => of_decide_eq_true)
      (by decide +kernel)
  obtain ⟨s, hreach, hs⟩ := hrun
  simp only [Bool.and_eq_true, decide_eq_true_eq] at hs
  obtain ⟨⟨hasleep, hslot⟩, hready⟩ := hs
  have hbase := (Sound.of_reach Disciplined.sparesSelf hreach).base
  obtain ⟨-, -, hsome, hother, -⟩ :=
    schedSwitch_picks s hbase.pid hbase.current (niceval_bounds hreach)
  obtain ⟨i, q, hbest⟩ := hsome ⟨101, ⟨1, by simp [schedNproc], hslot⟩, .inl hready⟩
  have hne : q ≠ s.current := by
    intro hq
    subst hq
    rcases hbest.candidate.2 with hst | ⟨-, hst, -⟩
    · rw [State.cur, hst] at hasleep
      cases hasleep
    · exact hst hasleep
  exact ⟨s, i, q, hbest, hne, hother i q hbest hne⟩

end Ece357.Sched
