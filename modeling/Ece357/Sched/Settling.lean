import Mathlib.Algebra.Order.BigOperators.Group.Finset
import Ece357.Sched.Fairness

/-!
# Ece357.Sched.Settling

**Where a run of timer ticks ends up.** A task of nice value `n` comes down to the lowest
priority with its tick `(20 - n) * (19 - n)`; what it lacks until then is its *credit*. A tick
is charged to the task selected last, and nobody without credit is selected before one that
has some, so all credit is used up after as many ticks as there was of it, plus one. From then
on all priorities are 1, and the lowest slot wins every time: the scheduler has settled on one
task for good (`ticks_settle`).
-/

namespace Ece357.Sched

open Ece357.Machine Ece357.ProcTable State

variable {s s' t t' u : State}

/-! ### Credit -/

/-- How many ticks are left to a task until its priority is the lowest. -/
def SchedProc.credit (r : SchedProc) : Nat :=
  ((20 - r.niceval) * (19 - r.niceval) - r.totalTicks).toNat

/-- A task ranks above the lowest priority as long as it has credit. -/
theorem credit_pos_iff {r : SchedProc} (hlow : -20 ≤ r.niceval) (hhigh : r.niceval ≤ 19)
    (hfit : r.FitsInt) : 0 < r.credit ↔ 1 < dynPriority r := by
  have hk : 0 < 20 - r.niceval := by omega
  rw [dynPriority_eq rfl hlow hhigh hfit.1 hfit.2, lt_max_iff, SchedProc.credit, Int.lt_toNat]
  have hquot : r.totalTicks / (20 - r.niceval) < 19 - r.niceval ↔
      r.totalTicks < (19 - r.niceval) * (20 - r.niceval) := Int.ediv_lt_iff_lt_mul hk
  rw [Int.mul_comm] at hquot
  omega

namespace State

/-- `p` is in the table, READY or RUNNING. -/
def Runnable (s : State) (p : Ptr) : Prop :=
  s.InTable p ∧ ((s.heap p).state = .ready ∨ (s.heap p).state = .running)

/-- No task has so many ticks that its priority would overflow. -/
def FitsInt (s : State) : Prop := ∀ p, s.InTable p → (s.heap p).FitsInt

/-- The credit of the task in a slot, if there is one and it is READY or RUNNING. -/
def creditAt (s : State) (i : Nat) : Nat :=
  match s.procs i with
  | some p =>
      if (s.heap p).state = .ready ∨ (s.heap p).state = .running then (s.heap p).credit else 0
  | none => 0

/-- The credit of all tasks that are READY or RUNNING. -/
def credit (s : State) : Nat := ∑ i ∈ Finset.range schedNproc, s.creditAt i

theorem creditAt_runnable {i : Nat} {p : Ptr} (hp : s.procs i = some p)
    (hrun : s.Runnable p) : s.creditAt i = (s.heap p).credit := by
  unfold creditAt
  rw [hp]
  exact if_pos hrun.2

theorem creditAt_idle {i : Nat} {p : Ptr} (hi : i < schedNproc) (hp : s.procs i = some p)
    (hidle : ¬ s.Runnable p) : s.creditAt i = 0 := by
  unfold creditAt
  rw [hp]
  exact if_neg fun hst => hidle ⟨⟨i, hi, hp⟩, hst⟩

theorem Runnable.credit_le {p : Ptr} (hp : s.Runnable p) : (s.heap p).credit ≤ s.credit := by
  obtain ⟨i, hi, hslot⟩ := hp.1
  rw [← creditAt_runnable hslot hp]
  exact Finset.single_le_sum (fun _ _ => Nat.zero_le _) (Finset.mem_range.mpr hi)

theorem FitsInt.credit_pos_iff (h : s.FitsInt) (hnice : NiceBounded s) {p : Ptr}
    (hp : s.Runnable p) : 0 < (s.heap p).credit ↔ 1 < dynPriority (s.heap p) :=
  Sched.credit_pos_iff (hnice p hp.1).1 (hnice p hp.1).2 (h p hp.1)

/-- In the first `2 ^ 31` ticks no priority overflows. -/
theorem FitsInt.of_tickCount (hbounded : TicksBounded s) (hnice : NiceBounded s)
    (hcount : s.tickCount ≤ 2 ^ 31) : s.FitsInt := by
  intro p hp
  obtain ⟨hpos, hle⟩ := hbounded p hp
  exact .of_le_two_pow (hnice p hp).2 hpos (by omega)

/-- The task in the lowest slot of those that are READY or RUNNING. -/
def Lowest (s : State) (p : Ptr) : Prop := s.Runnable p ∧
  ∃ i, s.procs i = some p ∧ ∀ j < i, ∀ q, s.procs j = some q → ¬ s.Runnable q

theorem Lowest.unique {p q : Ptr} (hp : s.Lowest p) (hq : s.Lowest q) : p = q := by
  obtain ⟨hrunp, i, hi, hlowi⟩ := hp
  obtain ⟨hrunq, j, hj, hlowj⟩ := hq
  rcases Nat.lt_trichotomy i j with hlt | rfl | hgt
  · exact absurd hrunp (hlowj i hlt p hi)
  · exact Option.some.inj (hi.symm.trans hj)
  · exact absurd hrunq (hlowi j hgt q hj)

/-- The current task is in slot `i`: nobody ranks above it, and nobody in a lower slot as high. -/
structure Leads (s : State) (i : Nat) : Prop where
  lt : i < schedNproc
  slot : s.procs i = some s.current
  runnable : s.Runnable s.current
  best : ∀ q, s.Runnable q → dynPriority (s.heap q) ≤ dynPriority s.cur
  lowest : ∀ j < i, ∀ q, s.procs j = some q → s.Runnable q →
    dynPriority (s.heap q) < dynPriority s.cur

end State

/-! ### One call of `sched_switch` -/

section Switch
variable (h : Base u) (hrun : ∀ p, u.InTable p → (u.heap p).state = .running → p = u.current)
include hrun

/-- Where `sched_switch` selects, those in the table that are READY or RUNNING are READY. -/
theorem selecting_ready_iff {q : Ptr} (hq : u.InTable q) :
    ((selecting u).heap q).state = .ready ↔
      (u.heap q).state = .ready ∨ (u.heap q).state = .running := by
  by_cases hqc : q = u.current
  · subst hqc
    have hleave : ((selecting u).heap u.current).state = Table.leave u.cur.state :=
      selecting_cur_state u
    rw [hleave, State.cur]
    cases (u.heap u.current).state <;> simp [Table.leave]
  · rw [selecting_state hqc]
    exact (or_iff_left fun hst => hqc (hrun q hq hst)).symm

theorem selecting_not_running {q : Ptr} (hq : u.InTable q) :
    ((selecting u).heap q).state ≠ .running := by
  intro hst
  by_cases hqc : q = u.current
  · subst hqc
    exact Table.leave_ne_running u.cur.state ((selecting_cur_state u).symm.trans hst)
  · rw [selecting_state hqc] at hst
    exact hqc (hrun q hq hst)

include h

/-- `sched_switch` makes nobody READY or RUNNING who was neither, and leaves none out. -/
theorem schedSwitch_runnable {q : Ptr} : (schedSwitch u).Runnable q ↔ u.Runnable q := by
  unfold State.Runnable
  rw [inTable_congr (schedSwitch_accounts u).1 q]
  refine and_congr_right fun hq => ?_
  rw [← selecting_ready_iff hrun hq]
  have hstay : ((selecting u).heap q).state = .ready ∨ ((selecting u).heap q).state = .running ↔
      ((selecting u).heap q).state = .ready := or_iff_left (selecting_not_running hrun hq)
  rcases schedSwitch_best h with ⟨heq, -⟩ | ⟨i, r, -, hsel, ⟨-, heq⟩ | ⟨-, heq⟩⟩
  · rw [heq]
    exact hstay
  · rw [heq]
    exact hstay
  · rw [heq]
    by_cases hqr : q = r
    · rw [hqr]
      refine iff_of_true (.inr ?_) hsel.ready
      show ((resume _ _ r).heap r).state = _
      simp [resume_eq]
    · have hsame : ((switchTo r (selecting u)).heap q).state = ((selecting u).heap q).state := by
        show ((resume _ _ r).heap q).state = _
        simp only [resume_eq, Function.update_of_ne hqr]
        exact savectx_field SchedProc.state _ (fun _ => rfl) q
      rw [hsame]
      exact hstay

/-- If anybody is READY or RUNNING, the task that `sched_switch` leaves as the current one leads. -/
theorem schedSwitch_leads {p : Ptr} (hp : u.Runnable p) : ∃ i, (schedSwitch u).Leads i := by
  obtain ⟨hprocs, -, hacc⟩ := schedSwitch_accounts u
  have hready : ∀ q, u.Runnable q → ((selecting u).heap q).state = .ready := fun q hq =>
    (selecting_ready_iff hrun hq.1).mpr hq.2
  rcases schedSwitch_best h with ⟨-, hnone⟩ | ⟨i, r, -, hsel, hcases⟩
  · exact absurd (hready p hp) (hnone p hp.1)
  · have hcurrent : (schedSwitch u).current = r := by
      rcases hcases with ⟨hr, heq⟩ | ⟨-, heq⟩
      · rw [heq, hr]
        rfl
      · rw [heq]
        exact resume_current _ _ _
    have hprio : ∀ q,
        dynPriority ((schedSwitch u).heap q) = dynPriority ((selecting u).heap q) := by
      intro q
      rw [dynPriority_of_account (hacc q), selecting_dynPriority]
    have hr : u.Runnable r := ⟨hsel.inTable, (selecting_ready_iff hrun hsel.inTable).mp hsel.ready⟩
    refine ⟨i, hsel.lt, ?_, ?_, fun q hq => ?_, fun j hj q hslot hq => ?_⟩
    · rw [hprocs, hcurrent]
      exact hsel.slot
    · rw [hcurrent]
      exact (schedSwitch_runnable h hrun).mpr hr
    · have hqu := (schedSwitch_runnable h hrun).mp hq
      rw [State.cur, hcurrent, hprio, hprio]
      exact hsel.best q hqu.1 (hready q hqu)
    · have hqu := (schedSwitch_runnable h hrun).mp hq
      rw [hprocs] at hslot
      rw [State.cur, hcurrent, hprio, hprio]
      exact hsel.lowest j hj q hslot (hready q hqu)

end Switch

/-! ### One tick -/

theorem Quiet.runnable (hq : Quiet s [] u) {p : Ptr} : u.Runnable p ↔ s.Runnable p := by
  unfold State.Runnable
  rw [inTable_congr hq.procs p]
  refine and_congr_right fun hp => ?_
  rw [(hq.record p hp).state]

section Tick
variable (hsound : Sound s) (hrun : ∀ p, s.InTable p → (s.heap p).state = .running → p = s.current)
  (hs : step s .tick = some s')
include hsound hrun hs

/-- A tick calls `sched_switch` where nobody but the current task is RUNNING. -/
theorem tick_enters : ∃ u, Quiet s [] u ∧ s' = schedSwitch u ∧ Base u ∧
    ∀ p, u.InTable p → (u.heap p).state = .running → p = u.current := by
  obtain ⟨u, hu⟩ : ∃ u, entersSwitch s .tick = some u := ⟨_, rfl⟩
  have hquiet := entersSwitch_quiet hu
  refine ⟨u, hquiet, step_enters hu hs, (hsound.quiet hquiet).base, fun p hp hst => ?_⟩
  have hpin := (inTable_congr hquiet.procs p).mp hp
  rw [hquiet.current]
  exact hrun p hpin ((hquiet.record p hpin).state ▸ hst)

theorem tick_procs : s'.procs = s.procs := by
  obtain ⟨u, hquiet, rfl, -⟩ := tick_enters hsound hrun hs
  exact (schedSwitch_accounts u).1.trans hquiet.procs

theorem tick_runnable {q : Ptr} : s'.Runnable q ↔ s.Runnable q := by
  obtain ⟨u, hquiet, rfl, hbase, hrun'⟩ := tick_enters hsound hrun hs
  exact (schedSwitch_runnable hbase hrun').trans hquiet.runnable

theorem tick_leads {p : Ptr} (hp : s.Runnable p) : ∃ i, s'.Leads i := by
  obtain ⟨u, hquiet, rfl, hbase, hrun'⟩ := tick_enters hsound hrun hs
  exact schedSwitch_leads hbase hrun' (hquiet.runnable.mpr hp)

/-- What a tick leaves of the credit in a slot. -/
theorem tick_creditAt {i : Nat} (hi : i < schedNproc) : s'.creditAt i ≤ s.creditAt i ∧
    (s.procs i = some s.current → s.Runnable s.current → 0 < s.cur.credit →
      s'.creditAt i < s.creditAt i) := by
  cases hslot : s.procs i with
  | none =>
      have hnone : s'.procs i = none := by rw [tick_procs hsound hrun hs, hslot]
      refine ⟨?_, fun h => by cases h⟩
      simp only [creditAt, hnone, hslot, le_refl]
  | some p =>
      have hslot' : s'.procs i = some p := by rw [tick_procs hsound hrun hs, hslot]
      obtain ⟨hnice, hticks⟩ := tick_account hs p
      have hsame := tick_runnable hsound hrun hs (q := p)
      by_cases hp : s.Runnable p
      · rw [creditAt_runnable hslot hp, creditAt_runnable hslot' (hsame.mpr hp)]
        unfold SchedProc.credit
        rw [hnice, hticks]
        refine ⟨by split <;> omega, fun hcur _ hpos => ?_⟩
        obtain rfl := Option.some.inj hcur
        unfold State.cur at hpos
        rw [if_pos rfl]
        omega
      · have hp' : ¬ s'.Runnable p := fun h => hp (hsame.mp h)
        rw [creditAt_idle hi hslot' hp']
        refine ⟨Nat.zero_le _, fun hcur hrunnable _ => ?_⟩
        obtain rfl := Option.some.inj hcur
        exact absurd hrunnable hp

/-- A tick takes nothing from the credit but what the current task has of it. -/
theorem tick_credit : s'.credit ≤ s.credit ∧
    (s.Runnable s.current → 0 < s.cur.credit → s'.credit < s.credit) := by
  have hslots : ∀ i ∈ Finset.range schedNproc, _ := fun i hi =>
    tick_creditAt hsound hrun hs (Finset.mem_range.mp hi)
  refine ⟨Finset.sum_le_sum fun i hi => (hslots i hi).1, fun hcur hpos => ?_⟩
  obtain ⟨i, hi, hslot⟩ := hcur.1
  have hmem := Finset.mem_range.mpr hi
  exact Finset.sum_lt_sum (fun i hi => (hslots i hi).1)
    ⟨i, hmem, (hslots i hmem).2 hslot hcur hpos⟩

end Tick

/-! ### Runs of ticks -/

/-- The credit left after some ticks: that of the beginning, or the current task leads, and each
tick after the first has taken one of what there was. -/
structure Settling (s t : State) : Prop where
  procs : t.procs = s.procs
  runnable : ∀ q, t.Runnable q ↔ s.Runnable q
  niceval : ∀ q, (t.heap q).niceval = (s.heap q).niceval
  spent : t.tickCount = s.tickCount ∧ t.credit = s.credit ∨
    (∃ i, t.Leads i) ∧ s.tickCount < t.tickCount ∧
      (t.credit = 0 ∨ t.credit + (t.tickCount - s.tickCount) ≤ s.credit + 1)

/-- If anybody has credit, the task that leads has some. -/
theorem State.Leads.credit_pos {i : Nat} (h : s.Leads i) (hnice : NiceBounded s) (hfit : s.FitsInt)
    (hpos : 0 < s.credit) : 0 < s.cur.credit := by
  have hsome : ∃ q, s.Runnable q ∧ 0 < (s.heap q).credit := by
    by_contra hnone
    refine hpos.ne' (Finset.sum_eq_zero fun j hj => ?_)
    have hlt := Finset.mem_range.mp hj
    cases hslot : s.procs j with
    | none => simp only [creditAt, hslot]
    | some q =>
        by_cases hq : s.Runnable q
        · rw [creditAt_runnable hslot hq]
          exact Nat.eq_zero_of_not_pos fun hq' => hnone ⟨q, hq, hq'⟩
        · exact creditAt_idle hlt hslot hq
  obtain ⟨q, hq, hcredit⟩ := hsome
  have hrank := (hfit.credit_pos_iff hnice hq).mp hcredit
  exact (hfit.credit_pos_iff hnice h.runnable).mpr (lt_of_lt_of_le hrank (h.best q hq))

/-- Where there is no credit left, the task that leads is that in the lowest slot. -/
theorem State.Leads.lowest_of_spent {i : Nat} (h : s.Leads i) (hnice : NiceBounded s)
    (hfit : s.FitsInt) (hzero : s.credit = 0) : s.Lowest s.current := by
  refine ⟨h.runnable, i, h.slot, fun j hj q hslot hq => ?_⟩
  have hless := h.lowest j hj q hslot hq
  have hpos := dynPriority_pos (s.heap q)
  have hcredit := (hfit.credit_pos_iff hnice h.runnable).mpr (by rw [State.cur] at hless; omega)
  have hle := h.runnable.credit_le
  omega

theorem tick_tickCount (hs : step s .tick = some s') : s'.tickCount = s.tickCount + 1 := by
  obtain ⟨u, hu⟩ : ∃ u, entersSwitch s .tick = some u := ⟨_, rfl⟩
  obtain rfl := step_enters hu hs
  rw [(schedSwitch_accounts u).2.1, ← Option.some.inj hu]

/-- What a tick leaves behind has fitted before. -/
theorem tick_fitsInt (hsound : Sound s)
    (hrun : ∀ p, s.InTable p → (s.heap p).state = .running → p = s.current)
    (hbounded : TicksBounded s) (hs : step s .tick = some s') (hfit : s'.FitsInt) :
    s.FitsInt := by
  intro p hp
  obtain ⟨hnice, hticks⟩ := tick_account hs p
  obtain ⟨-, hless⟩ := hfit p ((inTable_congr (tick_procs hsound hrun hs) p).mpr hp)
  rw [hnice, hticks] at hless
  refine ⟨(hbounded p hp).1, lt_of_le_of_lt ?_ hless⟩
  split <;> omega

/-- One tick of a run. -/
theorem Settling.tick {a b : State} (h : Settling s a) (hsound : Sound a)
    (hrun : ∀ p, a.InTable p → (a.heap p).state = .running → p = a.current)
    (hnice : NiceBounded a) (hfit : a.FitsInt) {p : Ptr} (hp : s.Runnable p)
    (hs : step a .tick = some b) : Settling s b := by
  obtain ⟨hless, hstrict⟩ := tick_credit hsound hrun hs
  have hcount := tick_tickCount hs
  have hleads := tick_leads hsound hrun hs ((h.runnable p).mpr hp)
  refine ⟨(tick_procs hsound hrun hs).trans h.procs,
    fun q => (tick_runnable hsound hrun hs).trans (h.runnable q),
    fun q => (tick_account hs q).1.trans (h.niceval q), .inr ⟨hleads, ?_, ?_⟩⟩
  · rcases h.spent with ⟨hstart, -⟩ | ⟨-, hlater, -⟩ <;> omega
  · rcases h.spent with ⟨hstart, hcredit⟩ | ⟨⟨i, hlead⟩, -, hzero | hspent⟩
    · exact .inr (by omega)
    · exact .inl (by omega)
    · by_cases hpos : 0 < a.credit
      · have hmore := hstrict hlead.runnable (hlead.credit_pos hnice hfit hpos)
        exact .inr (by omega)
      · exact .inl (by omega)

/-- The handler returns, which only the mask and the stack show. -/
theorem TicksOnly.return {a b : State} {freed : SchedProc → SchedProc} {fs : List Frame}
    (hfs : a.frames = .tickReturn :: fs) (hs : step a (.go freed) = some b) :
    b = { a.sigUnblock with frames := fs } := by
  have hret : some { a.sigUnblock with frames := fs } = some b := by
    rw [← hs]
    simp [step, goStep, hfs]
  exact (Option.some.inj hret).symm

/-- **How credit is spent**, in a run of ticks. -/
theorem settling (h : sched.Reach SparesSelf s) {p : Ptr} (hp : s.Runnable p)
    (hrun : sched.Run TicksOnly s t) : sched.Reach SparesSelf t ∧ (t.FitsInt → Settling s t) := by
  refine hrun.invariant (I := fun a => sched.Reach SparesSelf a ∧ (a.FitsInt → Settling s a))
    ⟨h, fun _ => ⟨rfl, fun _ => .rfl, fun _ => rfl, .inl ⟨rfl, rfl⟩⟩⟩ ?_
  intro a l b ha hok hs
  obtain ⟨hreach, hsettling⟩ := ha
  refine ⟨hreach.step hok.sparesSelf hs, fun hfit => ?_⟩
  rcases hok with rfl | ⟨⟨freed, rfl⟩, fs, hfs⟩
  · have hsound := Sound.of_reach id hreach
    have hcur := running_eq_current id hreach
    have hfit' := tick_fitsInt hsound hcur (ticksBounded_of_reach id hreach) hs hfit
    exact (hsettling hfit').tick hsound hcur (niceval_bounds hreach) hfit' hp hs
  · obtain rfl := TicksOnly.return hfs hs
    obtain ⟨hprocs, hrunnable, hnice, hspent⟩ := hsettling hfit
    refine ⟨hprocs, hrunnable, hnice, hspent.imp_right fun hlater => ?_⟩
    obtain ⟨⟨i, hlead⟩, hrest⟩ := hlater
    exact ⟨⟨i, hlead.lt, hlead.slot, hlead.runnable, hlead.best, hlead.lowest⟩, hrest⟩

/-- After as many ticks as there was credit, and one more, none is left. -/
theorem Settling.lowest (h : Settling s t) (hreach : sched.Reach SparesSelf t) (hfit : t.FitsInt)
    (hlong : s.credit < t.tickCount - s.tickCount) : t.credit = 0 ∧ s.Lowest t.current := by
  rcases h.spent with ⟨hstart, -⟩ | ⟨⟨i, hlead⟩, -, hspent⟩
  · omega
  · have hzero : t.credit = 0 := by omega
    obtain ⟨hrunnable, j, hslot, hlow⟩ :=
      hlead.lowest_of_spent (niceval_bounds hreach) hfit hzero
    rw [h.procs] at hslot hlow
    exact ⟨hzero, (h.runnable _).mp hrunnable, j, hslot,
      fun k hk q hq hq' => hlow k hk q hq ((h.runnable q).mpr hq')⟩

/-- The current task is still the same, and nobody else has been charged a tick. -/
structure KeepsProcessor (t t' : State) : Prop where
  current : t'.current = t.current
  ticks : ∀ q, q ≠ t.current → (t'.heap q).totalTicks = (t.heap q).totalTicks

/-- From where the credit is spent, the task in the lowest slot keeps the processor. -/
theorem keepsProcessor (h : sched.Reach SparesSelf s) {p : Ptr} (hp : s.Runnable p)
    (hrun : sched.Run TicksOnly s t) (hlong : s.credit < t.tickCount - s.tickCount)
    (hlowest : s.Lowest t.current) (hrun' : sched.Run TicksOnly t t') (hfit : t'.FitsInt) :
    KeepsProcessor t t' := by
  have hinv : sched.Run TicksOnly s t' ∧ t.tickCount ≤ t'.tickCount ∧
      (t'.FitsInt → KeepsProcessor t t') := by
    refine hrun'.invariant (I := fun a => sched.Run TicksOnly s a ∧ t.tickCount ≤ a.tickCount ∧
      (a.FitsInt → KeepsProcessor t a)) ⟨hrun, le_rfl, fun _ => ⟨rfl, fun _ _ => rfl⟩⟩ ?_
    intro a l b ha hok hs
    obtain ⟨hruna, hcount, hsame⟩ := ha
    have hnext : sched.Next TicksOnly a b := ⟨l, hok, hs⟩
    have hrunb : sched.Run TicksOnly s b := Relation.ReflTransGen.tail hruna hnext
    have hreach := (settling h hp hruna).1
    obtain ⟨hreachb, hsettling⟩ := settling h hp hrunb
    rcases hok with rfl | ⟨⟨freed, rfl⟩, fs, hfs⟩
    · have htick := tick_tickCount hs
      refine ⟨hrunb, by omega, fun hfitb => ?_⟩
      have hfita := tick_fitsInt (Sound.of_reach id hreach) (running_eq_current id hreach)
        (ticksBounded_of_reach id hreach) hs hfitb
      obtain ⟨hcurrent, hticks⟩ := hsame hfita
      have hlowest' := ((hsettling hfitb).lowest hreachb hfitb (by omega)).2
      refine ⟨hlowest'.unique hlowest, fun q hq => ?_⟩
      rw [(tick_account hs q).2, if_neg (hcurrent ▸ hq), Int.add_zero]
      exact hticks q hq
    · obtain rfl := TicksOnly.return hfs hs
      refine ⟨hrunb, hcount, fun hfitb => ?_⟩
      obtain ⟨hcurrent, hticks⟩ := hsame hfitb
      exact ⟨hcurrent, hticks⟩
  exact hinv.2.2 hfit

/-- **The scheduler settles.** Where no dead task reaps itself, and in a run of ticks that are more
than there was credit but not more than the counts have room for, every task that is READY or
RUNNING comes down to the lowest priority; the current task is then the one in the lowest slot, and
as long as there are only ticks and no count overflows, it stays the current one, with no tick for
any other. -/
theorem ticks_settle (h : sched.Reach SparesSelf s) {p : Ptr} (hp : s.Runnable p)
    (hrun : sched.Run TicksOnly s t) (hfit : t.FitsInt)
    (hlong : s.credit < t.tickCount - s.tickCount) :
    (∀ q, s.Runnable q →
      (20 - (s.heap q).niceval) * (19 - (s.heap q).niceval) ≤ (t.heap q).totalTicks) ∧
    s.Lowest t.current ∧ ∀ t', sched.Run TicksOnly t t' → t'.FitsInt → KeepsProcessor t t' := by
  obtain ⟨hreach, hsettling⟩ := settling h hp hrun
  have hsettled := hsettling hfit
  obtain ⟨hzero, hlowest⟩ := hsettled.lowest hreach hfit hlong
  refine ⟨fun q hq => ?_, hlowest, fun t' => keepsProcessor h hp hrun hlong hlowest⟩
  have hcredit := ((hsettled.runnable q).mpr hq).credit_le
  rw [hzero, SchedProc.credit, hsettled.niceval] at hcredit
  omega

/-- The initial process and its child, both of nice value 18: three ticks use up their credit, and
the fourth goes to the initial process. -/
theorem ticks_settle_two : ∃ s t : State, s.credit = 3 ∧ t.tickCount = s.tickCount + 4 ∧
    sched.Run TicksOnly s t ∧ s.Lowest t.current := by
  have hrun : ∃ s, sched.Reach SparesSelf s ∧ (s.procs 0 = some 100 && s.credit = 3 &&
      (s.heap 100).state = .ready && s.tickCount = 1 &&
      (System.exec step (ticksOnly fun _ => true) s
        [.tick, .tick, .go id, .tick, .go id, .tick]).any fun t => t.tickCount = 5) = true :=
    start_reach _ (fun s l => decide (Disciplined s l))
      [.nice 18, .fork (some (101, blank)) 65536, .tick, .nice 18]
      _ (fun _ _ _ hl => (of_decide_eq_true hl).sparesSelf) (by decide +kernel)
  obtain ⟨s, hreach, hs⟩ := hrun
  simp only [Bool.and_eq_true, decide_eq_true_eq] at hs
  obtain ⟨⟨⟨⟨hslot, hcredit⟩, hst⟩, hcount⟩, hexec⟩ := hs
  obtain ⟨t, hexec, ht⟩ := (Option.any_eq_true _ _).mp hexec
  rw [decide_eq_true_eq] at ht
  have hticks := System.run_of_exec sched TicksOnly step _ id
    (fun _ _ _ hl => (TicksOnly.of_check hl).1) hexec
  have hrunnable : s.Runnable 100 := ⟨⟨0, by simp [schedNproc], hslot⟩, .inl hst⟩
  have hreacht := (settling hreach hrunnable hticks).1
  have hfit : t.FitsInt := .of_tickCount (ticksBounded_of_reach id hreacht) (niceval_bounds hreacht)
    (by omega)
  exact ⟨s, t, hcredit, by omega, hticks,
    (ticks_settle hreach hrunnable hticks hfit (by omega)).2.1⟩

end Ece357.Sched
