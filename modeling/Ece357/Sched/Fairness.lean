import Mathlib.Algebra.Order.Ring.Abs
import Ece357.Sched.Priority

/-!
# Ece357.Sched.Fairness

**Two equally nice tasks under timer ticks.** The dynamic priority drops by one for every
`20 - niceval` ticks charged, so whichever of two competing tasks is ahead by a whole
priority step is not selected before the other. A tick is charged to the task that was
selected last; hence their counts stay within one step, or within one tick of where they
started (`ticks_fair`), whatever the other tasks do.

This works as long as priorities differ. They are clamped at 1, which a task of nice value
`n` reaches after `(20 - n) * (19 - n)` ticks; when both have, the lower slot wins every
time and the other task gets no more ticks at all (`clamped_starves`).
-/

namespace Ece357.Sched

open Ece357.Machine Ece357.ProcTable State

variable {s s' t u : State}

/-! ### Only the current task is RUNNING -/

/-- A move makes nobody RUNNING but the task that becomes current. -/
theorem Move.running_eq_current {m : Option Label} (hm : Move s m s') (hbase : Base s)
    (h : ∀ p, s.InTable p → (s.heap p).state = .running → p = s.current) {p : Ptr}
    (hp : s'.InTable p) (hst : (s'.heap p).state = .running) : p = s'.current := by
  have hquiet : ∀ {new}, Quiet s new s' → p = s'.current := by
    intro new hq
    have hpin := (inTable_congr hq.procs p).mp hp
    rw [hq.current]
    exact h p hpin ((hq.record p hpin).state ▸ hst)
  have hresume : ∀ {v : State} {q : Ptr}, s' = resume v s.current q → p ≠ q →
      (v.heap p).state = .running := by
    intro v q hs' hne
    rw [hs', resume_eq] at hst
    simpa [hne] using hst
  cases hm with
  | quiet hq => exact hquiet hq
  | forkFail hq => exact hquiet hq
  | noChild hq => exact hquiet hq
  | exitReturn hq => exact hquiet hq
  | @fork z content newsp i hcall hi hfree hlow hz =>
      by_cases hpz : p = z
      · subst hpz
        simp [forked, newRecord] at hst
      · rw [forked_heap hpz] at hst
        exact h p (((forked_inTable hi hfree).mp hp).resolve_left hpz) hst
  | exit =>
      by_cases hpc : p = s.current
      · exact hpc
      · simp only [exited_heap hpc] at hst
        exact h p hp hst
  | @exitWake code q =>
      by_cases hpq : p = q
      · rw [hpq, resume_current]
      · have hold := hresume rfl hpq
        by_cases hpc : p = s.current
        · subst hpc
          simp [exited, State.modify, State.log] at hold
        · rw [exited_heap hpc] at hold
          have hpin := (inTable_congr (resume_procs _ _ _) p).mp hp
          exact absurd (h p hpin hold) hpc
  | @reap l freed i z hround hi hz hparent hzombie =>
      obtain ⟨j, hj, hp⟩ := hp
      obtain ⟨hpj, hpz⟩ := hbase.reaped_slot_ne hi hz hj hp
      rw [reaped_heap hpz] at hst
      exact h p ⟨j, hj, hpj⟩ hst
  | sleep =>
      by_cases hpc : p = s.current
      · exact hpc
      · simp only [slept, State.modify, Function.update_of_ne hpc] at hst
        exact h p hp hst
  | yield =>
      by_cases hpc : p = s.current
      · exact hpc
      · simp only [yielded, State.modify, Function.update_of_ne hpc] at hst
        exact h p hp hst
  | @dispatch q hq hne hready hcur =>
      by_cases hpq : p = q
      · rw [hpq, resume_current]
      · have hold := hresume rfl hpq
        rw [savectx_field SchedProc.state s fun _ => rfl] at hold
        have hpin := (inTable_congr (resume_procs _ _ _) p).mp hp
        -- whoever was RUNNING is the task left, which is not any more
        obtain rfl := h p hpin hold
        exact absurd hold hcur

/-- A record in the table that is RUNNING is that of the current task. -/
theorem running_eq_current {ok : State → Label → Prop} (hself : ∀ {s l}, ok s l → SparesSelf s l)
    (h : sched.Reach ok s) :
    ∀ p, s.InTable p → (s.heap p).state = .running → p = s.current := by
  refine invariant_of_moves (I := fun a => ∀ p, a.InTable p → (a.heap p).state = .running →
    p = a.current) hself h (fun ha p hp _ => ha.inTable hp) ?_
  intro a m b _ hsound ha _ hm p hp hst
  exact hm.running_eq_current hsound.base ha hp hst

/-! ### One call of `sched_switch` -/

/-- A task that can be selected: READY, or current and RUNNING. -/
def State.Eligible (s : State) (p : Ptr) : Prop := s.InTable p ∧
  ((s.heap p).state = .ready ∨ (s.heap p).state = .running ∧ p = s.current)

theorem State.Eligible.selecting {p : Ptr} (h : u.Eligible p) :
    ((Sched.selecting u).heap p).state = .ready := by
  obtain ⟨hp, hst⟩ := h
  rw [(selecting_inTable hp).1.state]
  by_cases hpc : p = u.current
  · subst hpc
    rcases hst with hst | ⟨hst, -⟩ <;> simp [yielded, State.modify, hst, Table.leave]
  · simpa [yielded, State.modify, hpc] using hst

/-- If anybody is eligible, `sched_switch` makes one current that nobody eligible outranks;
the others stay eligible. -/
theorem schedSwitch_selects (h : Base u) {p : Ptr} (hp : u.Eligible p) :
    (schedSwitch u).Eligible p ∧ ((schedSwitch u).current = p → ∀ q, u.Eligible q →
      dynPriority ((schedSwitch u).heap q) ≤ dynPriority ((schedSwitch u).heap p)) := by
  obtain ⟨hprocs, -, hacc⟩ := schedSwitch_accounts u
  have hpin : (schedSwitch u).InTable p := (inTable_congr hprocs p).mpr hp.1
  have hbest : ∀ {i r}, Selected (Sched.selecting u) i r → ∀ q, u.Eligible q →
      dynPriority ((schedSwitch u).heap q) ≤ dynPriority ((schedSwitch u).heap r) := by
    intro i r hsel q hq
    have hr : u.InTable r := hsel.inTable
    have hle := hsel.best q hq.1 hq.selecting
    rw [selecting_dynPriority, selecting_dynPriority] at hle
    rw [dynPriority_of_account (hacc q), dynPriority_of_account (hacc r)]
    exact hle
  rcases schedSwitch_best h with ⟨-, hnone⟩ | ⟨i, r, -, hsel, ⟨rfl, heq⟩ | ⟨-, heq⟩⟩
  · exact absurd hp.selecting (hnone p hp.1)
  · refine ⟨⟨hpin, .inl ?_⟩, fun hcur => ?_⟩
    · rw [heq]
      exact hp.selecting
    · rw [heq] at hcur
      obtain rfl : u.current = p := hcur
      exact hbest hsel
  · have hcurrent : (schedSwitch u).current = r := by
      rw [heq]
      exact resume_current _ _ _
    refine ⟨⟨hpin, ?_⟩, fun hcur => ?_⟩
    · by_cases hpr : p = r
      · refine .inr ⟨?_, hpr.trans hcurrent.symm⟩
        rw [heq, hpr]
        show ((resume _ _ r).heap r).state = _
        simp [resume_eq]
      · refine .inl ?_
        rw [heq]
        show ((resume _ _ r).heap p).state = _
        simp only [resume_eq, Function.update_of_ne hpr]
        rw [savectx_field SchedProc.state _ fun _ => rfl]
        exact hp.selecting
    · obtain rfl := hcurrent.symm.trans hcur
      exact hbest hsel

/-! ### Priorities and ticks -/

/-- A task that does not rank below another of the same nice value, not both being at the
lowest priority, is behind it in ticks or within one step of it. -/
theorem behind_or_near {k a b : Int} (hk : 0 < k)
    (hle : max 1 (k - b / k) ≤ max 1 (k - a / k)) (hfree : a < k * (k - 1) ∨ b < k * (k - 1)) :
    a < b ∨ |a - b| < k := by
  have ha := Int.mul_ediv_self_le (x := a) hk.ne'
  have ha' := Int.lt_mul_ediv_self_add (x := a) hk
  have hb := Int.mul_ediv_self_le (x := b) hk.ne'
  have hb' := Int.lt_mul_ediv_self_add (x := b) hk
  rcases lt_trichotomy (a / k) (b / k) with hlt | heq | hgt
  · -- `b` has passed a threshold that `a` has not reached.
    left
    have hstep : k * (a / k + 1) ≤ k * (b / k) := Int.mul_le_mul_of_nonneg_left hlt hk.le
    rw [Int.mul_add, Int.mul_one] at hstep
    omega
  · right
    rw [heq] at ha ha'
    exact abs_lt.mpr ⟨by omega, by omega⟩
  · -- `a` has passed more thresholds, so both are at the lowest priority.
    exfalso
    have hmin : k - 1 ≤ b / k := by omega
    have hblow : k * (k - 1) ≤ k * (b / k) := Int.mul_le_mul_of_nonneg_left hmin hk.le
    have halow : k * (k - 1) ≤ k * (a / k) :=
      Int.mul_le_mul_of_nonneg_left (hmin.trans hgt.le) hk.le
    rcases hfree with hfree | hfree
    · omega
    · omega

/-- A tick charged to whoever does not rank below the other keeps them within one step, or
as close as they were. -/
theorem charge_within {k a b : Int} (hk : 0 < k)
    (hle : max 1 (k - b / k) ≤ max 1 (k - a / k)) (hfree : a < k * (k - 1) ∨ b < k * (k - 1)) :
    |a + 1 - b| ≤ max |a - b| k := by
  rcases behind_or_near hk hle hfree with hlt | hnear
  · refine le_max_of_le_left ?_
    rw [abs_of_nonpos (by omega), abs_of_nonpos (by omega)]
    omega
  · refine le_max_of_le_right ?_
    obtain ⟨hlow, hhigh⟩ := abs_lt.mp hnear
    exact abs_le.mpr ⟨by omega, by omega⟩

/-! ### Runs of ticks -/

namespace State

/-- `p` competes for the processor with nice value `n`. -/
def Competes (s : State) (n : Int) (p : Ptr) : Prop := s.InTable p ∧
  ((s.heap p).state = .ready ∨ (s.heap p).state = .running) ∧ (s.heap p).niceval = n

/-- How far the tick counts of two tasks are apart. -/
def gap (s : State) (p q : Ptr) : Int := |(s.heap p).totalTicks - (s.heap q).totalTicks|

/-- Of two tasks of nice value `n`, one has not come down to the lowest priority, and the
priority of neither has overflowed. -/
def Unclamped (s : State) (n : Int) (p q : Ptr) : Prop :=
  ((s.heap p).totalTicks < (20 - n) * (19 - n) ∨ (s.heap q).totalTicks < (20 - n) * (19 - n)) ∧
    (s.heap p).totalTicks < (20 - n) * (2 ^ 31 + 21 - n) ∧
    (s.heap q).totalTicks < (20 - n) * (2 ^ 31 + 21 - n)

end State

/-- Nothing happens but timer ticks and the returns of their handler. -/
def TicksOnly (s : State) (l : Label) : Prop :=
  l = .tick ∨ (∃ freed, l = .go freed) ∧ ∃ fs, s.frames = .tickReturn :: fs

theorem TicksOnly.sparesSelf {l : Label} (h : TicksOnly s l) : SparesSelf s l := by
  intro hwait
  obtain ⟨freed, rfl⟩ := hwait
  rcases h with h | ⟨⟨_, h⟩, -⟩ <;> cases h

theorem gap_comm (s : State) (p q : Ptr) : s.gap p q = s.gap q p := abs_sub_comm ..

/-- What a tick does to the account of a record. -/
theorem tick_account (hs : step s .tick = some s') (p : Ptr) :
    (s'.heap p).niceval = (s.heap p).niceval ∧
    (s'.heap p).totalTicks = (s.heap p).totalTicks + if p = s.current then 1 else 0 := by
  obtain ⟨u, hu⟩ : ∃ u, entersSwitch s .tick = some u := ⟨_, rfl⟩
  obtain rfl := step_enters hu hs
  have hacc := (schedSwitch_accounts u).2.2 p
  refine ⟨(congrArg Prod.fst hacc).trans (entersSwitch_niceval hu p), ?_⟩
  refine (congrArg Prod.snd hacc).trans ?_
  obtain rfl := Option.some.inj hu
  by_cases hpc : p = s.current
  · subst hpc
    simp [SchedProc.account, State.modify]
  · simp [SchedProc.account, State.modify, hpc]

/-- After a tick, whoever competes still does, and the one selected does not rank below. -/
theorem tick_competes (hsound : Sound s) (hrun : ∀ p, s.InTable p → (s.heap p).state = .running →
    p = s.current) {n : Int} {p : Ptr} (hp : s.Competes n p) (hs : step s .tick = some s') :
    s'.Competes n p ∧ (s'.current = p → ∀ q, s.Competes n q →
      dynPriority (s'.heap q) ≤ dynPriority (s'.heap p)) := by
  obtain ⟨u, hu⟩ : ∃ u, entersSwitch s .tick = some u := ⟨_, rfl⟩
  have hquiet := entersSwitch_quiet hu
  have heligible : ∀ q, s.Competes n q → u.Eligible q := by
    intro q hq
    obtain ⟨hqin, hst, -⟩ := hq
    refine ⟨(inTable_congr hquiet.procs q).mpr hqin, ?_⟩
    rw [(hquiet.record q hqin).state, hquiet.current]
    exact hst.imp_right fun hst => ⟨hst, hrun q hqin hst⟩
  obtain rfl := step_enters hu hs
  obtain ⟨⟨hpin, hst⟩, hbest⟩ := schedSwitch_selects (hsound.quiet hquiet).base (heligible p hp)
  refine ⟨⟨hpin, hst.imp_right And.left, ?_⟩, fun hcur q hq => hbest hcur q (heligible q hq)⟩
  rw [(tick_account hs p).1]
  exact hp.2.2

/-- `p` and `q` compete, and their counts are at most `m` apart: as far as at the start, or
with the current one of them not ranking below the other. -/
structure Rivals (n d m : Int) (p q : Ptr) (t : State) : Prop where
  left : t.Competes n p
  right : t.Competes n q
  near : t.gap p q = d ∨ t.gap p q ≤ m ∧
    (t.current = p → dynPriority (t.heap q) ≤ dynPriority (t.heap p)) ∧
    (t.current = q → dynPriority (t.heap p) ≤ dynPriority (t.heap q))

theorem Rivals.symm {n d m : Int} {p q : Ptr} (h : Rivals n d m p q t) : Rivals n d m q p t := by
  refine ⟨h.right, h.left, ?_⟩
  rw [gap_comm]
  exact h.near.imp_right fun hnear => ⟨hnear.1, hnear.2.2, hnear.2.1⟩

section Step
variable {n d : Int} {p q : Ptr} (hlow : -20 ≤ n) (hhigh : n ≤ 19) (hbounded : TicksBounded s)
  (h : Rivals n d (max (d + 1) (20 - n)) p q s) (hfree : s.Unclamped n p q)
include hlow hhigh hbounded h hfree

/-- A tick charged to `p` leaves the two within the bound. -/
theorem Rivals.charge (hcur : s.current = p) :
    |(s.heap p).totalTicks + 1 - (s.heap q).totalTicks| ≤ max (d + 1) (20 - n) := by
  obtain ⟨hclamp, hfitp, hfitq⟩ := hfree
  rcases h.near with hstart | ⟨hnear, hrank, -⟩
  · refine le_max_of_le_left ?_
    unfold gap at hstart
    have habs := abs_add_le ((s.heap p).totalTicks - (s.heap q).totalTicks) 1
    rw [hstart, abs_one] at habs
    rw [show (s.heap p).totalTicks + 1 - (s.heap q).totalTicks =
      (s.heap p).totalTicks - (s.heap q).totalTicks + 1 by omega]
    exact habs
  · have hle := hrank hcur
    rw [dynPriority_eq h.left.2.2 hlow hhigh (hbounded p h.left.1).1 hfitp,
      dynPriority_eq h.right.2.2 hlow hhigh (hbounded q h.right.1).1 hfitq] at hle
    have hk : 20 - n - 1 = 19 - n := by omega
    refine (charge_within (by omega) hle (by rw [hk]; exact hclamp)).trans ?_
    exact max_le hnear (le_max_right _ _)

/-- One tick keeps the two rivals within the bound. -/
theorem Rivals.tick (hsound : Sound s)
    (hrun : ∀ p, s.InTable p → (s.heap p).state = .running → p = s.current)
    (hs : step s .tick = some s') : Rivals n d (max (d + 1) (20 - n)) p q s' := by
  obtain ⟨hp, hbestp⟩ := tick_competes hsound hrun h.left hs
  obtain ⟨hq, hbestq⟩ := tick_competes hsound hrun h.right hs
  refine ⟨hp, hq, .inr ⟨?_, fun hcur => hbestp hcur q h.right, fun hcur => hbestq hcur p h.left⟩⟩
  unfold gap
  rw [(tick_account hs p).2, (tick_account hs q).2]
  have hold : s.gap p q ≤ max (d + 1) (20 - n) := by
    rcases h.near with hstart | ⟨hnear, -⟩
    · exact le_max_of_le_left (by omega)
    · exact hnear
  by_cases hpc : p = s.current
  · by_cases hqc : q = s.current
    · have hpq : p = q := hpc.trans hqc.symm
      subst hpq
      simpa [gap] using hold
    · simpa [hpc, hqc] using h.charge hlow hhigh hbounded hfree hpc.symm
  · by_cases hqc : q = s.current
    · have hsym := h.symm.charge hlow hhigh hbounded ⟨hfree.1.symm, hfree.2.2, hfree.2.1⟩ hqc.symm
      rw [abs_sub_comm]
      simpa [hpc, hqc] using hsym
    · simpa [hpc, hqc, gap] using hold

end Step

/-- **Bounded unfairness.** In a run of ticks, two tasks of equal nice value `n` that compete
for the processor stay within `20 - n` ticks of each other, or within one tick of where they
were, as long as they are not both at the lowest priority. -/
theorem ticks_fair (h : sched.Reach SparesSelf s) {n : Int} {p q : Ptr} (hp : s.Competes n p)
    (hq : s.Competes n q)
    (hrun : sched.Run (fun t l => TicksOnly t l ∧ (l = .tick → t.Unclamped n p q)) s t) :
    t.gap p q ≤ max (s.gap p q + 1) (20 - n) := by
  obtain ⟨hlow, hhigh⟩ := niceval_bounds h p hp.1
  rw [hp.2.2] at hlow hhigh
  have hinv : sched.Reach SparesSelf t ∧
      Rivals n (s.gap p q) (max (s.gap p q + 1) (20 - n)) p q t := by
    refine hrun.invariant (I := fun a => sched.Reach SparesSelf a ∧
      Rivals n (s.gap p q) (max (s.gap p q + 1) (20 - n)) p q a) ⟨h, hp, hq, .inl rfl⟩ ?_
    intro a l b ha hok hs
    obtain ⟨hreach, hrivals⟩ := ha
    have hreach' := hreach.step hok.1.sparesSelf hs
    refine ⟨hreach', ?_⟩
    rcases hok.1 with rfl | ⟨⟨freed, rfl⟩, fs, hfs⟩
    · exact hrivals.tick hlow hhigh (ticksBounded_of_reach id hreach) (hok.2 rfl)
        (Sound.of_reach id hreach) (running_eq_current id hreach) hs
    · -- The handler returns, which only the mask and the stack show.
      have hret : some { a.sigUnblock with frames := fs } = some b := by
        rw [← hs]
        simp [step, goStep, hfs]
      obtain rfl := Option.some.inj hret
      exact ⟨hrivals.left, hrivals.right, hrivals.near⟩
  rcases hinv.2.near with hstart | ⟨hnear, -⟩
  · exact le_max_of_le_left (by omega)
  · exact hnear

instance (s : State) (n : Int) (p q : Ptr) : Decidable (s.Unclamped n p q) :=
  inferInstanceAs (Decidable (_ ∧ _))

/-- A check for runs of ticks; `free` is asked of the states a tick arrives in. -/
def ticksOnly (free : State → Bool) (s : State) : Label → Bool
  | .tick => free s
  | .go _ => s.frames.head? = some .tickReturn
  | _ => false

theorem TicksOnly.of_check {free : State → Bool} {l : Label} (h : ticksOnly free s l = true) :
    TicksOnly s l ∧ (l = .tick → free s = true) := by
  cases l with
  | tick => exact ⟨.inl rfl, fun _ => h⟩
  | go freed =>
      simp only [ticksOnly, decide_eq_true_eq, List.head?_eq_some_iff] at h
      exact ⟨.inr ⟨⟨freed, rfl⟩, h⟩, fun hl => by cases hl⟩
  | fork | exit | wait | nice => cases h

/-- The initial process and its child, both of nice value 0, during two ticks. -/
theorem ticks_fair_two : ∃ s t : State, s.gap 100 101 = 0 ∧ t.gap 100 101 = 2 ∧
    t.gap 100 101 ≤ max (s.gap 100 101 + 1) (20 - 0) := by
  have hrun : ∃ s, sched.Reach SparesSelf s ∧ (s.procs 0 = some 100 && s.procs 1 = some 101 &&
      (s.heap 100).state = .running && (s.heap 101).state = .ready &&
      (s.heap 100).niceval = 0 && (s.heap 101).niceval = 0 &&
      (s.heap 100).totalTicks = 0 && (s.heap 101).totalTicks = 0 &&
      (System.exec step (ticksOnly fun t => t.Unclamped 0 100 101) s
        [.tick, .go id, .tick, .go id]).any fun t =>
          (t.heap 100).totalTicks = 2 && (t.heap 101).totalTicks = 0) = true :=
    start_reach _ (fun s l => decide (Disciplined s l)) [.fork (some (101, blank)) 65536]
      _ (fun _ _ _ hl => (of_decide_eq_true hl).sparesSelf) (by decide +kernel)
  obtain ⟨s, hreach, hs⟩ := hrun
  simp only [Bool.and_eq_true, decide_eq_true_eq] at hs
  obtain ⟨⟨⟨⟨⟨⟨⟨⟨hslot, hslot'⟩, hst⟩, hst'⟩, hnice⟩, hnice'⟩, hzero⟩, hzero'⟩, hexec⟩ := hs
  obtain ⟨t, hexec, ht⟩ := (Option.any_eq_true _ _).mp hexec
  rw [Bool.and_eq_true, decide_eq_true_eq, decide_eq_true_eq] at ht
  have hcond : ∀ l ∈ [Label.tick, .go id, .tick, .go id], ∀ a,
      ticksOnly (fun t => t.Unclamped 0 100 101) a l = true →
        TicksOnly a l ∧ (l = .tick → a.Unclamped 0 100 101) := by
    intro l _ a hl
    obtain ⟨honly, hfree⟩ := TicksOnly.of_check hl
    exact ⟨honly, fun htick => of_decide_eq_true (hfree htick)⟩
  have hticks := System.run_of_exec sched _ step _ id hcond hexec
  refine ⟨s, t, by simp [gap, hzero, hzero'], by simp [gap, ht.1, ht.2], ?_⟩
  exact ticks_fair hreach ⟨⟨0, by simp [schedNproc], hslot⟩, .inr hst, hnice⟩
    ⟨⟨1, by simp [schedNproc], hslot'⟩, .inl hst', hnice'⟩ hticks

/-- **At the lowest priority one task starves.** The initial process and its child have nice
value 19, so their priorities are 1 from the first tick on, and the lower slot wins. -/
theorem clamped_starves : ¬ ∀ s t n p q, sched.Reach Disciplined s → s.Competes n p →
    s.Competes n q → sched.Run TicksOnly s t → t.gap p q ≤ max (s.gap p q + 1) (20 - n) := by
  intro hall
  have hrun : ∃ s, sched.Reach Disciplined s ∧ (s.procs 0 = some 100 && s.procs 1 = some 101 &&
      (s.heap 100).state = .ready && (s.heap 101).state = .running &&
      (s.heap 100).niceval = 19 && (s.heap 101).niceval = 19 &&
      (s.heap 100).totalTicks = 1 && (s.heap 101).totalTicks = 0 &&
      (System.exec step (ticksOnly fun _ => true) s
        [.tick, .go id, .tick, .go id, .tick, .go id, .tick]).any fun t =>
          (t.heap 100).totalTicks = 4 && (t.heap 101).totalTicks = 1) = true :=
    start_reach _ (fun s l => decide (Disciplined s l))
      [.nice 19, .fork (some (101, blank)) 65536, .tick, .nice 19]
      _ (fun _ _ _ => of_decide_eq_true) (by decide +kernel)
  obtain ⟨s, hreach, hs⟩ := hrun
  simp only [Bool.and_eq_true, decide_eq_true_eq] at hs
  obtain ⟨⟨⟨⟨⟨⟨⟨⟨hslot, hslot'⟩, hst⟩, hst'⟩, hnice⟩, hnice'⟩, hone⟩, hzero⟩, hexec⟩ := hs
  obtain ⟨t, hexec, ht⟩ := (Option.any_eq_true _ _).mp hexec
  rw [Bool.and_eq_true, decide_eq_true_eq, decide_eq_true_eq] at ht
  have hticks := System.run_of_exec sched TicksOnly step _ id
    (fun _ _ _ hl => (TicksOnly.of_check hl).1) hexec
  have hle := hall s t 19 100 101 hreach ⟨⟨0, by simp [schedNproc], hslot⟩, .inl hst, hnice⟩
    ⟨⟨1, by simp [schedNproc], hslot'⟩, .inr hst', hnice'⟩ hticks
  simp [gap, ht.1, ht.2, hone, hzero] at hle

end Ece357.Sched
