import Ece357.Sched.Ticks

/-!
# Ece357.Sched.Priority

**Dynamic priorities.** `sched_switch` computes `20 - niceval - total_ticks / (20 - niceval)` as
a `long`, stores it in an `int`, and then replaces what is not positive by 1. As long as the
value fits the `int`, priorities are between 1 and `20 - niceval`, and a process that is neither
nicer nor has more ticks than another has no lower priority (`priorities_ranked`).

A count that is too large for that comes out of the conversion as a large positive number,
which the test for what is not positive lets through (`priority_overflows`).
-/

namespace Ece357.Sched

open Ece357.Machine Ece357.ProcTable State

variable {s s' u : State}

/-! ### The formula -/

/-- The count is not negative, and so small that the priority it leads to fits an `int` before
it is clamped. -/
def SchedProc.FitsInt (r : SchedProc) : Prop :=
  0 ≤ r.totalTicks ∧ r.totalTicks < (20 - r.niceval) * (2 ^ 31 + 21 - r.niceval)

theorem dynPriority_of_account {a b : SchedProc} (h : a.account = b.account) :
    dynPriority a = dynPriority b :=
  dynPriority_congr (congrArg Prod.fst h) (congrArg Prod.snd h)

theorem dynPriority_quotient {r : SchedProc} (hpos : 0 ≤ r.totalTicks) :
    dynPriority r = max 1 (toInt (20 - r.niceval - r.totalTicks / (20 - r.niceval))) := by
  unfold dynPriority
  dsimp only
  rw [Int.tdiv_eq_ediv_of_nonneg hpos]
  split_ifs <;> omega

/-- The dynamic priority as long as it fits an `int`: one less for every `20 - niceval`
ticks, but at least 1. -/
theorem dynPriority_eq {r : SchedProc} {n : Int} (hn : r.niceval = n) (hlow : -20 ≤ n)
    (hhigh : n ≤ 19) (hpos : 0 ≤ r.totalTicks)
    (hfit : r.totalTicks < (20 - n) * (2 ^ 31 + 21 - n)) :
    dynPriority r = max 1 (20 - n - r.totalTicks / (20 - n)) := by
  have hk : 0 < 20 - n := by omega
  have hquot : r.totalTicks / (20 - n) < 2 ^ 31 + 21 - n :=
    Int.ediv_lt_of_lt_mul hk (by rw [Int.mul_comm]; exact hfit)
  have hquot0 : 0 ≤ r.totalTicks / (20 - n) := Int.ediv_nonneg hpos hk.le
  have hint : toInt (20 - n - r.totalTicks / (20 - n)) = 20 - n - r.totalTicks / (20 - n) :=
    toInt_of_fits ⟨by omega, by omega⟩
  rw [dynPriority_quotient hpos, hn, hint]

/-- What is taken off the base may go round the `int` several times; it must not end above the
base. -/
theorem toInt_le_iff {k q : Int} (hk : 0 < k) (hk' : k ≤ 40) :
    toInt (k - q) ≤ k ↔ q % 2 ^ 32 ≤ 2 ^ 31 + k := by
  unfold toInt
  rw [Int.bmod_def]
  split_ifs <;> omega

/-- **When a priority is in range.** -/
theorem dynPriority_le_iff {r : SchedProc} (hlow : -20 ≤ r.niceval) (hhigh : r.niceval ≤ 19)
    (hpos : 0 ≤ r.totalTicks) : dynPriority r ≤ 20 - r.niceval ↔
      r.totalTicks / (20 - r.niceval) % 2 ^ 32 ≤ 2 ^ 31 + (20 - r.niceval) := by
  rw [dynPriority_quotient hpos, max_le_iff, toInt_le_iff (by omega) (by omega)]
  exact and_iff_right (by omega)

/-- The smaller the base, the sooner it is used up. -/
theorem SchedProc.FitsInt.of_le {a b : SchedProc} (hb : b.FitsInt) (hhigh : b.niceval ≤ 19)
    (hnice : a.niceval ≤ b.niceval) (hpos : 0 ≤ a.totalTicks)
    (hticks : a.totalTicks ≤ b.totalTicks) : a.FitsInt := by
  refine ⟨hpos, ?_⟩
  calc a.totalTicks ≤ b.totalTicks := hticks
    _ < (20 - b.niceval) * (2 ^ 31 + 21 - b.niceval) := hb.2
    _ ≤ (20 - a.niceval) * (2 ^ 31 + 21 - a.niceval) :=
      Int.mul_le_mul (by omega) (by omega) (by omega) (by omega)

/-- A count of up to `2 ^ 31` leads to a priority that fits. -/
theorem SchedProc.FitsInt.of_le_two_pow {r : SchedProc} (hhigh : r.niceval ≤ 19)
    (hpos : 0 ≤ r.totalTicks) (hle : r.totalTicks ≤ 2 ^ 31) : r.FitsInt := by
  refine ⟨hpos, ?_⟩
  calc r.totalTicks < 1 * (2 ^ 31 + 1) := by omega
    _ ≤ (20 - r.niceval) * (2 ^ 31 + 21 - r.niceval) :=
      Int.mul_le_mul (by omega) (by omega) (by omega) (by omega)

/-- **Priorities are monotone** in nice values and in ticks. -/
theorem dynPriority_mono {a b : SchedProc} (hlow : -20 ≤ a.niceval) (hhigh : b.niceval ≤ 19)
    (hnice : a.niceval ≤ b.niceval) (hpos : 0 ≤ a.totalTicks)
    (hticks : a.totalTicks ≤ b.totalTicks) (hb : b.FitsInt) : dynPriority b ≤ dynPriority a := by
  have ha := hb.of_le hhigh hnice hpos hticks
  have hka : 0 < 20 - a.niceval := by omega
  have hkb : 0 < 20 - b.niceval := by omega
  -- the base of `a` is larger, and what is taken off it is less
  have hquot : a.totalTicks / (20 - a.niceval) ≤ b.totalTicks / (20 - b.niceval) := by
    refine Int.le_ediv_of_mul_le hkb ?_
    calc a.totalTicks / (20 - a.niceval) * (20 - b.niceval)
        ≤ a.totalTicks / (20 - a.niceval) * (20 - a.niceval) :=
          Int.mul_le_mul_of_nonneg_left (by omega) (Int.ediv_nonneg hpos hka.le)
      _ ≤ a.totalTicks := Int.ediv_mul_le _ hka.ne'
      _ ≤ b.totalTicks := hticks
  rw [dynPriority_eq rfl hlow (by omega) ha.1 ha.2, dynPriority_eq rfl (by omega) hhigh hb.1 hb.2]
  omega

/-! ### What `sched_switch` makes of the priorities -/

/-- The switch to another task touches no priority, so that all are as computed. -/
theorem schedSwitch_priority {p : Ptr} (hp : u.InTable p) :
    ((schedSwitch u).heap p).priority = dynPriority (u.heap p) := by
  have hselecting := (selecting_inTable hp).2
  rcases schedSwitch_spec u with ⟨heq, -⟩ | ⟨i, q, -, -, heq⟩
  · rw [heq, hselecting]
  · rw [heq, ← hselecting]
    split_ifs
    · exact modify_field SchedProc.priority (selecting u)
        (f := fun r => { r with state := .ready }) (fun _ => rfl) u.current p
    · show ((resume _ _ q).heap p).priority = _
      rw [resume_field SchedProc.priority _ fun _ => rfl]
      exact savectx_field SchedProc.priority (selecting u) (fun _ => rfl) p

/-- A step enters `sched_switch` in `u` and leaves it in `s'`: it has not divided by zero, and
the priorities are in range and monotone. -/
structure Ranked (u s' : State) : Prop where
  divisor : ∀ p, u.InTable p → 20 - (u.heap p).niceval ≠ 0
  range : ∀ p, s'.InTable p → 1 ≤ (s'.heap p).priority ∧
    (s'.heap p).priority ≤ 20 - (s'.heap p).niceval ∧ (s'.heap p).priority ≤ 40
  mono : ∀ a b, s'.InTable a → s'.InTable b → (s'.heap a).niceval ≤ (s'.heap b).niceval →
    (s'.heap a).totalTicks ≤ (s'.heap b).totalTicks → (s'.heap b).priority ≤ (s'.heap a).priority

section Step
variable {l : Label} (hu : entersSwitch s l = some u)
include hu

theorem entersSwitch_bounds (h : NiceBounded s) : NiceBounded u := by
  intro p hp
  rw [entersSwitch_niceval hu]
  exact h p ((inTable_congr (entersSwitch_quiet hu).procs p).mp hp)

theorem entersSwitch_sparesSelf : SparesSelf s l := by
  intro hwait
  obtain ⟨freed, rfl⟩ := hwait
  cases hu

end Step

theorem schedSwitch_ranked (h : NiceBounded u) (hfit : ∀ p, u.InTable p → (u.heap p).FitsInt) :
    Ranked u (schedSwitch u) := by
  obtain ⟨hprocs, -, hacc⟩ := schedSwitch_accounts u
  have hin : ∀ p, (schedSwitch u).InTable p → u.InTable p := fun p => (inTable_congr hprocs p).mp
  have hnice : ∀ p, ((schedSwitch u).heap p).niceval = (u.heap p).niceval := fun p =>
    congrArg Prod.fst (hacc p)
  have hticks : ∀ p, ((schedSwitch u).heap p).totalTicks = (u.heap p).totalTicks := fun p =>
    congrArg Prod.snd (hacc p)
  refine ⟨fun p hp => ?_, fun p hp => ?_, fun a b ha hb hab hab' => ?_⟩
  · have hhigh := (h p hp).2
    omega
  · obtain ⟨hlow, hhigh⟩ := h p (hin p hp)
    obtain ⟨hpos, hsmall⟩ := hfit p (hin p hp)
    have hquot : 0 ≤ (u.heap p).totalTicks / (20 - (u.heap p).niceval) :=
      Int.ediv_nonneg hpos (by omega)
    rw [schedSwitch_priority (hin p hp), hnice, dynPriority_eq rfl hlow hhigh hpos hsmall]
    omega
  · rw [hnice, hnice] at hab
    rw [hticks, hticks] at hab'
    rw [schedSwitch_priority (hin a ha), schedSwitch_priority (hin b hb)]
    exact dynPriority_mono (h a (hin a ha)).1 (h b (hin b hb)).2 hab (hfit a (hin a ha)).1 hab'
      (hfit b (hin b hb))

/-- **Dynamic priorities**, in every run: whenever `sched_switch` is entered with counts that fit,
it does not divide by zero, and leaves priorities that are in range and monotone. Any count
leads to a priority of at least 1, and one that is not negative to a priority in range exactly
if the conversion does not bring it out above. Negative counts need a dead task that has reaped
itself. -/
theorem priorities_ranked (s u s' : State) (l : Label) (h : sched.Reach System.any s)
    (hu : entersSwitch s l = some u) (hs : step s l = some s') :
    ((∀ p, u.InTable p → (u.heap p).FitsInt) → Ranked u s') ∧
    (∀ p, u.InTable p → 20 - (u.heap p).niceval ≠ 0 ∧ 1 ≤ (s'.heap p).priority ∧
      (0 ≤ (u.heap p).totalTicks → ((s'.heap p).priority ≤ 20 - (s'.heap p).niceval ↔
        (u.heap p).totalTicks / (20 - (u.heap p).niceval) % 2 ^ 32 ≤
          2 ^ 31 + (20 - (u.heap p).niceval)))) ∧
    (sched.Reach SparesSelf s → ∀ p, u.InTable p → 0 ≤ (u.heap p).totalTicks) := by
  have hbounds := entersSwitch_bounds hu (niceval_bounds h)
  obtain rfl := step_enters hu hs
  obtain ⟨hprocs, -, hacc⟩ := schedSwitch_accounts u
  refine ⟨schedSwitch_ranked hbounds, fun p hp => ?_, fun hself p hp => ?_⟩
  · obtain ⟨hlow, hhigh⟩ := hbounds p hp
    have hnice : ((schedSwitch u).heap p).niceval = (u.heap p).niceval :=
      congrArg Prod.fst (hacc p)
    rw [schedSwitch_priority hp, hnice]
    exact ⟨by omega, dynPriority_pos _, dynPriority_le_iff hlow hhigh⟩
  · have hreach := hself.step (entersSwitch_sparesSelf hu) hs
    have hticks : ((schedSwitch u).heap p).totalTicks = (u.heap p).totalTicks :=
      congrArg Prod.snd (hacc p)
    rw [← hticks]
    exact (ticksBounded_of_reach id hreach p ((inTable_congr hprocs p).mpr hp)).1

/-! ### The initial process alone -/

/-- The initial process is alone in the table, in its own code, with nice value `n` and `k`
ticks. -/
structure Alone (n k : Int) (s : State) : Prop where
  current : s.InTable s.current
  only : ∀ p, s.InTable p → p = s.current
  frames : s.frames = []
  blocked : s.blocked = false
  account : s.cur.account = (n, k)

theorem Alone.entered {n k : Int} (h : Alone n k s) (hu : entersSwitch s .tick = some u) {p : Ptr}
    (hp : u.InTable p) : (u.heap p).account = (n, k + 1) := by
  obtain rfl := h.only p ((inTable_congr (entersSwitch_quiet hu).procs p).mp hp)
  obtain ⟨hn, hk⟩ := Prod.mk.inj h.account
  obtain rfl := Option.some.inj hu
  simp only [SchedProc.account, State.modify, Function.update_self]
  rw [← hn, ← hk, State.cur]

/-- One tick and the return of its handler: there is nobody else to select. -/
theorem Alone.tick {n k : Int} (h : Alone n k s) (hsound : Sound s) :
    ∃ s' s'', step s .tick = some s' ∧ step s' (.go id) = some s'' ∧ Alone n (k + 1) s'' := by
  obtain ⟨u, hu⟩ : ∃ u, entersSwitch s .tick = some u := ⟨_, rfl⟩
  have hquiet := entersSwitch_quiet hu
  have hinu : ∀ p, u.InTable p ↔ s.InTable p := inTable_congr hquiet.procs
  have hstay : schedSwitch u = selecting u := by
    rcases schedSwitch_best (hsound.quiet hquiet).base with
      ⟨heq, -⟩ | ⟨i, q, -, hsel, ⟨-, heq⟩ | ⟨hne, -⟩⟩
    · exact heq
    · exact heq
    · have hq := h.only q ((hinu q).mp hsel.inTable)
      exact absurd (hq.trans hquiet.current.symm) hne
  have hcurrent : (schedSwitch u).current = s.current := by
    rw [hstay]
    exact hquiet.current
  have hstep : step s .tick = some (schedSwitch u) := by
    simp only [step, h.blocked, Bool.false_eq_true, if_false]
    rw [← Option.some.inj hu]
    rfl
  have hframes : (schedSwitch u).frames = [.tickReturn] := by
    rw [hstay, ← h.frames]
    obtain rfl := Option.some.inj hu
    rfl
  obtain ⟨hprocs, -, hacc⟩ := schedSwitch_accounts u
  have hin : ∀ p, (schedSwitch u).InTable p ↔ u.InTable p := inTable_congr hprocs
  have hcur := (hinu _).mpr h.current
  refine ⟨schedSwitch u, { (schedSwitch u).sigUnblock with frames := [] }, hstep, ?_, ?_, ?_, rfl,
    rfl, ?_⟩
  · simp [step, goStep, hframes]
  · exact (hin _).mpr (hcurrent ▸ hcur)
  · intro p hp
    exact (h.only p ((hinu p).mp ((hin p).mp hp))).trans hcurrent.symm
  · show ((schedSwitch u).heap (schedSwitch u).current).account = _
    rw [hcurrent, hacc, h.entered hu hcur]

theorem Started.alone (h : Initial s) : Alone 0 0 s := by
  have hstart := h.started
  exact ⟨hstart.sound.base.current, fun p => hstart.inTable, hstart.frames, hstart.blocked,
    (Initial.ticks h).2⟩

/-- The initial process, with the nice value it has given itself. -/
theorem alone_reach (n : Int) (k : Nat) :
    ∃ s, sched.Reach Disciplined s ∧ Alone (clampNice n) k s := by
  induction k with
  | zero =>
      have halone := Started.alone start_initial
      have hnice : step start (.nice n) = some (schedNice n start) := by simp [step, halone.frames]
      have halive : Disciplined start (.nice n) := fun _ => by simp [start_initial.started.state]
      obtain ⟨-, hzero⟩ := Prod.mk.inj halone.account
      refine ⟨schedNice n start, .step (.init start_initial) halive hnice, halone.current,
        halone.only, halone.frames, halone.blocked, ?_⟩
      simp only [schedNice, State.cur, State.modify, Function.update_self, SchedProc.account]
      exact Prod.ext rfl hzero
  | succ k ih =>
      obtain ⟨s, hreach, halone⟩ := ih
      have hsound := Sound.of_reach Disciplined.sparesSelf hreach
      obtain ⟨s', s'', hs, hs', halone'⟩ := halone.tick hsound
      have hreach' : sched.Reach Disciplined s' := hreach.step (fun hcall => by cases hcall) hs
      exact ⟨s'', hreach'.step (fun hcall => by cases hcall) hs', halone'⟩

/-- The initial process has nice value 10 and has used up a tick; its child, with nice value 0 and
no tick, is interrupted by the next one. -/
theorem priorities_ranked_first : ∃ s u s' : State, s.InTable 100 ∧ s.InTable 101 ∧
    (s.heap 100).account = (10, 1) ∧ (s.heap 101).account = (0, 0) ∧
    entersSwitch s .tick = some u ∧ step s .tick = some s' ∧ Ranked u s' := by
  have hrun : ∃ s, sched.Reach Disciplined s ∧ (s.procs 0 = some 100 && s.procs 1 = some 101 &&
      (s.heap 100).account = (10, 1) && (s.heap 101).account = (0, 0) && !s.blocked &&
      (schedTick s).tickCount = 2) = true :=
    start_reach _ (fun s l => decide (Disciplined s l))
      [.nice 10, .fork (some (101, blank)) 65536, .tick]
      _ (fun _ _ _ => of_decide_eq_true) (by decide +kernel)
  obtain ⟨s, hreach, hs⟩ := hrun
  simp only [Bool.and_eq_true, Bool.not_eq_true', decide_eq_true_eq] at hs
  obtain ⟨⟨⟨⟨⟨hparent, hchild⟩, hold⟩, hyoung⟩, hopen⟩, hcount⟩ := hs
  obtain ⟨u, hu⟩ : ∃ u, entersSwitch s .tick = some u := ⟨_, rfl⟩
  have hstep : step s .tick = some (schedTick s) := by simp [step, hopen]
  have hany : sched.Reach System.any s := hreach.mono fun _ => trivial
  refine ⟨s, u, _, ⟨0, by simp [schedNproc], hparent⟩, ⟨1, by simp [schedNproc], hchild⟩, hold,
    hyoung, hu, hstep, (priorities_ranked s u _ .tick hany hu hstep).1 fun p hp => ?_⟩
  -- what the switch leaves is bounded by the count of all ticks
  have hreach' : sched.Reach Disciplined (schedTick s) :=
    hreach.step (fun hcall => by cases hcall) hstep
  have hbounded := ticksBounded_of_reach Disciplined.sparesSelf hreach'
  rw [step_enters hu hstep] at hbounded hcount
  obtain ⟨hprocs, -, hacc⟩ := schedSwitch_accounts u
  have hticks : ((schedSwitch u).heap p).totalTicks = (u.heap p).totalTicks :=
    congrArg Prod.snd (hacc p)
  obtain ⟨hpos, hle⟩ := hbounded p ((inTable_congr hprocs p).mpr hp)
  rw [hticks] at hpos hle
  exact .of_le_two_pow (entersSwitch_bounds hu (niceval_bounds hany) p hp).2 hpos (by omega)

/-- **A priority out of range**: the initial process, alone and as nice as can be, is given the
priority `2 ^ 31 - 1` at tick `2 ^ 31 + 2`. -/
theorem priority_overflows : ¬ ∀ (s u s' : State) (l : Label), sched.Reach Disciplined s →
    entersSwitch s l = some u → step s l = some s' → Ranked u s' := by
  intro hall
  obtain ⟨s, hreach, halone⟩ := alone_reach 19 (2 ^ 31 + 1)
  obtain ⟨u, hu⟩ : ∃ u, entersSwitch s .tick = some u := ⟨_, rfl⟩
  obtain ⟨s', -, hs, -, -⟩ := halone.tick (Sound.of_reach Disciplined.sparesSelf hreach)
  have hranked := hall s u s' .tick hreach hu hs
  obtain rfl := step_enters hu hs
  have hcur : u.InTable s.current :=
    (inTable_congr (entersSwitch_quiet hu).procs _).mpr halone.current
  obtain ⟨hnice, hticks⟩ := Prod.mk.inj (halone.entered hu hcur)
  obtain ⟨hprocs, -, hacc⟩ := schedSwitch_accounts u
  obtain ⟨-, hle, -⟩ := hranked.range s.current ((inTable_congr hprocs _).mpr hcur)
  have hnice' : ((schedSwitch u).heap s.current).niceval = (u.heap s.current).niceval :=
    congrArg Prod.fst (hacc _)
  rw [schedSwitch_priority hcur, hnice', dynPriority_le_iff (by rw [hnice]; decide)
    (by rw [hnice]; decide) (by rw [hticks]; decide), hnice, hticks] at hle
  -- here the quotient is the count itself
  revert hle
  decide

end Ece357.Sched
