import Mathlib.Data.Finset.Card
import Mathlib.Data.Finset.Range
import Mathlib.Order.Bounds.Basic
import Ece357.Sched.Steps

/-!
# Ece357.Sched.Counting

**`proc_count` counts.** It is the number of slots whose record is not a ZOMBIE: each
move changes both alike, or neither. With the representation invariant this makes
`table_represents`: pids number the slots, `current` is in its slot, the count is
right, and `sched_fork` gives out the lowest pid not in use.
-/

namespace Ece357.Sched

open Ece357.Machine Ece357.ProcTable State

variable {s s' : State}

/-- The slots that hold a record that is not a ZOMBIE. -/
def aliveSlots (s : State) : Finset Nat :=
  (Finset.range schedNproc).filter fun i => (s.slot (fun r => r.state ≠ .zombie) i).isSome

theorem mem_aliveSlots {i : Nat} : i ∈ aliveSlots s ↔
    i < schedNproc ∧ ∃ p, s.procs i = some p ∧ (s.heap p).state ≠ .zombie := by
  unfold aliveSlots slot
  rw [Finset.mem_filter, Finset.mem_range]
  cases s.procs i with
  | none => simp
  | some p => by_cases hst : (s.heap p).state = .zombie <;> simp [hst]

/-- A slot keeps its task, which neither dies nor comes back to life. -/
theorem mem_aliveSlots_congr {i : Nat} (hprocs : s'.procs i = s.procs i)
    (hst : ∀ p, i < schedNproc → s.procs i = some p →
      ((s'.heap p).state = .zombie ↔ (s.heap p).state = .zombie)) :
    i ∈ aliveSlots s' ↔ i ∈ aliveSlots s := by
  rw [mem_aliveSlots, mem_aliveSlots, hprocs]
  constructor
  · intro h
    obtain ⟨hi, p, hp, hz⟩ := h
    exact ⟨hi, p, hp, fun hz' => hz ((hst p hi hp).mpr hz')⟩
  · intro h
    obtain ⟨hi, p, hp, hz⟩ := h
    exact ⟨hi, p, hp, fun hz' => hz ((hst p hi hp).mp hz')⟩

/-- Nobody dies and nobody comes back to life. -/
theorem aliveSlots_congr (hprocs : s'.procs = s.procs)
    (hst : ∀ p, s.InTable p → ((s'.heap p).state = .zombie ↔ (s.heap p).state = .zombie)) :
    aliveSlots s' = aliveSlots s := by
  ext i
  exact mem_aliveSlots_congr (congrFun hprocs i) fun p hi hp => hst p ⟨i, hi, hp⟩

/-- The current task dies, and nobody else. -/
theorem card_aliveSlots_exit (h : Base s) (hprocs : s'.procs = s.procs)
    (halive : s.cur.state ≠ .zombie) (hdead : (s'.heap s.current).state = .zombie)
    (hst : ∀ p, s.InTable p → p ≠ s.current →
      ((s'.heap p).state = .zombie ↔ (s.heap p).state = .zombie)) :
    ((aliveSlots s').card : Int) = (aliveSlots s).card - 1 := by
  obtain ⟨c, hc, hcur⟩ := h.current
  have hmem : c ∈ aliveSlots s := mem_aliveSlots.mpr ⟨hc, _, hcur, halive⟩
  have heq : aliveSlots s' = (aliveSlots s).erase c := by
    ext i
    rw [Finset.mem_erase, mem_aliveSlots, mem_aliveSlots, hprocs]
    constructor
    · intro hi
      obtain ⟨hi, p, hp, hz⟩ := hi
      have hpc : p ≠ s.current := fun hpc => hz (hpc ▸ hdead)
      refine ⟨?_, hi, p, hp, fun hz' => hz ((hst p ⟨i, hi, hp⟩ hpc).mpr hz')⟩
      intro hic
      exact hpc (Option.some.inj ((hic ▸ hp).symm.trans hcur))
    · intro hi
      obtain ⟨hic, hi, p, hp, hz⟩ := hi
      have hpc : p ≠ s.current := fun hpc => hic (h.slot_inj hi hc (hpc ▸ hp) hcur)
      exact ⟨hi, p, hp, fun hz' => hz ((hst p ⟨i, hi, hp⟩ hpc).mp hz')⟩
  have hpos := Finset.card_pos.mpr ⟨c, hmem⟩
  rw [heq, Finset.card_erase_of_mem hmem]
  omega

/-- `proc_count` is the number of slots alive. -/
def Counted (s : State) : Prop := s.procCount = (aliveSlots s).card

theorem Started.counted (h : Started s) : Counted s := by
  have hone : aliveSlots s = {0} := by
    ext i
    rw [mem_aliveSlots, Finset.mem_singleton]
    constructor
    · intro hi
      obtain ⟨-, p, hp, -⟩ := hi
      exact (h.slot hp).1
    · intro hi
      subst hi
      have hst : (s.heap s.current).state ≠ .zombie := by
        show s.cur.state ≠ _
        simp [h.state]
      exact ⟨by simp [schedNproc], s.current, by simp [h.procs], hst⟩
  unfold Counted
  rw [hone, h.procCount]
  rfl

/-- A fork fills a free slot with a task that is alive. -/
theorem aliveSlots_forked (h : Base s) {z : Ptr} {content : SchedProc} {i : Nat} {newsp : Addr}
    (hi : i < schedNproc) (hz : s.live z = false) :
    aliveSlots (s.forked z content i newsp) = insert i (aliveSlots s) := by
  ext j
  rw [Finset.mem_insert]
  by_cases hji : j = i
  · subst hji
    rw [mem_aliveSlots]
    simp [forked, newRecord, hi]
  · have hne : ∀ p, j < schedNproc → s.procs j = some p → p ≠ z := fun p hj hp =>
      h.ne_of_free ⟨j, hj, hp⟩ hz
    have hkept : j ∈ aliveSlots (s.forked z content i newsp) ↔ j ∈ aliveSlots s :=
      mem_aliveSlots_congr (by simp [forked, hji]) fun p hj hp => by simp [forked, hne p hj hp]
    rw [hkept]
    simp [hji]

/-- Reaping a dead task takes nobody away who was alive. -/
theorem aliveSlots_reaped (h : Base s) {z : Ptr} {gone : SchedProc} {i : Nat}
    (hi : i < schedNproc) (hz : s.procs i = some z) (hzombie : (s.heap z).state = .zombie) :
    aliveSlots (s.reaped i z gone) = aliveSlots s := by
  ext j
  by_cases hji : j = i
  · subst hji
    rw [mem_aliveSlots, mem_aliveSlots]
    simp [State.reaped, hz, hzombie]
  · have hne : ∀ p, j < schedNproc → s.procs j = some p → p ≠ z := fun p hj hp hpz =>
      hji (h.slot_inj hj hi (hpz ▸ hp) hz)
    exact mem_aliveSlots_congr (by simp [State.reaped, hji]) fun p hj hp => by
      simp [State.reaped, hne p hj hp]

/-- Every move keeps the count. -/
theorem Counted.move (h : Sound s) (hcount : Counted s) {m : Option Label}
    (hlive : onCalls Disciplined s m) (hm : Move s m s') : Counted s' := by
  have hkeep : s'.procs = s.procs → s'.procCount = s.procCount → (∀ p, s.InTable p →
      ((s'.heap p).state = .zombie ↔ (s.heap p).state = .zombie)) → Counted s' := by
    intro hprocs hcnt hst
    unfold Counted
    rw [aliveSlots_congr hprocs hst, hcnt]
    exact hcount
  have hkill : s'.procs = s.procs → s'.procCount = s.procCount - 1 → s.cur.state ≠ .zombie →
      (s'.heap s.current).state = .zombie → (∀ p, s.InTable p → p ≠ s.current →
        ((s'.heap p).state = .zombie ↔ (s.heap p).state = .zombie)) → Counted s' := by
    intro hprocs hcnt halive hdead hst
    unfold Counted at hcount ⊢
    rw [card_aliveSlots_exit h.base hprocs halive hdead hst, hcnt, hcount]
  have hquiet : ∀ {new}, Quiet s new s' → Counted s' := fun hq =>
    hkeep hq.procs hq.procCount fun p hp => by rw [(hq.record p hp).state]
  unfold Counted at hcount ⊢
  cases hm with
  | quiet hq => exact hquiet hq
  | forkFail hq => exact hquiet hq
  | noChild hq => exact hquiet hq
  | exitReturn hq => exact hquiet hq
  | @fork z content newsp i hcall hi hfree hlow hz =>
      have hnot : i ∉ aliveSlots s := by
        rw [mem_aliveSlots]
        simp [hfree]
      rw [aliveSlots_forked h.base hi hz, Finset.card_insert_of_notMem hnot]
      show s.procCount + 1 = _
      omega
  | @exit code hcall hawake =>
      refine hkill rfl rfl (hlive _ rfl rfl) ?_ fun p _ hp => ?_
      · simp [exited, State.modify, State.log]
      · simp [exited, State.modify, State.log, hp]
  | @exitWake code q hcall hq hne hparent hasleep =>
      -- the parent is alive before and after
      rw [resume_eq] at hkill ⊢
      refine hkill rfl rfl (hlive _ rfl rfl) ?_ fun p _ hp => ?_
      · simp [exited, State.modify, State.log, hne.symm]
      · by_cases hpq : p = q
        · subst hpq
          simp [exited, State.modify, State.log, hp, hasleep]
        · simp [exited, State.modify, State.log, hp, hpq]
  | reap hround hi hz hparent hzombie =>
      -- the count was taken down when the child died
      rw [aliveSlots_reaped h.base hi hz hzombie]
      exact hcount
  | sleep hround =>
      have halive : (s.heap s.current).state ≠ .zombie := h.wait_alive hround (hlive _ rfl)
      refine hkeep rfl rfl fun p _ => ?_
      by_cases hp : p = s.current
      · subst hp
        simp [slept, State.modify, halive]
      · simp [slept, State.modify, hp]
  | yield =>
      refine hkeep rfl rfl fun p _ => ?_
      by_cases hp : p = s.current
      · subst hp
        simp only [yielded, State.modify, Function.update_self]
        cases (s.heap s.current).state <;> simp [Table.leave]
      · simp [yielded, State.modify, hp]
  | @dispatch q hq hne hready =>
      refine hkeep (by rw [resume_eq]; rfl) (by rw [resume_eq]; rfl) fun p _ => ?_
      by_cases hpq : p = q
      · subst hpq
        simp [resume_eq, hready]
      · by_cases hp : p = s.current
        · subst hp
          simp [resume_eq, savectx, State.modify, State.log, hpq]
        · simp [resume_eq, savectx, State.modify, State.log, hp, hpq]

theorem Counted.of_reach (h : sched.Reach Disciplined s) : Counted s :=
  invariant_of_moves (I := Counted) Disciplined.sparesSelf h Started.counted
    fun _ hsound hcount hok hm => hcount.move hsound hok hm

/-! ### The pid a fork gives out -/

/-- The pids not in use. -/
def freePids (s : State) : Set Int :=
  {n | 1 ≤ n ∧ n ≤ schedNproc ∧ ∀ p, s.InTable p → (s.heap p).pid ≠ n}

theorem Base.mem_freePids (h : Base s) {i : Nat} (hi : i < schedNproc) :
    (i : Int) + 1 ∈ freePids s ↔ s.procs i = none := by
  constructor
  · intro hmem
    cases hp : s.procs i with
    | none => rfl
    | some p => exact absurd (h.pid i hi p hp) (hmem.2.2 p ⟨i, hi, hp⟩)
  · intro hfree
    refine ⟨by omega, by omega, fun p hp hpid => ?_⟩
    obtain ⟨j, hj, hp⟩ := hp
    have hpj := h.pid j hj p hp
    obtain rfl : j = i := by omega
    rw [hfree] at hp
    cases hp

theorem freePids_slot {n : Int} (hn : n ∈ freePids s) : ∃ i : Nat, i < schedNproc ∧ n = i + 1 := by
  obtain ⟨hlow, hhigh, -⟩ := hn
  exact ⟨(n - 1).toNat, by omega, by omega⟩

theorem Base.isLeast_freePids (h : Base s) {i : Nat} (hi : i < schedNproc)
    (hfree : s.procs i = none) (hlow : ∀ j < i, s.procs j ≠ none) :
    IsLeast (freePids s) ((i : Int) + 1) := by
  refine ⟨(h.mem_freePids hi).mpr hfree, fun n hn => ?_⟩
  obtain ⟨j, hj, rfl⟩ := freePids_slot hn
  have hle : ¬ j < i := fun hlt => hlow j hlt ((h.mem_freePids hj).mp hn)
  omega

/-- What a `sched_fork` that got its memory does. -/
theorem fork_pid (h : Base s) {z : Ptr} {content : SchedProc} {newsp : Addr}
    (hs : step s (.fork (some (z, content)) newsp) = some s') :
    (∃ k, IsLeast (freePids s) k ∧ s'.procs (k - 1).toNat = some z ∧ (s'.heap z).pid = k ∧
      s'.trace.head? = some (.forkReturned s.current (some z) k)) ∨
    ((∀ i < schedNproc, s.procs i ≠ none) ∧ s'.procs = s.procs ∧
      s'.trace.head? = some (.forkReturned s.current none (-1))) := by
  simp only [step, Option.ite_none_right_eq_some] at hs
  obtain ⟨⟨-, hok⟩, hs⟩ := hs
  rcases schedFork_cases h hok hs with
    ⟨hwhy, hq⟩ | ⟨_, _, i, heq, hi, hfree, hlow, -, -, rfl⟩
  · exact .inr ⟨hwhy.resolve_left (by simp), hq.procs, by rw [hq.trace]; rfl⟩
  · obtain ⟨rfl, rfl⟩ := Prod.mk.inj (Option.some.inj heq)
    refine .inl ⟨i + 1, h.isLeast_freePids hi hfree hlow, ?_, ?_, rfl⟩
    · simp [forked]
    · simp [forked, newRecord]

/-- **The process table is what it should be.** In every reachable state pids number the
slots, so that no two are equal; the current task is in its slot of the table; `proc_count` is the
number of processes that are not zombies; and a `sched_fork` that got its memory gives
out the least pid not in use, and fails exactly if there is none. -/
theorem table_represents (h : sched.Reach Disciplined s) :
    (∀ i < schedNproc, ∀ p, s.procs i = some p → (s.heap p).pid = i + 1) ∧
    (∀ p q, s.InTable p → s.InTable q → (s.heap p).pid = (s.heap q).pid → p = q) ∧
    (1 ≤ s.cur.pid ∧ s.cur.pid ≤ schedNproc ∧
      s.procs (s.cur.pid - 1).toNat = some s.current) ∧
    s.procCount = (aliveSlots s).card ∧
    ∀ z content newsp s', step s (.fork (some (z, content)) newsp) = some s' →
      (∃ k, IsLeast (freePids s) k ∧ s'.procs (k - 1).toNat = some z ∧ (s'.heap z).pid = k ∧
        s'.trace.head? = some (.forkReturned s.current (some z) k)) ∨
      ((∀ i < schedNproc, s.procs i ≠ none) ∧ s'.procs = s.procs ∧
        s'.trace.head? = some (.forkReturned s.current none (-1))) := by
  have hsound := Sound.of_reach Disciplined.sparesSelf h
  refine ⟨hsound.base.pid, fun p q => hsound.base.pid_inj, ?_, Counted.of_reach h,
    fun z content newsp s' hs => fork_pid hsound.base hs⟩
  obtain ⟨i, hi, hcur⟩ := hsound.base.current
  have hpid : s.cur.pid = i + 1 := hsound.base.pid i hi _ hcur
  rw [hpid]
  exact ⟨by omega, by omega, by simpa using hcur⟩

/-- A child that has exited, to the benefit of its sleeping parent, is not counted. -/
theorem table_represents_zombie : ∃ s, s.procs 1 = some 101 ∧ (s.heap 101).state = .zombie ∧
    s.procCount = 1 ∧ (aliveSlots s).card = 1 ∧ s.cur.pid ≤ schedNproc ∧
    s.procs (s.cur.pid - 1).toNat = some s.current := by
  have hrun : ∃ s, sched.Reach Disciplined s ∧ (s.procs 1 = some 101 &&
      (s.heap 101).state = .zombie && s.procCount = 1) = true :=
    start_reach _ (fun s l => decide (Disciplined s l))
      [.fork (some (101, blank)) 65536, .wait id, .go id, .exit 5]
      _ (fun _ _ _ => of_decide_eq_true) (by decide +kernel)
  obtain ⟨s, hreach, hs⟩ := hrun
  simp only [Bool.and_eq_true, decide_eq_true_eq] at hs
  obtain ⟨⟨hslot, hst⟩, hcount⟩ := hs
  obtain ⟨-, -, ⟨-, hpid, hcur⟩, hcard, -⟩ := table_represents hreach
  exact ⟨s, hslot, hst, hcount, by omega, hpid, hcur⟩

end Ece357.Sched
