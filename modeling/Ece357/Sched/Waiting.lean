import Mathlib.Data.Int.Interval
import Ece357.Sched.Refine

/-!
# Ece357.Sched.Waiting

**Waiting ends.** Two properties of every state the scheduler reaches, both read
off the table of pids:

* nobody sleeps on a zombie child, whatever the ticks do in the windows of
  `sched_wait` and `sched_exit` (`no_lost_wakeup`);
* everybody asleep, the initial process apart, has a descendant that can run
  (`sleeper_has_runnable`), *as long as no `sched_fork` gives out a pid that is met
  on the way up from its caller*.

The second needs its condition. The parent of a record is a pid; when a process
is reaped its pid is free again, and its children, which are not handed to anybody
else, become the children of whoever gets it next. That can be one of their own
descendants, and then two tasks can wait for each other for ever
(`circular_wait`).
-/

namespace Ece357.Sched

open Ece357.Machine Ece357.ProcTable State

variable {s : State}

/-! ### No lost wake-up -/

/-- No process sleeps while it has a zombie child in the table. -/
theorem no_lost_wakeup (h : sched.Reach Disciplined s) {p q : Ptr} (hp : s.InTable p)
    (hq : s.InTable q) (hasleep : (s.heap p).state = .sleeping)
    (hchild : (s.heap q).ppid = (s.heap p).pid) : (s.heap q).state ≠ .zombie := by
  have hbase := (Sound.of_reach Disciplined.sparesSelf h).base
  have hwf := Table.Wf.of_reach h
  exact hwf.heard _ _ (hbase.entry_of hp) hasleep _ _ (hbase.entry_of hq) hchild

/-- The initial process sleeps, and its child is no zombie. -/
theorem no_lost_wakeup_asleep : ∃ s : State, s.blocked = false ∧ (s.heap 100).state = .sleeping ∧
    (s.heap 101).ppid = (s.heap 100).pid ∧ (s.heap 101).state ≠ .zombie := by
  have hrun : ∃ s, sched.Reach Disciplined s ∧ (!s.blocked && s.procs 0 = some 100 &&
      s.procs 1 = some 101 && (s.heap 100).state = .sleeping &&
      (s.heap 101).ppid = (s.heap 100).pid) = true :=
    start_reach _ (fun s l => decide (Disciplined s l))
      [.fork (some (101, blank)) 65536, .wait id, .go id]
      _ (fun _ _ _ => of_decide_eq_true) (by decide +kernel)
  obtain ⟨s, hreach, hs⟩ := hrun
  simp only [Bool.and_eq_true, Bool.not_eq_true', decide_eq_true_eq] at hs
  obtain ⟨⟨⟨⟨hb, hp⟩, hq⟩, hst⟩, hpar⟩ := hs
  have hpin : s.InTable 100 := ⟨0, by simp [schedNproc], hp⟩
  have hqin : s.InTable 101 := ⟨1, by simp [schedNproc], hq⟩
  exact ⟨s, hb, hst, hpar, no_lost_wakeup hreach hpin hqin hst hpar⟩

/-! ### Parent links -/

/-- The process with pid `k`, not dead and not the initial one, has parent number `n`. -/
def UpLink (s : State) (k n : Int) : Prop :=
  ∃ p, s.InTable p ∧ (s.heap p).pid = k ∧ (s.heap p).state ≠ .zombie ∧ (s.heap p).ppid = n ∧ k ≠ 1

/-- A `sched_fork` does not give out a pid that is met on the way up from its caller. -/
def ForksOffPath (s : State) (l : Label) : Prop :=
  (∃ m newsp, l = .fork (some m) newsp) → ¬ Relation.TransGen (UpLink s) s.cur.pid (nextpid s)

/-- The process with record `q` names the one with record `p` as its parent. -/
def IsChild (s : State) (p q : Ptr) : Prop := s.InTable q ∧ (s.heap q).ppid = (s.heap p).pid

theorem Base.link_eq (h : Base s) : s.table.Link 1 = UpLink s := by
  funext k n
  apply propext
  constructor
  · intro hlink
    obtain ⟨e, he, hst, hpar, hne⟩ := hlink
    obtain ⟨p, hp, hk, rfl⟩ := h.entry_eq.mp he
    exact ⟨p, hp, hk, hst, hpar, hne⟩
  · intro hlink
    obtain ⟨p, hp, rfl, hst, hpar, hne⟩ := hlink
    exact ⟨s.entryOf p, h.entry_of hp, hst, hpar, hne⟩

/-- A path down the table of pids is a path down the records. -/
theorem Base.descendant (h : Base s) {p : Ptr} {k : Int}
    (hpath : Relation.TransGen s.table.Child (s.heap p).pid k) :
    ∃ q, s.InTable q ∧ (s.heap q).pid = k ∧ Relation.TransGen (IsChild s) p q := by
  induction hpath with
  | single hchild =>
      obtain ⟨e, he, hpar⟩ := hchild
      obtain ⟨q, hq, hk, rfl⟩ := h.entry_eq.mp he
      exact ⟨q, hq, hk, .single ⟨hq, hpar⟩⟩
  | tail _ hchild ih =>
      obtain ⟨r, -, hrk, hpr⟩ := ih
      obtain ⟨e, he, hpar⟩ := hchild
      obtain ⟨q, hq, hk, rfl⟩ := h.entry_eq.mp he
      exact ⟨q, hq, hk, hpr.tail ⟨hq, hpar.trans hrk.symm⟩⟩

theorem table_finite (s : State) : {k | s.table.entry k ≠ none}.Finite := by
  refine (Set.finite_Icc (1 : Int) schedNproc).subset fun k hk => ?_
  have hlook : s.lookup k ≠ none := fun hnone => hk (by simp [table, hnone])
  unfold lookup at hlook
  split_ifs at hlook with hrange
  · exact hrange
  · exact absurd rfl hlook

/-! ### No circular wait -/

/-- **Everybody asleep waits for somebody who can run**, the initial process apart, in
every run in which the callers keep to the discipline and no fork gives out a pid
met on the way up from its caller. -/
theorem sleeper_has_runnable (h : sched.Reach (fun s l => Disciplined s l ∧ ForksOffPath s l) s)
    {p : Ptr} (hp : s.InTable p) (hasleep : (s.heap p).state = .sleeping)
    (hpid : (s.heap p).pid ≠ 1) : ∃ q, s.InTable q ∧ Relation.TransGen (IsChild s) p q ∧
      ((s.heap q).state = .ready ∨ (s.heap q).state = .running) := by
  have hbase := (Sound.of_reach (fun hok => hok.1.sparesSelf) h).base
  have hreach : (Table.machine 1).Reach (Table.OffPath 1) s.table := by
    refine reach_table (fun hok => hok.1) (fun {a m x} ha hok hx => ?_) h
    intro k hk
    subst hk
    cases hx with
    | fork hcall =>
        rw [ha.base.link_eq]
        exact (hok _ rfl).2 ⟨_, _, rfl⟩
  have hroot : ∀ e, s.table.entry 1 = some e → e.parent = 1 := by
    intro e he
    obtain ⟨q, hq, hqpid, rfl⟩ := hbase.entry_eq.mp he
    exact (hbase.root_eq hq hqpid).2
  obtain ⟨k, e, hpath, hk, hrun⟩ := (Table.Wf.reach hreach).exists_runnable (table_finite s)
    (Table.acyclic_reach hreach) hroot _ rfl (hbase.entry_of hp) hasleep hpid
  obtain ⟨q, hq, rfl, hdesc⟩ := hbase.descendant hpath
  rw [hbase.entry_of hq] at hk
  obtain rfl := Option.some.inj hk
  exact ⟨q, hq, hdesc, hrun⟩

/-- No record in the table names the pid a `sched_fork` gives out as its parent. -/
def ForksFresh (s : State) (l : Label) : Prop :=
  (∃ m newsp, l = .fork (some m) newsp) → ∀ q, s.InTable q → (s.heap q).ppid ≠ nextpid s

theorem ForksFresh.offPath {l : Label} (h : ForksFresh s l) : ForksOffPath s l := by
  intro hl hpath
  obtain ⟨k, -, p, hp, -, -, hpar, -⟩ := Relation.TransGen.tail'_iff.mp hpath
  exact h hl p hp hpar

/-- A check for `ForksFresh`. -/
def forksFresh (s : State) : Bool := (s.findProc fun q => q.ppid = nextpid s).isNone

theorem ForksFresh.of_check {l : Label} (h : forksFresh s = true) : ForksFresh s l := by
  intro _ q hq
  have htest := findProc_none.mp (Option.isNone_iff_eq_none.mp h) q hq
  exact of_decide_eq_false htest

/-- A child of the initial process sleeps, and its own child runs. -/
theorem sleeper_has_runnable_child : ∃ s p, s.blocked = false ∧ s.InTable p ∧
    (s.heap p).state = .sleeping ∧ (s.heap p).pid = 2 ∧ ∃ q, s.InTable q ∧
      Relation.TransGen (IsChild s) p q ∧
      ((s.heap q).state = .ready ∨ (s.heap q).state = .running) := by
  have hrun : ∃ s, sched.Reach (fun s l => Disciplined s l ∧ ForksOffPath s l) s ∧
      (!s.blocked && s.procs 1 = some 101 && (s.heap 101).state = .sleeping &&
        (s.heap 101).pid = 2) = true := by
    refine start_reach _ (fun s l => decide (Disciplined s l) && forksFresh s)
      [.fork (some (101, blank)) 65536, .wait id, .go id, .fork (some (102, blank)) 131072,
        .wait id, .go id] _ (fun l _ s hl => ?_) (by decide +kernel)
    rw [Bool.and_eq_true, decide_eq_true_eq] at hl
    exact ⟨hl.1, (ForksFresh.of_check hl.2).offPath⟩
  obtain ⟨s, hreach, hs⟩ := hrun
  simp only [Bool.and_eq_true, Bool.not_eq_true', decide_eq_true_eq] at hs
  obtain ⟨⟨⟨hb, hslot⟩, hst⟩, hpid⟩ := hs
  have hp : s.InTable 101 := ⟨1, by simp [schedNproc], hslot⟩
  exact ⟨s, 101, hb, hp, hst, hpid, sleeper_has_runnable hreach hp hst (by rw [hpid]; decide)⟩

/-- **Without the condition on forks, tasks wait for each other.** The initial process
creates A (pid 2), A creates B (pid 3) and exits, and is reaped. B, whose parent
number is still 2, calls `sched_fork` and gets a child with pid 2. Child and creator
are now each other's parent; both call `sched_wait`, and everybody is asleep. -/
theorem circular_wait : ¬ ∀ s, sched.Reach Disciplined s → s.blocked = false →
    ∀ p, s.InTable p → (s.heap p).state = .sleeping → (s.heap p).pid ≠ 1 →
      ∃ q, s.InTable q ∧ Relation.TransGen (IsChild s) p q ∧
        ((s.heap q).state = .ready ∨ (s.heap q).state = .running) := by
  intro hall
  have hrun : ∃ s, sched.Reach Disciplined s ∧ (!s.blocked && s.procs 1 = some 103 &&
      (s.heap 103).pid = 2 && (s.findProc fun r => r.state ≠ .sleeping).isNone) = true :=
    start_reach _ (fun s l => decide (Disciplined s l))
      [.fork (some (101, blank)) 65536, .wait id, .go id, .fork (some (102, blank)) 131072,
        .exit 0, .go id, .wait id, .go id, .fork (some (103, blank)) 196608, .wait id, .go id,
        .wait id]
      _ (fun _ _ _ => of_decide_eq_true) (by decide +kernel)
  obtain ⟨s, hreach, hs⟩ := hrun
  simp only [Bool.and_eq_true, Bool.not_eq_true', decide_eq_true_eq,
    Option.isNone_iff_eq_none] at hs
  obtain ⟨⟨⟨hb, hslot⟩, hpid⟩, hfind⟩ := hs
  have hasleep : ∀ q, s.InTable q → (s.heap q).state = .sleeping := fun q hq =>
    not_not.mp (of_decide_eq_false (findProc_none.mp hfind q hq))
  have hp : s.InTable 103 := ⟨1, by simp [schedNproc], hslot⟩
  obtain ⟨q, hq, -, hst⟩ := hall s hreach hb 103 hp (hasleep 103 hp) (by rw [hpid]; decide)
  rw [hasleep q hq] at hst
  rcases hst with hst | hst <;> cases hst

end Ece357.Sched
