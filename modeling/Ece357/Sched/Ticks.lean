import Mathlib.Algebra.BigOperators.Group.Finset.Piecewise
import Mathlib.Algebra.BigOperators.Ring.Finset
import Mathlib.Algebra.BigOperators.Group.List.Basic
import Ece357.Machine.Ghost
import Ece357.Sched.Records

/-!
# Ece357.Sched.Ticks

**Where the ticks go.** A tick is charged to whatever task is current when it arrives,
possibly one asleep or dead in an unblocked window; a forked child starts with its parent's
count; a record vanishes when it is reaped. `Posting` says what a step does to the counts.

To state that nothing is lost, an observer keeps a `Ledger`: the count each record in the
table was created with, and, for each process reaped, the counts it was created with and
left with. The ledger always balances with `tick_count` (`ledger_balances`).
-/

namespace Ece357.Sched

open Ece357.Machine Ece357.ProcTable State

variable {s s' : State}

/-! ### The account of a record -/

/-- What the dynamic priority is computed from. -/
def SchedProc.account (r : SchedProc) : Int × Int := (r.niceval, r.totalTicks)

theorem resume_account (by_ p q : Ptr) :
    ((resume s by_ p).heap q).account = (s.heap q).account :=
  resume_field SchedProc.account s (fun _ => rfl) by_ p q

theorem resume_tickCount (by_ p : Ptr) : (resume s by_ p).tickCount = s.tickCount := by
  rw [resume_eq]

/-- `sched_switch` charges nobody and keeps the slots. -/
theorem schedSwitch_accounts (s : State) : (schedSwitch s).procs = s.procs ∧
    (schedSwitch s).tickCount = s.tickCount ∧
    ∀ p, ((schedSwitch s).heap p).account = (s.heap p).account := by
  refine ⟨?_, ?_, schedSwitch_field SchedProc.account (fun _ _ _ _ => rfl) s⟩
  · rcases schedSwitch_spec s with ⟨heq, -⟩ | ⟨i, q, -, -, heq⟩
    · rw [heq]
      rfl
    · rw [heq]
      split_ifs
      · rfl
      · exact resume_procs _ _ _
  · rcases schedSwitch_spec s with ⟨heq, -⟩ | ⟨i, q, -, -, heq⟩
    · rw [heq]
      rfl
    · rw [heq]
      split_ifs
      · rfl
      · exact resume_tickCount _ _

theorem entersSwitch_niceval {u : State} {l : Label} (hu : entersSwitch s l = some u) (p : Ptr) :
    (u.heap p).niceval = (s.heap p).niceval := by
  unfold entersSwitch at hu
  split at hu
  · obtain rfl := Option.some.inj hu
    exact modify_field SchedProc.niceval s
      (f := fun r => { r with totalTicks := r.totalTicks + 1 }) (fun _ => rfl) _ p
  · split at hu
    · obtain rfl := Option.some.inj hu
      rfl
    · obtain rfl := Option.some.inj hu
      rfl
    · cases hu
  · cases hu

theorem waitRound_account (freed : SchedProc → SchedProc) (s : State) :
    (waitRound freed s).tickCount = s.tickCount ∧ ∀ p, (waitRound freed s).live p = true →
      ((waitRound freed s).heap p).account = (s.heap p).account := by
  unfold waitRound
  split
  · rename_i i z hfind
    refine ⟨rfl, fun p hlive => ?_⟩
    have hpz : p ≠ z := by
      intro hpz
      simp [free, State.log, sigUnblock, hpz] at hlive
    simp [free, State.log, sigUnblock, hpz]
  · exact ⟨rfl, fun p _ => modify_field SchedProc.account s
      (f := fun r => { r with state := .sleeping }) (fun _ => rfl) s.current p⟩

theorem schedFork_account {mem : Option (Ptr × SchedProc)} {newsp : Addr}
    (hok : allocOk s mem newsp = true) (hs : schedFork mem newsp s = some s') :
    s'.tickCount = s.tickCount ∧ ∀ p, s.live p = true → s'.heap p = s.heap p := by
  unfold schedFork at hs
  cases mem with
  | none =>
      obtain rfl := Option.some.inj hs
      exact ⟨rfl, fun p _ => rfl⟩
  | some m =>
      obtain ⟨z, content⟩ := m
      have hne : ∀ p, s.live p = true → p ≠ z := by
        intro p hlive hpz
        simp [allocOk, ← hpz, hlive] at hok
      dsimp only at hs
      split_ifs at hs <;> obtain rfl := Option.some.inj hs <;> refine ⟨rfl, fun p hlive => ?_⟩ <;>
        simp [free, malloc, savectx, State.modify, State.log, sigBlock, sigUnblock, hne p hlive]

/-- A step that does not enter `sched_switch` charges nobody; `sched_nice` sets the nice
value of its caller, within bounds. -/
theorem step_account {l : Label} (hu : entersSwitch s l = none) (hs : step s l = some s') :
    s'.tickCount = s.tickCount ∧ ∀ p, s.live p = true → s'.live p = true →
      (s'.heap p).account = (s.heap p).account ∨
        ∃ niceval, (s'.heap p).account = (clampNice niceval, (s.heap p).totalTicks) := by
  cases step_direct hu hs with
  | fork _ hok hs =>
      obtain ⟨htick, hheap⟩ := schedFork_account hok hs
      exact ⟨htick, fun p hlive _ => .inl (by rw [hheap p hlive])⟩
  | exit _ code =>
      have hexited : ∀ p, ((s.exited code).heap p).account = (s.heap p).account :=
        exited_field SchedProc.account s fun _ => rfl
      rcases schedExit_cases s code with ⟨heq, -⟩ | ⟨i, q, -, heq⟩
      · rw [heq]
        exact ⟨rfl, fun p _ _ => .inl (hexited p)⟩
      · rw [heq]
        exact ⟨resume_tickCount _ _, fun p _ _ => .inl ((resume_account _ _ _).trans (hexited p))⟩
  | wait _ freed =>
      unfold schedWait
      dsimp only
      split
      · exact ⟨rfl, fun p _ _ => .inl rfl⟩
      · obtain ⟨htick, hacc⟩ := waitRound_account freed s.sigBlock
        exact ⟨htick, fun p _ hlive => .inl (hacc p hlive)⟩
  | nice _ niceval =>
      refine ⟨rfl, fun p _ _ => ?_⟩
      by_cases hpc : p = s.current
      · subst hpc
        exact .inr ⟨niceval, by simp [schedNice, State.modify, SchedProc.account]⟩
      · exact .inl (by simp [schedNice, State.modify, hpc])
  | @waitAgain fs _ freed =>
      obtain ⟨htick, hacc⟩ := waitRound_account freed { s.sigBlock with frames := fs }
      exact ⟨htick, fun p _ hlive => .inl (hacc p hlive)⟩
  | exitReturn _ freed => exact ⟨rfl, fun p _ _ => .inl rfl⟩
  | tickReturn _ freed => exact ⟨rfl, fun p _ _ => .inl rfl⟩

/-! ### What a step posts -/

/-- What a step does to the tick counts, and to the slots they are kept in. -/
inductive Posting (s s' : State) : Prop
  /-- A tick is charged to the current task. -/
  | charge (hprocs : s'.procs = s.procs) (hcount : s'.tickCount = s.tickCount + 1)
      (hticks : ∀ p, s.InTable p → (s'.heap p).totalTicks =
        (s.heap p).totalTicks + if p = s.current then 1 else 0)
  /-- Nothing happens to the counts. -/
  | still (hprocs : s'.procs = s.procs) (hcount : s'.tickCount = s.tickCount)
      (hticks : ∀ p, s.InTable p → (s'.heap p).totalTicks = (s.heap p).totalTicks)
  /-- A record is put into a free slot, with the count of the current task. -/
  | opened {i : Nat} {z : Ptr} (hi : i < schedNproc) (hfree : s.procs i = none)
      (hprocs : s'.procs = Function.update s.procs i (some z))
      (hcount : s'.tickCount = s.tickCount)
      (hticks : ∀ p, s.InTable p → (s'.heap p).totalTicks = (s.heap p).totalTicks)
      (hnew : (s'.heap z).totalTicks = s.cur.totalTicks)
  /-- A record is taken out of its slot. -/
  | closed {i : Nat} {z : Ptr} (hi : i < schedNproc) (hz : s.procs i = some z)
      (hprocs : s'.procs = Function.update s.procs i none)
      (hcount : s'.tickCount = s.tickCount)
      (hticks : ∀ p, s'.InTable p → (s'.heap p).totalTicks = (s.heap p).totalTicks)

theorem step_posting {l : Label} (h : Sound s) (h' : Sound s') (hs : step s l = some s') :
    Posting s s' := by
  cases hu : entersSwitch s l with
  | some u =>
      obtain rfl := step_enters hu hs
      obtain ⟨hprocs, hcount, hacc⟩ := schedSwitch_accounts u
      have hticks : ∀ p, ((schedSwitch u).heap p).totalTicks = (u.heap p).totalTicks := fun p =>
        congrArg Prod.snd (hacc p)
      have huprocs := (entersSwitch_quiet hu).procs
      unfold entersSwitch at hu
      split at hu
      · obtain rfl := Option.some.inj hu
        refine .charge hprocs hcount fun p _ => (hticks p).trans ?_
        by_cases hpc : p = s.current
        · subst hpc
          simp [State.modify]
        · simp [State.modify, hpc]
      · have hsame : u.tickCount = s.tickCount ∧ u.heap = s.heap := by
          split at hu
          · obtain rfl := Option.some.inj hu
            exact ⟨rfl, rfl⟩
          · obtain rfl := Option.some.inj hu
            exact ⟨rfl, rfl⟩
          · cases hu
        refine .still (hprocs.trans huprocs) (hcount.trans hsame.1) fun p _ => ?_
        rw [hticks p, hsame.2]
      · cases hu
  | none =>
      obtain ⟨hcount, hacc⟩ := step_account hu hs
      have hticks : ∀ p, s.InTable p → s'.InTable p →
          (s'.heap p).totalTicks = (s.heap p).totalTicks := by
        intro p hp hp'
        rcases hacc p (h.base.live p hp) (h'.base.live p hp') with heq | ⟨_, heq⟩
        · exact congrArg Prod.snd heq
        · exact congrArg Prod.snd heq
      have hstill : s'.procs = s.procs → Posting s s' := fun hprocs =>
        .still hprocs hcount fun p hp => hticks p hp ((inTable_congr hprocs p).mpr hp)
      cases step_move h hu hs with
      | quiet hq => exact hstill hq.procs
      | forkFail hq => exact hstill hq.procs
      | noChild hq => exact hstill hq.procs
      | exitReturn hq => exact hstill hq.procs
      | @fork z content newsp i hcall hi hfree hlow hz =>
          refine .opened hi hfree rfl rfl (fun p hp => ?_) (by simp [forked, newRecord])
          exact hticks p hp ((forked_inTable hi hfree).mpr (.inr hp))
      | exit => exact hstill rfl
      | exitWake => exact hstill (resume_procs _ _ _)
      | @reap _ _ i z hround hi hz hparent hzombie =>
          refine .closed hi hz rfl rfl fun p hp => hticks p ?_ hp
          obtain ⟨j, hj, hp⟩ := hp
          exact ⟨j, hj, (reaped_slot.mp hp).2⟩
      | sleep => exact hstill rfl

/-! ### Bounds -/

/-- No count is negative or above `tick_count`. -/
def TicksBounded (s : State) : Prop := ∀ p, s.InTable p →
  0 ≤ (s.heap p).totalTicks ∧ (s.heap p).totalTicks ≤ s.tickCount

theorem TicksBounded.post (hc : TicksBounded s) (h : Base s) (hp : Posting s s') :
    TicksBounded s' := by
  cases hp with
  | charge hprocs hcount hticks =>
      intro p hp
      have hp := (inTable_congr hprocs p).mp hp
      have hold := hc p hp
      rw [hticks p hp, hcount]
      split_ifs <;> omega
  | still hprocs hcount hticks =>
      intro p hp
      have hp := (inTable_congr hprocs p).mp hp
      rw [hticks p hp, hcount]
      exact hc p hp
  | @opened i z hi hfree hprocs hcount hticks hnew =>
      intro p hp
      obtain ⟨j, hj, hp⟩ := hp
      rw [hprocs] at hp
      rw [hcount]
      by_cases hji : j = i
      · subst hji
        obtain rfl : z = p := by simpa using hp
        rw [hnew]
        exact hc _ h.current
      · have hpin : s.InTable p := ⟨j, hj, by simpa [hji] using hp⟩
        rw [hticks p hpin]
        exact hc p hpin
  | @closed i z hi hz hprocs hcount hticks =>
      intro p hp
      rw [hticks p hp, hcount]
      obtain ⟨j, hj, hp⟩ := hp
      rw [hprocs, Function.update_apply] at hp
      split_ifs at hp
      exact hc p ⟨j, hj, hp⟩

theorem Initial.ticks (h : Initial s) :
    s.tickCount = 0 ∧ s.cur.account = (0, 0) := by
  obtain ⟨heap, live, p, content, stack, hs⟩ := h
  unfold schedInit at hs
  dsimp only at hs
  simp only [Option.ite_none_left_eq_some, Option.some.injEq] at hs
  obtain ⟨-, rfl⟩ := hs
  exact ⟨rfl, by simp [State.modify, State.cur, malloc, SchedProc.account]⟩

/-! ### Nice values -/

/-- The nice values of the records in the table are within the bounds of `sched_nice`. -/
def NiceBounded (s : State) : Prop :=
  ∀ p, s.InTable p → -20 ≤ (s.heap p).niceval ∧ (s.heap p).niceval ≤ 19

theorem clampNice_bounds (niceval : Int) : -20 ≤ clampNice niceval ∧ clampNice niceval ≤ 19 := by
  unfold clampNice
  split_ifs <;> omega

/-- A step that goes into `sched_switch` changes no nice value. -/
theorem NiceBounded.switch {u : State} {l : Label} (h : NiceBounded s)
    (hu : entersSwitch s l = some u) : NiceBounded (schedSwitch u) := by
  intro p hp
  obtain ⟨hprocs, -, hacc⟩ := schedSwitch_accounts u
  have hnice : ((schedSwitch u).heap p).niceval = (u.heap p).niceval := congrArg Prod.fst (hacc p)
  have hpin := (inTable_congr (entersSwitch_quiet hu).procs p).mp ((inTable_congr hprocs p).mp hp)
  rw [hnice, entersSwitch_niceval hu]
  exact h p hpin

/-- A step keeps nice values within bounds: a record that was in the table keeps its value
or has it clamped, and a new one starts with 0. -/
theorem NiceBounded.step {l : Label} (h : NiceBounded s) (hplaced : Placed s)
    (hs : step s l = some s') : NiceBounded s' := by
  have hpassing := step_passing hplaced hs
  cases hu : entersSwitch s l with
  | some u =>
      obtain rfl := step_enters hu hs
      exact h.switch hu
  | none =>
      intro p hp
      rcases hpassing.inTable hplaced hp with hold | ⟨content, i, newsp, hnew⟩
      · have hlive := hplaced.live p hold
        have hlive' := (hplaced.passing hpassing).live p hp
        rcases (step_account hu hs).2 p hlive hlive' with heq | ⟨niceval, heq⟩
        · have hnice : (s'.heap p).niceval = (s.heap p).niceval := congrArg Prod.fst heq
          rw [hnice]
          exact h p hold
        · have hnice : (s'.heap p).niceval = clampNice niceval := congrArg Prod.fst heq
          rw [hnice]
          exact clampNice_bounds niceval
      · simp [hnew, newRecord]

/-- Nice values stay within bounds, in every run. -/
theorem niceval_bounds {ok : State → Label → Prop} (h : sched.Reach ok s) : NiceBounded s := by
  refine h.invariant (fun ha p hp => ?_) fun hreach ha _ hs => ha.step (placed hreach) hs
  rw [(Initial.started ha).inTable hp]
  have hzero : (State.cur _).niceval = 0 := congrArg Prod.fst (Initial.ticks ha).2
  unfold State.cur at hzero
  omega

section Runs
variable {ok : State → Label → Prop} (hself : ∀ {s l}, ok s l → SparesSelf s l)
include hself

theorem ticksBounded_of_reach (h : sched.Reach ok s) : TicksBounded s := by
  refine h.invariant (I := TicksBounded) (fun ha p hp => ?_) fun hreach ha hok hs => ?_
  · rw [(Initial.started ha).inTable hp]
    have hacc := (Initial.ticks ha).2
    have hzero : (State.cur _).totalTicks = 0 := congrArg Prod.snd hacc
    rw [(Initial.ticks ha).1]
    exact ⟨hzero.ge, hzero.le⟩
  · have hsound := Sound.of_reach hself hreach
    exact ha.post hsound.base (step_posting hsound (hsound.step (hself hok) hs) hs)

end Runs

/-! ### The ledger -/

/-- The tick counts with which processes were created and left. -/
structure Ledger where
  /-- For each slot, the count with which the record in it was created. -/
  opened : Nat → Int
  /-- For each process reaped, the counts with which it was created and reaped. -/
  closed : List (Int × Int)

namespace Ledger

/-- The count of the record in a slot. -/
def countAt (s : State) (i : Nat) : Option Int := (s.procs i).map fun p => (s.heap p).totalTicks

/-- The ledger of the process `sched_init` creates. -/
def first (s : State) : Ledger where
  opened i := (countAt s i).getD 0
  closed := []

/-- The account of slot `i`, if the record in it was taken out between `s` and `s'`. -/
def closing (L : Ledger) (s s' : State) (i : Nat) : Option (Int × Int) :=
  if s'.procs i = s.procs i then none else (countAt s i).map fun count => (L.opened i, count)

/-- What the observer enters after a step: the accounts of records taken out of the table,
and the first counts of those put into it. -/
def post (s s' : State) (L : Ledger) : Ledger where
  opened i := if s'.procs i = s.procs i then L.opened i else (countAt s' i).getD 0
  closed := (List.range schedNproc).filterMap (L.closing s s') ++ L.closed

/-- What the record in a slot was charged so far. -/
def pending (L : Ledger) (s : State) (i : Nat) : Int :=
  ((countAt s i).map fun count => count - L.opened i).getD 0

/-- What all processes ever created were charged: those in the table, and those reaped. -/
def charged (L : Ledger) (s : State) : Int :=
  ∑ i ∈ Finset.range schedNproc, L.pending s i + (L.closed.map fun a => a.2 - a.1).sum

theorem sum_filterMap_range {β : Type*} (f : Nat → Option β) (g : β → Int) (n : Nat) :
    (((List.range n).filterMap f).map g).sum = ∑ i ∈ Finset.range n, ((f i).map g).getD 0 := by
  induction n with
  | zero => rfl
  | succ n ih =>
      rw [List.range_succ, List.filterMap_append, List.map_append, List.sum_append, ih,
        Finset.sum_range_succ]
      cases hn : f n <;> simp [hn]

/-- Slot by slot, what a step posts is what it charges to the current task. -/
theorem pending_post (L : Ledger) (hp : Posting s s') {i : Nat}
    (hi : i < schedNproc) : (L.post s s').pending s' i +
      ((L.closing s s' i).map fun a => a.2 - a.1).getD 0 =
    L.pending s i + if s.procs i = some s.current then s'.tickCount - s.tickCount else 0 := by
  cases hp with
  | charge hprocs hcount hticks =>
      cases hpi : s.procs i with
      | none => simp [pending, closing, countAt, hprocs, hpi]
      | some p =>
          have hcur : p = s.current ↔ some p = some s.current := by simp
          simp only [pending, post, closing, countAt, hprocs, hpi, if_true, Option.map_some,
            Option.getD_some, Option.map_none, Option.getD_none, hticks p ⟨i, hi, hpi⟩, hcount,
            ← hcur]
          split_ifs <;> omega
  | still hprocs hcount hticks =>
      cases hpi : s.procs i with
      | none => simp [pending, closing, countAt, hprocs, hpi]
      | some p => simp [pending, post, closing, countAt, hprocs, hpi, hticks p ⟨i, hi, hpi⟩, hcount]
  | @opened j z hj hfree hprocs hcount hticks hnew =>
      by_cases hij : i = j
      · subst hij
        simp [pending, post, closing, countAt, hprocs, hfree]
      · cases hpi : s.procs i with
        | none => simp [pending, closing, countAt, hprocs, hij, hpi]
        | some p =>
            simp [pending, post, closing, countAt, hprocs, hij, hpi, hticks p ⟨i, hi, hpi⟩, hcount]
  | @closed j z hj hz hprocs hcount hticks =>
      by_cases hij : i = j
      · subst hij
        simp [pending, post, closing, countAt, hprocs, hz, hcount]
      · cases hpi : s.procs i with
        | none => simp [pending, closing, countAt, hprocs, hij, hpi]
        | some p =>
            have hp' : s'.InTable p := ⟨i, hi, by simp [hprocs, hij, hpi]⟩
            simp [pending, post, closing, countAt, hprocs, hij, hpi, hticks p hp', hcount]

/-- The current task is in exactly one slot, so a step's charge is posted once. -/
theorem charged_post (L : Ledger) (h : Base s) (hp : Posting s s') :
    (L.post s s').charged s' = L.charged s + (s'.tickCount - s.tickCount) := by
  obtain ⟨c, hc, hcur⟩ := h.current
  have hslot : ∀ i ∈ Finset.range schedNproc,
      (if s.procs i = some s.current then s'.tickCount - s.tickCount else 0) =
        if i = c then s'.tickCount - s.tickCount else 0 := by
    intro i hi
    refine if_congr ⟨fun hi' => ?_, fun hi' => hi' ▸ hcur⟩ rfl rfl
    exact h.slot_inj (Finset.mem_range.mp hi) hc hi' hcur
  have hposted : ∑ i ∈ Finset.range schedNproc, ((L.post s s').pending s' i +
      ((L.closing s s' i).map fun a => a.2 - a.1).getD 0) =
      ∑ i ∈ Finset.range schedNproc, (L.pending s i +
        if s.procs i = some s.current then s'.tickCount - s.tickCount else 0) :=
    Finset.sum_congr rfl fun i hi => L.pending_post hp (Finset.mem_range.mp hi)
  rw [Finset.sum_add_distrib, Finset.sum_add_distrib, Finset.sum_congr rfl hslot,
    Finset.sum_ite_eq' (Finset.range schedNproc) c, if_pos (Finset.mem_range.mpr hc),
    ← sum_filterMap_range] at hposted
  have hclosed : (L.post s s').closed =
      (List.range schedNproc).filterMap (L.closing s s') ++ L.closed := rfl
  unfold charged
  rw [hclosed, List.map_append, List.sum_append]
  omega

theorem charged_first (s : State) : (first s).charged s = 0 := by
  have hzero : ∀ i, (first s).pending s i = 0 := by
    intro i
    unfold pending first
    dsimp only
    cases countAt s i <;> simp
  have hnil : (first s).closed = [] := rfl
  unfold charged
  rw [hnil, Finset.sum_congr rfl fun i _ => hzero i]
  simp

end Ledger

/-- The scheduler with the ledger beside it. -/
def ledgered : System (State × Ledger) Label := sched.observed Ledger.first Ledger.post

/-- **Tick accounting is exact.** What all processes ever created were charged adds up to
`tick_count`, and no record in the table counts less than 0 or more than `tick_count`. -/
theorem ledger_balances {L : Ledger} (h : ledgered.Reach (System.beside Disciplined) (s, L)) :
    L.charged s = s.tickCount ∧
      ∀ p, s.InTable p → 0 ≤ (s.heap p).totalTicks ∧ (s.heap p).totalTicks ≤ s.tickCount := by
  refine ⟨?_, ticksBounded_of_reach Disciplined.sparesSelf h.forget⟩
  refine h.watched (I := fun a L => L.charged a = a.tickCount) (fun ha => ?_) ?_
  · rw [Ledger.charged_first, (Initial.ticks ha).1]
  · intro a l b L hreach ha hok hs
    have hsound := Sound.of_reach Disciplined.sparesSelf hreach
    have hsound' := hsound.step hok.sparesSelf hs
    rw [L.charged_post hsound.base (step_posting hsound hsound' hs), ha]
    omega

/-- One tick for the initial process, one for its child, which is then reaped. -/
theorem ledger_balances_reaped : ∃ s L, s.tickCount = 2 ∧ s.procs 1 = none ∧
    Ledger.charged L s = 2 ∧
      ∀ p, s.InTable p → 0 ≤ (s.heap p).totalTicks ∧ (s.heap p).totalTicks ≤ 2 := by
  have hrun : ∃ s, sched.Reach Disciplined s ∧ (s.tickCount = 2 && s.procs 1 = none) = true :=
    start_reach _ (fun s l => decide (Disciplined s l))
      [.fork (some (101, blank)) 65536, .tick, .go id, .wait id, .go id, .tick, .go id, .exit 7,
        .go id]
      _ (fun _ _ _ => of_decide_eq_true) (by decide +kernel)
  obtain ⟨s, hreach, hs⟩ := hrun
  rw [Bool.and_eq_true, decide_eq_true_eq, decide_eq_true_eq] at hs
  obtain ⟨L, hL⟩ : ∃ L, ledgered.Reach (System.beside Disciplined) (s, L) := hreach.observe
  obtain ⟨hsum, hbounds⟩ := ledger_balances hL
  rw [hs.1] at hsum hbounds
  exact ⟨s, L, hs.1, hs.2, hsum, hbounds⟩

end Ece357.Sched
