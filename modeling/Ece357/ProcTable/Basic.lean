import Mathlib.Logic.Function.Basic
import Mathlib.Tactic.SplitIfs
import Ece357.Machine.Run

/-!
# Ece357.ProcTable.Basic

**A process table with parent numbers**, for any type of process numbers. This is
what `fork`, `exit` and `wait` are about, with nothing of how a scheduler stores
or chooses: a process is a number with an entry; its parent is a *number*, which
need not be in use any more; one process is current.

`Step` lists what can happen to such a table, each step with the guard under
which it happens. `Wf` is what every step keeps: only the current process is
RUNNING, no process sleeps on a zombie child (no lost wake-up), and whoever waits
has somebody to wait for.
-/

namespace Ece357.ProcTable

open Ece357.Machine

/-- The state of a process record. -/
inductive Status
  | ready
  | running
  | sleeping
  | zombie
  deriving DecidableEq, Repr

/-- A table entry: the parent's number, the state, and whether the process is
inside a wait that found it a child. -/
structure Entry (K : Type*) where
  parent : K
  status : Status
  waiting : Bool

/-- A process table. -/
structure Table (K : Type*) where
  entry : K → Option (Entry K)
  cur : K

namespace Table

variable {K : Type*}

/-- `q` is in the table and names `p` as its parent. -/
def Child (t : Table K) (p q : K) : Prop := ∃ e, t.entry q = some e ∧ e.parent = p

/-- The state a process leaves the processor in: still asleep or dead, else ready. -/
def leave : Status → Status
  | .sleeping => .sleeping
  | .zombie => .zombie
  | _ => .ready

theorem leave_ne_running (st : Status) : leave st ≠ .running := by cases st <;> simp [leave]

variable [DecidableEq K]

/-- Replace one entry. -/
def set (t : Table K) (k : K) (e : Entry K) : Table K :=
  { t with entry := Function.update t.entry k (some e) }

/-- Take the process `q` out of the table; the current process stops waiting. -/
def reaped (t : Table K) (e : Entry K) (q : K) : Table K :=
  { t with entry :=
      Function.update (Function.update t.entry t.cur (some { e with waiting := false })) q none }

/-- The kinds of steps, for conditions on them. -/
inductive Act (K : Type*)
  | fork (k : K)
  | sleep
  | reap (k : K)
  | exit
  | switch

/-- What can happen to a process table; `e` is always the current process's entry. -/
inductive Step (t : Table K) : Act K → Table K → Prop
  /-- The current process creates a process with an unused number. -/
  | fork {k : K} (hfree : t.entry k = none) :
      Step t (.fork k) (t.set k ⟨t.cur, .ready, false⟩)
  /-- The current process, which has a child and no zombie child, goes to sleep. -/
  | sleep {e : Entry K} (he : t.entry t.cur = some e) (halive : e.status ≠ .zombie)
      (hchild : e.waiting = true ∨ ∃ q, t.Child t.cur q)
      (hquiet : ∀ q eq, t.entry q = some eq → eq.parent = t.cur → eq.status ≠ .zombie) :
      Step t .sleep (t.set t.cur { e with status := .sleeping, waiting := true })
  /-- The current process removes a zombie child and stops waiting. -/
  | reap {e eq : Entry K} {q : K} (he : t.entry t.cur = some e) (hne : q ≠ t.cur)
      (hq : t.entry q = some eq) (hparent : eq.parent = t.cur) (hzombie : eq.status = .zombie) :
      Step t (.reap q) (t.reaped e q)
  /-- The current process exits and its parent is not asleep. -/
  | exit {e : Entry K} (he : t.entry t.cur = some e)
      (hawake : ∀ ep, t.entry e.parent = some ep → e.parent ≠ t.cur → ep.status ≠ .sleeping) :
      Step t .exit (t.set t.cur { e with status := .zombie, waiting := false })
  /-- The current process exits and hands over to its sleeping parent. -/
  | exitWake {e ep : Entry K} (he : t.entry t.cur = some e) (hne : e.parent ≠ t.cur)
      (hp : t.entry e.parent = some ep) (hasleep : ep.status = .sleeping) :
      Step t .exit { (t.set t.cur { e with status := .zombie, waiting := false }).set e.parent
        { ep with status := .running } with cur := e.parent }
  /-- The current process gives up its turn and keeps the processor. -/
  | keep {e : Entry K} (he : t.entry t.cur = some e) :
      Step t .switch (t.set t.cur { e with status := leave e.status })
  /-- The processor goes from the current process to another one that is ready. -/
  | dispatch {e eq : Entry K} {q : K} (he : t.entry t.cur = some e) (hne : q ≠ t.cur)
      (hq : t.entry q = some eq) (hready : eq.status = .ready) :
      Step t .switch { (t.set t.cur { e with status := leave e.status }).set q
        { eq with status := .running } with cur := q }

/-- Process tables over time, starting from the one process that is its own parent. -/
def machine (root : K) : System (Table K) (Act K) where
  Init t := t = ⟨Function.update (fun _ => none) root (some ⟨root, .running, false⟩), root⟩
  Step t a t' := t.Step a t'

/-- What every step keeps. -/
structure Wf (t : Table K) : Prop where
  /-- The current process is in the table. -/
  cur_mem : ∃ e, t.entry t.cur = some e
  /-- Nobody else is RUNNING. -/
  running : ∀ p e, t.entry p = some e → e.status = .running → p = t.cur
  /-- Nobody sleeps on a zombie child. -/
  heard : ∀ p e, t.entry p = some e → e.status = .sleeping →
    ∀ q eq, t.entry q = some eq → eq.parent = p → eq.status ≠ .zombie
  /-- Whoever waits has a child in the table. -/
  waits : ∀ p e, t.entry p = some e → e.waiting = true → ∃ q, t.Child p q
  /-- Whoever sleeps waits. -/
  sleeps : ∀ p e, t.entry p = some e → e.status = .sleeping → e.waiting = true

theorem set_entry (t : Table K) (k q : K) (e : Entry K) :
    (t.set k e).entry q = if q = k then some e else t.entry q := by
  simp [set, Function.update_apply]

theorem reaped_entry (t : Table K) (e : Entry K) (q p : K) : (t.reaped e q).entry p =
    if p = q then none else if p = t.cur then some { e with waiting := false }
    else t.entry p := by
  simp [reaped, Function.update_apply]

/-- Replacing an entry by one with the same parent leaves the child relation alone. -/
theorem child_set {t : Table K} {k : K} {e e' : Entry K} (he : t.entry k = some e)
    (hparent : e'.parent = e.parent) (p q : K) : (t.set k e').Child p q ↔ t.Child p q := by
  unfold Child
  rw [set_entry]
  by_cases hq : q = k
  · subst hq
    simp [he, hparent]
  · rw [if_neg hq]

variable {t t' : Table K}

/-! ### Every step keeps the table well formed -/

theorem Wf.fork (h : t.Wf) {k : K} (hfree : t.entry k = none) :
    (t.set k ⟨t.cur, .ready, false⟩).Wf := by
  have hgrow : ∀ p q, t.Child p q → (t.set k ⟨t.cur, .ready, false⟩).Child p q := by
    intro p q hchild
    obtain ⟨e, he, hp⟩ := hchild
    have hq : q ≠ k := by intro hqk; rw [hqk, hfree] at he; cases he
    exact ⟨e, by rw [set_entry, if_neg hq]; exact he, hp⟩
  refine ⟨?_, fun p e he hst => ?_, fun p e he hst q eq hq hpar => ?_, fun p e he hw => ?_,
    fun p e he hst => ?_⟩
  · obtain ⟨e, he⟩ := h.cur_mem
    have hne : t.cur ≠ k := by intro hk; rw [hk, hfree] at he; cases he
    exact ⟨e, by show (t.set k _).entry t.cur = _; rw [set_entry, if_neg hne]; exact he⟩
  all_goals rw [set_entry] at he; split_ifs at he with hp
  · obtain rfl := Option.some.inj he; cases hst
  · exact h.running p e he hst
  · obtain rfl := Option.some.inj he; cases hst
  · rw [set_entry] at hq
    split_ifs at hq
    · obtain rfl := Option.some.inj hq; simp
    · exact h.heard p e he hst q eq hq hpar
  · obtain rfl := Option.some.inj he; cases hw
  · obtain ⟨q, hq⟩ := h.waits p e he hw
    exact ⟨q, hgrow p q hq⟩
  · obtain rfl := Option.some.inj he; cases hst
  · exact h.sleeps p e he hst

/-- Replacing the current process's entry. -/
theorem Wf.set_cur (h : t.Wf) {e e' : Entry K} (he : t.entry t.cur = some e)
    (hparent : e'.parent = e.parent)
    (hdead : e'.status = .zombie → e.status = .zombie ∨
      ∀ p ep, t.entry p = some ep → p ≠ t.cur → e.parent = p → ep.status ≠ .sleeping)
    (hasleep : e'.status = .sleeping → e'.waiting = true ∧
      ∀ q eq, t.entry q = some eq → eq.parent = t.cur → eq.status ≠ .zombie)
    (hwaits : e'.waiting = true → ∃ q, t.Child t.cur q) : (t.set t.cur e').Wf := by
  refine ⟨⟨e', by show (t.set t.cur e').entry t.cur = _; rw [set_entry, if_pos rfl]⟩,
    fun p f hf hst => ?_, fun p f hf hst q eq hq hpar hz => ?_, fun p f hf hw => ?_,
    fun p f hf hst => ?_⟩
  all_goals rw [set_entry] at hf; split_ifs at hf with hp
  · exact hp
  · exact h.running p f hf hst
  · obtain rfl := Option.some.inj hf
    rw [set_entry] at hq
    split_ifs at hq
    · obtain rfl := Option.some.inj hq
      rw [hst] at hz; cases hz
    · exact (hasleep hst).2 q eq hq (hpar.trans hp) hz
  · rw [set_entry] at hq
    split_ifs at hq with hqc
    · obtain rfl := Option.some.inj hq
      rcases hdead hz with hold | hawake
      · exact h.heard p f hf hst q e (hqc ▸ he) (hparent ▸ hpar) hold
      · exact hawake p f hf hp (hparent ▸ hpar) hst
    · exact h.heard p f hf hst q eq hq hpar hz
  · obtain rfl := Option.some.inj hf
    obtain ⟨q, hq⟩ := hwaits hw
    exact ⟨q, (child_set he hparent p q).mpr (hp ▸ hq)⟩
  · obtain ⟨q, hq⟩ := h.waits p f hf hw
    exact ⟨q, (child_set he hparent p q).mpr hq⟩
  · obtain rfl := Option.some.inj hf
    exact (hasleep hst).1
  · exact h.sleeps p f hf hst

/-- Removing a zombie child of the current process. -/
theorem Wf.reap (h : t.Wf) {e eq : Entry K} {q : K} (he : t.entry t.cur = some e)
    (hne : q ≠ t.cur) (hq : t.entry q = some eq) (hparent : eq.parent = t.cur)
    (hzombie : eq.status = .zombie) :
    (t.reaped e q).Wf := by
  -- Nobody but the current process can be waiting for, or asleep on, the child removed.
  have hawake : e.status ≠ .sleeping := fun hst => h.heard _ e he hst q eq hq hparent hzombie
  have hlook : ∀ p f, (t.reaped e q).entry p = some f →
      (p = t.cur ∧ f = { e with waiting := false }) ∨ (p ≠ t.cur ∧ p ≠ q ∧ t.entry p = some f) := by
    intro p f hf
    rw [reaped_entry] at hf
    split_ifs at hf with hpq hpc
    · exact .inl ⟨hpc, (Option.some.inj hf).symm⟩
    · exact .inr ⟨hpc, hpq, hf⟩
  refine ⟨⟨{ e with waiting := false }, by rw [reaped_entry]; simp [reaped, hne.symm]⟩,
    fun p f hf hst => ?_, fun p f hf hst r er hr hpar hz => ?_, fun p f hf hw => ?_,
    fun p f hf hst => ?_⟩
  all_goals rcases hlook p f hf with ⟨rfl, rfl⟩ | ⟨hpc, hpq, hfold⟩
  · rfl
  · exact h.running p f hfold hst
  · exact hawake hst
  · rcases hlook r er hr with ⟨rfl, rfl⟩ | ⟨-, -, hrold⟩
    · exact h.heard p f hfold hst _ e he hpar hz
    · exact h.heard p f hfold hst r er hrold hpar hz
  · cases hw
  · obtain ⟨r, er, hr, hrp⟩ := h.waits p f hfold hw
    by_cases hrq : r = q
    · subst hrq
      rw [hq] at hr
      obtain rfl := Option.some.inj hr
      exact absurd (hrp.symm.trans hparent) hpc
    · by_cases hrc : r = t.cur
      · subst hrc
        rw [he] at hr
        obtain rfl := Option.some.inj hr
        exact ⟨t.cur, { e with waiting := false }, by rw [reaped_entry]; simp [hrq], hrp⟩
      · exact ⟨r, er, by rw [reaped_entry]; simp [hrq, hrc, hr], hrp⟩
  · exact absurd hst hawake
  · exact h.sleeps p f hfold hst

/-- Handing the processor to another process, which becomes RUNNING. -/
theorem Wf.hand_over (h : t.Wf) {e e' eq : Entry K} {q : K} (he : t.entry t.cur = some e)
    (hne : q ≠ t.cur) (hq : t.entry q = some eq) (hparent : e'.parent = e.parent)
    (hstop : e'.status ≠ .running)
    (hdead : e'.status = .zombie → e.status = .zombie ∨ e.parent = q)
    (hasleep : e'.status = .sleeping → e.status = .sleeping ∧ e'.waiting = e.waiting)
    (hwaits : e'.waiting = true → e.waiting = true) :
    Wf { (t.set t.cur e').set q { eq with status := .running } with cur := q } := by
  have hq' : (t.set t.cur e').entry q = some eq := by rw [set_entry, if_neg hne]; exact hq
  have hsame : ({ eq with status := .running } : Entry K).parent = eq.parent := rfl
  have hchild : ∀ p r, t.Child p r →
      ((t.set t.cur e').set q { eq with status := .running }).Child p r := fun p r hr =>
    (child_set hq' hsame p r).mpr ((child_set he hparent p r).mpr hr)
  have hlook : ∀ p f, ((t.set t.cur e').set q { eq with status := .running }).entry p = some f →
      (p = q ∧ f = { eq with status := .running }) ∨ (p = t.cur ∧ f = e') ∨
        (p ≠ q ∧ p ≠ t.cur ∧ t.entry p = some f) := by
    intro p f hf
    rw [set_entry, set_entry] at hf
    split_ifs at hf with hpq hpc
    · exact .inl ⟨hpq, (Option.some.inj hf).symm⟩
    · exact .inr (.inl ⟨hpc, (Option.some.inj hf).symm⟩)
    · exact .inr (.inr ⟨hpq, hpc, hf⟩)
  -- A sleeper of the new table slept in the old one, a zombie was one or has just exited.
  have hslept : ∀ p f, ((t.set t.cur e').set q { eq with status := .running }).entry p = some f →
      f.status = .sleeping → p ≠ q ∧ ∃ f', t.entry p = some f' ∧ f'.status = .sleeping ∧
        f.waiting = f'.waiting := by
    intro p f hf hst
    rcases hlook p f hf with ⟨-, rfl⟩ | ⟨rfl, rfl⟩ | ⟨hpq, -, hold⟩
    · cases hst
    · exact ⟨hne.symm, e, he, hasleep hst⟩
    · exact ⟨hpq, f, hold, hst, rfl⟩
  refine ⟨⟨{ eq with status := .running }, ?_⟩, fun p f hf hst => ?_,
    fun p f hf hst r er hr hpar hz => ?_, fun p f hf hw => ?_, fun p f hf hst => ?_⟩
  · show ((t.set t.cur e').set q _).entry q = _
    rw [set_entry, if_pos rfl]
  · rcases hlook p f hf with ⟨rfl, -⟩ | ⟨-, rfl⟩ | ⟨-, hpc, hold⟩
    · rfl
    · exact absurd hst hstop
    · exact absurd (h.running p f hold hst) hpc
  · obtain ⟨hpq, f', hold, hst', -⟩ := hslept p f hf hst
    rcases hlook r er hr with ⟨-, rfl⟩ | ⟨rfl, rfl⟩ | ⟨-, -, hrold⟩
    · cases hz
    · rcases hdead hz with hzold | hto
      · exact h.heard p f' hold hst' _ e he (hparent ▸ hpar) hzold
      · exact hpq (hpar.symm.trans (hparent.trans hto))
    · exact h.heard p f' hold hst' r er hrold hpar hz
  · have hwold : ∃ f', t.entry p = some f' ∧ f'.waiting = true := by
      rcases hlook p f hf with ⟨rfl, rfl⟩ | ⟨rfl, rfl⟩ | ⟨-, -, hold⟩
      · exact ⟨eq, hq, hw⟩
      · exact ⟨e, he, hwaits hw⟩
      · exact ⟨f, hold, hw⟩
    obtain ⟨f', hold, hw'⟩ := hwold
    obtain ⟨r, hr⟩ := h.waits p f' hold hw'
    exact ⟨r, hchild p r hr⟩
  · obtain ⟨-, f', hold, hst', hweq⟩ := hslept p f hf hst
    rw [hweq]
    exact h.sleeps p f' hold hst'

theorem leave_sleeping {st : Status} (h : leave st = .sleeping) : st = .sleeping := by
  cases st <;> simp_all [leave]

theorem leave_zombie {st : Status} (h : leave st = .zombie) : st = .zombie := by
  cases st <;> simp_all [leave]

/-- **The invariant rule of process tables.** -/
theorem Wf.step (h : t.Wf) {a : Act K} (hs : t.Step a t') : t'.Wf := by
  cases hs with
  | fork hfree => exact h.fork hfree
  | @sleep e he halive hchild hquiet =>
      refine h.set_cur he rfl (fun hz => by cases hz) (fun _ => ⟨rfl, hquiet⟩) fun _ => ?_
      rcases hchild with hw | hchild
      · exact h.waits _ e he hw
      · exact hchild
  | reap he hne hq hparent hzombie => exact h.reap he hne hq hparent hzombie
  | exit he hawake =>
      refine h.set_cur he rfl (fun _ => .inr ?_) (fun hst => by cases hst) fun hw => by cases hw
      intro p ep hp hpc hparent
      subst hparent
      exact hawake ep hp hpc
  | exitWake he hne hp hasleep =>
      exact h.hand_over he hne hp rfl (by simp) (fun _ => .inr rfl) (fun hst => by cases hst)
        fun hw => by cases hw
  | @keep e he =>
      refine h.set_cur he rfl (fun hz => .inl (leave_zombie hz)) (fun hst => ?_) fun hw => ?_
      · have hold := leave_sleeping hst
        exact ⟨h.sleeps _ e he hold, h.heard _ e he hold⟩
      · exact h.waits _ e he hw
  | dispatch he hne hq hready =>
      exact h.hand_over he hne hq rfl (leave_ne_running _) (fun hz => .inl (leave_zombie hz))
        (fun hst => ⟨leave_sleeping hst, rfl⟩) id

theorem Wf.init (root : K) :
    Wf ⟨Function.update (fun _ => none) root (some ⟨root, .running, false⟩), root⟩ := by
  have hlook : ∀ p f, Function.update (fun _ => none) root
      (some (⟨root, .running, false⟩ : Entry K)) p = some f →
      p = root ∧ f = ⟨root, .running, false⟩ := by
    intro p f hf
    rw [Function.update_apply] at hf
    split_ifs at hf with hp
    exact ⟨hp, (Option.some.inj hf).symm⟩
  refine ⟨⟨⟨root, .running, false⟩, by simp⟩, fun p f hf _ => (hlook p f hf).1,
    fun p f hf hst => ?_, fun p f hf hw => ?_, fun p f hf hst => ?_⟩
  · obtain ⟨-, rfl⟩ := hlook p f hf
    cases hst
  · obtain ⟨-, rfl⟩ := hlook p f hf
    cases hw
  · obtain ⟨-, rfl⟩ := hlook p f hf
    cases hst

theorem Wf.reach {root : K} {ok : Table K → Act K → Prop} (h : (machine root).Reach ok t) :
    t.Wf :=
  h.invariant (fun ha => ha ▸ Wf.init root) fun _ ha _ hs => ha.step hs

end Table

end Ece357.ProcTable
