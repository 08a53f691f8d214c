import Ece357.Machine.Permits
import Ece357.Semaphore.Exclusion

/-!
# Ece357.Semaphore.Atomic

**The operations take effect at once.** Seen from outside, a semaphore is its count and what each
process has called of it (`State.permits`), and every step is nothing, or one step of the atomic
semaphore by the same process (`refines_permits`): a `sem_try` or `sem_wait` takes its permit with
the store of the count, a `sem_try` finds none with the load, and a `sem_inc` gives one back with
the store. What `sem_try` then returns, from a second load of the count, is left out (`TryResult`).
So whatever holds of the atomic semaphore in all its runs holds of this one: processes that call
`sem_wait` before they go inside, and `sem_inc` when they leave, are never more inside than the
count at the start (`inside_bounded`).
-/

namespace Ece357.Semaphore

open Ece357.Machine

variable {P : Type} {c : Config P} {p : P} {m : Sem} {l : Local} {o : Outcome}

/-! ### Seen from outside -/

def Op.request : Op → Request
  | .semTry => .attempt
  | .semWait => .acquire
  | .semInc => .release

/-- What the process has called, and whether that has taken effect. -/
def Pc.phase : Pc → Phase
  | .idle => .outside
  | .tryTas | .tryTest | .tryLoad | .tryStore _ => .pending .attempt
  | .tryUnlock took | .tryRet took | .tryDone took _ => .answered .attempt took
  | .waitUnlock => .answered .acquire true
  | .incTas | .incLoad | .incStore _ => .pending .release
  | .incScan _ | .incKill _ | .incSend _ _ | .incUnlock => .answered .release false
  | _ => .pending .acquire

def State.permits (s : State P) : Permits P := ⟨s.sem.count, fun p => (s.loc p).pc.phase⟩

/-- What a step can be: a call is that call, and an instruction is an effect or a return. -/
def Label.Matches : Label P → Permits.Act P → Prop
  | .call p op, a => a = .call p op.request
  | .exec p, a => a = .effect p ∨ a = .ret p
  | .deliver _, _ => False

theorem Op.entry_phase (op : Op) : op.entry.phase = .pending op.request := by
  cases op <;> rfl

theorem deliver_phase (l : Local) : l.deliver.pc.phase = l.pc.phase := by
  unfold Local.deliver
  split_ifs with _ hpc
  · rw [hpc]
    rfl
  · rfl
  · rfl

/-! ### One instruction -/

/-- An instruction takes no effect, or all the effect of its operation, or returns. -/
theorem instr_phase (h : instr c p m l = some o) (hk : l.pc.Knows m.count) :
    (o.sem.count = m.count ∧ o.loc.pc.phase = l.pc.phase) ∨
    (l.pc.phase = .pending .attempt ∧ 0 < m.count ∧ o.sem.count = m.count - 1 ∧
      o.loc.pc.phase = .answered .attempt true) ∨
    (l.pc.phase = .pending .attempt ∧ m.count = 0 ∧ o.sem.count = m.count ∧
      o.loc.pc.phase = .answered .attempt false) ∨
    (l.pc.phase = .pending .acquire ∧ 0 < m.count ∧ o.sem.count = m.count - 1 ∧
      o.loc.pc.phase = .answered .acquire true) ∨
    (l.pc.phase = .pending .release ∧ o.sem.count = m.count + 1 ∧
      o.loc.pc.phase = .answered .release false) ∨
    ∃ r took, l.pc.phase = .answered r took ∧ o.sem.count = m.count ∧
      o.loc.pc.phase = .outside := by
  cases hpc : l.pc <;> simp only [instr, hpc, reduceCtorEq, Option.some.injEq] at h <;> subst h <;>
    simp only [hpc, Pc.Knows] at hk
  case tryTas | waitTas | incTas => by_cases hm : m.lock = 0 <;> simp [spin_pc, hm, hpc, Pc.phase]
  case tryTest =>
    by_cases hzero : m.count = 0
    · simp [hzero, Pc.phase]
    · simp [hzero, Pc.phase]
  case waitTest | incScan => split_ifs <;> simp [Pc.phase]
  case tryStore v | waitStore v => simp [Pc.phase, hk.1, hk.2]
  case incStore v => simp [Pc.phase, hk]
  all_goals simp [Pc.phase]

/-! ### One step -/

section Step
variable [DecidableEq P] {s s' : State P} {lbl : Label P} {count : Int}

/-- One process goes over to another control point, and the count may change. -/
theorem permits_move {ph : Phase} (hloc : ∀ q, (s'.loc q).pc.phase =
    if q = p then ph else (s.loc q).pc.phase) :
    s'.permits = s.permits.move p s'.sem.count ph := by
  unfold State.permits Permits.move
  congr 1
  funext q
  rw [hloc, Function.update_apply]

/-- The instructions of a process are those steps of the atomic semaphore. -/
theorem exec_permits (hi : Counted count s) (ho : instr c p s.sem (s.loc p) = some o) :
    (s.install c p o).permits = s.permits ∨
      ∃ a, (Label.exec p).Matches a ∧
        Permits.step s.permits a = some (s.install c p o).permits := by
  have hmove : (s.install c p o).permits = s.permits.move p o.sem.count o.loc.pc.phase :=
    permits_move fun q => by rw [install_pc]; split_ifs <;> rfl
  rw [hmove]
  obtain ⟨hcount, hph⟩ | ⟨hph, hpos, hcount, hph'⟩ | ⟨hph, hzero, hcount, hph'⟩ |
    ⟨hph, hpos, hcount, hph'⟩ | ⟨hph, hcount, hph'⟩ | ⟨r, took, hph, hcount, hph'⟩ :=
    instr_phase ho (hi.knows p)
  · left
    rw [hcount, hph]
    exact s.permits.move_self p
  · exact .inr ⟨.effect p, .inl rfl, by simp [Permits.step, State.permits, hph, hpos, hcount, hph']⟩
  · exact .inr ⟨.effect p, .inl rfl,
      by simp [Permits.step, State.permits, hph, hzero, hcount, hph']⟩
  · exact .inr ⟨.effect p, .inl rfl, by simp [Permits.step, State.permits, hph, hpos, hcount, hph']⟩
  · exact .inr ⟨.effect p, .inl rfl, by simp [Permits.step, State.permits, hph, hcount, hph']⟩
  · exact .inr ⟨.ret p, .inr rfl, by simp [Permits.step, State.permits, hph, hcount, hph']⟩

/-- **One step is nothing, or one step of the atomic semaphore.** -/
theorem step_permits (hi : Counted count s) (h : step c s lbl = some s') :
    s'.permits = s.permits ∨
      ∃ a, lbl.Matches a ∧ Permits.step s.permits a = some s'.permits := by
  cases lbl with
  | call p op =>
      simp only [step, Option.ite_none_right_eq_some, Option.some.injEq] at h
      obtain ⟨⟨-, hidle⟩, hs'⟩ := h
      have hmove : s'.permits = s.permits.move p s'.sem.count (.pending op.request) :=
        permits_move fun q => by
          rw [← hs']
          by_cases hq : q = p <;> simp [hq, Op.entry_phase]
      refine .inr ⟨.call p op.request, rfl, ?_⟩
      rw [hmove, ← hs']
      simp [Permits.step, State.permits, hidle, Pc.phase]
  | exec p =>
      simp only [step, Option.ite_none_right_eq_some, Option.map_eq_some_iff] at h
      obtain ⟨-, o, ho, rfl⟩ := h
      exact exec_permits hi ho
  | deliver p =>
      simp only [step, Option.ite_none_right_eq_some, Option.some.injEq] at h
      obtain ⟨-, hs'⟩ := h
      have hmove : s'.permits = s.permits.move p s'.sem.count (s.loc p).pc.phase :=
        permits_move fun q => by
          rw [← hs']
          by_cases hq : q = p <;> simp [hq, deliver_phase]
      left
      rw [hmove, ← hs']
      exact s.permits.move_self p

omit [DecidableEq P] in
theorem initial_permits (h : Initial count s) :
    s.permits.free = count ∧ ∀ p, s.permits.phase p = .outside := by
  obtain ⟨m, hm⟩ := h.sem
  exact ⟨by rw [State.permits, hm]; rfl, fun p => congrArg Pc.phase (h.idle p)⟩

/-- **The operations take effect at once.** For any processes and any interleaving of their
instructions: what is seen from outside is a run of the atomic semaphore, in which every step of
a process is nothing, or one step of that process. The value that `sem_try` returns is not seen. -/
theorem refines_permits (c : Config P) (count : Int) (hc : 0 ≤ count) (s : State P)
    (h : (system c count fun _ => True).Reach System.any s) :
    (Permits.machine P count).Reach System.any s.permits ∧
      ∀ lbl s', step c s lbl = some s' → s'.permits = s.permits ∨
        ∃ a, lbl.Matches a ∧ Permits.step s.permits a = some s'.permits := by
  refine ⟨?_, fun lbl s' hst => step_permits (.reach hc h) hst⟩
  refine h.simulate State.permits (fun ha => initial_permits ha.1) ?_
  intro a lbl b hreach _ hst
  rcases step_permits (.reach hc hreach) hst with hsame | ⟨act, -, hact⟩
  · rw [hsame]
    exact .refl
  · exact .single ⟨act, trivial, hact⟩

/-- A count that one process has acquired and the other is about to increment again. -/
theorem refines_permits_acquired : ∃ s : State Bool, s.permits.phase false = .outside ∧
    s.permits.phase true = .answered .release false ∧
    (Permits.machine Bool 1).Reach System.any s.permits := by
  obtain ⟨s, hreach, hfirst, hsecond⟩ := pair_reach 1 false (fun _ => True) System.any trivial
    acquireRun (fun s => s.permits.phase false = .outside ∧
      s.permits.phase true = .answered .release false) (by decide +kernel)
  exact ⟨s, hfirst, hsecond, (refines_permits pair 1 (by decide) s hreach).1⟩

/-! ### Going inside with a permit -/

/-- Who is inside: a process goes inside when its `sem_wait` returns, and leaves when it calls
`sem_inc`. -/
def inside (s s' : State P) (inside : P → Bool) : P → Bool :=
  Permits.goInside s.permits s'.permits inside

/-- The semaphore with an observer of who is inside. -/
def clients (c : Config P) (count : Int) : System (State P × (P → Bool)) (Label P) :=
  (system c count fun _ => True).observed (fun _ _ => false) inside

/-- Every process calls `sem_wait` before it goes inside and `sem_inc` when it leaves. -/
def Brackets (x : State P × (P → Bool)) : Label P → Prop
  | .call _ .semTry => False
  | .call p .semWait => x.2 p = false
  | .call p .semInc => x.2 p = true
  | _ => True

theorem brackets_step {x y : State P × (P → Bool)} (hi : Counted count x.1)
    (hok : Brackets x lbl) (h : (clients c count).Step x lbl y) :
    (Permits.clients P count).Run Permits.Brackets (x.1.permits, x.2) (y.1.permits, y.2) := by
  obtain ⟨hst, hinside⟩ := h
  rcases step_permits hi hst with hsame | ⟨a, hmatch, hact⟩
  · have hstay : y.2 = x.2 := by
      rw [hinside]
      funext p
      exact Permits.goInside_same (congrArg (·.phase p) hsame)
    rw [hsame, hstay]
    exact .refl
  · refine .single ⟨a, ?_, hact, hinside⟩
    cases lbl with
    | call p op =>
        obtain rfl := hmatch
        cases op <;> exact hok
    | exec p => rcases hmatch with rfl | rfl <;> trivial
    | deliver p => exact hmatch.elim

/-- **No more inside than the count.** Whatever the interleaving: if every process calls
`sem_wait` before it goes inside, and `sem_inc` when it leaves, there are never more of them
inside than the count with which the semaphore was initialised. -/
theorem inside_bounded [Fintype P] (c : Config P) (count : Int) (hc : 0 ≤ count)
    (x : State P × (P → Bool)) (h : (clients c count).Reach Brackets x) :
    ((Finset.univ.filter fun p => x.2 p = true).card : Int) ≤ count := by
  have habstract : (Permits.clients P count).Reach Permits.Brackets (x.1.permits, x.2) := by
    refine h.simulate (fun y => (y.1.permits, y.2)) (fun {a} ha => ?_)
      fun {a l b} hreach hok hst => ?_
    · exact ⟨initial_permits ha.1.1, ha.2⟩
    · have hany : (clients c count).Reach (System.beside System.any) a :=
        hreach.mono fun _ => trivial
      exact brackets_step (.reach hc hany.forget) hok hst
  exact Permits.inside_le hc habstract

end Step

instance (x : State P × (P → Bool)) : (lbl : Label P) → Decidable (Brackets x lbl)
  | .call _ .semTry => .isFalse id
  | .call p .semWait => inferInstanceAs (Decidable (x.2 p = false))
  | .call p .semInc => inferInstanceAs (Decidable (x.2 p = true))
  | .exec _ | .deliver _ => .isTrue trivial

/-- Process 0 goes inside, and process 1 sleeps until it leaves. -/
def bracketRun : List (Label Bool) :=
  .call false .semWait :: List.replicate 9 (.exec false) ++
  .call true .semWait :: List.replicate 7 (.exec true)

theorem inside_bounded_one : ∃ x : State Bool × (Bool → Bool), x.2 false = true ∧
    (x.1.loc true).pc = .waitAsleep ∧
    ((Finset.univ.filter fun p => x.2 p = true).card : Int) ≤ 1 := by
  have hstep : ∀ {x : State Bool × (Bool → Bool)} {l x'},
      System.watch (step pair) inside x l = some x' → (clients pair 1).Step x l x' := by
    intro x l x' hx
    obtain ⟨s', hs', rfl⟩ := Option.map_eq_some_iff.mp hx
    exact ⟨hs', rfl⟩
  have hinit : (clients pair 1).Init (pairStart 1 false, fun _ => false) :=
    ⟨⟨pairStart_initial 1 false, trivial⟩, rfl⟩
  obtain ⟨x, hreach, hx⟩ := System.reach_of_exec (clients pair 1) Brackets
    (System.watch (step pair) inside) (fun x l => decide (Brackets x l)) hstep
    hinit bracketRun
    (fun x => decide (x.2 false = true ∧ (x.1.loc true).pc = .waitAsleep))
    (fun _ _ _ => of_decide_eq_true) (by decide +kernel)
  obtain ⟨hinside, hasleep⟩ := of_decide_eq_true hx
  exact ⟨x, hinside, hasleep, inside_bounded pair 1 (by decide) x hreach⟩

end Ece357.Semaphore
