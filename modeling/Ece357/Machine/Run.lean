import Mathlib.Logic.Relation

/-!
# Ece357.Machine.Run

**Labelled machines and their runs.** A machine is a set of start states and a
step relation whose labels say who moved and what the environment answered.
Everything proved about a program later is a statement about the states its
runs reach, so the three rules here carry every development:

* `Reach.invariant` — what holds at the start and is kept by one step holds in
  every reachable state (the step may assume the state before it reachable);
* `Run.invariant` — the same for a run that starts anywhere;
* `Reach.simulate` — an abstraction map that sends steps to runs sends
  reachable states to reachable states.

Runs carry a *step condition* `ok`: the runs of `M.Reach ok` are those whose
every step satisfies it. A discipline on the callers, a restriction to one
driver, or the condition under which a defective step is not taken are all
instances, and `Reach.mono` relates them.
-/

namespace Ece357.Machine

variable {σ ι τ κ : Type*}

/-- A labelled machine. -/
structure System (σ ι : Type*) where
  /-- The states a run may start in. -/
  Init : σ → Prop
  /-- One step, with its label. -/
  Step : σ → ι → σ → Prop

namespace System

/-- The machine of a step *function*: `none` means the label cannot occur. -/
def ofFun (Init : σ → Prop) (step : σ → ι → Option σ) : System σ ι where
  Init := Init
  Step s l s' := step s l = some s'

variable (M : System σ ι) (ok : σ → ι → Prop)

/-- One step that satisfies the step condition, its label forgotten. -/
def Next (s s' : σ) : Prop := ∃ l, ok s l ∧ M.Step s l s'

/-- A run of any length whose every step satisfies the step condition. -/
def Run : σ → σ → Prop := Relation.ReflTransGen (M.Next ok)

/-- The states reached by such runs from a start state. -/
def Reach (s : σ) : Prop := ∃ s₀, M.Init s₀ ∧ M.Run ok s₀ s

/-- The step condition that rules nothing out. -/
def any : σ → ι → Prop := fun _ _ => True

instance (s : σ) (l : ι) : Decidable (any s l) := .isTrue trivial

variable {M ok}

/-! ### Building runs -/

theorem Reach.init {s : σ} (h : M.Init s) : M.Reach ok s := ⟨s, h, .refl⟩

theorem Reach.step {s s' : σ} {l : ι} (h : M.Reach ok s) (hok : ok s l)
    (hs : M.Step s l s') : M.Reach ok s' := by
  obtain ⟨s₀, h₀, hrun⟩ := h
  exact ⟨s₀, h₀, hrun.tail ⟨l, hok, hs⟩⟩

theorem Reach.run {s s' : σ} (h : M.Reach ok s) (hr : M.Run ok s s') : M.Reach ok s' := by
  obtain ⟨s₀, h₀, hrun⟩ := h
  exact ⟨s₀, h₀, hrun.trans hr⟩

/-! ### The induction rules -/

/-- What one step keeps, a whole run keeps. -/
theorem Run.invariant {I : σ → Prop} {s s' : σ} (hr : M.Run ok s s') (hs : I s)
    (hstep : ∀ {a l b}, I a → ok a l → M.Step a l b → I b) : I s' := by
  induction hr with
  | refl => exact hs
  | tail _ hn ih =>
      obtain ⟨l, hok, hst⟩ := hn
      exact hstep ih hok hst

/-- **Invariant rule.** The step case may use that the state before the step is
itself reachable, so invariants already established need not be repeated in
the next one. -/
theorem Reach.invariant {I : σ → Prop} {s : σ} (h : M.Reach ok s)
    (hinit : ∀ {a}, M.Init a → I a)
    (hstep : ∀ {a l b}, M.Reach ok a → I a → ok a l → M.Step a l b → I b) : I s := by
  obtain ⟨s₀, h₀, hrun⟩ := h
  have hboth : M.Reach ok s ∧ I s := by
    refine Run.invariant (I := fun a => M.Reach ok a ∧ I a) hrun ⟨.init h₀, hinit h₀⟩ ?_
    intro a l b ha hok hst
    exact ⟨ha.1.step hok hst, hstep ha.1 ha.2 hok hst⟩
  exact hboth.2

/-- A weaker step condition reaches at least as much. -/
theorem Reach.mono {ok' : σ → ι → Prop} {s : σ} (h : M.Reach ok s)
    (himp : ∀ {a l}, ok a l → ok' a l) : M.Reach ok' s :=
  h.invariant (I := fun a => M.Reach ok' a) .init
    fun _ ha hok hst => ha.step (himp hok) hst

/-- What holds in every reachable state may be assumed of the steps. -/
theorem Reach.strengthen {Q : σ → Prop} (hQ : ∀ {a}, M.Reach ok a → Q a) {s : σ}
    (h : M.Reach ok s) : M.Reach (fun a l => ok a l ∧ Q a) s :=
  h.invariant (I := fun a => M.Reach (fun a l => ok a l ∧ Q a) a) .init
    fun hreach ha hok hst => ha.step ⟨hok, hQ hreach⟩ hst

/-- **Simulation rule.** If the abstraction of a start state is a start state and
the abstraction of a step is a run (possibly of length zero) of the abstract
machine, then abstractions of reachable states are reachable. -/
theorem Reach.simulate {N : System τ κ} {ok' : τ → κ → Prop} (α : σ → τ) {s : σ}
    (h : M.Reach ok s) (hinit : ∀ {a}, M.Init a → N.Init (α a))
    (hstep : ∀ {a l b}, M.Reach ok a → ok a l → M.Step a l b → N.Run ok' (α a) (α b)) :
    N.Reach ok' (α s) :=
  h.invariant (I := fun a => N.Reach ok' (α a)) (fun ha => .init (hinit ha))
    fun hreach ha hok hst => ha.run (hstep hreach hok hst)

/-! ### Executing a given list of labels -/

/-- Execute a list of labels, giving up at the first one that cannot occur or
that the (decidable) step condition rejects. -/
def exec (step : σ → ι → Option σ) (okb : σ → ι → Bool) (s : σ) : List ι → Option σ
  | [] => some s
  | l :: ls => if okb s l then (step s l).bind (exec step okb · ls) else none

/-- What every step keeps that the check lets through, the steps counted, an execution keeps,
with its length. -/
theorem exec_counted {step : σ → ι → Option σ} {okb : σ → ι → Bool} {I : Nat → σ → Prop}
    (hstep : ∀ {n s l s'}, I n s → okb s l = true → step s l = some s' → I (n + 1) s')
    {ls : List ι} {n : Nat} {s s' : σ} (hs : I n s) (h : exec step okb s ls = some s') :
    I (n + ls.length) s' := by
  induction ls generalizing n s with
  | nil =>
      obtain rfl : s = s' := by simpa [exec] using h
      exact hs
  | cons l ls ih =>
      rw [exec] at h
      split at h
      · rename_i hl
        obtain ⟨m, hm, hrest⟩ := Option.bind_eq_some_iff.mp h
        have hnext := ih (hstep hs hl hm) hrest
        rwa [List.length_cons, Nat.add_comm ls.length 1, ← Nat.add_assoc]
      · cases h

section Execute
variable (M : System σ ι) (ok : σ → ι → Prop) (step : σ → ι → Option σ) (okb : σ → ι → Bool)
  (hM : ∀ {s l s'}, step s l = some s' → M.Step s l s')
include hM

/-- An execution that went through is a run. -/
theorem run_of_exec : ∀ {ls : List ι} {s s' : σ}, (∀ l ∈ ls, ∀ a, okb a l = true → ok a l) →
    exec step okb s ls = some s' → M.Run ok s s'
  | [], s, s', _, h => by
      obtain rfl : s = s' := by simpa [exec] using h
      exact .refl
  | l :: ls, s, s', hok, h => by
      rw [exec] at h
      split at h
      · rename_i hl
        obtain ⟨m, hm, hrest⟩ := Option.bind_eq_some_iff.mp h
        have hrun := run_of_exec (fun x hx => hok x (List.mem_cons_of_mem l hx)) hrest
        exact .head ⟨l, hok l (List.mem_cons_self ..) s hl, hM hm⟩ hrun
      · cases h

/-- What an execution from a start state ends in is reachable. The check has to imply
the step condition for the labels of the execution only. -/
theorem reach_of_exec {s₀ : σ} (h₀ : M.Init s₀) (ls : List ι) (p : σ → Bool)
    (hok : ∀ l ∈ ls, ∀ a, okb a l = true → ok a l)
    (h : (exec step okb s₀ ls).any p = true) : ∃ s, M.Reach ok s ∧ p s = true := by
  cases hs : exec step okb s₀ ls with
  | none => simp [hs] at h
  | some s => exact ⟨s, ⟨s₀, h₀, run_of_exec M ok step okb hM hok hs⟩, by simpa [hs] using h⟩

end Execute

end System

end Ece357.Machine
