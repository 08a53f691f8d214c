import Ece357.Machine.Run

/-!
# Ece357.Machine.Ghost

**Observers.** A property of a whole run, such as a balance of what was opened and
closed, speaks about values that no single state holds. An observer keeps such a value
beside the state of a machine: it is computed anew after each step from the states before
and after it, and the machine does not read it.

`Reach.forget` and `Reach.observe` say that the observer changes nothing: the states
reached are the same, and each is reached with some observed value. `Reach.watched` is the
invariant rule for both together.
-/

namespace Ece357.Machine

namespace System

variable {σ ι η : Type*} {M : System σ ι} {ok : σ → ι → Prop}

/-- The machine `M` with an observer that starts as `first` and is updated by `next`. -/
def observed (M : System σ ι) (first : σ → η) (next : σ → σ → η → η) : System (σ × η) ι where
  Init x := M.Init x.1 ∧ x.2 = first x.1
  Step x l x' := M.Step x.1 l x'.1 ∧ x'.2 = next x.1 x'.1 x.2

/-- A step condition of `M`, asked of the machine with an observer. -/
def beside (ok : σ → ι → Prop) (x : σ × η) (l : ι) : Prop := ok x.1 l

variable {first : σ → η} {next : σ → σ → η → η}

/-- Forgetting the observer. -/
theorem Reach.forget {x : σ × η} (h : (M.observed first next).Reach (beside ok) x) :
    M.Reach ok x.1 := by
  refine h.invariant (I := fun x => M.Reach ok x.1) (fun hx => .init hx.1) ?_
  intro x l x' _ hx hok hst
  have hok' : ok x.1 l := hok
  exact hx.step hok' hst.1

/-- **Invariant rule.** The step case may use that the state before the step is reachable. -/
theorem Reach.watched {I : σ → η → Prop} {x : σ × η}
    (h : (M.observed first next).Reach (beside ok) x) (hinit : ∀ {s}, M.Init s → I s (first s))
    (hstep : ∀ {s l s' v}, M.Reach ok s → I s v → ok s l → M.Step s l s' → I s' (next s s' v)) :
    I x.1 x.2 := by
  refine h.invariant (I := fun x => I x.1 x.2) (fun hx => ?_) ?_
  · rw [hx.2]
    exact hinit hx.1
  · intro x l x' hreach hx hok hst
    rw [hst.2]
    exact hstep hreach.forget hx hok hst.1

/-- Every run can be observed. -/
theorem Reach.observe {s : σ} (h : M.Reach ok s) :
    ∃ v, (M.observed first next).Reach (beside ok) (s, v) := by
  refine h.invariant (I := fun s => ∃ v, (M.observed first next).Reach (beside ok) (s, v))
    (fun {a} ha => ⟨first a, .init ⟨ha, rfl⟩⟩) ?_
  intro a l b _ ha hok hst
  obtain ⟨v, hv⟩ := ha
  exact ⟨next a b v, hv.step hok ⟨hst, rfl⟩⟩

/-- A step function with an observer. -/
def watch (step : σ → ι → Option σ) (next : σ → σ → η → η) (x : σ × η) (l : ι) : Option (σ × η) :=
  (step x.1 l).map fun s' => (s', next x.1 s' x.2)

/-- What an observed execution ends in is reachable. -/
theorem reach_of_watch (Init : σ → Prop) (step : σ → ι → Option σ) (first : σ → η)
    (next : σ → σ → η → η) (okb : σ → ι → Bool) {s₀ : σ} (h₀ : Init s₀) (ls : List ι)
    (p : σ × η → Bool) (hok : ∀ l ∈ ls, ∀ s, okb s l = true → ok s l)
    (h : (exec (watch step next) (fun x l => okb x.1 l) (s₀, first s₀) ls).any p = true) :
    ∃ x, ((ofFun Init step).observed first next).Reach (beside ok) x ∧ p x = true := by
  have hstep : ∀ {x : σ × η} {l : ι} {x' : σ × η}, watch step next x l = some x' →
      ((ofFun Init step).observed first next).Step x l x' := by
    intro x l x' hx
    obtain ⟨s', hs', rfl⟩ := Option.map_eq_some_iff.mp hx
    exact ⟨hs', rfl⟩
  have hinit : ((ofFun Init step).observed first next).Init (s₀, first s₀) := ⟨h₀, rfl⟩
  exact reach_of_exec _ _ _ _ hstep hinit ls p (fun l hl x hx => hok l hl x.1 hx) h

end System

end Ece357.Machine
