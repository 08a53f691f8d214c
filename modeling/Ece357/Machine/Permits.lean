import Mathlib.Algebra.BigOperators.Group.Finset.Piecewise
import Mathlib.Logic.Function.Basic
import Ece357.Machine.Ghost
import Ece357.Machine.Halting

/-!
# Ece357.Machine.Permits

**A counting semaphore whose operations take effect at once.** Between its call and its return an
operation has one moment at which it takes a permit, gives one back, or finds that there is none;
only an acquisition waits for that moment.

What such a semaphore is for: processes that acquire a permit before they go inside, and release
it when they leave. Permits are then neither made nor lost, so there are never more processes
inside than there were permits at the start (`Permits.inside_le`).
-/

namespace Ece357.Machine

/-- What a process asks a semaphore for. -/
inductive Request
  | attempt
  | acquire
  | release
  deriving DecidableEq, Repr

/-- Where a process stands. -/
inductive Phase
  | outside
  /-- It has called an operation that has not taken effect. -/
  | pending (r : Request)
  /-- The operation has taken effect, and has got a permit or not, and has not returned. -/
  | answered (r : Request) (took : Bool)
  deriving DecidableEq, Repr

/-- The permits that are free, and where each process stands. -/
structure Permits (P : Type*) where
  free : Int
  phase : P → Phase

namespace Permits

variable {P : Type*} [DecidableEq P]

inductive Act (P : Type*)
  | call (p : P) (r : Request)
  /-- The operation that `p` has called takes effect. -/
  | effect (p : P)
  | ret (p : P)

/-- `p` goes over to a phase, with so many permits left. -/
def move (s : Permits P) (p : P) (free : Int) (ph : Phase) : Permits P :=
  ⟨free, Function.update s.phase p ph⟩

def step (s : Permits P) : Act P → Option (Permits P)
  | .call p r => if s.phase p = .outside then some (s.move p s.free (.pending r)) else none
  | .effect p =>
      match s.phase p with
      | .pending .attempt =>
          if 0 < s.free then some (s.move p (s.free - 1) (.answered .attempt true))
          else some (s.move p s.free (.answered .attempt false))
      | .pending .acquire =>
          if 0 < s.free then some (s.move p (s.free - 1) (.answered .acquire true)) else none
      | .pending .release => some (s.move p (s.free + 1) (.answered .release false))
      | _ => none
  | .ret p =>
      match s.phase p with
      | .answered _ _ => some (s.move p s.free .outside)
      | _ => none

/-- `n` permits, and nobody has called anything. -/
def machine (P : Type*) [DecidableEq P] (n : Int) : System (Permits P) (Act P) :=
  .ofFun (fun s => s.free = n ∧ ∀ p, s.phase p = .outside) step

/-! ### Going inside with a permit -/

/-- Who is inside: a process goes inside when its acquisition returns, and leaves when it calls
the release. -/
def goInside (s s' : Permits P) (inside : P → Bool) (p : P) : Bool :=
  match s.phase p, s'.phase p with
  | .answered .acquire _, .outside => true
  | .outside, .pending .release => false
  | _, _ => inside p

/-- The semaphore with an observer of who is inside. -/
def clients (P : Type*) [DecidableEq P] (n : Int) : System (Permits P × (P → Bool)) (Act P) :=
  (machine P n).observed (fun _ _ => false) goInside

/-- Whoever is outside acquires a permit, and whoever is inside releases it. -/
def Brackets (x : Permits P × (P → Bool)) : Act P → Prop
  | .call _ .attempt => False
  | .call p .acquire => x.2 p = false
  | .call p .release => x.2 p = true
  | _ => True

/-- The permits a process holds. -/
def held (ph : Phase) (inside : Bool) : Nat :=
  match ph with
  | .answered .acquire _ | .pending .release => 1
  | .outside => if inside then 1 else 0
  | _ => 0

/-! ### One step -/

variable {s s' : Permits P} {a : Act P} {inside : P → Bool} {p : P}

@[simp] theorem move_free (s : Permits P) (p : P) (f : Int) (ph : Phase) :
    (s.move p f ph).free = f := rfl

@[simp] theorem move_phase_self (s : Permits P) (p : P) (f : Int) (ph : Phase) :
    (s.move p f ph).phase p = ph := Function.update_self ..

theorem move_phase_of_ne {p q : P} (s : Permits P) (f : Int) (ph : Phase) (h : q ≠ p) :
    (s.move p f ph).phase q = s.phase q := Function.update_of_ne h ..

theorem move_self (s : Permits P) (p : P) : s.move p s.free (s.phase p) = s := by
  simp [move]

/-- What a step can be. -/
theorem step_cases (h : step s a = some s') :
    (∃ p r, a = .call p r ∧ s.phase p = .outside ∧ s' = s.move p s.free (.pending r)) ∨
    (∃ p took, a = .effect p ∧ s.phase p = .pending .attempt ∧
      s' = s.move p (if took then s.free - 1 else s.free) (.answered .attempt took) ∧
      (took = true ↔ 0 < s.free)) ∨
    (∃ p, a = .effect p ∧ s.phase p = .pending .acquire ∧ 0 < s.free ∧
      s' = s.move p (s.free - 1) (.answered .acquire true)) ∨
    (∃ p, a = .effect p ∧ s.phase p = .pending .release ∧
      s' = s.move p (s.free + 1) (.answered .release false)) ∨
    (∃ p r took, a = .ret p ∧ s.phase p = .answered r took ∧ s' = s.move p s.free .outside) := by
  cases a with
  | call p r =>
      simp only [step, Option.ite_none_right_eq_some, Option.some.injEq] at h
      exact .inl ⟨p, r, rfl, h.1, h.2.symm⟩
  | effect p =>
      cases hph : s.phase p with
      | pending r =>
          cases r with
          | attempt =>
              simp only [step, hph] at h
              refine .inr (.inl ?_)
              split_ifs at h with hfree
              · exact ⟨p, true, rfl, hph, (Option.some.inj h).symm, by simp [hfree]⟩
              · exact ⟨p, false, rfl, hph, (Option.some.inj h).symm, by simp [hfree]⟩
          | acquire =>
              simp only [step, hph, Option.ite_none_right_eq_some, Option.some.injEq] at h
              exact .inr (.inr (.inl ⟨p, rfl, hph, h.1, h.2.symm⟩))
          | release =>
              simp only [step, hph, Option.some.injEq] at h
              exact .inr (.inr (.inr (.inl ⟨p, rfl, hph, h.symm⟩)))
      | _ => simp [step, hph] at h
  | ret p =>
      cases hph : s.phase p with
      | answered r took =>
          simp only [step, hph, Option.some.injEq] at h
          exact .inr (.inr (.inr (.inr ⟨p, r, took, rfl, hph, h.symm⟩)))
      | _ => simp [step, hph] at h

omit [DecidableEq P] in
/-- Nobody goes in or out without a step of its own. -/
theorem goInside_same (h : s'.phase p = s.phase p) : goInside s s' inside p = inside p := by
  unfold goInside
  rw [h]
  cases s.phase p with
  | answered r took => cases r <;> rfl
  | _ => rfl

/-! ### Permits are neither made nor lost -/

section Clients
variable [Fintype P] {n : Int} {x : Permits P × (P → Bool)}

/-- The permits that are free and those that processes hold are those of the start; and only
processes that have called nothing are inside. -/
structure Balanced (n : Int) (s : Permits P) (inside : P → Bool) : Prop where
  nonneg : 0 ≤ s.free
  balance : s.free + ∑ p, held (s.phase p) (inside p) = n
  apart : ∀ p, inside p = true → s.phase p = .outside
  noAttempt : ∀ p, s.phase p ≠ .pending .attempt ∧ ∀ took, s.phase p ≠ .answered .attempt took

/-- A process moves: what it holds and what is free stay the same together. -/
theorem Balanced.move (h : Balanced n s inside) {f : Int} {ph : Phase} (hf : 0 ≤ f)
    (hsame : f + held ph (goInside s (s.move p f ph) inside p) =
      s.free + held (s.phase p) (inside p))
    (hapart : goInside s (s.move p f ph) inside p = true → ph = .outside)
    (hattempt : ph ≠ .pending .attempt ∧ ∀ took, ph ≠ .answered .attempt took) :
    Balanced n (s.move p f ph) (goInside s (s.move p f ph) inside) := by
  have hother : ∀ q, q ≠ p → (s.move p f ph).phase q = s.phase q ∧
      goInside s (s.move p f ph) inside q = inside q := fun q hq =>
    ⟨move_phase_of_ne s f ph hq, goInside_same (move_phase_of_ne s f ph hq)⟩
  have hsum := sum_off (f := fun q => held (s.phase q) (inside q))
    (g := fun q => held ((s.move p f ph).phase q) (goInside s (s.move p f ph) inside q)) (a := p)
    fun q hq => by rw [(hother q hq).1, (hother q hq).2]
  have hbalance := h.balance
  rw [move_phase_self] at hsum
  refine ⟨hf, ?_, fun q hq => ?_, fun q => ?_⟩
  · rw [move_free]
    omega
  · by_cases hqp : q = p
    · subst hqp
      rw [move_phase_self]
      exact hapart hq
    · rw [(hother q hqp).1]
      exact h.apart q ((hother q hqp).2 ▸ hq)
  · by_cases hqp : q = p
    · subst hqp
      rw [move_phase_self]
      exact hattempt
    · rw [(hother q hqp).1]
      exact h.noAttempt q

omit [DecidableEq P] in
/-- A process that has called something is not inside. -/
theorem Balanced.not_inside (h : Balanced n s inside) (hph : s.phase p ≠ .outside) :
    inside p = false := by
  by_contra hin
  exact hph (h.apart p (by simpa using hin))

theorem Balanced.step (h : Balanced n s inside) (hok : Brackets (s, inside) a)
    (hstep : step s a = some s') : Balanced n s' (goInside s s' inside) := by
  have hnonneg := h.nonneg
  obtain ⟨p, r, rfl, hph, rfl⟩ | ⟨p, took, rfl, hph, -⟩ | ⟨p, rfl, hph, hfree, rfl⟩ |
    ⟨p, rfl, hph, rfl⟩ | ⟨p, r, took, rfl, hph, rfl⟩ := step_cases hstep
  · cases r with
    | attempt => exact hok.elim
    | acquire =>
        have hin : inside p = false := hok
        refine h.move hnonneg ?_ ?_ (by simp)
        · simp [hph, held, hin]
        · simp [goInside, hph, hin]
    | release =>
        have hin : inside p = true := hok
        refine h.move hnonneg ?_ ?_ (by simp)
        · simp [hph, held, hin]
        · simp [goInside, hph]
  · exact absurd hph (h.noAttempt p).1
  · have hin := h.not_inside (p := p) (by rw [hph]; simp)
    refine h.move (by omega) ?_ ?_ (by simp)
    · simp [hph, held]
    · simp [goInside, hph, hin]
  · have hin := h.not_inside (p := p) (by rw [hph]; simp)
    refine h.move (by omega) ?_ ?_ (by simp)
    · simp [hph, held]
    · simp [goInside, hph, hin]
  · have hin := h.not_inside (p := p) (by rw [hph]; simp)
    refine h.move hnonneg ?_ (fun _ => rfl) (by simp)
    cases r with
    | attempt => exact absurd hph ((h.noAttempt p).2 took)
    | acquire | release => simp [goInside, hph, held, hin]

theorem balanced (hn : 0 ≤ n) (h : (clients P n).Reach Brackets x) : Balanced n x.1 x.2 := by
  refine h.invariant (I := fun x => Balanced n x.1 x.2) (fun {y} hy => ?_) ?_
  · obtain ⟨⟨hfree, hout⟩, hnone⟩ := hy
    refine ⟨by omega, ?_, fun p hp => hout p, fun p => by simp [hout p]⟩
    simp [hout, hnone, held, hfree]
  · intro y act y' _ hy hok hstep
    rw [hstep.2]
    exact hy.step hok hstep.1

/-- **Never more inside than there were permits**, if everybody acquires one before it goes inside
and releases it when it leaves. -/
theorem inside_le (hn : 0 ≤ n) (h : (clients P n).Reach Brackets x) :
    ((Finset.univ.filter fun p => x.2 p = true).card : Int) ≤ n := by
  have hbalanced := balanced hn h
  have hle : (Finset.univ.filter fun p => x.2 p = true).card ≤
      ∑ p, held (x.1.phase p) (x.2 p) := by
    rw [Finset.card_filter]
    refine Finset.sum_le_sum fun p _ => ?_
    split_ifs with hin
    · rw [hbalanced.apart p hin, hin]
      exact le_rfl
    · exact Nat.zero_le _
  have hfree := hbalanced.nonneg
  have hbalance := hbalanced.balance
  omega

end Clients

end Permits

end Ece357.Machine
