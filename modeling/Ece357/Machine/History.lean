import Mathlib.Data.List.Basic

/-!
# Ece357.Machine.History

**Histories**: the list of the events of a run so far, newest first, as a machine
with a ghost trace keeps it. Two ways of speaking about the past:

* `Since hold start h` — at some time there was an event of kind `start`, and every
  event after it is of kind `hold`;
* `Always P h` — every event, taken with the history before it, satisfies `P`.

Both are decided event by event (`since_cons`, `always_cons`), which is what makes
them usable in an invariant.
-/

namespace Ece357.Machine

variable {E : Type*}

/-- There was a `start` event, and only `hold` events since. -/
def Since (hold start : E → Prop) (h : List E) : Prop :=
  ∃ mid e older, h = mid ++ e :: older ∧ start e ∧ ∀ x ∈ mid, hold x

theorem since_cons {hold start : E → Prop} {e : E} {h : List E} :
    Since hold start (e :: h) ↔ start e ∨ (hold e ∧ Since hold start h) := by
  constructor
  · intro hs
    obtain ⟨mid, x, older, heq, hx, hmid⟩ := hs
    cases mid with
    | nil =>
        obtain ⟨rfl, rfl⟩ := List.cons.inj heq
        exact .inl hx
    | cons y mid =>
        obtain ⟨rfl, rfl⟩ := List.cons.inj heq
        refine .inr ⟨hmid e (List.mem_cons_self ..), mid, x, older, rfl, hx, fun z hz => ?_⟩
        exact hmid z (List.mem_cons_of_mem _ hz)
  · intro hs
    rcases hs with hstart | ⟨hhold, mid, x, older, rfl, hx, hmid⟩
    · exact ⟨[], e, h, rfl, hstart, fun x hx => by cases hx⟩
    · refine ⟨e :: mid, x, older, rfl, hx, fun z hz => ?_⟩
      rcases List.mem_cons.mp hz with rfl | hz
      · exact hhold
      · exact hmid z hz

theorem Since.append {hold start : E → Prop} {h : List E} (hs : Since hold start h) :
    ∀ {new : List E}, (∀ x ∈ new, hold x) → Since hold start (new ++ h)
  | [], _ => hs
  | x :: _, hnew => since_cons.mpr (.inr ⟨hnew x (List.mem_cons_self ..),
      hs.append fun y hy => hnew y (List.mem_cons_of_mem _ hy)⟩)

/-- Every event, with the history before it, satisfies `P`. -/
def Always (P : E → List E → Prop) (h : List E) : Prop :=
  ∀ new e old, h = new ++ e :: old → P e old

theorem always_nil (P : E → List E → Prop) : Always P [] := by
  intro new e old heq
  simp at heq

theorem always_cons {P : E → List E → Prop} {e : E} {h : List E} :
    Always P (e :: h) ↔ P e h ∧ Always P h := by
  constructor
  · intro ha
    exact ⟨ha [] e h rfl, fun new x old heq => ha (e :: new) x old (by rw [heq]; rfl)⟩
  · intro ha new x old heq
    cases new with
    | nil =>
        obtain ⟨rfl, rfl⟩ := List.cons.inj heq
        exact ha.1
    | cons y new =>
        obtain ⟨-, rfl⟩ := List.cons.inj heq
        exact ha.2 new x old rfl

theorem Always.append {P : E → List E → Prop} {h : List E} (ha : Always P h) :
    ∀ {new : List E}, (∀ x ∈ new, ∀ old, P x old) → Always P (new ++ h)
  | [], _ => ha
  | x :: _, hnew => always_cons.mpr ⟨hnew x (List.mem_cons_self ..) _,
      ha.append fun y hy => hnew y (List.mem_cons_of_mem _ hy)⟩

end Ece357.Machine
