import Mathlib.Data.List.Basic

/-!
# Ece357.Machine.Traces

**What a program does until it ends**: a list of events, and how it ends. A program that consists
of parts, one after the other, stops with the first of them that does not return. So of a list of
parts only those count that are reached (`through`), and the events of the whole are the events of
these (`events_seq`).
-/

namespace Ece357.Machine

inductive Ending
  | returned
  | exited (code : Int)
  /-- The C standard defines no behaviour. -/
  | undefined
  deriving DecidableEq, Repr

structure Trace (ε : Type*) where
  events : List ε
  ending : Ending
  deriving DecidableEq, Repr

section Reached

variable {α β : Type*} {p : α → Bool}

/-- The elements up to the first for which `p` does not hold, together with that one. -/
def through (p : α → Bool) : List α → List α
  | [] => []
  | x :: xs => if p x then x :: through p xs else [x]

theorem through_cons_of_pos {x : α} (h : p x = true) (xs : List α) :
    through p (x :: xs) = x :: through p xs := if_pos h

theorem through_cons_of_neg {x : α} (h : p x = false) (xs : List α) :
    through p (x :: xs) = [x] := if_neg (by rw [h]; exact Bool.false_ne_true)

theorem mem_through_head (x : α) (xs : List α) : x ∈ through p (x :: xs) := by
  cases h : p x with
  | true =>
      rw [through_cons_of_pos h]
      exact List.mem_cons_self ..
  | false =>
      rw [through_cons_of_neg h]
      exact List.mem_cons_self ..

theorem mem_of_mem_through {xs : List α} {x : α} (h : x ∈ through p xs) : x ∈ xs := by
  induction xs with
  | nil => cases h
  | cons x' xs ih =>
      rw [through] at h
      split_ifs at h
      · rcases List.mem_cons.mp h with rfl | h
        · exact List.mem_cons_self ..
        · exact List.mem_cons_of_mem _ (ih h)
      · rw [List.mem_singleton.mp h]
        exact List.mem_cons_self ..

/-- Only what stops among the elements that are reached counts. -/
theorem through_congr {q : α → Bool} {xs : List α} (h : ∀ x ∈ through q xs, p x = q x) :
    through p xs = through q xs := by
  induction xs with
  | nil => rfl
  | cons x xs ih =>
      have hx := h x (mem_through_head ..)
      cases hq : q x with
      | true =>
          rw [through_cons_of_pos hq] at h
          rw [through_cons_of_pos hq, through_cons_of_pos (hx.trans hq),
            ih fun y hy => h y (List.mem_cons_of_mem _ hy)]
      | false => rw [through_cons_of_neg hq, through_cons_of_neg (hx.trans hq)]

/-- If an element without `q` is reached, then one is reached by way of elements with `q`. -/
theorem exists_mem_through_and {q : α → Bool} {xs : List α} {x : α} (hx : x ∈ through p xs)
    (hq : q x = false) : ∃ y ∈ through (fun y => p y && q y) xs, q y = false := by
  induction xs with
  | nil => cases hx
  | cons x' xs ih =>
      cases hq' : q x' with
      | false => exact ⟨x', mem_through_head .., hq'⟩
      | true =>
          have hne : x ≠ x' := fun heq => by rw [heq, hq'] at hq; cases hq
          cases hp : p x' with
          | false =>
              rw [through_cons_of_neg hp, List.mem_singleton] at hx
              exact absurd hx hne
          | true =>
              rw [through_cons_of_pos hp] at hx
              obtain ⟨y, hy, hqy⟩ := ih ((List.mem_cons.mp hx).resolve_left hne)
              refine ⟨y, ?_, hqy⟩
              rw [through_cons_of_pos (by rw [hp, hq']; rfl)]
              exact List.mem_cons_of_mem _ hy

/-- Elements that do not stop can be left out before. -/
theorem filterMap_through {q : β → Bool} {g : α → Option β} {xs : List α}
    (hnone : ∀ x ∈ xs, g x = none → p x = true) (hsome : ∀ x ∈ xs, ∀ y, g x = some y → p x = q y) :
    (through p xs).filterMap g = through q (xs.filterMap g) := by
  induction xs with
  | nil => rfl
  | cons x xs ih =>
      obtain ⟨hx, hxs⟩ := List.forall_mem_cons.mp hnone
      obtain ⟨hx', hxs'⟩ := List.forall_mem_cons.mp hsome
      cases hg : g x with
      | none =>
          rw [through_cons_of_pos (hx hg), List.filterMap_cons_none hg,
            List.filterMap_cons_none hg, ih hxs hxs']
      | some y =>
          have hpq := hx' y hg
          rw [List.filterMap_cons_some hg]
          cases hp : p x with
          | true =>
              rw [through_cons_of_pos hp, through_cons_of_pos (hpq ▸ hp),
                List.filterMap_cons_some hg, ih hxs hxs']
          | false =>
              rw [through_cons_of_neg hp, through_cons_of_neg (hpq ▸ hp),
                List.filterMap_cons_some hg]
              rfl

end Reached

namespace Trace

variable {ε α : Type*} {f g : α → Trace ε}

def Returns (t : Trace ε) : Bool := t.ending = .returned

/-- Nothing happens. -/
def done : Trace ε := ⟨[], .returned⟩

def emit (events : List ε) : Trace ε := ⟨events, .returned⟩

/-- `u` follows if `t` returns. -/
def andThen (t u : Trace ε) : Trace ε :=
  if t.Returns then ⟨t.events ++ u.events, u.ending⟩ else t

def seq (ts : List (Trace ε)) : Trace ε := ts.foldr andThen done

theorem andThen_of_returns {t : Trace ε} (h : t.Returns = true) (u : Trace ε) :
    t.andThen u = ⟨t.events ++ u.events, u.ending⟩ := if_pos h

theorem andThen_of_not_returns {t : Trace ε} (h : t.Returns = false) (u : Trace ε) :
    t.andThen u = t := if_neg (by rw [h]; exact Bool.false_ne_true)

@[simp] theorem andThen_done (t : Trace ε) : t.andThen done = t := by
  cases h : t.Returns with
  | true =>
      have hending : t.ending = .returned := of_decide_eq_true h
      rw [andThen_of_returns h, done, List.append_nil, ← hending]
  | false => exact andThen_of_not_returns h _

theorem andThen_assoc (t u v : Trace ε) : (t.andThen u).andThen v = t.andThen (u.andThen v) := by
  cases ht : t.Returns with
  | true =>
      rw [andThen_of_returns ht, andThen_of_returns ht]
      cases hu : u.Returns with
      | true =>
          rw [andThen_of_returns hu, andThen_of_returns (t := ⟨t.events ++ u.events, u.ending⟩) hu]
          simp only [List.append_assoc]
      | false =>
          rw [andThen_of_not_returns hu]
          exact andThen_of_not_returns (t := ⟨t.events ++ u.events, u.ending⟩) hu v
  | false =>
      rw [andThen_of_not_returns ht, andThen_of_not_returns ht, andThen_of_not_returns ht]

@[simp] theorem seq_cons (t : Trace ε) (ts : List (Trace ε)) :
    seq (t :: ts) = t.andThen (seq ts) := rfl

theorem seq_append (ts us : List (Trace ε)) : seq (ts ++ us) = (seq ts).andThen (seq us) := by
  induction ts with
  | nil => rfl
  | cons t ts ih => rw [List.cons_append, seq_cons, seq_cons, ih, andThen_assoc]

/-- **The events of a sequence** are those of the parts that are reached. -/
theorem events_seq (f : α → Trace ε) (xs : List α) : (seq (xs.map f)).events =
    (through (fun x => (f x).Returns) xs).flatMap fun x => (f x).events := by
  induction xs with
  | nil => rfl
  | cons x xs ih =>
      rw [List.map_cons, seq_cons]
      cases h : (f x).Returns with
      | true =>
          rw [andThen_of_returns h, through_cons_of_pos (p := fun x => (f x).Returns) h,
            List.flatMap_cons, ← ih]
      | false =>
          rw [andThen_of_not_returns h, through_cons_of_neg (p := fun x => (f x).Returns) h,
            List.flatMap_cons, List.flatMap_nil, List.append_nil]

/-- Events of a kind of which each part has one at most. -/
theorem filterMap_events {β : Type*} {xs : List α} {kind : ε → Option β} {item : α → Option β}
    (h : ∀ x, (f x).events.filterMap kind = (item x).toList) :
    (xs.flatMap fun x => (f x).events).filterMap kind = xs.filterMap item := by
  rw [List.filterMap_flatMap, List.filterMap_eq_flatMap_toList]
  exact congrArg (fun g => xs.flatMap g) (funext h)

/-- Only the parts that are reached count. -/
theorem seq_congr {xs : List α} (h : ∀ x ∈ through (fun x => (g x).Returns) xs, f x = g x) :
    seq (xs.map f) = seq (xs.map g) := by
  induction xs with
  | nil => rfl
  | cons x xs ih =>
      rw [List.map_cons, List.map_cons, seq_cons, seq_cons, h x (mem_through_head ..)]
      cases hx : (g x).Returns with
      | true =>
          rw [through_cons_of_pos (p := fun x => (g x).Returns) hx] at h
          rw [ih fun y hy => h y (List.mem_cons_of_mem _ hy)]
      | false => rw [andThen_of_not_returns hx, andThen_of_not_returns hx]

end Trace

end Ece357.Machine
