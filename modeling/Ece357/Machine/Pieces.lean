import Mathlib.Data.List.Basic

/-!
# Ece357.Machine.Pieces

**Lists in pieces.** The elements for which a predicate holds separate the others into pieces,
without empty ones (`pieces`). The other way, pieces are joined with a gap behind each but the
last (`joinGaps`). Pieces that are joined can be found again (`pieces_joinGaps`).
-/

namespace Ece357.Machine

variable {α : Type*}

/-- The maximal runs of elements for which `p` does not hold. -/
def pieces (p : α → Bool) (s : List α) : List (List α) := (s.splitOnP p).filter (! ·.isEmpty)

structure IsPiece (p : α → Bool) (w : List α) : Prop where
  ne_nil : w ≠ []
  no_separator : ∀ c ∈ w, p c = false

structure IsGap (p : α → Bool) (g : List α) : Prop where
  ne_nil : g ≠ []
  separators : ∀ c ∈ g, p c = true

/-- The lists, with `gap k` behind the `k`-th of them. -/
def joinGaps (gap : Nat → List α) : Nat → List (List α) → List α
  | _, [] => []
  | _, [w] => w
  | k, w :: w' :: ws => w ++ (gap k ++ joinGaps gap (k + 1) (w' :: ws))

/-! ### Finding the pieces -/

section Split

variable {p : α → Bool} {w : List α} {c : α}

@[simp] theorem pieces_nil : pieces p [] = [] := rfl

/-- A separator ends a piece, or separates nothing. -/
theorem pieces_append_separator (hc : p c = true) (s t : List α) :
    pieces p (s ++ c :: t) = pieces p s ++ pieces p t := by
  rw [pieces, List.splitOnP_append_cons s t hc, List.filter_append]
  rfl

@[simp] theorem pieces_separator (hc : p c = true) (s : List α) :
    pieces p (c :: s) = pieces p s := by
  have h := pieces_append_separator hc [] s
  rwa [pieces_nil, List.nil_append, List.nil_append] at h

/-- Separators in front do not matter. -/
theorem pieces_dropWhile (s : List α) : pieces p (s.dropWhile p) = pieces p s := by
  induction s with
  | nil => rfl
  | cons c s ih =>
      cases hc : p c with
      | true => rw [List.dropWhile_cons_of_pos hc, ih, pieces_separator hc]
      | false => rw [List.dropWhile_cons_of_neg (by simp [hc])]

theorem pieces_gap {g : List α} (hg : ∀ c ∈ g, p c = true) (s : List α) :
    pieces p (g ++ s) = pieces p s := by
  induction g with
  | nil => rfl
  | cons c g ih =>
      have hrest := ih fun d hd => hg d (List.mem_cons_of_mem c hd)
      rw [List.cons_append, pieces_separator (hg c List.mem_cons_self), hrest]

/-- A list without separators is one piece. -/
theorem IsPiece.pieces_eq (h : IsPiece p w) : pieces p w = [w] := by
  rw [pieces, List.splitOnP_eq_singleton h.no_separator]
  simp [h.ne_nil]

/-- The list begins with a piece. -/
theorem IsPiece.pieces_cons (h : IsPiece p w) (hc : p c = true) (s : List α) :
    pieces p (w ++ c :: s) = w :: pieces p s := by
  rw [pieces_append_separator hc, h.pieces_eq]
  rfl

/-- Nothing but separators is lost. -/
theorem pieces_flatten (s : List α) : (pieces p s).flatten = s.filter (! p ·) := by
  have hpieces : ∀ l : List (List α), (l.filter (! ·.isEmpty)).flatten = l.flatten := by
    intro l
    induction l with
    | nil => rfl
    | cons piece l ih => cases piece <;> simp [ih]
  rw [pieces, hpieces]
  induction s with
  | nil => rfl
  | cons c s ih =>
      rw [List.splitOnP_cons_eq_if_modifyHead]
      obtain ⟨first, others, hsplit⟩ := List.exists_cons_of_ne_nil (List.splitOnP_ne_nil p s)
      rw [hsplit] at ih ⊢
      cases hc : p c with
      | true => simpa [hc] using ih
      | false => simpa [hc] using ih

end Split

/-! ### Joining pieces -/

section Join

variable {p : α → Bool} {gap : Nat → List α} {ws : List (List α)} {c : α} {k : Nat}

/-- Pieces that are joined are found again. -/
theorem pieces_joinGaps (hgap : ∀ k, IsGap p (gap k)) (hws : ∀ w ∈ ws, IsPiece p w) (k : Nat) :
    pieces p (joinGaps gap k ws) = ws := by
  induction ws generalizing k with
  | nil => rfl
  | cons w ws ih =>
      have hw := hws w List.mem_cons_self
      cases ws with
      | nil => exact hw.pieces_eq
      | cons w' ws =>
          have hrest := ih (fun v hv => hws v (List.mem_cons_of_mem w hv)) (k + 1)
          obtain ⟨c, g, hg⟩ := List.exists_cons_of_ne_nil (hgap k).ne_nil
          have hseparators := (hgap k).separators
          rw [hg] at hseparators
          rw [joinGaps, hg, List.cons_append, hw.pieces_cons (hseparators c List.mem_cons_self),
            pieces_gap fun d hd => hseparators d (List.mem_cons_of_mem c hd), hrest]

/-- An element of the joined list is one of a piece or of a gap. -/
theorem mem_joinGaps (h : c ∈ joinGaps gap k ws) : (∃ w ∈ ws, c ∈ w) ∨ ∃ j, c ∈ gap j := by
  induction ws generalizing k with
  | nil => cases h
  | cons w ws ih =>
      cases ws with
      | nil => exact .inl ⟨w, List.mem_cons_self, h⟩
      | cons w' ws =>
          rw [joinGaps, List.mem_append, List.mem_append] at h
          rcases h with h | h | h
          · exact .inl ⟨w, List.mem_cons_self, h⟩
          · exact .inr ⟨k, h⟩
          · rcases ih h with ⟨v, hv, hc⟩ | hc
            · exact .inl ⟨v, List.mem_cons_of_mem w hv, hc⟩
            · exact .inr hc

/-- What is no separator and in none of the lists is not in the joined one. -/
theorem not_mem_joinGaps (hgap : ∀ k, IsGap p (gap k)) (hc : p c = false)
    (hws : ∀ w ∈ ws, c ∉ w) (k : Nat) : c ∉ joinGaps gap k ws := by
  intro h
  rcases mem_joinGaps h with ⟨w, hw, hmem⟩ | ⟨j, hmem⟩
  · exact hws w hw hmem
  · rw [(hgap j).separators c hmem] at hc
    cases hc

theorem joinGaps_ne_nil (hgap : ∀ k, IsGap p (gap k)) (hws : ∀ w ∈ ws, IsPiece p w)
    (hne : ws ≠ []) (k : Nat) : joinGaps gap k ws ≠ [] := by
  intro h
  have hpieces := pieces_joinGaps hgap hws k
  rw [h, pieces_nil] at hpieces
  exact hne hpieces.symm

/-- The last element of the joined list is the last of a piece. -/
theorem joinGaps_getLast? (hgap : ∀ k, IsGap p (gap k)) (hws : ∀ w ∈ ws, IsPiece p w)
    (h : (joinGaps gap k ws).getLast? = some c) : ∃ w ∈ ws, c ∈ w := by
  induction ws generalizing k with
  | nil => cases h
  | cons w ws ih =>
      cases ws with
      | nil => exact ⟨w, List.mem_cons_self, List.mem_of_getLast? h⟩
      | cons w' ws =>
          have hrest : ∀ v ∈ w' :: ws, IsPiece p v := fun v hv =>
            hws v (List.mem_cons_of_mem w hv)
          have hne := joinGaps_ne_nil hgap hrest (List.cons_ne_nil w' ws) (k + 1)
          rw [joinGaps, ← List.append_assoc, List.getLast?_append_of_ne_nil _ hne] at h
          obtain ⟨v, hv, hc⟩ := ih hrest h
          exact ⟨v, List.mem_cons_of_mem w hv, hc⟩

end Join

end Ece357.Machine
