import Ece357.Machine.Words

/-!
# Ece357.Machine.Bytes

**Byte-addressed memory** with 64-bit addresses that wrap around. A number of several bytes is
stored with its low byte first.

Two ranges of addresses that do not meet (`Apart`) do not disturb each other. A row of words is
stored from an address upwards; each word is found again in its place (`word_storeWords`), and
what is outside the row is as before (`storeWords_outside`).
-/

namespace Ece357.Machine

/-- What is found at each address of a byte. -/
abbrev Bytes := Word → BitVec 8

/-- The ranges of `n` bytes from `a` and of `k` bytes from `b` do not meet. -/
def Apart (a : Word) (n : Nat) (b : Word) (k : Nat) : Prop :=
  n ≤ (b - a).toNat ∧ k ≤ (a - b).toNat

instance (a : Word) (n : Nat) (b : Word) (k : Nat) : Decidable (Apart a n b k) :=
  inferInstanceAs (Decidable (_ ∧ _))

/-- Addresses as the offsets from a common base, small enough not to wrap around. -/
theorem offset_sub (a : Word) {i j : Nat} (hi : i < 2 ^ 64) (hj : j < 2 ^ 64) :
    (a + BitVec.ofNat 64 i - (a + BitVec.ofNat 64 j)).toNat =
      if j ≤ i then i - j else 2 ^ 64 + i - j := by
  have ha := a.isLt
  rw [BitVec.toNat_sub, BitVec.toNat_add, BitVec.toNat_add, BitVec.toNat_ofNat,
    BitVec.toNat_ofNat]
  split_ifs <;> omega

namespace Apart

variable {a b x : Word} {n k : Nat}

theorem symm (h : Apart a n b k) : Apart b k a n := ⟨h.2, h.1⟩

/-- What is in one of the ranges is not in the other. -/
theorem outside (h : Apart a n b k) (hx : (x - b).toNat < k) : n ≤ (x - a).toNat := by
  obtain ⟨hab, hba⟩ := h
  rw [BitVec.toNat_sub] at hab hba hx ⊢
  omega

/-- Of two ranges apart, any parts are apart. -/
theorem inside (h : Apart a n b k) {i j n' k' : Nat} (hi : i + n' ≤ n) (hj : j + k' ≤ k)
    (hn : 0 < n') (hk : 0 < k') :
    Apart (a + BitVec.ofNat 64 i) n' (b + BitVec.ofNat 64 j) k' := by
  obtain ⟨hab, hba⟩ := h
  have ha := a.isLt
  have hb := b.isLt
  unfold Apart
  rw [BitVec.toNat_sub] at hab hba
  rw [BitVec.toNat_sub, BitVec.toNat_sub, BitVec.toNat_add, BitVec.toNat_add,
    BitVec.toNat_ofNat, BitVec.toNat_ofNat]
  omega

/-- Two pieces of one range that do not overlap. -/
theorem offsets (a : Word) {i j : Nat} (hij : i + n ≤ j) (hj : j + k ≤ 2 ^ 64) (hn : 0 < n)
    (hk : 0 < k) : Apart (a + BitVec.ofNat 64 i) n (a + BitVec.ofNat 64 j) k := by
  have hi : i < 2 ^ 64 := by omega
  have hj' : j < 2 ^ 64 := by omega
  unfold Apart
  rw [offset_sub a hj' hi, offset_sub a hi hj']
  split_ifs <;> omega

end Apart

namespace Bytes

variable {m m' : Bytes} {a b x : Word} {n k : Nat}

/-- The number in the `n` bytes from `a`. -/
def load (m : Bytes) (a : Word) : Nat → Nat
  | 0 => 0
  | n + 1 => (m a).toNat + 256 * load m (a + 1) n

/-- Store the number `v` in the `n` bytes from `a`. -/
def store (m : Bytes) (a : Word) : Nat → Nat → Bytes
  | 0, _ => m
  | n + 1, v => Function.update (store m (a + 1) n (v / 256)) a (BitVec.ofNat 8 v)

/-! ### Ranges -/

/-- The first byte of a range, and the rest of it. -/
theorem sub_succ (hx : x ≠ a) : (x - a).toNat = (x - (a + 1)).toNat + 1 := by
  have hne : x.toNat ≠ a.toNat := fun h => hx (BitVec.eq_of_toNat_eq h)
  have hone : (1 : Word).toNat = 1 := rfl
  rw [BitVec.toNat_sub, BitVec.toNat_sub, BitVec.toNat_add, hone]
  omega

/-- A number depends on the bytes of its range only. -/
theorem load_congr (hn : n ≤ 2 ^ 64) (h : ∀ x, (x - a).toNat < n → m' x = m x) :
    load m' a n = load m a n := by
  induction n generalizing a with
  | zero => rfl
  | succ n ih =>
      have hself : (a - a).toNat < n + 1 := by
        rw [BitVec.sub_self]
        exact Nat.succ_pos n
      rw [load, load, h a hself, ih (by omega) fun x hx => ?_]
      by_cases hxa : x = a
      · rw [hxa, h a hself]
      · exact h x (by rw [sub_succ hxa]; omega)

/-- The same bytes make the same number elsewhere. -/
theorem load_translate (hn : n ≤ 2 ^ 64) (h : ∀ x, (x - a).toNat < n → m' x = m (x - a + b)) :
    load m' a n = load m b n := by
  induction n generalizing a b with
  | zero => rfl
  | succ n ih =>
      have hself := h a (by rw [BitVec.sub_self]; exact Nat.succ_pos n)
      rw [BitVec.sub_self, BitVec.zero_add] at hself
      rw [load, load, hself, ih (by omega) fun x hx => ?_]
      have hplace : x - (a + 1) + (b + 1) = x - a + b := by ring
      by_cases hxa : x = a
      · subst hxa
        rw [hplace, BitVec.sub_self, BitVec.zero_add, hself]
      · rw [hplace]
        exact h x (by rw [sub_succ hxa]; omega)

/-- A store changes nothing outside its range. -/
theorem store_outside (m : Bytes) {v : Nat} (hx : n ≤ (x - a).toNat) :
    store m a n v x = m x := by
  induction n generalizing a v with
  | zero => rfl
  | succ n ih =>
      have hxa : x ≠ a := by
        rintro rfl
        rw [BitVec.sub_self] at hx
        exact Nat.not_succ_le_zero n hx
      rw [sub_succ hxa] at hx
      rw [store, Function.update_of_ne hxa]
      exact ih (by omega)

theorem store_pointwise {v : Nat} (h : m x = m' x) : store m a n v x = store m' a n v x := by
  induction n generalizing a v with
  | zero => exact h
  | succ n ih =>
      rw [store, store]
      by_cases hxa : x = a
      · rw [hxa, Function.update_self, Function.update_self]
      · rw [Function.update_of_ne hxa, Function.update_of_ne hxa]
        exact ih

/-- What has been stored is loaded again. -/
theorem load_store (m : Bytes) (a : Word) {v : Nat} (hn : n ≤ 2 ^ 64) :
    load (store m a n v) a n = v % 256 ^ n := by
  induction n generalizing a v with
  | zero => exact (Nat.mod_one v).symm
  | succ n ih =>
      have hrest : load (store m a (n + 1) v) (a + 1) n =
          load (store m (a + 1) n (v / 256)) (a + 1) n := by
        refine load_congr (by omega) fun x hx => Function.update_of_ne ?_ ..
        rintro rfl
        have hone : (1 : Word).toNat = 1 := rfl
        rw [BitVec.toNat_sub, BitVec.toNat_add, hone] at hx
        omega
      have hfirst : (store m a (n + 1) v a).toNat = v % 256 := by
        rw [store, Function.update_self, BitVec.toNat_ofNat]
      rw [load, hfirst, hrest, ih (a + 1) (by omega), Nat.pow_succ, Nat.mul_comm (256 ^ n),
        Nat.mod_mul]

/-! ### Words -/

/-- The word in the eight bytes from `a`. -/
def word (m : Bytes) (a : Word) : Word := BitVec.ofNat 64 (load m a 8)

/-- Store a word in the eight bytes from `a`. -/
def setWord (m : Bytes) (a v : Word) : Bytes := store m a 8 v.toNat

theorem word_congr (h : ∀ x, (x - a).toNat < 8 → m' x = m x) : word m' a = word m a := by
  unfold word
  rw [load_congr (by decide) h]

theorem word_translate (h : ∀ x, (x - a).toNat < 8 → m' x = m (x - a + b)) :
    word m' a = word m b := by
  unfold word
  rw [load_translate (by decide) h]

theorem setWord_outside (m : Bytes) {v : Word} (hx : 8 ≤ (x - a).toNat) :
    setWord m a v x = m x := store_outside m hx

theorem setWord_congr {v : Word} (h : m x = m' x) : setWord m a v x = setWord m' a v x :=
  store_pointwise h

theorem word_setWord (m : Bytes) (a v : Word) : word (setWord m a v) a = v := by
  unfold word setWord
  rw [load_store m a (by decide)]
  refine BitVec.eq_of_toNat_eq ?_
  have hv := v.isLt
  rw [BitVec.toNat_ofNat]
  omega

theorem word_setWord_apart (m : Bytes) {v : Word} (h : Apart a 8 b 8) :
    word (setWord m a v) b = word m b :=
  word_congr fun _ hx => setWord_outside m (h.outside hx)

/-- A single byte written does not change a word it is not in. -/
theorem word_update (m : Bytes) {v : BitVec 8} (h : 8 ≤ (x - a).toNat) :
    word (Function.update m x v) a = word m a := by
  refine word_congr fun y hy => Function.update_of_ne ?_ ..
  rintro rfl
  omega

/-- The word `i` of a row that begins at `a`. -/
def slot (a : Word) (i : Nat) : Word := a + BitVec.ofNat 64 (8 * i)

/-- Store a row of words, from the word `i` of the row on. -/
def storeWords (m : Bytes) (a : Word) (i : Nat) : List Word → Bytes
  | [] => m
  | v :: vs => storeWords (setWord m (slot a i) v) a (i + 1) vs

/-- Where a byte of a word is in the row of the word. -/
theorem slot_byte {i : Nat} (hi : 8 * (i + 1) ≤ 2 ^ 64) (hx : (x - slot a i).toNat < 8) :
    8 * i ≤ (x - a).toNat ∧ (x - a).toNat < 8 * (i + 1) := by
  have ha := a.isLt
  unfold slot at hx
  rw [BitVec.toNat_sub, BitVec.toNat_add, BitVec.toNat_ofNat] at hx
  rw [BitVec.toNat_sub]
  omega

theorem slot_apart (a : Word) {i j : Nat} (hij : i < j) (hj : 8 * (j + 1) ≤ 2 ^ 64) :
    Apart (slot a i) 8 (slot a j) 8 :=
  Apart.offsets a (by omega) (by omega) (by omega) (by omega)

theorem storeWords_outside (m : Bytes) {vs : List Word} {i : Nat}
    (hi : 8 * (i + vs.length) ≤ 2 ^ 64)
    (hx : (x - a).toNat < 8 * i ∨ 8 * (i + vs.length) ≤ (x - a).toNat) :
    storeWords m a i vs x = m x := by
  induction vs generalizing m i with
  | nil => rfl
  | cons v vs ih =>
      rw [List.length_cons] at hi hx
      have hfirst : 8 ≤ (x - slot a i).toNat := by
        by_contra hin
        have hbyte := slot_byte (x := x) (a := a) (i := i) (by omega) (by omega)
        omega
      rw [storeWords, ih _ (by omega) (by omega), setWord_outside m hfirst]

/-- Each word of a row is found again in its place. -/
theorem word_storeWords (m : Bytes) (a : Word) (vs : List Word) {i j : Nat}
    (hi : 8 * (i + vs.length) ≤ 2 ^ 64) (hj : j < vs.length) :
    word (storeWords m a i vs) (slot a (i + j)) = vs[j] := by
  induction vs generalizing m i j with
  | nil => exact absurd hj (Nat.not_lt_zero j)
  | cons v vs ih =>
      rw [List.length_cons] at hi hj
      cases j with
      | zero =>
          have hkept : word (storeWords (setWord m (slot a i) v) a (i + 1) vs) (slot a i) =
              word (setWord m (slot a i) v) (slot a i) := by
            refine word_congr fun x hx => ?_
            have hbyte := slot_byte (x := x) (a := a) (i := i) (by omega) hx
            exact storeWords_outside _ (by omega) (.inl hbyte.2)
          rw [Nat.add_zero, storeWords, hkept, word_setWord, List.getElem_cons_zero]
      | succ j =>
          have hrest := ih (setWord m (slot a i) v) (i := i + 1) (j := j) (by omega) (by omega)
          rw [storeWords, List.getElem_cons_succ, ← hrest, Nat.add_right_comm, Nat.add_assoc]

end Bytes

end Ece357.Machine
