import Ece357.FifoTest.Model

/-!
# Ece357.FifoTest.Reader

**What the reader of the FIFO test accepts**: words in any order that keeps each writer's numbers
in theirs, from 0 on, with at most 24 bits each (`reader_accepts_iff`). How many there are of each
writer, it does not ask.
-/

namespace Ece357.FifoTest

open Ece357.Machine

variable {c : Config}

/-! ### One word -/

theorem total_lt (c : Config) : c.total < 2 ^ 31 := by
  have hmul := Nat.mul_le_mul c.writers_le c.longs_le
  unfold Config.total
  omega

theorem msg_toNat (w : Fin c.numWriters) {t : Nat} (ht : t < 2 ^ 31) :
    (msg c w t).toNat = (w + 1) * 2 ^ 24 + t := by
  have hw := w.isLt
  have hle := c.writers_le
  have hshift : (BitVec.ofNat 32 (w + 1) <<< 24).toNat = (w + 1) * 2 ^ 24 := by
    rw [BitVec.toNat_shiftLeft, BitVec.toNat_ofNat, Nat.shiftLeft_eq]
    omega
  have hmsb : (BitVec.ofNat 32 (w + 1) <<< 24).msb = false := by
    rw [BitVec.msb_eq_decide, hshift]
    exact decide_eq_false (by omega)
  unfold msg encode
  rw [BitVec.toNat_add, BitVec.signExtend_eq_setWidth_of_msb_false hmsb, BitVec.toNat_setWidth,
    hshift, BitVec.toNat_ofNat]
  omega

/-- What the reader makes of a word, if its writer is one of those there are. -/
theorem numberOf_toNat {d : Word} {i : Nat} (hi : i < 127) (hd : (writerOf d).toInt = i + 1) :
    (writerOf d).toNat = i + 1 ∧
      (numberOf d).toNat = (2 ^ 64 - (i + 1) * 2 ^ 24 + d.toNat) % 2 ^ 64 := by
  have hw := (writerOf d).isLt
  have hnat : (writerOf d).toNat = i + 1 := by
    rw [BitVec.toInt_eq_toNat_cond] at hd
    split at hd <;> omega
  have hmsb : (writerOf d).msb = false := by
    rw [BitVec.msb_eq_decide, hnat]
    exact decide_eq_false (by omega)
  refine ⟨hnat, ?_⟩
  unfold numberOf
  rw [BitVec.toNat_sub, BitVec.signExtend_eq_setWidth_of_msb_false hmsb, BitVec.toNat_shiftLeft,
    BitVec.toNat_setWidth, hnat, Nat.shiftLeft_eq]
  omega

/-- The reader takes a word for number `t` of writer `w` exactly if it is the word that this
writer sends as its number `t`, and `t` has at most 24 bits. -/
theorem decode_iff {d : Word} (w : Fin c.numWriters) {t : Nat} (ht : t < 2 ^ 31) :
    (writerOf d).toInt - 1 = w ∧ BitVec.ofNat 64 t = numberOf d ↔ d = msg c w t ∧ t < 2 ^ 24 := by
  have hw := w.isLt
  have hle := c.writers_le
  have hmsg := msg_toNat w ht
  have hd := d.isLt
  have hwriter : (writerOf d).toNat = d.toNat / 2 ^ 24 % 2 ^ 32 := by
    unfold writerOf
    rw [BitVec.toNat_setWidth, BitVec.toNat_ushiftRight, Nat.shiftRight_eq_div_pow]
  constructor
  · intro h
    obtain ⟨hindex, hnumber⟩ := h
    obtain ⟨hnat, hnum⟩ := numberOf_toNat (d := d) (i := w) (by omega) (by omega)
    have hval := congrArg BitVec.toNat hnumber
    rw [BitVec.toNat_ofNat, hnum] at hval
    -- nothing is left above the bits of the writer, as `t` would have it
    have hplace : d.toNat = (w + 1) * 2 ^ 24 + t ∧ t < 2 ^ 24 := by omega
    exact ⟨BitVec.eq_of_toNat_eq (hplace.1.trans hmsg.symm), hplace.2⟩
  · intro h
    obtain ⟨rfl, hsmall⟩ := h
    rw [hmsg] at hwriter
    have hnat : (writerOf (msg c w t)).toNat = w + 1 := by omega
    have hint : (writerOf (msg c w t)).toInt = w + 1 := by
      rw [BitVec.toInt_eq_toNat_cond, hnat]
      split <;> omega
    obtain ⟨-, hnum⟩ := numberOf_toNat (i := w) (by omega) hint
    refine ⟨by omega, BitVec.eq_of_toNat_eq ?_⟩
    rw [BitVec.toNat_ofNat, hnum, hmsg]
    omega

/-- Of numbers with 24 bits at most, different ones make different words. -/
theorem msg_inj {v w : Fin c.numWriters} {k t : Nat} (hk : k < 2 ^ 24) (ht : t < 2 ^ 24)
    (h : msg c v k = msg c w t) : (v, k) = (w, t) := by
  have hval := congrArg BitVec.toNat h
  rw [msg_toNat v (by omega), msg_toNat w (by omega)] at hval
  have hvw : v = w := Fin.ext (by omega)
  have hkt : k = t := by omega
  rw [hvw, hkt]

/-! ### Any number of words -/

/-- The words of these writers with these numbers. -/
def words (c : Config) (xs : List (Fin c.numWriters × Nat)) : List Word :=
  xs.map fun x => msg c x.1 x.2

/-- Each writer's numbers are there in order, from 0 on, and have at most 24 bits. -/
structure InOrder (c : Config) (xs : List (Fin c.numWriters × Nat)) : Prop where
  merge : Merge xs fun w => (ofWriter w xs).length
  small : ∀ x ∈ xs, x.2 < 2 ^ 24

/-- What the reader knows when it has read these words and found nothing wrong. -/
structure Counts {c : Config} (r : Reader c) (xs : List (Fin c.numWriters × Nat)) : Prop where
  j : r.j = xs.length
  trackers : ∀ w, r.trackers w = BitVec.ofNat 64 (ofWriter w xs).length
  result : r.result = loopTest c r.j

section Words
variable {r : Reader c} {xs ys : List (Fin c.numWriters × Nat)} {w : Fin c.numWriters} {k : Nat}
  {d : Word} {nums : List Word}

theorem InOrder.nil : InOrder c [] := ⟨fun _ => rfl, fun _ hx => by cases hx⟩

theorem InOrder.left (h : InOrder c (xs ++ ys)) : InOrder c xs :=
  ⟨h.merge.left, fun x hx => h.small x (List.mem_append_left ys hx)⟩

theorem InOrder.snoc (h : InOrder c xs) (hk : (ofWriter w xs).length < 2 ^ 24) :
    InOrder c (xs ++ [(w, (ofWriter w xs).length)]) where
  merge v := by
    have hmore := h.merge.snoc w
    show ofWriter v _ = List.range (ofWriter v _).length
    rw [← hmore.sent_eq v]
    exact hmore v
  small x hx := by
    rcases List.mem_append.mp hx with hx | hx
    · exact h.small x hx
    · obtain rfl := List.mem_singleton.mp hx
      exact hk

/-- The same words have the same writers and numbers. -/
theorem words_inj (hxs : ∀ x ∈ xs, x.2 < 2 ^ 24) (hys : ∀ y ∈ ys, y.2 < 2 ^ 24)
    (h : words c xs = words c ys) : xs = ys := by
  induction xs generalizing ys with
  | nil => exact (List.map_eq_nil_iff.mp h.symm).symm
  | cons x xs ih =>
      cases ys with
      | nil => cases h
      | cons y ys =>
          obtain ⟨hx, hxs⟩ := List.forall_mem_cons.mp hxs
          obtain ⟨hy, hys⟩ := List.forall_mem_cons.mp hys
          obtain ⟨hhead, htail⟩ := List.cons.inj h
          rw [ih hxs hys htail]
          exact congrArg (· :: ys) (msg_inj hx hy hhead)

/-- In front of a word, the reader has counted less than `int` has room for. -/
theorem Counts.count_lt (h : Counts r xs) (hj : r.j ≤ c.total) (w : Fin c.numWriters) :
    (ofWriter w xs).length < 2 ^ 31 := by
  have hlen : (ofWriter w xs).length ≤ xs.length := by
    unfold ofWriter
    rw [List.length_map]
    exact List.length_filter_le ..
  have htotal := total_lt c
  have hcount := h.j
  omega

/-- A word whose writer is there. -/
theorem Reader.read_writer (r : Reader c) (h : (writerOf d).toInt - 1 = w) : r.read d =
    if r.trackers w ≠ numberOf d then
      { r with trackers := Function.update r.trackers w (r.trackers w + 1), result := some .failed }
    else ⟨r.j + 1, Function.update r.trackers w (r.trackers w + 1), loopTest c (r.j + 1)⟩ := by
  have hin : 0 ≤ (writerOf d).toInt - 1 ∧ ((writerOf d).toInt - 1).toNat < c.numWriters := by
    have hw := w.isLt
    omega
  have hfin : (⟨((writerOf d).toInt - 1).toNat, hin.2⟩ : Fin c.numWriters) = w :=
    Fin.ext (by dsimp only; omega)
  unfold Reader.read
  rw [dif_pos hin, hfin]

/-- A word whose writer is not there. -/
theorem Reader.read_nobody (r : Reader c)
    (h : ∀ w : Fin c.numWriters, (writerOf d).toInt - 1 ≠ w) :
    r.read d = { r with result := some .outside } := by
  unfold Reader.read
  refine dif_neg fun hin => h ⟨((writerOf d).toInt - 1).toNat, hin.2⟩ ?_
  dsimp only
  omega

/-- The word that the reader waits for: it counts one more of its writer. -/
theorem Counts.read (h : Counts r xs) (hj : r.j ≤ c.total) (hk : (ofWriter w xs).length < 2 ^ 24) :
    Counts (r.read (msg c w (ofWriter w xs).length)) (xs ++ [(w, (ofWriter w xs).length)]) := by
  obtain ⟨hindex, hnumber⟩ := (decode_iff w (h.count_lt hj w)).mpr ⟨rfl, hk⟩
  rw [r.read_writer hindex, if_neg (not_not.mpr ((h.trackers w).trans hnumber))]
  refine ⟨?_, fun v => ?_, rfl⟩
  · rw [List.length_append, List.length_singleton, h.j]
  · dsimp only
    rw [ofWriter_append, List.length_append]
    by_cases hv : v = w
    · subst hv
      rw [Function.update_self, ofWriter_self, List.length_singleton, h.trackers, BitVec.ofNat_add]
      rfl
    · rw [Function.update_of_ne hv, ofWriter_other (Ne.symm hv), h.trackers, List.length_nil,
        Nat.add_zero]

/-- Any other word: it reports a failure, or leaves its array. -/
theorem Counts.read_other (h : Counts r xs) (hj : r.j ≤ c.total)
    (hd : ∀ w, ¬ (d = msg c w (ofWriter w xs).length ∧ (ofWriter w xs).length < 2 ^ 24)) :
    (r.read d).result = some .failed ∨ (r.read d).result = some .outside := by
  by_cases hw : ∃ w : Fin c.numWriters, (writerOf d).toInt - 1 = w
  · obtain ⟨w, hindex⟩ := hw
    have hwrong : r.trackers w ≠ numberOf d := fun hnumber =>
      hd w ((decode_iff w (h.count_lt hj w)).mp ⟨hindex, (h.trackers w).symm.trans hnumber⟩)
    rw [r.read_writer hindex, if_pos hwrong]
    exact .inl rfl
  · rw [r.read_nobody fun w hindex => hw ⟨w, hindex⟩]
    exact .inr rfl

theorem Counts.start : Counts (Reader.start c) [] := ⟨rfl, fun _ => rfl, rfl⟩

theorem readAll_snoc (nums : List Word) (d : Word) : Reader.readAll c (nums ++ [d]) =
    if (Reader.readAll c nums).result = none then (Reader.readAll c nums).read d
    else Reader.readAll c nums := by
  unfold Reader.readAll
  rw [List.foldl_append]
  rfl

/-- What a reader has made of words, no more than it waits for: it has found nothing wrong and
they are in order, or it has failed and they are not. -/
theorem readAll_cases (hlen : nums.length ≤ c.total) :
    (∃ xs, nums = words c xs ∧ InOrder c xs ∧ Counts (Reader.readAll c nums) xs) ∨
    (((Reader.readAll c nums).result = some .failed ∨
        (Reader.readAll c nums).result = some .outside) ∧
      ∀ xs, nums = words c xs → ¬ InOrder c xs) := by
  induction nums using List.reverseRecOn with
  | nil => exact .inl ⟨[], rfl, .nil, .start⟩
  | append_singleton nums d ih =>
      rw [List.length_append, List.length_singleton] at hlen
      rw [readAll_snoc]
      -- if these words were in order, so were those before the last
      have hcut : ∀ zs, nums ++ [d] = words c zs → InOrder c zs → ∃ ys w,
          nums = words c ys ∧ InOrder c ys ∧ d = msg c w (ofWriter w ys).length ∧
            (ofWriter w ys).length < 2 ^ 24 := by
        intro zs hzs horder
        obtain ⟨ys, z, rfl, hys, hz⟩ := List.map_eq_append_iff.mp hzs.symm
        obtain ⟨⟨w, k⟩, rfl, hlast⟩ := List.map_eq_singleton_iff.mp hz
        obtain rfl := horder.merge.number
        exact ⟨ys, w, hys.symm, horder.left, hlast.symm,
          horder.small (w, _) (List.mem_append_right ys List.mem_cons_self)⟩
      rcases ih (by omega) with ⟨xs, rfl, horder, hcounts⟩ | ⟨hfailed, hnone⟩
      · have hj : (Reader.readAll c (words c xs)).j < c.total := by
          rw [hcounts.j]
          rw [words, List.length_map] at hlen
          omega
        have hgoes : (Reader.readAll c (words c xs)).result = none := by
          rw [hcounts.result, loopTest, if_pos hj]
        rw [if_pos hgoes]
        by_cases hd : ∃ w, d = msg c w (ofWriter w xs).length ∧ (ofWriter w xs).length < 2 ^ 24
        · obtain ⟨w, rfl, hk⟩ := hd
          refine .inl ⟨xs ++ [(w, (ofWriter w xs).length)], ?_, horder.snoc hk,
            hcounts.read hj.le hk⟩
          rw [words, words, List.map_append, List.map_singleton]
        · refine .inr ⟨hcounts.read_other hj.le fun w hw => hd ⟨w, hw⟩, fun zs hzs hin => ?_⟩
          obtain ⟨ys, w, hys, hyorder, hlast, hk⟩ := hcut zs hzs hin
          obtain rfl := words_inj horder.small hyorder.small hys
          exact hd ⟨w, hlast, hk⟩
      · have hends : ¬ (Reader.readAll c nums).result = none := by
          rcases hfailed with hfailed | hfailed <;> rw [hfailed] <;> simp
        rw [if_neg hends]
        refine .inr ⟨hfailed, fun zs hzs hin => ?_⟩
        obtain ⟨ys, w, hys, hyorder, -⟩ := hcut zs hzs hin
        exact hnone ys hys hyorder

/-- **What the reader accepts.** Given words, no more than it waits for, it goes on with its loop,
or says `Success!` behind the last, exactly if they are the words of its writers with each
writer's numbers from 0 on, in order, of 24 bits at most. How many there are of each writer does
not matter to it. With any others it reports a failure, or leaves its array. -/
theorem reader_accepts_iff (hlen : nums.length ≤ c.total) :
    ((Reader.readAll c nums).result = loopTest c nums.length ↔
      ∃ xs, nums = words c xs ∧ InOrder c xs) ∧
    ((¬ ∃ xs, nums = words c xs ∧ InOrder c xs) →
      (Reader.readAll c nums).result = some .failed ∨
        (Reader.readAll c nums).result = some .outside) := by
  rcases readAll_cases hlen with ⟨xs, hxs, horder, hcounts⟩ | ⟨hfailed, hnone⟩
  · refine ⟨⟨fun _ => ⟨xs, hxs, horder⟩, fun _ => ?_⟩, fun h => absurd ⟨xs, hxs, horder⟩ h⟩
    rw [hcounts.result, hcounts.j, hxs, words, List.length_map]
  · refine ⟨⟨fun h => ?_, fun ⟨xs, hxs, hin⟩ => absurd hin (hnone xs hxs)⟩, fun _ => hfailed⟩
    rw [h, loopTest] at hfailed
    split at hfailed <;> rcases hfailed with hfailed | hfailed <;> cases hfailed

/-- Two writers of one number each, and both words from the first. -/
theorem reader_accepts_iff_one_sided :
    (Reader.readAll ⟨2, 1, by decide, by decide, by decide⟩ [0x1000000, 0x1000001]).result =
      some .success := by
  have horder : InOrder ⟨2, 1, by decide, by decide, by decide⟩ [(0, 0), (0, 1)] :=
    ⟨by decide, by decide⟩
  exact (reader_accepts_iff (by decide)).1.mpr ⟨_, by decide, horder⟩

end Words

end Ece357.FifoTest
