import Ece357.Walker.Model
import Mathlib.Data.List.TakeWhile

/-!
# Ece357.Walker.Filters

**Which entries do the filters accept?** The filter for the owner takes its string for an id if
`atoi` makes something of it, and for a name otherwise. So the id 0 is taken for a name, and a
name that begins with digits for an id; and without the option, nobody has said that there is no
filter (`owner_filter_iff`).

The filter for the age compares times that were cut off to 32 bits. That is exact for times in the
same stretch of 2^32 seconds, and otherwise a matter of chance (`age_filter_iff`).
-/

namespace Ece357.Walker

open Ece357.Machine

/-! ### The owner -/

/-- A number without sign. -/
def IsDecimal (s : CStr) : Prop := s ≠ [] ∧ ∀ c ∈ s, c.isDigit = true

theorem isSpace_of_isDigit {c : Char} (h : c.isDigit = true) : isSpace c = false := by
  have hrange : 48 ≤ c.toNat ∧ c.toNat ≤ 57 := Char.isDigit_iff_toNat.mp h
  unfold isSpace
  simp only [Bool.or_eq_false_iff, decide_eq_false_iff_not]
  refine ⟨⟨⟨⟨⟨?_, ?_⟩, ?_⟩, ?_⟩, ?_⟩, ?_⟩
  all_goals
    first
    | rintro rfl
      exact absurd h (by decide)
    | omega

/-- What `strtol` makes of digits. -/
theorem strtol_digits {s : CStr} (h : ∀ c ∈ s, c.isDigit = true) :
    strtol s = min (2 ^ 63 - 1) (digitsValue s : Int) := by
  have hdigits : s.takeWhile Char.isDigit = s := List.takeWhile_eq_self_iff.mpr h
  cases s with
  | nil => rfl
  | cons c s =>
      have hc : c.isDigit = true := h c (List.mem_cons_self ..)
      have hspace : (c :: s).dropWhile isSpace = c :: s := by
        rw [List.dropWhile_cons_of_neg (by rw [isSpace_of_isDigit hc]; exact Bool.false_ne_true)]
      unfold strtol
      rw [hspace]
      dsimp only
      split
      · next heq =>
          obtain ⟨rfl, -⟩ := List.cons.inj heq
          cases hc
      · next heq =>
          obtain ⟨rfl, -⟩ := List.cons.inj heq
          cases hc
      · rw [hdigits]

/-- An id is read right. -/
theorem atoi_uid {s : CStr} (h : IsDecimal s) {uid : BitVec 32} (hval : digitsValue s = uid.toNat) :
    BitVec.ofInt 32 (atoi s) = uid ∧ (atoi s = 0 ↔ uid = 0) := by
  have huid := uid.isLt
  have hatoi : atoi s = Int.bmod uid.toNat (2 ^ 32) := by
    rw [atoi, strtol_digits h.2, hval, toInt, Int.min_eq_right (by omega)]
  have htoInt : atoi s = uid.toInt := by
    rw [hatoi, BitVec.toInt_eq_toNat_bmod]
  rw [htoInt]
  refine ⟨BitVec.ofInt_toInt, ?_⟩
  rw [← BitVec.toInt_inj]
  rfl

/-- The test for an owner selects another one if no file belongs to just one of them. -/
theorem some_decide_eq_iff {owner uid uid' : BitVec 32} :
    some (decide (uid' = owner)) = some (decide (owner = uid)) ↔ (owner = uid' ↔ owner = uid) := by
  rw [Option.some.injEq, decide_eq_decide, @eq_comm _ uid']

theorem userTest_id {sys : System} {s : CStr} (h : atoi s ≠ 0) (owner : BitVec 32) :
    userTest sys (.str s) owner = some (decide (BitVec.ofInt 32 (atoi s) = owner)) := if_neg h

theorem userTest_name {sys : System} {s : CStr} (h : atoi s = 0) (owner : BitVec 32) :
    userTest sys (.str s) owner = (sys.getpwnam s).map fun pwUid => decide (pwUid = owner) := by
  unfold userTest
  dsimp only
  rw [if_pos h]
  cases sys.getpwnam s <;> rfl

/-- With a number, the test is for the owner with that id, but for the id 0: there it is for the
user with that name, and does not return if there is none. -/
theorem userTest_decimal_iff (sys : System) {s : CStr} (h : IsDecimal s) {uid : BitVec 32}
    (hval : digitsValue s = uid.toNat) (owner : BitVec 32) :
    userTest sys (.str s) owner = some (decide (owner = uid)) ↔
      uid ≠ 0 ∨ ∃ pwUid, sys.getpwnam s = some pwUid ∧ (owner = pwUid ↔ owner = 0) := by
  obtain ⟨hatoi, hzero⟩ := atoi_uid h hval
  by_cases huid : uid = 0
  · rw [userTest_name (hzero.mpr huid), huid]
    cases hname : sys.getpwnam s with
    | none =>
        refine ⟨fun heq => ?_, ?_⟩
        · cases heq
        · rintro (hne | ⟨_, heq, -⟩)
          · exact absurd rfl hne
          · cases heq
    | some pwUid =>
        rw [Option.map_some, some_decide_eq_iff]
        refine ⟨fun heq => .inr ⟨pwUid, rfl, heq⟩, ?_⟩
        rintro (hne | ⟨_, heq, howner⟩)
        · exact absurd rfl hne
        · rw [Option.some.inj heq]
          exact howner
  · rw [userTest_id fun heq => huid (hzero.mp heq), hatoi, some_decide_eq_iff]
    exact iff_of_true Iff.rfl (.inl huid)

/-- With a name that begins like a number, the test is for that number. -/
theorem userTest_name_iff (sys : System) {s : CStr} {uid : BitVec 32}
    (hname : sys.getpwnam s = some uid) (owner : BitVec 32) :
    userTest sys (.str s) owner = some (decide (owner = uid)) ↔
      atoi s = 0 ∨ (owner = BitVec.ofInt 32 (atoi s) ↔ owner = uid) := by
  by_cases huser : atoi s = 0
  · rw [userTest_name huser, hname, Option.map_some, some_decide_eq_iff]
    exact iff_of_true Iff.rfl (.inl huser)
  · rw [userTest_id huser, some_decide_eq_iff]
    exact ⟨.inr, fun h => h.resolve_left huser⟩

/-- Only a null pointer accepts every owner. -/
theorem userTest_all_iff (sys : System) (userFilter : Pointer) :
    (∀ owner, userTest sys userFilter owner = some true) ↔ userFilter = .null := by
  refine ⟨fun h => ?_, fun h owner => by rw [h]; rfl⟩
  cases userFilter with
  | null => rfl
  | invalid => cases h 0
  | str s =>
      -- the test is for one owner, whichever it is
      obtain ⟨uid, huid⟩ : ∃ uid, ∀ owner,
          userTest sys (.str s) owner = some (decide (uid = owner)) := by
        by_cases huser : atoi s = 0
        · cases hname : sys.getpwnam s with
          | none =>
              have h0 := h 0
              rw [userTest_name huser, hname] at h0
              cases h0
          | some pwUid => exact ⟨pwUid, fun owner => by rw [userTest_name huser, hname]; rfl⟩
        · exact ⟨_, fun owner => userTest_id huser owner⟩
      have hone : ∀ owner, uid = owner := fun owner =>
        of_decide_eq_true (Option.some.inj ((huid owner).symm.trans (h owner)))
      exact absurd ((hone 0).symm.trans (hone 1)) (by decide)

/-- Options without `-u`. -/
def NoUser (opts : List Opt) : Prop := ∀ opt ∈ opts, ∃ optarg, opt = .m optarg

/-- The variable keeps what it contained. -/
theorem getOptions_userFilter {opts : List Opt} (h : NoUser opts) (f : Filters) :
    ∃ timeFilter, getOptions opts f = some { f with timeFilter := timeFilter } := by
  induction opts generalizing f with
  | nil => exact ⟨f.timeFilter, rfl⟩
  | cons opt opts ih =>
      obtain ⟨⟨optarg, rfl⟩, hopts⟩ := List.forall_mem_cons.mp h
      exact ih hopts _

/-- **Which owner does the filter select?** The one it is meant to, for a number, unless it is 0,
which is looked up as a name; for a name, if `atoi` makes nothing of it; and without the option,
if the variable happens to be NULL. Otherwise a file is judged right only if it belongs to both
the owner meant and the owner taken, or to neither. -/
theorem owner_filter_iff (sys : System) :
    (∀ s uid owner, IsDecimal s → digitsValue s = BitVec.toNat uid →
      (userTest sys (.str s) owner = some (decide (owner = uid)) ↔
        uid ≠ 0 ∨ ∃ pwUid, sys.getpwnam s = some pwUid ∧ (owner = pwUid ↔ owner = 0))) ∧
    (∀ s uid owner, ¬ IsDecimal s → sys.getpwnam s = some uid →
      (userTest sys (.str s) owner = some (decide (owner = uid)) ↔
        atoi s = 0 ∨ (owner = BitVec.ofInt 32 (atoi s) ↔ owner = uid))) ∧
    (∀ opts garbage, NoUser opts → ∃ f, getOptions opts ⟨garbage, none⟩ = some f ∧
      ((∀ owner, userTest sys f.userFilter owner = some true) ↔ garbage = .null)) := by
  refine ⟨fun s uid owner h hval => userTest_decimal_iff sys h hval owner,
    fun s uid owner _ hname => userTest_name_iff sys hname owner, fun opts garbage h => ?_⟩
  obtain ⟨timeFilter, hf⟩ := getOptions_userFilter h ⟨garbage, none⟩
  exact ⟨_, hf, userTest_all_iff sys garbage⟩

/-- A system with a user `9bob`, whose id is 1000. -/
def bobSystem : System where
  getpwuid _ := none
  getgrgid _ := none
  getpwnam s := if s = ['9', 'b', 'o', 'b'] then some 1000 else none
  localtime _ := none
  front := '='

/-- `-u 5` selects user 5; `-u 9bob` does not select the user of that name, but user 9; and with
`-m 1` alone, what is in `userFilter` decides. -/
theorem owner_filter_options :
    userTest bobSystem (.str ['5']) 5 = some (decide ((5 : BitVec 32) = 5)) ∧
    ¬ userTest bobSystem (.str ['9', 'b', 'o', 'b']) 9 = some (decide ((9 : BitVec 32) = 1000)) ∧
    ∃ f, getOptions [.m ['1']] ⟨.invalid, none⟩ = some f ∧
      ¬ ∀ owner, userTest bobSystem f.userFilter owner = some true := by
  have hdecimal : IsDecimal ['5'] := ⟨by decide, by simp⟩
  have hname : ¬ IsDecimal ['9', 'b', 'o', 'b'] := fun h => absurd (h.2 'b' (by simp)) (by decide)
  obtain ⟨hnumber, hother, hnone⟩ := owner_filter_iff bobSystem
  refine ⟨(hnumber ['5'] 5 5 hdecimal rfl).mpr (.inl (by decide)), fun h => ?_, ?_⟩
  · exact absurd ((hother _ 1000 9 hname rfl).mp h) (by decide)
  · obtain ⟨f, hf, hall⟩ := hnone [.m ['1']] .invalid fun opt h => ⟨['1'], List.mem_singleton.mp h⟩
    exact ⟨f, hf, fun h => by cases hall.mp h⟩

/-- `-u 0` where no user is called 0. -/
theorem owner_zero_undefined : ¬ ∀ sys s uid owner, IsDecimal s → digitsValue s = BitVec.toNat uid →
    userTest sys (.str s) owner = some (decide (owner = uid)) := by
  intro h
  have hzero := h ⟨fun _ => none, fun _ => none, fun _ => none, fun _ => none, '='⟩ ['0'] 0 0
    ⟨by decide, by simp⟩ rfl
  exact absurd hzero (by decide)

/-! ### The age -/

/-- In which stretch of 2^32 seconds a time lies, with the one around 1970 as number 0, and where
in it. -/
def era (v : Int) : Int := Int.bdiv v (2 ^ 32)

def place (v : Int) : Int := Int.bmod v (2 ^ 32)

theorem place_bounds (v : Int) : -2 ^ 31 ≤ place v ∧ place v < 2 ^ 31 := toInt_fits v

theorem place_add_era (v : Int) : place v + 2 ^ 32 * era v = v := Int.bmod_add_bdiv v (2 ^ 32)

/-- The time that a file must be older or newer than. -/
def limit (time t : Int) : Int := time - t.natAbs

/-- In one stretch, the places tell which time is first. -/
theorem place_lt_iff_of_era_eq {v w : Int} (h : era v = era w) : place v < place w ↔ v < w := by
  have hv := place_add_era v
  have hw := place_add_era w
  omega

/-- In two, the stretches do. -/
theorem era_lt_iff_of_ne {v w : Int} (h : era v ≠ era w) : era v < era w ↔ v < w := by
  have hv := place_add_era v
  have hw := place_add_era w
  have hplaceV := place_bounds v
  have hplaceW := place_bounds w
  omega

/-- What `toDisplay` compares with. -/
theorem toInt_limit (time t : Int) : toInt (toInt time - t.natAbs) = place (limit time t) :=
  Int.bmod_sub_bmod

/-- Without a filter for the owner, `toDisplay` accepts the file. -/
def Accepts (sys : System) (sb : Stat) (time t : Int) : Prop :=
  toDisplay sys ⟨.null, some t⟩ sb time = some true

theorem accepts_iff (sys : System) (sb : Stat) (time t : Int) : Accepts sys sb time t ↔
    (0 < t ∧ place sb.mtime < place (limit time t)) ∨
      (t < 0 ∧ place (limit time t) < place sb.mtime) ∨ t = 0 := by
  have hlimit := toInt_limit time t
  have hplace : toInt sb.mtime = place sb.mtime := rfl
  unfold Accepts toDisplay userTest timeTest
  simp only [Option.map_some, Bool.true_and, Option.some.injEq]
  rcases Int.lt_trichotomy t 0 with h | h | h
  · have habs : toInt time + t = toInt time - t.natAbs := by omega
    rw [if_neg (by omega), if_pos h, habs, hlimit, decide_eq_true_eq]
    exact ⟨fun hlt => .inr (.inl ⟨h, hlt⟩), by omega⟩
  · rw [if_neg (by omega), if_neg (by omega)]
    exact iff_of_true rfl (.inr (.inr h))
  · have habs : toInt time - t = toInt time - t.natAbs := by omega
    rw [if_pos h, habs, hlimit, decide_eq_true_eq]
    exact ⟨fun hlt => .inl ⟨h, hlt⟩, by omega⟩

/-- The filter as it is meant. -/
def AgeExact (sys : System) (sb : Stat) (time t : Int) : Prop :=
  Accepts sys sb time t ↔ (0 < t ∧ sb.mtime < time - t) ∨ (t < 0 ∧ time + t < sb.mtime) ∨ t = 0

/-- The time of the file and the limit lie in one stretch, or else in places that compare as the
stretches do. -/
def OrderKept (mtime time t : Int) : Prop :=
  t = 0 ∨ era mtime = era (limit time t) ∨
    (0 < t ∧ (era mtime < era (limit time t) ↔ place mtime < place (limit time t))) ∨
    (t < 0 ∧ (era (limit time t) < era mtime ↔ place (limit time t) < place mtime))

theorem ageExact_iff (sys : System) (sb : Stat) (time t : Int) :
    AgeExact sys sb time t ↔ OrderKept sb.mtime time t := by
  have hpos : 0 < t → time - t = limit time t := by
    unfold limit
    omega
  have hneg : t < 0 → time + t = limit time t := by
    unfold limit
    omega
  unfold AgeExact OrderKept
  rw [accepts_iff]
  by_cases hera : era sb.mtime = era (limit time t)
  · have hlow := place_lt_iff_of_era_eq hera
    have hhigh := place_lt_iff_of_era_eq hera.symm
    refine iff_of_true ?_ (.inr (.inl hera))
    rcases Int.lt_trichotomy t 0 with h | h | h
    · rw [hneg h, hhigh]
      omega
    · omega
    · rw [hpos h, hlow]
      omega
  · have hlow := era_lt_iff_of_ne hera
    have hhigh := era_lt_iff_of_ne (Ne.symm hera)
    rw [hlow, hhigh]
    rcases Int.lt_trichotomy t 0 with h | h | h
    · rw [hneg h]
      omega
    · omega
    · rw [hpos h]
      omega

/-- **When is the filter for the age exact?** If cutting the times off keeps their order. Whatever
the times are, no file is both older and newer; and of two files for which the filter is exact, it
accepts the older one if it accepts the newer one. -/
theorem age_filter_iff (sys : System) (sb : Stat) (time t : Int) :
    (AgeExact sys sb time t ↔ OrderKept sb.mtime time t) ∧
    (0 < t → ¬ (Accepts sys sb time t ∧ Accepts sys sb time (-t))) ∧
    (∀ older : Stat, 0 < t → older.mtime ≤ sb.mtime → OrderKept sb.mtime time t →
      OrderKept older.mtime time t → Accepts sys sb time t → Accepts sys older time t) := by
  refine ⟨ageExact_iff sys sb time t, fun ht => ?_, fun older ht hle hkept holder h => ?_⟩
  · have hlimit : limit time (-t) = limit time t := by
      unfold limit
      omega
    rw [accepts_iff, accepts_iff, hlimit]
    omega
  · have hsb := ((ageExact_iff sys sb time t).mpr hkept).mp h
    refine ((ageExact_iff sys older time t).mpr holder).mpr ?_
    omega

/-- `-m 1` in 1970, with a file of 2038. -/
theorem age_filter_wraps : ¬ ∀ sys sb time t, AgeExact sys sb time t := by
  intro h
  have hwrap := h ⟨fun _ => none, fun _ => none, fun _ => none, fun _ => none, '='⟩
    ⟨0, 0, 0, 0, 0, 0, 0, 0, 2 ^ 31⟩ 0 1
  exact absurd hwrap (by unfold AgeExact Accepts; decide)

/-- Between 1901 and 2038, the filter is exact. -/
theorem orderKept_of_fits {mtime time t : Int} (hm : FitsInt mtime)
    (hlimit : FitsInt (limit time t)) : OrderKept mtime time t := by
  have hera : ∀ v, FitsInt v → era v = 0 := by
    intro v hv
    have hsum := place_add_era v
    have hplace : place v = v := toInt_of_fits hv
    omega
  exact .inr (.inl ((hera _ hm).trans (hera _ hlimit).symm))

end Ece357.Walker
