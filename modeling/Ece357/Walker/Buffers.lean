import Ece357.Walker.Walk

/-!
# Ece357.Walker.Buffers

**Do the paths fit their buffers?** A starting path without a slash at its end never does: the slash
is put behind a string of `argv`, which has storage for no more than itself. And nothing in the
code looks at a length: the path of a directory that is entered must fit 512 bytes with its slash,
that of an entry without one, down the whole walk (`inBounds_iff`).
-/

namespace Ece357.Walker

open Ece357.Machine Trace

/-- The access stays inside the storage of the string. -/
def Event.InBounds : Event → Prop
  | .readLast length => 0 < length
  | .fill room bytes => bytes ≤ room
  | _ => True

instance (ev : Event) : Decidable ev.InBounds :=
  match ev with
  | .readLast _ => inferInstanceAs (Decidable (_ < _))
  | .fill .. => inferInstanceAs (Decidable (_ ≤ _))
  | .opendir _ | .cannotOpen _ | .readNull | .printData _ | .statFailed | .readlinkFailed
  | .line _ => isTrue trivial

/-- All accesses of a walk do. -/
def PathsInBounds (sys : System) (f : Filters) (start : CStr) (opens : Bool) (contents : Entries) :
    Prop :=
  ∀ ev ∈ (listDir sys f start (start.length + 1) opens contents).events, ev.InBounds

/-! ### Steps -/

section Steps
variable (sys : System) (f : Filters) (start : CStr)

/-- The starting path must end with a slash. -/
theorem start_inBounds_iff (opens : Bool) :
    (∀ ev ∈ (perform sys f start (.start opens)).events, ev.InBounds) ↔
      start.getLast? = some '/' := by
  obtain ⟨accesses, hacc, heq⟩ := listDirWith_done sys start (start.length + 1) opens
  have htail : ∀ ev ∈ (if opens then [] else [.cannotOpen (slashed sys start), .readNull]),
      Event.InBounds ev := by
    cases opens <;> simp [Event.InBounds]
  have hlast : start.getLast? = some '/' ↔ 0 < start.length ∧ slashed sys start = start := by
    unfold slashed
    rw [List.getLastD_eq_getLast?]
    cases hlast : start.getLast? with
    | none => simp [List.getLast?_eq_none_iff.mp hlast]
    | some c =>
        have hne : start ≠ [] := by
          rintro rfl
          cases hlast
        have hpos := List.length_pos_iff.mpr hne
        by_cases hc : c = '/' <;> simp [hc, hpos]
  rw [perform, heq, hlast, List.forall_mem_append, and_iff_left htail]
  cases hacc with
  | slash h => simp [Event.InBounds, h]
  | noSlash h =>
      have hlen : (slashed sys start).length = start.length + 1 := by
        have hslash : slashed sys start = start ++ ['/'] := by
          unfold slashed at h ⊢
          split_ifs at h ⊢
          · rfl
          · exact absurd rfl h
        rw [hslash, List.length_append, List.length_singleton]
      simp [Event.InBounds, h, hlen]

theorem enter_inBounds_iff (names : List Name) (name : Name) (opens : Bool) :
    (∀ ev ∈ (perform sys f start (.enter names name opens)).events, ev.InBounds) ↔
      Step.Fits sys start (.enter names name opens) := by
  obtain ⟨accesses, hacc, heq⟩ :=
    listDirWith_done sys (dirPath sys start names ++ name.str) 512 opens
  have hslash : slashed sys (dirPath sys start names ++ name.str) =
      dirPath sys start names ++ name.str ++ ['/'] := slashed_name ..
  have hpos := List.length_pos_iff.mpr name.ne_nil
  unfold Step.Fits
  dsimp only [perform]
  rw [heq, ← slashed_dirPath]
  cases hacc with
  | slash h => simp [h] at hslash
  | noSlash h =>
      rw [hslash]
      cases opens <;> simp [Event.InBounds, emit, andThen, Returns] <;> omega

theorem visit_inBounds_iff (names : List Name) (e : Entry) :
    (∀ ev ∈ (perform sys f start (.visit names e)).events, ev.InBounds) ↔
      Step.Fits sys start (.visit names e) := by
  obtain ⟨out, ending, heq, hout⟩ := printData_eq sys f (dirPath sys start names) e
  have htail : ∀ ev ∈ out, ev.InBounds := by
    generalize e.fate sys f = fate at hout
    cases hout <;> simp [Event.InBounds]
  unfold Step.Fits
  rw [perform, heq, List.forall_mem_append]
  simp only [List.forall_mem_cons, Event.InBounds, List.length_append]
  refine ⟨fun h => h.1.2.2.1, fun h => ⟨⟨trivial, by omega, h, fun _ hnil => by cases hnil⟩, htail⟩⟩

end Steps

/-- **When do the paths stay in their buffers?** If the starting path ends with a slash, and the
path of each directory that is entered, and of each entry that is come by, fits. -/
theorem inBounds_iff (sys : System) (f : Filters) (start : CStr) (opens : Bool)
    (contents : Entries) : PathsInBounds sys f start opens contents ↔
      start.getLast? = some '/' ∧
      ∀ s ∈ through (fun s => s.opened && s.completes sys f) (walk opens contents),
        s.Fits sys start := by
  have hstep : ∀ s, start.getLast? = some '/' →
      ((∀ ev ∈ (perform sys f start s).events, ev.InBounds) ↔ s.Fits sys start) := by
    intro s hstart
    cases s with
    | start opens => exact iff_of_true ((start_inBounds_iff sys f start opens).mpr hstart) trivial
    | enter names name opens => exact enter_inBounds_iff sys f start names name opens
    | visit names e => exact visit_inBounds_iff sys f start names e
  unfold PathsInBounds
  rw [events_listDir]
  constructor
  · intro h
    have hstart : start.getLast? = some '/' :=
      (start_inBounds_iff sys f start opens).mp fun ev hev =>
        h ev (List.mem_flatMap.mpr ⟨_, mem_through_head .., hev⟩)
    exact ⟨hstart, fun s hs => (hstep s hstart).mp fun ev hev =>
      h ev (List.mem_flatMap.mpr ⟨s, hs, hev⟩)⟩
  · rintro ⟨hstart, hfits⟩ ev hev
    obtain ⟨s, hs, hev⟩ := List.mem_flatMap.mp hev
    exact (hstep s hstart).mpr (hfits s hs) ev hev

/-- The slash behind `x` is written where the next string begins. -/
theorem argv_overrun :
    ¬ ∀ sys f start opens contents, PathsInBounds sys f start opens contents := by
  intro h
  exact absurd (h (sampleSystem none) noFilters ['x'] true .nil) (by unfold PathsInBounds; decide)

end Ece357.Walker
