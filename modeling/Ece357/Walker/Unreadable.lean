import Ece357.Walker.Walk

/-!
# Ece357.Walker.Unreadable

**A directory that cannot be opened** ends the walk. After its message, `listDir` goes on to read
the directory, which it does not have. So the walk of a tree is as if the directories that cannot be
opened were empty, with a message for each, precisely if it comes by none of them
(`containsFailures_iff`): none is there, or they are hidden, or `printData` has ended the process
before.
-/

namespace Ece357.Walker

open Ece357.Machine Trace

/-- The tree, with nothing in the directories that cannot be opened. -/
def Entries.emptied : Entries → Entries
  | .nil => .nil
  | .cons e opens contents rest =>
      .cons e true (if opens then contents.emptied else .nil) rest.emptied

/-- The directories for which the message is printed. -/
def reports (t : Trace Event) : List CStr := t.events.filterMap fun
  | .cannotOpen path => some path
  | _ => none

/-- The walk goes on as if the directories that cannot be opened were empty. -/
structure ContainsFailures (sys : System) (f : Filters) (start : CStr) (opens : Bool)
    (contents : Entries) : Prop where
  noNull : .readNull ∉ (listDir sys f start (start.length + 1) opens contents).events
  reports : reports (listDir sys f start (start.length + 1) opens contents) =
    (through (Step.completes sys f) (walk opens contents)).filterMap (Step.unreadable? sys start)
  asEmpty : ((listDir sys f start (start.length + 1) opens contents).events.filter fun
      | .cannotOpen _ => false
      | _ => true) =
    (listDir sys f start (start.length + 1) true (if opens then contents.emptied else .nil)).events
  ending : (listDir sys f start (start.length + 1) opens contents).ending =
    (listDir sys f start (start.length + 1) true (if opens then contents.emptied else .nil)).ending

/-! ### The tree with its unreadable directories emptied -/

/-- The step, if its directory could be opened. -/
def Step.ready : Step → Step
  | .start _ => .start true
  | .enter names name _ => .enter names name true
  | .visit names e => .visit names e

@[simp] theorem Step.ready_opened (s : Step) : s.ready.opened = true := by
  cases s <;> rfl

@[simp] theorem Step.ready_completes (sys : System) (f : Filters) (s : Step) :
    s.ready.completes sys f = s.completes sys f := by
  cases s <;> rfl

theorem Step.ready_of_opened {s : Step} (h : s.opened = true) : s.ready = s := by
  cases s with
  | start opens => rw [show opens = true from h]; rfl
  | enter names name opens => rw [show opens = true from h]; rfl
  | visit names e => rfl

theorem Step.unreadable?_of_opened {sys : System} {start : CStr} {s : Step}
    (h : s.opened = true) : s.unreadable? sys start = none := by
  cases s with
  | start opens => rw [show opens = true from h]; rfl
  | enter names name opens => rw [show opens = true from h]; rfl
  | visit names e => rfl

theorem stepsIn_emptied (contents : Entries) (names : List Name) :
    stepsIn contents.emptied names = (stepsIn contents names).map Step.ready := by
  induction contents generalizing names with
  | nil => rfl
  | cons e opens contents rest ihContents ihRest =>
      rw [Entries.emptied, stepsIn, stepsIn]
      by_cases hhidden : e.Hidden
      · rw [if_pos hhidden, if_pos hhidden, ihRest]
      · rw [if_neg hhidden, if_neg hhidden, List.map_append, List.map_cons, ihRest]
        by_cases hdtype : e.dtype = .dir
        · rw [if_pos hdtype, if_pos hdtype, if_pos rfl]
          cases opens with
          | true => rw [if_pos rfl, if_pos rfl, ihContents]; rfl
          | false => rfl
        · rw [if_neg hdtype, if_neg hdtype]
          rfl

theorem walk_emptied (opens : Bool) (contents : Entries) :
    walk true (if opens then contents.emptied else .nil) =
      (walk opens contents).map Step.ready := by
  unfold walk
  cases opens with
  | true =>
      rw [if_pos rfl, if_pos rfl, if_pos rfl, stepsIn_emptied]
      rfl
  | false => rfl

/-! ### The failure -/

section Failure
variable (sys : System) (f : Filters) (start : CStr)

/-- `readdir` is called with NULL just for a directory that was not opened. -/
theorem readNull_mem_iff (s : Step) :
    .readNull ∈ (perform sys f start s).events ↔ s.opened = false := by
  obtain ⟨out, hout, houtputs⟩ := perform_outputs sys f start s
  have hmem : .readNull ∈ (perform sys f start s).events ↔ .readNull ∈ out := by
    rw [← hout, List.mem_filter]
    exact ⟨fun h => ⟨h, rfl⟩, fun h => h.1⟩
  rw [hmem]
  cases houtputs with
  | entered _ hopened => simp [hopened]
  | failed _ hopened => simp [hopened]
  | visited h =>
      generalize Entry.fate sys f _ = fate at h
      cases h <;> simp [Step.opened]

/-- So is the message. -/
theorem reports_perform (s : Step) :
    reports (perform sys f start s) = (s.unreadable? sys start).toList := by
  obtain ⟨out, hout, houtputs⟩ := perform_outputs sys f start s
  unfold reports
  rw [filterMap_outputs (fun ev hev => by cases ev <;> first | rfl | cases hev), hout]
  cases houtputs with
  | entered _ _ h => rw [h]; rfl
  | failed _ _ h => rw [h]; rfl
  | visited h =>
      generalize Entry.fate sys f _ = fate at h
      cases h <;> rfl

/-- No directory that the walk comes by fails to open, as far as it is not ended by `printData`. -/
def AllOpen (opens : Bool) (contents : Entries) : Prop :=
  ∀ s ∈ through (Step.completes sys f) (walk opens contents), s.opened = true

variable {sys f start} {opens : Bool} {contents : Entries}

/-- Then the walk is the one of the tree with its unreadable directories emptied. -/
theorem listDir_emptied (h : AllOpen sys f opens contents) :
    listDir sys f start (start.length + 1) opens contents =
      listDir sys f start (start.length + 1) true (if opens then contents.emptied else .nil) := by
  rw [listDir_eq, listDir_eq, walk_emptied, List.map_map]
  refine seq_congr fun s hs => ?_
  have hreturns : ∀ s, ((perform sys f start ∘ Step.ready) s).Returns = s.completes sys f := by
    intro s
    rw [Function.comp_apply, perform_returns, Step.ready_opened, Step.ready_completes,
      Bool.true_and]
  rw [through_congr fun s _ => hreturns s] at hs
  rw [Function.comp_apply, Step.ready_of_opened (h s hs)]

theorem readNull_mem_of_not_allOpen (h : ¬ AllOpen sys f opens contents) :
    .readNull ∈ (listDir sys f start (start.length + 1) opens contents).events := by
  obtain ⟨s, hs, hopened⟩ : ∃ s ∈ through (Step.completes sys f) (walk opens contents),
      s.opened = false := by
    by_contra hnone
    refine h fun s hs => ?_
    cases hopened : s.opened with
    | true => rfl
    | false => exact absurd ⟨s, hs, hopened⟩ hnone
  obtain ⟨s', hs', hopened'⟩ := exists_mem_through_and hs hopened
  rw [through_congr fun s _ => Bool.and_comm ..] at hs'
  rw [events_listDir]
  exact List.mem_flatMap.mpr ⟨s', hs', (readNull_mem_iff sys f start s').mpr hopened'⟩

theorem reports_listDir : reports (listDir sys f start (start.length + 1) opens contents) =
    (through (fun s => s.opened && s.completes sys f) (walk opens contents)).filterMap
      (Step.unreadable? sys start) := by
  unfold reports
  rw [events_listDir, filterMap_events (reports_perform sys f start)]

/-- **Does a directory that cannot be opened stop the walk?** Every one does: the walk is as if they
were empty, with a message for each, if and only if it comes by none. -/
theorem containsFailures_iff (sys : System) (f : Filters) (start : CStr) (opens : Bool)
    (contents : Entries) :
    ContainsFailures sys f start opens contents ↔ AllOpen sys f opens contents := by
  constructor
  · intro h
    by_contra hopen
    exact h.noNull (readNull_mem_of_not_allOpen hopen)
  · intro h
    have hsteps : ∀ s ∈ walk true (if opens then contents.emptied else .nil), s.opened = true := by
      intro s hs
      rw [walk_emptied] at hs
      obtain ⟨s, -, rfl⟩ := List.mem_map.mp hs
      exact s.ready_opened
    have hreports : reports (listDir sys f start (start.length + 1) opens contents) = [] := by
      rw [listDir_emptied h, reports_listDir, List.filterMap_eq_nil_iff]
      exact fun s hs => Step.unreadable?_of_opened (hsteps s (mem_of_mem_through hs))
    refine ⟨fun hnull => ?_, ?_, ?_, congrArg Trace.ending (listDir_emptied h)⟩
    · rw [listDir_emptied h, events_listDir] at hnull
      obtain ⟨s, hs, hnull⟩ := List.mem_flatMap.mp hnull
      rw [readNull_mem_iff, hsteps s (mem_of_mem_through hs)] at hnull
      cases hnull
    · rw [hreports, eq_comm, List.filterMap_eq_nil_iff]
      exact fun s hs => Step.unreadable?_of_opened (h s hs)
    · rw [← listDir_emptied h, List.filter_eq_self]
      intro ev hev
      have hnone := List.filterMap_eq_nil_iff.mp hreports ev hev
      cases ev with
      | cannotOpen path => cases hnone
      | _ => rfl

end Failure

/-- An unreadable directory, before a file. -/
theorem unreadable_stops : ¬ ∀ sys f start opens contents,
    ContainsFailures sys f start opens contents := by
  intro h
  have hnull := (h (sampleSystem none) noFilters ['/'] true
    (.cons (sample nameA .dir 0o40700 none) false .nil
      (.cons (sample nameB .reg 0o100644 none) true .nil .nil))).noNull
  exact absurd hnull (by decide)

end Ece357.Walker
