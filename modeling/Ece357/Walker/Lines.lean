import Ece357.Walker.Postorder
import Mathlib.Data.List.Flatten
import Mathlib.Data.List.Nodup

/-!
# Ece357.Walker.Lines

**What holds of the lines of any walk** whose paths fit their buffers, whatever fails on the way.
Where the entries of a directory have different names, no path is passed to `printData` twice, and
so no two lines are for the same path (`calls_nodup`): the path can be taken apart again into the
starting path and the names, since no name has a slash in it. And the filters only hide lines: a
walk that comes to its end without them does the same with them, less some of the lines
(`filters_hide`).
-/

namespace Ece357.Walker

open Ece357.Machine Trace

/-! ### Different names, different paths -/

/-- The names in a directory. -/
def Entries.names : Entries → List Name
  | .nil => []
  | .cons e _ _ rest => e.name :: rest.names

/-- In each directory, the entries have different names. -/
def Entries.Distinct : Entries → Prop
  | .nil => True
  | .cons e _ contents rest => e.name ∉ rest.names ∧ contents.Distinct ∧ rest.Distinct

theorem Name.ext {a b : Name} (h : a.str = b.str) : a = b := by
  cases a
  cases b
  cases h
  rfl

/-- The names can be read off a path. -/
theorem pathOf_inj (start : CStr) {a b : List Name} (ha : a ≠ []) (hb : b ≠ [])
    (h : pathOf start a = pathOf start b) : a = b := by
  have hsplit : ∀ {c : List Name}, c ≠ [] →
      (['/'].intercalate (c.map Name.str)).splitOn '/' = c.map Name.str := by
    intro c hc
    refine List.splitOn_intercalate '/' (fun l hl => ?_) (by simpa using hc)
    obtain ⟨name, -, rfl⟩ := List.mem_map.mp hl
    exact name.no_slash
  have hnames := congrArg (List.splitOn '/') (List.append_cancel_left h)
  rw [hsplit ha, hsplit hb] at hnames
  exact List.map_injective_iff.mpr (fun _ _ => Name.ext) hnames

/-- The entries that the steps in a directory come by, each with the names on the way to it. -/
def entriesIn (contents : Entries) (names : List Name) : List (List Name × Entry) :=
  (stepsIn contents names).filterMap Step.entry?

theorem entriesIn_cons (e : Entry) (opens : Bool) (contents rest : Entries) (names : List Name) :
    entriesIn (.cons e opens contents rest) names =
      if e.Hidden then entriesIn rest names
      else (if e.dtype = .dir ∧ opens = true then entriesIn contents (names ++ [e.name]) else []) ++
        (names ++ [e.name], e) :: entriesIn rest names := by
  unfold entriesIn
  rw [stepsIn]
  by_cases hhidden : e.Hidden
  · rw [if_pos hhidden, if_pos hhidden]
  · rw [if_neg hhidden, if_neg hhidden]
    have hvisit : Step.entry? (.visit names e) = some (names ++ [e.name], e) := rfl
    have henter : Step.entry? (.enter names e.name opens) = none := rfl
    rw [List.filterMap_append, List.filterMap_cons_some hvisit]
    by_cases hdtype : e.dtype = .dir
    · rw [if_pos hdtype, List.filterMap_cons_none henter]
      cases opens <;> simp [hdtype]
    · rw [if_neg hdtype, if_neg fun h => hdtype h.1]
      rfl

/-- On the way to an entry there is an entry of the directory itself, first of all. -/
theorem entriesIn_names (contents : Entries) (names : List Name) :
    ∀ v ∈ entriesIn contents names, ∃ name ∈ contents.names, ∃ more,
      v.1 = names ++ name :: more := by
  induction contents generalizing names with
  | nil =>
      intro v hv
      cases hv
  | cons e opens contents rest ihContents ihRest =>
      intro v hv
      have hlater : v ∈ entriesIn rest names → ∃ name ∈ (Entries.cons e opens contents rest).names,
          ∃ more, v.1 = names ++ name :: more := by
        intro hv
        obtain ⟨name, hname, hmore⟩ := ihRest names v hv
        exact ⟨name, List.mem_cons_of_mem _ hname, hmore⟩
      rw [entriesIn_cons] at hv
      split_ifs at hv with hhidden hdir
      · exact hlater hv
      · rcases List.mem_append.mp hv with hv | hv
        · obtain ⟨name, -, more, hmore⟩ := ihContents (names ++ [e.name]) v hv
          refine ⟨e.name, List.mem_cons_self, name :: more, ?_⟩
          rw [hmore, List.append_assoc]
          rfl
        · rcases List.mem_cons.mp hv with rfl | hv
          · exact ⟨e.name, List.mem_cons_self, [], rfl⟩
          · exact hlater hv
      · rcases List.mem_cons.mp hv with rfl | hv
        · exact ⟨e.name, List.mem_cons_self, [], rfl⟩
        · exact hlater hv

/-- No entry is come by twice. -/
theorem entriesIn_nodup {contents : Entries} (h : contents.Distinct) (names : List Name) :
    ((entriesIn contents names).map Prod.fst).Nodup := by
  induction contents generalizing names with
  | nil => exact List.nodup_nil
  | cons e opens contents rest ihContents ihRest =>
      obtain ⟨hname, hcontents, hrest⟩ := h
      have hlater := ihRest hrest names
      -- an entry behind this one has another name on its way
      have hother : ∀ more, names ++ e.name :: more ∉ (entriesIn rest names).map Prod.fst := by
        intro more hmem
        obtain ⟨v, hv, hpath⟩ := List.mem_map.mp hmem
        obtain ⟨name, hin, more', hmore⟩ := entriesIn_names rest names v hv
        rw [hpath] at hmore
        obtain ⟨rfl, -⟩ := List.cons.inj (List.append_cancel_left hmore)
        exact hname hin
      have hself : ((names ++ [e.name]) :: (entriesIn rest names).map Prod.fst).Nodup :=
        List.nodup_cons.mpr ⟨hother [], hlater⟩
      rw [entriesIn_cons]
      split_ifs with hhidden hdir
      · exact hlater
      · rw [List.map_append, List.map_cons, List.nodup_append]
        refine ⟨ihContents hcontents (names ++ [e.name]), hself, fun a ha b hb heq => ?_⟩
        obtain ⟨v, hv, rfl⟩ := List.mem_map.mp ha
        obtain ⟨name, -, more, hmore⟩ := entriesIn_names contents (names ++ [e.name]) v hv
        rw [List.append_assoc, List.singleton_append] at hmore
        rcases List.mem_cons.mp (heq ▸ hb) with hb | hb
        · rw [hmore] at hb
          have hlen := congrArg List.length (List.append_cancel_left hb)
          simp at hlen
        · exact hother _ (hmore ▸ hb)
      · rw [List.nil_append]
        exact hself

theorem entriesIn_ne_nil (contents : Entries) :
    ∀ v ∈ entriesIn contents [], v.1 ≠ [] := by
  intro v hv hnil
  obtain ⟨name, -, more, hmore⟩ := entriesIn_names contents [] v hv
  rw [hnil] at hmore
  cases hmore

/-! ### The calls of `printData` -/

section Calls
variable (sys : System) (f : Filters) (start : CStr) (opens : Bool) (contents : Entries)

/-- The entries that the walk gets to. -/
def reached : List (List Name × Entry) :=
  (through (fun s => s.opened && s.completes sys f) (walk opens contents)).filterMap Step.entry?

theorem through_sublist {α : Type} (p : α → Bool) (xs : List α) : (through p xs).Sublist xs := by
  induction xs with
  | nil => exact .slnil
  | cons x xs ih =>
      rw [through]
      split_ifs
      · exact ih.cons_cons x
      · exact (List.nil_sublist xs).cons_cons x

theorem reached_sublist : (reached sys f opens contents).Sublist (entriesIn contents []) := by
  have hwalk : ((walk opens contents).filterMap Step.entry?).Sublist (entriesIn contents []) := by
    cases opens with
    | true => exact .refl _
    | false => exact List.nil_sublist _
  exact ((through_sublist _ _).filterMap _).trans hwalk

variable {start}

theorem calls_reached (hstart : start ≠ []) :
    calls (listDir sys f start (start.length + 1) opens contents) =
      (reached sys f opens contents).map fun v => pathOf start v.1 := by
  unfold calls reached
  rw [events_listDir, filterMap_events (calls_perform sys f hstart), ← List.map_filterMap]

theorem lines_reached (hstart : start ≠ []) :
    lines (listDir sys f start (start.length + 1) opens contents) =
      ((reached sys f opens contents).filter fun v => v.2.fate sys f = .printed).map
        fun v => pathOf start v.1 := by
  unfold lines reached
  rw [events_listDir, filterMap_events (lines_perform sys f hstart), ← List.map_filterMap,
    ← List.filter_filterMap]

variable {contents}

/-- **No path is passed to `printData` twice**, and the lines are for some of the paths that are,
in their order, whatever fails. Where a path does not fit, the code may list an entry again. -/
theorem calls_nodup (hstart : start ≠ []) (h : contents.Distinct)
    (_hfits : PathsFit sys f start opens contents) :
    (calls (listDir sys f start (start.length + 1) opens contents)).Nodup ∧
      (lines (listDir sys f start (start.length + 1) opens contents)).Sublist
        (calls (listDir sys f start (start.length + 1) opens contents)) := by
  rw [calls_reached sys f opens contents hstart, lines_reached sys f opens contents hstart]
  refine ⟨?_, List.filter_sublist.map _⟩
  have hsub := reached_sublist sys f opens contents
  have hnames := (entriesIn_nodup h []).sublist (hsub.map Prod.fst)
  have hmap : (reached sys f opens contents).map (fun v => pathOf start v.1) =
      ((reached sys f opens contents).map Prod.fst).map (pathOf start) := by
    rw [List.map_map]
    rfl
  rw [hmap]
  refine List.Nodup.map_on (fun a ha b hb heq => ?_) hnames
  obtain ⟨v, hv, rfl⟩ := List.mem_map.mp ha
  obtain ⟨w, hw, rfl⟩ := List.mem_map.mp hb
  exact pathOf_inj start (entriesIn_ne_nil contents v (hsub.subset hv))
    (entriesIn_ne_nil contents w (hsub.subset hw)) heq

end Calls

/-- The directory `a` with a `b` in it, and a `b` behind it. -/
def twoNamed : Entries :=
  .cons (sample nameA .dir 0o40755 none) true
    (.cons (sample nameB .reg 0o100644 none) true .nil .nil)
    (.cons (sample nameB .reg 0o100644 none) true .nil .nil)

theorem nameA_ne_nameB : nameA ≠ nameB := fun h => absurd (congrArg Name.str h) (by decide)

theorem calls_nodup_two :
    (calls (listDir (sampleSystem (some ['g'])) noFilters ['/'] 2 true twoNamed)).Nodup := by
  have hdistinct : twoNamed.Distinct :=
    ⟨fun h => nameA_ne_nameB (List.mem_singleton.mp h), ⟨List.not_mem_nil, trivial, trivial⟩,
      List.not_mem_nil, trivial, trivial⟩
  exact (calls_nodup _ noFilters true (by decide) hdistinct (by decide)).1

/-! ### Filters -/

def Event.isLine : Event → Bool
  | .line _ => true
  | _ => false

/-- What the events are apart from the lines. -/
def withoutLines (events : List Event) : List Event := events.filter (! ·.isLine)

/-- A part does with the filters what it does without, but for lines that it does not print. -/
structure Hides (t u : Trace Event) : Prop where
  returns : t.Returns = true
  sublist : t.events.Sublist u.events
  rest : withoutLines t.events = withoutLines u.events

theorem Hides.refl {t : Trace Event} (h : t.Returns = true) : Hides t t := ⟨h, .refl _, rfl⟩

section Filters
variable (sys : System) (f : Filters)

/-- The filter for the owner finds the one that it is for. -/
def Entry.Tested (e : Entry) : Prop := ∀ sb, e.stat = some sb → toDisplay sys f sb e.now ≠ none

/-- An entry whose line is printed without filters. -/
theorem printData_hides (dir : CStr) {e : Entry}
    (h : (printData sys noFilters dir e).Returns = true) (htest : e.Tested sys f) :
    Hides (printData sys f dir e) (printData sys noFilters dir e) := by
  cases hstat : e.stat with
  | none =>
      unfold printData at h
      rw [hstat] at h
      cases h
  | some sb =>
      have hall : toDisplay sys noFilters sb e.now = some true := rfl
      cases hshow : toDisplay sys f sb e.now with
      | none => exact absurd hshow (htest sb hstat)
      | some shown =>
          unfold printData at h ⊢
          rw [hstat] at h ⊢
          dsimp only at h ⊢
          rw [hall] at h ⊢
          rw [hshow]
          cases shown with
          | true => exact .refl h
          | false =>
              have hless : ∀ l : Line, Hides
                  ((emit [.printData (dir ++ e.name.str), .fill 512 (dir.length + 1),
                    .fill 512 ((dir ++ e.name.str).length + 1)]).andThen done)
                  ((emit [.printData (dir ++ e.name.str), .fill 512 (dir.length + 1),
                    .fill 512 ((dir ++ e.name.str).length + 1)]).andThen (emit [.line l])) :=
                fun l => ⟨rfl, List.sublist_append_left .., rfl⟩
              dsimp only at h ⊢
              cases hline : lineOf sys e.malloc sb (dir ++ e.name.str) with
              | none =>
                  rw [hline] at h
                  cases h
              | some l =>
                  rw [hline] at h
                  dsimp only at h ⊢
                  split_ifs at h ⊢ with htype
                  · cases hlink : e.link with
                    | none =>
                        rw [hlink] at h
                        cases h
                    | some buf => exact hless _
                  · exact hless l

theorem perform_hides (start : CStr) {s : Step} (h : (perform sys noFilters start s).Returns = true)
    (htest : ∀ v, s.entry? = some v → v.2.Tested sys f) :
    Hides (perform sys f start s) (perform sys noFilters start s) := by
  cases s with
  | start opens => exact .refl h
  | enter names name opens => exact .refl h
  | visit names e => exact printData_hides sys f _ h (htest _ rfl)

end Filters

/-- A list of parts returns if they all do, and their events are all there. -/
theorem seq_returns {α : Type} {g : α → Trace Event} {xs : List α} :
    (seq (xs.map g)).Returns = true ↔ ∀ x ∈ xs, (g x).Returns = true := by
  induction xs with
  | nil => exact iff_of_true rfl fun x hx => absurd hx List.not_mem_nil
  | cons x xs ih =>
      rw [List.map_cons, seq_cons, List.forall_mem_cons, ← ih]
      cases hx : (g x).Returns with
      | true =>
          rw [andThen_of_returns hx]
          exact (and_iff_right rfl).symm
      | false =>
          rw [andThen_of_not_returns hx, hx]
          simp

/-- Parts that return are all gone through. -/
theorem through_all {α : Type} {p : α → Bool} {xs : List α} (h : ∀ x ∈ xs, p x = true) :
    through p xs = xs := by
  induction xs with
  | nil => rfl
  | cons x xs ih =>
      obtain ⟨hx, hxs⟩ := List.forall_mem_cons.mp h
      rw [through_cons_of_pos hx, ih hxs]

/-- **The filters only hide lines.** If the walk comes to its end without filters, and the filter
for the owner finds the one that it is for, the walk comes to its end with them, too: it does the
same, in the same order, but does not print some of the lines. That is for paths which all fit, as
it is only then that the walks come by the same entries in the code. -/
theorem filters_hide (sys : System) (f : Filters) (start : CStr) (opens : Bool) (contents : Entries)
    (h : (listDir sys noFilters start (start.length + 1) opens contents).Returns = true)
    (htest : ∀ v ∈ entriesIn contents [], v.2.Tested sys f)
    (_hfits : PathsFit sys noFilters start opens contents) :
    Hides (listDir sys f start (start.length + 1) opens contents)
      (listDir sys noFilters start (start.length + 1) opens contents) := by
  rw [listDir_eq] at h ⊢
  rw [listDir_eq]
  have hall := seq_returns.mp h
  have htests : ∀ s ∈ walk opens contents, ∀ v, s.entry? = some v → v.2.Tested sys f := by
    intro s hs v hv
    refine htest v ?_
    rcases List.mem_cons.mp hs with rfl | hs
    · cases hv
    · split_ifs at hs with hopens
      · exact List.mem_filterMap.mpr ⟨s, hs, hv⟩
      · cases hs
  have hsteps : ∀ s ∈ walk opens contents,
      Hides (perform sys f start s) (perform sys noFilters start s) := fun s hs =>
    perform_hides sys f start (hall s hs) (htests s hs)
  refine ⟨seq_returns.mpr fun s hs => (hsteps s hs).returns, ?_, ?_⟩
  · rw [events_seq, events_seq, through_all hall,
      through_all fun s hs => (hsteps s hs).returns]
    exact List.Sublist.flatMap_right _ fun s hs => (hsteps s hs).sublist
  · rw [events_seq, events_seq, through_all hall,
      through_all fun s hs => (hsteps s hs).returns]
    unfold withoutLines
    rw [List.filter_flatMap, List.filter_flatMap]
    exact List.flatMap_congr fun s hs => (hsteps s hs).rest

/-- Nothing in these directories belongs to user 1. -/
theorem filters_hide_all : (listDir (sampleSystem (some ['g'])) ⟨.str ['1'], none⟩ ['/'] 2 true
    twoNamed).events.Sublist
      (listDir (sampleSystem (some ['g'])) noFilters ['/'] 2 true twoNamed).events := by
  refine (filters_hide (sampleSystem (some ['g'])) ⟨.str ['1'], none⟩ ['/'] true twoNamed
    (by decide) (fun v _ sb _ => ?_) (by decide)).sublist
  have hone : atoi ['1'] = 1 := by decide
  simp [toDisplay, userTest, hone]

end Ece357.Walker
