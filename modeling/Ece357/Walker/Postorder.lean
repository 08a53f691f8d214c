import Ece357.Walker.Walk

/-!
# Ece357.Walker.Postorder

**Every visible entry once, in post-order.** In a tree whose directories can all be opened, whose
`d_type` is right and whose paths fit their buffers, `printData` is called for the entries that are
not hidden, nor in a hidden directory, each directory after its contents; and the filters decide
about the lines only (`listDir_postorder`).

There is one way in which this can end early: `printData` gives up, and with it the walk, at the
first accepted symbolic link whose contents cannot be read. That an entry is not known to the
system as `printData` takes for granted (`Printable`) is another matter: the code then follows an
invalid pointer.
-/

namespace Ece357.Walker

open Ece357.Machine Trace

/-! ### What is to be listed -/

/-- `P` holds of all entries of the tree, and of whether they can be opened. -/
def Entries.All (P : Entry → Bool → Prop) : Entries → Prop
  | .nil => True
  | .cons e opens contents rest => P e opens ∧ contents.All P ∧ rest.All P

/-- The entry is a directory. -/
def Entry.IsDirectory (e : Entry) : Prop := e.stat.map getType = some 'd'

instance (e : Entry) : Decidable e.IsDirectory := inferInstanceAs (Decidable (_ = _))

/-- The visible entries in post-order, each with the names on the way to it. -/
def postorder : Entries → List Name → List (List Name × Entry)
  | .nil, _ => []
  | .cons e _ contents rest, names =>
      if e.Hidden then postorder rest names
      else
        (if e.IsDirectory then postorder contents (names ++ [e.name]) else []) ++
          (names ++ [e.name], e) :: postorder rest names

/-- The starting path with one slash behind it, if it had none, and the names joined by slashes. -/
def pathOf (start : CStr) (names : List Name) : CStr :=
  (if start.getLast? = some '/' then start else start ++ ['/']) ++
    ['/'].intercalate (names.map Name.str)

/-- The system answers as the walk expects. -/
structure Regular (e : Entry) (opens : Bool) : Prop where
  opens : e.IsDirectory → opens = true
  dtype : e.dtype = .dir ↔ e.IsDirectory
  stat : e.stat ≠ none

/-- The code follows no invalid pointer at this entry. -/
structure Known (sys : System) (f : Filters) (e : Entry) : Prop where
  returns : ∀ sb, e.stat = some sb → toDisplay sys f sb e.now ≠ none
  printable : ∀ sb, e.stat = some sb → toDisplay sys f sb e.now = some true →
    Printable sys e.malloc sb

/-- The filters accept the entry. -/
def Entry.accepted (sys : System) (f : Filters) (e : Entry) : Bool :=
  e.stat.any fun sb => toDisplay sys f sb e.now = some true

/-- The entry is a symbolic link that the filters accept, but that cannot be read. -/
def Entry.broken (sys : System) (f : Filters) (e : Entry) : Bool :=
  e.accepted sys f && e.stat.map getType = some 'l' && e.link.isNone

/-- The calls of `printData`. -/
def calls (t : Trace Event) : List CStr := t.events.filterMap fun
  | .printData path => some path
  | _ => none

/-- The lines printed, by the paths in them. -/
def lines (t : Trace Event) : List CStr := t.events.filterMap fun
  | .line l => some l.path
  | _ => none

/-! ### What the steps list -/

/-- Where everything can be opened, the steps come by the entries in post-order. -/
theorem stepsIn_entries {contents : Entries} (h : contents.All Regular) (names : List Name) :
    (stepsIn contents names).filterMap Step.entry? = postorder contents names := by
  induction contents generalizing names with
  | nil => rfl
  | cons e opens contents rest ihContents ihRest =>
      obtain ⟨⟨hopens, hdtype, -⟩, hcontents, hrest⟩ := h
      rw [stepsIn, postorder]
      by_cases hhidden : e.Hidden
      · rw [if_pos hhidden, if_pos hhidden, ihRest hrest]
      · have hvisit : Step.entry? (.visit names e) = some (names ++ [e.name], e) := rfl
        rw [if_neg hhidden, if_neg hhidden, List.filterMap_append,
          List.filterMap_cons_some hvisit, ihRest hrest]
        by_cases hdir : e.IsDirectory
        · rw [if_pos (hdtype.mpr hdir), if_pos hdir, hopens hdir, if_pos rfl,
            List.filterMap_cons_none (by rfl), ihContents hcontents]
        · rw [if_neg fun heq => hdir (hdtype.mp heq), if_neg hdir]
          rfl

/-- What holds of all entries of a tree holds of those that the steps come by. -/
theorem stepsIn_forall {P : Entry → Bool → Prop} {contents : Entries} (h : contents.All P)
    (names : List Name) :
    ∀ s ∈ stepsIn contents names, ∀ v, s.entry? = some v → ∃ opens, P v.2 opens := by
  induction contents generalizing names with
  | nil =>
      intro s hs
      cases hs
  | cons e opens contents rest ihContents ihRest =>
      obtain ⟨he, hcontents, hrest⟩ := h
      intro s hs v hv
      rw [stepsIn] at hs
      by_cases hhidden : e.Hidden
      · rw [if_pos hhidden] at hs
        exact ihRest hrest names s hs v hv
      · rw [if_neg hhidden] at hs
        rcases List.mem_append.mp hs with hs | hs
        · split_ifs at hs
          · rcases List.mem_cons.mp hs with rfl | hs
            · cases hv
            · exact ihContents hcontents _ s hs v hv
          · rw [List.mem_singleton.mp hs] at hv
            cases hv
          · cases hs
        · rcases List.mem_cons.mp hs with rfl | hs
          · obtain rfl := Option.some.inj hv
            exact ⟨_, he⟩
          · exact ihRest hrest names s hs v hv

/-- Where everything can be opened, so it is. -/
theorem stepsIn_opened {contents : Entries} (h : contents.All Regular) (names : List Name) :
    ∀ s ∈ stepsIn contents names, s.opened = true := by
  induction contents generalizing names with
  | nil =>
      intro s hs
      cases hs
  | cons e opens contents rest ihContents ihRest =>
      obtain ⟨⟨hopens, hdtype, -⟩, hcontents, hrest⟩ := h
      intro s hs
      rw [stepsIn] at hs
      by_cases hhidden : e.Hidden
      · rw [if_pos hhidden] at hs
        exact ihRest hrest names s hs
      · rw [if_neg hhidden] at hs
        rcases List.mem_append.mp hs with hs | hs
        · split_ifs at hs with hdir hopen
          · rcases List.mem_cons.mp hs with rfl | hs
            · exact hopen
            · exact ihContents hcontents _ s hs
          · exact absurd (hopens (hdtype.mp hdir)) hopen
          · cases hs
        · rcases List.mem_cons.mp hs with rfl | hs
          · rfl
          · exact ihRest hrest names s hs

/-- Where nothing is unknown, an accepted entry gets its line, if it is not a broken link. -/
theorem fate_eq {sys : System} {f : Filters} {e : Entry} (hstat : e.stat ≠ none)
    (h : Known sys f e) : e.fate sys f =
      if e.broken sys f then .noLink else if e.accepted sys f then .printed else .filtered := by
  obtain ⟨sb, hsb⟩ := Option.ne_none_iff_exists'.mp hstat
  obtain ⟨hreturns, hprintable⟩ := h
  cases hshow : toDisplay sys f sb e.now with
  | none => exact absurd hshow (hreturns sb hsb)
  | some shown =>
      have haccepted : e.accepted sys f = shown := by
        cases shown <;> simp [Entry.accepted, hsb, hshow]
      unfold Entry.broken
      rw [haccepted, hsb]
      cases shown with
      | false => simp [Entry.fate, hsb, hshow]
      | true =>
          have hprint := hprintable sb hsb hshow
          by_cases htype : getType sb = 'l'
          · cases hlink : e.link <;> simp [Entry.fate, hsb, hshow, hprint, htype, hlink]
          · simp [Entry.fate, hsb, hshow, hprint, htype]

/-- Such an entry stops the walk only if it is a broken link. -/
theorem completes_eq {sys : System} {f : Filters} {e : Entry} (hstat : e.stat ≠ none)
    (h : Known sys f e) : e.completes sys f = ! e.broken sys f := by
  unfold Entry.completes
  rw [fate_eq hstat h]
  cases e.broken sys f <;> cases e.accepted sys f <;> rfl

theorem printed_eq {sys : System} {f : Filters} {e : Entry} (hstat : e.stat ≠ none)
    (h : Known sys f e) :
    decide (e.fate sys f = .printed) = (e.accepted sys f && ! e.broken sys f) := by
  rw [fate_eq hstat h]
  cases e.broken sys f <;> cases e.accepted sys f <;> rfl

/-! ### Paths -/

theorem intercalate_concat (names : List Name) (name : Name) :
    ['/'].intercalate ((names ++ [name]).map Name.str) =
      (names.flatMap fun name => name.str ++ ['/']) ++ name.str := by
  induction names with
  | nil => simp [List.intercalate]
  | cons name' names ih =>
      have hcons : ['/'].intercalate (((name' :: names) ++ [name]).map Name.str) =
          name'.str ++ ['/'] ++ ['/'].intercalate ((names ++ [name]).map Name.str) := by
        cases names <;> simp [List.intercalate]
      rw [hcons, ih, List.flatMap_cons, ← List.append_assoc]

/-- The path of an entry, as `printData` puts it together. -/
theorem dirPath_append (sys : System) {start : CStr} (h : start ≠ []) (names : List Name)
    (name : Name) : dirPath sys start names ++ name.str = pathOf start (names ++ [name]) := by
  have hslash : slashed sys start =
      if start.getLast? = some '/' then start else start ++ ['/'] := by
    unfold slashed
    rw [List.getLastD_eq_getLast?, List.getLast?_eq_some_getLast h, Option.getD_some]
    by_cases hlast : start.getLast h = '/'
    · rw [if_neg (not_not.mpr hlast), if_pos (congrArg some hlast)]
    · rw [if_pos hlast, if_neg fun heq => hlast (Option.some.inj heq)]
  rw [pathOf, dirPath, hslash, intercalate_concat, List.append_assoc]

/-! ### What the steps print -/

section Steps
variable (sys : System) (f : Filters) {start : CStr}

/-- Only an entry is passed to `printData`. -/
theorem calls_perform (hstart : start ≠ []) (s : Step) :
    calls (perform sys f start s) = (s.entry?.map fun v => pathOf start v.1).toList := by
  obtain ⟨out, hout, houtputs⟩ := perform_outputs sys f start s
  unfold calls
  rw [filterMap_outputs (fun ev hev => by cases ev <;> first | rfl | cases hev), hout]
  cases houtputs with
  | entered hentry => rw [hentry]; rfl
  | failed hentry => rw [hentry]; rfl
  | visited h =>
      rw [dirPath_append sys hstart] at h ⊢
      generalize Entry.fate sys f _ = fate at h
      cases h <;> rfl

/-- A line is printed for an entry whose fate it is. -/
theorem lines_perform (hstart : start ≠ []) (s : Step) : lines (perform sys f start s) =
    ((s.entry?.filter fun v => v.2.fate sys f = .printed).map
      fun v => pathOf start v.1).toList := by
  obtain ⟨out, hout, houtputs⟩ := perform_outputs sys f start s
  unfold lines
  rw [filterMap_outputs (fun ev hev => by cases ev <;> first | rfl | cases hev), hout]
  cases houtputs with
  | entered hentry => rw [hentry]; rfl
  | failed hentry => rw [hentry]; rfl
  | @visited names e out ending h =>
      rw [dirPath_append sys hstart] at h ⊢
      simp only [Step.entry?, Option.filter_some]
      generalize e.fate sys f = fate at h ⊢
      cases h with
      | line l hpath => simp [hpath]
      | _ => rfl

end Steps

/-- **The walk lists the tree in post-order**: `printData` is called for the visible entries, up to
the first broken link if there is one, and prints a line for those that the filters accept. Where a
path does not fit, the code may list other entries than the model does. -/
theorem listDir_postorder (sys : System) (f : Filters) {start : CStr} (hstart : start ≠ [])
    {contents : Entries} (h : contents.All Regular)
    (hknown : ∀ v ∈ through (fun v => ! v.2.broken sys f) (postorder contents []), Known sys f v.2)
    (_hfits : PathsFit sys f start true contents) :
    calls (listDir sys f start (start.length + 1) true contents) =
      (through (fun v => ! v.2.broken sys f) (postorder contents [])).map
        (fun v => pathOf start v.1) ∧
    lines (listDir sys f start (start.length + 1) true contents) =
      ((through (fun v => ! v.2.broken sys f) (postorder contents [])).filter
        fun v => v.2.accepted sys f && ! v.2.broken sys f).map (fun v => pathOf start v.1) := by
  have hstat : ∀ v ∈ postorder contents [], v.2.stat ≠ none := by
    intro v hv
    rw [← stepsIn_entries h] at hv
    obtain ⟨s, hs, hv⟩ := List.mem_filterMap.mp hv
    obtain ⟨opens, hregular⟩ := stepsIn_forall h [] s hs v hv
    exact hregular.stat
  have hreached : (through (fun s => s.opened && s.completes sys f) (walk true contents)).filterMap
      Step.entry? = through (fun v => v.2.completes sys f) (postorder contents []) := by
    have hwalk : (walk true contents).filterMap Step.entry? = postorder contents [] :=
      stepsIn_entries h []
    have hopened : ∀ s ∈ walk true contents, s.opened = true := by
      rintro s (_ | ⟨_, hs⟩)
      · rfl
      · exact stepsIn_opened h [] s hs
    rw [← hwalk]
    refine filterMap_through (fun s hs hnone => ?_) (fun s hs v hv => ?_)
    · rw [hopened s hs]
      cases s with
      | visit names e => cases hnone
      | _ => rfl
    · rw [hopened s hs]
      cases s with
      | visit names e =>
          obtain rfl := Option.some.inj hv
          rfl
      | _ => cases hv
  rw [through_congr fun v hv => completes_eq (hstat v (mem_of_mem_through hv)) (hknown v hv)]
    at hreached
  unfold calls lines
  rw [events_listDir]
  constructor
  · rw [filterMap_events (calls_perform sys f hstart), ← List.map_filterMap, hreached]
  · rw [filterMap_events (lines_perform sys f hstart), ← List.map_filterMap,
      ← List.filter_filterMap, hreached]
    exact congrArg _ (List.filter_congr fun v hv =>
      printed_eq (hstat v (mem_of_mem_through hv)) (hknown v hv))

/-- A directory with a file in it. -/
theorem listDir_postorder_directory :
    calls (listDir (sampleSystem (some ['g'])) noFilters ['/'] 2 true
      (.cons (sample nameA .dir 0o40755 none) true
        (.cons (sample nameB .reg 0o100644 none) true .nil .nil) .nil)) =
      [['/', 'a', '/', 'b'], ['/', 'a']] := by
  refine (listDir_postorder (sampleSystem (some ['g'])) noFilters (by decide) ?_ ?_
    (by decide)).1.trans (by decide)
  · exact ⟨⟨by decide, by decide, by decide⟩, ⟨⟨by decide, by decide, by decide⟩, trivial, trivial⟩,
      trivial⟩
  · intro v hv
    have hv : v ∈ [([nameA, nameB], sample nameB .reg 0o100644 none),
        ([nameA], sample nameA .dir 0o40755 none)] := mem_of_mem_through hv
    have hmalloc : v.2.malloc = fun _ => true := by
      rcases List.mem_pair.mp hv with rfl | rfl <;> rfl
    exact ⟨fun sb _ => Option.some_ne_none _, fun sb _ _ => ⟨congrFun hmalloc 10,
      fun _ => congrFun hmalloc 16, Option.some_ne_none _, Option.some_ne_none _⟩⟩

/-- All visible entries are listed, and all accepted ones printed. -/
def ListsAll (sys : System) (f : Filters) (start : CStr) (contents : Entries) : Prop :=
  calls (listDir sys f start (start.length + 1) true contents) =
    (postorder contents []).map (fun v => pathOf start v.1) ∧
  lines (listDir sys f start (start.length + 1) true contents) =
    ((postorder contents []).filter fun v => v.2.accepted sys f).map (fun v => pathOf start v.1)

/-- An entry of this kind, and the file `b` behind it. -/
def twoEntries (dtype : DType) (mode : BitVec 32) : Entries :=
  .cons (sample nameA dtype mode none) true .nil
    (.cons (sample nameB .reg 0o100644 none) true .nil .nil)

/-- The walk ends at a link that cannot be read, and at a file whose group has no name, in
directories in which everything can be opened, and all paths fit. -/
theorem listDir_ends_early :
    ((twoEntries .lnk 0o120777).All Regular ∧
      PathsFit (sampleSystem (some ['g'])) noFilters ['/'] true (twoEntries .lnk 0o120777) ∧
      ¬ ListsAll (sampleSystem (some ['g'])) noFilters ['/'] (twoEntries .lnk 0o120777)) ∧
    (twoEntries .reg 0o100644).All Regular ∧
      PathsFit (sampleSystem none) noFilters ['/'] true (twoEntries .reg 0o100644) ∧
      ¬ ListsAll (sampleSystem none) noFilters ['/'] (twoEntries .reg 0o100644) := by
  refine ⟨⟨?_, by decide, fun h => absurd h.1 (by decide)⟩, ?_, by decide,
    fun h => absurd h.1 (by decide)⟩
  all_goals
    exact ⟨⟨by decide, by decide, by decide⟩, trivial,
      ⟨by decide, by decide, by decide⟩, trivial, trivial⟩

end Ece357.Walker
