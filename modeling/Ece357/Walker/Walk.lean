import Ece357.Walker.Model

/-!
# Ece357.Walker.Walk

**The walk as a list of steps.** The recursion of `listDir` enters directories and comes by their
entries in an order that only depends on the tree, its hidden entries, and which directories can
be opened (`walk`). What `listDir` does is what these steps do, one after the other, until one of
them ends the process (`listDir_eq`): only `printData` does, for an entry with which it cannot
`Complete`, and the attempt to read a directory that was not opened.

A step knows its place by the names of the directories that lead to it from the starting path;
that these names, each with a slash behind it, make the path, is where `listDir` adds the slash to
its argument.
-/

namespace Ece357.Walker

open Ece357.Machine Trace

/-! ### Paths -/

/-- The path of a directory, as `listDir` completes it. -/
def dirPath (sys : System) (start : CStr) (names : List Name) : CStr :=
  slashed sys start ++ names.flatMap fun name => name.str ++ ['/']

section Paths
variable (sys : System) (start : CStr) (names : List Name) (name : Name)

theorem dirPath_nil : dirPath sys start [] = slashed sys start := List.append_nil _

theorem dirPath_concat :
    dirPath sys start (names ++ [name]) = dirPath sys start names ++ name.str ++ ['/'] := by
  unfold dirPath
  rw [List.flatMap_append, List.flatMap_singleton, List.append_assoc, List.append_assoc]

/-- A name does not end with a slash, so it gets one. -/
theorem slashed_name (dir : CStr) : slashed sys (dir ++ name.str) = dir ++ name.str ++ ['/'] := by
  obtain ⟨name, hne, hslash⟩ := name
  dsimp only
  have hlast : (dir ++ name).getLastD sys.front ≠ '/' := by
    intro h
    rw [List.getLastD_eq_getLast?, List.getLast?_append_of_ne_nil _ hne,
      List.getLast?_eq_some_getLast hne] at h
    exact hslash (h ▸ List.getLast_mem hne)
  exact if_pos hlast

theorem slashed_dirPath :
    slashed sys (dirPath sys start names ++ name.str) = dirPath sys start (names ++ [name]) := by
  rw [slashed_name, dirPath_concat]

end Paths

/-! ### Steps -/

inductive Step
  /-- Enter the directory with the starting path. -/
  | start (opens : Bool)
  /-- Enter the directory `name` in another. -/
  | enter (names : List Name) (name : Name) (opens : Bool)
  /-- Come by an entry of a directory. -/
  | visit (names : List Name) (e : Entry)

/-- The steps in a directory: its entries in order, each after what is in it. -/
def stepsIn : Entries → List Name → List Step
  | .nil, _ => []
  | .cons e opens contents rest, names =>
      if e.Hidden then stepsIn rest names
      else
        (if e.dtype = .dir then
          .enter names e.name opens :: if opens then stepsIn contents (names ++ [e.name]) else []
        else []) ++ .visit names e :: stepsIn rest names

/-- The steps of the whole walk. -/
def walk (opens : Bool) (contents : Entries) : List Step :=
  .start opens :: if opens then stepsIn contents [] else []

/-- What the program does in a step. -/
def perform (sys : System) (f : Filters) (start : CStr) : Step → Trace Event
  | .start opens => listDirWith sys start (start.length + 1) opens done
  | .enter names name opens =>
      let dir := dirPath sys start names
      (emit [.fill 512 (dir.length + 1), .fill 512 ((dir ++ name.str).length + 1)]).andThen <|
        listDirWith sys (dir ++ name.str) 512 opens done
  | .visit names e => printData sys f (dirPath sys start names) e

section Run
variable (sys : System) (f : Filters) (start : CStr)

/-- A directory is entered, and then read if it was opened. -/
theorem listDirWith_eq (dirPath : CStr) (room : Nat) (opens : Bool) (loop : Trace Event) :
    listDirWith sys dirPath room opens loop =
      (listDirWith sys dirPath room opens done).andThen (if opens then loop else done) := by
  cases opens with
  | true => exact (andThen_assoc _ done loop).symm
  | false => exact (andThen_done _).symm

theorem readEntries_eq (contents : Entries) (names : List Name) :
    readEntries sys f contents (dirPath sys start names) =
      seq ((stepsIn contents names).map (perform sys f start)) := by
  induction contents generalizing names with
  | nil => rfl
  | cons e opens contents rest ihContents ihRest =>
      rw [readEntries, stepsIn]
      by_cases hhidden : e.Hidden
      · rw [if_pos hhidden, if_pos hhidden, ihRest]
      · rw [if_neg hhidden, if_neg hhidden, List.map_append, seq_append, List.map_cons, seq_cons,
          ← ihRest]
        dsimp only
        by_cases hdtype : e.dtype = .dir
        · rw [if_pos hdtype, if_pos hdtype, listDirWith_eq, slashed_dirPath, ihContents,
            ← andThen_assoc (emit _), List.map_cons, seq_cons]
          cases opens <;> rfl
        · rw [if_neg hdtype, if_neg hdtype]
          rfl

/-- **What `listDir` does** is what the steps of the walk do. -/
theorem listDir_eq (opens : Bool) (contents : Entries) :
    listDir sys f start (start.length + 1) opens contents =
      seq ((walk opens contents).map (perform sys f start)) := by
  have hloop := readEntries_eq sys f start contents []
  rw [dirPath_nil] at hloop
  rw [listDir, listDirWith_eq, hloop, walk, List.map_cons, seq_cons]
  cases opens <;> rfl

end Run

/-! ### The fate of an entry -/

/-- What a call of `printData` comes to. -/
inductive Fate
  | printed
  | filtered
  | noStat
  | noLink
  | undefined
  deriving DecidableEq, Repr

/-- What the code takes for granted when it prints a line. -/
def Printable (sys : System) (malloc : Nat → Bool) (sb : Stat) : Prop :=
  malloc 10 = true ∧ (sys.getpwuid sb.uid = none → malloc 16 = true) ∧
    sys.getgrgid sb.gid ≠ none ∧ sys.localtime sb.mtime ≠ none

instance (sys : System) (malloc : Nat → Bool) (sb : Stat) : Decidable (Printable sys malloc sb) :=
  inferInstanceAs (Decidable (_ ∧ _))

def Entry.fate (sys : System) (f : Filters) (e : Entry) : Fate :=
  match e.stat with
  | none => .noStat
  | some sb =>
      match toDisplay sys f sb e.now with
      | none => .undefined
      | some false => .filtered
      | some true =>
          if ¬ Printable sys e.malloc sb then .undefined
          else if getType sb = 'l' ∧ e.link = none then .noLink
          else .printed

/-- The call of `printData` returns. -/
def Entry.completes (sys : System) (f : Filters) (e : Entry) : Bool :=
  e.fate sys f = .printed || e.fate sys f = .filtered

section Print
variable (sys : System) (f : Filters)

theorem lineOf_eq_none {malloc : Nat → Bool} {sb : Stat} {path : CStr}
    (h : ¬ Printable sys malloc sb) : lineOf sys malloc sb path = none := by
  refine Option.eq_none_iff_forall_ne_some.mpr fun l hl => h ?_
  unfold lineOf at hl
  simp only [Option.bind_eq_bind, Option.bind_eq_some_iff] at hl
  obtain ⟨permissions, hperm, user, huser, group, hgroup, time, htime, -⟩ := hl
  refine ⟨?_, fun hname => ?_, Option.ne_none_iff_exists'.mpr ⟨group, hgroup⟩,
    Option.ne_none_iff_exists'.mpr ⟨time, htime⟩⟩
  · unfold getPermissions at hperm
    split_ifs at hperm with hmalloc
    exact hmalloc
  · unfold getUser at huser
    rw [hname] at huser
    dsimp only at huser
    split_ifs at huser with hmalloc
    exact hmalloc

theorem lineOf_eq_some {malloc : Nat → Bool} {sb : Stat} (path : CStr)
    (h : Printable sys malloc sb) : ∃ l, lineOf sys malloc sb path = some l ∧ l.path = path := by
  obtain ⟨hperm, hmem, hgroup, htime⟩ := h
  obtain ⟨group, hgroup⟩ := Option.ne_none_iff_exists'.mp hgroup
  obtain ⟨time, htime⟩ := Option.ne_none_iff_exists'.mp htime
  have huser : ∃ user, getUser sys malloc sb = some user := by
    unfold getUser
    cases hname : sys.getpwuid sb.uid with
    | none => exact ⟨_, if_pos (hmem hname)⟩
    | some pwName => exact ⟨pwName, rfl⟩
  obtain ⟨user, huser⟩ := huser
  unfold lineOf
  rw [getPermissions, if_pos hperm, huser, getGroup, hgroup, htime]
  exact ⟨_, rfl, rfl⟩

/-- What `printData` prints, and how it ends. -/
inductive Printed (path : CStr) : Fate → List Event → Ending → Prop
  | line (l : Line) (h : l.path = path) : Printed path .printed [.line l] .returned
  | filtered : Printed path .filtered [] .returned
  | noStat : Printed path .noStat [.statFailed] (.exited 1)
  | noLink : Printed path .noLink [.readlinkFailed] (.exited 1)
  | undefined : Printed path .undefined [] .undefined

/-- Whatever becomes of the entry, `printData` first puts its path together. -/
theorem printData_eq (dir : CStr) (e : Entry) : ∃ out ending,
    printData sys f dir e = ⟨[.printData (dir ++ e.name.str), .fill 512 (dir.length + 1),
      .fill 512 ((dir ++ e.name.str).length + 1)] ++ out, ending⟩ ∧
    Printed (dir ++ e.name.str) (e.fate sys f) out ending := by
  unfold printData Entry.fate
  refine ⟨_, _, rfl, ?_⟩
  cases hstat : e.stat with
  | none => exact .noStat
  | some sb =>
      dsimp only
      cases hshow : toDisplay sys f sb e.now with
      | none => exact .undefined
      | some shown =>
          cases shown with
          | false => exact .filtered
          | true =>
              dsimp only
              by_cases hprint : Printable sys e.malloc sb
              · obtain ⟨l, hl, hpath⟩ := lineOf_eq_some sys (dir ++ e.name.str) hprint
                rw [if_neg (not_not.mpr hprint), hl]
                dsimp only
                by_cases htype : getType sb = 'l'
                · rw [if_pos htype]
                  cases hlink : e.link with
                  | none =>
                      rw [if_pos ⟨htype, rfl⟩]
                      exact .noLink
                  | some buf =>
                      rw [if_neg fun h => by cases h.2]
                      exact .line _ hpath
                · rw [if_neg htype, if_neg fun h => htype h.1]
                  exact .line _ hpath
              · rw [if_pos hprint, lineOf_eq_none sys hprint]
                exact .undefined

theorem printData_returns (dir : CStr) (e : Entry) :
    (printData sys f dir e).Returns = e.completes sys f := by
  obtain ⟨out, ending, heq, hout⟩ := printData_eq sys f dir e
  rw [heq]
  unfold Returns Entry.completes
  generalize e.fate sys f = fate at hout ⊢
  cases hout <;> rfl

end Print

/-! ### How far the walk gets -/

/-- The step does not try to read a directory that was not opened. -/
def Step.opened : Step → Bool
  | .start opens => opens
  | .enter _ _ opens => opens
  | .visit .. => true

/-- The step does not stop at an entry. -/
def Step.completes (sys : System) (f : Filters) : Step → Bool
  | .visit _ e => e.completes sys f
  | _ => true

/-- The path of a step, with the null character behind it, fits 512 bytes. The starting path is in
a storage of its own. -/
def Step.Fits (sys : System) (start : CStr) : Step → Prop
  | .start _ => True
  | .enter names name _ => (dirPath sys start (names ++ [name])).length + 1 ≤ 512
  | .visit names e => (dirPath sys start names ++ e.name.str).length + 1 ≤ 512

instance (sys : System) (start : CStr) : DecidablePred (Step.Fits sys start)
  | .start _ => inferInstanceAs (Decidable True)
  | .enter .. | .visit .. => inferInstanceAs (Decidable (_ ≤ _))

/-- All paths that the walk puts together fit. If one does not, the bytes behind `tempPath[512]`
may be those of `de`, and the entries that the code lists from there on other ones. -/
def PathsFit (sys : System) (f : Filters) (start : CStr) (opens : Bool) (contents : Entries) :
    Prop :=
  ∀ s ∈ through (fun s => s.opened && s.completes sys f) (walk opens contents), s.Fits sys start

instance (sys : System) (f : Filters) (start : CStr) (opens : Bool) (contents : Entries) :
    Decidable (PathsFit sys f start opens contents) :=
  inferInstanceAs (Decidable (∀ s ∈ _, _))

/-- The entry of a step, with the names on the way to it. -/
def Step.entry? : Step → Option (List Name × Entry)
  | .visit names e => some (names ++ [e.name], e)
  | _ => none

/-- The directory that a step cannot open. -/
def Step.unreadable? (sys : System) (start : CStr) : Step → Option CStr
  | .start false => some (slashed sys start)
  | .enter names name false => some (dirPath sys start (names ++ [name]))
  | _ => none

/-- What a step does, apart from its accesses to paths. -/
inductive Step.Outputs (sys : System) (f : Filters) (start : CStr) : Step → List Event → Prop
  | entered {s : Step} (hentry : s.entry? = none) (hopened : s.opened = true)
      (h : s.unreadable? sys start = none) : Outputs sys f start s []
  | failed {s : Step} {path : CStr} (hentry : s.entry? = none) (hopened : s.opened = false)
      (h : s.unreadable? sys start = some path) :
      Outputs sys f start s [.cannotOpen path, .readNull]
  | visited {names : List Name} {e : Entry} {out : List Event} {ending : Ending}
      (h : Printed (dirPath sys start names ++ e.name.str) (e.fate sys f) out ending) :
      Outputs sys f start (.visit names e)
        (.printData (dirPath sys start names ++ e.name.str) :: out)

/-- The accesses to the path of a directory that is entered. -/
inductive Accesses (dirPath path : CStr) (room : Nat) : List Event → Prop
  | slash (h : path = dirPath) : Accesses dirPath path room
      [.readLast dirPath.length, .opendir path]
  | noSlash (h : path ≠ dirPath) : Accesses dirPath path room
      [.readLast dirPath.length, .fill room (path.length + 1), .opendir path]

section Reach
variable (sys : System) (f : Filters) (start : CStr)

theorem listDirWith_done (dirPath : CStr) (room : Nat) (opens : Bool) : ∃ accesses,
    Accesses dirPath (slashed sys dirPath) room accesses ∧
    listDirWith sys dirPath room opens done =
      ⟨accesses ++ (if opens then [] else [.cannotOpen (slashed sys dirPath), .readNull]),
        if opens then .returned else .undefined⟩ := by
  by_cases hslash : slashed sys dirPath = dirPath
  · refine ⟨_, .slash hslash, ?_⟩
    rw [listDirWith, if_neg (not_not.mpr hslash)]
    cases opens <;> rfl
  · refine ⟨_, .noSlash hslash, ?_⟩
    rw [listDirWith, if_pos hslash]
    cases opens <;> rfl

theorem perform_outputs (s : Step) : ∃ out,
    (perform sys f start s).events.filter (! ·.isAccess) = out ∧ s.Outputs sys f start out := by
  refine ⟨_, rfl, ?_⟩
  cases s with
  | start opens =>
      obtain ⟨_, hacc, heq⟩ := listDirWith_done sys start (start.length + 1) opens
      rw [perform, heq]
      cases opens with
      | true => cases hacc <;> exact .entered rfl rfl rfl
      | false => cases hacc <;> exact .failed rfl rfl rfl
  | enter names name opens =>
      obtain ⟨_, hacc, heq⟩ :=
        listDirWith_done sys (dirPath sys start names ++ name.str) 512 opens
      dsimp only [perform]
      rw [heq, slashed_dirPath]
      cases opens with
      | true => cases hacc <;> exact .entered rfl rfl rfl
      | false => cases hacc <;> exact .failed rfl rfl rfl
  | visit names e =>
      obtain ⟨out, ending, heq, hout⟩ := printData_eq sys f (dirPath sys start names) e
      have hself : out.filter (! ·.isAccess) = out := by
        generalize e.fate sys f = fate at hout
        cases hout <;> rfl
      rw [perform, heq, List.filter_append, hself]
      exact .visited hout

/-- For events other than accesses, only these count. -/
theorem filterMap_outputs {β : Type*} {kind : Event → Option β}
    (h : ∀ ev, ev.isAccess = true → kind ev = none) (events : List Event) :
    events.filterMap kind = (events.filter (! ·.isAccess)).filterMap kind := by
  rw [List.filterMap_filter]
  refine List.filterMap_congr fun ev _ => ?_
  cases haccess : ev.isAccess with
  | true => exact h ev haccess
  | false => rfl

theorem perform_returns (s : Step) :
    (perform sys f start s).Returns = (s.opened && s.completes sys f) := by
  cases s with
  | start opens => cases opens <;> rfl
  | enter names name opens => cases opens <;> rfl
  | visit names e => exact printData_returns sys f _ e

/-- **The events of a walk** are those of the steps that are reached. -/
theorem events_listDir (opens : Bool) (contents : Entries) :
    (listDir sys f start (start.length + 1) opens contents).events =
      (through (fun s => s.opened && s.completes sys f) (walk opens contents)).flatMap fun s =>
        (perform sys f start s).events := by
  rw [listDir_eq, events_seq, through_congr fun s _ => perform_returns sys f start s]

end Reach

/-! ### Samples -/

/-- An entry with this mode that belongs to user 0, in group 0. -/
def sample (name : Name) (dtype : DType) (mode : BitVec 32) (link : Option CStr) : Entry where
  name := name
  dtype := dtype
  stat := some ⟨0, 0, mode, 1, 0, 0, 0, 0, 0⟩
  link := link
  now := 0
  malloc _ := true

/-- A system in which user 0 has a name; and group 0, if `group` is one. -/
def sampleSystem (group : Option CStr) : System where
  getpwuid _ := some ['r', 'o', 'o', 't']
  getgrgid _ := group
  getpwnam _ := none
  localtime _ := some ⟨70, 0, 1, 0, 0, 0⟩
  front := '='

def nameA : Name := ⟨['a'], by decide, by decide⟩

def nameB : Name := ⟨['b'], by decide, by decide⟩

def noFilters : Filters := ⟨.null, none⟩

end Ece357.Walker
