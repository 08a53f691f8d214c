import Ece357.Machine.CData
import Ece357.Machine.Traces

/-!
# Ece357.Walker.Model

The **directory walker** of `ps2/main.c`. `listDir` reads a directory and calls itself for the
directories in it; `printData` prints a line for an entry that the filters accept.

A directory tree lists, for each directory, its entries in the order in which `readdir` returns
them, with what the system will answer about each. The events of a walk are the calls and the
output by which the walk is judged, and the accesses to the buffers that paths are put together in.
A byte written behind the end of a buffer hits nothing here, where in the code it may hit what the
walk goes on with; what is said of the entries that are listed is said of walks whose paths all fit
(`PathsFit`). Where the code follows an invalid pointer instead, the walk ends as `undefined`. The
message for a failed call is represented by its event; what `readlink` has put into `buf` is printed
up to a null character, which it does not put there, and counts as the contents of the link.
-/

namespace Ece357.Walker

open Ece357.Machine

/-! ### The data of the system -/

/-- `struct stat`, as far as it is read. -/
structure Stat where
  dev : Int
  ino : Int
  mode : BitVec 32
  nlink : Int
  uid : BitVec 32
  gid : BitVec 32
  rdev : Int
  size : Int
  mtime : Int
  deriving DecidableEq, Repr

/-- `struct tm`. -/
structure Tm where
  year : Int
  mon : Int
  mday : Int
  hour : Int
  min : Int
  sec : Int
  deriving DecidableEq, Repr

/-- What the system knows, all the time. -/
structure System where
  /-- The name of a user. -/
  getpwuid : BitVec 32 → Option CStr
  /-- The name of a group. -/
  getgrgid : BitVec 32 → Option CStr
  /-- The id of a user. -/
  getpwnam : CStr → Option (BitVec 32)
  /-- NULL if the year does not fit an `int`. -/
  localtime : Int → Option Tm
  /-- The byte in front of the starting path, in memory. -/
  front : Char

/-- The name of a file in its directory. -/
structure Name where
  str : CStr
  ne_nil : str ≠ []
  no_slash : '/' ∉ str

/-- `d_type`. -/
inductive DType
  | unknown
  | fifo
  | chr
  | dir
  | blk
  | reg
  | lnk
  | sock
  | wht
  deriving DecidableEq, Repr

/-- A directory entry, and what the system answers about it. -/
structure Entry where
  name : Name
  dtype : DType
  /-- `lstat`, if it does not fail. -/
  stat : Option Stat
  /-- `readlink`, if it does not fail. -/
  link : Option CStr
  /-- `time(0)`. -/
  now : Int
  /-- Does `malloc` of so many bytes succeed? -/
  malloc : Nat → Bool

/-- The name starts with a dot. -/
def Entry.Hidden (e : Entry) : Prop := e.name.str.head? = some '.'

instance (e : Entry) : Decidable e.Hidden := inferInstanceAs (Decidable (_ = _))

/-- The entries that `readdir` returns, each with its contents, which matter only for a directory
that can be opened. -/
inductive Entries
  | nil
  | cons (e : Entry) (opens : Bool) (contents rest : Entries)

/-! ### Filters -/

/-- A pointer to a string. -/
inductive Pointer
  | null
  | str (s : CStr)
  /-- Nothing can be read there. -/
  | invalid
  deriving DecidableEq, Repr

structure Filters where
  userFilter : Pointer
  timeFilter : Option Int
  deriving DecidableEq, Repr

/-- What `getopt` returns for an option. -/
inductive Opt
  | u (optarg : CStr)
  | m (optarg : CStr)
  | other
  deriving DecidableEq, Repr

/-- The loop over the options; `none` is `exit(1)`. -/
def getOptions : List Opt → Filters → Option Filters
  | [], f => some f
  | .u optarg :: opts, f => getOptions opts { f with userFilter := .str optarg }
  | .m optarg :: opts, f => getOptions opts { f with timeFilter := some (atoi optarg) }
  | .other :: _, _ => none

/-- The filter for the owner. `getpwnam` returns NULL for a name that it does not know. -/
def userTest (sys : System) (userFilter : Pointer) (uid : BitVec 32) : Option Bool :=
  match userFilter with
  | .null => some true
  | .str s =>
      let user := atoi s
      if user = 0 then
        match sys.getpwnam s with
        | none => none
        | some pwUid => some (pwUid = uid)
      else some (BitVec.ofInt 32 user = uid)
  | .invalid => none

/-- The filter for the age, in seconds. -/
def timeTest (timeFilter : Option Int) (mtime time : Int) : Bool :=
  match timeFilter with
  | none => true
  | some utime =>
      let now := toInt time
      if utime > 0 then toInt mtime < toInt (now - utime)
      else if utime < 0 then toInt mtime > toInt (now + utime)
      else true

/-- `none` if it does not return. -/
def toDisplay (sys : System) (f : Filters) (sb : Stat) (time : Int) : Option Bool :=
  (userTest sys f.userFilter sb.uid).map (· && timeTest f.timeFilter sb.mtime time)

/-! ### Lines -/

def getType (sb : Stat) : Char :=
  match ((sb.mode &&& 0o170000) >>> 12).toNat with
  | 8 => '-'
  | 4 => 'd'
  | 10 => 'l'
  | 2 => 'c'
  | 6 => 'b'
  | 1 => 'p'
  | 12 => 's'
  | 3 => 'm'
  | 5 => 'n'
  | 7 => 'M'
  | 9 => 'C'
  | 11 => 's'
  | 13 => 'D'
  | 15 => 'w'
  | _ => 'u'

/-- The string is written to memory that `malloc` may not have returned. -/
def getPermissions (malloc : Nat → Bool) (sb : Stat) : Option CStr :=
  let val := sb.mode &&& 0o777
  if malloc 10 then
    some ([(256, 'r'), (128, 'w'), (64, 'x'), (32, 'r'), (16, 'w'), (8, 'x'), (4, 'r'), (2, 'w'),
      (1, 'x')].map fun (bit, c) => if val &&& bit = 0 then '-' else c)
  else none

/-- `sprintf(str, "%d", v)`. -/
def decimal (v : Int) : CStr := (toString v).toList

def getUser (sys : System) (malloc : Nat → Bool) (sb : Stat) : Option CStr :=
  match sys.getpwuid sb.uid with
  | none => if malloc 16 then some (decimal sb.uid.toInt) else none
  | some pwName => some pwName

/-- The id of a group without a name is written to where an uninitialized pointer points. -/
def getGroup (sys : System) (sb : Stat) : Option CStr := sys.getgrgid sb.gid

/-- The size, or the raw device number. -/
inductive Amount
  | size (v : Int)
  | rdev (v : Int)
  deriving DecidableEq, Repr

/-- What is printed of an entry. -/
structure Line where
  dev : Int
  ino : Int
  type : Char
  permissions : CStr
  nlink : Int
  user : CStr
  group : CStr
  amount : Amount
  time : Tm
  path : CStr
  link : Option CStr
  deriving DecidableEq, Repr

/-- The line up to the path. -/
def lineOf (sys : System) (malloc : Nat → Bool) (sb : Stat) (path : CStr) : Option Line := do
  let permissions ← getPermissions malloc sb
  let user ← getUser sys malloc sb
  let group ← getGroup sys sb
  let time ← sys.localtime sb.mtime
  let type := getType sb
  let amount := if type = 'm' ∨ type = 'M' then .rdev (toInt sb.rdev) else .size (toInt sb.size)
  return { dev := toInt sb.dev, ino := toInt sb.ino, type := type, permissions := permissions,
           nlink := toInt sb.nlink, user := user, group := group, amount := amount,
           time := { time with year := toInt (time.year + 1900), mon := toInt (time.mon + 1) },
           path := path, link := none }

/-! ### The walk -/

inductive Event
  /-- Read the last byte of a string of this length. -/
  | readLast (length : Nat)
  /-- Put together a string of so many bytes, with the one that ends it, in storage for `room`. -/
  | fill (room bytes : Nat)
  | opendir (path : CStr)
  /-- The message of `listDir`. -/
  | cannotOpen (path : CStr)
  /-- `readdir` is called with NULL. -/
  | readNull
  | printData (path : CStr)
  | statFailed
  | readlinkFailed
  | line (l : Line)
  deriving DecidableEq, Repr

/-- The event is an access to a path. -/
def Event.isAccess : Event → Bool
  | .readLast _ => true
  | .fill .. => true
  | .opendir _ => true
  | _ => false

open Trace

def printData (sys : System) (f : Filters) (dirPath : CStr) (e : Entry) : Trace Event :=
  let path := dirPath ++ e.name.str
  (emit [.printData path, .fill 512 (dirPath.length + 1), .fill 512 (path.length + 1)]).andThen <|
    match e.stat with
    | none => ⟨[.statFailed], .exited 1⟩
    | some sb =>
        match toDisplay sys f sb e.now with
        | none => ⟨[], .undefined⟩
        | some false => done
        | some true =>
            match lineOf sys e.malloc sb path with
            | none => ⟨[], .undefined⟩
            | some l =>
                if getType sb = 'l' then
                  match e.link with
                  | none => ⟨[.readlinkFailed], .exited 1⟩
                  | some buf => emit [.line { l with link := some buf }]
                else emit [.line l]

/-- What `listDir` makes of its argument. The length is unsigned: without a last byte, it reads
the one in front. -/
def slashed (sys : System) (dirPath : CStr) : CStr :=
  if dirPath.getLastD sys.front ≠ '/' then dirPath ++ ['/'] else dirPath

/-- `listDir`, with `loop` for its loop over the entries. The slash is put behind a string that has
storage for `room` bytes. -/
def listDirWith (sys : System) (dirPath : CStr) (room : Nat) (opens : Bool) (loop : Trace Event) :
    Trace Event :=
  let path := slashed sys dirPath
  (emit (.readLast dirPath.length ::
    if path ≠ dirPath then [.fill room (path.length + 1), .opendir path]
    else [.opendir path])).andThen <|
  if opens then loop
  -- NULL is passed on to `readdir`
  else ⟨[.cannotOpen path, .readNull], .undefined⟩

/-- The loop of `listDir`. -/
def readEntries (sys : System) (f : Filters) : Entries → CStr → Trace Event
  | .nil, _ => done
  | .cons e opens contents rest, dirPath =>
      if e.Hidden then readEntries sys f rest dirPath
      else
        let tempPath := dirPath ++ e.name.str
        (if e.dtype = .dir then
          (emit [.fill 512 (dirPath.length + 1), .fill 512 (tempPath.length + 1)]).andThen <|
            listDirWith sys tempPath 512 opens (readEntries sys f contents (slashed sys tempPath))
        else done).andThen <|
        (printData sys f dirPath e).andThen (readEntries sys f rest dirPath)

def listDir (sys : System) (f : Filters) (dirPath : CStr) (room : Nat) (opens : Bool)
    (contents : Entries) : Trace Event :=
  listDirWith sys dirPath room opens (readEntries sys f contents (slashed sys dirPath))

/-- `main`, with what is in its variable `userFilter` before, and the options that `getopt` finds.
The starting path is the last string of `argv`, with storage for no more than itself. -/
def main (sys : System) (garbage : Pointer) (opts : List Opt) (startingPath : CStr) (opens : Bool)
    (contents : Entries) : Trace Event :=
  match getOptions opts ⟨garbage, none⟩ with
  | none => ⟨[], .exited 1⟩
  | some f => listDir sys f startingPath (startingPath.length + 1) opens contents

end Ece357.Walker
