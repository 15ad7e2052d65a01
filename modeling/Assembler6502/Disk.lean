/-
Files and directories.

A `Disk` holds the files and directories that a run can see, and the directory
that relative paths start from.  A file may have several names, and a name may
be a link, which stands for another path.  A path is followed from one directory
to the next, so a path through a directory that does not exist leads nowhere,
also if it goes back up.

* **`Disk.read`** — the bytes of a file;
* **`Disk.isFile`** — whether a path leads to a file;
* **`Disk.locate`** — where a path leads, if something is there;
* **`Disk.nameOf`**, **`Disk.target`** — the name that a path ends with, and
  where a file of that path is written, which is elsewhere if the name is a link;
* **`Disk.write`**, **`Disk.remove`** — change the bytes of a file, or a name.

Design notes.  What is written to a file comes to it late and may not fit, so a
`Device` says how many bytes a file can hold and how many of those written are
there at which time.  By default these are the bytes that the writer does not hold
back, but nothing is taken for granted of these times.
-/
import Assembler6502.Diagnostic
import Assembler6502.Disk.Path
import Assembler6502.FiniteMap

namespace Assembler6502

/-- The names on the way from the root to a file or directory. -/
abbrev Place := List String

/-- How the bytes that are written to a file come to it. -/
structure Device where
  /-- The bytes that a file can hold, if there is a bound. -/
  room : Option Nat := none
  /-- The bytes that have come to the file after some steps, if as many were written and the writer
  holds some of them back. -/
  arrived : (steps written held : Nat) → Nat := fun _ written held => written - held

namespace Device

/-- Whether a file can hold the bytes. -/
def holds (d : Device) (bytes : List UInt8) : Bool :=
  match d.room with
  | none => true
  | some n => bytes.length ≤ n

/-- The part of the bytes that a file can hold. -/
def fitting (d : Device) (bytes : List UInt8) : List UInt8 :=
  match d.room with
  | none => bytes
  | some n => bytes.take n

/-- The part of the bytes written that has come to the file. -/
def arriving (d : Device) (steps held : Nat) (written : List UInt8) : List UInt8 :=
  written.take (d.arrived steps written.length held)

end Device

namespace Disk

/-- What a name stands for: the file with a number, or another path. -/
inductive Node where
  | file (number : Nat)
  | link (path : String)
deriving DecidableEq, Repr

end Disk

structure Disk where
  /-- The names of files and links. -/
  nodes : FiniteMap Place Disk.Node
  /-- The bytes of the files; a file without an entry is empty. -/
  contents : FiniteMap Nat (List UInt8)
  directories : List Place
  here : Place
  /-- Files that cannot be written, and directories in which no name can be added or removed. -/
  locked : List Place
  device : Place → Device

namespace Disk

inductive Entry where
  | file (bytes : List UInt8)
  | directory
  | link (path : String)
deriving DecidableEq, Repr

def bytes (d : Disk) (number : Nat) : List UInt8 :=
  (d.contents.get? number).getD []

def entryOf (d : Disk) : Node → Entry
  | .file number => .file (d.bytes number)
  | .link path => .link path

def isDirectory (d : Disk) (place : Place) : Bool :=
  place = [] || place ∈ d.directories

/-- What the name at a place stands for.  There is no file where there is a directory. -/
def node? (d : Disk) (place : Place) : Option Node :=
  if d.isDirectory place then none else d.nodes.get? place

/-- What is at a place. -/
def entry? (d : Disk) (place : Place) : Option Entry :=
  if d.isDirectory place then some .directory else (d.node? place).map d.entryOf

/-! ### Following paths -/

/-- The place that one component of a path leads to from a directory. -/
def move (place : Place) (component : String) : Place :=
  if Path.isIdle component then place
  else if component = ".." then place.dropLast
  else place ++ [component]

/-- The place that a path starts from, if it is not absolute and is used in a directory. -/
def base (directory : Place) (path : String) : Place :=
  if Path.isAbsolute path then [] else directory

/-- Follows components from a place; only the last of them need not exist.  From the first link on
`onward` follows the path of the link and the components behind it. -/
def walk (d : Disk) (onward : Place → List String → Except FileError Place) (place : Place) :
    List String → Except FileError Place
  | [] => .ok place
  | component :: rest =>
    match d.entry? place with
    | none => .error .notFound
    | some (.file _) | some (.link _) => .error .notDirectory
    | some .directory =>
      match d.entry? (move place component) with
      | some (.link path) => onward (base place path) (Path.components path ++ rest)
      | _ => d.walk onward (move place component) rest

/-- Follows components through as many links at most. -/
def follow (d : Disk) : (links : Nat) → Place → List String → Except FileError Place
  | 0 => d.walk fun _ _ => .error .tooManyLinks
  | links + 1 => d.walk (d.follow links)

/-- The links that a path may lead through. -/
def linkLimit : Nat := 40

/-- Where a path leads, whether something is there or not. -/
def lead (d : Disk) (path : String) : Except FileError Place :=
  if path = "" then .error .notFound
  else d.follow linkLimit (base d.here path) (Path.components path)

/-- Where a path leads, with what is there. -/
def locate (d : Disk) (path : String) : Except FileError (Place × Entry) := do
  let place ← d.lead path
  match d.entry? place with
  | some entry => return (place, entry)
  | none => throw .notFound

/-- The bytes of a file. -/
def read (d : Disk) (path : String) : Except FileError (List UInt8) := do
  match ← d.locate path with
  | (_, .file bytes) => return bytes
  | (_, .directory) => throw .isDirectory
  | (_, .link _) => throw .tooManyLinks

def isFile (d : Disk) (path : String) : Bool :=
  match d.locate path with
  | .ok (_, .file _) => true
  | _ => false

/-- Whether two paths lead to the same place. -/
def samePlace (d : Disk) (p q : String) : Bool :=
  match d.locate p, d.locate q with
  | .ok (a, _), .ok (b, _) => a = b
  | _, _ => Path.same p q

/-! ### Changing files -/

/-- The name that a path ends with, in the directory that the path leads to in front of it.  A link
of that name is not followed. -/
def nameOf (d : Disk) (path : String) : Except FileError Place := do
  if path = "" then throw .notFound
  let names := (Path.components path).reverse.dropWhile (· = "")
  let directory ← d.follow linkLimit (base d.here path) names.tail.reverse
  match d.entry? directory, names.head? with
  | none, _ => throw .notFound
  | some .directory, none => throw .isDirectory
  | some .directory, some name =>
    if path.toList.getLast? = some '/' || name = "." || name = ".." then throw .isDirectory
    return directory ++ [name]
  | some _, _ => throw .notDirectory

/-- What has to be changed to write a file: the file, or the directory that gets its name. -/
def writtenTo (d : Disk) (place : Place) : Place :=
  if d.entry? place = none then place.dropLast else place

/-- Where a file of that path is written: there is a directory for it, it is no directory itself, and
it can be changed. -/
def target (d : Disk) (path : String) : Except FileError Place := do
  let _ ← d.nameOf path
  let place ← d.lead path
  match d.entry? place with
  | some .directory => throw .isDirectory
  | some (.link _) => throw .tooManyLinks
  | _ => if d.writtenTo place ∈ d.locked then throw .denied else return place

/-- A number that no file has. -/
def fresh (d : Disk) : Nat :=
  (d.nodes.pairs.map fun
    | (_, .file number) => number + 1
    | (_, .link _) => 0).foldr max 0

/-- The number of the file at a place, which is a new one if there is none. -/
def numberAt (d : Disk) (place : Place) : Nat :=
  match d.node? place with
  | some (.file number) => number
  | _ => d.fresh

/-- Writes a file, under all of its names. -/
def write (d : Disk) (place : Place) (bytes : List UInt8) : Disk :=
  { d with
    nodes := d.nodes.insert place (.file (d.numberAt place))
    contents := d.contents.insert (d.numberAt place) bytes }

/-- Removes a name. -/
def remove (d : Disk) (place : Place) : Disk :=
  { d with nodes := d.nodes.erase place }

/-- Removes the name that a path ends with, if this can be done. -/
def unlink (d : Disk) (path : String) : Disk :=
  match d.nameOf path with
  | .error _ => d
  | .ok name => if name.dropLast ∈ d.locked then d else d.remove name

/-- Writes a file, which has to hold all bytes. -/
def store (d : Disk) (place : Place) (bytes : List UInt8) : Except FileError Disk :=
  if (d.device place).holds bytes then .ok (d.write place bytes) else .error .full

/-- The disk while a file is written: some of the bytes have come to it. -/
def receive (d : Disk) (place : Place) (steps held : Nat) (written : List UInt8) :
    Except FileError Disk :=
  d.store place ((d.device place).arriving steps held written)

/-- Writes as many bytes as a file can hold. -/
def spill (d : Disk) (place : Place) (bytes : List UInt8) : Disk :=
  d.write place ((d.device place).fitting bytes)

/-- Gives up a file that is being written, and removes the name it was created under. -/
def abandon (d : Disk) (path : String) (place : Place) (written : List UInt8) : Disk :=
  (d.spill place written).unlink path

/-! ### Disks from lists of files -/

/-- A place and the directories around it, from the root on. -/
def around (place : Place) : List Place :=
  (List.range (place.length + 1)).map fun n => place.take n

/-- A disk with an empty working directory. -/
def empty (here : Place) : Disk where
  nodes := .empty
  contents := .empty
  directories := around here
  here := here
  locked := []
  device := fun _ => {}

/-- The place of a path in which every directory is taken to exist. -/
def placeOf (d : Disk) (path : String) : Place :=
  (Path.components path).foldl move (base d.here path)

/-- The places on the way from a place along components, both ends included. -/
def passed (place : Place) : List String → List Place
  | [] => [place]
  | component :: rest => place :: passed (move place component) rest

/-- Adds the directories on the way along components, also those that the way goes back up from. -/
def addWay (d : Disk) (start : Place) (components : List String) : Disk :=
  { d with directories := d.directories ++ passed start components }

/-- Adds a directory with all directories on the way to it. -/
def addDirectory (d : Disk) (path : String) : Disk :=
  d.addWay (base d.here path) (Path.components path)

/-- Adds a file with all directories on the way to it. -/
def addFile (d : Disk) (path : String) (bytes : List UInt8) : Disk :=
  (d.addWay (base d.here path) (Path.components path).dropLast).write (d.placeOf path) bytes

/-- Adds a link with all directories on the way to it. -/
def addLink (d : Disk) (path goal : String) : Disk :=
  let d := d.addWay (base d.here path) (Path.components path).dropLast
  { d with nodes := d.nodes.insert (d.placeOf path) (.link goal) }

/-- A place as a path from the working directory. -/
def pathOf (d : Disk) (place : Place) : String :=
  if d.here <+: place then "/".intercalate (place.drop d.here.length)
  else "/" ++ "/".intercalate place

/-- The names that stand for something else than on another disk: the new bytes of a file, or `none`
if the name was removed. -/
def changes (before after : Disk) : List (String × Option (List UInt8)) :=
  (after.nodes.pairs.filterMap fun (place, node) =>
    match after.entryOf node with
    | .file bytes =>
      if (before.nodes.get? place).map before.entryOf = some (.file bytes) then none
      else some (after.pathOf place, some bytes)
    | _ => none) ++
  (before.nodes.pairs.filterMap fun (place, _) =>
    if (after.nodes.get? place).isSome then none else some (after.pathOf place, none))

end Disk

end Assembler6502
