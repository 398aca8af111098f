import Pascalize.Command.Path

/-!
# Disks

A file system as a plain value: what stands at each place, and the working directory. `Disk.read` and
`Disk.write` follow a path step by step, and the first step that fails settles the fault.
-/

namespace Pascalize.Command

/-- What stands at a place. The null device is empty to read and keeps nothing that is written. -/
inductive Entry where
  | file (contents : ByteArray)
  | directory
  | null

/-- The names that lead from the root to a place, the last one first. -/
abbrev Place := List String

structure Disk where
  entries : List (Place × Entry)
  working : Place

namespace Disk

/-- The bytes of the longest name. -/
def maxNameSize : Nat :=
  255

/-- A disk whose working directory holds the files, with the null device at its usual place. -/
def ofFiles (files : List (String × ByteArray)) : Disk where
  entries := files.map (fun f => ([f.1, "work", "tmp"], .file f.2)) ++
    [(["work", "tmp"], .directory), (["tmp"], .directory), (["null", "dev"], .null),
     (["dev"], .directory)]
  working := ["work", "tmp"]

/-- What stands at a place. The root is always a directory. -/
def get? (d : Disk) : Place → Option Entry
  | [] => some .directory
  | place => d.entries.lookup place

/-- The contents of a file of the working directory. -/
def file? (d : Disk) (name : String) : Option ByteArray :=
  match d.get? (name :: d.working) with
  | some (.file contents) => some contents
  | _ => none

def put (d : Disk) (place : Place) (contents : ByteArray) : Disk :=
  { d with entries := (place, .file contents) :: d.entries }

/-- The place that a step leads to from a directory. There is nothing above the root. -/
def move (place : Place) : Step → Except FileFault Place
  | .stay => .ok place
  | .up => .ok place.tail
  | .down name => if maxNameSize < name.utf8ByteSize then .error .nameTooLong else .ok (name :: place)

/-- A step on the way, which has to lead to a directory again. -/
def enter (d : Disk) (place : Place) (step : Step) : Except FileFault Place := do
  let place ← move place step
  match d.get? place with
  | some .directory => return place
  | some _ => throw .notDirectory
  | none => throw .notFound

/-- The directory in which the last step of a path is taken. -/
def base (d : Disk) (path : Path) : Except FileFault Place :=
  path.way.foldlM d.enter (if path.fromRoot then [] else d.working)

/-- The contents of the file at a path. -/
def read (d : Disk) (text : String) : Except FileFault ByteArray := do
  let path ← Path.parse text
  let base ← d.base path
  let place ← move base (path.last?.getD .stay)
  match d.get? place with
  | none => throw .notFound
  | some .directory => throw .isDirectory
  | some (.file contents) => if path.closed then throw .notDirectory else return contents
  | some .null => if path.closed then throw .notDirectory else return .empty

/-- The disk after writing a file at a path. Only a name that no slash follows can be the name of a
file, and anything else counts as a directory, whether there is one or not. -/
def write (d : Disk) (text : String) (contents : ByteArray) : Except FileFault Disk := do
  let path ← Path.parse text
  let base ← d.base path
  match path.last?, path.closed with
  | some (.down name), false =>
    let place ← move base (.down name)
    match d.get? place with
    | some .directory => throw .isDirectory
    | some .null => return d
    | _ => return d.put place contents
  | _, _ => throw .isDirectory

theorem get?_put (d : Disk) (place other : Place) (contents : ByteArray) (h : other ≠ []) :
    (d.put place contents).get? other =
      if other = place then some (.file contents) else d.get? other := by
  cases other with
  | nil => exact absurd rfl h
  | cons name rest =>
    by_cases same : name :: rest = place
    · simp [get?, put, same]
    · have differ : (name :: rest == place) = false := beq_eq_false_iff_ne.2 same
      simp only [get?, put, List.lookup_cons, differ, if_neg same]

end Disk

instance : Files (StateM Disk) where
  read path := return (← get).read path
  write path contents := do
    match (← get).write path contents with
    | .ok d => set d; return .ok ()
    | .error fault => return .error fault

end Pascalize.Command
