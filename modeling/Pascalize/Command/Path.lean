import Pascalize.Command.Files

/-!
# Paths

A path is a way through directories: it starts at the root or where one stands, and every part of it
is one step. Slashes only part the steps, but one at the end of the path asks for a directory.
-/

namespace Pascalize.Command

/-- One step of a path. -/
inductive Step where
  | stay
  | up
  | down (name : String)
deriving DecidableEq, Repr, Inhabited

/-- A single dot stays, two dots go up, and any other part is a name to go down to. -/
def Step.ofString (part : String) : Step :=
  if part = "." then .stay else if part = ".." then .up else .down part

structure Path where
  fromRoot : Bool
  steps : List Step
  /-- Whether a slash ends the path. -/
  closed : Bool
deriving DecidableEq, Repr, Inhabited

namespace Path

/-- The bytes of the longest path. -/
def maxSize : Nat :=
  4095

/-- The steps of a text; several slashes part as one does. -/
def ofString (text : String) : Path where
  fromRoot := text.toList.head? = some '/'
  steps := ((text.splitOn "/").filter (· ≠ "")).map Step.ofString
  closed := text.toList.getLast? = some '/'

/-- Reads a path. The empty text leads nowhere, and there is a limit to the length. -/
def parse (text : String) : Except FileFault Path :=
  if text = "" then .error .notFound
  else if maxSize < text.utf8ByteSize then .error .nameTooLong
  else .ok (ofString text)

/-- The steps before the last one. -/
def way (path : Path) : List Step :=
  path.steps.dropLast

/-- The last step. Only a path of nothing but slashes has none. -/
def last? (path : Path) : Option Step :=
  path.steps.getLast?

end Path

end Pascalize.Command
