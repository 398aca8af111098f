import Pascalize.Token.Basic

/-!
# Binary operators

The thirteen binary operators of the source language, with the spelling, the precedence and the
class of each. Higher precedence binds tighter; all of them group to the left.
-/

namespace Pascalize

/-- A binary operator. -/
inductive Operator where
  | add | sub | mul | div | mod
  | eq | ne | lt | le | gt | ge
  | and | or
deriving DecidableEq, Repr, Inhabited

namespace Operator

/-- How the source language spells an operator. -/
def symbol : Operator → String
  | add => "+"
  | sub => "-"
  | mul => "*"
  | div => "/"
  | mod => "%"
  | eq => "=="
  | ne => "!="
  | lt => "<"
  | le => "<="
  | gt => ">"
  | ge => ">="
  | and => "&&"
  | or => "||"

/-- The binding strength, from one for the loosest. -/
def precedence : Operator → Nat
  | or => 1
  | and => 2
  | eq | ne | lt | le | gt | ge => 3
  | add | sub => 4
  | mul | div | mod => 5

/-- Whether an operator computes a number from numbers. -/
def isArithmetic : Operator → Bool
  | add | sub | mul | div | mod => true
  | _ => false

/-- The operator that a token stands for between two operands. -/
def ofKind? : Kind → Option Operator
  | .plus => some add
  | .minus => some sub
  | .star => some mul
  | .slash => some div
  | .percent => some mod
  | .equal => some eq
  | .notEqual => some ne
  | .less => some lt
  | .lessEqual => some le
  | .greater => some gt
  | .greaterEqual => some ge
  | .conj => some and
  | .disj => some or
  | _ => none

end Operator

end Pascalize
