import Pascalize.Grammar.Statement
import Pascalize.Pascal.Listing
import Pascalize.Scope.Analysis

/-!
# From source text to Pascal

A text that does not parse gives its first error. One that does gives a listing in any case, with
the diagnostics of its names beside it.
-/

namespace Pascalize

/-- A program in Pascal and what is wrong with its names. -/
structure Outcome where
  listing : Pascal.Listing
  diagnostics : List Diagnostic
deriving Inhabited

/-- A program in Pascal, after its names were analysed. -/
def Program.compile (program : Program) (options : Pascal.Options) : Outcome :=
  let analysis := program.analyze
  ⟨program.pascal analysis.forest options, analysis.diagnostics⟩

/-- A source text in Pascal, or why it is no program. -/
def compile (source : String) (options : Pascal.Options) : Except ParseError Outcome := do
  return (← Program.parse source).compile options

end Pascalize
