import Pascalize.Command.Arguments
import Pascalize.Command.Files
import Pascalize.Pipeline
import Pascalize.Scope.Table
import Pascalize.Tree.Outline

/-!
# Running the command line

A run reads one source file and shows its tokens, its tree, its scopes or, by default, the program
in Pascal. What is shown, what is complained about and the exit code are collected in a report; only
reading the source and writing the Pascal text touch files.
-/

namespace Pascalize.Command

/-- What a run shows and how it ends. -/
structure Report where
  exit : Nat := 0
  stdout : String := ""
  stderr : String := ""
deriving DecidableEq, Repr, Inhabited

/-- Texts as lines. -/
def unlines (texts : List String) : String :=
  String.join (texts.map (· ++ "\n"))

/-- A run that ends with an error, after what it has shown. -/
def Report.failure (message : String) (shown : Report) : Report :=
  { shown with exit := 1, stderr := shown.stderr ++ "Error: " ++ message ++ "\n" }

/-- The message of an error that has a cause. -/
def causedBy (message cause : String) : String :=
  message ++ "\n\nCaused by:\n    " ++ cause

def versionText : String :=
  "cpp2pas 0.1.0\n"

def usageText : String :=
  "Usage: cpp2pas [OPTIONS] <FILE>\n"

def helpText : String :=
  "Translate a C-like source file into Pascal\n\n" ++ usageText ++ "\n" ++
  "Arguments:\n" ++
  "  <FILE>  Source file to translate\n\n" ++
  "Options:\n" ++
  "      --tokens                       Print the token stream and stop\n" ++
  "      --ast                          Print the syntax tree and stop\n" ++
  "      --scopes                       Print the scopes and symbol tables and stop\n" ++
  "  -O, --optimize                     Drop variable declarations that are never used\n" ++
  "      --program-name <PROGRAM_NAME>  Name of the generated program [default: translated]\n" ++
  "  -o, --output <FILE>                Write the translation to FILE instead of stdout\n" ++
  "  -v, --verbose                      Log every stage to stderr\n" ++
  "  -h, --help                         Print help\n" ++
  "  -V, --version                      Print version\n"

/-- The answer to arguments that stop the reading. -/
def Stop.report : Stop → Report
  | .version => { stdout := versionText }
  | .help => { stdout := helpText }
  | .usage error =>
    { exit := 2
      stderr := error.message ++ "\n\n" ++ usageText ++ "\nFor more information, try '--help'.\n" }

/-- One line per token, up to the end of input or an error. -/
def showTokens (source : String) : Report :=
  let items := (Lexer.ofString source).items
  let line (t : Token) : String := s!"{t.location.line}:{t.location.column}\t{t.describe}"
  let shown : Report := { stdout := unlines (items.filterMap fun i => i.toOption.map line) }
  match items.getLast? with
  | some (.error e) => .failure e.message shown
  | _ => shown

def showTree (source : String) : Report :=
  match Program.parse source with
  | .error e => .failure e.message {}
  | .ok program => { stdout := program.outline }

/-- The symbol table. Diagnostics are shown beside it and do not count as failure. -/
def showScopes (source : String) : Report :=
  match Program.parse source with
  | .error e => .failure e.message {}
  | .ok program =>
    let a := program.analyze
    { stdout := a.forest.table, stderr := unlines (a.diagnostics.map (·.message)) }

/-- Notes on removed variables, then warnings, then diagnostics. -/
def remarks (outcome : Outcome) : List String :=
  outcome.listing.removed.map (·.note) ++
    outcome.listing.warnings.map ("Warning: " ++ ·.message) ++
    outcome.diagnostics.map (·.message)

/-- The report of an outcome whose text has been written. -/
def Report.conclude (outcome : Outcome) (shown : Report) : Report :=
  match outcome.diagnostics.length with
  | 0 => shown
  | n => .failure s!"{n} semantic error(s)" shown

def Arguments.options (a : Arguments) : Pascal.Options :=
  let optimize := decide (Flag.optimize ∈ a.flags)
  match a.programName with
  | some programName => { optimize, programName }
  | none => { optimize }

section

variable {m : Type → Type} [Monad m] [Files m]

/-- Writes the program in Pascal, to a file if one is named. -/
def emit (a : Arguments) (source : String) : m Report := do
  match compile source a.options with
  | .error e => return .failure e.message {}
  | .ok outcome =>
    let shown : Report := { stderr := unlines (remarks outcome) }
    let text := outcome.listing.text
    match a.output with
    | none => return .conclude outcome { shown with stdout := text }
    | some path =>
      match ← Files.write path text.toUTF8 with
      | .ok () => return .conclude outcome shown
      | .error fault => return .failure (causedBy s!"failed to write {path}" fault.message) shown

/-- Shows what the flags ask for; of several, the first of tokens, tree and scopes. -/
def handle (a : Arguments) (source : String) : m Report :=
  if .tokens ∈ a.flags then return showTokens source
  else if .ast ∈ a.flags then return showTree source
  else if .scopes ∈ a.flags then return showScopes source
  else emit a source

/-- Reads a file as text. -/
def readText (path : String) : m (Except FileFault String) := do
  match ← Files.read path with
  | .error fault => return .error fault
  | .ok bytes =>
    match String.fromUTF8? bytes with
    | some text => return .ok text
    | none => return .error .invalidText

/-- Runs the command line. -/
def run (arguments : List String) : m Report := do
  match Arguments.parse arguments with
  | .error stop => return stop.report
  | .ok a =>
    match ← readText a.file with
    | .error fault => return .failure (causedBy s!"failed to read {a.file}" fault.message) {}
    | .ok source => handle a source

end

end Pascalize.Command
