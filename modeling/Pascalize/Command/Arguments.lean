/-!
# Command line arguments

Arguments are read from left to right into a draft. Flags take no value and options take one, in the
same argument or in the next; short ones may be joined, and `--` ends them. The first argument that
cannot be read stops the reading, and so does a request for the version or for help.
-/

namespace Pascalize.Command

/-- A switch. -/
inductive Flag where
  | tokens | ast | scopes | optimize | verbose
deriving DecidableEq, Repr, Inhabited

/-- An argument that takes a value. -/
inductive Setting where
  | programName | output
deriving DecidableEq, Repr, Inhabited

namespace Flag

def long : Flag → String
  | tokens => "tokens"
  | ast => "ast"
  | scopes => "scopes"
  | optimize => "optimize"
  | verbose => "verbose"

def all : List Flag :=
  [tokens, ast, scopes, optimize, verbose]

end Flag

namespace Setting

def long : Setting → String
  | programName => "program-name"
  | output => "output"

def all : List Setting :=
  [programName, output]

end Setting

/-- Why arguments cannot be read. -/
inductive UsageError where
  | unknown (argument : String)
  | repeated (argument : String)
  | missingValue (argument : String)
  | needlessValue (argument : String)
  | emptyValue (argument : String)
  | missingFile
deriving DecidableEq, Repr, Inhabited

def UsageError.message : UsageError → String
  | unknown argument => s!"error: unexpected argument '{argument}' found"
  | repeated argument => s!"error: the argument '{argument}' cannot be used multiple times"
  | missingValue argument => s!"error: a value is required for '{argument}' but none was supplied"
  | needlessValue argument =>
    s!"error: unexpected value for '{argument}' found; no more were expected"
  | emptyValue argument => s!"error: a value is required for '{argument}' but none was supplied"
  | missingFile => "error: the following required arguments were not provided:\n  <FILE>"

/-- Why reading arguments stopped before their end. -/
inductive Stop where
  | version
  | help
  | usage (error : UsageError)
deriving DecidableEq, Repr, Inhabited

/-- Arguments that have been read. -/
structure Arguments where
  file : String
  flags : List Flag
  programName : Option String
  output : Option String
deriving DecidableEq, Repr, Inhabited

/-- Arguments as far as they have been read. -/
structure Draft where
  file : Option String := none
  flags : List Flag := []
  programName : Option String := none
  output : Option String := none
  /-- An option whose value is the next argument. -/
  pending : Option Setting := none
  /-- Whether `--` has ended the flags and options. -/
  plain : Bool := false
deriving DecidableEq, Repr, Inhabited

namespace Draft

def refuse {α : Type} (error : UsageError) : Except Stop α :=
  .error (.usage error)

/-- The file to read. There is one, and it has a name. -/
def takeFile (d : Draft) (name : String) : Except Stop Draft :=
  if name.isEmpty then refuse (.emptyValue "<FILE>")
  else match d.file with
    | none => .ok { d with file := some name }
    | some _ => refuse (.unknown name)

/-- A flag is set once. -/
def setFlag (d : Draft) (flag : Flag) : Except Stop Draft :=
  if flag ∈ d.flags then refuse (.repeated ("--" ++ flag.long))
  else .ok { d with flags := d.flags ++ [flag] }

/-- An option is given once, and the file to write has a name. -/
def give (d : Draft) (setting : Setting) (value : String) : Except Stop Draft :=
  let d := { d with pending := none }
  match setting with
  | .programName =>
    if d.programName.isSome then refuse (.repeated "--program-name <NAME>")
    else .ok { d with programName := some value }
  | .output =>
    if value.isEmpty then refuse (.emptyValue "--output <FILE>")
    else if d.output.isSome then refuse (.repeated "--output <FILE>")
    else .ok { d with output := some value }

/-- An argument that starts with two dashes, by its name and the value after an equals sign. -/
def takeLong (d : Draft) (name : String) (value : Option String) : Except Stop Draft :=
  match Setting.all.find? (·.long = name) with
  | some setting =>
    match value with
    | some value => d.give setting value
    | none => .ok { d with pending := some setting }
  | none =>
    let simple (next : Except Stop Draft) : Except Stop Draft :=
      if value.isSome then refuse (.needlessValue ("--" ++ name)) else next
    match Flag.all.find? (·.long = name) with
    | some flag => simple (d.setFlag flag)
    | none =>
      if name = "version" then simple (.error .version)
      else if name = "help" then simple (.error .help)
      else refuse (.unknown ("--" ++ name))

/-- The letters after a single dash. -/
def takeShort (d : Draft) : List Char → Except Stop Draft
  | [] => .ok d
  | 'O' :: rest => do (← d.setFlag .optimize).takeShort rest
  | 'v' :: rest => do (← d.setFlag .verbose).takeShort rest
  | 'V' :: _ => .error .version
  | 'h' :: _ => .error .help
  | ['o'] => .ok { d with pending := some .output }
  | 'o' :: '=' :: value => d.give .output (String.ofList value)
  | 'o' :: value => d.give .output (String.ofList value)
  | c :: _ => refuse (.unknown ("-" ++ c.toString))

/-- An argument while flags and options may still come. -/
def takeOption (d : Draft) (argument : String) : Except Stop Draft :=
  match argument.toList with
  | ['-'] => d.takeFile argument
  | ['-', '-'] => .ok { d with plain := true }
  | '-' :: '-' :: rest =>
    let value := match rest.dropWhile (· ≠ '=') with
      | [] => none
      | _ :: value => some (String.ofList value)
    d.takeLong (String.ofList (rest.takeWhile (· ≠ '='))) value
  | '-' :: rest => d.takeShort rest
  | _ => d.takeFile argument

/-- Whether an argument can be the value of the option before it: it is a single dash or starts with
none. -/
def isValue (argument : String) : Bool :=
  match argument.toList with
  | ['-'] => true
  | '-' :: _ => false
  | _ => true

/-- One argument. -/
def take (d : Draft) (argument : String) : Except Stop Draft :=
  match d.pending with
  | some setting =>
    if isValue argument then d.give setting argument
    else refuse (.missingValue ("--" ++ setting.long))
  | none => if d.plain then d.takeFile argument else d.takeOption argument

/-- What the draft amounts to after the last argument. -/
def finish (d : Draft) : Except Stop Arguments :=
  match d.pending, d.file with
  | some setting, _ => refuse (.missingValue ("--" ++ setting.long))
  | none, none => refuse .missingFile
  | none, some file => .ok ⟨file, d.flags, d.programName, d.output⟩

end Draft

/-- The meaning of a list of arguments. -/
def Arguments.parse (arguments : List String) : Except Stop Arguments := do
  (← arguments.foldlM Draft.take {}).finish

end Pascalize.Command
