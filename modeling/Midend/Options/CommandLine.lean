import Midend.Options.Basic

/-!
# Options on a command line

A setting takes its value from the same argument (`--threads=4`, `-j4`, `-j=4`) or
from the next one, unless that starts with a dash. A value that is an argument of
its own is checked when the next setting begins or the arguments end, so an
unknown argument is found before a wrong value in front of it.
-/

namespace Midend

/-- What an argument sets. -/
inductive Setting where
  | passes | maxFoldRounds | threads | errorFormat | noWarnings
  /-- Asks for an explanation of the settings. -/
  | help
deriving DecidableEq

namespace Setting

/-- Whether the setting has a value. -/
def takesValue : Setting → Bool
  | passes | maxFoldRounds | threads | errorFormat => true
  | noWarnings | help => false

/-- Whether the setting may be given more than once. -/
def isRepeatable : Setting → Bool
  | passes => true
  | _ => false

/-- The setting with the given name after two dashes. -/
def ofLong? : String → Option Setting
  | "passes" => some passes
  | "max-fold-iterations" => some maxFoldRounds
  | "threads" | "jobs" => some threads
  | "error-format" => some errorFormat
  | "no-warnings" => some noWarnings
  | "help" => some help
  | _ => none

/-- The setting with the given letter after one dash. -/
def ofShort? : Char → Option Setting
  | 'j' => some threads
  | 'h' => some help
  | _ => none

end Setting

/-- Why arguments are no options. -/
inductive UsageError where
  | unknownArgument
  /-- A value is missing or is none of the choices. -/
  | invalidValue
  /-- A value is malformed. -/
  | malformedValue
  /-- A setting was given twice. -/
  | repeated
  /-- A value was given to a setting that takes none. -/
  | unexpectedValue
  /-- An explanation was asked for. -/
  | helpRequested
deriving DecidableEq

/-- An argument by its form. -/
inductive Arg where
  /-- Two dashes, after which no argument is a setting. -/
  | terminator
  /-- A name after two dashes, and the value after an equals sign. -/
  | long (name : String) (value : Option String)
  /-- Letters after one dash. -/
  | short (letters : List Char)
  | plain (value : String)

/-- Splits at the first equals sign. -/
def Arg.splitValue (cs : List Char) : String × Option String :=
  let name := String.ofList (cs.takeWhile (· != '='))
  match cs.dropWhile (· != '=') with
  | [] => (name, none)
  | _ :: value => (name, some (String.ofList value))

/-- The form of an argument. A single dash is a value. -/
def Arg.ofText (s : String) : Arg :=
  match s.toList with
  | ['-', '-'] => .terminator
  | '-' :: '-' :: cs =>
    let (name, value) := splitValue cs
    .long name value
  | ['-'] => .plain s
  | '-' :: cs => .short cs
  | _ => .plain s

/-- Pieces of a text between commas. -/
def splitCommas (s : String) : List String :=
  (s.toList.splitOn ',').map String.ofList

namespace Options

/-- Sets a value that was given in text. -/
def assign (o : Options) (value : String) : Setting → Except UsageError Options
  | .passes =>
    match (splitCommas value).mapM Pass.ofText? with
    | some ps => .ok { o with passes := o.passes ++ ps }
    | none => .error .invalidValue
  | .maxFoldRounds =>
    match Text.readCount value with
    | .ok n => .ok { o with maxFoldRounds := n }
    | .error _ => .error .malformedValue
  | .threads =>
    match readThreads value with
    | .ok n => .ok { o with threads := n }
    | .error _ => .error .malformedValue
  | .errorFormat =>
    match ErrorFormat.ofText? value with
    | some f => .ok { o with errorFormat := f }
    | none => .error .invalidValue
  | .noWarnings => .ok { o with noWarnings := true }
  | .help => .error .helpRequested

end Options

/-- A command line that was read in part. -/
structure CommandLine where
  options : Options := {}
  /-- The settings given so far. -/
  given : List Setting := []
  /-- A setting whose value is an argument of its own, once that was read. -/
  pending : Option (Setting × Option String) := none

namespace CommandLine

/-- Gives a setting. A missing value is found before a repetition, and that before a wrong value. -/
def give (c : CommandLine) (s : Setting) (value : Option String) :
    Except UsageError CommandLine := do
  if s.takesValue && value.isNone then throw .invalidValue
  if !s.isRepeatable && c.given.contains s then throw .repeated
  return { c with options := ← c.options.assign (value.getD "") s, given := s :: c.given }

/-- Gives the pending setting. -/
def settle (c : CommandLine) : Except UsageError CommandLine :=
  match c.pending with
  | none => .ok c
  | some (s, value) => give { c with pending := none } s value

/-- Gives a setting after the pending one. -/
def next (c : CommandLine) (s : Setting) (value : Option String) :
    Except UsageError CommandLine := do
  let c ← c.settle
  if s.takesValue && value.isNone then return { c with pending := some (s, none) }
  c.give s value

/-- The value of a setting after its letter. -/
def attached : List Char → Option String
  | [] => none
  | '=' :: cs => some (String.ofList cs)
  | cs => some (String.ofList cs)

/-- Reads letters after a dash. The letters after a setting that takes a value are its value. -/
def readLetters (c : CommandLine) : List Char → Except UsageError CommandLine
  | [] => .ok c
  | l :: ls =>
    match Setting.ofShort? l with
    | none => .error .unknownArgument
    | some s =>
      if s.takesValue then c.next s (attached ls)
      else do (← c.next s none).readLetters ls

/-- Reads the arguments that follow. -/
def read (c : CommandLine) : List String → Except UsageError CommandLine
  | [] => c.settle
  | arg :: rest =>
    match Arg.ofText arg with
    | .terminator => if rest.isEmpty then c.settle else .error .unknownArgument
    | .long name value =>
      match Setting.ofLong? name with
      | none => .error .unknownArgument
      | some s =>
        if !s.takesValue && value.isSome then .error .unexpectedValue
        else do (← c.next s value).read rest
    | .short letters => do (← c.readLetters letters).read rest
    | .plain value =>
      match c.pending with
      | some (s, none) => read { c with pending := some (s, some value) } rest
      | _ => .error .unknownArgument

end CommandLine

/-- The options on a command line. -/
def Options.ofArgs (args : List String) : Except UsageError Options :=
  (CommandLine.read {} args).map (·.options)

end Midend
