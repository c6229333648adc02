/-!
# Command line options

A command line is read from left to right. Flags take no value. The other options take one: in the
next argument, in the same argument after `=`, or, for one-letter options, right behind the letter.
One-letter flags can be joined. A value in an argument of its own may not begin with `-`, unless it
is `-` alone. Every option but the list of passes may be given once, and there are no arguments
besides options.

Reading stops at the first mistake, or at the request for the version. Which options exclude each
other, and that there must be a source, is checked at the end.
-/

set_option autoImplicit false

namespace TapeLang.CommandLine

/-- The options that were given. -/
structure Options where
  source : Option String
  sourceFile : Option String
  input : Option String
  compile : Bool
  emitSource : Bool
  outputFile : Option String
  noOptimize : Bool
  passes : Option (List String)
  maxSteps : Option Nat
  verbose : Bool
  deriving DecidableEq, Repr

/-- No option. -/
def Options.empty : Options :=
  { source := none, sourceFile := none, input := none, compile := false, emitSource := false,
    outputFile := none, noOptimize := false, passes := none, maxSteps := none, verbose := false }

/-- Why there is nothing to run. -/
inductive Stop where
  | usage
  | version
  deriving DecidableEq, Repr

/-- An option without a value. -/
inductive Flag where
  | compile
  | emitSource
  | noOptimize
  | verbose
  deriving DecidableEq, Repr

/-- An option with a value. -/
inductive Setting where
  | source
  | sourceFile
  | input
  | outputFile
  | passes
  | maxSteps
  deriving DecidableEq, Repr

/-- What an option's name stands for. -/
inductive Switch where
  | flag (f : Flag)
  | setting (s : Setting)
  | version
  deriving DecidableEq, Repr

/-- The option with a long name. -/
def Switch.ofLong? : String → Option Switch
  | "src" => some (.setting .source)
  | "src-file" => some (.setting .sourceFile)
  | "input" => some (.setting .input)
  | "compile" => some (.flag .compile)
  | "emit-bf" => some (.flag .emitSource)
  | "output-file" => some (.setting .outputFile)
  | "no-opt" => some (.flag .noOptimize)
  | "passes" => some (.setting .passes)
  | "max-steps" => some (.setting .maxSteps)
  | "verbose" => some (.flag .verbose)
  | "version" => some .version
  | _ => none

/-- The option with a one-letter name. -/
def Switch.ofLetter? : Char → Option Switch
  | 's' => some (.setting .source)
  | 'f' => some (.setting .sourceFile)
  | 'i' => some (.setting .input)
  | 'c' => some (.flag .compile)
  | 'o' => some (.setting .outputFile)
  | 'O' => some (.flag .noOptimize)
  | 'v' => some (.flag .verbose)
  | 'V' => some .version
  | _ => none

/-- The number of a list of decimal digits. -/
def digitsValue? (digits : List Char) : Option Nat :=
  if digits.isEmpty || !digits.all Char.isDigit then none
  else some (digits.foldl (fun n c => 10 * n + (c.toNat - '0'.toNat)) 0)

/-- The number of steps that a text stands for: decimal digits, perhaps after a plus sign, of a
number below 2 ^ 64. -/
def stepsValue? (text : String) : Option Nat :=
  let digits :=
    match text.toList with
    | '+' :: rest => rest
    | all => all
  (digitsValue? digits).filter (· < UInt64.size)

/-- The pieces of a text between its commas. -/
def commaPieces (text : String) : List String := text.splitOn ","

namespace Options

/-- A flag that is set, unless it was set before. -/
def setOnce (old : Bool) : Except Stop Bool := if old then .error .usage else .ok true

/-- A value that is given, unless one was given before. -/
def giveOnce {α : Type} (old : Option α) (value : α) : Except Stop (Option α) :=
  if old.isSome then .error .usage else .ok (some value)

/-- A path. It is not empty. -/
def givePath (old : Option String) (value : String) : Except Stop (Option String) :=
  if value.isEmpty then .error .usage else giveOnce old value

/-- The options with one more flag. -/
def setFlag (o : Options) : Flag → Except Stop Options
  | .compile => return { o with compile := ← setOnce o.compile }
  | .emitSource => return { o with emitSource := ← setOnce o.emitSource }
  | .noOptimize => return { o with noOptimize := ← setOnce o.noOptimize }
  | .verbose => return { o with verbose := ← setOnce o.verbose }

/-- The options with one more value. -/
def give (o : Options) (value : String) : Setting → Except Stop Options
  | .source => return { o with source := ← giveOnce o.source value }
  | .sourceFile => return { o with sourceFile := ← givePath o.sourceFile value }
  | .input => return { o with input := ← giveOnce o.input value }
  | .outputFile => return { o with outputFile := ← givePath o.outputFile value }
  | .passes => return { o with passes := some (o.passes.getD [] ++ commaPieces value) }
  | .maxSteps =>
      match stepsValue? value with
      | some n => return { o with maxSteps := ← giveOnce o.maxSteps n }
      | none => throw .usage

/-- Reads joined one-letter options. The last of them may still need a value. -/
def readLetters (o : Options) : List Char → Except Stop (Options × Option Setting)
  | [] => .ok (o, none)
  | c :: rest =>
      match Switch.ofLetter? c with
      | some (.flag f) => do readLetters (← o.setFlag f) rest
      | some (.setting s) =>
          match rest with
          | [] => .ok (o, some s)
          | '=' :: value => return (← o.give (String.ofList value) s, none)
          | value => return (← o.give (String.ofList value) s, none)
      | some .version => .error .version
      | none => .error .usage

/-- The name and the value of a long option. -/
def splitLong (text : List Char) : String × Option String :=
  let name := text.takeWhile (· ≠ '=')
  match text.dropWhile (· ≠ '=') with
  | [] => (String.ofList name, none)
  | _ :: value => (String.ofList name, some (String.ofList value))

/-- Reads a long option. It may still need a value. -/
def readLong (o : Options) (text : List Char) : Except Stop (Options × Option Setting) :=
  match Switch.ofLong? (splitLong text).1, (splitLong text).2 with
  | some (.flag f), none => return (← o.setFlag f, none)
  | some (.setting s), some value => return (← o.give value s, none)
  | some (.setting s), none => .ok (o, some s)
  | some .version, none => .error .version
  | _, _ => .error .usage

/-- Reads one argument that is not a value of the argument before it. -/
def readArgument (o : Options) (arg : String) : Except Stop (Options × Option Setting) :=
  match arg.toList with
  | '-' :: '-' :: text => o.readLong text
  | '-' :: c :: rest => o.readLetters (c :: rest)
  | _ => .error .usage

/-- An argument that can be a value. -/
def isValue (arg : String) : Bool := arg = "-" || !arg.startsWith "-"

/-- Reads the arguments. If `pending` is an option, the first of them is its value. -/
def readAll (o : Options) (pending : Option Setting) : List String → Except Stop Options
  | [] => if pending.isSome then .error .usage else .ok o
  | arg :: rest =>
      match pending with
      | some s => do
          if isValue arg then readAll (← o.give arg s) none rest else throw .usage
      | none =>
          if arg = "--" then if rest.isEmpty then .ok o else .error .usage
          else do
            let (o, pending) ← o.readArgument arg
            readAll o pending rest

/-- Options that go together and name one source. -/
def consistent (o : Options) : Bool :=
  o.source.isSome != o.sourceFile.isSome && !(o.input.isSome && o.compile) &&
    !(o.emitSource && o.compile) && !(o.passes.isSome && o.noOptimize)

/-- The options of a command line. -/
def parse (args : List String) : Except Stop Options := do
  let o ← Options.empty.readAll none args
  if o.consistent then return o else throw .usage

end Options

end TapeLang.CommandLine
