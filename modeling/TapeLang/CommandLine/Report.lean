import TapeLang.CCode.Generate
import TapeLang.CommandLine.Directory
import TapeLang.CommandLine.Options
import TapeLang.Machine.Session
import TapeLang.Optimizer.Pipeline
import TapeLang.Source.Excerpt
import TapeLang.Source.Printer

/-!
# What a command does

A command gets its source from an option or from a file, reads the names of the passes, parses the
source, optimises the program, and then writes it as source text, writes it as C, or runs it, in
this order. The first of these steps that fails ends the command with a message. `Report` is
everything an observer sees of a command: its exit code, what it wrote to its two outputs, and the
file it wrote.
-/

set_option autoImplicit false

namespace TapeLang.CommandLine

open TapeLang.Text

/-- What a command finds around it. -/
structure World where
  /-- Whether messages are coloured. -/
  colour : Bool
  /-- The standard input. -/
  stdin : List UInt8
  /-- The content of a file, or why it cannot be read. -/
  read : String → Except FileFault ByteArray
  /-- Why a file cannot be written, if it cannot. -/
  refuses : String → Option FileFault

/-- Why a command failed. -/
inductive Failure where
  | noSource
  | unreadable (path : String) (cause : FileFault)
  | unknownPass (name : String)
  | unbalanced (source : String) (name : Option String) (errors : List BracketError)
  | overflow (e : Overflow)
  | unwritable (cause : FileFault)
  | stepLimit
  | fault (f : Fault)

/-- A message on the error output, after the word "error". -/
def errorText (colour : Bool) (message : String) : String :=
  String.ofList
    (paint .standard colour [.styled .redBold "error", .plain (": " ++ message ++ "\n")])

/-- What is written on the error output. Every unbalanced bracket is shown; all else is one line. -/
def Failure.text (colour : Bool) : Failure → String
  | .noSource => errorText colour "no source code given"
  | .unreadable path cause =>
      errorText colour ("could not read " ++ path ++ ": " ++ cause.message)
  | .unknownPass name => errorText colour ("unknown pass `" ++ name ++ "`")
  | .unbalanced source name errors =>
      String.join (errors.map (Source.renderError colour source name))
  | .overflow e => errorText colour e.message
  | .unwritable cause => errorText colour cause.message
  | .stepLimit => errorText colour "step limit reached"
  | .fault f => errorText colour f.message

/-- What an observer sees of a command. -/
structure Report where
  exit : Nat
  stdout : ByteArray
  stderr : String
  file : Option (String × ByteArray)

/-- The name and the version of the program. -/
def versionText : String := "bfxx 0.1.0\n"

namespace Report

/-- A command that has written something and succeeded. -/
def success (stdout : ByteArray) : Report := ⟨0, stdout, "", none⟩

/-- A command that has written something and failed. -/
def failure (w : World) (stdout : ByteArray) (f : Failure) : Report :=
  ⟨1, stdout, f.text w.colour, none⟩

/-- A command line that cannot be read. -/
def usage : Report := ⟨2, .empty, "", none⟩

/-- A command that writes generated code to a file or to the standard output. -/
def generated (w : World) (code : String) : Option String → Report
  | none => success code.toUTF8
  | some path =>
      match w.refuses path with
      | some cause => failure w .empty (.unwritable cause)
      | none => ⟨0, .empty, "", some (path, code.toUTF8)⟩

/-- A command that has run a program. -/
def interpreted (w : World) (r : Machine.Run Buffers) : Report :=
  let stdout := ⟨r.state.streams.output⟩
  match r.result with
  | .ok (.completed _) => success stdout
  | .ok (.outOfSteps _) => failure w stdout .stepLimit
  | .error f => failure w stdout (.fault f)

end Report

namespace Options

/-- The source text and the name of its file. -/
def load (w : World) (o : Options) : Except Failure (String × Option String) :=
  match o.source, o.sourceFile with
  | some text, _ => .ok (text, none)
  | none, some path =>
      match w.read path with
      | .error cause => .error (.unreadable path cause)
      | .ok content =>
          match String.fromUTF8? content with
          | some text => .ok (text, some path)
          | none => .error (.unreadable path .notText)
  | none, none => .error .noSource

/-- The passes that a list of names stands for. Blanks around a name do not count. -/
def passesOf : List String → Except Failure PassSet
  | [] => .ok .empty
  | name :: names =>
      match Pass.ofWord? (trim name) with
      | some pass => (passesOf names).map (·.insert pass)
      | none => .error (.unknownPass name)

/-- The passes to run. -/
def passSet (o : Options) : Except Failure PassSet :=
  if o.noOptimize then .ok .empty
  else
    match o.passes with
    | none => .ok .all
    | some names => passesOf names

/-- The program of a command and the log of its optimisation. -/
def prepare (w : World) (o : Options) : Except Failure (Program × List Event) := do
  let (source, name) ← o.load w
  let passes ← o.passSet
  match Source.parse source with
  | .error errors => throw (.unbalanced source name errors)
  | .ok p =>
      match passes.optimize p with
      | .error e => throw (.overflow e)
      | .ok r => return r

/-- A command that writes code, and does not run its program. -/
def generates (o : Options) : Bool := o.emitSource || o.compile

/-- The code that a command writes. -/
def code (o : Options) (p : Program) : Except Overflow String :=
  if o.emitSource then p.print.map (· ++ "\n") else (CCode.generate p).map (·.1)

/-- What a command that writes code does with its program. -/
def generate (w : World) (o : Options) (p : Program) : Report :=
  match o.code p with
  | .ok text => .generated w text o.outputFile
  | .error e => .failure w .empty (.overflow e)

/-- The input of the program that is run. -/
def programInput (w : World) (o : Options) : List UInt8 :=
  match o.input with
  | some text => text.toUTF8.toList
  | none => w.stdin

/-- What a command with the given options does. Nothing is returned if it runs a program that has
not ended after `fuel` steps. -/
def report (w : World) (fuel : Nat) (o : Options) : Option Report :=
  match o.prepare w with
  | .error f => some (.failure w .empty f)
  | .ok (p, _) =>
      if o.generates then some (o.generate w p)
      else (Machine.execute fuel o.maxSteps p (o.programInput w)).map (Report.interpreted w)

end Options

/-- What a command does: `report`, the version, or nothing but an exit code. -/
def run (w : World) (fuel : Nat) (args : List String) : Option Report :=
  match Options.parse args with
  | .ok o => o.report w fuel
  | .error .version => some (.success versionText.toUTF8)
  | .error .usage => some .usage

end TapeLang.CommandLine
