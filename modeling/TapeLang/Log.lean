/-!
# Log records

The optimiser, the generator of C code and the machine report what they do as events of their own
types. A record is the form in which every event is shown: a level, at most one message, and named
fields in order.
-/

set_option autoImplicit false

namespace TapeLang.Log

/-- The importance of a record. -/
inductive Level where
  | debug
  | trace
  deriving DecidableEq, Repr

/-- The name of a level. -/
def Level.name : Level → String
  | .debug => "DEBUG"
  | .trace => "TRACE"

/-- The value of a field. -/
inductive Value where
  | number (n : Nat)
  | text (s : String)
  deriving DecidableEq, Repr

/-- One line of a log. -/
structure Record where
  level : Level
  message : Option String
  fields : List (String × Value)
  deriving DecidableEq, Repr

/-- The text of a value. -/
def Value.toText : Value → String
  | .number n => toString n
  | .text s => s

/-- A record on one line. -/
def Record.line (r : Record) : String :=
  " ".intercalate
    (r.level.name :: (r.message.toList ++ r.fields.map fun f => f.1 ++ "=" ++ f.2.toText))

end TapeLang.Log
