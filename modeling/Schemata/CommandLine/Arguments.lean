import Schemata.Location
import Schemata.Text.Number

/-!
# Arguments of the command

The command takes the location of a schema, and options before or after it.  An option is written
out, or shortened as far as it stays the only one that fits; some have a letter, and letters may be
clustered.  The value of an option follows it as the next argument, or is attached to it; two dashes
that are attached take back what the option said before.
-/

namespace Schemata

namespace CommandLine

/-- The options of the command. -/
inductive Switch where
  | help
  | output
  /-- Export the declarations instead of the schema. -/
  | declarations
  | format
  | settings
  | verbose
  deriving DecidableEq

namespace Switch

def takesValue : Switch → Bool
  | output | format | settings => true
  | help | declarations | verbose => false

def names : List (Text × Switch) :=
  [("--help".toList, help), ("--output".toList, output), ("--ast".toList, declarations),
    ("--ast-format".toList, format), ("--config".toList, settings), ("--verbose".toList, verbose)]

def ofLetter? : Char → Option Switch
  | 'h' => some help
  | 'o' => some output
  | 'v' => some verbose
  | _ => none

/-- The options whose name a text is, or, if there is none, that a text shortens. -/
def candidates (t : Text) : List Switch :=
  match names.find? fun e => e.1 == t with
  | some e => [e.2]
  | none => (names.filter fun e => t.isPrefixOf e.1).map Prod.snd

end Switch

/-! ### Arguments on their own -/

/-- An argument read on its own. -/
inductive Item where
  /-- A location, or the value of the option before it. -/
  | word (t : Text)
  | switch (s : Switch) (attached : Option Text)
  /-- The mark after which every argument is a word. -/
  | divider
  deriving DecidableEq

def dashes : Text :=
  "--".toList

/-- An option with what is attached to it; only an option that needs a value may have one. -/
def attach (s : Switch) (value : Option Text) : Option Item :=
  if value.isSome && !s.takesValue then none else some (.switch s value)

/-- The options of a cluster of letters; what follows the letter of an option that needs a value is
its value. -/
def readCluster : Text → Option (List Item)
  | [] => some []
  | c :: cs => do
      let s ← Switch.ofLetter? c
      if s.takesValue then return [.switch s (if cs.isEmpty then none else some cs)]
      else return .switch s none :: (← readCluster cs)

/-- The options of an argument that starts with a letter.  An equals sign after this first letter is
left out, and something has to follow it unless it is a value. -/
def readLetters (c : Char) (cs : Text) : Option (List Item) := do
  let s ← Switch.ofLetter? c
  match cs with
  | '=' :: cs =>
      if s.takesValue then return [.switch s (some cs)]
      else if cs.isEmpty then none
      else return .switch s none :: (← readCluster cs)
  | cs => readCluster (c :: cs)

/-- Whether a text has the form of a number below zero; one line break after it is let pass. -/
def isNegativeNumber (t : Text) : Bool :=
  let isDigit := fun c => (digitValue? c).isSome
  let body := if t.getLast? == some '\n' then t.dropLast else t
  match body with
  | '-' :: cs =>
      match cs.dropWhile isDigit with
      | [] => !cs.isEmpty
      | '.' :: ds => !ds.isEmpty && ds.all isDigit
      | _ => false
  | _ => false

/-- An argument that starts like an option and names none: numbers below zero and texts with a space
are words, anything else is refused. -/
def readUnknown (t : Text) : Option (List Item) :=
  if isNegativeNumber t || t.contains ' ' then some [.word t] else none

/-- The name of an option and the value attached to it. -/
def splitValue (t : Text) : Text × Option Text :=
  match t.span (· != '=') with
  | (name, _ :: value) => (name, some value)
  | (name, []) => (name, none)

def readNamed (t : Text) : Option (List Item) :=
  let (name, value) := splitValue t
  match Switch.candidates name with
  | [] => readUnknown t
  | [s] => (attach s value).map fun i => [i]
  | _ => none

/-- The items of an argument in front of the divider, or none if it is refused. -/
def readArgument (t : Text) : Option (List Item) :=
  match t with
  | '-' :: '-' :: _ => readNamed t
  | '-' :: c :: cs => if (Switch.ofLetter? c).isSome then readLetters c cs else readUnknown t
  | _ => some [.word t]

/-- The items of a command line, or none if an argument is refused. -/
def readArguments : List Text → Option (List Item)
  | [] => some []
  | t :: ts => do
      if t == dashes then return .divider :: ts.map .word
      else return (← readArgument t) ++ (← readArguments ts)

/-! ### What is asked for -/

/-- What the options ask for, as far as they are read. -/
structure Invocation where
  schema : Option Location := none
  output : Option Location := none
  /-- Export the declarations instead of the schema. -/
  exports : Bool := false
  /-- The format of exported declarations, unless it is left to the settings. -/
  format : Option Text := none
  settings : Option Text := none
  verbose : Bool := false
  help : Bool := false
  deriving DecidableEq

namespace Invocation

def follow (i : Invocation) : Switch → Invocation
  | .help => { i with help := true }
  | .declarations => { i with exports := true }
  | .verbose => { i with verbose := true }
  | .output | .format | .settings => i

/-- Follow an option with its value; of two values of an option the later counts. -/
def assign (i : Invocation) (s : Switch) (value : Text) : Option Invocation :=
  match s with
  | .output => some { i with output := some (.ofText value) }
  | .settings => some { i with settings := some value }
  | .format =>
      if value == "json".toList || value == "yaml".toList then some { i with format := some value }
      else none
  | .help | .declarations | .verbose => none

/-- Take back what an option with a value said. -/
def retract (i : Invocation) : Switch → Invocation
  | .output => { i with output := none }
  | .settings => { i with settings := none }
  | .format => { i with format := none }
  | .help | .declarations | .verbose => i

/-- Follow an option with a value attached to it. -/
def assignAttached (i : Invocation) (s : Switch) (value : Text) : Option Invocation :=
  if value == dashes then some (i.retract s) else i.assign s value

def name (i : Invocation) (t : Text) : Option Invocation :=
  if i.schema.isSome then none else some { i with schema := some (.ofText t) }

/-- Follow the items of a command line.  The divider stands next to the schema. -/
def ofItems (i : Invocation) : List Item → Option Invocation
  | [] => some i
  | [.divider, .word t] => i.name t
  | [.word t, .divider] => i.name t
  | .divider :: _ => none
  | .word t :: rest => do (← i.name t).ofItems rest
  | .switch s (some value) :: rest => do (← i.assignAttached s value).ofItems rest
  | .switch s none :: rest =>
      if s.takesValue then
        match rest with
        | .word t :: rest => do (← i.assign s t).ofItems rest
        | _ => none
      else (i.follow s).ofItems rest

end Invocation

/-- What a command line asks for. -/
inductive Request where
  | refused
  | usage
  | expansion (schema : Location) (invocation : Invocation)

def Request.ofArguments (arguments : List Text) : Request :=
  match (readArguments arguments).bind (Invocation.ofItems {}) with
  | none => .refused
  | some i =>
      if i.help then .usage
      else
        match i.schema with
        | none => .refused
        | some schema => .expansion schema i

end CommandLine

end Schemata
