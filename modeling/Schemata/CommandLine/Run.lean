import Schemata.CommandLine.Arguments
import Schemata.Settings

/-!
# Running the command

The command expands one schema file.  Everything it decides is decided here, from the contents of
the files it asks for; reading and writing them is left to the caller.

## Main definitions

* `logText` — what a run tells its user.
-/

namespace Schemata

namespace CommandLine

/-- What a run leaves to be done. -/
inductive Effect where
  | print (result : Output)
  | write (file : Location) (result : Output)
  | fail
  /-- End without a result: there is no such schema. -/
  | missing (schema : Location)

namespace Effect

def printed : Effect → Output
  | print result => result
  | write file _ => .text ("Wrote ".toList ++ file.text ++ ['\n'])
  | fail | missing _ => .text []

/-- The message that ends a run without a schema. -/
def complaint? : Effect → Option Text
  | missing schema => some ("Schema file not found: ".toList ++ schema.text)
  | print _ | write _ _ | fail => none

def status : Effect → Nat
  | print _ | write _ _ => 0
  | fail | missing _ => 1

end Effect

/-- The result that is asked for, from the text of a schema. -/
def produce (i : Invocation) (settings : Value) (e : Expander) (t : Text) : Resolve Output := do
  if i.exports then
    let format ← Resolve.ofOutcome ((i.format.map .ok).getD (Settings.format settings))
    return exportDeclarations format (← e.declarations t)
  else return .text (← e.expand t)

/-- The effect of a result, or of the refusal of a schema; other failures stay failures. -/
def conclude (schema : Location) (i : Invocation) : Except Failure Output → Report Effect
  | .ok result =>
      match i.output with
      | some file =>
          if file.isNameable then return .write file result
          else Report.ofOutcome (.error .unnameable)
      | none => return .print result
  | .error (.schema e) => do
      Report.tell (.schemaRefused e schema.text)
      return .fail
  | .error f => Report.ofOutcome (.error f)

/-- A run of the command: settings are read before the schema, and the schema has to be there. -/
def expand (schema : Location) (i : Invocation) (read : Location → Option Content) :
    Report Effect :=
  match read schema with
  | none => return .missing schema
  | some content => do
      let settings ← Settings.load i.settings read
      let e ← Report.ofOutcome (Settings.expander settings)
      let t ← Report.ofOutcome content.text
      let (result, context) := (produce i settings e t).outcome {}
      context.log.forM Report.tell
      conclude schema i result

def logText (i : Invocation) (log : Log) : Text :=
  (log.filter (Event.isShown i.verbose)).flatMap Event.line

end CommandLine

end Schemata
