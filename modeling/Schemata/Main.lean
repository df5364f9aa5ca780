import Schemata.CommandLine.Run

/-!
# The command

Reads the files that a command line names, runs the command and carries out what it leaves to be
done.
-/

namespace Schemata

namespace CommandLine

def usage : String :=
  "usage: schemata [-h] [-o OUTPUT] [--ast] [--ast-format json|yaml] [--config CONFIG] [-v] schema"

def readFile (l : Location) : IO (Option Content) := do
  try
    return some (.bytes (← IO.FS.readBinFile (String.ofList l.text)))
  catch _ => return none

/-- The text of a result; the layout of data is at the same time a document of the format asked
for. -/
def resultText : Output → String
  | .text t => String.ofList t
  | .data v => String.ofList (v.layout ++ ['\n'])

def perform (effect : Effect) : IO UInt32 := do
  if let .write file result := effect then
    IO.FS.createDirAll (String.ofList file.parent.text)
    IO.FS.writeFile (String.ofList file.text) (resultText result)
  IO.print (resultText effect.printed)
  if let some complaint := effect.complaint? then
    IO.eprintln (String.ofList complaint)
  return effect.status.toUInt32

/-- Expand a schema as a command line asks for. -/
def start (schema : Location) (i : Invocation) : IO UInt32 := do
  let schemaFile ← readFile schema
  let settingsAt := i.settings.map Location.ofText
  let settingsFile ← match settingsAt with
    | some l => readFile l
    | none => pure none
  let r := expand schema i fun l =>
    if some l == settingsAt then settingsFile else if l == schema then schemaFile else none
  IO.eprint (String.ofList (logText i r.log))
  match r.outcome with
  | .ok effect => perform effect
  | .error _ =>
      IO.eprintln "the settings or the schema file cannot be used"
      return 1

end CommandLine

end Schemata

def main (arguments : List String) : IO UInt32 := do
  match Schemata.CommandLine.Request.ofArguments (arguments.map String.toList) with
  | .refused =>
      IO.eprintln Schemata.CommandLine.usage
      return 2
  | .usage =>
      IO.println Schemata.CommandLine.usage
      return 0
  | .expansion schema i => Schemata.CommandLine.start schema i
