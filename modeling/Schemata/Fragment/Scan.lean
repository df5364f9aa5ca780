import Schemata.Fragment.Progress

/-!
# All fragments of a schema

## Main definitions

* `scan` — the fragments of a schema.
-/

namespace Schemata

/-- What the reading of a schema gives. -/
structure Scan where
  fragments : List Fragment := []
  skipped : List Text := []
  /-- Why the reading stopped before the end of the schema. -/
  failure : Option SchemaError := none
  deriving DecidableEq

/-- Put a statement, with the description above it, in front of what follows it. -/
def Scan.add (description : Option Text) (statement : Statement) (s : Scan) : Scan :=
  match statement with
  | .declared fragment => { s with fragments := { fragment with description } :: s.fragments }
  | .skipped line => { s with skipped := line :: s.skipped }

/-- Read a schema to its end; `description` is the last description passed since a statement. -/
def scanFrom (description : Option Text) : Text → Scan
  | [] => {}
  | c :: cs =>
      if isBlank c || c == ',' then scanFrom description cs
      else if c == '#' then scanFrom description (cs.dropWhile (· != '\n'))
      else if c == '"' then
        match _h : Text.takeLiteral (c :: cs) with
        | some (literal, rest) => scanFrom (some literal) rest
        | none => { failure := some (unclosedLiteral (c :: cs)) }
      else
        match _h : Statement.read (c :: cs) with
        | .ok (statement, rest) => (scanFrom none rest).add description statement
        | .error e => { failure := some e }
termination_by t => t.length
decreasing_by
  · simp
  · have := (cs.dropWhile_sublist (· != '\n')).length_le
    simp only [List.length_cons]
    omega
  · exact Text.takeLiteral_length _h
  · exact (Statement.read_suffix _h).2

def scan (t : Text) : Scan :=
  scanFrom none t

/-- The fragments of a schema, with the events of their reading. -/
def readFragments (t : Text) : Report (List Fragment) :=
  let s := scan t
  let log := s.skipped.map Event.statementSkipped
  match s.failure with
  | none => ⟨log ++ [.fragmentsRead s.fragments.length], .ok s.fragments⟩
  | some e => ⟨log, .error (.schema e)⟩

end Schemata
