import Schemata.Error
import Schemata.Table
import Schemata.Text.Number

/-!
# Values

Settings, aliases and exported declarations are data of one shape: nothing, truth values, whole
numbers, texts, lists, and mappings whose entries keep their order.
-/

namespace Schemata

/-- A piece of data. -/
inductive Value where
  | null
  | bool (b : Bool)
  | int (n : Int)
  | text (t : Text)
  | list (vs : List Value)
  | mapping (entries : List (Text × Value))
  deriving Inhabited

namespace Value

def ofOption : Option Text → Value
  | none => null
  | some t => text t

def ofTexts : Option (List Text) → Value
  | none => null
  | some ts => list (ts.map text)

/-- Whether a value counts as given: nothing, no, zero and what is empty do not. -/
def isGiven : Value → Bool
  | null => false
  | bool b => b
  | int n => n != 0
  | text t => !t.isEmpty
  | list vs => !vs.isEmpty
  | mapping es => !es.isEmpty

mutual

/-- A value as messages show it: texts between quotes. -/
def shown : Value → Text
  | null => "None".toList
  | bool true => "True".toList
  | bool false => "False".toList
  | int n => Text.ofInt n
  | text t => t.quoted
  | list vs => "[".toList ++ Text.joinWith ", ".toList (shownAll vs) ++ "]".toList
  | mapping es => "\x7b".toList ++ Text.joinWith ", ".toList (shownEntries es) ++ "\x7d".toList

/-- The values of a list as messages show them. -/
def shownAll : List Value → List Text
  | [] => []
  | v :: vs => shown v :: shownAll vs

/-- The entries of a mapping as messages show them. -/
def shownEntries : List (Text × Value) → List Text
  | [] => []
  | (k, v) :: es => (k.quoted ++ ": ".toList ++ shown v) :: shownEntries es

end

/-- A value in running text: a text stands for itself. -/
def display : Value → Text
  | text t => t
  | v => v.shown

def entries : Value → Except Failure (List (Text × Value))
  | mapping es => .ok es
  | _ => .error .notAMapping

def get? (key : Text) (v : Value) : Except Failure (Option Value) :=
  Table.find? key <$> v.entries

/-- The whole number that a value stands for: truth values count as one and zero, and a text as the
number it denotes. -/
def toInt : Value → Except Failure Int
  | int n => .ok n
  | bool b => .ok (if b then 1 else 0)
  | text t =>
      match t.toInt? with
      | some n => .ok n
      | none => .error .notANumber
  | _ => .error .noNumber

mutual

/-- The value of a key after a merge, from its value before, if any, and the value that takes
precedence: two mappings are merged, anything else is replaced. -/
def mergeValue : Option Value → Value → Value
  | some (mapping base), mapping update => mapping (mergeEntries base update)
  | _, update => update

/-- The entries of a mapping after a merge; a key that is there keeps its place. -/
def mergeEntries (base : List (Text × Value)) : List (Text × Value) → List (Text × Value)
  | [] => base
  | (key, value) :: update =>
      mergeEntries (Table.put key (mergeValue (Table.find? key base) value) base) update

end

/-- Two nested mappings made one: entries of `update` take precedence over those of `base`. -/
def merge (base update : Value) : Except Failure Value := do
  return mapping (mergeEntries (← base.entries) (← update.entries))

end Value

end Schemata
