import Schemata.Value.Basic

/-!
# Reading values

A document is read from the JSON format: lists between brackets, mappings between braces, quoted
strings with escapes, whole numbers, and the words for truth values and for nothing.  A document
without any of these holds nothing.
-/

namespace Schemata

namespace Text

def hexValue? (c : Char) : Option Nat :=
  if c.isDigit then some (c.toNat - 0x30)
  else if 'a' ≤ c && c ≤ 'f' then some (c.toNat - 0x61 + 10)
  else if 'A' ≤ c && c ≤ 'F' then some (c.toNat - 0x41 + 10)
  else none

/-- The number that four hexadecimal digits denote. -/
def fourHex? (a b c d : Char) : Option Nat := do
  return (((← hexValue? a) * 16 + (← hexValue? b)) * 16 + (← hexValue? c)) * 16 + (← hexValue? d)

/-- The character that an escape of one letter stands for. -/
def escaped? : Char → Option Char
  | 'n' => some '\n'
  | 'r' => some '\r'
  | 't' => some '\t'
  | 'b' => some '\x08'
  | 'f' => some '\x0c'
  | '"' => some '"'
  | '\\' => some '\\'
  | '/' => some '/'
  | _ => none

/-- The code point beyond the first plane that a pair of surrogates stands for. -/
def joinSurrogates (high low : Nat) : Nat :=
  0x10000 + (high - 0xD800) * 0x400 + (low - 0xDC00)

/-- The rest of a string after its opening quote: what it holds, and what follows it. -/
def readString : Text → Option (Text × Text)
  | [] => none
  | '"' :: cs => some ([], cs)
  | '\\' :: 'u' :: a :: b :: c :: d :: '\\' :: 'u' :: e :: f :: g :: h :: cs => do
      let first ← fourHex? a b c d
      let second ← fourHex? e f g h
      if 0xD800 ≤ first && first < 0xDC00 && 0xDC00 ≤ second && second < 0xE000 then
        let (s, rest) ← readString cs
        return (Char.ofNat (joinSurrogates first second) :: s, rest)
      else
        let (s, rest) ← readString ('\\' :: 'u' :: e :: f :: g :: h :: cs)
        return (Char.ofNat first :: s, rest)
  | '\\' :: 'u' :: a :: b :: c :: d :: cs => do
      let (s, rest) ← readString cs
      return (Char.ofNat (← fourHex? a b c d) :: s, rest)
  | '\\' :: c :: cs => do
      let (s, rest) ← readString cs
      return ((← escaped? c) :: s, rest)
  | c :: cs => do
      let (s, rest) ← readString cs
      return (c :: s, rest)
termination_by t => t.length

/-- Whether a character can stand in a word or a number. -/
def isPlain (c : Char) : Bool :=
  !isBlank c && !"[]\x7b\x7d,:\"".toList.contains c

end Text

namespace Value

/-- The value of a word: a truth value, nothing, or a whole number. -/
def ofWord? (t : Text) : Option Value :=
  if t == "null".toList then some null
  else if t == "true".toList then some (bool true)
  else if t == "false".toList then some (bool false)
  else t.toInt?.map int

/-- The mapping with given entries; of two with one key the later counts. -/
def ofEntries (es : List (Text × Value)) : Value :=
  mapping (es.foldl (fun table (key, v) => Table.put key v table) [])

mutual

/-- The value at the start of a text, and what follows it.  The number bounds the calls. -/
def readValue : Nat → Text → Option (Value × Text)
  | 0, _ => none
  | room + 1, t =>
      match Text.trimStart t with
      | '"' :: cs => (Text.readString cs).map fun (s, rest) => (text s, rest)
      | '[' :: cs =>
          match Text.trimStart cs with
          | ']' :: rest => some (list [], rest)
          | cs => (readItems room cs).map fun (vs, rest) => (list vs, rest)
      | '\x7b' :: cs =>
          match Text.trimStart cs with
          | '\x7d' :: rest => some (mapping [], rest)
          | cs => (readEntries room cs).map fun (es, rest) => (ofEntries es, rest)
      | cs => (ofWord? (cs.takeWhile Text.isPlain)).map fun v => (v, cs.dropWhile Text.isPlain)

/-- The items of a list up to its closing bracket. -/
def readItems : Nat → Text → Option (List Value × Text)
  | 0, _ => none
  | room + 1, t => do
      let (v, rest) ← readValue room t
      match Text.trimStart rest with
      | ',' :: rest =>
          let (vs, rest) ← readItems room rest
          return (v :: vs, rest)
      | ']' :: rest => return ([v], rest)
      | _ => none

/-- The entries of a mapping up to its closing brace. -/
def readEntries : Nat → Text → Option (List (Text × Value) × Text)
  | 0, _ => none
  | room + 1, t => do
      match Text.trimStart t with
      | '"' :: cs =>
          let (key, rest) ← Text.readString cs
          match Text.trimStart rest with
          | ':' :: rest =>
              let (v, rest) ← readValue room rest
              match Text.trimStart rest with
              | ',' :: rest =>
                  let (es, rest) ← readEntries room rest
                  return ((key, v) :: es, rest)
              | '\x7d' :: rest => return ([(key, v)], rest)
              | _ => none
          | _ => none
      | _ => none

end

/-- The value that a document holds; every call but one in two passes over a character, so the
length of the document bounds them. -/
def read? (t : Text) : Option Value :=
  if Text.trim t == [] then some null
  else
    match readValue (2 * t.length) t with
    | some (v, rest) => if Text.trim rest == [] then some v else none
    | none => none

end Value

end Schemata
