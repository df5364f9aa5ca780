import Schemata.Value.Layout
import Schemata.Value.Read

/-!
# Contents of files

A file holds bytes in UTF-8.  Lines may end in any of the three usual ways; a text has one line
break for each.  A file of settings may also come as the document that was read from it.

## Main definitions

* `Content.text`, `Content.asDocument` — a file as a text, and as a document.
-/

namespace Schemata

/-- What a file holds. -/
inductive Content where
  | bytes (stored : ByteArray)
  | document (value : Value)

/-- The text in which every way to end a line has become one line break. -/
def Text.unifyLineBreaks : Text → Text
  | [] => []
  | '\r' :: '\n' :: cs => '\n' :: unifyLineBreaks cs
  | '\r' :: cs => '\n' :: unifyLineBreaks cs
  | c :: cs => c :: unifyLineBreaks cs

namespace Content

def text : Content → Except Failure Text
  | bytes stored =>
      match String.fromUTF8? stored with
      | some s => .ok (Text.unifyLineBreaks s.toList)
      | none => .error .undecodable
  | document value => .ok value.layout

/-- A file as a document; a file with nothing in it holds the null value. -/
def asDocument : Content → Except Failure Value
  | document value => .ok value
  | c => do
      let t ← c.text
      if t.all isBlank then return .null
      match Value.read? t with
      | some v => return v
      | none => throw .unreadable

end Content

end Schemata
