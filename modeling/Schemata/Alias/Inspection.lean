import Schemata.Alias.Catalogue
import Schemata.Text.Printable

/-!
# Inspecting a subject

The steps that a field may take from one subject to the next, and the texts in which subjects are
shown.

A step by name looks in the category of the subject.  From a category there are two places to look,
since it is a subject itself and has a category, too: the values that belong to it come first, then
what it provides for its members, then what every category can do.

## Main definitions

* `Subject.attribute?` — the step by name.
-/

namespace Schemata

namespace Template

/-- The text of a description, if there is one. -/
def Subject.ofLines : List String → Subject
  | [] => nothing
  | lines => text (Text.joinWith ['\n'] (lines.map String.toList))

/-- The text of a signature, if there is one. -/
def Subject.ofSignature : Option String → Subject
  | none => nothing
  | some s => text s.toList

/-! ### Values -/

/-- A name qualified by the category it belongs to. -/
def qualified (c : Category) (name : String) : Subject :=
  .text (c.label ++ '.' :: name.toList)

/-- The value of a category under the name of a property or field. -/
def Category.value? (c : Category) (name : String) : Option Subject :=
  let p := c.profile
  match name with
  | "__name__" | "__qualname__" => some (.text c.label)
  | "__module__" => some (.text "builtins".toList)
  | "__doc__" =>
      match p.description, c.ownFeature? name.toList with
      | [], some f => some (if f.form.isValue then .rule c f else .nothing)
      | lines, _ => some (.ofLines lines)
  | "__text_signature__" => some (.ofSignature p.signature)
  | "__base__" => some ((c.above.head?.map .category).getD .nothing)
  | "__bases__" => some (.row c.above)
  | "__mro__" => some (.row c.line)
  | "__dict__" => some (.register c)
  | "__basicsize__" => some (.number p.measures.basic)
  | "__itemsize__" => some (.number p.measures.item)
  | "__flags__" => some (.number p.measures.flags)
  | "__weakrefoffset__" => some (.number p.measures.referrers)
  | "__dictoffset__" => some (.number p.measures.extras)
  | _ => none

/-- The value of a feature for itself under the name of a property or field. -/
def Feature.value? (f : Feature) (owner : Category) (name : String) : Option Subject :=
  match name with
  | "__name__" => some (.text f.name.toList)
  | "__qualname__" => some (qualified owner f.name)
  | "__objclass__" => some (.category owner)
  | "__doc__" => some (.ofLines f.description)
  | "__text_signature__" => some (.ofSignature f.signature)
  | _ => none

/-- The value of a feature bound to a subject under the name of a property or field. -/
def Feature.boundValue? (f : Feature) (self : Subject) (owner : Category) (name : String) :
    Option Subject :=
  match name with
  | "__self__" => some (if f.form == .free then .nothing else self)
  | "__module__" => some .nothing
  | "__qualname__" =>
      match f.form, self with
      | .action, _ => some (qualified owner f.name)
      | _, .category c => some (qualified c f.name)
      | _, s => some (qualified s.home f.name)
  | _ => f.value? owner name

/-- The value of a subject under the name of a property or field. -/
def Subject.value? (s : Subject) (name : String) : Option Subject :=
  if name == "__class__" then some (category s.home)
  else
    match s with
    | category c => c.value? name
    | rule owner f => f.value? owner name
    | bound self owner f => f.boundValue? self owner name
    | number n =>
        match name with
        | "real" | "numerator" => some (number n)
        | "imag" => some (number 0)
        | "denominator" => some (number 1)
        | _ => none
    | text _ | nothing | row _ | register _ => none

/-! ### Steps -/

def Subject.bind? (s : Subject) (owner : Category) (f : Feature) : Option Subject :=
  match f.form with
  | .operation | .action => some (bound s owner f)
  | .shared => some (bound (category s.home) owner f)
  | .maker | .free => some (bound (category owner) owner f)
  | .property | .field => s.value? f.name
  | .about => some (ofLines owner.profile.description)
  | .absent => some nothing

/-- A feature as a category provides it for its members. -/
def Category.provided (c owner : Category) (f : Feature) : Subject :=
  match f.form with
  | .operation | .action | .property | .field => .rule owner f
  | .shared => .bound (.category c) owner f
  | .maker | .free => .bound (.category owner) owner f
  | .about => .ofLines owner.profile.description
  | .absent => .nothing

def Subject.attribute? (s : Subject) (name : Text) : Option Subject :=
  match s, s.home.feature? name with
  | category c, found =>
      match found, c.feature? name with
      | some (owner, f), provided =>
          if f.form.isValue then s.value? f.name
          else
            match provided with
            | some (owner, f) => some (c.provided owner f)
            | none => s.bind? owner f
      | none, some (owner, f) => some (c.provided owner f)
      | none, none => none
  | s, some (owner, f) => s.bind? owner f
  | _, none => none

def Category.registered (c : Category) (f : Feature) : Subject :=
  match f.form with
  | .shared => .rule c f
  | _ => c.provided c f

/-- What an index leads to. -/
inductive Item where
  | found (s : Subject)
  | missing
  /-- The subject has no items, or none by such an index. -/
  | refused

/-- The subject that an index leads to; an index is a number, or else a key. -/
def Subject.item (s : Subject) (position : Option Nat) (key : Text) : Item :=
  match s, position with
  | text t, some n => ((t[n]?).map fun c => Item.found (text [c])).getD .missing
  | row items, some n => ((items[n]?).map fun c => Item.found (category c)).getD .missing
  | register _, some _ => .missing
  | register c, none =>
      ((c.ownFeature? key).map fun f => Item.found (c.registered f)).getD .missing
  | _, _ => .refused

/-! ### Showing a subject -/

def Category.shown (c : Category) : Text :=
  "<class '".toList ++ c.label ++ "'>".toList

def shownRow : List Category → Text
  | [c] => '(' :: c.shown ++ [',', ')']
  | items => '(' :: Text.joinWith [',', ' '] (items.map Category.shown) ++ [')']

def Feature.shown (f : Feature) (owner : Category) : Text :=
  let sort := match f.form with
    | .action => "slot wrapper"
    | .property => "attribute"
    | .field => "member"
    | _ => "method"
  '<' :: sort.toList ++ " '".toList ++ f.name.toList ++ "' of '".toList ++ owner.label ++
    "' objects>".toList

/-- A feature bound to a subject of a category as seen.  Where the subject is kept is not told. -/
def Feature.boundShown (f : Feature) (c : Category) : Text :=
  let name := f.name.toList
  (if f.form == .action then "<method-wrapper '".toList ++ name ++ ['\'']
    else "<built-in method ".toList ++ name) ++
    " of ".toList ++ c.label ++ " object at 0x0>".toList

def Subject.shownPlain : Subject → Text
  | text t => t.quoted
  | number n => Nat.toDigits 10 n
  | nothing => "None".toList
  | row items => shownRow items
  | category c => c.shown
  | register _ => []
  | rule owner f => f.shown owner
  | bound self _ f => f.boundShown self.home

def shownRegister (c : Category) : Text :=
  '\x7b' :: Text.joinWith [',', ' ']
    (c.profile.features.map fun f =>
      Text.quoted f.name.toList ++ [':', ' '] ++ (c.registered f).shownPlain) ++ ['\x7d']

/-- A subject as seen: a text stands in quotes. -/
def Subject.shown : Subject → Text
  | register c => "mappingproxy(".toList ++ shownRegister c ++ [')']
  | s => s.shownPlain

/-- A subject as written: a text stands for itself. -/
def Subject.display : Subject → Text
  | text t => t
  | register c => shownRegister c
  | s => s.shownPlain

end Template

end Schemata
