import Schemata.Alias.Inspection
import Schemata.Value.Basic

/-!
# Alias templates

A template is a text with fields in braces, which the names of type arguments fill: `{0}`, `{1}`, …
stand for the arguments by position, `{}` for the next one, and `{args}` for all of them put
together.  Two braces stand for one.

A field may pick a character, `{0[2]}`, may go on to a feature of a name, `{0.__class__}`, may ask
for the quoted form, `{0!r}`, and may fill or cut a text to a width, `{0:_>8.4}`; the width may
itself be given by fields.

Fields are handled from left to right, and the first fault decides how the template is refused.
-/

namespace Schemata

namespace Template

/-! ### Fill, alignment, width and precision -/

/-- Where a text stands in a field that is wider. -/
inductive Alignment where
  | left
  | right
  | centre
  deriving DecidableEq

/-- How a text is fitted into a field. -/
structure Spec where
  fill : Char := ' '
  align : Alignment := .left
  width : Nat := 0
  /-- The largest number of characters taken from the text. -/
  precision : Option Nat := none
  deriving DecidableEq

/-- The largest number that may stand in a template. -/
def largestNumber : Nat :=
  9223372036854775807

/-- The number at the start of a text, if there is one, and what follows; a number that is too large
is refused. -/
def takeNumber (t : Text) : Except Failure (Option Nat × Text) :=
  let digits := t.takeWhile fun c => (digitValue? c).isSome
  let rest := t.dropWhile fun c => (digitValue? c).isSome
  match Text.toNat? digits with
  | none => .ok (none, rest)
  | some n => if n ≤ largestNumber then .ok (some n, rest) else .error .malformedTemplate

/-- The alignment that a character stands for; `=` puts padding after a sign, and texts have
none. -/
def alignment? (c : Char) : Option (Option Alignment) :=
  match c with
  | '<' => some (some .left)
  | '>' => some (some .right)
  | '^' => some (some .centre)
  | '=' => some none
  | _ => none

/-- Fill and alignment at the start of a specification, and what follows: the fill, if it is given,
stands before the alignment. -/
def takeAlignment : Text → Option Char × Option (Option Alignment) × Text
  | fill :: c :: rest =>
      match alignment? c with
      | some a => (some fill, some a, rest)
      | none =>
          match alignment? fill with
          | some a => (none, some a, c :: rest)
          | none => (none, none, fill :: c :: rest)
  | [c] =>
      match alignment? c with
      | some a => (none, some a, [])
      | none => (none, none, [c])
  | [] => (none, none, [])

/-- The precision at the start of a text, if there is one, and what follows: a point needs a
number. -/
def takePrecision : Text → Except Failure (Option Nat × Text)
  | '.' :: rest => do
      match ← takeNumber rest with
      | (none, _) => throw .malformedTemplate
      | (some n, rest) => return (some n, rest)
  | rest => return (none, rest)

/-- Read a specification: `[[fill]align][0][width][.precision][s]`. -/
def Spec.read (t : Text) : Except Failure Spec := do
  let (fill, align, rest) := takeAlignment t
  let zero := fill.isNone && rest.startsWith (· == '0')
  let (width, rest) ← takeNumber (if zero then rest.tail else rest)
  let (precision, rest) ← takePrecision rest
  match align, rest with
  | some none, _ => throw .malformedTemplate
  | _, [] | _, ['s'] =>
      return {
        fill := fill.getD (if zero then '0' else ' ')
        align := (align.getD none).getD .left
        width := width.getD 0
        precision }
  | _, _ => throw .malformedTemplate

/-- A text fitted into a field; a text in the centre has the odd character after it. -/
def Spec.apply (s : Spec) (t : Text) : Text :=
  let t := match s.precision with
    | some n => t.take n
    | none => t
  let padding := s.width - t.length
  let before := match s.align with
    | .left => 0
    | .right => padding
    | .centre => padding / 2
  List.replicate before s.fill ++ t ++ List.replicate (padding - before) s.fill

/-- The sign at the start of a number's specification, as it is written in front of a number that is
not below zero, and what follows. -/
def takeSign : Text → Text × Text
  | '+' :: rest => (['+'], rest)
  | ' ' :: rest => ([' '], rest)
  | '-' :: rest => ([], rest)
  | rest => ([], rest)

/-- A number fitted into a field: `[[fill]align][sign][0][width][d]`.  It stands at the right unless
the specification says otherwise; with `=` or a zero before the width the sign stands first. -/
def fitNumber (n : Nat) (spec : Text) : Except Failure Text := do
  let (fill, align, rest) := takeAlignment spec
  let (sign, rest) := takeSign rest
  let zero := fill.isNone && rest.startsWith (· == '0')
  let (width, rest) ← takeNumber (if zero then rest.tail else rest)
  let digits := Nat.toDigits 10 n
  let signFirst := align == some none || (zero && align.isNone)
  let padded : Spec := {
    fill := fill.getD (if zero then '0' else ' ')
    align := (align.getD none).getD .right
    width := if signFirst then width.getD 0 - sign.length else width.getD 0 }
  match rest with
  | [] | ['d'] | ['n'] =>
      return if signFirst then sign ++ padded.apply digits else padded.apply (sign ++ digits)
  | _ => throw .malformedTemplate

/-! ### Fields -/

/-- A field as written. -/
structure Slot where
  name : Text
  conversion : Option Char := none
  spec : Text := []
  deriving DecidableEq

/-- The name of a field, the sign that ends it, and what follows; `inBrackets` says whether an index
is being read, which only its bracket ends. -/
def takeSlotName (inBrackets : Bool) : Text → Except Failure (Text × Char × Text)
  | [] => .error .malformedTemplate
  | c :: cs =>
      if inBrackets then (fun (n, r) => (c :: n, r)) <$> takeSlotName (c != ']') cs
      else if c == '{' then .error .malformedTemplate
      else if c == '}' || c == ':' || c == '!' then .ok ([], c, cs)
      else (fun (n, r) => (c :: n, r)) <$> takeSlotName (c == '[') cs

/-- A specification up to the brace that closes its field, `depth` further braces being open, and
what follows. -/
def takeSpec (depth : Nat) : Text → Except Failure (Text × Text)
  | [] => .error .malformedTemplate
  | c :: cs =>
      if c == '}' && depth == 0 then .ok ([], cs)
      else
        let depth := if c == '{' then depth + 1 else if c == '}' then depth - 1 else depth
        (fun (s, r) => (c :: s, r)) <$> takeSpec depth cs

def takeSlot (t : Text) : Except Failure (Slot × Text) := do
  let (name, sign, rest) ← takeSlotName false t
  if sign == '}' then return ({ name }, rest)
  else if sign == ':' then
    let (spec, rest) ← takeSpec 0 rest
    return ({ name, spec }, rest)
  else
    match rest with
    | c :: '}' :: rest => return ({ name, conversion := some c }, rest)
    | c :: ':' :: rest => do
        let (spec, rest) ← takeSpec 0 rest
        return ({ name, conversion := some c, spec }, rest)
    | _ => throw .malformedTemplate

/-- How the fields of a template are numbered: by hand or by themselves, never both. -/
inductive Numbering where
  | unset
  /-- Fields count by themselves; the next position. -/
  | automatic (next : Nat)
  | manual
  deriving DecidableEq

/-- What fills a template. -/
structure Filling where
  template : Text
  arguments : List Text

/-- The refusal of a template that asks for an argument that is not there. -/
def Filling.unfit (f : Filling) : Failure :=
  .schema (.unfitTemplate f.template f.arguments)

def Filling.argument (f : Filling) (n : Nat) : Except Failure Text :=
  match f.arguments[n]? with
  | some t => .ok t
  | none => .error f.unfit

/-- The text that the first part of a field name stands for, and the numbering after it. -/
def Filling.lookUp (f : Filling) (numbering : Numbering) (first : Text) :
    Except Failure (Text × Numbering) := do
  if first.isEmpty then
    match numbering with
    | .manual => throw .malformedTemplate
    | .unset => return (← f.argument 0, .automatic 1)
    | .automatic n => return (← f.argument n, .automatic (n + 1))
  else
    match ← takeNumber first with
    | (some n, []) =>
        match numbering with
        | .automatic _ => throw .malformedTemplate
        | _ => return (← f.argument n, .manual)
    | _ =>
        if first == "args".toList then return (f.arguments.flatten, numbering)
        else throw f.unfit

/-- The subject that an index in brackets leads to. -/
def Filling.pick (f : Filling) (s : Subject) (index : Text) : Except Failure Subject := do
  if index.isEmpty then throw .malformedTemplate
  let position := match ← takeNumber index with
    | (some n, []) => some n
    | _ => none
  match s.item position index with
  | .found s => return s
  | .missing => throw f.unfit
  | .refused => throw .templateIndex

def goOn (s : Subject) (name : Text) : Except Failure Subject :=
  if name.isEmpty then .error .malformedTemplate
  else
    match s.attribute? name with
    | some s => .ok s
    | none => .error .templatePart

/-- Follow the parts of a field name after the first one: a name after a point leads to a feature,
an index in brackets to an item. -/
def Filling.follow (f : Filling) (s : Subject) : Text → Except Failure Subject
  | [] => .ok s
  | '.' :: rest => do
      let next ← goOn s (rest.takeWhile fun c => c != '.' && c != '[')
      f.follow next (rest.dropWhile fun c => c != '.' && c != '[')
  | '[' :: rest =>
      match _h : rest.dropWhile (· != ']') with
      | [] => .error .malformedTemplate
      | _ :: after => do
          let next ← f.pick s (rest.takeWhile (· != ']'))
          f.follow next after
  | _ => .error .malformedTemplate
termination_by path => path.length
decreasing_by
  · have h1 := (rest.dropWhile_sublist fun c => c != '.' && c != '[').length_le
    simp only [List.length_cons]
    omega
  · have h1 := (rest.dropWhile_sublist (· != ']')).length_le
    rw [_h] at h1
    simp only [List.length_cons] at h1 ⊢
    omega

/-- A text with everything outside ASCII escaped. -/
def asciiEscaped (t : Text) : Text :=
  t.flatMap fun c =>
    if c.toNat < 0x80 then [c]
    else if c.toNat < 0x100 then ['\\', 'x'] ++ Text.hex 2 c.toNat
    else if c.toNat < 0x10000 then ['\\', 'u'] ++ Text.hex 4 c.toNat
    else ['\\', 'U'] ++ Text.hex 8 c.toNat

/-- The form of a subject that a conversion asks for; the null character asks for none. -/
def convert (s : Subject) : Option Char → Except Failure Subject
  | none | some '\x00' => .ok s
  | some 's' => .ok (.text s.display)
  | some 'r' => .ok (.text s.shown)
  | some 'a' => .ok (.text (asciiEscaped s.shown))
  | some _ => .error .malformedTemplate

/-- A subject fitted into a field.  Texts and numbers can be fitted, anything else is only
written. -/
def fit (s : Subject) (spec : Text) : Except Failure Text :=
  if spec.isEmpty then .ok s.display
  else
    match s with
    | .text t => (·.apply t) <$> Spec.read spec
    | .number n => fitNumber n spec
    | _ => .error .templateFit

/-- Fill one field; `nested` fills the fields of its specification. -/
def Filling.fill (f : Filling)
    (nested : Numbering → Text → Except Failure (Text × Numbering))
    (numbering : Numbering) (slot : Slot) : Except Failure (Text × Numbering) := do
  let first := slot.name.takeWhile fun c => c != '.' && c != '['
  let path := slot.name.dropWhile fun c => c != '.' && c != '['
  let (t, numbering) ← f.lookUp numbering first
  let s ← convert (← f.follow (.text t) path) slot.conversion
  let (spec, numbering) ←
    if slot.spec.contains '{' then nested numbering slot.spec else pure (slot.spec, numbering)
  return (← fit s spec, numbering)

theorem takeSlotName_length {inBrackets : Bool} {t name rest : Text} {sign : Char}
    (h : takeSlotName inBrackets t = .ok (name, sign, rest)) : rest.length < t.length := by
  induction t generalizing inBrackets name with
  | nil => simp [takeSlotName] at h
  | cons c cs ih =>
      unfold takeSlotName at h
      have step : ∀ b, (fun (n, r) => (c :: n, r)) <$> takeSlotName b cs = .ok (name, sign, rest) →
          rest.length < cs.length := by
        intro b hb
        obtain ⟨⟨n, s, r⟩, hs, ⟨⟩⟩ := map_eq_ok hb
        exact ih hs
      simp only [List.length_cons]
      split at h
      · have := step _ h
        omega
      · split at h
        · simp at h
        · split at h
          · simp only [Except.ok.injEq, Prod.mk.injEq] at h
            rw [← h.2.2]
            omega
          · have := step _ h
            omega

theorem takeSpec_length {depth : Nat} {t spec rest : Text}
    (h : takeSpec depth t = .ok (spec, rest)) : rest.length < t.length := by
  induction t generalizing depth spec with
  | nil => simp [takeSpec] at h
  | cons c cs ih =>
      unfold takeSpec at h
      simp only [List.length_cons]
      split at h
      · simp only [Except.ok.injEq, Prod.mk.injEq] at h
        rw [← h.2]
        omega
      · obtain ⟨⟨s, r⟩, hs, ⟨⟩⟩ := map_eq_ok h
        have := ih hs
        omega

/-- What follows a field is shorter than the text from the field on. -/
theorem takeSlot_length {t rest : Text} {slot : Slot} (h : takeSlot t = .ok (slot, rest)) :
    rest.length < t.length := by
  unfold takeSlot at h
  obtain ⟨⟨name, sign, after⟩, hn, h⟩ := bind_eq_ok.mp h
  have hlt := takeSlotName_length hn
  dsimp only at h
  split at h
  · cases h
    exact hlt
  · split at h
    · obtain ⟨⟨spec, last⟩, hs, ⟨⟩⟩ := bind_eq_ok.mp h
      exact Nat.lt_trans (takeSpec_length hs) hlt
    · split at h
      · cases h
        simp only [List.length_cons] at hlt
        omega
      · obtain ⟨⟨spec, final⟩, hs, ⟨⟩⟩ := bind_eq_ok.mp h
        have := takeSpec_length hs
        simp only [List.length_cons] at hlt ⊢
        omega
      · cases h

/-- Fill the fields of a text; `nested` fills those of specifications. -/
def Filling.fillAll (f : Filling)
    (nested : Numbering → Text → Except Failure (Text × Numbering))
    (numbering : Numbering) : Text → Except Failure (Text × Numbering)
  | [] => .ok ([], numbering)
  | '{' :: '{' :: rest => (fun (t, n) => ('{' :: t, n)) <$> fillAll f nested numbering rest
  | '}' :: '}' :: rest => (fun (t, n) => ('}' :: t, n)) <$> fillAll f nested numbering rest
  | '}' :: _ => .error .malformedTemplate
  | '{' :: rest =>
      match _h : takeSlot rest with
      | .error e => .error e
      | .ok (slot, after) => do
          let (t, numbering) ← f.fill nested numbering slot
          (fun (u, n) => (t ++ u, n)) <$> fillAll f nested numbering after
  | c :: rest => (fun (t, n) => (c :: t, n)) <$> fillAll f nested numbering rest
termination_by t => t.length
decreasing_by
  · simp only [List.length_cons]; omega
  · simp only [List.length_cons]; omega
  · have := takeSlot_length _h
    simp only [List.length_cons]
    omega
  · simp

/-- Fill the fields of a text, specifications nested at most `depth` times. -/
def Filling.expand (f : Filling) : Nat → Numbering → Text → Except Failure (Text × Numbering)
  | 0, _, _ => .error .malformedTemplate
  | depth + 1, numbering, t => f.fillAll (f.expand depth) numbering t

/-- A template with its fields filled by the names of type arguments.  Fields may stand in the
specification of a field, but not in the specification of such a field. -/
def expand (template : Text) (arguments : List Text) : Except Failure Text :=
  Prod.fst <$> Filling.expand ⟨template, arguments⟩ 2 .unset template

end Template

end Schemata
