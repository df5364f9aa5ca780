import Mathlib.Data.List.TakeWhile
import Schemata.Alias.Basic
import Schemata.Proofs.Lexemes

/-!
# Plain alias templates

An alias template can fail in two ways.  A field may ask for a type argument that is not there: then
the schema is refused.  Or the template is none at all: a brace stands alone, a field asks for a
part that a text does not have, fields are numbered both by hand and by themselves, or a number is
too large.  A template that is put together from characters and simple fields fails in the first way
only.
-/

namespace Schemata

open List

variable {name : Text}

namespace Template

/-! ### Pieces -/

/-- A piece of a template. -/
inductive Piece where
  | char (c : Char)
  | field (name : Text)
  deriving DecidableEq

namespace Piece

/-- A piece as it is written: braces are doubled. -/
def text : Piece → Text
  | char c => if c == '{' || c == '}' then [c, c] else [c]
  | field name => '{' :: (name ++ ['}'])

def isAutomatic : Piece → Bool
  | char _ => false
  | field name => name.isEmpty

/-- Whether a field gives the position of its argument. -/
def isManual : Piece → Bool
  | char _ => false
  | field name =>
      match takeNumber name with
      | .ok (some _, []) => true
      | _ => false

end Piece

/-- The characters in the name of a simple field. -/
def isFieldChar (c : Char) : Bool :=
  !(c == '{' || c == '}' || c == ':' || c == '!' || c == '.' || c == '[')

/-- A name that asks for no part of an argument, and starts with no number that is too large. -/
def IsFieldName (name : Text) : Prop :=
  (∀ c ∈ name, isFieldChar c = true) ∧
    ∀ n, Text.toNat? (name.takeWhile fun c => (digitValue? c).isSome) = some n → n ≤ largestNumber

/-- The template is put together from characters and simple fields, which are numbered in one
way. -/
def IsPlain (t : Text) : Prop :=
  ∃ ps : List Piece, t = ps.flatMap Piece.text ∧ (∀ name, .field name ∈ ps → IsFieldName name) ∧
    (ps.any Piece.isAutomatic && ps.any Piece.isManual) = false

/-! ### The fields of a plain template -/

theorem IsFieldName.takeNumber (h : IsFieldName name) : ∃ r, Template.takeNumber name = .ok r := by
  unfold Template.takeNumber
  simp only
  split
  · exact ⟨_, rfl⟩
  · rename_i n hn
    rw [if_pos (h.2 n hn)]
    exact ⟨_, rfl⟩

theorem takeSlotName_field (h : ∀ c ∈ name, isFieldChar c) (rest : Text) :
    takeSlotName false (name ++ '}' :: rest) = .ok (name, '}', rest) := by
  induction name with
  | nil => rfl
  | cons c name ih =>
    obtain ⟨hc, hname⟩ := forall_mem_cons.mp h
    simp only [isFieldChar, Bool.not_eq_true', Bool.or_eq_false_iff] at hc
    rw [cons_append, takeSlotName]
    simp only [Bool.false_eq_true, if_false, hc, Bool.or_self, ih hname]
    rfl

theorem takeSlot_field (h : ∀ c ∈ name, isFieldChar c) (rest : Text) :
    takeSlot (name ++ '}' :: rest) = .ok ({ name }, rest) := by
  unfold takeSlot
  rw [takeSlotName_field h]
  rfl

theorem Filling.fill_field (f : Filling)
    (nested : Numbering → Text → Except Failure (Text × Numbering)) (numbering : Numbering)
    (h : ∀ c ∈ name, isFieldChar c) :
    f.fill nested numbering { name } = f.lookUp numbering name := by
  have hchar : ∀ c ∈ name, (c != '.' && c != '[') := by
    intro c hc
    have hc := h c hc
    simp only [isFieldChar, Bool.not_eq_true', Bool.or_eq_false_iff] at hc
    simp [bne, hc.1.2, hc.2]
  have htake : name.takeWhile (fun c => c != '.' && c != '[') = name :=
    takeWhile_eq_self_iff.mpr hchar
  have hdrop : name.dropWhile (fun c => c != '.' && c != '[') = [] := dropWhile_eq_nil_iff.mpr hchar
  unfold Filling.fill
  simp only [htake, hdrop]
  cases f.lookUp numbering name with
  | error e => rfl
  | ok r =>
    simp only [bind, Except.bind, Filling.follow]
    rfl

/-! ### Filling a plain template -/

/-- The numbering so far goes together with the pieces to come. -/
def Numbering.Fits : Numbering → List Piece → Prop
  | .unset, ps => (ps.any Piece.isAutomatic && ps.any Piece.isManual) = false
  | .automatic _, ps => ps.any Piece.isManual = false
  | .manual, ps => ps.any Piece.isAutomatic = false

theorem Numbering.Fits.tail {numbering : Numbering} {p : Piece} {ps : List Piece}
    (h : numbering.Fits (p :: ps)) : numbering.Fits ps := by
  cases numbering <;> simp only [Fits, any_cons] at h ⊢ <;> grind

theorem Filling.argument_cases (f : Filling) (n : Nat) :
    f.argument n = .error f.unfit ∨ ∃ t, f.argument n = .ok t := by
  unfold Filling.argument
  split
  · exact .inr ⟨_, rfl⟩
  · exact .inl rfl

/-- Where the numbering fits, a simple field asks for an argument that is not there, or leaves a
numbering that fits the pieces after it. -/
theorem Filling.lookUp_field (f : Filling) {numbering : Numbering} {ps : List Piece}
    (hname : IsFieldName name) (hfits : numbering.Fits (.field name :: ps)) :
    f.lookUp numbering name = .error f.unfit ∨
      ∃ t numbering', f.lookUp numbering name = .ok (t, numbering') ∧ numbering'.Fits ps := by
  unfold Filling.lookUp
  by_cases hempty : name.isEmpty
  · rw [if_pos hempty]
    cases numbering with
    | manual => simp [Numbering.Fits, Piece.isAutomatic, hempty] at hfits
    | unset =>
      rcases f.argument_cases 0 with h | ⟨t, h⟩
      · exact .inl (by simp only [h]; rfl)
      · refine .inr ⟨t, .automatic 1, by simp only [h]; rfl, ?_⟩
        simp only [Numbering.Fits, any_cons, Piece.isAutomatic, hempty, Bool.true_or, Bool.true_and,
          Bool.or_eq_false_iff] at hfits
        exact hfits.2
    | automatic n =>
      rcases f.argument_cases n with h | ⟨t, h⟩
      · exact .inl (by simp only [h]; rfl)
      · exact .inr ⟨t, .automatic (n + 1), by simp only [h]; rfl, hfits.tail⟩
  · obtain ⟨r, hr⟩ := hname.takeNumber
    rw [if_neg hempty, hr]
    simp only [bind, Except.bind]
    split
    · rename_i n
      have hmanual : (Piece.field name).isManual := by
        simp only [Piece.isManual, hr]
      have hgiven : ∀ hauto : ps.any Piece.isAutomatic = false,
          (f.argument n >>= fun t => pure (t, Numbering.manual)) = .error f.unfit ∨
            ∃ t numbering', (f.argument n >>= fun t => pure (t, Numbering.manual)) =
              .ok (t, numbering') ∧ numbering'.Fits ps := by
        intro hauto
        rcases f.argument_cases n with h | ⟨t, h⟩
        · exact .inl (by simp only [h]; rfl)
        · exact .inr ⟨t, .manual, by simp only [h]; rfl, hauto⟩
      cases numbering with
      | automatic k => simp [Numbering.Fits, hmanual] at hfits
      | unset =>
        refine hgiven ?_
        simp only [Numbering.Fits, any_cons, hmanual, Bool.true_or, Bool.and_true,
          Bool.or_eq_false_iff] at hfits
        exact hfits.2
      | manual => exact hgiven hfits.tail
    · split
      · exact .inr ⟨_, numbering, rfl, hfits.tail⟩
      · exact .inl rfl

section FillAll

variable (f : Filling) (nested : Numbering → Text → Except Failure (Text × Numbering))
    (numbering : Numbering)

theorem Filling.fillAll_char (c : Char) (rest : Text) :
    f.fillAll nested numbering ((Piece.char c).text ++ rest) =
      (fun r => (c :: r.1, r.2)) <$> f.fillAll nested numbering rest := by
  rw [Piece.text]
  split_ifs with hbrace
  · rw [Bool.or_eq_true, beq_iff_eq, beq_iff_eq] at hbrace
    rcases hbrace with rfl | rfl
    all_goals rw [cons_append, singleton_append, Filling.fillAll]
  · rw [Bool.or_eq_true, beq_iff_eq, beq_iff_eq, not_or] at hbrace
    rw [singleton_append, Filling.fillAll]
    all_goals simp [hbrace]

theorem Filling.fillAll_field (hname : IsFieldName name) (rest : Text) :
    f.fillAll nested numbering ((Piece.field name).text ++ rest) = (do
      let r ← f.lookUp numbering name
      (fun s => (r.1 ++ s.1, s.2)) <$> f.fillAll nested r.2 rest) := by
  have htext : (Piece.field name).text ++ rest = '{' :: (name ++ '}' :: rest) := by
    simp [Piece.text]
  rw [htext, Filling.fillAll]
  · rw [takeSlot_field hname.1]
    simp only [f.fill_field nested numbering hname.1]
  · -- no name starts with a brace, so that the brace before it is not doubled
    intro t ht
    cases name with
    | nil => exact absurd (List.cons.inj ht).1 (by decide)
    | cons c name =>
      obtain rfl : c = '{' := (List.cons.inj ht).1
      exact absurd (hname.1 _ mem_cons_self) (by decide)

end FillAll

theorem Filling.fillAll_eq_error (f : Filling)
    (nested : Numbering → Text → Except Failure (Text × Numbering)) {ps : List Piece}
    (hps : ∀ name, .field name ∈ ps → IsFieldName name) {numbering : Numbering}
    (hfits : numbering.Fits ps) {e : Failure}
    (he : f.fillAll nested numbering (ps.flatMap Piece.text) = .error e) : e = f.unfit := by
  induction ps generalizing numbering with
  | nil =>
    rw [flatMap_nil, Filling.fillAll] at he
    cases he
  | cons p ps ih =>
    have ih := fun {numbering} => @ih (fun name hm => hps name (mem_cons_of_mem _ hm)) numbering
    rw [flatMap_cons] at he
    cases p with
    | char c =>
      rw [Filling.fillAll_char] at he
      exact ih hfits.tail (map_eq_error he)
    | field name =>
      have hname := hps name mem_cons_self
      rw [f.fillAll_field nested numbering hname] at he
      rcases f.lookUp_field hname hfits with h | ⟨t, numbering', h, hfits'⟩
      · rw [h] at he
        cases he
        rfl
      · rw [h] at he
        exact ih hfits' (map_eq_error he)

/-- **A plain template only asks for an argument that is not there.** -/
theorem expand_eq_error {t : Text} (h : IsPlain t) {arguments : List Text} {e : Failure}
    (he : expand t arguments = .error e) : e = .schema (.unfitTemplate t arguments) := by
  obtain ⟨ps, rfl, hps, hmixed⟩ := h
  exact @Filling.fillAll_eq_error ⟨_, arguments⟩ _ ps hps .unset hmixed e (map_eq_error he)

end Template

end Schemata
