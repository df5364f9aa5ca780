import Schemata.Fragment.Basic
import Schemata.Lexeme.Lines
import Schemata.Proofs.Canonical
import Schemata.Proofs.Spelling

/-!
# Brackets that are nested properly

The scanners count brackets, each in its own way: some take all kinds for one, some count only one
kind, some let the count fall below zero.  On a text whose brackets are nested properly all of them
agree, since whatever is opened there is closed there.  So each scanner passes over such a text, and
goes on after it as if it had begun there.

## Main results

* `Nested.cutAt`, `Nested.splitAt`, `Nested.takeBalanced`, `Nested.takeBody` — the scanners pass
  over nested lexemes.
* `Spaced.collapse` — collapsing white space changes nothing.
-/

namespace Schemata

open List

variable {pending : List Char} {c : Char} {ls : List Lexeme} {top : Char → Bool}

/-! ### Brackets -/

def closerOf (c : Char) : Char :=
  if c == '(' then ')' else if c == '[' then ']' else if c == '{' then '}' else '>'

theorem isOpener_iff : isOpener c ↔ c = '(' ∨ c = '[' ∨ c = '{' ∨ c = '<' := by
  simp [isOpener, or_assoc]

theorem isCloser_iff : isCloser c ↔ c = ')' ∨ c = ']' ∨ c = '}' ∨ c = '>' := by
  simp [isCloser, or_assoc]

theorem isOpener_of_isCloser (h : isCloser c) : isOpener c = false := by
  rcases isCloser_iff.mp h with rfl | rfl | rfl | rfl <;> rfl

theorem isCloser_closerOf (h : isOpener c) : isCloser (closerOf c) := by
  rcases isOpener_iff.mp h with rfl | rfl | rfl | rfl <;> rfl

theorem closerOf_inj {d : Char} (hc : isOpener c) (hd : isOpener d) (h : closerOf c = closerOf d) :
    c = d := by
  rcases isOpener_iff.mp hc with rfl | rfl | rfl | rfl <;>
    rcases isOpener_iff.mp hd with rfl | rfl | rfl | rfl <;>
    first | rfl | exact absurd h (by decide)

theorem depthAfter_of_isOpener (h : isOpener c) (depth : Nat) : depthAfter depth c = depth + 1 := by
  rw [depthAfter, if_pos h]

theorem depthAfter_of_isCloser (h : isCloser c) (depth : Nat) : depthAfter depth c = depth - 1 := by
  rw [depthAfter, isOpener_of_isCloser h, if_neg Bool.false_ne_true, if_pos h]

theorem depthAfter_of_neither (ho : isOpener c = false) (hc : isCloser c = false) (depth : Nat) :
    depthAfter depth c = depth := by
  simp [depthAfter, ho, hc]

/-- In the lexemes every bracket is closed by its counterpart, `pending` being those that are still
to come at the start, innermost first.  Outside of all brackets there are only literals and
characters that satisfy `top`. -/
inductive Nested (top : Char → Bool) : List Char → List Lexeme → Prop
  | nil : Nested top [] []
  | literal {pending : List Char} {ls : List Lexeme} (t : Text) (rest : Nested top pending ls) :
      Nested top pending (.literal t :: ls)
  | opening {c : Char} {pending : List Char} {ls : List Lexeme} (bracket : isOpener c = true)
      (outside : pending = [] → top c = true) (rest : Nested top (closerOf c :: pending) ls) :
      Nested top pending (.char c :: ls)
  | closing {c : Char} {pending : List Char} {ls : List Lexeme} (bracket : isCloser c = true)
      (rest : Nested top pending ls) : Nested top (c :: pending) (.char c :: ls)
  | char {c : Char} {pending : List Char} {ls : List Lexeme} (opener : isOpener c = false)
      (closer : isCloser c = false) (hash : c ≠ '#') (outside : pending = [] → top c = true)
      (rest : Nested top pending ls) : Nested top pending (.char c :: ls)

namespace Nested

variable {top : Char → Bool} {pending : List Char} {ls ms : List Lexeme}

theorem isQuiet (h : Nested top pending ls) : ls.all Lexeme.isQuiet := by
  induction h with
  | nil => rfl
  | literal t _ ih => simpa [Lexeme.isQuiet] using ih
  | opening bracket _ _ ih =>
    rcases isOpener_iff.mp bracket with rfl | rfl | rfl | rfl <;> simpa [Lexeme.isQuiet] using ih
  | closing bracket _ ih =>
    rcases isCloser_iff.mp bracket with rfl | rfl | rfl | rfl <;> simpa [Lexeme.isQuiet] using ih
  | char _ _ hash _ _ ih => simpa [Lexeme.isQuiet, hash] using ih

/-- What stands outside of brackets is no `#`, whatever else it is. -/
theorem mono_of_ne {top' : Char → Bool} (h : Nested top pending ls)
    (htop : ∀ c, c ≠ '#' → top c → top' c) : Nested top' pending ls := by
  induction h with
  | nil => exact .nil
  | literal t _ ih => exact .literal t ih
  | opening bracket outside _ ih =>
    refine .opening bracket (fun h => htop _ ?_ (outside h)) ih
    rcases isOpener_iff.mp bracket with rfl | rfl | rfl | rfl <;> decide
  | closing bracket _ ih => exact .closing bracket ih
  | char opener closer hash outside _ ih =>
    exact .char opener closer hash (fun h => htop _ hash (outside h)) ih

theorem mono {top' : Char → Bool} (h : Nested top pending ls) (htop : ∀ c, top c → top' c) :
    Nested top' pending ls :=
  h.mono_of_ne fun c _ => htop c

theorem append (h : Nested top pending ls) (hms : Nested top [] ms) :
    Nested top pending (ls ++ ms) := by
  induction h with
  | nil => exact hms
  | literal t _ ih => exact .literal t ih
  | opening bracket outside _ ih => exact .opening bracket outside ih
  | closing bracket _ ih => exact .closing bracket ih
  | char opener closer hash outside _ ih => exact .char opener closer hash outside ih

/-- Nested lexemes inside of brackets, where no condition on characters applies. -/
theorem inside {inner : Char → Bool} {outer : List Char} (h : Nested inner pending ls)
    (houter : outer ≠ []) (hms : Nested top outer ms) :
    Nested top (pending ++ outer) (ls ++ ms) := by
  induction h with
  | nil => exact hms
  | literal t _ ih => exact .literal t ih
  | opening bracket _ _ ih => exact .opening bracket (fun h => by simp [houter] at h) ih
  | closing bracket _ ih => exact .closing bracket ih
  | char opener closer hash _ _ ih =>
    exact .char opener closer hash (fun h => by simp [houter] at h) ih

theorem bracketed {inner : Char → Bool} (h : Nested inner [] ls) (hc : isOpener c) (htop : top c)
    (hms : Nested top [] ms) : Nested top [] (.char c :: (ls ++ .char (closerOf c) :: ms)) :=
  .opening hc (fun _ => htop)
    (h.inside (cons_ne_nil _ _) (.closing (isCloser_closerOf hc) hms))

theorem ofChars {s : Text} (h : ∀ c ∈ s, isOpener c = false ∧ isCloser c = false ∧ c ≠ '#' ∧
    top c) : Nested top [] (s.map .char) := by
  induction s with
  | nil => exact .nil
  | cons c s ih =>
    obtain ⟨hc, hs⟩ := forall_mem_cons.mp h
    exact .char hc.1 hc.2.1 hc.2.2.1 (fun _ => hc.2.2.2) (ih hs)

end Nested

def isNested (top : Char → Bool) (pending : List Char) : List Lexeme → Bool
  | [] => pending.isEmpty
  | .literal _ :: ls => isNested top pending ls
  | .char c :: ls =>
      if isOpener c then (!pending.isEmpty || top c) && isNested top (closerOf c :: pending) ls
      else if isCloser c then pending.head? == some c && isNested top pending.tail ls
      else c != '#' && (!pending.isEmpty || top c) && isNested top pending ls
  | _ => false

theorem isNested_iff : isNested top pending ls ↔ Nested top pending ls := by
  have houtside : ∀ {c : Char} {pending : List Char}, (!pending.isEmpty || top c) ↔
      (pending = [] → top c) := by
    intro c pending
    cases pending <;> simp
  constructor
  · intro h
    fun_induction isNested top pending ls with
    | case1 pending =>
      rw [List.isEmpty_iff.mp h]
      exact .nil
    | case2 pending t ls ih => exact .literal t (ih h)
    | case3 pending c ls hc ih =>
      rw [Bool.and_eq_true] at h
      exact .opening hc (houtside.mp h.1) (ih h.2)
    | case4 pending c ls ho hc ih =>
      rw [Bool.and_eq_true, beq_iff_eq, head?_eq_some_iff] at h
      obtain ⟨⟨outer, rfl⟩, h⟩ := h
      exact .closing hc (ih h)
    | case5 pending c ls ho hc ih =>
      simp only [Bool.and_eq_true, bne_iff_ne] at h
      exact .char (by simpa using ho) (by simpa using hc) h.1.1 (houtside.mp h.1.2) (ih h.2)
    | case6 => cases h
  · intro h
    induction h with
    | nil => rfl
    | literal t _ ih => exact ih
    | opening bracket outside _ ih => rw [isNested, if_pos bracket, ih, houtside.mpr outside]; rfl
    | closing bracket _ ih =>
      rw [isNested, isOpener_of_isCloser bracket, if_neg Bool.false_ne_true, if_pos bracket]
      simpa using ih
    | char opener closer hash outside _ ih =>
      rw [isNested, opener, closer, if_neg Bool.false_ne_true, if_neg Bool.false_ne_true, ih,
        houtside.mpr outside]
      simpa using hash

instance (top : Char → Bool) (pending : List Char) (ls : List Lexeme) :
    Decidable (Nested top pending ls) :=
  decidable_of_iff _ isNested_iff

/-! ### Passing over nested lexemes -/

theorem prepend_nil (x : Except SchemaError (Option (Text × Text))) : prepend [] <$> x = x := by
  cases x with
  | error e => rfl
  | ok o => cases o <;> rfl

theorem prepend_prepend (s t : Text) (x : Except SchemaError (Option (Text × Text))) :
    prepend s <$> prepend t <$> x = prepend (s ++ t) <$> x := by
  cases x with
  | error e => rfl
  | ok o => cases o <;> simp [Functor.map, Except.map, prepend]

theorem prependHead_prependHead (s t : Text) (x : Except SchemaError (List Text)) :
    prependHead s <$> prependHead t <$> x = prependHead (s ++ t) <$> x := by
  cases x with
  | error e => rfl
  | ok ps => cases ps <;> simp [Functor.map, Except.map, prependHead]

/-- Whether literals are closed, every bracket is closed by its counterpart, `pending` being those
to come, innermost first, and outside of all brackets there are only literals and characters that
satisfy `top`. -/
def isPiece (top : Char → Bool) : List Char → List Lexeme → Bool
  | pending, [] => pending.isEmpty
  | pending, .char c :: ls =>
      if isCloser c then pending.head? == some c && isPiece top pending.tail ls
      else (!pending.isEmpty || top c) &&
        isPiece top (if isOpener c then closerOf c :: pending else pending) ls
  | pending, .literal _ :: ls => isPiece top pending ls
  | _, _ => false

/-- A scanner that stops at some characters outside of brackets passes over lexemes without them. -/
theorem passes_of_isPiece {α : Type} {f : Nat → List Lexeme → α} {g : Text → α → α}
    {stop : Char → Bool} (htop : ∀ c, top c → stop c = false) (hnil : ∀ ms, g [] (f 0 ms) = f 0 ms)
    (happend : ∀ s t x, g s (g t x) = g (s ++ t) x)
    (hchar : ∀ depth c ls, (depth == 0 && stop c) = false →
      f depth (.char c :: ls) = g [c] (f (depthAfter depth c) ls))
    (hliteral : ∀ depth t ls, f depth (.literal t :: ls) = g t (f depth ls))
    (h : isPiece top pending ls) (ms : List Lexeme) :
    f pending.length (ls ++ ms) = g (raw ls) (f 0 ms) := by
  fun_induction isPiece top pending ls with
  | case1 pending =>
    rw [List.isEmpty_iff.mp h, raw_nil, hnil]
    rfl
  | case2 pending c ls hclose ih =>
    rw [Bool.and_eq_true, beq_iff_eq] at h
    obtain ⟨rest, rfl⟩ := head?_eq_some_iff.mp h.1
    have hrest := ih h.2
    rw [tail_cons] at hrest
    rw [cons_append, hchar _ _ _ (by simp), depthAfter_of_isCloser hclose, length_cons,
      Nat.add_sub_cancel, hrest, happend, raw_cons, Lexeme.text]
  | case3 pending c ls hclose ih =>
    rw [Bool.and_eq_true] at h
    have hstop : (pending.length == 0 && stop c) = false := by
      cases pending with
      | nil => simp [htop c (by simpa using h.1)]
      | cons => rfl
    have hdepth : depthAfter pending.length c =
        (if isOpener c then closerOf c :: pending else pending).length := by
      split_ifs with hopen
      · rw [depthAfter_of_isOpener hopen, length_cons]
      · rw [depthAfter_of_neither (by simpa using hopen) (by simpa using hclose)]
    rw [cons_append, hchar _ _ _ hstop, hdepth, ih h.2, happend, raw_cons, Lexeme.text]
  | case4 pending t ls ih => rw [cons_append, hliteral, ih h, happend, raw_cons, Lexeme.text]
  | case5 => cases h

theorem splitAt_of_isPiece {separator : Char → Bool} (htop : ∀ c, top c → separator c = false)
    (h : isPiece top pending ls) (ms : List Lexeme) :
    Lexeme.splitAt separator pending.length (ls ++ ms) =
      prependHead (raw ls) <$> Lexeme.splitAt separator 0 ms := by
  refine passes_of_isPiece (g := fun t x => prependHead t <$> x) htop ?_ prependHead_prependHead ?_
    (fun _ _ _ => rfl) h ms
  · intro ms
    cases hs : Lexeme.splitAt separator 0 ms with
    | error e => rfl
    | ok ps =>
      obtain ⟨p, ps, rfl⟩ := exists_cons_of_ne_nil (Lexeme.splitAt_ne_nil hs)
      rfl
  · intro depth c ls hstop
    rw [Lexeme.splitAt, hstop, if_neg Bool.false_ne_true]

namespace Nested

variable {top : Char → Bool} {pending : List Char} {ls : List Lexeme}

theorem isPiece (h : Nested top pending ls) : isPiece top pending ls := by
  have houtside : ∀ {c} {pending : List Char}, (pending = [] → top c) →
      (!pending.isEmpty || top c) := by
    intro c pending h
    cases pending with
    | nil => exact h rfl
    | cons => rfl
  induction h with
  | nil => rfl
  | literal t _ ih => exact ih
  | @opening c _ _ bracket outside _ ih =>
    have hclose : ¬ isCloser c := fun hc => by simp [isOpener_of_isCloser hc] at bracket
    rw [Schemata.isPiece, if_neg hclose, houtside outside, if_pos bracket, ih, Bool.and_self]
  | closing bracket _ ih => simp [Schemata.isPiece, bracket, ih]
  | char opener closer _ outside _ ih =>
    rw [Schemata.isPiece, if_neg (by simp [closer]), houtside outside, if_neg (by simp [opener]),
      ih, Bool.and_self]

/-- Cutting passes over nested lexemes if what it looks for is not outside of their brackets. -/
theorem cutAt {target : Char → Bool} (htop : ∀ c, top c → target c = false)
    (h : Nested top pending ls) (ms : List Lexeme) :
    Lexeme.cutAt target pending.length (ls ++ ms) =
      prepend (raw ls) <$> Lexeme.cutAt target 0 ms := by
  refine passes_of_isPiece (g := fun t x => prepend t <$> x) htop (fun _ => prepend_nil _)
    prepend_prepend ?_ (fun _ _ _ => rfl) h.isPiece ms
  intro depth c ls hstop
  rw [Lexeme.cutAt, hstop, if_neg Bool.false_ne_true]

theorem splitAt {separator : Char → Bool} (htop : ∀ c, top c → separator c = false)
    (h : Nested top pending ls) (ms : List Lexeme) :
    Lexeme.splitAt separator pending.length (ls ++ ms) =
      prependHead (raw ls) <$> Lexeme.splitAt separator 0 ms :=
  splitAt_of_isPiece htop h.isPiece ms

/-- The count of one kind of bracket is the same after nested lexemes as before, and does not come
down to the count before in between. -/
theorem takeBalanced {opener : Char} (ho : isOpener opener) {depth : Int} (hd : 1 ≤ depth)
    (h : Nested top pending ls) (ms : List Lexeme) :
    Lexeme.takeBalanced opener (closerOf opener) (depth + pending.count (closerOf opener))
      (ls ++ ms) = prepend (raw ls) <$> Lexeme.takeBalanced opener (closerOf opener) depth ms := by
  have hne : closerOf opener ≠ opener := by
    rcases isOpener_iff.mp ho with rfl | rfl | rfl | rfl <;> decide
  induction h with
  | nil => rw [raw_nil, prepend_nil, count_nil]; simp
  | literal t _ ih =>
    rw [cons_append, Lexeme.takeBalanced, ih, prepend_prepend, raw_cons, Lexeme.text]
  | @opening c pending ls bracket _ _ ih =>
    rw [cons_append, Lexeme.takeBalanced, raw_cons, Lexeme.text, ← prepend_prepend, ← ih]
    by_cases hc : c = opener
    · subst hc
      simp [Int.add_assoc]
    · have hcl : c ≠ closerOf opener := by
        rintro rfl
        rw [isOpener_of_isCloser (isCloser_closerOf ho)] at bracket
        cases bracket
      have hcc : closerOf c ≠ closerOf opener := fun h => hc (closerOf_inj bracket ho h)
      simp [hc, hcl, hcc]
  | @closing c pending ls bracket _ ih =>
    have hc : c ≠ opener := by
      rintro rfl
      rw [isOpener_of_isCloser bracket] at ho
      cases ho
    rw [cons_append, Lexeme.takeBalanced, raw_cons, Lexeme.text, ← prepend_prepend, ← ih]
    by_cases hcl : c = closerOf opener
    · subst hcl
      have hcount : depth + ((closerOf opener :: pending).count (closerOf opener) : Nat) ≠ 1 := by
        rw [count_cons_self]
        omega
      simp only [beq_iff_eq, hc, if_false, if_true, hcount]
      rw [count_cons_self]
      congr 2
      omega
    · simp [hc, hcl]
  | @char c pending ls opener' closer' _ _ _ ih =>
    have hc : c ≠ opener := by
      rintro rfl
      rw [ho] at opener'
      cases opener'
    have hcl : c ≠ closerOf opener := by
      rintro rfl
      rw [isCloser_closerOf ho] at closer'
      cases closer'
    rw [cons_append, Lexeme.takeBalanced, raw_cons, Lexeme.text, ← prepend_prepend, ← ih]
    simp [hc, hcl]

end Nested

theorem takeBalanced_bracketed {opener : Char} (ho : isOpener opener) {inner : Text}
    (h : Nested top [] (lex false inner)) (rest : Text) :
    takeBalanced opener (closerOf opener) (opener :: (inner ++ closerOf opener :: rest)) =
      .ok (some (opener :: (inner ++ [closerOf opener]), rest)) := by
  have hne : closerOf opener ≠ opener := by
    rcases isOpener_iff.mp ho with rfl | rfl | rfl | rfl <;> decide
  have hq : opener ≠ '"' ∧ closerOf opener ≠ '"' := by
    rcases isOpener_iff.mp ho with rfl | rfl | rfl | rfl <;> decide
  have hin := h.takeBalanced ho (Int.le_refl 1) (.char (closerOf opener) :: lex false rest)
  rw [count_nil, raw_lex] at hin
  unfold Schemata.takeBalanced
  rw [lex_cons_of_ne_quote hq.1, lex_append h.isQuiet (by simp [Text.startsWith, hq.2]),
    lex_cons_of_ne_quote hq.2, Lexeme.takeBalanced, if_pos (by simp)]
  change prepend [opener] <$> Lexeme.takeBalanced opener (closerOf opener) (1 + (0 : Nat)) _ = _
  rw [hin, Lexeme.takeBalanced]
  simp [hne, Functor.map, Except.map, prepend]

def keepBody (ls : List Lexeme) : Except SchemaError (Option (List Lexeme × List Lexeme)) →
    Except SchemaError (Option (List Lexeme × List Lexeme)) :=
  Functor.map (Option.map fun p => (ls ++ p.1, p.2))

/-- The lexemes are part of any body that they stand in. -/
def PassesBody (ls : List Lexeme) : Prop :=
  ∀ depth ms, takeBody depth (ls ++ ms) = keepBody ls (takeBody depth ms)

theorem keepBody_nil (x : Except SchemaError (Option (List Lexeme × List Lexeme))) :
    keepBody [] x = x := by
  cases x with
  | error e => rfl
  | ok o => cases o <;> rfl

theorem keepBody_keepBody (ls ms : List Lexeme)
    (x : Except SchemaError (Option (List Lexeme × List Lexeme))) :
    keepBody ls (keepBody ms x) = keepBody (ls ++ ms) x := by
  cases x with
  | error e => rfl
  | ok o => cases o <;> simp [keepBody, Functor.map, Except.map]

theorem PassesBody.nil : PassesBody [] := by
  intro depth ms
  rw [keepBody_nil]
  rfl

theorem PassesBody.append {ms : List Lexeme} (h : PassesBody ls) (h' : PassesBody ms) :
    PassesBody (ls ++ ms) := by
  intro depth ns
  rw [append_assoc, h, h', keepBody_keepBody]

theorem takeBody_char {depth : Nat} (h : c = '}' → depth ≠ 0) (ls : List Lexeme) :
    takeBody depth (.char c :: ls) = keepBody [.char c] (takeBody (bracesAfter depth c) ls) := by
  rw [takeBody, if_neg (by simpa using h)]
  rfl

theorem takeBody_literal (t : Text) (depth : Nat) (ls : List Lexeme) :
    takeBody depth (.literal t :: ls) = keepBody [.literal t] (takeBody depth ls) := by
  rw [takeBody]
  · rfl
  · exact fun _ h => nomatch h
  · exact fun _ h => nomatch h

theorem PassesBody.literal (t : Text) : PassesBody [.literal t] :=
  fun depth ms => takeBody_literal t depth ms

theorem PassesBody.comment (t : Text) : PassesBody [.comment t] := by
  intro depth ms
  rw [singleton_append, takeBody]
  · rfl
  · exact fun _ h => nomatch h
  · exact fun _ h => nomatch h

theorem PassesBody.chars {s : Text} (h : ∀ c ∈ s, c ≠ '{' ∧ c ≠ '}') :
    PassesBody (s.map .char) := by
  induction s with
  | nil => exact .nil
  | cons c s ih =>
    obtain ⟨hc, hs⟩ := forall_mem_cons.mp h
    change PassesBody ([.char c] ++ s.map .char)
    refine PassesBody.append ?_ (ih hs)
    intro depth ms
    rw [singleton_append, takeBody_char (fun h => absurd h hc.2)]
    simp [bracesAfter, hc.1, hc.2]

theorem Nested.takeBody (h : Nested top pending ls) (depth : Nat) (ms : List Lexeme) :
    Schemata.takeBody (depth + pending.count '}') (ls ++ ms) =
      keepBody ls (Schemata.takeBody depth ms) := by
  induction h with
  | nil => rw [keepBody_nil, count_nil]; rfl
  | @literal pending ls t _ ih =>
    rw [cons_append, takeBody_literal, ih, keepBody_keepBody, singleton_append]
  | @opening c pending ls bracket _ _ ih =>
    have hdepth : bracesAfter (depth + pending.count '}') c =
        depth + (closerOf c :: pending).count '}' := by
      rcases isOpener_iff.mp bracket with rfl | rfl | rfl | rfl <;>
        simp [bracesAfter, closerOf, Nat.add_assoc]
    have hc : c = '}' → depth + pending.count '}' ≠ 0 := by
      rintro rfl
      cases bracket
    rw [cons_append, takeBody_char hc, hdepth, ih, keepBody_keepBody, singleton_append]
  | @closing c pending ls bracket _ ih =>
    have hdepth : bracesAfter (depth + (c :: pending).count '}') c = depth + pending.count '}' := by
      rcases isCloser_iff.mp bracket with rfl | rfl | rfl | rfl <;> simp [bracesAfter]
    have hc : c = '}' → depth + (c :: pending).count '}' ≠ 0 := by
      rintro rfl
      simp
    rw [cons_append, takeBody_char hc, hdepth, ih, keepBody_keepBody, singleton_append]
  | @char c pending ls opener closer _ _ _ ih =>
    have hc : c ≠ '{' ∧ c ≠ '}' := by
      constructor <;> rintro rfl
      · cases opener
      · cases closer
    rw [cons_append, takeBody_char (fun h => absurd h hc.2), bracesAfter, if_neg (by simp [hc.1]),
      if_neg (by simp [hc.2]), ih, keepBody_keepBody, singleton_append]

/-- Braces are counted like any other brackets, so a body does not end inside nested lexemes. -/
theorem Nested.passesBody (h : Nested top [] ls) : PassesBody ls :=
  fun depth ms => h.takeBody depth ms

/-! ### Headers -/

/-- The outermost of the brackets still to close is one of those that `counts` counts. -/
def Grounded (counts : Char → Bool) (pending : List Char) : Prop :=
  pending = [] ∨ ∃ inner c, pending = inner ++ [c] ∧ counts c = true

section Grounded

variable {counts : Char → Bool} {c : Char} {pending : List Char}

theorem Grounded.countP_pos (h : Grounded counts pending) (hne : pending ≠ []) :
    0 < pending.countP counts := by
  rcases h with rfl | ⟨inner, c, rfl, hc⟩
  · exact absurd rfl hne
  · rw [countP_pos_iff]
    exact ⟨c, by simp, hc⟩

theorem Grounded.tail (h : Grounded counts (c :: pending)) : Grounded counts pending := by
  rcases h with h | ⟨inner, d, heq, hd⟩
  · cases h
  · cases inner with
    | nil =>
      rw [nil_append, List.cons.injEq] at heq
      exact .inl heq.2
    | cons e inner =>
      rw [cons_append, List.cons.injEq] at heq
      exact .inr ⟨inner, d, heq.2, hd⟩

theorem Grounded.cons (h : Grounded counts pending) (hc : pending = [] → counts c) :
    Grounded counts (c :: pending) := by
  rcases h with rfl | ⟨inner, d, rfl, hd⟩
  · exact .inr ⟨[], c, rfl, hc rfl⟩
  · exact .inr ⟨c :: inner, d, rfl, hd⟩

end Grounded

/-- The closing brackets that count in a header. -/
def closesInHeader (c : Char) : Bool :=
  c == ')' || c == ']'

def keepHeader (t : Text) : Except SchemaError (Text × Bool × List Lexeme) →
    Except SchemaError (Text × Bool × List Lexeme) :=
  Functor.map fun p => (t ++ p.1, p.2)

theorem keepHeader_keepHeader (s t : Text) (x : Except SchemaError (Text × Bool × List Lexeme)) :
    keepHeader s (keepHeader t x) = keepHeader (s ++ t) x := by
  cases x with
  | error e => rfl
  | ok p => simp [keepHeader, Functor.map, Except.map]

/-- A header does not end inside nested lexemes that have no brace and no line break outside of
parentheses and square brackets. -/
theorem Nested.takeHeader (htop : ∀ c, top c → c ≠ '{' ∧ c ≠ '<' ∧ c ≠ '\n')
    (h : Nested top pending ls) (hg : Grounded closesInHeader pending) (isExtend : Bool)
    (ms : List Lexeme) : Schemata.takeHeader isExtend (pending.countP closesInHeader) (ls ++ ms) =
      keepHeader (raw ls) (Schemata.takeHeader isExtend 0 ms) := by
  -- outside of brackets no character ends the header, and inside the count is positive
  have hstop : ∀ {pending : List Char} {c : Char}, Grounded closesInHeader pending →
    (pending = [] → top c) →
      (pending.countP closesInHeader == 0 && c == '{') = false ∧
        (pending.countP closesInHeader == 0 && c == '\n') = false := by
    intro pending c hg hout
    cases pending with
    | nil =>
      have := htop c (hout rfl)
      simp [this.1, this.2.2]
    | cons d pending =>
      have hpos := hg.countP_pos (cons_ne_nil _ _)
      have hdepth : ((d :: pending).countP closesInHeader == 0) = false := by
        rw [beq_eq_false_iff_ne]
        omega
      rw [hdepth]
      exact ⟨rfl, rfl⟩
  induction h with
  | nil =>
    rw [raw_nil, nil_append]
    cases hx : Schemata.takeHeader isExtend 0 ms <;>
      simp [keepHeader, hx, Functor.map, Except.map]
  | literal t _ ih =>
    rw [cons_append, Schemata.takeHeader, ih hg, raw_cons, Lexeme.text, ← keepHeader_keepHeader]
    rfl
  | @opening c pending ls bracket outside _ ih =>
    have hgc : Grounded closesInHeader (closerOf c :: pending) := by
      refine hg.cons fun hp => ?_
      have := htop c (outside hp)
      rcases isOpener_iff.mp bracket with rfl | rfl | rfl | rfl <;>
        simp_all [closerOf, closesInHeader]
    have hdepth : (if c == '(' || c == '[' then pending.countP closesInHeader + 1
        else if c == ')' || c == ']' then pending.countP closesInHeader - 1
          else pending.countP closesInHeader) =
        (closerOf c :: pending).countP closesInHeader := by
      rcases isOpener_iff.mp bracket with rfl | rfl | rfl | rfl <;> simp [closesInHeader, closerOf]
    obtain ⟨h1, h2⟩ := hstop hg outside
    rw [cons_append, Schemata.takeHeader, h1, if_neg Bool.false_ne_true, h2, Bool.false_and,
      if_neg Bool.false_ne_true]
    simp only [hdepth]
    rw [ih hgc, raw_cons, Lexeme.text, ← keepHeader_keepHeader]
    rfl
  | @closing c pending ls bracket _ ih =>
    have hdepth : (if c == '(' || c == '[' then (c :: pending).countP closesInHeader + 1
        else if c == ')' || c == ']' then (c :: pending).countP closesInHeader - 1
          else (c :: pending).countP closesInHeader) =
        pending.countP closesInHeader := by
      rcases isCloser_iff.mp bracket with rfl | rfl | rfl | rfl <;> simp [closesInHeader]
    obtain ⟨h1, h2⟩ := hstop (c := c) hg fun h => absurd h (cons_ne_nil _ _)
    rw [cons_append, Schemata.takeHeader, h1, if_neg Bool.false_ne_true, h2, Bool.false_and,
      if_neg Bool.false_ne_true]
    simp only [hdepth]
    rw [ih hg.tail, raw_cons, Lexeme.text, ← keepHeader_keepHeader]
    rfl
  | @char c pending ls opener closer _ outside _ ih =>
    have hc : (c == '(' || c == '[') = false ∧ (c == ')' || c == ']') = false := by
      simp only [isOpener, isCloser, Bool.or_eq_false_iff] at opener closer
      simp only [Bool.or_eq_false_iff]
      exact ⟨⟨opener.1.1.1, opener.1.1.2⟩, closer.1.1.1, closer.1.1.2⟩
    obtain ⟨h1, h2⟩ := hstop hg outside
    rw [cons_append, Schemata.takeHeader, h1, if_neg Bool.false_ne_true, h2, Bool.false_and,
      if_neg Bool.false_ne_true]
    simp only [hc.1, hc.2, Bool.false_eq_true, if_false]
    rw [ih hg, raw_cons, Lexeme.text, ← keepHeader_keepHeader]
    rfl

/-! ### White space -/

/-- White space among the lexemes is single spaces only, and there is none at the end; there may be
one at the start if something stands right `before`. -/
inductive Spaced : Bool → List Lexeme → Prop
  | nil : Spaced true []
  | space {ls : List Lexeme} (rest : Spaced false ls) : Spaced true (.char ' ' :: ls)
  | char {before : Bool} {c : Char} {ls : List Lexeme} (blank : isBlank c = false)
      (rest : Spaced true ls) : Spaced before (.char c :: ls)
  | literal {before : Bool} {ls : List Lexeme} (t : Text) (rest : Spaced true ls) :
      Spaced before (.literal t :: ls)

def isSpaced : Bool → List Lexeme → Bool
  | before, [] => before
  | _, .literal _ :: ls => isSpaced true ls
  | before, .char c :: ls =>
      if isBlank c then before && c == ' ' && isSpaced false ls else isSpaced true ls
  | _, _ => false

theorem isSpaced_iff {before : Bool} : isSpaced before ls ↔ Spaced before ls := by
  constructor
  · intro h
    fun_induction isSpaced before ls with
    | case1 before =>
      obtain rfl : before := h
      exact .nil
    | case2 before t ls ih => exact .literal t (ih h)
    | case3 before c ls hc ih =>
      simp only [Bool.and_eq_true, beq_iff_eq] at h
      obtain ⟨⟨rfl, rfl⟩, h⟩ := h
      exact .space (ih h)
    | case4 before c ls hc ih => exact .char (by simpa using hc) (ih h)
    | case5 => cases h
  · intro h
    induction h with
    | nil => rfl
    | space _ ih => exact ih
    | char blank _ ih => rwa [isSpaced, blank, if_neg Bool.false_ne_true]
    | literal t _ ih => exact ih

instance (before : Bool) (ls : List Lexeme) : Decidable (Spaced before ls) :=
  decidable_of_iff _ isSpaced_iff

namespace Spaced

variable {before : Bool} {ls ms : List Lexeme}

theorem append (h : Spaced before ls) (hms : Spaced true ms) : Spaced before (ls ++ ms) := by
  induction h with
  | nil => exact hms
  | space _ ih => exact .space ih
  | char blank _ ih => exact .char blank ih
  | literal t _ ih => exact .literal t ih

theorem after (h : Spaced false ls) : Spaced before ls := by
  cases h with
  | char blank rest => exact .char blank rest
  | literal t rest => exact .literal t rest

theorem ofChars {s : Text} (h : ∀ c ∈ s, isBlank c = false) : Spaced true (s.map .char) := by
  induction s with
  | nil => exact .nil
  | cons c s ih =>
    obtain ⟨hc, hs⟩ := forall_mem_cons.mp h
    exact .char hc (ih hs)

theorem collapse (h : Spaced before ls) {started spaced : Bool}
    (hb : before → started ∧ spaced = false) (ms : List Lexeme) :
    Lexeme.collapse started spaced (ls ++ ms) =
      (fun out => (if started && spaced then [' '] else []) ++ raw ls ++ out) <$>
        Lexeme.collapse true false ms := by
  induction h generalizing started spaced with
  | nil =>
    obtain ⟨rfl, rfl⟩ := hb rfl
    simp
  | space _ ih =>
    obtain ⟨rfl, rfl⟩ := hb rfl
    rw [cons_append, Lexeme.collapse, if_pos (by decide), ih (fun h => nomatch h)]
    simp [Lexeme.text]
  | char blank _ ih =>
    rw [cons_append, Lexeme.collapse, if_neg (by simp [blank]), ih (fun _ => ⟨rfl, rfl⟩),
      Functor.map_map]
    congr 1
    funext out
    cases started <;> cases spaced <;> simp [Lexeme.text]
  | literal t _ ih =>
    rw [cons_append, Lexeme.collapse, ih (fun _ => ⟨rfl, rfl⟩), Functor.map_map]
    congr 1
    funext out
    cases started <;> cases spaced <;> simp [Lexeme.text]

end Spaced

theorem collapse_eq {t : Text} (h : Spaced false (lex false t)) : collapse t = .ok t := by
  have := @Spaced.collapse _ _ h false false (fun h => nomatch h) []
  simpa [Schemata.collapse, Lexeme.collapse, Functor.map, Except.map] using this

theorem stripComments_append (h : ls.all Lexeme.isQuiet) (ms : List Lexeme) :
    Lexeme.stripComments (ls ++ ms) = (raw ls ++ ·) <$> Lexeme.stripComments ms := by
  induction ls with
  | nil => simp
  | cons l ls ih =>
    rw [all_cons, Bool.and_eq_true] at h
    cases l with
    | char c =>
      rw [cons_append, Lexeme.stripComments, ih h.2, Functor.map_map]
      rfl
    | literal t =>
      rw [cons_append, Lexeme.stripComments, ih h.2, Functor.map_map]
      simp [Lexeme.text]
    | comment t => simp [Lexeme.isQuiet] at h
    | unclosed t => simp [Lexeme.isQuiet] at h

end Schemata
