import Schemata.Proofs.BareBodies

/-!
# Blocks without their comments

A block reads the same without its comments, as long as they stand apart from the places where its
reading looks for what comes next past white space alone: the end of an extension without a body,
and the end of an item.

## Main results

* `takeHeader_bare`, `takeBody_bare` — the parts of a block without comments.
* `Lexed.readBlock_bare` — **a block without its comments.**
-/

namespace Schemata

open List

variable {c : Char} {depth : Nat} {opening : Text} {isExtend : Bool} {ls : List Lexeme}

/-! ### Attempts that fail together -/

/-- Two attempts that fail together, or succeed with related results. -/
inductive Alike {ε α β : Type} (R : α → β → Prop) : Except ε α → Except ε β → Prop
  | ok {a : α} {b : β} (related : R a b) : Alike R (.ok a) (.ok b)
  | error (e e' : ε) : Alike R (.error e) (.error e')

theorem Alike.bind {ε α β γ δ : Type} {R : α → β → Prop} {S : γ → δ → Prop} {x : Except ε α}
    {y : Except ε β} (h : Alike R x y) {f : α → Except ε γ} {g : β → Except ε δ}
    (hfg : ∀ a b, R a b → Alike S (f a) (g b)) : Alike S (x >>= f) (y >>= g) := by
  cases h with
  | ok related => exact hfg _ _ related
  | error e e' => exact .error e e'

/-- What is said of the result of an attempt can be decided. -/
instance decidableForallOk {ε α : Type} (x : Except ε α) (P : α → Prop) [DecidablePred P] :
    Decidable (∀ a, x = .ok a → P a) :=
  match x with
  | .ok a => decidable_of_iff (P a) ⟨fun h _ heq => Except.ok.inj heq ▸ h, fun h => h a rfl⟩
  | .error _ => isTrue fun _ heq => by cases heq

instance decidableExistsOk {ε α : Type} (x : Except ε α) (P : α → Prop) [DecidablePred P] :
    Decidable (∃ a, x = .ok a ∧ P a) :=
  match x with
  | .ok a => decidable_of_iff (P a) ⟨fun h => ⟨a, rfl, h⟩, fun ⟨_, heq, h⟩ => Except.ok.inj heq ▸ h⟩
  | .error _ => isFalse fun ⟨_, heq, _⟩ => by cases heq

/-! ### Words -/

namespace Lexed

variable {ls : List Lexeme}

theorem takeName_bare (h : Lexed ls) :
    (Text.takeName (raw ls) = none ∧ Text.takeName (raw (bare ls)) = none) ∨
      ∃ (w : Text) (ms : List Lexeme), ls = w.map .char ++ ms ∧
        Text.takeName (raw ls) = some (w, raw ms) ∧
        Text.takeName (raw (bare ls)) = some (w, raw (bare ms)) := by
  cases h with
  | nil => exact .inl ⟨rfl, rfl⟩
  | @char c ls _ _ rest =>
    by_cases hc : isNameStart c
    · obtain ⟨w, ms, hls, htake, hdrop, htake', hdrop'⟩ :=
        rest.exists_span (p := isNameChar) rfl rfl fun hn => absurd hn (by decide)
      refine .inr ⟨c :: w, ms, by rw [hls]; rfl, ?_, ?_⟩
      · change Text.takeName (c :: raw ls) = _
        rw [Text.takeName, if_pos hc, htake, hdrop]
      · change Text.takeName (c :: raw (bare ls)) = _
        rw [Text.takeName, if_pos hc, htake', hdrop']
    · refine .inl ⟨?_, ?_⟩
      · change Text.takeName (c :: raw ls) = none
        rw [Text.takeName, if_neg hc]
      · change Text.takeName (c :: raw (bare ls)) = none
        rw [Text.takeName, if_neg hc]
  | literal _ _ => exact .inl ⟨rfl, rfl⟩
  | comment _ ends _ =>
    refine .inl ⟨rfl, ?_⟩
    rcases ends with rfl | ⟨ms, rfl⟩
    · rfl
    · rfl

theorem trimStart_bare (h : Lexed ls) (hstop : (raw ls).trimStart.startsWith (· == '#') = false) :
    ∃ (w : Text) (ms : List Lexeme), ls = w.map .char ++ ms ∧ (raw ls).takeWhile isBlank = w ∧
      (raw ls).trimStart = raw ms ∧ (raw (bare ls)).takeWhile isBlank = w ∧
      (raw (bare ls)).trimStart = raw (bare ms) :=
  h.exists_span (p := isBlank) rfl rfl fun _ => hstop

theorem takeWord_bare (h : Lexed ls)
    (hextend : ∀ rest, Text.takeName (raw ls) = some ("extend".toList, rest) →
      rest.trimStart.startsWith (· == '#') = false) :
    Alike (fun x y => ∃ isExtend opening word ms, ls = opening.map .char ++ ms ∧
      x = (isExtend, opening, word, raw ms) ∧ y = (isExtend, opening, word, raw (bare ms)))
      (takeWord (raw ls)) (takeWord (raw (bare ls))) := by
  unfold takeWord
  rcases h.takeName_bare with ⟨hnone, hnone'⟩ | ⟨w, ms, hls, hsome, hsome'⟩
  · rw [hnone, hnone']
    exact .error _ _
  · rw [hsome, hsome']
    by_cases hw : (w == "extend".toList)
    · obtain rfl : w = "extend".toList := by simpa using hw
      have hms : Lexed ms := (hls ▸ h).append_right
      obtain ⟨gap, ns, hgap, htake, htrim, htake', htrim'⟩ := hms.trimStart_bare (hextend _ hsome)
      simp only [hw, if_true, htake, htake', htrim, htrim']
      rcases (hgap ▸ hms).append_right.takeName_bare with
        ⟨hnone, hnone'⟩ | ⟨v, os, hns, hsome, hsome'⟩
      · rw [hnone, hnone']
        exact .error _ _
      · rw [hsome, hsome']
        refine .ok ⟨true, _, v, os, ?_, rfl, rfl⟩
        rw [hls, hgap, hns]
        simp
    · simp only [hw]
      exact .ok ⟨false, w, w, ms, hls, rfl, rfl⟩

end Lexed

/-! ### Headers -/

theorem Lexed.leadingName_bare (h : Lexed ls) :
    Lexeme.leadingName (bare ls) = Lexeme.leadingName ls := by
  have htake : ∀ p : Lexeme → Bool, (∀ l, p l → ∃ c, l = .char c ∧ isNameChar c) →
      (bare ls).takeWhile p = ls.takeWhile p := by
    intro p hp
    induction h with
    | nil => rfl
    | @char c ls _ _ _ ih =>
      rw [bare_char]
      by_cases hc : p (.char c)
      · rw [takeWhile_cons_of_pos hc, takeWhile_cons_of_pos hc, ih]
      · rw [takeWhile_cons_of_neg hc, takeWhile_cons_of_neg hc]
    | literal _ _ _ =>
      rw [bare_literal, takeWhile_cons, takeWhile_cons]
      split
      · rename_i hl
        obtain ⟨c, hc, -⟩ := hp _ hl
        cases hc
      · rfl
    | comment _ ends _ _ =>
      have hcomment : ∀ t, p (.comment t) → False := by
        intro t ht
        obtain ⟨c, hc, -⟩ := hp _ ht
        cases hc
      rw [bare_comment, takeWhile_cons_of_neg (hcomment _)]
      rcases ends with rfl | ⟨ms, rfl⟩
      · rfl
      · refine takeWhile_cons_of_neg fun hn => ?_
        obtain ⟨c, hc, hname⟩ := hp _ hn
        cases hc
        exact absurd hname (by decide)
  rw [Lexeme.leadingName, Lexeme.leadingName, htake]
  intro l hl
  cases l with
  | char c => exact ⟨c, rfl, hl⟩
  | _ => cases hl

theorem endsHeader_cons (hc : isBlank c) (isExtend : Bool) (ls : List Lexeme) :
    endsHeader isExtend (.char c :: ls) = endsHeader isExtend ls := by
  rw [endsHeader, endsHeader, dropBlank_cons hc]

/-- Whether a header ends is seen without the comments, unless a comment follows. -/
theorem Lexed.endsHeader_bare (h : Lexed ls) (hfirst : ¬ Body.ComesToComment ls) (isExtend : Bool) :
    endsHeader isExtend (bare ls) = endsHeader isExtend ls := by
  have hdrop := dropBlank_bare fun t ms heq => hfirst ⟨t, ms, heq⟩
  have hrest := h.dropBlank
  rw [endsHeader, endsHeader, hdrop]
  generalize hms : Lexeme.dropBlank ls = ms at hrest
  cases hrest with
  | nil => rfl
  | char quote hash rest =>
    have hname := (Lexed.char quote hash rest).leadingName_bare
    simp only [bare_char] at hname ⊢
    rw [hname]
  | literal _ _ => rfl
  | comment _ _ _ => exact absurd ⟨_, _, hms⟩ hfirst

/-- What follows an extension without a body once its comments are left out: nothing, or a statement
or a description. -/
def EndsExtension (ls : List Lexeme) : Prop :=
  (raw (bare ls)).all isBlank = true ∨ endsHeader true (bare ls) = true

instance (ls : List Lexeme) : Decidable (EndsExtension ls) :=
  inferInstanceAs (Decidable (_ ∨ _))

/-- The brackets open after a character of a header. -/
def headerDepth (depth : Nat) (c : Char) : Nat :=
  if c == '(' || c == '[' then depth + 1 else if c == ')' || c == ']' then depth - 1 else depth

theorem headerDepth_of_isBlank (hc : isBlank c) (depth : Nat) : headerDepth depth c = depth := by
  have hne : ∀ d : Char, isBlank d = false → (c == d) = false := fun _ => beq_of_class hc
  simp [headerDepth, hne '(' rfl, hne '[' rfl, hne ')' rfl, hne ']' rfl]

theorem takeHeader_char (hbrace : (depth == 0 && c == '\x7b') = false)
    (hline : (depth == 0 && c == '\n' && endsHeader isExtend ls) = false) :
    takeHeader isExtend depth (.char c :: ls) =
      (fun (header, rest) => (c :: header, rest)) <$>
        takeHeader isExtend (headerDepth depth c) ls := by
  rw [takeHeader, if_neg (by simp [hbrace]), if_neg (by simp [hline])]
  rfl

theorem takeHeader_blank (hc : isBlank c) (hends : endsHeader isExtend ls = false) :
    takeHeader isExtend 0 (.char c :: ls) =
      (fun (header, rest) => (c :: header, rest)) <$> takeHeader isExtend 0 ls := by
  have hbrace : (0 == 0 && c == '\x7b') = false := by
    have hne : c ≠ '\x7b' := by
      rintro rfl
      exact absurd hc (by decide)
    simpa using hne
  rw [takeHeader_char hbrace (by simp [hends]), headerDepth_of_isBlank hc]

/-- A header that goes on before comments, with a statement after them, ends without a body. -/
theorem Lexed.exists_takeHeader (h : Lexed ls) (hbare : endsHeader false (bare ls))
    (hends : endsHeader false ls = false) :
    ∃ header rest, takeHeader false 0 ls = .ok (header, false, rest) := by
  induction h with
  | nil => cases hbare
  | @char c ls quote hash rest ih =>
    by_cases hc : isBlank c
    · rw [bare_char, endsHeader_cons hc] at hbare
      rw [endsHeader_cons hc] at hends
      obtain ⟨header, after, htake⟩ := ih hbare hends
      rw [takeHeader_blank hc hends, htake]
      exact ⟨_, _, rfl⟩
    · have hfirst : ¬ Body.ComesToComment (.char c :: ls) := fun hcomes =>
        hc (Body.isBlank_of_comesToComment hcomes).1
      rw [(Lexed.char quote hash rest).endsHeader_bare hfirst, hends] at hbare
      cases hbare
  | literal _ _ _ => cases hends
  | @comment t ls _ ends _ ih =>
    have hlast : ∃ header rest, takeHeader false 0 ls = .ok (header, false, rest) := by
      cases hnext : endsHeader false ls with
      | false => exact ih hbare hnext
      | true =>
        rcases ends with rfl | ⟨ms, rfl⟩
        · cases hbare
        · rw [endsHeader_cons rfl] at hnext
          refine ⟨[], .char '\n' :: ms, ?_⟩
          rw [takeHeader, if_neg (by decide), if_pos (by simp [hnext])]
    obtain ⟨header, after, htake⟩ := hlast
    rw [takeHeader, htake]
    exact ⟨_, _, rfl⟩

/-- The header of a block with its comments and without them, before `ls`. -/
inductive HeadersAlike (isExtend : Bool) (ls : List Lexeme) :
    Text × Bool × List Lexeme → Text × Bool × List Lexeme → Prop
  | body {p rest : List Lexeme} (cut : ls = p ++ .char '\x7b' :: rest) :
      HeadersAlike isExtend ls (raw p, true, rest) (raw (bare p), true, bare rest)
  | missing {header header' : Text} {rest rest' : List Lexeme} (declares : isExtend = false) :
      HeadersAlike isExtend ls (header, false, rest) (header', false, rest')
  /-- An extension has no body.  Without the comments, the header may go on over the white space at
  the end of the schema. -/
  | extension {p rest rest' : List Lexeme} {gap : Text} (extending : isExtend = true)
      (cut : ls = p ++ rest) (blank : ∀ c ∈ gap, isBlank c = true)
      (ends : gap = [] ∧ rest' = bare rest ∨ rest' = [] ∧ ∀ c ∈ raw (bare rest), isBlank c = true) :
      HeadersAlike isExtend ls (raw p, false, rest) (raw (bare p) ++ gap, false, rest')

theorem HeadersAlike.cons {x y : Text × Bool × List Lexeme} (h : HeadersAlike isExtend ls x y)
    (l : Lexeme) :
    HeadersAlike isExtend (l :: ls) (l.text ++ x.1, x.2) (raw (bare [l]) ++ y.1, y.2) := by
  cases h with
  | @body p rest cut =>
    have hcut : l :: ls = (l :: p) ++ .char '\x7b' :: rest := by rw [cut]; rfl
    have hbare : raw (bare [l]) ++ raw (bare p) = raw (bare (l :: p)) := by
      rw [← raw_append, ← bare_append]
      rfl
    simp only [hbare]
    exact .body hcut
  | missing declares => exact .missing declares
  | @extension p rest rest' gap extending cut blank ends =>
    have hcut : l :: ls = (l :: p) ++ rest := by rw [cut]; rfl
    have hbare : raw (bare [l]) ++ (raw (bare p) ++ gap) = raw (bare (l :: p)) ++ gap := by
      rw [← append_assoc, ← raw_append, ← bare_append]
      rfl
    simp only [hbare]
    exact .extension extending hcut blank ends

theorem endsHeader_map_char {u : Text} (hu : ∀ c ∈ u, isBlank c) :
    endsHeader isExtend (u.map .char) = false := by
  induction u with
  | nil => rfl
  | cons c u ih =>
    obtain ⟨hc, hu⟩ := forall_mem_cons.mp hu
    rw [map_cons, endsHeader_cons hc, ih hu]

theorem takeHeader_map_char {u : Text} (hu : ∀ c ∈ u, isBlank c) :
    takeHeader isExtend 0 (u.map .char) = .ok (u, false, []) := by
  induction u with
  | nil => rfl
  | cons c u ih =>
    obtain ⟨hc, hu⟩ := forall_mem_cons.mp hu
    rw [map_cons, takeHeader_blank hc (endsHeader_map_char hu), ih hu]
    rfl

/-- The header of an extension ends at a line break, and so it does without the comments. -/
theorem takeHeader_bare_ends (h : Lexed ls) (hends : endsHeader isExtend ls)
    (hapart : isExtend → EndsExtension (.char '\n' :: ls)) :
    ∃ y, takeHeader isExtend 0 (.char '\n' :: bare ls) = .ok y ∧
      HeadersAlike isExtend (.char '\n' :: ls) ([], false, .char '\n' :: ls) y := by
  have hstop : endsHeader isExtend (bare ls) →
      takeHeader isExtend 0 (.char '\n' :: bare ls) = .ok ([], false, .char '\n' :: bare ls) := by
    intro hbare
    rw [takeHeader, if_neg (by decide), if_pos (by simp [hbare])]
  cases isExtend with
  | false =>
    have hfirst : ¬ Body.ComesToComment ls := by
      rintro ⟨t, ms, hcomes⟩
      rw [endsHeader, hcomes] at hends
      cases hends
    refine ⟨_, hstop ?_, .missing rfl⟩
    rw [h.endsHeader_bare hfirst, hends]
  | true =>
    rcases hapart rfl with hblank | hbare
    · -- nothing but comments and white space follows
      rw [all_eq_true] at hblank
      have hu := h.isBare.exists_chars fun c hc => hblank c (mem_cons_of_mem _ hc)
      obtain ⟨u, hu, hchars⟩ := hu
      have hall : ∀ c ∈ '\n' :: u, isBlank c := forall_mem_cons.mpr ⟨rfl, hu⟩
      refine ⟨_, ?_,
        @HeadersAlike.extension true _ [] _ [] ('\n' :: u) rfl rfl hall (.inr ⟨rfl, hblank⟩)⟩
      rw [hchars]
      exact takeHeader_map_char hall
    · rw [bare_char, endsHeader_cons rfl] at hbare
      exact ⟨_, hstop hbare, @HeadersAlike.extension true _ [] _ _ [] rfl rfl (forall_mem_nil _)
        (.inl ⟨rfl, rfl⟩)⟩

/-- **Headers without their comments.** -/
theorem takeHeader_bare (h : Lexed ls)
    (hapart : ∀ header rest, takeHeader isExtend depth ls = .ok (header, false, rest) → isExtend →
      EndsExtension rest) :
    ∃ x y, takeHeader isExtend depth ls = .ok x ∧ takeHeader isExtend depth (bare ls) = .ok y ∧
      HeadersAlike isExtend ls x y := by
  induction h generalizing depth with
  | nil =>
    cases isExtend with
    | false => exact ⟨_, _, rfl, rfl, .missing rfl⟩
    | true =>
      exact ⟨_, _, rfl, rfl, @HeadersAlike.extension true _ [] [] [] [] rfl rfl (forall_mem_nil _)
        (.inl ⟨rfl, rfl⟩)⟩
  | @literal body ls _ _ ih =>
    have hcons : takeHeader isExtend depth (.literal ('"' :: body) :: ls) =
        (fun (header, rest) => ('"' :: body ++ header, rest)) <$> takeHeader isExtend depth ls :=
          rfl
    obtain ⟨x, y, hx, hy, halike⟩ := ih fun header rest htake hextends =>
      hapart ('"' :: body ++ header) rest (by rw [hcons, htake]; rfl) hextends
    refine ⟨_, _, by rw [hcons, hx]; rfl, ?_, halike.cons (.literal ('"' :: body))⟩
    rw [bare_literal, takeHeader, hy]
    simp [bare, Lexeme.isComment, Lexeme.text, Functor.map, Except.map]
  | @comment t ls _ _ _ ih =>
    have hcons : takeHeader isExtend depth (.comment ('#' :: t) :: ls) =
        (fun (header, rest) => ('#' :: t ++ header, rest)) <$> takeHeader isExtend depth ls := rfl
    obtain ⟨x, y, hx, hy, halike⟩ := ih fun header rest htake hextends =>
      hapart ('#' :: t ++ header) rest (by rw [hcons, htake]; rfl) hextends
    exact ⟨_, _, by rw [hcons, hx]; rfl, hy, halike.cons (.comment ('#' :: t))⟩
  | @char c ls quote hash rest ih =>
    by_cases hbrace : (depth == 0 && c == '\x7b')
    · obtain ⟨rfl, rfl⟩ : depth = 0 ∧ c = '\x7b' := by simpa using hbrace
      exact ⟨_, _, rfl, rfl, @HeadersAlike.body isExtend _ [] ls rfl⟩
    rw [Bool.not_eq_true] at hbrace
    -- whether the header ends is asked of what follows, with the comments and without them
    by_cases hline : (depth == 0 && c == '\n' && endsHeader isExtend ls)
    · obtain ⟨⟨rfl, rfl⟩, hends⟩ : (depth = 0 ∧ c = '\n') ∧ endsHeader isExtend ls := by
        simpa using hline
      have htake : takeHeader isExtend 0 (.char '\n' :: ls) =
          .ok ([], false, .char '\n' :: ls) := by
        rw [takeHeader, if_neg (by decide), if_pos hline]
      obtain ⟨y, hy, halike⟩ := takeHeader_bare_ends rest hends (hapart _ _ htake)
      exact ⟨_, y, htake, hy, halike⟩
    rw [Bool.not_eq_true] at hline
    by_cases hline' : (depth == 0 && c == '\n' && endsHeader isExtend (bare ls))
    · -- only a declaration goes on before a comment, and its body is missing
      obtain ⟨⟨rfl, rfl⟩, hends⟩ : (depth = 0 ∧ c = '\n') ∧ endsHeader isExtend (bare ls) := by
        simpa using hline'
      have hgoes : endsHeader isExtend ls = false := by simpa using hline
      have hcomes : Body.ComesToComment ls := by
        by_contra hfirst
        rw [rest.endsHeader_bare hfirst, hgoes] at hends
        cases hends
      cases isExtend with
      | true =>
        obtain ⟨t, ms, hcomes⟩ := hcomes
        rw [endsHeader, hcomes] at hgoes
        cases hgoes
      | false =>
        obtain ⟨header, after, htake⟩ := rest.exists_takeHeader hends hgoes
        refine ⟨('\n' :: header, false, after), ([], false, .char '\n' :: bare ls), ?_, ?_,
          .missing rfl⟩
        · rw [takeHeader_blank rfl hgoes, htake]
          rfl
        · rw [bare_char, takeHeader, if_neg (by decide), if_pos hline']
    rw [Bool.not_eq_true] at hline'
    have hcons := takeHeader_char hbrace hline
    obtain ⟨x, y, hx, hy, halike⟩ := ih fun header after htake hextends =>
      hapart (c :: header) after (by rw [hcons, htake]; rfl) hextends
    refine ⟨_, _, by rw [hcons, hx]; rfl, ?_, halike.cons (.char c)⟩
    rw [bare_char, takeHeader_char hbrace hline', hy]
    rfl

/-! ### Blocks -/

/-- A fragment without the comments in its body. -/
def Fragment.withoutComments (f : Fragment) : Fragment :=
  { f with items := Schemata.withoutComments f.items }

theorem Fragment.withoutComments_withoutComments (f : Fragment) :
    f.withoutComments.withoutComments = f.withoutComments := by
  rw [withoutComments, withoutComments, Schemata.withoutComments_withoutComments]

/-- What follows a statement, with its comments and without them. -/
def Rests (t u : Text) : Prop :=
  ∃ ms, Lexed ms ∧ t = raw ms ∧ (u = raw (bare ms) ∨ u = [] ∧ ∀ c ∈ raw (bare ms), isBlank c = true)

theorem Lexed.rests {ms : List Lexeme} (h : Lexed ms) : Rests (raw ms) (raw (bare ms)) :=
  ⟨ms, h, rfl, .inl rfl⟩

/-- A fragment and what follows it, with the comments and without them. -/
def Reads (x y : Fragment × Text) : Prop :=
  y.1 = x.1.withoutComments ∧ Rests x.2 y.2

/-- Take the comments out of a body and of what follows it. -/
def bareBody : Option (List Lexeme × List Lexeme) → Option (List Lexeme × List Lexeme) :=
  Option.map fun p => (bare p.1, bare p.2)

theorem bareBody_keepBody (ls : List Lexeme)
    (x : Except SchemaError (Option (List Lexeme × List Lexeme))) :
    bareBody <$> keepBody ls x = keepBody (bare ls) (bareBody <$> x) := by
  cases x with
  | error e => rfl
  | ok o => cases o <;> simp [keepBody, bareBody, Functor.map, Except.map]

theorem takeBody_bare (depth : Nat) (ls : List Lexeme) :
    takeBody depth (bare ls) = bareBody <$> takeBody depth ls := by
  induction ls generalizing depth with
  | nil => rfl
  | cons l ls ih =>
    cases l with
    | char c =>
      rw [bare_char]
      by_cases hc : c = '\x7d' ∧ depth = 0
      · obtain ⟨rfl, rfl⟩ := hc
        rfl
      · have hgoes : c = '\x7d' → depth ≠ 0 := fun hbrace hzero => hc ⟨hbrace, hzero⟩
        rw [takeBody_char hgoes, takeBody_char hgoes, ih, bareBody_keepBody]
        rfl
    | literal t =>
      rw [bare_literal, takeBody_literal, takeBody_literal, ih, bareBody_keepBody]
      rfl
    | comment t =>
      have hcomment : takeBody depth (.comment t :: ls) =
          keepBody [.comment t] (takeBody depth ls) :=
        PassesBody.comment t depth ls
      rw [bare_comment, hcomment, ih, bareBody_keepBody]
      exact (keepBody_nil _).symm
    | unclosed t => rfl

theorem takeBody_append {body rest : List Lexeme}
    (h : takeBody depth ls = .ok (some (body, rest))) : ls = body ++ .char '\x7d' :: rest := by
  induction ls generalizing depth body with
  | nil => cases h
  | cons l ls ih =>
    have hcons : ∀ {d : Nat}, keepBody [l] (takeBody d ls) = .ok (some (body, rest)) →
        l :: ls = body ++ .char '\x7d' :: rest := by
      intro d hd
      obtain ⟨o, ho, hmap⟩ := map_eq_ok hd
      obtain ⟨⟨b, r⟩, rfl, hb⟩ := Option.map_eq_some_iff.mp hmap
      obtain ⟨rfl, rfl⟩ := Prod.mk.inj hb
      rw [ih ho]
      rfl
    cases l with
    | char c =>
      by_cases hc : c = '\x7d' ∧ depth = 0
      · obtain ⟨rfl, rfl⟩ := hc
        obtain ⟨rfl, rfl⟩ := Prod.mk.inj (Option.some.inj (Except.ok.inj h))
        rfl
      · rw [takeBody_char fun hbrace hzero => hc ⟨hbrace, hzero⟩] at h
        exact hcons h
    | literal t =>
      rw [takeBody_literal] at h
      exact hcons h
    | comment t => exact hcons ((PassesBody.comment t depth ls).symm.trans h)
    | unclosed t => cases h

theorem Lexed.exists_takeBody (h : Lexed ls) (depth : Nat) : ∃ o, takeBody depth ls = .ok o := by
  induction h generalizing depth with
  | nil => exact ⟨_, rfl⟩
  | @char c ls _ _ _ ih =>
    by_cases hc : c = '\x7d' ∧ depth = 0
    · obtain ⟨rfl, rfl⟩ := hc
      exact ⟨_, rfl⟩
    · obtain ⟨o, ho⟩ := ih (bracesAfter depth c)
      rw [takeBody_char fun hbrace hzero => hc ⟨hbrace, hzero⟩, ho]
      exact ⟨_, rfl⟩
  | literal _ _ ih =>
    obtain ⟨o, ho⟩ := ih depth
    rw [takeBody_literal, ho]
    exact ⟨_, rfl⟩
  | @comment t ls _ _ _ ih =>
    obtain ⟨o, ho⟩ := ih depth
    have hcomment := PassesBody.comment ('#' :: t) depth ls
    rw [singleton_append] at hcomment
    rw [hcomment, ho]
    exact ⟨_, rfl⟩

/-- The comments of a block stand apart from the end of its header and from the ends of its
items. -/
def BlockApart (isExtend : Bool) (t : Text) : Prop :=
  ∀ r, takeHeader isExtend 0 (lex true t) = .ok r →
    if r.2.1 then ∀ o, takeBody 0 r.2.2 = .ok o → ∀ b ∈ o, ItemsEndAtComments 0 b.1
    else isExtend = true → EndsExtension r.2.2

instance (isExtend : Bool) (t : Text) : Decidable (BlockApart isExtend t) :=
  inferInstanceAs (Decidable (∀ _, _ → _))

theorem Lexed.header_bare {p : List Lexeme} (h : Lexed (opening.map .char ++ p)) {gap : Text}
    (hgap : ∀ c ∈ gap, isBlank c) :
    ∃ s s' full, stripComments (opening ++ raw p) = .ok s ∧ collapse s = .ok full ∧
      stripComments (opening ++ (raw (bare p) ++ gap)) = .ok s' ∧ collapse s' = .ok full := by
  have hraw : opening ++ raw p = raw (opening.map .char ++ p) := by simp
  have hraw' : opening ++ (raw (bare p) ++ gap) = raw (bare (opening.map .char ++ p)) ++ gap := by
    simp
  obtain ⟨m, -, hcollapse, -⟩ := h.isBare.exists_collapse false false
  have hfull : collapse (raw (bare (opening.map .char ++ p))) = .ok (raw m) := by
    rw [collapse, h.isBare.lex_raw, hcollapse]
  refine ⟨_, raw (bare (opening.map .char ++ p)) ++ gap, raw m, ?_, hfull, ?_, ?_⟩
  · rw [hraw, h.stripComments_raw]
  · rw [hraw', stripComments_eq (h.isBare.closed.append_blank hgap)]
  · rw [h.isBare.collapse_append_blank hgap, hfull]

theorem readBlock_missing {kind : Kind} {header t : Text} {rest : List Lexeme}
    (h : takeHeader false 0 (lex true t) = .ok (header, false, rest)) :
    ∃ e, readBlock kind false opening t = .error e := by
  unfold readBlock
  rw [h]
  simp only [bind, Except.bind]
  cases stripComments (opening ++ header) with
  | error e => exact ⟨e, rfl⟩
  | ok s =>
    cases hs : collapse s with
    | error e => exact ⟨e, by simp only [hs]⟩
    | ok full =>
      simp only [hs]
      exact ⟨_, rfl⟩

/-- **A block without its comments.** -/
theorem Lexed.readBlock_bare {kind : Kind} (h : Lexed (opening.map .char ++ ls))
    (hapart : BlockApart isExtend (raw ls)) :
    Alike Reads (readBlock kind isExtend opening (raw ls))
      (readBlock kind isExtend opening (raw (bare ls))) := by
  have hls : Lexed ls := h.append_right
  have hlex : lex true (raw ls) = ls := hls.lex_raw
  have hlex' : lex true (raw (bare ls)) = bare ls := hls.lexed_bare.lex_raw
  rw [BlockApart, hlex] at hapart
  obtain ⟨x, y, hx, hy, halike⟩ := takeHeader_bare hls fun header rest htake =>
    hapart (header, false, rest) htake
  cases halike with
  | @missing header header' rest rest' declares =>
    -- both are refused, with different headers
    subst declares
    obtain ⟨e, he⟩ := @readBlock_missing opening kind header (raw ls) rest (by rw [hlex, hx])
    obtain ⟨e', he'⟩ :=
      @readBlock_missing opening kind header' (raw (bare ls)) rest' (by rw [hlex', hy])
    rw [he, he']
    exact .error e e'
  | @extension p rest rest' gap extending cut blank ends =>
    have hp : Lexed (opening.map .char ++ p) := by
      rw [cut, ← append_assoc] at h
      exact h.append_left
    have hrest : Lexed rest := (cut ▸ hls).append_right
    obtain ⟨s, s', full, hs, hfull, hs', hfull'⟩ := hp.header_bare blank
    unfold readBlock
    rw [hlex, hlex', hx, hy]
    simp only [bind, Except.bind, hs, hfull, hs', hfull', extending]
    refine .ok ⟨rfl, rest, hrest, rfl, ?_⟩
    rcases ends with ⟨-, rfl⟩ | ⟨rfl, hblank⟩
    · exact .inl rfl
    · exact .inr ⟨rfl, hblank⟩
  | @body p rest cut =>
    have hp : Lexed (opening.map .char ++ p) := by
      rw [cut, ← append_assoc] at h
      exact h.append_left
    have hrest : Lexed rest := @append_right [.char '\x7b'] rest (cut ▸ hls).append_right
    obtain ⟨s, s', full, hs, hfull, hs', hfull'⟩ := hp.header_bare (forall_mem_nil _)
    rw [append_nil] at hs'
    -- the body ends at the same brace
    obtain ⟨o, ho⟩ := hrest.exists_takeBody 0
    have ho' : takeBody 0 (bare rest) = .ok (bareBody o) := by
      rw [takeBody_bare, ho]
      rfl
    unfold readBlock
    rw [hlex, hlex', hx, hy]
    simp only [bind, Except.bind, hs, hfull, hs', hfull', ho, ho']
    cases o with
    | none => exact .error _ _
    | some q =>
      obtain ⟨inner, after⟩ := q
      have hinner := takeBody_append ho
      obtain ⟨items, hitems, hitems'⟩ := bodyItems_bare (hinner ▸ hrest).append_left
        (hapart (_, true, rest) hx _ ho (inner, after) rfl) (kind == .enum)
      have hafter : Lexed after := @append_right [.char '\x7d'] after (hinner ▸ hrest).append_right
      simp only [bareBody, Option.map_some, hitems, hitems']
      exact .ok ⟨rfl, hafter.rests⟩

end Schemata
