import Mathlib.Data.List.TakeDrop
import Schemata.Lexeme.Position
import Schemata.Proofs.Appending

/-!
# Reading comes to an end

A schema is read by loops over the positions of a text.  A turn passes over a character, a literal,
a comment or a whole statement, and may jump: past an escape, to the end of a line, or back to where
a header has ended.  Each turn moves on and stays within the text, so a loop takes at most one turn
for each character and one more, whatever the text is.  It ends with a result, or refuses the text
as malformed.

## Main results

* `halts_of_moves` — **a loop whose turns move on comes to an end.**
* `stands_lexemeAt` — the lexeme at a position ends behind it and within the text.
* `Reader.Reads.halts` — the loop of a reader ends with what is read from the lexemes of the text.
* `halts_scan` — so does the reading of a schema, statement by statement.
* `reading_ends` — **the reading of every text comes to an end.**
-/

namespace Schemata

open List

/-! ### Loops -/

section Loops

variable {σ α : Type}

/-- A loop ends after a number of turns, with an answer.  A turn gives the state of the next one, or
the answer. -/
inductive Halts (turn : σ → σ ⊕ α) : σ → Nat → α → Prop where
  | done {s : σ} {a : α} (h : turn s = .inr a) : Halts turn s 1 a
  | next {s s' : σ} {n : Nat} {a : α} (h : turn s = .inl s') (hrest : Halts turn s' n a) :
      Halts turn s (n + 1) a

/-- **A loop whose turns move on comes to an end**: each of them gives the answer, or goes to a
later position within the text and keeps the answer. -/
theorem halts_of_moves {turn : Nat × σ → (Nat × σ) ⊕ α} {length : Nat} {answer : Nat × σ → α}
    (h : ∀ s, turn s = .inr (answer s) ∨
      ∃ s', turn s = .inl s' ∧ s.1 < s'.1 ∧ s'.1 ≤ length ∧ answer s = answer s') (s : Nat × σ) :
    ∃ n ≤ length - s.1 + 1, Halts turn s n (answer s) := by
  -- on what is left of the text
  induction hleft : length - s.1 using Nat.strong_induction_on generalizing s with
  | _ left ih =>
    rcases h s with hdone | ⟨s', hnext, hlt, hle, hanswer⟩
    · exact ⟨1, by omega, .done hdone⟩
    · obtain ⟨n, hn, hhalts⟩ := ih (length - s'.1) (by omega) s' rfl
      rw [hanswer]
      exact ⟨n + 1, by omega, .next hnext hhalts⟩

end Loops

/-! ### Positions -/

theorem drop_add_of_drop_eq {t u v : Text} {i : Nat} (h : t.drop i = u ++ v) (hu : u ≠ []) :
    i < i + u.length ∧ i + u.length ≤ t.length ∧ t.drop (i + u.length) = v := by
  have hlength := congrArg List.length h
  have hpos := length_pos_iff.mpr hu
  rw [length_drop, length_append] at hlength
  refine ⟨by omega, by omega, ?_⟩
  rw [← drop_drop, h, drop_left]

/-- **A literal ends behind its quote and within the text**, or the text is malformed. -/
theorem yields_literalEnd (t : Text) (i : Nat) :
    Yields (fun j => i < j ∧ j ≤ t.length) (literalEnd t i) := by
  unfold literalEnd
  split
  · rename_i literal rest h
    obtain ⟨happend, hne⟩ := Text.takeLiteral_append h
    obtain ⟨hlt, hle, -⟩ := drop_add_of_drop_eq happend hne
    exact ⟨hlt, hle⟩
  · exact category_unclosedLiteral _

/-! ### Readers of lexemes -/

/-- The lexeme at a position, and the position after it; there is none at the end of the text. -/
def lexemeAt (comments : Bool) (t : Text) (i : Nat) : Except SchemaError (Option (Lexeme × Nat)) :=
  match t.drop i with
  | [] => .ok none
  | c :: cs =>
      if c == '"' then (fun j => some (.literal ((c :: cs).take (j - i)), j)) <$> literalEnd t i
      else if comments && c == '#' then
        .ok (some (.comment ((c :: cs).take (commentEnd t i - i)), commentEnd t i))
      else .ok (some (.char c, i + 1))

/-- What may stand at a position of a text, and where it ends. -/
inductive Stands (comments : Bool) (t : Text) (i : Nat) :
    Except SchemaError (Option (Lexeme × Nat)) → Prop where
  | nil (h : t.drop i = []) : Stands comments t i (.ok none)
  | unclosed {cs : Text} (h : t.drop i = '"' :: cs) (hnone : Text.takeLiteral ('"' :: cs) = none) :
      Stands comments t i (.error (unclosedLiteral ('"' :: cs)))
  | literal {cs s : Text} {j : Nat} (h : t.drop i = '"' :: cs)
      (hliteral : Text.takeLiteral ('"' :: cs) = some (s, t.drop j)) (hlt : i < j)
      (hle : j ≤ t.length) :
      Stands comments t i (.ok (some (.literal s, j)))
  | comment {cs : Text} {j : Nat} (hcomments : comments = true) (h : t.drop i = '#' :: cs)
      (hrest : cs.dropWhile (· != '\n') = t.drop j) (hlt : i < j) (hle : j ≤ t.length) :
      Stands comments t i (.ok (some (.comment ('#' :: cs.takeWhile (· != '\n')), j)))
  | char {c : Char} {j : Nat} (hquote : c ≠ '"') (hhash : comments = true → c ≠ '#')
      (h : t.drop i = c :: t.drop j)
      (hlt : i < j) (hle : j ≤ t.length) : Stands comments t i (.ok (some (.char c, j)))

/-- **The lexeme at a position ends behind it and within the text.** -/
theorem stands_lexemeAt (comments : Bool) (t : Text) (i : Nat) :
    Stands comments t i (lexemeAt comments t i) := by
  unfold lexemeAt
  cases hd : t.drop i with
  | nil => exact .nil hd
  | cons c cs =>
    dsimp only
    by_cases hquote : c = '"'
    · subst hquote
      rw [if_pos (beq_self_eq_true _), literalEnd, hd]
      cases hliteral : Text.takeLiteral ('"' :: cs) with
      | none => exact .unclosed hd hliteral
      | some r =>
        obtain ⟨happend, hne⟩ := Text.takeLiteral_append hliteral
        obtain ⟨hlt, hle, hdrop⟩ := drop_add_of_drop_eq (hd.trans happend) hne
        have htake : ('"' :: cs).take (i + r.1.length - i) = r.1 := by
          rw [Nat.add_sub_cancel_left, happend, take_left]
        simp only [Functor.map, Except.map, htake]
        exact .literal hd (by rw [hliteral, hdrop]) hlt hle
    rw [if_neg (mt beq_iff_eq.mp hquote)]
    by_cases hhash : comments ∧ c = '#'
    · obtain ⟨rfl, rfl⟩ := hhash
      have happend : '#' :: cs = ('#' :: cs.takeWhile (· != '\n')) ++ cs.dropWhile (· != '\n') := by
        rw [cons_append, takeWhile_append_dropWhile]
      obtain ⟨hlt, hle, hdrop⟩ := drop_add_of_drop_eq (hd.trans happend) (cons_ne_nil _ _)
      have hend : commentEnd t i = i + ('#' :: cs.takeWhile (· != '\n')).length := by
        rw [commentEnd, hd, Text.spanLine, span_eq_takeWhile_dropWhile]
        exact Nat.min_eq_right hle
      have htake : ('#' :: cs).take (commentEnd t i - i) = '#' :: cs.takeWhile (· != '\n') := by
        rw [hend, Nat.add_sub_cancel_left]
        conv_lhs => rw [happend]
        exact take_left
      rw [if_pos (by decide), htake, hend]
      exact .comment rfl hd hdrop.symm hlt hle
    · obtain ⟨hlt, hle, hdrop⟩ := drop_add_of_drop_eq (u := [c]) hd (cons_ne_nil _ _)
      rw [if_neg (by simpa using hhash)]
      exact .char hquote (fun hcomments hc => hhash ⟨hcomments, hc⟩)
        (hd.trans (congrArg (c :: ·) hdrop.symm)) hlt hle

theorem lex_unclosed {cs : Text} (h : Text.takeLiteral ('"' :: cs) = none) (comments : Bool) :
    lex comments ('"' :: cs) = [.unclosed ('"' :: cs)] := by
  refine (lex_quote_cases comments cs).resolve_left ?_
  rintro ⟨literal, rest, hliteral, -⟩
  rw [h] at hliteral
  cases hliteral

theorem Stands.lex {comments : Bool} {t : Text} {i j : Nat} {l : Lexeme}
    (h : Stands comments t i (.ok (some (l, j)))) :
    i < j ∧ j ≤ t.length ∧ Schemata.lex comments (t.drop i) =
      l :: Schemata.lex comments (t.drop j) ∧ ∀ u, l ≠ .unclosed u := by
  cases h with
  | literal h hliteral hlt hle => exact ⟨hlt, hle, by rw [h, lex_literal hliteral], by simp⟩
  | comment hcomments h hrest hlt hle =>
      exact ⟨hlt, hle, by rw [h, hcomments, lex_hash, hrest], by simp⟩
  | @char c _ hquote hhash h hlt hle =>
    refine ⟨hlt, hle, ?_, by simp⟩
    rw [h, Schemata.lex, if_neg (mt beq_iff_eq.mp hquote), if_neg (by simpa using hhash)]

/-- A reader of lexemes, with a state and a result. -/
structure Reader (σ α : Type) where
  comments : Bool
  /-- What is done with a lexeme, the text after it being known: the reader goes on, or has its
  result. -/
  step : σ → Lexeme → Text → Except SchemaError (σ ⊕ α)
  finish : σ → Except SchemaError α

namespace Reader

variable {σ α : Type}

/-- One turn of the loop of a reader over the positions of a text. -/
def turn (r : Reader σ α) (t : Text) (s : Nat × σ) : (Nat × σ) ⊕ Except SchemaError α :=
  match lexemeAt r.comments t s.1 with
  | .error e => .inr (.error e)
  | .ok none => .inr (r.finish s.2)
  | .ok (some (l, j)) =>
      match r.step s.2 l (t.drop j) with
      | .error e => .inr (.error e)
      | .ok (.inl s') => .inl (j, s')
      | .ok (.inr a) => .inr (.ok a)

/-- The reader does, lexeme by lexeme, what `read` does with all of them. -/
structure Reads (r : Reader σ α) (read : σ → List Lexeme → Except SchemaError α) : Prop where
  nil : ∀ s, read s [] = r.finish s
  unclosed : ∀ s u, read s [.unclosed u] = .error (unclosedLiteral u)
  cons : ∀ s l u, (∀ v, l ≠ .unclosed v) →
    read s (l :: lex r.comments u) = r.step s l u >>=
      Sum.elim (fun s' => read s' (lex r.comments u)) .ok

/-- **The loop of a reader comes to an end**, with what is read from the lexemes of the text. -/
theorem Reads.halts {r : Reader σ α} {read : σ → List Lexeme → Except SchemaError α}
    (h : r.Reads read) (t : Text) (i : Nat) (s : σ) :
    ∃ n ≤ t.length - i + 1, Halts (r.turn t) (i, s) n (read s (lex r.comments (t.drop i))) := by
  refine @halts_of_moves _ _ _ _ (fun s => read s.2 (lex r.comments (t.drop s.1)))
    (fun s => ?_) (i, s)
  have hstands := stands_lexemeAt r.comments t s.1
  unfold turn
  generalize lexemeAt r.comments t s.1 = found at hstands
  rcases found with e | _ | ⟨l, j⟩
  · cases hstands with
    | unclosed hd hnone => exact .inl (by rw [hd, lex_unclosed hnone, h.unclosed])
  · cases hstands with
    | nil hd => exact .inl (by rw [hd, lex_nil, h.nil])
  · obtain ⟨hlt, hle, hlex, hl⟩ := hstands.lex
    simp only [hlex, h.cons s.2 l (t.drop j) hl]
    cases r.step s.2 l (t.drop j) with
    | error e => exact .inl rfl
    | ok result =>
      cases result with
      | inl s' => exact .inr ⟨(j, s'), rfl, hlt, hle, rfl⟩
      | inr a => exact .inl rfl

def strip : Reader Text Text where
  comments := true
  step out l _ := .ok (.inl (match l with | .comment _ => out | l => out ++ l.text))
  finish := .ok

/-- Counts the braces, and notes the state of every line. -/
def lines : Reader (Nat × List LineState) (List LineState) where
  comments := true
  step s l _ := .ok (.inl (match l with
    | .literal u => (s.1, s.2 ++ List.replicate (u.count '\n') ⟨s.1, true⟩)
    | .char c => if c == '\n' then (s.1, s.2 ++ [⟨s.1, false⟩]) else (bracesAfter s.1 c, s.2)
    | _ => s))
  finish s := .ok s.2

/-- Reduces white space; knows whether anything has been written, and whether white space came after
it. -/
def collapse : Reader (Bool × Bool × Text) Text where
  comments := false
  step s l _ := .ok (.inl (match l with
    | .char c =>
        if isBlank c then (s.1, true, s.2.2)
        else (true, false, s.2.2 ++ if s.1 && s.2.1 then [' ', c] else [c])
    | l => (true, false, s.2.2 ++ if s.1 && s.2.1 then ' ' :: l.text else l.text)))
  finish s := .ok s.2.2

def cut (target : Char → Bool) : Reader (Nat × Text) (Option (Text × Text)) where
  comments := false
  step s l rest := .ok (match l with
    | .char c =>
        if s.1 == 0 && target c then .inr (some (s.2, c :: rest))
          else .inl (depthAfter s.1 c, s.2 ++ [c])
    | l => .inl (s.1, s.2 ++ l.text))
  finish _ := .ok none

def items (enum : Bool) : Reader Body (List Text) where
  comments := true
  step b l rest := Sum.inl <$> match l with
    | .literal u => .ok (b.literal u)
    | .comment u => b.comment u
    | .char c => b.char enum c (lex true rest)
    | .unclosed u => .error (unclosedLiteral u)
  finish b := Body.items <$> b.flush

theorem append_nil_map {β : Type} (x : Except SchemaError (List β)) : ([] ++ ·) <$> x = x := by
  cases x with
  | error e => rfl
  | ok a => rfl

theorem append_map_append {β : Type} (a b : List β) (x : Except SchemaError (List β)) :
    (a ++ ·) <$> ((b ++ ·) <$> x) = ((a ++ b) ++ ·) <$> x := by
  cases x with
  | error e => rfl
  | ok c => exact congrArg Except.ok (append_assoc a b c).symm

theorem reads_strip : strip.Reads fun out ls => (out ++ ·) <$> Lexeme.stripComments ls where
  nil out := congrArg Except.ok (append_nil out)
  unclosed _ _ := rfl
  cons out l u hl := by
    cases l with
    | unclosed v => exact absurd rfl (hl v)
    | comment v => rfl
    | char c => exact append_map_append out [c] _
    | literal v => exact append_map_append out v _

theorem reads_lines : lines.Reads fun s ls => (s.2 ++ ·) <$> Lexeme.lineStates s.1 ls where
  nil s := congrArg Except.ok (append_nil s.2)
  unclosed _ _ := rfl
  cons s l u hl := by
    cases l with
    | unclosed v => exact absurd rfl (hl v)
    | comment v => rfl
    | literal v => exact append_map_append s.2 _ _
    | char c =>
      simp only [lines, Lexeme.lineStates]
      split
      · exact append_map_append s.2 [_] _
      · rfl

theorem reads_collapse :
    collapse.Reads fun s ls => (s.2.2 ++ ·) <$> Lexeme.collapse s.1 s.2.1 ls where
  nil s := congrArg Except.ok (append_nil s.2.2)
  unclosed _ _ := rfl
  cons s l u hl := by
    cases l with
    | unclosed v => exact absurd rfl (hl v)
    | comment v | literal v => exact append_map_append s.2.2 _ _
    | char c =>
      simp only [collapse, Lexeme.collapse]
      split
      · rfl
      · exact append_map_append s.2.2 _ _

theorem reads_cut (target : Char → Bool) :
    (cut target).Reads fun s ls => prepend s.2 <$> Lexeme.cutAt target s.1 ls where
  nil _ := rfl
  unclosed _ _ := rfl
  cons s l u hl := by
    cases l with
    | unclosed v => exact absurd rfl (hl v)
    | comment v | literal v => exact prepend_prepend s.2 _ _
    | char c =>
      simp only [cut, Lexeme.cutAt]
      split
      · simp [Functor.map, Except.map, prepend, bind, Except.bind]
      · exact prepend_prepend s.2 _ _

theorem reads_items (enum : Bool) :
    (items enum).Reads fun b ls => Body.items <$> b.read enum ls where
  nil _ := rfl
  unclosed _ _ := rfl
  cons b l u hl := by
    cases l with
    | unclosed v => exact absurd rfl (hl v)
    | literal v => rfl
    | comment v =>
      simp only [items, Body.read]
      cases b.comment v <;> rfl
    | char c =>
      simp only [items, Body.read]
      cases b.char enum c (lex true u) <;> rfl

end Reader

/-! ### The reader of statements -/

/-- One turn of the reading of a schema; the state is the last description, and what has been
read. -/
def scanTurn (t : Text) (s : Nat × Option Text × Scan) : (Nat × Option Text × Scan) ⊕ Scan :=
  match lexemeAt true t s.1 with
  | .error e => .inr (s.2.2.followedBy { failure := some e })
  | .ok none => .inr (s.2.2.followedBy {})
  | .ok (some (.literal u, j)) => .inl (j, some u, s.2.2)
  | .ok (some (.comment _, j)) | .ok (some (.unclosed _, j)) => .inl (j, s.2)
  | .ok (some (.char c, j)) =>
      if isBlank c || c == ',' then .inl (j, s.2)
      else
        match Statement.read (t.drop s.1) with
        | .error e => .inr (s.2.2.followedBy { failure := some e })
        | .ok (statement, rest) =>
            .inl (t.length - rest.length, none, s.2.2.followedBy (({} : Scan).add s.2.1 statement))

theorem drop_of_suffix {t rest : Text} {i : Nat} (h : rest <:+ t.drop i)
    (hlt : rest.length < (t.drop i).length) :
    i < t.length - rest.length ∧ t.length - rest.length ≤ t.length ∧
      t.drop (t.length - rest.length) = rest := by
  rw [length_drop] at hlt
  refine ⟨by omega, Nat.sub_le _ _, ?_⟩
  exact (suffix_iff_eq_drop.mp (h.trans (drop_suffix i t))).symm

theorem Scan.followedBy_add (x y : Scan) (d : Option Text) (s : Statement) :
    x.followedBy (y.add d s) = (x.followedBy (({} : Scan).add d s)).followedBy y := by
  cases s with
  | declared f => simp [followedBy, add]
  | skipped line => simp [followedBy, add]

theorem scanFrom_unclosed {cs : Text} (h : Text.takeLiteral ('"' :: cs) = none) (d : Option Text) :
    scanFrom d ('"' :: cs) = { failure := some (unclosedLiteral ('"' :: cs)) } := by
  rw [scanFrom, if_neg (by decide), if_neg (by decide), if_pos (by decide)]
  split
  · rename_i heq
    rw [h] at heq
    cases heq
  · rfl

/-- **The reading of a schema comes to an end.** -/
theorem halts_scan (t : Text) :
    ∃ n ≤ t.length + 1, Halts (scanTurn t) (0, none, {}) n (scan t) := by
  refine @halts_of_moves _ _ _ t.length
    (fun s : Nat × Option Text × Scan => s.2.2.followedBy (scanFrom s.2.1 (t.drop s.1)))
      (fun s => ?_) (0, none, {})
  obtain ⟨i, d, x⟩ := s
  have hstands := stands_lexemeAt true t i
  unfold scanTurn
  dsimp only
  generalize lexemeAt true t i = found at hstands
  cases hstands with
  | nil hd =>
    rw [hd, scanFrom]
    exact .inl rfl
  | unclosed hd hnone =>
    rw [hd, scanFrom_unclosed hnone]
    exact .inl rfl
  | @literal cs u j hd hliteral hlt hle =>
    rw [hd, scanFrom_quote d hliteral]
    exact .inr ⟨(j, some u, x), rfl, hlt, hle, rfl⟩
  | @comment cs j _ hd hrest hlt hle =>
    rw [hd, scanFrom_hash, hrest]
    exact .inr ⟨(j, d, x), rfl, hlt, hle, rfl⟩
  | @char c j hquote hhash hd hlt hle =>
    dsimp only
    split
    · rename_i hblank
      rw [hd, scanFrom_blank hblank]
      exact .inr ⟨(j, d, x), rfl, hlt, hle, rfl⟩
    · rename_i hblank
      have hstart := startsStatement_of_not hblank (mt beq_iff_eq.mp (hhash rfl))
        (mt beq_iff_eq.mp hquote)
      have hscan := hd ▸ scanFrom_statement d hstart
      rw [hscan]
      cases hread : Statement.read (t.drop i) with
      | error e => exact .inl rfl
      | ok r =>
        obtain ⟨hsuffix, hshorter⟩ := Statement.read_suffix hread
        obtain ⟨hlt, hle, hdrop⟩ := drop_of_suffix hsuffix hshorter
        refine .inr ⟨_, rfl, hlt, hle, ?_⟩
        rw [hdrop]
        exact x.followedBy_add _ d r.1

/-! ### All loops -/

theorem Lexeme.yields_lineStates (depth : Nat) (ls : List Lexeme) :
    Yields (fun _ => True) (Lexeme.lineStates depth ls) := by
  fun_induction Lexeme.lineStates depth ls with
  | case1 => trivial
  | case2 => exact category_unclosedLiteral _
  | case3 _ _ _ ih | case6 _ _ _ _ ih => exact ih
  | case4 _ _ _ ih | case5 _ _ _ _ ih => exact ih.map _ fun _ _ => ⟨⟩

theorem category_of_scanFrom (d : Option Text) (t : Text) :
    ∀ e ∈ (scanFrom d t).failure, e.category = .malformed := by
  fun_induction scanFrom d t with
  | case1 => simp
  | case2 _ _ _ _ ih | case3 _ _ _ _ _ ih | case4 _ _ _ _ _ _ _ _ _ ih => exact ih
  | case5 =>
    rintro e ⟨⟩
    exact category_unclosedLiteral _
  | case6 d c cs _ _ _ s rest _ ih =>
    cases s with
    | declared f => exact ih
    | skipped line => exact ih
  | case7 d c cs _ _ _ e hread =>
    rintro e ⟨⟩
    exact (Statement.yields_read _).of_eq_error hread

/-- The loop takes at most one turn for each character from its position on and one more.  Its
answer is a result, or the text is refused as malformed. -/
def EndsIn {σ α : Type} (t : Text) (turn : Nat × σ → (Nat × σ) ⊕ Except SchemaError α) (s : Nat × σ)
    (x : Except SchemaError α) : Prop :=
  (∃ n ≤ t.length - s.1 + 1, Halts turn s n x) ∧ Yields (fun _ => True) x

/-- All loops over the positions of a text come to an end. -/
structure ReadingEnds (t : Text) : Prop where
  /-- A statement ends behind its start and within the text. -/
  statement : ∀ i, Yields (fun r => ∃ j, i < j ∧ j ≤ t.length ∧ t.drop j = r.2)
    (Statement.read (t.drop i))
  literal : ∀ i, Yields (fun j => i < j ∧ j ≤ t.length) (literalEnd t i)
  scan : (∃ n ≤ t.length + 1, Halts (scanTurn t) (0, none, {}) n (scan t)) ∧
    ∀ e ∈ (scan t).failure, e.category = .malformed
  strip : EndsIn t (Reader.strip.turn t) (0, []) (stripComments t)
  lines : EndsIn t (Reader.lines.turn t) (0, 0, [{}]) (lineStates t)
  collapse : EndsIn t (Reader.collapse.turn t) (0, false, false, []) (collapse t)
  cut : ∀ target i, EndsIn t ((Reader.cut target).turn t) (i, 0, []) (cutAt target (t.drop i))
  items : ∀ enum, EndsIn t ((Reader.items enum).turn t) (0, {}) (bodyItems enum (lex true t))

/-- **The reading of every text comes to an end**, and is refused at most as malformed. -/
theorem reading_ends (t : Text) : ReadingEnds t where
  statement i := (Statement.yields_read (t.drop i)).imp fun _ h => ⟨_, drop_of_suffix h.1 h.2⟩
  literal i := yields_literalEnd t i
  scan := ⟨halts_scan t, category_of_scanFrom none t⟩
  strip := ⟨Reader.append_nil_map (stripComments t) ▸ Reader.reads_strip.halts t 0 [],
    Lexeme.yields_stripComments _⟩
  lines := ⟨Reader.reads_lines.halts t 0 (0, [{}]),
    (Lexeme.yields_lineStates _ _).map _ fun _ _ => ⟨⟩⟩
  collapse :=
    ⟨Reader.append_nil_map (Schemata.collapse t) ▸ Reader.reads_collapse.halts t 0 (false, false,
      []), Lexeme.yields_collapse _ _ _⟩
  cut target i :=
    ⟨prepend_nil (cutAt target (t.drop i)) ▸ (Reader.reads_cut target).halts t i (0, []),
      (Lexeme.yields_cutAt _ _ _).imp fun _ _ => ⟨⟩⟩
  items enum := ⟨(Reader.reads_items enum).halts t 0 {},
    (Body.yields_read enum {} _).map _ fun _ _ => ⟨⟩⟩

end Schemata
