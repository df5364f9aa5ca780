import Mathlib.Data.List.Sort
import Schemata.Proofs.FirstLines
import Schemata.Proofs.KeptHeaders

/-!
# The rows of declarations

A schema is read statement by statement, and its comments are looked for line by line.  If every
declaration starts a line, outside of braces and literals, and has its name and type parameters
there, and if no other line is a header, then the lines that hold headers are those on which
declarations start, in their order, and they say what the declarations are called.
-/

namespace Schemata

open List
open Resolve (Gives)

variable {rows : List (Text × LineState)} {t u : Text}

/-! ### The texts of declarations -/

/-- Whether a declaration is read from the start of a text. -/
def declares (t : Text) : Bool :=
  match Statement.read t with
  | .ok (.declared _, _) => true
  | _ => false

/-- The texts that a schema reads its declarations from, each up to the end of the schema. -/
def declaredTexts (t : Text) : List Text :=
  (statementTexts t).filter declares

theorem declares_eq_true {rest : Text} {f : Fragment}
    (h : Statement.read t = .ok (.declared f, rest)) : declares t := by
  rw [declares, h]

theorem declares_eq_false {rest line : Text} (h : Statement.read t = .ok (.skipped line, rest)) :
    declares t = false := by
  rw [declares, h]

/-- The statement of a fragment, its description aside. -/
def IsReadFrom (u : Text) (f : Fragment) : Prop :=
  ∃ rest description, Statement.read u = .ok (.declared { f with description }, rest)

theorem forall₂_isReadFrom {d : Option Text} (h : (scanFrom d t).failure = none) :
    Forall₂ IsReadFrom (declaredTexts t) (scanFrom d t).fragments := by
  unfold declaredTexts
  fun_induction scanFrom d t with
  | case1 =>
    rw [statementTexts]
    exact .nil
  | case2 d c cs hc ih =>
    rw [statementTexts_blank hc]
    exact ih h
  | case3 d c cs hc hh ih =>
    obtain rfl : c = '#' := by simpa using hh
    rw [statementTexts_hash]
    exact ih h
  | case4 d c cs hc hh hq literal rest hl ih =>
    obtain rfl : c = '"' := by simpa using hq
    rw [statementTexts_quote hl]
    exact ih h
  | case5 => cases h
  | case6 d c cs hc hh hq s rest hs ih =>
    have hstart := startsStatement_of_not hc hh hq
    rw [Scan.failure_add] at h
    rw [statementTexts_statement hstart, hs]
    cases s with
    | declared f =>
      rw [filter_cons_of_pos (declares_eq_true hs)]
      exact .cons ⟨rest, f.description, hs⟩ (ih h)
    | skipped line =>
      rw [filter_cons_of_neg (by rw [declares_eq_false hs]; exact Bool.false_ne_true)]
      exact ih h
  | case7 => cases h

theorem pairwise_statementTexts (t : Text) :
    (statementTexts t).Pairwise fun u v => v <:+ u ∧ v.length < u.length := by
  fun_induction statementTexts t with
  | case1 => exact .nil
  | case2 c cs hc ih => exact ih
  | case3 c cs hc hh ih => exact ih
  | case4 c cs hc hh hq literal rest hl ih => exact ih
  | case5 => exact .nil
  | case6 c cs hc hh hq ih =>
    refine pairwise_cons.mpr ?_
    split
    · rename_i s rest hs
      refine ⟨fun v hv => ?_, ih s rest hs⟩
      have hsuffix := (of_mem_statementTexts hv).1
      obtain ⟨hread, hlength⟩ := Statement.read_suffix hs
      exact ⟨hsuffix.trans hread, lt_of_le_of_lt hsuffix.length_le hlength⟩
    · exact ⟨forall_mem_nil _, .nil⟩

/-! ### What declarations are called -/

/-- What a declaration is called, and whether it extends another. -/
structure Heading where
  kind : Kind
  name : Text
  isExtend : Bool
  deriving DecidableEq

def Declaration.heading (d : Declaration) : Heading :=
  ⟨d.kind, d.name, d.isExtend⟩

def Header.heading (h : Header) : Heading :=
  ⟨h.kind, h.name, h.isExtend⟩

/-- The declaration has the kind and name that the header of a fragment says, and no comments
yet. -/
def Fragment.Heads (f : Fragment) (d : Declaration) : Prop :=
  d.comments = none ∧ ∃ g, Header.read f.header = .ok (some g) ∧
    d.heading = ⟨g.kind, g.name, f.isExtend⟩

theorem heads_of_parseFragment {naming : Naming} {annotations : List Annotation} {f : Fragment}
    {d : Declaration} {c c' : Context} (h : Gives (parseFragment naming annotations f) c d c') :
    f.Heads d := by
  unfold parseFragment at h
  simp only [Resolve.gives_bind, Resolve.gives_ofExcept] at h
  obtain ⟨o, _, ⟨hheader, rfl⟩, h⟩ := h
  cases o with
  | none => exact absurd h Resolve.not_gives_refuse
  | some g =>
    suffices hparsed : d.comments = none ∧ d.heading = ⟨g.kind, g.name, f.isExtend⟩ from
      ⟨hparsed.1, g, hheader, hparsed.2⟩
    dsimp only at h
    rw [Resolve.gives_ite_refuse] at h
    obtain ⟨-, h⟩ := h
    split_ifs at h
    · unfold parseUnion at h
      simp only [Resolve.gives_bind, Resolve.gives_ofExcept] at h
      obtain ⟨o, _, ⟨-, rfl⟩, h⟩ := h
      split at h
      · obtain ⟨rfl, rfl⟩ := Resolve.gives_pure.mp h
        exact ⟨rfl, rfl⟩
      · simp only [Resolve.gives_bind, Resolve.gives_ofExcept, Resolve.gives_pure] at h
        obtain ⟨parts, _, ⟨-, rfl⟩, ms, c₁, -, rfl, rfl⟩ := h
        exact ⟨rfl, rfl⟩
    · obtain ⟨rfl, rfl⟩ := Resolve.gives_pure.mp h
      exact ⟨rfl, rfl⟩
    · simp only [Resolve.gives_bind, Resolve.gives_ofExcept, Resolve.gives_pure] at h
      obtain ⟨d', _, ⟨hd', rfl⟩, r, c₁, -, rfl, rfl⟩ := h
      rw [parseClauses_eq hd']
      exact ⟨rfl, rfl⟩

theorem forall₂_heads {naming : Naming} {annotations : List Annotation} {fs : List Fragment}
    {ds : List Declaration} {c c' : Context}
    (h : Gives (parseFragments naming annotations fs) c ds c') : Forall₂ Fragment.Heads fs ds := by
  unfold parseFragments at h
  simp only [Resolve.gives_bind, Resolve.gives_tell, Resolve.gives_pure] at h
  obtain ⟨ds', c₁, hds, _, _, rfl, rfl, rfl⟩ := h
  refine (Resolve.Gives.mapM (I := fun _ => True) (L := fun _ _ => True) (Q :=
    fun f d _ => f.Heads d)
    (fun _ => trivial) (fun _ _ => trivial) (fun _ hq => hq) ?_ trivial hds).2.2
  intro f _ c₂ d c₃ _ hd
  exact ⟨trivial, trivial, heads_of_parseFragment hd⟩

/-! ### Lines on which declarations start -/

/-- What stands before an end part of a text. -/
def Text.before (t u : Text) : Text :=
  t.take (t.length - u.length)

/-- The number of the line on which an end part of a text starts. -/
def rowOf (t u : Text) : Nat :=
  (t.before u).count '\n'

/-- An end part of a text starts a line: only white space stands before it on its line, and the
lines above leave no literal and no brace open. -/
structure StartsLine (t u : Text) : Prop where
  blank : ∀ line ∈ (t.before u).lines.getLast?, line.trim = []
  closed : finalDepth 0 (lex true (Text.ofLines (t.before u).lines.dropLast)) = some 0

instance (t u : Text) : Decidable (StartsLine t u) :=
  decidable_of_iff ((∀ line ∈ (t.before u).lines.getLast?, line.trim = []) ∧
    finalDepth 0 (lex true (Text.ofLines (t.before u).lines.dropLast)) = some 0)
    ⟨fun h => ⟨h.1, h.2⟩, fun h => ⟨h.blank, h.closed⟩⟩

theorem before_append (h : u <:+ t) : t.before u ++ u = t := by
  obtain ⟨s, rfl⟩ := h
  simp [Text.before]

theorem lines_eq_takeWhile_cons (t : Text) : ∃ rest, t.lines = t.takeWhile (· != '\n') :: rest := by
  induction t with
  | nil => exact ⟨[], rfl⟩
  | cons c t ih =>
    obtain ⟨rest, hrest⟩ := ih
    by_cases hc : c = '\n'
    · subst hc
      exact ⟨Text.lines t, rfl⟩
    · have hlines := lines_append_cons (s := [c]) (by simpa using Ne.symm hc) hrest
      have htake : (c :: t).takeWhile (· != '\n') = [c] ++ t.takeWhile (· != '\n') :=
        takeWhile_cons_of_pos (by simpa using hc)
      rw [htake]
      exact ⟨rest, hlines⟩

theorem linesFrom_eq_cons (h : linesFrom 0 t = .ok rows) :
    ∃ below, rows = (t.takeWhile (· != '\n'), ⟨0, false⟩) :: below := by
  obtain ⟨states, -, rfl⟩ := map_eq_ok h
  obtain ⟨rest, hrest⟩ := lines_eq_takeWhile_cons t
  rw [hrest, attachStates]
  exact ⟨_, rfl⟩

/-- Below lines that close their literals and braces, rows are those of the rest of the text. -/
theorem linesFrom_ofLines_append {front : List Text} (hne : front ≠ [])
    (hplain : ∀ line ∈ front, '\n' ∉ line)
    (hclosed : finalDepth 0 (lex true (Text.ofLines front)) = some 0) {x : Text}
    (h : linesFrom 0 (Text.ofLines front ++ '\n' :: x) = .ok rows) :
    ∃ above below, rows = above ++ below ∧ above.length = front.length ∧
      linesFrom 0 x = .ok below := by
  have hcomments : ∀ c, Lexeme.comment c ∈ lex true (Text.ofLines front) → '\n' ∉ c :=
    fun c hc => newline_not_mem_comment hc
  obtain ⟨first, more, habove, -, hfrom⟩ := linesFrom_append
    (passesLines_of_finalDepth hcomments hclosed) (lex_append_newline hclosed)
  rw [hfrom] at h
  obtain ⟨below, hbelow, rfl⟩ := map_eq_ok h
  refine ⟨(first, ⟨0, false⟩) :: more, below, rfl, ?_, hbelow⟩
  rw [lines_ofLines hne hplain] at habove
  rw [habove, length_cons, length_cons, length_map]

/-- **The row of a declaration that starts a line** is outside of braces and literals, and holds the
first line of the declaration. -/
theorem StartsLine.rows_eq_append (h : StartsLine t u) (hu : u <:+ t)
    (hrows : linesWithStates t = .ok rows) :
    ∃ above pad below, rows = above ++ (pad ++ u.takeWhile (· != '\n'), ⟨0, false⟩) :: below ∧
      above.length = rowOf t u ∧ ∀ c ∈ pad, isBlank c := by
  obtain ⟨front, pad, hlines⟩ :=
    (eq_nil_or_concat' (t.before u).lines).resolve_left (lines_ne_nil _)
  have hpad : ∀ c ∈ pad, isBlank c :=
    trim_eq_nil_iff.mp (h.blank pad (by rw [hlines, getLast?_concat]; rfl))
  have hclosed := h.closed
  rw [hlines, dropLast_concat] at hclosed
  have hlast : ∀ {l}, l ∈ (t.before u).lines → '\n' ∉ l := newline_not_mem_of_mem_lines
  rw [hlines] at hlast
  have hcount : front.length = rowOf t u := by
    have := length_lines (t.before u)
    rw [hlines, length_append, length_singleton] at this
    exact Nat.succ.inj this
  have hfirst : (pad ++ u).takeWhile (· != '\n') = pad ++ u.takeWhile (· != '\n') := by
    refine takeWhile_append_of_pos fun c hc => ?_
    rw [bne_iff_ne]
    rintro rfl
    exact hlast (mem_append_right front mem_cons_self) hc
  have hbefore := ofLines_lines (t.before u)
  rw [hlines] at hbefore
  rw [linesWithStates_eq, ← before_append hu, ← hbefore] at hrows
  cases front with
  | nil =>
    rw [nil_append] at hrows
    obtain ⟨below, rfl⟩ := linesFrom_eq_cons hrows
    refine ⟨[], pad, below, ?_, hcount, hpad⟩
    rw [nil_append, ← hfirst]
    rfl
  | cons line front =>
    have hsplit : Text.ofLines (line :: front ++ [pad]) ++ u =
        Text.ofLines (line :: front) ++ '\n' :: (pad ++ u) := by
      have hlast : Text.ofLines [pad] = pad := rfl
      rw [ofLines_append (cons_ne_nil _ _), ← ofLines_append_newline (cons_ne_nil _ _), hlast]
      simp
    rw [hsplit] at hrows
    obtain ⟨above, rows', rfl, hlength, hrows'⟩ := linesFrom_ofLines_append (cons_ne_nil line front)
      (fun l hl => hlast (mem_append_left _ hl)) hclosed hrows
    obtain ⟨below, rfl⟩ := linesFrom_eq_cons hrows'
    exact ⟨above, pad, below, by rw [hfirst], hlength.trans hcount, hpad⟩

theorem lines_append_of_not_mem {x w pad : Text} {front : List Text} (hx : x.lines = front ++ [pad])
    (hw : '\n' ∉ w) : Text.lines (x ++ w) = front ++ [pad ++ w] := by
  have hlines : ∀ {l}, l ∈ front ++ [pad] → '\n' ∉ l := by
    rw [← hx]
    exact newline_not_mem_of_mem_lines
  have hwhole : x ++ w = Text.ofLines (front ++ [pad ++ w]) := by
    rw [← ofLines_lines x, hx, ofLines_append (cons_ne_nil _ _), ofLines_append (cons_ne_nil _ _),
      append_assoc]
    rfl
  rw [hwhole]
  refine lines_ofLines (by simp) fun l hl => ?_
  rcases mem_append.mp hl with hl | hl
  · exact hlines (mem_append_left _ hl)
  · rw [mem_singleton.mp hl, mem_append, not_or]
    exact ⟨hlines (mem_append_right _ mem_cons_self), hw⟩

theorem StartsLine.rowOf_lt {v : Text} (hu : u ∈ statementTexts t) (hv : v ∈ statementTexts t)
    (hsuffix : v <:+ u) (hlength : v.length < u.length) (h : StartsLine t v) :
    rowOf t u < rowOf t v := by
  obtain ⟨w, rfl⟩ := hsuffix
  have hut := before_append (of_mem_statementTexts hu).1
  have hvt := before_append (of_mem_statementTexts hv).1
  have hbefore : t.before v = t.before (w ++ v) ++ w := by
    rw [← append_assoc] at hut
    exact append_cancel_right (hvt.trans hut.symm)
  have hmem : '\n' ∈ w := by
    by_contra hw
    -- the first character of the earlier one would stand before the later one
    obtain ⟨front, pad, hlines⟩ :=
      (eq_nil_or_concat' (t.before (w ++ v)).lines).resolve_left (lines_ne_nil _)
    have hlast := h.blank (pad ++ w)
    rw [hbefore, lines_append_of_not_mem hlines hw, getLast?_concat] at hlast
    have hblank := trim_eq_nil_iff.mp (hlast rfl)
    obtain ⟨-, c, cs, hcs, hc⟩ := of_mem_statementTexts hu
    cases w with
    | nil => exact absurd hlength (lt_irrefl _)
    | cons d w =>
      obtain rfl : d = c := (List.cons.inj hcs).1
      rw [hblank d (mem_append_right pad mem_cons_self)] at hc
      cases hc
  have hpos := count_pos_iff.mpr hmem
  unfold rowOf
  rw [hbefore, count_append]
  omega

/-! ### The rows that hold headers -/

/-- The headers of rows, each with the number of its row; the first row has the number `k`. -/
def headersFrom (k : Nat) : List (Text × LineState) → List (Nat × Header)
  | [] => []
  | r :: rows =>
      match rowHeader r with
      | .ok (some h) => (k, h) :: headersFrom (k + 1) rows
      | _ => headersFrom (k + 1) rows

theorem headersFrom_some {k : Nat} {r : Text × LineState} {h : Header}
    (hr : rowHeader r = .ok (some h)) (rows : List (Text × LineState)) :
    headersFrom k (r :: rows) = (k, h) :: headersFrom (k + 1) rows := by
  rw [headersFrom, hr]

theorem headersFrom_none {k : Nat} {r : Text × LineState} (hr : ∀ h, rowHeader r ≠ .ok (some h))
    (rows : List (Text × LineState)) : headersFrom k (r :: rows) = headersFrom (k + 1) rows := by
  rw [headersFrom]
  split
  · rename_i h heq
    exact absurd heq (hr h)
  · rfl

theorem mem_headersFrom {k : Nat} {p : Nat × Header} :
    p ∈ headersFrom k rows ↔ ∃ i r, rows[i]? = some r ∧ rowHeader r = .ok (some p.2) ∧
      p.1 = k + i := by
  induction rows generalizing k with
  | nil => simp [headersFrom]
  | cons r rows ih =>
    have hsplit :
        (∃ i r', (r :: rows)[i]? = some r' ∧ rowHeader r' = .ok (some p.2) ∧ p.1 = k + i) ↔
        (rowHeader r = .ok (some p.2) ∧ p.1 = k) ∨ p ∈ headersFrom (k + 1) rows := by
      rw [ih]
      constructor
      · rintro ⟨i, r', hi, hr', hp⟩
        cases i with
        | zero =>
          obtain rfl : r = r' := by simpa using hi
          exact .inl ⟨hr', hp⟩
        | succ i => exact .inr ⟨i, r', by simpa using hi, hr', by omega⟩
      · rintro (⟨hr, hp⟩ | ⟨i, r', hi, hr', hp⟩)
        · exact ⟨0, r, rfl, hr, hp⟩
        · exact ⟨i + 1, r', by simpa using hi, hr', by omega⟩
    rw [hsplit]
    by_cases hr : ∃ h, rowHeader r = .ok (some h)
    · obtain ⟨h, hr⟩ := hr
      rw [headersFrom_some hr, mem_cons, hr, Except.ok.injEq, Option.some.injEq, Prod.ext_iff,
        and_comm, eq_comm (a := h)]
    · rw [not_exists] at hr
      rw [headersFrom_none hr]
      exact (or_iff_right fun hp => hr _ hp.1).symm

theorem pairwise_headersFrom (k : Nat) (rows : List (Text × LineState)) :
    ((headersFrom k rows).map Prod.fst).Pairwise (· < ·) := by
  induction rows generalizing k with
  | nil => exact .nil
  | cons r rows ih =>
    by_cases hr : ∃ h, rowHeader r = .ok (some h)
    · obtain ⟨h, hr⟩ := hr
      rw [headersFrom_some hr, map_cons]
      refine pairwise_cons.mpr ⟨fun n hn => ?_, ih (k + 1)⟩
      obtain ⟨p, hp, rfl⟩ := mem_map.mp hn
      obtain ⟨i, -, -, -, hpi⟩ := mem_headersFrom.mp hp
      omega
    · rw [not_exists] at hr
      rw [headersFrom_none hr]
      exact ih (k + 1)

/-- The header that the first line of a text holds. -/
def lineHeader? (u : Text) : Option Header :=
  (Header.read (u.takeWhile (· != '\n'))).toOption.join

theorem lineHeader?_eq_some {h : Header} :
    lineHeader? u = some h ↔ Header.read (u.takeWhile (· != '\n')) = .ok (some h) := by
  unfold lineHeader?
  cases Header.read (u.takeWhile (· != '\n')) with
  | error e => exact iff_of_false (by simp [Except.toOption]) (by simp)
  | ok o => simp [Except.toOption]

/-- The first line of a declaration has its name, and its type parameters if there are any, which
are names. -/
def HasFirstLine (u name : Text) : Prop :=
  ∃ h ∈ lineHeader? u, (∀ ps ∈ h.parameters, ∀ p ∈ ps, p.isName = true) ∧
    ('<' ∈ name ↔ '<' ∈ h.name)

instance (u name : Text) : Decidable (HasFirstLine u name) :=
  inferInstanceAs (Decidable (∃ _ ∈ _, _))

/-- The rows that hold headers are those on which declarations start. -/
def HeadersStart (t : Text) (rows : List (Text × LineState)) : Prop :=
  ∀ p ∈ headersFrom 0 rows, ∃ u ∈ declaredTexts t, rowOf t u = p.1

instance (t : Text) (rows : List (Text × LineState)) : Decidable (HeadersStart t rows) :=
  inferInstanceAs (Decidable (∀ _ ∈ _, _))

theorem Header.read_pad {pad : Text} (h : ∀ c ∈ pad, isBlank c) (line : Text) :
    Header.read (pad ++ line) = Header.read line := by
  unfold Header.read takeKind
  rw [trimStart_blank_append h]

theorem StartsLine.rowHeader_eq (h : StartsLine t u) (hu : u <:+ t)
    (hrows : linesWithStates t = .ok rows) :
    ∃ r, rows[rowOf t u]? = some r ∧ rowHeader r = Header.read (u.takeWhile (· != '\n')) := by
  obtain ⟨above, pad, below, rfl, hlength, hpad⟩ := h.rows_eq_append hu hrows
  exact ⟨(pad ++ u.takeWhile (· != '\n'), ⟨0, false⟩), by simp [← hlength], Header.read_pad hpad _⟩

theorem headersFrom_map_fst (hrows : linesWithStates t = .ok rows)
    (hstart : ∀ u ∈ declaredTexts t, StartsLine t u)
    (hfirst : ∀ u ∈ declaredTexts t, ∃ h, lineHeader? u = some h) (hother : HeadersStart t rows) :
    (headersFrom 0 rows).map Prod.fst = (declaredTexts t).map (rowOf t) := by
  refine List.Pairwise.eq_of_mem_iff (r := (· < ·)) (pairwise_headersFrom 0 rows) ?_ fun k => ?_
  · rw [pairwise_map]
    refine List.Pairwise.imp_of_mem ?_ ((pairwise_statementTexts t).filter declares)
    intro u v hu hv huv
    exact (hstart v hv).rowOf_lt (mem_of_mem_filter hu) (mem_of_mem_filter hv) huv.1 huv.2
  · rw [mem_map, mem_map]
    constructor
    · rintro ⟨p, hp, rfl⟩
      exact hother p hp
    · rintro ⟨u, hu, rfl⟩
      obtain ⟨h, hh⟩ := hfirst u hu
      obtain ⟨r, hr, hheader⟩ :=
        (hstart u hu).rowHeader_eq (of_mem_statementTexts (mem_of_mem_filter hu)).1 hrows
      rw [lineHeader?_eq_some.mp hh] at hheader
      exact ⟨(rowOf t u, h), mem_headersFrom.mpr ⟨_, r, hr, hheader, (Nat.zero_add _).symm⟩, rfl⟩

/-- **The headers of rows are those of the declarations**, in their order. -/
theorem forall₂_headersFrom (hrows : linesWithStates t = .ok rows)
    (hstart : ∀ u ∈ declaredTexts t, StartsLine t u)
    (hfirst : ∀ u ∈ declaredTexts t, ∃ h, lineHeader? u = some h) (hother : HeadersStart t rows) :
    Forall₂ (fun p u => p.1 = rowOf t u ∧ lineHeader? u = some p.2) (headersFrom 0 rows)
      (declaredTexts t) := by
  have hfst : Forall₂ (fun p u => p.1 = rowOf t u) (headersFrom 0 rows) (declaredTexts t) := by
    have heq : Forall₂ (· = ·) ((headersFrom 0 rows).map Prod.fst)
        ((declaredTexts t).map (rowOf t)) := by
      rw [headersFrom_map_fst hrows hstart hfirst hother]
      exact forall₂_refl _
    exact forall₂_map_right_iff.mp (forall₂_map_left_iff.mp heq)
  have hmem : Forall₂ (fun p u => u ∈ declaredTexts t ∧ p.1 = rowOf t u) (headersFrom 0 rows)
      (declaredTexts t) :=
    (forall₂_imp_of_mem hfst.flip fun u hu p hpu => (⟨hu, hpu⟩ : u ∈ declaredTexts t ∧
      p.1 = rowOf t u)).flip
  refine forall₂_imp_of_mem hmem ?_
  rintro p hp u ⟨hu, hpu⟩
  refine ⟨hpu, ?_⟩
  obtain ⟨i, r, hi, hr, hpi⟩ := mem_headersFrom.mp hp
  obtain ⟨r', hr', hheader⟩ :=
    (hstart u hu).rowHeader_eq (of_mem_statementTexts (mem_of_mem_filter hu)).1 hrows
  rw [Nat.zero_add] at hpi
  rw [← hpu, hpi, hi, Option.some.injEq] at hr'
  rw [lineHeader?_eq_some, ← hheader, ← hr', hr]

theorem HasFirstLine.heading_eq {f : Fragment} {d : Declaration} (h : HasFirstLine u d.name)
    (hread : IsReadFrom u f) (hheads : f.Heads d) :
    ∃ g, lineHeader? u = some g ∧ g.heading = d.heading := by
  obtain ⟨g, hline, hnames, hangle⟩ := h
  obtain ⟨rest, description, hstatement⟩ := hread
  obtain ⟨-, g', hheader, hheading⟩ := hheads
  have hname : d.name = g'.name := congrArg Heading.name hheading
  rw [hname] at hangle
  obtain ⟨hkind, hname', hextend⟩ :=
    Statement.read_line hstatement (lineHeader?_eq_some.mp hline) hnames hheader hangle
  refine ⟨g, hline, ?_⟩
  rw [hheading, hkind, hname']
  exact congrArg (Heading.mk g.kind g.name) hextend.symm

end Schemata
