import Schemata.Proofs.TypeTrees

/-!
# Types in the place of type parameters

Type arguments are put in the place of type parameters in the text of a type expression, wherever a
parameter stands.  What comes out is a type expression again: the one with the type arguments in the
place of the parameters in its tree.  A type has at most one bang after it, though, and where a
parameter has a bang and its argument ends with one, there are two in a row.  As a text has one
tree, it is no proper type then, however it is read.

## Main definitions

* `TypeTree.isProper`, `IsProperType` — types with no two bangs in a row, as trees and as texts.

## Main results

* `TypeExpr.text_subst` — replacing names in a text replaces them in the tree.
* `TypeExpr.isProper_subst` — when what comes out is proper.
* `substitute_isProperType_iff` — the same for substitution.
* `substitute_substitute` — one substitution after another, in any text.
-/

namespace Schemata

open List

variable {bound : Text → Option Padded} {c : Char} {n t : Text} {parameters : List Text}

/-! ### Proper types -/

def TypeTree.isBang : TypeTree → Bool
  | bang _ => true
  | _ => false

mutual

def TypeTree.isProper : TypeTree → Bool
  | .name _ => true
  | .apply _ arguments => TypeTree.areProper arguments
  | .list item => item.isProper
  | .bang item => !item.isBang && item.isProper

def TypeTree.areProper : List TypeTree → Bool
  | [] => true
  | tree :: trees => tree.isProper && TypeTree.areProper trees

end

/-- A text that a proper type is written as, perhaps with white space around it. -/
def IsProperType (t : Text) : Prop :=
  ∃ p : Padded, p.item.tree.isProper = true ∧ p.text = t

theorem Padded.isProperType_text (p : Padded) : IsProperType p.text ↔ p.item.tree.isProper := by
  constructor
  · rintro ⟨q, hq, htext⟩
    have htree := q.ofText_text
    rw [htext, p.ofText_text, Option.some.injEq] at htree
    rw [htree, hq]
  · intro h
    exact ⟨p, h, rfl⟩

/-! ### Type expressions in the place of names -/

mutual

/-- Whether a type expression applies a name to type arguments. -/
def TypeExpr.applies (n : Text) : TypeExpr → Bool
  | .name _ => false
  | .apply base _ arguments => base.text == n || arguments.applies n
  | .list _ item _ | .bang item _ => item.applies n

/-- Whether one of the type arguments applies a name to type arguments. -/
def TypeArguments.applies (n : Text) : TypeArguments → Bool
  | .last _ item _ => item.applies n
  | .more _ item _ rest => item.applies n || rest.applies n

end

def TypeExpr.isNamed (n : Text) : TypeExpr → Bool
  | name m => m.text == n
  | _ => false

mutual

/-- Whether a name has a bang after it in a type expression. -/
def TypeExpr.marks (n : Text) : TypeExpr → Bool
  | .name _ => false
  | .apply _ _ arguments => arguments.marks n
  | .list _ item _ => item.marks n
  | .bang item _ => item.isNamed n || item.marks n

/-- Whether a name has a bang after it in one of the type arguments. -/
def TypeArguments.marks (n : Text) : TypeArguments → Bool
  | .last _ item _ => item.marks n
  | .more _ item _ rest => item.marks n || rest.marks n

end

mutual

/-- A type expression with others in the place of names.  The white space around those joins the
white space around the names. -/
def TypeExpr.subst (bound : Text → Option Padded) : TypeExpr → Padded
  | .name n => (bound n.text).getD ⟨.empty, .name n, .empty⟩
  | .apply base gap arguments => ⟨.empty, .apply base gap (arguments.subst bound), .empty⟩
  | .list before item after =>
      let p := item.subst bound
      ⟨.empty, .list (before.append p.before) p.item (p.after.append after), .empty⟩
  | .bang item gap =>
      let p := item.subst bound
      ⟨p.before, .bang p.item (p.after.append gap), .empty⟩

/-- Type arguments with type expressions in the place of names. -/
def TypeArguments.subst (bound : Text → Option Padded) : TypeArguments → TypeArguments
  | .last before item after =>
      let p := item.subst bound
      .last (before.append p.before) p.item (p.after.append after)
  | .more before item after rest =>
      let p := item.subst bound
      .more (before.append p.before) p.item (p.after.append after) (rest.subst bound)

end

/-! ### Replacing names in the text -/

section Replace

variable {f : Text → Text}

@[simp] theorem replaceNames_nil : replaceNames f [] = [] := by
  rw [replaceNames, Text.pieces]
  rfl

theorem replaceNames_cons (hc : isNameChar c = false) (t : Text) :
    replaceNames f (c :: t) = c :: replaceNames f t := by
  have h := replaceNames_append_cons (f := f) hc [] t
  rwa [nil_append, replaceNames_nil, nil_append] at h

theorem replaceNames_append (ht : t.startsWith isNameChar = false) (s : Text) :
    replaceNames f (s ++ t) = replaceNames f s ++ replaceNames f t := by
  cases t with
  | nil => rw [append_nil, replaceNames_nil, append_nil]
  | cons c t => rw [replaceNames_append_cons ht, replaceNames_cons ht]

theorem replaceNames_gap (g : Gap) (t : Text) :
    replaceNames f (g.text ++ t) = g.text ++ replaceNames f t := by
  have hgap : ∀ s : Text, (∀ c ∈ s, isBlank c) →
      replaceNames f (s ++ t) = s ++ replaceNames f t := by
    intro s hs
    induction s with
    | nil => rfl
    | cons c s ih =>
      obtain ⟨hc, hs⟩ := forall_mem_cons.mp hs
      rw [cons_append, replaceNames_cons (isNameChar_of_isBlank hc), ih hs, cons_append]
  exact hgap g.text g.isBlank_of_mem

theorem replaceNames_name (n : Name) : replaceNames f n.text = f n.text := by
  obtain ⟨c, cs, hn, hc, hcs⟩ := isName_iff.mp n.isName
  rw [replaceNames, hn, Text.pieces, if_pos hc, takeWhile_eq_self_iff.mpr hcs,
    dropWhile_eq_nil_iff.mpr hcs, Text.pieces]
  simp

theorem startsWith_gap (g : Gap) (ht : t.startsWith isNameChar = false) :
    Text.startsWith isNameChar (g.text ++ t) = false := by
  cases hg : g.text with
  | nil => exact ht
  | cons c cs => exact isNameChar_of_isBlank (g.isBlank_of_mem c (by rw [hg]; exact mem_cons_self))

mutual

/-- **Replacing names in the text** of a type expression puts type expressions in their place. -/
theorem TypeExpr.text_subst {f : Text → Text} (hf : ∀ n, ((bound n).map Padded.text).getD n = f n) :
    (e : TypeExpr) →
    (∀ n, e.applies n → bound n = none) → (e.subst bound).text = replaceNames f e.text
  | .name n => by
    intro _
    rw [TypeExpr.text, replaceNames_name, ← hf, TypeExpr.subst]
    cases bound n.text with
    | none => simp [Padded.text, TypeExpr.text]
    | some p => rfl
  | .apply base gap arguments => by
    intro hfree
    -- the name before type arguments stays
    have hbase : f base.text = base.text := by
      rw [← hf, hfree base.text (by simp [TypeExpr.applies])]
      rfl
    have harguments := arguments.text_subst hf fun n hn => hfree n (by simp [TypeExpr.applies, hn])
    rw [TypeExpr.text, replaceNames_append (startsWith_gap gap rfl), replaceNames_name, hbase,
      replaceNames_gap, replaceNames_cons rfl, replaceNames_append rfl, ← harguments,
      TypeExpr.subst]
    simp [Padded.text, TypeExpr.text, replaceNames_cons (c := '>') rfl]
  | .list before item after => by
    intro hfree
    have hitem := item.text_subst hf hfree
    rw [TypeExpr.text, replaceNames_cons rfl, replaceNames_gap,
      replaceNames_append (startsWith_gap after rfl), ← hitem, replaceNames_gap, TypeExpr.subst]
    simp [Padded.text, TypeExpr.text, Gap.append, replaceNames_cons (c := ']') rfl]
  | .bang item gap => by
    intro hfree
    have hitem := item.text_subst hf hfree
    rw [TypeExpr.text, replaceNames_append (startsWith_gap gap rfl), ← hitem, replaceNames_gap,
      TypeExpr.subst]
    simp [Padded.text, TypeExpr.text, Gap.append, replaceNames_cons (c := '!') rfl]

theorem TypeArguments.text_subst {f : Text → Text}
    (hf : ∀ n, ((bound n).map Padded.text).getD n = f n) : (arguments : TypeArguments) →
    (∀ n, arguments.applies n → bound n = none) →
      (arguments.subst bound).text = replaceNames f arguments.text
  | .last before item after => by
    intro hfree
    have hitem := item.text_subst hf hfree
    have hafter := replaceNames_gap (f := f) after []
    rw [append_nil, replaceNames_nil, append_nil] at hafter
    have hstart := startsWith_gap after (t := []) rfl
    rw [append_nil] at hstart
    rw [TypeArguments.text, replaceNames_gap, replaceNames_append hstart, ← hitem, hafter,
      TypeArguments.subst]
    simp [Padded.text, TypeArguments.text, Gap.append]
  | .more before item after rest => by
    intro hfree
    have hitem := item.text_subst hf fun n hn => hfree n (by simp [TypeArguments.applies, hn])
    have hrest := rest.text_subst hf fun n hn => hfree n (by simp [TypeArguments.applies, hn])
    rw [TypeArguments.text, append_assoc, append_assoc, replaceNames_gap,
      replaceNames_append (startsWith_gap after rfl), replaceNames_gap,
      replaceNames_cons rfl, ← hitem, ← hrest, TypeArguments.subst]
    simp [Padded.text, TypeArguments.text, Gap.append]

end

end Replace

/-! ### Two bangs in a row -/

/-- A type expression ends with a bang after substitution if it did before, or if it is a name in
whose place one with a bang stands. -/
theorem TypeExpr.isBang_subst (bound : Text → Option Padded) {e : TypeExpr}
    (he : e.tree.isBang = false) :
    (e.subst bound).item.tree.isBang ↔ ∃ n p, bound n = some p ∧ e.isNamed n ∧
      p.item.tree.isBang := by
  cases e with
  | name m =>
    cases hm : bound m.text with
    | none => simp [subst, isNamed, tree, TypeTree.isBang, hm]
    | some p => simp [subst, isNamed, hm]
  | apply | list => simp [subst, tree, TypeTree.isBang, isNamed]
  | bang => cases he

mutual

/-- **What comes out is proper** exactly if no name that has a bang after it stands for a type
expression with a bang at its end. -/
theorem TypeExpr.isProper_subst (hbound : ∀ n p, bound n = some p → p.item.tree.isProper) :
    (e : TypeExpr) → e.tree.isProper → ((e.subst bound).item.tree.isProper ↔
      ∀ n p, bound n = some p → e.marks n → p.item.tree.isBang = false)
  | .name m => by
    intro _
    refine iff_of_true ?_ fun n p _ hm => absurd hm Bool.false_ne_true
    rw [TypeExpr.subst]
    cases hm : bound m.text with
    | none => rfl
    | some p => exact hbound _ p hm
  | .apply base gap arguments => by
    intro he
    rw [TypeExpr.tree, TypeTree.isProper] at he
    rw [TypeExpr.subst, TypeExpr.tree, TypeTree.isProper]
    exact arguments.isProper_subst hbound he
  | .list before item after => by
    intro he
    rw [TypeExpr.tree, TypeTree.isProper] at he
    rw [TypeExpr.subst, TypeExpr.tree, TypeTree.isProper]
    exact item.isProper_subst hbound he
  | .bang item gap => by
    intro he
    rw [TypeExpr.tree, TypeTree.isProper, Bool.and_eq_true, Bool.not_eq_true'] at he
    rw [TypeExpr.subst, TypeExpr.tree, TypeTree.isProper, Bool.and_eq_true, Bool.not_eq_true',
      item.isProper_subst hbound he.2]
    -- the bang follows a type that has none, so there are two only if one was put in its place
    have hbang := item.isBang_subst bound he.1
    constructor
    · rintro ⟨hno, hmarks⟩ n p hn hm
      rw [TypeExpr.marks, Bool.or_eq_true] at hm
      rcases hm with hnamed | hm
      · rw [Bool.eq_false_iff]
        intro hp
        rw [hbang.mpr ⟨n, p, hn, hnamed, hp⟩] at hno
        cases hno
      · exact hmarks n p hn hm
    · intro h
      refine ⟨?_, fun n p hn hm => h n p hn (by rw [TypeExpr.marks, hm, Bool.or_true])⟩
      rw [Bool.eq_false_iff]
      intro htwo
      obtain ⟨n, p, hn, hnamed, hp⟩ := hbang.mp htwo
      rw [h n p hn (by rw [TypeExpr.marks, hnamed, Bool.true_or])] at hp
      cases hp

theorem TypeArguments.isProper_subst (hbound : ∀ n p, bound n = some p → p.item.tree.isProper) :
    (arguments : TypeArguments) →
    TypeTree.areProper arguments.trees →
      (TypeTree.areProper (arguments.subst bound).trees ↔
        ∀ n p, bound n = some p → arguments.marks n → p.item.tree.isBang = false)
  | .last before item after => by
    intro he
    rw [TypeArguments.trees, TypeTree.areProper, TypeTree.areProper, Bool.and_true] at he
    rw [TypeArguments.subst, TypeArguments.trees, TypeTree.areProper, TypeTree.areProper,
      Bool.and_true]
    exact item.isProper_subst hbound he
  | .more before item after rest => by
    intro he
    rw [TypeArguments.trees, TypeTree.areProper, Bool.and_eq_true] at he
    rw [TypeArguments.subst, TypeArguments.trees, TypeTree.areProper, Bool.and_eq_true,
      item.isProper_subst hbound he.1, rest.isProper_subst hbound he.2]
    constructor
    · rintro ⟨hitem, hrest⟩ n p hn hm
      rw [TypeArguments.marks, Bool.or_eq_true] at hm
      rcases hm with hm | hm
      · exact hitem n p hn hm
      · exact hrest n p hn hm
    · intro h
      refine ⟨fun n p hn hm => h n p hn ?_, fun n p hn hm => h n p hn ?_⟩
      · rw [TypeArguments.marks, hm, Bool.true_or]
      · rw [TypeArguments.marks, hm, Bool.or_true]

end

/-! ### Substitution -/

/-- What type arguments stand for type parameters. -/
def boundTo (parameters : List Text) (arguments : List Padded) (n : Text) : Option Padded :=
  Table.find? n (parameters.zip arguments).reverse

theorem find?_map_snd {α β : Type} (g : α → β) (n : Text) (es : List (Text × α)) :
    Table.find? n (es.map (Prod.map id g)) = (Table.find? n es).map g := by
  induction es with
  | nil => rfl
  | cons e es ih =>
    rw [map_cons, Table.find?, Table.find?, ih]
    by_cases h : e.1 = n
    · simp [h]
    · simp [h]

theorem replacement_boundTo (parameters : List Text) (arguments : List Padded) (n : Text) :
    ((boundTo parameters arguments n).map Padded.text).getD n =
      replacement (parameters.zip (arguments.map Padded.text)) n := by
  rw [replacement, zip_map_right, ← map_reverse, find?_map_snd]
  rfl

theorem mem_zip_of_boundTo {arguments : List Padded} {p : Padded}
    (h : boundTo parameters arguments n = some p) : (n, p) ∈ parameters.zip arguments :=
  mem_reverse.mp (Table.mem_of_find? h)

theorem boundTo_of_mem_zip {arguments : List Padded} (hnodup : parameters.Nodup)
    (hlength : parameters.length = arguments.length) {p : Padded}
    (h : (n, p) ∈ parameters.zip arguments) : boundTo parameters arguments n = some p := by
  refine Table.find?_of_mem ?_ (mem_reverse.mpr h)
  rw [map_reverse, nodup_reverse, map_fst_zip hlength.le]
  exact hnodup

/-- **When substitution gives a proper type.**  Let a proper type expression and as many proper type
arguments as distinct type parameters be given, none of which the expression applies to type
arguments.  Putting the type arguments in the place of the parameters gives a type expression; it is
proper exactly if no parameter that has a bang after it in the expression has a type argument with a
bang at its end. -/
theorem substitute_isProperType_iff {e : Padded} {parameters : List Text} {arguments : List Padded}
    (he : e.item.tree.isProper = true) (harguments : ∀ a ∈ arguments, a.item.tree.isProper = true)
    (hnodup : parameters.Nodup) (hlength : parameters.length = arguments.length)
    (hfree : ∀ n ∈ parameters, e.item.applies n = false) :
    ∃ t, substitute e.text parameters (arguments.map Padded.text) = .ok t ∧
      (∃ r : Padded, r.text = t) ∧
      (IsProperType t ↔ ∀ x ∈ parameters.zip arguments,
        e.item.marks x.1 = true → x.2.item.tree.isBang = false) := by
  have hbound : ∀ n p, boundTo parameters arguments n = some p → p.item.tree.isProper = true :=
    fun n p hn => harguments p (List.of_mem_zip (mem_zip_of_boundTo hn)).2
  have hnone : ∀ n, e.item.applies n = true → boundTo parameters arguments n = none := by
    intro n hn
    rw [Option.eq_none_iff_forall_ne_some]
    intro p hp
    rw [hfree n (List.of_mem_zip (mem_zip_of_boundTo hp)).1] at hn
    cases hn
  let s := e.item.subst (boundTo parameters arguments)
  let r : Padded := ⟨e.before.append s.before, s.item, s.after.append e.after⟩
  have htext : replaceNames (replacement (parameters.zip (arguments.map Padded.text))) e.text =
      r.text :=
    ((TypeArguments.last e.before e.item e.after).text_subst
      (replacement_boundTo parameters arguments) hnone).symm
  refine ⟨r.text, substitute_eq_ok.mpr ⟨by rw [List.length_map, hlength], htext⟩, ⟨r, rfl⟩, ?_⟩
  rw [r.isProperType_text, e.item.isProper_subst hbound he]
  constructor
  · rintro h ⟨n, p⟩ hmem
    exact h n p (boundTo_of_mem_zip hnodup hlength hmem)
  · intro h n p hn
    exact h (n, p) (mem_zip_of_boundTo hn)

/-- A type expression in which one type parameter has a bang after it, and another has not. -/
def pairExpr : Padded :=
  let bare : TypeExpr := .name ⟨"T".toList, by decide +kernel⟩
  let marked : TypeExpr := .bang (.name ⟨"U".toList, by decide +kernel⟩) .empty
  let space : Gap := ⟨" ".toList, by decide +kernel⟩
  ⟨.empty, .bang (.apply ⟨"Pair".toList, by decide +kernel⟩ space
    (.more space bare space (.last space (.list .empty marked .empty) .empty))) .empty, .empty⟩

def productArgument : Padded :=
  ⟨.empty, .bang (.name ⟨"Product".toList, by decide +kernel⟩) .empty, .empty⟩

def idArgument : Padded :=
  ⟨⟨" ".toList, by decide +kernel⟩, .name ⟨"ID".toList, by decide +kernel⟩, .empty⟩

/-- The theorem on a type expression with two type parameters, where only the type argument of the
one without a bang ends with a bang. -/
theorem substitute_isProperType_iff_pairExpr :
    pairExpr.text = "Pair < T , [U!]>!".toList ∧ pairExpr.item.tree.isProper = true ∧
      (∀ a ∈ [productArgument, idArgument], a.item.tree.isProper = true) ∧
      ["T".toList, "U".toList].Nodup ∧
      (∀ n ∈ ["T".toList, "U".toList], pairExpr.item.applies n = false) ∧
      ∃ t, substitute pairExpr.text ["T".toList, "U".toList]
          ([productArgument, idArgument].map Padded.text) = .ok t ∧
        t = "Pair < Product! , [ ID!]>!".toList ∧ IsProperType t := by
  have hproper : pairExpr.item.tree.isProper = true := rfl
  have harguments : ∀ a ∈ [productArgument, idArgument], a.item.tree.isProper = true := by
    rw [List.forall_mem_cons, List.forall_mem_singleton]
    exact ⟨rfl, rfl⟩
  have hnodup : ["T".toList, "U".toList].Nodup := by decide +kernel
  have hfree : ∀ n ∈ ["T".toList, "U".toList], pairExpr.item.applies n = false := by
    rw [List.forall_mem_cons, List.forall_mem_singleton]
    exact ⟨by decide +kernel, by decide +kernel⟩
  have htext : (substitute pairExpr.text ["T".toList, "U".toList]
      ([productArgument, idArgument].map Padded.text)).toOption =
        some "Pair < Product! , [ ID!]>!".toList := by
    decide +kernel
  have hmarks : pairExpr.item.marks "T".toList = false := by decide +kernel
  obtain ⟨t, ht, -, hiff⟩ := substitute_isProperType_iff hproper harguments hnodup rfl hfree
  refine ⟨by decide +kernel, hproper, harguments, hnodup, hfree, t, ht, ?_, hiff.mpr ?_⟩
  · rw [ht] at htext
    exact Option.some.inj htext
  · intro x hx hm
    change x ∈ [("T".toList, productArgument), ("U".toList, idArgument)] at hx
    rcases List.mem_cons.mp hx with rfl | hx
    · rw [hmarks] at hm
      cases hm
    · obtain rfl := List.mem_singleton.mp hx
      rfl

/-- Two bangs in a row: the type parameter has one after it, and its type argument has another. -/
theorem not_isProperType_substitute :
    ∃ e a : Padded, e.text = "T!".toList ∧ a.text = "Product!".toList ∧
      e.item.tree.isProper = true ∧ a.item.tree.isProper = true ∧
      e.item.applies "T".toList = false ∧
      substitute e.text ["T".toList] [a.text] = .ok "Product!!".toList ∧
      ¬ IsProperType "Product!!".toList := by
  have hsubstitute : (substitute "T!".toList ["T".toList] ["Product!".toList]).toOption =
      some "Product!!".toList := by
    decide +kernel
  -- the only tree of the text has two bangs in a row
  have htext : (⟨.empty, .bang productArgument.item .empty, .empty⟩ : Padded).text =
      "Product!!".toList := by
    decide +kernel
  refine ⟨⟨.empty, .bang (.name ⟨"T".toList, by decide +kernel⟩) .empty, .empty⟩, productArgument,
    by decide +kernel, by decide +kernel, rfl, rfl, rfl, eq_ok_of_toOption hsubstitute, ?_⟩
  rw [← htext, Padded.isProperType_text]
  exact Bool.false_ne_true

/-! ### One substitution after another -/

section Twice

variable {f : Text → Text}

theorem replaceNames_of_isNameStart (hc : isNameStart c) (cs : Text) :
    replaceNames f (c :: cs) = f (c :: cs.takeWhile isNameChar) ++
      replaceNames f (cs.dropWhile isNameChar) := by
  rw [replaceNames, Text.pieces, if_pos hc]
  rfl

/-- A digit outside of names is kept, as is any other character that starts none. -/
theorem replaceNames_of_not_isNameStart (hc : ¬ isNameStart c) (cs : Text) :
    replaceNames f (c :: cs) = c :: replaceNames f cs := by
  rw [replaceNames, Text.pieces, if_neg hc]
  rfl

theorem startsWith_replaceNames (ht : t.startsWith isNameChar = false) :
    (replaceNames f t).startsWith isNameChar = false := by
  cases t with
  | nil =>
    rw [replaceNames_nil]
    rfl
  | cons c t =>
    rw [replaceNames_cons ht]
    exact ht

/-- **Replacing names twice.**  What stands in the place of a name keeps its own names: they neither
run into what is around it nor are cut by it. -/
theorem replaceNames_replaceNames (g : Text → Text) (t : Text) :
    replaceNames g (replaceNames f t) = replaceNames (fun n => replaceNames g (f n)) t := by
  fun_induction Text.pieces t with
  | case1 => simp only [replaceNames_nil]
  | case2 c cs hc ih =>
    have hrest : Text.startsWith isNameChar (cs.dropWhile isNameChar) = false := by
      have hhead := head?_dropWhile_not isNameChar cs
      cases hd : cs.dropWhile isNameChar with
      | nil => rfl
      | cons d ds => simpa [hd, Text.startsWith] using hhead
    rw [replaceNames_of_isNameStart hc, replaceNames_append (startsWith_replaceNames hrest), ih,
      replaceNames_of_isNameStart hc]
  | case3 c cs hc ih =>
    rw [replaceNames_of_not_isNameStart hc, replaceNames_of_not_isNameStart hc, ih,
      replaceNames_of_not_isNameStart hc]

end Twice

/-- What is done to the type arguments in an expression may be done to each of them before. -/
theorem replacement_map {arguments : List Text} (hlength : parameters.length = arguments.length)
    {g : Text → Text} (hn : n ∉ parameters → g n = n) :
    g (replacement (parameters.zip arguments) n) =
      replacement (parameters.zip (arguments.map g)) n := by
  unfold replacement
  rw [zip_map_right, ← map_reverse, find?_map_snd]
  cases hfind : Table.find? n (parameters.zip arguments).reverse with
  | some x => rfl
  | none =>
    refine hn ?_
    have hkeys := Table.not_mem_of_find? hfind
    rwa [map_reverse, mem_reverse, map_fst_zip hlength.le] at hkeys

/-- **Substitution composes.**  If no name of an expression is a type parameter of the second
substitution but not of the first, then both, one after the other, come to the first alone with the
second done to its type arguments.  An expression that mentions no type parameter is left as it
is. -/
theorem substitute_substitute {e : Text} {xs as ys bs : List Text} (hx : xs.length = as.length)
    (hy : ys.length = bs.length) :
    ((∀ n ∈ e.names, n ∉ xs → n ∉ ys) → ∃ t,
      (do substitute (← substitute e xs as) ys bs) = .ok t ∧
      (do substitute e xs (← as.mapM fun a => substitute a ys bs)) = .ok t) ∧
    (mentions e xs = false → substitute e xs as = .ok e) := by
  refine ⟨fun hfree => ?_, substitute_of_not_mentions hx⟩
  have hsecond : ∀ a, substitute a ys bs = .ok (replaceNames (replacement (ys.zip bs)) a) :=
    fun a => substitute_eq_ok.mpr ⟨hy, rfl⟩
  have harguments : as.mapM (fun a => substitute a ys bs) =
      .ok (as.map (replaceNames (replacement (ys.zip bs)))) := by
    simp only [hsecond]
    exact List.mapM_pure
  refine ⟨replaceNames (replacement (ys.zip bs)) (replaceNames (replacement (xs.zip as)) e), ?_, ?_⟩
  · rw [substitute_eq_ok.mpr ⟨hx, rfl⟩]
    exact hsecond _
  · rw [harguments]
    refine substitute_eq_ok.mpr ⟨by rw [List.length_map, hx], ?_⟩
    rw [replaceNames_replaceNames]
    refine (List.flatMap_congr fun p hp => ?_).symm
    cases p with
    | other c => rfl
    | name n =>
      have hn := mem_names.mpr hp
      refine replacement_map (g := replaceNames (replacement (ys.zip bs))) hx fun hnot => ?_
      rw [replaceNames_name ⟨n, isName_of_mem_names hn⟩]
      exact replacement_of_not_mem (hfree n hn hnot) bs

/-- Type parameters that change places, in an expression with a digit before one of them. -/
theorem substitute_substitute_swapped :
    (substitute "P<T,1U, V>".toList ["T".toList, "U".toList] ["[U]".toList, "2T".toList] >>=
      fun t => substitute t ["U".toList, "T".toList] ["T".toList, "A!".toList]) =
        .ok "P<[T],12A!, V>".toList ∧
      substitute "P<V>".toList ["T".toList] ["A".toList] = .ok "P<V>".toList := by
  obtain ⟨t, ht, harguments⟩ := (@substitute_substitute "P<T,1U, V>".toList ["T".toList, "U".toList]
    ["[U]".toList, "2T".toList] ["U".toList, "T".toList] ["T".toList, "A!".toList] rfl rfl).1
      (by decide +kernel)
  have hvalue : (["[U]".toList, "2T".toList].mapM (fun a => substitute a ["U".toList, "T".toList]
      ["T".toList, "A!".toList]) >>= substitute "P<T,1U, V>".toList ["T".toList,
        "U".toList]).toOption = some "P<[T],12A!, V>".toList := by
    decide +kernel
  have hfree : mentions "P<V>".toList ["T".toList] = false := by decide +kernel
  refine ⟨?_, (@substitute_substitute _ ["T".toList] ["A".toList] [] [] rfl rfl).2 hfree⟩
  rw [ht, ← harguments]
  exact eq_ok_of_toOption hvalue

end Schemata
