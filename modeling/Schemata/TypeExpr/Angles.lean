import Schemata.TypeExpr.Basic

/-!
# Angle brackets of type expressions

The number of opening angle brackets bounds how deep type arguments nest.  Taking a core apart gives
type arguments with fewer of them, which is why naming a generic use comes to an end.
-/

namespace Schemata

def angles (t : Text) : Nat :=
  t.count '<'

theorem angles_le_of_sublist {s t : Text} (h : s.Sublist t) : angles s ≤ angles t :=
  h.count_le '<'

/-! ### Trimming and splitting give sublists -/

theorem Text.dropEndWhile_sublist (p : Char → Bool) (t : Text) : (t.dropEndWhile p).Sublist t := by
  have h := (List.dropWhile_sublist p (l := t.reverse)).reverse
  simpa [Text.dropEndWhile] using h

theorem Text.trim_sublist (t : Text) : (t.trim).Sublist t :=
  (Text.dropEndWhile_sublist _ _).trans (List.dropWhile_sublist _)

theorem Text.squeeze_sublist (t : Text) : (t.squeeze).Sublist t :=
  List.filter_sublist

theorem flatten_map_sublist {f : Text → Text} (hf : ∀ t, (f t).Sublist t) (ts : List Text) :
    (ts.map f).flatten.Sublist ts.flatten := by
  induction ts with
  | nil => simp
  | cons t ts ih => simpa using (hf t).append ih

/-- Splitting, lexeme by lexeme: a separator ends a piece that is empty so far, and any other lexeme
goes in front of the first piece. -/
theorem Lexeme.splitAt_induction {separator : Char → Bool} {depth : Nat}
    {motive : List Lexeme → Text → List Text → Prop} (nil : motive [] [] [])
    (cut : ∀ c {ls p ps}, separator c → motive ls p ps → motive (.char c :: ls) [] (p :: ps))
    (keep : ∀ l {ls p ps}, motive ls p ps → motive (l :: ls) (l.text ++ p) ps) {ls : List Lexeme}
    {ps : List Text} (h : Lexeme.splitAt separator depth ls = .ok ps) :
    ∃ q qs, ps = q :: qs ∧ motive ls q qs := by
  fun_induction Lexeme.splitAt separator depth ls generalizing ps with
  | case1 =>
    cases h
    exact ⟨_, _, rfl, nil⟩
  | case2 => cases h
  | case3 _ c _ hc ih =>
    obtain ⟨_, hq, rfl⟩ := map_eq_ok h
    obtain ⟨q, qs, rfl, hm⟩ := ih hq
    exact ⟨_, _, rfl, cut c (Bool.and_eq_true_iff.mp hc).2 hm⟩
  | case4 _ _ _ _ ih | case5 _ _ _ ih | case6 _ _ _ ih =>
    obtain ⟨_, hq, rfl⟩ := map_eq_ok h
    obtain ⟨q, qs, rfl, hm⟩ := ih hq
    exact ⟨_, _, rfl, keep _ hm⟩

/-- The pieces of a split, put one after the other, are part of the text. -/
theorem splitAt_flatten_sublist {separator : Char → Bool} {t : Text} {ps : List Text}
    (h : splitAt separator t = .ok ps) : ps.flatten.Sublist t := by
  obtain ⟨qs, hq, rfl⟩ := map_eq_ok h
  refine (flatten_map_sublist Text.trim_sublist qs).trans ?_
  obtain ⟨p, ps, rfl, hp⟩ :=
    Lexeme.splitAt_induction (motive := fun ls p ps => (p :: ps).flatten.Sublist (raw ls))
    (by simp) (fun c _ _ _ _ h => h.cons c) (fun l _ _ _ h => by simpa using h) hq
  rwa [raw_lex] at hp

/-! ### Taking a core apart -/

/-- What taking a core apart comes to: the core has no angle bracket, or its base name stands before
the first one and its type arguments are split out of the brackets. -/
theorem Application.ofText_eq_ok {core : Text} {a : Application}
    (h : Application.ofText core = .ok a) :
    a = { base := core.trim } ∨
      ∃ inside rest, core = core.takeWhile (· != '<') ++ '<' :: (inside ++ rest) ∧
        a.base = Text.trim (core.takeWhile (· != '<')) ∧
        splitAt (· == ',') inside.dropLast = .ok a.arguments := by
  unfold Application.ofText at h
  split at h
  · exact .inl (Except.ok.inj h).symm
  · refine .inr ?_
    obtain ⟨o, hb, h⟩ := bind_eq_ok.mp h
    rcases o with - | ⟨inside, rest⟩
    · cases h
    obtain ⟨ps, hs, h⟩ := bind_eq_ok.mp h
    cases h
    obtain ⟨heq, hin⟩ := takeBalanced_append hb
    cases inside with
    | nil => exact absurd rfl hin
    | cons c tl =>
      have hd := List.head?_dropWhile_not (· != '<') core
      have hc : c = '<' := by simpa [heq] using hd
      subst hc
      refine ⟨tl, rest, ?_, rfl, by simpa [innerText] using hs⟩
      rw [← List.cons_append, ← heq, List.takeWhile_append_dropWhile]

/-- The base name and the type arguments of a generic core, put one after the other, have fewer
angle brackets than the core. -/
theorem Application.angles_lt {core : Text} {a : Application}
    (h : Application.ofText core = .ok a) (hne : a.arguments ≠ []) :
    angles a.base + angles a.arguments.flatten < angles core := by
  rcases Application.ofText_eq_ok h with rfl | ⟨inside, rest, hcore, hbase, hs⟩
  · simp at hne
  · have h1 : angles a.base ≤ angles (core.takeWhile (· != '<')) := by
      rw [hbase]
      exact angles_le_of_sublist (Text.trim_sublist _)
    have h2 : angles a.arguments.flatten ≤ angles inside :=
      angles_le_of_sublist ((splitAt_flatten_sublist hs).trans (List.dropLast_sublist inside))
    have h3 := congrArg angles hcore
    simp only [angles, List.count_append, List.count_cons_self] at h1 h2 h3 ⊢
    omega

/-- A type argument of a core has fewer angle brackets than the core. -/
theorem Application.angles_argument_lt {core argument : Text} {a : Application}
    (h : Application.ofText core = .ok a) (hm : argument ∈ a.arguments) :
    angles argument < angles core := by
  have hlt := Application.angles_lt h (List.ne_nil_of_mem hm)
  have hle : angles argument ≤ angles a.arguments.flatten :=
    angles_le_of_sublist (List.sublist_flatten_of_mem hm)
  omega

theorem angles_joinWith_commas (ts : List Text) :
    angles (Text.joinWith ", ".toList ts) = angles ts.flatten := by
  induction ts with
  | nil => rfl
  | cons t ts ih =>
      cases ts with
      | nil => simp [Text.joinWith]
      | cons s ss =>
          have hcomma : angles ", ".toList = 0 := by decide
          simp only [Text.joinWith, angles, List.count_append, List.flatten_cons] at ih hcomma ⊢
          omega

/-- Canonical spacing adds no angle bracket. -/
theorem angles_normalize_le {core normal : Text} (h : normalize core = .ok normal) :
    angles normal ≤ angles core := by
  obtain ⟨a, ha, rfl⟩ := map_eq_ok h
  by_cases hne : a.arguments = []
  · have hbase : a.base.Sublist core := by
      rcases Application.ofText_eq_ok ha with rfl | ⟨inside, rest, -, hbase, -⟩
      · exact Text.trim_sublist core
      · rw [hbase]
        exact (Text.trim_sublist _).trans (List.takeWhile_sublist _)
    simpa [Application.text, hne] using angles_le_of_sublist hbase
  · have hlt := Application.angles_lt ha hne
    have hsq : angles (a.arguments.map Text.squeeze).flatten ≤ angles a.arguments.flatten :=
      angles_le_of_sublist (flatten_map_sublist Text.squeeze_sublist _)
    have hj := angles_joinWith_commas (a.arguments.map Text.squeeze)
    have htext : a.text = a.base ++ ['<'] ++
        Text.joinWith ", ".toList (a.arguments.map Text.squeeze) ++ ['>'] := by
      simp [Application.text, hne]
    have h1 : angles ['<'] = 1 := by decide
    have h2 : angles ['>'] = 0 := by decide
    rw [htext]
    simp only [angles, List.count_append] at hlt hsq hj h1 h2 ⊢
    omega

/-! ### Taking a decoration off -/

theorem takeCore_sublist {expression t core rest : Text}
    (h : takeCore expression t = .ok (core, rest)) : core.Sublist t := by
  unfold takeCore at h
  have hname : (t.takeName.getD ([], t)).1 ++ (t.takeName.getD ([], t)).2 = t := by
    cases t with
    | nil => simp [Text.takeName]
    | cons c cs => by_cases hc : isNameStart c <;> simp [Text.takeName, hc]
  generalize t.takeName.getD ([], t) = p at h hname
  obtain ⟨name, after⟩ := p
  simp only at h hname
  split at h
  · obtain ⟨o, hb, h⟩ := bind_eq_ok.mp h
    rcases o with - | ⟨inside, tail⟩
    · cases h
    cases h
    have heq := (takeBalanced_append hb).1
    have hafter : after.takeWhile isBlank ++ inside ++ rest = after := by
      rw [List.append_assoc, ← heq, Text.trimStart, List.takeWhile_append_dropWhile]
    rw [← hname, List.append_assoc]
    refine List.Sublist.append (List.Sublist.refl _) ?_
    exact List.IsPrefix.sublist ⟨rest, hafter⟩
  · cases h
    rw [← hname]
    simp

/-- The core of a type expression has no more angle brackets than the expression. -/
theorem Decorated.angles_core_le {expression : Text} {d : Decorated}
    (h : Decorated.ofText expression = .ok d) : angles d.core ≤ angles expression := by
  unfold Decorated.ofText at h
  obtain ⟨⟨core, rest⟩, hc, h⟩ := bind_eq_ok.mp h
  dsimp only at h
  split at h
  · cases h
    exact angles_le_of_sublist ((Text.trim_sublist _).trans ((takeCore_sublist hc).trans
      ((List.dropWhile_sublist _).trans (Text.trim_sublist _))))
  · cases h

/-- The cores in the type arguments of a core have fewer angle brackets, also in canonical
spacing. -/
theorem angles_core_lt {core normal argument : Text} {a : Application} {d : Decorated}
    (hn : normalize core = .ok normal) (ha : Application.ofText normal = .ok a)
    (hm : argument ∈ a.arguments) (hd : Decorated.ofText argument = .ok d) :
    angles d.core < angles core :=
  calc angles d.core
    _ ≤ angles argument := Decorated.angles_core_le hd
    _ < angles normal := Application.angles_argument_lt ha hm
    _ ≤ angles core := angles_normalize_le hn

end Schemata
