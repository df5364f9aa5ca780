import Schemata.Proofs.Resolution

/-!
# The closure of an interface as a search

A depth-first search from a name visits the name, and then searches from the names in the clause of
its interface, from left to right; a name that has been visited before is passed over.  Closing an
interface does not search in this way: it puts the closures of the parents together, some of them
remembered, and leaves out repetitions at the end.  It gives the same list, in the same order.
Where the search passes over a name, the closure repeats all that the name reaches, and all of it
has been visited: the search has left the name already, for otherwise the name would be on a cycle.
-/

namespace Schemata

open Resolve Relation List

variable {ds : List Declaration}

/-! ### Names in the order of their first occurrence -/

theorem uniqueFrom_congr {s s' : List Text} (h : ∀ m, m ∈ s ↔ m ∈ s') (ns : List Text) :
    uniqueFrom s ns = uniqueFrom s' ns := by
  induction ns generalizing s s' with
  | nil => rfl
  | cons n ns ih =>
    have hcons : ∀ m, m ∈ n :: s ↔ m ∈ n :: s' := by
      intro m
      rw [mem_cons, mem_cons, h]
    by_cases hn : n ∈ s
    · rw [uniqueFrom, uniqueFrom, if_pos hn, if_pos ((h n).mp hn), ih h]
    · rw [uniqueFrom, uniqueFrom, if_neg hn, if_neg (mt (h n).mpr hn), ih hcons]

theorem uniqueFrom_append (s ns ms : List Text) :
    uniqueFrom s (ns ++ ms) = uniqueFrom s ns ++ uniqueFrom (ns ++ s) ms := by
  induction ns generalizing s with
  | nil => rfl
  | cons n ns ih =>
    by_cases hn : n ∈ s
    · have hsame : ∀ m, m ∈ ns ++ s ↔ m ∈ n :: ns ++ s := by
        intro m
        simp only [mem_append, mem_cons]
        constructor
        · rintro (hm | hm)
          · exact .inl (.inr hm)
          · exact .inr hm
        · rintro ((rfl | hm) | hm)
          · exact .inr hn
          · exact .inl hm
          · exact .inr hm
      rw [cons_append, uniqueFrom, if_pos hn, ih, uniqueFrom, if_pos hn, uniqueFrom_congr hsame]
    · have hsame : ∀ m, m ∈ ns ++ n :: s ↔ m ∈ n :: ns ++ s := by
        intro m
        simp only [mem_append, mem_cons]
        tauto
      rw [cons_append, uniqueFrom, if_neg hn, ih, uniqueFrom, if_neg hn, cons_append,
        uniqueFrom_congr hsame]

theorem uniqueFrom_eq_nil {s ns : List Text} (h : ∀ n ∈ ns, n ∈ s) : uniqueFrom s ns = [] := by
  rw [eq_nil_iff_forall_not_mem]
  intro n hn
  obtain ⟨hn, hs⟩ := mem_uniqueFrom.mp hn
  exact hs (h n hn)

theorem uniqueFrom_uniqueFrom {s t : List Text} (h : ∀ m ∈ t, m ∈ s) (ns : List Text) :
    uniqueFrom s (uniqueFrom t ns) = uniqueFrom s ns := by
  induction ns generalizing s t with
  | nil => rfl
  | cons n ns ih =>
    by_cases ht : n ∈ t
    · rw [uniqueFrom, if_pos ht, ih h, uniqueFrom, if_pos (h n ht)]
    · rw [uniqueFrom, if_neg ht]
      by_cases hs : n ∈ s
      · rw [uniqueFrom, if_pos hs, uniqueFrom, if_pos hs]
        exact ih (forall_mem_cons.mpr ⟨hs, h⟩)
      · rw [uniqueFrom, if_neg hs, uniqueFrom, if_neg hs]
        rw [ih (forall_mem_cons.mpr ⟨mem_cons_self, fun m hm => mem_cons_of_mem _ (h m hm)⟩)]

/-! ### The search -/

/-- The first visits of a depth-first search from the names of a list, one after the other, when the
names in `seen` have been visited. -/
inductive FirstVisits (ds : List Declaration) : List Text → List Text → List Text → Prop
  | done (seen : List Text) : FirstVisits ds seen [] []
  | again {seen ns visits : List Text} {n : Text} (mem : n ∈ seen)
      (rest : FirstVisits ds seen ns visits) : FirstVisits ds seen (n :: ns) visits
  /-- Any other name is visited, then what is below it, then the rest. -/
  | first {seen ns below visits : List Text} {n : Text} {i : Declaration} (new : n ∉ seen)
      (isInterface : interfaceNamed? ds n = some i)
      (parents : FirstVisits ds (n :: seen) (i.implements.getD []) below)
      (rest : FirstVisits ds (n :: below ++ seen) ns visits) :
      FirstVisits ds seen (n :: ns) (n :: below ++ visits)

namespace FirstVisits

variable {ds : List Declaration} {seen seen' ns visits : List Text} {n : Text}

theorem congr (h : FirstVisits ds seen ns visits) (hsame : ∀ m, m ∈ seen ↔ m ∈ seen') :
    FirstVisits ds seen' ns visits := by
  induction h generalizing seen' with
  | done => exact .done seen'
  | again mem _ ih => exact .again ((hsame _).mp mem) (ih hsame)
  | first new isInterface _ _ ihp ihr =>
    refine .first (mt (hsame _).mpr new) isInterface (ihp fun m => ?_) (ihr fun m => ?_)
    · rw [mem_cons, mem_cons, hsame]
    · rw [mem_append, mem_append, hsame]

theorem nodup (h : FirstVisits ds seen ns visits) : visits.Nodup ∧ ∀ m ∈ visits, m ∉ seen := by
  induction h with
  | done => exact ⟨.nil, nofun⟩
  | again _ _ ih => exact ih
  | @first seen ns below visits n i new _ _ _ ihp ihr =>
    obtain ⟨hbelow, hnew⟩ := ihp
    obtain ⟨hvisits, hlate⟩ := ihr
    have hn : n ∉ below := fun hn => hnew n hn mem_cons_self
    refine ⟨(hbelow.cons hn).append hvisits ?_, ?_⟩
    · intro m hm hm'
      exact hlate m hm' (mem_append_left _ hm)
    · intro m hm
      rcases mem_append.mp hm with hm | hm
      · rcases mem_cons.mp hm with rfl | hm
        · exact new
        · exact fun hs => hnew m hm (mem_cons_of_mem _ hs)
      · exact fun hs => hlate m hm (mem_append_right _ hs)

theorem head? (h : FirstVisits ds [] [n] visits) : visits.head? = some n := by
  cases h with
  | again mem => exact absurd mem not_mem_nil
  | first => rfl

end FirstVisits

/-! ### The search gives the closure -/

/-- Of the names that have been seen, the search has left those that `n` reaches: it has seen all
that they reach. -/
def HasLeft (ds : List Declaration) (seen : List Text) (n : Text) : Prop :=
  ∀ m ∈ seen, Reaches ds n m → ∀ k, Reaches ds m k → k ∈ seen

/-- A search that comes to the name `n` visits what is new in the list `ns`, and goes on. -/
def SearchesTo (ds : List Declaration) (n : Text) (ns : List Text) : Prop :=
  ∀ {seen rest visits : List Text}, HasLeft ds seen n → FirstVisits ds (ns ++ seen) rest visits →
    FirstVisits ds seen (n :: rest) (uniqueFrom seen ns ++ visits)

/-- The search has left what is in the closure of a name, once it has seen all of it. -/
theorem HasLeft.append {seen ns : List Text} {n m : Text} (h : HasLeft ds seen m)
    (hcloses : ClosesTo ds n ns) : HasLeft ds (ns ++ seen) m := by
  intro k hk hreach l hl
  rcases mem_append.mp hk with hk | hk
  · rw [hcloses.mem_iff] at hk
    exact mem_append_left _ ((hcloses.mem_iff l).mpr (hk.trans hl))
  · exact mem_append_right _ (h k hk hreach l hl)

theorem firstVisits_flatten {seen names : List Text} {found : List (List Text)}
    (h : Forall₂ (fun p ps => ClosesTo ds p ps ∧ SearchesTo ds p ps) names found)
    (hleft : ∀ p ∈ names, HasLeft ds seen p) :
    FirstVisits ds seen names (uniqueFrom seen found.flatten) := by
  induction h generalizing seen with
  | nil => exact .done seen
  | cons hp _ ih =>
    rw [flatten_cons, uniqueFrom_append]
    refine hp.2 (hleft _ mem_cons_self) (ih fun q hq => ?_)
    exact (hleft q (mem_cons_of_mem _ hq)).append hp.1

theorem ClosesTo.searchesTo {n : Text} {ns : List Text} (h : ClosesTo ds n ns) :
    SearchesTo ds n ns := by
  have hcloses := h
  induction h with
  | intro n i found isInterface length parents ih =>
    intro seen rest visits hleft hrest
    by_cases hn : n ∈ seen
    · -- all of the closure has been seen
      have hseen : ∀ m ∈ unique (n :: found.flatten), m ∈ seen := fun m hm =>
        hleft n hn .refl m ((hcloses.mem_iff m).mp hm)
      rw [uniqueFrom_eq_nil hseen, nil_append]
      refine .again hn (hrest.congr fun m => ?_)
      rw [mem_append]
      exact ⟨fun hm => hm.elim (hseen m) id, .inr⟩
    · have hpairs : Forall₂ (fun p ps => ClosesTo ds p ps ∧ SearchesTo ds p ps)
          (i.implements.getD []) found :=
        forall₂_iff_zip.mpr ⟨length, fun {p ps} hp => ⟨parents _ hp, ih _ hp (parents _ hp)⟩⟩
      -- below the name the search comes back to nothing it has not left, so not to the name either
      have hparent : ∀ p ∈ i.implements.getD [], HasLeft ds (n :: seen) p := by
        intro p hp m hm hpm k hk
        have hedge : Implements ds n p := ⟨i, isInterface, hp⟩
        rcases mem_cons.mp hm with rfl | hm
        · exact absurd (TransGen.head' hedge hpm) (hcloses.closable m .refl).2
        · exact mem_cons_of_mem _ (hleft m hm (.head hedge hpm) k hk)
      have hvisits : uniqueFrom seen (unique (n :: found.flatten)) =
          n :: uniqueFrom (n :: seen) found.flatten := by
        rw [unique, uniqueFrom_uniqueFrom (forall_mem_nil _), uniqueFrom, if_neg hn]
      rw [hvisits]
      refine .first hn isInterface (firstVisits_flatten hpairs hparent) (hrest.congr fun m => ?_)
      simp only [mem_append, mem_cons, mem_unique, mem_uniqueFrom]
      tauto

/-- **A name closes to what a search from it visits**, in the order of the search. -/
theorem ClosesTo.firstVisits {n : Text} {ns : List Text} (h : ClosesTo ds n ns) :
    FirstVisits ds [] [n] ns := by
  obtain ⟨i, found, -, -, rfl⟩ := h.cases_parents
  have hsearch := h.searchesTo (fun _ hm => absurd hm not_mem_nil) (.done _)
  rwa [unique, uniqueFrom_uniqueFrom (forall_mem_nil _), append_nil] at hsearch

/-! ### Closing an interface -/

/-- **The closure of an interface is what it reaches.**  Whatever has been resolved and closed
before, and whether that succeeded or failed, the closure of a name is found exactly if the name
reaches nothing but interfaces and no cycle; otherwise the schema is refused.  The closure starts
with the name, holds each name that is reached once and no other, and lists them in the order of
their first visits by a depth-first search. -/
theorem closure_reachable {ds : List Declaration} {c : Context} (hc : c.Reached ds)
    (owner : Option (Kind × Text)) (n : Text) :
    ((∃ ns c', Gives (closure ds owner n) c ns c') ↔ Closable ds n) ∧
      (¬ Closable ds n → ∃ refusal c', (closure ds owner n).outcome c =
        (.error (.schema refusal), c')) ∧
      ∀ ns c', Gives (closure ds owner n) c ns c' →
        ns.head? = some n ∧ ns.Nodup ∧ (∀ m, m ∈ ns ↔ Reaches ds n m) ∧
          FirstVisits ds [] [n] ns := by
  obtain ⟨hsound, -⟩ := hc.sound
  have hmeets : Meets (closure ds owner n) c (fun ns _ => ClosesTo ds n ns)
      fun e _ => (∃ refusal, e = .schema refusal) ∧ ¬ Closable ds n := by
    unfold closure
    rw [meets_bind, meets_get]
    refine (closureFrom_meets hsound.closures).imp (fun _ _ h => h.2.1) ?_
    rintro e c' ⟨-, hother, -, hreach⟩
    refine ⟨hother.imp fun _ h => h.1, fun hclosable => ?_⟩
    obtain ⟨p, hp, -⟩ := hreach hclosable
    rw [hsound.closing] at hp
    exact absurd hp List.not_mem_nil
  rcases hout : (closure ds owner n).outcome c with ⟨e | ns, c'⟩
  · -- the closure is not found
    obtain ⟨⟨refusal, rfl⟩, hnot⟩ := hmeets.error hout
    have hnone : ∀ ns c', ¬ Gives (closure ds owner n) c ns c' := by
      intro ns c₁ h
      rw [h] at hout
      cases hout
    refine ⟨⟨?_, fun h => absurd h hnot⟩, fun _ => ⟨refusal, c', rfl⟩, ?_⟩
    · rintro ⟨ns, c₁, h⟩
      exact absurd h (hnone ns c₁)
    · intro ns c₁ h
      exact absurd h (hnone ns c₁)
  · have hclosable := (hmeets.gives hout).closable
    refine ⟨⟨fun _ => hclosable, fun _ => ⟨ns, c', hout⟩⟩, fun hnot => absurd hclosable hnot, ?_⟩
    intro ns₁ c₁ h
    have hcloses := hmeets.gives h
    have hvisits := hcloses.firstVisits
    exact ⟨hvisits.head?, hvisits.nodup.1, hcloses.mem_iff, hvisits⟩

/-- Interfaces that share a parent: `A` implements `B` and `C`, and both implement `D`.  The
interface `L` implements itself. -/
def sharedParent : List Declaration :=
  [{ kind := .interface, name := "A".toList, implements := some ["B".toList, "C".toList] },
    { kind := .interface, name := "B".toList, implements := some ["D".toList] },
    { kind := .interface, name := "C".toList, implements := some ["D".toList] },
    { kind := .interface, name := "D".toList },
    { kind := .interface, name := "L".toList, implements := some ["L".toList] }]

/-- The context after closing `L`, which fails, and `C`, which succeeds. -/
def sharedParentAsked : Context :=
  ((closure sharedParent none "C".toList).outcome
    ((closure sharedParent none "L".toList).outcome {}).2).2

/-- The theorem on interfaces that share a parent, after one closure has failed and another has been
remembered. -/
theorem closure_reachable_sharedParent :
    sharedParentAsked.Reached sharedParent ∧
      Closable sharedParent "A".toList ∧ ¬ Closable sharedParent "L".toList ∧
        FirstVisits sharedParent [] ["A".toList]
          ["A".toList, "B".toList, "D".toList, "C".toList] := by
  have hc : sharedParentAsked.Reached sharedParent :=
    (Context.Reached.fresh.closure none _).closure none _
  have hA : ((closure sharedParent none "A".toList).outcome sharedParentAsked).1.toOption =
      some ["A".toList, "B".toList, "D".toList, "C".toList] := by
    decide +kernel
  have hL : ((closure sharedParent none "L".toList).outcome sharedParentAsked).1.toOption =
      none := by
    decide +kernel
  have hgives := gives_of_outcome hA
  refine ⟨hc, (closure_reachable hc none _).1.mp ⟨_, _, hgives⟩, ?_,
    ((closure_reachable hc none _).2.2 _ _ hgives).2.2.2⟩
  intro hclosable
  obtain ⟨ns, c', h⟩ := (closure_reachable hc none _).1.mpr hclosable
  rw [h] at hL
  cases hL

end Schemata
