import Mathlib.Logic.Relation
import Schemata.Proofs.Stacks

/-!
# The closure of an interface is what it reaches

The `implements` clauses of the interfaces of a schema make a graph of names.  Closing an interface
walks this graph and remembers every closure it has found.  What the walk gives is said without the
context: an interface closes to itself, followed by what the interfaces in its clause close to.  A
name closes to a list in finitely many steps, so none of the names that it reaches is on a cycle.
-/

namespace Schemata

open Resolve Relation List

variable {n : Text} {ns : List Text} {c : Context} {ds : List Declaration}

/-! ### The graph of the clauses -/

/-- An interface of the name `a` has `b` in its `implements` clause. -/
def Implements (ds : List Declaration) (a b : Text) : Prop :=
  ∃ i, interfaceNamed? ds a = some i ∧ b ∈ i.implements.getD []

/-- There is a path of `implements` clauses from `a` to `b`. -/
def Reaches (ds : List Declaration) : Text → Text → Prop :=
  ReflTransGen (Implements ds)

/-- The closure of a name can be found: every name that it reaches is an interface and on no
cycle. -/
def Closable (ds : List Declaration) (n : Text) : Prop :=
  ∀ m, Reaches ds n m →
    (∃ i, interfaceNamed? ds m = some i) ∧ ¬ TransGen (Implements ds) m m

/-! ### Names, each once -/

theorem mem_uniqueFrom {seen : List Text} : n ∈ uniqueFrom seen ns ↔ n ∈ ns ∧ n ∉ seen := by
  induction ns generalizing seen with
  | nil => simp [uniqueFrom]
  | cons m ns ih =>
    by_cases hm : m ∈ seen
    · simp only [uniqueFrom, hm, if_true, ih, mem_cons]
      constructor
      · rintro ⟨h, hs⟩
        exact ⟨.inr h, hs⟩
      · rintro ⟨rfl | h, hs⟩
        · exact absurd hm hs
        · exact ⟨h, hs⟩
    · simp only [uniqueFrom, hm, if_false, ih, mem_cons, not_or]
      constructor
      · rintro (rfl | ⟨h, -, hs⟩)
        · exact ⟨.inl rfl, hm⟩
        · exact ⟨.inr h, hs⟩
      · rintro ⟨rfl | h, hs⟩
        · exact .inl rfl
        · by_cases hn : n = m
          · exact .inl hn
          · exact .inr ⟨h, hn, hs⟩

@[simp] theorem mem_unique : n ∈ unique ns ↔ n ∈ ns := by
  simp [unique, mem_uniqueFrom]

/-! ### Closures in order -/

/-- Closing a name gives a list: the name itself, and then what the names in the clause of its
interface close to, each name once. -/
inductive ClosesTo (ds : List Declaration) : Text → List Text → Prop
  /-- The names in the clause are closed one after the other. -/
  | intro (n : Text) (i : Declaration) (found : List (List Text))
      (isInterface : interfaceNamed? ds n = some i)
      (length : (i.implements.getD []).length = found.length)
      (parents : ∀ p ∈ (i.implements.getD []).zip found, ClosesTo ds p.1 p.2) :
      ClosesTo ds n (unique (n :: found.flatten))

/-- Closing names gives a list, or nothing if there are no names. -/
def ClosesAllTo (ds : List Declaration) (names : List Text) (closed : Option (List Text)) : Prop :=
  ∃ found, Forall₂ (ClosesTo ds) names found ∧
    closed = if names.isEmpty then none else some (unique found.flatten)

/-- The names that an interface reaches are the interface itself and those that its parents
reach. -/
theorem reaches_iff {m : Text} {i : Declaration} (hi : interfaceNamed? ds n = some i) :
    Reaches ds n m ↔ m = n ∨ ∃ p ∈ i.implements.getD [], Reaches ds p m := by
  have hedge : ∀ p, Implements ds n p ↔ p ∈ i.implements.getD [] := by
    intro p
    constructor
    · rintro ⟨i', hi', hp⟩
      rw [hi] at hi'
      cases hi'
      exact hp
    · intro hp
      exact ⟨i, hi, hp⟩
  rw [Reaches, ReflTransGen.cases_head_iff]
  constructor
  · rintro (rfl | ⟨p, hp, hpm⟩)
    · exact .inl rfl
    · exact .inr ⟨p, (hedge p).mp hp, hpm⟩
  · rintro (rfl | ⟨p, hp, hpm⟩)
    · exact .inl rfl
    · exact .inr ⟨p, (hedge p).mpr hp, hpm⟩

namespace ClosesTo

variable {ds : List Declaration} {n : Text} {ns : List Text}

theorem cases_parents (h : ClosesTo ds n ns) : ∃ i found, interfaceNamed? ds n = some i ∧
    Forall₂ (ClosesTo ds) (i.implements.getD []) found ∧ ns = unique (n :: found.flatten) := by
  obtain ⟨n, i, found, isInterface, length, parents⟩ := h
  exact ⟨i, found, isInterface, forall₂_iff_zip.mpr ⟨length, fun {p ps} hp => parents (p, ps) hp⟩,
    rfl⟩

theorem of_parents {i : Declaration} {found : List (List Text)} (hi : interfaceNamed? ds n = some i)
    (h : Forall₂ (ClosesTo ds) (i.implements.getD []) found) :
    ClosesTo ds n (unique (n :: found.flatten)) :=
  .intro n i found hi h.length_eq fun _ hp => List.forall₂_zip h hp

/-- **A name closes to what it reaches.** -/
theorem mem_iff (h : ClosesTo ds n ns) (m : Text) : m ∈ ns ↔ Reaches ds n m := by
  induction h generalizing m with
  | intro n i found isInterface length parents ih =>
    have hpairs : Forall₂ (fun p ps => ∀ m, m ∈ ps ↔ Reaches ds p m) (i.implements.getD []) found :=
      forall₂_iff_zip.mpr ⟨length, fun {p ps} hp m => ih (p, ps) hp m⟩
    rw [reaches_iff isInterface, mem_unique, mem_cons, mem_flatten]
    constructor
    · rintro (rfl | ⟨ps, hps, hm⟩)
      · exact .inl rfl
      · obtain ⟨p, hp, hiff⟩ := exists_left_of_forall₂ hpairs hps
        exact .inr ⟨p, hp, (hiff m).mp hm⟩
    · rintro (rfl | ⟨p, hp, hm⟩)
      · exact .inl rfl
      · obtain ⟨ps, hps, hiff⟩ := exists_right_of_forall₂ hpairs hp
        exact .inr ⟨ps, hps, (hiff m).mpr hm⟩

theorem eq {ns' : List Text} (h : ClosesTo ds n ns) (h' : ClosesTo ds n ns') : ns = ns' := by
  induction h generalizing ns' with
  | intro n i found isInterface length parents ih =>
    obtain ⟨j, found', hj, hfound', rfl⟩ := h'.cases_parents
    rw [isInterface] at hj
    cases hj
    have hpairs : Forall₂ (fun p ps => ∀ ps', ClosesTo ds p ps' → ps = ps')
        (i.implements.getD []) found :=
      forall₂_iff_zip.mpr ⟨length, fun {p ps} hp ps' h => ih (p, ps) hp h⟩
    rw [eq_of_forall₂ hpairs hfound']

/-- A name that closes to a list can be closed: a cycle through it would lead from a parent back to
it, and the parent is closed in fewer steps. -/
theorem closable (h : ClosesTo ds n ns) : Closable ds n := by
  induction h with
  | intro n i found isInterface length parents ih =>
    have hparent : ∀ p ∈ i.implements.getD [], Closable ds p := by
      have hpairs : Forall₂ (fun p _ => Closable ds p) (i.implements.getD []) found :=
        forall₂_iff_zip.mpr ⟨length, fun {p ps} hp => ih (p, ps) hp⟩
      intro p hp
      obtain ⟨-, -, hclosable⟩ := exists_right_of_forall₂ hpairs hp
      exact hclosable
    intro m hm
    rcases (reaches_iff isInterface).mp hm with rfl | ⟨p, hp, hpm⟩
    · refine ⟨⟨i, isInterface⟩, fun hcycle => ?_⟩
      obtain ⟨p, ⟨i', hi', hp⟩, hback⟩ := TransGen.head'_iff.mp hcycle
      rw [isInterface] at hi'
      cases hi'
      exact (hparent p hp m hback).2 hcycle
    · exact hparent p hp m hpm

end ClosesTo

namespace ClosesAllTo

variable {ds : List Declaration} {names : List Text} {closed : Option (List Text)}

theorem mem_iff (h : ClosesAllTo ds names closed) (m : Text) :
    m ∈ closed.getD [] ↔ ∃ n ∈ names, Reaches ds n m := by
  obtain ⟨found, hfound, rfl⟩ := h
  cases hfound with
  | nil => simp
  | @cons n ns names found hn hfound =>
    have hall : Forall₂ (ClosesTo ds) (n :: names) (ns :: found) := .cons hn hfound
    rw [isEmpty_cons, if_neg Bool.false_ne_true, Option.getD_some, mem_unique, mem_flatten]
    constructor
    · rintro ⟨ms, hms, hm⟩
      obtain ⟨k, hk, hcloses⟩ := exists_left_of_forall₂ hall hms
      exact ⟨k, hk, (hcloses.mem_iff m).mp hm⟩
    · rintro ⟨k, hk, hm⟩
      obtain ⟨ms, hms, hcloses⟩ := exists_right_of_forall₂ hall hk
      exact ⟨ms, hms, (hcloses.mem_iff m).mpr hm⟩

theorem eq {closed' : Option (List Text)} (h : ClosesAllTo ds names closed)
    (h' : ClosesAllTo ds names closed') : closed = closed' := by
  obtain ⟨found, hfound, rfl⟩ := h
  obtain ⟨found', hfound', rfl⟩ := h'
  have hone : Forall₂ (fun n ns => ∀ ns', ClosesTo ds n ns' → ns = ns') names found :=
    hfound.imp fun _ _ h _ => h.eq
  rw [eq_of_forall₂ hone hfound']

theorem closable (h : ClosesAllTo ds names closed) : ∀ n ∈ names, Closable ds n := by
  obtain ⟨found, hfound, -⟩ := h
  intro n hn
  obtain ⟨ns, -, hcloses⟩ := exists_right_of_forall₂ hfound hn
  exact hcloses.closable

end ClosesAllTo

/-! ### What a context remembers -/

/-- The context remembers the closure of a name. -/
def Context.Knows (c : Context) (n : Text) : Prop :=
  ∃ ns, c.closures.get? n = some ns

/-- Every closure that a context remembers is what its name closes to, and the closures of all names
in it are remembered too. -/
def Context.ClosuresSound (ds : List Declaration) (c : Context) : Prop :=
  ∀ n ns, c.closures.get? n = some ns → ClosesTo ds n ns ∧ ∀ m ∈ ns, c.Knows m

/-- The second context differs from the first in nothing but the closures and the log, and has
forgotten no closure. -/
structure Context.ClosesMore (c c' : Context) : Prop where
  frame : c' = { c with closures := c'.closures, log := c'.log }
  knows : ∀ n, c.Knows n → c'.Knows n

theorem Context.ClosesMore.refl (c : Context) : c.ClosesMore c :=
  ⟨rfl, fun _ h => h⟩

theorem Context.ClosesMore.trans {c₁ c₂ c₃ : Context} (h : c₁.ClosesMore c₂)
    (h' : c₂.ClosesMore c₃) : c₁.ClosesMore c₃ := by
  refine ⟨?_, fun n hn => h'.knows n (h.knows n hn)⟩
  rw [h'.frame, h.frame]

theorem Context.ClosesMore.log (c : Context) (log : Log) : c.ClosesMore { c with log } :=
  ⟨rfl, fun _ h => h⟩

theorem Context.closuresSound_empty (ds : List Declaration) : ({} : Context).ClosuresSound ds := by
  intro n ns h
  exact absurd h (by simp [Table.get?, Table.find?])

theorem Context.knows_insert {m : Text} :
    Context.Knows { c with closures := c.closures.insert n ns } m ↔ m = n ∨ c.Knows m := by
  unfold Context.Knows
  simp only [Table.get?_insert]
  by_cases hm : m = n <;> simp [hm]

theorem Context.ClosesMore.insert (c : Context) (n : Text) (ns : List Text) :
    c.ClosesMore { c with closures := c.closures.insert n ns } :=
  ⟨rfl, fun _ h => Context.knows_insert.mpr (.inr h)⟩

theorem Context.ClosuresSound.insert (hc : c.ClosuresSound ds) (h : ClosesTo ds n ns)
    (hknows : ∀ m ∈ ns, m = n ∨ c.Knows m) :
    Context.ClosuresSound ds { c with closures := c.closures.insert n ns } := by
  intro m ms hm
  rw [Table.get?_insert] at hm
  split at hm
  · rename_i hmn
    cases hm
    rw [hmn]
    exact ⟨h, fun k hk => Context.knows_insert.mpr (hknows k hk)⟩
  · obtain ⟨hms, hk⟩ := hc m ms hm
    exact ⟨hms, fun k hmem => Context.knows_insert.mpr (.inr (hk k hmem))⟩

/-! ### Closing an interface -/

/-- The schema is refused because a declaration inherits from itself. -/
def Failure.IsCyclicInheritance (e : Failure) : Prop :=
  ∃ refusal, e = .schema refusal ∧ refusal.category = .cyclicInheritance

/-- The schema is refused for another reason. -/
def Failure.IsOtherRefusal (e : Failure) : Prop :=
  ∃ refusal, e = .schema refusal ∧ refusal.category ≠ .cyclicInheritance

theorem Failure.IsOtherRefusal.not_isCyclicInheritance {e : Failure} (h : e.IsOtherRefusal) :
    ¬ e.IsCyclicInheritance := by
  rintro ⟨refusal, rfl, hcyclic⟩
  obtain ⟨refusal, heq, hother⟩ := h
  cases heq
  exact hother hcyclic

theorem category_notInterface (ds : List Declaration) (n : Text) (owner : Option (Kind × Text)) :
    (notInterface ds n owner).category ≠ .cyclicInheritance := by
  unfold notInterface
  split <;> exact nofun

/-- **Closing an interface** gives what it closes to, and remembers the closures of all names in it.
It fails only for a name that cannot be closed, or that reaches a name on the path. -/
theorem closureFrom_meets {path : List Text} {owner : Option (Kind × Text)}
    (hc : c.ClosuresSound ds) : Meets (closureFrom ds path owner n) c
      (fun ns c' => (c'.ClosuresSound ds ∧ c.ClosesMore c') ∧ ClosesTo ds n ns ∧
        ∀ m ∈ ns, c'.Knows m)
      (fun e c' => (c'.ClosuresSound ds ∧ c.ClosesMore c') ∧ e.IsOtherRefusal ∧ ¬ c.Knows n ∧
        (Closable ds n → ∃ p ∈ path, Reaches ds n p)) := by
  -- the walk ends because each step leaves fewer names to visit
  induction hk : unvisited (ds.map Declaration.baseName) path using Nat.strongRecOn
    generalizing path owner n c with
  | _ k ih =>
    rw [closureFrom_eq, closureStep]
    simp only [meets_bind, meets_get]
    split
    · rename_i ns hn
      exact ⟨⟨hc, .refl c⟩, hc n ns hn⟩
    rename_i hn
    have hknows : ¬ c.Knows n := by
      rintro ⟨ns, hns⟩
      rw [hn] at hns
      cases hns
    split
    · rename_i hi
      refine ⟨⟨hc, .refl c⟩, ⟨_, rfl, category_notInterface ds n owner⟩, hknows, ?_⟩
      intro hclosable
      obtain ⟨⟨i, hi'⟩, -⟩ := hclosable n .refl
      rw [hi] at hi'
      cases hi'
    rename_i i hi
    split
    · rename_i hp
      exact ⟨⟨hc, .refl c⟩, ⟨_, rfl, by rintro ⟨⟩⟩, hknows, fun _ => ⟨n, hp, .refl⟩⟩
    rename_i hp
    have hlt : unvisited (ds.map Declaration.baseName) (path ++ [n]) < k :=
      hk ▸ unvisited_append_lt (mem_baseNames_of_interfaceNamed? hi) hp
    have hparents := Meets.mapM (I := Context.ClosuresSound ds) (L := Context.ClosesMore)
      (Q := fun p ps c' => ClosesTo ds p ps ∧ ∀ m ∈ ps, c'.Knows m)
      (E := fun e => e.IsOtherRefusal ∧ ∃ p ∈ i.implements.getD [], Closable ds p →
        ∃ q ∈ path ++ [n], Reaches ds p q)
      (f := closureFrom ds (path ++ [n]) (some (i.kind, i.name)))
      Context.ClosesMore.refl Context.ClosesMore.trans
      (fun hmore hq => ⟨hq.1, fun m hm => hmore.knows m (hq.2 m hm)⟩)
      (fun p hp c hc => (ih _ hlt hc rfl).imp (fun _ _ h => h)
        fun _ _ h => ⟨h.1, h.2.1, p, hp, h.2.2.2⟩) hc
    simp only [meets_bind, meets_modify, meets_pure]
    refine hparents.imp ?_ ?_
    · rintro found c₁ ⟨⟨hc₁, hmore⟩, hfound⟩
      have hcloses : ClosesTo ds n (unique (n :: found.flatten)) :=
        .of_parents hi (hfound.imp fun _ _ h => h.1)
      have hknown : ∀ m ∈ unique (n :: found.flatten), m = n ∨ c₁.Knows m := by
        intro m hm
        rcases mem_cons.mp (mem_unique.mp hm) with rfl | hm
        · exact .inl rfl
        · obtain ⟨ps, hps, hm⟩ := mem_flatten.mp hm
          obtain ⟨p, -, -, hps⟩ := exists_left_of_forall₂ hfound hps
          exact .inr (hps m hm)
      exact ⟨⟨hc₁.insert hcloses hknown, hmore.trans (.insert c₁ n _)⟩, hcloses,
        fun m hm => Context.knows_insert.mpr (hknown m hm)⟩
    · rintro e c₁ ⟨hkeeps, hother, p, hp', hreach⟩
      refine ⟨hkeeps, hother, hknows, fun hclosable => ?_⟩
      have hedge : Implements ds n p := ⟨i, hi, hp'⟩
      obtain ⟨q, hq, hpq⟩ := hreach fun m hm => hclosable m (.head hedge hm)
      rcases mem_append.mp hq with hq | hq
      · exact ⟨q, hq, .head hedge hpq⟩
      · -- the parent comes back to the name
        rw [mem_singleton.mp hq] at hpq
        exact absurd (TransGen.head' hedge hpq) (hclosable n .refl).2

/-- A name that can be closed is closed, on every path that it does not come back to. -/
theorem exists_gives_closureFrom {path : List Text} {owner : Option (Kind × Text)}
    (hc : c.ClosuresSound ds) (hn : Closable ds n) (hpath : ∀ p ∈ path, ¬ Reaches ds n p) :
    ∃ ns c', Gives (closureFrom ds path owner n) c ns c' ∧ ClosesTo ds n ns := by
  have hmeets : Meets (closureFrom ds path owner n) c (fun ns _ => ClosesTo ds n ns) fun _ _ =>
      False := by
    refine (closureFrom_meets hc).imp (fun _ _ h => h.2.1) ?_
    rintro e c' ⟨-, -, -, hreach⟩
    obtain ⟨p, hp, hnp⟩ := hreach hn
    exact hpath p hp hnp
  exact hmeets.exists_gives

/-- **Closing the interfaces of a declaration** gives what the names given to it close to.  It fails
only for a name that is not remembered, and that cannot be closed or reaches the path. -/
theorem closeInterfaces_meets {d : Declaration} {names : List Text} (hc : c.ClosuresSound ds) :
    Meets (closeInterfaces ds d names) c
      (fun closed c' => (c'.ClosuresSound ds ∧ c.ClosesMore c') ∧ ClosesAllTo ds names closed ∧
        ∀ m ∈ closed.getD [], c'.Knows m)
      (fun e c' => (c'.ClosuresSound ds ∧ c.ClosesMore c') ∧ e.IsOtherRefusal ∧
        ∃ n ∈ names, ¬ c.Knows n ∧ (Closable ds n → ∃ p ∈ c.closing ++ ownPath d,
          Reaches ds n p)) := by
  rw [closeInterfaces_eq]
  split
  · rename_i hnames
    rw [List.isEmpty_iff] at hnames
    subst hnames
    exact ⟨⟨hc, .refl c⟩, ⟨[], .nil, rfl⟩, by simp⟩
  · rename_i hnames
    simp only [meets_bind, meets_get, meets_tell, meets_pure]
    have hclosed := Meets.mapM (I := fun c' => c'.ClosuresSound ds ∧ c.ClosesMore c')
      (L := Context.ClosesMore) (Q := fun n ns c' => ClosesTo ds n ns ∧ ∀ m ∈ ns, c'.Knows m)
      (E := fun e => e.IsOtherRefusal ∧ ∃ n ∈ names, ¬ c.Knows n ∧
        (Closable ds n → ∃ p ∈ c.closing ++ ownPath d, Reaches ds n p))
      (f := closureFrom ds (c.closing ++ ownPath d) (some (d.kind, d.name)))
      Context.ClosesMore.refl Context.ClosesMore.trans
      (fun hmore hq => ⟨hq.1, fun m hm => hmore.knows m (hq.2 m hm)⟩)
      (fun n hn c₁ hc₁ => (closureFrom_meets hc₁.1).imp
        (fun _ _ h => ⟨⟨⟨h.1.1, hc₁.2.trans h.1.2⟩, h.1.2⟩, h.2⟩)
        fun _ _ h => ⟨⟨⟨h.1.1, hc₁.2.trans h.1.2⟩, h.1.2⟩, h.2.1, n, hn,
          fun hknown => h.2.2.1 (hc₁.2.knows n hknown), h.2.2.2⟩)
      ⟨hc, .refl c⟩
    refine hclosed.imp ?_ fun _ _ h => ⟨h.1.1, h.2⟩
    rintro found c₁ ⟨⟨⟨hc₁, hmore⟩, -⟩, hfound⟩
    refine ⟨⟨hc₁, hmore.trans (.log c₁ _)⟩,
      ⟨found, hfound.imp fun _ _ h => h.1, by rw [if_neg hnames]⟩, ?_⟩
    intro m hm
    obtain ⟨ns, hns, hm⟩ := mem_flatten.mp (mem_unique.mp hm)
    obtain ⟨n, -, -, hns⟩ := exists_left_of_forall₂ hfound hns
    exact hns m hm

end Schemata
