/-!
# Paths without repetition

A walk that keeps the names it has passed on a path, and stops at a name that is on it, comes to an
end: each step leaves fewer names to visit.
-/

namespace Schemata

variable {α : Type} [DecidableEq α]

/-- The number of entries of a list that are not on a path. -/
def unvisited (all path : List α) : Nat :=
  all.countP fun a => a ∉ path

theorem unvisited_append_le (all path more : List α) :
    unvisited all (path ++ more) ≤ unvisited all path := by
  refine List.countP_mono_left ?_
  intro a _ h
  simp_all

/-- A name put on the path is one fewer to visit. -/
theorem unvisited_append_lt {all path : List α} {a : α} (hall : a ∈ all) (hpath : a ∉ path) :
    unvisited all (path ++ [a]) < unvisited all path := by
  induction all with
  | nil => simp at hall
  | cons b all ih =>
      have hle := unvisited_append_le all path [a]
      simp only [unvisited, List.countP_cons] at ih hle ⊢
      by_cases hb : b = a
      · subst hb
        simp only [List.mem_append, List.mem_singleton, or_true, not_true, decide_false, hpath,
          not_false_eq_true, decide_true, Bool.false_eq_true, if_true, if_false] at hle ⊢
        omega
      · have hlt := ih ((List.mem_cons.mp hall).resolve_left (Ne.symm hb))
        by_cases hbp : b ∈ path <;> simp [hbp, hb] at hlt ⊢ <;> omega

end Schemata
