import Mathlib.Data.List.Infix
import Mathlib.Tactic.Common
/-!
# The longest word of a table

A table of words is looked through for the longest one that a text begins
with. Where the words are grouped by their first letters, a search that has
found one may stop at the first word with another letter
(`Grouped.head_notMem`).
-/

namespace Dico

variable {α : Type*}

/-! ## How far two lists agree -/

/-- The length of the longest common beginning of two lists. -/
def commonLength [DecidableEq α] : List α → List α → ℕ
  | a :: s, b :: t => if a = b then commonLength s t + 1 else 0
  | _, _ => 0

section CommonLength

variable [DecidableEq α]

/-- It is no longer than the second list. -/
theorem commonLength_le (s t : List α) : commonLength s t ≤ t.length := by
  induction s generalizing t with
  | nil => cases t <;> exact Nat.zero_le _
  | cons a s ih =>
    cases t with
    | nil => exact le_rfl
    | cons b t =>
      rw [commonLength]
      split_ifs
      · exact Nat.succ_le_succ (ih t)
      · exact Nat.zero_le _

/-- It is as long if the first list begins with the second. -/
theorem commonLength_eq_length_iff (s t : List α) :
    commonLength s t = t.length ↔ t <+: s := by
  induction s generalizing t with
  | nil =>
    rw [List.prefix_nil]
    cases t with
    | nil => exact iff_of_true rfl rfl
    | cons b t => exact iff_of_false (Nat.succ_ne_zero _).symm (List.cons_ne_nil b t)
  | cons a s ih =>
    cases t with
    | nil => exact iff_of_true rfl List.nil_prefix
    | cons b t =>
      rw [commonLength, List.cons_prefix_cons, List.length_cons]
      by_cases hab : a = b
      · rw [if_pos hab, Nat.add_right_cancel_iff, ih, and_iff_right hab.symm]
      · rw [if_neg hab]
        exact iff_of_false (Nat.succ_ne_zero _).symm fun h => hab h.1.symm

/-- It is shorter otherwise. -/
theorem commonLength_lt_iff (s t : List α) : commonLength s t < t.length ↔ ¬ t <+: s := by
  rw [← commonLength_eq_length_iff, lt_iff_le_and_ne, and_iff_right (commonLength_le s t)]

/-- Where two lists begin alike it is not zero. -/
theorem commonLength_cons_ne_zero (a : α) (s t : List α) :
    commonLength (a :: s) (a :: t) ≠ 0 := by
  rw [commonLength, if_pos rfl]
  exact Nat.succ_ne_zero _

end CommonLength

/-! ## Groups -/

/-- Equal elements follow each other. -/
def Grouped : List α → Prop
  | a :: b :: l => (a = b ∨ a ∉ b :: l) ∧ Grouped (b :: l)
  | _ => True

/-- It is found out by going through the list. -/
def decidableGrouped [DecidableEq α] : (l : List α) → Decidable (Grouped l)
  | [] => isTrue trivial
  | [_] => isTrue trivial
  | a :: b :: l =>
    have := decidableGrouped (b :: l)
    inferInstanceAs (Decidable ((a = b ∨ a ∉ b :: l) ∧ Grouped (b :: l)))

instance [DecidableEq α] (l : List α) : Decidable (Grouped l) := decidableGrouped l

/-- **Behind another element a group does not go on.** -/
theorem Grouped.head_notMem {a b : α} {u v : List α} (h : Grouped (u ++ b :: v)) (ha : a ∈ u)
    (hab : b ≠ a) : a ∉ v := by
  induction u with
  | nil => exact absurd ha List.not_mem_nil
  | cons c u ih =>
    rcases u with - | ⟨d, u⟩
    · obtain rfl := List.mem_singleton.1 ha
      have hne : ¬ a = b := fun h => hab h.symm
      have hnot := h.1.resolve_left hne
      exact fun hv => hnot (List.mem_cons_of_mem b hv)
    · rcases List.mem_cons.1 ha with rfl | ha
      · rcases h.1 with rfl | hnot
        · exact ih h.2 List.mem_cons_self
        · intro hv
          exact hnot (List.mem_cons_of_mem d (List.mem_append_right u (List.mem_cons_of_mem b hv)))
      · exact ih h.2 ha

end Dico
