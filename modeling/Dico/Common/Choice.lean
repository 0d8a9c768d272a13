import Mathlib.Data.List.Basic
/-!
# Choosing one by one

A selector is asked for one item after the other, and may remember in its
key what it was asked before. `chosen` are the items it says yes to.
-/

namespace Dico

namespace Choice

variable {α β ω κ : Type} (select : κ → ω → Bool × κ)

/-- What a selector chooses, asked for the words of some items in order. -/
def chosen (word : α → ω) : κ → List α → List α
  | _, [] => []
  | key, a :: l =>
    if (select key (word a)).1 then a :: chosen word (select key (word a)).2 l
    else chosen word (select key (word a)).2 l

variable {select}

/-- What is chosen does not depend on more than the words. -/
theorem chosen_map {word : α → ω} {word' : β → ω} {f : α → β} (hf : ∀ a, word' (f a) = word a)
    (key : κ) (l : List α) :
    (chosen select word key l).map f = chosen select word' key (l.map f) := by
  induction l generalizing key with
  | nil => rfl
  | cons a l ih =>
    rw [List.map_cons, chosen, chosen, hf]
    split_ifs
    · rw [List.map_cons, ih]
    · exact ih _

/-- It is of those that were asked for. -/
theorem mem_of_mem_chosen {word : α → ω} {key : κ} {l : List α} {a : α}
    (h : a ∈ chosen select word key l) : a ∈ l := by
  induction l generalizing key with
  | nil => cases h
  | cons b l ih =>
    rw [chosen] at h
    split_ifs at h
    · rcases List.mem_cons.1 h with rfl | h
      · exact List.mem_cons_self
      · exact List.mem_cons_of_mem _ (ih h)
    · exact List.mem_cons_of_mem _ (ih h)

end Choice

end Dico
