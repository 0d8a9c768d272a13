import Mathlib.Data.List.Basic
import Mathlib.Tactic.Common
/-!
# Lines, and lines in pieces

A text is the concatenation of its lines, each with the mark that ends it;
the last may be without one. A reader with room for `n` characters does
not see lines but pieces of them: `cutLine` is what one call hands out,
and `lines_drop` says what lines are left after it, the rest of a long
line counted as one.
-/

namespace Dico

namespace Lines

variable {α : Type} [DecidableEq α] (nl : α)

/-- A character in front of the first line. -/
def consHead (b : α) : List (List α) → List (List α)
  | [] => [[b]]
  | l :: ls => (b :: l) :: ls

/-- The lines of a text. -/
def lines : List α → List (List α)
  | [] => []
  | b :: s => if b = nl then [b] :: lines s else consHead b (lines s)

/-- The characters up to the end of the line, `n` at most. -/
def cutLine : ℕ → List α → List α
  | 0, _ => []
  | _ + 1, [] => []
  | n + 1, b :: s => if b = nl then [b] else b :: cutLine n s

variable {nl} {s l : List α} {ls : List (List α)} {n : ℕ}

/-- The first line, if there is any text. -/
theorem exists_lines (nl : α) (h : s ≠ []) : ∃ l ls, lines nl s = l :: ls := by
  obtain ⟨b, s, rfl⟩ := List.exists_cons_of_ne_nil h
  rw [lines]
  split_ifs
  · exact ⟨_, _, rfl⟩
  · cases lines nl s with
    | nil => exact ⟨_, _, rfl⟩
    | cons l ls => exact ⟨_, _, rfl⟩

/-- The lines one after another are the text. -/
theorem flatten_lines (nl : α) (s : List α) : (lines nl s).flatten = s := by
  induction s with
  | nil => rfl
  | cons b s ih =>
    rw [lines]
    split_ifs
    · rw [List.flatten_cons, ih, List.singleton_append]
    · cases hs : lines nl s with
      | nil =>
        rw [hs, List.flatten_nil] at ih
        rw [← ih]
        rfl
      | cons l ls =>
        rw [hs] at ih
        rw [← ih]
        rfl

/-- Without a line there is no text. -/
theorem eq_nil_of_lines (h : lines nl s = []) : s = [] := by
  rw [← flatten_lines nl s, h, List.flatten_nil]

/-- No line is empty: it has its mark, or it would not be there. -/
theorem ne_nil_of_mem_lines (h : l ∈ lines nl s) : l ≠ [] := by
  induction s generalizing l with
  | nil => cases h
  | cons b s ih =>
    rw [lines] at h
    split_ifs at h
    · rcases List.mem_cons.1 h with rfl | h
      · exact List.cons_ne_nil _ _
      · exact ih h
    · cases hs : lines nl s with
      | nil =>
        rw [hs] at h
        rw [List.mem_singleton.1 h]
        exact List.cons_ne_nil _ _
      | cons l' ls =>
        rw [hs] at h ih
        rcases List.mem_cons.1 h with rfl | h
        · exact List.cons_ne_nil _ _
        · exact ih (List.mem_cons_of_mem _ h)

/-- The first line of a text, and the rest. -/
theorem lines_append_cons {body : List α} (hbody : nl ∉ body) (t : List α) :
    lines nl (body ++ nl :: t) = (body ++ [nl]) :: lines nl t := by
  induction body with
  | nil => rw [List.nil_append, lines, if_pos rfl, List.nil_append]
  | cons b body ih =>
    rw [List.mem_cons, not_or] at hbody
    rw [List.cons_append, lines, if_neg (Ne.symm hbody.1), ih hbody.2]
    rfl

/-- Lines that all have their mark are the lines of their
concatenation. -/
theorem lines_flatten (h : ∀ l ∈ ls, ∃ body, l = body ++ [nl] ∧ nl ∉ body) :
    lines nl ls.flatten = ls := by
  induction ls with
  | nil => rfl
  | cons l ls ih =>
    obtain ⟨body, rfl, hbody⟩ := h l List.mem_cons_self
    rw [List.flatten_cons, List.append_assoc, List.singleton_append, lines_append_cons hbody,
      ih fun l' hl' => h l' (List.mem_cons_of_mem _ hl')]

/-- In a text that ends with a mark every line has one. -/
theorem exists_body_of_mem_lines (hs : s = [] ∨ s.getLast? = some nl) (h : l ∈ lines nl s) :
    ∃ body, l = body ++ [nl] ∧ nl ∉ body := by
  induction s generalizing l with
  | nil => cases h
  | cons b s ih =>
    rw [lines] at h
    by_cases hb : b = nl
    · have hs' : s = [] ∨ s.getLast? = some nl := by
        cases s with
        | nil => exact .inl rfl
        | cons c s => exact .inr (hs.resolve_left (List.cons_ne_nil _ _))
      rw [if_pos hb] at h
      rcases List.mem_cons.1 h with rfl | h
      · exact ⟨[], by rw [hb, List.nil_append], List.not_mem_nil⟩
      · exact ih hs' h
    · have hs' : s ≠ [] ∧ s.getLast? = some nl := by
        have hlast := hs.resolve_left (List.cons_ne_nil _ _)
        cases s with
        | nil => exact absurd (Option.some.inj hlast) hb
        | cons c s => exact ⟨List.cons_ne_nil _ _, hlast⟩
      obtain ⟨l', ls', hls⟩ := exists_lines nl hs'.1
      rw [if_neg hb, hls, consHead] at h
      rcases List.mem_cons.1 h with rfl | h
      · obtain ⟨body, rfl, hbody⟩ := ih (.inr hs'.2) (hls ▸ List.mem_cons_self)
        refine ⟨b :: body, rfl, ?_⟩
        rw [List.mem_cons, not_or]
        exact ⟨Ne.symm hb, hbody⟩
      · exact ih (.inr hs'.2) (hls ▸ List.mem_cons_of_mem _ h)

/-- What one read hands out is the beginning of the first line. -/
theorem cutLine_eq (h : lines nl s = l :: ls) (n : ℕ) : cutLine nl n s = l.take n := by
  induction s generalizing l ls n with
  | nil => cases h
  | cons b s ih =>
    cases n with
    | zero => rw [cutLine, List.take_zero]
    | succ n =>
      rw [lines] at h
      rw [cutLine]
      split_ifs at h ⊢
      · obtain ⟨rfl, -⟩ := List.cons.inj h
        rw [List.take_succ_cons, List.take_nil]
      · cases hs : lines nl s with
        | nil =>
          obtain rfl := eq_nil_of_lines hs
          rw [hs] at h
          obtain ⟨rfl, -⟩ := List.cons.inj h
          cases n <;> rfl
        | cons l' ls' =>
          rw [hs] at h
          obtain ⟨rfl, -⟩ := List.cons.inj h
          rw [ih hs, List.take_succ_cons]

/-- It is the beginning of the text. -/
theorem take_length_cutLine (nl : α) (n : ℕ) (s : List α) :
    s.take (cutLine nl n s).length = cutLine nl n s := by
  induction s generalizing n with
  | nil => cases n <;> rfl
  | cons b s ih =>
    cases n with
    | zero => rfl
    | succ n =>
      rw [cutLine]
      split_ifs
      · rfl
      · rw [List.length_cons, List.take_succ_cons, ih]

/-- And no longer than there is room for. -/
theorem length_cutLine_le (nl : α) (n : ℕ) (s : List α) : (cutLine nl n s).length ≤ n := by
  induction s generalizing n with
  | nil => cases n <;> exact Nat.zero_le _
  | cons b s ih =>
    cases n with
    | zero => exact Nat.zero_le _
    | succ n =>
      rw [cutLine]
      split_ifs
      · exact Nat.succ_le_succ (Nat.zero_le n)
      · exact Nat.succ_le_succ (ih n)

/-- `m` characters are handed out where no line ends before the last of
them. -/
theorem le_length_cutLine {m : ℕ} (hnl : nl ∉ s.take (m - 1)) (hlen : m ≤ s.length) (hm : m ≤ n) :
    m ≤ (cutLine nl n s).length := by
  induction s generalizing m n with
  | nil => exact Nat.le_trans hlen (Nat.zero_le _)
  | cons b s ih =>
    cases n with
    | zero => exact Nat.le_trans hm (Nat.zero_le _)
    | succ n =>
      rw [cutLine]
      rw [List.length_cons] at hlen
      match m with
      | 0 => exact Nat.zero_le _
      | 1 => split_ifs <;> exact Nat.succ_le_succ (Nat.zero_le _)
      | m + 2 =>
        rw [show m + 2 - 1 = m + 1 by omega, List.take_succ_cons, List.mem_cons, not_or] at hnl
        rw [if_neg (Ne.symm hnl.1), List.length_cons]
        exact Nat.succ_le_succ (ih hnl.2 (by omega) (by omega))

/-- **What is left after it**: the other lines, behind the rest of the
first if that was longer. -/
theorem lines_drop (h : lines nl s = l :: ls) (n : ℕ) :
    lines nl (s.drop (l.take n).length) = if l.length ≤ n then ls else l.drop n :: ls := by
  induction s generalizing l ls n with
  | nil => cases h
  | cons b s ih =>
    cases n with
    | zero =>
      have hne := List.length_pos_of_ne_nil (ne_nil_of_mem_lines (h ▸ List.mem_cons_self))
      rw [List.take_zero, List.length_nil, List.drop_zero, List.drop_zero, if_neg (by omega), h]
    | succ n =>
      rw [lines] at h
      split_ifs at h
      · obtain ⟨rfl, rfl⟩ := List.cons.inj h
        rw [List.take_succ_cons, List.take_nil, List.length_singleton, List.drop_one,
          List.tail_cons, if_pos (by omega)]
      · cases hs : lines nl s with
        | nil =>
          obtain rfl := eq_nil_of_lines hs
          rw [hs] at h
          obtain ⟨rfl, rfl⟩ := List.cons.inj h
          rw [List.take_succ_cons, List.take_nil, List.length_singleton, List.drop_one,
            List.tail_cons, if_pos (by omega), hs]
        | cons l' ls' =>
          rw [hs] at h
          obtain ⟨rfl, rfl⟩ := List.cons.inj h
          rw [List.take_succ_cons, List.length_cons, List.drop_succ_cons, ih hs n,
            List.length_cons, List.drop_succ_cons]
          simp only [Nat.add_le_add_iff_right]

/-- What is left after some whole lines. -/
theorem lines_drop_flatten {before after : List (List α)} (h : lines nl s = before ++ after) :
    lines nl (s.drop before.flatten.length) = after := by
  induction before generalizing s with
  | nil => exact h
  | cons l before ih =>
    have hnext := lines_drop h l.length
    rw [List.take_length, if_pos (Nat.le_refl _)] at hnext
    rw [List.flatten_cons, List.length_append, ← List.drop_drop]
    exact ih hnext

/-- A line with the mark in front has nothing behind it. -/
theorem eq_singleton_of_head (h : lines nl s = l :: ls) (hhead : l.head? = some nl) :
    l = [nl] := by
  cases s with
  | nil => cases h
  | cons b s =>
    rw [lines] at h
    split_ifs at h with hb
    · obtain ⟨rfl, -⟩ := List.cons.inj h
      rw [hb]
    · cases hs : lines nl s with
      | nil =>
        rw [hs] at h
        obtain ⟨rfl, -⟩ := List.cons.inj h
        exact absurd (Option.some.inj hhead) hb
      | cons l' ls' =>
        rw [hs] at h
        obtain ⟨rfl, -⟩ := List.cons.inj h
        exact absurd (Option.some.inj hhead) hb

end Lines

end Dico
