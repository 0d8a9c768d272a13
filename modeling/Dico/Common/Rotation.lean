import Mathlib.Data.List.Rotate
import Mathlib.Data.List.TakeWhile
/-!
# A queue that is turned

A list is gone through from the left. An element that is not marked joins
a queue at its end; a marked one turns the queue by one place.
`turned_eq_filter_iff` says when the queue ends in the order in which its
elements joined it: only if the marked elements come in whole rounds.
-/

namespace Dico

namespace Rotation

variable {α : Type*} {p : α → Bool} {l : List α}

/-- One element. -/
def turn (p : α → Bool) (queue : List α) (a : α) : List α :=
  if p a then queue.rotate 1 else queue ++ [a]

/-- The queue behind a list. -/
def turned (p : α → Bool) (queue l : List α) : List α := l.foldl (turn p) queue

/-- Behind every element that joins, the marked ones turn the queue by
whole rounds before the next joins. -/
def InRounds (marks : List Bool) : Prop :=
  ∀ i, marks[i]? = some false →
    (marks.take (i + 1)).count false ∣ ((marks.drop (i + 1)).takeWhile id).length

/-- Whether the rounds are whole can be counted. -/
instance (marks : List Bool) : Decidable (InRounds marks) :=
  decidable_of_iff (∀ i < marks.length, marks[i]? = some false →
      (marks.take (i + 1)).count false ∣ ((marks.drop (i + 1)).takeWhile id).length)
    ⟨fun h i hi => h i (List.getElem?_eq_some_iff.1 hi).1 hi, fun h i _ hi => h i hi⟩

/-- An element that joins. -/
theorem turned_cons_unmarked {a : α} (queue : List α) (h : p a = false) :
    turned p queue (a :: l) = turned p (queue ++ [a]) l := by
  rw [turned, List.foldl_cons, turn, h]
  rfl

/-- An element that turns. -/
theorem turned_cons_marked {a : α} (queue : List α) (h : p a = true) :
    turned p queue (a :: l) = turned p (queue.rotate 1) l := by
  rw [turned, List.foldl_cons, turn, h]
  rfl

/-- Elements that join. -/
theorem turned_unmarked (queue : List α) (h : ∀ a ∈ l, p a = false) :
    turned p queue l = queue ++ l := by
  induction l generalizing queue with
  | nil => rw [List.append_nil]; rfl
  | cons a l ih =>
    rw [List.forall_mem_cons] at h
    rw [turned_cons_unmarked queue h.1, ih _ h.2, List.append_assoc, List.singleton_append]

/-- Elements that turn. -/
theorem turned_marked (queue : List α) (h : ∀ a ∈ l, p a = true) :
    turned p queue l = queue.rotate l.length := by
  induction l generalizing queue with
  | nil => exact (List.rotate_zero queue).symm
  | cons a l ih =>
    rw [List.forall_mem_cons] at h
    rw [turned_cons_marked queue h.1, ih _ h.2, List.rotate_rotate, List.length_cons, Nat.add_comm]

/-- A list in two parts. -/
theorem turned_append (queue k : List α) :
    turned p queue (l ++ k) = turned p (turned p queue l) k := List.foldl_append

/-- The queue has the elements that joined it. -/
theorem turned_perm (queue l : List α) :
    (turned p queue l).Perm (queue ++ l.filter fun a => !p a) := by
  induction l generalizing queue with
  | nil => rw [List.filter_nil, List.append_nil]; rfl
  | cons a l ih =>
    cases ha : p a with
    | true =>
      rw [turned_cons_marked queue ha, List.filter_cons_of_neg (by rw [ha]; decide)]
      exact (ih _).trans ((List.rotate_perm queue 1).append_right _)
    | false =>
      rw [turned_cons_unmarked queue ha, List.filter_cons_of_pos (by rw [ha]; rfl)]
      exact (ih _).trans (List.Perm.of_eq (List.append_cons _ _ _).symm)

/-- A list with a last element is turned to one with the same last element
only by whole rounds. -/
theorem rotate_concat_iff {q q' : List α} {w : α} (hw : w ∉ q) (m : ℕ) :
    (q ++ [w]).rotate m = q' ++ [w] ↔ q.length + 1 ∣ m ∧ q = q' := by
  have hlen : (q ++ [w]).length = q.length + 1 := by rw [List.length_append, List.length_singleton]
  constructor
  · intro h
    have hdvd : q.length + 1 ∣ m := by
      by_contra hnot
      have hpos : m % (q.length + 1) ≠ 0 := fun h => hnot (Nat.dvd_of_mod_eq_zero h)
      have hle : m % (q.length + 1) ≤ q.length := Nat.lt_succ_iff.1 (Nat.mod_lt _ (Nat.succ_pos _))
      rw [List.rotate_eq_drop_append_take_mod, hlen, List.take_append_of_le_length hle] at h
      -- what ends up last came from within the queue
      have hne : q.take (m % (q.length + 1)) ≠ [] := by
        rw [Ne, List.take_eq_nil_iff, not_or]
        refine ⟨hpos, ?_⟩
        rintro rfl
        exact hpos (Nat.le_zero.1 hle)
      have hlast := congrArg List.getLast? h
      rw [List.getLast?_append_of_ne_nil _ hne, List.getLast?_concat] at hlast
      exact hw (List.mem_of_mem_take (List.mem_of_getLast? hlast))
    obtain ⟨k, rfl⟩ := hdvd
    rw [← hlen, List.rotate_length_mul] at h
    exact ⟨⟨k, rfl⟩, List.append_cancel_right h⟩
  · rintro ⟨⟨k, rfl⟩, rfl⟩
    rw [← hlen, List.rotate_length_mul]

/-- A list ends in marked elements, or has no others. -/
theorem marked_or_split (p : α → Bool) (l : List α) : (∀ a ∈ l, p a = true) ∨
    ∃ pre w run, l = pre ++ w :: run ∧ p w = false ∧ ∀ a ∈ run, p a = true := by
  induction l with
  | nil => exact .inl fun a ha => absurd ha List.not_mem_nil
  | cons a l ih =>
    rcases ih with hall | ⟨pre, w, run, rfl, hw, hrun⟩
    · cases ha : p a with
      | true => exact .inl (List.forall_mem_cons.2 ⟨ha, hall⟩)
      | false => exact .inr ⟨[], a, l, rfl, ha, hall⟩
    · exact .inr ⟨a :: pre, w, run, rfl, hw, hrun⟩

/-- Rounds without an element that joins. -/
theorem inRounds_of_marked {marks : List Bool} (h : ∀ b ∈ marks, b = true) : InRounds marks := by
  intro i hi
  exact absurd (h _ (List.mem_of_getElem? hi)) Bool.false_ne_true

/-- A run ends where an element joins. -/
theorem takeWhile_append_false (marks rest : List Bool) :
    (marks ++ false :: rest).takeWhile id = marks.takeWhile id := by
  induction marks with
  | nil => rfl
  | cons b marks ih => rw [List.cons_append, List.takeWhile_cons, List.takeWhile_cons, ih]

/-- Rounds behind the last element that joins. -/
theorem inRounds_append (marks : List Bool) (m : ℕ) :
    InRounds (marks ++ false :: List.replicate m true) ↔
      InRounds marks ∧ marks.count false + 1 ∣ m := by
  have hplace : (marks ++ false :: List.replicate m true)[marks.length]? = some false := by
    rw [List.getElem?_append_right le_rfl, Nat.sub_self, List.getElem?_cons_zero]
  have hcount : ((marks ++ false :: List.replicate m true).take (marks.length + 1)).count false =
      marks.count false + 1 := by
    rw [List.take_append, List.take_of_length_le (Nat.le_succ _), Nat.add_sub_cancel_left,
      List.take_succ_cons, List.take_zero, List.count_append, List.count_singleton_self]
  have hrun : (((marks ++ false :: List.replicate m true).drop
      (marks.length + 1)).takeWhile id).length = m := by
    have hall : (List.replicate m true).takeWhile id = List.replicate m true :=
      List.takeWhile_eq_self_iff.2 fun b hb => List.eq_of_mem_replicate hb
    rw [← List.drop_drop, List.drop_left, List.drop_one, List.tail_cons, hall,
      List.length_replicate]
  have hfirst : ∀ i < marks.length,
      (marks ++ false :: List.replicate m true)[i]? = marks[i]? ∧
      (marks ++ false :: List.replicate m true).take (i + 1) = marks.take (i + 1) ∧
      ((marks ++ false :: List.replicate m true).drop (i + 1)).takeWhile id =
        (marks.drop (i + 1)).takeWhile id := by
    intro i hi
    refine ⟨List.getElem?_append_left hi, List.take_append_of_le_length hi, ?_⟩
    rw [List.drop_append_of_le_length hi, takeWhile_append_false]
  constructor
  · intro h
    constructor
    · intro i hi
      obtain ⟨hi', -⟩ := List.getElem?_eq_some_iff.1 hi
      obtain ⟨hget, htake, hdrop⟩ := hfirst i hi'
      have hround := h i (hget.trans hi)
      rwa [htake, hdrop] at hround
    · have hround := h marks.length hplace
      rwa [hcount, hrun] at hround
  · rintro ⟨hmarks, hlast⟩ i hi
    rcases lt_trichotomy i marks.length with hlt | rfl | hgt
    · obtain ⟨hget, htake, hdrop⟩ := hfirst i hlt
      rw [htake, hdrop]
      exact hmarks i (hget.symm.trans hi)
    · rwa [hcount, hrun]
    · -- behind the last element that joins there are only marked ones
      obtain ⟨k, rfl⟩ : ∃ k, i = marks.length + (k + 1) := ⟨i - marks.length - 1, by omega⟩
      rw [List.getElem?_append_right (Nat.le_add_right _ _), Nat.add_sub_cancel_left,
        List.getElem?_cons_succ] at hi
      exact absurd (List.eq_of_mem_replicate (List.mem_of_getElem? hi)) Bool.false_ne_true

/-- **A queue keeps the order of its elements exactly if it is turned in
whole rounds.** -/
theorem turned_eq_filter_iff (h : l.Nodup) :
    turned p [] l = (l.filter fun a => !p a) ↔ InRounds (l.map p) := by
  -- on the last element that joins: it stays last, and what is before it is in order
  induction hn : l.length using Nat.strong_induction_on generalizing l with
  | _ n ih =>
    rcases marked_or_split p l with hall | ⟨pre, w, run, rfl, hw, hrun⟩
    · have hnone : (l.filter fun a => !p a) = [] := by
        rw [List.filter_eq_nil_iff]
        intro a ha
        rw [hall a ha]
        decide
      refine iff_of_true ?_ (inRounds_of_marked ?_)
      · rw [turned_marked [] hall, List.rotate_nil, hnone]
      · rintro b hb
        obtain ⟨a, ha, rfl⟩ := List.mem_map.1 hb
        exact hall a ha
    · obtain ⟨hpre, hrest, hdisj⟩ := List.nodup_append.1 h
      have hfilter : ((pre ++ w :: run).filter fun a => !p a) =
          (pre.filter fun a => !p a) ++ [w] := by
        have hnone : (run.filter fun a => !p a) = [] := by
          rw [List.filter_eq_nil_iff]
          intro a ha
          rw [hrun a ha]
          decide
        rw [List.filter_append, List.filter_cons_of_pos (by rw [hw]; rfl), hnone]
      have hturned : turned p [] (pre ++ w :: run) =
          (turned p [] pre ++ [w]).rotate run.length := by
        rw [turned_append, ← List.singleton_append, turned_append,
          turned_unmarked _ (List.forall_mem_singleton.2 hw), turned_marked _ hrun]
      have hmap : (pre ++ w :: run).map p =
          pre.map p ++ false :: List.replicate run.length true := by
        rw [List.map_append, List.map_cons, hw, List.map_eq_replicate_iff.2 hrun]
      have hperm : (turned p [] pre).Perm (pre.filter fun a => !p a) := turned_perm [] pre
      have hnot : w ∉ turned p [] pre := by
        intro hmem
        have hin := (List.mem_filter.1 (hperm.mem_iff.1 hmem)).1
        exact hdisj w hin w List.mem_cons_self rfl
      have hcount : (pre.map p).count false = (turned p [] pre).length := by
        rw [hperm.length_eq, ← List.countP_eq_length_filter, List.count, List.countP_map]
        congr 1
        funext a
        rw [Function.comp_apply]
        cases p a <;> rfl
      have hlt : pre.length < n := by
        rw [← hn, List.length_append, List.length_cons]
        omega
      rw [hturned, hfilter, rotate_concat_iff hnot, hmap, inRounds_append, hcount,
        ih pre.length hlt hpre rfl, and_comm]

end Rotation

end Dico
