import Mathlib.Algebra.Ring.Nat
import Mathlib.Data.List.Basic
import Mathlib.Order.MinMax
import Mathlib.Tactic.Common
/-!
# The distance between two lists

The recursive definition of the Levenshtein distance, and of the distance
that also counts the exchange of two neighbours as one edit, as long as
nothing between them is touched (optimal string alignment). Both are the
cost of the cheapest way to turn one list into the other (`Script`), and
what a distance should be is read off the scripts: it does not depend on
the direction, nor on the end the lists are read from.
-/

namespace EditDistance

variable {α : Type*}

/-- A way to turn one list into another, and what it costs. -/
inductive Script (swaps : Bool) : List α → List α → ℕ → Prop
  | nil : Script swaps [] [] 0
  | delete (x : α) {xs ys : List α} {n : ℕ} :
      Script swaps xs ys n → Script swaps (x :: xs) ys (n + 1)
  | insert (y : α) {xs ys : List α} {n : ℕ} :
      Script swaps xs ys n → Script swaps xs (y :: ys) (n + 1)
  | keep (x : α) {xs ys : List α} {n : ℕ} :
      Script swaps xs ys n → Script swaps (x :: xs) (x :: ys) n
  | replace (x y : α) {xs ys : List α} {n : ℕ} :
      Script swaps xs ys n → Script swaps (x :: xs) (y :: ys) (n + 1)
  | swap (x y : α) {xs ys : List α} {n : ℕ} : swaps = true →
      Script swaps xs ys n → Script swaps (x :: y :: xs) (y :: x :: ys) (n + 1)

section Scripts

variable {swaps : Bool} {xs ys us vs : List α} {n m : ℕ}

/-- A script of insertions. -/
theorem script_nil_left (ys : List α) : Script swaps [] ys ys.length := by
  induction ys with
  | nil => exact .nil
  | cons y ys ih => exact .insert y ih

/-- A script of deletions. -/
theorem script_nil_right (xs : List α) : Script swaps xs [] xs.length := by
  induction xs with
  | nil => exact .nil
  | cons x xs ih => exact .delete x ih

/-- A script that changes nothing. -/
theorem Script.refl (xs : List α) : Script swaps xs xs 0 := by
  induction xs with
  | nil => exact .nil
  | cons x xs ih => exact .keep x ih

/-- A script read backwards. -/
theorem Script.symm (h : Script swaps xs ys n) : Script swaps ys xs n := by
  induction h with
  | nil => exact .nil
  | delete x _ ih => exact .insert x ih
  | insert y _ ih => exact .delete y ih
  | keep x _ ih => exact .keep x ih
  | replace x y _ ih => exact .replace y x ih
  | swap x y hswaps _ ih => exact .swap y x hswaps ih

/-- One script behind another. -/
theorem Script.append (h : Script swaps xs ys n) (h' : Script swaps us vs m) :
    Script swaps (xs ++ us) (ys ++ vs) (n + m) := by
  induction h with
  | nil => rwa [Nat.zero_add]
  | delete x _ ih =>
    rw [Nat.add_right_comm]
    exact .delete x ih
  | insert y _ ih =>
    rw [Nat.add_right_comm]
    exact .insert y ih
  | keep x _ ih => exact .keep x ih
  | replace x y _ ih =>
    rw [Nat.add_right_comm]
    exact .replace x y ih
  | swap x y hswaps _ ih =>
    rw [Nat.add_right_comm]
    exact .swap x y hswaps ih

/-- The lists can be read from their ends. -/
theorem Script.reverse (h : Script swaps xs ys n) : Script swaps xs.reverse ys.reverse n := by
  induction h with
  | nil => exact .nil
  | delete x _ ih =>
    have hlast := ih.append (.delete x .nil)
    rwa [List.append_nil, ← List.reverse_cons] at hlast
  | insert y _ ih =>
    have hlast := ih.append (.insert y .nil)
    rwa [List.append_nil, ← List.reverse_cons] at hlast
  | keep x _ ih =>
    rw [List.reverse_cons, List.reverse_cons]
    exact ih.append (.keep x .nil)
  | replace x y _ ih =>
    rw [List.reverse_cons, List.reverse_cons]
    exact ih.append (.replace x y .nil)
  | @swap x y xs ys n hswaps _ ih =>
    have hx : (x :: y :: xs).reverse = xs.reverse ++ [y, x] := by
      rw [List.reverse_cons, List.reverse_cons, List.append_assoc]
      rfl
    have hy : (y :: x :: ys).reverse = ys.reverse ++ [x, y] := by
      rw [List.reverse_cons, List.reverse_cons, List.append_assoc]
      rfl
    rw [hx, hy]
    exact ih.append (.swap y x hswaps .nil)

/-- The cheaper of two scripts. -/
theorem Script.min (h : Script swaps xs ys n) (h' : Script swaps xs ys m) :
    Script swaps xs ys (Min.min n m) := by
  rcases le_total n m with hle | hle
  · rwa [min_eq_left hle]
  · rwa [min_eq_right hle]

/-- Nothing is changed for nothing. -/
theorem Script.eq_of_zero (h : Script swaps xs ys 0) : xs = ys := by
  generalize hn : 0 = n at h
  induction h with
  | nil => rfl
  | delete | insert | replace | swap => omega
  | keep x _ ih => rw [ih hn]

end Scripts

/-! ## The recursion -/

variable [DecidableEq α]

/-- The distance, with or without exchanges. -/
def distance (swaps : Bool) : List α → List α → ℕ
  | [], ys => ys.length
  | _ :: xs, [] => xs.length + 1
  | x :: xs, y :: ys =>
    let n := min (min (distance swaps xs (y :: ys) + 1) (distance swaps (x :: xs) ys + 1))
      (distance swaps xs ys + if x = y then 0 else 1)
    match xs, ys with
    | x' :: xs', y' :: ys' =>
      if swaps ∧ x = y' ∧ x' = y then min n (distance swaps xs' ys' + 1) else n
    | _, _ => n
termination_by xs ys => xs.length + ys.length

variable {swaps : Bool} {x y : α} {xs ys : List α} {n : ℕ}

/-- To the empty list. -/
@[simp] theorem distance_nil_right (xs : List α) : distance swaps xs [] = xs.length := by
  cases xs with
  | nil => rw [distance, List.length_nil]
  | cons x xs => rw [distance, List.length_cons]

/-- From the empty list. -/
@[simp] theorem distance_nil_left (ys : List α) : distance swaps [] ys = ys.length := by
  rw [distance]

/-- The three edits that do not exchange anything. -/
def edits (swaps : Bool) (x y : α) (xs ys : List α) : ℕ :=
  min (min (distance swaps xs (y :: ys) + 1) (distance swaps (x :: xs) ys + 1))
    (distance swaps xs ys + if x = y then 0 else 1)

/-- Two lists whose first elements are not exchanged. -/
theorem distance_cons (h : ∀ x' xs' y' ys', xs = x' :: xs' → ys = y' :: ys' →
    ¬ (swaps = true ∧ x = y' ∧ x' = y)) :
    distance swaps (x :: xs) (y :: ys) = edits swaps x y xs ys := by
  rw [distance.eq_def]
  cases xs with
  | nil => rfl
  | cons x' xs =>
    cases ys with
    | nil => rfl
    | cons y' ys => exact if_neg (h _ _ _ _ rfl rfl)

/-- Two lists whose first elements can be exchanged. -/
theorem distance_swap (h : swaps = true) :
    distance swaps (x :: y :: xs) (y :: x :: ys) =
      min (edits swaps x y (y :: xs) (x :: ys)) (distance swaps xs ys + 1) := by
  rw [distance.eq_def]
  exact if_pos ⟨h, rfl, rfl⟩

/-- An exchange is one way among others. -/
theorem distance_le_edits : distance swaps (x :: xs) (y :: ys) ≤ edits swaps x y xs ys := by
  by_cases h : ∃ x' xs' y' ys', xs = x' :: xs' ∧ ys = y' :: ys' ∧
      (swaps = true ∧ x = y' ∧ x' = y)
  · obtain ⟨_, xs', _, ys', rfl, rfl, hswaps, rfl, rfl⟩ := h
    rw [distance_swap hswaps]
    exact min_le_left _ _
  · rw [distance_cons fun x' xs' y' ys' hxs hys hc => h ⟨x', xs', y', ys', hxs, hys, hc⟩]

/-- Deleting the first element. -/
theorem distance_delete_le (x : α) (xs ys : List α) :
    distance swaps (x :: xs) ys ≤ distance swaps xs ys + 1 := by
  cases ys with
  | nil => rw [distance_nil_right, distance_nil_right, List.length_cons]
  | cons y ys => exact distance_le_edits.trans ((min_le_left _ _).trans (min_le_left _ _))

/-- Inserting a first element. -/
theorem distance_insert_le (y : α) (xs ys : List α) :
    distance swaps xs (y :: ys) ≤ distance swaps xs ys + 1 := by
  cases xs with
  | nil => rw [distance_nil_left, distance_nil_left, List.length_cons]
  | cons x xs => exact distance_le_edits.trans ((min_le_left _ _).trans (min_le_right _ _))

/-- Replacing the first element, or keeping it. -/
theorem distance_replace_le (swaps : Bool) (x y : α) (xs ys : List α) :
    distance swaps (x :: xs) (y :: ys) ≤ distance swaps xs ys + if x = y then 0 else 1 :=
  distance_le_edits.trans (min_le_right _ _)

/-! ## The cheapest script -/

/-- The cheapest of the three edits. -/
theorem script_edits (hx : Script swaps xs (y :: ys) (distance swaps xs (y :: ys)))
    (hy : Script swaps (x :: xs) ys (distance swaps (x :: xs) ys))
    (hxy : Script swaps xs ys (distance swaps xs ys)) :
    Script swaps (x :: xs) (y :: ys) (edits swaps x y xs ys) := by
  refine (Script.min (.delete x hx) (.insert y hy)).min ?_
  split_ifs with h
  · subst h
    exact .keep x hxy
  · exact .replace x y hxy

/-- **There is a script of that cost.** -/
theorem script_distance (swaps : Bool) (xs ys : List α) :
    Script swaps xs ys (distance swaps xs ys) := by
  fun_induction distance swaps xs ys with
  | case1 ys => exact script_nil_left ys
  | case2 x xs => exact script_nil_right (x :: xs)
  | case3 x y x' xs y' ys h n ihx ihy ihxy ih =>
    obtain ⟨hswaps, rfl, rfl⟩ := h
    exact (script_edits ihx ihy ihxy).min (.swap x x' hswaps ih)
  | case4 x y x' xs y' ys h n ihx ihy ihxy => exact script_edits ihx ihy ihxy
  | case5 x xs y ys n _ ihx ihy ihxy => exact script_edits ihx ihy ihxy

/-- **And none is cheaper.** -/
theorem Script.distance_le (h : Script swaps xs ys n) : distance swaps xs ys ≤ n := by
  induction h with
  | nil => rw [distance_nil_left, List.length_nil]
  | @delete x xs ys n _ ih => exact (distance_delete_le x xs ys).trans (Nat.succ_le_succ ih)
  | @insert y xs ys n _ ih => exact (distance_insert_le y xs ys).trans (Nat.succ_le_succ ih)
  | @keep x xs ys n _ ih =>
    have hle := distance_replace_le swaps x x xs ys
    rw [if_pos rfl, Nat.add_zero] at hle
    exact hle.trans ih
  | @replace x y xs ys n _ ih =>
    refine (distance_replace_le swaps x y xs ys).trans (Nat.add_le_add ih ?_)
    split_ifs
    · exact Nat.zero_le 1
    · exact le_rfl
  | swap x y hswaps _ ih =>
    rw [distance_swap hswaps]
    exact (min_le_right _ _).trans (Nat.succ_le_succ ih)

/-! ## What a distance is -/

/-- **The direction does not matter.** -/
theorem distance_comm (xs ys : List α) : distance swaps xs ys = distance swaps ys xs :=
  le_antisymm (script_distance swaps ys xs).symm.distance_le
    (script_distance swaps xs ys).symm.distance_le

/-- **Nor does the end the lists are read from.** -/
theorem distance_reverse (xs ys : List α) :
    distance swaps xs.reverse ys.reverse = distance swaps xs ys := by
  refine le_antisymm (script_distance swaps xs ys).reverse.distance_le ?_
  have hle := (script_distance swaps xs.reverse ys.reverse).reverse.distance_le
  rwa [List.reverse_reverse, List.reverse_reverse] at hle

/-- **Only a list is at no distance from itself.** -/
theorem distance_eq_zero_iff (swaps : Bool) {xs ys : List α} :
    distance swaps xs ys = 0 ↔ xs = ys := by
  constructor
  · intro h
    have hscript := script_distance swaps xs ys
    rw [h] at hscript
    exact hscript.eq_of_zero
  · rintro rfl
    exact Nat.le_zero.1 (Script.refl xs).distance_le

omit [DecidableEq α] in
/-- A script does not lose more than it costs. -/
theorem Script.length_le (h : Script swaps xs ys n) : xs.length ≤ ys.length + n := by
  induction h with
  | nil => exact le_rfl
  | delete x _ ih =>
    rw [List.length_cons]
    omega
  | insert y _ ih =>
    rw [List.length_cons]
    omega
  | keep x _ ih =>
    rw [List.length_cons, List.length_cons]
    omega
  | replace x y _ ih =>
    rw [List.length_cons, List.length_cons]
    omega
  | swap x y _ _ ih =>
    simp only [List.length_cons]
    omega

/-- **The distance is at least the difference of the lengths.** -/
theorem length_le_add_distance (xs ys : List α) :
    xs.length ≤ ys.length + distance swaps xs ys :=
  (script_distance swaps xs ys).length_le

/-- **The distance is at most the longer length.** -/
theorem distance_le_max (xs ys : List α) :
    distance swaps xs ys ≤ max xs.length ys.length := by
  induction xs generalizing ys with
  | nil => rw [distance_nil_left, List.length_nil, Nat.zero_max]
  | cons x xs ih =>
    cases ys with
    | nil => rw [distance_nil_right, List.length_nil, Nat.max_zero]
    | cons y ys =>
      have hle := (Script.replace x y (script_distance swaps xs ys)).distance_le
      have hrest := ih ys
      rw [List.length_cons, List.length_cons, Nat.succ_max_succ]
      exact hle.trans (Nat.succ_le_succ hrest)

/-! ## The table -/

/-- The distances between the prefixes of two lists. -/
def table (swaps : Bool) (xs ys : List α) (i j : ℕ) : ℕ :=
  distance swaps (xs.take i).reverse (ys.take j).reverse

section Table

variable {i j : ℕ}

/-- The first row. -/
theorem table_zero_left (h : j ≤ ys.length) : table swaps xs ys 0 j = j := by
  rw [table, List.take_zero, List.reverse_nil, distance_nil_left, List.length_reverse,
    List.length_take, Nat.min_eq_left h]

/-- The first column. -/
theorem table_zero_right (h : i ≤ xs.length) : table swaps xs ys i 0 = i := by
  rw [table, List.take_zero, List.reverse_nil, distance_nil_right, List.length_reverse,
    List.length_take, Nat.min_eq_left h]

/-- The last cell. -/
theorem table_length (swaps : Bool) (xs ys : List α) :
    table swaps xs ys xs.length ys.length = distance swaps xs ys := by
  rw [table, List.take_length, List.take_length, distance_reverse]

omit [DecidableEq α] in
/-- A prefix that is longer by one. -/
theorem reverse_take_succ {xs : List α} {x : α} (h : xs[i]? = some x) :
    (xs.take (i + 1)).reverse = x :: (xs.take i).reverse := by
  rw [List.take_add_one, h, Option.toList_some, List.reverse_append]
  rfl

omit [DecidableEq α] in
/-- The last element of a prefix. -/
theorem getElem?_of_reverse_take {xs us : List α} {x : α} (hi : i ≤ xs.length)
    (h : (xs.take i).reverse = x :: us) : ∃ i', i = i' + 1 ∧ xs[i']? = some x := by
  cases i with
  | zero => cases h
  | succ i =>
    have hget := List.getElem?_eq_getElem (show i < xs.length from hi)
    rw [reverse_take_succ hget] at h
    exact ⟨i, rfl, hget.trans (congrArg some (List.cons.inj h).1)⟩

/-- **A cell, where nothing is exchanged.** -/
theorem table_succ (hx : xs[i]? = some x) (hy : ys[j]? = some y)
    (hno : ∀ i' j', i = i' + 1 → j = j' + 1 →
      ¬ (swaps = true ∧ ys[j']? = some x ∧ xs[i']? = some y)) :
    table swaps xs ys (i + 1) (j + 1) =
      min (min (table swaps xs ys i (j + 1) + 1) (table swaps xs ys (i + 1) j + 1))
        (table swaps xs ys i j + if x = y then 0 else 1) := by
  simp only [table, reverse_take_succ hx, reverse_take_succ hy]
  refine distance_cons ?_
  rintro x' xs' y' ys' hxs hys ⟨hswaps, rfl, rfl⟩
  obtain ⟨i', hi, hx'⟩ := getElem?_of_reverse_take (List.getElem?_eq_some_iff.1 hx).1.le hxs
  obtain ⟨j', hj, hy'⟩ := getElem?_of_reverse_take (List.getElem?_eq_some_iff.1 hy).1.le hys
  exact hno i' j' hi hj ⟨hswaps, hy', hx'⟩

/-- **A cell, where two neighbours can be exchanged.** An exchange of equal
neighbours may cost nothing as well: keeping them does not either. -/
theorem table_swap (hswaps : swaps = true) (hx : xs[i + 1]? = some x) (hy : ys[j + 1]? = some y)
    (hx' : xs[i]? = some y) (hy' : ys[j]? = some x) :
    table swaps xs ys (i + 2) (j + 2) =
      min (min (min (table swaps xs ys (i + 1) (j + 2) + 1)
          (table swaps xs ys (i + 2) (j + 1) + 1))
        (table swaps xs ys (i + 1) (j + 1) + if x = y then 0 else 1))
      (table swaps xs ys i j + if x = y then 0 else 1) := by
  have hkeep := distance_replace_le swaps y x (xs.take i).reverse (ys.take j).reverse
  simp only [table, reverse_take_succ hx, reverse_take_succ hy, reverse_take_succ hx',
    reverse_take_succ hy']
  rw [distance_swap hswaps, edits]
  split_ifs with hxy
  · rw [if_pos hxy.symm] at hkeep
    omega
  · rfl

end Table

end EditDistance
