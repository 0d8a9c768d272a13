import Mathlib.Data.List.Range
import Mathlib.Data.List.Sort
import Mathlib.Tactic.Common
/-!
# Binary search, and the run around what it finds

`bsearch` is told how the key compares with each element, and by what its
callers are promised it may return any element that compares equal; where
the array is not in three parts, the greater ones last, it need not return
any. `Finds` is that promise. `bisect` keeps it, and so does the least
obliging search there is (`grudging`).

`extend` is what programs do with the element they are given: they step
back and forth from it as long as the elements compare equal. Stepping
back with a pointer, one is tempted to stop when it reaches the first
element, and that element is then never looked at. `forall_extend_iff`
says for which arrays nothing is lost, whatever the search returns.
-/

namespace Dico

namespace Bsearch

/-! ## The search -/

/-- The elements that compare less than the key come first, and those that
compare greater last. A comparison is positive where the key is the
greater. -/
def Partitioned (n : ℕ) (cmp : ℕ → ℤ) : Prop :=
  ∀ i j, i ≤ j → j < n → (0 ≤ cmp j → 0 ≤ cmp i) ∧ (0 < cmp j → 0 < cmp i)

/-- What a caller is promised of `bsearch`. -/
structure Finds (bsearch : ℕ → (ℕ → ℤ) → Option ℕ) : Prop where
  /-- What it returns is an element that compares equal. -/
  sound : ∀ n cmp k, bsearch n cmp = some k → k < n ∧ cmp k = 0
  /-- Where the array is as it should be, it returns one if there is one. -/
  complete : ∀ n cmp i, Partitioned n cmp → i < n → cmp i = 0 → bsearch n cmp ≠ none

/-- The loop that halves the part of the array still in question. -/
def bisectLoop (cmp : ℕ → ℤ) : ℕ → ℕ → ℕ → Option ℕ
  | 0, _, _ => none
  | fuel + 1, l, u =>
    if l < u then
      let idx := (l + u) / 2
      if cmp idx < 0 then bisectLoop cmp fuel l idx
      else if 0 < cmp idx then bisectLoop cmp fuel (idx + 1) u
      else some idx
    else none

/-- The search that halves. -/
def bisect (n : ℕ) (cmp : ℕ → ℤ) : Option ℕ := bisectLoop cmp (n + 1) 0 n

/-- What the loop returns compares equal. -/
theorem bisectLoop_sound {cmp : ℕ → ℤ} {fuel l u k : ℕ} (h : bisectLoop cmp fuel l u = some k) :
    k < u ∧ cmp k = 0 := by
  induction fuel generalizing l u with
  | zero => cases h
  | succ fuel ih =>
    rw [bisectLoop] at h
    dsimp only at h
    split_ifs at h with hlu hneg hpos
    · obtain ⟨hk, hzero⟩ := ih h
      exact ⟨by omega, hzero⟩
    · exact ih h
    · obtain rfl := Option.some.inj h
      exact ⟨by omega, by omega⟩

section Partition

variable {cmp : ℕ → ℤ} {n i m : ℕ} (hp : Partitioned n cmp) (hzero : cmp i = 0)

include hp hzero

/-- What compares equal comes before what compares greater. -/
theorem Partitioned.lt_of_neg (hi : i < n) (hm : cmp m < 0) : i < m := by
  by_contra hge
  have := (hp m i (not_lt.1 hge) hi).1 (by omega)
  omega

/-- And behind what compares less. -/
theorem Partitioned.lt_of_pos (hmn : m < n) (hm : 0 < cmp m) : m < i := by
  by_contra hle
  have := (hp i m (not_lt.1 hle) hmn).2 hm
  omega

end Partition

/-- An element that compares equal stays in question until one is
returned. -/
theorem bisectLoop_ne_none {cmp : ℕ → ℤ} {n fuel l u i : ℕ} (hp : Partitioned n cmp)
    (hu : u ≤ n) (hfuel : u - l < fuel) (hl : l ≤ i) (hi : i < u) (hzero : cmp i = 0) :
    bisectLoop cmp fuel l u ≠ none := by
  induction fuel generalizing l u with
  | zero => omega
  | succ fuel ih =>
    rw [bisectLoop, if_pos (by omega)]
    dsimp only
    split_ifs with hneg hpos
    · -- the middle is greater, and what is behind it too
      have hlt := hp.lt_of_neg hzero (by omega) hneg
      exact ih (by omega) (by omega) hl hlt
    · have hgt := hp.lt_of_pos hzero (by omega) hpos
      exact ih hu (by omega) (by omega) hi
    · exact Option.some_ne_none _

/-- **Halving keeps the promise.** -/
theorem finds_bisect : Finds bisect where
  sound _ _ _ h := bisectLoop_sound h
  complete n cmp i hp hi hzero :=
    bisectLoop_ne_none hp le_rfl (by omega) (Nat.zero_le i) hi hzero

/-- How many elements the search looks at before the one at `i`. -/
def stepsLoop : ℕ → ℕ → ℕ → ℕ → ℕ
  | 0, _, _, _ => 0
  | fuel + 1, l, u, i =>
    let idx := (l + u) / 2
    if i < idx then stepsLoop fuel l idx i + 1
    else if idx < i then stepsLoop fuel (idx + 1) u i + 1
    else 0

/-- In an array of `n`. -/
def steps (n i : ℕ) : ℕ := stepsLoop (n + 1) 0 n i

section Steps

variable {fuel l u i : ℕ}

/-- The one in the middle comes first. -/
theorem stepsLoop_mid : stepsLoop (fuel + 1) l u ((l + u) / 2) = 0 := by
  rw [stepsLoop]
  simp only [lt_irrefl, if_false]

/-- Those before it. -/
theorem stepsLoop_left (h : i < (l + u) / 2) :
    stepsLoop (fuel + 1) l u i = stepsLoop fuel l ((l + u) / 2) i + 1 := by
  rw [stepsLoop]
  exact if_pos h

/-- And those behind it. -/
theorem stepsLoop_right (h : (l + u) / 2 < i) :
    stepsLoop (fuel + 1) l u i = stepsLoop fuel ((l + u) / 2 + 1) u i + 1 := by
  rw [stepsLoop]
  simp only [if_neg (not_lt.2 h.le), if_pos h]

end Steps

/-- The loop returns the element it comes to first: any other takes
longer. -/
theorem bisectLoop_steps {cmp : ℕ → ℤ} {n fuel l u k i : ℕ} (hp : Partitioned n cmp)
    (hu : u ≤ n) (h : bisectLoop cmp fuel l u = some k) (hi : i < u) (hzero : cmp i = 0)
    (hne : i ≠ k) : stepsLoop fuel l u k < stepsLoop fuel l u i := by
  induction fuel generalizing l u with
  | zero => cases h
  | succ fuel ih =>
    rw [bisectLoop] at h
    dsimp only at h
    split_ifs at h with hlu hneg hpos
    · -- what was returned and what compares equal are both before the middle
      have hlt := hp.lt_of_neg hzero (by omega) hneg
      have hk := (bisectLoop_sound h).1
      have hsteps := ih (by omega) h hlt
      rw [stepsLoop_left hlt, stepsLoop_left hk]
      omega
    · obtain ⟨-, hkzero⟩ := bisectLoop_sound h
      have hi' := hp.lt_of_pos hzero (by omega) hpos
      have hk' := hp.lt_of_pos hkzero (by omega) hpos
      have hsteps := ih hu h hi
      rw [stepsLoop_right hi', stepsLoop_right hk']
      omega
    · obtain rfl := Option.some.inj h
      rw [stepsLoop_mid]
      rcases Nat.lt_or_gt_of_ne hne with hlt | hgt
      · rw [stepsLoop_left hlt]
        omega
      · rw [stepsLoop_right hgt]
        omega

/-- The first of some elements, and the one the search comes to first. -/
def FirstMet (n : ℕ) (P : ℕ → Prop) (k : ℕ) : Prop :=
  k < n ∧ P k ∧ (∀ i < k, ¬ P i) ∧ ∀ i < n, P i → steps n k ≤ steps n i

/-- It is so of the same elements. -/
theorem firstMet_congr {n k : ℕ} {P Q : ℕ → Prop} (h : ∀ i < n, P i ↔ Q i) :
    FirstMet n P k ↔ FirstMet n Q k := by
  have himp : ∀ P Q : ℕ → Prop, (∀ i < n, P i ↔ Q i) → FirstMet n P k → FirstMet n Q k := by
    rintro P Q h ⟨hk, hPk, hfirst, hmin⟩
    exact ⟨hk, (h k hk).1 hPk, fun i hi hQ => hfirst i hi ((h i (by omega)).2 hQ),
      fun i hi hQ => hmin i hi ((h i hi).2 hQ)⟩
  exact ⟨himp P Q h, himp Q P fun i hi => (h i hi).symm⟩

/-- **When the search returns the first element that compares equal**: it
is the one it comes to first. -/
theorem firstMet_iff {cmp : ℕ → ℤ} {n k : ℕ} (hp : Partitioned n cmp)
    (hk : bisect n cmp = some k) (j : ℕ) :
    FirstMet n (fun i => cmp i = 0) j ↔ j = k ∧ ∀ i < k, cmp i ≠ 0 := by
  obtain ⟨hkn, hkzero⟩ := finds_bisect.sound _ _ _ hk
  constructor
  · rintro ⟨hjn, hjzero, hfirst, hmin⟩
    have hjk : j = k := by
      by_contra hne
      have hlt := bisectLoop_steps hp le_rfl hk hjn hjzero hne
      have hle := hmin k hkn hkzero
      rw [steps, steps] at hle
      omega
    subst hjk
    exact ⟨rfl, hfirst⟩
  · rintro ⟨rfl, hfirst⟩
    refine ⟨hkn, hkzero, hfirst, fun i hi hzero => ?_⟩
    rcases eq_or_ne i j with rfl | hne
    · exact le_rfl
    · exact (bisectLoop_steps hp le_rfl hk hi hzero hne).le

section Seen

variable {cmp : ℕ → ℤ} {e fuel l u i k : ℕ}

/-- On its way to the elements before `e`, the loop looks at the one at `i`:
it comes there before it comes to any between. -/
def SeenIn (fuel l u e i : ℕ) : Prop :=
  ∀ j, i < j → j < e → stepsLoop fuel l u i < stepsLoop fuel l u j

/-- And so does the search. -/
def Seen (n e i : ℕ) : Prop := SeenIn (n + 1) 0 n e i

/-- The first of some elements before `e` that it looks at. -/
def FirstSeen (n e : ℕ) (P : ℕ → Prop) (k : ℕ) : Prop :=
  k < e ∧ P k ∧ Seen n e k ∧ ∀ i < k, P i → ¬ Seen n e i

/-- The way to the left. -/
theorem seenIn_left (he : e ≤ (l + u) / 2) (hi : i < e) :
    SeenIn (fuel + 1) l u e i ↔ SeenIn fuel l ((l + u) / 2) e i := by
  refine forall_congr' fun j => forall_congr' fun _ => forall_congr' fun hj => ?_
  rw [stepsLoop_left (by omega), stepsLoop_left (by omega)]
  omega

/-- The way to the right. -/
theorem seenIn_right (hi : (l + u) / 2 < i) :
    SeenIn (fuel + 1) l u e i ↔ SeenIn fuel ((l + u) / 2 + 1) u e i := by
  refine forall_congr' fun j => forall_congr' fun hij => forall_congr' fun _ => ?_
  rw [stepsLoop_right hi, stepsLoop_right (by omega)]
  omega

/-- The middle is looked at. -/
theorem seenIn_mid : SeenIn (fuel + 1) l u e ((l + u) / 2) := by
  intro j hj _
  rw [stepsLoop_mid, stepsLoop_right hj]
  omega

/-- And nothing to its left is, if the way is to the right of it. -/
theorem not_seenIn_of_lt (he : (l + u) / 2 < e) (hi : i < (l + u) / 2) :
    ¬ SeenIn (fuel + 1) l u e i := by
  intro h
  have hlt := h _ hi he
  rw [stepsLoop_mid] at hlt
  omega

/-- The loop returns the first element that compares equal of those it looks
at on its way, if those that compare greater are the last. -/
theorem bisectLoop_eq_some_iff (hfuel : u - l < fuel) (hle : l ≤ e) (heu : e ≤ u)
    (hleft : ∀ i < e, 0 ≤ cmp i) (hright : ∀ i, e ≤ i → i < u → cmp i < 0) :
    bisectLoop cmp fuel l u = some k ↔ l ≤ k ∧ k < e ∧ cmp k = 0 ∧ SeenIn fuel l u e k ∧
      ∀ i, l ≤ i → i < k → cmp i = 0 → ¬ SeenIn fuel l u e i := by
  induction fuel generalizing l u with
  | zero => omega
  | succ fuel ih =>
    rw [bisectLoop]
    dsimp only
    split_ifs with hlu hneg hpos
    · -- the middle compares greater: the way goes to the left of it
      have hidx : e ≤ (l + u) / 2 := by
        by_contra hlt
        have := hleft _ (not_le.1 hlt)
        omega
      rw [ih (by omega) hle hidx fun i hi hiu => hright i hi (by omega)]
      refine and_congr_right fun _ => and_congr_right fun hk => and_congr_right fun _ => ?_
      rw [seenIn_left hidx hk]
      refine and_congr_right fun _ => forall_congr' fun i => forall_congr' fun _ =>
        forall_congr' fun hik => forall_congr' fun _ => ?_
      rw [seenIn_left hidx (by omega)]
    · have hidx : (l + u) / 2 < e := by
        by_contra hge
        have := hright _ (not_lt.1 hge) (by omega)
        omega
      -- what is to its left is never looked at, so it need not be in order
      rw [ih (by omega) (by omega) heu hright]
      constructor
      · rintro ⟨hlk, hke, hzero, hk, hfirst⟩
        refine ⟨by omega, hke, hzero, (seenIn_right (by omega)).2 hk, fun i hi hik hizero => ?_⟩
        rcases Nat.lt_trichotomy i ((l + u) / 2) with hlt | rfl | hgt
        · exact not_seenIn_of_lt hidx hlt
        · omega
        · rw [seenIn_right hgt]
          exact hfirst i (by omega) hik hizero
      · rintro ⟨hlk, hke, hzero, hk, hfirst⟩
        have hgt : (l + u) / 2 < k := by
          rcases Nat.lt_trichotomy k ((l + u) / 2) with hlt | rfl | hgt
          · exact absurd hk (not_seenIn_of_lt hidx hlt)
          · omega
          · exact hgt
        refine ⟨by omega, hke, hzero, (seenIn_right hgt).1 hk, fun i hi hik hizero => ?_⟩
        rw [← seenIn_right (by omega)]
        exact hfirst i (by omega) hik hizero
    · have hzero : cmp ((l + u) / 2) = 0 := by omega
      have hidx : (l + u) / 2 < e := by
        by_contra hge
        have := hright _ (not_lt.1 hge) (by omega)
        omega
      rw [Option.some.injEq]
      constructor
      · rintro rfl
        exact ⟨by omega, hidx, hzero, seenIn_mid, fun i _ hi _ => not_seenIn_of_lt hidx hi⟩
      · rintro ⟨hlk, hke, -, hk, hfirst⟩
        rcases Nat.lt_trichotomy k ((l + u) / 2) with hlt | rfl | hgt
        · exact absurd hk (not_seenIn_of_lt hidx hlt)
        · rfl
        · exact absurd seenIn_mid (hfirst _ (by omega) hgt hzero)
    · exact iff_of_false (fun h => by cases h) fun h => by omega

/-- **What the search returns when only those that compare greater are known
to be the last.** -/
theorem bisect_eq_some_iff {n : ℕ} (he : e ≤ n) (hleft : ∀ i < e, 0 ≤ cmp i)
    (hright : ∀ i, e ≤ i → i < n → cmp i < 0) :
    bisect n cmp = some k ↔ FirstSeen n e (fun i => cmp i = 0) k := by
  rw [bisect, bisectLoop_eq_some_iff (by omega) (Nat.zero_le e) he hleft hright]
  simp only [Nat.zero_le, true_and, FirstSeen, Seen, forall_const]

/-- Where what has a property comes first, it is as much as can be taken. -/
theorem lt_length_takeWhile_iff {α : Type} {l : List α} {P : α → Bool}
    (h : l.Pairwise fun a b => P b = true → P a = true) {x : α} (hx : l[i]? = some x) :
    i < (l.takeWhile P).length ↔ P x = true := by
  induction l generalizing i with
  | nil => cases hx
  | cons a l ih =>
    obtain ⟨ha, hl⟩ := List.pairwise_cons.1 h
    by_cases hP : P a = true
    · rw [List.takeWhile_cons_of_pos hP, List.length_cons]
      cases i with
      | zero =>
        obtain rfl := Option.some.inj hx
        exact iff_of_true (Nat.zero_lt_succ _) hP
      | succ i =>
        rw [Nat.add_lt_add_iff_right]
        exact ih hl hx
    · rw [List.takeWhile_cons_of_neg hP]
      refine iff_of_false (Nat.not_lt_zero i) fun hx' => hP ?_
      rcases List.mem_cons.1 (List.mem_of_getElem? hx) with rfl | hmem
      · exact hx'
      · exact ha x hmem hx'

/-- And it is all there is. -/
theorem filter_eq_takeWhile_of_first {α : Type} {l : List α} {P : α → Bool}
    (h : l.Pairwise fun a b => P b = true → P a = true) : l.filter P = l.takeWhile P := by
  induction l with
  | nil => rfl
  | cons a l ih =>
    obtain ⟨ha, hl⟩ := List.pairwise_cons.1 h
    by_cases hP : P a = true
    · rw [List.filter_cons_of_pos hP, List.takeWhile_cons_of_pos hP, ih hl]
    · rw [List.takeWhile_cons_of_neg hP, List.filter_eq_nil_iff]
      intro x hx hPx
      rcases List.mem_cons.1 hx with rfl | hmem
      · exact hP hPx
      · exact hP (ha x hmem hPx)

/-- The search in a list, where those that compare greater are the last. -/
theorem bisect_list_iff {α : Type} {l : List α} {P : α → Bool}
    (h : l.Pairwise fun a b => P b = true → P a = true)
    (hcmp : ∀ i x, l[i]? = some x → (P x = true ↔ 0 ≤ cmp i)) :
    bisect l.length cmp = some k ↔
      FirstSeen l.length (l.takeWhile P).length (fun i => cmp i = 0) k := by
  have hpre : l.takeWhile P <+: l := List.takeWhile_prefix P
  have hle := hpre.length_le
  refine bisect_eq_some_iff hle (fun i hi => ?_) fun i hi hin => ?_
  · have hx := List.getElem?_eq_getElem (by omega : i < l.length)
    exact (hcmp i _ hx).1 ((lt_length_takeWhile_iff h hx).1 hi)
  · have hx := List.getElem?_eq_getElem hin
    rw [← not_le, ← hcmp i _ hx, ← lt_length_takeWhile_iff h hx]
    omega

end Seen

/-- The first element that compares equal. -/
def firstZero (n : ℕ) (cmp : ℕ → ℤ) : Option ℕ := (List.range n).find? fun i => cmp i = 0

/-- The search that looks at every element in turn keeps the promise. -/
theorem finds_firstZero : Finds firstZero where
  sound n cmp k h := by
    have hmem := List.mem_range.1 (List.mem_of_find?_eq_some h)
    exact ⟨hmem, of_decide_eq_true (List.find?_some (p := fun i => decide (cmp i = 0)) h)⟩
  complete n cmp i _ hi hzero h := by
    have hnone := List.find?_eq_none.1 h i (List.mem_range.2 hi)
    exact hnone (decide_eq_true hzero)

/-- It finds something in any array that has it. -/
theorem exists_firstZero {n i : ℕ} {cmp : ℕ → ℤ} (hi : i < n) (hzero : cmp i = 0) :
    ∃ k, firstZero n cmp = some k := by
  cases hk : firstZero n cmp with
  | none => exact absurd (decide_eq_true hzero) (List.find?_eq_none.1 hk i (List.mem_range.2 hi))
  | some k => exact ⟨k, rfl⟩

/-- And finds the first element, if that compares equal. -/
theorem firstZero_eq_zero {n : ℕ} {cmp : ℕ → ℤ} (hn : 0 < n) (h : cmp 0 = 0) :
    firstZero n cmp = some 0 := by
  obtain ⟨n, rfl⟩ : ∃ m, n = m + 1 := ⟨n - 1, by omega⟩
  rw [firstZero, List.range_succ_eq_map, List.find?_cons_of_pos]
  exact decide_eq_true h

/-- The last element that compares equal. -/
def lastZero (cmp : ℕ → ℤ) : ℕ → Option ℕ
  | 0 => none
  | n + 1 => if cmp n = 0 then some n else lastZero cmp n

/-- There is one if any compares equal. -/
theorem exists_lastZero {cmp : ℕ → ℤ} {n i : ℕ} (hi : i < n) (hzero : cmp i = 0) :
    ∃ k, lastZero cmp n = some k ∧ i ≤ k := by
  induction n with
  | zero => omega
  | succ n ih =>
    rw [lastZero]
    split_ifs with hn
    · exact ⟨n, rfl, by omega⟩
    · rcases Nat.lt_or_ge i n with hlt | hge
      · exact ih hlt
      · obtain rfl : i = n := by omega
        exact absurd hzero hn

/-- And it does. -/
theorem lastZero_sound {cmp : ℕ → ℤ} {n k : ℕ} (h : lastZero cmp n = some k) :
    k < n ∧ cmp k = 0 := by
  induction n with
  | zero => cases h
  | succ n ih =>
    rw [lastZero] at h
    split_ifs at h with hn
    · obtain rfl := Option.some.inj h
      exact ⟨by omega, hn⟩
    · obtain ⟨hk, hzero⟩ := ih h
      exact ⟨by omega, hzero⟩

/-- So the search that looks at every element keeps the promise, and finds
something in any array. -/
theorem finds_lastZero : Finds fun n cmp => lastZero cmp n where
  sound _ _ _ h := lastZero_sound h
  complete n cmp i _ hi hzero := by
    obtain ⟨k, hk, -⟩ := exists_lastZero hi hzero
    rw [hk]
    exact Option.some_ne_none k

open Classical in
/-- The least obliging search: it returns the last element that compares
equal, and none where it need not return any. -/
noncomputable def grudging (n : ℕ) (cmp : ℕ → ℤ) : Option ℕ :=
  if Partitioned n cmp then lastZero cmp n else none

/-- **It keeps the promise too.** -/
theorem finds_grudging : Finds grudging where
  sound n cmp k h := by
    rw [grudging] at h
    split_ifs at h
    exact lastZero_sound h
  complete n cmp i hp hi hzero := by
    rw [grudging, if_pos hp]
    exact finds_lastZero.complete n cmp i hp hi hzero

/-- What it returns is the last element that compares equal, of an array in
three parts. -/
theorem of_grudging {n k : ℕ} {cmp : ℕ → ℤ} (h : grudging n cmp = some k) :
    Partitioned n cmp ∧ ∀ i < n, cmp i = 0 → i ≤ k := by
  rw [grudging] at h
  split_ifs at h with hp
  refine ⟨hp, fun i hi hzero => ?_⟩
  obtain ⟨k', hk', hle⟩ := exists_lastZero hi hzero
  obtain rfl := Option.some.inj (h.symm.trans hk')
  exact hle

/-! ## The comparisons -/

/-- What is computed of each element of a list, wherever it is computed of
all of them. -/
theorem getElem?_of_mapM {α β : Type} {f : α → Option β} {l : List α} {rs : List β}
    (h : l.mapM f = some rs) : rs.length = l.length ∧ ∀ p : ℕ, rs[p]? = l[p]?.bind f := by
  induction l generalizing rs with
  | nil =>
    obtain rfl := Option.some.inj h
    exact ⟨rfl, fun p => rfl⟩
  | cons x l ih =>
    rw [List.mapM_cons, Option.bind_eq_bind, Option.bind_eq_some_iff] at h
    obtain ⟨r, hr, h⟩ := h
    rw [Option.bind_eq_bind, Option.bind_eq_some_iff] at h
    obtain ⟨rs', hrs', h⟩ := h
    obtain rfl := Option.some.inj h
    obtain ⟨hlen, hget⟩ := ih hrs'
    refine ⟨by rw [List.length_cons, List.length_cons, hlen], fun p => ?_⟩
    cases p with
    | zero => rw [List.getElem?_cons_zero, List.getElem?_cons_zero, Option.bind_some, hr]
    | succ p =>
      rw [List.getElem?_cons_succ, List.getElem?_cons_succ]
      exact hget p

/-- Where each of them has a result, the list has. -/
theorem exists_mapM {α β : Type} {f : α → Option β} {l : List α}
    (h : ∀ x ∈ l, ∃ r, f x = some r) : ∃ rs, l.mapM f = some rs := by
  induction l with
  | nil => exact ⟨[], rfl⟩
  | cons x l ih =>
    obtain ⟨⟨r, hr⟩, hl⟩ := List.forall_mem_cons.1 h
    obtain ⟨rs, hrs⟩ := ih hl
    refine ⟨r :: rs, ?_⟩
    rw [List.mapM_cons, hr, hrs]
    rfl

/-- What is in the list of results is one of them. -/
theorem exists_of_mem_mapM {α β : Type} {f : α → Option β} {l : List α} {rs : List β}
    (h : l.mapM f = some rs) {r : β} (hr : r ∈ rs) : ∃ x ∈ l, f x = some r := by
  obtain ⟨p, hp⟩ := List.mem_iff_getElem?.1 hr
  rw [(getElem?_of_mapM h).2 p] at hp
  obtain ⟨x, hx, hfx⟩ := Option.bind_eq_some_iff.1 hp
  exact ⟨x, List.mem_of_getElem? hx, hfx⟩

/-- Where each result tells what it was computed of, the list does. -/
theorem map_of_mapM {α β : Type} {f : α → Option β} {g : β → α} {l : List α} {rs : List β}
    (h : l.mapM f = some rs) (hg : ∀ x r, f x = some r → g r = x) : rs.map g = l := by
  obtain ⟨hlen, hget⟩ := getElem?_of_mapM h
  refine List.ext_getElem? fun p => ?_
  rw [List.getElem?_map, hget p]
  cases hx : l[p]? with
  | none => rfl
  | some x =>
    have hp : p < rs.length := by
      rw [hlen]
      exact (List.getElem?_eq_some_iff.1 hx).1
    have hr := hget p
    rw [hx, Option.bind_some, List.getElem?_eq_getElem hp] at hr
    rw [Option.bind_some, ← hr, Option.map_some, hg x _ hr.symm]

/-- The comparison with the element at a position. -/
theorem getD_of_mapM {α : Type} {f : α → Option ℤ} {l : List α} {rs : List ℤ}
    (h : l.mapM f = some rs) {p : ℕ} {x : α} (hx : l[p]? = some x) :
    f x = some (rs.getD p 0) := by
  obtain ⟨hlen, hget⟩ := getElem?_of_mapM h
  have hp := hget p
  rw [hx, Option.bind_some] at hp
  obtain ⟨hlt, -⟩ := List.getElem?_eq_some_iff.1 hx
  rw [← hp, List.getD_eq_getElem?_getD, List.getElem?_eq_getElem (by omega), Option.getD_some]

/-- Every element has its comparison. -/
theorem forall_of_mapM {α : Type} {f : α → Option ℤ} {l : List α} {rs : List ℤ}
    (h : l.mapM f = some rs) : ∀ x ∈ l, ∃ rc, f x = some rc := by
  intro x hx
  obtain ⟨i, hi⟩ := List.mem_iff_getElem?.1 hx
  exact ⟨_, getD_of_mapM h hi⟩

/-- The elements of an array are in three parts as their comparisons
are. -/
theorem pairwise_iff_partitioned {α : Type} {f : α → Option ℤ} {l : List α} {cmp : ℕ → ℤ}
    (hcmp : ∀ p x, l[p]? = some x → f x = some (cmp p)) :
    (l.Pairwise fun a b => ∀ rca rcb, f a = some rca → f b = some rcb →
        (0 ≤ rcb → 0 ≤ rca) ∧ (0 < rcb → 0 < rca)) ↔ Partitioned l.length cmp := by
  rw [List.pairwise_iff_getElem]
  constructor
  · intro h i j hij hj
    rcases Nat.eq_or_lt_of_le hij with rfl | hlt
    · exact ⟨id, id⟩
    · exact h i j (by omega) hj hlt _ _ (hcmp i _ (List.getElem?_eq_getElem (by omega)))
        (hcmp j _ (List.getElem?_eq_getElem hj))
  · intro h i j hi hj hlt rca rcb hrca hrcb
    rw [hcmp i _ (List.getElem?_eq_getElem hi)] at hrca
    rw [hcmp j _ (List.getElem?_eq_getElem hj)] at hrcb
    obtain rfl := Option.some.inj hrca
    obtain rfl := Option.some.inj hrcb
    exact h i j hlt.le hj

/-- A table of the positions in some order points to every position
once. -/
theorem getD_of_perm_range {l : List ℕ} {n : ℕ} (h : l.Perm (List.range n)) :
    l.length = n ∧ (∀ i < n, l.getD i 0 < n) ∧ (∀ p < n, ∃ i < n, l.getD i 0 = p) ∧
      ∀ i < n, ∀ j < n, l.getD i 0 = l.getD j 0 → i = j := by
  have hlen : l.length = n := h.length_eq.trans List.length_range
  have hget : ∀ i, (hi : i < n) → l.getD i 0 = l[i] := by
    intro i hi
    rw [List.getD_eq_getElem?_getD, List.getElem?_eq_getElem (by omega), Option.getD_some]
  have hnodup : l.Nodup := h.nodup_iff.2 List.nodup_range
  refine ⟨hlen, fun i hi => ?_, fun p hp => ?_, fun i hi j hj heq => ?_⟩
  · rw [hget i hi]
    exact List.mem_range.1 (h.mem_iff.1 (List.getElem_mem _))
  · obtain ⟨i, hi, hp⟩ := List.mem_iff_getElem.1 (h.mem_iff.2 (List.mem_range.2 hp))
    exact ⟨i, by omega, by rw [hget i (by omega), hp]⟩
  · rw [hget i hi, hget j hj] at heq
    exact hnodup.getElem_inj_iff.1 heq

/-! ## The run -/

/-- Back from `p` as long as the elements compare equal, but not to the
first element: where the run is taken to begin. -/
def scanBack (cmp : ℕ → ℤ) : ℕ → ℕ
  | 0 => 1
  | p + 1 => if cmp (p + 1) = 0 then scanBack cmp p else p + 2

/-- Where the run around `k` is taken to begin. -/
def runStart (cmp : ℕ → ℤ) : ℕ → ℕ
  | 0 => 0
  | p + 1 => scanBack cmp p

/-- Forth from `e`, over `m` elements at most: where the run ends. -/
def scanForward (cmp : ℕ → ℤ) : ℕ → ℕ → ℕ
  | 0, e => e
  | m + 1, e => if cmp e = 0 then scanForward cmp m (e + 1) else e

/-- The positions from where the run around `k` begins to where it ends. -/
def extend (n : ℕ) (cmp : ℕ → ℤ) (k : ℕ) : List ℕ :=
  List.range' (runStart cmp k) (scanForward cmp (n - (k + 1)) (k + 1) - runStart cmp k)

/-- The scan back: what it passed over compares equal, and what it stopped
at does not, or is the first element. -/
theorem scanBack_spec (cmp : ℕ → ℤ) (p : ℕ) :
    1 ≤ scanBack cmp p ∧ scanBack cmp p ≤ p + 1 ∧
      (∀ i, scanBack cmp p ≤ i → i ≤ p → cmp i = 0) ∧
      (scanBack cmp p = 1 ∨ cmp (scanBack cmp p - 1) ≠ 0) := by
  induction p with
  | zero => exact ⟨le_rfl, le_rfl, fun i h₁ h₂ => by simp only [scanBack] at h₁; omega, .inl rfl⟩
  | succ p ih =>
    rw [scanBack]
    split_ifs with hp
    · obtain ⟨h₁, h₂, hrun, hstop⟩ := ih
      refine ⟨h₁, by omega, fun i hi hip => ?_, hstop⟩
      rcases Nat.lt_or_ge p i with hlt | hge
      · obtain rfl : i = p + 1 := by omega
        exact hp
      · exact hrun i hi hge
    · exact ⟨by omega, le_rfl, fun i h₁ h₂ => by omega, .inr hp⟩

/-- The scan forth. -/
theorem scanForward_spec (cmp : ℕ → ℤ) (m e : ℕ) :
    e ≤ scanForward cmp m e ∧ scanForward cmp m e ≤ e + m ∧
      (∀ i, e ≤ i → i < scanForward cmp m e → cmp i = 0) ∧
      (scanForward cmp m e = e + m ∨ cmp (scanForward cmp m e) ≠ 0) := by
  induction m generalizing e with
  | zero => exact ⟨le_rfl, le_rfl, fun i h₁ h₂ => by simp only [scanForward] at h₂; omega, .inl rfl⟩
  | succ m ih =>
    rw [scanForward]
    split_ifs with he
    · obtain ⟨h₁, h₂, hrun, hstop⟩ := ih (e + 1)
      refine ⟨by omega, by omega, fun i hi hlt => ?_, ?_⟩
      · rcases Nat.eq_or_lt_of_le hi with rfl | hgt
        · exact he
        · exact hrun i hgt hlt
      · rcases hstop with h | h
        · exact .inl (by omega)
        · exact .inr h
    · exact ⟨le_rfl, by omega, fun i h₁ h₂ => by omega, .inr he⟩

/-- The elements that compare equal, in order. -/
def zeros (n : ℕ) (cmp : ℕ → ℤ) : List ℕ := (List.range n).filter fun i => cmp i = 0

variable {n k : ℕ} {cmp : ℕ → ℤ}

/-- They are those. -/
theorem mem_zeros {i : ℕ} : i ∈ zeros n cmp ↔ i < n ∧ cmp i = 0 := by
  rw [zeros, List.mem_filter, List.mem_range, decide_eq_true_iff]

/-- Between two elements that compare equal there are no others. -/
theorem Partitioned.between (hp : Partitioned n cmp) {i j l : ℕ} (hij : i ≤ j) (hjl : j ≤ l)
    (hl : l < n) (hi : cmp i = 0) (hzero : cmp l = 0) : cmp j = 0 := by
  have h₁ := (hp j l hjl hl).1 (by omega)
  have h₂ : ¬ 0 < cmp j := fun hpos => by
    have := (hp i j hij (by omega)).2 hpos
    omega
  omega

/-- **What the run holds**: the elements that compare equal, but the first
element only if it is the one the search returned. -/
theorem mem_extend (hp : Partitioned n cmp) (hk : k < n) (hzero : cmp k = 0) {i : ℕ} :
    i ∈ extend n cmp k ↔ (i < n ∧ cmp i = 0) ∧ (i = 0 → k = 0) := by
  obtain ⟨hlo, hhi, hforth, hend⟩ := scanForward_spec cmp (n - (k + 1)) (k + 1)
  have hup : ∀ i, k ≤ i → i < n → cmp i = 0 → i < scanForward cmp (n - (k + 1)) (k + 1) := by
    intro i hki hin hi
    by_contra hge
    rcases hend with hend | hend
    · omega
    · exact hend (hp.between (i := k) (l := i) (by omega) (by omega) hin hzero hi)
  rw [extend, List.mem_range'_1]
  generalize scanForward cmp (n - (k + 1)) (k + 1) = stop at *
  cases k with
  | zero =>
    rw [runStart]
    constructor
    · rintro ⟨-, hi⟩
      refine ⟨⟨by omega, ?_⟩, fun _ => rfl⟩
      rcases Nat.eq_zero_or_pos i with rfl | hpos
      · exact hzero
      · exact hforth i hpos (by omega)
    · rintro ⟨⟨hin, hi⟩, -⟩
      have := hup i (Nat.zero_le i) hin hi
      omega
  | succ p =>
    obtain ⟨h₁, h₂, hback, hstop⟩ := scanBack_spec cmp p
    rw [runStart]
    constructor
    · rintro ⟨hge, hi⟩
      refine ⟨⟨by omega, ?_⟩, fun h₀ => by omega⟩
      rcases Nat.lt_or_ge p i with hlt | hle
      · rcases Nat.eq_or_lt_of_le hlt with rfl | hgt
        · exact hzero
        · exact hforth i hgt (by omega)
      · exact hback i hge hle
    · rintro ⟨⟨hin, hi⟩, hnot⟩
      have hlow : scanBack cmp p ≤ i := by
        by_contra hlt
        rcases hstop with h | h
        · exact absurd (hnot (by omega)) (Nat.succ_ne_zero p)
        · exact h (hp.between (i := i) (l := p + 1) (by omega) (by omega) hk hi hzero)
      have hless : i < stop := by
        rcases Nat.lt_or_ge i (p + 1) with hlt | hge
        · omega
        · exact hup i hge hin hi
      omega

/-- The run is inside the array. -/
theorem lt_of_mem_extend (hk : k < n) {i : ℕ} (h : i ∈ extend n cmp k) : i < n := by
  have hle := (scanForward_spec cmp (n - (k + 1)) (k + 1)).2.1
  rw [extend, List.mem_range'_1] at h
  omega

/-- The elements at some positions, looked up or read off a table. -/
theorem map_filterMap_getElem? {α : Type} {g : α → ℕ} {s : List α} {l : List ℕ}
    (h : ∀ i ∈ l, i < s.length) :
    (l.filterMap fun i => s[i]?).map g = l.map fun i => (s.map g).getD i 0 := by
  induction l with
  | nil => rfl
  | cons i l ih =>
    obtain ⟨hi, hl⟩ := List.forall_mem_cons.1 h
    have hget : s[i]? = some (s.get ⟨i, hi⟩) := List.getElem?_eq_getElem hi
    rw [List.filterMap_cons_some hget, List.map_cons, List.map_cons, ih hl,
      List.getD_eq_getElem?_getD, List.getElem?_map, hget]
    rfl

/-- The run through a table of the positions: what it points to is what
the elements that compare equal point to, and what the first element points
to only if the search returned it. -/
theorem mem_map_extend {table : List ℕ} (htable : table.Perm (List.range n))
    (hp : Partitioned n cmp) (hk : k < n) (hzero : cmp k = 0) {q : ℕ} :
    q ∈ (extend n cmp k).map (fun i => table.getD i 0) ↔
      (∃ i < n, cmp i = 0 ∧ table.getD i 0 = q) ∧ (q = table.getD 0 0 → k = 0) := by
  obtain ⟨-, -, -, hinj⟩ := getD_of_perm_range htable
  rw [List.mem_map]
  constructor
  · rintro ⟨i, hi, rfl⟩
    obtain ⟨⟨hin, hizero⟩, hfirst⟩ := (mem_extend hp hk hzero).1 hi
    exact ⟨⟨i, hin, hizero, rfl⟩, fun heq => hfirst (hinj i hin 0 (by omega) heq)⟩
  · rintro ⟨⟨i, hin, hizero, rfl⟩, hfirst⟩
    refine ⟨i, (mem_extend hp hk hzero).2 ⟨⟨hin, hizero⟩, ?_⟩, rfl⟩
    rintro rfl
    exact hfirst rfl

/-- The run is in order. -/
theorem pairwise_extend : (extend n cmp k).Pairwise (· < ·) := List.pairwise_lt_range'

/-- So are the elements that compare equal. -/
theorem pairwise_zeros : (zeros n cmp).Pairwise (· < ·) :=
  List.Pairwise.filter _ List.pairwise_lt_range

/-- **Nothing is lost**, of the elements that are kept, whatever the search
returns: that is so just if there is something to find, the array is in
three parts, and the first element is not in a run with the second, unless
it is not kept anyway. The elements are looked at through `F`, which shows
whether the first element is there. -/
theorem forall_extend_iff {β : Type} (F : List ℕ → β) (keep : ℕ → Bool)
    (hF : 0 ∈ (zeros n cmp).filter keep → ∀ l, 0 ∉ l → F l ≠ F ((zeros n cmp).filter keep)) :
    (∀ bsearch, Finds bsearch → ∃ k, bsearch n cmp = some k ∧
        F ((extend n cmp k).filter keep) = F ((zeros n cmp).filter keep)) ↔
      (∃ i < n, cmp i = 0) ∧ Partitioned n cmp ∧
        ¬ (1 < n ∧ cmp 0 = 0 ∧ cmp 1 = 0 ∧ keep 0 = true) := by
  constructor
  · intro h
    obtain ⟨k, hk, hrun⟩ := h grudging finds_grudging
    obtain ⟨hkn, hzero⟩ := finds_grudging.sound _ _ _ hk
    obtain ⟨hp, hlast⟩ := of_grudging hk
    refine ⟨⟨k, hkn, hzero⟩, hp, ?_⟩
    rintro ⟨hn, h₀, h₁, hkeep⟩
    -- the last of them is not the first, and the first is lost
    have hle := hlast 1 hn h₁
    have hmem : 0 ∈ (zeros n cmp).filter keep :=
      List.mem_filter.2 ⟨mem_zeros.2 ⟨by omega, h₀⟩, hkeep⟩
    refine hF hmem _ (fun hrest => ?_) hrun
    have := ((mem_extend hp hkn hzero).1 (List.mem_filter.1 hrest).1).2 rfl
    omega
  · rintro ⟨⟨i, hi, hzero⟩, hp, hfirst⟩ bsearch hbs
    obtain ⟨k, hk⟩ := Option.ne_none_iff_exists'.1 (hbs.complete n cmp i hp hi hzero)
    obtain ⟨hkn, hkzero⟩ := hbs.sound _ _ _ hk
    refine ⟨k, hk, congrArg F (List.Pairwise.eq_of_mem_iff (pairwise_extend.filter _)
      (pairwise_zeros.filter _) fun j => ?_)⟩
    rw [List.mem_filter, List.mem_filter, mem_extend hp hkn hkzero, mem_zeros]
    constructor
    · rintro ⟨⟨hj, -⟩, hkeep⟩
      exact ⟨hj, hkeep⟩
    · rintro ⟨hj, hkeep⟩
      refine ⟨⟨hj, ?_⟩, hkeep⟩
      rintro rfl
      by_contra hk₀
      have h₁ : cmp 1 = 0 := hp.between (by omega) (by omega : 1 ≤ k) hkn hj.2 hkzero
      exact hfirst ⟨by omega, hj.2, h₁, hkeep⟩

/-- Where nothing compares equal, nothing is found. -/
theorem Finds.eq_none {bsearch : ℕ → (ℕ → ℤ) → Option ℕ} (h : Finds bsearch)
    (hnone : ¬ ∃ i < n, cmp i = 0) : bsearch n cmp = none := by
  cases hk : bsearch n cmp with
  | none => rfl
  | some k =>
    obtain ⟨hkn, hzero⟩ := h.sound _ _ _ hk
    exact absurd ⟨k, hkn, hzero⟩ hnone

/-- Where no element of an array compares equal, no search finds one. -/
theorem exists_mapM_none {α : Type} {f : α → Option ℤ} {l : List α}
    (h : ∀ x ∈ l, ∃ rc, f x = some rc ∧ rc ≠ 0) :
    ∃ rcs, l.mapM f = some rcs ∧
      ∀ bsearch, Finds bsearch → bsearch l.length (fun i => rcs.getD i 0) = none := by
  obtain ⟨rcs, hrcs⟩ := exists_mapM fun x hx => (h x hx).imp fun rc hrc => hrc.1
  refine ⟨rcs, hrcs, fun bsearch hbs => hbs.eq_none ?_⟩
  rintro ⟨i, hi, hzero⟩
  obtain ⟨rc, hrc, hne⟩ := h _ (List.getElem_mem hi)
  rw [getD_of_mapM hrcs (List.getElem?_eq_getElem hi)] at hrc
  exact hne ((Option.some.inj hrc).symm.trans hzero)

/-- And where the search that looks at every element finds none, no element
compares equal. -/
theorem ne_zero_of_firstZero {α : Type} {f : α → Option ℤ} {l : List α} {rcs : List ℤ}
    (hrcs : l.mapM f = some rcs) (hnone : firstZero l.length (fun i => rcs.getD i 0) = none) :
    ∀ x ∈ l, ∃ rc, f x = some rc ∧ rc ≠ 0 := by
  intro x hx
  obtain ⟨i, hi⟩ := List.mem_iff_getElem?.1 hx
  refine ⟨_, getD_of_mapM hrcs hi, fun hzero => ?_⟩
  obtain ⟨k, hk⟩ := @exists_firstZero _ _ (fun i => rcs.getD i 0)
    (List.getElem?_eq_some_iff.1 hi).1 hzero
  cases hnone.symm.trans hk

/-- What was found is in the run. -/
theorem self_mem_extend (hk : k < n) : k ∈ extend n cmp k := by
  have hstop := (scanForward_spec cmp (n - (k + 1)) (k + 1)).1
  have hstart : runStart cmp k ≤ k := by
    cases k with
    | zero => exact le_rfl
    | succ p => exact (scanBack_spec cmp p).2.1
  rw [extend, List.mem_range'_1]
  omega

section Table

variable {table : List ℕ} (htable : table.Perm (List.range n)) {want : ℕ → Prop}

include htable

/-- Where the search that returns the first finds what is wanted, that is
what compares equal. -/
theorem zero_iff_want (hp : Partitioned n cmp) (hk : firstZero n cmp = some k)
    (hrun : ∀ q, q ∈ (extend n cmp k).map (fun i => table.getD i 0) ↔ q < n ∧ want q) :
    ∀ i < n, cmp i = 0 ↔ want (table.getD i 0) := by
  obtain ⟨-, hlt, -, hinj⟩ := getD_of_perm_range htable
  obtain ⟨hkn, hkzero⟩ := finds_firstZero.sound _ _ _ hk
  intro i hi
  constructor
  · intro hzero
    refine ((hrun _).1 ((mem_map_extend htable hp hkn hkzero).2
      ⟨⟨i, hi, hzero, rfl⟩, fun heq => ?_⟩)).2
    obtain rfl := hinj i hi 0 (by omega) heq
    rw [firstZero_eq_zero (by omega) hzero] at hk
    exact (Option.some.inj hk).symm
  · intro hw
    obtain ⟨⟨j, hj, hjzero, heq⟩, -⟩ :=
      (mem_map_extend htable hp hkn hkzero).1 ((hrun _).2 ⟨hlt i hi, hw⟩)
    obtain rfl := hinj j hj i hi heq
    exact hjzero

/-- Where every search finds what is wanted, and that is something: the
array is in three parts, what compares equal is what is wanted, and the
first element is not in a run with the second. -/
theorem of_mem_run (hex : ∃ i < n, cmp i = 0)
    (h : ∀ bsearch, Finds bsearch → ∀ q,
      q ∈ (bsearch n cmp).elim [] (fun k => (extend n cmp k).map fun i => table.getD i 0) ↔
        q < n ∧ want q) :
    (∀ i < n, cmp i = 0 ↔ want (table.getD i 0)) ∧
      Partitioned n cmp ∧ ¬ (1 < n ∧ cmp 0 = 0 ∧ cmp 1 = 0) := by
  obtain ⟨-, hlt, -, -⟩ := getD_of_perm_range htable
  obtain ⟨i, hi, hizero⟩ := hex
  obtain ⟨k₁, hk₁⟩ := exists_firstZero hi hizero
  have hrun₁ := h firstZero finds_firstZero
  rw [hk₁, Option.elim_some] at hrun₁
  -- what the first search finds is wanted, so the least obliging must find something
  have hsome := (hrun₁ _).1 (List.mem_map.2
    ⟨k₁, self_mem_extend (finds_firstZero.sound _ _ _ hk₁).1, rfl⟩)
  have hrun₂ := h grudging finds_grudging
  cases hk₂ : grudging n cmp with
  | none =>
    rw [hk₂] at hrun₂
    exact absurd ((hrun₂ _).2 hsome) List.not_mem_nil
  | some k₂ =>
    rw [hk₂] at hrun₂
    obtain ⟨hk₂n, hk₂zero⟩ := finds_grudging.sound _ _ _ hk₂
    obtain ⟨hp, hlast⟩ := of_grudging hk₂
    have hwant := zero_iff_want htable hp hk₁ hrun₁
    refine ⟨hwant, hp, ?_⟩
    rintro ⟨hn, h₀, h₁⟩
    have hle := hlast 1 hn h₁
    have hmem := (hrun₂ _).2 ⟨hlt 0 (by omega), (hwant 0 (by omega)).1 h₀⟩
    have := ((mem_map_extend htable hp hk₂n hk₂zero).1 hmem).2 rfl
    omega

/-- And there every search finds it. -/
theorem mem_run_iff {bsearch : ℕ → (ℕ → ℤ) → Option ℕ} (hbs : Finds bsearch)
    (hex : ∃ i < n, cmp i = 0) (hwant : ∀ i < n, cmp i = 0 ↔ want (table.getD i 0))
    (hp : Partitioned n cmp) (hfirst : ¬ (1 < n ∧ cmp 0 = 0 ∧ cmp 1 = 0)) (q : ℕ) :
    q ∈ (bsearch n cmp).elim [] (fun k => (extend n cmp k).map fun i => table.getD i 0) ↔
      q < n ∧ want q := by
  obtain ⟨-, hlt, hsurj, hinj⟩ := getD_of_perm_range htable
  obtain ⟨i, hi, hizero⟩ := hex
  obtain ⟨k, hk⟩ := Option.ne_none_iff_exists'.1 (hbs.complete n cmp i hp hi hizero)
  obtain ⟨hkn, hkzero⟩ := hbs.sound _ _ _ hk
  rw [hk, Option.elim_some, mem_map_extend htable hp hkn hkzero]
  constructor
  · rintro ⟨⟨j, hj, hjzero, rfl⟩, -⟩
    exact ⟨hlt j hj, (hwant j hj).1 hjzero⟩
  · rintro ⟨hq, hw⟩
    obtain ⟨j, hj, rfl⟩ := hsurj q hq
    refine ⟨⟨j, hj, (hwant j hj).2 hw, rfl⟩, fun heq => ?_⟩
    by_contra hk₀
    obtain rfl := hinj j hj 0 (by omega) heq
    have h₀ := (hwant 0 hj).2 hw
    exact hfirst ⟨by omega, h₀, hp.between (by omega) (by omega : 1 ≤ k) hkn h₀ hkzero⟩

/-- **The run is what is wanted**, through a table of the positions and
whatever the search returns: that is so just if what compares equal is what
is wanted and, where there is any, the array is in three parts and the
first element is not in a run with the second. -/
theorem forall_mem_run_iff (want : ℕ → Prop) :
    (∀ bsearch, Finds bsearch → ∀ q,
        q ∈ (bsearch n cmp).elim [] (fun k => (extend n cmp k).map fun i => table.getD i 0) ↔
          q < n ∧ want q) ↔
      (∀ i < n, cmp i = 0 ↔ want (table.getD i 0)) ∧
        ((∃ i < n, cmp i = 0) → Partitioned n cmp ∧ ¬ (1 < n ∧ cmp 0 = 0 ∧ cmp 1 = 0)) := by
  obtain ⟨-, hlt, hsurj, -⟩ := getD_of_perm_range htable
  by_cases hex : ∃ i < n, cmp i = 0
  · constructor
    · intro h
      obtain ⟨hwant, hparts⟩ := of_mem_run htable hex h
      exact ⟨hwant, fun _ => hparts⟩
    · rintro ⟨hwant, hparts⟩ bsearch hbs
      obtain ⟨hp, hfirst⟩ := hparts hex
      exact mem_run_iff htable hbs hex hwant hp hfirst
  · constructor
    · intro h
      have hnone := h bisect finds_bisect
      rw [finds_bisect.eq_none hex, Option.elim_none] at hnone
      refine ⟨fun i hi => iff_of_false (fun hzero => hex ⟨i, hi, hzero⟩) fun hw => ?_,
        fun hsome => absurd hsome hex⟩
      exact List.not_mem_nil ((hnone _).2 ⟨hlt i hi, hw⟩)
    · rintro ⟨hwant, -⟩ bsearch hbs q
      rw [hbs.eq_none hex, Option.elim_none]
      refine iff_of_false List.not_mem_nil ?_
      rintro ⟨hq, hw⟩
      obtain ⟨j, hj, rfl⟩ := hsurj q hq
      exact hex ⟨j, hj, (hwant j hj).2 hw⟩

end Table

end Bsearch

end Dico
