import Dico.Text.Compare
/-!
# Strings of code points

The comparisons of `lib/utf8.c` that work on arrays of code points, bounded
and not, and the search for one such string in another. An array is the
list of its elements before the zero that ends it, so the end of the list
is where the code reads a zero. A place in an array is its offset.

`utf8_wc_strncmp` returns -1 where two equal strings end before the bound
is reached, as `utf8_wc_strcmp` and `utf8_wc_strncasecmp` return 0 there
(`comparesFirst_iff`). `utf8_wc_strstr` has no test for the end of the
haystack in its inner loop and needs none (`utf8WcStrstr_eq_some`).
-/

namespace Dico

/-! ## The comparisons -/

/-- `utf8_wc_strcmp`. -/
def utf8WcStrcmp : List ℕ → List ℕ → ℤ
  | [], [] => 0
  | [], _ :: _ => -1
  | _ :: _, [] => 1
  | x :: a, y :: b =>
    if x = y then utf8WcStrcmp a b else if x < y then -1 else if x > y then 1 else 0

/-- The loop of `utf8_wc_strncmp`, for a bound that is not zero. -/
def wcStrncmpLoop : ℕ → List ℕ → List ℕ → ℤ
  | _, [], [] => -1
  | _, [], _ :: _ => -1
  | _, _ :: _, [] => 1
  | n, x :: a, y :: b =>
    if x = y then
      if n - 1 = 0 then 0 else wcStrncmpLoop (n - 1) a b
    else if x < y then -1 else if x > y then 1 else 0

/-- `utf8_wc_strncmp`. -/
def utf8WcStrncmp (a b : List ℕ) (n : ℕ) : ℤ := if n = 0 then 0 else wcStrncmpLoop n a b

/-- The loop of `utf8_wc_strncasecmp`, for a bound that is not zero. -/
def wcStrncasecmpLoop : ℕ → List ℕ → List ℕ → ℤ
  | _, [], b => if b = [] then 0 else -1
  | _, _ :: _, [] => 1
  | n, x :: a, y :: b =>
    let wa := utf8WcToupper x
    let wb := utf8WcToupper y
    if x ≠ y ∧ wa < wb then -1
    else if x ≠ y ∧ wa > wb then 1
    else if n - 1 = 0 then 0 else wcStrncasecmpLoop (n - 1) a b

/-- `utf8_wc_strncasecmp`. -/
def utf8WcStrncasecmp (a b : List ℕ) (n : ℕ) : ℤ :=
  if n = 0 then 0 else wcStrncasecmpLoop n a b

section Compare

variable {a b : List ℕ} {n : ℕ}

/-- `utf8_wc_strcmp` compares lexicographically. -/
theorem utf8WcStrcmp_eq (a b : List ℕ) : utf8WcStrcmp a b = lexSign a b := by
  induction a generalizing b with
  | nil =>
    cases b with
    | nil => rfl
    | cons y b => rw [utf8WcStrcmp, lexSign_nil_left, if_neg (List.cons_ne_nil y b)]
  | cons x a ih =>
    cases b with
    | nil => rw [utf8WcStrcmp, lexSign_cons_nil]
    | cons y b =>
      rw [utf8WcStrcmp, lexSign_cons_cons, ih]
      split_ifs <;> omega

/-- The signs the other way round. -/
theorem lexSign_swap {α : Type} [LinearOrder α] (a b : List α) : lexSign b a = -lexSign a b := by
  rcases lt_trichotomy a b with h | rfl | h
  · rw [lexSign, if_neg (lt_asymm h), if_pos h, lexSign, if_pos h, Int.neg_neg]
  · rw [lexSign_self, Int.neg_zero]
  · rw [lexSign, if_pos h, lexSign, if_neg (lt_asymm h), if_pos h]

/-- **What `utf8_wc_strncmp` returns**: the comparison of the first
elements, but -1 where the strings are equal and end before the bound. -/
theorem wcStrncmpLoop_eq (hn : 0 < n) :
    wcStrncmpLoop n a b =
      if a = b ∧ a.length < n then -1 else lexSign (a.take n) (b.take n) := by
  induction a generalizing b n with
  | nil =>
    cases b with
    | nil => rw [wcStrncmpLoop, if_pos ⟨rfl, hn⟩]
    | cons y b =>
      obtain ⟨n, rfl⟩ : ∃ k, n = k + 1 := ⟨n - 1, by omega⟩
      rw [wcStrncmpLoop, if_neg fun h => List.cons_ne_nil y b h.1.symm, List.take_nil,
        List.take_succ_cons, lexSign_nil_left, if_neg (List.cons_ne_nil _ _)]
  | cons x a ih =>
    obtain ⟨n, rfl⟩ : ∃ k, n = k + 1 := ⟨n - 1, by omega⟩
    cases b with
    | nil =>
      rw [wcStrncmpLoop, if_neg fun h => List.cons_ne_nil x a h.1, List.take_nil,
        List.take_succ_cons, lexSign_cons_nil]
    | cons y b =>
      rw [wcStrncmpLoop, List.take_succ_cons, List.take_succ_cons, lexSign_cons_cons,
        Nat.add_sub_cancel]
      rcases lt_trichotomy x y with hlt | rfl | hgt
      · rw [if_neg hlt.ne, if_pos hlt, if_neg fun h => hlt.ne (List.cons.inj h.1).1, if_pos hlt]
      · rw [if_pos rfl, if_neg (lt_irrefl x), if_neg (lt_irrefl x), List.length_cons]
        rcases Nat.eq_zero_or_pos n with rfl | hpos
        · rw [if_pos rfl, if_neg (by omega), List.take_zero, List.take_zero, lexSign_self]
        · rw [if_neg hpos.ne', ih hpos]
          simp only [List.cons.injEq, true_and, Nat.add_lt_add_iff_right]
      · rw [if_neg hgt.ne', if_neg (lt_asymm hgt), if_pos hgt,
          if_neg fun h => hgt.ne' (List.cons.inj h.1).1, if_neg (lt_asymm hgt), if_pos hgt]

/-- **What `utf8_wc_strncasecmp` returns**: the comparison of the first
elements. -/
theorem wcStrncasecmpLoop_eq (hn : 0 < n) :
    wcStrncasecmpLoop n a b = lexSign (folded (a.take n)) (folded (b.take n)) := by
  induction a generalizing b n with
  | nil =>
    obtain ⟨n, rfl⟩ : ∃ k, n = k + 1 := ⟨n - 1, by omega⟩
    cases b with
    | nil => rfl
    | cons y b => rfl
  | cons x a ih =>
    obtain ⟨n, rfl⟩ : ∃ k, n = k + 1 := ⟨n - 1, by omega⟩
    cases b with
    | nil =>
      rw [wcStrncasecmpLoop, List.take_nil, List.take_succ_cons]
      exact (lexSign_cons_nil _ _).symm
    | cons y b =>
      have htail : (if n = 0 then 0 else wcStrncasecmpLoop n a b) =
          lexSign (folded (a.take n)) (folded (b.take n)) := by
        rcases Nat.eq_zero_or_pos n with rfl | hpos
        · rw [if_pos rfl, List.take_zero, List.take_zero, lexSign_self]
        · rw [if_neg hpos.ne', ih hpos]
      rw [wcStrncasecmpLoop, List.take_succ_cons, List.take_succ_cons, folded, folded,
        List.map_cons, List.map_cons, lexSign_cons_cons, Nat.add_sub_cancel, htail]
      rcases eq_or_ne x y with rfl | hxy
      · rw [if_neg fun h => h.1 rfl, if_neg fun h => h.1 rfl, if_neg (lt_irrefl _),
          if_neg (lt_irrefl _)]
        rfl
      · simp only [ne_eq, hxy, not_false_iff, true_and]
        rfl

/-- What is asked of the bounded comparisons: they are the comparisons of
the first elements, find equal strings equal, and answer the other way
round the other way round. -/
def ComparesFirst (a b : List ℕ) (n : ℕ) : Prop :=
  utf8WcStrncmp a b n = utf8WcStrcmp (a.take n) (b.take n) ∧
  utf8WcStrncasecmp a b n = utf8WcStrcasecmp (a.take n) (b.take n) ∧
  (a = b → a.length < n → utf8WcStrncmp a b n = 0 ∧ utf8WcStrncasecmp a b n = 0) ∧
  utf8WcStrncmp b a n = -utf8WcStrncmp a b n ∧
  utf8WcStrncasecmp b a n = -utf8WcStrncasecmp a b n

/-- The bounded comparison, with the bound that compares nothing. -/
theorem utf8WcStrncmp_eq (a b : List ℕ) (n : ℕ) :
    utf8WcStrncmp a b n =
      if a = b ∧ a.length < n then -1 else lexSign (a.take n) (b.take n) := by
  rcases Nat.eq_zero_or_pos n with rfl | hn
  · rw [utf8WcStrncmp, if_pos rfl, if_neg fun h => Nat.not_lt_zero _ h.2, List.take_zero,
      List.take_zero, lexSign_self]
  · rw [utf8WcStrncmp, if_neg hn.ne', wcStrncmpLoop_eq hn]

/-- And the one that ignores case. -/
theorem utf8WcStrncasecmp_eq (a b : List ℕ) (n : ℕ) :
    utf8WcStrncasecmp a b n = lexSign (folded (a.take n)) (folded (b.take n)) := by
  rcases Nat.eq_zero_or_pos n with rfl | hn
  · rw [utf8WcStrncasecmp, if_pos rfl, List.take_zero, List.take_zero, lexSign_self]
  · rw [utf8WcStrncasecmp, if_neg hn.ne', wcStrncasecmpLoop_eq hn]

/-- **The bounded comparisons compare the first elements, except where two
equal strings end before the bound.** -/
theorem comparesFirst_iff : ComparesFirst a b n ↔ ¬ (a = b ∧ a.length < n) := by
  have hcase := utf8WcStrncasecmp_eq a b n
  have hcase' := utf8WcStrncasecmp_eq b a n
  constructor
  · rintro ⟨-, -, hzero, -⟩ ⟨hab, hlen⟩
    have hnone := (hzero hab hlen).1
    rw [utf8WcStrncmp_eq, if_pos ⟨hab, hlen⟩] at hnone
    cases hnone
  · intro h
    have hback : ¬ (b = a ∧ b.length < n) := fun hb => h ⟨hb.1.symm, hb.1 ▸ hb.2⟩
    refine ⟨?_, ?_, fun hab hlen => absurd ⟨hab, hlen⟩ h, ?_, ?_⟩
    · rw [utf8WcStrncmp_eq, if_neg h, utf8WcStrcmp_eq]
    · rw [hcase, utf8WcStrcasecmp_eq]
    · rw [utf8WcStrncmp_eq, utf8WcStrncmp_eq, if_neg h, if_neg hback, lexSign_swap]
    · rw [hcase, hcase', lexSign_swap]

/-- **Equal strings below the bound are found unequal**: the letter a and
itself, compared in two elements. -/
theorem not_comparesFirst :
    utf8WcStrncmp [0x61] [0x61] 2 = -1 ∧ ¬ ComparesFirst [0x61] [0x61] 2 := by
  refine ⟨by decide, fun h => ?_⟩
  exact absurd h.1 (by decide)

end Compare

/-! ## The search -/

/-- The loop `for (; *p; p++) if (cond (p)) return p;`, with NULL behind
it. -/
def scanWc (cond : List ℕ → Bool) : List ℕ → Option ℕ
  | [] => none
  | x :: s => if cond (x :: s) then some 0 else (scanWc cond s).map (· + 1)

/-- `utf8_wc_strchr`. -/
def utf8WcStrchr (str : List ℕ) (chr : ℕ) : Option ℕ :=
  scanWc (fun p => p.head? == some chr) str

/-- The inner loop of `utf8_wc_strstr`: the haystack from `hptr` on, the
element `nptr` is at, and those behind it. -/
def matchRest : List ℕ → ℕ → List ℕ → Bool
  | [], _, _ => false
  | h :: hptr, x, nptr =>
    if h ≠ x then false
    else
      match nptr with
      | [] => true
      | y :: nptr => matchRest hptr y nptr

/-- `utf8_wc_strstr`. -/
def utf8WcStrstr (haystack : List ℕ) : List ℕ → Option ℕ
  | [] => some 0
  | [first] => utf8WcStrchr haystack first
  | first :: second :: rest =>
    scanWc (fun p => p.head? == some first && matchRest p.tail second rest) haystack

section Search

variable {haystack needle : List ℕ} {cond : List ℕ → Bool} {i : ℕ}

/-- The inner loop finds what is left of the needle at the beginning of the
haystack; the end of the haystack is a difference. -/
theorem matchRest_iff {hptr nptr : List ℕ} {x : ℕ} :
    matchRest hptr x nptr = true ↔ x :: nptr <+: hptr := by
  induction hptr generalizing x nptr with
  | nil => exact iff_of_false Bool.false_ne_true fun h => List.cons_ne_nil _ _ (List.prefix_nil.1 h)
  | cons h hptr ih =>
    rw [matchRest.eq_def, List.cons_prefix_cons]
    dsimp only
    by_cases hx : h = x
    · rw [if_neg (not_not.2 hx)]
      cases nptr with
      | nil => exact iff_of_true rfl ⟨hx.symm, List.nil_prefix⟩
      | cons y nptr =>
        dsimp only
        rw [ih]
        exact ⟨fun hp => ⟨hx.symm, hp⟩, And.right⟩
    · rw [if_pos hx]
      exact iff_of_false Bool.false_ne_true fun hp => hx hp.1.symm

/-- **The loop stops at the first place where the condition holds.** -/
theorem scanWc_eq_some :
    scanWc cond haystack = some i ↔
      (haystack.drop i ≠ [] ∧ cond (haystack.drop i) = true) ∧
        ∀ j < i, cond (haystack.drop j) = false := by
  induction haystack generalizing i with
  | nil =>
    rw [List.drop_nil]
    exact iff_of_false (Option.some_ne_none i).symm fun h => h.1.1 rfl
  | cons x s ih =>
    rw [scanWc]
    by_cases hx : cond (x :: s) = true
    · rw [if_pos hx, Option.some.injEq]
      constructor
      · rintro rfl
        exact ⟨⟨List.cons_ne_nil x s, hx⟩, fun j hj => absurd hj (Nat.not_lt_zero j)⟩
      · rintro ⟨-, hfirst⟩
        by_contra hne
        have hzero := hfirst 0 (by omega)
        rw [List.drop_zero, hx] at hzero
        cases hzero
    · rw [if_neg hx, Option.map_eq_some_iff]
      constructor
      · rintro ⟨k, hk, rfl⟩
        obtain ⟨hat, hfirst⟩ := ih.1 hk
        refine ⟨hat, fun j hj => ?_⟩
        cases j with
        | zero => exact Bool.eq_false_of_not_eq_true hx
        | succ j => exact hfirst j (by omega)
      · rintro ⟨hat, hfirst⟩
        cases i with
        | zero => exact absurd hat.2 hx
        | succ k => exact ⟨k, ih.2 ⟨hat, fun j hj => hfirst (j + 1) (by omega)⟩, rfl⟩

/-- And finds none only if there is none. -/
theorem scanWc_eq_none :
    scanWc cond haystack = none ↔
      ∀ j, haystack.drop j ≠ [] → cond (haystack.drop j) = false := by
  induction haystack with
  | nil =>
    refine iff_of_true rfl fun j hj => ?_
    rw [List.drop_nil] at hj
    exact absurd rfl hj
  | cons x s ih =>
    rw [scanWc]
    by_cases hx : cond (x :: s) = true
    · rw [if_pos hx]
      refine iff_of_false (Option.some_ne_none 0) fun h => ?_
      have hzero := h 0 (List.cons_ne_nil x s)
      rw [List.drop_zero, hx] at hzero
      cases hzero
    · rw [if_neg hx, Option.map_eq_none_iff, ih]
      constructor
      · intro h j hj
        cases j with
        | zero => exact Bool.eq_false_of_not_eq_true hx
        | succ j => exact h j hj
      · intro h j hj
        exact h (j + 1) hj

/-- `needle` occurs in the haystack at an offset. -/
def OccursAt (needle haystack : List ℕ) (i : ℕ) : Prop := needle <+: haystack.drop i

/-- A needle occurs somewhere if it occurs at some offset. -/
theorem infix_iff_occursAt : needle <:+: haystack ↔ ∃ i, OccursAt needle haystack i := by
  constructor
  · rintro ⟨pre, post, rfl⟩
    exact ⟨pre.length, post, by rw [List.append_assoc, List.drop_left]⟩
  · rintro ⟨i, hi⟩
    exact hi.isInfix.trans (List.drop_suffix i haystack).isInfix

/-- The paths of `utf8_wc_strstr` for one element and for more are one
search. -/
theorem utf8WcStrstr_cons (haystack : List ℕ) (first : ℕ) (rest : List ℕ) :
    ∃ cond, utf8WcStrstr haystack (first :: rest) = scanWc cond haystack ∧
      ∀ p, cond p = true ↔ first :: rest <+: p := by
  have hhead : ∀ p : List ℕ, p.head? = some first → p = first :: p.tail := by
    intro p hp
    cases p with
    | nil => cases hp
    | cons x p =>
      obtain rfl := Option.some.inj hp
      rfl
  cases rest with
  | nil =>
    refine ⟨_, rfl, fun p => ?_⟩
    rw [beq_iff_eq]
    constructor
    · intro hp
      rw [hhead p hp]
      exact List.cons_prefix_cons.2 ⟨rfl, List.nil_prefix⟩
    · rintro ⟨t, rfl⟩
      rfl
  | cons second rest =>
    refine ⟨_, rfl, fun p => ?_⟩
    rw [Bool.and_eq_true, beq_iff_eq, matchRest_iff]
    constructor
    · rintro ⟨hp, hrest⟩
      rw [hhead p hp]
      exact List.cons_prefix_cons.2 ⟨rfl, hrest⟩
    · rintro ⟨t, rfl⟩
      exact ⟨rfl, t, rfl⟩

/-- **`utf8_wc_strstr` returns the first place where the needle occurs.** -/
theorem utf8WcStrstr_eq_some :
    utf8WcStrstr haystack needle = some i ↔
      OccursAt needle haystack i ∧ ∀ j < i, ¬ OccursAt needle haystack j := by
  cases needle with
  | nil =>
    rw [utf8WcStrstr, Option.some.injEq]
    constructor
    · rintro rfl
      exact ⟨List.nil_prefix, fun j hj => absurd hj (Nat.not_lt_zero j)⟩
    · rintro ⟨-, hfirst⟩
      by_contra hne
      exact hfirst 0 (by omega) List.nil_prefix
  | cons first rest =>
    obtain ⟨cond, heq, hcond⟩ := utf8WcStrstr_cons haystack first rest
    have hne : ∀ p, first :: rest <+: p → p ≠ [] := by
      rintro p hp rfl
      exact List.cons_ne_nil _ _ (List.prefix_nil.1 hp)
    rw [heq, scanWc_eq_some, hcond]
    simp only [OccursAt, ← Bool.not_eq_true, hcond]
    exact ⟨fun h => ⟨h.1.2, h.2⟩, fun h => ⟨⟨hne _ h.1, h.1⟩, h.2⟩⟩

/-- **And NULL exactly if it occurs nowhere.** -/
theorem utf8WcStrstr_eq_none : utf8WcStrstr haystack needle = none ↔ ¬ needle <:+: haystack := by
  rw [infix_iff_occursAt, not_exists]
  cases needle with
  | nil => exact iff_of_false (Option.some_ne_none 0) fun h => h 0 List.nil_prefix
  | cons first rest =>
    obtain ⟨cond, heq, hcond⟩ := utf8WcStrstr_cons haystack first rest
    rw [heq, scanWc_eq_none]
    simp only [OccursAt, ← Bool.not_eq_true, hcond]
    constructor
    · intro h i hi
      refine h i (fun hnil => ?_) hi
      rw [hnil] at hi
      exact List.cons_ne_nil _ _ (List.prefix_nil.1 hi)
    · intro h i _
      exact h i

/-- So it finds something exactly if the needle occurs. -/
theorem isSome_utf8WcStrstr :
    (utf8WcStrstr haystack needle).isSome = true ↔ needle <:+: haystack := by
  rw [← not_iff_not, ← utf8WcStrstr_eq_none, Bool.not_eq_true, Option.isSome_eq_false_iff,
    Option.isNone_iff_eq_none]

end Search

end Dico
