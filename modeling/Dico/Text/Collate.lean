import Dico.Common.Bsearch
import Dico.Text.Compare
/-!
# The order of arbitrary strings

`utf8_strcasecmp` compares whatever bytes it is given. A byte that begins
no character makes the string it is in the lesser one, even if the other
has such a byte in the same place; and where a character is cut off the
result is not defined. Wherever it is defined, the comparison is the
lexicographic one of the keys of the strings, which end at such a byte,
but that strings with such a byte are never equal (`utf8Strcasecmp_keys`).
So it sorts them all.
-/

namespace Dico

/-- The keys of a string, character by character: the code point mapped
and raised by two, or zero for a byte that begins no character, or one for
bytes that make up none. -/
def keysLoop : ℕ → Bytes → List ℕ
  | _, [] => []
  | 0, _ :: _ => []
  | fuel + 1, c :: a =>
    if utf8CharWidth (c :: a) = 0 then [0]
    else
      match utf8MbtowcN (c :: a) (utf8CharWidth (c :: a)) with
      | none => [1]
      | some (wc, _) =>
        (utf8WcToupper wc + 2) :: keysLoop fuel ((c :: a).drop (utf8CharWidth (c :: a)))

/-- The keys of a string. -/
def keys (a : Bytes) : List ℕ := keysLoop a.length a

/-- What a comparison says, from the keys. -/
def keySign (k l : List ℕ) : ℤ := if k = l ∧ 0 ∈ k then -1 else lexSign k l

section Signs

variable {k l : List ℕ} {x : ℕ}

/-- A character that is the same in both is passed over. -/
theorem keySign_cons : keySign ((x + 2) :: k) ((x + 2) :: l) = keySign k l := by
  rw [keySign, keySign, lexSign_cons_cons, if_neg (lt_irrefl _), if_neg (lt_irrefl _)]
  simp only [List.cons.injEq, true_and, List.mem_cons, Nat.zero_ne_add_one, false_or]

/-- Nothing comes first. -/
theorem keySign_nil_left : keySign [] l = if l = [] then 0 else -1 := by
  rw [keySign, if_neg (fun h => List.not_mem_nil h.2), lexSign_nil_left]

/-- Where the first keys differ they decide. -/
theorem keySign_of_lt {y : ℕ} (h : x < y) : keySign (x :: k) (y :: l) = -1 := by
  rw [keySign, if_neg (fun hc => h.ne (List.cons.inj hc.1).1), lexSign_cons_cons, if_pos h]

/-- And the other way. -/
theorem keySign_of_gt {y : ℕ} (h : y < x) : keySign (x :: k) (y :: l) = 1 := by
  rw [keySign, if_neg (fun hc => h.ne' (List.cons.inj hc.1).1), lexSign_cons_cons,
    if_neg (lt_asymm h), if_pos h]

/-- Not greater is not after. -/
theorem keySign_nonpos : keySign k l ≤ 0 ↔ k ≤ l := by
  rw [keySign]
  split_ifs with h
  · exact iff_of_true (by decide) h.1.le
  · exact lexSign_nonpos

/-- Equal are the same keys, all of them characters. -/
theorem keySign_eq_zero : keySign k l = 0 ↔ k = l ∧ 0 ∉ k := by
  rw [keySign]
  split_ifs with h
  · exact iff_of_false (by decide) fun hc => hc.2 h.2
  · rw [lexSign_eq_zero]
    exact ⟨fun heq => ⟨heq, fun hmem => h ⟨heq, hmem⟩⟩, fun hc => hc.1⟩

/-- Against one string, the lesser of two others compares at least as
well. -/
theorem keySign_antitone (w : List ℕ) (h : k ≤ l) :
    (0 ≤ keySign w l → 0 ≤ keySign w k) ∧ (0 < keySign w l → 0 < keySign w k) := by
  have hpos : 0 < keySign w l → 0 < keySign w k := by
    rw [← not_le, ← not_le, keySign_nonpos, keySign_nonpos]
    exact fun hl hk => hl (hk.trans h)
  refine ⟨fun hl => ?_, hpos⟩
  rcases hl.lt_or_eq with hlt | heq
  · exact (hpos hlt).le
  · obtain ⟨rfl, hmem⟩ := keySign_eq_zero.1 heq.symm
    rcases h.lt_or_eq with hlt | rfl
    · exact (not_le.1 (mt keySign_nonpos.1 (not_le.2 hlt))).le
    · exact hl

end Signs

/-- What the keys of a string begin with. -/
theorem keysLoop_cases {fuel : ℕ} {a : Bytes} (ha : a ≠ []) (hfuel : a.length ≤ fuel) :
    (utf8CharWidth a = 0 ∧ keysLoop fuel a = [0]) ∨
    (utf8CharWidth a ≠ 0 ∧ utf8MbtowcN a (utf8CharWidth a) = none ∧ keysLoop fuel a = [1]) ∨
    ∃ wc n fuel', utf8CharWidth a ≠ 0 ∧ utf8MbtowcN a (utf8CharWidth a) = some (wc, n) ∧
      (a.drop (utf8CharWidth a)).length ≤ fuel' ∧
      keysLoop fuel a = (utf8WcToupper wc + 2) :: keysLoop fuel' (a.drop (utf8CharWidth a)) := by
  obtain ⟨c, r, rfl⟩ := List.exists_cons_of_ne_nil ha
  rw [List.length_cons] at hfuel
  obtain ⟨fuel, rfl⟩ : ∃ m, fuel = m + 1 := ⟨fuel - 1, by omega⟩
  rw [keysLoop]
  split_ifs with hw
  · exact .inl ⟨hw, rfl⟩
  · cases hwc : utf8MbtowcN (c :: r) (utf8CharWidth (c :: r)) with
    | none => exact .inr (.inl ⟨hw, rfl, rfl⟩)
    | some p =>
      obtain ⟨wc, n⟩ := p
      refine .inr (.inr ⟨wc, n, fuel, hw, rfl, ?_, rfl⟩)
      rw [List.length_drop, List.length_cons]
      omega

/-- **One character of either string**: the keys decide, or they are the
same and the rest is compared. -/
theorem headCasecmp_keys {fa fb : ℕ} {a b a' b' : Bytes} {rc : ℤ} (hane : a ≠ []) (hbne : b ≠ [])
    (ha : a.length ≤ fa) (hb : b.length ≤ fb) (h : headCasecmp a b = some (rc, a', b')) :
    (rc ≠ 0 ∧ rc = keySign (keysLoop fa a) (keysLoop fb b)) ∨
    (rc = 0 ∧ ∃ x fa' fb', a'.length ≤ fa' ∧ b'.length ≤ fb' ∧
      keysLoop fa a = (x + 2) :: keysLoop fa' a' ∧ keysLoop fb b = (x + 2) :: keysLoop fb' b') := by
  rw [headCasecmp] at h
  rcases keysLoop_cases hane ha with ⟨hw, hka⟩ | ⟨hw, hwc, hka⟩ | ⟨wa, n, fa', hw, hwc, hfa', hka⟩
  · -- nothing is less than a byte that begins no character
    rw [if_pos hw] at h
    obtain ⟨rfl, -⟩ := Prod.mk.inj (Option.some.inj h)
    refine .inl ⟨by decide, ?_⟩
    rw [hka]
    rcases keysLoop_cases hbne hb with ⟨-, hkb⟩ | ⟨-, -, hkb⟩ | ⟨wb, m, fb', -, -, -, hkb⟩
    · rw [hkb, keySign, if_pos ⟨rfl, List.mem_singleton_self 0⟩]
    · rw [hkb, keySign_of_lt (by decide)]
    · rw [hkb, keySign_of_lt (by omega)]
  · rw [if_neg hw, hwc] at h
    cases h
  · rw [if_neg hw, hwc, Option.bind_eq_bind, Option.bind_some] at h
    dsimp only at h
    rw [hka]
    rcases keysLoop_cases hbne hb with ⟨hv, hkb⟩ | ⟨hv, hwd, hkb⟩ | ⟨wb, m, fb', hv, hwd, hfb', hkb⟩
    · rw [if_pos hv] at h
      obtain ⟨rfl, -⟩ := Prod.mk.inj (Option.some.inj h)
      rw [hkb, keySign_of_gt (by omega)]
      exact .inl ⟨by decide, rfl⟩
    · rw [if_neg hv, hwd] at h
      cases h
    · rw [if_neg hv, hwd, Option.bind_some] at h
      dsimp only at h
      obtain ⟨rfl, hdrop⟩ := Prod.mk.inj (Option.some.inj h)
      obtain ⟨rfl, rfl⟩ := Prod.mk.inj hdrop
      rw [hkb]
      rcases lt_trichotomy (utf8WcToupper wa) (utf8WcToupper wb) with hlt | heq | hgt
      · rw [if_pos hlt, keySign_of_lt (by omega)]
        exact .inl ⟨by decide, rfl⟩
      · rw [if_neg (by omega), if_neg (by omega), heq]
        exact .inr ⟨rfl, _, fa', fb', hfa', hfb', rfl, rfl⟩
      · rw [if_neg (by omega), if_pos hgt, keySign_of_gt (by omega)]
        exact .inl ⟨by decide, rfl⟩

/-- No characters, no keys. -/
theorem keysLoop_nil (fuel : ℕ) : keysLoop fuel [] = [] := by
  rw [keysLoop]

/-- And otherwise there are some. -/
theorem keysLoop_ne_nil {fuel : ℕ} {a : Bytes} (ha : a ≠ []) (hfuel : a.length ≤ fuel) :
    ∃ x k, keysLoop fuel a = x :: k := by
  rcases keysLoop_cases ha hfuel with ⟨-, h⟩ | ⟨-, -, h⟩ | ⟨wc, n, fuel', -, -, -, h⟩
  · exact ⟨_, _, h⟩
  · exact ⟨_, _, h⟩
  · exact ⟨_, _, h⟩

/-- At the end of either string the ends decide. -/
theorem strcasecmpLoop_end {fuel fa fb : ℕ} {a b : Bytes} {rc : ℤ} (ha : a.length ≤ fa)
    (hb : b.length ≤ fb) (hend : a = [] ∨ b = []) (h : strcasecmpLoop fuel a b = some rc) :
    rc = keySign (keysLoop fa a) (keysLoop fb b) := by
  cases a with
  | nil =>
    rw [strcasecmpLoop] at h
    rw [keysLoop_nil, keySign_nil_left, ← Option.some.inj h]
    cases b with
    | nil => rw [keysLoop_nil, if_pos rfl, if_pos rfl]
    | cons d b =>
      obtain ⟨x, k, hk⟩ := keysLoop_ne_nil (List.cons_ne_nil d b) hb
      rw [hk, if_neg (List.cons_ne_nil _ _), if_neg (List.cons_ne_nil _ _)]
  | cons c a =>
    obtain rfl := hend.resolve_left (List.cons_ne_nil c a)
    obtain ⟨x, k, hk⟩ := keysLoop_ne_nil (List.cons_ne_nil c a) ha
    rw [strcasecmpLoop] at h
    rw [keysLoop_nil, hk, ← Option.some.inj h, keySign,
      if_neg (fun hc => List.cons_ne_nil _ _ hc.1), lexSign_cons_nil]

/-- **The loop compares the keys**, wherever it has a result. -/
theorem strcasecmpLoop_keys {fuel fa fb : ℕ} {a b : Bytes} {rc : ℤ} (ha : a.length ≤ fa)
    (hb : b.length ≤ fb) (h : strcasecmpLoop fuel a b = some rc) :
    rc = keySign (keysLoop fa a) (keysLoop fb b) := by
  induction fuel generalizing fa fb a b with
  | zero =>
    cases a with
    | nil => exact strcasecmpLoop_end ha hb (.inl rfl) h
    | cons c a =>
      cases b with
      | nil => exact strcasecmpLoop_end ha hb (.inr rfl) h
      | cons d b => cases h
  | succ fuel ih =>
    cases a with
    | nil => exact strcasecmpLoop_end ha hb (.inl rfl) h
    | cons c a =>
      cases b with
      | nil => exact strcasecmpLoop_end ha hb (.inr rfl) h
      | cons d b =>
        rw [strcasecmpLoop, Option.bind_eq_bind, Option.bind_eq_some_iff] at h
        obtain ⟨⟨rc', a', b'⟩, hhead, h⟩ := h
        dsimp only at h
        rcases headCasecmp_keys (List.cons_ne_nil c a) (List.cons_ne_nil d b) ha hb hhead with
          ⟨hne, hrc⟩ | ⟨rfl, x, fa', fb', ha', hb', hka, hkb⟩
        · rw [if_pos hne] at h
          rw [← Option.some.inj h, hrc]
        · rw [if_neg (not_not.2 rfl)] at h
          rw [hka, hkb, keySign_cons]
          exact ih ha' hb' h

/-- **`utf8_strcasecmp` compares the keys.** -/
theorem utf8Strcasecmp_keys {a b : Bytes} {rc : ℤ} (h : utf8Strcasecmp a b = some rc) :
    rc = keySign (keys a) (keys b) := strcasecmpLoop_keys le_rfl le_rfl h

/-- **What is sorted by the comparison is in three parts for every
string**, whatever bytes there are in it. -/
theorem partitioned_of_sorted {α : Type} {l : List α} {text : α → Bytes} {word : Bytes}
    {cmp : ℕ → ℤ}
    (hsort : l.Pairwise fun a b => ∃ rc, utf8Strcasecmp (text a) (text b) = some rc ∧ rc ≤ 0)
    (hcmp : ∀ p x, l[p]? = some x → utf8Strcasecmp word (text x) = some (cmp p)) :
    Bsearch.Partitioned l.length cmp := by
  intro i j hij hj
  rcases Nat.eq_or_lt_of_le hij with rfl | hlt
  · exact ⟨id, id⟩
  · have hi := hcmp i _ (List.getElem?_eq_getElem (by omega))
    have hj' := hcmp j _ (List.getElem?_eq_getElem hj)
    obtain ⟨rc, hrc, hle⟩ := List.pairwise_iff_getElem.1 hsort i j (by omega) hj hlt
    rw [utf8Strcasecmp_keys hrc, keySign_nonpos] at hle
    rw [utf8Strcasecmp_keys hi, utf8Strcasecmp_keys hj']
    exact keySign_antitone (keys word) hle

/-! ## The other way round -/

section Swap

open Utf8 (encode)

variable {W : List ℕ} {wc : ℕ}

/-- One character of a text and one of any string, the other way round:
the sign is, and what is left to compare is the same. -/
theorem headCasecmp_swap (hwc : 1 ≤ wc ∧ wc < 0x110000) {a e a' e' : Bytes} {rc : ℤ}
    (h : headCasecmp (encode wc ++ a) e = some (rc, a', e')) :
    ∃ e'' a'', headCasecmp e (encode wc ++ a) = some (-rc, e'', a'') ∧
      (rc = 0 → a' = a ∧ a'' = a ∧ e' = e.drop (utf8CharWidth e) ∧
        e'' = e.drop (utf8CharWidth e) ∧ utf8CharWidth e ≠ 0) := by
  have hne : (encode wc).length ≠ 0 := (List.length_pos_of_ne_nil (Utf8.encode_ne_nil wc)).ne'
  have hwidth := utf8CharWidth_encode hwc.2 a
  have hdec : utf8MbtowcN (encode wc ++ a) (encode wc).length = some (wc, (encode wc).length) :=
    utf8MbtowcN_encode hwc.1 (by omega) le_rfl a
  rw [headCasecmp] at h ⊢
  simp only [hwidth, hdec, hne, Option.bind_eq_bind, Option.bind_some, List.drop_left,
    if_false] at h ⊢
  by_cases hw : utf8CharWidth e = 0
  · rw [if_pos hw] at h ⊢
    obtain ⟨rfl, -⟩ := Prod.mk.inj (Option.some.inj h)
    exact ⟨_, _, rfl, fun h₀ => absurd h₀ (by decide)⟩
  · rw [if_neg hw] at h ⊢
    cases he : utf8MbtowcN e (utf8CharWidth e) with
    | none =>
      rw [he] at h
      cases h
    | some p =>
      rw [he, Option.bind_some] at h
      obtain ⟨rfl, hrest⟩ := Prod.mk.inj (Option.some.inj h)
      obtain ⟨rfl, rfl⟩ := Prod.mk.inj hrest
      refine ⟨e.drop (utf8CharWidth e), a, ?_, fun _ => ⟨rfl, rfl, rfl, rfl, hw⟩⟩
      rw [Option.bind_some]
      congr 2
      split_ifs <;> omega

/-- Where the bound is reached the comparison ends. -/
theorem strncasecmpLoop_of_le {n fuel asz : ℕ} {a b : Bytes} (h : n ≤ asz) :
    strncasecmpLoop n fuel asz a b = some 0 := by
  rw [strncasecmpLoop.eq_def, if_neg (not_lt.2 h)]

/-- **The bounded comparison of a text with any string, the other way
round.** -/
theorem strncasecmpLoop_swap (hW : Scalars W) {n fuel fuel' asz : ℕ} {e : Bytes} {rc : ℤ}
    (hfuel : e.length ≤ fuel') (h : strncasecmpLoop n fuel asz (W.flatMap encode) e = some rc) :
    strncasecmpLoop n fuel' asz e (W.flatMap encode) = some (-rc) := by
  induction W generalizing e fuel fuel' asz with
  | nil =>
    rcases Nat.lt_or_ge asz n with hlt | hge
    · rw [List.flatMap_nil, strncasecmpLoop_nil_left hlt] at h
      obtain rfl := Option.some.inj h
      rw [List.flatMap_nil]
      by_cases he : e = []
      · rw [he, strncasecmpLoop_nil_left hlt, if_pos rfl, Int.neg_zero]
      · rw [strncasecmpLoop_nil_right hlt he, if_neg he, Int.neg_neg]
    · rw [strncasecmpLoop_of_le hge] at h ⊢
      obtain rfl := Option.some.inj h
      rfl
  | cons wc W ih =>
    rcases Nat.lt_or_ge asz n with hlt | hge
    · obtain ⟨hwc, hW⟩ := List.forall_mem_cons.1 hW
      have hswap := @headCasecmp_swap wc hwc (W.flatMap encode) e
      obtain ⟨c, r, hc⟩ := Utf8.encode_append wc (W.flatMap encode)
      rw [List.flatMap_cons, hc] at h ⊢
      rw [hc] at hswap
      cases e with
      | nil =>
        rw [strncasecmpLoop_nil_right hlt (List.cons_ne_nil c r)] at h
        obtain rfl := Option.some.inj h
        rw [strncasecmpLoop_nil_left hlt, if_neg (List.cons_ne_nil c r)]
      | cons d q =>
        rw [List.length_cons] at hfuel
        obtain ⟨fuel', rfl⟩ : ∃ m, fuel' = m + 1 := ⟨fuel' - 1, by omega⟩
        cases fuel with
        | zero =>
          rw [strncasecmpLoop, if_pos hlt] at h
          cases h
        | succ fuel =>
          rw [strncasecmpLoop, if_pos hlt, Option.bind_eq_bind, Option.bind_eq_some_iff] at h
          obtain ⟨⟨rc', a', e'⟩, hhead, h⟩ := h
          obtain ⟨e'', a'', hback, hsame⟩ := hswap hhead
          rw [strncasecmpLoop, if_pos hlt, hback, Option.bind_eq_bind, Option.bind_some]
          dsimp only at h ⊢
          by_cases hzero : rc' = 0
          · obtain ⟨rfl, rfl, rfl, rfl, hwidth⟩ := hsame hzero
            rw [if_neg (not_not.2 hzero)] at h
            rw [if_neg (by omega)]
            refine ih hW ?_ h
            rw [List.length_drop, List.length_cons]
            omega
          · rw [if_pos hzero] at h
            rw [if_pos (by omega), ← Option.some.inj h]
    · rw [strncasecmpLoop_of_le hge] at h ⊢
      obtain rfl := Option.some.inj h
      rfl

/-- `utf8_strncasecmp` on a text and any string, the other way round. -/
theorem utf8Strncasecmp_swap {w : Utf8Text} {e : Bytes} {n : ℕ} {rc : ℤ}
    (h : utf8Strncasecmp w.bytes e n = some rc) : utf8Strncasecmp e w.bytes n = some (-rc) := by
  rw [utf8Strncasecmp] at h ⊢
  rw [w.bytes_eq] at h ⊢
  exact strncasecmpLoop_swap (fun _ => w.codes_range) le_rfl h

end Swap

end Dico
