import Dico.Text.Unicase
import Dico.Text.Utf8
import Mathlib.Data.List.Lex
import Mathlib.Order.Lattice
/-!
# Case-insensitive comparison

`utf8_strcasecmp` and `utf8_strncasecmp` walk two strings of bytes,
`utf8_wc_strcasecmp` two arrays of code points. On valid UTF-8 all of them
are one comparison, the lexicographic one of the code points mapped by
`utf8_wc_toupper` (`lexSign`), with one exception: the counter of
`utf8_strncasecmp` is narrower than its bound and starts again at `2 ^ 32`,
so from there on the bound is not heeded.
-/

namespace Dico

open Utf8 (encode)

/-! ## The comparison -/

section Lex

variable {α : Type} [LinearOrder α]

/-- The sign of the lexicographic comparison. -/
def lexSign (a b : List α) : ℤ := if a < b then -1 else if b < a then 1 else 0

/-- Nothing before something. -/
@[simp] theorem lexSign_nil_left (b : List α) :
    lexSign [] b = if b = [] then 0 else -1 := by
  cases b with
  | nil => rw [lexSign, if_neg (lt_irrefl _), if_neg (lt_irrefl _), if_pos rfl]
  | cons y b => rw [lexSign, if_pos (List.nil_lt_cons y b), if_neg (List.cons_ne_nil y b)]

/-- Something after nothing. -/
@[simp] theorem lexSign_cons_nil (x : α) (a : List α) : lexSign (x :: a) [] = 1 := by
  rw [lexSign, if_neg (List.not_lt_nil _), if_pos (List.nil_lt_cons x a)]

/-- Where the first elements decide. -/
theorem lexSign_cons_cons (x y : α) (a b : List α) :
    lexSign (x :: a) (y :: b) = if x < y then -1 else if y < x then 1 else lexSign a b := by
  simp only [lexSign, List.cons_lt_cons_iff]
  rcases lt_trichotomy x y with h | rfl | h
  · simp only [h, true_or, if_true]
  · simp only [lt_irrefl, false_or, true_and, if_false]
  · simp only [h, not_lt_of_gt h, h.ne', false_and, or_false, if_false, if_true, true_or]

/-- The same lists compare equal. -/
theorem lexSign_self (a : List α) : lexSign a a = 0 := by
  rw [lexSign, if_neg (lt_irrefl a), if_neg (lt_irrefl a)]

/-- And only they do. -/
theorem lexSign_eq_zero {a b : List α} : lexSign a b = 0 ↔ a = b := by
  constructor
  · intro h
    rcases lt_trichotomy a b with hlt | heq | hlt
    · rw [lexSign, if_pos hlt] at h
      cases h
    · exact heq
    · rw [lexSign, if_neg (lt_asymm hlt), if_pos hlt] at h
      cases h
  · rintro rfl
    exact lexSign_self a

/-- Not after. -/
theorem lexSign_nonpos {a b : List α} : lexSign a b ≤ 0 ↔ a ≤ b := by
  unfold lexSign
  split_ifs with h₁ h₂
  · exact iff_of_true (by decide) h₁.le
  · exact iff_of_false (by decide) (not_le.2 h₂)
  · exact iff_of_true (by decide) (not_lt.1 h₂)

/-- Lists that differ in front compare as their beginnings do. -/
theorem lexSign_take {a b : List α} {n : ℕ} (h : a.take n ≠ b.take n) :
    lexSign (a.take n) (b.take n) = lexSign a b := by
  induction n generalizing a b with
  | zero => exact absurd rfl h
  | succ n ih =>
    cases a with
    | nil =>
      cases b with
      | nil => rfl
      | cons y b =>
        rw [List.take_nil, List.take_succ_cons, lexSign_nil_left, lexSign_nil_left,
          if_neg (List.cons_ne_nil _ _), if_neg (List.cons_ne_nil _ _)]
    | cons x a =>
      cases b with
      | nil => rw [List.take_nil, List.take_succ_cons, lexSign_cons_nil, lexSign_cons_nil]
      | cons y b =>
        rw [List.take_succ_cons, List.take_succ_cons, lexSign_cons_cons, lexSign_cons_cons]
        rcases eq_or_ne x y with rfl | hxy
        · rw [ih fun heq => h (by rw [List.take_succ_cons, List.take_succ_cons, heq])]
        · rcases lt_or_gt_of_ne hxy with hlt | hlt
          · rw [if_pos hlt, if_pos hlt]
          · rw [if_neg (lt_asymm hlt), if_pos hlt, if_neg (lt_asymm hlt), if_pos hlt]

end Lex

/-! ## The loops -/

/-- The body the loops over bytes share: the sign of the comparison of the
first characters, and what is behind them. The result of `utf8_mbtowc` is
not looked at, and where it fails the code point is whatever was on the
stack, so there is none here. -/
def headCasecmp (a b : Bytes) : Option (ℤ × Bytes × Bytes) :=
  let alen := utf8CharWidth a
  if alen = 0 then some (-1, a, b)
  else do
    let (wa, _) ← utf8MbtowcN a alen
    let blen := utf8CharWidth b
    if blen = 0 then some (1, a, b)
    else do
      let (wb, _) ← utf8MbtowcN b blen
      let wa := utf8WcToupper wa
      let wb := utf8WcToupper wb
      some (if wa < wb then -1 else if wa > wb then 1 else 0, a.drop alen, b.drop blen)

/-- The loop of `utf8_strcasecmp`. -/
def strcasecmpLoop : ℕ → Bytes → Bytes → Option ℤ
  | _, [], b => some (if b = [] then 0 else -1)
  | _, _ :: _, [] => some 1
  | 0, _ :: _, _ :: _ => none
  | fuel + 1, c :: a, d :: b => do
    let (rc, a, b) ← headCasecmp (c :: a) (d :: b)
    if rc ≠ 0 then some rc else strcasecmpLoop fuel a b

/-- `utf8_strcasecmp`. -/
def utf8Strcasecmp (a b : Bytes) : Option ℤ := strcasecmpLoop a.length a b

/-- The loop of `utf8_strncasecmp`, whose counter is an `unsigned`. -/
def strncasecmpLoop (maxlen fuel asz : ℕ) (a b : Bytes) : Option ℤ :=
  if asz < maxlen then
    match fuel, a, b with
    | _, [], b => some (if b = [] then 0 else -1)
    | _, _ :: _, [] => some 1
    | 0, _ :: _, _ :: _ => none
    | fuel + 1, c :: a, d :: b => do
      let (rc, a, b) ← headCasecmp (c :: a) (d :: b)
      if rc ≠ 0 then some rc else strncasecmpLoop maxlen fuel ((asz + 1) % 2 ^ 32) a b
  else some 0

/-- `utf8_strncasecmp`. -/
def utf8Strncasecmp (a b : Bytes) (maxlen : ℕ) : Option ℤ :=
  strncasecmpLoop maxlen a.length 0 a b

/-- `utf8_wc_strcasecmp`. -/
def utf8WcStrcasecmp : List ℕ → List ℕ → ℤ
  | [], b => if b = [] then 0 else -1
  | _ :: _, [] => 1
  | x :: a, y :: b =>
    if x ≠ y then
      let wa := utf8WcToupper x
      let wb := utf8WcToupper y
      if wa < wb then -1 else if wa > wb then 1 else utf8WcStrcasecmp a b
    else utf8WcStrcasecmp a b

example : utf8Strcasecmp (ascii "straSSe") (ascii "Strasse") = some 0 := by decide +kernel

/-! ## The loops compare lexicographically -/

section Loops

/-- The code points as the comparison sees them. -/
def folded (ws : List ℕ) : List ℕ := ws.map utf8WcToupper

/-- The code points of Unicode, null excepted. -/
def Scalars (ws : List ℕ) : Prop := ∀ wc ∈ ws, 1 ≤ wc ∧ wc < 0x110000

variable {x y : ℕ} {a b : Bytes} {A B : List ℕ}

/-- The body of the loops at two characters. -/
theorem headCasecmp_encode (hx : 1 ≤ x ∧ x < 0x110000) (hy : 1 ≤ y ∧ y < 0x110000) :
    headCasecmp (encode x ++ a) (encode y ++ b) =
      some (if utf8WcToupper x < utf8WcToupper y then -1
        else if utf8WcToupper x > utf8WcToupper y then 1 else 0, a, b) := by
  have hpx := List.length_pos_of_ne_nil (Utf8.encode_ne_nil x)
  have hpy := List.length_pos_of_ne_nil (Utf8.encode_ne_nil y)
  rw [headCasecmp]
  simp only [utf8CharWidth_encode hx.2, utf8CharWidth_encode hy.2]
  rw [if_neg (by omega), utf8MbtowcN_encode hx.1 (by omega) le_rfl]
  simp only [Option.bind_eq_bind, Option.bind_some]
  rw [if_neg (by omega), utf8MbtowcN_encode hy.1 (by omega) le_rfl]
  simp only [Option.bind_some, List.drop_left]

/-- One character of `utf8_strcasecmp`. -/
theorem strcasecmpLoop_encode {fuel : ℕ} (hx : 1 ≤ x ∧ x < 0x110000)
    (hy : 1 ≤ y ∧ y < 0x110000) :
    strcasecmpLoop (fuel + 1) (encode x ++ a) (encode y ++ b) =
      if utf8WcToupper x < utf8WcToupper y then some (-1)
      else if utf8WcToupper y < utf8WcToupper x then some 1
      else strcasecmpLoop fuel a b := by
  have hhead := headCasecmp_encode (a := a) (b := b) hx hy
  obtain ⟨c, r, hc⟩ := Utf8.encode_append x a
  obtain ⟨d, q, hd⟩ := Utf8.encode_append y b
  rw [hc, hd] at hhead ⊢
  rw [strcasecmpLoop, hhead]
  simp only [Option.bind_eq_bind, Option.bind_some]
  split_ifs <;> first | rfl | omega

/-- One character of `utf8_strncasecmp`, within the bound. -/
theorem strncasecmpLoop_encode {maxlen fuel asz : ℕ} (hlt : asz < maxlen)
    (hx : 1 ≤ x ∧ x < 0x110000) (hy : 1 ≤ y ∧ y < 0x110000) :
    strncasecmpLoop maxlen (fuel + 1) asz (encode x ++ a) (encode y ++ b) =
      if utf8WcToupper x < utf8WcToupper y then some (-1)
      else if utf8WcToupper y < utf8WcToupper x then some 1
      else strncasecmpLoop maxlen fuel ((asz + 1) % 2 ^ 32) a b := by
  have hhead := headCasecmp_encode (a := a) (b := b) hx hy
  obtain ⟨c, r, hc⟩ := Utf8.encode_append x a
  obtain ⟨d, q, hd⟩ := Utf8.encode_append y b
  rw [hc, hd] at hhead ⊢
  rw [strncasecmpLoop, if_pos hlt, hhead]
  simp only [Option.bind_eq_bind, Option.bind_some]
  split_ifs <;> first | rfl | omega

/-- **`utf8_strcasecmp` compares the mapped code points.** -/
theorem strcasecmpLoop_eq (hA : Scalars A) (hB : Scalars B) {fuel : ℕ}
    (hfuel : A.length ≤ fuel) :
    strcasecmpLoop fuel (A.flatMap encode) (B.flatMap encode) =
      some (lexSign (folded A) (folded B)) := by
  induction A generalizing B fuel with
  | nil =>
    cases B with
    | nil =>
      rw [List.flatMap_nil, strcasecmpLoop]
      rfl
    | cons y B =>
      obtain ⟨d, q, hd⟩ := Utf8.encode_append y (B.flatMap encode)
      rw [List.flatMap_nil, List.flatMap_cons, hd, strcasecmpLoop]
      rfl
  | cons x A ih =>
    obtain ⟨hx, hA⟩ := List.forall_mem_cons.1 hA
    cases B with
    | nil =>
      obtain ⟨c, r, hc⟩ := Utf8.encode_append x (A.flatMap encode)
      rw [List.flatMap_nil, List.flatMap_cons, hc, strcasecmpLoop]
      exact congrArg some (lexSign_cons_nil _ _).symm
    | cons y B =>
      obtain ⟨hy, hB⟩ := List.forall_mem_cons.1 hB
      rw [List.length_cons] at hfuel
      obtain ⟨fuel, rfl⟩ : ∃ k, fuel = k + 1 := ⟨fuel - 1, by omega⟩
      rw [List.flatMap_cons, List.flatMap_cons, strcasecmpLoop_encode hx hy,
        ih hA hB (by omega)]
      simp only [folded, List.map_cons, lexSign_cons_cons, apply_ite some]

/-- `utf8_wc_strcasecmp` compares them the same way; where two code points
are the same, it does not map them. -/
theorem utf8WcStrcasecmp_eq (A B : List ℕ) :
    utf8WcStrcasecmp A B = lexSign (folded A) (folded B) := by
  induction A generalizing B with
  | nil =>
    cases B with
    | nil => rfl
    | cons y B => rfl
  | cons x A ih =>
    cases B with
    | nil => exact (lexSign_cons_nil _ _).symm
    | cons y B =>
      rw [utf8WcStrcasecmp, folded, folded, List.map_cons, List.map_cons, lexSign_cons_cons]
      rcases eq_or_ne x y with rfl | hxy
      · rw [if_neg (not_not.2 rfl), if_neg (lt_irrefl _), if_neg (lt_irrefl _), ih]
        rfl
      · rw [if_pos hxy, ih]
        rfl

/-- The bound is reached. -/
theorem strncasecmpLoop_stop (maxlen fuel : ℕ) :
    strncasecmpLoop maxlen fuel maxlen a b = some 0 := by
  rw [strncasecmpLoop.eq_def, if_neg (lt_irrefl maxlen)]

/-- The ends of the strings decide within the bound. -/
theorem strncasecmpLoop_nil_left {maxlen fuel asz : ℕ} (hlt : asz < maxlen) :
    strncasecmpLoop maxlen fuel asz [] b = some (if b = [] then 0 else -1) := by
  rw [strncasecmpLoop, if_pos hlt]

/-- The second string ends first. -/
theorem strncasecmpLoop_nil_right {maxlen fuel asz : ℕ} (hlt : asz < maxlen) (ha : a ≠ []) :
    strncasecmpLoop maxlen fuel asz a [] = some 1 := by
  obtain ⟨c, r, rfl⟩ := List.exists_cons_of_ne_nil ha
  rw [strncasecmpLoop, if_pos hlt]

/-- No string of code points but the empty one is without bytes. -/
theorem flatMap_encode_eq_nil : B.flatMap encode = [] ↔ B = [] := by
  constructor
  · intro h
    cases B with
    | nil => rfl
    | cons y B =>
      rw [List.flatMap_cons] at h
      exact absurd (List.append_eq_nil_iff.1 h).1 (Utf8.encode_ne_nil y)
  · rintro rfl
    rfl

/-- **Below `2 ^ 32` the bound is heeded**: the comparison sees the code
points that are left to it. -/
theorem strncasecmpLoop_narrow (hA : Scalars A) (hB : Scalars B) {n fuel asz : ℕ}
    (hn : n < 2 ^ 32) (hfuel : A.length ≤ fuel) (hasz : asz ≤ n) :
    strncasecmpLoop n fuel asz (A.flatMap encode) (B.flatMap encode) =
      some (lexSign (folded (A.take (n - asz))) (folded (B.take (n - asz)))) := by
  induction A generalizing B fuel asz with
  | nil =>
    rcases Nat.eq_or_lt_of_le hasz with rfl | hlt
    · rw [strncasecmpLoop_stop, Nat.sub_self, List.take_zero, List.take_zero, lexSign_self]
    · obtain ⟨k, hk⟩ : ∃ k, n - asz = k + 1 := ⟨n - asz - 1, by omega⟩
      rw [List.flatMap_nil, strncasecmpLoop_nil_left hlt, List.take_nil, hk]
      simp only [flatMap_encode_eq_nil, folded, List.map_nil, lexSign_nil_left,
        List.map_eq_nil_iff, List.take_eq_nil_iff, Nat.succ_ne_zero, false_or]
  | cons x A ih =>
    rcases Nat.eq_or_lt_of_le hasz with rfl | hlt
    · rw [strncasecmpLoop_stop, Nat.sub_self, List.take_zero, List.take_zero, lexSign_self]
    · obtain ⟨hx, hA⟩ := List.forall_mem_cons.1 hA
      obtain ⟨k, hk⟩ : ∃ k, n - asz = k + 1 := ⟨n - asz - 1, by omega⟩
      cases B with
      | nil =>
        rw [List.flatMap_nil, strncasecmpLoop_nil_right hlt
          (by rw [Ne, flatMap_encode_eq_nil]; exact List.cons_ne_nil _ _), hk, List.take_nil,
          List.take_succ_cons]
        exact congrArg some (lexSign_cons_nil _ _).symm
      | cons y B =>
        obtain ⟨hy, hB⟩ := List.forall_mem_cons.1 hB
        rw [List.length_cons] at hfuel
        obtain ⟨fuel, rfl⟩ : ∃ k, fuel = k + 1 := ⟨fuel - 1, by omega⟩
        rw [List.flatMap_cons, List.flatMap_cons, strncasecmpLoop_encode hlt hx hy,
          Nat.mod_eq_of_lt (by omega), ih hA hB (by omega) (by omega), hk,
          show n - (asz + 1) = k by omega]
        simp only [folded, List.take_succ_cons, List.map_cons, lexSign_cons_cons, apply_ite some]

/-- **From `2 ^ 32` on it is not**: the counter never gets there, and the
strings are compared to their ends. -/
theorem strncasecmpLoop_wide (hA : Scalars A) (hB : Scalars B) {n fuel asz : ℕ}
    (hn : 2 ^ 32 ≤ n) (hfuel : A.length ≤ fuel) (hasz : asz < 2 ^ 32) :
    strncasecmpLoop n fuel asz (A.flatMap encode) (B.flatMap encode) =
      some (lexSign (folded A) (folded B)) := by
  induction A generalizing B fuel asz with
  | nil =>
    rw [List.flatMap_nil, strncasecmpLoop_nil_left (by omega)]
    simp only [flatMap_encode_eq_nil, folded, List.map_nil, lexSign_nil_left, List.map_eq_nil_iff]
  | cons x A ih =>
    obtain ⟨hx, hA⟩ := List.forall_mem_cons.1 hA
    cases B with
    | nil =>
      rw [List.flatMap_nil, strncasecmpLoop_nil_right (by omega)
        (by rw [Ne, flatMap_encode_eq_nil]; exact List.cons_ne_nil _ _)]
      exact congrArg some (lexSign_cons_nil _ _).symm
    | cons y B =>
      obtain ⟨hy, hB⟩ := List.forall_mem_cons.1 hB
      rw [List.length_cons] at hfuel
      obtain ⟨fuel, rfl⟩ : ∃ k, fuel = k + 1 := ⟨fuel - 1, by omega⟩
      rw [List.flatMap_cons, List.flatMap_cons, strncasecmpLoop_encode (by omega) hx hy,
        ih hA hB (by omega) (Nat.mod_lt _ (by decide))]
      simp only [folded, List.map_cons, lexSign_cons_cons, apply_ite some]

end Loops

/-! ## The order on texts -/

section Texts

variable (a b : Utf8Text) (n : ℕ)

/-- The bytes leave the loops budget enough. -/
theorem length_codes_le : a.codes.length ≤ a.bytes.length := by
  rw [a.bytes_eq]
  exact length_le_encode a.codes

/-- `utf8_strcasecmp` on texts. -/
theorem utf8Strcasecmp_bytes :
    utf8Strcasecmp a.bytes b.bytes = some (lexSign (folded a.codes) (folded b.codes)) := by
  have hle := length_codes_le a
  rw [utf8Strcasecmp]
  rw [a.bytes_eq] at hle ⊢
  rw [b.bytes_eq]
  exact strcasecmpLoop_eq (fun _ => a.codes_range) (fun _ => b.codes_range) hle

/-- `utf8_strncasecmp` on texts. -/
theorem utf8Strncasecmp_bytes :
    utf8Strncasecmp a.bytes b.bytes n =
      if n < 2 ^ 32 then some (lexSign (folded (a.codes.take n)) (folded (b.codes.take n)))
      else some (lexSign (folded a.codes) (folded b.codes)) := by
  have hle := length_codes_le a
  rw [utf8Strncasecmp]
  rw [a.bytes_eq] at hle ⊢
  rw [b.bytes_eq]
  split_ifs with hn
  · exact strncasecmpLoop_narrow (fun _ => a.codes_range) (fun _ => b.codes_range) hn hle
      (Nat.zero_le n)
  · exact strncasecmpLoop_wide (fun _ => a.codes_range) (fun _ => b.codes_range)
      (not_lt.1 hn) hle (by decide)

/-- What is asked of the comparisons at two texts and a bound: they are
the lexicographic comparison of the mapped code points, on bytes, on the
decoded arrays, and on the first code points of each. -/
def Collated : Prop :=
  utf8Strcasecmp a.bytes b.bytes = some (lexSign (folded a.codes) (folded b.codes)) ∧
  (∃ wa wb, utf8MbstrToWc a.bytes = some wa ∧ utf8MbstrToWc b.bytes = some wb ∧
    utf8Strcasecmp a.bytes b.bytes = some (utf8WcStrcasecmp wa wb)) ∧
  utf8Strncasecmp a.bytes b.bytes n =
    some (lexSign (folded (a.codes.take n)) (folded (b.codes.take n)))

/-- Not after, as `qsort` and `bsearch` are told. -/
def CaseLe : Prop := ∃ rc, utf8Strcasecmp a.bytes b.bytes = some rc ∧ rc ≤ 0

/-- It is the order of the mapped code points. -/
theorem caseLe_iff : CaseLe a b ↔ folded a.codes ≤ folded b.codes := by
  rw [CaseLe, utf8Strcasecmp_bytes]
  simp only [Option.some.injEq, exists_eq_left', lexSign_nonpos]

/-- The bound does its work unless it is `2 ^ 32` or more and the strings
differ only behind it. -/
theorem take_lexSign_iff {A B : List ℕ} :
    lexSign (folded A) (folded B) = lexSign (folded (A.take n)) (folded (B.take n)) ↔
      (folded (A.take n) = folded (B.take n) → folded A = folded B) := by
  have htake : ∀ C : List ℕ, folded (C.take n) = (folded C).take n := fun C => List.map_take
  rw [htake, htake]
  constructor
  · intro h heq
    rw [heq, lexSign_self] at h
    exact lexSign_eq_zero.1 h
  · intro h
    by_cases heq : (folded A).take n = (folded B).take n
    · rw [heq, lexSign_self, h heq, lexSign_self]
    · rw [lexSign_take heq]

/-- **The comparisons are one order**, and `utf8_strncasecmp` is its
restriction to the first code points exactly where its counter can hold
the bound or the difference is not behind it. -/
theorem collated_iff (a b c : Utf8Text) (n : ℕ) :
    (Collated a b n ↔
      n < 2 ^ 32 ∨
        (folded (a.codes.take n) = folded (b.codes.take n) →
          folded a.codes = folded b.codes)) ∧
    (CaseLe a b ∨ CaseLe b a) ∧
    (CaseLe a b → CaseLe b c → CaseLe a c) := by
  refine ⟨?_, ?_, ?_⟩
  · have harr : ∃ wa wb, utf8MbstrToWc a.bytes = some wa ∧ utf8MbstrToWc b.bytes = some wb ∧
        utf8Strcasecmp a.bytes b.bytes = some (utf8WcStrcasecmp wa wb) :=
      ⟨a.codes, b.codes, a.utf8MbstrToWc_bytes, b.utf8MbstrToWc_bytes, by
        rw [utf8Strcasecmp_bytes, utf8WcStrcasecmp_eq]⟩
    rw [Collated, utf8Strncasecmp_bytes, ← take_lexSign_iff]
    simp only [utf8Strcasecmp_bytes a b, true_and]
    rw [utf8Strcasecmp_bytes] at harr
    simp only [harr, true_and]
    split_ifs with hn
    · exact iff_of_true rfl (.inl hn)
    · rw [Option.some.injEq]
      exact ⟨.inr, fun h => h.resolve_left hn⟩
  · rw [caseLe_iff, caseLe_iff]
    exact le_total _ _
  · intro hab hbc
    rw [caseLe_iff] at hab hbc ⊢
    exact le_trans hab hbc

/-- A text that ends in one letter behind many others. -/
def padded (k : ℕ) (c : Char) (hc : c ≠ Char.ofNat 0) : Utf8Text where
  chars := List.replicate k 'x' ++ [c]
  null_notMem := by
    intro h
    rcases List.mem_append.1 h with h | h
    · exact absurd (List.eq_of_mem_replicate h) (by decide)
    · exact hc (List.mem_singleton.1 h).symm

/-- Two such texts that differ in their last letter agree up to it. -/
theorem codes_padded (k : ℕ) (c : Char) (hc : c ≠ Char.ofNat 0) :
    (padded k c hc).codes = List.replicate k 0x78 ++ [c.toNat] := by
  rw [Utf8Text.codes, padded, List.map_append, List.map_replicate]
  rfl

/-- Bounded there, they compare as if there were no bound, if the bound is
too large for the counter. -/
theorem not_collated_of_le {k : ℕ} (hk : 2 ^ 32 ≤ k) :
    ¬ Collated (padded k 'a' (by decide)) (padded k 'b' (by decide)) k := by
  rintro ⟨-, -, h⟩
  rw [utf8Strncasecmp_bytes, if_neg (not_lt.2 hk), Option.some.injEq, take_lexSign_iff,
    codes_padded, codes_padded] at h
  have htake : ∀ x : ℕ, (List.replicate k 0x78 ++ [x]).take k = List.replicate k 0x78 :=
    fun x => List.take_left' List.length_replicate
  rw [htake, htake] at h
  have hends := h rfl
  simp only [folded, List.map_append, List.map_cons, List.map_nil] at hends
  have hlast := List.append_cancel_left hends
  exact absurd (List.cons.inj hlast).1 (by decide +kernel)

/-- **The bound passed over.** Texts of `2 ^ 32` letters and one more that
differ in the last: bounded at `2 ^ 32`, they should compare equal. -/
theorem not_collated_padded :
    ¬ Collated (padded (2 ^ 32) 'a' (by decide)) (padded (2 ^ 32) 'b' (by decide)) (2 ^ 32) :=
  not_collated_of_le le_rfl

end Texts

end Dico
