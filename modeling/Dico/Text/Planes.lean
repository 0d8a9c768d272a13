import Dico.Text.Compare
/-!
# Case and the planes of Unicode

The tables of `uni_plane` cover the basic plane, the code points below
`0x10000`, but they are looked up by the second and the lowest byte of a
code point alone. So a supplementary code point whose second byte has a
table is taken for the code point of the basic plane with the same two
bytes: `0x10041` is folded to `0x41`. `casePlanes_iff` says where the case
of a code point stays in its plane, and where `utf8_strcasecmp` takes a
supplementary character for one of the basic plane.
-/

namespace Dico

open Utf8 (width)

/-! ## What the tables hold -/

/-- What a table of the basic plane may make of a code point: another one
of that plane, none of the surrogates, and one that takes as many bytes, or
fewer if the code point is one of those listed. -/
def TameCase (narrow : List ℕ) (wc x : ℕ) : Prop :=
  x < 0x10000 ∧ (x < 0xd800 ∨ 0xe000 ≤ x) ∧
    if wc ∈ narrow then width x < width wc else width x = width wc

instance (narrow : List ℕ) (wc x : ℕ) : Decidable (TameCase narrow wc x) :=
  inferInstanceAs (Decidable (_ ∧ _))

/-- A table that begins at a code point is tame throughout. -/
def tameFrom (narrow : List ℕ) : ℕ → List ℕ → Bool
  | _, [] => true
  | wc, x :: plane => decide (TameCase narrow wc x) && tameFrom narrow (wc + 1) plane

/-- So is every entry of it. -/
theorem tame_getD {narrow : List ℕ} {wc : ℕ} {plane : List ℕ}
    (h : tameFrom narrow wc plane = true) {i : ℕ} (hi : i < plane.length) :
    TameCase narrow (wc + i) (plane.getD i 0) := by
  induction plane generalizing wc i with
  | nil => cases hi
  | cons x plane ih =>
    rw [tameFrom, Bool.and_eq_true, decide_eq_true_iff] at h
    cases i with
    | zero => exact h.1
    | succ i =>
      have htail := ih h.2 (Nat.lt_of_succ_lt_succ hi)
      rwa [Nat.add_assoc, Nat.add_comm 1 i] at htail

/-- A column of tame tables, each with an entry for every byte. -/
def TameColumn (narrow : List ℕ) (column : ℕ → Option (List ℕ)) : Prop :=
  ∀ k plane, column k = some plane →
    plane.length = 256 ∧ tameFrom narrow (256 * k) plane = true

/-- The code points whose upper case takes fewer bytes: the letter i
without its dot, the long s, and the subscript of Greek vowels. -/
def narrowUpper : List ℕ := [0x131, 0x17f, 0x1fbe]

/-- Those whose lower case does: the capital I with a dot, and the signs
for ohm, kelvin and angstrom. -/
def narrowLower : List ℕ := [0x130, 0x2126, 0x212a, 0x212b]

/-- The column for upper case. -/
theorem tameColumn_toupper : TameColumn narrowUpper uniPlaneToupper := by
  intro k plane h
  unfold uniPlaneToupper at h
  split at h
  all_goals first
    | (obtain rfl := Option.some.inj h
       decide +kernel)
    | cases h

/-- The column for lower case. -/
theorem tameColumn_tolower : TameColumn narrowLower uniPlaneTolower := by
  intro k plane h
  unfold uniPlaneTolower at h
  split at h
  all_goals first
    | (obtain rfl := Option.some.inj h
       decide +kernel)
    | cases h

/-- A code point looked up in a column. -/
def lookup (column : ℕ → Option (List ℕ)) (wc : ℕ) : ℕ :=
  match column (wc >>> 8 &&& 0xff) with
  | some plane => plane.getD (wc &&& 0xff) 0
  | none => wc

/-- `uni_plane` has a table for the second byte of a code point. -/
def Tabled (wc : ℕ) : Prop := (uniPlaneToupper (wc >>> 8 &&& 0xff)).isSome

instance : DecidablePred Tabled := fun _ => inferInstanceAs (Decidable (_ = true))

/-- The two columns are of the same tables. -/
theorem isSome_uniPlaneTolower (k : ℕ) :
    (uniPlaneTolower k).isSome = (uniPlaneToupper k).isSome := by
  unfold uniPlaneTolower uniPlaneToupper
  split <;> rfl

section Lookup

variable {narrow : List ℕ} {column : ℕ → Option (List ℕ)} {wc : ℕ}

/-- Without a table a code point is its own case. -/
theorem lookup_of_none (h : (column (wc >>> 8 &&& 0xff)).isSome = false) :
    lookup column wc = wc := by
  rw [Option.isSome_eq_false_iff, Option.isNone_iff_eq_none] at h
  rw [lookup, h]

/-- The second byte is one of two that are looked at. -/
theorem second_byte (wc : ℕ) : wc >>> 8 &&& 0xff = wc / 256 % 256 := by
  have hmod : wc >>> 8 &&& 0xff = (wc >>> 8) % 256 := Nat.and_two_pow_sub_one_eq_mod _ 8
  rw [hmod, Nat.shiftRight_eq_div_pow]

/-- The lowest is the other. -/
theorem low_byte (wc : ℕ) : wc &&& 0xff = wc % 256 := Nat.and_two_pow_sub_one_eq_mod wc 8

/-- **The other bytes make no difference** where there is a table. -/
theorem lookup_mod (h : (column (wc >>> 8 &&& 0xff)).isSome = true) :
    lookup column (wc % 0x10000) = lookup column wc := by
  obtain ⟨plane, hplane⟩ := Option.isSome_iff_exists.1 h
  have hsecond : (wc % 0x10000) >>> 8 &&& 0xff = wc >>> 8 &&& 0xff := by
    rw [second_byte, second_byte]
    omega
  have hlow : wc % 0x10000 &&& 0xff = wc &&& 0xff := by
    rw [low_byte, low_byte]
    omega
  rw [lookup, lookup, hsecond, hlow, hplane]

/-- With one it is what the code point with the same two lowest bytes
is. -/
theorem lookup_of_some (hcol : TameColumn narrow column)
    (h : (column (wc >>> 8 &&& 0xff)).isSome = true) :
    TameCase narrow (wc % 0x10000) (lookup column wc) := by
  obtain ⟨plane, hplane⟩ := Option.isSome_iff_exists.1 h
  obtain ⟨hlen, htame⟩ := hcol _ plane hplane
  have htame := tame_getD htame (i := wc % 256) (by rw [hlen]; exact Nat.mod_lt wc (by decide))
  rw [second_byte, show 256 * (wc / 256 % 256) + wc % 256 = wc % 0x10000 by omega] at htame
  rw [lookup, hplane, low_byte]
  exact htame

/-- **Where a case stays in its plane**: in the basic plane, and where
there is no table. -/
theorem lookup_plane_iff (hcol : TameColumn narrow column) :
    lookup column wc / 0x10000 = wc / 0x10000 ↔
      wc < 0x10000 ∨ (column (wc >>> 8 &&& 0xff)).isSome = false := by
  rcases Bool.eq_false_or_eq_true (column (wc >>> 8 &&& 0xff)).isSome with h | h
  · have hbasic := (lookup_of_some hcol h).1
    rw [Nat.div_eq_of_lt hbasic, h, eq_comm, Nat.div_eq_zero_iff]
    simp only [Bool.true_eq_false, or_false]
    omega
  · rw [lookup_of_none h]
    exact iff_of_true rfl (.inr h)

end Lookup

/-- Upper case, by its table. -/
theorem utf8WcToupper_lt {wc : ℕ} (h : Tabled wc) : utf8WcToupper wc < 0x10000 :=
  (lookup_of_some tameColumn_toupper h).1

/-- And without one. -/
theorem utf8WcToupper_eq {wc : ℕ} (h : ¬ Tabled wc) : utf8WcToupper wc = wc :=
  lookup_of_none (Bool.eq_false_of_not_eq_true h)

/-- The case of a code point of the basic plane is of the basic plane. -/
theorem utf8WcToupper_lt_of_lt {wc : ℕ} (h : wc < 0x10000) : utf8WcToupper wc < 0x10000 := by
  by_cases htab : Tabled wc
  · exact utf8WcToupper_lt htab
  · rwa [utf8WcToupper_eq htab]

/-! ## Case folding and planes -/

/-- A code point's cases lie in its own plane of `0x10000` code points. -/
def KeepsPlane (wc : ℕ) : Prop :=
  utf8WcToupper wc / 0x10000 = wc / 0x10000 ∧ utf8WcTolower wc / 0x10000 = wc / 0x10000

/-- Somewhere one string has a supplementary character for which `P` holds
and the other a character of the basic plane. -/
def Opposed (P : ℕ → Prop) (a b : List ℕ) : Prop :=
  ∃ i x y : ℕ, a[i]? = some x ∧ b[i]? = some y ∧
    ((0x10000 ≤ x ∧ P x ∧ y < 0x10000) ∨ (x < 0x10000 ∧ 0x10000 ≤ y ∧ P y))

/-- Both cases stay where the table is or is not. -/
theorem keepsPlane_iff (wc : ℕ) : KeepsPlane wc ↔ wc < 0x10000 ∨ ¬ Tabled wc := by
  have hup : utf8WcToupper wc / 0x10000 = wc / 0x10000 ↔ _ := lookup_plane_iff tameColumn_toupper
  have hlow : utf8WcTolower wc / 0x10000 = wc / 0x10000 ↔ _ := lookup_plane_iff tameColumn_tolower
  rw [isSome_uniPlaneTolower] at hlow
  rw [Tabled, Bool.not_eq_true, ← and_self_iff (a := _ ∨ _)]
  exact and_congr hup hlow

/-- **Where strings are the same but for case, a supplementary character
stands opposite one of the basic plane only if it has a table.** -/
theorem opposed_tabled {a b : List ℕ} (heq : folded a = folded b)
    (h : Opposed (fun _ => True) a b) : Opposed Tabled a b := by
  obtain ⟨i, x, y, hx, hy, h⟩ := h
  have hcase : utf8WcToupper x = utf8WcToupper y := by
    have hi := congrArg (fun l => l[i]?) heq
    simpa only [folded, List.getElem?_map, hx, hy, Option.map_some, Option.some.injEq] using hi
  refine ⟨i, x, y, hx, hy, ?_⟩
  rcases h with ⟨hsup, -, hbasic⟩ | ⟨hbasic, hsup, -⟩
  · refine .inl ⟨hsup, ?_, hbasic⟩
    by_contra htab
    have hlt := utf8WcToupper_lt_of_lt hbasic
    rw [← hcase, utf8WcToupper_eq htab] at hlt
    omega
  · refine .inr ⟨hbasic, hsup, ?_⟩
    by_contra htab
    have hlt := utf8WcToupper_lt_of_lt hbasic
    rw [hcase, utf8WcToupper_eq htab] at hlt
    omega

/-- A character with a table is one. -/
theorem Opposed.of_tabled {a b : List ℕ} (h : Opposed Tabled a b) :
    Opposed (fun _ => True) a b := by
  obtain ⟨i, x, y, hx, hy, h⟩ := h
  refine ⟨i, x, y, hx, hy, ?_⟩
  rcases h with ⟨hsup, -, hbasic⟩ | ⟨hbasic, hsup, -⟩
  · exact .inl ⟨hsup, trivial, hbasic⟩
  · exact .inr ⟨hbasic, hsup, trivial⟩

/-- What is asked of `utf8_strcasecmp` at two texts: it does not find them
equal where one has a supplementary character and the other one of the
basic plane. -/
def ComparesPlanes (s t : Utf8Text) : Prop :=
  utf8Strcasecmp s.bytes t.bytes = some 0 → ¬ Opposed (fun _ => True) s.codes t.codes

/-- **Case folding and the planes.** The cases of a code point stay in its
plane exactly if it is in the basic plane or no table is found by its
second byte; and `utf8_strcasecmp` tells a supplementary character from
one of the basic plane, except where the mapped code points are the same
and the supplementary character has a table. -/
theorem casePlanes_iff (wc : ℕ) (s t : Utf8Text) :
    (KeepsPlane wc ↔ wc < 0x10000 ∨ ¬ Tabled wc) ∧
    (ComparesPlanes s t ↔
      (folded s.codes = folded t.codes → ¬ Opposed Tabled s.codes t.codes)) := by
  refine ⟨keepsPlane_iff wc, ?_⟩
  rw [ComparesPlanes, utf8Strcasecmp_bytes, Option.some.injEq, lexSign_eq_zero]
  constructor
  · intro h heq hopp
    exact h heq hopp.of_tabled
  · intro h heq hopp
    exact h heq (opposed_tabled heq hopp)

/-- A text of one character. -/
def oneChar (c : Char) (hc : c ≠ Char.ofNat 0) : Utf8Text where
  chars := [c]
  null_notMem := fun h => hc (List.mem_singleton.1 h).symm

/-- **A supplementary character that is folded to a letter.** The upper
case of `0x10041` is `0x41`, and the two are compared equal. -/
theorem not_casePlanes :
    ¬ ((∀ wc ≤ 0x10ffff, KeepsPlane wc) ∧ ∀ s t, ComparesPlanes s t) ∧
    ¬ KeepsPlane 0x10041 ∧
    ¬ ComparesPlanes (oneChar (Char.ofNat 0x10041) (by decide)) (oneChar 'A' (by decide)) := by
  have hcode : ¬ KeepsPlane 0x10041 := fun h => absurd h.1 (by decide +kernel)
  refine ⟨fun h => hcode (h.1 0x10041 (by decide)), hcode, fun h => ?_⟩
  exact h (by decide +kernel) ⟨0, 0x10041, 0x41, by decide +kernel, by decide +kernel,
    .inl ⟨by decide, trivial, by decide⟩⟩

end Dico
