import Dico.Gcide.Page
import Dico.Text.Reverse
/-!
# The copy of a prefix

The iterator over the references that begin with a prefix keeps a copy of
the prefix. The copy has as many bytes as the prefix has characters, and no
null byte: where a character takes more than one byte the last characters
are not in it, and one of them may be cut. A comparison that comes to its
end reads on behind it.
-/

namespace Dico

namespace Gcide

open Utf8 (encode)

/-! ## What is copied -/

/-- The characters that are whole in the first `n` bytes. -/
def whole : ℕ → List ℕ → List ℕ
  | _, [] => []
  | n, w :: ws => if (encode w).length ≤ n then w :: whole (n - (encode w).length) ws else []

/-- The end of a copy: nothing, or a character that is cut. -/
def Cut (t : Bytes) : Prop := t = [] ∨ t.length < utf8CharWidth t

/-- They are the first characters. -/
theorem prefix_whole (n : ℕ) (ws : List ℕ) : whole n ws <+: ws := by
  induction ws generalizing n with
  | nil => exact List.nil_prefix
  | cons w ws ih =>
    rw [whole]
    split_ifs
    · exact List.cons_prefix_cons.2 ⟨rfl, ih _⟩
    · exact List.nil_prefix

/-- **The first bytes of a text** are its first characters and a part of
one. -/
theorem exists_take_encode {ws : List ℕ} (hws : Scalars ws) (n : ℕ) :
    ∃ t, (ws.flatMap encode).take n = (whole n ws).flatMap encode ++ t ∧ Cut t := by
  induction ws generalizing n with
  | nil => exact ⟨[], List.take_nil, .inl rfl⟩
  | cons w ws ih =>
    obtain ⟨hw, hws⟩ := List.forall_mem_cons.1 hws
    rw [whole, List.flatMap_cons]
    split_ifs with hle
    · obtain ⟨t, ht, hcut⟩ := ih hws (n - (encode w).length)
      refine ⟨t, ?_, hcut⟩
      rw [List.take_append, List.take_of_length_le hle, ht, List.flatMap_cons, List.append_assoc]
    · refine ⟨(encode w).take n, ?_, ?_⟩
      · rw [List.take_append_of_le_length (by omega), List.flatMap_nil, List.nil_append]
      · have hwidth := utf8CharWidth_encode hw.2 []
        rw [List.append_nil] at hwidth
        cases n with
        | zero => exact .inl List.take_zero
        | succ n =>
          obtain ⟨c, r, hcr⟩ := List.exists_cons_of_ne_nil (Utf8.encode_ne_nil w)
          refine .inr ?_
          rw [hcr] at hwidth hle ⊢
          have hsame : utf8CharWidth (c :: r.take n) = utf8CharWidth (c :: r) := rfl
          rw [List.take_succ_cons, hsame, hwidth]
          have hlen := List.length_take_le n r
          simp only [List.length_cons] at hle ⊢
          omega

/-- All of them, where there are bytes enough. -/
theorem whole_eq_self_iff {n : ℕ} {ws : List ℕ} :
    whole n ws = ws ↔ (ws.flatMap encode).length ≤ n := by
  induction ws generalizing n with
  | nil => exact iff_of_true rfl (Nat.zero_le n)
  | cons w ws ih =>
    rw [whole, List.flatMap_cons, List.length_append]
    split_ifs with hle
    · rw [List.cons.injEq, and_iff_right rfl, ih]
      omega
    · exact iff_of_false id (by omega)

/-! ## The comparison with it -/

section Compare

variable {x y maxlen fuel asz : ℕ} {a b t : Bytes} {A B : List ℕ}

/-- One character. -/
theorem blockcmpLoop_encode (hlt : asz < maxlen) (hx : 1 ≤ x ∧ x < 0x110000)
    (hy : 1 ≤ y ∧ y < 0x110000) :
    blockcmpLoop maxlen (fuel + 1) asz (encode x ++ a) (encode y ++ b) =
      if utf8WcToupper x < utf8WcToupper y then .ok (-1)
      else if utf8WcToupper y < utf8WcToupper x then .ok 1
      else blockcmpLoop maxlen fuel ((asz + 1) % 2 ^ 32) a b := by
  have hhead := headCasecmp_encode (a := a) (b := b) hx hy
  have hwidth := utf8CharWidth_encode hx.2 a
  have hlen : (encode x ++ a).length = (encode x).length + a.length := List.length_append
  obtain ⟨c, r, hc⟩ := Utf8.encode_append x a
  obtain ⟨d, q, hd⟩ := Utf8.encode_append y b
  rw [hc] at hwidth hlen
  rw [hc, hd] at hhead ⊢
  rw [blockcmpLoop, if_pos hlt, if_neg (by omega), hhead]
  dsimp only
  split_ifs <;> first | rfl | omega

/-- **A comparison that is decided within the copy.** -/
theorem blockcmpLoop_differs (hA : Scalars A) (hB : Scalars B)
    (hab : ¬ folded A <+: folded B) (hba : ¬ folded B <+: folded A) (hfuel : A.length ≤ fuel)
    (hasz : asz + min A.length B.length ≤ maxlen) :
    ∃ rc, rc ≠ 0 ∧
      blockcmpLoop maxlen fuel asz (A.flatMap encode ++ t) (B.flatMap encode) = .ok rc := by
  induction A generalizing B fuel asz with
  | nil => exact absurd List.nil_prefix hab
  | cons x A ih =>
    cases B with
    | nil => exact absurd List.nil_prefix hba
    | cons y B =>
      obtain ⟨hx, hA⟩ := List.forall_mem_cons.1 hA
      obtain ⟨hy, hB⟩ := List.forall_mem_cons.1 hB
      rw [List.length_cons] at hfuel
      simp only [List.length_cons] at hasz
      obtain ⟨fuel, rfl⟩ : ∃ m, fuel = m + 1 := ⟨fuel - 1, by omega⟩
      rw [List.flatMap_cons, List.flatMap_cons, List.append_assoc,
        blockcmpLoop_encode (by omega) hx hy]
      split_ifs with hlt hgt
      · exact ⟨-1, by decide, rfl⟩
      · exact ⟨1, by decide, rfl⟩
      · have heq : utf8WcToupper x = utf8WcToupper y := by omega
        have hmod := Nat.mod_le (asz + 1) (2 ^ 32)
        refine ih hA hB (fun h => hab ?_) (fun h => hba ?_) (by omega) (by omega)
        · exact List.cons_prefix_cons.2 ⟨heq, h⟩
        · exact List.cons_prefix_cons.2 ⟨heq.symm, h⟩

/-- **One that comes to the end of the copy** reads on behind it. -/
theorem blockcmpLoop_overrun (hA : Scalars A) (hB : Scalars B) (hab : folded A <+: folded B)
    (hfuel : (A.flatMap encode ++ t).length ≤ fuel) (hcut : Cut t)
    (hmore : t ≠ [] → A.length < B.length)
    (hasz : asz + A.length < maxlen ∨ 2 ^ 32 ≤ maxlen ∧ asz < 2 ^ 32) :
    blockcmpLoop maxlen fuel asz (A.flatMap encode ++ t) (B.flatMap encode) = .error .bounds := by
  induction A generalizing B fuel asz with
  | nil =>
    rw [List.flatMap_nil, List.nil_append] at hfuel ⊢
    have hlt : asz < maxlen := by
      rw [List.length_nil] at hasz
      omega
    cases t with
    | nil =>
      rw [blockcmpLoop.eq_def, if_pos hlt]
    | cons c t =>
      -- a character that is cut is read with the bytes behind the copy
      have hwidth := hcut.resolve_left (List.cons_ne_nil c t)
      cases B with
      | nil => exact absurd (hmore (List.cons_ne_nil c t)) (lt_irrefl 0)
      | cons y B =>
        obtain ⟨d, q, hd⟩ := Utf8.encode_append y (B.flatMap encode)
        rw [List.length_cons] at hfuel
        obtain ⟨fuel, rfl⟩ : ∃ m, fuel = m + 1 := ⟨fuel - 1, by omega⟩
        rw [List.flatMap_cons, hd, blockcmpLoop, if_pos hlt, if_pos hwidth]
  | cons x A ih =>
    cases B with
    | nil => exact absurd (List.prefix_nil.1 hab) (List.cons_ne_nil _ _)
    | cons y B =>
      obtain ⟨hx, hA⟩ := List.forall_mem_cons.1 hA
      obtain ⟨hy, hB⟩ := List.forall_mem_cons.1 hB
      obtain ⟨heq, hab⟩ := List.cons_prefix_cons.1 hab
      have hpos := List.length_pos_of_ne_nil (Utf8.encode_ne_nil x)
      have hlen : ((x :: A).flatMap encode ++ t).length =
          (encode x).length + (A.flatMap encode ++ t).length := by
        rw [List.flatMap_cons, List.append_assoc, List.length_append]
      simp only [List.length_cons] at hasz hmore
      obtain ⟨fuel, rfl⟩ : ∃ m, fuel = m + 1 := ⟨fuel - 1, by omega⟩
      rw [List.flatMap_cons, List.flatMap_cons, List.append_assoc,
        blockcmpLoop_encode (by omega) hx hy, if_neg (by omega), if_neg (by omega)]
      have hmod := Nat.mod_le (asz + 1) (2 ^ 32)
      have hmod' := Nat.mod_lt (asz + 1) (show 0 < 2 ^ 32 by decide)
      exact ih hA hB hab (by omega) (fun h => Nat.lt_of_succ_lt_succ (hmore h)) (by omega)

/-- **One with all characters of the prefix**, where all of them are there. -/
theorem blockcmpLoop_same (hA : Scalars A) (hB : Scalars B) (hab : folded A <+: folded B)
    (hfuel : A.length ≤ fuel) (hasz : asz + A.length = maxlen) (hmax : maxlen < 2 ^ 32) :
    blockcmpLoop maxlen fuel asz (A.flatMap encode) (B.flatMap encode) = .ok 0 := by
  induction A generalizing B fuel asz with
  | nil =>
    rw [List.length_nil] at hasz
    rw [blockcmpLoop.eq_def, if_neg (by omega)]
  | cons x A ih =>
    cases B with
    | nil => exact absurd (List.prefix_nil.1 hab) (List.cons_ne_nil _ _)
    | cons y B =>
      obtain ⟨hx, hA⟩ := List.forall_mem_cons.1 hA
      obtain ⟨hy, hB⟩ := List.forall_mem_cons.1 hB
      obtain ⟨heq, hab⟩ := List.cons_prefix_cons.1 hab
      rw [List.length_cons] at hfuel hasz
      obtain ⟨fuel, rfl⟩ : ∃ m, fuel = m + 1 := ⟨fuel - 1, by omega⟩
      rw [List.flatMap_cons, List.flatMap_cons, blockcmpLoop_encode (by omega) hx hy,
        if_neg (by omega), if_neg (by omega), Nat.mod_eq_of_lt (by omega)]
      exact ih hA hB hab (by omega) (by omega)

end Compare

end Gcide

end Dico
