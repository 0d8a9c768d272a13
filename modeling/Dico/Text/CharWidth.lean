import Dico.Text.Cstr
import Dico.Text.Select
import Mathlib.Data.List.TakeWhile
/-!
# Two notions of a character

`utf8_strlen` goes by the widths of `utf8_char_width`, and the length of
the array that `utf8_mbstr_to_wc` fills by what the decoder consumes. The
decoder takes the bytes 0xf5, 0xf6 and 0xf7 for the beginning of a
character, while the table of widths ends with 0xf4: where one of them is
accepted, `utf8_strlen` stops, and has counted the characters before it.
-/

namespace Dico

open Utf8 (encode trail)

section Widths

variable {wc : ℕ} {ws : List ℕ}

/-- A byte with a number in it. -/
theorem ofNat_le_iff {x : ℕ} (h : x < 256) : UInt8.ofNat x ≤ 0xf4 ↔ x ≤ 0xf4 := by
  rw [UInt8.le_iff_toNat_le, Utf8.toNat_ofNat h]
  exact Iff.rfl

/-- A byte that continues a character is below those that begin one. -/
theorem trail_le (x : ℕ) : trail x ≤ 0xf4 := by
  rw [trail, ofNat_le_iff (by omega)]
  omega

/-- The bytes of a code point, where it is not one that begins with too
large a byte. -/
theorem forall_encode_le (h : wc < 0x200000) : (∀ b ∈ encode wc, b ≤ 0xf4) ↔ wc < 0x140000 := by
  rcases Utf8.width_cases wc with h₁ | ⟨h₀, h₁⟩ | ⟨h₀, h₁⟩ | h₀
  · rw [Utf8.encode_one h₁, List.forall_mem_singleton, ofNat_le_iff (by omega)]
    omega
  · rw [Utf8.encode_two h₀ h₁, List.forall_mem_cons, ofNat_le_iff (by omega),
      List.forall_mem_singleton, and_iff_left (trail_le _)]
    omega
  · rw [Utf8.encode_three h₀ h₁, List.forall_mem_cons, ofNat_le_iff (by omega),
      List.forall_mem_cons, and_iff_right (trail_le _), List.forall_mem_singleton,
      and_iff_left (trail_le _)]
    omega
  · rw [Utf8.encode_four h₀, List.forall_mem_cons, ofNat_le_iff (by omega), List.forall_mem_cons,
      and_iff_right (trail_le _), List.forall_mem_cons, and_iff_right (trail_le _),
      List.forall_mem_singleton, and_iff_left (trail_le _)]
    omega

/-- **What the table says of an accepted character.** -/
theorem utf8CharWidth_encode_eq (h : wc < 0x200000) (r : Bytes) :
    utf8CharWidth (encode wc ++ r) = if wc < 0x140000 then (encode wc).length else 0 := by
  rcases Nat.lt_or_ge wc 0x110000 with hlt | hge
  · rw [utf8CharWidth_encode hlt, if_pos (by omega)]
  · rw [Utf8.encode_four (by omega), List.cons_append, utf8CharWidth_ofNat (by omega),
      if_neg (by omega), if_neg (by omega), if_neg (by omega)]
    refine if_congr ?_ rfl rfl
    omega

/-- It is right for those below the limit. -/
theorem utf8CharWidth_encode_iff (h : wc < 0x200000) (r : Bytes) :
    utf8CharWidth (encode wc ++ r) = (encode wc).length ↔ wc < 0x140000 := by
  have hpos := List.length_pos_of_ne_nil (Utf8.encode_ne_nil wc)
  rw [utf8CharWidth_encode_eq h]
  split_ifs with hwc
  · exact iff_of_true rfl hwc
  · exact iff_of_false (by omega) hwc

/-- **`utf8_strlen` counts the characters before the first that is not.** -/
theorem strlenLoop_codepoints (h : Codepoints ws) {fuel : ℕ} (hfuel : ws.length ≤ fuel) :
    strlenLoop fuel (ws.flatMap encode) =
      some (ws.takeWhile fun wc => decide (wc < 0x140000)).length := by
  induction ws generalizing fuel with
  | nil => rw [List.flatMap_nil, strlenLoop, List.takeWhile_nil, List.length_nil]
  | cons wc ws ih =>
    obtain ⟨hwc, hws⟩ := codepoints_cons.1 h
    rw [List.length_cons] at hfuel
    obtain ⟨fuel, rfl⟩ : ∃ k, fuel = k + 1 := ⟨fuel - 1, by omega⟩
    by_cases hlt : wc < 0x140000
    · have hwidth := (utf8CharWidth_encode_iff hwc.2 (ws.flatMap encode)).2 hlt
      rw [List.flatMap_cons, strlenLoop_encode_append fuel hwidth, ih hws (by omega),
        List.takeWhile_cons, if_pos (decide_eq_true hlt), List.length_cons]
      rfl
    · have hwidth := utf8CharWidth_encode_eq hwc.2 (ws.flatMap encode)
      obtain ⟨b, r, hbr⟩ := Utf8.encode_append wc (ws.flatMap encode)
      rw [if_neg hlt, hbr] at hwidth
      rw [List.flatMap_cons, hbr, strlenLoop, if_pos hwidth, List.takeWhile_cons,
        if_neg (fun h => hlt (of_decide_eq_true h)), List.length_nil]

/-- The bytes of a string that is accepted. -/
theorem forall_flatMap_encode_le (h : Codepoints ws) :
    (∀ b ∈ ws.flatMap encode, b ≤ 0xf4) ↔ ∀ wc ∈ ws, wc < 0x140000 := by
  constructor
  · intro hle wc hwc
    refine (forall_encode_le (h wc hwc).2).1 fun b hb => hle b ?_
    exact List.mem_flatMap.2 ⟨wc, hwc, hb⟩
  · intro hlt b hb
    obtain ⟨wc, hwc, hb⟩ := List.mem_flatMap.1 hb
    exact (forall_encode_le (h wc hwc).2).2 (hlt wc hwc) b hb

/-- A count of all is one of those that all meet the condition. -/
theorem length_takeWhile_eq_iff {α : Type} {p : α → Bool} {l : List α} :
    (l.takeWhile p).length = l.length ↔ ∀ a ∈ l, p a = true := by
  constructor
  · intro h
    rw [← List.takeWhile_eq_self_iff]
    exact (List.takeWhile_prefix p).eq_of_length h
  · intro h
    rw [List.takeWhile_eq_self_iff.2 h]

end Widths

/-- Where the decoder comes to in a string. -/
def DecodedTo (s r : Bytes) : Prop := ∃ u, s = u ++ r ∧ (utf8MbstrToWc u).isSome

/-- At each place the decoder comes to, the table has the number of bytes
that it consumes there. -/
def WidthsAgree (s : Bytes) : Prop :=
  ∀ r, DecodedTo s r → r ≠ [] → ∃ wc, utf8Mbtowc r = some (wc, utf8CharWidth r)

/-- The code points before and behind such a place. -/
theorem decodedTo_iff {ws : List ℕ} (h : Codepoints ws) {r : Bytes} :
    DecodedTo (ws.flatMap encode) r ↔ ∃ us vs, ws = us ++ vs ∧ r = vs.flatMap encode := by
  constructor
  · rintro ⟨u, hu, hsome⟩
    obtain ⟨us, hus⟩ := Option.isSome_iff_exists.1 hsome
    obtain ⟨hcu, rfl⟩ := utf8MbstrToWc_iff.1 hus
    obtain ⟨vs, hws, hr⟩ := flatMap_encode_append hcu h hu.symm
    exact ⟨us, vs, hws, hr⟩
  · rintro ⟨us, vs, rfl, rfl⟩
    have hus : Codepoints us := fun wc hwc => h wc (List.mem_append_left vs hwc)
    refine ⟨us.flatMap encode, List.flatMap_append, ?_⟩
    rw [utf8MbstrToWc_iff.2 ⟨hus, rfl⟩]
    rfl

/-- What the decoder consumes of a character, and what the table says. -/
theorem utf8Mbtowc_width_iff {wc : ℕ} (h₀ : 1 ≤ wc) (h : wc < 0x200000) (r : Bytes) :
    (∃ x, utf8Mbtowc (encode wc ++ r) = some (x, utf8CharWidth (encode wc ++ r))) ↔
      wc < 0x140000 := by
  rw [utf8Mbtowc_encode h₀ h, ← utf8CharWidth_encode_iff h r]
  constructor
  · rintro ⟨x, hx⟩
    exact (Prod.mk.inj (Option.some.inj hx)).2.symm
  · intro hwidth
    exact ⟨wc, by rw [hwidth]⟩

/-- The widths agree where the code points are below the limit. -/
theorem widthsAgree_iff {ws : List ℕ} (h : Codepoints ws) :
    WidthsAgree (ws.flatMap encode) ↔ ∀ wc ∈ ws, wc < 0x140000 := by
  constructor
  · intro hagree wc hwc
    obtain ⟨us, vs, rfl⟩ := List.append_of_mem hwc
    have hto : DecodedTo ((us ++ wc :: vs).flatMap encode) ((wc :: vs).flatMap encode) :=
      (decodedTo_iff h).2 ⟨us, wc :: vs, rfl, rfl⟩
    rw [List.flatMap_cons] at hto
    obtain ⟨b, q, hbq⟩ := Utf8.encode_append wc (vs.flatMap encode)
    have hne : encode wc ++ vs.flatMap encode ≠ [] := by
      rw [hbq]
      exact List.cons_ne_nil b q
    exact (utf8Mbtowc_width_iff (h wc hwc).1 (h wc hwc).2 _).1 (hagree _ hto hne)
  · intro hlt r hto hne
    obtain ⟨us, vs, rfl, rfl⟩ := (decodedTo_iff h).1 hto
    cases vs with
    | nil => exact absurd rfl hne
    | cons wc vs =>
      have hwc : wc ∈ us ++ wc :: vs := List.mem_append_right us List.mem_cons_self
      rw [List.flatMap_cons]
      exact (utf8Mbtowc_width_iff (h wc hwc).1 (h wc hwc).2 _).2 (hlt wc hwc)

/-- **Two notions of a character.** For a string that `utf8_mbstr_to_wc`
accepts, the two lengths are the same, and the table has what the decoder
consumes at every place it comes to, exactly if no byte of the string is
above 0xf4. -/
theorem strlen_agrees_iff (s : Bytes) (w : List ℕ) (n : ℕ)
    (h : utf8MbstrToWcN s = some (w, n)) :
    (utf8Strlen s = some (utf8WcStrlen w) ↔ ∀ b ∈ s, b ≤ 0xf4) ∧
      (WidthsAgree s ↔ ∀ b ∈ s, b ≤ 0xf4) := by
  obtain ⟨ws, hws, rfl, rfl, -⟩ := eq_of_utf8MbstrToWcN h
  have hlen := congrArg List.length
    (take_utf8WcStrlen hws (n := (ws.flatMap encode).length + 1 - ws.length))
  have hwlen : utf8WcStrlen (ws ++ List.replicate ((ws.flatMap encode).length + 1 - ws.length) 0) =
      ws.length := by
    rw [utf8WcStrlen] at hlen ⊢
    rwa [List.length_take, min_eq_left (List.takeWhile_prefix _).length_le] at hlen
  rw [hwlen, utf8Strlen, strlenLoop_codepoints hws (length_le_encode ws), Option.some.injEq,
    length_takeWhile_eq_iff, forall_flatMap_encode_le hws, widthsAgree_iff hws]
  simp only [decide_eq_true_eq, true_and]

/-- A string that both measure alike. -/
theorem strlen_agrees_euro :
    utf8Strlen [0xe2, 0x82, 0xac] = some 1 ∧ WidthsAgree [0xe2, 0x82, 0xac] := by
  have hdec : utf8MbstrToWcN [0xe2, 0x82, 0xac] = some ([0x20ac, 0, 0, 0], 3) := by decide
  have h := strlen_agrees_iff _ _ _ hdec
  have hle : ∀ b ∈ ([0xe2, 0x82, 0xac] : Bytes), b ≤ 0xf4 := by decide +kernel
  exact ⟨h.1.2 hle, h.2.2 hle⟩

/-- One that the decoder accepts and `utf8_strlen` counts nothing of. -/
theorem strlen_of_f5 :
    utf8MbstrToWcN [0xf5, 0x80, 0x80, 0x80] = some ([0x140000, 0, 0, 0, 0], 4) ∧
      utf8WcStrlen [0x140000, 0, 0, 0, 0] = 1 ∧ utf8Strlen [0xf5, 0x80, 0x80, 0x80] = some 0 ∧
      utf8Mbtowc [0xf5, 0x80, 0x80, 0x80] = some (0x140000, 4) ∧
      utf8CharWidth [0xf5, 0x80, 0x80, 0x80] = 0 := by
  decide +kernel

end Dico
