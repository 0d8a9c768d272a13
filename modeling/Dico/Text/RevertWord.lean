import Dico.Text.IteratorBounds
import Dico.Text.Inplace
import Dico.Text.Reverse
/-!
# Words written backwards in memory

`revert_word` of the modules, with its buffer: it puts the null at the end
first, and then copies the characters of the word, from its first on, each
in front of the one before. Over a word of UTF-8 the widths add up to its
length, so the last character comes to the beginning of the buffer
(`revertLoopTo_encode`). That ends of words are beginnings of reversed
words then rests on where a text of UTF-8 can be cut.
-/

namespace Dico

open Utf8 (encode)
open Utf8Iterator (widthAt)

/-! ## The model -/

/-- The loop of `revert_word`: `p` is an offset into the buffer. -/
def revertLoopTo : ℕ → Utf8Iterator → Bytes → ℕ → Except Fault Bytes
  | 0, _, _, _ => .error .loop
  | fuel + 1, itr, dst, p =>
    if itr.endP then .ok dst
    -- there is no room left in front
    else if p < itr.curwidth then .ok dst
    else do
      let sym ← itr.symbol
      let dst ← memcpyTo dst (p - itr.curwidth) sym
      let nxt ← itr.next
      revertLoopTo fuel nxt dst (p - itr.curwidth)

/-- `revert_word`, where the stack held `w` in place of a width. -/
def revertWordTo (w : ℕ) (dst src : Bytes) (len : ℕ) : Except Fault Bytes := do
  let dst ← store dst len 0
  revertLoopTo (src.length + 1) (iterFirst w src) dst len

/-- Whatever the stack holds, and whatever buffer there is with room for a
string and its null, `revert_word` leaves another string in it, with a null
behind it, and nothing else. -/
def RevertsTo (src res : Bytes) : Prop :=
  ∀ w dst, src.length < dst.length →
    revertWordTo w dst src src.length = .ok (res ++ 0 :: dst.drop (src.length + 1))

/-! ## The loop -/

section Loop

variable {ws : List ℕ}

/-- **The characters come out in reverse order**, each with its bytes in
order: what is written so far is behind the bytes that are still free, as
many as there are still to come. -/
theorem revertLoopTo_encode (h : Scalars ws) {fuel : ℕ} (hfuel : ws.length < fuel) (w : ℕ)
    {free : Bytes} (hfree : free.length = (ws.flatMap encode).length) (tail : Bytes) :
    revertLoopTo fuel (iterFirst w (ws.flatMap encode)) (free ++ tail) free.length =
      .ok (ws.reverse.flatMap encode ++ tail) := by
  obtain ⟨fuel, rfl⟩ : ∃ k, fuel = k + 1 := ⟨fuel - 1, by omega⟩
  induction ws generalizing fuel w free tail with
  | nil =>
    obtain rfl := List.eq_nil_of_length_eq_zero hfree
    rfl
  | cons wc ws ih =>
    obtain ⟨hwc, hws⟩ := List.forall_mem_cons.1 h
    have hc := Utf8.encode_ne_nil wc
    have hnull : 0 ∉ encode wc := fun h0 =>
      Utf8.ne_zero_of_mem_encode hwc.1 (by omega) h0 rfl
    have hpos := List.length_pos_of_ne_nil hc
    have hwidth : widthAt w (encode wc) = (encode wc).length := by
      have hchar := utf8CharWidth_encode hwc.2 []
      rw [List.append_nil] at hchar
      rw [widthAt, hchar, if_neg (by omega)]
    rw [List.flatMap_cons, List.length_append] at hfree
    rw [List.length_cons] at hfuel
    obtain ⟨fuel, rfl⟩ : ∃ k, fuel = k + 1 := ⟨fuel - 1, by omega⟩
    -- the free bytes that stay free, and those the character is put in
    have hsplit := List.take_append_drop (ws.flatMap encode).length free
    have hleft : (free.take (ws.flatMap encode).length).length = (ws.flatMap encode).length :=
      List.length_take_of_le (by omega)
    have hright : (free.drop (ws.flatMap encode).length).length = (encode wc).length := by
      rw [List.length_drop]
      omega
    generalize free.take (ws.flatMap encode).length = left at hsplit hleft
    generalize free.drop (ws.flatMap encode).length = right at hsplit hright
    subst hsplit
    have hnext := next_iterFirst hc hnull hwidth (ws.flatMap encode)
    have hcur : iterFirst w (encode wc ++ ws.flatMap encode) =
        ⟨encode wc ++ (ws.flatMap encode ++ [0]), (encode wc).length⟩ := by
      rw [iterFirst, List.append_assoc, widthAt_append hc, hwidth]
    rw [hcur] at hnext
    have hend := not_endP hc hnull (ws.flatMap encode ++ [0]) (encode wc).length
    have hsymbol : Utf8Iterator.symbol
        ⟨encode wc ++ (ws.flatMap encode ++ [0]), (encode wc).length⟩ = .ok (encode wc) := by
      have hle : (encode wc).length ≤ (encode wc ++ (ws.flatMap encode ++ [0])).length := by
        rw [List.length_append]
        omega
      unfold Utf8Iterator.symbol
      dsimp only
      rw [if_pos hle, List.take_left]
    have hroom : ¬ (left ++ right).length < (encode wc).length := by
      rw [List.length_append]
      omega
    have hplace : (left ++ right).length - (encode wc).length = left.length := by
      rw [List.length_append]
      omega
    rw [List.flatMap_cons, hcur, revertLoopTo, if_neg hend, if_neg hroom, hsymbol, ok_bind, hplace,
      List.append_assoc, memcpyTo_append left right tail hright, ok_bind, hnext, ok_bind,
      ih hws _ hleft _ fuel (by omega), List.reverse_cons, List.flatMap_append,
      List.flatMap_singleton, List.append_assoc]

/-- **`revert_word` on a text.** -/
theorem revertsTo_bytes (t : Utf8Text) : RevertsTo t.bytes t.reversed.bytes := by
  intro w dst hroom
  obtain ⟨free, b, tail, rfl, hfree⟩ : ∃ free b tail, dst = free ++ b :: tail ∧
      free.length = t.bytes.length := by
    refine ⟨dst.take t.bytes.length, dst[t.bytes.length], dst.drop (t.bytes.length + 1), ?_,
      List.length_take_of_le hroom.le⟩
    rw [List.getElem_cons_drop, List.take_append_drop]
  have hle := length_codes_le t
  rw [revertWordTo, ← hfree, store_append, ok_bind, drop_place, t.reversed.bytes_eq,
    codes_reversed]
  rw [t.bytes_eq] at hle hfree ⊢
  exact revertLoopTo_encode t.scalars (by omega) w hfree _

end Loop

/-! ## Ends and beginnings -/

section Ends

variable (t u : Utf8Text)

/-- Twice backwards is forwards. -/
theorem reversed_reversed : t.reversed.reversed = t := by
  rcases t with ⟨chars, hnull⟩
  simp only [Utf8Text.reversed, List.reverse_reverse]

/-- A text begins with the bytes of another exactly if it begins with its
characters. -/
theorem bytes_prefix_iff : u.bytes <+: t.bytes ↔ u.codes <+: t.codes := by
  rw [u.bytes_eq, t.bytes_eq]
  constructor
  · rintro ⟨r, hr⟩
    obtain ⟨C, hC, -⟩ := flatMap_encode_append u.codes_codepoints t.codes_codepoints hr
    exact ⟨C, hC.symm⟩
  · rintro ⟨C, hC⟩
    rw [← hC, List.flatMap_append]
    exact List.prefix_append _ _

/-- And it ends with them exactly if it ends with its characters: no
character can be cut in two so that one begins there. -/
theorem bytes_suffix_iff : u.bytes <:+ t.bytes ↔ u.codes <:+ t.codes := by
  rw [u.bytes_eq, t.bytes_eq]
  constructor
  · rintro ⟨r, hr⟩
    have hdrop : (t.codes.flatMap encode).drop r.length = u.codes.flatMap encode := by
      rw [← hr, List.drop_left]
    have hle : r.length ≤ (t.codes.flatMap encode).length := by
      rw [← hr, List.length_append]
      omega
    rcases drop_flatMap_encode t.codes hle with ⟨ws, hsuffix, hws⟩ | ⟨x, q, hx⟩
    · have hcws : Codepoints ws := fun wc hwc => t.codes_codepoints wc (hsuffix.subset hwc)
      rw [hdrop] at hws
      obtain rfl : u.codes = ws := by
        have hu := utf8MbstrToWc_iff.2 ⟨u.codes_codepoints, hws.symm⟩
        have hself := utf8MbstrToWc_iff.2 ⟨hcws, rfl⟩
        exact Option.some.inj (hu.symm.trans hself)
      exact hsuffix
    · rw [hdrop] at hx
      exact absurd hx (flatMap_encode_ne_trail u.scalars x q)
  · rintro ⟨C, hC⟩
    rw [← hC, List.flatMap_append]
    exact List.suffix_append _ _

/-- **Ends are the beginnings of what is written backwards.** -/
theorem bytes_suffix_iff_reversed :
    u.bytes <:+ t.bytes ↔ u.reversed.bytes <+: t.reversed.bytes := by
  rw [bytes_suffix_iff, bytes_prefix_iff, codes_reversed, codes_reversed, List.reverse_prefix]

end Ends

/-- **Word reversal.** `revert_word` fills its buffer with the characters of
a word in reverse order, and nothing but its null behind them; done twice
that is the word again, and a word is the end of another exactly if, both
reversed, it is its beginning. -/
theorem revertWord_reverses (t : Utf8Text) :
    RevertsTo t.bytes (t.codes.reverse.flatMap encode) ∧
      (t.codes.reverse.flatMap encode).length = t.bytes.length ∧
      RevertsTo (t.codes.reverse.flatMap encode) t.bytes ∧
      ∀ u : Utf8Text, u.bytes <:+ t.bytes ↔
        u.codes.reverse.flatMap encode <+: t.codes.reverse.flatMap encode := by
  have hbytes : ∀ u : Utf8Text, u.codes.reverse.flatMap encode = u.reversed.bytes := by
    intro u
    rw [u.reversed.bytes_eq, codes_reversed]
  rw [hbytes]
  refine ⟨revertsTo_bytes t, ?_, ?_, fun u => ?_⟩
  · rw [← hbytes, t.bytes_eq]
    exact (List.reverse_perm t.codes).flatMap_right encode |>.length_eq
  · have htwice := revertsTo_bytes t.reversed
    rwa [reversed_reversed] at htwice
  · rw [hbytes]
    exact bytes_suffix_iff_reversed t u

end Dico
