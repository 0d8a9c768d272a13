import Dico.Text.Select
/-!
# Reversed words

To look for the ends of words, the modules keep an index of the words
written backwards, character by character (`revert_word`), and compare
only as many characters as the shorter of two words has.
-/

namespace Dico

open Utf8 (encode)

/-! ## The model -/

/-- The loop of `revert_word`, of which both modules have a copy: `acc` is
what has been written from the end of the buffer on. A byte that begins no
character leaves the width of the iterator as it was, and at first that is
not set; and where the last character is cut off, the beginning of the
buffer is never written. -/
def revertLoop : ℕ → Option ℕ → Bytes → Bytes → Option Bytes
  | _, _, [], acc => some acc
  | 0, _, _ :: _, _ => none
  | fuel + 1, width, b :: src, acc => do
    let w ← if utf8CharWidth (b :: src) = 0 then width else some (utf8CharWidth (b :: src))
    if src.length + 1 < w then none
    else revertLoop fuel (some w) ((b :: src).drop w) ((b :: src).take w ++ acc)

/-- `revert_word`. -/
def revertWord (src : Bytes) : Option Bytes := revertLoop src.length none src []

example : revertWord (ascii "abc") = some (ascii "cba") := by decide +kernel

/-! ## Reversed texts -/

section Reversed

variable {ws : List ℕ}

/-- The loop over the characters of a text. -/
theorem revertLoop_encode (h : Scalars ws) {fuel : ℕ} (hfuel : ws.length ≤ fuel)
    (width : Option ℕ) (acc : Bytes) :
    revertLoop fuel width (ws.flatMap encode) acc =
      some (ws.reverse.flatMap encode ++ acc) := by
  induction ws generalizing fuel width acc with
  | nil => rw [List.flatMap_nil, revertLoop, List.reverse_nil, List.flatMap_nil, List.nil_append]
  | cons wc ws ih =>
    obtain ⟨hwc, hws⟩ := List.forall_mem_cons.1 h
    rw [List.length_cons] at hfuel
    obtain ⟨fuel, rfl⟩ : ∃ k, fuel = k + 1 := ⟨fuel - 1, by omega⟩
    have hwidth := utf8CharWidth_encode hwc.2 (ws.flatMap encode)
    have hdrop : (encode wc ++ ws.flatMap encode).drop (encode wc).length = ws.flatMap encode :=
      List.drop_left
    have htake : (encode wc ++ ws.flatMap encode).take (encode wc).length = encode wc :=
      List.take_left
    have hpos := List.length_pos_of_ne_nil (Utf8.encode_ne_nil wc)
    have hlen : (encode wc ++ ws.flatMap encode).length =
        (encode wc).length + (ws.flatMap encode).length := List.length_append
    obtain ⟨b, r, hbr⟩ := Utf8.encode_append wc (ws.flatMap encode)
    rw [hbr] at hwidth hdrop htake hlen
    rw [List.length_cons] at hlen
    rw [List.flatMap_cons, hbr, revertLoop]
    simp only [hwidth]
    rw [if_neg (by omega), Option.bind_eq_bind, Option.bind_some, if_neg (by omega), hdrop, htake,
      ih hws (by omega), List.reverse_cons, List.flatMap_append, List.append_assoc,
      List.flatMap_singleton]

/-- The text written backwards. -/
def Utf8Text.reversed (t : Utf8Text) : Utf8Text where
  chars := t.chars.reverse
  null_notMem := fun h => t.null_notMem (List.mem_reverse.1 h)

variable (t : Utf8Text)

/-- Its code points. -/
theorem codes_reversed : t.reversed.codes = t.codes.reverse := List.map_reverse

/-- **`revert_word` writes a text backwards.** -/
theorem revertWord_bytes : revertWord t.bytes = some t.reversed.bytes := by
  have hle := length_codes_le t
  rw [revertWord, t.reversed.bytes_eq, codes_reversed]
  rw [t.bytes_eq] at hle ⊢
  rw [revertLoop_encode t.scalars hle, List.append_nil]

end Reversed

/-- The code points of a string, where it is UTF-8. -/
def codesOf (s : Bytes) : List ℕ := (utf8MbstrToWc s).getD []

/-- Of a text, they are its own. -/
theorem codesOf_bytes (t : Utf8Text) : codesOf t.bytes = t.codes := by
  rw [codesOf, t.utf8MbstrToWc_bytes, Option.getD_some]

/-- A text is known by its bytes. -/
theorem Utf8Text.eq_of_bytes {t t' : Utf8Text} (h : t.bytes = t'.bytes) : t = t' := by
  have hcodes : t.codes = t'.codes := by rw [← codesOf_bytes, h, codesOf_bytes]
  have hchars : t.chars = t'.chars :=
    List.map_injective_iff.2 (fun _ _ => Char.toNat_inj.1) hcodes
  cases t
  cases t'
  cases hchars
  rfl

/-- A condition on texts and on other bytes, asked of a text. -/
theorem Utf8Text.or_other_iff {P : Utf8Text → Prop} {Q : Prop} (t : Utf8Text) :
    (∃ t' : Utf8Text, t.bytes = t'.bytes ∧ P t') ∨
      (¬ ∃ t' : Utf8Text, t.bytes = t'.bytes) ∧ Q ↔ P t := by
  rw [or_iff_left fun h => h.1 ⟨t, rfl⟩]
  constructor
  · rintro ⟨t', ht, h⟩
    rwa [Utf8Text.eq_of_bytes ht]
  · exact fun h => ⟨t, rfl, h⟩

/-- And of other bytes. -/
theorem other_or_iff {P : Utf8Text → Prop} {Q : Prop} {word : Bytes}
    (hword : ¬ ∃ t : Utf8Text, word = t.bytes) :
    (∃ t : Utf8Text, word = t.bytes ∧ P t) ∨ (¬ ∃ t : Utf8Text, word = t.bytes) ∧ Q ↔ Q := by
  rw [and_iff_right hword, or_iff_right fun h => hword (h.imp fun _ ht => ht.1)]

/-! ## The comparison of what both have -/

/-- What a comparison of as many characters as the shorter text has says,
from the mapped code points. -/
def truncSign (a b : List ℕ) : ℤ :=
  if min a.length b.length < 2 ^ 32 then
    lexSign (a.take (min a.length b.length)) (b.take (min a.length b.length))
  else lexSign a b

/-- And it says that. -/
theorem utf8Strncasecmp_min (a b : Utf8Text) :
    utf8Strncasecmp a.bytes b.bytes (min a.codes.length b.codes.length) =
      some (truncSign (folded a.codes) (folded b.codes)) := by
  rw [utf8Strncasecmp_bytes, truncSign]
  simp only [folded, List.length_map, List.map_take]
  rw [apply_ite some]

/-- A text with as many characters or more compares equal if it begins with
the other, but only the same text does if the other has `2 ^ 32`. -/
theorem truncSign_eq_zero_of_le {a b : List ℕ} (h : a.length ≤ b.length) :
    truncSign a b = 0 ↔ a <+: b ∧ (2 ^ 32 ≤ a.length → b.length = a.length) := by
  rw [truncSign, min_eq_left h]
  split_ifs with hn
  · rw [lexSign_eq_zero, List.take_length, List.prefix_iff_eq_take]
    exact (and_iff_left fun hle => absurd hn (not_lt.2 hle)).symm
  · rw [lexSign_eq_zero]
    constructor
    · rintro rfl
      exact ⟨List.prefix_rfl, fun _ => rfl⟩
    · rintro ⟨hpre, hlen⟩
      exact hpre.eq_of_length (hlen (not_lt.1 hn)).symm

/-- A shorter one compares equal if the other begins with it, and it has
less than `2 ^ 32`. -/
theorem truncSign_eq_zero_of_lt {a b : List ℕ} (h : b.length < a.length) :
    truncSign a b = 0 ↔ b <+: a ∧ b.length < 2 ^ 32 := by
  rw [truncSign, min_eq_right h.le]
  split_ifs with hn
  · rw [lexSign_eq_zero, List.take_length, eq_comm, ← List.prefix_iff_eq_take]
    exact (and_iff_left hn).symm
  · rw [lexSign_eq_zero]
    refine iff_of_false (fun heq => ?_) fun hb => hn hb.2
    rw [heq] at h
    exact lt_irrefl _ h

/-- Where that does not happen, all that is compared with is the beginning
of a text. -/
theorem truncSign_eq_lexSign {a b : List ℕ} (h : b.length < a.length → truncSign a b ≠ 0) :
    truncSign a b = lexSign a (if a.length < 2 ^ 32 then b.take a.length else b) := by
  rcases Nat.lt_or_ge b.length a.length with hlt | hge
  · have hne := h hlt
    rw [List.take_of_length_le hlt.le, ite_self]
    rw [truncSign, min_eq_right hlt.le] at hne ⊢
    split_ifs at hne ⊢ with hn
    · exact lexSign_take fun heq => hne (lexSign_eq_zero.2 heq)
    · rfl
  · rw [truncSign, min_eq_left hge, List.take_length, apply_ite (lexSign a)]

/-- Beginnings are in the order of what they are the beginnings of. -/
theorem take_le_take {a b : List ℕ} (n : ℕ) (h : a ≤ b) : a.take n ≤ b.take n := by
  by_cases heq : a.take n = b.take n
  · exact heq.le
  · rw [← lexSign_nonpos, lexSign_take heq, lexSign_nonpos]
    exact h

/-- The signs of comparisons go down as what is compared with goes up. -/
theorem lexSign_antitone {b b' : List ℕ} (a : List ℕ) (h : b ≤ b') :
    (0 ≤ lexSign a b' → 0 ≤ lexSign a b) ∧ (0 < lexSign a b' → 0 < lexSign a b) := by
  have hneg : ∀ c, 0 ≤ lexSign a c ↔ c ≤ a := by
    intro c
    unfold lexSign
    split_ifs with h₁ h₂
    · exact iff_of_false (by decide) (not_le.2 h₁)
    · exact iff_of_true (by decide) h₂.le
    · exact iff_of_true (by decide) (not_lt.1 h₁)
  have hpos : ∀ c, 0 < lexSign a c ↔ c < a := fun c => by
    rw [← not_le, lexSign_nonpos, not_le]
  rw [hneg, hneg, hpos, hpos]
  exact ⟨h.trans, h.trans_lt⟩

/-- **Texts in order are in three parts for the comparison of what both
have**, if none is a shorter one that compares equal. -/
theorem truncSign_antitone {a b b' : List ℕ} (h : b ≤ b')
    (hb : b.length < a.length → truncSign a b ≠ 0)
    (hb' : b'.length < a.length → truncSign a b' ≠ 0) :
    (0 ≤ truncSign a b' → 0 ≤ truncSign a b) ∧ (0 < truncSign a b' → 0 < truncSign a b) := by
  rw [truncSign_eq_lexSign hb, truncSign_eq_lexSign hb']
  refine lexSign_antitone a ?_
  split_ifs
  · exact take_le_take _ h
  · exact h

/-- A text does not come before its beginnings. -/
theorem prefix_le {a b : List ℕ} (h : a <+: b) : a ≤ b := by
  obtain ⟨c, rfl⟩ := h
  rw [← lexSign_nonpos]
  induction a with
  | nil =>
    rw [lexSign_nil_left]
    split_ifs <;> decide
  | cons x a ih =>
    rw [List.cons_append, lexSign_cons_cons, if_neg (lt_irrefl x), if_neg (lt_irrefl x)]
    exact ih

/-- What is between two texts that begin with a text begins with it. -/
theorem prefix_of_between {a b c w : List ℕ} (hab : a ≤ b) (hbc : b ≤ c) (ha : w <+: a)
    (hc : w <+: c) : w <+: b := by
  have hle := take_le_take w.length hab
  have hge := take_le_take w.length hbc
  rw [← List.prefix_iff_eq_take.1 ha] at hle
  rw [← List.prefix_iff_eq_take.1 hc] at hge
  exact List.prefix_iff_eq_take.2 (le_antisymm hle hge)

/-- **What compares less than a text**: what comes after it, but not what
begins with it. -/
theorem truncSign_neg_iff {a b : List ℕ} :
    truncSign a b < 0 ↔ a < b ∧ ¬ (a <+: b ∧ a.length < 2 ^ 32) := by
  have hsign : ∀ c d : List ℕ, lexSign c d < 0 ↔ c < d := by
    intro c d
    rw [lexSign]
    split_ifs with hlt hgt
    · exact iff_of_true (by decide) hlt
    · exact iff_of_false (by decide) hlt
    · exact iff_of_false (by decide) hlt
  by_cases hpre : a <+: b
  · have hle := hpre.length_le
    by_cases hn : a.length < 2 ^ 32
    · refine iff_of_false ?_ fun h => h.2 ⟨hpre, hn⟩
      rw [(truncSign_eq_zero_of_le hle).2 ⟨hpre, fun h => absurd hn (not_lt.2 h)⟩]
      decide
    · rw [truncSign, min_eq_left hle, if_neg hn, hsign]
      exact (and_iff_left fun h => hn h.2).symm
  · rw [and_iff_left fun h => hpre h.1, truncSign]
    split_ifs with hn
    · by_cases htake : a.take (min a.length b.length) = b.take (min a.length b.length)
      · -- the other text is the beginning
        have hlt : b.length < a.length := by
          by_contra hge
          rw [min_eq_left (not_lt.1 hge), List.take_length] at htake
          exact hpre (List.prefix_iff_eq_take.2 htake)
        rw [min_eq_right hlt.le, List.take_length] at htake
        rw [min_eq_right hlt.le, List.take_length, htake, lexSign_self]
        refine iff_of_false (lt_irrefl 0) (not_lt.2 (prefix_le ?_))
        exact List.prefix_iff_eq_take.2 htake.symm
      · rw [lexSign_take htake, hsign]
    · exact hsign a b

/-- **What comes after it compares less, too.** -/
theorem truncSign_neg_mono {a b b' : List ℕ} (h : b ≤ b') (hb : truncSign a b < 0) :
    truncSign a b' < 0 := by
  rw [truncSign_neg_iff] at hb ⊢
  obtain ⟨hlt, hnot⟩ := hb
  refine ⟨hlt.trans_le h, fun hb' => hnot ⟨?_, hb'.2⟩⟩
  exact prefix_of_between hlt.le h List.prefix_rfl hb'.1

end Dico
