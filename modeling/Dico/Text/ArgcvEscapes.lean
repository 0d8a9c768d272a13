import Dico.Text.Argcv
/-!
# The text of an argument vector

What `argcv_string` makes of a list of words in the octal style is a text of
plain bytes and escapes. The scanners go over an escape in one piece, so
that a quote they find is one that was copied as it is. What is copied back
is the word, except that single quotes are dropped: the first one that
another follows, and all that come behind it.
-/

namespace Dico

/-! ## The length -/

section Length

variable (style : ArgcvQuotingStyle)

/-- What a byte is copied as is as long as the length says. -/
theorem length_quoteCopyChar (c : UInt8) :
    (quoteCopyChar style c).length = quotedCharLength style c := by
  by_cases hblank : c = 32
  · subst hblank
    cases style <;> decide
  · unfold quoteCopyChar quotedCharLength
    rw [if_neg hblank, apply_ite List.length, apply_ite List.length]
    refine if_congr Iff.rfl rfl (if_congr Iff.rfl rfl ?_)
    cases style with
    | octal => cases argcvQuoteChar c <;> rfl
    | hex => rfl

/-- **The quoted length is exact.** -/
theorem argcvQuotedLength_fst (str : Bytes) :
    (argcvQuotedLength style str).1 = (argcvQuoteCopy style str).length := by
  unfold argcvQuotedLength argcvQuoteCopy
  split_ifs with hstr
  · subst hstr
    rfl
  · rw [List.length_flatMap, funext (length_quoteCopyChar style)]

end Length

/-! ## Escapes -/

/-- What a byte is copied as that is not copied as it is. -/
inductive IsEscape : Bytes → Prop
  /-- A backslash and a character of the table. -/
  | char (d : UInt8) (hd : d ∈ ([92, 34, 97, 98, 102, 110, 114, 116] : Bytes)) : IsEscape [92, d]
  /-- A backslash and three octal digits. -/
  | octal (c : UInt8) (hc : c ≠ 39) : IsEscape (92 :: octalDigits c)

/-- Such a character is no quote and no digit, and stands for no quote. -/
theorem escapeChar_spec {d : UInt8} (hd : d ∈ ([92, 34, 97, 98, 102, 110, 114, 116] : Bytes)) :
    (d ≠ 39 ∧ d ≠ 0) ∧ ¬ (d = 120 ∨ d = 88) ∧ ¬ (48 ≤ d ∧ d ≤ 57) ∧ argcvUnquoteChar d ≠ 39 :=
  forall_mem_of_all (P := fun d => (d ≠ 39 ∧ d ≠ 0) ∧ ¬ (d = 120 ∨ d = 88) ∧
    ¬ (48 ≤ d ∧ d ≤ 57) ∧ argcvUnquoteChar d ≠ 39) rfl d hd

/-- A byte that is copied as it is, and for which no quotes are needed
unless it is a blank. -/
def isBare (c : UInt8) : Prop := c ≠ 34 ∧ isPlain c

instance : DecidablePred isBare := fun c => inferInstanceAs (Decidable (c ≠ 34 ∧ _))

/-- What is true of every byte is found out by going through them. -/
theorem forall_byte {P : UInt8 → Prop} (h : ∀ n : Fin 256, P (UInt8.ofNat n)) (c : UInt8) :
    P c := by
  have hc := h ⟨c.toNat, c.toNat_lt⟩
  rwa [UInt8.ofNat_toNat] at hc

/-- A table entry stands for the byte it is used for. -/
theorem argcvQuoteChar_spec (c : UInt8) : ∀ d ∈ argcvQuoteChar c,
    d ∈ ([92, 34, 97, 98, 102, 110, 114, 116] : Bytes) ∧ argcvUnquoteChar d = c := by
  have hall : ((argcvQuoteChar c).all fun d => decide
      (d ∈ ([92, 34, 97, 98, 102, 110, 114, 116] : Bytes) ∧ argcvUnquoteChar d = c)) = true := by
    refine forall_byte (P := fun c => ((argcvQuoteChar c).all fun d => decide
      (d ∈ ([92, 34, 97, 98, 102, 110, 114, 116] : Bytes) ∧ argcvUnquoteChar d = c)) = true) ?_ c
    decide +kernel
  intro d hd
  rw [Option.mem_def.1 hd, Option.all_some] at hall
  exact of_decide_eq_true hall

/-- The digits of a byte. -/
theorem octalDigits_spec (c : UInt8) : (∀ d ∈ octalDigits c, 48 ≤ d ∧ d ≤ 57) ∧
    xtonum 8 3 (octalDigits c) = (c.toNat, 3) := by
  have hall : ((octalDigits c).all fun d => decide (48 ≤ d ∧ d ≤ 57)) = true ∧
      xtonum 8 3 (octalDigits c) = (c.toNat, 3) := by
    refine forall_byte (P := fun c =>
      ((octalDigits c).all fun d => decide (48 ≤ d ∧ d ≤ 57)) = true ∧
        xtonum 8 3 (octalDigits c) = (c.toNat, 3)) ?_ c
    decide +kernel
  exact ⟨forall_mem_of_all hall.1, hall.2⟩

/-- A byte is copied as it is or escaped. -/
theorem quoteCopyChar_cases (c : UInt8) :
    isBare c ∧ quoteCopyChar .octal c = [c] ∨
      ¬ isBare c ∧ IsEscape (quoteCopyChar .octal c) := by
  unfold quoteCopyChar
  by_cases h₃₄ : c = 34
  · rw [if_pos h₃₄, h₃₄]
    exact .inr ⟨fun h => h.1 rfl, .char 34 (by decide)⟩
  by_cases hplain : isPlain c
  · rw [if_neg h₃₄, if_pos hplain]
    exact .inl ⟨⟨h₃₄, hplain⟩, rfl⟩
  · rw [if_neg h₃₄, if_neg hplain]
    refine .inr ⟨fun h => hplain h.2, ?_⟩
    rcases hd : argcvQuoteChar c with - | d
    · refine .octal c ?_
      rintro rfl
      exact hplain (by decide)
    · exact .char d (argcvQuoteChar_spec c d hd).1

/-- One byte more. -/
theorem argcvQuoteCopy_cons (style : ArgcvQuotingStyle) (c : UInt8) (w : Bytes) :
    argcvQuoteCopy style (c :: w) = quoteCopyChar style c ++ argcvQuoteCopy style w :=
  List.flatMap_cons

/-- A text of plain bytes and escapes. -/
inductive Aligned : Bytes → Prop
  | nil : Aligned []
  | plain {c : UInt8} {s : Bytes} (hc : c ≠ 92) (hs : Aligned s) : Aligned (c :: s)
  | escape {u s : Bytes} (hu : IsEscape u) (hs : Aligned s) : Aligned (u ++ s)

/-- An escape has no single quote and no null in it. -/
theorem IsEscape.ne {u : Bytes} (hu : IsEscape u) : ∀ b ∈ u, b ≠ 39 ∧ b ≠ 0 := by
  cases hu with
  | char d hd =>
    have hall := (escapeChar_spec hd).1
    rintro b hb
    rcases List.mem_cons.1 hb with rfl | hb
    · decide
    · rwa [List.mem_singleton.1 hb]
  | octal c hc =>
    intro b hb
    rcases List.mem_cons.1 hb with rfl | hb
    · decide
    · have hlo := UInt8.le_iff_toNat_le.1 ((octalDigits_spec c).1 b hb).1
      constructor <;> rintro rfl <;> exact absurd hlo (by decide)

/-- Two such texts. -/
theorem Aligned.append {s t : Bytes} (hs : Aligned s) (ht : Aligned t) : Aligned (s ++ t) := by
  induction hs with
  | nil => exact ht
  | plain hc _ ih => exact .plain hc ih
  | escape hu _ ih =>
    rw [List.append_assoc]
    exact .escape hu ih

/-- What is copied is such a text. -/
theorem aligned_quoteCopy (w : Bytes) : Aligned (argcvQuoteCopy .octal w) := by
  induction w with
  | nil => exact .nil
  | cons c w ih =>
    rw [argcvQuoteCopy_cons]
    rcases quoteCopyChar_cases c with ⟨hbare, hcopy⟩ | ⟨-, hesc⟩
    · rw [hcopy]
      exact .plain hbare.2.2.1 ih
    · exact .escape hesc ih

/-! ## Quotes -/

section Quotes

variable {q : UInt8} {u s : Bytes}

/-- The scanners know two quotes. -/
def IsQuoteChar (q : UInt8) : Prop := q = 39 ∨ q = 34

/-- A digit is no quote and no backslash. -/
theorem digit_ne (hq : IsQuoteChar q) {d : UInt8} (hd : 48 ≤ d ∧ d ≤ 57) : d ≠ q ∧ d ≠ 92 := by
  have hlo := UInt8.le_iff_toNat_le.1 hd.1
  have hhi := UInt8.le_iff_toNat_le.1 hd.2
  constructor
  · rintro rfl
    rcases hq with rfl | rfl <;> exact absurd hlo (by decide)
  · rintro rfl
    exact absurd hhi (by decide)

/-- A byte that is not sought. -/
theorem closeQuote_cons {c : UInt8} (hc : c ≠ q) (hb : c ≠ 92) :
    closeQuote q (c :: s) = (closeQuote q s).map (· + 1) := by
  rw [closeQuote.eq_def]
  simp only [if_neg hc, if_neg hb]

/-- A backslash hides what is behind it. -/
theorem closeQuote_backslash (hq : IsQuoteChar q) (d : UInt8) :
    closeQuote q (92 :: d :: s) = (closeQuote q s).map (· + 2) := by
  have hne : (92 : UInt8) ≠ q := by rcases hq with rfl | rfl <;> decide
  rw [closeQuote.eq_def]
  simp only [if_neg hne, if_true]

/-- The same for the copier. -/
theorem quoteAhead_cons {c : UInt8} (hc : c ≠ q) (hb : c ≠ 92) :
    quoteAhead q (c :: s) = quoteAhead q s := by
  rw [quoteAhead.eq_def]
  simp only [if_neg hc, if_neg hb]

/-- Here too. -/
theorem quoteAhead_backslash (hq : IsQuoteChar q) (d : UInt8) :
    quoteAhead q (92 :: d :: s) = quoteAhead q s := by
  have hne : (92 : UInt8) ≠ q := by rcases hq with rfl | rfl <;> decide
  rw [quoteAhead.eq_def]
  simp only [if_neg hne, if_true]

/-- The digits of an escape. -/
theorem octalDigits_ne (hq : IsQuoteChar q) (c : UInt8) :
    ∃ a b d, octalDigits c = [a, b, d] ∧ (b ≠ q ∧ b ≠ 92) ∧ d ≠ q ∧ d ≠ 92 := by
  have hdigits := (octalDigits_spec c).1
  rw [octalDigits] at hdigits
  simp only [List.forall_mem_cons] at hdigits
  exact ⟨_, _, _, rfl, digit_ne hq hdigits.2.1, digit_ne hq hdigits.2.2.1⟩

/-- An escape is gone over as a whole. -/
theorem closeQuote_escape (hq : IsQuoteChar q) (hu : IsEscape u) :
    closeQuote q (u ++ s) = (closeQuote q s).map (· + u.length) := by
  cases hu with
  | char d hd => exact closeQuote_backslash hq d
  | octal c hc =>
    obtain ⟨a, b, d, hdigits, ⟨hb, hb'⟩, hd, hd'⟩ := octalDigits_ne hq c
    rw [hdigits]
    simp only [List.cons_append, List.nil_append]
    rw [closeQuote_backslash hq, closeQuote_cons hb hb', closeQuote_cons hd hd', Option.map_map,
      Option.map_map]
    rfl

/-- Whether a quote follows is the same for the scanner and the copier. -/
theorem quoteAhead_eq (hq : IsQuoteChar q) (hs : Aligned s) :
    quoteAhead q s = .ok (closeQuote q s).isSome := by
  induction hs with
  | nil => rfl
  | @plain c s hc hs ih =>
    by_cases hcq : c = q
    · rw [hcq, quoteAhead.eq_def, closeQuote.eq_def]
      simp only [if_true]
      rfl
    · rw [quoteAhead_cons hcq hc, closeQuote_cons hcq hc, ih, Option.isSome_map]
  | @escape u s hu hs ih =>
    rw [closeQuote_escape hq hu, Option.isSome_map, ← ih]
    cases hu with
    | char d hd => exact quoteAhead_backslash hq d
    | octal c hc =>
      obtain ⟨a, b, d, hdigits, ⟨hb, hb'⟩, hd, hd'⟩ := octalDigits_ne hq c
      rw [hdigits]
      simp only [List.cons_append, List.nil_append]
      rw [quoteAhead_backslash hq, quoteAhead_cons hb hb', quoteAhead_cons hd hd']

/-- Double quotes are not copied as they are. -/
theorem closeQuote_quoteCopy_double (w s : Bytes) :
    closeQuote 34 (argcvQuoteCopy .octal w ++ s) =
      (closeQuote 34 s).map (· + (argcvQuoteCopy .octal w).length) := by
  induction w with
  | nil => exact Option.map_id'.symm
  | cons c w ih =>
    have hadd : ∀ k, ((· + k) ∘ (· + (argcvQuoteCopy .octal w).length)) =
        (· + (k + (argcvQuoteCopy .octal w).length)) := by
      intro k
      funext n
      simp only [Function.comp_apply]
      omega
    rw [argcvQuoteCopy_cons, List.append_assoc, List.length_append]
    rcases quoteCopyChar_cases c with ⟨hbare, hcopy⟩ | ⟨-, hesc⟩
    · rw [hcopy, List.singleton_append, closeQuote_cons hbare.1 hbare.2.2.1, ih, Option.map_map,
        hadd, List.length_singleton]
    · rw [closeQuote_escape (.inr rfl) hesc, ih, Option.map_map, hadd]

/-- Single quotes are. -/
theorem closeQuote_quoteCopy_single (w s : Bytes) :
    (closeQuote 39 (argcvQuoteCopy .octal w ++ s)).isSome ↔
      39 ∈ w ∨ (closeQuote 39 s).isSome := by
  induction w with
  | nil => exact (or_iff_right List.not_mem_nil).symm
  | cons c w ih =>
    rw [argcvQuoteCopy_cons, List.append_assoc, List.mem_cons]
    rcases quoteCopyChar_cases c with ⟨hbare, hcopy⟩ | ⟨hnot, hesc⟩
    · rw [hcopy, List.singleton_append]
      by_cases hc : c = 39
      · rw [hc, closeQuote.eq_def]
        simp only [if_true]
        exact iff_of_true rfl (.inl (.inl trivial))
      · rw [closeQuote_cons hc hbare.2.2.1, Option.isSome_map, ih,
          or_iff_right fun h : 39 = c => hc h.symm]
    · have hc : (39 : UInt8) ≠ c := by
        rintro rfl
        exact hnot (by decide)
      rw [closeQuote_escape (.inl rfl) hesc, Option.isSome_map, ih, or_iff_right hc]

end Quotes

/-! ## Tokens -/

section Tokens

variable {c : UInt8} {u s w : Bytes}

/-- An escaped byte belongs to the token. -/
theorem tokenSpan_backslash (d : UInt8) : tokenSpan [] (92 :: d :: s) = 2 + tokenSpan [] s := by
  rw [tokenSpan.eq_def]
  simp only [if_true]

/-- So does a plain one. -/
theorem tokenSpan_cons (hb : c ≠ 92) (hq : ¬ (c = 39 ∨ c = 34)) (hws : ¬ isws c) (h₀ : c ≠ 0) :
    tokenSpan [] (c :: s) = 1 + tokenSpan [] s := by
  have hend : ¬ (isws c ∨ isdelim [] c) := by
    rintro (h | h | h)
    · exact hws h
    · exact List.not_mem_nil h
    · exact h₀ h
  rw [tokenSpan.eq_def]
  simp only [if_neg hb, if_neg hq, if_neg hend]

/-- A quote that another follows. -/
theorem tokenSpan_quote {q : UInt8} (hq : IsQuoteChar q) {j : ℕ} (h : closeQuote q s = some j) :
    tokenSpan [] (q :: s) = j + 2 + tokenSpan [] (s.drop (j + 1)) := by
  have hb : q ≠ 92 := by rcases hq with rfl | rfl <;> decide
  rw [tokenSpan.eq_def]
  simp only [if_neg hb, if_pos (show q = 39 ∨ q = 34 from hq), h]

/-- A quote that no other follows. -/
theorem tokenSpan_lone {q : UInt8} (hq : IsQuoteChar q) (h : closeQuote q s = none) :
    tokenSpan [] (q :: s) = 1 + tokenSpan [] s := by
  have hb : q ≠ 92 := by rcases hq with rfl | rfl <;> decide
  rw [tokenSpan.eq_def]
  simp only [if_neg hb, if_pos (show q = 39 ∨ q = 34 from hq), h]

/-- The token ends where nothing is left, or before a blank. -/
def WordEnds (s : Bytes) : Prop := s = [] ∨ s.head? = some 32

/-- It does. -/
theorem tokenSpan_end (h : WordEnds s) : tokenSpan [] s = 0 := by
  rcases h with rfl | h
  · rw [tokenSpan]
  · obtain ⟨t, rfl⟩ : ∃ t, s = 32 :: t := by
      cases s with
      | nil => cases h
      | cons c t => exact ⟨t, by rw [Option.some.inj h]⟩
    rw [tokenSpan.eq_def]
    rfl

/-- A digit is plain. -/
theorem tokenSpan_digit (hd : 48 ≤ c ∧ c ≤ 57) : tokenSpan [] (c :: s) = 1 + tokenSpan [] s := by
  have hlo := UInt8.le_iff_toNat_le.1 hd.1
  refine tokenSpan_cons (digit_ne (.inl rfl) hd).2 ?_ ?_ ?_
  · rintro (h | h)
    · exact (digit_ne (.inl rfl) hd).1 h
    · exact (digit_ne (.inr rfl) hd).1 h
  · rintro (rfl | rfl | rfl) <;> exact absurd hlo (by decide)
  · rintro rfl
    exact absurd hlo (by decide)

/-- An escape belongs to the token as a whole. -/
theorem tokenSpan_escape (hu : IsEscape u) :
    tokenSpan [] (u ++ s) = u.length + tokenSpan [] s := by
  cases hu with
  | char d hd => exact tokenSpan_backslash d
  | octal c hc =>
    have hdigits := (octalDigits_spec c).1
    rw [octalDigits] at hdigits ⊢
    simp only [List.forall_mem_cons] at hdigits
    simp only [List.cons_append, List.nil_append, List.length_cons, List.length_nil]
    rw [tokenSpan_backslash, tokenSpan_digit hdigits.2.1, tokenSpan_digit hdigits.2.2.1]
    omega

/-- A word without blanks and quotes is gone over as a whole. -/
theorem tokenSpan_quoteCopy (h₃₂ : 32 ∉ w) (h₃₄ : 34 ∉ w) (h₃₉ : 39 ∉ w) :
    tokenSpan [] (argcvQuoteCopy .octal w ++ s) =
      (argcvQuoteCopy .octal w).length + tokenSpan [] s := by
  induction w with
  | nil => exact (Nat.zero_add _).symm
  | cons c w ih =>
    rw [List.mem_cons, not_or] at h₃₂ h₃₄ h₃₉
    rw [argcvQuoteCopy_cons, List.append_assoc, List.length_append]
    rcases quoteCopyChar_cases c with ⟨hbare, hcopy⟩ | ⟨-, hesc⟩
    · have hquote : ¬ (c = 39 ∨ c = 34) := by
        rintro (h | h)
        · exact h₃₉.1 h.symm
        · exact h₃₄.1 h.symm
      have hprint := UInt8.le_iff_toNat_le.1 hbare.2.2.2.1
      have hws : ¬ isws c := by
        rintro (h | rfl | rfl)
        · exact h₃₂.1 h.symm
        · exact absurd hprint (by decide)
        · exact absurd hprint (by decide)
      have h₀ : c ≠ 0 := by
        rintro rfl
        exact absurd hprint (by decide)
      rw [hcopy, List.singleton_append, tokenSpan_cons hbare.2.2.1 hquote hws h₀,
        ih h₃₂.2 h₃₄.2 h₃₉.2, List.length_singleton, Nat.add_assoc]
    · rw [tokenSpan_escape hesc, ih h₃₂.2 h₃₄.2 h₃₉.2, Nat.add_assoc]

end Tokens

/-! ## Copies -/

section Copies

variable {c : UInt8} {u s w dst : Bytes} {expect : Option UInt8} {n : ℕ}

/-- Nothing is left to copy. -/
theorem unquote_zero : argcvUnquoteCopy expect 0 s = .ok [] := by
  rw [argcvUnquoteCopy]

/-- A plain byte is copied. -/
theorem unquote_cons (hq : ¬ (c = 39 ∨ c = 34)) (hb : c ≠ 92) :
    argcvUnquoteCopy expect (n + 1) (c :: s) =
      argcvUnquoteCopy expect n s >>= fun dst => .ok (c :: dst) := by
  rw [argcvUnquoteCopy.eq_def]
  simp only [if_neg hq, if_neg hb]

/-- What stands behind a backslash is read. -/
theorem unquote_backslash :
    argcvUnquoteCopy expect (n + 1) (92 :: s) =
      argcvUnquoteCopy expect (n - (unquoteEscape n s).2) (s.drop (unquoteEscape n s).2) >>=
        fun dst => .ok ((unquoteEscape n s).1 ++ dst) := by
  have hq : ¬ ((92 : UInt8) = 39 ∨ (92 : UInt8) = 34) := by decide
  rw [argcvUnquoteCopy.eq_def]
  simp only [if_neg hq, if_true]

/-- A character of the table. -/
theorem unquoteEscape_char {d : UInt8}
    (hd : d ∈ ([92, 34, 97, 98, 102, 110, 114, 116] : Bytes)) (n : ℕ) (s : Bytes) :
    unquoteEscape n (d :: s) = ([argcvUnquoteChar d], 1) := by
  obtain ⟨-, hx, hdigit, -⟩ := escapeChar_spec hd
  rw [unquoteEscape, List.headD_cons, if_neg hx, if_neg hdigit]

/-- Octal digits, if there is room for one. -/
theorem unquoteEscape_octal (c : UInt8) (n : ℕ) (s : Bytes) :
    unquoteEscape (n + 1) (octalDigits c ++ s) = ([c], 3) := by
  obtain ⟨hdigits, hval⟩ := octalDigits_spec c
  have htake : xtonum 8 3 (octalDigits c ++ s) = (c.toNat, 3) := by
    rw [← hval]
    rfl
  obtain ⟨a, b, d, heq, -, -⟩ := octalDigits_ne (.inl rfl) c
  rw [heq] at hdigits htake ⊢
  have ha := hdigits a List.mem_cons_self
  have hlo := UInt8.le_iff_toNat_le.1 ha.1
  have hhi := UInt8.le_iff_toNat_le.1 ha.2
  have hx : ¬ (a = 120 ∨ a = 88) := by
    rintro (rfl | rfl) <;> exact absurd hhi (by decide)
  rw [List.cons_append] at htake ⊢
  rw [unquoteEscape, List.headD_cons, if_neg hx, if_pos ha, if_neg (by omega)]
  simp only [htake, UInt8.ofNat_toNat]
  rfl

/-- And if there is none. -/
theorem unquoteEscape_octal_zero (c : UInt8) (s : Bytes) :
    ∃ d, unquoteEscape 0 (octalDigits c ++ s) = ([92, d], 1) ∧ d ≠ 39 := by
  have hdigits := (octalDigits_spec c).1
  obtain ⟨a, b, d, heq, -, -⟩ := octalDigits_ne (.inl rfl) c
  rw [heq] at hdigits ⊢
  have ha := hdigits a List.mem_cons_self
  have hhi := UInt8.le_iff_toNat_le.1 ha.2
  have hx : ¬ (a = 120 ∨ a = 88) := by
    rintro (rfl | rfl) <;> exact absurd hhi (by decide)
  refine ⟨a, ?_, (digit_ne (.inl rfl) ha).1⟩
  rw [List.cons_append, unquoteEscape, List.headD_cons, if_neg hx, if_pos ha,
    if_pos Nat.zero_lt_one]

/-- An escape of two bytes. -/
theorem unquote_pair {d : UInt8} (hd : d ∈ ([92, 34, 97, 98, 102, 110, 114, 116] : Bytes)) :
    argcvUnquoteCopy expect ([92, d].length + n) ([92, d] ++ s) =
      argcvUnquoteCopy expect n s >>= fun dst => .ok (argcvUnquoteChar d :: dst) := by
  have hlen : [92, d].length + n = n + 1 + 1 := Nat.add_comm 2 n
  rw [hlen, List.cons_append, unquote_backslash, List.singleton_append, unquoteEscape_char hd,
    Nat.add_sub_cancel, List.drop_one, List.tail_cons]
  rfl

/-- An escape of four. -/
theorem unquote_octal (c : UInt8) :
    argcvUnquoteCopy expect ((92 :: octalDigits c).length + n) (92 :: octalDigits c ++ s) =
      argcvUnquoteCopy expect n s >>= fun dst => .ok (c :: dst) := by
  have hlen : (92 :: octalDigits c).length + n = n + 2 + 1 + 1 := Nat.add_comm 4 n
  rw [hlen, List.cons_append, unquote_backslash, unquoteEscape_octal]
  rfl

/-- A byte that was escaped is copied. -/
theorem unquote_escape (h : ¬ isBare c) :
    argcvUnquoteCopy expect ((quoteCopyChar .octal c).length + n) (quoteCopyChar .octal c ++ s) =
      argcvUnquoteCopy expect n s >>= fun dst => .ok (c :: dst) := by
  unfold quoteCopyChar
  by_cases h₃₄ : c = 34
  · rw [if_pos h₃₄, h₃₄]
    exact unquote_pair (by decide)
  have hplain : ¬ isPlain c := fun hp => h ⟨h₃₄, hp⟩
  rw [if_neg h₃₄, if_neg hplain]
  rcases hd : argcvQuoteChar c with - | d
  · exact unquote_octal c
  · obtain ⟨hmem, hchar⟩ := argcvQuoteChar_spec c d hd
    have hpair := @unquote_pair s expect n d hmem
    rwa [hchar] at hpair

/-- **What was copied without single quotes is copied back.** -/
theorem unquote_quoteCopy (h : 39 ∉ w) :
    argcvUnquoteCopy expect ((argcvQuoteCopy .octal w).length + n)
        (argcvQuoteCopy .octal w ++ s) =
      argcvUnquoteCopy expect n s >>= fun dst => .ok (w ++ dst) := by
  induction w with
  | nil =>
    rw [show (argcvQuoteCopy .octal []).length + n = n from Nat.zero_add n]
    cases hcopy : argcvUnquoteCopy expect n s with
    | error e => exact hcopy
    | ok dst => exact hcopy
  | cons c w ih =>
    rw [List.mem_cons, not_or] at h
    rw [argcvQuoteCopy_cons, List.append_assoc, List.length_append, Nat.add_assoc]
    have hrest : (argcvUnquoteCopy expect ((argcvQuoteCopy .octal w).length + n)
        (argcvQuoteCopy .octal w ++ s) >>= fun dst => .ok (c :: dst)) =
        argcvUnquoteCopy expect n s >>= fun dst => .ok (c :: w ++ dst) := by
      rw [ih h.2]
      cases argcvUnquoteCopy expect n s <;> rfl
    rw [← hrest]
    rcases quoteCopyChar_cases c with ⟨hbare, hcopy⟩ | ⟨hnot, -⟩
    · have hquote : ¬ (c = 39 ∨ c = 34) := by
        rintro (hc | hc)
        · exact h.1 hc.symm
        · exact hbare.1 hc
      rw [hcopy, List.singleton_append, List.length_singleton, Nat.add_comm 1,
        unquote_cons hquote hbare.2.2.1]
    · exact unquote_escape hnot

/-- A single quote that another follows is dropped. -/
theorem unquote_open (hs : Aligned s) (h : (closeQuote 39 s).isSome) :
    argcvUnquoteCopy none (n + 1) (39 :: s) = argcvUnquoteCopy (some 39) n s := by
  rw [argcvUnquoteCopy.eq_def]
  simp only [quoteAhead_eq (.inl rfl) hs, h, true_or, if_true, ok_bind]

/-- One that no other follows is copied. -/
theorem unquote_lone (hs : Aligned s) (h : (closeQuote 39 s).isSome = false) :
    argcvUnquoteCopy none (n + 1) (39 :: s) =
      argcvUnquoteCopy none n s >>= fun dst => .ok (39 :: dst) := by
  rw [argcvUnquoteCopy.eq_def]
  simp only [quoteAhead_eq (.inl rfl) hs, h, true_or, if_true, ok_bind, Bool.false_eq_true,
    if_false]

/-- An escape begins with a backslash. -/
theorem IsEscape.exists_cons (hu : IsEscape u) : ∃ v, u = 92 :: v := by
  cases hu with
  | char d hd => exact ⟨[d], rfl⟩
  | octal c hc => exact ⟨octalDigits c, rfl⟩

/-- It does not stand for a single quote. -/
theorem single_notMem_unquoteEscape (hu : IsEscape (92 :: u)) (n : ℕ) (s : Bytes) :
    39 ∉ (unquoteEscape n (u ++ s)).1 ∧ (n = 0 ∨ (unquoteEscape n (u ++ s)).2 = u.length) := by
  generalize hv : 92 :: u = v at hu
  cases hu with
  | char d hd =>
    obtain rfl := (List.cons.inj hv).2
    obtain ⟨-, -, -, hchar⟩ := escapeChar_spec hd
    rw [List.singleton_append, unquoteEscape_char hd]
    exact ⟨fun h => hchar (List.mem_singleton.1 h).symm, .inr rfl⟩
  | octal c hc =>
    obtain rfl := (List.cons.inj hv).2
    cases n with
    | zero =>
      obtain ⟨d, hread, hd⟩ := unquoteEscape_octal_zero c s
      rw [hread]
      refine ⟨?_, .inl rfl⟩
      rw [List.mem_cons, List.mem_singleton, not_or]
      exact ⟨by decide, hd.symm⟩
    | succ n =>
      rw [unquoteEscape_octal]
      exact ⟨fun h => hc (List.mem_singleton.1 h).symm, .inr rfl⟩

/-- **Behind a single quote that was dropped no other is copied.** -/
theorem single_notMem_unquote (hs : Aligned s)
    (h : argcvUnquoteCopy (some 39) n s = .ok dst) : 39 ∉ dst := by
  induction hs generalizing n dst with
  | nil =>
    cases n with
    | zero =>
      rw [unquote_zero] at h
      cases h
      exact List.not_mem_nil
    | succ n =>
      rw [argcvUnquoteCopy.eq_def] at h
      cases h
  | @plain c s hc hs ih =>
    cases n with
    | zero =>
      rw [unquote_zero] at h
      cases h
      exact List.not_mem_nil
    | succ n =>
      by_cases h₃₉ : c = 39
      · subst h₃₉
        rw [argcvUnquoteCopy.eq_def] at h
        simp only [true_or, if_true] at h
        exact ih h
      · have hcopy : argcvUnquoteCopy (some 39) (n + 1) (c :: s) =
            argcvUnquoteCopy (some 39) n s >>= fun dst => .ok (c :: dst) := by
          by_cases h₃₄ : c = 34
          · subst h₃₄
            rw [argcvUnquoteCopy.eq_def]
            simp only [or_true, if_true, if_neg (show ¬ (39 : UInt8) = 34 by decide)]
          · exact unquote_cons (not_or.2 ⟨h₃₉, h₃₄⟩) hc
        rw [hcopy] at h
        obtain ⟨dst', hdst, h⟩ := bind_eq_ok.1 h
        cases h
        rw [List.mem_cons, not_or]
        exact ⟨fun hc => h₃₉ hc.symm, ih hdst⟩
  | @escape u s hu hs ih =>
    obtain ⟨v, rfl⟩ := hu.exists_cons
    cases n with
    | zero =>
      rw [unquote_zero] at h
      cases h
      exact List.not_mem_nil
    | succ n =>
      obtain ⟨hout, hused⟩ := single_notMem_unquoteEscape hu n s
      rw [List.cons_append, unquote_backslash] at h
      obtain ⟨dst', hdst, h⟩ := bind_eq_ok.1 h
      cases h
      rw [List.mem_append, not_or]
      refine ⟨hout, ?_⟩
      rcases hused with rfl | hused
      · rw [Nat.zero_sub, unquote_zero] at hdst
        cases hdst
        exact List.not_mem_nil
      · rw [hused, List.drop_left] at hdst
        exact ih hdst

end Copies

end Dico
