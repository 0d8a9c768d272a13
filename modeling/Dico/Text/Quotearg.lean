import Dico.Text.Cleared
import Dico.Text.Literal
import Dico.Text.Quoting
import Mathlib.Data.Bool.AllAny
/-!
# Words that a client quotes

`dico` puts the words of a command between double quotes and has
`quotearg_n`, in its style `escape`, quote what is in them. That style
leaves a double quote as it is, and what it writes for a control character
or one that is not printable is a null to the tokenizer of the server. So
the words arrive exactly where none of them has such a character in it
(`request_read_iff`).
-/

namespace Dico

open Utf8 (encode)
open Utf8Iterator

/-! ## The model -/

/-- The characters that `quotearg_buffer_restyled` writes as a letter behind
a backslash, with the letters. -/
def quoteargEscapes : List (ℕ × UInt8) :=
  [(7, 97), (8, 98), (12, 102), (10, 110), (13, 114), (9, 116), (11, 118), (92, 92)]

/-- A byte as a backslash and three octal digits. -/
def octalByte (c : UInt8) : Bytes :=
  [backslash, 48 + c / 64, 48 + c / 8 % 8, 48 + c % 8]

/-- The characters between the first and the last that its `switch` lists:
all of the printable ASCII characters but the at sign. -/
def quoteargLists (wc : ℕ) : Bool := 32 ≤ wc && wc < 127 && wc != 64

/-- A character in `quotearg_buffer_restyled` with `escape_quoting_style`,
in a locale with UTF-8. -/
def quoteargChar (iswprint : ℕ → Bool) (wc : ℕ) : Bytes :=
  match quoteargEscapes.find? fun p => p.1 = wc with
  | some p => [backslash, p.2]
  | none =>
    if quoteargLists wc || iswprint wc then encode wc else (encode wc).flatMap octalByte

/-- `quotearg_n` on a text. -/
def Utf8Text.quotearg (iswprint : ℕ → Bool) (t : Utf8Text) : Bytes :=
  t.codes.flatMap (quoteargChar iswprint)

/-- Words in double quotes, as they follow the keyword of a command. -/
def wordsText (qs : List Bytes) : Bytes :=
  qs.flatMap fun q => space :: doubleQuote :: (q ++ [doubleQuote])

/-- The command that `dict_define` and `dict_match` send, before its
`\r\n`. -/
def requestText (iswprint : ℕ → Bool) (keyword : Bytes) (ts : List Utf8Text) : Bytes :=
  keyword ++ wordsText (ts.map (Utf8Text.quotearg iswprint))

/-- A character that arrives: a backslash, or a printable character that is
no double quote. -/
def Arriving (iswprint : ℕ → Bool) (wc : ℕ) : Prop :=
  wc = 92 ∨ wc ≠ 34 ∧ (quoteargEscapes.find? fun p => p.1 = wc) = none ∧
    (quoteargLists wc || iswprint wc) = true

instance (iswprint : ℕ → Bool) (wc : ℕ) : Decidable (Arriving iswprint wc) :=
  inferInstanceAs (Decidable (_ ∨ _ ∧ _ ∧ _))

/-! ## Characters -/

section Characters

variable {iswprint : ℕ → Bool} {wc : ℕ} {ws : List ℕ} {t : Utf8Text}

/-- A character that arrives is quoted as `utf8_quote` does it. -/
theorem quoteargChar_arriving (h : Arriving iswprint wc) :
    quoteargChar iswprint wc = (utf8WcQuote [wc]).flatMap encode := by
  rcases h with rfl | ⟨h34, hnone, hprint⟩
  · rfl
  · have h92 : wc ≠ 92 := by
      rintro rfl
      cases hnone
    unfold quoteargChar utf8WcQuote
    rw [hnone, List.flatMap_singleton, if_neg (not_or.2 ⟨h92, h34⟩), List.flatMap_singleton]
    exact if_pos hprint

/-- Characters that arrive. -/
theorem quotearg_arriving (h : ∀ wc ∈ ws, Arriving iswprint wc) :
    ws.flatMap (quoteargChar iswprint) = (utf8WcQuote ws).flatMap encode := by
  induction ws with
  | nil => rfl
  | cons wc ws ih =>
    obtain ⟨hwc, hws⟩ := List.forall_mem_cons.1 h
    have hcons : utf8WcQuote (wc :: ws) = utf8WcQuote [wc] ++ utf8WcQuote ws := by
      unfold utf8WcQuote
      rw [List.flatMap_cons, List.flatMap_singleton]
    rw [List.flatMap_cons, ih hws, quoteargChar_arriving hwc, hcons, List.flatMap_append]

/-- No letter that is put behind a backslash has a character in the table of
the tokenizer, but the backslash. -/
theorem dicoQuoteChar_escapes :
    ∀ p ∈ quoteargEscapes, p.1 ≠ 92 → p.2 < 0x80 ∧ p.2 ≠ 0 ∧ dicoQuoteChar p.2 = 0 := by
  decide

/-- Nor has the first of three octal digits. -/
theorem dicoQuoteChar_octal (c : UInt8) :
    48 + c / 64 < 0x80 ∧ 48 + c / 64 ≠ 0 ∧ dicoQuoteChar (48 + c / 64) = 0 := by
  have hdigits : ∀ d : Fin 4,
      48 + UInt8.ofNat d < 0x80 ∧ 48 + UInt8.ofNat d ≠ 0 ∧
        dicoQuoteChar (48 + UInt8.ofNat d) = 0 := by decide
  have hlt : c.toNat / 64 < 4 := by
    have := c.toNat_lt
    omega
  have hdiv : c / 64 = UInt8.ofNat (c.toNat / 64) := by
    refine UInt8.toNat_inj.1 ?_
    rw [UInt8.toNat_div, Utf8.toNat_ofNat (by omega)]
    rfl
  rw [hdiv]
  exact hdigits ⟨c.toNat / 64, hlt⟩

/-- **A character that does not arrive** is the double quote, or a null to
the tokenizer. -/
theorem quoteargChar_spoiled (h : ¬Arriving iswprint wc) :
    quoteargChar iswprint wc = [doubleQuote] ∨
      ∃ b r, quoteargChar iswprint wc = backslash :: b :: r ∧ b < 0x80 ∧ b ≠ 0 ∧
        dicoQuoteChar b = 0 := by
  obtain ⟨h92, h⟩ := not_or.1 h
  unfold quoteargChar
  cases hfind : quoteargEscapes.find? fun p => p.1 = wc with
  | some p =>
    have hwc : p.1 = wc := by
      have hdec := List.find?_some hfind
      exact of_decide_eq_true hdec
    obtain ⟨hlt, hne, hnull⟩ := dicoQuoteChar_escapes p (List.mem_of_find?_eq_some hfind)
      (hwc ▸ h92)
    exact .inr ⟨p.2, [], rfl, hlt, hne, hnull⟩
  | none =>
    by_cases h34 : wc = 34
    · subst h34
      exact .inl rfl
    · have hprint : ¬(quoteargLists wc || iswprint wc) = true := fun hprint =>
        h ⟨h34, hfind, hprint⟩
      obtain ⟨c, q, hcq⟩ := List.exists_cons_of_ne_nil (Utf8.encode_ne_nil wc)
      obtain ⟨hlt, hne, hnull⟩ := dicoQuoteChar_octal c
      refine .inr ⟨48 + c / 64, (48 + c / 8 % 8) :: (48 + c % 8) :: q.flatMap octalByte, ?_, hlt,
        hne, hnull⟩
      simp only [if_neg hprint, hcq, List.flatMap_cons]
      rfl

end Characters

/-! ## Walks that go on -/

section Walks

variable {quote : UInt8} {itr mid itr₁ itr₂ : Utf8Iterator} {R P R' P' : Bytes}

/-- A walk to the end of a token goes on where a shorter one has stopped. -/
theorem Walk.behind (h : Walk quote itr R P mid) (h' : Walk quote itr R' P' itr₁)
    (hstop : tokenStep quote itr₁ = .ok (none, itr₂)) :
    ∃ R'' P'', Walk quote mid R'' P'' itr₁ ∧ P' = P ++ P'' := by
  induction h generalizing R' P' with
  | refl itr => exact ⟨R', P', h', rfl⟩
  | step hstep hcur hne htaken hwalk ih =>
    cases h' with
    | refl =>
      rw [hstep] at hstop
      cases hstop
    | step hstep' hcur' hne' htaken' hwalk' =>
      obtain ⟨hstrs, rfl⟩ := Prod.mk.inj (Except.ok.inj (hstep.symm.trans hstep'))
      obtain rfl := Option.some.inj hstrs
      obtain ⟨R'', P'', hmore, hP⟩ := ih hwalk'
      exact ⟨R'', P'', hmore, by rw [hP, List.append_assoc]⟩

/-- Where a token ends, no walk goes on. -/
theorem Walk.stop (h : Walk quote itr R P itr₁) (hend : tokenStep quote itr = .ok (none, itr₂)) :
    P = [] := by
  cases h with
  | refl => rfl
  | step hstep =>
    rw [hstep] at hend
    cases hend

/-- Where something is stored, it is stored first. -/
theorem Walk.first {strs : List Bytes} {nxt : Utf8Iterator} (h : Walk quote itr R P itr₁)
    (hstep : tokenStep quote itr = .ok (some strs, nxt))
    (hstop : tokenStep quote itr₁ = .ok (none, itr₂)) : ∃ P', P = strs.flatten ++ P' := by
  cases h with
  | refl =>
    rw [hstep] at hstop
    cases hstop
  | step hstep' _ _ _ hwalk =>
    obtain ⟨hstrs, -⟩ := Prod.mk.inj (Except.ok.inj (hstep.symm.trans hstep'))
    obtain rfl := Option.some.inj hstrs
    exact ⟨_, rfl⟩

end Walks

/-! ## The words of a command -/

section Request

variable {iswprint : ℕ → Bool} {keyword rest tail : Bytes} {ts : List Utf8Text} {tb : DicoTokbuf}

/-- The words in front of something else. -/
theorem tokensLoop_wordsText (fuel argc : ℕ) (hrest : rest ≠ [])
    (hfit : tb.base.length ≤ tb.size) (ts : List Utf8Text) :
    ∃ tb', tokensLoop (fuel + ts.length) (pos 1 (wordsText (ts.map Utf8Text.quoted) ++ rest)) tb
        argc = tokensLoop fuel (pos 1 rest) tb' (argc + ts.length) ∧
      Grown tb (ts.flatMap (·.bytes ++ [0])) tb' := by
  induction ts generalizing tb argc with
  | nil => exact ⟨tb, rfl, .refl hfit⟩
  | cons t ts ih =>
    have hne : wordsText (ts.map Utf8Text.quoted) ++ rest ≠ [] :=
      List.append_ne_nil_of_right_ne_nil _ hrest
    obtain ⟨tb₁, hword, hgrown⟩ := tokensLoop_word (fuel + ts.length) argc (.inr rfl) hne hfit t
    obtain ⟨tb', hrun, hgrown'⟩ := ih (argc + 1) hgrown.fits
    refine ⟨tb', ?_, ?_⟩
    · rw [List.length_cons, ← Nat.add_assoc, ← Nat.add_assoc, Nat.add_right_comm argc, ← hrun,
        ← hword, wordsText, List.map_cons, List.flatMap_cons]
      simp only [wordsText, List.append_assoc, List.cons_append, List.nil_append]
    · rw [List.flatMap_cons]
      exact hgrown.trans hgrown'

/-- Words that arrive are quoted as `utf8_quote` does it. -/
theorem map_quotearg (h : ∀ t ∈ ts, ∀ wc ∈ t.codes, Arriving iswprint wc) :
    ts.map (Utf8Text.quotearg iswprint) = ts.map Utf8Text.quoted :=
  List.map_congr_left fun t ht => quotearg_arriving (h t ht)

/-- A keyword: letters, and other bytes that stand for themselves. -/
structure Keyword (keyword : Bytes) : Prop where
  literal : literal keyword = true
  ne_nil : keyword ≠ []
  null_notMem : 0 ∉ keyword
  plain : ∀ b ∈ keyword, ¬isWs b ∧ ¬isQuote b
  ascii : ∀ b ∈ keyword.head?, b < 0x80

/-- A keyword, byte by byte. -/
theorem keyword_cons {b : UInt8} {bs : Bytes} (hliteral : literal (b :: bs) = true)
    (hnull : 0 ∉ b :: bs)
    (hplain : ((b :: bs).all fun c => decide (¬isWs c ∧ ¬isQuote c)) = true)
    (hascii : b < 0x80) : Keyword (b :: bs) where
  literal := hliteral
  ne_nil := List.cons_ne_nil b bs
  null_notMem := hnull
  plain := List.all_iff_forall_prop.1 hplain
  ascii := by
    intro c hc
    obtain rfl := Option.some.inj hc
    exact hascii

/-- The keywords of the client. -/
theorem keyword_define : Keyword (ascii "DEFINE") :=
  keyword_cons (by decide) (by decide) (by decide) (by decide)

theorem keyword_match : Keyword (ascii "MATCH") :=
  keyword_cons (by decide) (by decide) (by decide) (by decide)

/-- The keyword and the words behind it that arrive, in front of something
else. -/
theorem tokensLoop_request (hkey : Keyword keyword) (fuel : ℕ) (r : Bytes) (ts : List Utf8Text)
    (hrest : rest = space :: r ∨ ts ≠ [] ∧ rest ≠ []) :
    ∃ itr tb, first (keyword ++ (wordsText (ts.map Utf8Text.quoted) ++ rest)) = .ok itr ∧
      tokensLoop (fuel + ts.length + 1) itr .begin 0 =
        tokensLoop fuel (pos 1 rest) tb (ts.length + 1) ∧
      Grown .begin ((keyword :: ts.map Utf8Text.bytes).flatMap (· ++ [0])) tb := by
  obtain ⟨r', hr'⟩ : ∃ r', wordsText (ts.map Utf8Text.quoted) ++ rest = space :: r' := by
    cases ts with
    | nil =>
      rcases hrest with rfl | ⟨h, -⟩
      · exact ⟨r, rfl⟩
      · exact absurd rfl h
    | cons t ts => exact ⟨_, rfl⟩
  have hne : rest ≠ [] := by
    rcases hrest with rfl | ⟨-, h⟩
    · exact List.cons_ne_nil _ _
    · exact h
  have hfit : DicoTokbuf.begin.base.length ≤ DicoTokbuf.begin.size := le_rfl
  obtain ⟨tb₁, hword, hgrown⟩ := tokensLoop_literal (fuel + ts.length) 0 r' (.inl rfl)
    hkey.literal hkey.ne_nil hkey.null_notMem hkey.plain hfit
  obtain ⟨tb, hrun, hgrown'⟩ := tokensLoop_wordsText fuel (0 + 1) hne hgrown.fits ts
  obtain ⟨b, q, hbq⟩ := List.exists_cons_of_ne_nil hkey.ne_nil
  refine ⟨pos 1 (keyword ++ (wordsText (ts.map Utf8Text.quoted) ++ rest)), tb, ?_, ?_, ?_⟩
  · rw [hbq, List.cons_append]
    exact first_ascii (hkey.ascii b (by rw [hbq]; rfl))
  · rw [hr'] at hrun ⊢
    rw [Nat.zero_add, Nat.add_comm 1] at hrun
    exact hword.trans hrun
  · rw [List.flatMap_cons, List.flatMap_map]
    exact hgrown.trans hgrown'

/-- The budget is enough for the words. -/
theorem length_lt_request (keyword : Bytes) (qs : List Bytes) (b : UInt8) (rest : Bytes) :
    qs.length < (keyword ++ (wordsText qs ++ b :: rest)).length := by
  have := length_le_words qs
  rw [List.length_append, List.length_append, List.length_cons, wordsText]
  omega

/-- Texts have no null in them. -/
theorem null_notMem_words (hkey : Keyword keyword) :
    ∀ s ∈ keyword :: ts.map Utf8Text.bytes, (0 : UInt8) ∉ s := by
  rw [List.forall_mem_cons]
  refine ⟨hkey.null_notMem, ?_⟩
  intro s hs
  obtain ⟨t, -, rfl⟩ := List.mem_map.1 hs
  rw [t.bytes_eq]
  exact fun h => ne_zero_of_mem_encode t.codes_codepoints h rfl

/-- **Words that arrive.** -/
theorem request_arrives (hkey : Keyword keyword) (hne : ts ≠ [])
    (h : ∀ t ∈ ts, ∀ wc ∈ t.codes, Arriving iswprint wc) (tail : Bytes) :
    lineTokens (requestText iswprint keyword ts ++ 0 :: tail) =
      .ok (keyword :: ts.map Utf8Text.bytes) := by
  have hline : requestText iswprint keyword ts ++ 0 :: tail =
      keyword ++ (wordsText (ts.map Utf8Text.quoted) ++ 0 :: tail) := by
    rw [requestText, map_quotearg h, List.append_assoc]
  have hlong := length_lt_request keyword (ts.map Utf8Text.quoted) 0 tail
  rw [List.length_map] at hlong
  obtain ⟨k, hk⟩ : ∃ k, (keyword ++ (wordsText (ts.map Utf8Text.quoted) ++ 0 :: tail)).length + 1 =
      k + 1 + ts.length + 1 :=
    ⟨(keyword ++ (wordsText (ts.map Utf8Text.quoted) ++ 0 :: tail)).length - ts.length - 1,
      by omega⟩
  obtain ⟨itr, tb, hfirst, hloop, hgrown⟩ := tokensLoop_request hkey (k + 1) [] ts
    (.inr ⟨hne, List.cons_ne_nil 0 tail⟩)
  have hend : tokensLoop (k + 1) (pos 1 (0 :: tail)) tb (ts.length + 1) =
      .ok (tb, ts.length + 1) := tokensLoop_end (.inl rfl)
  have hcount : (keyword :: ts.map Utf8Text.bytes).length + 0 = ts.length + 1 := by
    rw [Nat.add_zero, List.length_cons, List.length_map]
  have hnull : ∀ s ∈ keyword :: ts.map Utf8Text.bytes, (0 : UInt8) ∉ s :=
    null_notMem_words hkey
  have hstrings := stringsIn_flatMap hnull 0 []
  rw [hcount, List.append_nil, stringsIn, List.append_nil] at hstrings
  rw [hline, lineTokens, tokenized, hfirst, ok_bind, hk, hloop, hend, ok_bind,
    ok_bind]
  dsimp only
  rw [hgrown.base]
  exact congrArg Except.ok hstrings

/-- The first member of a list that fails. -/
theorem exists_first_failing {α : Type} {p : α → Prop} {l : List α} (h : ¬∀ a ∈ l, p a) :
    ∃ good a more, l = good ++ a :: more ∧ (∀ b ∈ good, p b) ∧ ¬p a := by
  induction l with
  | nil => exact absurd (List.forall_mem_nil _) h
  | cons a l ih =>
    by_cases ha : p a
    · obtain ⟨good, b, more, rfl, hgood, hb⟩ := ih fun hl => h (List.forall_mem_cons.2 ⟨ha, hl⟩)
      exact ⟨a :: good, b, more, rfl, List.forall_mem_cons.2 ⟨ha, hgood⟩, hb⟩
    · exact ⟨[], a, l, rfl, List.forall_mem_nil _, ha⟩

/-- **The first character that does not arrive ends its word** for the
tokenizer, whatever is behind it. -/
theorem token_spoiled {us : List ℕ} {wc : ℕ} (hus : ∀ u ∈ us, 1 ≤ u ∧ u < 0x110000)
    (harrive : ∀ u ∈ us, Arriving iswprint u) (hwc : ¬Arriving iswprint wc) (hrest : rest ≠ [])
    {R P : Bytes} {itr itr' : Utf8Iterator}
    (hwalk : Walk doubleQuote
      (pos 1 (us.flatMap (quoteargChar iswprint) ++ (quoteargChar iswprint wc ++ rest))) R P itr)
    (hstop : tokenStep doubleQuote itr = .ok (none, itr')) :
    ∃ more, P ++ [0] = us.flatMap encode ++ 0 :: more := by
  rw [quotearg_arriving harrive] at hwalk
  rcases quoteargChar_spoiled hwc with hquote | ⟨b, r, hslash, hb, h₀, hnull⟩
  · -- the quote ends the token
    rw [hquote, List.singleton_append] at hwalk
    obtain ⟨R', P', hmore, rfl⟩ := (walk_quoted hus 1).behind hwalk hstop
    obtain rfl := hmore.stop (tokenStep_quote (by decide) (by decide) hrest)
    exact ⟨[], by rw [List.append_nil]⟩
  · -- a null is stored
    rw [hslash, List.cons_append, List.cons_append] at hwalk
    obtain ⟨R', P', hmore, rfl⟩ :=
      (walk_quoted_ascii (show backslash < 0x80 by decide) hus 1).behind hwalk hstop
    have hstep := tokenStep_escape 1 (show doubleQuote ≠ backslash by decide) hb h₀
      (List.append_ne_nil_of_right_ne_nil r hrest)
    obtain ⟨P'', rfl⟩ := hmore.first hstep hstop
    refine ⟨P'' ++ [0], ?_⟩
    rw [hnull, List.flatten_singleton]
    simp only [List.append_assoc, List.cons_append, List.nil_append]

/-- Words that do not arrive. -/
theorem arrive_of_request (hkey : Keyword keyword)
    (h : lineTokens (requestText iswprint keyword ts ++ 0 :: tail) =
      .ok (keyword :: ts.map Utf8Text.bytes)) :
    ∀ t ∈ ts, ∀ wc ∈ t.codes, Arriving iswprint wc := by
  by_contra hbad
  obtain ⟨good, t, more, rfl, hgood, ht⟩ := exists_first_failing hbad
  obtain ⟨us, wc, vs, hcodes, hus, hwc⟩ := exists_first_failing ht
  -- the line up to the character
  let behind := wordsText (more.map (Utf8Text.quotearg iswprint)) ++ 0 :: tail
  let rest := vs.flatMap (quoteargChar iswprint) ++ doubleQuote :: behind
  let text := us.flatMap (quoteargChar iswprint) ++ (quoteargChar iswprint wc ++ rest)
  have hrest : rest ≠ [] := List.append_ne_nil_of_right_ne_nil _ (List.cons_ne_nil _ _)
  have htext : text ≠ [] :=
    List.append_ne_nil_of_right_ne_nil _ (List.append_ne_nil_of_right_ne_nil _ hrest)
  have hline : requestText iswprint keyword (good ++ t :: more) ++ 0 :: tail =
      keyword ++ (wordsText (good.map Utf8Text.quoted) ++ space :: doubleQuote :: text) := by
    rw [requestText, List.map_append, map_quotearg hgood, wordsText, List.flatMap_append,
      List.map_cons, List.flatMap_cons, Utf8Text.quotearg, hcodes, List.flatMap_append,
      List.flatMap_cons]
    simp only [text, rest, behind, wordsText, List.append_assoc, List.cons_append,
      List.nil_append]
  have hlong := length_lt_request keyword (good.map Utf8Text.quoted) space (doubleQuote :: text)
  rw [List.length_map] at hlong
  obtain ⟨k, hk⟩ : ∃ k, (keyword ++ (wordsText (good.map Utf8Text.quoted) ++
      space :: doubleQuote :: text)).length + 1 = k + 1 + good.length + 1 :=
    ⟨(keyword ++ (wordsText (good.map Utf8Text.quoted) ++
      space :: doubleQuote :: text)).length - good.length - 1, by omega⟩
  obtain ⟨itr, tb, hfirst, hloop, hgrown⟩ :=
    tokensLoop_request hkey (k + 1) (doubleQuote :: text) good (.inl rfl)
  rw [hline] at h
  obtain ⟨⟨x, n⟩, htok, h⟩ := bind_eq_ok.1 h
  have hstrings : stringsIn n x = keyword :: (good ++ t :: more).map Utf8Text.bytes :=
    Except.ok.inj h
  rw [tokenized, hfirst, ok_bind, hk, hloop] at htok
  obtain ⟨⟨tb', argc⟩, hrun, htok⟩ := bind_eq_ok.1 htok
  obtain ⟨rfl, rfl⟩ := Prod.mk.inj (Except.ok.inj htok)
  rw [show space :: doubleQuote :: text = [space] ++ doubleQuote :: text from rfl,
    tokensLoop_quoted (.inr rfl) htext] at hrun
  obtain ⟨R, P, itr₁, itr₂, tb₁, Q, hwalk, -, hstop, hgrown₁, hgrown₂, hargc, -⟩ :=
    walk_of_tokensLoop htext hgrown.fits hrun
  -- the word as it is found
  have hrange : ∀ u ∈ us, 1 ≤ u ∧ u < 0x110000 := fun u hu =>
    t.codes_range (hcodes ▸ List.mem_append_left _ hu)
  obtain ⟨junk, hP⟩ := token_spoiled hrange hus hwc hrest hwalk hstop
  have hbase : tb'.base = (keyword :: good.map Utf8Text.bytes ++ [us.flatMap encode]).flatMap
      (· ++ [0]) ++ (junk ++ Q) := by
    rw [hgrown₂.base, hgrown₁.base, hgrown.base, hP, List.flatMap_append, List.flatMap_singleton]
    simp only [DicoTokbuf.begin, List.append_assoc, List.cons_append, List.nil_append]
  have hnull : ∀ s ∈ keyword :: good.map Utf8Text.bytes ++ [us.flatMap encode],
      (0 : UInt8) ∉ s := by
    intro s hs
    rcases List.mem_append.1 hs with hs | hs
    · exact null_notMem_words hkey s hs
    · rw [List.mem_singleton.1 hs]
      exact fun h₀ => ne_zero_of_mem_encode
        (fun u hu => ⟨(hrange u hu).1, by have := (hrange u hu).2; omega⟩) h₀ rfl
  obtain ⟨m, rfl⟩ : ∃ m, argc = (keyword :: good.map Utf8Text.bytes ++
      [us.flatMap encode]).length + m := by
    refine ⟨argc - (good.length + 2), ?_⟩
    rw [List.length_append, List.length_cons, List.length_map, List.length_singleton]
    omega
  rw [hbase, stringsIn_flatMap hnull, List.map_append, List.map_cons, List.append_assoc,
    List.cons_append] at hstrings
  have hword := (List.cons.inj (List.append_cancel_left (List.cons.inj hstrings).2)).1
  -- it is shorter than the one that was sent
  have hlen := congrArg List.length hword
  have hpos := List.length_pos_of_ne_nil (Utf8.encode_ne_nil wc)
  rw [t.bytes_eq, hcodes, List.flatMap_append, List.flatMap_cons, List.length_append,
    List.length_append] at hlen
  omega

/-- **Words arrive exactly where every character of theirs does.** A client
sends a keyword and any words of UTF-8 text, in double quotes and quoted by
`quotearg_n`. The server cuts the line into the keyword and the words if and
only if none of them has a double quote, a control character or a character
that is not printable. -/
theorem request_read_iff {keyword : Bytes} (hkey : Keyword keyword) (iswprint : ℕ → Bool)
    (t : Utf8Text) (ts : List Utf8Text) (tail : Bytes) :
    lineTokens (requestText iswprint keyword (t :: ts) ++ 0 :: tail) =
        .ok (keyword :: (t :: ts).map Utf8Text.bytes) ↔
      ∀ u ∈ t :: ts, ∀ wc ∈ u.codes, Arriving iswprint wc :=
  ⟨arrive_of_request hkey, fun h => request_arrives hkey (List.cons_ne_nil t ts) h tail⟩

end Request

/-- The characters that are printable in ASCII. -/
def printable (wc : ℕ) : Bool := 32 ≤ wc && wc < 127

/-- Inches cannot be looked up. -/
theorem request_read_iff_inch :
    lineTokens (requestText printable (ascii "DEFINE")
        [⟨"units".toList, by decide⟩, ⟨"3\"".toList, by decide⟩] ++ 0 :: []) ≠
      .ok [ascii "DEFINE", ascii "units", ascii "3\""] := by
  intro h
  have harrive := (request_read_iff keyword_define printable ⟨"units".toList, by decide⟩
    [⟨"3\"".toList, by decide⟩] []).1 h
  exact absurd (harrive _ (List.mem_cons_of_mem _ List.mem_cons_self) 34 (by decide)) (by decide)

end Dico
