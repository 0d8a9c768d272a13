import Dico.Text.Tokens
/-!
# Quoted words are tokens

`utf8_quote` puts a backslash before every quote and every backslash, on
decoded code points; the tokenizer takes it off again, on bytes. A line of
words quoted this way, in double quotes, comes apart into the words.
-/

namespace Dico

open Utf8 (encode)
open Utf8Iterator

/-- Words in double quotes, with a space between them. -/
def quotedLine : List Bytes → Bytes
  | [] => []
  | [q] => doubleQuote :: (q ++ [doubleQuote])
  | q :: qs => doubleQuote :: (q ++ doubleQuote :: space :: quotedLine qs)

/-- The bytes of a text after quoting. -/
def Utf8Text.quoted (t : Utf8Text) : Bytes := (utf8WcQuote t.codes).flatMap encode

/-- Quoting adds nothing but backslashes. -/
theorem mem_utf8WcQuote {ws : List ℕ} {wc : ℕ} (h : wc ∈ utf8WcQuote ws) : wc ∈ ws ∨ wc = 92 := by
  obtain ⟨c, hc, hwc⟩ := List.mem_flatMap.1 h
  split_ifs at hwc
  · simp only [List.mem_cons, List.not_mem_nil, or_false] at hwc
    rcases hwc with rfl | rfl
    · exact .inr rfl
    · exact .inl hc
  · rw [List.mem_singleton.1 hwc]
    exact .inl hc

/-- `utf8_quote` on a text. -/
theorem Utf8Text.utf8Quote_bytes (t : Utf8Text) : utf8Quote t.bytes = some t.quoted := by
  have hlt : ∀ wc ∈ utf8WcQuote t.codes, wc < 0x200000 := by
    intro wc hwc
    rcases mem_utf8WcQuote hwc with h | rfl
    · exact (t.codes_codepoints wc h).2
    · decide
  rw [utf8Quote, t.utf8MbstrToWc_bytes]
  exact utf8WcToMbstr_eq hlt

section Walk

variable {ws : List ℕ} {wc : ℕ} {r : Bytes}

/-- An iterator at a character. -/
theorem pos_encode {w : ℕ} (hwc : wc < 0x110000) :
    pos w (encode wc ++ r) = ⟨encode wc ++ r, (encode wc).length⟩ := by
  have hw := utf8CharWidth_encode hwc r
  have hpos := List.length_pos_of_ne_nil (Utf8.encode_ne_nil wc)
  rw [pos, widthAt, hw, if_neg (by omega)]

/-- A byte is not the character of another code point. -/
theorem ofNat_ne_ofNat {x : ℕ} (hwc : wc < 256) (hx : x < 256) (hne : wc ≠ x) :
    UInt8.ofNat wc ≠ UInt8.ofNat x := by
  intro heq
  have := congrArg UInt8.toNat heq
  rw [Utf8.toNat_ofNat hwc, Utf8.toNat_ofNat hx] at this
  exact hne this

/-- A character that is not special is copied. -/
theorem tokenStep_encode {quote : ℕ} (hquote : quote < 256) (hwc : 1 ≤ wc ∧ wc < 0x110000)
    (h₁ : wc ≠ 92) (h₂ : wc ≠ quote) (h₃ : quote = 0 → wc ≠ 32 ∧ wc ≠ 9) (hr : r ≠ []) (w : ℕ) :
    tokenStep (UInt8.ofNat quote) (pos w (encode wc ++ r)) =
      .ok (some [encode wc], pos (encode wc).length r) := by
  rw [pos_encode hwc.2]
  obtain ⟨b, q, hbq⟩ := List.exists_cons_of_ne_nil (Utf8.encode_ne_nil wc)
  have hchar : (⟨encode wc ++ r, (encode wc).length⟩ : Utf8Iterator).char = b := by
    rw [char, hbq]
    rfl
  have hb : b ≠ 0 := Utf8.ne_zero_of_mem_encode hwc.1 (by omega) (hbq ▸ List.mem_cons_self)
  have hcopy := tokenStep_copy (UInt8.ofNat quote) ⟨encode wc ++ r, (encode wc).length⟩
    (by rw [endP, hchar]; exact hb)
    (by
      rintro ⟨hlen, -⟩
      have hlt := Utf8.lt_of_length_encode hlen
      rw [Utf8.encode_one hlt] at hbq
      obtain ⟨rfl, -⟩ := List.cons.inj hbq
      rw [hchar]
      refine ⟨ofNat_ne_ofNat (by omega) hquote h₂, ofNat_ne_ofNat (by omega) (by decide) h₁, ?_⟩
      rintro ⟨hq, hws⟩
      have hzero : quote = 0 := by
        by_contra hne
        exact ofNat_ne_ofNat hquote (by decide) hne hq
      rcases hws with hws | hws
      · exact ofNat_ne_ofNat (by omega) (by decide) (h₃ hzero).1 hws
      · exact ofNat_ne_ofNat (by omega) (by decide) (h₃ hzero).2 hws)
    (by rw [List.drop_left]; exact hr)
  rw [List.take_left, List.drop_left] at hcopy
  exact hcopy

/-- The tokenizer undoes the quoting up to an ASCII character. -/
theorem walk_quoted_ascii {d : UInt8} (hd : d < 0x80) (h : ∀ wc ∈ ws, 1 ≤ wc ∧ wc < 0x110000)
    (w : ℕ) :
    Walk doubleQuote (pos w ((utf8WcQuote ws).flatMap encode ++ d :: r))
      ((utf8WcQuote ws).flatMap encode) (ws.flatMap encode) (pos 1 (d :: r)) := by
  induction ws generalizing w with
  | nil =>
    change Walk doubleQuote (pos w (d :: r)) [] [] (pos 1 (d :: r))
    rw [pos_ascii hd]
    exact .refl _
  | cons wc ws ih =>
    obtain ⟨hwc, hws⟩ := List.forall_mem_cons.1 h
    have hne : (utf8WcQuote ws).flatMap encode ++ d :: r ≠ [] :=
      List.append_ne_nil_of_right_ne_nil _ (List.cons_ne_nil _ _)
    by_cases hspecial : wc = 92 ∨ wc = 34
    · -- the backslash and the character behind it go for the character
      have hq : utf8WcQuote (wc :: ws) = [92, wc] ++ utf8WcQuote ws := by
        rw [utf8WcQuote, List.flatMap_cons, if_pos hspecial]
        rfl
      have hone : encode wc = [UInt8.ofNat wc] := by
        rcases hspecial with rfl | rfl
        · rfl
        · rfl
      have hchar : UInt8.ofNat wc < 0x80 ∧ UInt8.ofNat wc ≠ 0 ∧
          dicoQuoteChar (UInt8.ofNat wc) = UInt8.ofNat wc := by
        rcases hspecial with rfl | rfl
        · decide
        · decide
      have hstep :=
        tokenStep_escape w (show doubleQuote ≠ backslash by decide) hchar.1 hchar.2.1 hne
      rw [hchar.2.2] at hstep
      have hwalk := Walk.step hstep (r := [backslash, UInt8.ofNat wc]) rfl
        (List.cons_ne_nil _ _)
        (by
          have := Taken.escaped (UInt8.ofNat wc) hchar.2.1
          rwa [hchar.2.2] at this) (ih hws 1)
      have hbytes : [92, wc].flatMap encode = [backslash, UInt8.ofNat wc] := by
        rw [List.flatMap_cons, List.flatMap_singleton, hone]
        rfl
      rw [hq, List.flatMap_append, hbytes, List.flatMap_cons, hone]
      exact hwalk
    · rw [not_or] at hspecial
      have hq : utf8WcQuote (wc :: ws) = [wc] ++ utf8WcQuote ws := by
        rw [utf8WcQuote, List.flatMap_cons, if_neg (not_or.2 hspecial)]
        rfl
      have hstep := tokenStep_encode (show 34 < 256 by decide) hwc hspecial.1 hspecial.2
        (fun h => absurd h (by decide)) hne w
      have hwalk := Walk.step hstep (r := encode wc) rfl (Utf8.encode_ne_nil wc)
        (by
          rw [List.flatten_singleton]
          exact .copied _) (ih hws _)
      rw [hq, List.flatMap_append, List.flatMap_singleton, List.append_assoc, List.flatMap_cons]
      rw [List.flatten_singleton] at hwalk
      exact hwalk

/-- **The tokenizer undoes the quoting.** -/
theorem walk_quoted (h : ∀ wc ∈ ws, 1 ≤ wc ∧ wc < 0x110000) (w : ℕ) :
    Walk doubleQuote (pos w ((utf8WcQuote ws).flatMap encode ++ doubleQuote :: r))
      ((utf8WcQuote ws).flatMap encode) (ws.flatMap encode) (pos 1 (doubleQuote :: r)) :=
  walk_quoted_ascii (by decide) h w

end Walk

section Words

variable {tb : DicoTokbuf} {fuel argc : ℕ}

/-- A quoted word is taken for the word. -/
theorem tokensLoop_word (fuel argc : ℕ) {lead rest : Bytes} (hlead : lead = [] ∨ lead = [space])
    (hrest : rest ≠ []) (hfit : tb.base.length ≤ tb.size) (t : Utf8Text) :
    ∃ tb', tokensLoop (fuel + 1) (pos 1 (lead ++ doubleQuote :: (t.quoted ++ doubleQuote :: rest)))
        tb argc = tokensLoop fuel (pos 1 rest) tb' (argc + 1) ∧ Grown tb (t.bytes ++ [0]) tb' := by
  have hwalk := walk_quoted (r := rest) (fun _ => t.codes_range) 1
  rw [← t.bytes_eq] at hwalk
  exact tokensLoop_of_walk fuel argc hlead hrest hfit hwalk

/-- The words behind the first one. -/
theorem tokensLoop_words (words : List Utf8Text) (tail : Bytes) (argc : ℕ)
    (hfuel : words.length < fuel)
    (hfit : tb.base.length ≤ tb.size) :
    ∃ tb', tokensLoop fuel (pos 1 ((words.flatMap fun t =>
          space :: doubleQuote :: (t.quoted ++ [doubleQuote])) ++ 0 :: tail)) tb argc =
        .ok (tb', argc + words.length) ∧ Grown tb (words.flatMap (·.bytes ++ [0])) tb' := by
  induction words generalizing tb argc fuel with
  | nil =>
    obtain ⟨fuel, rfl⟩ : ∃ k, fuel = k + 1 := ⟨fuel - 1, by omega⟩
    exact ⟨tb, tokensLoop_end (.inl rfl), .refl hfit⟩
  | cons t words ih =>
    rw [List.length_cons] at hfuel
    obtain ⟨fuel, rfl⟩ : ∃ k, fuel = k + 1 := ⟨fuel - 1, by omega⟩
    have hne : (words.flatMap fun t => space :: doubleQuote :: (t.quoted ++ [doubleQuote])) ++
        0 :: tail ≠ [] := List.append_ne_nil_of_right_ne_nil _ (List.cons_ne_nil _ _)
    obtain ⟨tb₁, hword, hgrown⟩ := tokensLoop_word fuel argc (.inr rfl) hne hfit t
    obtain ⟨tb', hrun, hgrown'⟩ := ih (argc + 1) (show words.length < fuel by omega) hgrown.fits
    refine ⟨tb', ?_, ?_⟩
    · rw [List.flatMap_cons, List.length_cons, ← Nat.add_assoc, Nat.add_right_comm, ← hrun,
        ← hword]
      simp only [List.append_assoc, List.cons_append, List.nil_append]
    · rw [List.flatMap_cons]
      exact hgrown.trans hgrown'

/-- The line of some words, the first of them apart. -/
theorem quotedLine_cons (q : Bytes) (qs : List Bytes) :
    quotedLine (q :: qs) = doubleQuote :: (q ++ doubleQuote :: qs.flatMap fun q =>
      space :: doubleQuote :: (q ++ [doubleQuote])) := by
  induction qs generalizing q with
  | nil => rfl
  | cons u qs ih =>
    rw [quotedLine, ih, List.flatMap_cons]
    · simp only [List.append_assoc, List.cons_append, List.nil_append]
    · exact List.cons_ne_nil u qs

/-- The budget is enough for the words. -/
theorem length_le_words (qs : List Bytes) :
    qs.length ≤ (qs.flatMap fun q => space :: doubleQuote :: (q ++ [doubleQuote])).length := by
  induction qs with
  | nil => exact le_rfl
  | cons q qs ih =>
    rw [List.flatMap_cons, List.length_append, List.length_cons, List.length_cons]
    omega

/-- The tokens of a line of quoted words. -/
theorem tokensLoop_quotedLine (words : List Utf8Text) (tail : Bytes) :
    ∃ itr tb', first (quotedLine (words.map Utf8Text.quoted) ++ 0 :: tail) = .ok itr ∧
      tokensLoop ((quotedLine (words.map Utf8Text.quoted) ++ 0 :: tail).length + 1) itr .begin 0 =
        .ok (tb', words.length) ∧ Grown .begin (words.flatMap (·.bytes ++ [0])) tb' := by
  cases words with
  | nil =>
    exact ⟨pos 1 (0 :: tail), .begin, first_ascii (by decide), tokensLoop_end (.inl rfl),
      .refl le_rfl⟩
  | cons t words =>
    let more := (words.flatMap fun t => space :: doubleQuote :: (t.quoted ++ [doubleQuote])) ++
      0 :: tail
    have hline : quotedLine ((t :: words).map Utf8Text.quoted) ++ 0 :: tail =
        [] ++ doubleQuote :: (t.quoted ++ doubleQuote :: more) := by
      rw [List.map_cons, quotedLine_cons, List.flatMap_map]
      simp only [more, List.append_assoc, List.cons_append, List.nil_append]
    have hlen : words.length < (quotedLine ((t :: words).map Utf8Text.quoted) ++
        0 :: tail).length := by
      have hle := length_le_words (words.map Utf8Text.quoted)
      rw [List.length_map, List.flatMap_map] at hle
      rw [hline]
      simp only [more, List.nil_append, List.length_cons, List.length_append] at hle ⊢
      omega
    have hne : more ≠ [] := List.append_ne_nil_of_right_ne_nil _ (List.cons_ne_nil _ _)
    have hfit : DicoTokbuf.begin.base.length ≤ DicoTokbuf.begin.size := le_rfl
    obtain ⟨tb₁, hword, hgrown⟩ := tokensLoop_word
      (quotedLine ((t :: words).map Utf8Text.quoted) ++ 0 :: tail).length 0 (.inl rfl) hne hfit t
    obtain ⟨tb', hrun, hgrown'⟩ := tokensLoop_words words tail (0 + 1) hlen hgrown.fits
    refine ⟨_, tb', ?_, (hword.trans hrun).trans ?_, ?_⟩
    · rw [hline]
      exact first_ascii (by decide)
    · rw [Nat.zero_add, List.length_cons, Nat.add_comm]
    · rw [List.flatMap_cons]
      exact hgrown.trans hgrown'

/-- **Quoting and tokenizing.** A line of quoted words comes apart into
exactly those words, whatever is in memory behind it. -/
theorem tokenize_quotedLine (words : List Utf8Text) (tail : Bytes) :
    ∃ qs tb, words.mapM (fun t => utf8Quote t.bytes) = some qs ∧
      dicoTokenizeString .begin (quotedLine qs ++ 0 :: tail) = .ok tb ∧
      tb.tokv.map tb.deref = words.map fun t => .ok t.bytes := by
  have hqs : words.mapM (fun t => utf8Quote t.bytes) = some (words.map Utf8Text.quoted) := by
    simp only [Utf8Text.utf8Quote_bytes]
    exact List.mapM_pure
  obtain ⟨itr, tb', hfirst, hloop, hgrown⟩ := tokensLoop_quotedLine words tail
  refine ⟨_, _, hqs, dicoTokenizeString_eq hfirst hloop, ?_⟩
  have hnull : ∀ s ∈ words.map Utf8Text.bytes, (0 : UInt8) ∉ s := by
    intro s hs
    obtain ⟨t, -, rfl⟩ := List.mem_map.1 hs
    rw [t.bytes_eq]
    exact fun h => ne_zero_of_mem_encode t.codes_codepoints h rfl
  have hbase : tb'.base.drop 0 = (words.map Utf8Text.bytes).flatMap (· ++ [0]) ++ [] := by
    rw [List.drop_zero, hgrown.base, List.flatMap_map, List.append_nil]
    rfl
  have hptr := map_deref_pointers hnull hbase
  rw [List.length_map, List.map_map] at hptr
  rw [hgrown.tokv]
  exact hptr

end Words

end Dico
