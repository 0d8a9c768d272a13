import Dico.Reply.Client
import Dico.Session.Lookup
import Dico.Text.Cleared
import Dico.Text.Literal
/-!
# The client reads the line of a definition

`print_definitions` puts the word, the name and the description of the
database into a status line without quoting them, and `_result_parse_def`
tokenizes the line, with `xdico_tokenize_string` and one token buffer for
all lines. So it does not matter what the buffer held before
(`lineRead_iff_tokens`): a line is read back exactly when its three texts
stand for themselves (`lineRead_iff`).
-/

namespace Dico

open Utf8Iterator

/-- The status line of a definition. -/
def statusLine (word name descr : Bytes) : Bytes :=
  ascii "151 \"" ++ word ++ ascii "\" " ++ name ++ ascii " \"" ++ descr ++ ascii "\"\n"

/-- It is what `print_definitions` writes for each. -/
theorem printDefinitions_eq (word : Bytes) (db : Database) (res : DbResult) :
    printDefinitions word db res = (List.range res.count).flatMap fun i =>
      [.write (statusLine word db.name ((dicodGetDatabaseDescr db).getD [])),
        .ostreamCreate (definitionHeaders db res), .put (res.output i), .ostreamClose,
        .write (ascii "\n.\n")] := rfl

/-- `struct define_result`. -/
structure DefineResult where
  word : Bytes
  database : Bytes
  descr : Bytes
  defn : Bytes
  nlines : ℕ
  deriving DecidableEq

/-- `count_lines`. -/
def countLines (p : Bytes) : ℕ := p.count newline

/-- A definition as the server sends it. -/
structure Definition where
  word : Bytes
  name : Bytes
  descr : Bytes
  text : Bytes
  word_null : 0 ∉ word
  name_null : 0 ∉ name
  name_ne_nil : name ≠ []
  name_plain : ∀ b ∈ name, ¬ isWs b ∧ ¬ isQuote b
  descr_null : 0 ∉ descr
  descr_newline : newline ∉ descr
  text_null : 0 ∉ text

namespace Definition

variable (d : Definition)

/-- The line the client holds. -/
def line : Bytes := lineHeld (statusLine d.word d.name d.descr)

/-- The record the client should make of it. -/
def result : DefineResult := ⟨d.word, d.name, d.descr, d.text, countLines d.text⟩

/-- The texts of the line stand for themselves. -/
def Faithful : Prop :=
  newline ∉ d.word ∧ newline ∉ d.name ∧ literal d.word = true ∧ literal d.name = true ∧
    literal d.descr = true

instance : Decidable d.Faithful := inferInstanceAs (Decidable (_ ∧ _))

/-- The tokens of the line. -/
def tokens : List Bytes := [ascii "151", d.word, d.name, d.descr]

/-- No token has a null in it. -/
theorem null_notMem_tokens : ∀ t ∈ d.tokens, (0 : UInt8) ∉ t := by
  intro t ht
  simp only [tokens, List.mem_cons, List.not_mem_nil, or_false] at ht
  rcases ht with rfl | rfl | rfl | rfl
  · decide
  · exact d.word_null
  · exact d.name_null
  · exact d.descr_null

end Definition

/-- The memory `_result_parse_def` is given. -/
def replyBase (ds : List Definition) : Bytes := ds.flatMap fun d => d.line ++ 0 :: d.text ++ [0]

/-! ## The line -/

section Line

variable (d : Definition)

/-- The status code and the quote before the word. -/
def lineHead : Bytes := [49, 53, 49, space, doubleQuote]

/-- The status line, byte by byte. -/
theorem statusLine_eq (word name descr : Bytes) :
    statusLine word name descr = lineHead ++ (word ++ doubleQuote :: space ::
      (name ++ space :: doubleQuote :: (descr ++ doubleQuote :: [newline]))) := by
  rw [statusLine, show ascii "151 \"" = lineHead by decide,
    show ascii "\" " = [doubleQuote, space] by decide,
    show ascii " \"" = [space, doubleQuote] by decide,
    show ascii "\"\n" = [doubleQuote, newline] by decide]
  simp only [List.append_assoc, List.cons_append, List.nil_append]

/-- The line that is held, where no text breaks it. -/
theorem line_eq (hw : newline ∉ d.word) (hn : newline ∉ d.name) :
    d.line = lineHead ++ (d.word ++ doubleQuote :: space ::
      (d.name ++ space :: doubleQuote :: (d.descr ++ [doubleQuote]))) := by
  have hsplit : statusLine d.word d.name d.descr =
      (lineHead ++ (d.word ++ doubleQuote :: space ::
        (d.name ++ space :: doubleQuote :: d.descr))) ++ doubleQuote :: ([] ++ newline :: []) := by
    rw [statusLine_eq]
    simp only [List.append_assoc, List.cons_append, List.nil_append]
  have hne : newline ∉ lineHead ++ (d.word ++ doubleQuote :: space ::
      (d.name ++ space :: doubleQuote :: d.descr)) := by
    simp only [List.mem_append, List.mem_cons, not_or]
    exact ⟨by decide, hw, by decide, by decide, hn, by decide, by decide, d.descr_newline⟩
  rw [Definition.line, hsplit, lineHeld_append hne (by decide) List.not_mem_nil]
  simp only [List.append_assoc, List.cons_append, trimNl, List.rdropWhile_nil]

/-- It in the block of the reply. -/
theorem line_append (hw : newline ∉ d.word) (hn : newline ∉ d.name) (tail : Bytes) :
    d.line ++ 0 :: tail = lineHead ++ (d.word ++ doubleQuote :: ([space] ++ (d.name ++
      space :: doubleQuote :: (d.descr ++ doubleQuote :: 0 :: tail)))) := by
  rw [line_eq d hw hn]
  simp only [List.append_assoc, List.cons_append, List.nil_append]

/-- The line that is held, where the word breaks it. -/
theorem line_of_word {u x : Bytes} (hw : d.word = u ++ newline :: x) (hu : newline ∉ u) :
    d.line = lineHead ++ trimNl u := by
  have hsplit : statusLine d.word d.name d.descr =
      [49, 53, 49, space] ++ doubleQuote :: (u ++ newline :: (x ++ doubleQuote :: space ::
        (d.name ++ space :: doubleQuote :: (d.descr ++ doubleQuote :: [newline])))) := by
    rw [statusLine_eq, hw]
    simp only [lineHead, List.append_assoc, List.cons_append, List.nil_append]
  rw [Definition.line, hsplit, lineHeld_append (by decide) (by decide) hu]
  rfl

/-- And where the name does. -/
theorem line_of_name {u x : Bytes} (hw : newline ∉ d.word) (hn : d.name = u ++ newline :: x)
    (hu : newline ∉ u) :
    d.line = lineHead ++ (d.word ++ doubleQuote :: space :: trimNl u) := by
  have hsplit : statusLine d.word d.name d.descr =
      (lineHead ++ (d.word ++ [doubleQuote])) ++ space :: (u ++ newline :: (x ++ space ::
        doubleQuote :: (d.descr ++ doubleQuote :: [newline]))) := by
    rw [statusLine_eq, hn]
    simp only [List.append_assoc, List.cons_append, List.nil_append]
  have hne : newline ∉ lineHead ++ (d.word ++ [doubleQuote]) := by
    simp only [List.mem_append, List.mem_singleton, not_or]
    exact ⟨by decide, hw, by decide⟩
  rw [Definition.line, hsplit, lineHeld_append hne (by decide) hu]
  simp only [List.append_assoc, List.cons_append, List.nil_append]

/-- A line that begins with the status code. -/
theorem first_lineHead (r : Bytes) : first (lineHead ++ r) = .ok (pos 1 (lineHead ++ r)) :=
  first_ascii (b := 49) (by decide)

/-- There is budget for five tokens. -/
theorem length_lineHead (r : Bytes) : ∃ k, (lineHead ++ r).length + 1 = k + 5 := by
  refine ⟨r.length + 1, ?_⟩
  rw [List.length_append]
  change 5 + r.length + 1 = r.length + 1 + 5
  omega

/-- The status code is the first token. -/
theorem tokensLoop_lineHead {tb : DicoTokbuf} (fuel : ℕ) (hfit : tb.base.length ≤ tb.size)
    (r : Bytes) :
    ∃ tb', tokensLoop (fuel + 1) (pos 1 (lineHead ++ r)) tb 0 =
        tokensLoop fuel (pos 1 ([space] ++ doubleQuote :: r)) tb' 1 ∧
      Grown tb (ascii "151" ++ [0]) tb' :=
  tokensLoop_literal fuel 0 (doubleQuote :: r) (.inl rfl) (v := ascii "151") (by decide)
    (by decide) (by decide) (forall_mem_of_all (by decide)) hfit

/-- **A line whose texts stand for themselves** comes apart into them. -/
theorem tokenize_line (tb : DicoTokbuf) (hd : d.Faithful) (hfit : tb.base.length ≤ tb.size)
    (tail : Bytes) :
    ∃ tb₁, Grown tb (d.tokens.flatMap (· ++ [0])) tb₁ ∧
      dicoTokenizeString tb (d.line ++ 0 :: tail) =
        .ok { tb₁ with tokv := tb₁.tokv ++ tb₁.pointers 4 tb.base.length } := by
  obtain ⟨hwn, hnn, hw, hn, hdescr⟩ := hd
  rw [line_append d hwn hnn tail]
  obtain ⟨k, hk⟩ := length_lineHead (d.word ++ doubleQuote :: ([space] ++ (d.name ++
      space :: doubleQuote :: (d.descr ++ doubleQuote :: 0 :: tail))))
  obtain ⟨tb₁, hrun₁, hg₁⟩ := tokensLoop_lineHead (k + 4) hfit
    (d.word ++ doubleQuote :: ([space] ++ (d.name ++
      space :: doubleQuote :: (d.descr ++ doubleQuote :: 0 :: tail))))
  have hrest : [space] ++ (d.name ++ space :: doubleQuote :: (d.descr ++
      doubleQuote :: 0 :: tail)) ≠ [] := List.cons_ne_nil _ _
  obtain ⟨tb₂, hrun₂, hg₂⟩ := tokensLoop_of_walk (k + 3) 1 (.inr rfl) hrest hg₁.fits
    (walk_of_literal _ hw (.inl rfl) d.word_null (by decide))
  obtain ⟨tb₃, hrun₃, hg₃⟩ := tokensLoop_literal (k + 2) (1 + 1)
    (doubleQuote :: (d.descr ++ doubleQuote :: 0 :: tail)) (.inr rfl) hn d.name_ne_nil d.name_null
    d.name_plain hg₂.fits
  obtain ⟨tb₄, hrun₄, hg₄⟩ := tokensLoop_of_walk (k + 1) (1 + 1 + 1) (.inr rfl)
    (List.cons_ne_nil _ _) hg₃.fits
    (walk_of_literal (0 :: tail) hdescr (.inl rfl) d.descr_null (by decide))
  refine ⟨tb₄, ?_, dicoTokenizeString_eq (first_lineHead _) ?_⟩
  · have hg := ((hg₁.trans hg₂).trans hg₃).trans hg₄
    simpa only [Definition.tokens, List.flatMap_cons, List.flatMap_nil, List.append_nil,
      List.append_assoc] using hg
  · rw [hk, hrun₁, hrun₂, hrun₃]
    exact hrun₄.trans (tokensLoop_end (.inl rfl))

end Line

/-- What the client should find in a line, when the token buffer is `tb`. -/
def LineRead (tb : DicoTokbuf) (d : Definition) (tail : Bytes) : Prop :=
  ∃ tb', xdicoTokenizeString tb (d.line ++ 0 :: tail) = .ok tb' ∧ tb'.token 1 = .ok d.word ∧
    tb'.token 2 = .ok d.name ∧ tb'.token 3 = .ok d.descr

/-- **What the buffer held does not matter**: the tokens of a line that was
read are those of the definition. -/
theorem lineRead_iff_tokens (tb : DicoTokbuf) (d : Definition) (tail : Bytes) :
    LineRead tb d tail ↔ ∃ ts, lineTokens (d.line ++ 0 :: tail) = .ok ts ∧ ts[1]? = some d.word ∧
      ts[2]? = some d.name ∧ ts[3]? = some d.descr := by
  constructor
  · rintro ⟨tb', hrun, hword, hname, hdescr⟩
    obtain ⟨ts, hwords, hts⟩ := words_of_xdico hrun
    exact ⟨ts, hts, (token_eq_ok hwords).1 hword, (token_eq_ok hwords).1 hname,
      (token_eq_ok hwords).1 hdescr⟩
  · rintro ⟨ts, hts, hword, hname, hdescr⟩
    obtain ⟨tb', hrun, hwords⟩ := (xdico_words_iff tb).2 hts
    exact ⟨tb', hrun, (token_eq_ok hwords).2 hword, (token_eq_ok hwords).2 hname,
      (token_eq_ok hwords).2 hdescr⟩

/-! ## One line, read with a fresh buffer -/

section Fresh

variable {d : Definition} {tail : Bytes}

/-- A token that was read from a fresh buffer, behind others that are
known. -/
theorem takeWhile_of_token {tb₁ tb₂ tb : DicoTokbuf} {argc : ℕ} {ts : List Bytes} {P Q s : Bytes}
    (hts : ∀ t ∈ ts, 0 ∉ t) (hg₁ : Grown .begin (ts.flatMap (· ++ [0])) tb₁)
    (hg₂ : Grown tb₁ (P ++ [0]) tb₂) (hg₃ : Grown tb₂ Q tb)
    (htok : ({ tb with tokv := tb.tokv ++ tb.pointers argc 0 } : DicoTokbuf).token ts.length =
      .ok s) : P.takeWhile (· ≠ 0) = s := by
  have hg := (hg₁.trans hg₂).trans hg₃
  have hbase : tb.base = ts.flatMap (· ++ [0]) ++ (P ++ 0 :: Q) := by
    rw [hg.base]
    simp only [DicoTokbuf.begin, List.nil_append, List.append_assoc, List.cons_append]
  have hnil : tb.tokv = [] := hg.tokv
  simp only [DicoTokbuf.token, hnil, List.nil_append] at htok
  rcases Nat.lt_or_ge ts.length argc with hlt | hge
  · obtain ⟨ptr, hptr, hderef⟩ := deref_pointers (p := 0) hts hbase hlt
    simp only [hptr] at htok
    rw [← takeWhile_append_zero]
    exact Except.ok.inj (hderef.symm.trans htok)
  · rw [List.getElem?_eq_none (by rw [length_pointers]; exact hge)] at htok
    cases htok

/-- A line that was tokenized, past its status code. -/
theorem tokensLoop_of_lineHead {tb : DicoTokbuf} {r : Bytes}
    (h : dicoTokenizeString .begin (lineHead ++ r) = .ok tb) :
    ∃ fuel tb₁ tb' argc Q, Grown .begin ([ascii "151"].flatMap (· ++ [0])) tb₁ ∧ Grown tb₁ Q tb' ∧
      tokensLoop (fuel + 3) (pos 1 ([space] ++ doubleQuote :: r)) tb₁ 1 = .ok (tb', argc) ∧
      tb = { tb' with tokv := tb'.tokv ++ tb'.pointers argc 0 } := by
  rw [dicoTokenizeString, first_lineHead, ok_bind] at h
  obtain ⟨⟨tb', argc⟩, hloop, htb⟩ := bind_eq_ok.1 h
  obtain ⟨k, hk⟩ := length_lineHead r
  obtain ⟨tb₁, hrun, hgrown⟩ := tokensLoop_lineHead (k + 4)
    (show DicoTokbuf.begin.base.length ≤ DicoTokbuf.begin.size from le_rfl) r
  rw [hk, hrun] at hloop
  obtain ⟨-, Q, hgrown'⟩ := tokensLoop_grown
    (placed_pos Nat.one_pos (List.cons_ne_nil _ _)) hgrown.fits hloop
  rw [← List.flatMap_singleton (· ++ [0])] at hgrown
  exact ⟨k + 1, tb₁, tb', argc, Q, hgrown, hgrown', hloop, (Except.ok.inj htb).symm⟩

/-- A newline in the word cuts the line, and the token is too short. -/
theorem newline_notMem_word (h : LineRead .begin d tail) : newline ∉ d.word := by
  obtain ⟨tb, htokenize, hword, -⟩ := h
  change dicoTokenizeString .begin _ = _ at htokenize
  intro hmem
  obtain ⟨u, x, hux, hu⟩ := List.eq_append_cons_of_mem hmem
  rw [line_of_word d hux hu, List.append_assoc] at htokenize
  obtain ⟨fuel, tb₁, tb', argc, -, hg₁, -, hloop, rfl⟩ := tokensLoop_of_lineHead htokenize
  have htext : trimNl u ++ 0 :: tail ≠ [] :=
    List.append_ne_nil_of_right_ne_nil _ (List.cons_ne_nil _ _)
  rw [tokensLoop_quoted (.inr rfl) htext] at hloop
  obtain ⟨R, P, itr₁, itr₂, tb₂, Q, hwalk, -, -, hg₂, hg₃, -, -⟩ :=
    walk_of_tokensLoop htext hg₁.fits hloop
  have htok := takeWhile_of_token (by decide) hg₁ hg₂ hg₃ hword
  have hlen := hwalk.token_length rfl
  have hle := (trimNl_isPrefix u).length_le
  rw [htok, hux, List.length_append, List.length_cons] at hlen
  omega

/-- The word, once it is read, stands for itself. -/
theorem literal_word {tb : DicoTokbuf} (rest : Bytes) (hrest : rest ≠ [])
    (h : dicoTokenizeString .begin (lineHead ++ (d.word ++ doubleQuote :: rest)) = .ok tb)
    (hword : tb.token 1 = .ok d.word) :
    literal d.word = true ∧ ∃ fuel tb₂ tb' argc,
      Grown .begin ([ascii "151", d.word].flatMap (· ++ [0])) tb₂ ∧
      tokensLoop (fuel + 2) (pos 1 rest) tb₂ 2 = .ok (tb', argc) ∧
      tb = { tb' with tokv := tb'.tokv ++ tb'.pointers argc 0 } := by
  obtain ⟨fuel, tb₁, tb', argc, -, hg₁, -, hloop, rfl⟩ := tokensLoop_of_lineHead h
  obtain ⟨P, tb₂, Q, itr, hg₂, hg₃, -, hmore, hexact⟩ :=
    literal_of_tokensLoop_quoted (.inr rfl) d.word_null hrest hg₁.fits hloop
  have htok := takeWhile_of_token (by decide) hg₁ hg₂ hg₃ hword
  obtain ⟨rfl, hlit, rfl⟩ := hexact htok
  refine ⟨hlit, fuel, tb₂, tb', argc, ?_, hmore, rfl⟩
  simpa only [List.flatMap_cons, List.flatMap_nil, List.append_nil] using hg₁.trans hg₂

/-- A newline in the name cuts the line, too. -/
theorem newline_notMem_name (h : LineRead .begin d tail) : newline ∉ d.name := by
  have hw := newline_notMem_word h
  obtain ⟨tb, htokenize, hword, hname, -⟩ := h
  change dicoTokenizeString .begin _ = _ at htokenize
  intro hmem
  obtain ⟨u, x, hux, hu⟩ := List.eq_append_cons_of_mem hmem
  have hline : d.line ++ 0 :: tail =
      lineHead ++ (d.word ++ doubleQuote :: ([space] ++ (trimNl u ++ 0 :: tail))) := by
    rw [line_of_name d hw hux hu]
    simp only [List.append_assoc, List.cons_append, List.nil_append]
  rw [hline] at htokenize
  obtain ⟨-, fuel, tb₂, tb', argc, hg₂, hloop, rfl⟩ :=
    literal_word ([space] ++ (trimNl u ++ 0 :: tail)) (List.cons_ne_nil _ _) htokenize hword
  have hle := (trimNl_isPrefix u).length_le
  cases htrim : trimNl u with
  | nil =>
    -- nothing is left of the name, and the line has no third token
    rw [htrim, List.nil_append, tokensLoop_end (.inr rfl)] at hloop
    obtain ⟨rfl, rfl⟩ := Prod.mk.inj (Except.ok.inj hloop)
    simp only [DicoTokbuf.token, hg₂.tokv, DicoTokbuf.begin, List.nil_append] at hname
    rw [List.getElem?_eq_none (by rw [length_pointers])] at hname
    cases hname
  | cons b q =>
    have hb : b ∈ d.name := by
      rw [hux]
      exact List.mem_append_left _ ((trimNl_isPrefix u).subset (htrim ▸ List.mem_cons_self))
    obtain ⟨hws, hq⟩ := d.name_plain b hb
    rw [htrim] at hloop
    change tokensLoop (fuel + 2) (pos 1 ([space] ++ b :: (q ++ 0 :: tail))) tb₂ 2 = _ at hloop
    rw [tokensLoop_bare (.inr rfl) hws hq fun h₀ => d.name_null (h₀ ▸ hb)] at hloop
    obtain ⟨R, P, itr₁, itr₂, tb₃, Q, hwalk, -, -, hg₃, hg₄, -, -⟩ :=
      walk_of_tokensLoop (List.cons_ne_nil _ _) hg₂.fits hloop
    have htok := takeWhile_of_token
      (fun t ht => d.null_notMem_tokens t (List.mem_append_left [d.name, d.descr] ht))
      hg₂ hg₃ hg₄ hname
    have hlen := hwalk.token_length (u := b :: q) rfl
    rw [htok, hux, List.length_append, List.length_cons] at hlen
    rw [htrim] at hle
    omega

/-- The texts of a line that was read stand for themselves. -/
theorem faithful_of_lineRead (h : LineRead .begin d tail) : d.Faithful := by
  have hwn := newline_notMem_word h
  have hnn := newline_notMem_name h
  obtain ⟨tb, htokenize, hword, hname, hdescr⟩ := h
  change dicoTokenizeString .begin _ = _ at htokenize
  rw [line_append d hwn hnn tail] at htokenize
  obtain ⟨hw, fuel, tb₂, tb', argc, hg₂, hloop, rfl⟩ :=
    literal_word _ (List.cons_ne_nil _ _) htokenize hword
  obtain ⟨P, tb₃, Q, itr, hg₃, hg₄, -, hmore, hexact⟩ :=
    literal_of_tokensLoop_bare (.inr rfl) d.name_ne_nil d.name_null d.name_plain hg₂.fits hloop
  have htok := takeWhile_of_token
    (fun t ht => d.null_notMem_tokens t (List.mem_append_left [d.name, d.descr] ht))
    hg₂ hg₃ hg₄ hname
  obtain ⟨rfl, hn, rfl⟩ := hexact htok
  obtain ⟨P, tb₄, Q', itr, hg₅, hg₆, -, -, hexact'⟩ :=
    literal_of_tokensLoop_quoted (.inr rfl) d.descr_null (List.cons_ne_nil _ _)
      (hg₂.trans hg₃).fits (show tokensLoop _ (pos 1 ([space] ++ doubleQuote :: (d.descr ++
        doubleQuote :: 0 :: tail))) _ _ = _ from hmore)
  have hg : Grown .begin ([ascii "151", d.word, d.name].flatMap (· ++ [0])) tb₃ := by
    simpa only [List.flatMap_cons, List.flatMap_nil, List.append_nil, List.append_assoc] using
      hg₂.trans hg₃
  have htok' := takeWhile_of_token
    (fun t ht => d.null_notMem_tokens t (List.mem_append_left [d.descr] ht)) hg hg₅ hg₆ hdescr
  exact ⟨hwn, hnn, hw, hn, (hexact' htok').2.1⟩

/-- And where they do, they are its tokens. -/
theorem lineTokens_line (hd : d.Faithful) (tail : Bytes) :
    lineTokens (d.line ++ 0 :: tail) = .ok d.tokens := by
  obtain ⟨tb₁, hg, hrun⟩ := tokenize_line d .begin hd le_rfl tail
  have hbase : tb₁.base = d.tokens.flatMap (· ++ [0]) ++ [] := by
    rw [hg.base, List.append_nil]
    rfl
  have hwords : (tb₁.pointers 4 0).mapM tb₁.deref = .ok d.tokens := by
    have hin : stringsIn 4 _ = _ := stringsIn_flatMap d.null_notMem_tokens 0 []
    rw [mapM_deref_pointers, List.drop_zero, hbase, hin, stringsIn, List.append_nil]
  have hnil : tb₁.tokv = [] := hg.tokv
  rw [hnil] at hrun
  exact (xdico_words_iff .begin).1 ⟨_, hrun, hwords⟩

end Fresh

/-- **A line is read back exactly when its texts stand for themselves.** -/
theorem lineRead_iff (tb : DicoTokbuf) (d : Definition) (tail : Bytes) :
    LineRead tb d tail ↔ d.Faithful := by
  rw [lineRead_iff_tokens]
  constructor
  · intro h
    exact faithful_of_lineRead ((lineRead_iff_tokens .begin d tail).2 h)
  · intro hd
    exact ⟨d.tokens, lineTokens_line hd tail, rfl, rfl, rfl⟩

/-! ## The memory of a reply -/

/-- The line has no null in it. -/
theorem null_notMem_line (d : Definition) : 0 ∉ d.line := by
  intro h
  have hmem := List.takeWhile_subset _ ((trimNl_isPrefix _).subset h)
  rw [statusLine_eq] at hmem
  simp only [List.mem_append, List.mem_cons, List.not_mem_nil, or_false] at hmem
  rcases hmem with h | h | h | h | h | h | h | h | h | h
  · exact absurd h (by decide)
  · exact d.word_null h
  · exact absurd h (by decide)
  · exact absurd h (by decide)
  · exact d.name_null h
  · exact absurd h (by decide)
  · exact absurd h (by decide)
  · exact d.descr_null h
  · exact absurd h (by decide)
  · exact absurd h (by decide)

/-- The memory of a reply, from its first line on. -/
theorem replyBase_cons (d : Definition) (ds : List Definition) :
    replyBase (d :: ds) = d.line ++ 0 :: (d.text ++ 0 :: replyBase ds) := by
  rw [replyBase, List.flatMap_cons]
  simp only [replyBase, List.append_assoc, List.cons_append, List.nil_append]

/-- A string in memory, and what is behind it. -/
theorem cString_append {s : Bytes} (hs : 0 ∉ s) (t : Bytes) :
    cString (s ++ 0 :: t) = s ∧ (s ++ 0 :: t).drop (s.length + 1) = t := by
  refine ⟨takeWhile_ne_zero hs t, ?_⟩
  rw [← List.drop_drop, List.drop_left]
  rfl

/-- **What comes back.** Whatever the lines before it left in the token
buffer, a line is read as it was written exactly when its texts stand for
themselves. -/
theorem definitions_roundTrip (tb : DicoTokbuf) (d : Definition) (tail : Bytes) :
    LineRead tb d tail ↔ d.Faithful :=
  lineRead_iff tb d tail

/-- A definition of a word with a quote in it. -/
def inchMark : Definition where
  word := ascii "3\""
  name := ascii "units"
  descr := ascii "Units of length"
  text := []
  word_null := by decide
  name_null := by decide
  name_ne_nil := by decide
  name_plain := forall_mem_of_all (by decide)
  descr_null := by decide
  descr_newline := by decide
  text_null := by decide

/-- The quote ends the word before its time. -/
theorem not_lineRead_inchMark : ¬ LineRead .begin inchMark [] := by
  intro h
  have hd := (lineRead_iff .begin inchMark []).1 h
  revert hd
  decide

end Dico
