import Dico.Text.Quoting
/-!
# Escapes in a command line

What a command line says, on its code points: it comes apart into tokens,
and a token into characters that stand for themselves and characters
behind a backslash (`lexLine`). What the tokenizer stores for it, on
bytes, is another thing: for a character behind a backslash it asks
`dico_quote_char`, which looks the table up from the wrong side and has a
null for nearly everything. The two agree on a line exactly when nothing
but backslashes, double quotes and characters that are not ASCII stand
behind its backslashes.
-/

namespace Dico

open Utf8 (encode)
open Utf8Iterator

/-- `dico_unquote_char`, which looks the table up from left to right. -/
def dicoUnquoteChar (c : UInt8) : UInt8 :=
  match quoteTranstab.find? fun p => p.1 = c with
  | some p => p.2
  | none => 0

/-! ## The tokens of a line -/

/-- What a token is made of: a character, an ASCII character behind a
backslash, and the backslash that ends a line. -/
inductive Piece where
  | plain (wc : ℕ)
  | escape (c : UInt8)
  | slash
  deriving DecidableEq

/-- Blanks, as code points. -/
def isBlank (wc : ℕ) : Bool := wc = 32 || wc = 9

/-- Quotes, as code points. -/
def opensQuote (wc : ℕ) : Bool := wc = 34 || wc = 39

/-- The pieces of the token a line starts with, and what is left of the
line. The quote is that of the token, or zero. -/
def lexToken (quote : ℕ) : List ℕ → List Piece × List ℕ
  | [] => ([], [])
  | wc :: ws =>
    if quote = 0 ∧ isBlank wc then ([], wc :: ws)
    else if wc = quote then ([], ws)
    else if wc = 92 then
      match ws with
      | [] => ([.slash], [])
      | wd :: ws =>
        ((if wd < 0x80 then [.escape (UInt8.ofNat wd)] else [.plain 92, .plain wd]) ++
          (lexToken quote ws).1, (lexToken quote ws).2)
    else (.plain wc :: (lexToken quote ws).1, (lexToken quote ws).2)

/-- A token is taken off the line. -/
theorem lexToken_suffix (quote : ℕ) (ws : List ℕ) : (lexToken quote ws).2 <:+ ws := by
  fun_induction lexToken quote ws with
  | case1 => exact List.suffix_rfl
  | case2 => exact List.suffix_rfl
  | case3 ws => exact List.suffix_cons _ ws
  | case4 => exact List.nil_suffix
  | case5 wd ws _ _ ih => exact ih.trans ((List.suffix_cons wd ws).trans (List.suffix_cons _ _))
  | case6 wc ws _ _ _ ih => exact ih.trans (List.suffix_cons wc ws)

/-- A token without quotes takes something. -/
theorem length_lexToken_lt (ws : List ℕ) (h : ∀ wc ∈ ws.head?, isBlank wc = false)
    (hne : ws ≠ []) : (lexToken 0 ws).2.length < ws.length := by
  fun_cases lexToken 0 ws with
  | case1 => exact absurd rfl hne
  | case2 wc ds hblank => exact absurd hblank.2 (Bool.eq_false_iff.1 (h wc rfl))
  | case3 => exact Nat.lt_succ_self _
  | case4 => exact Nat.zero_lt_one
  | case5 wd ds =>
    have hle := (lexToken_suffix 0 ds).length_le
    simp only [List.length_cons]
    omega
  | case6 wc ds => exact Nat.lt_succ_of_le (lexToken_suffix 0 ds).length_le

/-- What is left of a line that does not start with a blank. -/
theorem head_of_dropWhile {wc : ℕ} {ws ds : List ℕ} (h : ws.dropWhile isBlank = wc :: ds) :
    isBlank wc = false ∧ (wc :: ds).length ≤ ws.length := by
  refine ⟨?_, ?_⟩
  · have hnot := List.head_dropWhile_not isBlank (h ▸ List.cons_ne_nil wc ds)
    simp only [h, List.head_cons] at hnot
    exact hnot
  · rw [← h]
    exact (List.dropWhile_suffix isBlank).length_le

/-- The tokens of a line: runs of characters that are not blank, and
quoted strings. -/
def lexLine (ws : List ℕ) : List (List Piece) :=
  match _h : ws.dropWhile isBlank with
  | [] => []
  | wc :: ds =>
    if opensQuote wc then (lexToken wc ds).1 :: lexLine (lexToken wc ds).2
    else (lexToken 0 (wc :: ds)).1 :: lexLine (lexToken 0 (wc :: ds)).2
termination_by ws.length
decreasing_by
  · have hle := (lexToken_suffix wc ds).length_le
    have hds := (head_of_dropWhile _h).2
    rw [List.length_cons] at hds
    omega
  · have hlt := length_lexToken_lt (wc :: ds)
      (fun _ hwc => Option.some.inj hwc ▸ (head_of_dropWhile _h).1) (List.cons_ne_nil _ _)
    have hds := (head_of_dropWhile _h).2
    omega

/-! ## What is meant, and what is stored -/

namespace Piece

/-- The bytes a piece stands for: behind a backslash, what
`dico_unquote_char` has, or the character itself. -/
def meant : Piece → Bytes
  | plain wc => encode wc
  | escape c => [if dicoUnquoteChar c = 0 then c else dicoUnquoteChar c]
  | slash => [backslash]

/-- The bytes the tokenizer stores for a piece. -/
def stored : Piece → Bytes
  | plain wc => encode wc
  | escape c => [dicoQuoteChar c]
  | slash => [0]

/-- A piece that is stored as it is meant. -/
def Kept : Piece → Prop
  | plain _ => True
  | escape c => c = backslash ∨ c = doubleQuote
  | slash => False

/-- They are as many bytes. -/
theorem length_stored (p : Piece) : p.stored.length = p.meant.length := by
  cases p with
  | plain wc => rfl
  | escape c => rfl
  | slash => rfl

end Piece

/-- The bytes a token stands for. -/
def meantToken (ps : List Piece) : Bytes := ps.flatMap Piece.meant

/-- The bytes the tokenizer stores for a token. -/
def storedToken (ps : List Piece) : Bytes := ps.flatMap Piece.stored

/-- A line whose backslashes all have a backslash, a double quote or a
character that is not ASCII behind them. -/
def PlainEscapes : List ℕ → Prop
  | [] => True
  | wc :: ws =>
    if wc = 92 then
      match ws with
      | [] => False
      | wd :: ws => (wd = 92 ∨ wd = 34 ∨ 0x80 ≤ wd) ∧ PlainEscapes ws
    else PlainEscapes ws

/-! ## Kept escapes -/

/-- **Where the two tables agree.** -/
theorem dicoQuoteChar_eq_iff {c : UInt8} (h₀ : c ≠ 0) :
    dicoQuoteChar c = (if dicoUnquoteChar c = 0 then c else dicoUnquoteChar c) ↔
      c = backslash ∨ c = doubleQuote := by
  have hall : ∀ n : Fin 256, UInt8.ofNat n ≠ 0 → (dicoQuoteChar (UInt8.ofNat n) =
      (if dicoUnquoteChar (UInt8.ofNat n) = 0 then UInt8.ofNat n
        else dicoUnquoteChar (UInt8.ofNat n)) ↔
      UInt8.ofNat n = backslash ∨ UInt8.ofNat n = doubleQuote) := by
    decide +kernel
  have hc := hall ⟨c.toNat, c.toNat_lt⟩
  rw [UInt8.ofNat_toNat] at hc
  exact hc h₀

/-- Which pieces are stored as they are meant. -/
theorem Piece.stored_eq_meant {p : Piece} (h₀ : p ≠ .escape 0) : p.stored = p.meant ↔ p.Kept := by
  cases p with
  | plain wc => exact iff_of_true rfl trivial
  | escape c =>
    rw [Piece.stored, Piece.meant, List.singleton_inj]
    exact dicoQuoteChar_eq_iff fun hc => h₀ (hc ▸ rfl)
  | slash => exact iff_of_false (by decide) id

/-- A backslash and the character behind it, in a line. -/
theorem kept_escape_iff {wd : ℕ} :
    (∀ p ∈ (if wd < 0x80 then [Piece.escape (UInt8.ofNat wd)] else [.plain 92, .plain wd]),
      p.Kept) ↔ wd = 92 ∨ wd = 34 ∨ 0x80 ≤ wd := by
  split_ifs with h
  · have hbyte : ∀ {x : ℕ}, x < 256 → (UInt8.ofNat wd = UInt8.ofNat x ↔ wd = x) := by
      intro x hx
      constructor
      · intro heq
        by_contra hne
        exact ofNat_ne_ofNat (by omega) hx hne heq
      · rintro rfl
        rfl
    rw [List.forall_mem_singleton]
    change UInt8.ofNat wd = UInt8.ofNat 92 ∨ UInt8.ofNat wd = UInt8.ofNat 34 ↔ _
    rw [hbyte (by decide), hbyte (by decide)]
    omega
  · refine iff_of_true ?_ (.inr (.inr (by omega)))
    exact List.forall_mem_cons.2 ⟨trivial, List.forall_mem_singleton.2 trivial⟩

/-- A character that is no backslash is none of the escapes. -/
theorem plainEscapes_cons {wc : ℕ} (ws : List ℕ) (h : wc ≠ 92) :
    PlainEscapes (wc :: ws) ↔ PlainEscapes ws := by
  rw [PlainEscapes.eq_def]
  simp only [h, if_false]

/-- The escapes of a line are those of its first token and those of the
rest. -/
theorem plainEscapes_lexToken {quote : ℕ} (hquote : quote ≠ 92) (ws : List ℕ) :
    PlainEscapes ws ↔
      (∀ p ∈ (lexToken quote ws).1, p.Kept) ∧ PlainEscapes (lexToken quote ws).2 := by
  fun_induction lexToken quote ws with
  | case1 => simp only [List.not_mem_nil, false_implies, implies_true, true_and]
  | case2 => simp only [List.not_mem_nil, false_implies, implies_true, true_and]
  | case3 ws =>
    rw [plainEscapes_cons ws hquote]
    simp only [List.not_mem_nil, false_implies, implies_true, true_and]
  | case4 => exact iff_of_false id fun h => h.1 _ List.mem_cons_self
  | case5 wd ws _ _ ih =>
    rw [List.forall_mem_append, kept_escape_iff, and_assoc, ← ih]
    rfl
  | case6 wc ws _ _ h92 ih =>
    rw [plainEscapes_cons ws h92, List.forall_mem_cons, ih, and_assoc]
    exact ⟨fun h => ⟨trivial, h⟩, fun h => h.2⟩

/-- Blanks are no escapes. -/
theorem plainEscapes_dropWhile (ws : List ℕ) :
    PlainEscapes (ws.dropWhile isBlank) ↔ PlainEscapes ws := by
  induction ws with
  | nil => exact Iff.rfl
  | cons wc ws ih =>
    by_cases h : isBlank wc = true
    · have hne : wc ≠ 92 := by
        rintro rfl
        exact absurd h (by decide)
      rw [List.dropWhile_cons_of_pos h, ih, plainEscapes_cons ws hne]
    · rw [List.dropWhile_cons_of_neg h]

/-- **The escapes of a line are those of its tokens.** -/
theorem plainEscapes_iff (ws : List ℕ) :
    PlainEscapes ws ↔ ∀ ps ∈ lexLine ws, ∀ p ∈ ps, p.Kept := by
  fun_induction lexLine ws with
  | case1 ws h =>
    rw [← plainEscapes_dropWhile, h]
    exact iff_of_true trivial fun ps hps => absurd hps List.not_mem_nil
  | case2 ws wc ds h hopen ih =>
    have hne : wc ≠ 92 := by
      rintro rfl
      exact absurd hopen (by decide)
    rw [← plainEscapes_dropWhile, h, plainEscapes_cons ds hne, plainEscapes_lexToken hne,
      List.forall_mem_cons, ih]
  | case3 ws wc ds h _ ih =>
    rw [← plainEscapes_dropWhile, h, plainEscapes_lexToken (show 0 ≠ 92 by decide),
      List.forall_mem_cons, ih]

/-! ## The walk over a token -/

section Walk

variable {ws : List ℕ} {tail : Bytes} {quote w : ℕ}

/-- The code points a line may have. -/
def InLine (ws : List ℕ) : Prop := ∀ wc ∈ ws, 1 ≤ wc ∧ wc < 0x110000

/-- A line in memory: its characters, the null, and whatever is behind. -/
def lineBytes (ws : List ℕ) (tail : Bytes) : Bytes := ws.flatMap encode ++ 0 :: tail

/-- There is always a byte. -/
theorem lineBytes_ne_nil (ws : List ℕ) (tail : Bytes) : lineBytes ws tail ≠ [] :=
  List.append_ne_nil_of_right_ne_nil _ (List.cons_ne_nil _ _)

/-- The first character of a line. -/
theorem lineBytes_cons (wc : ℕ) (ws : List ℕ) (tail : Bytes) :
    lineBytes (wc :: ws) tail = encode wc ++ lineBytes ws tail := by
  rw [lineBytes, lineBytes, List.flatMap_cons, List.append_assoc]

/-- In a line, the width from before never matters. -/
theorem pos_lineBytes (h : InLine ws) (w : ℕ) :
    pos w (lineBytes ws tail) = pos 1 (lineBytes ws tail) := by
  cases ws with
  | nil => exact pos_ascii (by decide)
  | cons wc ws =>
    have hwc := (List.forall_mem_cons.1 h).1
    rw [lineBytes_cons, pos_encode hwc.2, pos_encode hwc.2]

/-- The end of the line ends a token. -/
theorem tokenStep_end (quote : UInt8) (itr : Utf8Iterator) (h : itr.endP) :
    tokenStep quote itr = .ok (none, itr) := if_pos (.inl h)

/-- A blank, in bytes. -/
theorem encode_blank {wc : ℕ} (h : isBlank wc) : ∃ b, encode wc = [b] ∧ isWs b := by
  have hwc : wc = 32 ∨ wc = 9 := by
    simpa only [isBlank, Bool.or_eq_true, decide_eq_true_eq] using h
  rcases hwc with rfl | rfl
  · exact ⟨space, rfl, .inl rfl⟩
  · exact ⟨tab, rfl, .inr rfl⟩

/-- A token without quotes ends before a blank. -/
theorem tokenStep_blank {wc : ℕ} (h : isBlank wc) (w : ℕ) :
    tokenStep 0 (pos w (lineBytes (wc :: ws) tail)) =
      .ok (none, pos w (lineBytes (wc :: ws) tail)) := by
  obtain ⟨b, hb, hws⟩ := encode_blank h
  rw [lineBytes_cons, hb]
  exact tokenStep_ws hws

/-- A backslash at the end of the line. -/
theorem tokenStep_slash {quote : UInt8} (hq : quote ≠ backslash) (w : ℕ) (tail : Bytes) :
    tokenStep quote (pos w (backslash :: 0 :: tail)) = .ok (some [[0]], pos 1 (0 :: tail)) := by
  obtain ⟨hstop, hquote⟩ := backslash_goes_on (w := w) (r := 0 :: tail) hq
  have hslash : (pos w (backslash :: 0 :: tail)).isAscii ∧
      (pos w (backslash :: 0 :: tail)).char = backslash := ⟨isAscii_pos (by decide), rfl⟩
  have hnext : (pos 1 (0 :: tail)).next = .ok (pos 1 (0 :: tail)) := if_pos rfl
  rw [tokenStep, if_neg hstop, if_neg hquote, if_pos hslash,
    next_backslash (List.cons_ne_nil 0 tail), ok_bind, if_pos (isAscii_pos (by decide)), hnext,
    ok_bind]
  rfl

/-- A backslash and a character behind it. -/
theorem tokenStep_escaped {quote : UInt8} (hq : quote ≠ backslash) {wd : ℕ}
    (hwd : 1 ≤ wd ∧ wd < 0x110000) {r : Bytes} (hr : r ≠ []) (w : ℕ) :
    ∃ strs w', tokenStep quote (pos w (backslash :: (encode wd ++ r))) =
        .ok (some strs, pos w' r) ∧
      strs.flatten = storedToken
        (if wd < 0x80 then [.escape (UInt8.ofNat wd)] else [.plain 92, .plain wd]) ∧
      Taken (backslash :: encode wd) strs.flatten := by
  by_cases h : wd < 0x80
  · have hbyte : UInt8.ofNat wd < 0x80 := by
      rw [UInt8.lt_iff_toNat_lt, Utf8.toNat_ofNat (by omega)]
      exact h
    have hzero : UInt8.ofNat wd ≠ 0 := Utf8.ofNat_ne_zero (by omega) (by omega)
    refine ⟨[[dicoQuoteChar (UInt8.ofNat wd)]], 1, ?_, ?_, ?_⟩
    · rw [Utf8.encode_one h]
      exact tokenStep_escape w hq hbyte hzero hr
    · rw [if_pos h]
      rfl
    · rw [Utf8.encode_one h]
      exact .escaped _ hzero
  · -- a character of more than one byte is no escape: the backslash is kept
    have hpos := pos_encode (w := 1) (r := r) hwd.2
    have hwidth : widthAt 1 (encode wd ++ r) = (encode wd).length := congrArg curwidth hpos
    have hascii : ¬ (pos 1 (encode wd ++ r)).isAscii := by
      rintro ⟨hlen, -⟩
      rw [hpos] at hlen
      exact h (Utf8.lt_of_length_encode hlen)
    have hstep := tokenStep_wide (w := w) hq
      (List.append_ne_nil_of_left_ne_nil (Utf8.encode_ne_nil wd) r) hascii
      (by rw [hwidth, List.drop_left]; exact hr)
    rw [hwidth, List.drop_left, List.take_left] at hstep
    refine ⟨_, _, hstep, ?_, ?_⟩
    · rw [if_neg h]
      rw [List.flatten_cons, List.flatten_singleton, storedToken, List.flatMap_cons,
        List.flatMap_singleton]
      rfl
    · rw [List.flatten_cons, List.flatten_singleton]
      exact .copied _

/-- **The walk over a token** stores what `storedToken` says, and leads to
where the next token is looked for. -/
theorem walk_lexToken (hquote : quote < 0x80) (h92 : quote ≠ 92) (h : InLine ws) (tail : Bytes)
    (w : ℕ) :
    ∃ R itr, Walk (UInt8.ofNat quote) (pos w (lineBytes ws tail)) R
        (storedToken (lexToken quote ws).1) itr ∧
      tokenStep (UInt8.ofNat quote) itr =
        .ok (none, pos 1 (lineBytes (lexToken quote ws).2 tail)) := by
  have hslash : UInt8.ofNat quote ≠ backslash := ofNat_ne_ofNat (by omega) (by decide) h92
  fun_induction lexToken quote ws generalizing w with
  | case1 =>
    refine ⟨[], _, .refl _, ?_⟩
    rw [pos_lineBytes h]
    exact tokenStep_end _ _ rfl
  | case2 wc ws hblank =>
    -- the token ends before the blank, which stays
    obtain ⟨rfl, hblank⟩ := hblank
    refine ⟨[], _, .refl _, ?_⟩
    rw [pos_lineBytes h]
    exact tokenStep_blank hblank 1
  | case3 ws =>
    refine ⟨[], _, .refl _, ?_⟩
    have hpos := (List.forall_mem_cons.1 h).1.1
    have hbyte : UInt8.ofNat quote < 0x80 := by
      rw [UInt8.lt_iff_toNat_lt, Utf8.toNat_ofNat (by omega)]
      exact hquote
    rw [lineBytes_cons, Utf8.encode_one hquote]
    exact tokenStep_quote hbyte (Utf8.ofNat_ne_zero hpos (by omega)) (lineBytes_ne_nil ws tail)
  | case4 =>
    have hwalk := Walk.step (tokenStep_slash hslash w tail) (r := [backslash]) rfl
      (List.cons_ne_nil _ _) .ended (.refl _)
    exact ⟨_, _, hwalk, tokenStep_end _ _ rfl⟩
  | case5 wd ws _ _ ih =>
    obtain ⟨-, hwd, hws⟩ := (List.forall_mem_cons.1 h).imp_right List.forall_mem_cons.1
    obtain ⟨strs, w', hstep, hflat, htaken⟩ :=
      tokenStep_escaped hslash hwd (lineBytes_ne_nil ws tail) w
    obtain ⟨R, itr, hwalk, hstop⟩ := ih hws w'
    have hwalk := Walk.step hstep (r := backslash :: encode wd) rfl (List.cons_ne_nil _ _) htaken
      hwalk
    rw [hflat] at hwalk
    rw [lineBytes_cons, lineBytes_cons, storedToken, List.flatMap_append]
    exact ⟨_, itr, hwalk, hstop⟩
  | case6 wc ws hblank hne hne' ih =>
    obtain ⟨hwc, hws⟩ := List.forall_mem_cons.1 h
    have hstep := tokenStep_encode (by omega) hwc hne' hne (r := lineBytes ws tail)
      (by
        rintro rfl
        refine ⟨?_, ?_⟩
        · rintro rfl
          exact hblank ⟨rfl, rfl⟩
        · rintro rfl
          exact hblank ⟨rfl, rfl⟩)
      (lineBytes_ne_nil ws tail) w
    obtain ⟨R, itr, hwalk, hstop⟩ := ih hws _
    have hwalk := Walk.step hstep (r := encode wc) rfl (Utf8.encode_ne_nil wc)
      (by
        rw [List.flatten_singleton]
        exact .copied _) hwalk
    rw [List.flatten_singleton] at hwalk
    rw [lineBytes_cons]
    exact ⟨_, itr, hwalk, hstop⟩

/-! ## The walk over a line -/

/-- What the iterator sees of the first character of a line. -/
theorem isAscii_char_iff {wc x : ℕ} (hwc : wc < 0x110000) (hx : x < 0x80) (w : ℕ)
    (ws : List ℕ) (tail : Bytes) : (pos w (lineBytes (wc :: ws) tail)).isAscii ∧
      (pos w (lineBytes (wc :: ws) tail)).char = UInt8.ofNat x ↔ wc = x := by
  rw [lineBytes_cons, pos_encode hwc]
  constructor
  · rintro ⟨⟨hlen, -⟩, hchar⟩
    have hlt := Utf8.lt_of_length_encode hlen
    rw [Utf8.encode_one hlt] at hchar
    by_contra hne
    exact ofNat_ne_ofNat (by omega) (by omega) hne hchar
  · rintro rfl
    rw [Utf8.encode_one hx]
    refine ⟨⟨rfl, ?_⟩, rfl⟩
    change UInt8.ofNat wc < 0x80
    rw [UInt8.lt_iff_toNat_lt, Utf8.toNat_ofNat (by omega)]
    exact hx

/-- It sees blanks where they are. -/
theorem isWs_iff {wc : ℕ} (hwc : wc < 0x110000) (w : ℕ) (ws : List ℕ) (tail : Bytes) :
    (pos w (lineBytes (wc :: ws) tail)).isAscii ∧ isWs (pos w (lineBytes (wc :: ws) tail)).char ↔
      isBlank wc := by
  have hspace := isAscii_char_iff hwc (show 32 < 0x80 by decide) w ws tail
  have htab := isAscii_char_iff hwc (show 9 < 0x80 by decide) w ws tail
  simp only [isBlank, Bool.or_eq_true, decide_eq_true_eq]
  rw [← hspace, ← htab, ← and_or_left]
  rfl

/-- And quotes. -/
theorem isQuote_iff {wc : ℕ} (hwc : wc < 0x110000) (w : ℕ) (ws : List ℕ) (tail : Bytes) :
    (pos w (lineBytes (wc :: ws) tail)).isAscii ∧
      isQuote (pos w (lineBytes (wc :: ws) tail)).char ↔ opensQuote wc := by
  have hdouble := isAscii_char_iff hwc (show 34 < 0x80 by decide) w ws tail
  have hsingle := isAscii_char_iff hwc (show 39 < 0x80 by decide) w ws tail
  simp only [opensQuote, Bool.or_eq_true, decide_eq_true_eq]
  rw [← hdouble, ← hsingle, ← and_or_left]
  rfl

/-- A character is not the end. -/
theorem not_endP_cons {wc : ℕ} (hwc : 1 ≤ wc ∧ wc < 0x110000) (w : ℕ) (ws : List ℕ)
    (tail : Bytes) : ¬ (pos w (lineBytes (wc :: ws) tail)).endP := by
  intro hend
  have hplaced : (pos 1 (lineBytes (wc :: ws) tail)).Placed :=
    placed_pos Nat.one_pos (lineBytes_ne_nil _ _)
  have hascii := hplaced.isAscii_of_endP hend
  have hzero := (isAscii_char_iff hwc.2 (show 0 < 0x80 by decide) 1 ws tail).1 ⟨hascii, hend⟩
  omega

/-- An ASCII character, in bytes. -/
theorem next_lineBytes {wc : ℕ} (h₁ : 1 ≤ wc) (h : wc < 0x80) (w : ℕ) (ws : List ℕ)
    (tail : Bytes) :
    (pos w (lineBytes (wc :: ws) tail)).next = .ok (pos 1 (lineBytes ws tail)) := by
  have hbyte : UInt8.ofNat wc < 0x80 := by
    rw [UInt8.lt_iff_toNat_lt, Utf8.toNat_ofNat (by omega)]
    exact h
  rw [lineBytes_cons, Utf8.encode_one h]
  exact next_pos_ascii hbyte (Utf8.ofNat_ne_zero h₁ (by omega)) (lineBytes_ne_nil ws tail)

/-- **The blanks before a token are skipped.** -/
theorem skipWs_lineBytes {fuel : ℕ} (h : InLine ws) (hfuel : ws.length < fuel) :
    skipWs fuel (pos 1 (lineBytes ws tail)) =
      .ok (pos 1 (lineBytes (ws.dropWhile isBlank) tail)) := by
  induction ws generalizing fuel with
  | nil =>
    obtain ⟨fuel, rfl⟩ : ∃ k, fuel = k + 1 := ⟨fuel - 1, by omega⟩
    exact if_neg fun hc => hc.1 rfl
  | cons wc ws ih =>
    rw [List.length_cons] at hfuel
    obtain ⟨fuel, rfl⟩ : ∃ k, fuel = k + 1 := ⟨fuel - 1, by omega⟩
    obtain ⟨hwc, hws⟩ := List.forall_mem_cons.1 h
    have hblank := isWs_iff hwc.2 1 ws tail
    by_cases hb : isBlank wc = true
    · have hlt : wc < 0x80 := by
        simp only [isBlank, Bool.or_eq_true, decide_eq_true_eq] at hb
        omega
      rw [skipWs, if_pos ⟨not_endP_cons hwc 1 ws tail, hblank.2 hb⟩,
        next_lineBytes hwc.1 hlt, ok_bind, List.dropWhile_cons_of_pos hb]
      exact ih hws (by omega)
    · rw [skipWs, if_neg fun hc => hb (hblank.1 hc.2), List.dropWhile_cons_of_neg hb]

/-- There are at least as many bytes as characters. -/
theorem length_le_lineBytes (ws : List ℕ) (tail : Bytes) :
    ws.length < (lineBytes ws tail).length := by
  induction ws with
  | nil => exact Nat.succ_pos _
  | cons wc ws ih =>
    have hpos := List.length_pos_of_ne_nil (Utf8.encode_ne_nil wc)
    rw [lineBytes_cons, List.length_append, List.length_cons]
    omega

/-- The pieces of a token are stored, and the loop goes on behind it. -/
theorem tokenLoop_lineBytes {tb : DicoTokbuf} (hfit : tb.base.length ≤ tb.size)
    (hquote : quote < 0x80) (h92 : quote ≠ 92) (h : InLine ws) (tail : Bytes) :
    ∃ tb', tokenLoop (UInt8.ofNat quote) ((lineBytes ws tail).length + 1)
        (pos 1 (lineBytes ws tail)) tb =
          .ok (pos 1 (lineBytes (lexToken quote ws).2 tail), tb') ∧
      Grown tb (storedToken (lexToken quote ws).1) tb' := by
  obtain ⟨R, itr, hwalk, hstop⟩ := walk_lexToken hquote h92 h tail 1
  have hcur : (lineBytes ws tail).length = R.length + itr.cur.length := by
    rw [← List.length_append, ← hwalk.cur]
    rfl
  exact tokenLoop_of_walk hfit hwalk hstop (by omega)

/-- The rest of a line has the characters of a line. -/
theorem InLine.suffix {ds : List ℕ} (h : InLine ws) (hs : ds <:+ ws) : InLine ds :=
  fun wc hwc => h wc (hs.subset hwc)

/-- The budget for the blanks is enough. -/
theorem skipWs_line (h : InLine ws) (tail : Bytes) :
    skipWs ((pos 1 (lineBytes ws tail)).cur.length + 1) (pos 1 (lineBytes ws tail)) =
      .ok (pos 1 (lineBytes (ws.dropWhile isBlank) tail)) :=
  skipWs_lineBytes h (Nat.lt_succ_of_lt (length_le_lineBytes ws tail))

/-- A token of a line is stored, and the loop goes on behind it. -/
theorem tokensLoop_token {ds rest : List ℕ} {tb : DicoTokbuf} (fuel argc : ℕ) {wc : ℕ}
    (h : InLine ws) (hdrop : ws.dropWhile isBlank = wc :: rest)
    (hopen : openQuote (pos 1 (lineBytes (wc :: rest) tail)) =
      .ok (UInt8.ofNat quote, pos 1 (lineBytes ds tail)))
    (hds : InLine ds) (hfit : tb.base.length ≤ tb.size) (hquote : quote < 0x80)
    (h92 : quote ≠ 92) :
    ∃ tb', tokensLoop (fuel + 1) (pos 1 (lineBytes ws tail)) tb argc =
        tokensLoop fuel (pos 1 (lineBytes (lexToken quote ds).2 tail)) tb' (argc + 1) ∧
      Grown tb (storedToken (lexToken quote ds).1 ++ [0]) tb' := by
  have hwc : InLine (wc :: rest) := h.suffix (hdrop ▸ List.dropWhile_suffix isBlank)
  have hskip := skipWs_line h tail
  rw [hdrop] at hskip
  obtain ⟨tb₁, hloop, hgrown⟩ := tokenLoop_lineBytes hfit hquote h92 hds tail
  refine ⟨tb₁.tknGrow [0], ?_, hgrown.trans (grown_tknGrow tb₁ [0])⟩
  have hcur : (pos 1 (lineBytes ds tail)).cur = lineBytes ds tail := rfl
  rw [tokensLoop, hskip, ok_bind, if_neg (not_endP_cons (List.forall_mem_cons.1 hwc).1 1 rest tail),
    hopen, ok_bind]
  simp only [hcur]
  rw [hloop, ok_bind]

/-- A quote opens a token. -/
theorem openQuote_quote {wc : ℕ} (hopen : opensQuote wc) (ds : List ℕ) (tail : Bytes) :
    wc < 0x80 ∧ wc ≠ 92 ∧ openQuote (pos 1 (lineBytes (wc :: ds) tail)) =
      .ok (UInt8.ofNat wc, pos 1 (lineBytes ds tail)) := by
  have hwc : wc = 34 ∨ wc = 39 := by
    simpa only [opensQuote, Bool.or_eq_true, decide_eq_true_eq] using hopen
  have hlt : wc < 0x80 := by omega
  have hchar : (pos 1 (lineBytes (wc :: ds) tail)).char = UInt8.ofNat wc :=
    ((isAscii_char_iff (by omega) hlt 1 ds tail).2 rfl).2
  refine ⟨hlt, by omega, ?_⟩
  rw [openQuote, if_pos ((isQuote_iff (by omega) 1 ds tail).2 hopen),
    next_lineBytes (by omega) hlt, ok_bind, hchar]

/-- Nothing else does. -/
theorem openQuote_bare {wc : ℕ} (hwc : wc < 0x110000) (hopen : ¬ opensQuote wc) (ds : List ℕ)
    (tail : Bytes) : openQuote (pos 1 (lineBytes (wc :: ds) tail)) =
      .ok (UInt8.ofNat 0, pos 1 (lineBytes (wc :: ds) tail)) :=
  if_neg fun hc => hopen ((isQuote_iff hwc 1 ds tail).1 hc)

/-- One token, and then the rest of the line. -/
theorem tokensLoop_cons {rest : List ℕ} {ps : List Piece} {tb tb₁ : DicoTokbuf} {fuel argc : ℕ}
    {itr itr₁ : Utf8Iterator}
    (hstep : tokensLoop (fuel + 1) itr tb argc = tokensLoop fuel itr₁ tb₁ (argc + 1))
    (hgrown : Grown tb (storedToken ps ++ [0]) tb₁)
    (hrest : ∃ tb', tokensLoop fuel itr₁ tb₁ (argc + 1) =
        .ok (tb', argc + 1 + (lexLine rest).length) ∧
      Grown tb₁ ((lexLine rest).flatMap (storedToken · ++ [0])) tb') :
    ∃ tb', tokensLoop (fuel + 1) itr tb argc = .ok (tb', argc + (ps :: lexLine rest).length) ∧
      Grown tb ((ps :: lexLine rest).flatMap (storedToken · ++ [0])) tb' := by
  obtain ⟨tb', hrun, hgrown'⟩ := hrest
  refine ⟨tb', ?_, ?_⟩
  · rw [hstep, hrun, List.length_cons, Nat.add_assoc, Nat.add_comm 1]
  · rw [List.flatMap_cons]
    exact hgrown.trans hgrown'

/-- **The tokens of a line are stored one after another**, each with a null
behind it. -/
theorem tokensLoop_lineBytes {fuel : ℕ} {tb : DicoTokbuf} (hfit : tb.base.length ≤ tb.size)
    (h : InLine ws) (hfuel : ws.length < fuel) (tail : Bytes) (argc : ℕ) :
    ∃ tb', tokensLoop fuel (pos 1 (lineBytes ws tail)) tb argc =
        .ok (tb', argc + (lexLine ws).length) ∧
      Grown tb ((lexLine ws).flatMap (storedToken · ++ [0])) tb' := by
  induction fuel generalizing ws tb argc with
  | zero => exact absurd hfuel (Nat.not_lt_zero _)
  | succ fuel ih =>
    fun_cases lexLine ws with
    | case1 hdrop =>
      have hskip := skipWs_line h tail
      rw [hdrop] at hskip
      refine ⟨tb, ?_, .refl hfit⟩
      rw [tokensLoop, hskip, ok_bind]
      rfl
    | case2 wc ds hdrop hopen =>
      have hsuffix : wc :: ds <:+ ws := hdrop ▸ List.dropWhile_suffix isBlank
      have hlen := hsuffix.length_le
      obtain ⟨-, hds⟩ := List.forall_mem_cons.1 (h.suffix hsuffix)
      obtain ⟨hlt, h92, hquote⟩ := openQuote_quote hopen ds tail
      obtain ⟨tb₁, hstep, hgrown⟩ := tokensLoop_token fuel argc h hdrop hquote hds hfit hlt h92
      have hrest := lexToken_suffix wc ds
      have hle := hrest.length_le
      rw [List.length_cons] at hlen
      exact tokensLoop_cons hstep hgrown (ih hgrown.fits (InLine.suffix hds hrest) (by omega) _)
    | case3 wc ds hdrop hopen =>
      have hsuffix : wc :: ds <:+ ws := hdrop ▸ List.dropWhile_suffix isBlank
      have hlen := hsuffix.length_le
      have hds := h.suffix hsuffix
      have hquote := openQuote_bare (List.forall_mem_cons.1 hds).1.2 hopen ds tail
      obtain ⟨tb₁, hstep, hgrown⟩ :=
        tokensLoop_token fuel argc h hdrop hquote hds hfit (by decide) (by decide)
      have hlt := length_lexToken_lt (wc :: ds)
        (fun _ hwc => Option.some.inj hwc ▸ (head_of_dropWhile hdrop).1) (List.cons_ne_nil _ _)
      exact tokensLoop_cons hstep hgrown
        (ih hgrown.fits (hds.suffix (lexToken_suffix 0 (wc :: ds))) (by omega) _)

end Walk

/-! ## The pieces of a line -/

/-- A piece that is there: no null behind a backslash, and characters of
Unicode. -/
def Piece.There : Piece → Prop
  | plain wc => 1 ≤ wc ∧ wc < 0x110000
  | escape c => c ≠ 0
  | slash => True

/-- What a piece that is there stands for has no null in it. -/
theorem Piece.There.zero_notMem {p : Piece} (h : p.There) : 0 ∉ p.meant := by
  intro hmem
  cases p with
  | plain wc => exact Utf8.ne_zero_of_mem_encode h.1 (by have := h.2; omega) hmem rfl
  | escape c =>
    have hzero := (List.mem_singleton.1 hmem).symm
    split_ifs at hzero with hc
    · exact h hzero
    · exact hc hzero
  | slash => exact absurd hmem (by decide)

/-- The pieces of a token are there. -/
theorem there_lexToken (quote : ℕ) {ws : List ℕ} (h : InLine ws) :
    ∀ p ∈ (lexToken quote ws).1, p.There := by
  fun_induction lexToken quote ws with
  | case1 => exact fun p hp => absurd hp List.not_mem_nil
  | case2 => exact fun p hp => absurd hp List.not_mem_nil
  | case3 => exact fun p hp => absurd hp List.not_mem_nil
  | case4 => exact List.forall_mem_singleton.2 trivial
  | case5 wd ws _ _ ih =>
    obtain ⟨h92, hwd, hws⟩ := (List.forall_mem_cons.1 h).imp_right List.forall_mem_cons.1
    refine List.forall_mem_append.2 ⟨?_, ih hws⟩
    split_ifs with hlt
    · exact List.forall_mem_singleton.2 (Utf8.ofNat_ne_zero (by omega) (by omega))
    · exact List.forall_mem_cons.2 ⟨h92, List.forall_mem_singleton.2 hwd⟩
  | case6 wc ws _ _ _ ih =>
    obtain ⟨hwc, hws⟩ := List.forall_mem_cons.1 h
    exact List.forall_mem_cons.2 ⟨hwc, ih hws⟩

/-- And so are those of a line. -/
theorem there_lexLine {ws : List ℕ} (h : InLine ws) : ∀ ps ∈ lexLine ws, ∀ p ∈ ps, p.There := by
  fun_induction lexLine ws with
  | case1 => exact fun ps hps => absurd hps List.not_mem_nil
  | case2 ws wc ds hdrop _ ih =>
    have hds := h.suffix (hdrop ▸ List.dropWhile_suffix isBlank)
    have hds : InLine ds := (List.forall_mem_cons.1 hds).2
    exact List.forall_mem_cons.2 ⟨there_lexToken wc hds, ih (hds.suffix (lexToken_suffix wc ds))⟩
  | case3 ws wc ds hdrop _ ih =>
    have hds := h.suffix (hdrop ▸ List.dropWhile_suffix isBlank)
    exact List.forall_mem_cons.2 ⟨there_lexToken 0 hds, ih (hds.suffix (lexToken_suffix 0 _))⟩

/-- Pieces that take as much room agree where their rows do. -/
theorem forall_mem_of_flatMap_eq {α : Type} {f g : α → Bytes}
    (hlen : ∀ a, (f a).length = (g a).length) {l : List α} (h : l.flatMap f = l.flatMap g) :
    ∀ a ∈ l, f a = g a := by
  induction l with
  | nil => exact fun a ha => absurd ha List.not_mem_nil
  | cons a l ih =>
    rw [List.flatMap_cons, List.flatMap_cons] at h
    obtain ⟨hhead, htail⟩ := List.append_inj h (hlen a)
    exact List.forall_mem_cons.2 ⟨hhead, ih htail⟩

/-- As many bytes are stored for a token as are meant. -/
theorem length_storedToken (ps : List Piece) :
    (storedToken ps).length = (meantToken ps).length := by
  rw [storedToken, meantToken, List.length_flatMap, List.length_flatMap]
  congr 1
  exact List.map_congr_left fun p _ => p.length_stored

/-- **A line is stored as it is meant exactly when its escapes are plain.** -/
theorem stored_eq_meant_iff {ws : List ℕ} (h : InLine ws) :
    (lexLine ws).flatMap (storedToken · ++ [0]) = (lexLine ws).flatMap (meantToken · ++ [0]) ↔
      PlainEscapes ws := by
  have hthere := there_lexLine h
  have hkept : ∀ ps ∈ lexLine ws, ∀ p ∈ ps, (p.stored = p.meant ↔ p.Kept) := by
    intro ps hps p hp
    refine p.stored_eq_meant ?_
    rintro rfl
    exact hthere ps hps _ hp rfl
  rw [plainEscapes_iff]
  constructor
  · intro heq ps hps p hp
    have htoken := forall_mem_of_flatMap_eq (fun ps => by
      rw [List.length_append, List.length_append, length_storedToken]) heq ps hps
    have hpiece := forall_mem_of_flatMap_eq Piece.length_stored (List.append_cancel_right htoken)
    exact (hkept ps hps p hp).1 (hpiece p hp)
  · intro hplain
    refine List.flatMap_congr fun ps hps => ?_
    have htoken : storedToken ps = meantToken ps :=
      List.flatMap_congr fun p hp => (hkept ps hps p hp).2 (hplain ps hps p hp)
    rw [htoken]

/-! ## The command line -/

/-- The iterator at the start of a line. -/
theorem first_lineBytes {ws : List ℕ} (h : InLine ws) (tail : Bytes) :
    first (lineBytes ws tail) = .ok (pos 1 (lineBytes ws tail)) := by
  cases ws with
  | nil => exact first_ascii (by decide)
  | cons wc ws =>
    have hwidth : utf8CharWidth (lineBytes (wc :: ws) tail) ≠ 0 := by
      rw [lineBytes_cons, utf8CharWidth_encode (List.forall_mem_cons.1 h).1.2]
      exact Nat.ne_of_gt (List.length_pos_of_ne_nil (Utf8.encode_ne_nil wc))
    rw [first, if_neg hwidth, iter0_eq_ok]
    exact ⟨lineBytes_ne_nil _ _, (pos_eq_pos_one hwidth).symm⟩

/-- **What the tokenizer makes of a line.** The tokens it stores are those
of the line, with what the wrong table has for its escapes. -/
theorem tokenize_eq_stored (t : Utf8Text) (tail : Bytes) :
    ∃ tb : DicoTokbuf, dicoTokenizeString .begin (t.bytes ++ 0 :: tail) =
        .ok { tb with tokv := tb.pointers (lexLine t.codes).length 0 } ∧
      tb.base = (lexLine t.codes).flatMap (storedToken · ++ [0]) := by
  have hline : InLine t.codes := fun _ hwc => t.codes_range hwc
  have hfit : DicoTokbuf.begin.base.length ≤ DicoTokbuf.begin.size := le_rfl
  have hbytes : t.bytes ++ 0 :: tail = lineBytes t.codes tail := by
    rw [t.bytes_eq]
    rfl
  obtain ⟨tb', hloop, hgrown⟩ := tokensLoop_lineBytes hfit hline
    (Nat.lt_succ_of_lt (length_le_lineBytes t.codes tail)) tail 0
  rw [Nat.zero_add] at hloop
  refine ⟨tb', ?_, hgrown.base⟩
  rw [hbytes, dicoTokenizeString_eq (first_lineBytes hline tail) hloop, hgrown.tokv]
  rfl

/-- **When the tokens of a line are what it says.** The block holds the
tokens as they are meant, each with one null behind it, and the pointers
find them again, exactly when nothing but a backslash, a double quote or a
character that is not ASCII is behind any backslash of the line. -/
theorem tokenize_escapes_iff (t : Utf8Text) (tail : Bytes) :
    (∃ tb, dicoTokenizeString .begin (t.bytes ++ 0 :: tail) = .ok tb ∧
        tb.tokv.map tb.deref = (lexLine t.codes).map (fun ps => .ok (meantToken ps)) ∧
        tb.base = (lexLine t.codes).flatMap (meantToken · ++ [0])) ↔
      PlainEscapes t.codes := by
  have hline : InLine t.codes := fun _ hwc => t.codes_range hwc
  obtain ⟨tb, htok, hbase⟩ := tokenize_eq_stored t tail
  rw [← stored_eq_meant_iff hline, ← hbase]
  constructor
  · rintro ⟨tb', hrun, -, hmeant⟩
    rw [htok] at hrun
    obtain rfl := Except.ok.inj hrun
    exact hmeant
  · intro hmeant
    refine ⟨_, htok, ?_, hmeant⟩
    have hzero : ∀ s ∈ (lexLine t.codes).map meantToken, (0 : UInt8) ∉ s := by
      intro s hs hmem
      obtain ⟨ps, hps, rfl⟩ := List.mem_map.1 hs
      obtain ⟨p, hp, hmem⟩ := List.mem_flatMap.1 hmem
      exact (there_lexLine hline ps hps p hp).zero_notMem hmem
    have hdrop : tb.base.drop 0 = ((lexLine t.codes).map meantToken).flatMap (· ++ [0]) ++ [] := by
      rw [List.drop_zero, hmeant, List.flatMap_map, List.append_nil]
    have hptr := map_deref_pointers hzero hdrop
    rw [List.length_map, List.map_map] at hptr
    exact hptr

/-- The line of a backslash and an `n` is stored as a null: its one token
is empty. -/
theorem not_forall_escapes : ¬ ∀ (t : Utf8Text) (tail : Bytes),
    ∃ tb, dicoTokenizeString .begin (t.bytes ++ 0 :: tail) = .ok tb ∧
      tb.tokv.map tb.deref = (lexLine t.codes).map (fun ps => .ok (meantToken ps)) ∧
      tb.base = (lexLine t.codes).flatMap (meantToken · ++ [0]) := by
  intro h
  obtain ⟨tb, hrun, htokens, -⟩ := h ⟨['\\', 'n'], by decide⟩ []
  have hlex : lexLine [92, 110] = [[.escape 110]] := by
    have hnil : lexLine [] = [] := by
      rw [lexLine]
      rfl
    rw [lexLine]
    change [.escape 110] :: lexLine [] = _
    rw [hnil]
  have htok : dicoTokenizeString .begin [92, 110, 0] = .ok ⟨[0, 0], 256, 1, [(1, 0)]⟩ := by
    decide
  obtain rfl := Except.ok.inj (htok.symm.trans hrun)
  change _ = (lexLine [92, 110]).map _ at htokens
  rw [hlex] at htokens
  exact absurd htokens (by decide)

end Dico
