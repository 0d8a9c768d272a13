import Dico.Text.ArgcvEscapes
import Mathlib.Algebra.Order.BigOperators.Group.List
import Mathlib.Algebra.Order.Group.Nat
/-!
# Words put together and taken apart

`roundTrip_iff` says which lists of words `argcv_get` returns from what
`argcv_string` made of them. A word put between double quotes comes back if
nothing in it is escaped, for what is between them is copied as it is; any
other word does unless it has a single quote that another one follows, in
the word itself or in a later one.
-/

namespace Dico

/-! ## Words -/

section Words

variable {w s r : Bytes} {ws : List Bytes} {n : ℕ}

/-- Whether a word is put between quotes. -/
def NeedsQuotes (w : Bytes) : Prop := w = [] ∨ 32 ∈ w ∨ 34 ∈ w

instance : DecidablePred NeedsQuotes := fun w => inferInstanceAs (Decidable (w = [] ∨ _))

/-- A word in the text. -/
def wordText (w : Bytes) : Bytes :=
  if NeedsQuotes w then 34 :: (argcvQuoteCopy .octal w ++ [34]) else argcvQuoteCopy .octal w

/-- The words behind it. -/
def restText (ws : List Bytes) : Bytes := ws.flatMap fun w => 32 :: wordText w

/-- The text of some words. -/
def argvText : List Bytes → Bytes
  | [] => []
  | w :: ws => wordText w ++ restText ws

/-- A word comes back, with some others behind it. -/
def WordKept (w : Bytes) (ws : List Bytes) : Prop :=
  if NeedsQuotes w then ∀ c ∈ w, isBare c
  else w.count 39 ≤ 1 ∧ (39 ∈ w → ∀ v ∈ ws, 39 ∉ v)

instance (w : Bytes) (ws : List Bytes) : Decidable (WordKept w ws) :=
  inferInstanceAs (Decidable (if NeedsQuotes w then _ else _))

/-- All words come back. -/
def Returned : List Bytes → Prop
  | [] => True
  | w :: ws => WordKept w ws ∧ Returned ws

/-- The text of a word is plain bytes and escapes. -/
theorem aligned_wordText (w : Bytes) : Aligned (wordText w) := by
  have hcopy := aligned_quoteCopy w
  rw [wordText]
  split_ifs
  · exact .plain (by decide) (hcopy.append (.plain (by decide) .nil))
  · exact hcopy

/-- So is the text of all. -/
theorem aligned_restText (ws : List Bytes) : Aligned (restText ws) := by
  induction ws with
  | nil => exact .nil
  | cons w ws ih =>
    rw [restText, List.flatMap_cons]
    exact (Aligned.plain (by decide) (aligned_wordText w)).append ih

/-- There is a single quote in the text of a word if there is one in it. -/
theorem closeQuote_wordText (w s : Bytes) :
    (closeQuote 39 (wordText w ++ s)).isSome ↔ 39 ∈ w ∨ (closeQuote 39 s).isSome := by
  rw [wordText]
  split_ifs
  · rw [List.cons_append, closeQuote_cons (by decide) (by decide), Option.isSome_map,
      List.append_assoc, closeQuote_quoteCopy_single, List.singleton_append,
      closeQuote_cons (by decide) (by decide), Option.isSome_map]
  · exact closeQuote_quoteCopy_single w s

/-- And in the text of several if there is one in one of them. -/
theorem closeQuote_restText (ws : List Bytes) :
    (closeQuote 39 (restText ws)).isSome ↔ ∃ v ∈ ws, 39 ∈ v := by
  induction ws with
  | nil =>
    refine iff_of_false Bool.false_ne_true ?_
    rintro ⟨v, hv, -⟩
    exact List.not_mem_nil hv
  | cons w ws ih =>
    rw [restText, List.flatMap_cons, List.cons_append,
      closeQuote_cons (by decide) (by decide), Option.isSome_map, closeQuote_wordText, ← restText,
      ih]
    simp only [List.mem_cons, exists_eq_or_imp]

/-- A word ends before the next. -/
theorem wordEnds_restText (ws : List Bytes) : WordEnds (restText ws) := by
  cases ws with
  | nil => exact .inl rfl
  | cons w ws => exact .inr rfl

/-- A single quote in the text of a word is in the word. -/
theorem single_mem_of_mem_quoteCopy (h : 39 ∈ argcvQuoteCopy .octal w) : 39 ∈ w := by
  rw [argcvQuoteCopy, List.mem_flatMap] at h
  obtain ⟨c, hc, h⟩ := h
  rcases quoteCopyChar_cases c with ⟨-, hcopy⟩ | ⟨-, hesc⟩
  · rw [hcopy, List.mem_singleton] at h
    rwa [h]
  · exact absurd rfl (hesc.ne 39 h).1

/-- There is no null in it. -/
theorem zero_notMem_quoteCopy (w : Bytes) : 0 ∉ argcvQuoteCopy .octal w := by
  intro h
  rw [argcvQuoteCopy, List.mem_flatMap] at h
  obtain ⟨c, hc, h⟩ := h
  rcases quoteCopyChar_cases c with ⟨hbare, hcopy⟩ | ⟨-, hesc⟩
  · rw [hcopy, List.mem_singleton] at h
    subst h
    exact absurd hbare (by decide)
  · exact absurd rfl (hesc.ne 0 h).2

/-- There is no null in the text of several. -/
theorem zero_notMem_wordText (w : Bytes) : 0 ∉ wordText w := by
  have hcopy := zero_notMem_quoteCopy w
  rw [wordText]
  split_ifs
  · rw [List.mem_cons, List.mem_append, List.mem_singleton, not_or, not_or]
    exact ⟨by decide, hcopy, by decide⟩
  · exact hcopy

/-- Nor in the rest. -/
theorem zero_notMem_restText (ws : List Bytes) : 0 ∉ restText ws := by
  rw [restText, List.mem_flatMap]
  rintro ⟨w, -, h⟩
  rcases List.mem_cons.1 h with h | h
  · exact absurd h (by decide)
  · exact zero_notMem_wordText w h

/-- A word with a single quote is taken apart at the first of them. -/
theorem split_single (h : 39 ∈ w) : ∃ x y, w = x ++ 39 :: y ∧ 39 ∉ x :=
  List.eq_append_cons_of_mem h

/-- A word without quotes that is kept has nothing to hide its end. -/
theorem WordKept.closeQuote_eq_none {x y : Bytes} (hq : ¬ NeedsQuotes (x ++ 39 :: y))
    (h : WordKept (x ++ 39 :: y) ws) : 39 ∉ x ∧ 39 ∉ y ∧
      (closeQuote 39 (argcvQuoteCopy .octal y ++ restText ws)).isSome = false := by
  rw [WordKept, if_neg hq, List.count_append, List.count_cons_self] at h
  have hx : 39 ∉ x := List.count_eq_zero.1 (by omega)
  have hy : 39 ∉ y := List.count_eq_zero.1 (by omega)
  refine ⟨hx, hy, ?_⟩
  rw [← Bool.not_eq_true, closeQuote_quoteCopy_single, closeQuote_restText, not_or]
  refine ⟨hy, ?_⟩
  rintro ⟨v, hv, hmem⟩
  exact h.2 (List.mem_append_right _ List.mem_cons_self) v hv hmem

/-- A word that is not kept has one that hides it. -/
theorem closeQuote_of_not_kept (hq : ¬ NeedsQuotes w) (h : ¬ WordKept w ws) :
    ∃ x y, w = x ++ 39 :: y ∧ 39 ∉ x ∧
      (closeQuote 39 (argcvQuoteCopy .octal y ++ restText ws)).isSome := by
  rw [WordKept, if_neg hq] at h
  have hmem : 39 ∈ w := by
    by_contra hnot
    refine h ⟨?_, fun hin => absurd hin hnot⟩
    rw [List.count_eq_zero.2 hnot]
    exact Nat.zero_le 1
  obtain ⟨x, y, rfl, hx⟩ := split_single hmem
  refine ⟨x, y, rfl, hx, ?_⟩
  rw [closeQuote_quoteCopy_single, closeQuote_restText]
  by_contra hnot
  rw [not_or] at hnot
  refine h ⟨?_, fun _ v hv hin => hnot.2 ⟨v, hv, hin⟩⟩
  rw [List.count_append, List.count_cons_self, List.count_eq_zero.2 hx,
    List.count_eq_zero.2 hnot.1]

/-- The letters of a word that needs no quotes. -/
theorem notMem_of_not_needsQuotes (hq : ¬ NeedsQuotes w) : w ≠ [] ∧ 32 ∉ w ∧ 34 ∉ w := by
  rw [NeedsQuotes, not_or, not_or] at hq
  exact hq

/-- The token of a quoted word. -/
theorem tokenSpan_quoted (hq : NeedsQuotes w) (ws : List Bytes) :
    tokenSpan [] (wordText w ++ restText ws) = (argcvQuoteCopy .octal w).length + 2 := by
  have hclose : closeQuote 34 (argcvQuoteCopy .octal w ++ 34 :: restText ws) =
      some (argcvQuoteCopy .octal w).length := by
    rw [closeQuote_quoteCopy_double, closeQuote.eq_def]
    simp only [if_true, Option.map_some, Nat.zero_add]
  rw [wordText, if_pos hq, List.cons_append, List.append_assoc, List.singleton_append,
    tokenSpan_quote (.inr rfl) hclose, drop_place, tokenSpan_end (wordEnds_restText ws)]

/-- The token of another word that is kept. -/
theorem tokenSpan_kept (hq : ¬ NeedsQuotes w) (h : WordKept w ws) :
    tokenSpan [] (wordText w ++ restText ws) = (argcvQuoteCopy .octal w).length := by
  obtain ⟨-, h₃₂, h₃₄⟩ := notMem_of_not_needsQuotes hq
  rw [wordText, if_neg hq]
  by_cases hmem : 39 ∈ w
  · obtain ⟨x, y, rfl, -⟩ := split_single hmem
    obtain ⟨hx, hy, hnone⟩ := WordKept.closeQuote_eq_none hq h
    rw [List.mem_append, List.mem_cons, not_or, not_or] at h₃₂ h₃₄
    have hcopy : argcvQuoteCopy .octal (x ++ 39 :: y) =
        argcvQuoteCopy .octal x ++ 39 :: argcvQuoteCopy .octal y := List.flatMap_append
    rw [hcopy, List.append_assoc, List.cons_append, tokenSpan_quoteCopy h₃₂.1 h₃₄.1 hx,
      tokenSpan_lone (.inl rfl) (Option.not_isSome_iff_eq_none.1 (by rw [hnone]; decide)),
      tokenSpan_quoteCopy h₃₂.2.2 h₃₄.2.2 hy, tokenSpan_end (wordEnds_restText ws),
      List.length_append, List.length_cons]
    omega
  · rw [tokenSpan_quoteCopy h₃₂ h₃₄ hmem, tokenSpan_end (wordEnds_restText ws), Nat.add_zero]

/-- **The token of a kept word is its text.** -/
theorem tokenSpan_wordText (h : WordKept w ws) :
    tokenSpan [] (wordText w ++ restText ws) = (wordText w).length := by
  by_cases hq : NeedsQuotes w
  · rw [tokenSpan_quoted hq, wordText, if_pos hq, List.length_cons, List.length_append,
      List.length_singleton]
  · rw [tokenSpan_kept hq h, wordText, if_neg hq]

end Words

/-! ## Reading a token -/

section Reading

variable {w src dst : Bytes} {ws : List Bytes} {n : ℕ}

/-- The scanner without delimiters and comments. -/
def plainCommand (command : Bytes) : ArgcvCommand := ⟨command.length, command, [], [], true⟩

/-- What is between two quotes. -/
def isQuotedToken (n : ℕ) (src : Bytes) : Prop :=
  (src.getD 0 0 = 34 ∨ src.getD (n - 1) 0 = 39) ∧ src.getD (n - 1) 0 = src.getD 0 0

instance (n : ℕ) (src : Bytes) : Decidable (isQuotedToken n src) :=
  inferInstanceAs (Decidable (_ ∧ _))

/-- What is copied of the first `n` bytes of a string. -/
def tokenCopy (n : ℕ) (src : Bytes) : Except ArgcvError Bytes :=
  if isQuotedToken n src then .ok (if 1 < n then (src.drop 1).take (n - 2) else src.take n)
  else argcvUnquoteCopy none n src

/-- The word that they are read as. -/
def readToken (n : ℕ) (src : Bytes) : Except ArgcvError Bytes := do
  let dst ← tokenCopy n src
  if dst.length ≤ n then .ok (dst.takeWhile (· ≠ 0)) else .error (.fault .bounds)

/-- A byte of the command. -/
theorem charAt_place (pre src : Bytes) (k : ℕ) :
    (plainCommand (pre ++ src)).charAt (pre.length + k) = src.getD k 0 := by
  rw [ArgcvCommand.charAt, plainCommand, List.getD_eq_getElem?_getD,
    List.getElem?_append_right (Nat.le_add_right _ _), Nat.add_sub_cancel_left,
    List.getD_eq_getElem?_getD]

/-- What is left of the command. -/
theorem behindPlace_place (pre src : Bytes) :
    (plainCommand (pre ++ src)).behindPlace pre.length = src := by
  rw [ArgcvCommand.behindPlace, plainCommand, List.take_length, List.drop_left]

/-- A token is read where it is. -/
theorem argcvToken_eq (pre : Bytes) (hn : 1 ≤ n) (save pos : ℕ) :
    argcvToken (plainCommand (pre ++ src)) ⟨pre.length, pre.length + n - 1, save, pos⟩ =
      readToken n src := by
  have hlast := charAt_place pre src (n - 1)
  have hfirst := charAt_place pre src 0
  rw [Nat.add_zero] at hfirst
  rw [← Nat.add_sub_assoc hn] at hlast
  have hdrop : (plainCommand (pre ++ src)).command.drop pre.length = src := List.drop_left
  have hlen : pre.length + n - 1 - pre.length + 1 = n := by omega
  have hlt : pre.length < pre.length + n - 1 ↔ 1 < n := by omega
  have hcopy : argcvTokenCopy (plainCommand (pre ++ src))
      ⟨pre.length, pre.length + n - 1, save, pos⟩ = tokenCopy n src := by
    rw [argcvTokenCopy, tokenCopy]
    simp only [hfirst, hlast, hdrop, hlen, hlt]
    by_cases h : isQuotedToken n src
    · rw [if_pos h]
      exact if_pos h
    · rw [if_neg h]
      exact if_neg h
  rw [argcvToken, hcopy, readToken, hlen]

/-- A token of which a word is copied is read as that word. -/
theorem readToken_of_copy (h : tokenCopy n src = .ok w) (hlen : w.length ≤ n) (h₀ : 0 ∉ w) :
    readToken n src = .ok w := by
  have hall : w.takeWhile (· ≠ 0) = w :=
    List.takeWhile_eq_self_iff.2 fun b hb => decide_eq_true fun hb₀ => h₀ (hb₀ ▸ hb)
  rw [readToken, h, ok_bind, if_pos hlen, hall]

/-- A token that is read as a word is copied up to a null. -/
theorem exists_copy_of_readToken (h : readToken n src = .ok w) :
    ∃ dst, tokenCopy n src = .ok dst ∧ w = dst.takeWhile (· ≠ 0) := by
  rw [readToken] at h
  obtain ⟨dst, hdst, h⟩ := bind_eq_ok.1 h
  split_ifs at h
  exact ⟨dst, hdst, (Except.ok.inj h).symm⟩

/-! ### Between double quotes -/

/-- What one byte is copied as. -/
theorem quoteCopyChar_length (c : UInt8) : 1 ≤ (quoteCopyChar .octal c).length ∧
    (¬ isBare c → 1 < (quoteCopyChar .octal c).length) := by
  rcases quoteCopyChar_cases c with ⟨hbare, hcopy⟩ | ⟨-, hesc⟩
  · rw [hcopy]
    exact ⟨le_rfl, fun h => absurd hbare h⟩
  · have hlen : 1 < (quoteCopyChar .octal c).length := by
      generalize quoteCopyChar .octal c = u at hesc
      cases hesc with
      | char d hd => exact Nat.lt_add_one 1
      | octal c hc => exact Nat.succ_lt_succ (Nat.zero_lt_succ 2)
    exact ⟨hlen.le, fun _ => hlen⟩

/-- The text of a word is no shorter than the word. -/
theorem length_le_quoteCopy (w : Bytes) : w.length ≤ (argcvQuoteCopy .octal w).length := by
  induction w with
  | nil => exact le_rfl
  | cons c w ih =>
    have hc := (quoteCopyChar_length c).1
    rw [argcvQuoteCopy_cons, List.length_append, List.length_cons]
    omega

/-- **It is longer if anything is escaped**, and else the same. -/
theorem quoteCopy_eq_self_iff (w : Bytes) :
    argcvQuoteCopy .octal w = w ↔ ∀ c ∈ w, isBare c := by
  induction w with
  | nil => exact iff_of_true rfl fun c hc => absurd hc List.not_mem_nil
  | cons c w ih =>
    rw [argcvQuoteCopy_cons, List.forall_mem_cons, ← ih]
    rcases quoteCopyChar_cases c with ⟨hbare, hcopy⟩ | ⟨hnot, -⟩
    · rw [hcopy, List.singleton_append, List.cons_inj_right, and_iff_right hbare]
    · refine iff_of_false ?_ fun h => hnot h.1
      intro h
      have hlen := congrArg List.length h
      have hc := (quoteCopyChar_length c).2 hnot
      have hw := length_le_quoteCopy w
      rw [List.length_append, List.length_cons] at hlen
      omega

/-- **A quoted word is read as its text.** -/
theorem readToken_quoted (hq : NeedsQuotes w) (ws : List Bytes) :
    readToken ((argcvQuoteCopy .octal w).length + 2) (wordText w ++ restText ws) =
      .ok (argcvQuoteCopy .octal w) := by
  have htext : wordText w ++ restText ws =
      34 :: (argcvQuoteCopy .octal w ++ 34 :: restText ws) := by
    rw [wordText, if_pos hq, List.cons_append, List.append_assoc, List.singleton_append]
  have hlast : (34 :: (argcvQuoteCopy .octal w ++ 34 :: restText ws)).getD
      ((argcvQuoteCopy .octal w).length + 2 - 1) 0 = 34 := by
    rw [Nat.add_sub_assoc (by decide), List.getD_cons_succ, List.getD_eq_getElem?_getD,
      getElem?_place, Option.getD_some]
  have hquoted : isQuotedToken ((argcvQuoteCopy .octal w).length + 2)
      (34 :: (argcvQuoteCopy .octal w ++ 34 :: restText ws)) := by
    rw [isQuotedToken, hlast]
    exact ⟨.inl rfl, rfl⟩
  refine readToken_of_copy ?_ (Nat.le_add_right _ 2) (zero_notMem_quoteCopy w)
  rw [htext, tokenCopy, if_pos hquoted, if_pos (by omega), Nat.add_sub_cancel, List.drop_one,
    List.tail_cons, List.take_left]

/-! ### Without them -/

/-- The first byte of a word decides whether its text begins with a single
quote. -/
theorem getD_quoteCopy (hw : w ≠ []) (r : Bytes) :
    (argcvQuoteCopy .octal w ++ r).getD 0 0 ≠ 34 ∧
      ((argcvQuoteCopy .octal w ++ r).getD 0 0 = 39 → ∃ y, w = 39 :: y) := by
  obtain ⟨c, y, rfl⟩ := List.exists_cons_of_ne_nil hw
  rw [argcvQuoteCopy_cons, List.append_assoc]
  rcases quoteCopyChar_cases c with ⟨hbare, hcopy⟩ | ⟨-, hesc⟩
  · rw [hcopy]
    exact ⟨hbare.1, fun h => ⟨y, by rw [show c = 39 from h]⟩⟩
  · obtain ⟨v, hv⟩ := hesc.exists_cons
    rw [hv, List.cons_append, List.getD_cons_zero]
    exact ⟨by decide, fun h => absurd h (by decide)⟩

/-- **The text of a word is not the word between single quotes.** -/
theorem quoteCopy_ne {r : Bytes} (hr : WordEnds r) (t : Bytes) :
    argcvQuoteCopy .octal w ++ r ≠ 39 :: (w ++ 39 :: t) := by
  induction w with
  | nil =>
    intro h
    rcases hr with rfl | hr
    · cases h
    · have hhead := congrArg List.head? h
      rw [argcvQuoteCopy, List.flatMap_nil, List.nil_append, hr] at hhead
      cases hhead
  | cons c w ih =>
    intro h
    rw [argcvQuoteCopy_cons, List.append_assoc] at h
    rcases quoteCopyChar_cases c with ⟨-, hcopy⟩ | ⟨-, hesc⟩
    · rw [hcopy, List.singleton_append, List.cons.injEq] at h
      obtain ⟨rfl, h⟩ := h
      exact ih h
    · obtain ⟨v, hv⟩ := hesc.exists_cons
      rw [hv, List.cons_append, List.cons.injEq] at h
      exact absurd h.1 (by decide)

/-- The last byte of a text is in it. -/
theorem getD_last_mem (hs : src ≠ []) (r : Bytes) :
    (src ++ r).getD (src.length - 1) 0 ∈ src := by
  have hlen := List.length_pos_of_ne_nil hs
  have hlt : src.length - 1 < src.length := by omega
  rw [List.getD_eq_getElem?_getD, List.getElem?_append_left hlt, List.getElem?_eq_getElem hlt,
    Option.getD_some]
  exact List.getElem_mem hlt

/-- The text of a single quote and more. -/
theorem quoteCopy_single_cons (x y : Bytes) :
    argcvQuoteCopy .octal (x ++ 39 :: y) =
      argcvQuoteCopy .octal x ++ 39 :: argcvQuoteCopy .octal y :=
  List.flatMap_append

/-- The text of a word is empty if the word is. -/
theorem quoteCopy_ne_nil (hw : w ≠ []) : argcvQuoteCopy .octal w ≠ [] := by
  intro h
  have hlen := length_le_quoteCopy w
  rw [h, List.length_nil, Nat.le_zero] at hlen
  exact hw (List.length_eq_zero_iff.1 hlen)

/-- A kept word whose text is between two quotes is one quote. -/
theorem eq_single_of_isQuotedToken (hq : ¬ NeedsQuotes w) (h : WordKept w ws) {r : Bytes}
    (hquoted : isQuotedToken (argcvQuoteCopy .octal w).length (argcvQuoteCopy .octal w ++ r)) :
    w = [39] := by
  obtain ⟨hne, -, -⟩ := notMem_of_not_needsQuotes hq
  obtain ⟨h₃₄, h₃₉⟩ := getD_quoteCopy hne r
  obtain ⟨hor, heq⟩ := hquoted
  have hlast := hor.resolve_left h₃₄
  rw [hlast] at heq
  obtain ⟨y, rfl⟩ := h₃₉ heq.symm
  obtain ⟨-, hy, -⟩ := WordKept.closeQuote_eq_none (x := []) hq h
  by_contra hmore
  have hy' : y ≠ [] := fun hnil => hmore (by rw [hnil])
  have hcopy : argcvQuoteCopy .octal (39 :: y) = 39 :: argcvQuoteCopy .octal y :=
    quoteCopy_single_cons [] y
  have hmem := getD_last_mem (quoteCopy_ne_nil hy') r
  have hpos := List.length_pos_of_ne_nil (quoteCopy_ne_nil hy')
  rw [hcopy, List.length_cons, Nat.add_sub_cancel, List.cons_append,
    ← Nat.sub_add_cancel hpos, List.getD_cons_succ] at hlast
  rw [hlast] at hmem
  exact hy (single_mem_of_mem_quoteCopy hmem)

/-- A kept word is copied back. -/
theorem unquote_kept (hq : ¬ NeedsQuotes w) (h : WordKept w ws) :
    argcvUnquoteCopy none (argcvQuoteCopy .octal w).length
      (argcvQuoteCopy .octal w ++ restText ws) = .ok w := by
  have hplain : ∀ v : Bytes, 39 ∉ v → argcvUnquoteCopy none (argcvQuoteCopy .octal v).length
      (argcvQuoteCopy .octal v ++ restText ws) = .ok v := by
    intro v hv
    have hcopy := @unquote_quoteCopy (restText ws) v none 0 hv
    rwa [Nat.add_zero, unquote_zero, ok_bind, List.append_nil] at hcopy
  by_cases hmem : 39 ∈ w
  · obtain ⟨x, y, rfl, -⟩ := split_single hmem
    obtain ⟨hx, hy, hnone⟩ := WordKept.closeQuote_eq_none hq h
    have hs := (aligned_quoteCopy y).append (aligned_restText ws)
    rw [quoteCopy_single_cons, List.length_append, List.length_cons, List.append_assoc,
      List.cons_append, unquote_quoteCopy hx, unquote_lone hs hnone, hplain y hy]
    rfl
  · exact hplain w hmem

/-- **A kept word without double quotes is read as it is.** -/
theorem readToken_kept (hq : ¬ NeedsQuotes w) (h : WordKept w ws) (h₀ : 0 ∉ w) :
    readToken (argcvQuoteCopy .octal w).length (wordText w ++ restText ws) = .ok w := by
  refine readToken_of_copy ?_ (length_le_quoteCopy w) h₀
  rw [wordText, if_neg hq, tokenCopy]
  by_cases hquoted : isQuotedToken (argcvQuoteCopy .octal w).length
      (argcvQuoteCopy .octal w ++ restText ws)
  · rw [if_pos hquoted]
    obtain rfl := eq_single_of_isQuotedToken hq h hquoted
    rfl
  · rw [if_neg hquoted]
    exact unquote_kept hq h

/-! ### Single quotes in pairs -/

/-- How the token of a word goes on behind a quote that hides its end. -/
theorem tokenSpan_open {x y : Bytes} (hq : ¬ NeedsQuotes (x ++ 39 :: y)) (hx : 39 ∉ x)
    (hsome : (closeQuote 39 (argcvQuoteCopy .octal y ++ restText ws)).isSome) :
    ∃ m, tokenSpan [] (wordText (x ++ 39 :: y) ++ restText ws) =
      (argcvQuoteCopy .octal x).length + (m + 1 + 1) := by
  obtain ⟨-, h₃₂, h₃₄⟩ := notMem_of_not_needsQuotes hq
  rw [List.mem_append, not_or] at h₃₂ h₃₄
  obtain ⟨j, hj⟩ := Option.isSome_iff_exists.1 hsome
  refine ⟨j + tokenSpan [] ((argcvQuoteCopy .octal y ++ restText ws).drop (j + 1)), ?_⟩
  rw [wordText, if_neg hq, quoteCopy_single_cons, List.append_assoc, List.cons_append,
    tokenSpan_quoteCopy h₃₂.1 h₃₄.1 hx, tokenSpan_quote (.inl rfl) hj]
  omega

/-- **The word is not what is between two single quotes.** -/
theorem take_ne (hw : w ≠ []) (hws : WordEnds src) (hn : 1 < n)
    (hquoted : isQuotedToken n (argcvQuoteCopy .octal w ++ src)) :
    ((argcvQuoteCopy .octal w ++ src).drop 1).take (n - 2) ≠ w := by
  intro htake
  obtain ⟨m, rfl⟩ : ∃ m, n = m + 2 := ⟨n - 2, by omega⟩
  rw [Nat.add_sub_cancel] at htake
  obtain ⟨h₃₄, -⟩ := getD_quoteCopy hw src
  obtain ⟨hor, heq⟩ := hquoted
  have hlast := hor.resolve_left h₃₄
  rw [hlast] at heq
  generalize htext : argcvQuoteCopy .octal w ++ src = text at *
  cases text with
  | nil => cases heq
  | cons c t =>
    obtain rfl : 39 = c := heq
    rw [List.drop_one, List.tail_cons] at htake
    have hget : t.getD m 0 = 39 := hlast
    have hlt : m < t.length := by
      by_contra hge
      rw [List.getD_eq_getElem?_getD, List.getElem?_eq_none (by omega)] at hget
      cases hget
    have ht : t = w ++ 39 :: t.drop (m + 1) := by
      rw [List.getD_eq_getElem?_getD, List.getElem?_eq_getElem hlt, Option.getD_some] at hget
      rw [← hget, ← htake, ← List.drop_eq_getElem_cons hlt, List.take_append_drop]
    rw [ht] at htext
    exact quoteCopy_ne hws _ htext

/-- **A word without double quotes that is not kept is read as another.** -/
theorem readToken_ne (hq : ¬ NeedsQuotes w) (h : ¬ WordKept w ws) :
    readToken (tokenSpan [] (wordText w ++ restText ws)) (wordText w ++ restText ws) ≠
      .ok w := by
  intro hread
  obtain ⟨x, y, rfl, hx, hsome⟩ := closeQuote_of_not_kept hq h
  obtain ⟨m, hspan⟩ := tokenSpan_open hq hx hsome
  rw [hspan] at hread
  obtain ⟨dst, hdst, hw⟩ := exists_copy_of_readToken hread
  have hmem : 39 ∈ x ++ 39 :: y := List.mem_append_right x List.mem_cons_self
  rw [tokenCopy, wordText, if_neg hq] at hdst
  by_cases hquoted : isQuotedToken ((argcvQuoteCopy .octal x).length + (m + 1 + 1))
      (argcvQuoteCopy .octal (x ++ 39 :: y) ++ restText ws)
  · -- nothing is dropped but the first and the last byte of the token
    rw [if_pos hquoted, if_pos (by omega)] at hdst
    have hall : dst.takeWhile (· ≠ 0) = dst := by
      refine List.takeWhile_eq_self_iff.2 fun b hb => decide_eq_true ?_
      rintro rfl
      rw [← Except.ok.inj hdst] at hb
      rcases List.mem_append.1 (List.mem_of_mem_drop (List.mem_of_mem_take hb)) with hb | hb
      · exact zero_notMem_quoteCopy _ hb
      · exact zero_notMem_restText ws hb
    rw [hall] at hw
    rw [← hw, Except.ok.injEq] at hdst
    have hne : x ++ 39 :: y ≠ [] := List.ne_nil_of_mem hmem
    exact take_ne hne (wordEnds_restText ws) (by omega) hquoted hdst
  · -- the first single quote is dropped, and no later one is copied
    have hs := (aligned_quoteCopy y).append (aligned_restText ws)
    rw [if_neg hquoted, quoteCopy_single_cons, List.append_assoc, List.cons_append,
      unquote_quoteCopy hx, unquote_open hs hsome] at hdst
    obtain ⟨rest, hrest, hdst⟩ := bind_eq_ok.1 hdst
    cases hdst
    have hin : 39 ∈ x ++ rest := by
      rw [hw] at hmem
      exact (List.takeWhile_prefix _).subset hmem
    rcases List.mem_append.1 hin with hin | hin
    · exact hx hin
    · exact single_notMem_unquote hs hrest hin

/-- **Which words are read as they are.** -/
theorem readToken_iff (h₀ : 0 ∉ w) (ws : List Bytes) :
    readToken (tokenSpan [] (wordText w ++ restText ws)) (wordText w ++ restText ws) = .ok w ↔
      WordKept w ws := by
  by_cases hq : NeedsQuotes w
  · rw [tokenSpan_quoted hq, readToken_quoted hq, Except.ok.injEq, quoteCopy_eq_self_iff, WordKept,
      if_pos hq]
  by_cases h : WordKept w ws
  · rw [tokenSpan_kept hq h]
    exact iff_of_true (readToken_kept hq h h₀) h
  · exact iff_of_false (readToken_ne hq h) h

end Reading

/-! ## The scanner -/

section Scanner

variable {w s pre sep : Bytes} {ws : List Bytes} {info : ArgcvInfo}

/-- The text of some words with something before the first. -/
def sepText (sep : Bytes) : List Bytes → Bytes
  | [] => []
  | w :: ws => sep ++ (wordText w ++ restText ws)

/-- The text of all words has nothing before the first. -/
theorem argvText_eq (ws : List Bytes) : argvText ws = sepText [] ws := by
  cases ws <;> rfl

/-- The text of the rest has a blank. -/
theorem restText_eq (ws : List Bytes) : restText ws = sepText [32] ws := by
  cases ws <;> rfl

/-- A text of a word begins with what is no white space. -/
theorem exists_cons_wordText (w : Bytes) : ∃ c t, wordText w = c :: t ∧ ¬ isws c ∧ c ≠ 0 := by
  by_cases hq : NeedsQuotes w
  · rw [wordText, if_pos hq]
    exact ⟨34, _, rfl, by decide, by decide⟩
  obtain ⟨hne, h₃₂, -⟩ := notMem_of_not_needsQuotes hq
  obtain ⟨c, w, rfl⟩ := List.exists_cons_of_ne_nil hne
  rw [wordText, if_neg hq, argcvQuoteCopy_cons]
  rcases quoteCopyChar_cases c with ⟨hbare, hcopy⟩ | ⟨-, hesc⟩
  · have hprint := UInt8.le_iff_toNat_le.1 hbare.2.2.2.1
    refine ⟨c, _, by rw [hcopy, List.singleton_append], ?_, ?_⟩
    · rintro (rfl | rfl | rfl)
      · exact h₃₂ List.mem_cons_self
      · exact absurd hprint (by decide)
      · exact absurd hprint (by decide)
    · rintro rfl
      exact absurd hprint (by decide)
  · obtain ⟨v, hv⟩ := hesc.exists_cons
    exact ⟨92, _, by rw [hv, List.cons_append], by decide, by decide⟩

/-- A token is not empty unless it ends at once. -/
theorem tokenSpan_pos {c : UInt8} (hws : ¬ isws c) (h₀ : c ≠ 0) :
    1 ≤ tokenSpan [] (c :: s) := by
  have hend : ¬ (isws c ∨ isdelim [] c) := by
    rintro (h | h | h)
    · exact hws h
    · exact List.not_mem_nil h
    · exact h₀ h
  rw [tokenSpan.eq_def]
  by_cases hb : c = 92
  · simp only [if_pos hb]
    rcases s with - | ⟨d, s⟩
    · exact le_rfl
    · exact Nat.le_add_right_of_le (by decide)
  by_cases hq : c = 39 ∨ c = 34
  · simp only [if_neg hb, if_pos hq]
    rcases closeQuote c s with - | j
    · exact Nat.le_add_right 1 _
    · exact Nat.le_add_right_of_le (Nat.le_add_left 1 (j + 1))
  · simp only [if_neg hb, if_neg hq, if_neg hend]
    exact Nat.le_add_right 1 _

/-- What the scanner keeps of a token of `n` bytes. -/
def tokenInfo (start n : ℕ) : ArgcvInfo := ⟨start, start + n - 1, start + n, start + n⟩

/-- Where a token begins, and where it ends. -/
theorem argcvScan_token {c : UInt8} {t : Bytes} (hs : s = c :: t)
    (hsep : ∀ b ∈ sep, isws b) (hws : ¬ isws c) (h₀ : c ≠ 0) (hsave : info.save = pre.length) :
    argcvScan (plainCommand (pre ++ sep ++ s)) info =
      .ok ((pre ++ sep).length + tokenSpan [] s,
        tokenInfo (pre ++ sep).length (tokenSpan [] s)) := by
  have hstart : (plainCommand (pre ++ sep ++ s)).skip (fun c => decide (isws c)) info.save =
      (pre ++ sep).length := by
    rw [ArgcvCommand.skip, hsave, List.append_assoc, behindPlace_place,
      List.takeWhile_append_of_pos fun b hb => decide_eq_true (hsep b hb), hs,
      List.takeWhile_cons_of_neg (by rwa [decide_eq_true_iff]), List.append_nil,
      List.length_append]
  have hchar : (plainCommand (pre ++ sep ++ s)).charAt (pre ++ sep).length = c := by
    have hplace := charAt_place (pre ++ sep) s 0
    rwa [Nat.add_zero, hs, List.getD_cons_zero, ← hs] at hplace
  have hlen : (plainCommand (pre ++ sep ++ s)).len = (pre ++ sep).length + s.length :=
    List.length_append
  have hpos : 1 ≤ s.length := by
    rw [hs, List.length_cons]
    omega
  have hspan : 1 ≤ tokenSpan [] s := by
    rw [hs]
    exact tokenSpan_pos hws h₀
  have hdelim : ¬ isdelim [] c := by
    rintro (h | h)
    · exact List.not_mem_nil h
    · exact h₀ h
  have hbefore : ¬ info.save ≥ (plainCommand (pre ++ sep ++ s)).len := by
    rw [hlen, hsave, List.length_append]
    omega
  have hnone : (plainCommand (pre ++ sep ++ s)).delim = [] := rfl
  have hcmnt : (plainCommand (pre ++ sep ++ s)).comment = [] := rfl
  rw [argcvScan, argcvScanLoop, if_neg hbefore]
  simp only [hstart, hchar, hnone, hcmnt]
  rw [if_neg fun h => hdelim h.1, if_neg hdelim, if_neg fun h => hdelim h.2, behindPlace_place,
    Nat.sub_add_cancel (hspan.trans (Nat.le_add_left _ _)), tokenInfo]

/-- Nothing is left. -/
theorem argcvScan_end (hsave : info.save = s.length) :
    argcvScan (plainCommand s) info = .ok (s.length + 1, info) := by
  have hlen : (plainCommand s).len = s.length := rfl
  rw [argcvScan, argcvScanLoop, hsave, hlen, if_pos le_rfl]

/-- The token of a word. -/
theorem argcvScan_word (hsep : ∀ b ∈ sep, isws b) (hsave : info.save = pre.length) (w : Bytes)
    (ws : List Bytes) :
    argcvScan (plainCommand (pre ++ sepText sep (w :: ws))) info =
      .ok ((pre ++ sep).length + tokenSpan [] (wordText w ++ restText ws),
        tokenInfo (pre ++ sep).length (tokenSpan [] (wordText w ++ restText ws))) := by
  obtain ⟨c, t, htext, hws, h₀⟩ := exists_cons_wordText w
  have hs : wordText w ++ restText ws = c :: (t ++ restText ws) := by
    rw [htext, List.cons_append]
  rw [sepText, ← List.append_assoc]
  exact argcvScan_token hs hsep hws h₀ hsave

/-- It is read behind what precedes it. -/
theorem argcvToken_word (pre sep w : Bytes) (ws : List Bytes) :
    argcvToken (plainCommand (pre ++ sepText sep (w :: ws)))
        (tokenInfo (pre ++ sep).length (tokenSpan [] (wordText w ++ restText ws))) =
      readToken (tokenSpan [] (wordText w ++ restText ws)) (wordText w ++ restText ws) := by
  obtain ⟨c, t, htext, hws, h₀⟩ := exists_cons_wordText w
  have hspan : 1 ≤ tokenSpan [] (wordText w ++ restText ws) := by
    rw [htext, List.cons_append]
    exact tokenSpan_pos hws h₀
  rw [sepText, ← List.append_assoc, tokenInfo]
  exact argcvToken_eq (pre ++ sep) hspan _ _

/-- Where the next word begins if this one is kept. -/
theorem save_tokenInfo (pre : Bytes) (h : WordKept w ws) :
    (tokenInfo pre.length (tokenSpan [] (wordText w ++ restText ws))).save =
      (pre ++ wordText w).length := by
  rw [tokenSpan_wordText h, tokenInfo, List.length_append]

/-- What is in front of it. -/
theorem sepText_cons (pre sep w : Bytes) (ws : List Bytes) :
    pre ++ sepText sep (w :: ws) = pre ++ sep ++ wordText w ++ sepText [32] ws := by
  rw [sepText, restText_eq, List.append_assoc, List.append_assoc]

/-- A blank is white space. -/
theorem isws_blank : ∀ b ∈ ([32] : Bytes), isws b := by
  intro b hb
  rw [List.mem_singleton.1 hb]
  exact .inl rfl

/-- **WordKept words are counted.** -/
theorem argcvCount_eq (h : Returned ws) (hsep : ∀ b ∈ sep, isws b)
    (hsave : info.save = pre.length) {fuel : ℕ} (hfuel : ws.length < fuel) :
    ∃ info', argcvCount (plainCommand (pre ++ sepText sep ws)) fuel info =
      .ok (ws.length, info') := by
  induction ws generalizing pre sep info fuel with
  | nil =>
    obtain ⟨k, rfl⟩ := Nat.exists_eq_add_one_of_ne_zero (Nat.ne_of_gt hfuel)
    refine ⟨info, ?_⟩
    rw [argcvCount, sepText, List.append_nil, argcvScan_end hsave, ok_bind]
    exact if_neg (Nat.not_succ_le_self pre.length)
  | cons w ws ih =>
    obtain ⟨k, rfl⟩ := Nat.exists_eq_add_one_of_ne_zero (Nat.ne_of_gt (Nat.zero_lt_of_lt hfuel))
    obtain ⟨info', hcount⟩ := ih h.2 isws_blank (save_tokenInfo (pre ++ sep) h.1)
      (Nat.lt_of_succ_lt_succ hfuel)
    have hlen : (pre ++ sep).length + tokenSpan [] (wordText w ++ restText ws) ≤
        (plainCommand (pre ++ sepText sep (w :: ws))).len := by
      have hcommand : (plainCommand (pre ++ sepText sep (w :: ws))).len =
          (pre ++ sep ++ wordText w ++ sepText [32] ws).length := by
        rw [← sepText_cons]
        rfl
      rw [hcommand, tokenSpan_wordText h.1]
      simp only [List.length_append]
      omega
    refine ⟨info', ?_⟩
    rw [argcvCount, argcvScan_word hsep hsave, ok_bind]
    simp only [if_pos hlen]
    rw [sepText_cons, hcount]
    rfl

/-- **The words that are copied are the same if they are kept, and only then.** -/
theorem argcvCopy_iff (h₀ : ∀ w ∈ ws, 0 ∉ w) (hsep : ∀ b ∈ sep, isws b)
    (hsave : info.save = pre.length) :
    (∃ info', argcvCopy (plainCommand (pre ++ sepText sep ws)) ws.length info = .ok (ws, info')) ↔
      Returned ws := by
  induction ws generalizing pre sep info with
  | nil => exact iff_of_true ⟨info, rfl⟩ trivial
  | cons w ws ih =>
    rw [List.forall_mem_cons] at h₀
    rw [List.length_cons, argcvCopy, argcvScan_word hsep hsave, ok_bind]
    simp only [argcvToken_word]
    constructor
    · rintro ⟨info', h⟩
      obtain ⟨arg, harg, h⟩ := bind_eq_ok.1 h
      obtain ⟨⟨argv, info''⟩, hargv, h⟩ := bind_eq_ok.1 h
      obtain ⟨hwords, -⟩ := Prod.mk.inj (Except.ok.inj h)
      obtain ⟨hword, hrest⟩ : arg = w ∧ argv = ws := List.cons.inj hwords
      rw [hword] at harg
      rw [hrest, sepText_cons] at hargv
      have hkept := (readToken_iff h₀.1 ws).1 harg
      exact ⟨hkept, (ih h₀.2 isws_blank (save_tokenInfo (pre ++ sep) hkept)).1 ⟨_, hargv⟩⟩
    · rintro ⟨hkept, h⟩
      obtain ⟨info', hargv⟩ := (ih h₀.2 isws_blank (save_tokenInfo (pre ++ sep) hkept)).2 h
      refine ⟨info', ?_⟩
      rw [(readToken_iff h₀.1 ws).2 hkept, ok_bind, sepText_cons, hargv]
      rfl

/-- As many words are copied as were counted. -/
theorem argcvCopy_length {ap : ArgcvCommand} {argc : ℕ} {argv : List Bytes} {info' : ArgcvInfo}
    (h : argcvCopy ap argc info = .ok (argv, info')) : argv.length = argc := by
  induction argc generalizing info argv info' with
  | zero =>
    cases h
    rfl
  | succ argc ih =>
    rw [argcvCopy] at h
    obtain ⟨⟨save, info₁⟩, -, h⟩ := bind_eq_ok.1 h
    obtain ⟨arg, -, h⟩ := bind_eq_ok.1 h
    obtain ⟨⟨argv₁, info₂⟩, hargv, h⟩ := bind_eq_ok.1 h
    cases h
    exact congrArg (· + 1) (ih hargv)

/-- There are no more words than bytes. -/
theorem length_le_restText (ws : List Bytes) : ws.length ≤ (restText ws).length := by
  induction ws with
  | nil => exact le_rfl
  | cons w ws ih =>
    rw [restText, List.flatMap_cons, ← restText, List.length_append, List.length_cons,
      List.length_cons]
    omega

/-- Nor with a shorter text. -/
theorem length_le_argvText (ws : List Bytes) : ws.length ≤ (argvText ws).length := by
  cases ws with
  | nil => exact le_rfl
  | cons w ws =>
    obtain ⟨c, t, htext, -⟩ := exists_cons_wordText w
    have hrest := length_le_restText ws
    rw [argvText, htext, List.length_append, List.length_cons, List.length_cons]
    omega

/-- **Which words are taken out of their text again.** -/
theorem argcvGet_argvText (h₀ : ∀ w ∈ ws, 0 ∉ w) :
    argcvGet (argvText ws) none none = .ok ws ↔
      (argvText ws).length < 2 ^ 31 ∧ Returned ws := by
  have hnil : ∀ b ∈ ([] : Bytes), isws b := fun b hb => absurd hb List.not_mem_nil
  have hiff : ∀ info : ArgcvInfo, info.save = 0 →
      ((∃ info', argcvCopy (plainCommand (argvText ws)) ws.length info = .ok (ws, info')) ↔
        Returned ws) := by
    intro info hsave
    rw [argvText_eq]
    exact @argcvCopy_iff [] [] ws info h₀ hnil hsave
  rw [argcvGet]
  split_ifs with hlong
  · exact iff_of_false (fun h => by cases h) fun h => absurd h.1 (Nat.not_lt.2 hlong)
  rw [and_iff_right (Nat.not_le.1 hlong), argcvGetN, argcvGetNp]
  constructor
  · intro h
    obtain ⟨⟨argv, pos⟩, hget, h⟩ := bind_eq_ok.1 h
    obtain ⟨⟨argc, info⟩, -, hget⟩ := bind_eq_ok.1 hget
    obtain ⟨⟨argv', info'⟩, hargv, hget⟩ := bind_eq_ok.1 hget
    cases hget
    cases h
    obtain rfl := argcvCopy_length hargv
    exact (hiff _ rfl).1 ⟨info', hargv⟩
  · intro h
    obtain ⟨info, hcount⟩ : ∃ info, argcvCount (plainCommand (argvText ws))
        ((argvText ws).length + 2) ⟨0, 0, 0, 0⟩ = .ok (ws.length, info) := by
      have hfuel := length_le_argvText ws
      rw [argvText_eq] at hfuel ⊢
      exact @argcvCount_eq [] [] ws _ h hnil rfl _ (by omega)
    obtain ⟨info', hargv⟩ := (hiff { info with save := 0 } rfl).2 h
    have hplain : (⟨(argvText ws).length, argvText ws, (none : Option Bytes).getD [],
        (none : Option Bytes).getD [], true⟩ : ArgcvCommand) = plainCommand (argvText ws) := rfl
    rw [hplain, hcount, ok_bind]
    simp only [hargv]
    rfl

end Scanner

/-! ## The string -/

section Printing

variable {w s t : Bytes} {ws : List Bytes}

/-- A text that ends with no white space. -/
def Trimmed (s : Bytes) : Prop := ∀ c ∈ s.getLast?, ¬ isSpace c

/-- Two of them. -/
theorem Trimmed.append (hs : Trimmed s) (ht : Trimmed t) : Trimmed (s ++ t) := by
  intro c hc
  rw [List.getLast?_append] at hc
  rcases Option.or_eq_some_iff.1 hc with hc | ⟨-, hc⟩
  · exact ht c hc
  · exact hs c hc

/-- Nothing is cut off. -/
theorem Trimmed.rdropWhile (hs : Trimmed s) :
    s.rdropWhile (fun c => decide (isSpace c)) = s := by
  refine List.rdropWhile_eq_self_iff.2 fun hne h => ?_
  exact hs _ (List.getLast?_eq_some_getLast hne) (of_decide_eq_true h)

/-- What a byte is copied as ends so unless it is a blank. -/
theorem trimmed_quoteCopyChar (c : UInt8) : c ≠ 32 → Trimmed (quoteCopyChar .octal c) := by
  have hall : c ≠ 32 →
      ((quoteCopyChar .octal c).getLast?.all fun b => decide (¬ isSpace b)) = true := by
    refine forall_byte (P := fun c => c ≠ 32 →
      ((quoteCopyChar .octal c).getLast?.all fun b => decide (¬ isSpace b)) = true) ?_ c
    decide +kernel
  intro hc b hb
  have hspace := hall hc
  rw [Option.mem_def.1 hb, Option.all_some] at hspace
  exact of_decide_eq_true hspace

/-- A word needs as much room as its text has. -/
theorem argcvQuotedLength_eq (w : Bytes) :
    argcvQuotedLength .octal w = ((argcvQuoteCopy .octal w).length, decide (NeedsQuotes w)) := by
  refine Prod.ext (argcvQuotedLength_fst .octal w) ?_
  unfold argcvQuotedLength
  split_ifs with hw
  · subst hw
    rfl
  · have hq : 32 ∈ w ∨ 34 ∈ w ↔ NeedsQuotes w := (or_iff_right hw).symm
    exact decide_eq_decide.2 hq

/-- A copy of a word ends with no white space. -/
theorem trimmed_quoteCopy (h : 32 ∉ w) : Trimmed (argcvQuoteCopy .octal w) := by
  induction w with
  | nil => exact fun c hc => by cases hc
  | cons c w ih =>
    rw [List.mem_cons, not_or] at h
    rw [argcvQuoteCopy_cons]
    exact (trimmed_quoteCopyChar c fun hc => h.1 hc.symm).append (ih h.2)

/-- Nor does the text of a word. -/
theorem trimmed_wordText (w : Bytes) : Trimmed (wordText w) := by
  rw [wordText]
  split_ifs with hq
  · rw [← List.cons_append]
    intro c hc
    rw [List.getLast?_append] at hc
    cases hc
    decide
  · exact trimmed_quoteCopy (notMem_of_not_needsQuotes hq).2.1

/-- Nor that of several. -/
theorem trimmed_argvText (ws : List Bytes) : Trimmed (argvText ws) := by
  have hrest : ∀ ws, Trimmed (restText ws) := by
    intro ws
    induction ws with
    | nil => exact fun c hc => by cases hc
    | cons w ws ih =>
      have hword : Trimmed (32 :: wordText w) := by
        have htrim := trimmed_wordText w
        obtain ⟨c, t, htext, -⟩ := exists_cons_wordText w
        rw [htext] at htrim ⊢
        intro b hb
        rw [List.getLast?_cons_cons] at hb
        exact htrim b hb
      rw [restText, List.flatMap_cons]
      exact hword.append ih
  cases ws with
  | nil => exact hrest []
  | cons w ws => exact (trimmed_wordText w).append (hrest ws)

/-- What stands between two words. -/
def sepOf (i : ℕ) : Bytes := if i ≠ 0 then [32] else []

/-- One word more is written. -/
theorem argcvStringLoop_cons {i : ℕ} {buffer : Bytes}
    (hw : (argcvQuoteCopy .octal w).length < 2 ^ 31) :
    argcvStringLoop .octal i buffer (w :: ws) =
      argcvStringLoop .octal (i + 1) (buffer ++ sepOf i ++ wordText w) ws := by
  have htake : ∀ b : Bytes, (b ++ argcvQuoteCopy .octal w).take
      (b.length + (argcvQuoteCopy .octal w).length) = b ++ argcvQuoteCopy .octal w := by
    intro b
    rw [← List.length_append, List.take_length]
  have hsep : (if i ≠ 0 then buffer ++ [32] else buffer) = buffer ++ sepOf i := by
    rw [sepOf]
    split_ifs with hi
    · rfl
    · exact (List.append_nil buffer).symm
  rw [argcvStringLoop, argcvQuotedLength_eq]
  simp only [if_neg (Nat.not_le.2 hw), hsep, htake, decide_eq_true_eq]
  rw [wordText]
  split_ifs
  · rw [List.append_assoc (buffer ++ sepOf i ++ [34]), List.append_assoc (buffer ++ sepOf i),
      List.singleton_append]
  · rfl

/-- **What the loop writes.** -/
theorem argcvStringLoop_eq_ok_iff (i : ℕ) (buffer command : Bytes) (ws : List Bytes) :
    argcvStringLoop .octal i buffer ws = .ok command ↔
      (∀ w ∈ ws, (argcvQuoteCopy .octal w).length < 2 ^ 31) ∧
        command = buffer ++ sepText (sepOf i) ws := by
  induction ws generalizing i buffer with
  | nil =>
    rw [argcvStringLoop, sepText, List.append_nil, Except.ok.injEq,
      and_iff_right fun w hw => absurd hw List.not_mem_nil, eq_comm]
  | cons w ws ih =>
    rw [List.forall_mem_cons]
    by_cases hw : (argcvQuoteCopy .octal w).length < 2 ^ 31
    · have hblank : sepOf (i + 1) = [32] := if_pos (Nat.succ_ne_zero i)
      rw [argcvStringLoop_cons hw, ih, and_iff_right hw, hblank, sepText_cons]
    · refine iff_of_false ?_ fun h => hw h.1.1
      rw [argcvStringLoop, argcvQuotedLength_eq]
      simp only [if_pos (Nat.not_lt.1 hw)]
      exact fun h => by cases h

/-- **The string is the text of the words**, unless one of them is too long. -/
theorem argcvString_eq_ok_iff (command : Bytes) (ws : List Bytes) :
    argcvString .octal ws = .ok command ↔
      (∀ w ∈ ws, (argcvQuoteCopy .octal w).length < 2 ^ 31) ∧ command = argvText ws := by
  have htrim := (trimmed_argvText ws).rdropWhile
  have hsep : sepOf 0 = [] := if_neg (not_not.2 rfl)
  have hloop := fun buffer => argcvStringLoop_eq_ok_iff 0 [] buffer ws
  rw [hsep, ← argvText_eq, List.nil_append] at hloop
  rw [argcvString]
  constructor
  · intro h
    obtain ⟨buffer, hbuffer, h⟩ := bind_eq_ok.1 h
    obtain ⟨hlen, rfl⟩ := (hloop buffer).1 hbuffer
    rw [htrim] at h
    exact ⟨hlen, (Except.ok.inj h).symm⟩
  · rintro ⟨hlen, rfl⟩
    rw [(hloop _).2 ⟨hlen, rfl⟩, ok_bind, htrim]

/-- How long the string is. -/
def argvLength (ws : List Bytes) : ℕ :=
  (ws.map fun w => (argcvQuotedLength .octal w).1 + if NeedsQuotes w then 2 else 0).sum +
    (ws.length - 1)

/-- So long is the text of a word. -/
theorem wordText_length (w : Bytes) :
    (wordText w).length = (argcvQuotedLength .octal w).1 + if NeedsQuotes w then 2 else 0 := by
  rw [wordText, argcvQuotedLength_eq]
  split_ifs
  · rw [List.length_cons, List.length_append, List.length_singleton]
  · rfl

/-- The rest has a blank for each word. -/
theorem restText_length (ws : List Bytes) :
    (restText ws).length = (ws.map fun w => (wordText w).length).sum + ws.length := by
  induction ws with
  | nil => rfl
  | cons w ws ih =>
    rw [restText, List.flatMap_cons, ← restText, List.length_append, ih, List.length_cons,
      List.map_cons, List.sum_cons, List.length_cons]
    omega

/-- So long is the text of all. -/
theorem argvText_length (ws : List Bytes) : (argvText ws).length = argvLength ws := by
  rw [argvLength, ← funext wordText_length]
  cases ws with
  | nil => rfl
  | cons w ws =>
    rw [argvText, List.length_append, restText_length, List.map_cons, List.sum_cons,
      List.length_cons, Nat.add_sub_cancel, Nat.add_assoc]

/-- A copy of a word is no longer than that. -/
theorem length_quoteCopy_le (hw : w ∈ ws) :
    (argcvQuoteCopy .octal w).length ≤ argvLength ws := by
  have hword : (wordText w).length ≤ (ws.map fun w => (wordText w).length).sum :=
    List.single_le_sum (fun n _ => Nat.zero_le n) _ (List.mem_map_of_mem hw)
  rw [wordText_length, argcvQuotedLength_eq] at hword
  rw [argvLength, ← funext wordText_length]
  omega

end Printing

/-! ## The round trip -/

/-- A word has no null in it. -/
structure ArgcvWord where
  text : Bytes
  null_notMem : 0 ∉ text

/-- The words come back from the string that is made of them. -/
def RoundTrips (words : List ArgcvWord) : Prop :=
  ∃ command, argcvString .octal (words.map ArgcvWord.text) = .ok command ∧
    argcvGet command none none = .ok (words.map ArgcvWord.text)

/-- **Words come back from their string** exactly if it is no longer than an
`int` says and each of them is kept. -/
theorem roundTrips_iff (words : List ArgcvWord) :
    RoundTrips words ↔ argvLength (words.map ArgcvWord.text) < 2 ^ 31 ∧
      Returned (words.map ArgcvWord.text) := by
  have h₀ : ∀ w ∈ words.map ArgcvWord.text, 0 ∉ w := by
    intro w hw
    obtain ⟨word, -, rfl⟩ := List.mem_map.1 hw
    exact word.null_notMem
  rw [← argvText_length, ← argcvGet_argvText h₀]
  constructor
  · rintro ⟨command, hcommand, hget⟩
    rwa [((argcvString_eq_ok_iff command _).1 hcommand).2] at hget
  · intro hget
    have hlen := ((argcvGet_argvText h₀).1 hget).1
    rw [argvText_length] at hlen
    refine ⟨_, (argcvString_eq_ok_iff _ _).2 ⟨?_, rfl⟩, hget⟩
    exact fun w hw => (length_quoteCopy_le hw).trans_lt hlen

/-- A backslash between quotes comes back twice, and of two words with an
apostrophe one is made. -/
theorem words_not_returned :
    (argcvString .octal [ascii "a b\\"] = .ok (ascii "\"a b\\\\\"") ∧
      argcvGet (ascii "\"a b\\\\\"") none none = .ok [ascii "a b\\\\"]) ∧
    (argcvString .octal [ascii "it's", ascii "it's"] = .ok (ascii "it's it's") ∧
      argcvGet (ascii "it's it's") none none = .ok [ascii "its its"]) ∧
    ¬ ∀ words, RoundTrips words := by
  refine ⟨⟨by decide +kernel, by decide +kernel⟩, ⟨by decide +kernel, by decide +kernel⟩, ?_⟩
  intro hall
  obtain ⟨command, hcommand, hget⟩ := hall [⟨[97, 32, 98, 92], by decide⟩]
  obtain ⟨-, rfl⟩ := (argcvString_eq_ok_iff command [[97, 32, 98, 92]]).1 hcommand
  obtain ⟨-, hkept, -⟩ := (@argcvGet_argvText [[97, 32, 98, 92]] (by decide)).1 hget
  exact absurd hkept (by decide)

end Dico
