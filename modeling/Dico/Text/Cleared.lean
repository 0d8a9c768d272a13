import Dico.Text.Tokens
/-!
# A token buffer that is used again

`xdico_tokenize_string` clears the buffer before it cuts up a line; the
block and its size stay. The tokens are those that an empty buffer would
get of the line, so the lines before it do not matter (`xdico_words_iff`),
and a token that is asked for is one of them or is not there at all
(`token_of_words`).
-/

namespace Dico

/-- `xdico_tokenize_string`, which clears the buffer first. -/
def xdicoTokenizeString (tb : DicoTokbuf) (str : Bytes) : Except Fault DicoTokbuf :=
  dicoTokenizeString { tb with base := [], tokv := [] } str

/-- The words that the pointers of a buffer lead to. -/
def DicoTokbuf.words (tb : DicoTokbuf) : Except Fault (List Bytes) := tb.tokv.mapM tb.deref

/-- Some strings, one behind another in memory. -/
def stringsIn : ℕ → Bytes → List Bytes
  | 0, _ => []
  | n + 1, x => x.takeWhile (· ≠ 0) :: stringsIn n (x.drop ((x.takeWhile (· ≠ 0)).length + 1))

/-- The tokens of a line. -/
def lineTokens (str : Bytes) : Except Fault (List Bytes) := do
  let (x, n) ← tokenized str
  .ok (stringsIn n x)

section Words

variable {tb tb' : DicoTokbuf} {str x : Bytes} {n : ℕ} {ts : List Bytes}

/-- The strings that were stored are those that are found. -/
theorem stringsIn_flatMap (hts : ∀ t ∈ ts, 0 ∉ t) (n : ℕ) (more : Bytes) :
    stringsIn (ts.length + n) (ts.flatMap (· ++ [0]) ++ more) = ts ++ stringsIn n more := by
  induction ts with
  | nil => rw [List.length_nil, Nat.zero_add, List.flatMap_nil, List.nil_append, List.nil_append]
  | cons t ts ih =>
    obtain ⟨ht, hts⟩ := List.forall_mem_cons.1 hts
    have hsplit : (t :: ts).flatMap (· ++ [0]) ++ more =
        t ++ 0 :: (ts.flatMap (· ++ [0]) ++ more) := by
      rw [List.flatMap_cons]
      simp only [List.append_assoc, List.cons_append, List.nil_append]
    have hdrop : (t ++ 0 :: (ts.flatMap (· ++ [0]) ++ more)).drop (t.length + 1) =
        ts.flatMap (· ++ [0]) ++ more := by
      rw [← List.drop_drop, List.drop_left]
      rfl
    rw [hsplit, List.length_cons, Nat.add_right_comm, stringsIn, takeWhile_ne_zero ht, hdrop,
      ih hts, List.cons_append]

/-- The pointers that the tokenizer leaves lead to them. -/
theorem mapM_deref_pointers (tb : DicoTokbuf) (argc p : ℕ) :
    (tb.pointers argc p).mapM tb.deref = .ok (stringsIn argc (tb.base.drop p)) := by
  induction argc generalizing p with
  | zero => rfl
  | succ argc ih =>
    have hrest : tb.base.drop (p + ((tb.base.drop p).takeWhile (· ≠ 0)).length + 1) =
        (tb.base.drop p).drop (((tb.base.drop p).takeWhile (· ≠ 0)).length + 1) := by
      rw [List.drop_drop, Nat.add_assoc]
    rw [DicoTokbuf.pointers, List.mapM_cons, ih, DicoTokbuf.deref, if_pos rfl, stringsIn, hrest]
    rfl

/-- What is left of a line in any buffer. -/
theorem xdico_of_tokenized (tb : DicoTokbuf) (h : tokenized str = .ok (x, n)) :
    ∃ tb', xdicoTokenizeString tb str = .ok tb' ∧ tb'.words = .ok (stringsIn n x) := by
  have hfit : ({ tb with base := [], tokv := [] } : DicoTokbuf).base.length ≤ tb.size :=
    Nat.zero_le _
  obtain ⟨tb₁, hgrown, hrun⟩ := dicoTokenizeString_of_tokenized hfit h
  refine ⟨{ tb₁ with tokv := tb₁.pointers n 0 }, ?_, ?_⟩
  · unfold xdicoTokenizeString
    rw [hrun, hgrown.tokv]
    rfl
  · have hwords := mapM_deref_pointers tb₁ n 0
    rw [List.drop_zero, hgrown.base] at hwords
    exact hwords

/-- **The tokens of a line**, whatever was in the buffer before. -/
theorem xdico_words_iff (tb : DicoTokbuf) :
    (∃ tb', xdicoTokenizeString tb str = .ok tb' ∧ tb'.words = .ok ts) ↔
      lineTokens str = .ok ts := by
  constructor
  · rintro ⟨tb', hrun, hwords⟩
    have hfit : ({ tb with base := [], tokv := [] } : DicoTokbuf).base.length ≤ tb.size :=
      Nat.zero_le _
    obtain ⟨x, n, hx⟩ := tokenized_of_dicoTokenizeString hfit hrun
    obtain ⟨tb₂, hrun₂, hwords₂⟩ := xdico_of_tokenized tb hx
    obtain rfl := Except.ok.inj (hrun₂.symm.trans hrun)
    obtain rfl := Except.ok.inj (hwords₂.symm.trans hwords)
    rw [lineTokens, hx, ok_bind]
  · intro h
    obtain ⟨⟨x, n⟩, hx, h⟩ := bind_eq_ok.1 h
    obtain rfl := Except.ok.inj h
    exact xdico_of_tokenized tb hx

/-- A buffer that was filled from a line has words. -/
theorem words_of_xdico (h : xdicoTokenizeString tb str = .ok tb') :
    ∃ ts, tb'.words = .ok ts ∧ lineTokens str = .ok ts := by
  have hfit : ({ tb with base := [], tokv := [] } : DicoTokbuf).base.length ≤ tb.size :=
    Nat.zero_le _
  obtain ⟨x, n, hx⟩ := tokenized_of_dicoTokenizeString hfit h
  obtain ⟨tb₂, hrun, hwords⟩ := xdico_of_tokenized tb hx
  obtain rfl := Except.ok.inj (hrun.symm.trans h)
  refine ⟨_, hwords, ?_⟩
  rw [lineTokens, hx, ok_bind]

/-- **A token is one of the words**, or it is not there. -/
theorem token_of_words (h : tb.words = .ok ts) (i : ℕ) :
    tb.token i = (ts[i]?).elim (.error .dangling) .ok := by
  unfold DicoTokbuf.words at h
  unfold DicoTokbuf.token
  generalize tb.tokv = ptrs at h ⊢
  induction ptrs generalizing ts i with
  | nil =>
    obtain rfl := Except.ok.inj h
    rfl
  | cons ptr ptrs ih =>
    rw [List.mapM_cons] at h
    obtain ⟨t, ht, h⟩ := bind_eq_ok.1 h
    obtain ⟨ts', hts', h⟩ := bind_eq_ok.1 h
    obtain rfl := Except.ok.inj h
    cases i with
    | zero => exact ht
    | succ i => exact ih i hts'

/-- The token, if it is there. -/
theorem token_eq_ok (h : tb.words = .ok ts) {i : ℕ} {t : Bytes} :
    tb.token i = .ok t ↔ ts[i]? = some t := by
  rw [token_of_words h]
  cases ts[i]? with
  | none => exact iff_of_false nofun nofun
  | some u =>
    rw [Option.elim_some, Option.some_inj]
    exact ⟨Except.ok.inj, congrArg Except.ok⟩

end Words

end Dico
