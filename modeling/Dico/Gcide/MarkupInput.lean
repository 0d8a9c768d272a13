import Dico.Text.Cstr
/-!
# The input of the markup scanner

`YY_INPUT` gives the scanner an article in blocks of the sizes it asks for,
until nothing is left. It counts what is left and never moves `input_buf`,
so that every block begins where the article does: the scanner reads the
article as it stands exactly when each block is a beginning of it
(`yyInputs_iff`).
-/

namespace Dico

/-- `input_buf`, and `input_len`. -/
structure MarkupInput where
  inputBuf : Bytes
  inputLen : ℕ

/-- Where `gcide_markup_parse` sets them. -/
def markupInput (text : Bytes) : MarkupInput := ⟨text, text.length⟩

/-- `YY_INPUT`: the block that was copied, and the input after it. -/
def yyInput (maxSize : ℕ) (i : MarkupInput) : Bytes × MarkupInput :=
  let n := if maxSize > i.inputLen then i.inputLen else maxSize
  (i.inputBuf.take n, { i with inputLen := i.inputLen - n })

/-- The blocks of a scan, one after another. -/
def yyInputs : List ℕ → MarkupInput → Bytes × MarkupInput
  | [], i => ([], i)
  | maxSize :: sizes, i =>
    let (block, i) := yyInput maxSize i
    let (blocks, i) := yyInputs sizes i
    (block ++ blocks, i)

/-! ## One block -/

section Blocks

variable {text : Bytes} {sizes : List ℕ}

/-- The block at a position of the article: its length is that of the block
that should stand there, its bytes are those the article begins with. -/
theorem yyInput_at (maxSize pos : ℕ) :
    yyInput maxSize ⟨text, text.length - pos⟩ =
      (text.take ((text.drop pos).take maxSize).length,
        ⟨text, text.length - (pos + maxSize)⟩) := by
  have hn : (if maxSize > text.length - pos then text.length - pos else maxSize) =
      ((text.drop pos).take maxSize).length := by
    rw [List.length_take, List.length_drop]
    split_ifs <;> omega
  rw [yyInput]
  simp only [hn, Prod.mk.injEq, MarkupInput.mk.injEq, true_and]
  rw [List.length_take, List.length_drop]
  omega

/-- It is the right one where the article begins with that one. -/
theorem block_eq_iff {block : Bytes} : text.take block.length = block ↔ block <+: text := by
  rw [List.prefix_iff_eq_take, eq_comm]

/-- What is left of an article is the next block and what is left then. -/
theorem append_drop_eq_iff {blocks : Bytes} (maxSize pos : ℕ) :
    text.take ((text.drop pos).take maxSize).length ++ blocks = text.drop pos ↔
      (text.drop pos).take maxSize <+: text ∧ blocks = text.drop (pos + maxSize) := by
  have hlen : (text.take ((text.drop pos).take maxSize).length).length =
      ((text.drop pos).take maxSize).length := by
    simp only [List.length_take, List.length_drop]
    omega
  have hcut : text.drop pos = (text.drop pos).take maxSize ++ text.drop (pos + maxSize) := by
    rw [← List.drop_drop, List.take_append_drop]
  rw [← block_eq_iff]
  constructor
  · intro h
    rw [hcut] at h
    refine List.append_inj ?_ ?_
    · rwa [← hcut] at h ⊢
    · exact hlen
  · rintro ⟨hblock, rfl⟩
    rw [hblock, ← hcut]

/-! ## The scan -/

/-- From any position on, the scanner reads what is left exactly when every
block from there on is a beginning of the article. -/
theorem yyInputs_at (pos : ℕ)
    (hdry : (yyInputs sizes ⟨text, text.length - pos⟩).2.inputLen = 0) :
    (yyInputs sizes ⟨text, text.length - pos⟩).1 = text.drop pos ↔
      ∀ a size b, sizes = a ++ size :: b → (text.drop (pos + a.sum)).take size <+: text := by
  induction sizes generalizing pos with
  | nil =>
    have hend : text.length ≤ pos := Nat.sub_eq_zero_iff_le.1 hdry
    rw [List.drop_eq_nil_of_le hend]
    exact iff_of_true rfl fun a size b h => by
      simp only [List.nil_eq, List.append_eq_nil_iff, reduceCtorEq, and_false] at h
  | cons size sizes ih =>
    simp only [yyInputs, yyInput_at] at hdry ⊢
    rw [append_drop_eq_iff, ih (pos + size) hdry, forall_split_cons]
    simp only [List.sum_nil, List.sum_cons, Nat.add_zero, Nat.add_assoc]

/-- **The scanner reads the article as it stands** exactly when every block
it asks for is a beginning of the article. -/
theorem yyInputs_iff (hdry : (yyInputs sizes (markupInput text)).2.inputLen = 0) :
    (yyInputs sizes (markupInput text)).1 = text ↔
      ∀ a size b, sizes = a ++ size :: b → (text.drop a.sum).take size <+: text := by
  have h := @yyInputs_at text sizes 0
  simp only [Nat.sub_zero, List.drop_zero, Nat.zero_add] at h
  exact h hdry

end Blocks

/-- An article that one block holds is read as it stands. -/
theorem yyInputs_iff_one : (yyInputs [8192, 8192] (markupInput (ascii "<p>"))).1 = ascii "<p>" :=
  (yyInputs_iff rfl).2 fun a size b h => by
    rcases List.cons_eq_append_iff.1 h with ⟨rfl, hs⟩ | ⟨a, rfl, hs⟩
    · rw [(List.cons.inj hs).1]
      decide
    · have hend : (ascii "<p>").drop (8192 :: a).sum = [] :=
        List.drop_eq_nil_of_le (le_trans (by decide) (Nat.le_add_right 8192 a.sum))
      rw [hend, List.take_nil]
      exact List.nil_prefix

/-- Of a longer one the scanner gets the beginning twice. -/
theorem yyInputs_long :
    (yyInputs [8192, 8192] (markupInput (List.replicate 8192 97 ++ [98]))).2.inputLen = 0 ∧
      (yyInputs [8192, 8192] (markupInput (List.replicate 8192 97 ++ [98]))).1 ≠
        List.replicate 8192 97 ++ [98] := by
  simp only [yyInputs, yyInput, markupInput, List.length_append, List.length_replicate,
    List.length_singleton]
  refine ⟨rfl, fun h => ?_⟩
  have htake : (List.replicate 8192 97 ++ [98] : Bytes).take 1 = [97] := rfl
  simp only [show ¬ 8192 > 8192 + 1 by omega, show 8192 > 8192 + 1 - 8192 by omega, if_true,
    if_false, show 8192 + 1 - 8192 = 1 by omega, htake,
    List.take_left' (List.length_replicate (n := 8192) (a := (97 : UInt8))),
    List.append_cancel_left_eq] at h
  exact absurd h (by decide)

end Dico
