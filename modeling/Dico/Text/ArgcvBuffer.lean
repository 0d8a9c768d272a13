import Dico.Text.ArgcvEscapes
import Mathlib.Algebra.Ring.Int.Defs
/-!
# The buffer of `argcv_string`

For every argument `argcv_string` enlarges its buffer by the quoted length
of the argument and two bytes more, and two again for the quotes. The
length is right (`argcvQuotedLength_fst`), so there is always room for the
separators and the null. But it is kept in an `int`: with an argument of
`2 ^ 31 - 2` or more the size that is asked for is too small by `2 ^ 32` at
least, and unless the allocator refuses it the copy leaves the buffer.
-/

namespace Dico

/-! ## The model -/

/-- The value that an `int` takes from a larger type, or from a sum that
overflows. -/
def truncInt (n : ℤ) : ℤ := (n + 2 ^ 31) % 2 ^ 32 - 2 ^ 31

/-- What the allocator has: no block is larger than `PTRDIFF_MAX`. -/
structure Allocator where
  avail : ℕ → Bool
  lt_of_avail : ∀ n, avail n = true → n < 2 ^ 63

/-- `realloc`. -/
def Allocator.realloc (alloc : Allocator) (buffer : Bytes) (n : ℕ) : Option Bytes :=
  if alloc.avail n then some (buffer.take n ++ List.replicate (n - buffer.length) 0) else none

/-- The block, `len` and `j`. -/
structure ArgcvBuffer where
  buffer : Bytes
  len : ℕ
  j : ℕ

/-- `len += toklen + 2`, and two more if there are quotes. -/
def nextSize (len : ℕ) (toklen : ℤ) (quote : Bool) : ℕ :=
  ((len + truncInt (toklen + 2) + if quote then 2 else 0) % 2 ^ 64).toNat

/-- `if (cond) buffer[j++] = c`. -/
def putByte (cond : Bool) (c : UInt8) (buffer : Bytes) (j : ℕ) : Except Fault (Bytes × ℕ) :=
  if cond then do
    let buffer ← store buffer j c
    .ok (buffer, j + 1)
  else .ok (buffer, j)

/-- The body of the loop of `argcv_string`; there is no buffer left where
it returns `ENOMEM`. -/
def argcvStringStep (alloc : Allocator) (style : ArgcvQuotingStyle) (i : ℕ) (arg : Bytes)
    (st : ArgcvBuffer) : Except Fault (Option ArgcvBuffer) :=
  let (length, quote) := argcvQuotedLength style arg
  let toklen := truncInt length
  let len := nextSize st.len toklen quote
  match alloc.realloc st.buffer len with
  | none => .ok none
  | some buffer => do
    let (buffer, j) ← putByte (decide (i ≠ 0)) 32 buffer st.j
    let (buffer, j) ← putByte quote 34 buffer j
    let buffer ← memcpyTo buffer j (argcvQuoteCopy style arg)
    let j := ((j + toklen) % 2 ^ 64).toNat
    let (buffer, j) ← putByte quote 34 buffer j
    .ok (some ⟨buffer, len, j⟩)

/-- The loop. -/
def argcvStringSteps (alloc : Allocator) (style : ArgcvQuotingStyle) (i : ℕ) (st : ArgcvBuffer) :
    List Bytes → Except Fault (Option ArgcvBuffer)
  | [] => .ok (some st)
  | arg :: argv => do
    match ← argcvStringStep alloc style i arg st with
    | none => .ok none
    | some st => argcvStringSteps alloc style (i + 1) st argv

/-- The loop over the white space at the end. -/
def trimIndex (buffer : Bytes) : ℕ → Except Fault ℕ
  | 0 => .ok 0
  | j + 1 => do
    let c ← load buffer j
    if isSpace c then trimIndex buffer j else .ok (j + 1)

/-- `argcv_string`: the block it stores at `pstring`, or none where there is
no memory. -/
def argcvStringAlloc (alloc : Allocator) (style : ArgcvQuotingStyle) (argv : List Bytes) :
    Except Fault (Option Bytes) :=
  match alloc.realloc [] 1 with
  | none => .ok none
  | some buffer => do
    let buffer ← store buffer 0 0
    match ← argcvStringSteps alloc style 0 ⟨buffer, 0, 0⟩ argv with
    | none => .ok none
    | some st => do
      let j ← trimIndex st.buffer st.j
      let buffer ← store st.buffer j 0
      .ok (some buffer)

/-- Every argument that is come to before the allocator refuses a size is
short enough for an `int`; `len` is the size so far. -/
def LengthsFit (alloc : Allocator) (style : ArgcvQuotingStyle) (len : ℕ) : List Bytes → Prop
  | [] => True
  | arg :: argv =>
    let (length, quote) := argcvQuotedLength style arg
    let next := nextSize len (truncInt length) quote
    alloc.avail next = true → length + 2 < 2 ^ 31 ∧ LengthsFit alloc style next argv

/-! ## Writes into a block -/

section Writes

variable {t m : Bytes}

/-- A copy behind what a block begins with. -/
theorem memcpyTo_of_prefix (h : t <+: m) (src : Bytes)
    (hroom : t.length + src.length ≤ m.length) :
    ∃ m', memcpyTo m t.length src = .ok m' ∧ t ++ src <+: m' ∧ m'.length = m.length := by
  obtain ⟨r, rfl⟩ := h
  rw [List.length_append] at hroom
  have hlen : (r.take src.length).length = src.length := List.length_take_of_le (by omega)
  have hcopy := memcpyTo_append t (r.take src.length) (r.drop src.length) hlen
  rw [List.take_append_drop] at hcopy
  refine ⟨_, hcopy, ⟨r.drop src.length, List.append_assoc ..⟩, ?_⟩
  simp only [List.length_append, List.length_drop]
  omega

/-- A copy for which there is no room. -/
theorem memcpyTo_bounds {p : ℕ} {src : Bytes} (h : m.length < p + src.length) :
    memcpyTo m p src = .error .bounds := by
  rw [memcpyTo, Memory.poke, if_neg (by omega)]

/-- The byte that is put, or none. -/
def optByte (cond : Bool) (c : UInt8) : Bytes := if cond then [c] else []

/-- How many that is. -/
theorem length_optByte (cond : Bool) (c : UInt8) :
    (optByte cond c).length = if cond then 1 else 0 := by
  unfold optByte
  split_ifs <;> rfl

/-- A byte behind what a block begins with. -/
theorem putByte_of_prefix (h : t <+: m) (cond : Bool) (c : UInt8)
    (hroom : t.length + (optByte cond c).length ≤ m.length) :
    ∃ m', putByte cond c m t.length = .ok (m', (t ++ optByte cond c).length) ∧
      t ++ optByte cond c <+: m' ∧ m'.length = m.length := by
  cases cond with
  | false =>
    refine ⟨m, ?_, ?_, rfl⟩
    · rw [putByte, if_neg Bool.false_ne_true, optByte, if_neg Bool.false_ne_true, List.append_nil]
    · rwa [optByte, if_neg Bool.false_ne_true, List.append_nil]
  | true =>
    obtain ⟨r, rfl⟩ := h
    rw [optByte, if_pos rfl, List.length_append, List.length_singleton] at hroom
    obtain ⟨b, r, rfl⟩ : ∃ b r', r = b :: r' := by
      refine List.exists_cons_of_ne_nil ?_
      rintro rfl
      rw [List.length_nil] at hroom
      omega
    refine ⟨t ++ c :: r, ?_, ⟨r, ?_⟩, ?_⟩
    · rw [putByte, if_pos rfl, store_append, ok_bind, optByte, if_pos rfl, List.length_append,
        List.length_singleton]
    · rw [optByte, if_pos rfl, List.append_assoc, List.singleton_append]
    · simp only [List.length_append, List.length_cons]

/-- A byte is put, or there is no room for it. -/
theorem putByte_cases (cond : Bool) (c : UInt8) (m : Bytes) (j : ℕ) :
    putByte cond c m j = .error .bounds ∨
      ∃ m', putByte cond c m j = .ok (m', j + (optByte cond c).length) ∧ m'.length = m.length := by
  cases cond with
  | false => exact .inr ⟨m, rfl, rfl⟩
  | true =>
    rw [putByte, if_pos rfl]
    by_cases hj : j < m.length
    · refine .inr ⟨m.set j c, ?_, List.length_set⟩
      rw [store, if_pos hj, ok_bind]
      rfl
    · refine .inl ?_
      rw [store, if_neg hj, error_bind]

end Writes

/-! ## One argument -/

section Step

variable {alloc : Allocator} {style : ArgcvQuotingStyle} {i : ℕ} {t arg : Bytes}
  {st : ArgcvBuffer}

/-- The text with one argument more. -/
def addArg (style : ArgcvQuotingStyle) (i : ℕ) (t arg : Bytes) : Bytes :=
  t ++ optByte (decide (i ≠ 0)) 32 ++ optByte (argcvQuotedLength style arg).2 34 ++
    argcvQuoteCopy style arg ++ optByte (argcvQuotedLength style arg).2 34

/-- The buffer holds the text of `i` arguments, and has room for one byte
more for each of them and for the null. -/
structure HoldsArgs (i : ℕ) (t : Bytes) (st : ArgcvBuffer) : Prop where
  held : t <+: st.buffer
  j_eq : st.j = t.length
  len_lt : st.len < 2 ^ 63
  len_eq : st.len = if i = 0 then 0 else t.length + i + 1
  size_eq : st.buffer.length = max st.len 1
  text_zero : i = 0 → t = []

/-- How long the text becomes. -/
theorem length_addArg (style : ArgcvQuotingStyle) (i : ℕ) (t arg : Bytes) :
    (addArg style i t arg).length = t.length + (if i = 0 then 0 else 1) +
      (argcvQuotedLength style arg).1 + if (argcvQuotedLength style arg).2 then 2 else 0 := by
  unfold addArg
  simp only [List.length_append, length_optByte, argcvQuotedLength_fst, decide_eq_true_eq, ne_eq,
    ite_not]
  split_ifs <;> omega

/-- The size for an argument that is short enough. -/
theorem nextSize_small {len length : ℕ} (hlen : len < 2 ^ 63) (h : length + 2 < 2 ^ 31)
    (quote : Bool) :
    nextSize len (truncInt length) quote = len + length + 2 + if quote then 2 else 0 := by
  unfold nextSize truncInt
  split_ifs <;> omega

/-- Where `j` comes to behind it. -/
theorem toNat_add_truncInt {j length : ℕ} (hj : j < 2 ^ 63) (h : length < 2 ^ 31) :
    (((j : ℤ) + truncInt length) % 2 ^ 64).toNat = j + length := by
  unfold truncInt
  omega

/-- And for one that is not, where it is one that a block can have. -/
theorem nextSize_large {len length : ℕ} (hlen : len < 2 ^ 63) (h : 2 ^ 31 ≤ length + 2)
    (quote : Bool) (hnext : nextSize len (truncInt length) quote < 2 ^ 63) :
    nextSize len (truncInt length) quote + 2 ^ 32 ≤
      len + length + 2 + if quote then 2 else 0 := by
  unfold nextSize truncInt at hnext ⊢
  split_ifs at hnext ⊢ <;> omega

/-- The size of a block that was enlarged. -/
theorem length_realloc {buffer m : Bytes} {n : ℕ} (h : alloc.realloc buffer n = some m) :
    m.length = n ∧ n < 2 ^ 63 ∧ ∀ t, t <+: buffer → t.length ≤ n → t <+: m := by
  unfold Allocator.realloc at h
  split_ifs at h with havail
  obtain rfl := Option.some.inj h
  refine ⟨?_, alloc.lt_of_avail n havail, fun t ht hle => ?_⟩
  · simp only [List.length_append, List.length_take, List.length_replicate]
    omega
  · exact (List.prefix_take_iff.2 ⟨ht, hle⟩).trans (List.prefix_append _ _)

/-- **An argument that is short enough** is added within the buffer. -/
theorem argcvStringStep_small (h : HoldsArgs i t st)
    (hsmall : (argcvQuotedLength style arg).1 + 2 < 2 ^ 31) {m : Bytes}
    (hm : alloc.realloc st.buffer (nextSize st.len (truncInt (argcvQuotedLength style arg).1)
      (argcvQuotedLength style arg).2) = some m) :
    ∃ st', argcvStringStep alloc style i arg st = .ok (some st') ∧
      HoldsArgs (i + 1) (addArg style i t arg) st' ∧
      st'.len = nextSize st.len (truncInt (argcvQuotedLength style arg).1)
        (argcvQuotedLength style arg).2 := by
  obtain ⟨hmlen, hlt, hpre⟩ := length_realloc hm
  have hsize := nextSize_small h.len_lt hsmall (argcvQuotedLength style arg).2
  generalize hn : nextSize st.len (truncInt (argcvQuotedLength style arg).1)
    (argcvQuotedLength style arg).2 = n at hm hmlen hlt hpre hsize ⊢
  have htext := length_addArg style i t arg
  have hparts : (addArg style i t arg).length = t.length + (optByte (decide (i ≠ 0)) 32).length +
      (optByte (argcvQuotedLength style arg).2 34).length + (argcvQuoteCopy style arg).length +
        (optByte (argcvQuotedLength style arg).2 34).length := by
    unfold addArg
    simp only [List.length_append]
  have hroom : (addArg style i t arg).length + (i + 1) + 1 = m.length := by
    have hzero := h.text_zero
    rw [hmlen, hsize, h.len_eq, htext]
    split_ifs with hi
    · rw [hzero hi, List.length_nil]
      omega
    · rw [hzero hi, List.length_nil]
      omega
    · omega
    · omega
  have hcopy := argcvQuotedLength_fst style arg
  -- the separator, the quote, the copy and the other quote
  obtain ⟨m₁, hput₁, hpre₁, hlen₁⟩ := putByte_of_prefix (hpre t h.held (by omega))
    (decide (i ≠ 0)) 32 (by omega)
  obtain ⟨m₂, hput₂, hpre₂, hlen₂⟩ := putByte_of_prefix hpre₁ (argcvQuotedLength style arg).2 34
    (by rw [List.length_append]; omega)
  obtain ⟨m₃, hput₃, hpre₃, hlen₃⟩ := memcpyTo_of_prefix hpre₂ (argcvQuoteCopy style arg)
    (by simp only [List.length_append]; omega)
  obtain ⟨m₄, hput₄, hpre₄, hlen₄⟩ := putByte_of_prefix hpre₃ (argcvQuotedLength style arg).2 34
    (by simp only [List.length_append]; omega)
  have hj : (((t ++ optByte (decide (i ≠ 0)) 32 ++
      optByte (argcvQuotedLength style arg).2 34).length +
        truncInt (argcvQuotedLength style arg).1) % 2 ^ 64).toNat =
      (t ++ optByte (decide (i ≠ 0)) 32 ++ optByte (argcvQuotedLength style arg).2 34 ++
        argcvQuoteCopy style arg).length := by
    have hle := hpre₂.length_le
    rw [toNat_add_truncInt (by omega) (by omega), hcopy, ← List.length_append]
  refine ⟨⟨m₄, n, (addArg style i t arg).length⟩, ?_, ?_, rfl⟩
  · unfold argcvStringStep
    dsimp only
    rw [hn, hm]
    dsimp only
    rw [h.j_eq, hput₁, ok_bind]
    dsimp only
    rw [hput₂, ok_bind]
    dsimp only
    rw [hput₃, ok_bind, hj, hput₄, ok_bind]
    rfl
  · constructor
    · exact hpre₄
    · rfl
    · exact hlt
    · rw [if_neg (Nat.succ_ne_zero i)]
      dsimp only
      omega
    · dsimp only
      omega
    · exact fun hi => absurd hi (Nat.succ_ne_zero i)

/-- **One that is not** leads out of it. -/
theorem argcvStringStep_large (h : HoldsArgs i t st) (hi : i < 2 ^ 31)
    (hlarge : 2 ^ 31 ≤ (argcvQuotedLength style arg).1 + 2) {m : Bytes}
    (hm : alloc.realloc st.buffer (nextSize st.len (truncInt (argcvQuotedLength style arg).1)
      (argcvQuotedLength style arg).2) = some m) :
    argcvStringStep alloc style i arg st = .error .bounds := by
  obtain ⟨hmlen, hlt, -⟩ := length_realloc hm
  have hsize := nextSize_large h.len_lt hlarge (argcvQuotedLength style arg).2 hlt
  have hlen := h.len_eq
  have hcopy := argcvQuotedLength_fst style arg
  unfold argcvStringStep
  dsimp only
  rw [hm]
  dsimp only
  rcases putByte_cases (decide (i ≠ 0)) 32 m st.j with herr | ⟨m₁, hput₁, hlen₁⟩
  · rw [herr, error_bind]
  rw [hput₁, ok_bind]
  dsimp only
  rcases putByte_cases (argcvQuotedLength style arg).2 34 m₁
    (st.j + (optByte (decide (i ≠ 0)) 32).length) with herr | ⟨m₂, hput₂, hlen₂⟩
  · rw [herr, error_bind]
  rw [hput₂, ok_bind]
  dsimp only
  have hj := h.j_eq
  have hfull : m₂.length < st.j + (optByte (decide (i ≠ 0)) 32).length +
      (optByte (argcvQuotedLength style arg).2 34).length + (argcvQuoteCopy style arg).length := by
    rw [hlen₂, hlen₁, hmlen]
    split_ifs at hsize hlen <;> omega
  rw [memcpyTo_bounds hfull, error_bind]

/-- What is added is what the text gets. -/
theorem argcvStringLoop_addArg (hsmall : (argcvQuotedLength style arg).1 < 2 ^ 31)
    (argv : List Bytes) :
    argcvStringLoop style i t (arg :: argv) =
      argcvStringLoop style (i + 1) (addArg style i t arg) argv := by
  have htake : ∀ b : Bytes, (b ++ argcvQuoteCopy style arg).take
      (b.length + (argcvQuotedLength style arg).1) = b ++ argcvQuoteCopy style arg := by
    intro b
    rw [argcvQuotedLength_fst, ← List.length_append, List.take_length]
  rw [argcvStringLoop]
  dsimp only
  rw [if_neg (Nat.not_le.2 hsmall), htake]
  congr 1
  unfold addArg optByte
  simp only [decide_eq_true_eq]
  split_ifs <;> simp only [List.append_nil]

end Step

/-! ## All arguments -/

section Steps

variable {alloc : Allocator} {style : ArgcvQuotingStyle} {i : ℕ} {t : Bytes}
  {st : ArgcvBuffer} {argv : List Bytes}

/-- **The loop stays in the buffer** where the lengths fit, and what it
leaves is the text. -/
theorem argcvStringSteps_ok (h : HoldsArgs i t st) (hfit : LengthsFit alloc style st.len argv) :
    argcvStringSteps alloc style i st argv = .ok none ∨
      ∃ st' t', argcvStringSteps alloc style i st argv = .ok (some st') ∧
        argcvStringLoop style i t argv = .ok t' ∧ HoldsArgs (i + argv.length) t' st' := by
  induction argv generalizing i t st with
  | nil => exact .inr ⟨st, t, rfl, rfl, h⟩
  | cons arg argv ih =>
    rw [LengthsFit] at hfit
    dsimp only at hfit
    rw [argcvStringSteps]
    cases hm : alloc.realloc st.buffer (nextSize st.len (truncInt (argcvQuotedLength style arg).1)
        (argcvQuotedLength style arg).2) with
    | none =>
      refine .inl ?_
      rw [argcvStringStep]
      dsimp only
      rw [hm]
      rfl
    | some m =>
      have havail : alloc.avail (nextSize st.len (truncInt (argcvQuotedLength style arg).1)
          (argcvQuotedLength style arg).2) = true := by
        unfold Allocator.realloc at hm
        split_ifs at hm with havail
        exact havail
      obtain ⟨hsmall, hrest⟩ := hfit havail
      obtain ⟨st', hstep, hholds, hlen⟩ := argcvStringStep_small h hsmall hm
      rw [← hlen] at hrest
      rw [hstep, ok_bind, argcvStringLoop_addArg (by omega), List.length_cons,
        Nat.add_comm argv.length 1, ← Nat.add_assoc]
      exact ih hholds hrest

/-- **And only there.** -/
theorem argcvStringSteps_bounds (h : HoldsArgs i t st) (hi : i + argv.length ≤ 2 ^ 31)
    (hfit : ¬ LengthsFit alloc style st.len argv) :
    argcvStringSteps alloc style i st argv = .error .bounds := by
  induction argv generalizing i t st with
  | nil => exact absurd trivial hfit
  | cons arg argv ih =>
    rw [LengthsFit] at hfit
    dsimp only at hfit
    rw [Classical.not_imp] at hfit
    obtain ⟨havail, hfit⟩ := hfit
    obtain ⟨m, hm⟩ : ∃ m, alloc.realloc st.buffer (nextSize st.len
        (truncInt (argcvQuotedLength style arg).1) (argcvQuotedLength style arg).2) = some m := by
      unfold Allocator.realloc
      exact ⟨_, if_pos havail⟩
    rw [List.length_cons] at hi
    rw [argcvStringSteps]
    by_cases hsmall : (argcvQuotedLength style arg).1 + 2 < 2 ^ 31
    · obtain ⟨st', hstep, hholds, hlen⟩ := argcvStringStep_small h hsmall hm
      rw [hstep, ok_bind]
      refine ih hholds (by omega) fun hrest => hfit ⟨hsmall, ?_⟩
      rwa [← hlen]
    · rw [argcvStringStep_large h (by omega) (by omega) hm, error_bind]

/-- The loop at the end finds the last byte that is no white space. -/
theorem trimIndex_eq {m : Bytes} (h : t <+: m) :
    trimIndex m t.length = .ok (t.rdropWhile fun c => decide (isSpace c)).length := by
  induction t using List.reverseRecOn with
  | nil => rfl
  | append_singleton t c ih =>
    obtain ⟨r, rfl⟩ := h
    have hload : load (t ++ [c] ++ r) t.length = .ok c := by
      rw [List.append_assoc, List.singleton_append, load_append]
    rw [List.length_append, List.length_singleton, trimIndex, hload, ok_bind,
      List.rdropWhile_concat]
    by_cases hc : isSpace c
    · rw [if_pos hc, if_pos (decide_eq_true hc)]
      exact ih ((List.prefix_append t [c]).trans (List.prefix_append _ r))
    · rw [if_neg hc, if_neg (by rw [decide_eq_true_eq]; exact hc), List.length_append,
        List.length_singleton]

/-- The loop begins with a byte and no text. -/
theorem holdsArgs_zero : HoldsArgs 0 [] ⟨[0], 0, 0⟩ where
  held := List.nil_prefix
  j_eq := rfl
  len_lt := by decide
  len_eq := rfl
  size_eq := rfl
  text_zero := fun _ => rfl

/-- `argcv_string`, when it has a first block. -/
theorem argcvStringAlloc_eq (h : alloc.avail 1 = true) :
    argcvStringAlloc alloc style argv =
      (argcvStringSteps alloc style 0 ⟨[0], 0, 0⟩ argv >>= fun
        | none => .ok none
        | some st => do
          let j ← trimIndex st.buffer st.j
          let buffer ← store st.buffer j 0
          .ok (some buffer)) := by
  have hfirst : alloc.realloc [] 1 = some [0] := if_pos h
  rw [argcvStringAlloc, hfirst]
  rfl

/-- **`argcv_string` stays in its buffer** where the lengths fit, and leaves
in it what it is to make of the arguments. -/
theorem argcvStringAlloc_ok (h : alloc.avail 1 = true)
    (hfit : LengthsFit alloc style 0 argv) :
    argcvStringAlloc alloc style argv = .ok none ∨
      ∃ m str, argcvStringAlloc alloc style argv = .ok (some m) ∧
        argcvString style argv = .ok str ∧ str ++ [0] <+: m := by
  rw [argcvStringAlloc_eq h]
  rcases argcvStringSteps_ok holdsArgs_zero hfit with hnone | ⟨st, t, hsome, htext, hholds⟩
  · rw [hnone]
    exact .inl rfl
  · have hpre := (List.rdropWhile_prefix (fun c => decide (isSpace c)) t).trans hholds.held
    have hle := (List.rdropWhile_prefix (fun c => decide (isSpace c)) t).length_le
    have hroom : t.length < st.buffer.length := by
      have hlen := hholds.len_eq
      have hsize := hholds.size_eq
      have hzero := hholds.text_zero
      split_ifs at hlen with hi
      · rw [hzero hi, List.length_nil]
        omega
      · omega
    obtain ⟨r, hr⟩ := hpre
    have hne : r ≠ [] := by
      rintro rfl
      rw [← hr, List.append_nil] at hroom
      omega
    obtain ⟨b, r, rfl⟩ := List.exists_cons_of_ne_nil hne
    have htrim := trimIndex_eq hholds.held
    rw [← hholds.j_eq] at htrim
    refine .inr ⟨(t.rdropWhile fun c => decide (isSpace c)) ++ 0 :: r,
      t.rdropWhile fun c => decide (isSpace c), ?_, ?_, ⟨r, ?_⟩⟩
    · rw [hsome, ok_bind]
      dsimp only
      rw [htrim, ok_bind, ← hr, store_append, ok_bind]
    · rw [argcvString, htext, ok_bind]
    · rw [List.append_assoc, List.singleton_append]

/-- And elsewhere it does not. -/
theorem argcvStringAlloc_bounds (h : alloc.avail 1 = true) (hargc : argv.length ≤ 2 ^ 31)
    (hfit : ¬ LengthsFit alloc style 0 argv) :
    argcvStringAlloc alloc style argv = .error .bounds := by
  rw [argcvStringAlloc_eq h, argcvStringSteps_bounds holdsArgs_zero (by omega) hfit, error_bind]

end Steps

/-- **The quoted length, and the buffer.** The length is always that of the
copy. But `argcv_string` stays in its buffer exactly if every argument that
it comes to before the allocator refuses a size has a length that, two
bytes more included, is an `int`. -/
theorem argcvString_inBounds_iff (alloc : Allocator) (style : ArgcvQuotingStyle)
    (argv : List Bytes) (hargc : argv.length < 2 ^ 31) :
    (∀ str, (argcvQuotedLength style str).1 = (argcvQuoteCopy style str).length) ∧
      ((∃ r, argcvStringAlloc alloc style argv = .ok r) ↔
        (alloc.avail 1 = true → LengthsFit alloc style 0 argv)) := by
  refine ⟨argcvQuotedLength_fst style, ?_⟩
  constructor
  · rintro ⟨r, hr⟩ hfirst
    by_contra hfit
    rw [argcvStringAlloc_bounds hfirst hargc.le hfit] at hr
    cases hr
  · intro h
    cases hfirst : alloc.avail 1 with
    | false =>
      have hnone : alloc.realloc [] 1 = none := by
        unfold Allocator.realloc
        rw [hfirst, if_neg Bool.false_ne_true]
      exact ⟨none, by rw [argcvStringAlloc, hnone]⟩
    | true =>
      rcases argcvStringAlloc_ok hfirst (h hfirst) with hnone | ⟨m, str, hsome, -⟩
      · exact ⟨none, hnone⟩
      · exact ⟨some m, hsome⟩

/-- An allocator that has every size there can be. -/
def roomy : Allocator := ⟨fun n => decide (n < 2 ^ 63), fun _ h => of_decide_eq_true h⟩

/-- An argument with a blank in it. -/
theorem argcvString_inBounds_blank :
    [ascii "a b"].length < 2 ^ 31 ∧
      ∃ r, argcvStringAlloc roomy .octal [ascii "a b"] = .ok r := by
  have hargc : [ascii "a b"].length < 2 ^ 31 := by decide
  refine ⟨hargc, (argcvString_inBounds_iff roomy .octal [ascii "a b"] hargc).2.2 fun _ _ => ?_⟩
  exact ⟨by decide +kernel, trivial⟩

/-- The length of an argument of letters. -/
theorem argcvQuotedLength_replicate (style : ArgcvQuotingStyle) {n : ℕ} (hn : n ≠ 0) :
    (argcvQuotedLength style (List.replicate n 97)).1 = n := by
  have hchar : quotedCharLength style 97 = 1 := by cases style <;> decide
  have hne : List.replicate n (97 : UInt8) ≠ [] := fun h => hn ((List.replicate_eq_nil_iff _).1 h)
  rw [argcvQuotedLength, if_neg hne, List.map_replicate, hchar, List.sum_replicate_nat, Nat.mul_one]

/-- An argument of `2 ^ 32` letters is copied into two bytes. -/
theorem argcvString_past_end :
    argcvStringAlloc roomy .octal [List.replicate (2 ^ 32) 97] = .error .bounds := by
  refine argcvStringAlloc_bounds (by decide) (by decide) fun hfit => ?_
  have hlen := argcvQuotedLength_replicate .octal (n := 2 ^ 32) (by decide)
  have havail : ∀ quote, roomy.avail (nextSize 0 (truncInt (2 ^ 32 : ℕ)) quote) = true := by
    decide
  rw [LengthsFit] at hfit
  dsimp only at hfit
  rw [hlen] at hfit
  have hsmall := (hfit (havail _)).1
  omega

end Dico
