import Dico.Stream.Model
import Dico.Text.Tokenize
import Mathlib.Data.Nat.Find
import Mathlib.Logic.Function.Iterate
/-!
# Where the line trimmer ends a line

`_linetrimstr_find_end` of `lib/linetrimstr.c` goes over a buffer character
by character, in two loops that take turns, one for blanks and one for
words, and counts columns. It ends behind the buffer, or where a column
reaches the limit. The iterator knows nothing of the size: it steps by
the width a first byte announces, does not step over a null byte, and
keeps the width it had on a byte that starts no character.

`charAt` and `colAt` say where the characters begin and in what columns
they stand. `findEnd_spec` is what the scan does in these words, and
`progresses_iff` says when the write that calls it takes a part of the
buffer, neither nothing nor more than there is.
-/

namespace Dico

namespace Linetrim

/-- `ISWS`. -/
def isWs (c : UInt8) : Prop := c = space ∨ c = tab ∨ c = newline

instance : DecidablePred isWs := fun c =>
  inferInstanceAs (Decidable (c = space ∨ c = tab ∨ c = newline))

/-- What `utf8_char_width` says of a first byte. -/
def widthOf (c : UInt8) : ℕ := utf8CharWidth [c]

/-! ## The iterator -/

/-- `struct utf8_iterator`, with `curptr` as an offset from `string`. -/
structure Iter where
  cur : ℕ
  curwidth : ℕ
  deriving DecidableEq

/-- The width at a byte, where it was `width` before. -/
def widthAt (width : ℕ) (c : UInt8) : ℕ := if widthOf c = 0 then width else widthOf c

/-- `utf8_iter_first`. The iterator is on the stack and `w₀` is what its
width holds there. -/
def Iter.first (m : ℕ → UInt8) (w₀ : ℕ) : Iter := ⟨0, widthAt w₀ (m 0)⟩

/-- `utf8_iter_next`. -/
def Iter.next (m : ℕ → UInt8) (i : Iter) : Iter :=
  if m i.cur = 0 then i
  else ⟨i.cur + i.curwidth, widthAt i.curwidth (m (i.cur + i.curwidth))⟩

/-- `utf8_iter_isascii`. -/
def Iter.isAscii (m : ℕ → UInt8) (i : Iter) : Prop := i.curwidth = 1 ∧ m i.cur < 0x80

instance (m : ℕ → UInt8) (i : Iter) : Decidable (i.isAscii m) :=
  inferInstanceAs (Decidable (_ ∧ _))

/-! ## The scan -/

/-- The variables of `_linetrimstr_find_end`, and in which of its loops it
is. -/
structure Scan where
  inWord : Bool
  itr : Iter
  wordstart : ℕ
  linelen : ℕ
  deriving DecidableEq

/-- What it returns: whether a line ends, where, and the column kept for
the next call. -/
structure Found where
  nl : Bool
  psize : ℕ
  linelen : ℕ
  deriving DecidableEq

/-- Going on to the next character. -/
def Scan.next (m : ℕ → UInt8) (s : Scan) (linelen : ℕ) : Scan :=
  { s with itr := s.itr.next m, linelen := linelen }

/-- One test of a loop, and what its body does. -/
def Scan.step (m : ℕ → UInt8) (size maxlen : ℕ) (s : Scan) : Scan ⊕ Found :=
  if s.itr.isAscii m ∧ isWs (m s.itr.cur) then
    if s.inWord then
      -- the word is over, and `do` goes around once more inside the buffer
      if s.itr.cur < size then .inl { s with inWord := false }
      else .inr ⟨false, s.itr.cur, s.linelen⟩
    else if size ≤ s.itr.cur then .inr ⟨false, s.itr.cur, s.linelen⟩
    else if m s.itr.cur = newline then .inl (s.next m 0)
    else if maxlen ≤ s.linelen + 1 then
      .inr ⟨true, if 0 < s.wordstart then s.wordstart else s.itr.cur, 0⟩
    else .inl (s.next m (s.linelen + 1))
  else if s.inWord then
    if size ≤ s.itr.cur then .inr ⟨false, s.itr.cur, s.linelen⟩
    else if maxlen ≤ s.linelen + 1 then
      let len := if s.wordstart = 0 then s.itr.cur else s.wordstart
      if 0 < len then .inr ⟨true, len, 0⟩ else .inl (s.next m 0)
    else .inl (s.next m (s.linelen + 1))
  else .inl { s with inWord := true, wordstart := s.itr.cur }

/-- The loops. -/
def Scan.run (m : ℕ → UInt8) (size maxlen : ℕ) : ℕ → Scan → Option Found
  | 0, _ => none
  | fuel + 1, s =>
    match s.step m size maxlen with
    | .inl s' => run m size maxlen fuel s'
    | .inr r => some r

/-- Where the scan starts. -/
def Scan.first (m : ℕ → UInt8) (w₀ linelen : ℕ) : Scan := ⟨false, Iter.first m w₀, 0, linelen⟩

/-- `_linetrimstr_find_end`. -/
def findEnd (fuel : ℕ) (m : ℕ → UInt8) (w₀ size maxlen linelen : ℕ) : Option Found :=
  Scan.run m size maxlen fuel (Scan.first m w₀ linelen)

/-- `struct _linetrimstr`. Of the transport it is the bytes written to it
that matter; a mark tells those the trimmer put in. -/
structure Linetrimstr where
  transport : List (Bool × UInt8)
  maxlen : ℕ
  linelen : ℕ
  deriving DecidableEq

/-- What a call writes to the transport. -/
def Found.output (m : ℕ → UInt8) (r : Found) : List (Bool × UInt8) :=
  (List.range r.psize).map (fun i => (false, m i)) ++ if r.nl then [(true, newline)] else []

/-- `_linetrimstr_write`: the count it returns in `*pret`. The buffer is
the first `size` bytes of `m`, and the rest is what memory has behind it. -/
def linetrimstrWrite (fuel w₀ : ℕ) (x : Linetrimstr) (m : ℕ → UInt8) (size : ℕ) :
    Option (ℕ × Linetrimstr) := do
  let r ← findEnd fuel m w₀ size x.maxlen x.linelen
  some (r.psize, ⟨x.transport ++ r.output m, x.maxlen, r.linelen⟩)

variable {m : ℕ → UInt8} {w₀ size maxlen linelen fuel j k n : ℕ} {s s' : Scan} {r r' : Found}

/-! ## Running the scan -/

theorem run_of_inl (h : s.step m size maxlen = .inl s') (fuel : ℕ) :
    Scan.run m size maxlen (fuel + 1) s = Scan.run m size maxlen fuel s' := by
  rw [Scan.run, h]

theorem run_of_inr (h : s.step m size maxlen = .inr r) (fuel : ℕ) :
    Scan.run m size maxlen (fuel + 1) s = some r := by
  rw [Scan.run, h]

/-- More budget changes nothing. -/
theorem run_of_le (h : Scan.run m size maxlen j s = some r) (hle : j ≤ k) :
    Scan.run m size maxlen k s = some r := by
  induction j generalizing s k with
  | zero => cases h
  | succ j ih =>
    obtain ⟨k, rfl⟩ : ∃ i, k = i + 1 := ⟨k - 1, by omega⟩
    cases hstep : s.step m size maxlen with
    | inl s' =>
      rw [run_of_inl hstep] at h ⊢
      exact ih h (by omega)
    | inr r' =>
      rw [run_of_inr hstep] at h ⊢
      exact h

/-- Two runs that end, end the same. -/
theorem run_unique (h : Scan.run m size maxlen j s = some r)
    (h' : Scan.run m size maxlen k s = some r') : r = r' := by
  have h₁ := run_of_le h (Nat.le_max_left j k)
  rw [run_of_le h' (Nat.le_max_right j k)] at h₁
  exact (Option.some.inj h₁).symm

/-! ## One character -/

/-- A byte that starts a character has the width it says. -/
def Iter.Valid (m : ℕ → UInt8) (i : Iter) : Prop :=
  widthOf (m i.cur) ≠ 0 → i.curwidth = widthOf (m i.cur)

theorem widthOf_of_isWs {c : UInt8} (h : isWs c) : widthOf c = 1 ∧ c < 0x80 := by
  rcases h with rfl | rfl | rfl
  · exact ⟨rfl, by decide⟩
  · exact ⟨rfl, by decide⟩
  · exact ⟨rfl, by decide⟩

/-- The test of both loops is the test of the byte. -/
theorem isAscii_and_isWs_iff {i : Iter} (h : i.Valid m) :
    i.isAscii m ∧ isWs (m i.cur) ↔ isWs (m i.cur) := by
  refine and_iff_right_of_imp fun hws => ?_
  obtain ⟨hw, hlt⟩ := widthOf_of_isWs hws
  exact ⟨(h (by rw [hw]; decide)).trans hw, hlt⟩

/-- Behind the buffer the scan ends. -/
theorem run_behind (hend : size ≤ s.itr.cur) :
    Scan.run m size maxlen 2 s = some ⟨false, s.itr.cur, s.linelen⟩ := by
  have hlt : ¬ s.itr.cur < size := Nat.not_lt.2 hend
  by_cases hws : s.itr.isAscii m ∧ isWs (m s.itr.cur)
  · refine run_of_inr ?_ 1
    rw [Scan.step, if_pos hws]
    by_cases hin : s.inWord = true
    · rw [if_pos hin, if_neg hlt]
    · rw [if_neg hin, if_pos hend]
  · by_cases hin : s.inWord = true
    · refine run_of_inr ?_ 1
      rw [Scan.step, if_neg hws, if_pos hin, if_pos hend]
    · have hstep : s.step m size maxlen =
          .inl { s with inWord := true, wordstart := s.itr.cur } := by
        rw [Scan.step, if_neg hws, if_neg hin]
      rw [run_of_inl hstep]
      refine run_of_inr ?_ 0
      rw [Scan.step, if_neg hws, if_pos rfl, if_pos hend]

/-- The loop a character is handled in: the scan gets there in one step,
or is there. -/
theorem run_turn (maxlen : ℕ) (hv : s.itr.Valid m) (hlt : s.itr.cur < size)
    (hws : s.wordstart ≤ s.itr.cur) :
    ∃ s' j, j ≤ 1 ∧ (∀ fuel, Scan.run m size maxlen (fuel + j) s = Scan.run m size maxlen fuel s') ∧
      s'.itr = s.itr ∧ s'.linelen = s.linelen ∧ s'.wordstart ≤ s.itr.cur ∧
      (s'.inWord = true ↔ ¬ isWs (m s.itr.cur)) := by
  have hiff := isAscii_and_isWs_iff hv
  by_cases hc : isWs (m s.itr.cur)
  · by_cases hin : s.inWord = true
    · refine ⟨{ s with inWord := false }, 1, Nat.le_refl 1, run_of_inl ?_, rfl, rfl, hws,
        by simp only [Bool.false_eq_true, hc, not_true_eq_false]⟩
      rw [Scan.step, if_pos (hiff.2 hc), if_pos hin, if_pos hlt]
    · exact ⟨s, 0, Nat.zero_le 1, fun _ => rfl, rfl, rfl, hws,
        iff_of_false hin (not_not.2 hc)⟩
  · by_cases hin : s.inWord = true
    · exact ⟨s, 0, Nat.zero_le 1, fun _ => rfl, rfl, rfl, hws, iff_of_true hin hc⟩
    · refine ⟨{ s with inWord := true, wordstart := s.itr.cur }, 1, Nat.le_refl 1, run_of_inl ?_,
        rfl, rfl, Nat.le_refl _, iff_of_true rfl hc⟩
      rw [Scan.step, if_neg (fun h => hc h.2), if_neg hin]

theorem le_cur_next (m : ℕ → UInt8) (i : Iter) : i.cur ≤ (i.next m).cur := by
  rw [Iter.next]
  split_ifs
  · exact Nat.le_refl _
  · exact Nat.le_add_right _ _

/-- The column behind a character that stands behind column `linelen`. -/
def colAfter (maxlen linelen : ℕ) (c : UInt8) : ℕ :=
  if c = newline then 0 else if maxlen ≤ linelen + 1 then 0 else linelen + 1

/-- **A character the scan passes**: a newline, one below the limit, or a
word at the start of the buffer, where there is nothing to end a line
in front of. -/
theorem run_pass (hv : s.itr.Valid m) (hlt : s.itr.cur < size) (hws : s.wordstart ≤ s.itr.cur)
    (hc : m s.itr.cur = newline ∨ s.linelen + 1 < maxlen ∨
      s.itr.cur = 0 ∧ ¬ isWs (m s.itr.cur)) :
    ∃ s' j, j ≤ 2 ∧ (∀ fuel, Scan.run m size maxlen (fuel + j) s = Scan.run m size maxlen fuel s') ∧
      s'.itr = s.itr.next m ∧ s'.linelen = colAfter maxlen s.linelen (m s.itr.cur) ∧
      s'.wordstart ≤ s'.itr.cur := by
  obtain ⟨s₁, j, hj, hrun, hitr, hlen, hws₁, hin⟩ := run_turn maxlen hv hlt hws
  have hstep : s₁.step m size maxlen =
      .inl (s₁.next m (colAfter maxlen s.linelen (m s.itr.cur))) := by
    rw [Scan.step, hitr, hlen]
    by_cases hword : s₁.inWord = true
    · have hnot := hin.1 hword
      have hnl : ¬ m s.itr.cur = newline := fun h => hnot (.inr (.inr h))
      rw [if_neg (fun h => hnot h.2), if_pos hword, if_neg (Nat.not_le.2 hlt), colAfter, if_neg hnl]
      by_cases hmax : maxlen ≤ s.linelen + 1
      · -- only the first character of the buffer is passed here
        have hzero : s.itr.cur = 0 :=
          ((hc.resolve_left hnl).resolve_left (Nat.not_lt.2 hmax)).1
        have hstart : s₁.wordstart = 0 := by omega
        simp only [if_pos hmax, hstart, if_true, hzero, Nat.lt_irrefl, if_false]
      · rw [if_neg hmax, if_neg hmax]
    · have hblank : isWs (m s.itr.cur) := by
        by_contra h
        exact hword (hin.2 h)
      rw [if_pos ((isAscii_and_isWs_iff hv).2 hblank), if_neg hword, if_neg (Nat.not_le.2 hlt),
        colAfter]
      by_cases hnl : m s.itr.cur = newline
      · rw [if_pos hnl, if_pos hnl]
      · have hmax : ¬ maxlen ≤ s.linelen + 1 := by
          rcases hc.resolve_left hnl with h | ⟨-, h⟩
          · exact Nat.not_le.2 h
          · exact absurd hblank h
        rw [if_neg hnl, if_neg hnl, if_neg hmax, if_neg hmax]
  refine ⟨s₁.next m (colAfter maxlen s.linelen (m s.itr.cur)), j + 1, by omega, fun fuel => ?_,
    congrArg (Iter.next m) hitr, rfl, ?_⟩
  · rw [show fuel + (j + 1) = fuel + 1 + j by omega, hrun, run_of_inl hstep]
  · exact hws₁.trans (hitr ▸ le_cur_next m s₁.itr)

/-- **A character the scan stops at** ends a line, behind the first
character of the buffer and not behind itself. -/
theorem run_break (hv : s.itr.Valid m) (hlt : s.itr.cur < size) (hws : s.wordstart ≤ s.itr.cur)
    (hnl : ¬ m s.itr.cur = newline) (hmax : maxlen ≤ s.linelen + 1) (hpos : 0 < s.itr.cur) :
    ∃ len, 0 < len ∧ len ≤ s.itr.cur ∧ Scan.run m size maxlen 2 s = some ⟨true, len, 0⟩ := by
  obtain ⟨s₁, j, hj, hrun, hitr, hlen, hws₁, hin⟩ := run_turn maxlen hv hlt hws
  obtain ⟨len, hlen₀, hle, hstep⟩ : ∃ len, 0 < len ∧ len ≤ s.itr.cur ∧
      s₁.step m size maxlen = .inr ⟨true, len, 0⟩ := by
    rw [Scan.step, hitr, hlen]
    by_cases hword : s₁.inWord = true
    · rw [if_neg (fun h => hin.1 hword h.2), if_pos hword, if_neg (Nat.not_le.2 hlt), if_pos hmax]
      by_cases hstart : s₁.wordstart = 0
      · exact ⟨s.itr.cur, hpos, Nat.le_refl _, by simp only [hstart, if_true, hpos]⟩
      · have hstart' : 0 < s₁.wordstart := Nat.pos_of_ne_zero hstart
        exact ⟨s₁.wordstart, hstart', hws₁, by simp only [hstart, if_false, hstart', if_true]⟩
    · have hblank : isWs (m s.itr.cur) := by
        by_contra h
        exact hword (hin.2 h)
      rw [if_pos ((isAscii_and_isWs_iff hv).2 hblank), if_neg hword, if_neg (Nat.not_le.2 hlt),
        if_neg hnl, if_pos hmax]
      by_cases hstart : 0 < s₁.wordstart
      · exact ⟨s₁.wordstart, hstart, hws₁, by rw [if_pos hstart]⟩
      · exact ⟨s.itr.cur, hpos, Nat.le_refl _, by rw [if_neg hstart]⟩
  refine ⟨len, hlen₀, hle, run_of_le (j := 1 + j) ?_ (by omega)⟩
  rw [hrun]
  exact run_of_inr hstep 0

/-! ## The characters of a buffer -/

/-- Where the iterator is after `k` characters. -/
def charAt (m : ℕ → UInt8) (w₀ k : ℕ) : Iter := (Iter.next m)^[k] (Iter.first m w₀)

/-- The column it counts there. -/
def colAt (m : ℕ → UInt8) (w₀ maxlen linelen : ℕ) : ℕ → ℕ
  | 0 => linelen
  | k + 1 => colAfter maxlen (colAt m w₀ maxlen linelen k) (m (charAt m w₀ k).cur)

/-- The scan gets over character `k`: it begins inside the buffer, and is a
newline, or below the limit, or the first. -/
def Passes (m : ℕ → UInt8) (w₀ size maxlen linelen k : ℕ) : Prop :=
  (charAt m w₀ k).cur < size ∧ (m (charAt m w₀ k).cur = newline ∨
    colAt m w₀ maxlen linelen k + 1 < maxlen ∨ k = 0)

theorem charAt_succ (m : ℕ → UInt8) (w₀ k : ℕ) : charAt m w₀ (k + 1) = (charAt m w₀ k).next m :=
  Function.iterate_succ_apply' _ _ _

/-- The width at a byte is the one it says, if it says one. -/
theorem widthAt_eq {w : ℕ} {c : UInt8} (h : widthOf c ≠ 0) : widthAt w c = widthOf c := if_neg h

theorem valid_charAt (m : ℕ → UInt8) (w₀ k : ℕ) : (charAt m w₀ k).Valid m := by
  induction k with
  | zero => exact fun h => widthAt_eq h
  | succ k ih =>
    rw [charAt_succ, Iter.next]
    split_ifs
    · exact ih
    · exact fun h => widthAt_eq h

theorem charAt_width_pos (hlead : widthOf (m 0) ≠ 0) (w₀ k : ℕ) : 0 < (charAt m w₀ k).curwidth := by
  induction k with
  | zero => exact Nat.pos_of_ne_zero (fun h => hlead ((widthAt_eq hlead).symm.trans h))
  | succ k ih =>
    rw [charAt_succ, Iter.next]
    split_ifs
    · exact ih
    · rw [widthAt]
      split_ifs with h
      · exact ih
      · exact Nat.pos_of_ne_zero h

/-- Only the first character begins where the buffer does. -/
theorem charAt_pos (hlead : widthOf (m 0) ≠ 0) (hnull : m 0 ≠ 0) (w₀ : ℕ) (hk : 0 < k) :
    0 < (charAt m w₀ k).cur := by
  obtain ⟨k, rfl⟩ : ∃ i, k = i + 1 := ⟨k - 1, by omega⟩
  induction k with
  | zero =>
    have hw := charAt_width_pos hlead w₀ 0
    have hc : ¬ m (charAt m w₀ 0).cur = 0 := hnull
    rw [charAt_succ, Iter.next, if_neg hc]
    exact Nat.lt_of_lt_of_le hw (Nat.le_add_left _ _)
  | succ k ih =>
    rw [charAt_succ]
    exact Nat.lt_of_lt_of_le (ih (Nat.succ_pos k)) (le_cur_next m _)

/-- **After the characters it passes** the scan is at the next one, and has
counted its column. -/
theorem run_passes (w₀ : ℕ) (hblank : isWs (m 0) → m 0 = newline ∨ linelen + 1 < maxlen)
    (hpass : ∀ k < n, Passes m w₀ size maxlen linelen k) :
    ∃ s j, j ≤ 2 * n ∧ (∀ fuel, Scan.run m size maxlen (fuel + j) (Scan.first m w₀ linelen) =
        Scan.run m size maxlen fuel s) ∧
      s.itr = charAt m w₀ n ∧ s.linelen = colAt m w₀ maxlen linelen n ∧
      s.wordstart ≤ s.itr.cur := by
  induction n with
  | zero => exact ⟨_, 0, Nat.le_refl 0, fun _ => rfl, rfl, rfl, Nat.le_refl 0⟩
  | succ n ih =>
    obtain ⟨s, j, hj, hrun, hitr, hlen, hws⟩ := ih fun k hk => hpass k (Nat.lt_succ_of_lt hk)
    obtain ⟨hlt, hc⟩ := hpass n (Nat.lt_succ_self n)
    have hc' : m s.itr.cur = newline ∨ s.linelen + 1 < maxlen ∨
        s.itr.cur = 0 ∧ ¬ isWs (m s.itr.cur) := by
      rw [hitr, hlen]
      rcases hc with hc | hc | rfl
      · exact .inl hc
      · exact .inr (.inl hc)
      · by_cases hws₀ : isWs (m 0)
        · exact (hblank hws₀).imp_right .inl
        · exact .inr (.inr ⟨rfl, hws₀⟩)
    obtain ⟨s', j', hj', hrun', hitr', hlen', hws'⟩ :=
      run_pass (hitr ▸ valid_charAt m w₀ n) (hitr ▸ hlt) hws hc'
    refine ⟨s', j' + j, by omega, fun fuel => ?_, ?_, ?_, hws'⟩
    · rw [← Nat.add_assoc, hrun, hrun']
    · rw [hitr', hitr, charAt_succ]
    · rw [hlen', hitr, hlen, colAt]

/-- The most characters a scan can pass. -/
def passMax (size maxlen : ℕ) : ℕ := size * (maxlen + 1) + maxlen + 1 + 1

/-- A scan that goes on comes nearer the end, or, on a null byte, nearer
the limit. -/
theorem exists_not_passes (hlead : widthOf (m 0) ≠ 0) (w₀ size maxlen linelen : ℕ) :
    ∃ n, n ≤ passMax size maxlen ∧ ¬ Passes m w₀ size maxlen linelen n := by
  by_contra hnone
  have hall : ∀ n ≤ passMax size maxlen, Passes m w₀ size maxlen linelen n := by
    intro n hn
    by_contra hp
    exact hnone ⟨n, hn, hp⟩
  rw [passMax] at hall
  -- behind the first character every column is below the limit
  have hcol : ∀ k, colAt m w₀ maxlen linelen (k + 1) ≤ maxlen := by
    intro k
    rw [colAt, colAfter]
    split_ifs <;> omega
  have hgrow : ∀ k ≤ size * (maxlen + 1) + maxlen + 1,
      k ≤ (charAt m w₀ (k + 1)).cur * (maxlen + 1) + colAt m w₀ maxlen linelen (k + 1) := by
    intro k hkmax
    induction k with
    | zero => exact Nat.zero_le _
    | succ k ih =>
      have ih := ih (by omega)
      have hk := hcol k
      rw [charAt_succ m w₀ (k + 1), Iter.next]
      split_ifs with hzero
      · have hnl : ¬ m (charAt m w₀ (k + 1)).cur = newline := by
          rw [hzero]
          decide
        have hlow := ((hall (k + 1) (by omega)).2.resolve_left hnl).resolve_right
          (Nat.succ_ne_zero k)
        rw [colAt, colAfter, if_neg hnl, if_neg (by omega)]
        omega
      · have hw := charAt_width_pos hlead w₀ (k + 1)
        have hstep : ((charAt m w₀ (k + 1)).cur + 1) * (maxlen + 1) ≤
            ((charAt m w₀ (k + 1)).cur + (charAt m w₀ (k + 1)).curwidth) * (maxlen + 1) :=
          Nat.mul_le_mul_right _ (by omega)
        rw [Nat.add_mul, Nat.one_mul] at hstep
        simp only
        omega
  have hle : (charAt m w₀ (size * (maxlen + 1) + maxlen + 1 + 1)).cur * (maxlen + 1) ≤
      size * (maxlen + 1) := Nat.mul_le_mul_right _ (Nat.le_of_lt (hall _ (Nat.le_refl _)).1)
  have hbound := hgrow (size * (maxlen + 1) + maxlen + 1) (Nat.le_refl _)
  have hk := hcol (size * (maxlen + 1) + maxlen + 1)
  omega

/-- **What the scan does** from a buffer that starts with a character, and
not with a blank at the limit: it passes characters until one begins
behind the buffer, or until one would go over the limit, and then it
ends a line in front of that. -/
theorem findEnd_spec (hlead : widthOf (m 0) ≠ 0) (hnull : m 0 ≠ 0) (w₀ size maxlen linelen : ℕ)
    (hblank : isWs (m 0) → m 0 = newline ∨ linelen + 1 < maxlen) :
    ∃ n ≤ passMax size maxlen, (∀ k < n, Passes m w₀ size maxlen linelen k) ∧
      (size ≤ (charAt m w₀ n).cur ∧ (∀ fuel, 2 * n + 2 ≤ fuel →
          findEnd fuel m w₀ size maxlen linelen =
            some ⟨false, (charAt m w₀ n).cur, colAt m w₀ maxlen linelen n⟩) ∨
        (charAt m w₀ n).cur < size ∧ ∃ len, 0 < len ∧ len ≤ (charAt m w₀ n).cur ∧
          ∀ fuel, 2 * n + 2 ≤ fuel →
            findEnd fuel m w₀ size maxlen linelen = some ⟨true, len, 0⟩) := by
  classical
  obtain ⟨N, hN, hstopN⟩ := exists_not_passes hlead w₀ size maxlen linelen
  have hex : ∃ n, ¬ Passes m w₀ size maxlen linelen n := ⟨N, hstopN⟩
  have hpass : ∀ k < Nat.find hex, Passes m w₀ size maxlen linelen k :=
    fun k hk => not_not.1 (Nat.find_min hex hk)
  have hstop := Nat.find_spec hex
  obtain ⟨s, j, hj, hrun, hitr, hlen, hws⟩ := run_passes w₀ hblank hpass
  have hends : ∀ {r : Found}, Scan.run m size maxlen 2 s = some r → ∀ fuel,
      2 * Nat.find hex + 2 ≤ fuel → findEnd fuel m w₀ size maxlen linelen = some r := by
    intro r hr fuel hfuel
    refine run_of_le (j := 2 + j) ?_ (by omega)
    rw [hrun, hr]
  refine ⟨Nat.find hex, (Nat.find_le hstopN).trans hN, hpass, ?_⟩
  by_cases hend : size ≤ (charAt m w₀ (Nat.find hex)).cur
  · refine .inl ⟨hend, hends ?_⟩
    rw [run_behind (hitr ▸ hend), hitr, hlen]
  · rw [Passes, not_and, not_or, not_or, Nat.not_lt] at hstop
    obtain ⟨hnl, hmax, hk⟩ := hstop (Nat.not_le.1 hend)
    obtain ⟨len, hlen₀, hle, hbreak⟩ := run_break (hitr ▸ valid_charAt m w₀ _)
      (hitr ▸ Nat.not_le.1 hend) hws (hitr ▸ hnl) (hlen ▸ hmax)
      (hitr ▸ charAt_pos hlead hnull w₀ (Nat.pos_of_ne_zero hk))
    exact .inr ⟨Nat.not_le.1 hend, len, hlen₀, hitr ▸ hle, hends hbreak⟩

/-! ## Progress -/

/-- Whatever was on the stack, `_linetrimstr_write` returns, and takes one
byte at least and no more than there are. -/
def Progresses (x : Linetrimstr) (m : ℕ → UInt8) (size : ℕ) : Prop :=
  ∀ w₀, ∃ fuel n x', linetrimstrWrite fuel w₀ x m size = some (n, x') ∧ 0 < n ∧ n ≤ size

theorem newline_or_of_isWs {c : UInt8} {p : Prop} (h : c = space ∨ c = tab → p) (hws : isWs c) :
    c = newline ∨ p := by
  rcases hws with hc | hc | hc
  · exact .inr (h (.inl hc))
  · exact .inr (h (.inr hc))
  · exact .inl hc

/-- The count a write returns is where the scan ended. -/
theorem linetrimstrWrite_eq_some {x x' : Linetrimstr} :
    linetrimstrWrite fuel w₀ x m size = some (n, x') ↔
      ∃ r, findEnd fuel m w₀ size x.maxlen x.linelen = some r ∧ r.psize = n ∧
        (⟨x.transport ++ r.output m, x.maxlen, r.linelen⟩ : Linetrimstr) = x' := by
  simp only [linetrimstrWrite, Option.bind_eq_bind, Option.bind_eq_some_iff, Option.some.injEq,
    Prod.mk.injEq]

/-- A scan that cannot step over the first byte, and has nothing to end a
line in front of, goes on for ever. -/
theorem run_stuck (hsize : 0 < size) (hc : ¬ isWs (m 0)) {i : Iter} (hcur : i.cur = 0)
    (hnext : i.next m = i) (fuel : ℕ) (inWord : Bool) (linelen : ℕ) :
    Scan.run m size maxlen fuel ⟨inWord, i, 0, linelen⟩ = none := by
  induction fuel generalizing inWord linelen with
  | zero => rfl
  | succ fuel ih =>
    obtain ⟨inWord', linelen', hstep⟩ : ∃ inWord' linelen',
        Scan.step m size maxlen ⟨inWord, i, 0, linelen⟩ = .inl ⟨inWord', i, 0, linelen'⟩ := by
      have hnot : ¬ (i.isAscii m ∧ isWs (m i.cur)) := by
        rw [hcur]
        exact fun h => hc h.2
      have hlt : ¬ size ≤ i.cur := by omega
      rw [Scan.step, if_neg hnot]
      cases inWord with
      | false => exact ⟨true, linelen, by simp only [Bool.false_eq_true, if_false, hcur]⟩
      | true =>
        by_cases hmax : maxlen ≤ linelen + 1
        · refine ⟨true, 0, ?_⟩
          simp only [if_true, hcur, Nat.not_le.2 hsize, if_false, if_pos hmax, Nat.lt_irrefl,
            Scan.next, hnext]
        · refine ⟨true, linelen + 1, ?_⟩
          simp only [if_true, if_neg hlt, if_neg hmax, Scan.next, hnext]
    rw [run_of_inl hstep]
    exact ih inWord' linelen'

/-- A blank at the limit, first in the buffer, ends a line in front of
itself. -/
theorem findEnd_blank (w₀ : ℕ) (hsize : 0 < size) (hws : isWs (m 0)) (hnl : ¬ m 0 = newline)
    (hmax : maxlen ≤ linelen + 1) : findEnd 1 m w₀ size maxlen linelen = some ⟨true, 0, 0⟩ := by
  have hv : (Iter.first m w₀).Valid m := valid_charAt m w₀ 0
  have hcur : (Iter.first m w₀).cur = 0 := rfl
  refine run_of_inr ?_ 0
  rw [Scan.step, Scan.first, if_pos ((isAscii_and_isWs_iff hv).2 hws)]
  simp only [Bool.false_eq_true, if_false, hcur, Nat.not_le.2 hsize, if_neg hnl, if_pos hmax,
    Nat.lt_irrefl]

/-- A scan that ends started on a character, where the width on the stack
was zero. -/
theorem lead_of_findEnd (hsize : 0 < size) (hrun : findEnd fuel m 0 size maxlen linelen = some r) :
    m 0 ≠ 0 ∧ widthOf (m 0) ≠ 0 := by
  have hstuck : ¬ isWs (m 0) → (Iter.first m 0).next m ≠ Iter.first m 0 := by
    intro hc hnext
    rw [findEnd, Scan.first, run_stuck hsize hc rfl hnext] at hrun
    cases hrun
  have hnull : m 0 ≠ 0 := by
    intro h0
    exact hstuck (by rw [h0]; decide) (if_pos h0)
  refine ⟨hnull, fun h0 => ?_⟩
  have hfirst : Iter.first m 0 = ⟨0, 0⟩ := by rw [Iter.first, widthAt, if_pos h0]
  refine hstuck (fun hws => ?_) ?_
  · rw [(widthOf_of_isWs hws).1] at h0
    cases h0
  · rw [hfirst, Iter.next, if_neg hnull, widthAt, Nat.zero_add, if_pos h0]

/-- Nor did it start on a blank at the limit, if it took anything. -/
theorem room_of_findEnd (hsize : 0 < size) (hrun : findEnd fuel m w₀ size maxlen linelen = some r)
    (hpos : 0 < r.psize) (hc : m 0 = space ∨ m 0 = tab) : linelen + 1 < maxlen := by
  by_contra hmax
  have hnl : ¬ m 0 = newline := by
    rcases hc with hc | hc
    · rw [hc]
      decide
    · rw [hc]
      decide
  have hzero := findEnd_blank w₀ hsize (hc.imp_right .inl) hnl (Nat.not_lt.1 hmax)
  rw [run_unique hrun hzero] at hpos
  exact Nat.lt_irrefl 0 hpos

/-- It ends at the first character behind the buffer. -/
theorem psize_of_passes (hrun : findEnd fuel m w₀ size maxlen linelen = some r)
    (hblank : m 0 = space ∨ m 0 = tab → linelen + 1 < maxlen)
    (hpass : ∀ k < n, Passes m w₀ size maxlen linelen k) (hover : size < (charAt m w₀ n).cur) :
    r.psize = (charAt m w₀ n).cur := by
  obtain ⟨s, j, -, hrun', hitr, -, -⟩ := run_passes w₀ (newline_or_of_isWs hblank) hpass
  have hend : Scan.run m size maxlen (2 + j) (Scan.first m w₀ linelen) =
      some ⟨false, s.itr.cur, s.linelen⟩ := by
    rw [hrun']
    exact run_behind (by rw [hitr]; omega)
  rw [run_unique hrun hend, hitr]

/-- **When a write makes progress**: exactly where the first byte is no
null byte and starts a character, that is not a space or a tab at the
limit, and no character the scan passes goes over the end of the
buffer. -/
theorem progresses_iff (x : Linetrimstr) (m : ℕ → UInt8) (hsize : 0 < size) :
    Progresses x m size ↔
      m 0 ≠ 0 ∧ widthOf (m 0) ≠ 0 ∧ (m 0 = space ∨ m 0 = tab → x.linelen + 1 < x.maxlen) ∧
        ∀ n, (∀ k < n, Passes m 0 size x.maxlen x.linelen k) → (charAt m 0 n).cur ≤ size := by
  constructor
  · intro h
    obtain ⟨fuel, n, x', hwrite, hpos, hle⟩ := h 0
    obtain ⟨r, hrun, rfl, -⟩ := linetrimstrWrite_eq_some.1 hwrite
    obtain ⟨hnull, hlead⟩ := lead_of_findEnd hsize hrun
    have hblank := room_of_findEnd hsize hrun hpos
    refine ⟨hnull, hlead, hblank, fun n hpass => ?_⟩
    by_contra hover
    rw [psize_of_passes hrun hblank hpass (Nat.not_le.1 hover)] at hle
    exact hover hle
  · rintro ⟨hnull, hlead, hblank, hfit⟩ w₀
    have hsame : Iter.first m w₀ = Iter.first m 0 := by
      rw [Iter.first, Iter.first, widthAt_eq hlead, widthAt_eq hlead]
    obtain ⟨n, -, hpass, hend⟩ := findEnd_spec hlead hnull 0 size x.maxlen x.linelen
      (newline_or_of_isWs hblank)
    have hrun : ∀ fuel, linetrimstrWrite fuel w₀ x m size = linetrimstrWrite fuel 0 x m size := by
      intro fuel
      rw [linetrimstrWrite, linetrimstrWrite, findEnd, findEnd, Scan.first, Scan.first, hsame]
    rcases hend with ⟨hbehind, hfound⟩ | ⟨hlt, len, hlen, hle, hfound⟩
    · refine ⟨2 * n + 2, _, _, (hrun _).trans
        (linetrimstrWrite_eq_some.2 ⟨_, hfound _ (Nat.le_refl _), rfl, rfl⟩),
        Nat.lt_of_lt_of_le hsize hbehind, hfit n hpass⟩
    · exact ⟨2 * n + 2, _, _, (hrun _).trans
        (linetrimstrWrite_eq_some.2 ⟨_, hfound _ (Nat.le_refl _), rfl, rfl⟩), hlen,
        Nat.le_of_lt (Nat.lt_of_le_of_lt hle hlt)⟩

/-- Two letters, with room in their line. -/
theorem progresses_letter : 0 < 2 ∧ Progresses ⟨[], 3, 0⟩ (fun _ => 97) 2 := by
  refine ⟨by decide, (progresses_iff _ _ (by decide)).2 ⟨by decide, by decide, by decide, ?_⟩⟩
  intro n hpass
  by_contra hover
  -- the third character begins behind the buffer, and is not passed
  have hn : 2 < n := by
    by_contra hn
    obtain rfl | rfl | rfl : n = 0 ∨ n = 1 ∨ n = 2 := by omega
    · exact hover (by decide)
    · exact hover (by decide)
    · exact hover (by decide)
  exact absurd (hpass 2 hn).1 (by decide)

/-- **A space behind `a` in a line of two**: nothing of it is taken. -/
theorem not_progresses_space :
    ¬ ∀ (x : Linetrimstr) (m : ℕ → UInt8) (size : ℕ), 2 ≤ x.maxlen → 0 < size →
      Progresses x m size := by
  intro hall
  obtain ⟨fuel, n, x', hwrite, hpos, -⟩ :=
    hall ⟨[(false, 97)], 2, 1⟩ (fun _ => space) 1 (by decide) (by decide) 0
  obtain ⟨r, hrun, rfl, -⟩ := linetrimstrWrite_eq_some.1 hwrite
  have hzero : findEnd 1 (fun _ => space) 0 1 2 1 = some ⟨true, 0, 0⟩ := rfl
  rw [run_unique hrun hzero] at hpos
  exact Nat.lt_irrefl 0 hpos

end Linetrim

end Dico
