import Dico.Common.Base64
import Dico.Common.Chain
import Dico.Common.Fields
import Dico.Text.Iterator
import Dico.Text.Select
/-!
# A line of the index

An index file has a line for each word: the word, the place of its article
and the size of it, separated by tabs, the numbers written in base 64.
`parse_index_entry` reads the fields in a loop that ends where the line
does; what it has not read by then it does not miss. Where the line begins
with a byte that no character begins with, the iterator never moves.
-/

namespace Dico

namespace DictOrg

open Utf8 (encode)
open Fields (fields behind Cut)

/-! ## The model -/

/-- `struct index_entry` on the stack, where a member that was not set has no
value. -/
structure IndexDraft where
  /-- The word. -/
  word : Option Bytes
  /-- Its length in bytes. -/
  length : Option ℕ
  /-- Its length in characters. -/
  wordlen : Option ℕ
  /-- Where the article begins. -/
  offset : Option ℕ
  /-- The size of the article. -/
  size : Option ℕ
  deriving DecidableEq, Repr

/-- `b64val`. -/
def b64val : List ℤ :=
  [-1, -1, -1, -1, -1, -1, -1, -1, -1, -1, -1, -1, -1, -1, -1, -1,
   -1, -1, -1, -1, -1, -1, -1, -1, -1, -1, -1, -1, -1, -1, -1, -1,
   -1, -1, -1, -1, -1, -1, -1, -1, -1, -1, -1, 62, -1, -1, -1, 63,
   52, 53, 54, 55, 56, 57, 58, 59, 60, 61, -1, -1, -1, -1, -1, -1,
   -1, 0, 1, 2, 3, 4, 5, 6, 7, 8, 9, 10, 11, 12, 13, 14,
   15, 16, 17, 18, 19, 20, 21, 22, 23, 24, 25, -1, -1, -1, -1, -1,
   -1, 26, 27, 28, 29, 30, 31, 32, 33, 34, 35, 36, 37, 38, 39, 40,
   41, 42, 43, 44, 45, 46, 47, 48, 49, 50, 51, -1, -1, -1, -1, -1]

/-- `dico_base64_input`, of a `char`: those that are negative are beyond the
table, as the large ones are. -/
def dicoBase64Input (c : UInt8) : ℤ := b64val.getD c.toNat (-1)

/-- The loop of `b64_decode`; behind it `i` is `len`. -/
def b64DecodeLoop : Bytes → ℕ → Option ℕ
  | [], v => some v
  | c :: val, v =>
    let x := dicoBase64Input c
    if x = -1 then none else b64DecodeLoop val (v <<< 6 % 2 ^ 64 ||| x.toNat)

/-- `b64_decode`. -/
def b64Decode (val : Bytes) : Option ℕ := b64DecodeLoop val 0

/-- The condition of the loop that skips whitespace. -/
def onBlank (itr : Utf8Iterator) : Bool := ¬ itr.endP ∧ itr.isAscii ∧ isWs itr.char

/-- The condition of the loop over a field. -/
def inField (itr : Utf8Iterator) : Bool := ¬ itr.endP ∧ ¬ (itr.isAscii ∧ itr.char = tab)

/-- The word of an entry, with its trailing whitespace stripped if `tws` is
set. -/
def entryWord (tws : Bool) (text : Bytes) : Bytes :=
  if tws then text.rdropWhile (· = space) else text

/-- What is done with a field: nothing, if it is not a number where there
should be one. -/
def setField (tws : Bool) (nfield : ℕ) (text : Bytes) (idx : IndexDraft) :
    Except Fault (Option IndexDraft) :=
  if nfield = 0 then
    match utf8Strlen (entryWord tws text) with
    | none => .error .bounds
    | some wordlen => .ok (some { idx with
        word := some (entryWord tws text)
        length := some (entryWord tws text).length
        wordlen := some wordlen })
  else
    match b64Decode text with
    | none => .ok none
    | some n =>
      .ok (some (if nfield = 1 then { idx with offset := some n }
        else { idx with size := some n }))

/-- The loop of `parse_index_entry`, of whose three turns `k` are left. -/
def parseFields (fuel : ℕ) (tws : Bool) :
    ℕ → Utf8Iterator → IndexDraft → Except Fault (ℕ × Utf8Iterator × IndexDraft)
  | 0, itr, idx => .ok (0, itr, idx)
  | k + 1, itr, idx => do
    let itr ← advance onBlank fuel itr
    if itr.endP then .ok (0, itr, idx)
    else
      let start := itr.cur
      let itr ← advance inField fuel itr
      let len := start.length - itr.cur.length
      match ← setField tws (2 - k) (start.take len) idx with
      | none => .ok (1, itr, idx)
      | some idx => parseFields fuel tws k itr idx

/-- `parse_index_entry`, with the block from `buf` on: the return value, and
the list. The word of an entry that is not kept is freed. -/
def parseIndexEntry (fuel : ℕ) (tws : Bool) (buf : Bytes) (list : List IndexDraft) :
    Except Fault (ℕ × List IndexDraft) := do
  let itr ← Utf8Iterator.iter0 buf 0
  let (rc, itr, idx) ← parseFields fuel tws 3 itr ⟨none, none, none, none, none⟩
  if rc = 0 ∧ itr.endP then .ok (0, list ++ [idx])
  else if idx.word = none then .error .dangling
  else .ok (1, list)

/-! ## The strides of a line -/

/-- A blank, as a piece of the line. -/
def blankPiece (c : Bytes) : Bool := c = [space] ∨ c = [tab]

/-- A tab, as a piece of the line. -/
def tabPiece (c : Bytes) : Bool := c = [tab]

/-- What the loop does with the strides of a line, behind which there is a
rest. -/
def readFields (tws : Bool) (rest : Bytes) :
    ℕ → List Bytes → IndexDraft → Except Fault (ℕ × List Bytes × IndexDraft)
  | 0, cs, idx => .ok (0, cs, idx)
  | k + 1, cs, idx =>
    if cs.dropWhile blankPiece = [] ∧ rest = [] then .ok (0, [], idx)
    else if (cs.dropWhile blankPiece).dropWhile (!tabPiece ·) = [] ∧ rest ≠ [] then .error .bounds
    else do
      match ← setField tws (2 - k)
        ((cs.dropWhile blankPiece).takeWhile (!tabPiece ·)).flatten idx with
      | none => .ok (1, (cs.dropWhile blankPiece).dropWhile (!tabPiece ·), idx)
      | some idx => readFields tws rest k ((cs.dropWhile blankPiece).dropWhile (!tabPiece ·)) idx

section Reading

variable {itr : Utf8Iterator} {cs : List Bytes} {rest : Bytes} {tws : Bool} {idx : IndexDraft}

/-- A piece of one byte. -/
theorem piece_eq_singleton {b : UInt8} {c : Bytes} {x : UInt8} :
    (b :: c).length = 1 ∧ b = x ↔ b :: c = [x] := by
  rw [List.length_cons, List.cons.injEq, Nat.add_eq_right, List.length_eq_zero_iff, and_comm]

/-- The first loop looks for a piece that is no blank. -/
theorem judges_onBlank : Judges onBlank blankPiece false where
  done := fun w => by
    rw [onBlank, decide_eq_false_iff_not]
    exact fun h => h.1 rfl
  stuck := fun s w hs hnull hw => by
    rw [onBlank, decide_eq_false_iff_not]
    rintro ⟨-, ⟨hone, -⟩, -⟩
    have hpos := List.length_pos_of_ne_nil hs
    change w = 1 at hone
    omega
  step := fun c s hc hnull => by
    have hend := not_endP hc hnull s c.length
    obtain ⟨b, c, rfl⟩ := List.exists_cons_of_ne_nil hc
    rw [onBlank, blankPiece, decide_eq_decide, ← piece_eq_singleton, ← piece_eq_singleton]
    constructor
    · rintro ⟨-, ⟨hone, -⟩, hws⟩
      exact hws.imp (fun h => ⟨hone, h⟩) (fun h => ⟨hone, h⟩)
    · rintro (⟨hone, rfl⟩ | ⟨hone, rfl⟩)
      · exact ⟨hend, ⟨hone, (by decide : space < 0x80)⟩, .inl rfl⟩
      · exact ⟨hend, ⟨hone, (by decide : tab < 0x80)⟩, .inr rfl⟩

/-- The second one looks for a tab. -/
theorem judges_inField : Judges inField (!tabPiece ·) true where
  done := fun w => by
    rw [inField, decide_eq_false_iff_not]
    exact fun h => h.1 rfl
  stuck := fun s w hs hnull hw => by
    rw [inField, decide_eq_true_iff]
    refine ⟨not_endP hs hnull _ _, ?_⟩
    rintro ⟨⟨hone, -⟩, -⟩
    have hpos := List.length_pos_of_ne_nil hs
    change w = 1 at hone
    omega
  step := fun c s hc hnull => by
    have hend := not_endP hc hnull s c.length
    obtain ⟨b, c, rfl⟩ := List.exists_cons_of_ne_nil hc
    rw [inField, tabPiece, ← decide_not, decide_eq_decide, ← piece_eq_singleton]
    constructor
    · rintro ⟨-, hnot⟩ ⟨hone, rfl⟩
      exact hnot ⟨⟨hone, (by decide : tab < 0x80)⟩, rfl⟩
    · intro hnot
      exact ⟨hend, fun h => hnot ⟨h.1.1, h.2⟩⟩

/-- The bytes between two iterators. -/
theorem take_between {l a b : List Bytes} {r : Bytes} (h : a ++ b = l) :
    (l.flatten ++ r).take ((l.flatten ++ r).length - (b.flatten ++ r).length) = a.flatten := by
  subst h
  have hlen : ((a ++ b).flatten ++ r).length - (b.flatten ++ r).length = a.flatten.length := by
    rw [List.flatten_append, List.append_assoc, List.length_append]
    omega
  rw [hlen, List.flatten_append, List.append_assoc, List.take_left]

/-- The loop on the line and what it does with the strides come to the same
result, and the iterator is before the strides that are left. -/
def Agrees (rest : Bytes) (x : Except Fault (ℕ × Utf8Iterator × IndexDraft))
    (y : Except Fault (ℕ × List Bytes × IndexDraft)) : Prop :=
  (∃ e, x = .error e ∧ y = .error e) ∨
  ∃ rc itr cs idx, x = .ok (rc, itr, idx) ∧ y = .ok (rc, cs, idx) ∧ Before itr cs rest

/-- **The loop reads the fields of its strides.** -/
theorem parseFields_agrees {fuel : ℕ} (h : Before itr cs rest) (hfuel : cs.length + 1 < fuel)
    (k : ℕ) : Agrees rest (parseFields fuel tws k itr idx) (readFields tws rest k cs idx) := by
  induction k generalizing itr cs idx with
  | zero => exact .inr ⟨0, itr, cs, idx, rfl, rfl, h⟩
  | succ k ih =>
    obtain ⟨itr₁, hadv₁, h₁⟩ := h.advance judges_onBlank (.inr (.inr rfl)) (by omega : _ < fuel)
    have hlen₁ : (cs.dropWhile blankPiece).length ≤ cs.length := List.length_dropWhile_le _ _
    rw [parseFields, readFields, hadv₁, ok_bind]
    generalize cs.dropWhile blankPiece = cs₁ at h₁ hlen₁ ⊢
    by_cases hend : cs₁ = [] ∧ rest = []
    · obtain ⟨rfl, rfl⟩ := hend
      rw [if_pos (h₁.endP_iff.2 ⟨rfl, rfl⟩), if_pos ⟨rfl, rfl⟩]
      exact .inr ⟨0, itr₁, [], idx, rfl, rfl, h₁⟩
    · rw [if_neg (fun h => hend (h₁.endP_iff.1 h)), if_neg hend]
      dsimp only
      by_cases hstop : cs₁.dropWhile (!tabPiece ·) = [] ∧ rest ≠ []
      · -- the field has no end
        obtain ⟨fuel, rfl⟩ : ∃ n, fuel = n + 1 := ⟨fuel - 1, by omega⟩
        rw [if_pos hstop, h₁.advance_bounds judges_inField hstop.1 hstop.2 (by omega), error_bind]
        exact .inl ⟨.bounds, rfl, rfl⟩
      · have hgo : cs₁.dropWhile (!tabPiece ·) ≠ [] ∨ rest = [] ∨ true = false := by
          rw [not_and_or, not_not] at hstop
          exact hstop.imp_right .inl
        obtain ⟨itr₂, hadv₂, h₂⟩ := h₁.advance judges_inField hgo (by omega : _ < fuel)
        have hlen₂ : (cs₁.dropWhile (!tabPiece ·)).length ≤ cs₁.length :=
          List.length_dropWhile_le _ _
        have htext : itr₁.cur.take (itr₁.cur.length - itr₂.cur.length) =
            (cs₁.takeWhile (!tabPiece ·)).flatten := by
          rw [← h₁.flatten_eq, ← h₂.flatten_eq]
          exact take_between List.takeWhile_append_dropWhile
        rw [if_neg hstop, hadv₂, ok_bind, htext]
        cases setField tws (2 - k) (cs₁.takeWhile (!tabPiece ·)).flatten idx with
        | error e => exact .inl ⟨e, rfl, rfl⟩
        | ok r =>
          cases r with
          | none => exact .inr ⟨1, itr₂, _, idx, rfl, rfl, h₂⟩
          | some idx' => exact ih h₂ (by omega)

/-! ## One turn of the loop -/

/-- A tab is a blank. -/
theorem blankPiece_of_tabPiece (c : Bytes) (h : tabPiece c = true) : blankPiece c = true := by
  rw [blankPiece, decide_eq_true_iff]
  exact .inr (of_decide_eq_true h)

/-- No field, and the end of the line. -/
theorem readFields_end {k : ℕ} (h : cs.dropWhile blankPiece = []) :
    readFields tws [] (k + 1) cs idx = .ok (0, [], idx) := by
  rw [readFields, if_pos ⟨h, rfl⟩]

/-- No field that ends before the rest. -/
theorem readFields_bounds {k : ℕ} (h : behind blankPiece tabPiece 1 cs = []) (hrest : rest ≠ []) :
    readFields tws rest (k + 1) cs idx = .error .bounds := by
  rw [readFields, if_neg (fun h => hrest h.2), if_pos ⟨h, hrest⟩]

/-- A field. -/
theorem readFields_cut {k : ℕ} {b f r : List Bytes} (h : Cut blankPiece tabPiece cs b f r)
    (hend : r ≠ [] ∨ rest = []) :
    readFields tws rest (k + 1) cs idx =
      (setField tws (2 - k) f.flatten idx >>= fun o => o.elim (.ok (1, r, idx))
        (readFields tws rest k r)) := by
  have hne := h.ne_nil
  rw [readFields, h.dropWhile_blank, h.takeWhile_sep, h.dropWhile_sep, if_neg, if_neg]
  · cases setField tws (2 - k) f.flatten idx with
    | error e => rfl
    | ok o =>
      cases o with
      | none => rfl
      | some idx' => rfl
  · rintro ⟨hr, hrest⟩
    exact hend.elim (fun h => h hr) hrest
  · exact fun h => hne (List.append_eq_nil_iff.1 h.1).1

/-- The first field is not refused, and sets the word. -/
theorem word_of_setField_zero {text : Bytes} {o : Option IndexDraft}
    (h : setField tws 0 text idx = .ok o) : ∃ idx' ∈ o, idx'.word ≠ none := by
  rw [setField, if_pos rfl] at h
  cases hlen : utf8Strlen (entryWord tws text) with
  | none =>
    rw [hlen] at h
    cases h
  | some wordlen =>
    rw [hlen] at h
    cases h
    exact ⟨_, rfl, Option.some_ne_none _⟩

/-- The others leave it alone. -/
theorem word_of_setField {n : ℕ} {text : Bytes} {idx' : IndexDraft} (hn : n ≠ 0)
    (h : setField tws n text idx = .ok (some idx')) : idx'.word = idx.word := by
  rw [setField, if_neg hn] at h
  cases hv : b64Decode text with
  | none =>
    rw [hv] at h
    cases h
  | some v =>
    rw [hv] at h
    dsimp only at h
    split_ifs at h <;> cases h <;> rfl

/-- An entry that is not kept has a word, which can be freed. -/
theorem word_of_readFields {k rc : ℕ} {cs' : List Bytes} {idx' : IndexDraft} (hk : k ≤ 3)
    (h : readFields tws rest k cs idx = .ok (rc, cs', idx')) (hword : k = 3 ∨ idx.word ≠ none) :
    (rc = 0 ∧ cs' = [] ∧ rest = []) ∨ idx'.word ≠ none := by
  induction k generalizing cs idx with
  | zero =>
    cases h
    exact .inr (hword.resolve_left (by decide))
  | succ k ih =>
    rw [readFields] at h
    split_ifs at h with hend hstop
    · cases h
      exact .inl ⟨rfl, rfl, hend.2⟩
    · obtain ⟨o, hset, h⟩ := bind_eq_ok.1 h
      by_cases hfirst : k = 2
      · -- the first field
        subst hfirst
        obtain ⟨idx₁, ho, hword₁⟩ := word_of_setField_zero hset
        obtain rfl := Option.mem_def.1 ho
        exact ih (by decide) h (.inr hword₁)
      · have hword := hword.resolve_left (by omega)
        cases o with
        | none =>
          cases h
          exact .inr hword
        | some idx₁ =>
          refine ih (by omega) h (.inr ?_)
          rwa [word_of_setField (by omega) hset]

/-- What `parse_index_entry` does with the strides of the line. -/
def readLine (tws : Bool) (cs : List Bytes) (rest : Bytes) (list : List IndexDraft) :
    Except Fault (ℕ × List IndexDraft) := do
  let (rc, cs, idx) ← readFields tws rest 3 cs ⟨none, none, none, none, none⟩
  if rc = 0 ∧ cs = [] ∧ rest = [] then .ok (0, list ++ [idx]) else .ok (1, list)

/-- **A line is read by its strides.** -/
theorem parseIndexEntry_eq {fuel : ℕ} {buf : Bytes} (hbuf : Utf8Iterator.iter0 buf 0 = .ok itr)
    (h : Before itr cs rest) (hfuel : cs.length + 1 < fuel) (list : List IndexDraft) :
    parseIndexEntry fuel tws buf list = readLine tws cs rest list := by
  rw [parseIndexEntry, readLine, hbuf, ok_bind]
  rcases parseFields_agrees h hfuel 3 with ⟨e, hp, hr⟩ | ⟨rc, itr', cs', idx, hp, hr, h'⟩
  · rw [hp, hr]
    rfl
  · rw [hp, hr, ok_bind, ok_bind]
    dsimp only
    by_cases hend : rc = 0 ∧ cs' = [] ∧ rest = []
    · rw [if_pos hend, if_pos ⟨hend.1, h'.endP_iff.2 hend.2⟩]
    · have hword := (word_of_readFields le_rfl hr (.inl rfl)).resolve_left hend
      rw [if_neg hend, if_neg (fun h => hend ⟨h.1, h'.endP_iff.1 h.2⟩), if_neg hword]

/-! ## Numbers -/

/-- A string of digits. -/
def IsNumber (text : Bytes) : Prop := ∀ b ∈ text, ∃ d < 64, b = Base64.digit d

/-- The value of a digit. -/
theorem dicoBase64Input_digit {d : ℕ} (hd : d < 64) : dicoBase64Input (Base64.digit d) = d := by
  have hall : ∀ d : Fin 64, dicoBase64Input (Base64.digit d) = (d : ℕ) := by decide +kernel
  exact hall ⟨d, hd⟩

/-- What is no digit. -/
theorem dicoBase64Input_eq {b : UInt8} (h : ¬ ∃ d < 64, b = Base64.digit d) :
    dicoBase64Input b = -1 := by
  -- a value that is not -1 is that of the digit it says
  have hall : ∀ n : Fin 256, dicoBase64Input (UInt8.ofNat n) = -1 ∨
      (dicoBase64Input (UInt8.ofNat n)).toNat < 64 ∧
        UInt8.ofNat n = Base64.digit (dicoBase64Input (UInt8.ofNat n)).toNat := by decide +kernel
  have hb : UInt8.ofNat b.toNat = b := UInt8.ofNat_toNat
  rcases hall ⟨b.toNat, b.toNat_lt⟩ with hneg | ⟨hlt, hd⟩
  · rwa [hb] at hneg
  · rw [hb] at hlt hd
    exact absurd ⟨_, hlt, hd⟩ h

/-- **Only strings of digits are numbers.** -/
theorem b64DecodeLoop_eq_none_iff {text : Bytes} {v : ℕ} :
    b64DecodeLoop text v = none ↔ ¬ IsNumber text := by
  induction text generalizing v with
  | nil =>
    refine ⟨(fun h => nomatch h), fun h => absurd ?_ h⟩
    exact fun b hb => absurd hb List.not_mem_nil
  | cons b text ih =>
    rw [IsNumber, List.forall_mem_cons, not_and_or, b64DecodeLoop]
    by_cases hb : ∃ d < 64, b = Base64.digit d
    · obtain ⟨d, hd, rfl⟩ := hb
      rw [dicoBase64Input_digit hd, if_neg (by omega), ih]
      exact ⟨.inr, fun h => h.resolve_left fun hnot => hnot ⟨d, hd, rfl⟩⟩
    · rw [dicoBase64Input_eq hb, if_pos rfl]
      exact ⟨fun _ => .inl hb, fun _ => rfl⟩

/-- A field that should be a number. -/
theorem setField_number {n : ℕ} (hn : n ≠ 0) (tws : Bool) {text : Bytes} (h : IsNumber text)
    (idx : IndexDraft) : ∃ idx', setField tws n text idx = .ok (some idx') := by
  rw [setField, if_neg hn, b64Decode]
  cases hv : b64DecodeLoop text 0 with
  | none => exact absurd h (b64DecodeLoop_eq_none_iff.1 hv)
  | some v => exact ⟨_, rfl⟩

/-- And is not. -/
theorem setField_not_number {n : ℕ} (hn : n ≠ 0) (tws : Bool) {text : Bytes} (h : ¬ IsNumber text)
    (idx : IndexDraft) : setField tws n text idx = .ok none := by
  rw [setField, if_neg hn, b64Decode, b64DecodeLoop_eq_none_iff.2 h]

/-! ## Lines that are read to an end -/

/-- The line can be read: the word that is left when its spaces are stripped
does not end within a character; and where the walk over the line cannot go
on to its end, it has three fields before, or two of which the second is no
number. -/
def Readable (tws : Bool) (cs : List Bytes) (rest : Bytes) : Prop :=
  (tws = true → ∀ f ∈ (fields blankPiece tabPiece 1 cs).head?,
    utf8Strlen (f.flatten.rdropWhile (· = space)) ≠ none) ∧
  (rest = [] ∨ behind blankPiece tabPiece 3 cs ≠ [] ∨
    behind blankPiece tabPiece 2 cs ≠ [] ∧
      ∃ f ∈ (fields blankPiece tabPiece 2 cs)[1]?, ¬ IsNumber f.flatten)

/-- A string of pieces has a length. -/
theorem strlenLoop_flatten {f : List Bytes}
    (hwidth : ∀ c ∈ f, c ≠ [] ∧ (utf8CharWidth c = 0 ∨ utf8CharWidth c = c.length)) {fuel : ℕ}
    (hfuel : f.flatten.length ≤ fuel) : strlenLoop fuel f.flatten ≠ none := by
  induction f generalizing fuel with
  | nil => cases fuel <;> exact Option.some_ne_none _
  | cons c f ih =>
    obtain ⟨⟨hc, hcw⟩, hwidth⟩ := List.forall_mem_cons.1 hwidth
    have happ := utf8CharWidth_append hc f.flatten
    have hdrop : (c ++ f.flatten).drop c.length = f.flatten := List.drop_left
    have hlen : (c ++ f.flatten).length = c.length + f.flatten.length := List.length_append
    have hpos := List.length_pos_of_ne_nil hc
    rw [List.flatten_cons] at hfuel ⊢
    obtain ⟨b, s, hbs⟩ :=
      List.exists_cons_of_ne_nil (List.append_ne_nil_of_left_ne_nil hc f.flatten)
    rw [hbs] at happ hdrop hlen hfuel ⊢
    rw [List.length_cons] at hfuel hlen
    obtain ⟨fuel, rfl⟩ : ∃ k, fuel = k + 1 := ⟨fuel - 1, by omega⟩
    rw [strlenLoop, happ]
    rcases hcw with hz | hw
    · rw [hz, if_pos rfl]
      exact Option.some_ne_none _
    · rw [hw, if_neg (by omega), if_neg (by omega), hdrop]
      have hrest := ih hwidth (by omega : f.flatten.length ≤ fuel)
      obtain ⟨len, hl⟩ := Option.ne_none_iff_exists'.1 hrest
      rw [hl]
      exact Option.some_ne_none _

/-- The word of the line has a length, unless it was stripped. -/
theorem utf8Strlen_entryWord {f : List Bytes}
    (hwidth : ∀ c ∈ f, c ≠ [] ∧ (utf8CharWidth c = 0 ∨ utf8CharWidth c = c.length)) :
    utf8Strlen (entryWord tws f.flatten) ≠ none ↔
      (tws = true → utf8Strlen (f.flatten.rdropWhile (· = space)) ≠ none) := by
  cases tws with
  | false =>
    refine ⟨(fun _ h => nomatch h), fun _ => ?_⟩
    exact strlenLoop_flatten hwidth le_rfl
  | true => exact ⟨fun h _ => h, fun h => h rfl⟩

/-- The numbers of a line that can be walked over to its end. -/
theorem exists_readFields_nil {k : ℕ} (hk : k ≤ 2) :
    ∃ r, readFields tws [] k cs idx = .ok r := by
  induction k generalizing cs idx with
  | zero => exact ⟨_, rfl⟩
  | succ k ih =>
    rcases Fields.blank_or_cut blankPiece_of_tabPiece cs with hempty | ⟨b, f, r, hcut⟩
    · exact ⟨_, readFields_end hempty⟩
    · rw [readFields_cut hcut (.inr rfl)]
      by_cases hnum : IsNumber f.flatten
      · obtain ⟨idx', hset⟩ := setField_number (by omega : 2 - k ≠ 0) tws hnum idx
        rw [hset, ok_bind]
        exact ih (by omega)
      · rw [setField_not_number (by omega) tws hnum]
        exact ⟨_, rfl⟩

/-- A fault is no result. -/
theorem not_exists_error_eq_ok {β : Type*} {e : Fault} :
    ¬ ∃ r, (.error e : Except Fault β) = .ok r := by
  rintro ⟨r, hr⟩
  cases hr

/-- **The last number of a line that cannot.** -/
theorem readFields_one_ok_iff (hrest : rest ≠ []) :
    (∃ r, readFields tws rest 1 cs idx = .ok r) ↔ behind blankPiece tabPiece 1 cs ≠ [] := by
  by_cases hbehind : behind blankPiece tabPiece 1 cs = []
  · rw [readFields_bounds hbehind hrest]
    exact ⟨fun h => absurd h not_exists_error_eq_ok, fun h => absurd hbehind h⟩
  · refine ⟨fun _ => hbehind, fun _ => ?_⟩
    rcases Fields.blank_or_cut blankPiece_of_tabPiece cs with hempty | ⟨b, f, r, hcut⟩
    · exact absurd (Fields.behind_of_blank hempty) hbehind
    · rw [hcut.behind_eq, behind] at hbehind
      rw [readFields_cut hcut (.inl hbehind)]
      by_cases hnum : IsNumber f.flatten
      · obtain ⟨idx', hset⟩ := setField_number (by decide : 2 - 0 ≠ 0) tws hnum idx
        rw [hset]
        exact ⟨_, rfl⟩
      · rw [setField_not_number (by decide) tws hnum]
        exact ⟨_, rfl⟩

/-- **Both numbers.** -/
theorem readFields_two_ok_iff (hrest : rest ≠ []) :
    (∃ r, readFields tws rest 2 cs idx = .ok r) ↔ behind blankPiece tabPiece 2 cs ≠ [] ∨
      behind blankPiece tabPiece 1 cs ≠ [] ∧
        ∃ f ∈ (fields blankPiece tabPiece 1 cs)[0]?, ¬ IsNumber f.flatten := by
  by_cases hbehind : behind blankPiece tabPiece 1 cs = []
  · have hbehind₂ : behind blankPiece tabPiece 2 cs = [] := by
      change behind blankPiece tabPiece 1 (behind blankPiece tabPiece 1 cs) = []
      rw [hbehind, Fields.behind_nil]
    rw [readFields_bounds hbehind hrest]
    refine ⟨fun h => absurd h not_exists_error_eq_ok, fun h => ?_⟩
    exact (h.elim (fun h => h hbehind₂) fun h => h.1 hbehind).elim
  · rcases Fields.blank_or_cut blankPiece_of_tabPiece cs with hempty | ⟨b, f, r, hcut⟩
    · exact absurd (Fields.behind_of_blank hempty) hbehind
    · have hr : r ≠ [] := by
        rwa [hcut.behind_eq, behind] at hbehind
      rw [readFields_cut hcut (.inl hr), hcut.behind_eq, hcut.fields_eq]
      by_cases hnum : IsNumber f.flatten
      · obtain ⟨idx', hset⟩ := setField_number (by decide : 2 - 1 ≠ 0) tws hnum idx
        rw [hset, ok_bind, Option.elim, readFields_one_ok_iff hrest]
        refine ⟨.inl, fun h => h.resolve_right ?_⟩
        rintro ⟨-, f', hf', hnot⟩
        cases hf'
        exact hnot hnum
      · rw [setField_not_number (by decide) tws hnum]
        exact ⟨fun _ => .inr ⟨hbehind, f, rfl, hnum⟩, fun _ => ⟨_, rfl⟩⟩

/-- A line that ends within its first field cannot be read, unless it is
walked over to its end. -/
theorem not_readable (hbehind : behind blankPiece tabPiece 1 cs = []) (hrest : rest ≠ []) :
    ¬ Readable tws cs rest := by
  have hnil : ∀ n, behind blankPiece tabPiece (n + 1) cs = [] := fun n => by
    rw [Nat.add_comm, Fields.behind_add, hbehind, Fields.behind_nil]
  rintro ⟨-, h | h | h⟩
  · exact hrest h
  · exact h (hnil 2)
  · exact h.1 (hnil 1)

/-- **The whole line.** -/
theorem readFields_three_ok_iff
    (hwidth : ∀ c ∈ cs, c ≠ [] ∧ (utf8CharWidth c = 0 ∨ utf8CharWidth c = c.length)) :
    (∃ r, readFields tws rest 3 cs idx = .ok r) ↔ Readable tws cs rest := by
  by_cases hbad : behind blankPiece tabPiece 1 cs = [] ∧ rest ≠ []
  · refine iff_of_false ?_ (not_readable hbad.1 hbad.2)
    rw [readFields_bounds hbad.1 hbad.2]
    exact not_exists_error_eq_ok
  have hend : behind blankPiece tabPiece 1 cs ≠ [] ∨ rest = [] := by
    rw [not_and_or, not_not] at hbad
    exact hbad
  rcases Fields.blank_or_cut blankPiece_of_tabPiece cs with hempty | ⟨b, f, r, hcut⟩
  · -- a blank line is read to its end
    obtain rfl := hend.resolve_left fun h => h (Fields.behind_of_blank hempty)
    refine iff_of_true ⟨_, readFields_end hempty⟩ ⟨fun _ f hf => ?_, .inl rfl⟩
    rw [Fields.fields_of_blank hempty] at hf
    exact absurd hf (Option.not_mem_none f)
  · have hf : ∀ c ∈ f, c ≠ [] ∧ (utf8CharWidth c = 0 ∨ utf8CharWidth c = c.length) := by
      intro c hc
      refine hwidth c ?_
      rw [hcut.eq]
      exact List.mem_append_left _ (List.mem_append_right _ hc)
    have hword : (tws = true → ∀ f ∈ (fields blankPiece tabPiece 1 cs).head?,
        utf8Strlen (f.flatten.rdropWhile (· = space)) ≠ none) ↔
        utf8Strlen (entryWord tws f.flatten) ≠ none := by
      rw [utf8Strlen_entryWord hf, hcut.fields_eq, List.head?_cons]
      exact ⟨fun h htws => h htws f rfl, fun h htws f' hf' => Option.some.inj hf' ▸ h htws⟩
    rw [hcut.behind_eq, behind] at hend
    rw [Readable, hword, hcut.behind_eq, hcut.behind_eq, hcut.fields_eq, List.getElem?_cons_succ,
      readFields_cut hcut hend, setField, if_pos rfl]
    cases hlen : utf8Strlen (entryWord tws f.flatten) with
    | none => exact ⟨fun h => absurd h not_exists_error_eq_ok, fun h => absurd rfl h.1⟩
    | some wordlen =>
      dsimp only
      rw [ok_bind, Option.elim]
      by_cases hrest : rest = []
      · subst hrest
        exact ⟨fun _ => ⟨Option.some_ne_none _, .inl rfl⟩, fun _ => exists_readFields_nil le_rfl⟩
      · rw [readFields_two_ok_iff hrest]
        exact ⟨fun h => ⟨Option.some_ne_none _, .inr h⟩, fun h => h.2.resolve_left hrest⟩

/-- A line that has a result has one for its strides. -/
theorem readLine_ok_iff
    (hwidth : ∀ c ∈ cs, c ≠ [] ∧ (utf8CharWidth c = 0 ∨ utf8CharWidth c = c.length))
    (list : List IndexDraft) : (∃ r, readLine tws cs rest list = .ok r) ↔ Readable tws cs rest := by
  rw [← readFields_three_ok_iff hwidth, readLine]
  constructor
  · rintro ⟨r, hr⟩
    obtain ⟨r', hr', -⟩ := bind_eq_ok.1 hr
    exact ⟨r', hr'⟩
  · rintro ⟨⟨rc, cs', idx'⟩, hr⟩
    rw [hr, ok_bind]
    dsimp only
    split_ifs
    · exact ⟨_, rfl⟩
    · exact ⟨_, rfl⟩

end Reading

/-- The line is read to an end inside its own memory, with nothing behind
it. -/
def Returns (tws : Bool) (line : Bytes) (list : List IndexDraft) : Prop :=
  ∃ n r, ∀ fuel, n ≤ fuel → parseIndexEntry fuel tws (line ++ [0]) list = .ok r

/-- The loops over the line end, whatever there is in memory behind it:
`parse_index_entry` returns, or a step leads out of the memory. -/
def Ends (tws : Bool) (line rest : Bytes) (list : List IndexDraft) : Prop :=
  ∃ n, ∀ fuel, n ≤ fuel →
    parseIndexEntry fuel tws (line ++ 0 :: rest) list = .error .bounds ∨
      ∃ r, parseIndexEntry fuel tws (line ++ 0 :: rest) list = .ok r

section Ending

variable {line : Bytes}

/-- Where the iterator is at first. -/
theorem iter0_line (line rest : Bytes) :
    Utf8Iterator.iter0 (line ++ 0 :: rest) 0 = .ok ⟨line ++ 0 :: rest, utf8CharWidth line⟩ := by
  have hwidth : utf8CharWidth (line ++ 0 :: rest) = utf8CharWidth line := by
    cases line <;> rfl
  rw [Utf8Iterator.iter0, if_neg (List.append_ne_nil_of_right_ne_nil _ (List.cons_ne_nil _ _)),
    Utf8Iterator.widthAt, hwidth]
  split_ifs with h
  · rw [h]
  · rfl

/-- **A line whose first byte begins no character is never read to an
end.** -/
theorem parseIndexEntry_loop (hnull : 0 ∉ line) (hwidth : utf8CharWidth line = 0) (fuel : ℕ)
    (tws : Bool) (rest : Bytes) (list : List IndexDraft) :
    parseIndexEntry fuel tws (line ++ 0 :: rest) list = .error .loop := by
  have hline : line ≠ [] := by
    rintro rfl
    cases hwidth
  have hend := not_endP hline hnull (0 :: rest) 0
  have hwidth' : utf8CharWidth (line ++ 0 :: rest) = 0 := by
    rw [utf8CharWidth_append hline, hwidth]
  rw [parseIndexEntry, iter0_line, ok_bind, hwidth, parseFields]
  cases fuel with
  | zero => rfl
  | succ fuel =>
    have hblank : onBlank ⟨line ++ 0 :: rest, 0⟩ = false := by
      rw [onBlank, decide_eq_false_iff_not]
      rintro ⟨-, ⟨hone, -⟩, -⟩
      cases hone
    have hfield : inField ⟨line ++ 0 :: rest, 0⟩ = true := by
      rw [inField, decide_eq_true_iff]
      refine ⟨hend, ?_⟩
      rintro ⟨⟨hone, -⟩, -⟩
      cases hone
    rw [advance, hblank, if_neg Bool.false_ne_true, ok_bind, if_neg hend,
      advance_loop hend hwidth' hfield, error_bind, error_bind]

/-- **Which lines are read to an end inside their memory**: those whose first
byte begins a character and that can be read, by the strides from there. -/
theorem returns_iff (tws : Bool) (line : Bytes) (list : List IndexDraft) (hnull : 0 ∉ line) :
    Returns tws line list ↔ utf8CharWidth line ≠ 0 ∧
      Readable tws (strides line.length (utf8CharWidth line) line).1
        (strides line.length (utf8CharWidth line) line).2 := by
  by_cases hwidth : utf8CharWidth line = 0
  · constructor
    · rintro ⟨n, r, h⟩
      have hn := h n le_rfl
      rw [parseIndexEntry_loop hnull hwidth] at hn
      cases hn
    · exact fun h => absurd hwidth h.1
  · have hbefore :=
      before_strides (Nat.pos_of_ne_zero hwidth) hnull (.inr rfl) (le_refl line.length)
    generalize strides line.length (utf8CharWidth line) line = p at hbefore ⊢
    have heq : ∀ fuel, p.1.length + 2 ≤ fuel →
        parseIndexEntry fuel tws (line ++ [0]) list = readLine tws p.1 p.2 list :=
      fun fuel hfuel => parseIndexEntry_eq (iter0_line line []) hbefore (by omega) list
    rw [← readLine_ok_iff hbefore.width list]
    constructor
    · rintro ⟨n, r, h⟩
      refine ⟨hwidth, r, ?_⟩
      rw [← heq (n + (p.1.length + 2)) (by omega), h _ (by omega)]
    · rintro ⟨-, r, hr⟩
      exact ⟨p.1.length + 2, r, fun fuel hfuel => (heq fuel hfuel).trans hr⟩

/-- What comes of a field: a word that was cut and goes on beyond its end, a
number that is none, or an entry with a word. -/
theorem setField_ends {tws : Bool} {n : ℕ} {text : Bytes} {idx : IndexDraft}
    (hword : n = 0 ∨ idx.word ≠ none) :
    setField tws n text idx = .error .bounds ∨ setField tws n text idx = .ok none ∧ n ≠ 0 ∨
      ∃ idx', setField tws n text idx = .ok (some idx') ∧ idx'.word ≠ none := by
  cases hset : setField tws n text idx with
  | error e =>
    left
    rw [setField] at hset
    by_cases hn : n = 0
    · rw [if_pos hn] at hset
      cases hlen : utf8Strlen (entryWord tws text) with
      | none =>
        rw [hlen] at hset
        exact hset.symm
      | some wordlen =>
        rw [hlen] at hset
        cases hset
    · rw [if_neg hn] at hset
      cases hv : b64Decode text with
      | none =>
        rw [hv] at hset
        cases hset
      | some v =>
        rw [hv] at hset
        cases hset
  | ok o =>
    right
    by_cases hn : n = 0
    · subst hn
      obtain ⟨idx', ho, hword'⟩ := word_of_setField_zero hset
      exact .inr ⟨idx', congrArg _ ho, hword'⟩
    · cases o with
      | none => exact .inl ⟨rfl, hn⟩
      | some idx' =>
        refine .inr ⟨idx', rfl, ?_⟩
        rw [word_of_setField hn hset]
        exact hword.resolve_left hn

/-- **With a width the loop over the fields ends**, and leaves the iterator at
the end of the line or the entry with a word. -/
theorem parseFields_ends {fuel : ℕ} {tws : Bool} {k : ℕ} {itr : Utf8Iterator} {idx : IndexDraft}
    (hk : k ≤ 3) (hword : k = 3 ∨ idx.word ≠ none) (hpos : 0 < itr.curwidth)
    (hfuel : itr.cur.length < fuel) :
    parseFields fuel tws k itr idx = .error .bounds ∨
      ∃ rc itr' idx', parseFields fuel tws k itr idx = .ok (rc, itr', idx') ∧
        (rc = 0 ∧ itr'.endP ∨ idx'.word ≠ none) := by
  induction k generalizing itr idx with
  | zero => exact .inr ⟨0, itr, idx, rfl, .inr (hword.resolve_left (by decide))⟩
  | succ k ih =>
    have hblank : ∀ itr, onBlank itr = true → ¬ itr.endP := fun itr h => (of_decide_eq_true h).1
    have hfield : ∀ itr, inField itr = true → ¬ itr.endP := fun itr h => (of_decide_eq_true h).1
    rw [parseFields]
    rcases advance_ends hblank hpos hfuel with hadv | ⟨itr₁, hadv, hpos₁, hle₁⟩
    · exact .inl (by rw [hadv, error_bind])
    · rw [hadv, ok_bind]
      split_ifs with hend
      · exact .inr ⟨0, itr₁, idx, rfl, .inl ⟨rfl, hend⟩⟩
      · dsimp only
        rcases advance_ends hfield hpos₁ (by omega : _ < fuel) with
          hadv₂ | ⟨itr₂, hadv₂, hpos₂, hle₂⟩
        · exact .inl (by rw [hadv₂, error_bind])
        · rw [hadv₂, ok_bind]
          have hword' : 2 - k = 0 ∨ idx.word ≠ none := hword.imp_left fun h => by omega
          rcases @setField_ends tws (2 - k) (itr₁.cur.take (itr₁.cur.length - itr₂.cur.length)) idx
            hword' with hset | ⟨hset, hne⟩ | ⟨idx', hset, hsome⟩
          · exact .inl (by rw [hset, error_bind])
          · rw [hset, ok_bind]
            exact .inr ⟨1, itr₂, idx, rfl, .inr (hword'.resolve_left hne)⟩
          · rw [hset, ok_bind]
            exact ih (by omega) (.inr hsome) hpos₂ (by omega)

/-- **Which lines the loops come to the end of**: those whose first byte
begins a character, and the empty one, whatever comes behind. -/
theorem ends_iff (tws : Bool) (line rest : Bytes) (list : List IndexDraft) (hnull : 0 ∉ line) :
    Ends tws line rest list ↔ utf8CharWidth line ≠ 0 := by
  constructor
  · rintro ⟨n, h⟩ hwidth
    have hn := h n le_rfl
    rw [parseIndexEntry_loop hnull hwidth] at hn
    rcases hn with hn | ⟨r, hn⟩ <;> cases hn
  · intro hwidth
    refine ⟨(line ++ 0 :: rest).length + 1, fun fuel hfuel => ?_⟩
    rw [parseIndexEntry, iter0_line, ok_bind]
    rcases @parseFields_ends fuel tws 3 ⟨line ++ 0 :: rest, utf8CharWidth line⟩
      ⟨none, none, none, none, none⟩ le_rfl (.inl rfl) (Nat.pos_of_ne_zero hwidth) hfuel with
      hp | ⟨rc, itr, idx, hp, hlast⟩
    · exact .inl (by rw [hp, error_bind])
    · rw [hp, ok_bind]
      dsimp only
      right
      split_ifs with hend hword
      · exact ⟨_, rfl⟩
      · exact absurd hword (hlast.resolve_left hend)
      · exact ⟨_, rfl⟩

/-- A word whose last byte begins a character that is not there, and the two
null bytes that `read_index` leaves. -/
theorem ends_cut : Ends false [97, 0xc3] [0] [] ↔ utf8CharWidth [97, 0xc3] ≠ 0 :=
  ends_iff false _ [0] [] (by decide)

/-- **A line of one byte, the second of a character.** -/
theorem not_forall_ends :
    ¬ ∀ (tws : Bool) (line rest : Bytes) (list : List IndexDraft), 0 ∉ line →
      Ends tws line rest list := by
  intro h
  obtain ⟨n, hr⟩ := h false [0x80] [] [] (by decide)
  have hn := hr n le_rfl
  rw [parseIndexEntry_loop (by decide) (by decide)] at hn
  rcases hn with hn | ⟨r, hn⟩ <;> cases hn

end Ending

end DictOrg

end Dico
