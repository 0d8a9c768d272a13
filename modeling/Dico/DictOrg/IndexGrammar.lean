import Mathlib.Data.Nat.Digits.Defs
import Mathlib.Tactic.Ring
import Dico.DictOrg.IndexLine
/-!
# The grammar of the index

A line of an index should be three fields, the last two of them numbers in
base 64. `parse_index_entry` refuses a field that is no number and a line
that goes on behind the third field, but it does not count the fields it has
found: a line of fewer is taken for an entry, with the members that are
missing left as they were on the stack.
-/

namespace Dico

namespace DictOrg

open Utf8 (encode encodeAll)
open Fields (fields behind Cut)

/-! ## What is asked -/

/-- The character of a digit. -/
def digitChar (d : ℕ) : Char := Char.ofNat (Base64.digit d).toNat

/-- A blank. -/
def blankChar (c : Char) : Bool := c = ' ' ∨ c = '\t'

/-- A tab. -/
def tabChar (c : Char) : Bool := c = '\t'

/-- A field of digits. -/
def IsDigits (f : List Char) : Prop := ∃ ds : List ℕ, (∀ d ∈ ds, d < 64) ∧ f = ds.map digitChar

/-- A line of an index: a word and two numbers, each of them not empty,
with tabs between them and blanks before them. -/
def IndexLine (line word : List Char) (offset size : List ℕ) : Prop :=
  ∃ b₁ b₂ b₃, line = b₁ ++ word ++ '\t' :: (b₂ ++ offset.map digitChar ++
      '\t' :: (b₃ ++ size.map digitChar)) ∧
    (∀ c ∈ b₁ ++ b₂ ++ b₃, blankChar c = true) ∧
    (∃ c ∈ word.head?, blankChar c = false) ∧ '\t' ∉ word ∧
    (offset ≠ [] ∧ ∀ d ∈ offset, d < 64) ∧ size ≠ [] ∧ ∀ d ∈ size, d < 64

/-- The word without the spaces behind it, if they are to be stripped. -/
def stripped (tws : Bool) (word : List Char) : List Char :=
  if tws then word.rdropWhile (· = ' ') else word

/-- The value of some digits, the first of them the greatest. -/
def value (ds : List ℕ) : ℕ := Nat.ofDigits 64 ds.reverse % 2 ^ 64

/-- The entry of a line. -/
def lineEntry (tws : Bool) (word : List Char) (offset size : List ℕ) : IndexDraft where
  word := some (encodeAll (stripped tws word))
  length := some (encodeAll (stripped tws word)).length
  wordlen := some (stripped tws word).length
  offset := some (value offset)
  size := some (value size)

/-- What is asked of the parser: a line of an index gives its entry, and no
other line gives one. -/
def ParsesRight (tws : Bool) (t : Utf8Text) : Prop :=
  ∀ list, ∃ n, ∀ fuel, n ≤ fuel →
    (∀ word offset size, IndexLine t.chars word offset size →
      parseIndexEntry fuel tws (t.bytes ++ [0]) list =
        .ok (0, list ++ [lineEntry tws word offset size])) ∧
    ((∀ word offset size, ¬ IndexLine t.chars word offset size) →
      parseIndexEntry fuel tws (t.bytes ++ [0]) list = .ok (1, list))

/-! ## Characters and pieces -/

section Pieces

variable {c : Char} {f : List Char}

/-- A character of seven bits. -/
theorem encode_eq_singleton {b : UInt8} (hb : b.toNat < 0x80) :
    encode c.toNat = [b] ↔ c.toNat = b.toNat := by
  constructor
  · intro h
    have hlt := Utf8.lt_of_length_encode (by rw [h]; rfl : (encode c.toNat).length = 1)
    rw [Utf8.encode_one hlt, List.cons.injEq] at h
    rw [← h.1, Utf8.toNat_ofNat (by omega)]
  · intro h
    rw [Utf8.encode_one (by omega), h, UInt8.ofNat_toNat]

/-- A blank is a piece of its own. -/
theorem blankPiece_encode : (blankPiece ∘ fun c : Char => encode c.toNat) = blankChar := by
  funext c
  rw [Function.comp_apply, blankPiece, blankChar, decide_eq_decide,
    encode_eq_singleton (by decide), encode_eq_singleton (by decide)]
  exact or_congr (Char.toNat_inj (d := ' ')) (Char.toNat_inj (d := '\t'))

/-- And a tab. -/
theorem tabPiece_encode : (tabPiece ∘ fun c : Char => encode c.toNat) = tabChar := by
  funext c
  rw [Function.comp_apply, tabPiece, tabChar, decide_eq_decide, encode_eq_singleton (by decide)]
  exact Char.toNat_inj (d := '\t')

/-- The bytes of some pieces. -/
theorem flatten_map_encode (f : List Char) :
    (f.map fun c => encode c.toNat).flatten = encodeAll f := by
  rw [Utf8.encodeAll_eq, List.flatMap_map]
  rfl

/-- The byte of a digit. -/
theorem encode_digitChar {d : ℕ} (hd : d < 64) : encode (digitChar d).toNat = [Base64.digit d] := by
  have hall : ∀ d : Fin 64, encode (digitChar d).toNat = [Base64.digit d] := by decide +kernel
  exact hall ⟨d, hd⟩

/-- A digit has seven bits. -/
theorem toNat_digit_lt {d : ℕ} (hd : d < 64) : (Base64.digit d).toNat < 0x80 := by
  have hall : ∀ d : Fin 64, (Base64.digit d).toNat < 0x80 := by decide +kernel
  exact hall ⟨d, hd⟩

/-- The bytes of some digits. -/
theorem encodeAll_digits {ds : List ℕ} (h : ∀ d ∈ ds, d < 64) :
    encodeAll (ds.map digitChar) = ds.map Base64.digit := by
  induction ds with
  | nil => rfl
  | cons d ds ih =>
    obtain ⟨hd, hds⟩ := List.forall_mem_cons.1 h
    rw [← flatten_map_encode, List.map_cons, List.map_cons, List.flatten_cons, flatten_map_encode,
      ih hds, encode_digitChar hd, List.map_cons, List.singleton_append]

/-- A character whose bytes are digits is one. -/
theorem exists_digitChar (h : ∀ b ∈ encode c.toNat, ∃ d < 64, b = Base64.digit d) :
    ∃ d < 64, c = digitChar d := by
  have hlt : c.toNat < 0x80 := by
    by_contra hge
    have hwc := Utf8.toNat_lt c
    obtain ⟨b, q, hbq⟩ := List.exists_cons_of_ne_nil (Utf8.encode_ne_nil c.toNat)
    have hmem : b ∈ encode c.toNat := by
      rw [hbq]
      exact List.mem_cons_self
    have hle := Utf8.le_of_mem_encode (by omega) (by omega) hmem
    obtain ⟨d, hd, rfl⟩ := h b hmem
    have := toNat_digit_lt hd
    omega
  rw [Utf8.encode_one hlt, List.forall_mem_singleton] at h
  obtain ⟨d, hd, hb⟩ := h
  refine ⟨d, hd, Char.toNat_inj.1 ?_⟩
  have henc : encode c.toNat = encode (digitChar d).toNat := by
    rw [Utf8.encode_one hlt, hb, encode_digitChar hd]
  rw [encode_digitChar hd, encode_eq_singleton (toNat_digit_lt hd)] at henc
  rw [henc, ← (encode_eq_singleton (toNat_digit_lt hd)).1 (encode_digitChar hd)]

/-- **The numbers are the fields of digits.** -/
theorem isNumber_encodeAll : IsNumber (encodeAll f) ↔ IsDigits f := by
  constructor
  · intro h
    induction f with
    | nil => exact ⟨[], fun d hd => absurd hd List.not_mem_nil, rfl⟩
    | cons c f ih =>
      rw [← flatten_map_encode, List.map_cons, List.flatten_cons, flatten_map_encode, IsNumber,
        List.forall_mem_append] at h
      obtain ⟨d, hd, rfl⟩ := exists_digitChar h.1
      obtain ⟨ds, hds, rfl⟩ := ih h.2
      exact ⟨d :: ds, List.forall_mem_cons.2 ⟨hd, hds⟩, rfl⟩
  · rintro ⟨ds, hds, rfl⟩ b hb
    rw [encodeAll_digits hds] at hb
    obtain ⟨d, hd, rfl⟩ := List.mem_map.1 hb
    exact ⟨d, hds d hd, rfl⟩

/-- A digit behind a number. -/
theorem shift_digit {d : ℕ} (hd : d < 64) (v : ℕ) :
    (v % 2 ^ 64) <<< 6 % 2 ^ 64 ||| d = (v * 64 + d) % 2 ^ 64 := by
  have hmul : (v % 2 ^ 64) <<< 6 % 2 ^ 64 = (v * 64) % 2 ^ 64 / 64 * 2 ^ 6 := by
    rw [Nat.shiftLeft_eq]
    omega
  rw [hmul, Nat.or_comm, Utf8.or_mark (by omega)]
  omega

/-- **The value of a number.** -/
theorem b64DecodeLoop_digits {ds : List ℕ} (h : ∀ d ∈ ds, d < 64) {v : ℕ} :
    b64DecodeLoop (ds.map Base64.digit) (v % 2 ^ 64) =
      some ((v * 64 ^ ds.length + Nat.ofDigits 64 ds.reverse) % 2 ^ 64) := by
  induction ds generalizing v with
  | nil =>
    rw [List.map_nil, b64DecodeLoop, List.length_nil, Nat.pow_zero, Nat.mul_one]
    rfl
  | cons d ds ih =>
    obtain ⟨hd, hds⟩ := List.forall_mem_cons.1 h
    rw [List.map_cons, b64DecodeLoop, dicoBase64Input_digit hd, if_neg (by omega),
      Int.toNat_natCast, shift_digit hd, ih hds, List.reverse_cons, Nat.ofDigits_append,
      Nat.ofDigits_singleton, List.length_reverse, List.length_cons]
    congr 2
    ring

/-- A number. -/
theorem b64Decode_digits {ds : List ℕ} (h : ∀ d ∈ ds, d < 64) :
    b64Decode (encodeAll (ds.map digitChar)) = some (value ds) := by
  have hloop := b64DecodeLoop_digits h (v := 0)
  rw [Nat.zero_mul, Nat.zero_add] at hloop
  rw [b64Decode, encodeAll_digits h]
  exact hloop

/-- Spaces are stripped from the characters as from the bytes. -/
theorem rdropWhile_encodeAll (f : List Char) :
    (encodeAll f).rdropWhile (· = space) = encodeAll (f.rdropWhile (· = ' ')) := by
  induction f using List.reverseRecOn with
  | nil => rfl
  | append_singleton f c ih =>
    have hsnoc : encodeAll (f ++ [c]) = encodeAll f ++ encode c.toNat := by
      rw [← flatten_map_encode, List.map_append, List.flatten_append, flatten_map_encode,
        List.map_singleton, List.flatten_singleton]
    by_cases hc : c = ' '
    · subst hc
      rw [hsnoc, List.rdropWhile_concat_pos _ _ _ (by decide), ← ih]
      exact List.rdropWhile_concat_pos _ _ _ (by decide)
    · rw [List.rdropWhile_concat_neg _ _ _ (by simpa using hc), hsnoc]
      rcases List.eq_nil_or_concat (encode c.toNat) with hnil | ⟨q, b, hqb⟩
      · exact absurd hnil (Utf8.encode_ne_nil _)
      · have hmem : b ∈ encode c.toNat := by
          rw [hqb, List.concat_eq_append]
          exact List.mem_append_right _ (List.mem_singleton.2 rfl)
        have hb : b ≠ space := by
          rintro rfl
          by_cases hlt : c.toNat < 0x80
          · rw [Utf8.encode_one hlt, List.mem_singleton] at hmem
            have hnat := congrArg UInt8.toNat hmem
            rw [Utf8.toNat_ofNat (by omega)] at hnat
            exact hc (Char.toNat_inj.1 hnat.symm)
          · have hwc := Utf8.toNat_lt c
            exact absurd (Utf8.le_of_mem_encode (by omega) (by omega) hmem) (by decide)
        rw [hqb, List.concat_eq_append, ← List.append_assoc,
          List.rdropWhile_concat_neg _ _ _ (by simpa using hb)]

/-- The word of a line. -/
theorem setField_word (tws : Bool) {word : List Char} (hnull : Char.ofNat 0 ∉ word)
    (idx : IndexDraft) :
    setField tws 0 (encodeAll word) idx = .ok (some { idx with
      word := some (encodeAll (stripped tws word))
      length := some (encodeAll (stripped tws word)).length
      wordlen := some (stripped tws word).length }) := by
  have hword : entryWord tws (encodeAll word) = encodeAll (stripped tws word) := by
    rw [entryWord, stripped]
    split_ifs
    · exact rdropWhile_encodeAll word
    · rfl
  have hsub : Char.ofNat 0 ∉ stripped tws word := by
    rw [stripped]
    split_ifs
    · exact fun h => hnull ((List.rdropWhile_prefix _ _).subset h)
    · exact hnull
  have hlen := utf8Strlen_bytes ⟨stripped tws word, hsub⟩
  rw [Utf8Text.bytes, Utf8Text.codes, List.length_map] at hlen
  rw [setField, if_pos rfl, hword, hlen]

/-- A number, in its place. -/
theorem setField_digits {n : ℕ} (hn : n ≠ 0) (tws : Bool) {ds : List ℕ} (h : ∀ d ∈ ds, d < 64)
    (idx : IndexDraft) :
    setField tws n (encodeAll (ds.map digitChar)) idx =
      .ok (some (if n = 1 then { idx with offset := some (value ds) }
        else { idx with size := some (value ds) })) := by
  rw [setField, if_neg hn, b64Decode_digits h]

end Pieces

/-! ## The fields of a line -/

section Grammar

variable {line word b f r : List Char} {offset size : List ℕ} {tws : Bool} {idx : IndexDraft}

/-- A tab is a blank. -/
theorem blankChar_of_tabChar (c : Char) (h : tabChar c = true) : blankChar c = true := by
  rw [blankChar, decide_eq_true_iff]
  exact .inr (of_decide_eq_true h)

/-- Digits are neither. -/
theorem blankChar_digitChar {d : ℕ} (hd : d < 64) : blankChar (digitChar d) = false := by
  have hall : ∀ d : Fin 64, blankChar (digitChar d) = false := by decide +kernel
  exact hall ⟨d, hd⟩

/-- What is no blank is no tab. -/
theorem tabChar_eq_false {c : Char} (h : blankChar c = false) : tabChar c = false := by
  by_contra htab
  rw [Bool.not_eq_false] at htab
  rw [blankChar_of_tabChar c htab] at h
  cases h

/-- A number is a field. -/
theorem cut_digits {ds : List ℕ} (hne : ds ≠ []) (hds : ∀ d ∈ ds, d < 64)
    (hb : ∀ c ∈ b, blankChar c = true) (hr : ∀ c ∈ r.head?, tabChar c = true) :
    Cut blankChar tabChar (b ++ ds.map digitChar ++ r) b (ds.map digitChar) r where
  eq := rfl
  blanks := hb
  head := by
    obtain ⟨d, ds, rfl⟩ := List.exists_cons_of_ne_nil hne
    exact ⟨digitChar d, rfl, blankChar_digitChar (hds d List.mem_cons_self)⟩
  noSep := by
    intro c hc
    obtain ⟨d, hd, rfl⟩ := List.mem_map.1 hc
    exact tabChar_eq_false (blankChar_digitChar (hds d hd))
  tail := hr

/-- **The fields of a line of an index.** -/
theorem IndexLine.cuts (h : IndexLine line word offset size) :
    ∃ b₁ r₁ b₂ r₂ b₃, Cut blankChar tabChar line b₁ word r₁ ∧
      Cut blankChar tabChar r₁ b₂ (offset.map digitChar) r₂ ∧
      Cut blankChar tabChar r₂ b₃ (size.map digitChar) [] := by
  obtain ⟨b₁, b₂, b₃, rfl, hblank, hhead, htab, ⟨hone, hoff⟩, hsne, hsize⟩ := h
  rw [List.forall_mem_append, List.forall_mem_append] at hblank
  have htail : ∀ l : List Char, ∀ c ∈ ('\t' :: l).head?, tabChar c = true := by
    intro l c hc
    cases hc
    rfl
  refine ⟨b₁, _, '\t' :: b₂, _, '\t' :: b₃, ⟨rfl, hblank.1.1, hhead, ?_, htail _⟩,
    cut_digits hone hoff (List.forall_mem_cons.2 ⟨rfl, hblank.1.2⟩) (htail _), ?_⟩
  · intro c hc
    rw [tabChar, decide_eq_false_iff_not]
    rintro rfl
    exact htab hc
  · have hblank₃ : ∀ c ∈ '\t' :: b₃, blankChar c = true :=
      List.forall_mem_cons.2 ⟨rfl, hblank.2⟩
    have hcut := cut_digits hsne hsize hblank₃ (r := []) (fun c hc => by cases hc)
    rwa [List.append_nil] at hcut

/-- They are three, and nothing is behind them. -/
theorem IndexLine.fields_eq (h : IndexLine line word offset size) :
    fields blankChar tabChar 3 line = [word, offset.map digitChar, size.map digitChar] ∧
      behind blankChar tabChar 3 line = [] := by
  obtain ⟨b₁, r₁, b₂, r₂, b₃, h₁, h₂, h₃⟩ := h.cuts
  rw [h₁.fields_eq, h₂.fields_eq, h₃.fields_eq, h₁.behind_eq, h₂.behind_eq, h₃.behind_eq]
  exact ⟨rfl, rfl⟩

/-- Both numbers are digits. -/
theorem IndexLine.isDigits (h : IndexLine line word offset size) :
    (∀ d ∈ offset, d < 64) ∧ ∀ d ∈ size, d < 64 := by
  obtain ⟨b₁, b₂, b₃, -, -, -, -, hoff, hsize⟩ := h
  exact ⟨hoff.2, hsize.2⟩

/-- Between two fields there is a tab. -/
theorem exists_tab {b' f' r' : List Char} (h : Cut blankChar tabChar line b f r)
    (h' : Cut blankChar tabChar r b' f' r') :
    ∃ b'', b' = '\t' :: b'' ∧ r = '\t' :: (b'' ++ f' ++ r') := by
  cases b' with
  | nil =>
    obtain ⟨c, hc, hblank⟩ := h'.head
    obtain ⟨f'', rfl⟩ := List.head?_eq_some_iff.1 hc
    have htab := h.tail c (by rw [h'.eq]; rfl)
    rw [blankChar_of_tabChar c htab] at hblank
    cases hblank
  | cons c b'' =>
    have htab := h.tail c (by rw [h'.eq]; rfl)
    obtain rfl : c = '\t' := of_decide_eq_true htab
    exact ⟨b'', rfl, h'.eq⟩

/-- **A line of three fields**, the last two of them numbers, is a line of an
index. -/
theorem indexLine_of_cuts {b₁ r₁ b₂ r₂ b₃ : List Char} (h₁ : Cut blankChar tabChar line b₁ word r₁)
    (h₂ : Cut blankChar tabChar r₁ b₂ (offset.map digitChar) r₂)
    (h₃ : Cut blankChar tabChar r₂ b₃ (size.map digitChar) []) (hoff : ∀ d ∈ offset, d < 64)
    (hsize : ∀ d ∈ size, d < 64) : IndexLine line word offset size := by
  obtain ⟨b₂, rfl, hr₁⟩ := exists_tab h₁ h₂
  obtain ⟨b₃, rfl, hr₂⟩ := exists_tab h₂ h₃
  refine ⟨b₁, b₂, b₃, ?_, ?_, h₁.head, ?_, ⟨?_, hoff⟩, ?_, hsize⟩
  · rw [h₁.eq, hr₁, hr₂, List.append_nil]
  · rw [List.forall_mem_append, List.forall_mem_append]
    exact ⟨⟨h₁.blanks, (List.forall_mem_cons.1 h₂.blanks).2⟩,
      (List.forall_mem_cons.1 h₃.blanks).2⟩
  · intro htab
    cases h₁.noSep '\t' htab
  · rintro rfl
    exact h₂.ne_nil rfl
  · rintro rfl
    exact h₃.ne_nil rfl

/-! ## The parser on characters -/

/-- The pieces of a text. -/
def pieces (line : List Char) : List Bytes := line.map fun c => encode c.toNat

/-- A line without a field. -/
theorem readFields_pieces_end {k : ℕ} (h : line.dropWhile blankChar = []) :
    readFields tws [] (k + 1) (pieces line) idx = .ok (0, [], idx) := by
  refine readFields_end ?_
  rw [pieces, List.dropWhile_map, blankPiece_encode, h, List.map_nil]

/-- A line with one. -/
theorem readFields_pieces_cut {k : ℕ} (h : Cut blankChar tabChar line b f r) :
    readFields tws [] (k + 1) (pieces line) idx =
      (setField tws (2 - k) (encodeAll f) idx >>= fun o => o.elim (.ok (1, pieces r, idx))
        (readFields tws [] k (pieces r))) := by
  rw [← blankPiece_encode, ← tabPiece_encode] at h
  rw [← flatten_map_encode]
  exact readFields_cut h.map (.inr rfl)

/-- The parser reads the pieces of a text. -/
theorem parseIndexEntry_text (t : Utf8Text) (tws : Bool) (list : List IndexDraft) {fuel : ℕ}
    (hfuel : t.chars.length + 2 ≤ fuel) :
    parseIndexEntry fuel tws (t.bytes ++ [0]) list = readLine tws (pieces t.chars) [] list := by
  have hbefore := before_encode (fun wc hwc => t.codes_range hwc) 0
  have hpieces : t.codes.map encode = pieces t.chars := by
    rw [Utf8Text.codes, List.map_map]
    rfl
  rw [hpieces, ← t.bytes_eq] at hbefore
  refine parseIndexEntry_eq ?_ hbefore ?_ list
  · rw [Utf8Iterator.iter0, if_neg (List.append_ne_nil_of_right_ne_nil _ (List.cons_ne_nil _ _))]
  · rw [pieces, List.length_map]
    omega

/-- What is asked, of the pieces. -/
theorem parsesRight_iff_readLine (t : Utf8Text) (tws : Bool) :
    ParsesRight tws t ↔ ∀ list,
      (∀ word offset size, IndexLine t.chars word offset size →
        readLine tws (pieces t.chars) [] list =
          .ok (0, list ++ [lineEntry tws word offset size])) ∧
      ((∀ word offset size, ¬ IndexLine t.chars word offset size) →
        readLine tws (pieces t.chars) [] list = .ok (1, list)) := by
  constructor
  · intro h list
    obtain ⟨n, hn⟩ := h list
    rw [← parseIndexEntry_text t tws list (Nat.le_add_left _ n)]
    exact hn _ (Nat.le_add_right _ _)
  · intro h list
    refine ⟨t.chars.length + 2, fun fuel hfuel => ?_⟩
    rw [parseIndexEntry_text t tws list hfuel]
    exact h list

/-- A field that should be a number and is not. -/
theorem setField_not_digits {n : ℕ} (hn : n ≠ 0) (h : ¬ IsDigits f) :
    setField tws n (encodeAll f) idx = .ok none :=
  setField_not_number hn tws (fun hnum => h (isNumber_encodeAll.1 hnum)) idx

/-- The entry when the word is set. -/
def wordEntry (tws : Bool) (word : List Char) : IndexDraft where
  word := some (encodeAll (stripped tws word))
  length := some (encodeAll (stripped tws word)).length
  wordlen := some (stripped tws word).length
  offset := none
  size := none

variable {list : List IndexDraft} {t : Utf8Text}

/-- The first turn of the loop. -/
theorem readFields_word (tws : Bool) (h : Cut blankChar tabChar t.chars b f r) :
    readFields tws [] 3 (pieces t.chars) ⟨none, none, none, none, none⟩ =
      readFields tws [] 2 (pieces r) (wordEntry tws f) := by
  have hnull : Char.ofNat 0 ∉ f := by
    refine fun hf => t.null_notMem ?_
    rw [h.eq]
    exact List.mem_append_left _ (List.mem_append_right _ hf)
  rw [readFields_pieces_cut h, setField_word tws hnull]
  rfl

/-- **A line with too few fields is accepted**, if the second is a number or
missing too. -/
theorem readLine_of_few (tws : Bool) (list : List IndexDraft)
    (hlen : (fields blankChar tabChar 3 t.chars).length ≠ 3)
    (hdigits : ∀ f ∈ (fields blankChar tabChar 3 t.chars)[1]?, IsDigits f) :
    ∃ idx, readLine tws (pieces t.chars) [] list = .ok (0, list ++ [idx]) := by
  rw [readLine]
  rcases Fields.blank_or_cut blankChar_of_tabChar t.chars with h₁ | ⟨b₁, f, r₁, h₁⟩
  · rw [readFields_pieces_end h₁]
    exact ⟨_, rfl⟩
  rw [h₁.fields_eq] at hlen hdigits
  rw [readFields_word tws h₁]
  rcases Fields.blank_or_cut blankChar_of_tabChar r₁ with h₂ | ⟨b₂, g, r₂, h₂⟩
  · rw [readFields_pieces_end h₂]
    exact ⟨_, rfl⟩
  rw [h₂.fields_eq] at hlen hdigits
  obtain ⟨ds, hds, rfl⟩ := hdigits g rfl
  rw [readFields_pieces_cut h₂, setField_digits (by decide) tws hds, ok_bind, Option.elim]
  rcases Fields.blank_or_cut blankChar_of_tabChar r₂ with h₃ | ⟨b₃, h, r₃, h₃⟩
  · rw [readFields_pieces_end h₃]
    exact ⟨_, rfl⟩
  · rw [h₃.fields_eq] at hlen
    exact absurd rfl hlen

/-- **A line whose second field is no number is refused.** -/
theorem readLine_of_not_digits
    (hdigits : ∃ f ∈ (fields blankChar tabChar 3 t.chars)[1]?, ¬ IsDigits f) :
    readLine tws (pieces t.chars) [] list = .ok (1, list) := by
  obtain ⟨g', hg', hnot⟩ := hdigits
  rw [readLine]
  rcases Fields.blank_or_cut blankChar_of_tabChar t.chars with h₁ | ⟨b₁, f, r₁, h₁⟩
  · rw [Fields.fields_of_blank h₁] at hg'
    cases hg'
  rw [h₁.fields_eq] at hg'
  rcases Fields.blank_or_cut blankChar_of_tabChar r₁ with h₂ | ⟨b₂, g, r₂, h₂⟩
  · rw [Fields.fields_of_blank h₂] at hg'
    cases hg'
  rw [h₂.fields_eq] at hg'
  cases hg'
  rw [readFields_word tws h₁, readFields_pieces_cut h₂, setField_not_digits (by decide) hnot]
  rfl

/-- **A line of three fields**, the second of them a number. -/
theorem readLine_of_three {b₁ r₁ b₂ r₂ b₃ g h r₃ : List Char}
    (h₁ : Cut blankChar tabChar t.chars b₁ f r₁) (h₂ : Cut blankChar tabChar r₁ b₂ g r₂)
    (h₃ : Cut blankChar tabChar r₂ b₃ h r₃) (hoff : ∀ d ∈ offset, d < 64)
    (hg : g = offset.map digitChar) :
    (∀ size : List ℕ, (∀ d ∈ size, d < 64) → h = size.map digitChar → r₃ = [] →
      readLine tws (pieces t.chars) [] list = .ok (0, list ++ [lineEntry tws f offset size])) ∧
    (¬ IsDigits h ∨ r₃ ≠ [] → readLine tws (pieces t.chars) [] list = .ok (1, list)) := by
  subst hg
  have hturn := readFields_word tws h₁
  rw [readFields_pieces_cut h₂, setField_digits (by decide) tws hoff, ok_bind, Option.elim,
    readFields_pieces_cut h₃] at hturn
  rw [readLine, hturn]
  constructor
  · rintro size hsize rfl rfl
    rw [setField_digits (by decide) tws hsize]
    rfl
  · intro hbad
    by_cases hdigits : IsDigits h
    · obtain ⟨size, hsize, rfl⟩ := hdigits
      have hr₃ := hbad.resolve_left fun hnot => hnot ⟨size, hsize, rfl⟩
      rw [setField_digits (by decide) tws hsize, ok_bind, Option.elim, readFields, ok_bind]
      dsimp only
      rw [if_neg]
      rintro ⟨-, hnil, -⟩
      exact hr₃ (List.map_eq_nil_iff.1 hnil)
    · rw [setField_not_digits (by decide) hdigits]
      rfl

/-- A line with too few fields is no line of an index, but is accepted. -/
theorem not_parsesRight_of_few (tws : Bool)
    (hlen : (fields blankChar tabChar 3 t.chars).length ≠ 3)
    (hdigits : ∀ f ∈ (fields blankChar tabChar 3 t.chars)[1]?, IsDigits f) :
    ¬ ParsesRight tws t := by
  rw [parsesRight_iff_readLine]
  intro h
  obtain ⟨idx, hread⟩ := readLine_of_few tws [] hlen hdigits
  have hno : ∀ word offset size, ¬ IndexLine t.chars word offset size := by
    intro word offset size hline
    rw [hline.fields_eq.1] at hlen
    exact hlen rfl
  rw [(h []).2 hno] at hread
  cases hread

/-- A line of three fields is parsed as it should be. -/
theorem parsesRight_of_three (tws : Bool)
    (hlen : (fields blankChar tabChar 3 t.chars).length = 3)
    (hdigits : ∀ f ∈ (fields blankChar tabChar 3 t.chars)[1]?, IsDigits f) :
    ParsesRight tws t := by
  rw [parsesRight_iff_readLine]
  intro list
  obtain ⟨f, g, h, hfields⟩ := List.length_eq_three.1 hlen
  rw [hfields] at hdigits
  obtain ⟨offset, hoff, hg⟩ := hdigits g rfl
  obtain ⟨b₁, r₁, h₁, hfields₁⟩ := Fields.exists_cut_of_fields blankChar_of_tabChar hfields
  obtain ⟨b₂, r₂, h₂, hfields₂⟩ := Fields.exists_cut_of_fields blankChar_of_tabChar hfields₁
  obtain ⟨b₃, r₃, h₃, -⟩ := Fields.exists_cut_of_fields blankChar_of_tabChar hfields₂
  constructor
  · intro word offset' size hline
    have hline₃ := hline.fields_eq
    rw [hfields, h₁.behind_eq, h₂.behind_eq, h₃.behind_eq] at hline₃
    obtain ⟨hthree, hr₃⟩ := hline₃
    obtain ⟨rfl, hg', hh, -⟩ : f = word ∧ g = offset'.map digitChar ∧ h = size.map digitChar ∧
        True := by
      simpa using hthree
    exact (readLine_of_three h₁ h₂ h₃ hline.isDigits.1 hg').1 size hline.isDigits.2 hh hr₃
  · -- a line that is refused has a size that is no number, or more behind it
    intro hno
    refine (readLine_of_three h₁ h₂ h₃ hoff hg).2 ?_
    by_contra hboth
    rw [not_or, not_not, not_not] at hboth
    obtain ⟨⟨size, hsize, rfl⟩, rfl⟩ := hboth
    subst hg
    exact hno f offset size (indexLine_of_cuts h₁ h₂ h₃ hoff hsize)

/-- A line whose second field is no number is refused, as it should be. -/
theorem parsesRight_of_not_digits (tws : Bool)
    (hdigits : ∃ f ∈ (fields blankChar tabChar 3 t.chars)[1]?, ¬ IsDigits f) :
    ParsesRight tws t := by
  rw [parsesRight_iff_readLine]
  refine fun list => ⟨fun word offset size hline => ?_, fun _ => readLine_of_not_digits hdigits⟩
  obtain ⟨f, hf, hnot⟩ := hdigits
  rw [hline.fields_eq.1] at hf
  cases hf
  exact absurd ⟨offset, hline.isDigits.1, rfl⟩ hnot

/-- **Which lines are parsed as they should be**: those of at least three
fields, and those whose second field is no number. -/
theorem parsesRight_iff (tws : Bool) (t : Utf8Text) :
    ParsesRight tws t ↔ (fields blankChar tabChar 3 t.chars).length = 3 ∨
      ∃ f ∈ (fields blankChar tabChar 3 t.chars)[1]?, ¬ IsDigits f := by
  by_cases hdigits : ∃ f ∈ (fields blankChar tabChar 3 t.chars)[1]?, ¬ IsDigits f
  · exact ⟨fun _ => .inr hdigits, fun _ => parsesRight_of_not_digits tws hdigits⟩
  · rw [or_iff_left hdigits]
    push Not at hdigits
    by_cases hlen : (fields blankChar tabChar 3 t.chars).length = 3
    · exact ⟨fun _ => hlen, fun _ => parsesRight_of_three tws hlen hdigits⟩
    · exact ⟨fun h => absurd h (not_parsesRight_of_few tws hlen hdigits), fun h => absurd h hlen⟩

/-- **A word alone** is taken for an entry. -/
theorem not_forall_parsesRight : ¬ ∀ (tws : Bool) (t : Utf8Text), ParsesRight tws t := by
  intro h
  have hfields : fields blankChar tabChar 3 ['w', 'o', 'r', 'd'] = [['w', 'o', 'r', 'd']] := by
    decide
  refine not_parsesRight_of_few false ?_ ?_ (h false ⟨['w', 'o', 'r', 'd'], by decide⟩)
  · rw [hfields]
    decide
  · intro f hf
    rw [hfields] at hf
    cases hf

end Grammar

end DictOrg

end Dico
