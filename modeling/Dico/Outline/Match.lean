import Dico.Common.Bsearch
import Dico.Outline.File
import Dico.Text.Collate
import Dico.Text.Reverse
/-!
# Outline matchers

The outline module keeps its entries sorted, and a second index of the
words backwards. `exact_match` returns the one entry `bsearch` gives it;
`prefix_match` and `suffix_match` take the run around it, comparing only as
many characters as both words have. What they return is compared with what
the selectors of the server select.
-/

namespace Dico

namespace Outline

open Bsearch (Finds Partitioned extend)

/-! ## The model -/

/-- `struct result`: some entries of the index one after another, or a list
of entries. -/
inductive Result
  | run (ep count : ℕ)
  | list (list : List ℕ)
  deriving DecidableEq, Repr

/-- The positions of the entries in a result; a matcher that fails returns
none. -/
def returned : Option Result → List ℕ
  | none => []
  | some (.run ep count) => List.range' ep count
  | some (.list list) => list

/-- The key a matcher searches with. -/
def searchKey (word : Bytes) : Entry := ⟨word, word.length, utf8Strlen word, 0, 0⟩

/-- `compare_entry`. -/
def compareEntry (epa epb : Entry) : Option ℤ := utf8Strcasecmp epa.word epb.word

/-- `compare_prefix`. -/
def comparePrefix (pkey pelt : Entry) : Option ℤ := do
  let wordlen ← pkey.wordlen
  let eltlen ← pelt.wordlen
  let wordlen := if eltlen < wordlen then eltlen else wordlen
  utf8Strncasecmp pkey.word pelt.word wordlen

/-- `exact_match`. -/
def exactMatch (bsearch : ℕ → (ℕ → ℤ) → Option ℕ) (index : List Entry) (word : Bytes) :
    Option (Option Result) := do
  let rcs ← index.mapM (compareEntry (searchKey word))
  match bsearch index.length fun p => rcs.getD p 0 with
  | none => some none
  | some ep => some (some (.run ep 1))

/-- `prefix_match`. -/
def prefixMatch (bsearch : ℕ → (ℕ → ℤ) → Option ℕ) (index : List Entry) (word : Bytes) :
    Option (Option Result) := do
  let rcs ← index.mapM (comparePrefix (searchKey word))
  let cmp := fun p => rcs.getD p 0
  match bsearch index.length cmp with
  | none => some none
  | some ep =>
    let start := Bsearch.runStart cmp ep
    let stop := Bsearch.scanForward cmp (index.length - (ep + 1)) (ep + 1)
    some (some (.run start (stop - start)))

/-- An entry of the suffix index: a copy of an entry with the word
backwards, and the position of the entry. -/
structure SufEntry where
  /-- The copy. -/
  entry : Entry
  /-- `peer`. -/
  peer : ℕ
  deriving DecidableEq, Repr

/-- The array `init_suffix_index` fills, before it sorts it. -/
def reverseIndex (index : List Entry) : Option (List SufEntry) :=
  (List.range index.length).mapM fun p => do
    let e ← index[p]?
    let w ← revertWord e.word
    some ⟨{ e with word := w }, p⟩

/-- What `init_suffix_index` leaves: the array in some order that
`compare_entry` agrees with. -/
def IsSuffixIndex (index : List Entry) (sufIndex : List SufEntry) : Prop :=
  ∃ revs, reverseIndex index = some revs ∧ sufIndex.Perm revs ∧
    sufIndex.Pairwise fun epa epb => ∃ rc, compareEntry epa.entry epb.entry = some rc ∧ rc ≤ 0

/-- `suffix_match`, over the index of reversed words, and a `qsort` that
sorts pointers by `compare_entry_ptr`. -/
def suffixMatch (bsearch : ℕ → (ℕ → ℤ) → Option ℕ) (qsort : List ℕ → List ℕ)
    (sufIndex : List SufEntry) (word : Bytes) : Option (Option Result) := do
  let x ← revertWord word
  let key : Entry := ⟨x, word.length, utf8Strlen word, 0, 0⟩
  let rcs ← sufIndex.mapM fun s => comparePrefix key s.entry
  let cmp := fun i => rcs.getD i 0
  match bsearch sufIndex.length cmp with
  | none => some none
  | some ep =>
    let run := (extend sufIndex.length cmp ep).filterMap fun i => sufIndex[i]?
    some (some (.list (qsort (run.map SufEntry.peer))))

/-! ## What is asked -/

section Matchers

variable (index : List Entry) (sufIndex : List SufEntry) (word : Utf8Text)

/-- The index is sorted by `compare_entry`. -/
def Sorted : Prop :=
  index.Pairwise fun epa epb => ∃ rc, compareEntry epa epb = some rc ∧ rc ≤ 0

/-- Its words are UTF-8, and their lengths are right. -/
def IsText : Prop :=
  ∀ e ∈ index, ∃ t : Utf8Text, e.word = t.bytes ∧ e.wordlen = some t.codes.length

/-- The entry at a position is one that a selector selects. -/
def Selected (word : Bytes) (sel : SelectCmd → DicoKey → Bytes → Option (Bool × DicoKey))
    (p : ℕ) : Prop :=
  ∃ e, index[p]? = some e ∧ selects sel word e.word = some true

/-- The entry at a position ends with the word, ignoring case. A word that is
not UTF-8 has no characters that an entry could end with. -/
def EndsWith (word : Bytes) (p : ℕ) : Prop :=
  ∃ e, index[p]? = some e ∧
    ∃ t : Utf8Text, word = t.bytes ∧ folded t.codes <:+ folded (codesOf e.word)

/-- A `qsort` with `compare_entry_ptr` only changes the order. -/
def Permutes (qsort : List ℕ → List ℕ) : Prop := ∀ l, (qsort l).Perm l

/-- The matchers return just the entries they are asked for, all of
them. -/
def MatchersAgree (word : Bytes) : Prop :=
  (∀ bsearch, Finds bsearch → ∃ r, exactMatch bsearch index word = some r ∧
    (returned r).Nodup ∧ ∀ p, p ∈ returned r ↔ Selected index word exactSel p) ∧
  (∀ bsearch, Finds bsearch → ∃ r, prefixMatch bsearch index word = some r ∧
    (returned r).Nodup ∧ ∀ p, p ∈ returned r ↔ Selected index word prefixSel p) ∧
  ∀ bsearch qsort, Finds bsearch → Permutes qsort →
    ∃ r, suffixMatch bsearch qsort sufIndex word = some r ∧
      (returned r).Nodup ∧ ∀ p, p ∈ returned r ↔ EndsWith index word p

/-! ## When it is given -/

/-- The headword at a position is a shorter one that the word begins with,
ignoring case. -/
def ShortStart (p : ℕ) : Prop :=
  ∃ e, index[p]? = some e ∧ (codesOf e.word).length < word.codes.length ∧
    folded (codesOf e.word) <+: folded word.codes ∧ (codesOf e.word).length < 2 ^ 32

/-- The headword at a position is a shorter one that the word ends with. -/
def ShortEnd (p : ℕ) : Prop :=
  ∃ e, index[p]? = some e ∧ (codesOf e.word).length < word.codes.length ∧
    folded (codesOf e.word) <:+ folded word.codes ∧ (codesOf e.word).length < 2 ^ 32

/-- The headword at a position is a longer one that ends with the word, and
the word is too long for `utf8_strncasecmp`. -/
def LongEnd (p : ℕ) : Prop :=
  ∃ e, index[p]? = some e ∧ word.codes.length < (codesOf e.word).length ∧
    folded word.codes <:+ folded (codesOf e.word) ∧ 2 ^ 32 ≤ word.codes.length

/-- A word of UTF-8: no two entries equal it; it begins with no shorter
headword, and the first two entries do not both begin with it; and the same
for its end and the first two entries of the suffix index. -/
structure TextFind : Prop where
  /-- For `exact_match`. -/
  single : ∀ p q, Selected index word.bytes exactSel p → Selected index word.bytes exactSel q →
    p = q
  /-- For `prefix_match`. -/
  start : ∀ p, ¬ ShortStart index word p
  /-- The run does not begin the index. -/
  startFirst : ¬ (Selected index word.bytes prefixSel 0 ∧ Selected index word.bytes prefixSel 1)
  /-- For `suffix_match`. -/
  tail : ∀ p, ¬ ShortEnd index word p ∧ ¬ LongEnd index word p
  /-- The run does not begin the suffix index. -/
  tailFirst : ¬ ∃ s₀ s₁ r, sufIndex = s₀ :: s₁ :: r ∧
    EndsWith index word.bytes s₀.peer ∧ EndsWith index word.bytes s₁.peer

/-- Any other word: no comparison looks at memory that is not set; no two
entries equal it; just those compare equal that begin with it, the index is
in three parts if there are any, and the first two are not both among them;
and no entry compares equal backwards. -/
structure OtherFind (word : Bytes) : Prop where
  /-- For `exact_match`. -/
  exactSet : ∀ e ∈ index, ∃ rc, compareEntry (searchKey word) e = some rc
  /-- Its run is one entry. -/
  single : ∀ p q, Selected index word exactSel p → Selected index word exactSel q → p = q
  /-- For `prefix_match`. -/
  startSet : ∀ e ∈ index, ∃ rc, comparePrefix (searchKey word) e = some rc
  /-- What compares equal. -/
  start : ∀ p e, index[p]? = some e →
    (comparePrefix (searchKey word) e = some 0 ↔ Selected index word prefixSel p)
  /-- The run can be found, and does not begin the index. -/
  startFirst : (∃ p, Selected index word prefixSel p) →
    (index.Pairwise fun a b => ∀ rca rcb, comparePrefix (searchKey word) a = some rca →
      comparePrefix (searchKey word) b = some rcb →
      (0 ≤ rcb → 0 ≤ rca) ∧ (0 < rcb → 0 < rca)) ∧
    ¬ (Selected index word prefixSel 0 ∧ Selected index word prefixSel 1)
  /-- For `suffix_match`. -/
  tail : ∃ x, revertWord word = some x ∧ ∀ s ∈ sufIndex,
    ∃ rc, comparePrefix ⟨x, word.length, utf8Strlen word, 0, 0⟩ s.entry = some rc ∧ rc ≠ 0

/-- The word is of one kind or the other. -/
def MatchersFind (word : Bytes) : Prop :=
  (∃ t : Utf8Text, word = t.bytes ∧ TextFind index sufIndex t) ∨
    (¬ ∃ t : Utf8Text, word = t.bytes) ∧ OtherFind index sufIndex word

variable {index sufIndex word}

/-- The entry at a position. -/
theorem IsText.entry (htext : IsText index) {p : ℕ} {e : Entry} (he : index[p]? = some e) :
    ∃ t : Utf8Text, e.word = t.bytes ∧ e.wordlen = some t.codes.length :=
  htext e (List.mem_of_getElem? he)

/-! ## The exact matcher -/

/-- What `exact_sel` selects, where the comparisons are known. -/
theorem selected_exactSel_iff {s : Bytes} {cmp : ℕ → ℤ}
    (hcmp : ∀ p e, index[p]? = some e → utf8Strcasecmp s e.word = some (cmp p)) (p : ℕ) :
    Selected index s exactSel p ↔ p < index.length ∧ cmp p = 0 := by
  constructor
  · rintro ⟨e, he, hsel⟩
    refine ⟨(List.getElem?_eq_some_iff.1 he).1, ?_⟩
    simp only [selects, exactSel, Option.bind_eq_bind, Option.bind_some, hcmp p e he,
      Option.some.injEq, beq_iff_eq] at hsel
    exact hsel
  · rintro ⟨hp, hzero⟩
    refine ⟨_, List.getElem?_eq_getElem hp, ?_⟩
    simp only [selects, exactSel, Option.bind_eq_bind, Option.bind_some,
      hcmp p _ (List.getElem?_eq_getElem hp), hzero]
    rfl

/-- **`exact_match`** returns what it is asked for just if that is one
entry at most. -/
theorem exactMatch_iff {s : Bytes} (hsort : Sorted index)
    (hdef : ∀ e ∈ index, ∃ rc, compareEntry (searchKey s) e = some rc) :
    (∀ bsearch, Finds bsearch → ∃ r, exactMatch bsearch index s = some r ∧
        (returned r).Nodup ∧ ∀ p, p ∈ returned r ↔ Selected index s exactSel p) ↔
      ∀ p q, Selected index s exactSel p → Selected index s exactSel q → p = q := by
  obtain ⟨rcs, hrcs⟩ := Bsearch.exists_mapM hdef
  obtain ⟨cmp, hrc⟩ : ∃ cmp : ℕ → ℤ, cmp = fun p => rcs.getD p 0 := ⟨_, rfl⟩
  have hcmp : ∀ p e, index[p]? = some e → utf8Strcasecmp s e.word = some (cmp p) := by
    intro p e he
    rw [hrc]
    exact Bsearch.getD_of_mapM hrcs he
  have hsel := selected_exactSel_iff hcmp
  have hparts := partitioned_of_sorted hsort hcmp
  have hresult : ∀ bsearch : ℕ → (ℕ → ℤ) → Option ℕ, exactMatch bsearch index s =
      some ((bsearch index.length cmp).map fun ep => .run ep 1) := by
    intro bsearch
    simp only [exactMatch, hrcs, Option.bind_eq_bind, Option.bind_some, ← hrc]
    cases bsearch index.length cmp with
    | none => rfl
    | some ep => rfl
  constructor
  · intro h p q hp hq
    obtain ⟨hpn, hpzero⟩ := (hsel p).1 hp
    obtain ⟨k, hk⟩ := Bsearch.exists_firstZero hpn hpzero
    obtain ⟨r, hr, -, hmem⟩ := h _ Bsearch.finds_firstZero
    rw [hresult, hk, Option.map_some] at hr
    obtain rfl := Option.some.inj hr
    have hone : ∀ x, x ∈ returned (some (.run k 1)) → x = k := fun x hx => by
      rw [returned, List.mem_range'_1] at hx
      omega
    rw [hone p ((hmem p).2 hp), hone q ((hmem q).2 hq)]
  · intro hone bsearch hbs
    refine ⟨_, hresult bsearch, ?_⟩
    cases hk : bsearch index.length cmp with
    | none =>
      refine ⟨List.nodup_nil, fun p => iff_of_false List.not_mem_nil fun hp => ?_⟩
      obtain ⟨hpn, hpzero⟩ := (hsel p).1 hp
      exact hbs.complete _ _ p hparts hpn hpzero hk
    | some k =>
      have hksel := (hsel k).2 (hbs.sound _ _ _ hk)
      refine ⟨List.nodup_range', fun p => ?_⟩
      rw [Option.map_some, returned, List.mem_range'_1]
      constructor
      · intro hp
        obtain rfl : p = k := by omega
        exact hksel
      · intro hp
        have := hone p k hp hksel
        omega

/-! ## Truncated comparisons -/

/-- The headword at a position, as comparisons see it. -/
def foldAt (index : List Entry) (p : ℕ) : List ℕ :=
  match index[p]? with
  | some e => folded (codesOf e.word)
  | none => []

/-- There is a text there. -/
theorem IsText.foldAt (htext : IsText index) {p : ℕ} (hp : p < index.length) :
    ∃ e, ∃ t : Utf8Text, index[p]? = some e ∧ e.word = t.bytes ∧
      e.wordlen = some t.codes.length ∧ codesOf e.word = t.codes ∧
      foldAt index p = folded t.codes := by
  obtain ⟨t, hword, hlen⟩ := htext.entry (List.getElem?_eq_getElem hp)
  refine ⟨index[p], t, List.getElem?_eq_getElem hp, hword, hlen, ?_, ?_⟩
  · rw [hword, codesOf_bytes]
  · rw [Outline.foldAt, List.getElem?_eq_getElem hp]
    dsimp only
    rw [hword, codesOf_bytes]

/-- `compare_prefix` compares what both have. -/
theorem comparePrefix_bytes (a b : Utf8Text) (epa epb : Entry) (ha : epa.word = a.bytes)
    (hb : epb.word = b.bytes) (hla : epa.wordlen = some a.codes.length)
    (hlb : epb.wordlen = some b.codes.length) :
    comparePrefix epa epb = some (truncSign (folded a.codes) (folded b.codes)) := by
  have hmin : (if b.codes.length < a.codes.length then b.codes.length else a.codes.length) =
      min a.codes.length b.codes.length := by
    split_ifs <;> omega
  simp only [comparePrefix, hla, hlb, Option.bind_eq_bind, Option.bind_some, hmin, ha, hb]
  exact utf8Strncasecmp_min a b

section Runs

variable {n : ℕ} {cmp : ℕ → ℤ} {table : List ℕ} {w : List ℕ} {text : ℕ → List ℕ}
  {want : ℕ → Prop}

/-- **The run of a truncated comparison is what is wanted**, among texts in
order, just if what compares equal is what is wanted and the first two
texts are not. -/
theorem forall_mem_truncated_iff (htable : table.Perm (List.range n))
    (hcmp : ∀ i < n, cmp i = truncSign w (text (table.getD i 0)))
    (hord : ∀ i j, i < j → j < n → text (table.getD i 0) ≤ text (table.getD j 0))
    (hwant : ∀ p < n, want p → w.length ≤ (text p).length) :
    (∀ bsearch, Finds bsearch → ∀ q,
        q ∈ (bsearch n cmp).elim [] (fun k => (extend n cmp k).map fun i => table.getD i 0) ↔
          q < n ∧ want q) ↔
      (∀ p < n, truncSign w (text p) = 0 ↔ want p) ∧
        ¬ (1 < n ∧ want (table.getD 0 0) ∧ want (table.getD 1 0)) := by
  obtain ⟨-, hlt, hsurj, -⟩ := Bsearch.getD_of_perm_range htable
  rw [Bsearch.forall_mem_run_iff htable]
  constructor
  · rintro ⟨hzero, hparts⟩
    refine ⟨fun p hp => ?_, ?_⟩
    · obtain ⟨i, hi, rfl⟩ := hsurj p hp
      rw [← hcmp i hi]
      exact hzero i hi
    · rintro ⟨hn, h₀, h₁⟩
      have hzero₀ := (hzero 0 (by omega)).2 h₀
      exact (hparts ⟨0, by omega, hzero₀⟩).2 ⟨hn, hzero₀, (hzero 1 hn).2 h₁⟩
  · rintro ⟨hzero, hfirst⟩
    have hzero' : ∀ i < n, cmp i = 0 ↔ want (table.getD i 0) := by
      intro i hi
      rw [hcmp i hi]
      exact hzero _ (hlt i hi)
    -- no shorter text compares equal, as what is wanted is not shorter
    have hne : ∀ i < n, (text (table.getD i 0)).length < w.length →
        truncSign w (text (table.getD i 0)) ≠ 0 := by
      intro i hi hshort h
      have := hwant _ (hlt i hi) ((hzero _ (hlt i hi)).1 h)
      omega
    refine ⟨hzero', fun _ => ⟨fun i j hij hj => ?_, ?_⟩⟩
    · rcases Nat.eq_or_lt_of_le hij with rfl | hlt'
      · exact ⟨id, id⟩
      · rw [hcmp i (by omega), hcmp j hj]
        exact truncSign_antitone (hord i j hlt' hj) (hne i (by omega)) (hne j hj)
    · rintro ⟨hn, h₀, h₁⟩
      exact hfirst ⟨hn, (hzero' 0 (by omega)).1 h₀, (hzero' 1 hn).1 h₁⟩

/-- **A matcher that returns the run**, in any order, returns what is wanted
just if the run is that, whatever the search returns. -/
theorem returned_iff_mem (htable : table.Perm (List.range n)) (hwant : ∀ p, want p → p < n)
    {result : (ℕ → (ℕ → ℤ) → Option ℕ) → Option (Option Result)}
    (hresult : ∀ bsearch, Finds bsearch → ∃ r, result bsearch = some r ∧ (returned r).Perm
      ((bsearch n cmp).elim [] fun k => (extend n cmp k).map fun i => table.getD i 0)) :
    (∀ bsearch, Finds bsearch → ∃ r, result bsearch = some r ∧ (returned r).Nodup ∧
        ∀ p, p ∈ returned r ↔ want p) ↔
      ∀ bsearch, Finds bsearch → ∀ q,
        q ∈ (bsearch n cmp).elim [] (fun k => (extend n cmp k).map fun i => table.getD i 0) ↔
          q < n ∧ want q := by
  obtain ⟨-, -, -, hinj⟩ := Bsearch.getD_of_perm_range htable
  have hiff : ∀ q, want q ↔ q < n ∧ want q := fun q =>
    (and_iff_right_of_imp fun hq => hwant q hq).symm
  constructor
  · intro h bsearch hbs q
    obtain ⟨r, hr, -, hmem⟩ := h bsearch hbs
    obtain ⟨r', hr', hperm⟩ := hresult bsearch hbs
    obtain rfl := Option.some.inj (hr.symm.trans hr')
    rw [← hperm.mem_iff, hmem q]
    exact hiff q
  · intro h bsearch hbs
    obtain ⟨r, hr, hperm⟩ := hresult bsearch hbs
    refine ⟨r, hr, hperm.nodup_iff.2 ?_, fun q => ?_⟩
    · cases hk : bsearch n cmp with
      | none => exact List.nodup_nil
      | some k =>
        have hkn := (hbs.sound _ _ _ hk).1
        refine List.Nodup.map_on (fun i hi j hj heq => ?_) List.nodup_range'
        exact hinj i (Bsearch.lt_of_mem_extend hkn hi) j (Bsearch.lt_of_mem_extend hkn hj) heq
    · rw [hperm.mem_iff, h bsearch hbs q]
      exact (hiff q).symm

/-- Among texts in order, that is so just if what compares equal is wanted and
the first two texts are not. -/
theorem returned_iff (htable : table.Perm (List.range n))
    (hcmp : ∀ i < n, cmp i = truncSign w (text (table.getD i 0)))
    (hord : ∀ i j, i < j → j < n → text (table.getD i 0) ≤ text (table.getD j 0))
    (hwant : ∀ p, want p → p < n ∧ w.length ≤ (text p).length)
    {result : (ℕ → (ℕ → ℤ) → Option ℕ) → Option (Option Result)}
    (hresult : ∀ bsearch, Finds bsearch → ∃ r, result bsearch = some r ∧ (returned r).Perm
      ((bsearch n cmp).elim [] fun k => (extend n cmp k).map fun i => table.getD i 0)) :
    (∀ bsearch, Finds bsearch → ∃ r, result bsearch = some r ∧ (returned r).Nodup ∧
        ∀ p, p ∈ returned r ↔ want p) ↔
      (∀ p < n, truncSign w (text p) = 0 ↔ want p) ∧
        ¬ (1 < n ∧ want (table.getD 0 0) ∧ want (table.getD 1 0)) := by
  rw [returned_iff_mem htable (fun p hp => (hwant p hp).1) hresult]
  exact forall_mem_truncated_iff htable hcmp hord fun p _ hp => (hwant p hp).2

end Runs

/-! ## The prefix matcher -/

/-- What `prefix_sel` selects: a headword that is not shorter, and compares
equal. -/
theorem selected_prefixSel_iff (htext : IsText index) {p : ℕ} :
    Selected index word.bytes prefixSel p ↔ p < index.length ∧
      (folded word.codes).length ≤ (foldAt index p).length ∧
      truncSign (folded word.codes) (foldAt index p) = 0 := by
  have hsel : ∀ t : Utf8Text, selects prefixSel word.bytes t.bytes = some true ↔
      (folded word.codes).length ≤ (folded t.codes).length ∧
        truncSign (folded word.codes) (folded t.codes) = 0 := by
    intro t
    simp only [selects, prefixSel, utf8Strlen_bytes, Option.bind_eq_bind, Option.bind_some,
      folded, List.length_map]
    split_ifs with hle
    · have hback := utf8Strncasecmp_swap (utf8Strncasecmp_min word t)
      rw [min_eq_left hle] at hback
      simp only [hback, Option.bind_some, Option.some.injEq, beq_iff_eq]
      rw [and_iff_right hle]
      exact Int.neg_eq_zero
    · exact iff_of_false (by rw [Option.bind_some, Option.some.injEq]; exact Bool.false_ne_true)
        fun h => hle h.1
  constructor
  · rintro ⟨e, he, h⟩
    have hp := (List.getElem?_eq_some_iff.1 he).1
    obtain ⟨e', t, he', hword, -, -, hfold⟩ := htext.foldAt hp
    obtain rfl := Option.some.inj (he.symm.trans he')
    rw [hword] at h
    rw [hfold]
    exact ⟨hp, (hsel t).1 h⟩
  · rintro ⟨hp, h⟩
    obtain ⟨e, t, he, hword, -, -, hfold⟩ := htext.foldAt hp
    rw [hfold] at h
    exact ⟨e, he, by rw [hword]; exact (hsel t).2 h⟩

/-- What a shorter headword is that the word begins with. -/
theorem shortStart_iff (htext : IsText index) {p : ℕ} :
    ShortStart index word p ↔ p < index.length ∧
      (foldAt index p).length < (folded word.codes).length ∧
      truncSign (folded word.codes) (foldAt index p) = 0 := by
  constructor
  · rintro ⟨e, he, hlt, hpre, hlen⟩
    have hp := (List.getElem?_eq_some_iff.1 he).1
    obtain ⟨e', t, he', -, -, hcodes, hfold⟩ := htext.foldAt hp
    obtain rfl := Option.some.inj (he.symm.trans he')
    rw [hcodes] at hlt hpre hlen
    have hlt' : (folded t.codes).length < (folded word.codes).length := by
      simpa only [folded, List.length_map] using hlt
    rw [hfold]
    refine ⟨hp, hlt', (truncSign_eq_zero_of_lt hlt').2 ⟨hpre, ?_⟩⟩
    simpa only [folded, List.length_map] using hlen
  · rintro ⟨hp, hlt, hzero⟩
    obtain ⟨e, t, he, -, -, hcodes, hfold⟩ := htext.foldAt hp
    rw [hfold] at hlt hzero
    obtain ⟨hpre, hlen⟩ := (truncSign_eq_zero_of_lt hlt).1 hzero
    simp only [folded, List.length_map] at hlt hlen
    exact ⟨e, he, by rw [hcodes]; exact hlt, by rw [hcodes]; exact hpre,
      by rw [hcodes]; exact hlen⟩

/-- The order of the index, by position. -/
theorem Sorted.foldAt_le (hsort : Sorted index) (htext : IsText index) {i j : ℕ} (hij : i < j)
    (hj : j < index.length) : foldAt index i ≤ foldAt index j := by
  obtain ⟨rc, hrc, hle⟩ := List.pairwise_iff_getElem.1 hsort i j (by omega) hj hij
  obtain ⟨e, t, he, hword, -, -, hfold⟩ := htext.foldAt (by omega : i < index.length)
  obtain ⟨e', t', he', hword', -, -, hfold'⟩ := htext.foldAt hj
  rw [(List.getElem?_eq_some_iff.1 he).2, (List.getElem?_eq_some_iff.1 he').2, compareEntry,
    hword, hword', utf8Strcasecmp_bytes] at hrc
  rw [hfold, hfold', ← lexSign_nonpos, Option.some.inj hrc]
  exact hle

/-- The comparison finds what `prefix_sel` selects just if no headword is
too short. -/
theorem forall_truncSign_iff_prefixSel (htext : IsText index) :
    (∀ p < index.length, truncSign (folded word.codes) (foldAt index p) = 0 ↔
        Selected index word.bytes prefixSel p) ↔ ∀ p, ¬ ShortStart index word p := by
  constructor
  · intro hzero p hp
    obtain ⟨hpn, hlt, hp⟩ := (shortStart_iff htext).1 hp
    have := ((selected_prefixSel_iff htext).1 ((hzero p hpn).1 hp)).2.1
    omega
  · intro hshort p hp
    rw [selected_prefixSel_iff htext, and_iff_right hp, iff_and_self]
    intro hzero
    by_contra hlt
    exact hshort p ((shortStart_iff htext).2 ⟨hp, not_le.1 hlt, hzero⟩)

/-- The comparisons of `prefix_match`. -/
theorem IsText.comparePrefix (htext : IsText index) {p : ℕ} {e : Entry}
    (he : index[p]? = some e) :
    Outline.comparePrefix (searchKey word.bytes) e =
      some (truncSign (folded word.codes) (Outline.foldAt index p)) := by
  obtain ⟨e', t, he', hword, hlen, -, hfold⟩ := htext.foldAt (List.getElem?_eq_some_iff.1 he).1
  obtain rfl := Option.some.inj (he.symm.trans he')
  rw [hfold]
  exact comparePrefix_bytes word t _ _ rfl hword (utf8Strlen_bytes word) hlen

/-- The table that changes nothing. -/
theorem getD_range {n p : ℕ} (hp : p < n) : (List.range n).getD p 0 = p := by
  rw [List.getD_eq_getElem?_getD, List.getElem?_range hp, Option.getD_some]

/-- What `prefix_match` returns: the run that was found. -/
theorem prefixMatch_perm {s : Bytes} {rcs : List ℤ}
    (hrcs : index.mapM (comparePrefix (searchKey s)) = some rcs)
    {bsearch : ℕ → (ℕ → ℤ) → Option ℕ} (hbs : Finds bsearch) :
    ∃ r, prefixMatch bsearch index s = some r ∧ (returned r).Perm
      ((bsearch index.length fun p => rcs.getD p 0).elim [] fun k =>
        (extend index.length (fun p => rcs.getD p 0) k).map fun i =>
          (List.range index.length).getD i 0) := by
  simp only [prefixMatch, hrcs, Option.bind_eq_bind, Option.bind_some]
  cases hk : bsearch index.length fun p => rcs.getD p 0 with
  | none => exact ⟨none, rfl, .nil⟩
  | some k =>
    have hkn := (hbs.sound _ _ _ hk).1
    refine ⟨_, rfl, ?_⟩
    rw [Option.elim_some, List.map_congr_left fun i hi =>
      getD_range (Bsearch.lt_of_mem_extend hkn hi), List.map_id']
    exact .refl _

/-- **`prefix_match`** returns what it is asked for just if the word begins
with no shorter headword, and the first two entries do not both begin with
the word. -/
theorem prefixMatch_iff (htext : IsText index) (hsort : Sorted index) :
    (∀ bsearch, Finds bsearch → ∃ r, prefixMatch bsearch index word.bytes = some r ∧
        (returned r).Nodup ∧ ∀ p, p ∈ returned r ↔ Selected index word.bytes prefixSel p) ↔
      (∀ p, ¬ ShortStart index word p) ∧
        ¬ (Selected index word.bytes prefixSel 0 ∧ Selected index word.bytes prefixSel 1) := by
  obtain ⟨rcs, hrcs⟩ := @Bsearch.exists_mapM _ _ (comparePrefix (searchKey word.bytes)) index (by
    intro e he
    obtain ⟨p, hp⟩ := List.mem_iff_getElem?.1 he
    exact ⟨_, htext.comparePrefix hp⟩)
  have hcmp : ∀ i < index.length, rcs.getD i 0 =
      truncSign (folded word.codes) (foldAt index ((List.range index.length).getD i 0)) := by
    intro i hi
    have hget := Bsearch.getD_of_mapM hrcs (List.getElem?_eq_getElem hi)
    rw [htext.comparePrefix (List.getElem?_eq_getElem hi)] at hget
    rw [getD_range hi, Option.some.inj hget]
  have hsel := fun p => @selected_prefixSel_iff index word htext p
  rw [returned_iff (List.Perm.refl _) hcmp (fun i j hij hj => by
    rw [getD_range (by omega : i < index.length), getD_range hj]
    exact hsort.foldAt_le htext hij hj) (fun p hp => ⟨((hsel p).1 hp).1, ((hsel p).1 hp).2.1⟩)
    fun bsearch => prefixMatch_perm hrcs, forall_truncSign_iff_prefixSel htext]
  refine and_congr_right' (not_congr ?_)
  constructor
  · rintro ⟨hn, h₀, h₁⟩
    rw [getD_range (by omega : 0 < index.length)] at h₀
    rw [getD_range hn] at h₁
    exact ⟨h₀, h₁⟩
  · rintro ⟨h₀, h₁⟩
    have hn := ((hsel 1).1 h₁).1
    rw [getD_range (by omega : 0 < index.length), getD_range hn]
    exact ⟨hn, h₀, h₁⟩

/-! ## The suffix matcher -/

/-- What ends with the word, backwards. -/
theorem endsWith_iff {p : ℕ} :
    EndsWith index word.bytes p ↔ p < index.length ∧
      (folded word.codes).reverse <+: (foldAt index p).reverse := by
  rw [List.reverse_prefix, foldAt]
  constructor
  · rintro ⟨e, he, t, ht, h⟩
    rw [he, Utf8Text.eq_of_bytes ht]
    exact ⟨(List.getElem?_eq_some_iff.1 he).1, h⟩
  · rintro ⟨hp, h⟩
    rw [List.getElem?_eq_getElem hp] at h
    exact ⟨_, List.getElem?_eq_getElem hp, word, rfl, h⟩

/-- An entry compares equal just if it ends with the word, unless it is too
short, or too long. -/
theorem truncSign_iff_endsWith {p : ℕ} {e : Entry} (he : index[p]? = some e) :
    (truncSign (folded word.codes).reverse (foldAt index p).reverse = 0 ↔
      EndsWith index word.bytes p) ↔ ¬ ShortEnd index word p ∧ ¬ LongEnd index word p := by
  have hp := (List.getElem?_eq_some_iff.1 he).1
  have hfold : foldAt index p = folded (codesOf e.word) := by
    rw [foldAt, he]
  have hlen : ∀ ws : List ℕ, (folded ws).reverse.length = ws.length := by
    intro ws
    rw [List.length_reverse, folded, List.length_map]
  rw [endsWith_iff, and_iff_right hp, hfold]
  rcases Nat.lt_or_ge (codesOf e.word).length word.codes.length with hlt | hge
  · -- a shorter headword does not end with the word, but may compare equal
    have hnot : ¬ (folded word.codes).reverse <+: (folded (codesOf e.word)).reverse := by
      intro h
      have := h.length_le
      rw [hlen, hlen] at this
      omega
    have hlong : ¬ LongEnd index word p := by
      rintro ⟨e', he', hlt', -⟩
      obtain rfl := Option.some.inj (he.symm.trans he')
      omega
    rw [truncSign_eq_zero_of_lt (by rw [hlen, hlen]; exact hlt), iff_false_right hnot,
      and_iff_left hlong, hlen, List.reverse_prefix]
    refine not_congr ⟨fun h => ⟨e, he, hlt, h⟩, ?_⟩
    rintro ⟨e', he', -, h⟩
    obtain rfl := Option.some.inj (he.symm.trans he')
    exact h
  · have hshort : ¬ ShortEnd index word p := by
      rintro ⟨e', he', hlt', -⟩
      obtain rfl := Option.some.inj (he.symm.trans he')
      omega
    rw [truncSign_eq_zero_of_le (by rw [hlen, hlen]; exact hge), and_iff_right hshort, hlen,
      hlen, and_iff_left_iff_imp, List.reverse_prefix]
    constructor
    · rintro h ⟨e', he', hlt, hsuf, hbig⟩
      obtain rfl := Option.some.inj (he.symm.trans he')
      have := h hsuf hbig
      omega
    · intro h hsuf hbig
      by_contra hne
      exact h ⟨e, he, by omega, hsuf, hbig⟩

/-- The comparison finds the entries that end with the word just if none is
too short, or too long. -/
theorem forall_truncSign_iff_endsWith :
    (∀ p < index.length,
        truncSign (folded word.codes).reverse (foldAt index p).reverse = 0 ↔
          EndsWith index word.bytes p) ↔
      ∀ p, ¬ ShortEnd index word p ∧ ¬ LongEnd index word p := by
  constructor
  · intro h p
    by_cases hp : p < index.length
    · exact (truncSign_iff_endsWith (List.getElem?_eq_getElem hp)).1 (h p hp)
    · have hnone := List.getElem?_eq_none (not_lt.1 hp)
      constructor
      · rintro ⟨e, he, -⟩
        rw [hnone] at he
        cases he
      · rintro ⟨e, he, -⟩
        rw [hnone] at he
        cases he
  · intro h p hp
    exact (truncSign_iff_endsWith (List.getElem?_eq_getElem hp)).2 (h p)

/-- **The suffix index holds every entry once**, with its word
backwards. -/
theorem IsSuffixIndex.perm (h : IsSuffixIndex index sufIndex) :
    (sufIndex.map SufEntry.peer).Perm (List.range index.length) ∧
      ∀ s ∈ sufIndex, ∃ e w, index[s.peer]? = some e ∧ revertWord e.word = some w ∧
        s.entry = { e with word := w } := by
  obtain ⟨revs, hrevs, hperm, -⟩ := h
  have hrev : ∀ p s, (do
      let e ← index[p]?
      let w ← revertWord e.word
      some (⟨{ e with word := w }, p⟩ : SufEntry)) = some s →
      s.peer = p ∧ ∃ e w, index[p]? = some e ∧ revertWord e.word = some w ∧
        s.entry = { e with word := w } := by
    intro p s hs
    obtain ⟨e, he, hs⟩ := Option.bind_eq_some_iff.1 hs
    obtain ⟨w, hw, hs⟩ := Option.bind_eq_some_iff.1 hs
    obtain rfl := Option.some.inj hs
    exact ⟨rfl, e, w, he, hw, rfl⟩
  refine ⟨?_, fun s hs => ?_⟩
  · rw [← Bsearch.map_of_mapM hrevs fun p s hs => (hrev p s hs).1]
    exact hperm.map SufEntry.peer
  · obtain ⟨p, -, hs⟩ := Bsearch.exists_of_mem_mapM hrevs (hperm.mem_iff.1 hs)
    obtain ⟨hpeer, hentry⟩ := hrev p s hs
    rw [hpeer]
    exact hentry

/-- An entry of the suffix index has a text. -/
theorem IsSuffixIndex.text (h : IsSuffixIndex index sufIndex) (htext : IsText index)
    {s : SufEntry} (hs : s ∈ sufIndex) :
    ∃ t : Utf8Text, s.entry.word = t.bytes ∧ s.entry.wordlen = some t.codes.length ∧
      folded t.codes = (foldAt index s.peer).reverse := by
  obtain ⟨e, w, he, hw, hentry⟩ := h.perm.2 s hs
  obtain ⟨e', t, he', hword, hlen, -, hfold⟩ := htext.foldAt (List.getElem?_eq_some_iff.1 he).1
  obtain rfl := Option.some.inj (he.symm.trans he')
  rw [hword, revertWord_bytes] at hw
  obtain rfl := Option.some.inj hw
  refine ⟨t.reversed, by rw [hentry], ?_, ?_⟩
  · rw [hentry, codes_reversed, List.length_reverse]
    exact hlen
  · rw [hfold, codes_reversed, folded, folded, List.map_reverse]

/-- The position an entry of the suffix index is for. -/
theorem getD_peer {i : ℕ} {s : SufEntry} (hs : sufIndex[i]? = some s) :
    (sufIndex.map SufEntry.peer).getD i 0 = s.peer := by
  rw [List.getD_eq_getElem?_getD, List.getElem?_map, hs]
  rfl

/-- The order of the suffix index, by position. -/
theorem IsSuffixIndex.foldAt_le (h : IsSuffixIndex index sufIndex) (htext : IsText index)
    {i j : ℕ} (hij : i < j) (hj : j < sufIndex.length) :
    (foldAt index ((sufIndex.map SufEntry.peer).getD i 0)).reverse ≤
      (foldAt index ((sufIndex.map SufEntry.peer).getD j 0)).reverse := by
  obtain ⟨-, -, -, hsort⟩ := id h
  obtain ⟨rc, hrc, hle⟩ := List.pairwise_iff_getElem.1 hsort i j (by omega) hj hij
  obtain ⟨t, hword, -, hfold⟩ := h.text htext (List.getElem_mem (by omega : i < sufIndex.length))
  obtain ⟨t', hword', -, hfold'⟩ := h.text htext (List.getElem_mem hj)
  rw [compareEntry, hword, hword', utf8Strcasecmp_bytes] at hrc
  rw [getD_peer (List.getElem?_eq_getElem (by omega : i < sufIndex.length)),
    getD_peer (List.getElem?_eq_getElem hj), ← hfold, ← hfold', ← lexSign_nonpos,
    Option.some.inj hrc]
  exact hle

/-- The key `suffix_match` searches with. -/
def suffixKey (word : Utf8Text) : Entry :=
  ⟨word.reversed.bytes, word.bytes.length, utf8Strlen word.bytes, 0, 0⟩

/-- The comparisons of `suffix_match`. -/
theorem IsSuffixIndex.comparePrefix (h : IsSuffixIndex index sufIndex) (htext : IsText index)
    {s : SufEntry} (hs : s ∈ sufIndex) :
    Outline.comparePrefix (suffixKey word) s.entry =
      some (truncSign (folded word.codes).reverse (foldAt index s.peer).reverse) := by
  obtain ⟨t, hword, hlen, hfold⟩ := h.text htext hs
  have hrev : (folded word.codes).reverse = folded word.reversed.codes := by
    rw [codes_reversed, folded, folded, List.map_reverse]
  rw [hrev, ← hfold]
  refine comparePrefix_bytes word.reversed t _ _ rfl hword ?_ hlen
  rw [suffixKey, utf8Strlen_bytes, codes_reversed, List.length_reverse]

/-- What `suffix_match` returns: the entries of the run that was found. -/
theorem suffixMatch_perm {rcs : List ℤ} (hcount : sufIndex.length = index.length)
    (hrcs : sufIndex.mapM (fun s => comparePrefix (suffixKey word) s.entry) = some rcs)
    {bsearch : ℕ → (ℕ → ℤ) → Option ℕ} (hbs : Finds bsearch)
    {qsort : List ℕ → List ℕ} (hq : Permutes qsort) :
    ∃ r, suffixMatch bsearch qsort sufIndex word.bytes = some r ∧ (returned r).Perm
      ((bsearch index.length fun p => rcs.getD p 0).elim [] fun k =>
        (extend index.length (fun p => rcs.getD p 0) k).map fun i =>
          (sufIndex.map SufEntry.peer).getD i 0) := by
  rw [suffixKey] at hrcs
  simp only [suffixMatch, revertWord_bytes, Option.bind_eq_bind, Option.bind_some, hrcs, hcount]
  cases hk : bsearch index.length fun p => rcs.getD p 0 with
  | none => exact ⟨none, rfl, .nil⟩
  | some k =>
    refine ⟨_, rfl, (hq _).trans ?_⟩
    rw [Bsearch.map_filterMap_getElem? fun i hi => by
      rw [hcount]
      exact Bsearch.lt_of_mem_extend (hbs.sound _ _ _ hk).1 hi]
    exact .refl _

/-- The first two entries of the suffix index. -/
theorem firstTwo_iff {P : ℕ → Prop} :
    (1 < sufIndex.length ∧ P ((sufIndex.map SufEntry.peer).getD 0 0) ∧
        P ((sufIndex.map SufEntry.peer).getD 1 0)) ↔
      ∃ s₀ s₁ r, sufIndex = s₀ :: s₁ :: r ∧ P s₀.peer ∧ P s₁.peer := by
  constructor
  · rintro ⟨hn, h₀, h₁⟩
    cases sufIndex with
    | nil => exact absurd hn (Nat.not_lt_zero 1)
    | cons s₀ r =>
      cases r with
      | nil => exact absurd hn (lt_irrefl 1)
      | cons s₁ r => exact ⟨s₀, s₁, r, rfl, h₀, h₁⟩
  · rintro ⟨s₀, s₁, r, rfl, h₀, h₁⟩
    exact ⟨by rw [List.length_cons, List.length_cons]; omega, h₀, h₁⟩

/-- **`suffix_match`** returns what it is asked for just if the word ends
with no shorter headword, no headword is too long, and the first two
entries of the suffix index do not both end with the word. -/
theorem suffixMatch_iff (htext : IsText index) (hindex : IsSuffixIndex index sufIndex) :
    (∀ bsearch qsort, Finds bsearch → Permutes qsort →
        ∃ r, suffixMatch bsearch qsort sufIndex word.bytes = some r ∧
          (returned r).Nodup ∧ ∀ p, p ∈ returned r ↔ EndsWith index word.bytes p) ↔
      (∀ p, ¬ ShortEnd index word p ∧ ¬ LongEnd index word p) ∧
        ¬ ∃ s₀ s₁ r, sufIndex = s₀ :: s₁ :: r ∧
          EndsWith index word.bytes s₀.peer ∧ EndsWith index word.bytes s₁.peer := by
  have htable := hindex.perm.1
  have hcount : sufIndex.length = index.length := by
    rw [← List.length_range (n := index.length), ← htable.length_eq, List.length_map]
  obtain ⟨rcs, hrcs⟩ := Bsearch.exists_mapM fun s hs =>
    ⟨_, @IsSuffixIndex.comparePrefix index sufIndex word hindex htext s hs⟩
  have hcmp : ∀ i < index.length, rcs.getD i 0 = truncSign (folded word.codes).reverse
      (foldAt index ((sufIndex.map SufEntry.peer).getD i 0)).reverse := by
    intro i hi
    have hs := List.getElem?_eq_getElem (by omega : i < sufIndex.length)
    have hget := Bsearch.getD_of_mapM hrcs hs
    rw [hindex.comparePrefix htext (List.mem_of_getElem? hs)] at hget
    rw [getD_peer hs]
    exact (Option.some.inj hget).symm
  have hiff := fun qsort hq => returned_iff htable hcmp
    (fun i j hij hj => hindex.foldAt_le htext hij (by omega))
    (fun p hp => ⟨(endsWith_iff.1 hp).1, (endsWith_iff.1 hp).2.length_le⟩)
    fun bsearch hbs => @suffixMatch_perm index sufIndex word rcs hcount hrcs bsearch hbs qsort hq
  rw [← forall_truncSign_iff_endsWith, ← firstTwo_iff, hcount]
  constructor
  · intro h
    exact (hiff id List.Perm.refl).1 fun bsearch hbs => h bsearch id hbs List.Perm.refl
  · intro h bsearch qsort hbs hq
    exact (hiff qsort hq).2 h bsearch hbs

/-! ## All three -/

/-- A word of UTF-8. -/
theorem textAgree_iff (htext : IsText index) (hsort : Sorted index)
    (hindex : IsSuffixIndex index sufIndex) (word : Utf8Text) :
    MatchersAgree index sufIndex word.bytes ↔ TextFind index sufIndex word := by
  have hdef : ∀ e ∈ index, ∃ rc, compareEntry (searchKey word.bytes) e = some rc := by
    intro e he
    obtain ⟨t, hword, -⟩ := htext e he
    exact ⟨_, by rw [compareEntry, hword]; exact utf8Strcasecmp_bytes word t⟩
  rw [MatchersAgree, exactMatch_iff hsort hdef, prefixMatch_iff htext hsort,
    suffixMatch_iff htext hindex]
  exact ⟨fun ⟨h₁, ⟨h₂, h₃⟩, h₄, h₅⟩ => ⟨h₁, h₂, h₃, h₄, h₅⟩,
    fun h => ⟨h.single, ⟨h.start, h.startFirst⟩, h.tail, h.tailFirst⟩⟩

section Other

variable {s : Bytes}

/-- **`prefix_match`**, of any word whose comparisons are set. -/
theorem prefixMatch_other_iff
    (hset : ∀ e ∈ index, ∃ rc, comparePrefix (searchKey s) e = some rc) :
    (∀ bsearch, Finds bsearch → ∃ r, prefixMatch bsearch index s = some r ∧
        (returned r).Nodup ∧ ∀ p, p ∈ returned r ↔ Selected index s prefixSel p) ↔
      (∀ p e, index[p]? = some e →
        (comparePrefix (searchKey s) e = some 0 ↔ Selected index s prefixSel p)) ∧
      ((∃ p, Selected index s prefixSel p) →
        (index.Pairwise fun a b => ∀ rca rcb, comparePrefix (searchKey s) a = some rca →
          comparePrefix (searchKey s) b = some rcb →
          (0 ≤ rcb → 0 ≤ rca) ∧ (0 < rcb → 0 < rca)) ∧
        ¬ (Selected index s prefixSel 0 ∧ Selected index s prefixSel 1)) := by
  obtain ⟨rcs, hrcs⟩ := Bsearch.exists_mapM hset
  have hlt : ∀ p, Selected index s prefixSel p → p < index.length := by
    rintro p ⟨e, he, -⟩
    exact (List.getElem?_eq_some_iff.1 he).1
  have hget : ∀ p e, index[p]? = some e → comparePrefix (searchKey s) e = some (rcs.getD p 0) :=
    fun p e he => Bsearch.getD_of_mapM hrcs he
  rw [returned_iff_mem (List.Perm.refl _) hlt fun bsearch => prefixMatch_perm hrcs,
    Bsearch.forall_mem_run_iff (List.Perm.refl _), Bsearch.pairwise_iff_partitioned hget]
  have hzero : (∀ i < index.length,
      rcs.getD i 0 = 0 ↔ Selected index s prefixSel ((List.range index.length).getD i 0)) ↔
      ∀ p e, index[p]? = some e →
        (comparePrefix (searchKey s) e = some 0 ↔ Selected index s prefixSel p) := by
    constructor
    · intro h p e he
      have hp := (List.getElem?_eq_some_iff.1 he).1
      have hiff := h p hp
      rw [getD_range hp] at hiff
      rw [hget p e he, Option.some.injEq, hiff]
    · intro h i hi
      have hiff := h i _ (List.getElem?_eq_getElem hi)
      rw [hget i _ (List.getElem?_eq_getElem hi), Option.some.injEq] at hiff
      rw [getD_range hi, hiff]
  rw [hzero]
  refine and_congr_right fun hequal => ?_
  -- what compares equal is selected
  have hsel : ∀ i < index.length, rcs.getD i 0 = 0 ↔ Selected index s prefixSel i := by
    intro i hi
    rw [← hequal i _ (List.getElem?_eq_getElem hi), hget i _ (List.getElem?_eq_getElem hi),
      Option.some.injEq]
  have hex : (∃ i < index.length, rcs.getD i 0 = 0) ↔ ∃ p, Selected index s prefixSel p := by
    constructor
    · rintro ⟨i, hi, h⟩
      exact ⟨i, (hsel i hi).1 h⟩
    · rintro ⟨p, hp⟩
      exact ⟨p, hlt p hp, (hsel p (hlt p hp)).2 hp⟩
  have hfirst : (1 < index.length ∧ rcs.getD 0 0 = 0 ∧ rcs.getD 1 0 = 0) ↔
      Selected index s prefixSel 0 ∧ Selected index s prefixSel 1 := by
    constructor
    · rintro ⟨hn, h₀, h₁⟩
      exact ⟨(hsel 0 (by omega)).1 h₀, (hsel 1 hn).1 h₁⟩
    · rintro ⟨h₀, h₁⟩
      have hn := hlt 1 h₁
      exact ⟨hn, (hsel 0 (by omega)).2 h₀, (hsel 1 hn).2 h₁⟩
  rw [hex, hfirst]

/-- **`suffix_match`**, of a word that is not UTF-8: nothing ends with it, so
nothing may compare equal. -/
theorem suffixMatch_other_iff (hs : ¬ ∃ t : Utf8Text, s = t.bytes) :
    (∀ bsearch qsort, Finds bsearch → Permutes qsort →
        ∃ r, suffixMatch bsearch qsort sufIndex s = some r ∧
          (returned r).Nodup ∧ ∀ p, p ∈ returned r ↔ EndsWith index s p) ↔
      ∃ x, revertWord s = some x ∧ ∀ e ∈ sufIndex,
        ∃ rc, comparePrefix ⟨x, s.length, utf8Strlen s, 0, 0⟩ e.entry = some rc ∧ rc ≠ 0 := by
  have hends : ∀ p, ¬ EndsWith index s p := by
    rintro p ⟨e, -, t, ht, -⟩
    exact hs ⟨t, ht⟩
  constructor
  · intro h
    obtain ⟨r, hr, -, hmem⟩ := h _ id Bsearch.finds_firstZero List.Perm.refl
    obtain ⟨x, hx, hr⟩ := Option.bind_eq_some_iff.1 hr
    obtain ⟨rcs, hrcs, hr⟩ := Option.bind_eq_some_iff.1 hr
    refine ⟨x, hx, Bsearch.ne_zero_of_firstZero hrcs ?_⟩
    dsimp only at hr
    cases hk : Bsearch.firstZero sufIndex.length (fun i => rcs.getD i 0) with
    | none => rfl
    | some k =>
      -- what is found is in the run, so it is returned
      obtain ⟨hkn, -⟩ := Bsearch.finds_firstZero.sound _ _ _ hk
      rw [hk] at hr
      obtain rfl := Option.some.inj hr
      refine absurd ((hmem _).1 ?_) (hends sufIndex[k].peer)
      rw [returned, id_eq]
      refine List.mem_map_of_mem (List.mem_filterMap.2 ⟨k, ?_, List.getElem?_eq_getElem hkn⟩)
      exact Bsearch.self_mem_extend hkn
  · rintro ⟨x, hx, hall⟩ bsearch qsort hbs -
    obtain ⟨rcs, hrcs, hnone⟩ := Bsearch.exists_mapM_none hall
    refine ⟨none, ?_, List.nodup_nil, fun p => iff_of_false List.not_mem_nil (hends p)⟩
    simp only [suffixMatch, hx, hrcs, Option.bind_eq_bind, Option.bind_some, hnone bsearch hbs]

/-- Any other word. -/
theorem otherAgree_iff (hsort : Sorted index) (hs : ¬ ∃ t : Utf8Text, s = t.bytes) :
    MatchersAgree index sufIndex s ↔ OtherFind index sufIndex s := by
  rw [MatchersAgree, suffixMatch_other_iff hs]
  constructor
  · rintro ⟨hexact, hprefix, hsuffix⟩
    obtain ⟨r, hr, -⟩ := hexact _ Bsearch.finds_bisect
    obtain ⟨rcs, hrcs, -⟩ := Option.bind_eq_some_iff.1 hr
    have hset := Bsearch.forall_of_mapM hrcs
    obtain ⟨r', hr', -⟩ := hprefix _ Bsearch.finds_bisect
    obtain ⟨rcs', hrcs', -⟩ := Option.bind_eq_some_iff.1 hr'
    have hset' := Bsearch.forall_of_mapM hrcs'
    obtain ⟨hequal, hfirst⟩ := (prefixMatch_other_iff hset').1 hprefix
    exact ⟨hset, (exactMatch_iff hsort hset).1 hexact, hset', hequal, hfirst, hsuffix⟩
  · intro h
    exact ⟨(exactMatch_iff hsort h.exactSet).2 h.single,
      (prefixMatch_other_iff h.startSet).2 ⟨h.start, h.startFirst⟩, h.tail⟩

end Other

/-- **The matchers of the outline module.** For every index of UTF-8
headwords that is sorted, its suffix index and every word: the three matchers
return just the entries they are asked for, whatever `bsearch` returns, just
if `MatchersFind`. -/
theorem matchersAgree_iff (index : List Entry) (sufIndex : List SufEntry) (word : Bytes)
    (htext : IsText index) (hsort : Sorted index) (hindex : IsSuffixIndex index sufIndex) :
    MatchersAgree index sufIndex word ↔ MatchersFind index sufIndex word := by
  by_cases hword : ∃ t : Utf8Text, word = t.bytes
  · obtain ⟨t, rfl⟩ := hword
    rw [textAgree_iff htext hsort hindex, MatchersFind, Utf8Text.or_other_iff]
  · rw [otherAgree_iff hsort hword, MatchersFind, other_or_iff hword]

/-- Entries without articles. -/
def wordsIndex (ws : List String) : List Entry := ws.map fun w => allocEntry (ascii w)

/-- A word in ASCII letters. -/
def feed : Utf8Text where
  chars := ['f', 'e', 'e', 'd']
  null_notMem := by decide

/-- Two words, one of them the word looked for. -/
theorem matchersAgree_feed :
    MatchersAgree (wordsIndex ["cat", "feed"])
        [⟨allocEntry (ascii "deef"), 1⟩, ⟨allocEntry (ascii "tac"), 0⟩] feed.bytes ↔
      MatchersFind (wordsIndex ["cat", "feed"])
        [⟨allocEntry (ascii "deef"), 1⟩, ⟨allocEntry (ascii "tac"), 0⟩] feed.bytes := by
  refine matchersAgree_iff _ _ _ ?_ ?_ ?_
  · exact List.forall_mem_cons.2
      ⟨⟨⟨['c', 'a', 't'], by decide⟩, by decide +kernel, by decide +kernel⟩,
        List.forall_mem_singleton.2 ⟨feed, by decide +kernel, by decide +kernel⟩⟩
  · exact List.pairwise_pair.2 ⟨-1, by decide +kernel, by decide⟩
  · exact ⟨_, by decide +kernel, List.Perm.swap _ _ _,
      List.pairwise_pair.2 ⟨-1, by decide +kernel, by decide⟩⟩

/-- **Of two entries with one headword, one is returned.** -/
theorem not_forall_matchersAgree :
    ¬ ∀ (index : List Entry) (sufIndex : List SufEntry) (word : Bytes), word ≠ [] →
      IsText index → Sorted index → IsSuffixIndex index sufIndex →
      MatchersAgree index sufIndex word := by
  intro h
  have htext : IsText (wordsIndex ["feed", "feed"]) :=
    List.forall_mem_cons.2 ⟨⟨feed, by decide +kernel, by decide +kernel⟩,
      List.forall_mem_singleton.2 ⟨feed, by decide +kernel, by decide +kernel⟩⟩
  have hsort : Sorted (wordsIndex ["feed", "feed"]) :=
    List.pairwise_pair.2 ⟨0, by decide +kernel, le_rfl⟩
  have hindex : IsSuffixIndex (wordsIndex ["feed", "feed"])
      [⟨allocEntry (ascii "deef"), 0⟩, ⟨allocEntry (ascii "deef"), 1⟩] :=
    ⟨_, by decide +kernel, List.Perm.refl _, List.pairwise_pair.2 ⟨0, by decide +kernel, le_rfl⟩⟩
  obtain ⟨hexact, -⟩ := h _ _ feed.bytes (by decide) htext hsort hindex
  obtain ⟨r, hr, -, hmem⟩ := hexact _ Bsearch.finds_bisect
  have hrun : exactMatch Bsearch.bisect (wordsIndex ["feed", "feed"]) feed.bytes =
      some (some (.run 1 1)) := by decide +kernel
  rw [hrun] at hr
  obtain rfl := Option.some.inj hr
  exact absurd ((hmem 0).2 ⟨_, rfl, by decide +kernel⟩) (by decide)

end Matchers

end Outline

end Dico
