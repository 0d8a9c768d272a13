import Dico.DictOrg.Define
/-!
# The prefix strategy

`prefix_match` is the fast way to what `_match_all` does with
`prefix_sel`. Both ask the same of a headword, but `bsearch` is told with
`compare_prefix` where to look, and `compare_prefix` places a headword
that is shorter than the word behind it, wherever it stands in the index.
-/

namespace Dico

namespace DictOrg

open Bsearch (Finds Partitioned zeros extend)

/-! ## Lists without adjacent duplicates -/

section Lists

variable {db : DictDb} {l acc : List ℕ}

/-- A comparison of entries of a sorted index has a result. -/
theorem exists_comparePositions (hsort : db.Sorted) {p q : ℕ} (hpq : p < q)
    (hq : q < db.index.length) : ∃ rc, comparePositions db p q = some rc := by
  obtain ⟨rc, hrc, -⟩ := List.pairwise_iff_getElem.1 hsort p q (by omega) hq hpq
  refine ⟨rc, ?_⟩
  rw [comparePositions, List.getElem?_eq_getElem (by omega), List.getElem?_eq_getElem hq]
  exact hrc

/-- Entries appended in the order of a sorted index: the list that there
was is the beginning of the list that there is. -/
theorem exists_foldlM_appendTail (hsort : db.Sorted) (hl : l.Pairwise (· < ·))
    (hlt : ∀ p ∈ l, p < db.index.length) (hacc : ∀ q ∈ acc.getLast?, ∀ p ∈ l, q < p) :
    ∃ list, l.foldlM (appendTail (comparePositions db)) acc = some list ∧ acc <+: list := by
  induction l generalizing acc with
  | nil => exact ⟨acc, rfl, List.prefix_refl acc⟩
  | cons p l ih =>
    obtain ⟨hp, hl⟩ := List.pairwise_cons.1 hl
    obtain ⟨hpn, hlt⟩ := List.forall_mem_cons.1 hlt
    have hstep : ∃ acc', appendTail (comparePositions db) acc p = some acc' ∧ acc <+: acc' ∧
        ∀ q ∈ acc'.getLast?, ∀ p' ∈ l, q < p' := by
      have hnew : ∀ q ∈ (acc ++ [p]).getLast?, ∀ p' ∈ l, q < p' := by
        intro q hq p' hp'
        rw [List.getLast?_append_of_ne_nil _ (List.cons_ne_nil p [])] at hq
        obtain rfl : p = q := Option.some.inj hq
        exact hp p' hp'
      rw [appendTail]
      cases hlast : acc.getLast? with
      | none => exact ⟨acc ++ [p], rfl, List.prefix_append acc [p], hnew⟩
      | some q =>
        obtain ⟨rc, hrc⟩ := exists_comparePositions hsort (hacc q hlast p List.mem_cons_self) hpn
        refine ⟨_, by dsimp only; rw [hrc]; rfl, ?_⟩
        split_ifs
        · refine ⟨List.prefix_refl acc, fun q' hq' p' hp' => ?_⟩
          exact hacc q' hq' p' (List.mem_cons_of_mem p hp')
        · exact ⟨List.prefix_append acc [p], hnew⟩
    obtain ⟨acc', hacc', hpre, hlast⟩ := hstep
    obtain ⟨list, hlist, hpre'⟩ := ih hl hlt hlast
    refine ⟨list, ?_, hpre.trans hpre'⟩
    rw [List.foldlM_cons, hacc', Option.bind_eq_bind, Option.bind_some, hlist]

/-- The first entry is always listed. -/
theorem exists_unique (hsort : db.Sorted) (hl : l.Pairwise (· < ·))
    (hlt : ∀ p ∈ l, p < db.index.length) :
    ∃ list, l.foldlM (appendTail (comparePositions db)) [] = some list ∧
      list.head? = l.head? := by
  cases l with
  | nil => exact ⟨[], rfl, rfl⟩
  | cons p l =>
    obtain ⟨hp, hl⟩ := List.pairwise_cons.1 hl
    obtain ⟨list, hlist, ⟨r, hr⟩⟩ := @exists_foldlM_appendTail db l [p] hsort hl
      (List.forall_mem_cons.1 hlt).2 fun q hq p' hp' => by
        obtain rfl : p = q := Option.some.inj hq
        exact hp p' hp'
    exact ⟨list, hlist, by rw [← hr]; rfl⟩

/-- Where the first entry is among some entries in order, it is the first
of them. -/
theorem head?_of_zero_mem (hl : l.Pairwise (· < ·)) (h : 0 ∈ l) : l.head? = some 0 := by
  cases l with
  | nil => cases h
  | cons p l =>
    rcases List.mem_cons.1 h with rfl | h
    · rfl
    · have := (List.pairwise_cons.1 hl).1 0 h
      omega

/-- What is listed was appended. -/
theorem mem_of_foldlM_appendTail {list : List ℕ} {p : ℕ}
    (h : l.foldlM (appendTail (comparePositions db)) acc = some list) (hp : p ∈ list) :
    p ∈ acc ∨ p ∈ l := by
  induction l generalizing acc with
  | nil =>
    obtain rfl := Option.some.inj h
    exact .inl hp
  | cons q l ih =>
    rw [List.foldlM_cons, Option.bind_eq_bind, Option.bind_eq_some_iff] at h
    obtain ⟨acc', hacc', h⟩ := h
    have hsub : ∀ x ∈ acc', x ∈ acc ∨ x = q := by
      intro x hx
      have hnew : x ∈ acc ++ [q] → x ∈ acc ∨ x = q := by
        rw [List.mem_append, List.mem_singleton]
        exact id
      rw [appendTail] at hacc'
      cases hlast : acc.getLast? with
      | none =>
        rw [hlast] at hacc'
        obtain rfl := Option.some.inj hacc'
        exact hnew hx
      | some r =>
        rw [hlast] at hacc'
        obtain ⟨rc, -, hacc'⟩ := Option.bind_eq_some_iff.1 hacc'
        obtain rfl := Option.some.inj hacc'
        split_ifs at hx
        · exact .inl hx
        · exact hnew hx
    rcases ih h with hmem | hmem
    · rcases hsub p hmem with hmem | rfl
      · exact .inl hmem
      · exact .inr List.mem_cons_self
    · exact .inr (List.mem_cons_of_mem q hmem)

end Lists

/-! ## Fast and exhaustive -/

section Prefix

variable (db : DictDb) (word : Utf8Text)

/-- The lengths in the index are those of its words, as the loader
computes them. -/
def DictDb.Loaded : Prop := ∀ e ∈ db.index, utf8Strlen e.word = some e.wordlen

/-- The key of a search for the word. -/
def prefixKey : IndexEntry := ⟨word.bytes, word.bytes.length, word.codes.length, 0, 0⟩

/-- No comparison of the word looks at a character that is cut off. -/
def PrefixComparable : Prop := ∀ e ∈ db.index, ∃ rc, comparePrefix (prefixKey word) e = some rc

/-- What is asked of `prefix_match`: it has the result of `_match_all`. -/
def MatchesAll (bsearch : ℕ → (ℕ → ℤ) → Option ℕ) : Prop :=
  ∃ r, prefixMatch bsearch db word.bytes = some r ∧ matchAll prefixSel db word.bytes = some r

/-- Whether the entry at a position begins with the word. -/
def DictDb.begins (p : ℕ) : Bool := db.zeroAt (comparePrefix (prefixKey word)) p

/-- The index is in three parts for `compare_prefix`: no headword that it
places behind the word stands before one that it does not. -/
def PrefixParted : Prop :=
  db.index.Pairwise fun a b => ∀ rca rcb, comparePrefix (prefixKey word) a = some rca →
    comparePrefix (prefixKey word) b = some rcb → (0 ≤ rcb → 0 ≤ rca) ∧ (0 < rcb → 0 < rca)

/-- Nothing begins with the word, or else: the index is in three parts,
the first entry does not begin with the word together with the second
unless it is reserved, and some entry that does is not reserved. -/
def PrefixFound : Prop :=
  (∀ p, db.begins word p = false) ∨
    PrefixParted db word ∧
    ¬ (db.begins word 0 = true ∧ db.begins word 1 = true ∧ db.shown 0 = true) ∧
    ∃ p, db.begins word p = true ∧ db.shown p = true

variable {db word} {cmp : ℕ → ℤ}

/-- The key is the one `common_match` makes. -/
theorem searchKey_bytes : searchKey word.bytes = some (prefixKey word) := by
  rw [searchKey, utf8Strlen_bytes]
  rfl

/-- Where the comparisons are defined, they are there by position. -/
theorem PrefixComparable.compared (h : PrefixComparable db word) :
    ∃ cmp, Compared db word.bytes comparePrefix cmp ∧
      ∀ p e, db.index[p]? = some e → comparePrefix (prefixKey word) e = some (cmp p) := by
  obtain ⟨rcs, hrcs⟩ := Bsearch.exists_mapM h
  exact ⟨fun p => rcs.getD p 0, ⟨prefixKey word, rcs, searchKey_bytes, hrcs, rfl⟩,
    fun p e he => Bsearch.getD_of_mapM hrcs he⟩

section Positions

variable (hcmp : ∀ p e, db.index[p]? = some e → comparePrefix (prefixKey word) e = some (cmp p))

include hcmp

/-- The parts are those of the positions. -/
theorem prefixParted_iff : PrefixParted db word ↔ Partitioned db.index.length cmp :=
  Bsearch.pairwise_iff_partitioned hcmp

/-- **`prefix_sel` and `compare_prefix` agree on every headword.** -/
theorem prefixSel_run (hload : db.Loaded) {p : ℕ} {e : IndexEntry} (he : db.index[p]? = some e) :
    (prefixSel .run ⟨word.bytes, .length word.codes.length⟩ e.word).map Prod.fst =
      some (decide (cmp p = 0)) := by
  have hrc := hcmp p e he
  have hlen := hload e (List.mem_of_getElem? he)
  rw [comparePrefix] at hrc
  simp only [prefixSel, hlen, Option.bind_eq_bind, Option.bind_some]
  rcases Nat.lt_or_ge e.wordlen word.codes.length with hlt | hge
  · rw [if_pos (by exact hlt)] at hrc
    rw [if_neg (by omega), ← Option.some.inj hrc]
    rfl
  · rw [if_neg (by exact not_lt.2 hge)] at hrc
    have hback : utf8Strncasecmp e.word word.bytes word.codes.length = some (-cmp p) :=
      utf8Strncasecmp_swap hrc
    rw [if_pos hge, hback, Option.bind_some, Option.map_some]
    congr 1
    rw [Bool.eq_iff_iff, beq_iff_eq, decide_eq_true_iff]
    omega

/-- What `_match_all` finds: the entries that begin with the word and are
not reserved. -/
theorem matchAll_eq (hload : db.Loaded) :
    matchAll prefixSel db word.bytes =
      (((zeros db.index.length cmp).filter db.shown).foldlM
        (appendTail (comparePositions db)) []).map fun list =>
          if list = [] then none else some list := by
  have hanswer : ∀ p e, db.index[p]? = some e →
      (if reservedWord db e.word then some false
        else (prefixSel .run ⟨word.bytes, .length word.codes.length⟩ e.word).map Prod.fst) =
        some (decide (cmp p = 0) && db.shown p) := by
    intro p e he
    rw [DictDb.shown, he, prefixSel_run hcmp hload he]
    dsimp only
    cases reservedWord db e.word with
    | true => rw [if_pos rfl, Bool.not_true, Bool.and_false]
    | false => rw [if_neg Bool.false_ne_true, Bool.not_false, Bool.and_true]
  obtain ⟨answers, hanswers⟩ := Bsearch.exists_mapM (l := db.index) (f := fun e =>
    if reservedWord db e.word then some false
    else (prefixSel .run ⟨word.bytes, .length word.codes.length⟩ e.word).map Prod.fst) (by
      intro e he
      obtain ⟨p, hp⟩ := List.mem_iff_getElem?.1 he
      exact ⟨_, hanswer p e hp⟩)
  have hfilter : (List.range db.index.length).filter (fun p => answers.getD p false) =
      (zeros db.index.length cmp).filter db.shown := by
    rw [zeros, List.filter_filter]
    refine List.filter_congr fun p hp => ?_
    have he := List.getElem?_eq_getElem (List.mem_range.1 hp)
    have hget := (Bsearch.getElem?_of_mapM hanswers).2 p
    rw [he, Option.bind_some, hanswer p _ he] at hget
    rw [List.getD_eq_getElem?_getD, hget, Option.getD_some, Bool.and_comm]
  have hbegin : prefixSel .begin ⟨word.bytes, .null⟩ word.bytes =
      some (false, ⟨word.bytes, .length word.codes.length⟩) := by
    simp only [prefixSel, utf8Strlen_bytes, Option.bind_eq_bind, Option.bind_some]
  simp only [matchAll, hbegin, Option.bind_eq_bind, Option.bind_some, hanswers, hfilter]
  rw [Option.map_eq_bind]
  rfl

end Positions

/-- Where there is something to find, the results are the same just if the
exhaustive search finds something, and the fast one the same list. -/
theorem forall_matchesAll_iff (hcompared : Compared db word.bytes comparePrefix cmp)
    (hex : ∃ p < db.index.length, cmp p = 0) {list : List ℕ}
    (hall : matchAll prefixSel db word.bytes = some (if list = [] then none else some list)) :
    (∀ bsearch, Finds bsearch → MatchesAll db word bsearch) ↔
      list ≠ [] ∧ ∀ bsearch, Finds bsearch → ∃ k, bsearch db.index.length cmp = some k ∧
        ((extend db.index.length cmp k).filter db.shown).foldlM
          (appendTail (comparePositions db)) [] = some list := by
  constructor
  · intro h
    have hne : list ≠ [] := by
      rintro rfl
      obtain ⟨r, hr, hr'⟩ := h _ Bsearch.finds_lastZero
      obtain ⟨p, hp, hzero⟩ := hex
      obtain ⟨k, hk, -⟩ := Bsearch.exists_lastZero hp hzero
      rw [hall, if_pos rfl] at hr'
      rw [prefixMatch, commonMatch_unique hcompared hk, ← Option.some.inj hr',
        Option.map_eq_some_iff] at hr
      obtain ⟨l, -, hl⟩ := hr
      cases hl
    refine ⟨hne, fun bsearch hbs => ?_⟩
    obtain ⟨r, hr, hr'⟩ := h bsearch hbs
    rw [hall, if_neg hne] at hr'
    rw [prefixMatch, ← Option.some.inj hr'] at hr
    cases hk : bsearch db.index.length cmp with
    | none =>
      rw [commonMatch_none hcompared hk] at hr
      cases hr
    | some k =>
      rw [commonMatch_unique hcompared hk, Option.map_eq_some_iff] at hr
      obtain ⟨l, hl, hsome⟩ := hr
      exact ⟨k, rfl, hl.trans hsome⟩
  · rintro ⟨hne, h⟩ bsearch hbs
    obtain ⟨k, hk, hl⟩ := h bsearch hbs
    refine ⟨some list, ?_, by rw [hall, if_neg hne]⟩
    rw [prefixMatch, commonMatch_unique hcompared hk, hl]
    rfl

/-- **The prefix strategy.** For every index that is sorted and every word
of UTF-8: whatever `bsearch` returns, `prefix_match` has the result of
`_match_all`, just if `PrefixFound`. -/
theorem matchesAll_iff (db : DictDb) (word : Utf8Text) (hsort : db.Sorted) (hload : db.Loaded)
    (hdef : PrefixComparable db word) :
    (∀ bsearch, Finds bsearch → MatchesAll db word bsearch) ↔ PrefixFound db word := by
  obtain ⟨cmp, hcompared, hcmp⟩ := hdef.compared
  have hsorted : ((zeros db.index.length cmp).filter db.shown).Pairwise (· < ·) :=
    Bsearch.pairwise_zeros.filter _
  have hlt : ∀ p ∈ (zeros db.index.length cmp).filter db.shown, p < db.index.length :=
    fun p hp => (Bsearch.mem_zeros.1 (List.mem_filter.1 hp).1).1
  obtain ⟨list, hlist, hhead⟩ := exists_unique hsort hsorted hlt
  have hall := matchAll_eq hcmp hload
  rw [hlist, Option.map_some] at hall
  have hnil : list = [] ↔ (zeros db.index.length cmp).filter db.shown = [] := by
    rw [← List.head?_eq_none_iff, hhead, List.head?_eq_none_iff]
  rw [PrefixFound, prefixParted_iff hcmp]
  by_cases hex : ∃ p < db.index.length, cmp p = 0
  · have hsome : ¬ ∀ p, db.begins word p = false := by
      intro h
      obtain ⟨p, hp, hzero⟩ := hex
      have := (zeroAt_iff hcmp).2 ⟨hp, hzero⟩
      exact Bool.false_ne_true ((h p).symm.trans this)
    have hne : list ≠ [] ↔ ∃ p, db.begins word p = true ∧ db.shown p = true := by
      rw [Ne, hnil]
      constructor
      · intro h
        obtain ⟨p, hp⟩ := List.exists_mem_of_ne_nil _ h
        obtain ⟨hzero, hshown⟩ := List.mem_filter.1 hp
        exact ⟨p, (zeroAt_iff hcmp).2 (Bsearch.mem_zeros.1 hzero), hshown⟩
      · rintro ⟨p, hbegins, hshown⟩
        exact List.ne_nil_of_mem
          (List.mem_filter.2 ⟨Bsearch.mem_zeros.2 ((zeroAt_iff hcmp).1 hbegins), hshown⟩)
    have hrun := @Bsearch.forall_extend_iff db.index.length cmp _
      (fun l => l.foldlM (appendTail (comparePositions db)) []) db.shown (by
        intro hmem l hl heq
        rw [hlist] at heq
        have hfirst : list.head? = some 0 := by rw [hhead, head?_of_zero_mem hsorted hmem]
        rcases mem_of_foldlM_appendTail heq (List.mem_of_head? hfirst) with h | h
        · exact List.not_mem_nil h
        · exact hl h)
    simp only [hlist] at hrun
    rw [forall_matchesAll_iff hcompared hex hall, hne, hrun, or_iff_right hsome,
      and_iff_right hex, ← first_zeroAt_iff hcmp]
    exact ⟨fun h => ⟨h.2.1, h.2.2, h.1⟩, fun h => ⟨h.2.2, h.1, h.2.1⟩⟩
  · -- neither search finds anything
    have hnone : ∀ p, db.begins word p = false := by
      intro p
      rw [Bool.eq_false_iff]
      exact fun h => hex ⟨p, (zeroAt_iff hcmp).1 h⟩
    have hlistnil : list = [] := by
      rw [hnil, List.filter_eq_nil_iff]
      exact fun p hp => absurd ⟨p, Bsearch.mem_zeros.1 hp⟩ hex
    refine iff_of_true (fun bsearch hbs => ⟨none, ?_, ?_⟩) (.inl hnone)
    · exact commonMatch_none hcompared (hbs.eq_none hex)
    · rw [hall, if_pos hlistnil]

/-- Entries with their words, of one byte a character. -/
def wordsDb (ws : List String) : DictDb where
  index := ws.map fun w => ⟨ascii w, w.length, w.length, 0, 1⟩
  showDictorgEntries := false

/-- A word in ASCII letters. -/
def cat : Utf8Text where
  chars := ['c', 'a', 't']
  null_notMem := by decide

/-- An index in which no headword is shorter than the word. -/
theorem matchesAll_wordsDb :
    (∀ bsearch, Finds bsearch → MatchesAll (wordsDb ["bat", "cats"]) cat bsearch) ↔
      PrefixFound (wordsDb ["bat", "cats"]) cat := by
  refine matchesAll_iff _ _ ?_ ?_ ?_
  · exact List.pairwise_pair.2 ⟨-1, by decide +kernel, by decide⟩
  · exact List.forall_mem_cons.2
      ⟨by decide +kernel, List.forall_mem_singleton.2 (by decide +kernel)⟩
  · exact List.forall_mem_cons.2
      ⟨⟨1, by decide +kernel⟩, List.forall_mem_singleton.2 ⟨0, by decide +kernel⟩⟩

/-- **A short headword misleads the search.** Looking for `cat` among `a`,
`b` and `cat`, it looks at `b` first, and then to the left. -/
theorem not_forall_matchesAll :
    ¬ ∀ (db : DictDb) (word : Utf8Text), word.chars ≠ [] → db.Sorted → db.Loaded →
      PrefixComparable db word → ∀ bsearch, Finds bsearch → MatchesAll db word bsearch := by
  intro h
  have hsort : (wordsDb ["a", "b", "cat"]).Sorted :=
    List.pairwise_cons.2 ⟨List.forall_mem_cons.2 ⟨⟨-1, by decide +kernel, by decide⟩,
      List.forall_mem_singleton.2 ⟨-1, by decide +kernel, by decide⟩⟩,
      List.pairwise_pair.2 ⟨-1, by decide +kernel, by decide⟩⟩
  have hload : (wordsDb ["a", "b", "cat"]).Loaded :=
    List.forall_mem_cons.2 ⟨by decide +kernel, List.forall_mem_cons.2 ⟨by decide +kernel,
      List.forall_mem_singleton.2 (by decide +kernel)⟩⟩
  have hdef : PrefixComparable (wordsDb ["a", "b", "cat"]) cat :=
    List.forall_mem_cons.2 ⟨⟨-1, by decide +kernel⟩, List.forall_mem_cons.2
      ⟨⟨-1, by decide +kernel⟩, List.forall_mem_singleton.2 ⟨0, by decide +kernel⟩⟩⟩
  obtain ⟨r, hr, hr'⟩ := h _ _ (by decide) hsort hload hdef Bsearch.bisect Bsearch.finds_bisect
  have hfast : prefixMatch Bsearch.bisect (wordsDb ["a", "b", "cat"]) cat.bytes = some none := by
    decide +kernel
  have hall : matchAll prefixSel (wordsDb ["a", "b", "cat"]) cat.bytes = some (some [2]) := by
    decide +kernel
  rw [hfast] at hr
  rw [hall] at hr'
  cases hr.trans hr'.symm

end Prefix

end DictOrg

end Dico
