import Dico.DictOrg.Model
/-!
# The articles of a word

`DEFINE` wants all entries equal to a word. They are a run of the index,
`bsearch` returns one of them, and `common_match` takes what is around it:
but of a run that begins at the first entry, the first entry only if it is
the one `bsearch` returned.
-/

namespace Dico

namespace DictOrg

open Bsearch (Finds Partitioned zeros extend)

/-! ## The search, in terms of positions -/

/-- The comparisons of the word with the entries, by position. -/
def Compared (db : DictDb) (word : Bytes) (compare : IndexEntry → IndexEntry → Option ℤ)
    (cmp : ℕ → ℤ) : Prop :=
  ∃ x rcs, searchKey word = some x ∧ db.index.mapM (compare x) = some rcs ∧
    cmp = fun p => rcs.getD p 0

section Search

variable {bsearch : ℕ → (ℕ → ℤ) → Option ℕ} {db : DictDb} {word : Bytes}
variable {compare : IndexEntry → IndexEntry → Option ℤ} {cmp : ℕ → ℤ}

/-- Where `bsearch` finds nothing. -/
theorem commonMatch_none (h : Compared db word compare cmp) {unique : Bool}
    (hnone : bsearch db.index.length cmp = none) :
    commonMatch bsearch db word compare unique = some none := by
  obtain ⟨x, rcs, hx, hrcs, rfl⟩ := h
  simp only [commonMatch, hx, hrcs, Option.bind_eq_bind, Option.bind_some, hnone]

/-- Where it finds something, and duplicates are kept. -/
theorem commonMatch_some (h : Compared db word compare cmp) {k : ℕ}
    (hk : bsearch db.index.length cmp = some k) :
    commonMatch bsearch db word compare false =
      some (some ((extend db.index.length cmp k).filter db.shown)) := by
  obtain ⟨x, rcs, hx, hrcs, rfl⟩ := h
  simp only [commonMatch, hx, hrcs, Option.bind_eq_bind, Option.bind_some, hk, Bool.false_eq_true,
    if_false]

/-- And where they are dropped. -/
theorem commonMatch_unique (h : Compared db word compare cmp) {k : ℕ}
    (hk : bsearch db.index.length cmp = some k) :
    commonMatch bsearch db word compare true =
      (((extend db.index.length cmp k).filter db.shown).foldlM
        (appendTail (comparePositions db)) []).map some := by
  obtain ⟨x, rcs, hx, hrcs, rfl⟩ := h
  simp only [commonMatch, hx, hrcs, Option.bind_eq_bind, Option.bind_some, hk, if_true]
  rw [Option.map_eq_bind]
  rfl

/-- Whether a comparison is zero at the entry at a position. -/
def DictDb.zeroAt (db : DictDb) (f : IndexEntry → Option ℤ) (p : ℕ) : Bool :=
  match db.index[p]? with
  | some e => f e == some 0
  | none => false

section Positions

variable {f : IndexEntry → Option ℤ} (hcmp : ∀ p e, db.index[p]? = some e → f e = some (cmp p))

include hcmp

/-- It is zero where the comparison by position is. -/
theorem zeroAt_iff {p : ℕ} : db.zeroAt f p = true ↔ p < db.index.length ∧ cmp p = 0 := by
  rw [DictDb.zeroAt]
  cases he : db.index[p]? with
  | none =>
    rw [List.getElem?_eq_none_iff] at he
    exact iff_of_false Bool.false_ne_true fun h => by omega
  | some e =>
    obtain ⟨hlt, -⟩ := List.getElem?_eq_some_iff.1 he
    dsimp only
    rw [hcmp p e he, beq_iff_eq, Option.some.injEq]
    exact ⟨fun h => ⟨hlt, h⟩, fun h => h.2⟩

/-- The first two entries compare equal, and the first is shown. -/
theorem first_zeroAt_iff :
    (db.zeroAt f 0 = true ∧ db.zeroAt f 1 = true ∧ db.shown 0 = true) ↔
      1 < db.index.length ∧ cmp 0 = 0 ∧ cmp 1 = 0 ∧ db.shown 0 = true := by
  rw [zeroAt_iff hcmp, zeroAt_iff hcmp]
  exact ⟨fun h => ⟨h.2.1.1, h.1.2, h.2.1.2, h.2.2⟩,
    fun h => ⟨⟨by omega, h.2.1⟩, ⟨h.1, h.2.2.1⟩, h.2.2.2⟩⟩

/-- The entries it is zero at that are shown. -/
theorem filter_zeros :
    (zeros db.index.length cmp).filter db.shown =
      (List.range db.index.length).filter fun p => db.zeroAt f p && db.shown p := by
  rw [zeros, List.filter_filter]
  refine List.filter_congr fun p hp => ?_
  rw [Bool.and_comm]
  congr 1
  rw [Bool.eq_iff_iff, zeroAt_iff hcmp, decide_eq_true_iff]
  exact ⟨fun h => ⟨List.mem_range.1 hp, h⟩, fun h => h.2⟩

end Positions

end Search

/-! ## Equal entries -/

section Define

variable (db : DictDb) (word : Bytes)

/-- The index is sorted by `compare_entry`. -/
def DictDb.Sorted : Prop :=
  db.index.Pairwise fun epa epb => ∃ rc, compareEntry epa epb = some rc ∧ rc ≤ 0

/-- No comparison of the word looks at a character that is cut off, and
the word is not cut off itself. -/
def Comparable : Prop :=
  (∃ n, utf8Strlen word = some n) ∧ ∀ e ∈ db.index, ∃ rc, utf8Strcasecmp word e.word = some rc

/-- Whether the entry at a position equals the word. -/
def DictDb.equals (p : ℕ) : Bool := db.zeroAt (fun e => utf8Strcasecmp word e.word) p

/-- What is asked of `common_match` for `DEFINE`: it succeeds just if an
entry equals the word, and then the list is all entries that do and are
not reserved, in the order of the index. -/
def DefinesAll (bsearch : ℕ → (ℕ → ℤ) → Option ℕ) : Prop :=
  ∃ r, commonMatch bsearch db word compareEntry false = some r ∧
    (r ≠ none ↔ ∃ e ∈ db.index, utf8Strcasecmp word e.word = some 0) ∧
    ∀ list, r = some list →
      list = (List.range db.index.length).filter fun p => db.equals word p && db.shown p

/-- The first two entries equal the word, and the first is not reserved. -/
def FirstLost : Prop := db.equals word 0 = true ∧ db.equals word 1 = true ∧ db.shown 0 = true

variable {db word} {cmp : ℕ → ℤ}

/-- Where the comparisons are defined, they are there by position. -/
theorem Comparable.compared (h : Comparable db word) :
    ∃ cmp, Compared db word compareEntry cmp ∧
      ∀ p e, db.index[p]? = some e → utf8Strcasecmp word e.word = some (cmp p) := by
  obtain ⟨⟨n, hn⟩, hcmp⟩ := h
  obtain ⟨rcs, hrcs⟩ := Bsearch.exists_mapM (f := compareEntry ⟨word, word.length, n, 0, 0⟩) hcmp
  refine ⟨fun p => rcs.getD p 0, ⟨⟨word, word.length, n, 0, 0⟩, rcs, ?_, hrcs, rfl⟩, ?_⟩
  · rw [searchKey, hn]
    rfl
  · intro p e he
    exact Bsearch.getD_of_mapM hrcs he

/-- Some entry equals the word just if some comparison is zero. -/
theorem exists_equal_iff
    (hcmp : ∀ p e, db.index[p]? = some e → utf8Strcasecmp word e.word = some (cmp p)) :
    (∃ e ∈ db.index, utf8Strcasecmp word e.word = some 0) ↔ ∃ p < db.index.length, cmp p = 0 := by
  constructor
  · rintro ⟨e, he, hzero⟩
    obtain ⟨p, hp⟩ := List.mem_iff_getElem?.1 he
    refine ⟨p, (List.getElem?_eq_some_iff.1 hp).1, ?_⟩
    have := hcmp p e hp
    rw [hzero] at this
    exact (Option.some.inj this).symm
  · rintro ⟨p, hp, hzero⟩
    refine ⟨db.index[p], List.getElem_mem hp, ?_⟩
    rw [hcmp p _ (List.getElem?_eq_getElem hp), hzero]

/-- **The articles of a word.** For every index that is sorted and every
word: whatever `bsearch` returns, `common_match` does what is asked of it,
just if it is not the case that the first two entries equal the word and
the first is not reserved. -/
theorem definesAll_iff (db : DictDb) (word : Bytes) (hsort : db.Sorted)
    (hdef : Comparable db word) :
    (∀ bsearch, Finds bsearch → DefinesAll db word bsearch) ↔ ¬ FirstLost db word := by
  obtain ⟨cmp, hcompared, hcmp⟩ := hdef.compared
  have hp := partitioned_of_sorted hsort hcmp
  have hlost : FirstLost db word ↔
      1 < db.index.length ∧ cmp 0 = 0 ∧ cmp 1 = 0 ∧ db.shown 0 = true := first_zeroAt_iff hcmp
  by_cases hex : ∃ p < db.index.length, cmp p = 0
  · have hall := @Bsearch.forall_extend_iff db.index.length cmp _ id db.shown
      fun hmem l hl heq => hl (by rw [show l = _ from heq]; exact hmem)
    simp only [id_eq] at hall
    rw [and_iff_right hex, and_iff_right hp, ← hlost, filter_zeros hcmp] at hall
    rw [← hall]
    refine forall₂_congr fun bsearch hbs => ?_
    obtain ⟨p, hpn, hzero⟩ := hex
    obtain ⟨k, hk⟩ := Option.ne_none_iff_exists'.1 (hbs.complete _ _ p hp hpn hzero)
    rw [DefinesAll, commonMatch_some hcompared hk, exists_equal_iff hcmp]
    simp only [Option.some.injEq, exists_eq_left', hk, ne_eq, reduceCtorEq, not_false_eq_true,
      true_iff, forall_eq']
    exact and_iff_right ⟨p, hpn, hzero⟩
  · -- there is nothing to find, and nothing to lose
    refine iff_of_true (fun bsearch hbs => ?_) fun h => hex ⟨0, by have := (hlost.1 h).1; omega,
      (hlost.1 h).2.1⟩
    refine ⟨none, commonMatch_none hcompared (hbs.eq_none hex), ?_, fun list h => by cases h⟩
    rw [exists_equal_iff hcmp]
    exact iff_of_false (fun h => h rfl) hex

/-- Entries of one letter each, with articles of a byte. -/
def letters (ws : List String) : DictDb where
  index := ws.map fun w => ⟨ascii w, 1, 1, 0, 1⟩
  showDictorgEntries := false

/-- The index of two articles, and the word of the second. -/
theorem definesAll_letters :
    (∀ bsearch, Finds bsearch → DefinesAll (letters ["a", "b"]) (ascii "b") bsearch) ↔
      ¬ FirstLost (letters ["a", "b"]) (ascii "b") := by
  refine definesAll_iff _ _ ?_ ⟨⟨1, by decide +kernel⟩, ?_⟩
  · exact List.pairwise_pair.2 ⟨-1, by decide +kernel, by decide⟩
  · exact List.forall_mem_cons.2 ⟨⟨1, by decide +kernel⟩,
      List.forall_mem_singleton.2 ⟨0, by decide +kernel⟩⟩

/-- **The first of two articles is lost.** Halving, the search looks at the
second first. -/
theorem not_forall_definesAll :
    ¬ ∀ (db : DictDb) (word : Bytes), db.Sorted → Comparable db word →
      ∀ bsearch, Finds bsearch → DefinesAll db word bsearch := by
  intro h
  have hsort : (letters ["a", "a"]).Sorted :=
    List.pairwise_pair.2 ⟨0, by decide +kernel, le_rfl⟩
  have hdef : Comparable (letters ["a", "a"]) (ascii "a") := by
    refine ⟨⟨1, by decide +kernel⟩, fun e he => ⟨0, ?_⟩⟩
    rcases List.mem_cons.1 he with rfl | he
    · decide +kernel
    · rw [List.mem_singleton.1 he]
      decide +kernel
  obtain ⟨r, hr, -, hlist⟩ := h _ _ hsort hdef Bsearch.bisect Bsearch.finds_bisect
  have hrun : commonMatch Bsearch.bisect (letters ["a", "a"]) (ascii "a") compareEntry false =
      some (some [1]) := by decide +kernel
  rw [hrun] at hr
  exact absurd (hlist [1] (Option.some.inj hr).symm) (by decide +kernel)

end Define

end DictOrg

end Dico
