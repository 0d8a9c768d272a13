import Dico.DictOrg.Prefix
/-!
# The suffix strategy

`suffix_match` looks for the word backwards in an index of the words
backwards. It compares only as many characters as both words have, so that
a headword that is itself an end of the word compares equal to it; and of
a run that begins the index, it may lose the first entry. The list it
makes is without duplicates, so an entry that is lost is missed only if no
other in the run is equal to it.
-/

namespace Dico

namespace DictOrg

open Bsearch (Finds Partitioned extend)

/-! ## Sorted lists without duplicates -/

section Lists

variable {α : Type} {f : α → List ℕ} {compare : α → α → Option ℤ}

/-- One entry more: the list stays in order, and has an entry equal to
it. -/
theorem appendTail_sorted {acc : List α} {x : α}
    (hcmp : ∀ q ∈ acc, compare q x = some (lexSign (f q) (f x)))
    (hacc : acc.Pairwise fun p q => f p < f q) (hle : ∀ p ∈ acc, f p ≤ f x) :
    ∃ acc', appendTail compare acc x = some acc' ∧ (∀ p ∈ acc', p ∈ acc ++ [x]) ∧
      (∀ p ∈ acc ++ [x], ∃ q ∈ acc', f q = f p) ∧ acc'.Pairwise fun p q => f p < f q := by
  rw [appendTail]
  cases hlast : acc.getLast? with
  | none =>
    obtain rfl := List.getLast?_eq_none_iff.1 hlast
    exact ⟨[x], rfl, fun p hp => hp, fun p hp => ⟨p, hp, rfl⟩, List.pairwise_singleton _ _⟩
  | some q =>
    obtain ⟨r, rfl⟩ := List.getLast?_eq_some_iff.1 hlast
    have hq : q ∈ r ++ [q] := List.mem_append_right _ (List.mem_singleton_self q)
    refine ⟨_, by dsimp only; rw [hcmp q hq]; rfl, ?_⟩
    split_ifs with hzero
    · -- the last entry stands for the new one
      have heq := lexSign_eq_zero.1 hzero
      refine ⟨fun p hp => List.mem_append_left _ hp, fun p hp => ?_, hacc⟩
      rcases List.mem_append.1 hp with hp | hp
      · exact ⟨p, hp, rfl⟩
      · exact ⟨q, hq, by rw [List.mem_singleton.1 hp, heq]⟩
    · have hlt : f q < f x := lt_of_le_of_ne (hle q hq) fun heq => hzero (lexSign_eq_zero.2 heq)
      refine ⟨fun p hp => hp, fun p hp => ⟨p, hp, rfl⟩, List.pairwise_append.2
        ⟨hacc, List.pairwise_singleton _ _, fun p hp y hy => ?_⟩⟩
      rw [List.mem_singleton.1 hy]
      rcases List.mem_append.1 hp with hp | hp
      · exact ((List.pairwise_append.1 hacc).2.2 p hp q (List.mem_singleton_self q)).trans hlt
      · rw [List.mem_singleton.1 hp]
        exact hlt

/-- **A list made of entries in order**: of those that compare equal, one
is listed. -/
theorem foldlM_appendTail_sorted {l acc : List α}
    (hcmp : ∀ p ∈ acc ++ l, ∀ q ∈ l, compare p q = some (lexSign (f p) (f q)))
    (hl : l.Pairwise fun p q => f p ≤ f q) (hacc : acc.Pairwise fun p q => f p < f q)
    (hle : ∀ p ∈ acc, ∀ q ∈ l, f p ≤ f q) :
    ∃ list, l.foldlM (appendTail compare) acc = some list ∧
      (∀ p ∈ list, p ∈ acc ++ l) ∧ (∀ p ∈ acc ++ l, ∃ q ∈ list, f q = f p) ∧
      list.Pairwise fun p q => f p < f q := by
  induction l generalizing acc with
  | nil =>
    rw [List.append_nil]
    exact ⟨acc, rfl, fun p hp => hp, fun p hp => ⟨p, hp, rfl⟩, hacc⟩
  | cons x l ih =>
    obtain ⟨hx, hl⟩ := List.pairwise_cons.1 hl
    obtain ⟨acc', hacc', hsub, hcov, hpair⟩ := appendTail_sorted
      (fun q hq => hcmp q (List.mem_append_left _ hq) x List.mem_cons_self) hacc
      fun p hp => hle p hp x List.mem_cons_self
    have happend : acc ++ x :: l = (acc ++ [x]) ++ l := by
      rw [List.append_assoc, List.singleton_append]
    have hsub' : ∀ p ∈ acc' ++ l, p ∈ acc ++ x :: l := by
      intro p hp
      rw [happend]
      rcases List.mem_append.1 hp with hp | hp
      · exact List.mem_append_left _ (hsub p hp)
      · exact List.mem_append_right _ hp
    obtain ⟨list, hlist, hmem, hcover, hord⟩ := @ih acc'
      (fun p hp q hq => hcmp p (hsub' p hp) q (List.mem_cons_of_mem x hq)) hl hpair (by
        intro p hp q hq
        rcases List.mem_append.1 (hsub p hp) with hp | hp
        · exact hle p hp q (List.mem_cons_of_mem x hq)
        · rw [List.mem_singleton.1 hp]
          exact hx q hq)
    refine ⟨list, ?_, fun p hp => hsub' p (hmem p hp), fun p hp => ?_, hord⟩
    · rw [List.foldlM_cons, hacc', Option.bind_eq_bind, Option.bind_some, hlist]
    · rw [happend] at hp
      rcases List.mem_append.1 hp with hp | hp
      · obtain ⟨q, hq, heq⟩ := hcov p hp
        obtain ⟨y, hy, heq'⟩ := hcover q (List.mem_append_left _ hq)
        exact ⟨y, hy, heq'.trans heq⟩
      · exact hcover p (List.mem_append_right _ hp)

end Lists

/-! ## What is asked, and when it is given -/

section Suffix

variable (db : DictDb) (sufIndex : List RevEntry) (word : Utf8Text)

/-- The words of the index are UTF-8, and their lengths are right. -/
def DictDb.IsText : Prop :=
  ∀ e ∈ db.index, ∃ t : Utf8Text, e.word = t.bytes ∧ e.wordlen = t.codes.length

/-- The word at a position, as comparisons see it. -/
def DictDb.fold (p : ℕ) : List ℕ :=
  match db.index[p]? with
  | some e => folded (codesOf e.word)
  | none => []

/-- The entry at a position ends with the word, ignoring case. A word that is
not UTF-8 has no characters that an entry could end with. -/
def EndsWith (word : Bytes) (p : ℕ) : Prop :=
  p < db.index.length ∧ ∃ t : Utf8Text, word = t.bytes ∧ folded t.codes <:+ db.fold p

/-- `qsort` with `compare_entry_ptr`: some order of the entries that the
comparison agrees with. -/
def Sorts (qsort : List ℕ → List ℕ) : Prop :=
  ∀ l, (∀ p ∈ l, p < db.index.length) → (qsort l).Perm l ∧
    (qsort l).Pairwise fun p q => ∃ rc, comparePositions db p q = some rc ∧ rc ≤ 0

/-- What is asked of `suffix_match`: it fails just if no entry that is not
reserved ends with the word, and otherwise the list is such entries only,
each of them or one equal to it, in the order of `compare_entry` and no
two equal. -/
def SuffixLists (word : Bytes) (result : Option (Option (List ℕ))) : Prop :=
  ∃ r, result = some r ∧ (r = none ↔ ¬ ∃ p, EndsWith db word p ∧ db.shown p = true) ∧
    ∀ list, r = some list →
      (∀ p ∈ list, EndsWith db word p ∧ db.shown p = true) ∧
      (∀ p, EndsWith db word p → db.shown p = true →
        ∃ q ∈ list, comparePositions db q p = some 0) ∧
      list.Pairwise fun p q => ∃ rc, comparePositions db p q = some rc ∧ rc < 0

/-- `compare_rev_prefix` takes the entry at a position for one that ends
with the word. -/
def TakenForEnd (p : ℕ) : Prop :=
  ∃ e w, db.index[p]? = some e ∧ revertWord e.word = some w ∧
    compareRevPrefix db word.reversed.bytes word.codes.length ⟨w, p⟩ = some 0

/-- The suffix index is in three parts for `compare_rev_prefix`. -/
def SuffixParted : Prop :=
  sufIndex.Pairwise fun a b => ∀ rca rcb,
    compareRevPrefix db word.reversed.bytes word.codes.length a = some rca →
    compareRevPrefix db word.reversed.bytes word.codes.length b = some rcb →
    (0 ≤ rcb → 0 ≤ rca) ∧ (0 < rcb → 0 < rca)

/-- The first entry of the suffix index is taken for one that ends with the
word together with the second, it is not reserved, and no other entry that
is not reserved equals it. -/
def SuffixLost : Prop :=
  ∃ s₀ s₁ r, sufIndex = s₀ :: s₁ :: r ∧ TakenForEnd db word s₀.ptr ∧
    TakenForEnd db word s₁.ptr ∧ db.shown s₀.ptr = true ∧
    ∀ p < db.index.length, db.shown p = true → db.fold p = db.fold s₀.ptr → p = s₀.ptr

/-- Nothing is taken for an entry that ends with the word, and nothing that
is not reserved does; or else some entry that is not reserved ends with the
word, just such entries are taken for it, reserved ones apart, the index is
in three parts, and the first entry is not lost. -/
def TextFound : Prop :=
  ((∀ p, ¬ TakenForEnd db word p) ∧ ¬ ∃ p, EndsWith db word.bytes p ∧ db.shown p = true) ∨
  (∃ p, EndsWith db word.bytes p ∧ db.shown p = true) ∧ SuffixParted db sufIndex word ∧
    (∀ p, db.shown p = true → (TakenForEnd db word p ↔ EndsWith db word.bytes p)) ∧
    ¬ SuffixLost db sufIndex word

/-- The word is UTF-8 and found as it should be; or else it can be turned
round and compared with every entry, without a look at memory that is not
set, and no entry compares equal. -/
def SuffixFound (word : Bytes) : Prop :=
  (∃ t : Utf8Text, word = t.bytes ∧ TextFound db sufIndex t) ∨
  (¬ ∃ t : Utf8Text, word = t.bytes) ∧
    ∃ wordlen x, utf8Strlen word = some wordlen ∧ revertWord word = some x ∧
      ∀ s ∈ sufIndex, ∃ rc, compareRevPrefix db x wordlen s = some rc ∧ rc ≠ 0

/-! ## The index as a permutation -/

variable {db sufIndex word}

/-- The entry at a position. -/
theorem DictDb.IsText.entry (htext : db.IsText) {p : ℕ} (hp : p < db.index.length) :
    ∃ e, ∃ t : Utf8Text, db.index[p]? = some e ∧ e.word = t.bytes ∧
      e.wordlen = t.codes.length ∧ db.fold p = folded t.codes := by
  obtain ⟨t, hword, hlen⟩ := htext _ (List.getElem_mem hp)
  refine ⟨db.index[p], t, List.getElem?_eq_getElem hp, hword, hlen, ?_⟩
  rw [DictDb.fold, List.getElem?_eq_getElem hp]
  dsimp only
  rw [hword, codesOf_bytes]

/-- The comparison of two entries. -/
theorem DictDb.IsText.comparePositions (htext : db.IsText) {p q : ℕ} (hp : p < db.index.length)
    (hq : q < db.index.length) :
    comparePositions db p q = some (lexSign (db.fold p) (db.fold q)) := by
  obtain ⟨e, t, he, hword, -, hfold⟩ := htext.entry hp
  obtain ⟨e', t', he', hword', -, hfold'⟩ := htext.entry hq
  rw [DictOrg.comparePositions, he, he', Option.bind_eq_bind, Option.bind_some,
    Option.bind_some, compareEntry, hword, hword', utf8Strcasecmp_bytes,
    hfold, hfold']

/-- What `compare_rev_prefix` says of the entry at a position. -/
def tailSign (db : DictDb) (word : Utf8Text) (p : ℕ) : ℤ :=
  truncSign (folded word.codes).reverse (db.fold p).reverse

/-- And it says that. -/
theorem DictDb.IsText.compareRevPrefix (htext : db.IsText) (word : Utf8Text) {p : ℕ}
    (hp : p < db.index.length) :
    ∃ e w, db.index[p]? = some e ∧ revertWord e.word = some w ∧
      compareRevPrefix db word.reversed.bytes word.codes.length ⟨w, p⟩ =
        some (tailSign db word p) := by
  obtain ⟨e, t, he, hword, hlen, hfold⟩ := htext.entry hp
  refine ⟨e, t.reversed.bytes, he, by rw [hword, revertWord_bytes], ?_⟩
  have hmin : (if e.wordlen < word.codes.length then e.wordlen else word.codes.length) =
      min word.reversed.codes.length t.reversed.codes.length := by
    rw [codes_reversed, codes_reversed, List.length_reverse, List.length_reverse, hlen]
    split_ifs <;> omega
  rw [DictOrg.compareRevPrefix, he, Option.bind_eq_bind, Option.bind_some]
  dsimp only
  rw [hmin, utf8Strncasecmp_min, tailSign, hfold, codes_reversed, codes_reversed]
  simp only [folded, List.map_reverse]

/-- So an entry is taken for one that ends with the word just if that is
zero. -/
theorem takenForEnd_iff (htext : db.IsText) {p : ℕ} :
    TakenForEnd db word p ↔ p < db.index.length ∧ tailSign db word p = 0 := by
  constructor
  · rintro ⟨e, w, he, hw, hzero⟩
    have hp := (List.getElem?_eq_some_iff.1 he).1
    obtain ⟨e', w', he', hw', hsign⟩ := htext.compareRevPrefix word hp
    obtain rfl := Option.some.inj (he.symm.trans he')
    obtain rfl := Option.some.inj (hw.symm.trans hw')
    exact ⟨hp, Option.some.inj (hsign.symm.trans hzero)⟩
  · rintro ⟨hp, hzero⟩
    obtain ⟨e, w, he, hw, hsign⟩ := htext.compareRevPrefix word hp
    exact ⟨e, w, he, hw, by rw [hsign, hzero]⟩

/-- **The suffix index holds every entry once**, with its word
backwards. -/
theorem IsSuffixIndex.perm (h : IsSuffixIndex db sufIndex) :
    (sufIndex.map RevEntry.ptr).Perm (List.range db.index.length) ∧
      ∀ s ∈ sufIndex, ∃ e, db.index[s.ptr]? = some e ∧ revertWord e.word = some s.word := by
  obtain ⟨revs, hrevs, hperm, -⟩ := h
  have hrev : ∀ p s, (do
      let e ← db.index[p]?
      let w ← revertWord e.word
      some (⟨w, p⟩ : RevEntry)) = some s →
      s.ptr = p ∧ ∃ e, db.index[p]? = some e ∧ revertWord e.word = some s.word := by
    intro p s hs
    obtain ⟨e, he, hs⟩ := Option.bind_eq_some_iff.1 hs
    obtain ⟨w, hw, hs⟩ := Option.bind_eq_some_iff.1 hs
    obtain rfl := Option.some.inj hs
    exact ⟨rfl, e, he, hw⟩
  refine ⟨?_, fun s hs => ?_⟩
  · rw [← Bsearch.map_of_mapM hrevs fun p s hs => (hrev p s hs).1]
    exact hperm.map RevEntry.ptr
  · obtain ⟨p, -, hs⟩ := Bsearch.exists_of_mem_mapM hrevs (hperm.mem_iff.1 hs)
    obtain ⟨hptr, hentry⟩ := hrev p s hs
    rw [hptr]
    exact hentry

/-- The position that the entry of the suffix index at a position points
to. -/
def pointer (sufIndex : List RevEntry) (i : ℕ) : ℕ := (sufIndex.map RevEntry.ptr).getD i 0

/-- What the search is told, by position. -/
theorem IsSuffixIndex.compared (h : IsSuffixIndex db sufIndex) (htext : db.IsText)
    (word : Utf8Text) :
    ∃ rcs, sufIndex.mapM
        (DictOrg.compareRevPrefix db word.reversed.bytes word.codes.length) = some rcs ∧
      ∀ i s, sufIndex[i]? = some s → s.ptr = pointer sufIndex i ∧
        DictOrg.compareRevPrefix db word.reversed.bytes word.codes.length s =
          some (rcs.getD i 0) ∧ rcs.getD i 0 = tailSign db word (pointer sufIndex i) := by
  obtain ⟨-, hentry⟩ := h.perm
  have hsign : ∀ s ∈ sufIndex,
      DictOrg.compareRevPrefix db word.reversed.bytes word.codes.length s =
        some (tailSign db word s.ptr) := by
    intro s hs
    obtain ⟨e, he, hw⟩ := hentry s hs
    obtain ⟨e', w, he', hw', hsign⟩ := htext.compareRevPrefix word
      (List.getElem?_eq_some_iff.1 he).1
    obtain rfl := Option.some.inj (he.symm.trans he')
    obtain rfl := Option.some.inj (hw.symm.trans hw')
    exact hsign
  obtain ⟨rcs, hrcs⟩ := Bsearch.exists_mapM fun s hs => ⟨_, hsign s hs⟩
  refine ⟨rcs, hrcs, fun i s hs => ?_⟩
  have hptr : s.ptr = pointer sufIndex i := by
    rw [pointer, List.getD_eq_getElem?_getD, List.getElem?_map, hs]
    rfl
  have hget := Bsearch.getD_of_mapM hrcs hs
  refine ⟨hptr, hget, ?_⟩
  rw [hsign s (List.mem_of_getElem? hs)] at hget
  rw [← Option.some.inj hget, hptr]

/-! ## The result -/

/-- There is a way to sort. -/
theorem DictDb.IsText.exists_sorts (htext : db.IsText) : ∃ qsort, Sorts db qsort := by
  refine ⟨List.insertionSort fun p q => db.fold p ≤ db.fold q, fun l hl => ?_⟩
  have hperm := List.perm_insertionSort (fun p q => db.fold p ≤ db.fold q) l
  refine ⟨hperm, ?_⟩
  have hpair := List.pairwise_insertionSort (fun p q => db.fold p ≤ db.fold q) l
  refine hpair.imp_of_mem fun {p q} hp hq hle => ?_
  exact ⟨_, htext.comparePositions (hl p (hperm.mem_iff.1 hp)) (hl q (hperm.mem_iff.1 hq)),
    lexSign_nonpos.2 hle⟩

/-- Some entries are those that end with the word and are not reserved, up
to ones that equal them. -/
def Covers (db : DictDb) (word : Utf8Text) (l : List ℕ) : Prop :=
  (∀ p ∈ l, EndsWith db word.bytes p) ∧
    ∀ p, EndsWith db word.bytes p → db.shown p = true → ∃ q ∈ l, db.fold q = db.fold p

/-- Equal entries end with the same words. -/
theorem EndsWith.of_fold {p q : ℕ} (h : EndsWith db word.bytes p) (hq : q < db.index.length)
    (heq : db.fold q = db.fold p) : EndsWith db word.bytes q := ⟨hq, heq ▸ h.2⟩

/-- **What the list shows**: entries appended in order make the list asked
for just if they are the entries asked for, up to ones that equal them. -/
theorem suffixLists_iff_covers (htext : db.IsText) {qsort : List ℕ → List ℕ}
    (hsorts : Sorts db qsort) {l : List ℕ} (hl : ∀ p ∈ l, p < db.index.length)
    (hshown : ∀ p ∈ l, db.shown p = true) :
    SuffixLists db word.bytes
        (((qsort l).foldlM (appendTail (comparePositions db)) []).map some) ↔
      (∃ p, EndsWith db word.bytes p ∧ db.shown p = true) ∧ Covers db word l := by
  obtain ⟨hperm, hpair⟩ := hsorts l hl
  have hlt : ∀ p ∈ qsort l, p < db.index.length := fun p hp => hl p (hperm.mem_iff.1 hp)
  obtain ⟨list, hlist, hmem, hcover, hord⟩ := @foldlM_appendTail_sorted _ db.fold
    (comparePositions db) (qsort l) []
    (fun p hp q hq => htext.comparePositions (hlt p hp) (hlt q hq))
    (hpair.imp_of_mem fun {p q} hp hq hle => by
      obtain ⟨rc, hrc, hle⟩ := hle
      rw [htext.comparePositions (hlt p hp) (hlt q hq)] at hrc
      rw [← Option.some.inj hrc] at hle
      exact lexSign_nonpos.1 hle)
    List.Pairwise.nil (fun p hp => absurd hp List.not_mem_nil)
  rw [List.nil_append] at hmem hcover
  have hin : ∀ p ∈ list, p ∈ l := fun p hp => hperm.mem_iff.1 (hmem p hp)
  have hcov : ∀ p ∈ l, ∃ q ∈ list, db.fold q = db.fold p := fun p hp =>
    hcover p (hperm.mem_iff.2 hp)
  rw [hlist, Option.map_some, SuffixLists]
  simp only [Option.some.injEq, exists_eq_left', reduceCtorEq, false_iff, not_not, forall_eq']
  refine and_congr_right fun _ => ?_
  constructor
  · rintro ⟨hends, hall, -⟩
    refine ⟨fun p hp => ?_, fun p hp hsh => ?_⟩
    · obtain ⟨q, hq, heq⟩ := hcov p hp
      exact (hends q hq).1.of_fold (hl p hp) heq.symm
    · obtain ⟨q, hq, hzero⟩ := hall p hp hsh
      rw [htext.comparePositions (hl q (hin q hq)) hp.1] at hzero
      exact ⟨q, hin q hq, lexSign_eq_zero.1 (Option.some.inj hzero)⟩
  · rintro ⟨hends, hall⟩
    refine ⟨fun p hp => ⟨hends p (hin p hp), hshown p (hin p hp)⟩, fun p hp hsh => ?_, ?_⟩
    · obtain ⟨q, hq, heq⟩ := hall p hp hsh
      obtain ⟨x, hx, heq'⟩ := hcov q hq
      refine ⟨x, hx, ?_⟩
      rw [htext.comparePositions (hl x (hin x hx)) hp.1, heq', heq, lexSign_self]
    · refine hord.imp_of_mem fun {p q} hp hq hlt => ?_
      refine ⟨_, htext.comparePositions (hl p (hin p hp)) (hl q (hin q hq)), ?_⟩
      rw [lexSign, if_pos hlt]
      decide

/-- The pointers of the run around an element, reserved entries left
out. -/
def runEntries (db : DictDb) (sufIndex : List RevEntry) (cmp : ℕ → ℤ) (k : ℕ) : List ℕ :=
  (((extend sufIndex.length cmp k).filterMap fun i => sufIndex[i]?).map
    RevEntry.ptr).filter db.shown

section Result

variable {bsearch : ℕ → (ℕ → ℤ) → Option ℕ} {qsort : List ℕ → List ℕ} {rcs : List ℤ}
variable (hrcs : sufIndex.mapM
  (DictOrg.compareRevPrefix db word.reversed.bytes word.codes.length) = some rcs)

include hrcs

/-- Where `bsearch` finds nothing. -/
theorem suffixMatch_none (hnone : bsearch sufIndex.length (fun i => rcs.getD i 0) = none) :
    suffixMatch bsearch qsort db sufIndex word.bytes = some none := by
  simp only [suffixMatch, utf8Strlen_bytes, revertWord_bytes, hrcs, Option.bind_eq_bind,
    Option.bind_some, hnone]

/-- Where it finds something. -/
theorem suffixMatch_some {k : ℕ} (hk : bsearch sufIndex.length (fun i => rcs.getD i 0) = some k) :
    suffixMatch bsearch qsort db sufIndex word.bytes =
      ((qsort (runEntries db sufIndex (fun i => rcs.getD i 0) k)).foldlM
        (appendTail (comparePositions db)) []).map some := by
  simp only [suffixMatch, utf8Strlen_bytes, revertWord_bytes, hrcs, Option.bind_eq_bind,
    Option.bind_some, hk]
  rw [Option.map_eq_bind]
  rfl

end Result

/-- Equal entries are taken for the same. -/
theorem TakenForEnd.of_fold (htext : db.IsText) {p q : ℕ} (h : TakenForEnd db word p)
    (hq : q < db.index.length) (heq : db.fold q = db.fold p) : TakenForEnd db word q := by
  rw [takenForEnd_iff htext, tailSign] at h ⊢
  exact ⟨hq, heq ▸ h.2⟩

/-- What the search sees of the suffix index: comparisons by position, and
what each position points to. -/
structure Told (db : DictDb) (sufIndex : List RevEntry) (word : Utf8Text) (cmp : ℕ → ℤ) :
    Prop where
  /-- All entries are there. -/
  length : sufIndex.length = db.index.length
  /-- They point to every entry once. -/
  perm : (sufIndex.map RevEntry.ptr).Perm (List.range db.index.length)
  /-- The comparison is zero where the entry is taken for one that ends with
  the word. -/
  zero_iff : ∀ i < db.index.length, cmp i = 0 ↔ TakenForEnd db word (pointer sufIndex i)
  /-- The index is in parts as the comparisons are. -/
  parted : SuffixParted db sufIndex word ↔ Partitioned db.index.length cmp
  /-- The result of the search. -/
  result : ∀ bsearch qsort,
    (bsearch db.index.length cmp = none →
      suffixMatch bsearch qsort db sufIndex word.bytes = some none) ∧
    ∀ k, bsearch db.index.length cmp = some k →
      suffixMatch bsearch qsort db sufIndex word.bytes =
        ((qsort (runEntries db sufIndex cmp k)).foldlM
          (appendTail (comparePositions db)) []).map some

/-- **The search is told that**, by a suffix index. -/
theorem IsSuffixIndex.told (h : IsSuffixIndex db sufIndex) (htext : db.IsText)
    (word : Utf8Text) :
    ∃ cmp, Told db sufIndex word cmp := by
  obtain ⟨hlen, hlt, -⟩ := Bsearch.getD_of_perm_range h.perm.1
  rw [List.length_map] at hlen
  obtain ⟨rcs, hrcs, hcmp⟩ := h.compared htext word
  have hget : ∀ i (hi : i < db.index.length), sufIndex[i]? = some sufIndex[i] :=
    fun i hi => List.getElem?_eq_getElem (by omega)
  refine ⟨fun i => rcs.getD i 0, hlen, h.perm.1, fun i hi => ?_, ?_, fun bsearch qsort =>
    ⟨fun hnone => suffixMatch_none hrcs (by rw [hlen]; exact hnone), fun k hk => ?_⟩⟩
  · rw [takenForEnd_iff htext, (hcmp i _ (hget i hi)).2.2]
    exact ⟨fun h => ⟨hlt i hi, h⟩, fun h => h.2⟩
  · rw [← hlen]
    exact Bsearch.pairwise_iff_partitioned fun i s hs => (hcmp i s hs).2.1
  · exact suffixMatch_some hrcs (by rw [hlen]; exact hk)

section Search

variable {cmp : ℕ → ℤ} {k p : ℕ}

/-- Each entry is pointed to. -/
theorem Told.surj (ht : Told db sufIndex word cmp) (hp : p < db.index.length) :
    ∃ i < db.index.length, pointer sufIndex i = p :=
  (Bsearch.getD_of_perm_range ht.perm).2.2.1 p hp

/-- The run, as what its positions point to. -/
theorem Told.runEntries_eq (ht : Told db sufIndex word cmp) (hk : k < db.index.length) :
    runEntries db sufIndex cmp k =
      ((extend db.index.length cmp k).map (pointer sufIndex)).filter db.shown := by
  rw [runEntries, ht.length, Bsearch.map_filterMap_getElem?]
  · rfl
  · exact fun i hi => ht.length ▸ Bsearch.lt_of_mem_extend hk hi

/-- It holds entries of the index, none of them reserved. -/
theorem Told.of_mem_runEntries (ht : Told db sufIndex word cmp) (hk : k < db.index.length)
    (hp : p ∈ runEntries db sufIndex cmp k) : p < db.index.length ∧ db.shown p = true := by
  rw [ht.runEntries_eq hk] at hp
  obtain ⟨hp, hshown⟩ := List.mem_filter.1 hp
  obtain ⟨i, hi, rfl⟩ := List.mem_map.1 hp
  exact ⟨(Bsearch.getD_of_perm_range ht.perm).2.1 i (Bsearch.lt_of_mem_extend hk hi), hshown⟩

/-- **What the run holds**: the entries taken for ones that end with the
word, reserved ones apart, and the first of the suffix index only if it is
the one the search returned. -/
theorem Told.mem_runEntries (ht : Told db sufIndex word cmp) (htext : db.IsText)
    (hparts : Partitioned db.index.length cmp) (hk : k < db.index.length) (hzero : cmp k = 0) :
    p ∈ runEntries db sufIndex cmp k ↔
      (TakenForEnd db word p ∧ db.shown p = true) ∧ (p = pointer sufIndex 0 → k = 0) := by
  have hrun := Bsearch.mem_map_extend ht.perm hparts hk hzero (q := p)
  have htaken : (∃ i < db.index.length, cmp i = 0 ∧ pointer sufIndex i = p) ↔
      TakenForEnd db word p := by
    constructor
    · rintro ⟨i, hi, hizero, rfl⟩
      exact (ht.zero_iff i hi).1 hizero
    · intro hp
      obtain ⟨i, hi, rfl⟩ := ht.surj ((takenForEnd_iff htext).1 hp).1
      exact ⟨i, hi, (ht.zero_iff i hi).2 hp, rfl⟩
  rw [ht.runEntries_eq hk, List.mem_filter]
  constructor
  · rintro ⟨hp, hshown⟩
    obtain ⟨hi, hfirst⟩ := hrun.1 hp
    exact ⟨⟨htaken.1 hi, hshown⟩, hfirst⟩
  · rintro ⟨⟨hp, hshown⟩, hfirst⟩
    exact ⟨hrun.2 ⟨htaken.2 hp, hfirst⟩, hshown⟩

/-- The first entry is lost where the first two positions compare equal. -/
theorem Told.lost_iff (ht : Told db sufIndex word cmp) :
    SuffixLost db sufIndex word ↔
      1 < db.index.length ∧ cmp 0 = 0 ∧ cmp 1 = 0 ∧ db.shown (pointer sufIndex 0) = true ∧
        ∀ p < db.index.length, db.shown p = true →
          db.fold p = db.fold (pointer sufIndex 0) → p = pointer sufIndex 0 := by
  constructor
  · rintro ⟨s₀, s₁, r, rfl, h₀, h₁, hshown, halone⟩
    have hn : 1 < db.index.length := by
      rw [← ht.length, List.length_cons, List.length_cons]
      omega
    exact ⟨hn, (ht.zero_iff 0 (by omega)).2 h₀, (ht.zero_iff 1 hn).2 h₁, hshown, halone⟩
  · rintro ⟨hn, h₀, h₁, hshown, halone⟩
    have ht₀ := (ht.zero_iff 0 (by omega)).1 h₀
    have ht₁ := (ht.zero_iff 1 hn).1 h₁
    rw [← ht.length] at hn
    cases sufIndex with
    | nil => exact absurd hn (Nat.not_lt_zero 1)
    | cons s₀ r =>
      cases r with
      | nil => exact absurd hn (lt_irrefl 1)
      | cons s₁ r => exact ⟨s₀, s₁, r, rfl, ht₀, ht₁, hshown, halone⟩

/-- Where the search returns something, the list is the one asked for just
if the run is. -/
theorem Told.suffixLists_some (ht : Told db sufIndex word cmp) (htext : db.IsText)
    {bsearch : ℕ → (ℕ → ℤ) → Option ℕ} {qsort : List ℕ → List ℕ} (hsorts : Sorts db qsort)
    (hkn : k < db.index.length) (hk : bsearch db.index.length cmp = some k) :
    SuffixLists db word.bytes (suffixMatch bsearch qsort db sufIndex word.bytes) ↔
      (∃ p, EndsWith db word.bytes p ∧ db.shown p = true) ∧
        Covers db word (runEntries db sufIndex cmp k) := by
  rw [(ht.result bsearch qsort).2 k hk]
  exact suffixLists_iff_covers htext hsorts (fun p hp => (ht.of_mem_runEntries hkn hp).1)
    fun p hp => (ht.of_mem_runEntries hkn hp).2

/-- Where it returns nothing, that is right just if there is nothing. -/
theorem Told.suffixLists_none (ht : Told db sufIndex word cmp)
    {bsearch : ℕ → (ℕ → ℤ) → Option ℕ} {qsort : List ℕ → List ℕ}
    (hnone : bsearch db.index.length cmp = none) :
    SuffixLists db word.bytes (suffixMatch bsearch qsort db sufIndex word.bytes) ↔
      ¬ ∃ p, EndsWith db word.bytes p ∧ db.shown p = true := by
  rw [(ht.result bsearch qsort).1 hnone, SuffixLists]
  simp only [Option.some.injEq, exists_eq_left', reduceCtorEq, true_iff, false_implies,
    implies_true, and_true]

/-- **Enough**: in an index in parts, where just the entries asked for are
taken for such and the first is not lost, every search has the run asked
for. -/
theorem Told.covers (ht : Told db sufIndex word cmp) (htext : db.IsText)
    (hparts : Partitioned db.index.length cmp)
    (htaken : ∀ p, db.shown p = true → (TakenForEnd db word p ↔ EndsWith db word.bytes p))
    (hlost : ¬ SuffixLost db sufIndex word) (hk : k < db.index.length) (hzero : cmp k = 0) :
    Covers db word (runEntries db sufIndex cmp k) := by
  refine ⟨fun p hp => ?_, fun p hends hshown => ?_⟩
  · obtain ⟨⟨hp, hshown⟩, -⟩ := (ht.mem_runEntries htext hparts hk hzero).1 hp
    exact (htaken p hshown).1 hp
  · have hp := (htaken p hshown).2 hends
    by_cases hfirst : p = pointer sufIndex 0 ∧ k ≠ 0
    · -- the first entry may be lost, but then there is another
      obtain ⟨rfl, hk₀⟩ := hfirst
      have h₀ : cmp 0 = 0 := (ht.zero_iff 0 (by omega)).2 hp
      have h₁ : cmp 1 = 0 := hparts.between (by omega) (by omega : 1 ≤ k) hk h₀ hzero
      rw [ht.lost_iff] at hlost
      push Not at hlost
      obtain ⟨q, hq, hshown', heq, hne⟩ := hlost (by omega) h₀ h₁ hshown
      refine ⟨q, (ht.mem_runEntries htext hparts hk hzero).2
        ⟨⟨hp.of_fold htext hq heq, hshown'⟩, fun h => absurd h hne⟩, heq⟩
    · refine ⟨p, (ht.mem_runEntries htext hparts hk hzero).2 ⟨⟨hp, hshown⟩, fun h => ?_⟩, rfl⟩
      by_contra hk₀
      exact hfirst ⟨h, hk₀⟩

/-- **And necessary**, where anything is taken for an entry that ends with
the word. -/
theorem Told.necessary (ht : Told db sufIndex word cmp) (htext : db.IsText)
    (hex : ∃ i < db.index.length, cmp i = 0)
    (h : ∀ bsearch qsort, Finds bsearch → Sorts db qsort →
      SuffixLists db word.bytes (suffixMatch bsearch qsort db sufIndex word.bytes)) :
    (∃ p, EndsWith db word.bytes p ∧ db.shown p = true) ∧ Partitioned db.index.length cmp ∧
      (∀ p, db.shown p = true → (TakenForEnd db word p ↔ EndsWith db word.bytes p)) ∧
      ¬ SuffixLost db sufIndex word := by
  obtain ⟨qsort, hsorts⟩ := htext.exists_sorts
  obtain ⟨i, hi, hizero⟩ := hex
  -- a search that looks at every element finds something, and it must be there to be found
  obtain ⟨k₁, hk₁⟩ := Bsearch.exists_firstZero hi hizero
  obtain ⟨hk₁n, hk₁zero⟩ := Bsearch.finds_firstZero.sound _ _ _ hk₁
  obtain ⟨hsome, hcov₁⟩ := (ht.suffixLists_some htext hsorts hk₁n hk₁).1
    (h _ qsort Bsearch.finds_firstZero hsorts)
  -- so the least obliging search must find it, too
  obtain ⟨k₂, hk₂⟩ : ∃ k, Bsearch.grudging db.index.length cmp = some k := by
    cases hk : Bsearch.grudging db.index.length cmp with
    | none =>
      exact absurd hsome ((ht.suffixLists_none hk).1 (h _ qsort Bsearch.finds_grudging hsorts))
    | some k => exact ⟨k, rfl⟩
  obtain ⟨hparts, hlast⟩ := Bsearch.of_grudging hk₂
  obtain ⟨hk₂n, hk₂zero⟩ := Bsearch.finds_grudging.sound _ _ _ hk₂
  obtain ⟨-, hcov₂⟩ := (ht.suffixLists_some htext hsorts hk₂n hk₂).1
    (h _ qsort Bsearch.finds_grudging hsorts)
  have hmem₁ : ∀ p, TakenForEnd db word p → db.shown p = true →
      p ∈ runEntries db sufIndex cmp k₁ := by
    intro p hp hshown
    refine (ht.mem_runEntries htext hparts hk₁n hk₁zero).2 ⟨⟨hp, hshown⟩, ?_⟩
    rintro rfl
    have h₀ : cmp 0 = 0 := (ht.zero_iff 0 (by omega)).2 hp
    rw [Bsearch.firstZero_eq_zero (by omega) h₀] at hk₁
    exact (Option.some.inj hk₁).symm
  have htaken : ∀ p, db.shown p = true → (TakenForEnd db word p ↔ EndsWith db word.bytes p) := by
    intro p hshown
    refine ⟨fun hp => hcov₁.1 p (hmem₁ p hp hshown), fun hp => ?_⟩
    obtain ⟨q, hq, heq⟩ := hcov₁.2 p hp hshown
    exact ((ht.mem_runEntries htext hparts hk₁n hk₁zero).1 hq).1.1.of_fold htext hp.1 heq.symm
  refine ⟨hsome, hparts, htaken, fun hlost => ?_⟩
  obtain ⟨hn, h₀, h₁, hshown, halone⟩ := ht.lost_iff.1 hlost
  have hends := (htaken _ hshown).1 ((ht.zero_iff 0 (by omega)).1 h₀)
  obtain ⟨q, hq, heq⟩ := hcov₂.2 _ hends hshown
  obtain ⟨⟨hq, hqshown⟩, hfirst⟩ := (ht.mem_runEntries htext hparts hk₂n hk₂zero).1 hq
  have hqn := ((takenForEnd_iff htext).1 hq).1
  have hle := hlast 1 hn h₁
  have := hfirst (halone q hqn hqshown heq)
  omega

end Search

/-- **A word of UTF-8.** -/
theorem textLists_iff (htext : db.IsText) (hindex : IsSuffixIndex db sufIndex) (word : Utf8Text) :
    (∀ bsearch qsort, Finds bsearch → Sorts db qsort →
        SuffixLists db word.bytes (suffixMatch bsearch qsort db sufIndex word.bytes)) ↔
      TextFound db sufIndex word := by
  obtain ⟨cmp, ht⟩ := hindex.told htext word
  rw [TextFound, ht.parted]
  by_cases hex : ∃ i < db.index.length, cmp i = 0
  · constructor
    · exact fun h => .inr (ht.necessary htext hex h)
    · rintro (⟨hnone, -⟩ | ⟨hsome, hparts, htaken, hlost⟩) bsearch qsort hbs hsorts
      · obtain ⟨i, hi, hzero⟩ := hex
        exact absurd ((ht.zero_iff i hi).1 hzero) (hnone _)
      · obtain ⟨i, hi, hzero⟩ := hex
        obtain ⟨k, hk⟩ := Option.ne_none_iff_exists'.1 (hbs.complete _ _ i hparts hi hzero)
        obtain ⟨hkn, hkzero⟩ := hbs.sound _ _ _ hk
        exact (ht.suffixLists_some htext hsorts hkn hk).2
          ⟨hsome, ht.covers htext hparts htaken hlost hkn hkzero⟩
  · have hnone : ∀ p, ¬ TakenForEnd db word p := by
      intro p hp
      obtain ⟨i, hi, rfl⟩ := ht.surj ((takenForEnd_iff htext).1 hp).1
      exact hex ⟨i, hi, (ht.zero_iff i hi).2 hp⟩
    constructor
    · intro h
      obtain ⟨qsort, hsorts⟩ := htext.exists_sorts
      exact .inl ⟨hnone, (ht.suffixLists_none (Bsearch.finds_bisect.eq_none hex)).1
        (h _ qsort Bsearch.finds_bisect hsorts)⟩
    · rintro (⟨-, hends⟩ | ⟨⟨p, hp, hshown⟩, -, htaken, -⟩) bsearch qsort hbs hsorts
      · exact (ht.suffixLists_none (hbs.eq_none hex)).2 hends
      · exact absurd ((htaken p hshown).2 hp) (hnone p)

/-- **Any other word**: nothing ends with it, so nothing may compare
equal. -/
theorem otherLists_iff (htext : db.IsText) {word : Bytes}
    (hword : ¬ ∃ t : Utf8Text, word = t.bytes) :
    (∀ bsearch qsort, Finds bsearch → Sorts db qsort →
        SuffixLists db word (suffixMatch bsearch qsort db sufIndex word)) ↔
      ∃ wordlen x, utf8Strlen word = some wordlen ∧ revertWord word = some x ∧
        ∀ s ∈ sufIndex, ∃ rc, DictOrg.compareRevPrefix db x wordlen s = some rc ∧ rc ≠ 0 := by
  have hends : ¬ ∃ p, EndsWith db word p ∧ db.shown p = true := by
    rintro ⟨p, ⟨-, t, ht, -⟩, -⟩
    exact hword ⟨t, ht⟩
  have hlists : ∀ result, SuffixLists db word result ↔ result = some none := by
    intro result
    constructor
    · rintro ⟨r, hr, hnone, -⟩
      rw [hr, hnone.2 hends]
    · rintro rfl
      exact ⟨none, rfl, iff_of_true rfl hends, fun list h => by cases h⟩
  simp only [hlists]
  constructor
  · intro h
    obtain ⟨qsort, hsorts⟩ := htext.exists_sorts
    have hrun := h _ qsort Bsearch.finds_firstZero hsorts
    obtain ⟨wordlen, hlen, hrun⟩ := Option.bind_eq_some_iff.1 hrun
    obtain ⟨x, hx, hrun⟩ := Option.bind_eq_some_iff.1 hrun
    obtain ⟨rcs, hrcs, hrun⟩ := Option.bind_eq_some_iff.1 hrun
    refine ⟨wordlen, x, hlen, hx, Bsearch.ne_zero_of_firstZero hrcs ?_⟩
    dsimp only at hrun
    cases hk : Bsearch.firstZero sufIndex.length (fun i => rcs.getD i 0) with
    | none => rfl
    | some k =>
      rw [hk] at hrun
      obtain ⟨list, -, hrun⟩ := Option.bind_eq_some_iff.1 hrun
      cases hrun
  · rintro ⟨wordlen, x, hlen, hx, hall⟩ bsearch qsort hbs -
    obtain ⟨rcs, hrcs, hnone⟩ := Bsearch.exists_mapM_none hall
    simp only [suffixMatch, hlen, hx, hrcs, Option.bind_eq_bind, Option.bind_some,
      hnone bsearch hbs]

/-- **The suffix strategy.** For every index of UTF-8 words, every order
`qsort` may have brought the reversed ones into, and every word: whatever
`bsearch` returns and however `qsort` sorts, `suffix_match` does what is
asked of it, just if `SuffixFound`. -/
theorem suffixLists_iff (db : DictDb) (sufIndex : List RevEntry) (word : Bytes)
    (htext : db.IsText) (hindex : IsSuffixIndex db sufIndex) :
    (∀ bsearch qsort, Finds bsearch → Sorts db qsort →
        SuffixLists db word (suffixMatch bsearch qsort db sufIndex word)) ↔
      SuffixFound db sufIndex word := by
  by_cases hword : ∃ t : Utf8Text, word = t.bytes
  · obtain ⟨t, rfl⟩ := hword
    rw [textLists_iff htext hindex, SuffixFound, Utf8Text.or_other_iff]
  · rw [otherLists_iff htext hword, SuffixFound, other_or_iff hword]

/-- Two words that end with what is looked for, which is one of them. -/
theorem suffixLists_wordsDb :
    (∀ bsearch qsort, Finds bsearch → Sorts (wordsDb ["cat", "scat"]) qsort →
        SuffixLists (wordsDb ["cat", "scat"]) (ascii "cat")
          (suffixMatch bsearch qsort (wordsDb ["cat", "scat"])
            [⟨ascii "tac", 0⟩, ⟨ascii "tacs", 1⟩] (ascii "cat"))) ↔
      SuffixFound (wordsDb ["cat", "scat"]) [⟨ascii "tac", 0⟩, ⟨ascii "tacs", 1⟩]
        (ascii "cat") := by
  refine suffixLists_iff _ _ _ ?_ ?_
  · exact List.forall_mem_cons.2 ⟨⟨cat, by decide +kernel, by decide +kernel⟩,
      List.forall_mem_singleton.2 ⟨⟨['s', 'c', 'a', 't'], by decide⟩, by decide +kernel,
        by decide +kernel⟩⟩
  · exact ⟨_, by decide +kernel, List.Perm.refl _,
      List.pairwise_pair.2 ⟨-1, by decide +kernel, by decide⟩⟩

/-- Another word. -/
def catTail : Utf8Text where
  chars := ['a', 't']
  null_notMem := by decide

/-- **A headword that is an end of the word.** Looking for words that end
with `cat`, the search finds `at`. -/
theorem not_forall_suffixLists :
    ¬ ∀ (db : DictDb) (sufIndex : List RevEntry) (word : Bytes), word ≠ [] →
      db.IsText → IsSuffixIndex db sufIndex → ∀ bsearch qsort, Finds bsearch → Sorts db qsort →
      SuffixLists db word (suffixMatch bsearch qsort db sufIndex word) := by
  intro h
  have htext : (wordsDb ["at"]).IsText :=
    List.forall_mem_singleton.2 ⟨catTail, by decide +kernel, by decide +kernel⟩
  have hindex : IsSuffixIndex (wordsDb ["at"]) [⟨ascii "ta", 0⟩] :=
    ⟨_, by decide +kernel, List.Perm.refl _, List.pairwise_singleton _ _⟩
  have hsorts : Sorts (wordsDb ["at"]) id := by
    intro l hl
    refine ⟨List.Perm.refl l, List.pairwise_of_forall_mem_list fun p hp q hq => ?_⟩
    obtain rfl : p = 0 := Nat.lt_one_iff.1 (hl p hp)
    obtain rfl : q = 0 := Nat.lt_one_iff.1 (hl q hq)
    exact ⟨0, by decide +kernel, le_rfl⟩
  obtain ⟨r, hr, -, hlist⟩ :=
    h _ _ cat.bytes (by decide) htext hindex _ id Bsearch.finds_bisect hsorts
  have hrun : suffixMatch Bsearch.bisect id (wordsDb ["at"]) [⟨ascii "ta", 0⟩] cat.bytes =
      some (some [0]) := by decide +kernel
  rw [hrun] at hr
  obtain ⟨⟨-, t, ht, hends⟩, -⟩ :=
    (hlist [0] (Option.some.inj hr).symm).1 0 (List.mem_singleton_self 0)
  rw [← Utf8Text.eq_of_bytes ht] at hends
  exact absurd hends (by decide +kernel)

end Suffix

end DictOrg

end Dico
