import Dico.Common.Bsearch
import Dico.List.Pure
import Dico.Text.Collate
import Dico.Text.Reverse
/-!
# The dict.org module

The index of a dict.org database, and the searches over it: `common_match`
asks `bsearch` for an element that compares equal and takes the run around
it, with one comparison for the whole word and another for its beginning;
`_match_all` asks a selector about every headword. Pointers into the index
are positions. A comparison may have no result (of a character that is cut
off), and a search that might make it has none either.
-/

namespace Dico

namespace DictOrg

/-! ## The index -/

/-- `struct index_entry`. -/
structure IndexEntry where
  /-- The word. -/
  word : Bytes
  /-- Its length in bytes. -/
  length : ℕ
  /-- Its length in characters. -/
  wordlen : ℕ
  /-- Where the article begins. -/
  offset : ℕ
  /-- The size of the article. -/
  size : ℕ
  deriving DecidableEq, Repr

/-- `struct dictdb`, as far as the searches go. -/
structure DictDb where
  /-- The index, in the order of the file. -/
  index : List IndexEntry
  /-- `show_dictorg_entries`. -/
  showDictorgEntries : Bool
  deriving DecidableEq, Repr

/-- `DICTORG_ENTRY_PREFIX`. -/
def dictorgEntryPrefix : Bytes := ascii "00-database"

/-- `RESERVED_WORD`. -/
def reservedWord (db : DictDb) (word : Bytes) : Bool :=
  !db.showDictorgEntries && dictorgEntryPrefix.isPrefixOf word

/-- Whether the entry at a position is not reserved. -/
def DictDb.shown (db : DictDb) (p : ℕ) : Bool :=
  match db.index[p]? with
  | some e => !reservedWord db e.word
  | none => false

/-- `compare_entry`. -/
def compareEntry (epa epb : IndexEntry) : Option ℤ := utf8Strcasecmp epa.word epb.word

/-- `compare_prefix`. -/
def comparePrefix (pkey pelt : IndexEntry) : Option ℤ :=
  if pelt.wordlen < pkey.wordlen then some (-1)
  else utf8Strncasecmp pkey.word pelt.word pkey.wordlen

/-! ## The list of a result -/

/-- `compare_entry` as the comparator of a list of positions. -/
def comparePositions (db : DictDb) (p q : ℕ) : Option ℤ := do
  let epa ← db.index[p]?
  let epb ← db.index[q]?
  compareEntry epa epb

/-- `dico_list_append` to a list with a comparator and
`DICO_LIST_COMPARE_TAIL`. -/
def appendTail {α : Type} (compare : α → α → Option ℤ) (list : List α) (data : α) :
    Option (List α) :=
  match list.getLast? with
  | none => some (list ++ [data])
  | some last => do
    let rc ← compare last data
    some (if rc = 0 then list else list ++ [data])

/-- It is the append of the list, where the comparator has results. -/
theorem appendTail_eq {α : Type} [DecidableEq α] {cmp : α → α → ℤ} {p : PureList α} {a : ℕ}
    {data : α} (hflags : p.flags = compareTail) (hcomp : p.comp = some cmp) :
    appendTail (fun x y => some (cmp x y)) (p.items.map Prod.snd) data =
      some ((p.append a data).items.map Prod.snd) := by
  obtain ⟨items, flags, comp, itr⟩ := p
  obtain rfl : flags = compareTail := hflags
  obtain rfl : comp = some cmp := hcomp
  rw [appendTail, PureList.append]
  dsimp only
  rw [List.getLast?_map]
  cases items.getLast? with
  | none =>
    have hrefuses : PureList.refuses ⟨items, compareTail, some cmp, itr⟩ compareTail none data =
        false := rfl
    rw [hrefuses, if_neg Bool.false_ne_true, List.map_append]
    rfl
  | some i =>
    have hrefuses : PureList.refuses ⟨items, compareTail, some cmp, itr⟩ compareTail (some i) data =
        (cmp i.2 data == 0) := by
      have hflag : decide (compareTail &&& compareTail ≠ 0) = true := by decide
      show (decide (compareTail &&& compareTail ≠ 0) && cmp i.2 data == 0) = _
      rw [hflag, Bool.true_and]
    rw [hrefuses]
    by_cases hzero : cmp i.2 data = 0
    · simp only [Option.map_some, Option.bind_eq_bind, Option.bind_some, hzero, if_true,
        beq_self_eq_true]
    · simp only [Option.map_some, Option.bind_eq_bind, Option.bind_some, hzero, if_false,
        beq_eq_false_iff_ne.2 hzero, Bool.false_eq_true, List.map_append, List.map_cons,
        List.map_nil]

/-! ## The searches -/

/-- The key `common_match` searches with. -/
def searchKey (word : Bytes) : Option IndexEntry := do
  let wordlen ← utf8Strlen word
  some ⟨word, word.length, wordlen, 0, 0⟩

/-- `common_match`, over a `bsearch`. It fails where that finds nothing. -/
def commonMatch (bsearch : ℕ → (ℕ → ℤ) → Option ℕ) (db : DictDb) (word : Bytes)
    (compare : IndexEntry → IndexEntry → Option ℤ) (unique : Bool) :
    Option (Option (List ℕ)) := do
  let x ← searchKey word
  let rcs ← db.index.mapM (compare x)
  let cmp := fun p => rcs.getD p 0
  match bsearch db.index.length cmp with
  | none => some none
  | some ep =>
    let run := (Bsearch.extend db.index.length cmp ep).filter db.shown
    if unique then do
      let list ← run.foldlM (appendTail (comparePositions db)) []
      some (some list)
    else some (some run)

/-- `prefix_match`. -/
def prefixMatch (bsearch : ℕ → (ℕ → ℤ) → Option ℕ) (db : DictDb) (word : Bytes) :
    Option (Option (List ℕ)) :=
  commonMatch bsearch db word comparePrefix true

/-- `_match_all`: the selector is begun once and asked about every entry
that is not reserved. -/
def matchAll (sel : SelectCmd → DicoKey → Bytes → Option (Bool × DicoKey)) (db : DictDb)
    (word : Bytes) : Option (Option (List ℕ)) := do
  let (_, key) ← sel .begin ⟨word, .null⟩ word
  let answers ← db.index.mapM fun e =>
    if reservedWord db e.word then some false else (sel .run key e.word).map Prod.fst
  let list ← ((List.range db.index.length).filter fun p => answers.getD p false).foldlM
    (appendTail (comparePositions db)) []
  some (if list = [] then none else some list)

/-! ## The suffix index -/

/-- `struct rev_entry`. -/
structure RevEntry where
  /-- The word, backwards. -/
  word : Bytes
  /-- The position of its entry. -/
  ptr : ℕ
  deriving DecidableEq, Repr

/-- `compare_rev_entry`. -/
def compareRevEntry (epa epb : RevEntry) : Option ℤ := utf8Strcasecmp epa.word epb.word

/-- The array `init_suffix_index` fills, before it sorts it. -/
def reverseIndex (db : DictDb) : Option (List RevEntry) :=
  (List.range db.index.length).mapM fun p => do
    let e ← db.index[p]?
    let w ← revertWord e.word
    some ⟨w, p⟩

/-- What `init_suffix_index` leaves: the array in some order that
`compare_rev_entry` agrees with. -/
def IsSuffixIndex (db : DictDb) (sufIndex : List RevEntry) : Prop :=
  ∃ revs, reverseIndex db = some revs ∧ sufIndex.Perm revs ∧
    sufIndex.Pairwise fun epa epb => ∃ rc, compareRevEntry epa epb = some rc ∧ rc ≤ 0

/-- `compare_rev_prefix`, with a key of so many characters. -/
def compareRevPrefix (db : DictDb) (word : Bytes) (wordlen : ℕ) (pelt : RevEntry) : Option ℤ := do
  let e ← db.index[pelt.ptr]?
  let wordlen := if e.wordlen < wordlen then e.wordlen else wordlen
  utf8Strncasecmp word pelt.word wordlen

/-- `suffix_match`, over the index of reversed words, a `bsearch` and a
`qsort` that sorts pointers by `compare_entry_ptr`. -/
def suffixMatch (bsearch : ℕ → (ℕ → ℤ) → Option ℕ) (qsort : List ℕ → List ℕ) (db : DictDb)
    (sufIndex : List RevEntry) (word : Bytes) : Option (Option (List ℕ)) := do
  let wordlen ← utf8Strlen word
  let x ← revertWord word
  let rcs ← sufIndex.mapM (compareRevPrefix db x wordlen)
  let cmp := fun i => rcs.getD i 0
  match bsearch sufIndex.length cmp with
  | none => some none
  | some ep =>
    let run := (Bsearch.extend sufIndex.length cmp ep).filterMap fun i => sufIndex[i]?
    let tmp := (run.map RevEntry.ptr).filter db.shown
    let list ← (qsort tmp).foldlM (appendTail (comparePositions db)) []
    some (some list)

end DictOrg

end Dico
