import Dico.Common.Choice
import Dico.Outline.Match
import Dico.Outline.Sections
/-!
# Outline databases

`outline_init_db` sorts the sections of the second level that are below
the heading `dictionary`, and remembers those of the first level that
describe the database. Words are looked up in what was sorted, and the
texts are read from the file again when they are wanted. What a database
says is what is in the outline (`outline_serves`).
-/

namespace Dico

namespace Outline

open Bsearch (Finds)
open Choice (chosen)
open Lines (lines)

/-! ## The model -/

namespace OutlineFile

variable (file : OutlineFile)

/-- `fread`: at most `n` bytes, and the file behind them. -/
def fread (n : ℕ) : Bytes × OutlineFile :=
  (file.rest.take n, file.advance (file.rest.take n).length)

/-- `fseek (fp, offset, SEEK_SET)`. -/
def seek (offset : ℕ) : OutlineFile := { file with pos := offset }

end OutlineFile

/-- `struct outline_file`, without the suffix index. -/
structure OutlineDb where
  /-- `fp`. -/
  file : OutlineFile
  /-- The entries in order. -/
  index : List Entry
  /-- `info_entry`. -/
  info : Option Entry
  /-- `descr_entry`. -/
  descr : Option Entry
  /-- `lang_entry`. -/
  lang : Option Entry

/-- `outline_init_db`, once the file is open. -/
def outlineInitDb (qsort : List Entry → List Entry) (fuel : ℕ) (file : OutlineFile) :
    Option OutlineDb :=
  (initDbLoop fuel file Loading.start).map fun st =>
    ⟨file, qsort st.list, st.info, st.descr, st.lang⟩

/-- `read_buf`. There is no memory for a size that has wrapped around. -/
def readBuf (file : OutlineFile) (ep : Entry) : Option Bytes :=
  if ep.size < 2 ^ 63 then some ((file.seek ep.offset).fread ep.size).1 else none

/-- `outline_info`. -/
def outlineInfo (db : OutlineDb) : Option Bytes :=
  (db.info.bind (readBuf db.file)).map cstring

/-- `outline_descr`, up to the newline that `strchr` finds. It has no
result where there was no memory, and `strchr` is called without a string. -/
def outlineDescr (db : OutlineDb) : Option (Option Bytes) :=
  match db.descr with
  | none => some none
  | some ep => (readBuf db.file ep).map fun buf =>
      some ((cstring buf).takeWhile fun c => decide (c ≠ 10))

/-- The loop of `printdef`: the buffers it writes. -/
def printdefLoop : ℕ → OutlineFile → ℕ → List Bytes
  | 0, _, _ => []
  | fuel + 1, file, size =>
    if size = 0 then []
    else
      let (buf, file) := file.fread (min size bufSize)
      if buf = [] then [] else buf :: printdefLoop fuel file (size - buf.length)

/-- `printdef`. -/
def printdef (file : OutlineFile) (ep : Entry) : List Bytes :=
  printdefLoop (file.content.length + 1) (file.seek ep.offset) ep.size

/-- `outline_define`; its result has the type `result_define` then. -/
def outlineDefine (bsearch : ℕ → (ℕ → ℤ) → Option ℕ) (db : OutlineDb) (word : Bytes) :
    Option (Option Result) :=
  exactMatch bsearch db.index word

section Selectors

variable {κ : Type} (select : κ → Bytes → Bool × κ)

/-- The loop of `outline_match_all`: the positions it appends to the list. -/
def matchAllLoop : List Entry → ℕ → κ → List ℕ → List ℕ
  | [], _, _, list => list
  | e :: index, i, key, list =>
    let (selected, key) := select key e.word
    matchAllLoop index (i + 1) key (if selected then list ++ [i] else list)

/-- `outline_match_all`, once the key is initialized. -/
def outlineMatchAll (db : OutlineDb) (key : κ) : Option Result :=
  let list := matchAllLoop select db.index 0 key []
  if list.length = 0 then none else some (.list list)

end Selectors

/-- `outline_result_count`. -/
def outlineResultCount : Result → ℕ
  | .run _ count => count
  | .list list => list.length

/-- What `outline_output_result` writes of an entry; `define` tells whether
the type of the result is `result_define`. -/
def outputEntry (db : OutlineDb) (define : Bool) (p : ℕ) : List Bytes :=
  match db.index[p]? with
  | none => []
  | some ep => if define then printdef db.file ep else [ep.word]

/-- `outline_output_result`. -/
def outlineOutputResult (db : OutlineDb) (define : Bool) : Result → ℕ → List Bytes
  | .run ep _, n => outputEntry db define (ep + n)
  | .list list, n => outputEntry db false (list.getD n db.index.length)

/-! ## What is in an outline -/

/-- The sections of the second level below the heading of the dictionary. -/
def dictionaryOf : Bool → List Article → List Article
  | _, [] => []
  | inside, a :: arts =>
    if a.level = 1 then dictionaryOf (cStrcaseeq a.title (ascii "dictionary")) arts
    else if inside = true ∧ a.level = 2 then a :: dictionaryOf inside arts
    else dictionaryOf inside arts

/-- The last section of the first level with a title. -/
def lastTitled (title : Bytes) (arts : List Article) : Option Article :=
  (arts.filter fun a => decide (a.level = 1) && cStrcaseeq a.title title).getLast?

/-! ## Texts -/

section Texts

variable {file : OutlineFile}

/-- The buffers together are the text, however long it is. -/
theorem flatten_printdefLoop {fuel : ℕ} (hfuel : file.rest.length < fuel) (size : ℕ) :
    (printdefLoop fuel file size).flatten = file.rest.take size := by
  induction fuel generalizing file size with
  | zero => omega
  | succ fuel ih =>
    have hroom : 0 < bufSize := by decide
    unfold printdefLoop OutlineFile.fread
    dsimp only
    split_ifs with hsize hnil
    · rw [hsize]
      rfl
    · rw [List.take_eq_nil_iff] at hnil
      rw [hnil.resolve_left (by omega), List.take_nil]
      rfl
    · obtain ⟨n, hn⟩ : ∃ n, n = (file.rest.take (min size bufSize)).length := ⟨_, rfl⟩
      have hpos := List.length_pos_of_ne_nil hnil
      rw [← hn] at hpos ⊢
      rw [List.length_take] at hn
      have hbuf : file.rest.take (min size bufSize) = file.rest.take n := by
        rw [List.take_eq_take_iff]
        omega
      have hless : (file.advance n).rest.length < fuel := by
        rw [rest_advance, List.length_drop]
        omega
      rw [List.flatten_cons, ih hless, rest_advance, hbuf, ← List.take_add,
        Nat.add_sub_cancel' (by omega)]

/-- **`printdef` writes the text of an entry.** -/
theorem flatten_printdef (file : OutlineFile) (ep : Entry) :
    (printdef file ep).flatten = (file.content.drop ep.offset).take ep.size := by
  unfold printdef
  rw [flatten_printdefLoop]
  · rfl
  · unfold OutlineFile.rest OutlineFile.seek
    rw [List.length_drop]
    dsimp only
    omega

end Texts

/-! ## What is collected -/

section Collecting

variable {st : Loading}

/-- No word is two titles. -/
theorem cStrcaseeq_other {word a b : Bytes} (hne : a.map cTolower ≠ b.map cTolower)
    (h : cStrcaseeq word a = true) : cStrcaseeq word b = false := by
  rw [cStrcaseeq, beq_iff_eq] at h
  rw [cStrcaseeq, beq_eq_false_iff_ne, h]
  exact hne

/-- What a section means at the first level, whatever was collected. -/
theorem topLevel_spec (hstate : st.state = .initial) (level : ℕ) (ep : Entry) :
    ((st.topLevel level ep).state = .dict ↔
      level = 1 ∧ cStrcaseeq ep.word (ascii "dictionary") = true) ∧
    (st.topLevel level ep).list = st.list ∧
    (st.topLevel level ep).info =
      (if level = 1 ∧ cStrcaseeq ep.word (ascii "info") = true then some ep else st.info) ∧
    (st.topLevel level ep).descr =
      if level = 1 ∧ cStrcaseeq ep.word (ascii "description") = true then some ep
      else st.descr := by
  have hnot : ¬ st.state = .dict := by
    rw [hstate]
    decide
  unfold Loading.topLevel
  by_cases hlevel : level = 1
  · simp only [hlevel, if_true, true_and]
    by_cases hinfo : cStrcaseeq ep.word (ascii "info") = true
    · have hdescr := cStrcaseeq_other (b := ascii "description") (by decide) hinfo
      have hdict := cStrcaseeq_other (b := ascii "dictionary") (by decide) hinfo
      simp only [hinfo, hdescr, hdict, hnot, if_true, Bool.false_eq_true, if_false, and_self]
    · by_cases hdescr : cStrcaseeq ep.word (ascii "description") = true
      · have hdict := cStrcaseeq_other (b := ascii "dictionary") (by decide) hdescr
        simp only [hinfo, hdescr, hdict, hnot, if_true, Bool.false_eq_true, if_false, and_self]
      · by_cases hlang : cStrcaseeq ep.word (ascii "languages") = true
        · have hdict := cStrcaseeq_other (b := ascii "dictionary") (by decide) hlang
          simp only [hinfo, hdescr, hlang, hdict, hnot, if_true, Bool.false_eq_true, if_false,
            and_self]
        · by_cases hdict : cStrcaseeq ep.word (ascii "dictionary") = true
          · simp only [hinfo, hdescr, hlang, hdict, if_true, Bool.false_eq_true, if_false,
              and_self]
          · simp only [hinfo, hdescr, hlang, hdict, hnot, Bool.false_eq_true, if_false, and_self]
  · simp only [hlevel, hnot, if_false, false_and, and_self]

/-- **One step of the loop**, for all that it collects. -/
theorem dispatch_spec (st : Loading) (level : ℕ) (ep : Entry) :
    ((st.dispatch level ep).state = .dict ↔
      if level = 1 then cStrcaseeq ep.word (ascii "dictionary") = true else st.state = .dict) ∧
    (st.dispatch level ep).list = st.list ++ (if st.state = .dict ∧ level = 2 then [ep] else []) ∧
    (st.dispatch level ep).info =
      (if level = 1 ∧ cStrcaseeq ep.word (ascii "info") = true then some ep else st.info) ∧
    (st.dispatch level ep).descr =
      if level = 1 ∧ cStrcaseeq ep.word (ascii "description") = true then some ep
      else st.descr := by
  unfold Loading.dispatch
  cases hstate : st.state with
  | initial =>
    obtain ⟨hnext, hlist, hinfo, hdescr⟩ := topLevel_spec hstate level ep
    dsimp only
    refine ⟨?_, ?_, hinfo, hdescr⟩
    · rw [hnext]
      split_ifs with hlevel
      · exact and_iff_right hlevel
      · exact iff_of_false (fun h => hlevel h.1) (by decide)
    · rw [hlist, if_neg (by rintro ⟨h, -⟩; cases h), List.append_nil]
  | dict =>
    dsimp only
    by_cases htwo : level = 2
    · subst htwo
      simp only [if_true, Nat.reduceEqDiff, if_false, false_and, and_self]
    · by_cases hone : level = 1
      · have hinitial : ({ st with state := .initial } : Loading).state = .initial := rfl
        obtain ⟨hnext, hlist, hinfo, hdescr⟩ := topLevel_spec hinitial level ep
        rw [if_neg htwo, if_pos hone, if_pos hone]
        refine ⟨hnext.trans (and_iff_right hone), ?_, hinfo, hdescr⟩
        rw [hlist, if_neg (fun h => htwo h.2), List.append_nil]
      · simp only [htwo, hone, if_false, hstate, and_false, false_and, List.append_nil, and_self]

/-- The last that was taken, of a section and those after it. -/
theorem lastTitled_cons (title : Bytes) (a : Article) (arts : List Article) :
    lastTitled title (a :: arts) = (lastTitled title arts).or
      (if a.level = 1 ∧ cStrcaseeq a.title title = true then some a else none) := by
  unfold lastTitled
  rw [List.filter_cons]
  by_cases h : a.level = 1 ∧ cStrcaseeq a.title title = true
  · rw [if_pos h, if_pos (by rw [h.2, decide_eq_true h.1]; rfl), List.getLast?_cons]
    cases (arts.filter fun a => decide (a.level = 1) && cStrcaseeq a.title title).getLast? with
    | none => rfl
    | some b => rfl
  · rw [if_neg h, if_neg (by rwa [Bool.and_eq_true, decide_eq_true_eq]), Option.or_none]

/-- What one more section changes of what is taken last. -/
theorem or_taken (content : Bytes) (level : ℕ) (ep : Entry) (title : Bytes)
    (later : Option Article) (before : Option Entry) :
    later.or ((if level = 1 ∧ cStrcaseeq ep.word title = true then some ep else before).map
        fun ep => view content (1, ep)) =
      (later.or (if (view content (level, ep)).level = 1 ∧
          cStrcaseeq (view content (level, ep)).title title = true then
        some (view content (level, ep)) else none)).or
      (before.map fun ep => view content (1, ep)) := by
  rw [Option.or_assoc]
  congr 1
  have htitle : (view content (level, ep)).title = ep.word := rfl
  have hlevel : (view content (level, ep)).level = level := rfl
  rw [htitle, hlevel]
  split_ifs with h
  · rw [h.1]
    rfl
  · rfl

/-- **What the whole loop collects**, in terms of what the entries stand
for. -/
theorem collected (content : Bytes) (es : List (ℕ × Entry)) (st : Loading) :
    ((es.foldl (fun st e => st.dispatch e.1 e.2) st).list.map fun ep => view content (2, ep)) =
      (st.list.map fun ep => view content (2, ep)) ++
        dictionaryOf (decide (st.state = .dict)) (es.map (view content)) ∧
    (es.foldl (fun st e => st.dispatch e.1 e.2) st).info.map (fun ep => view content (1, ep)) =
      (lastTitled (ascii "info") (es.map (view content))).or
        (st.info.map fun ep => view content (1, ep)) ∧
    (es.foldl (fun st e => st.dispatch e.1 e.2) st).descr.map (fun ep => view content (1, ep)) =
      (lastTitled (ascii "description") (es.map (view content))).or
        (st.descr.map fun ep => view content (1, ep)) := by
  induction es generalizing st with
  | nil => exact ⟨(List.append_nil _).symm, rfl, rfl⟩
  | cons e es ih =>
    obtain ⟨level, ep⟩ := e
    obtain ⟨hstate, hlist, hinfo, hdescr⟩ := dispatch_spec st level ep
    obtain ⟨ihlist, ihinfo, ihdescr⟩ := ih (st.dispatch level ep)
    rw [List.foldl_cons, List.map_cons, lastTitled_cons, lastTitled_cons]
    refine ⟨?_, ?_, ?_⟩
    · have htitle : (view content (level, ep)).title = ep.word := rfl
      have hlevel : (view content (level, ep)).level = level := rfl
      rw [ihlist, hlist, List.map_append, List.append_assoc, dictionaryOf, hlevel, htitle]
      congr 1
      by_cases hone : level = 1
      · rw [if_pos hone] at hstate ⊢
        have hnext : decide ((st.dispatch level ep).state = .dict) =
            cStrcaseeq ep.word (ascii "dictionary") := by
          rw [Bool.eq_iff_iff, decide_eq_true_iff]
          exact hstate
        rw [if_neg (by omega), hnext]
        rfl
      · rw [if_neg hone] at hstate ⊢
        rw [decide_eq_decide.2 hstate]
        simp only [decide_eq_true_eq]
        split_ifs with hin
        · rw [hin.2]
          rfl
        · rfl
    · rw [ihinfo, hinfo]
      exact or_taken content level ep _ _ _
    · rw [ihdescr, hdescr]
      exact or_taken content level ep _ _ _

end Collecting

/-! ## What a database says -/

section Saying

variable {db : OutlineDb} {order : List Article}

/-- What is written of a result, item by item. -/
def written (db : OutlineDb) (define : Bool) : Option Result → List Bytes
  | none => []
  | some res => (List.range (outlineResultCount res)).map fun n =>
      (outlineOutputResult db define res n).flatten

/-- **What a database with some articles, in order, has to say.** -/
structure Serves (db : OutlineDb) (order : List Article) : Prop where
  /-- A word that is a title, ignoring case, is defined by a text with this
  title, and another is not. -/
  define : ∀ bsearch, Finds bsearch → ∀ word : Utf8Text, ∃ r,
    outlineDefine bsearch db word.bytes = some r ∧
      ((written db true r = [] ∧ ∀ a ∈ order, folded (codesOf a.title) ≠ folded word.codes) ∨
        ∃ a ∈ order, folded (codesOf a.title) = folded word.codes ∧ written db true r = [a.text])
  /-- A selector's choice is matched. -/
  matchAll : ∀ (κ : Type) (select : κ → Bytes → Bool × κ) (key : κ),
    written db false (outlineMatchAll select db key) =
      (chosen select Article.title key order).map Article.title

/-- The comparisons that `exact_match` makes. -/
theorem exactMatch_eq {index : List Entry} (htext : IsText index) (word : Utf8Text) :
    ∃ cmp : ℕ → ℤ,
      (∀ p e, index[p]? = some e → utf8Strcasecmp word.bytes e.word = some (cmp p)) ∧
      ∀ bsearch : ℕ → (ℕ → ℤ) → Option ℕ, exactMatch bsearch index word.bytes =
        some ((bsearch index.length cmp).map fun ep => .run ep 1) := by
  have hdef : ∀ e ∈ index, ∃ rc, compareEntry (searchKey word.bytes) e = some rc := by
    intro e he
    obtain ⟨t, hword, -⟩ := htext e he
    exact ⟨_, by rw [compareEntry, hword]; exact utf8Strcasecmp_bytes word t⟩
  obtain ⟨rcs, hrcs⟩ := Bsearch.exists_mapM hdef
  refine ⟨fun p => rcs.getD p 0, fun p e he => Bsearch.getD_of_mapM hrcs he, fun bsearch => ?_⟩
  simp only [exactMatch, hrcs, Option.bind_eq_bind, Option.bind_some]
  cases bsearch index.length fun p => rcs.getD p 0 with
  | none => rfl
  | some ep => rfl

/-- **The positions that `outline_match_all` collects** are those of what
the selector chooses. -/
theorem matchAllLoop_eq {κ : Type} (select : κ → Bytes → Bool × κ) {index before after : List Entry}
    (hindex : index = before ++ after) (key : κ) (list : List ℕ) :
    ∃ ps, matchAllLoop select after before.length key list = list ++ ps ∧
      ps.map (index[·]?) = (chosen select Entry.word key after).map some := by
  induction after generalizing before key list with
  | nil => exact ⟨[], (List.append_nil list).symm, rfl⟩
  | cons e after ih =>
    have hget : index[before.length]? = some e := by
      rw [hindex, List.getElem?_append_right le_rfl, Nat.sub_self]
      rfl
    have hnext : index = (before ++ [e]) ++ after := by
      rw [hindex, List.append_assoc, List.singleton_append]
    obtain ⟨ps, hloop, hps⟩ := ih hnext (select key e.word).2
      (if (select key e.word).1 then list ++ [before.length] else list)
    rw [List.length_append, List.length_singleton] at hloop
    rw [matchAllLoop, chosen]
    dsimp only
    rw [hloop]
    split_ifs with hyes
    · refine ⟨before.length :: ps, List.append_assoc _ _ _, ?_⟩
      rw [List.map_cons, List.map_cons, hget, hps]
    · exact ⟨ps, rfl, hps⟩

/-- The items of a list, one after another. -/
theorem map_range_getD {α β : Type} (f : α → β) (l : List α) (d : α) :
    (List.range l.length).map (fun n => f (l.getD n d)) = l.map f := by
  refine List.ext_getElem (by rw [List.length_map, List.length_range, List.length_map]) ?_
  intro n _ hn
  rw [List.length_map] at hn
  rw [List.getElem_map, List.getElem_map, List.getElem_range, List.getD_eq_getElem?_getD,
    List.getElem?_eq_getElem hn, Option.getD_some]

/-- What the positions of a list write. -/
theorem written_list {ps : List ℕ} {es : List Entry}
    (h : ps.map (db.index[·]?) = es.map some) :
    written db false (some (.list ps)) = es.map Entry.word := by
  have hone : (fun p => (outputEntry db false p).flatten) =
      (fun e : Option Entry => (e.map Entry.word).getD []) ∘ (db.index[·]?) := by
    funext p
    unfold outputEntry
    rw [Function.comp_apply]
    cases db.index[p]? with
    | none => rfl
    | some ep => exact List.append_nil ep.word
  have hitems : written db false (some (.list ps)) =
      ps.map fun p => (outputEntry db false p).flatten :=
    map_range_getD (fun p => (outputEntry db false p).flatten) ps db.index.length
  rw [hitems, hone, ← List.map_map, h, List.map_map]
  rfl

/-- **A sorted index serves** what its entries stand for. -/
theorem serves_of_sorted (htext : IsText db.index) (hsort : Sorted db.index) :
    Serves db (db.index.map fun ep => view db.file.content (2, ep)) := by
  constructor
  · intro bsearch hbs word
    obtain ⟨cmp, hcmp, hexact⟩ := exactMatch_eq htext word
    have hparts := partitioned_of_sorted hsort hcmp
    have hzero : ∀ p e, db.index[p]? = some e →
        (cmp p = 0 ↔ folded (codesOf e.word) = folded word.codes) := by
      intro p e he
      obtain ⟨t, ht, -⟩ := htext.entry he
      have hrc := hcmp p e he
      rw [ht, utf8Strcasecmp_bytes, Option.some.injEq] at hrc
      rw [← hrc, lexSign_eq_zero, ht, codesOf_bytes, eq_comm]
    refine ⟨_, hexact bsearch, ?_⟩
    cases hfound : bsearch db.index.length cmp with
    | none =>
      refine .inl ⟨rfl, fun a ha heq => ?_⟩
      obtain ⟨ep, hep, rfl⟩ := List.mem_map.1 ha
      obtain ⟨p, hp⟩ := List.mem_iff_getElem?.1 hep
      obtain ⟨hlt, -⟩ := List.getElem?_eq_some_iff.1 hp
      exact hbs.complete _ _ p hparts hlt ((hzero p ep hp).2 heq) hfound
    | some p =>
      obtain ⟨hlt, hp⟩ := hbs.sound _ _ _ hfound
      have hget := List.getElem?_eq_getElem hlt
      refine .inr ⟨_, List.mem_map_of_mem (List.getElem_mem hlt), (hzero p _ hget).1 hp, ?_⟩
      simp only [written, Option.map_some, outlineResultCount, List.range_one, List.map_singleton,
        outlineOutputResult, Nat.add_zero, outputEntry, hget, if_true, flatten_printdef]
      rfl
  · intro κ select key
    have hnone : db.index = [] ++ db.index := rfl
    obtain ⟨ps, hloop, hps⟩ := matchAllLoop_eq select hnone key []
    have hwritten := written_list hps
    rw [List.length_nil, List.nil_append] at hloop
    have htitle : ∀ ep, Article.title (view db.file.content (2, ep)) = Entry.word ep :=
      fun _ => rfl
    have hchosen : (chosen select Entry.word key db.index).map
        (fun ep => view db.file.content (2, ep)) = chosen select Article.title key
          (db.index.map fun ep => view db.file.content (2, ep)) :=
      Choice.chosen_map htitle key db.index
    rw [← hchosen, List.map_map]
    unfold outlineMatchAll
    dsimp only
    rw [hloop]
    split_ifs with hnil
    · rw [List.length_eq_zero_iff.1 hnil] at hps
      rw [List.map_eq_nil_iff.1 hps.symm]
      rfl
    · exact hwritten

end Saying

/-! ## From the file to the replies -/

/-- `qsort` with `compare_entry`. -/
def Sorts (qsort : List Entry → List Entry) : Prop :=
  ∀ index, (qsort index).Perm index ∧ (IsText index → Sorted (qsort index))

/-- The sections of a file. -/
def outlineOf (content : Bytes) : List Article := articles (sectionsOf (lines 10 content)).2

/-- A text that `read_buf` can read. -/
def readable (a : Article) : Option Bytes := if a.sized then some a.text else none

/-- What is asked for of an entry that is remembered. -/
theorem readBuf_eq (file : OutlineFile) (ep : Entry) (level : ℕ) :
    readBuf file ep = readable (view file.content (level, ep)) := by
  unfold readBuf readable view
  simp only [decide_eq_true_eq]
  rfl

/-- A file without nulls is read as strings. -/
theorem map_cstring_readBuf {file : OutlineFile} (hnull : 0 ∉ file.content) (ep : Entry) :
    (readBuf file ep).map cstring = readBuf file ep := by
  unfold readBuf
  split_ifs
  · rw [Option.map_some, cstring_of_notMem]
    exact fun hmem => hnull (List.mem_of_mem_drop (List.mem_of_mem_take hmem))
  · rfl

/-- The entries that are collected are some of those that were read. -/
theorem mem_collected {es : List (ℕ × Entry)} {st : Loading} {ep : Entry}
    (h : ep ∈ (es.foldl (fun st e => st.dispatch e.1 e.2) st).list) :
    ep ∈ st.list ∨ ∃ e ∈ es, e.2 = ep := by
  induction es generalizing st with
  | nil => exact .inl h
  | cons e es ih =>
    rcases ih h with hmem | ⟨e', he', rfl⟩
    · rw [(dispatch_spec st e.1 e.2).2.1, List.mem_append] at hmem
      rcases hmem with hmem | hmem
      · exact .inl hmem
      · split_ifs at hmem
        · exact .inr ⟨e, List.mem_cons_self, (List.mem_singleton.1 hmem).symm⟩
        · cases hmem
    · exact .inr ⟨e', List.mem_cons_of_mem _ he', rfl⟩

/-- What is collected is text if the titles are. -/
theorem isText_collected {content : Bytes} {es : List (ℕ × Entry)}
    (halloc : ∀ e ∈ es, Allocated e)
    (htitles : ∀ a ∈ dictionaryOf false (es.map (view content)),
      ∃ t : Utf8Text, a.title = t.bytes) :
    IsText (es.foldl (fun st e => st.dispatch e.1 e.2) Loading.start).list := by
  intro ep hep
  obtain ⟨hlist, -⟩ := collected content es Loading.start
  have hmem : view content (2, ep) ∈ dictionaryOf false (es.map (view content)) := by
    have := List.mem_map_of_mem (f := fun ep => view content (2, ep)) hep
    rwa [hlist] at this
  obtain ⟨t, ht⟩ := htitles _ hmem
  have hword : ep.word = t.bytes := ht
  rcases mem_collected hep with hstart | ⟨e, he, rfl⟩
  · cases hstart
  · refine ⟨t, hword, ?_⟩
    rw [(halloc e he).2, hword, utf8Strlen_bytes]

/-- **An outline database says what is in its file.** The headers in the
file fit the buffer, nothing else is taken for one, and the titles in the
dictionary are UTF-8. Then the file is loaded, whatever order `qsort`
gives to titles that are the same ignoring case; words and selectors are
answered from the sections of the dictionary, and the description is that
of the sections for it. The last section of all is without its end. -/
theorem outline_serves (file : OutlineFile) (qsort : List Entry → List Entry)
    (hqsort : Sorts qsort) (hpos : file.pos = 0)
    (hlegible : ∀ l ∈ lines 10 file.content, LegibleLine l)
    (hend : EndsQuiet file.content (sectionsOf (lines 10 file.content)).2)
    (htitles : ∀ a ∈ dictionaryOf false (outlineOf file.content),
      ∃ t : Utf8Text, a.title = t.bytes) :
    ∃ db, (∀ fuel, (outlineOf file.content).length < fuel →
        outlineInitDb qsort fuel file = some db) ∧
      (∃ order, order.Perm (dictionaryOf false (outlineOf file.content)) ∧ Serves db order) ∧
      outlineInfo db = (lastTitled (ascii "info") (outlineOf file.content)).bind readable ∧
      outlineDescr db =
        match lastTitled (ascii "description") (outlineOf file.content) with
        | none => some none
        | some a => (readable a).map fun text =>
            some (text.takeWhile fun c => decide (c ≠ 10)) := by
  obtain ⟨hbefore, hsections⟩ := sectionsOf_legible hlegible
  have hnull : 0 ∉ file.content := by
    rw [← Lines.flatten_lines 10 file.content, List.mem_flatten]
    rintro ⟨l, hl, hmem⟩
    exact (hlegible l hl).elim (fun h => h.1 hmem) fun h => h.1 hmem
  have hlines : lines 10 file.rest = (sectionsOf (lines 10 file.content)).1 ++
      (sectionsOf (lines 10 file.content)).2.flatMap Section.lines := by
    rw [OutlineFile.rest, hpos, List.drop_zero, sectionsOf_lines]
  obtain ⟨es, hreads, hview, halloc⟩ :=
    reads_sections hlines hbefore hsections (by omega) hend
  rw [← outlineOf] at hview
  obtain ⟨st, hst⟩ : ∃ st, st = es.foldl (fun st e => st.dispatch e.1 e.2) Loading.start := ⟨_, rfl⟩
  obtain ⟨hlist, hinfo, hdescr⟩ := collected file.content es Loading.start
  rw [← hst, hview, Loading.start, Option.map_none, Option.or_none] at hinfo hdescr
  rw [← hst, hview] at hlist
  have htext : IsText st.list := by
    rw [hst]
    exact isText_collected halloc (hview ▸ htitles)
  obtain ⟨hperm, hsorted⟩ := hqsort st.list
  have htext' : IsText (qsort st.list) := fun ep hep => htext ep (hperm.mem_iff.1 hep)
  refine ⟨⟨file, qsort st.list, st.info, st.descr, st.lang⟩, ?_, ⟨_, ?_,
    serves_of_sorted htext' (hsorted htext)⟩, ?_, ?_⟩
  · intro fuel hfuel
    rw [outlineOf, length_articles] at hfuel
    rw [outlineInitDb, initDbLoop_eq, hreads fuel hfuel, hst]
    rfl
  · have hmap := hperm.map fun ep => view file.content (2, ep)
    rwa [hlist] at hmap
  · rw [outlineInfo, ← hinfo]
    cases st.info with
    | none => rfl
    | some ep =>
      dsimp only
      rw [Option.bind_some, Option.map_some, Option.bind_some, map_cstring_readBuf hnull,
        readBuf_eq file ep 1]
  · rw [outlineDescr, ← hdescr]
    cases st.descr with
    | none => rfl
    | some ep =>
      have hstring := map_cstring_readBuf hnull ep
      rw [Option.map_some]
      dsimp only
      rw [← readBuf_eq file ep 1]
      cases hbuf : readBuf file ep with
      | none => rfl
      | some buf =>
        rw [hbuf, Option.map_some, Option.some.injEq] at hstring
        rw [Option.map_some, Option.map_some, hstring]

/-- A line that fits the buffer is what it seems to be. -/
theorem legibleLine_of_le {l : Bytes} (hle : l.length ≤ room) (hnull : 0 ∉ l) : LegibleLine l := by
  by_cases hstar : l.head? = some 42
  · exact .inr ⟨hnull, hstar, hle⟩
  · exact .inl ⟨hnull, quiet_of_le hle hstar⟩

/-- A `qsort` that inserts one entry after the other. -/
def insertionQsort (index : List Entry) : List Entry :=
  index.insertionSort fun a b => folded (codesOf a.word) ≤ folded (codesOf b.word)

/-- It sorts. -/
theorem sorts_insertionQsort : Sorts insertionQsort := by
  intro index
  have htotal : Std.Total fun a b : Entry => folded (codesOf a.word) ≤ folded (codesOf b.word) :=
    ⟨fun a b => le_total _ _⟩
  have htrans : IsTrans Entry fun a b => folded (codesOf a.word) ≤ folded (codesOf b.word) :=
    ⟨fun a b c => le_trans⟩
  refine ⟨List.perm_insertionSort _ _, fun htext => ?_⟩
  have hmem : ∀ e ∈ insertionQsort index, ∃ t : Utf8Text, e.word = t.bytes := by
    intro e he
    obtain ⟨t, ht, -⟩ := htext e ((List.perm_insertionSort _ _).mem_iff.1 he)
    exact ⟨t, ht⟩
  refine (List.pairwise_insertionSort _ index).imp_of_mem fun {a b} ha hb hle => ?_
  obtain ⟨s, hs⟩ := hmem a ha
  obtain ⟨t, ht⟩ := hmem b hb
  rw [hs, ht, codesOf_bytes, codesOf_bytes] at hle
  refine ⟨_, ?_, lexSign_nonpos.2 hle⟩
  rw [compareEntry, hs, ht, utf8Strcasecmp_bytes]

/-- A file with two headwords. -/
def beasts : OutlineFile where
  content := ascii "Beasts\n* Info\n\nSome beasts\n* Dictionary\n** cat\n\nIt purrs.\n\n" ++
    ascii "** Ant \nIt toils.\n* Description\nA short list of beasts\n"
  pos := 0
  length_lt := by decide +kernel

/-- What it says. -/
theorem outlineOf_beasts : outlineOf beasts.content =
    [⟨1, ascii "Info", ascii "Some beasts\n", true⟩, ⟨1, ascii "Dictionary", [], true⟩,
      ⟨2, ascii "cat", ascii "It purrs.\n\n", true⟩, ⟨2, ascii "Ant", ascii "It toils.\n", true⟩,
      ⟨1, ascii "Description", ascii "A short l", true⟩] := by
  decide +kernel

/-- Its dictionary. -/
theorem dictionaryOf_beasts : dictionaryOf false (outlineOf beasts.content) =
    [⟨2, ascii "cat", ascii "It purrs.\n\n", true⟩,
      ⟨2, ascii "Ant", ascii "It toils.\n", true⟩] := by
  rw [outlineOf_beasts]
  decide +kernel

/-- It is served, and its description is cut. -/
theorem outline_serves_beasts : ∃ db, outlineInitDb insertionQsort 6 beasts = some db ∧
    (∃ order, order.Perm (dictionaryOf false (outlineOf beasts.content)) ∧ Serves db order) ∧
    outlineInfo db = some (ascii "Some beasts\n") ∧
    outlineDescr db = some (some (ascii "A short l")) := by
  obtain ⟨db, hdb, hserves, hinfo, hdescr⟩ :=
    outline_serves beasts insertionQsort sorts_insertionQsort rfl
      (by
        have hall : ∀ l ∈ lines 10 beasts.content, l.length ≤ room ∧ 0 ∉ l := by decide +kernel
        exact fun l hl => legibleLine_of_le (hall l hl).1 (hall l hl).2)
      (by
        have hall : ∀ s ∈ (sectionsOf (lines 10 beasts.content)).2.getLast?,
            ∀ l ∈ lines 10 (beasts.content.drop (beasts.content.length - s.header.length)),
              l.length ≤ room ∧ l.head? ≠ some 42 := by
          decide +kernel
        exact fun s hs l hl => quiet_of_le (hall s hs l hl).1 (hall s hs l hl).2)
      (by
        rw [dictionaryOf_beasts]
        exact List.forall_mem_cons.2 ⟨⟨⟨['c', 'a', 't'], by decide⟩, by decide +kernel⟩,
          List.forall_mem_singleton.2 ⟨⟨['A', 'n', 't'], by decide⟩, by decide +kernel⟩⟩)
  rw [outlineOf_beasts] at hdb hinfo hdescr
  exact ⟨db, hdb 6 (by decide), hserves, hinfo.trans (by decide +kernel),
    hdescr.trans (by decide +kernel)⟩

end Outline

end Dico
