import Dico.Outline.Database
import Dico.Session.Results
/-!
# Articles of an outline in replies

A database of the outline module is one of those a session looks up words
in. What the client reads is what is in the file: the text of a section
for `DEFINE`, line by line, and for `MATCH` the titles that the selector of
the strategy chooses (`outline_answered`).
-/

namespace Dico

open DicoStream Lines
open Bsearch (Finds)
open Choice (chosen)
open Outline (OutlineDb Article Serves outlineDefine outlineMatchAll outlineOutputResult
  outlineResultCount outlineDescr outlineInfo)

/-! ## The module -/

/-- A result as the daemon sees it; the callback has no headers. -/
def outlineResult (db : OutlineDb) (define : Bool) (res : Outline.Result) : DbResult where
  count := outlineResultCount res
  output n := (outlineOutputResult db define res n).flatten
  headers := none

/-- The selector of a strategy, and the key it begins with for a word. -/
structure Selector where
  /-- What it keeps in its key. -/
  Key : Type
  /-- `sel` with `DICO_SELECT_RUN`. -/
  run : Key → Bytes → Bool × Key
  /-- `dico_key_init`, which may fail. -/
  init : Bytes → Option Key

/-- `strat_tab`: the strategies with a matcher of the module. -/
def stratTab : List Bytes := [ascii "exact", ascii "prefix", ascii "suffix"]

instance (name : Bytes) : Decidable (name ∈ stratTab) := decidable_of_iff _ any_eq_iff

/-- The callbacks of the outline module. A matcher is looked for by the
name of the strategy, and where there is none its selector is asked. -/
def outlineModule (bsearch : ℕ → (ℕ → ℤ) → Option ℕ)
    (matcher : Bytes → Bytes → Option Outline.Result) (sel : Strategy → Option Selector)
    (lang : LangLists → LangLists) (db : OutlineDb) : DbModule where
  define word := ((outlineDefine bsearch db word).getD none).map (outlineResult db true)
  match_ strat word :=
    if strat.name ∈ stratTab then (matcher strat.name word).map (outlineResult db false)
    else (sel strat).bind fun sel => (sel.init word).bind fun key =>
      (outlineMatchAll sel.run db key).map (outlineResult db false)
  dbDescr := some ((outlineDescr db).getD none)
  dbInfo := some (outlineInfo db)
  dbLang := some lang

/-! ## Replies -/

section Replies

variable {L : Limits} {P : Printing} {block : Bytes} {s : Session} {dbase : Database}

/-- The reply with a definition, or without. -/
def articleAnswer (dbase : Database) (word : Bytes) : Option Article → Answer
  | none => noMatchAnswer
  | some a => .definitions (ascii "150 1 definitions found: list follows\n")
      [(statusLine word dbase.name ((dicodGetDatabaseDescr dbase).getD []),
        definitionLines a.text)] (ascii "250 Command complete\n")

/-- The reply with some titles, or without. -/
def titlesAnswer (dbase : Database) (titles : List Bytes) : Answer :=
  if titles = [] then noMatchAnswer
  else .listing (matchFrame.begfmt titles.length)
    (lines newline (titles.flatMap (matchText dbase.name))) (ascii "250 Command complete\n")

/-- The calls that print titles. -/
def titlePuts (P : Printing) (name : Bytes) (titles : List Bytes) : List Put :=
  titles.flatMap fun title => P.cut name ++ (P.cut (ascii " \"") ++
    (P.cut title ++ P.cut (ascii "\"\n")))

/-- What a visible database finds. -/
theorem foundIn_eq (strat : Option Strategy) (word : Bytes) (hvisible : dbase.visible = true) :
    foundIn strat word dbase = (queryDb strat word dbase).bind fun res =>
      if res.count = 0 then none else some (dbase, res) := by
  unfold foundIn
  rw [if_pos hvisible]
  cases queryDb strat word dbase <;> rfl

/-- A lookup in a database that is named. -/
theorem lookedUp_named (strat : Option Strategy) (word : Bytes)
    (hfind : findDatabase s dbase.name = some dbase) (hfirst : dbase.name ≠ ascii "!")
    (hall : dbase.name ≠ ascii "*") :
    lookedUp s dbase.name strat word = some (foundIn strat word dbase).toList := by
  rw [lookedUp, if_neg hfirst, if_neg hall, hfind, Option.map_some]

variable {db : OutlineDb} {define : Bool} {res : Outline.Result}

/-- The items of a result are what is written of it. -/
theorem itemsOf_outlineResult (dbase : Database) (db : OutlineDb) (define : Bool)
    (res : Outline.Result) :
    (itemsOf [(dbase, outlineResult db define res)]).map itemText =
      Outline.written db define (some res) := by
  rw [itemsOf, List.flatMap_singleton, List.map_map]
  rfl

/-- There are as many. -/
theorem count_outlineResult (db : OutlineDb) (define : Bool) (res : Outline.Result) :
    (outlineResult db define res).count = (Outline.written db define (some res)).length := by
  rw [Outline.written, List.length_map, List.length_range]
  rfl

/-- **The reply to `DEFINE`** from what is written of a result. -/
theorem definitionsAnswer_outline {word text : Bytes}
    (hwritten : Outline.written db true (some res) = [text]) (read : Bytes → List Bytes) :
    definitionsAnswer read word [(dbase, outlineResult db true res)] =
      .definitions (ascii "150 1 definitions found: list follows\n")
        [(statusLine word dbase.name ((dicodGetDatabaseDescr dbase).getD []), read text)]
        (ascii "250 Command complete\n") := by
  have hcount := count_outlineResult db true res
  rw [hwritten, List.length_singleton] at hcount
  have hitems : itemsOf [(dbase, outlineResult db true res)] =
      [((dbase, outlineResult db true res), 0)] := by
    rw [itemsOf, List.flatMap_singleton, hcount]
    rfl
  have htext := itemsOf_outlineResult dbase db true res
  rw [hitems, hwritten, List.map_singleton] at htext
  rw [definitionsAnswer, if_neg (List.cons_ne_nil _ _), hitems, List.map_singleton,
    (List.cons.inj htext).1]
  have hline : defineFrame.begfmt [((dbase, outlineResult db true res), 0)].length =
      ascii "150 1 definitions found: list follows\n" := by
    rw [List.length_singleton]
    decide
  rw [hline]
  rfl

/-- **The reply to `MATCH`**, the same way. -/
theorem matchesAnswer_outline (hne : Outline.written db false (some res) ≠ []) :
    matchesAnswer (lines newline (matchesText [(dbase, outlineResult db false res)]))
        [(dbase, outlineResult db false res)] =
      titlesAnswer dbase (Outline.written db false (some res)) := by
  have htexts := itemsOf_outlineResult dbase db false res
  have hlen := congrArg List.length htexts
  rw [List.length_map] at hlen
  have hnames : ∀ x ∈ itemsOf [(dbase, outlineResult db false res)],
      matchText x.1.1.name (itemText x) = matchText dbase.name (itemText x) := by
    intro x hx
    rw [itemsOf, List.flatMap_singleton] at hx
    obtain ⟨i, -, rfl⟩ := List.mem_map.1 hx
    rfl
  rw [matchesAnswer, if_neg (List.cons_ne_nil _ _), titlesAnswer, if_neg hne, hlen, matchesText,
    List.flatMap_congr hnames, ← htexts, List.flatMap_map]

/-- The calls are the same, too. -/
theorem matchPuts_outline (P : Printing) :
    matchPuts P [(dbase, outlineResult db false res)] =
      titlePuts P dbase.name (Outline.written db false (some res)) := by
  have hnames : ∀ x ∈ itemsOf [(dbase, outlineResult db false res)],
      x.1.1.name = dbase.name := by
    intro x hx
    rw [itemsOf, List.flatMap_singleton] at hx
    obtain ⟨i, -, rfl⟩ := List.mem_map.1 hx
    rfl
  rw [matchPuts, titlePuts, ← itemsOf_outlineResult dbase, List.flatMap_map]
  exact List.flatMap_congr fun x hx => by rw [hnames x hx]

end Replies

/-! ## What a client reads -/

section Client

variable {L : Limits} {P : Printing} {block : Bytes} {s : Session} {dbase : Database}
  {db : OutlineDb} {order : List Article} {bsearch : ℕ → (ℕ → ℤ) → Option ℕ}
  {matcher : Bytes → Bytes → Option Outline.Result} {sel : Strategy → Option Selector}
  {lang : LangLists → LangLists}

/-- A definition that is what there is to find. -/
def FoundArticle (order : List Article) (word : Utf8Text) : Option Article → Prop
  | none => ∀ a ∈ order, folded (codesOf a.title) ≠ folded word.codes
  | some a => a ∈ order ∧ folded (codesOf a.title) = folded word.codes

/-- **`DEFINE` over an outline database.** -/
theorem dicodDefine_outline (hblock : 0 < block.length) (hs : ∀ db ∈ s.databases, db.Tidy P)
    (hfind : findDatabase s dbase.name = some dbase) (hfirst : dbase.name ≠ ascii "!")
    (hall : dbase.name ≠ ascii "*") (hserves : Serves db order) (hbs : Finds bsearch)
    (hmodule : dbase.module = outlineModule bsearch matcher sel lang db) (cmd : Bytes)
    (word : Utf8Text) (hword : newline ∉ word.bytes) :
    ∃ found, FoundArticle order word found ∧
      ((∀ a, found = some a → Unbroken block.length (P.cut a.text)) →
        AnswersWith L P block false (dicodDefine s [cmd, dbase.name, word.bytes])
          (articleAnswer dbase word.bytes found)) := by
  have hread : AnswersWith L P block false (dicodDefine s [cmd, dbase.name, word.bytes]) _ :=
    dicodDefine_answers hblock hs hword
  have hvisible := (visible_of_find hfind).2
  obtain ⟨r, hr, hwritten⟩ := hserves.define bsearch hbs word
  have hquery : queryDb none word.bytes dbase = r.map (outlineResult db true) := by
    rw [queryDb, hmodule]
    exact congrArg (fun r => (r.getD none).map (outlineResult db true)) hr
  have hlooked := lookedUp_named none word.bytes hfind hfirst hall
  rw [foundIn_eq _ _ hvisible, hquery] at hlooked
  have hanswer : ∀ found, lookedUp s dbase.name none word.bytes = some found →
      defineAnswer (fun text => textLines (entryMarks P block text)) s
          [cmd, dbase.name, word.bytes] =
        definitionsAnswer (fun text => textLines (entryMarks P block text)) word.bytes found := by
    intro found hfound
    rw [defineAnswer]
    simp only [List.getD_cons_succ, List.getD_cons_zero, hfound]
  rw [hanswer _ hlooked] at hread
  cases r with
  | none =>
    rcases hwritten with ⟨-, hnone⟩ | ⟨a, -, -, htext⟩
    · exact ⟨none, hnone, fun _ => hread⟩
    · cases htext
  | some res =>
    have hcount := count_outlineResult db true res
    rcases hwritten with ⟨hnil, hnone⟩ | ⟨a, ha, htitle, htext⟩
    · rw [hnil, List.length_nil] at hcount
      rw [Option.map_some, Option.bind_some, if_pos hcount] at hread
      exact ⟨none, hnone, fun _ => hread⟩
    · rw [htext, List.length_singleton] at hcount
      rw [Option.map_some, Option.bind_some, if_neg (by omega), Option.toList_some,
        definitionsAnswer_outline htext] at hread
      refine ⟨some a, ⟨ha, htitle⟩, fun hun => ?_⟩
      rw [textLines_entryMarks (hun a rfl)] at hread
      exact hread

/-- **`MATCH` over an outline database**, with a strategy that the module has
no matcher for. -/
theorem dicodMatch_outline (hblock : 0 < block.length)
    (hfind : findDatabase s dbase.name = some dbase) (hfirst : dbase.name ≠ ascii "!")
    (hall : dbase.name ≠ ascii "*") (hserves : Serves db order)
    (hmodule : dbase.module = outlineModule bsearch matcher sel lang db) (cmd word : Bytes)
    (cfg : Config) {name : Bytes} {strat : Strategy}
    (hstrat : dicoStrategyFind cfg name = some strat)
    (hown : strat.name ∉ stratTab) {sl : Selector} (hsel : sel strat = some sl) {key : sl.Key}
    (hkey : sl.init word = some key) {titles : List Bytes}
    (htitles : titles = (chosen sl.run Article.title key order).map Article.title)
    (hun : Unbroken block.length (titlePuts P dbase.name titles)) :
    AnswersWith L P block false (dicodMatch cfg s [cmd, dbase.name, name, word])
      (titlesAnswer dbase titles) := by
  have hread := dicodMatch_answers (L := L) (P := P) hblock cfg s [cmd, dbase.name, name, word]
  have hvisible := (visible_of_find hfind).2
  have hwritten := hserves.matchAll sl.Key sl.run key
  rw [← htitles] at hwritten
  have hquery : queryDb (some strat) word dbase =
      (outlineMatchAll sl.run db key).map (outlineResult db false) := by
    rw [queryDb, hmodule, outlineModule]
    dsimp only
    rw [if_neg hown, hsel, Option.bind_some, hkey, Option.bind_some]
  have hlooked := lookedUp_named (some strat) word hfind hfirst hall
  rw [foundIn_eq _ _ hvisible, hquery] at hlooked
  rw [matchAnswer] at hread
  simp only [List.getD_cons_succ, List.getD_cons_zero, hstrat, hlooked] at hread
  cases hres : outlineMatchAll sl.run db key with
  | none =>
    rw [hres] at hread hwritten
    have hnil : titles = [] := hwritten.symm
    rw [titlesAnswer, if_pos hnil]
    exact hread
  | some res =>
    rw [hres] at hread hwritten
    have hcount := count_outlineResult db false res
    rw [hwritten] at hcount
    by_cases hnil : titles = []
    · rw [hnil, List.length_nil] at hcount
      rw [Option.map_some, Option.bind_some, if_pos hcount] at hread
      rw [titlesAnswer, if_pos hnil]
      exact hread
    · have hpos := List.length_pos_of_ne_nil hnil
      rw [Option.map_some, Option.bind_some, if_neg (by omega), Option.toList_some] at hread
      rw [← hwritten] at hun hnil ⊢
      rw [← matchPuts_outline] at hun
      rw [textLines_matches hun, matchesAnswer_outline hnil] at hread
      exact hread

/-- **A client reads what is in the file.** In a database that serves some
articles, `DEFINE` is answered with the text of an article whose title is
the word, ignoring case, if there is one, and `MATCH` with the titles that
the selector of the strategy chooses, in the order of the index. -/
theorem outline_answered (hblock : 0 < block.length) (hs : ∀ db ∈ s.databases, db.Tidy P)
    (hfind : findDatabase s dbase.name = some dbase) (hfirst : dbase.name ≠ ascii "!")
    (hall : dbase.name ≠ ascii "*") (hserves : Serves db order) (hbs : Finds bsearch)
    (hmodule : dbase.module = outlineModule bsearch matcher sel lang db) (cmd : Bytes)
    (word : Utf8Text) (hword : newline ∉ word.bytes) :
    (∃ found, FoundArticle order word found ∧
      ((∀ a, found = some a → Unbroken block.length (P.cut a.text)) →
        AnswersWith L P block false (dicodDefine s [cmd, dbase.name, word.bytes])
          (articleAnswer dbase word.bytes found))) ∧
    ∀ cfg name strat sl key titles, dicoStrategyFind cfg name = some strat →
      strat.name ∉ stratTab → sel strat = some sl → sl.init word.bytes = some key →
      titles = (chosen sl.run Article.title key order).map Article.title →
      Unbroken block.length (titlePuts P dbase.name titles) →
      AnswersWith L P block false (dicodMatch cfg s [cmd, dbase.name, name, word.bytes])
        (titlesAnswer dbase titles) :=
  ⟨dicodDefine_outline hblock hs hfind hfirst hall hserves hbs hmodule cmd word hword,
    fun cfg _ _ _ _ _ hstrat hown hsel hkey htitles hun =>
      dicodMatch_outline hblock hfind hfirst hall hserves hmodule cmd word.bytes cfg hstrat hown
        hsel hkey htitles hun⟩

/-- The index of the file with two headwords. -/
def beastsDb : OutlineDb where
  file := Outline.beasts
  index := [⟨ascii "Ant", 3, some 3, 67, 10⟩, ⟨ascii "cat", 3, some 3, 48, 11⟩]
  info := none
  descr := none
  lang := none

/-- Its articles. -/
def beastsOrder : List Article :=
  [⟨2, ascii "Ant", ascii "It toils.\n", true⟩, ⟨2, ascii "cat", ascii "It purrs.\n\n", true⟩]

theorem serves_beastsDb : Serves beastsDb beastsOrder := by
  have hview : beastsDb.index.map (fun ep => Outline.view beastsDb.file.content (2, ep)) =
      beastsOrder := by
    decide +kernel
  rw [← hview]
  refine Outline.serves_of_sorted ?_ ?_
  · exact List.forall_mem_cons.2 ⟨⟨⟨['A', 'n', 't'], by decide⟩, by decide +kernel⟩,
      List.forall_mem_singleton.2 ⟨⟨['c', 'a', 't'], by decide⟩, by decide +kernel⟩⟩
  · exact List.pairwise_pair.2 ⟨-1, by decide +kernel, by decide⟩

/-- A database of it. -/
def beastsBase : Database where
  langKnown := false
  name := ascii "b"
  descr := some (ascii "Beasts")
  info := none
  langlist := (none, none)
  acl := none
  visible := true
  mimeHeaders := none
  module := outlineModule Bsearch.bisect (fun _ _ => none) (fun _ => none) (fun l => l) beastsDb

/-- A word in capitals. -/
def capitals : Utf8Text where
  chars := ['C', 'A', 'T']
  null_notMem := by decide

theorem outline_answered_beasts :
    AnswersWith ample printOnce (List.replicate 1024 0) false
      (dicodDefine (.start [] [beastsBase]) [ascii "DEFINE", ascii "b", capitals.bytes])
      (articleAnswer beastsBase capitals.bytes
        (some ⟨2, ascii "cat", ascii "It purrs.\n\n", true⟩)) := by
  have hblock : 0 < (List.replicate 1024 (0 : UInt8)).length := by
    rw [List.length_replicate]
    decide
  have hdb : beastsBase.Tidy printOnce := by
    refine ⟨by decide, by decide, by decide, ?_⟩
    intro text h
    cases h
  have hfind : findDatabase (.start [] [beastsBase]) beastsBase.name = some beastsBase := rfl
  have hmodule : beastsBase.module = outlineModule Bsearch.bisect (fun _ _ => none)
    (fun _ => none) (fun l => l) beastsDb := rfl
  obtain ⟨⟨found, hfound, hread⟩, -⟩ :=
    outline_answered (L := ample) hblock (List.forall_mem_singleton.2 hdb) hfind (by decide)
      (by decide) serves_beastsDb Bsearch.finds_bisect hmodule (ascii "DEFINE") capitals
      (by decide +kernel)
  have hant : folded (codesOf (ascii "Ant")) ≠ folded capitals.codes := by decide +kernel
  have hcat : folded (codesOf (ascii "cat")) = folded capitals.codes := by decide +kernel
  cases found with
  | none => exact absurd hcat (hfound _ (List.mem_cons_of_mem _ (List.mem_singleton_self _)))
  | some a =>
    obtain ⟨ha, htitle⟩ := hfound
    rcases List.mem_cons.1 ha with rfl | ha
    · exact absurd htitle hant
    · obtain rfl := List.mem_singleton.1 ha
      refine hread fun b hb => ?_
      obtain rfl := Option.some.inj hb
      rw [List.length_replicate]
      decide

end Client

end Dico
