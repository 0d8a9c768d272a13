import Dico.Reply.Define
import Dico.Reply.Framing
import Dico.Session.Visibility
/-!
# Replies with definitions and matches

`DEFINE` and `MATCH` reply with what the visible databases find, the first
of them, all of them, or one that was named, along different paths of the
code. `lookedUp` says what they find, and whatever the path the reply is
the one reply with that in it (`dicodDefine_answers`, `dicodMatch_answers`):
as many definitions as were announced, a line for each match, and the texts
as they were written unless a dot inside a line met an empty buffer
(`definitionsAnswer_eq`, `textLines_matches`).

What it takes is that the texts that go into status lines have no newline
(`Database.Tidy`).
-/

namespace Dico

open DicoStream Lines

/-! ## Texts that stay on their line -/

/-- The words of two lists. -/
def langWords (l : LangLists) : List Bytes := l.1.getD [] ++ l.2.getD []

/-- A text can be written line by line. -/
def Printing.Takes (P : Printing) (text : Bytes) : Prop := ∃ lines, P.lines text = .ok lines

/-- What a database contributes to status lines has no newline. -/
structure Database.Tidy (P : Printing) (db : Database) : Prop where
  name : newline ∉ db.name
  descr : newline ∉ (dicodGetDatabaseDescr db).getD []
  langs : ∀ l ∈ langWords (databaseLanguages db), newline ∉ l
  info : ∀ text, dicodGetDatabaseInfo db = some text → P.Takes text

/-- Nor has what the configuration does. -/
structure Config.Tidy (P : Printing) (cfg : Config) : Prop where
  packageString : newline ∉ cfg.packageString
  sysname : newline ∉ cfg.sysname
  release : newline ∉ cfg.release
  hostname : newline ∉ cfg.hostname
  programVersion : newline ∉ cfg.programVersion
  markupList : ∀ p ∈ cfg.markupList, newline ∉ p
  serverInfo : ∀ text, cfg.serverInfo = some text → P.Takes text
  helpText : ∀ text, cfg.helpText = some text →
    P.Takes (if text.head? = some 43 then text.tail else text)

/-- And what a session does. Its commands have neither the exchange of a
SASL login nor the MIME option. -/
structure Session.Tidy (P : Printing) (s : Session) : Prop where
  databases : ∀ db ∈ s.databases, db.Tidy P
  lang : ∀ l ∈ s.lang.lazy.getD [] ++ langWords s.lang.prefs, newline ∉ l
  markup : newline ∉ s.markupType
  mime : s.optionMime = false
  commands : ∀ cmd ∈ s.commandList, cmd.handler ≠ .mime ∧ cmd.handler ≠ .saslauth

section Lines

variable {a t l z : Bytes}

/-- A line as the source has it. -/
theorem isLine_of_dropLast (h : l = l.dropLast ++ [newline] ∧ newline ∉ l.dropLast) : IsLine l :=
  ⟨l.dropLast, h⟩

/-- A text inside a line. -/
theorem isLine_around (ha : newline ∉ a) (ht : newline ∉ t) (hz : IsLine z) :
    IsLine (a ++ t ++ z) := by
  rw [List.append_assoc]
  exact (hz.append ht).append ha

theorem newline_notMem_append (ha : newline ∉ a) (ht : newline ∉ t) : newline ∉ a ++ t := by
  rw [List.mem_append, not_or]
  exact ⟨ha, ht⟩

/-- The digits of a number. -/
theorem newline_notMem_decimal (n : ℕ) : newline ∉ decimal n := by
  intro h
  exact absurd (digits_decimal n newline h) (by decide)

/-- The code in front of a line. -/
theorem take_around (ha : 3 ≤ a.length) : (a ++ t ++ z).take 3 = a.take 3 := by
  rw [List.append_assoc, take_code ha]

end Lines

/-! ## Results -/

section Results

variable {L : Limits} {P : Printing} {block : Bytes} {dbs : List Database}
  {strat : Option Strategy} {word : Bytes}

/-- The items of some results. -/
def itemsOf (found : List (Database × DbResult)) : List ((Database × DbResult) × ℕ) :=
  found.flatMap fun x => (List.range x.2.count).map fun i => (x, i)

/-- How many there are. -/
theorem length_itemsOf (found : List (Database × DbResult)) :
    (itemsOf found).length = (found.map fun x => x.2.count).sum := by
  simp only [itemsOf, List.length_flatMap, List.length_map, List.length_range]

/-- The results that a lookup in the visible databases replies with: of the
first that finds something, or of all of them. -/
def resultsOf (first : Bool) (dbs : List Database) (strat : Option Strategy) (word : Bytes) :
    List (Database × DbResult) :=
  if deniedWord strat word then []
  else if first then (dbs.filterMap (foundIn strat word)).take 1
  else dbs.filterMap (foundIn strat word)

/-- A result has something in it, and its database is one of those there
are. -/
theorem foundIn_some {db : Database} {x : Database × DbResult}
    (h : foundIn strat word db = some x) : x.1 = db ∧ x.2.count ≠ 0 := by
  unfold foundIn at h
  split at h
  · split at h
    · cases h
    · split at h
      · cases h
      · next hcount =>
        obtain rfl := Option.some.inj h
        exact ⟨rfl, hcount⟩
  · cases h

theorem mem_resultsOf {first : Bool} {x : Database × DbResult}
    (h : x ∈ resultsOf first dbs strat word) : x.1 ∈ dbs ∧ x.2.count ≠ 0 := by
  have hmem : x ∈ dbs.filterMap (foundIn strat word) := by
    unfold resultsOf at h
    split_ifs at h
    · cases h
    · exact List.mem_of_mem_take h
    · exact h
  obtain ⟨db, hdb, hx⟩ := List.mem_filterMap.1 hmem
  obtain ⟨rfl, hcount⟩ := foundIn_some hx
  exact ⟨hdb, hcount⟩

/-- What `dicod_word_first` and `dicod_word_all` reply with. -/
def wordReply (found : List (Database × DbResult)) (f : Frame)
    (proc : Database → DbResult → Reply) : Reply :=
  if found = [] then noMatch
  else f.around (found.map fun x => x.2.count).sum (found.flatMap fun x => proc x.1 x.2)

/-- The first database that finds something. -/
theorem dicodWordFirst_eq (f : Frame) (proc : Database → DbResult → Reply) :
    dicodWordFirst dbs strat word f proc = wordReply (resultsOf true dbs strat word) f proc := by
  unfold dicodWordFirst resultsOf
  by_cases hdenied : deniedWord strat word = true
  · rw [if_pos hdenied, if_pos hdenied]
    rfl
  · rw [if_neg hdenied, if_neg hdenied, if_pos rfl]
    induction dbs with
    | nil => rfl
    | cons db dbs ih =>
      rw [firstLoop]
      cases hfound : foundIn strat word db with
      | none => rw [List.filterMap_cons_none hfound, ih]
      | some x =>
        rw [List.filterMap_cons_some hfound, wordReply, if_neg (by
          rw [List.take_succ_cons]
          exact List.cons_ne_nil _ _)]
        simp only [List.take_succ_cons, List.take_zero, List.map_cons, List.map_nil,
          List.sum_cons, List.sum_nil, Nat.add_zero, List.flatMap_cons, List.flatMap_nil,
          List.append_nil]

/-- All of them. -/
theorem dicodWordAll_eq (f : Frame) (proc : Database → DbResult → Reply) :
    dicodWordAll dbs strat word f proc = wordReply (resultsOf false dbs strat word) f proc := by
  unfold dicodWordAll resultsOf
  by_cases hdenied : deniedWord strat word = true
  · rw [if_pos hdenied, if_pos hdenied]
    rfl
  · rw [if_neg hdenied, if_neg hdenied, if_neg Bool.false_ne_true]
    have htotal : ((dbs.filterMap (foundIn strat word)).map fun r => r.2.count).sum = 0 ↔
        dbs.filterMap (foundIn strat word) = [] := by
      rw [List.sum_eq_zero_iff_forall_eq_nat]
      constructor
      · intro hall
        rw [List.eq_nil_iff_forall_not_mem]
        intro x hx
        obtain ⟨db, -, hfound⟩ := List.mem_filterMap.1 hx
        exact (foundIn_some hfound).2 (hall _ (List.mem_map_of_mem hx))
      · intro hnil
        rw [hnil]
        exact List.forall_mem_nil _
    unfold wordReply
    simp only [htotal]

/-- What a lookup in one database replies with. -/
theorem wordReply_toList (strat : Option Strategy) (word : Bytes) (db : Database) (f : Frame)
    (proc : Database → DbResult → Reply) (hvisible : db.visible = true) :
    wordReply (foundIn strat word db).toList f proc =
      match queryDb strat word db with
      | none => noMatch
      | some res => if res.count = 0 then noMatch else f.around res.count (proc db res) := by
  unfold foundIn
  rw [if_pos hvisible]
  cases queryDb strat word db with
  | none => rfl
  | some res =>
    simp only
    split_ifs with hcount
    · rfl
    · simp only [Option.toList_some, wordReply, List.cons_ne_nil, if_false, List.map_cons,
        List.map_nil, List.sum_cons, List.sum_nil, Nat.add_zero, List.flatMap_cons,
        List.flatMap_nil, List.append_nil]

/-- The results that `DEFINE` and `MATCH` reply with, if there is a database
of the name. -/
def lookedUp (s : Session) (dbname : Bytes) (strat : Option Strategy) (word : Bytes) :
    Option (List (Database × DbResult)) :=
  if dbname = ascii "!" then some (resultsOf true s.databases strat word)
  else if dbname = ascii "*" then some (resultsOf false s.databases strat word)
  else (findDatabase s dbname).map fun db => (foundIn strat word db).toList

/-- All of them come from a database of the session. -/
theorem mem_lookedUp {s : Session} {dbname : Bytes} {found : List (Database × DbResult)}
    (h : lookedUp s dbname strat word = some found) {x : Database × DbResult} (hx : x ∈ found) :
    x.1 ∈ s.databases := by
  unfold lookedUp at h
  split_ifs at h
  · obtain rfl := Option.some.inj h
    exact (mem_resultsOf hx).1
  · obtain rfl := Option.some.inj h
    exact (mem_resultsOf hx).1
  · obtain ⟨db, hdb, rfl⟩ := Option.map_eq_some_iff.1 h
    rw [Option.mem_toList] at hx
    obtain ⟨rfl, -⟩ := foundIn_some hx
    exact List.mem_of_find?_eq_some hdb

/-- A database that is found by its name is visible. -/
theorem visible_of_find {s : Session} {name : Bytes} {db : Database}
    (h : findDatabase s name = some db) : db.name = name ∧ db.visible = true := by
  have hnamed := List.find?_some h
  rw [isNamed, Bool.and_eq_true, beq_iff_eq] at hnamed
  exact hnamed

/-- What `dicod_define` replies with. -/
theorem dicodDefine_eq (s : Session) (argv : List Bytes) :
    dicodDefine s argv =
      match lookedUp s (argv.getD 1 []) none (argv.getD 2 []) with
      | none => invalidDatabase
      | some found => wordReply found defineFrame (printDefinitions (argv.getD 2 [])) := by
  unfold dicodDefine lookedUp
  simp only
  split_ifs
  · exact dicodWordFirst_eq defineFrame _
  · exact dicodWordAll_eq defineFrame _
  · cases hdb : findDatabase s (argv.getD 1 []) with
    | none => rfl
    | some db =>
      exact (wordReply_toList none _ db defineFrame _ (visible_of_find hdb).2).symm

end Results

/-! ## Definitions and matches -/

section Words

variable {L : Limits} {P : Printing} {block : Bytes} {found : List (Database × DbResult)}
  {word : Bytes} {s : Session}

/-- The reply where nothing was found. -/
def noMatchAnswer : Answer := .status (ascii "552 No match\n")

theorem noMatch_answers : AnswersWith L P block false noMatch noMatchAnswer :=
  answers_status (by decide) (isLine_of_dropLast (by decide)) (.inr (by decide))

/-- The reply where no database has the name. -/
def invalidAnswer : Answer := .status (ascii "550 invalid database, use SHOW DB for a list\n")

theorem invalidDatabase_answers : AnswersWith L P block false invalidDatabase invalidAnswer :=
  answers_status (by decide) (isLine_of_dropLast (by decide)) (.inr (by decide))

/-- The line in front of a definition. -/
def itemLine (word : Bytes) (x : (Database × DbResult) × ℕ) : Bytes :=
  statusLine word x.1.1.name ((dicodGetDatabaseDescr x.1.1).getD [])

/-- The text of a definition. -/
def itemText (x : (Database × DbResult) × ℕ) : Bytes := x.1.2.output x.2

/-- A reply with some definitions: for each its line, and its text as
`read` has it. -/
def definitionsAnswer (read : Bytes → List Bytes) (word : Bytes)
    (found : List (Database × DbResult)) : Answer :=
  if found = [] then noMatchAnswer
  else .definitions (defineFrame.begfmt (itemsOf found).length)
    ((itemsOf found).map fun x => (itemLine word x, read (itemText x)))
    (ascii "250 Command complete\n")

/-- The lines of a definition and of the newline behind it. -/
def definitionLines (text : Bytes) : List Bytes := lines newline (text ++ [newline])

/-- It is a line. -/
theorem isLine_itemLine {x : (Database × DbResult) × ℕ} (hx : x.1.1.Tidy P)
    (hword : newline ∉ word) :
    IsLine (itemLine word x) ∧ (itemLine word x).take 3 = ascii "151" := by
  unfold itemLine statusLine
  refine ⟨?_, ?_⟩
  · have hhead : newline ∉ ascii "151 \"" ++ word ++ ascii "\" " :=
      newline_notMem_append (newline_notMem_append (by decide) hword) (by decide)
    have hname : newline ∉ ascii "151 \"" ++ word ++ ascii "\" " ++ x.1.1.name ++ ascii " \"" :=
      newline_notMem_append (newline_notMem_append hhead hx.name) (by decide)
    exact isLine_around hname hx.descr (isLine_of_dropLast (by decide))
  · simp only [List.append_assoc]
    exact take_code (by decide) _

/-- **Definitions are one reply**, from any databases, in order. -/
theorem wordReply_define (hblock : 0 < block.length) (hword : newline ∉ word)
    (hdbs : ∀ x ∈ found, x.1.Tidy P) :
    AnswersWith L P block false (wordReply found defineFrame (printDefinitions word))
      (definitionsAnswer (fun text => textLines (entryMarks P block text)) word found) := by
  unfold wordReply definitionsAnswer
  by_cases hnil : found = []
  · rw [if_pos hnil, if_pos hnil]
    exact noMatch_answers
  · rw [if_neg hnil, if_neg hnil]
    have hline : IsLine (defineFrame.begfmt (itemsOf found).length) :=
      isLine_around (by decide) (newline_notMem_decimal _) (isLine_of_dropLast (by decide))
    have hcode : (defineFrame.begfmt (itemsOf found).length).take 3 = definitionsCode :=
      (take_around (by decide)).trans (by decide)
    have hcount : countIn (defineFrame.begfmt (itemsOf found).length) = (itemsOf found).length := by
      unfold defineFrame
      simp only [List.append_assoc]
      exact countIn_decimal (by decide) _ (by decide)
    have hitems : ∀ x ∈ itemsOf found, x.1.1.Tidy P := by
      intro x hx
      obtain ⟨y, hy, hx⟩ := List.mem_flatMap.1 hx
      obtain ⟨k, -, rfl⟩ := List.mem_map.1 hx
      exact hdbs y hy
    have htail : directText [.write defineFrame.endmsg, .write (ascii "\n")] =
        some (ascii "250 Command complete\n") := by decide
    have hread := answers_definitions (L := L) (P := P) (itemLine word) itemText
      (fun x => definitionHeaders x.1.1 x.1.2) hblock hline hcode hcount
      (fun x hx => isLine_itemLine (hitems x hx) hword) htail (isLine_of_dropLast (by decide))
    have hcalls : ((itemsOf found).flatMap fun x =>
          entryCalls (itemLine word x) (definitionHeaders x.1.1 x.1.2) (itemText x)) =
        found.flatMap fun x => printDefinitions word x.1 x.2 := by
      rw [itemsOf, List.flatMap_assoc]
      refine congrArg (List.flatMap · found) (funext fun x => ?_)
      rw [List.flatMap_map]
      rfl
    rw [hcalls, length_itemsOf] at hread
    rw [length_itemsOf]
    exact hread

/-- And their texts come through. -/
theorem definitionsAnswer_eq
    (hun : ∀ x ∈ itemsOf found, Unbroken block.length (P.cut (itemText x))) :
    definitionsAnswer (fun text => textLines (entryMarks P block text)) word found =
      definitionsAnswer definitionLines word found := by
  unfold definitionsAnswer
  have htexts : ((itemsOf found).map fun x =>
        (itemLine word x, textLines (entryMarks P block (itemText x)))) =
      (itemsOf found).map fun x => (itemLine word x, definitionLines (itemText x)) :=
    List.map_congr_left fun x hx => by rw [textLines_entryMarks (hun x hx), definitionLines]
  rw [htexts]

/-- The text of the matches that were found. -/
def matchesText (found : List (Database × DbResult)) : Bytes :=
  (itemsOf found).flatMap fun x => matchText x.1.1.name (itemText x)

/-- The calls that print them. -/
def matchPuts (P : Printing) (found : List (Database × DbResult)) : List Put :=
  (itemsOf found).flatMap fun x => P.cut x.1.1.name ++ (P.cut (ascii " \"") ++
    (P.cut (itemText x) ++ P.cut (ascii "\"\n")))

/-- A reply with some matches. -/
def matchesAnswer (text : List Bytes) (found : List (Database × DbResult)) : Answer :=
  if found = [] then noMatchAnswer
  else .listing (matchFrame.begfmt (itemsOf found).length) text (ascii "250 Command complete\n")

/-- The calls are those of `print_matches`. -/
theorem putsOf_matches (P : Printing) (found : List (Database × DbResult)) :
    putsOf P (found.flatMap fun x => printMatches x.1 x.2) = .ok (matchPuts P found) := by
  have hone : ∀ x : (Database × DbResult) × ℕ, putsOf P [.put x.1.1.name, .put (ascii " \""),
      .put (itemText x), .put (ascii "\"\n")] = .ok (P.cut x.1.1.name ++ (P.cut (ascii " \"") ++
        (P.cut (itemText x) ++ P.cut (ascii "\"\n")))) := by
    intro x
    simp only [putsOf, ok_bind, List.append_nil]
  have hitems : (found.flatMap fun x => printMatches x.1 x.2) =
      (itemsOf found).flatMap fun x => [.put x.1.1.name, .put (ascii " \""), .put (itemText x),
        .put (ascii "\"\n")] := by
    rw [itemsOf, List.flatMap_assoc]
    refine congrArg (List.flatMap · found) (funext fun x => ?_)
    rw [List.flatMap_map]
    rfl
  rw [hitems, matchPuts]
  induction itemsOf found with
  | nil => rfl
  | cons x xs ih => exact putsOf_append (hone x) ih

/-- And print the text. -/
theorem written_matchPuts (P : Printing) (found : List (Database × DbResult)) :
    written (matchPuts P found) = matchesText found := by
  rw [matchPuts, matchesText]
  induction itemsOf found with
  | nil => rfl
  | cons x xs ih =>
    rw [List.flatMap_cons, List.flatMap_cons, written_append, ih]
    simp only [written_append, P.written_cut, matchText, List.append_assoc]

/-- Every match is a line. -/
theorem endsLine_matchesText (found : List (Database × DbResult)) :
    EndsLine (matchesText found) := by
  refine endsLine_flatMap fun x _ => ?_
  have hend : ascii "\"\n" = [doubleQuote] ++ [newline] := by decide
  rw [matchText, hend, ← List.append_assoc]
  exact endsLine_concat _

/-- The marks of matches that put no dot inside a line at the front of an
empty buffer. -/
theorem textLines_matches (hun : Unbroken block.length (matchPuts P found)) :
    textLines (marks block.length 0 (matchPuts P found)) = lines newline (matchesText found) := by
  have htext := textMarks_marks block.length (matchPuts P found)
    (by rw [written_matchPuts]; exact endsLine_matchesText found)
  rw [textLines_eq htext hun, map_snd_marks, written_matchPuts]

/-- The line in front of matches. -/
theorem isLine_matchFrame (n : ℕ) :
    IsLine (matchFrame.begfmt n) ∧ (matchFrame.begfmt n).take 3 ∈ textCodes := by
  refine ⟨isLine_around (by decide) (newline_notMem_decimal n) (isLine_of_dropLast (by decide)),
    ?_⟩
  rw [show (matchFrame.begfmt n).take 3 = ascii "152" from (take_around (by decide)).trans
    (by decide)]
  decide

/-- **Matches are one reply**, where the stream is open around it. -/
theorem wordReply_match (hblock : 0 < block.length) :
    AnswersWith L P block false
      (.ostreamCreate none :: (wordReply found matchFrame printMatches ++ [.ostreamClose]))
      (matchesAnswer (textLines (marks block.length 0 (matchPuts P found))) found) := by
  unfold wordReply matchesAnswer
  by_cases hnil : found = []
  · rw [if_pos hnil, if_pos hnil]
    -- nothing is put into the stream
    have hsends := sends_stream (L := L) hblock noMatch [] (b := ascii "552 No match\n")
      (by decide) (show putsOf P [] = .ok [] from rfl) rfl (.inl rfl) none
    rw [show (marks block.length 0 []).flatMap emit ++ [] = ([] : Bytes) from rfl,
      List.append_nil] at hsends
    exact ⟨_, hsends, frames_status (isLine_of_dropLast (by decide)) (.inr (by decide))⟩
  · rw [if_neg hnil, if_neg hnil, length_itemsOf]
    obtain ⟨hline, hcode⟩ := isLine_matchFrame (found.map fun x => x.2.count).sum
    have htail : directText [.write matchFrame.endmsg, .write (ascii "\n")] =
        some (dot :: newline :: ascii "250 Command complete\n") := by decide
    have hread := answers_text_inside (L := L) hblock hline hcode (putsOf_matches P found)
      (by rw [written_matchPuts]; exact endsLine_matchesText found) htail
      (isLine_of_dropLast (by decide))
    simp only [Frame.around, List.cons_append, List.append_assoc] at hread ⊢
    exact hread

/-- And where a database was named, and the stream is closed before the text
ends. -/
theorem dicodMatchWordDb_answers {db : Database} {strat : Strategy} (hblock : 0 < block.length)
    (hvisible : db.visible = true) :
    AnswersWith L P block false (dicodMatchWordDb db strat word)
      (matchesAnswer (textLines (marks block.length 0
        (matchPuts P (foundIn (some strat) word db).toList)))
        (foundIn (some strat) word db).toList) := by
  unfold dicodMatchWordDb
  have hquery : queryDb (some strat) word db = db.module.match_ strat word := rfl
  cases hres : db.module.match_ strat word with
  | none =>
    have hnone : foundIn (some strat) word db = none := by
      unfold foundIn
      rw [if_pos hvisible, hquery, hres]
    rw [hnone]
    exact noMatch_answers
  | some res =>
    simp only
    have hfound : foundIn (some strat) word db =
        if res.count = 0 then none else some (db, res) := by
      unfold foundIn
      rw [if_pos hvisible, hquery, hres]
    by_cases hcount : res.count = 0
    · rw [if_pos hcount] at hfound ⊢
      rw [hfound]
      exact noMatch_answers
    · rw [if_neg hcount] at hfound ⊢
      rw [hfound]
      have hputs := putsOf_matches P [(db, res)]
      rw [List.flatMap_singleton] at hputs
      have hlen : (itemsOf [(db, res)]).length = res.count := by
        rw [length_itemsOf, List.map_singleton, List.sum_singleton]
      obtain ⟨hline, hcode⟩ := isLine_matchFrame res.count
      have htail : directText [.write (ascii ".\n"), .write (ascii "250 Command complete"),
          .write (ascii "\n")] = some (dot :: newline :: ascii "250 Command complete\n") := by
        decide
      have hread := answers_text (L := L) hblock hline hcode hputs
        (by rw [written_matchPuts]; exact endsLine_matchesText _) htail
        (isLine_of_dropLast (by decide))
      rw [Option.toList_some, matchesAnswer, if_neg (List.cons_ne_nil _ _), hlen]
      exact hread

/-- The reply to `DEFINE`, the texts as `read` has them. -/
def defineAnswer (read : Bytes → List Bytes) (s : Session) (argv : List Bytes) : Answer :=
  match lookedUp s (argv.getD 1 []) none (argv.getD 2 []) with
  | none => invalidAnswer
  | some found => definitionsAnswer read (argv.getD 2 []) found

/-- The reply to `MATCH`. -/
def matchAnswer (read : List (Database × DbResult) → List Bytes) (cfg : Config) (s : Session)
    (argv : List Bytes) : Answer :=
  match dicoStrategyFind cfg (argv.getD 2 []) with
  | none => .status (ascii "551 Invalid strategy, use SHOW STRAT for a list\n")
  | some strat =>
    match lookedUp s (argv.getD 1 []) (some strat) (argv.getD 3 []) with
    | none => invalidAnswer
    | some found => matchesAnswer (read found) found

/-- **`DEFINE` is answered with the definitions** of every visible database,
or of the first that has one, or of the one that was named, in order and
none left out. -/
theorem dicodDefine_answers (hblock : 0 < block.length) (hs : ∀ db ∈ s.databases, db.Tidy P)
    {argv : List Bytes} (hword : newline ∉ argv.getD 2 []) :
    AnswersWith L P block false (dicodDefine s argv)
      (defineAnswer (fun text => textLines (entryMarks P block text)) s argv) := by
  rw [dicodDefine_eq, defineAnswer]
  cases hfound : lookedUp s (argv.getD 1 []) none (argv.getD 2 []) with
  | none => exact invalidDatabase_answers
  | some found =>
    exact wordReply_define hblock hword fun x hx => hs x.1 (mem_lookedUp hfound hx)

/-- **And `MATCH` with the matches.** -/
theorem dicodMatch_answers (hblock : 0 < block.length) (cfg : Config) (s : Session)
    (argv : List Bytes) :
    AnswersWith L P block false (dicodMatch cfg s argv)
      (matchAnswer (fun found => textLines (marks block.length 0 (matchPuts P found)))
        cfg s argv) := by
  unfold dicodMatch matchAnswer
  cases dicoStrategyFind cfg (argv.getD 2 []) with
  | none =>
    simp only
    exact answers_status (by decide) (isLine_of_dropLast (by decide)) (.inr (by decide))
  | some strat =>
    unfold lookedUp
    simp only
    split_ifs with hfirst hall
    · rw [dicodWordFirst_eq]
      exact wordReply_match hblock
    · rw [dicodWordAll_eq]
      exact wordReply_match hblock
    · cases hdb : findDatabase s (argv.getD 1 []) with
      | none => exact invalidDatabase_answers
      | some db => exact dicodMatchWordDb_answers hblock (visible_of_find hdb).2

end Words

/-! ## What a client is told -/

/-- A database that finds a text with a dot in front. -/
def dottedDb : Database where
  langKnown := false
  name := ascii "d"
  descr := some (ascii "Dots")
  info := none
  langlist := (none, none)
  acl := none
  visible := true
  mimeHeaders := none
  module := ⟨fun _ => some ⟨1, fun _ => ascii ".\nb", none⟩,
    fun _ _ => some ⟨2, fun _ => ascii ".x", none⟩, none, none, none⟩

/-- Texts that are printed at once. -/
def printOnce : Printing where
  cut text := [.write text]
  written_cut text := by simp only [written, List.flatMap_singleton, Put.bytes]
  width := 1

/-- **The reply to `DEFINE` is what the databases hold.** From the databases
a session sees, all of them, the first that has the word or the one that
was named, a client reads as many definitions as were announced, each with
the word, its database and the description, and each text line by line, if
no dot inside a line was put at the front of an empty buffer. -/
theorem define_answered {L : Limits} {P : Printing} {block : Bytes} (hblock : 0 < block.length)
    {s : Session} (hs : ∀ db ∈ s.databases, db.Tidy P) {argv : List Bytes}
    (hword : newline ∉ argv.getD 2 [])
    (hun : ∀ found, lookedUp s (argv.getD 1 []) none (argv.getD 2 []) = some found →
      ∀ x ∈ itemsOf found, Unbroken block.length (P.cut (itemText x))) :
    AnswersWith L P block false (dicodDefine s argv) (defineAnswer definitionLines s argv) := by
  have hread := dicodDefine_answers (L := L) hblock hs hword
  unfold defineAnswer at hread ⊢
  cases hfound : lookedUp s (argv.getD 1 []) none (argv.getD 2 []) with
  | none =>
    rw [hfound] at hread
    exact hread
  | some found =>
    simp only [hfound, definitionsAnswer_eq (hun found hfound)] at hread
    exact hread

theorem define_answered_dotted :
    AnswersWith ample printOnce (List.replicate 1024 0) false
      (dicodDefine (.start [] [dottedDb]) [ascii "DEFINE", ascii "d", ascii "x"])
      (defineAnswer definitionLines (.start [] [dottedDb])
        [ascii "DEFINE", ascii "d", ascii "x"]) := by
  have hblock : 0 < (List.replicate 1024 (0 : UInt8)).length := by
    rw [List.length_replicate]
    decide
  have hdb : dottedDb.Tidy printOnce :=
    ⟨by decide, by decide, by decide, (by intro text h; cases h)⟩
  refine define_answered hblock (List.forall_mem_singleton.2 hdb) (by decide) ?_
  intro found hfound x hx
  have hfound' : lookedUp (.start [] [dottedDb]) (ascii "d") none (ascii "x") =
      some [(dottedDb, ⟨1, fun _ => ascii ".\nb", none⟩)] := rfl
  obtain rfl := Option.some.inj (hfound'.symm.trans hfound)
  obtain rfl := List.mem_singleton.1 (show x ∈ [((dottedDb, _), 0)] from hx)
  rw [List.length_replicate]
  decide

/-- **The reply to `MATCH` is what the databases find.** It is the same
reply whether the output stream is closed before its end, where a database
was named, or open around it, where all of them or the first are asked: as
many lines as were announced, one for each match, with its database. -/
theorem match_answered {L : Limits} {P : Printing} {block : Bytes} (hblock : 0 < block.length)
    {cfg : Config} {s : Session} {argv : List Bytes}
    (hun : ∀ strat, dicoStrategyFind cfg (argv.getD 2 []) = some strat →
      ∀ found, lookedUp s (argv.getD 1 []) (some strat) (argv.getD 3 []) = some found →
        Unbroken block.length (matchPuts P found)) :
    AnswersWith L P block false (dicodMatch cfg s argv)
      (matchAnswer (fun found => lines newline (matchesText found)) cfg s argv) := by
  have hread := dicodMatch_answers (L := L) (P := P) hblock cfg s argv
  unfold matchAnswer at hread ⊢
  cases hstrat : dicoStrategyFind cfg (argv.getD 2 []) with
  | none =>
    rw [hstrat] at hread
    exact hread
  | some strat =>
    simp only [hstrat] at hread
    simp only
    cases hfound : lookedUp s (argv.getD 1 []) (some strat) (argv.getD 3 []) with
    | none =>
      rw [hfound] at hread
      exact hread
    | some found =>
      simp only [hfound, textLines_matches (hun strat hstrat found hfound)] at hread
      exact hread

/-- A strategy that finds everything. -/
def anyStrategy : Strategy := ⟨ascii "exact", ascii "Match words exactly", none⟩

theorem match_answered_dotted :
    AnswersWith ample printOnce (List.replicate 1024 0) false
      (dicodMatch { Config.plain with strategies := [anyStrategy] }
        (.start [] [dottedDb]) [ascii "MATCH", ascii "*", ascii "exact", ascii "x"])
      (matchAnswer (fun found => lines newline (matchesText found))
        { Config.plain with strategies := [anyStrategy] }
        (.start [] [dottedDb]) [ascii "MATCH", ascii "*", ascii "exact", ascii "x"]) := by
  have hblock : 0 < (List.replicate 1024 (0 : UInt8)).length := by
    rw [List.length_replicate]
    decide
  refine match_answered hblock ?_
  intro strat hstrat found hfound
  obtain rfl := Option.some.inj (hstrat.symm.trans (show dicoStrategyFind
    { Config.plain with strategies := [anyStrategy] } (ascii "exact") = some anyStrategy from rfl))
  have hfound' : lookedUp (.start [] [dottedDb]) (ascii "*") (some anyStrategy) (ascii "x") =
      some [(dottedDb, ⟨2, fun _ => ascii ".x", none⟩)] := rfl
  obtain rfl := Option.some.inj (hfound'.symm.trans hfound)
  rw [List.length_replicate]
  decide

end Dico
