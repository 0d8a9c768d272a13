import Dico.Session.State
/-!
# Looking things up

The database functions of `main.c` and `loader.c`: the languages of a
database, which databases a client sees, and the commands that read them,
`DEFINE`, `MATCH`, `SHOW DB`, `SHOW INFO`, `SHOW LANG DB` and
`SHOW LANG INFO`.
-/

namespace Dico

/-- The calls a command makes to reply. -/
abbrev Reply := List Out

/-! ## Languages -/

/-- `dicod_any_lang_list_p`. -/
def dicodAnyLangListP : Option (List Bytes) → Bool
  | none => true
  | some [] => true
  | some [l] => l == ascii "*"
  | some _ => false

/-- A missing list is a copy of the other. -/
def fillLangs : LangLists → LangLists
  | (none, some b) => (some b, some b)
  | (some a, none) => (some a, some a)
  | p => p

/-- A list that stands for any language is dropped. -/
def dropAny (l : Option (List Bytes)) : Option (List Bytes) :=
  if dicodAnyLangListP l then none else l

/-- The lists a module gives, as the server keeps them. -/
def moduleLangs (db : Database) : LangLists :=
  match db.module.dbLang with
  | none => db.langlist
  | some f =>
    let l := fillLangs (f db.langlist)
    (dropAny l.1, dropAny l.2)

/-- The lists `dicod_get_database_languages` returns. -/
def databaseLanguages (db : Database) : LangLists :=
  if db.langKnown then db.langlist else moduleLangs db

/-- `dicod_get_database_languages`: the database with its languages in it. -/
def dicodGetDatabaseLanguages (db : Database) : Database :=
  { db with langlist := databaseLanguages db, langKnown := true }

/-- Preferences that a list does not meet. -/
def langMiss (pref list : Option (List Bytes)) : Bool :=
  match pref, list with
  | some p, some l => !intersectP cStrcaseeq p (some l)
  | _, _ => false

/-- `dicod_lang_check`. -/
def dicodLangCheck (lang : LangPrefs) (list : LangLists) : Bool :=
  if list.1.isNone && list.2.isNone then true
  else
    match lang.lazy with
    | some l => intersectP cStrcaseeq l list.1 || intersectP cStrcaseeq l list.2
    | none => !langMiss lang.prefs.1 list.1 && !langMiss lang.prefs.2 list.2

/-! ## Visibility -/

/-- The loop of `check_db_visibility` at one database. -/
def checkVisibility (cfg : Config) (who : Credentials) (lang : LangPrefs) (global : Bool)
    (db : Database) : Except Fault Database := do
  let allowed ← dicodAclCheck cfg.acls who cfg.stack db.acl global
  -- the languages are fetched only where access control allows the database
  if allowed then
    let db := dicodGetDatabaseLanguages db
    .ok { db with visible := dicodLangCheck lang db.langlist }
  else .ok { db with visible := false }

/-- The loop. -/
def checkAll (cfg : Config) (who : Credentials) (lang : LangPrefs) (global : Bool) :
    List Database → Except Fault (List Database)
  | [] => .ok []
  | db :: l => do
    let db ← checkVisibility cfg who lang global db
    let l ← checkAll cfg who lang global l
    .ok (db :: l)

/-- `check_db_visibility`. -/
def checkDbVisibility (cfg : Config) (s : Session) : Except Fault Session := do
  let global ← dicodAclCheck cfg.acls s.who cfg.stack cfg.globalAcl true
  let dbs ← checkAll cfg s.who s.lang global s.databases
  .ok { s with databases := dbs }

/-- `reset_db_visibility`. -/
def resetDbVisibility (s : Session) : Session :=
  { s with databases := s.databases.map fun db => { db with visible := true } }

/-- `cmp_database_name (db, name) == 0`. -/
def isNamed (name : Bytes) (db : Database) : Bool := db.name == name && db.visible

/-- `find_database`. -/
def findDatabase (s : Session) (name : Bytes) : Option Database := s.databases.find? (isNamed name)

/-- `database_count`. -/
def databaseCount (s : Session) : ℕ := s.databases.countP Database.visible

/-! ## Looking up words -/

/-- `dicod_get_database_descr`. -/
def dicodGetDatabaseDescr (db : Database) : Option Bytes :=
  match db.descr with
  | some d => some d
  | none => db.module.dbDescr.join

/-- `dicod_get_database_info`. -/
def dicodGetDatabaseInfo (db : Database) : Option Bytes :=
  match db.info with
  | some d => some d
  | none => db.module.dbInfo.join

/-- The reply where nothing was found. -/
def noMatch : Reply := [.writeln (ascii "552 No match")]

/-- `check_word`. -/
def checkWord (word : Bytes) : Stratcl → Bool
  | .all => true
  | .word w => w == word
  | .length op len => op word.length len

/-- `stratcl_check_word`. -/
def stratclCheckWord (list : Option (List Stratcl)) (word : Bytes) : Bool :=
  (list.getD []).any (checkWord word)

/-- `dico_strategy_find`. -/
def dicoStrategyFind (cfg : Config) (name : Bytes) : Option Strategy :=
  if name = ascii "." then cfg.defaultStrategy
  else cfg.strategies.find? fun sp => sp.name == name

/-- What a database finds, with a strategy or without. -/
def queryDb (strat : Option Strategy) (word : Bytes) (db : Database) : Option DbResult :=
  match strat with
  | some st => db.module.match_ st word
  | none => db.module.define word

/-- The result of a database that is visible and finds something. -/
def foundIn (strat : Option Strategy) (word : Bytes) (db : Database) :
    Option (Database × DbResult) :=
  if db.visible then
    match queryDb strat word db with
    | none => none
    | some res => if res.count = 0 then none else some (db, res)
  else none

/-- The line before the results, or the message behind them. -/
structure Frame where
  begfmt : ℕ → Bytes
  endmsg : Bytes

/-- What is written around the results. -/
def Frame.around (f : Frame) (count : ℕ) (results : Reply) : Reply :=
  .write (f.begfmt count) :: results ++ [.write f.endmsg, .write (ascii "\n")]

/-- The loop of `dicod_word_first`. -/
def firstLoop (strat : Option Strategy) (word : Bytes) (f : Frame)
    (proc : Database → DbResult → Reply) : List Database → Reply
  | [] => noMatch
  | db :: l =>
    match foundIn strat word db with
    | none => firstLoop strat word f proc l
    | some (db, res) => f.around res.count (proc db res)

/-- Whether a strategy is not to be used for a word. -/
def deniedWord (strat : Option Strategy) (word : Bytes) : Bool :=
  match strat with
  | some st => stratclCheckWord st.stratcl word
  | none => false

/-- `dicod_word_first`. -/
def dicodWordFirst (dbs : List Database) (strat : Option Strategy) (word : Bytes) (f : Frame)
    (proc : Database → DbResult → Reply) : Reply :=
  if deniedWord strat word then noMatch else firstLoop strat word f proc dbs

/-- `dicod_word_all`. -/
def dicodWordAll (dbs : List Database) (strat : Option Strategy) (word : Bytes) (f : Frame)
    (proc : Database → DbResult → Reply) : Reply :=
  if deniedWord strat word then noMatch
  else
    let reslist := dbs.filterMap (foundIn strat word)
    let total := (reslist.map fun r => r.2.count).sum
    if total = 0 then noMatch else f.around total (reslist.flatMap fun r => proc r.1 r.2)

/-- `print_matches`. -/
def printMatches (db : Database) (res : DbResult) : Reply :=
  (List.range res.count).flatMap fun i =>
    [.put db.name, .put (ascii " \""), .put (res.output i), .put (ascii "\"\n")]

/-- The headers of a definition. -/
def definitionHeaders (db : Database) (res : DbResult) : Option Headers :=
  match res.headers with
  | some f => some (f (db.mimeHeaders.getD []))
  | none => db.mimeHeaders

/-- `print_definitions`. -/
def printDefinitions (word : Bytes) (db : Database) (res : DbResult) : Reply :=
  (List.range res.count).flatMap fun i =>
    [.write (ascii "151 \"" ++ word ++ ascii "\" " ++ db.name ++ ascii " \"" ++
        (dicodGetDatabaseDescr db).getD [] ++ ascii "\"\n"),
      .ostreamCreate (definitionHeaders db res), .put (res.output i), .ostreamClose,
      .write (ascii "\n.\n")]

/-- What is written around matches. -/
def matchFrame : Frame where
  begfmt n := ascii "152 " ++ decimal n ++ ascii " matches found: list follows\n"
  endmsg := ascii ".\n250 Command complete"

/-- What is written around definitions. -/
def defineFrame : Frame where
  begfmt n := ascii "150 " ++ decimal n ++ ascii " definitions found: list follows\n"
  endmsg := ascii "250 Command complete"

/-- `dicod_match_word_db`. -/
def dicodMatchWordDb (db : Database) (strat : Strategy) (word : Bytes) : Reply :=
  match db.module.match_ strat word with
  | none => noMatch
  | some res =>
    if res.count = 0 then noMatch
    else
      .write (matchFrame.begfmt res.count) :: .ostreamCreate none ::
        printMatches db res ++
        [.ostreamClose, .write (ascii ".\n"), .write (ascii "250 Command complete"),
          .write (ascii "\n")]

/-- `dicod_define_word_db`. -/
def dicodDefineWordDb (db : Database) (word : Bytes) : Reply :=
  match db.module.define word with
  | none => noMatch
  | some res =>
    if res.count = 0 then noMatch
    else defineFrame.around res.count (printDefinitions word db res)

/-- The reply where no database has the name. -/
def invalidDatabase : Reply := [.write (ascii "550 invalid database, use SHOW DB for a list\n")]

/-- `dicod_match`. -/
def dicodMatch (cfg : Config) (s : Session) (argv : List Bytes) : Reply :=
  let dbname := argv.getD 1 []
  let word := argv.getD 3 []
  match dicoStrategyFind cfg (argv.getD 2 []) with
  | none => [.write (ascii "551 Invalid strategy, use SHOW STRAT for a list\n")]
  | some strat =>
    if dbname = ascii "!" then
      .ostreamCreate none ::
        dicodWordFirst s.databases (some strat) word matchFrame printMatches ++ [.ostreamClose]
    else if dbname = ascii "*" then
      .ostreamCreate none ::
        dicodWordAll s.databases (some strat) word matchFrame printMatches ++ [.ostreamClose]
    else
      match findDatabase s dbname with
      | none => invalidDatabase
      | some db => dicodMatchWordDb db strat word

/-- `dicod_define`. -/
def dicodDefine (s : Session) (argv : List Bytes) : Reply :=
  let dbname := argv.getD 1 []
  let word := argv.getD 2 []
  if dbname = ascii "!" then
    dicodWordFirst s.databases none word defineFrame (printDefinitions word)
  else if dbname = ascii "*" then
    dicodWordAll s.databases none word defineFrame (printDefinitions word)
  else
    match findDatabase s dbname with
    | none => invalidDatabase
    | some db => dicodDefineWordDb db word

/-! ## Showing databases -/

/-- What ends a listing. -/
def okEnd : Reply := [.ostreamClose, .write (ascii ".\n"), .write (ascii "250 ok\n")]

/-- A listing of the databases, or the reply where there is none. -/
def showList (s : Session) (body : Reply) : Reply :=
  if databaseCount s = 0 then [.write (ascii "554 No databases present\n")]
  else
    .write (ascii "110 " ++ decimal (databaseCount s) ++ ascii " databases present\n") ::
      .ostreamCreate none :: body ++ okEnd

/-- `_show_database`, which dies where the description is not UTF-8. -/
def showDatabase (db : Database) : Except Fault Reply :=
  match utf8Quote ((dicodGetDatabaseDescr db).getD []) with
  | none => .error .abort
  | some pdescr => .ok [.put (db.name ++ ascii " \"" ++ pdescr ++ ascii "\"\n")]

/-- `database_iterate` with `_show_database`. -/
def showEach : List Database → Except Fault Reply
  | [] => .ok []
  | db :: l =>
    if db.visible then do
      let r ← showDatabase db
      let rs ← showEach l
      .ok (r ++ rs)
    else showEach l

/-- `dicod_show_databases`. -/
def dicodShowDatabases (s : Session) : Except Fault Reply := do
  let body ← showEach s.databases
  .ok (showList s body)

/-- `dicod_show_info`. -/
def dicodShowInfo (s : Session) (argv : List Bytes) : Reply :=
  let dbname := argv.getD 2 []
  match findDatabase s dbname with
  | none => invalidDatabase
  | some db =>
    let info : Reply :=
      match dicodGetDatabaseInfo db with
      | some info => [.multiline info]
      | none => [.put (ascii "No information available.\n")]
    .write (ascii "112 information for " ++ dbname ++ ascii "\n") :: .ostreamCreate none ::
      info ++ .put (ascii "\n") :: okEnd

/-- `_display_pref` for every item of a list, if there is one. -/
def displayPrefs (put : Bytes → Out) (list : Option (List Bytes)) : Reply :=
  (list.getD []).flatMap fun l => [put (ascii " "), put l]

/-- `show_lang_lists`. -/
def showLangLists (put : Bytes → Out) (list : LangLists) : Reply :=
  displayPrefs put list.1 ++ put (ascii " :") :: displayPrefs put list.2 ++ [put (ascii "\n")]

/-- `_show_database_lang`. -/
def showDatabaseLang (db : Database) : Reply :=
  .put db.name :: showLangLists .put (databaseLanguages db)

/-- The visible databases with their languages fetched. -/
def fetchVisible (dbs : List Database) : List Database :=
  dbs.map fun db => if db.visible then dicodGetDatabaseLanguages db else db

/-- `dicod_show_lang_db`. -/
def dicodShowLangDb (s : Session) : Reply × Session :=
  (showList s ((s.databases.filter Database.visible).flatMap showDatabaseLang),
    if databaseCount s = 0 then s else { s with databases := fetchVisible s.databases })

/-- The languages of the first database of the name are fetched. -/
def fetchNamed (name : Bytes) : List Database → List Database
  | [] => []
  | db :: l =>
    if isNamed name db then dicodGetDatabaseLanguages db :: l else db :: fetchNamed name l

/-- `dicod_show_lang_info`. -/
def dicodShowLangInfo (s : Session) (argv : List Bytes) : Reply × Session :=
  let name := argv.getD 3 []
  match findDatabase s name with
  | none => (invalidDatabase, s)
  | some db =>
    (.write (ascii "280") :: showLangLists .write (databaseLanguages db),
      { s with databases := fetchNamed name s.databases })

end Dico
