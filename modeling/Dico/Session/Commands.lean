import Dico.Session.Lookup
/-!
# Commands and sessions

The commands of `dicod`, how one is found in the list of commands and run
(`dicod_handle_command`), and the session around them (`dicod_loop`). The
words of a command are those left by the tokenizer and the aliases.
-/

namespace Dico

/-- The words of a command, and what the world answers while it runs. -/
structure Input where
  argv : List Bytes
  env : Env

/-! ## Authentication -/

/-- The groups after `dico_udb_get_groups` into a list that holds `old`. -/
def getGroups (udb : Udb) (user : Bytes) (old : Option (List Bytes)) : Option (List Bytes) :=
  (udb.groups user).getD old

/-- Whether `auth` lets the user in. -/
def authOk (cfg : Config) (udb : Udb) (user authstr : Bytes) : Bool :=
  udb.opens &&
    match udb.password user with
    | some (some password) => cfg.apop password == authstr
    | _ => false

/-- The reply to a client that is not let in. -/
def accessDenied : Bytes := ascii "531 Access denied, use \"SHOW INFO\" for server information"

/-- `dicod_auth`. -/
def dicodAuth (cfg : Config) (env : Env) (s : Session) (argv : List Bytes) :
    Except Fault (Reply × Session) :=
  let user := argv.getD 1 []
  if authOk cfg env.udb user (argv.getD 2 []) then do
    let s ← checkDbVisibility cfg
      { s with userName := some user, userGroups := getGroups env.udb user s.userGroups }
    .ok ([.write (ascii "230 Authentication successful"), .write (ascii "\n")], s)
  else .ok ([.write accessDenied, .write (ascii "\n")], s)

/-- `disabled_mechanism_p`. -/
def disabledMechanismP (cfg : Config) (name : Bytes) : Bool :=
  (match cfg.saslEnabledMech with
    | some l => !l.any (cStrcaseeq · name)
    | none => false) ||
    (cfg.saslDisabledMech.getD []).any (cStrcaseeq · name)

/-- The user whom `sasl_auth` lets in, and whether he is anonymous. -/
def saslUser (cfg : Config) (env : Env) (mechanism : Bytes) : Option (Bytes × Bool) :=
  if env.udb.opens && !disabledMechanismP cfg mechanism then
    match env.sasl with
    | .done (some user) anon => some (user, anon)
    | _ => none
  else none

/-- The groups of a user whom `sasl_auth` lets in. -/
def saslGroups (cfg : Config) (env : Env) (user : Bytes) (anon : Bool)
    (old : Option (List Bytes)) : Option (List Bytes) :=
  if anon then
    match cfg.saslAnonGroups with
    | some groups => some groups
    | none => old
  else getGroups env.udb user old

/-- The reply to a client whom `dicod_saslauth` does not let in. -/
def saslDenied (cfg : Config) (env : Env) (mechanism : Bytes) : Bytes :=
  if env.udb.opens && (disabledMechanismP cfg mechanism || env.sasl == .unknown) then
    ascii "532 Access denied, unknown mechanism\n"
  else accessDenied ++ ascii "\n"

/-- `dicod_remove_command`. -/
def dicodRemoveCommand (name : Bytes) (commands : List Command) : List Command :=
  commands.eraseP fun cmd => cStrcaseeq cmd.keyword name

/-- `dicod_saslauth`, without the challenges sent on the way. -/
def dicodSaslauth (cfg : Config) (env : Env) (s : Session) (argv : List Bytes) :
    Except Fault (Reply × Session) :=
  let mechanism := argv.getD 1 []
  match saslUser cfg env mechanism with
  | none => .ok ([.write (saslDenied cfg env mechanism)], s)
  | some (user, anon) => do
    let s ← checkDbVisibility cfg { s with
      userName := some user, userGroups := saslGroups cfg env user anon s.userGroups }
    .ok ([.write (ascii "230 Authentication successful\n")],
      if env.gsaslStream then
        { s with commandList := dicodRemoveCommand (ascii "SASLAUTH") s.commandList }
      else s)

/-- `init_auth_data`. -/
def initAuthData (s : Session) : Except Fault Session := do
  s.clientId.free
  .ok (resetDbVisibility
    { s with userName := none, clientId := .null, identityName := none, userGroups := none })

/-! ## Settings -/

/-- Another item at the end of a list that may not be there yet. -/
def appendItem (l : Option (List Bytes)) (item : Bytes) : Option (List Bytes) :=
  some (l.getD [] ++ [item])

/-- The loop of `dicod_lang`: whether a colon was seen, and the lists before
and behind it. -/
def langLoop : List Bytes → Bool → LangLists → Bool × LangLists
  | [], n, prefs => (n, prefs)
  | arg :: args, false, prefs =>
    if arg = ascii ":" then langLoop args true prefs
    else langLoop args false (appendItem prefs.1 arg, prefs.2)
  | arg :: args, true, prefs => langLoop args true (prefs.1, appendItem prefs.2 arg)

/-- The preferences that `OPTION LANG` sets. -/
def langPrefs (args : List Bytes) : LangPrefs :=
  match langLoop args false (none, none) with
  | (false, prefs) => ⟨prefs.1, (none, prefs.2)⟩
  | (true, prefs) => ⟨none, prefs⟩

/-- `dicod_lang`. -/
def dicodLang (cfg : Config) (s : Session) (argv : List Bytes) :
    Except Fault (Reply × Session) := do
  let s ← checkDbVisibility cfg { s with lang := langPrefs (argv.drop 2) }
  .ok ([.write (ascii "250 ok - set language preferences\n")], s)

/-- The threshold that `XLEV` sets. -/
def levOf (arg : Bytes) : Option ℕ :=
  match arg with
  | [c] => if 49 ≤ c ∧ c ≤ 57 then some (c.toNat - 48) else none
  | _ => none

/-- `dicod_xlevdist`. -/
def dicodXlevdist (s : Session) (argv : List Bytes) : Reply × Session :=
  if cStrcaseeq (argv.getD 1 []) (ascii "tell") then
    ([.write (ascii "280 " ++ decimal s.levenshteinDistance ++ ascii "\n")], s)
  else
    match levOf (argv.getD 1 []) with
    | some n =>
      ([.write (ascii "250 ok - Levenshtein threshold set to " ++ decimal n ++ ascii "\n")],
        { s with levenshteinDistance := n })
    | none => ([.write (ascii "500 invalid argument\n")], s)

/-- `dico_markup_lookup`. -/
def dicoMarkupLookup (cfg : Config) (name : Bytes) : Option Bytes :=
  cfg.markupList.find? (cStrcaseeq · name)

/-- `dicod_markup`. -/
def dicodMarkup (cfg : Config) (s : Session) (argv : List Bytes) : Reply × Session :=
  if argv.length = 2 then
    ([.write (ascii "280 " ++ s.markupType ++ ascii " is current markup type\n")], s)
  else
    match dicoMarkupLookup cfg (argv.getD 2 []) with
    | some p =>
      ([.write (ascii "250 markup type set to " ++ p ++ ascii "\n")], { s with markupType := p })
    | none => ([.write (ascii "500 invalid argument\n")], s)

/-- `dicod_mime`. -/
def dicodMime (s : Session) : Reply × Session :=
  ([.write (ascii "250 ok - using MIME headers\n")], { s with optionMime := true })

/-- `dicod_client`. A call without arguments frees the identification and
keeps the pointer. -/
def dicodClient (s : Session) (argv : List Bytes) : Except Fault (Reply × Session) := do
  s.clientId.free
  .ok ([.write (ascii "250 ok\n")], { s with
    clientId :=
      if 1 < argv.length then .live (argv.drop 1)
      else
        match s.clientId with
        | .null => .null
        | _ => .freed })

/-! ## Texts about the server -/

/-- `_print_help`. -/
def printHelp (cmd : Command) : Reply :=
  let param : Reply :=
    match cmd.param with
    | some p => [.put (ascii " " ++ p)]
    | none => []
  let len := cmd.keyword.length + (cmd.param.elim 0 fun p => p.length + 1)
  .put cmd.keyword :: param ++
    [.put (List.replicate (31 - len) 32 ++ ascii " -- " ++ cmd.help ++ ascii "\n")]

/-- `dicod_help`. -/
def dicodHelp (cfg : Config) (s : Session) : Reply :=
  let body : Reply :=
    match cfg.helpText with
    | none => s.commandList.flatMap printHelp
    | some (c :: text) =>
      if c = 43 then s.commandList.flatMap printHelp ++ [.multiline text]
      else [.multiline (c :: text)]
    | some [] => [.multiline []]
  .write (ascii "113 help text follows\n") :: .ostreamCreate none ::
    body ++ .put (ascii "\n") :: okEnd

/-- `dicod_show_server`. Only the site's own text goes through the output
stream. -/
def dicodShowServer (cfg : Config) (s : Session) : Except Fault Reply := do
  let sysInfo ← dicodAclCheck cfg.acls s.who cfg.stack cfg.showSysInfo true
  let system : Bytes :=
    if sysInfo then
      ascii "(" ++ cfg.packageString ++ ascii ") on " ++ cfg.sysname ++ ascii " " ++
        cfg.release ++ ascii ", "
    else ascii "server on "
  let site : Reply :=
    match cfg.serverInfo with
    | some text => [.multiline text, .put (ascii "\n")]
    | none => []
  .ok (.write (ascii "114 server information\n") :: .ostreamCreate none ::
    .write (ascii "dicod ") :: .write system :: .write cfg.hostname :: .write (ascii "\n") ::
      site ++ okEnd)

/-- `dicod_show_strategies`. -/
def dicodShowStrategies (cfg : Config) : Reply :=
  if cfg.strategies.length = 0 then [.write (ascii "555 No strategies available\n")]
  else
    .write (ascii "111 " ++ decimal cfg.strategies.length ++
        ascii " strategies present: list follows\n") :: .ostreamCreate none ::
      (cfg.strategies.map fun sp =>
        .put (sp.name ++ ascii " \"" ++ cfg.quotearg sp.descr ++ ascii "\"\n")) ++ okEnd

/-- `dicod_show_lang_pref`. -/
def dicodShowLangPref (s : Session) : Reply :=
  .write (ascii "280") ::
    match s.lang.lazy with
    | some l => displayPrefs .write (some l) ++ [.write (ascii "\n")]
    | none => showLangLists .write s.lang.prefs

/-! ## Finding and running a command -/

/-- `_cmd_arg_cmp (cmd, argv) == 0`, for what is left of the keyword. -/
def cmdArgEq : Bytes → List Bytes → Bool
  | _, [] => false
  | keyword, arg :: args =>
    if (keyword.take arg.length).map cTolower = arg.map cTolower then
      match keyword.drop arg.length with
      | [] => true
      | c :: rest => if c = 32 then cmdArgEq rest args else false
    else false

/-- `locate_command`, of words that can be counted in an `int`
(`locateCommandList_eq`). -/
def locateCommand (commands : List Command) (argv : List Bytes) : Option Command :=
  commands.find? fun cmd => cmdArgEq cmd.keyword argv

/-- Whether the number of words suits a command. -/
def argcOk (cmd : Command) (argc : ℕ) : Bool :=
  cmd.minparam ≤ argc && cmd.maxparam.all (argc ≤ ·)

/-- `cmd->handler`. -/
def runHandler (cfg : Config) (env : Env) (s : Session) (argv : List Bytes) :
    Handler → Except Fault (Reply × Session)
  | .define => .ok (dicodDefine s argv, s)
  | .match_ => .ok (dicodMatch cfg s argv, s)
  | .showDatabases => do
    let r ← dicodShowDatabases s
    .ok (r, s)
  | .showStrategies => .ok (dicodShowStrategies cfg, s)
  | .showInfo => .ok (dicodShowInfo s argv, s)
  | .showServer => do
    let r ← dicodShowServer cfg s
    .ok (r, s)
  | .client => dicodClient s argv
  | .status =>
    .ok ([.write (ascii "210"), .write (ascii " No timing data available"), .write (ascii "\n")], s)
  | .help => .ok (dicodHelp cfg s, s)
  | .quit => .ok ([.write (ascii "221 bye"), .write (ascii "\n")], { s with gotQuit := true })
  | .auth => dicodAuth cfg env s argv
  | .mime => .ok (dicodMime s)
  | .lang => dicodLang cfg s argv
  | .showLangDb => .ok (dicodShowLangDb s)
  | .showLangInfo => .ok (dicodShowLangInfo s argv)
  | .showLangPref => .ok (dicodShowLangPref s, s)
  | .markup => .ok (dicodMarkup cfg s argv)
  | .xidle =>
    .ok ([.write (ascii "110 " ++ decimal cfg.inactivityTimeout ++ ascii " second(s)\n")], s)
  | .xversion =>
    .ok ([.write (ascii "110 "), .write cfg.programVersion, .write (ascii "\n")], s)
  | .xlevdist => .ok (dicodXlevdist s argv)
  | .saslauth => dicodSaslauth cfg env s argv

/-- The handler a command leads to, if there is one and the number of words
suits it. -/
def handlerOf (commands : List Command) (argv : List Bytes) : Except Bytes Handler :=
  match locateCommand commands argv with
  | none => .error (ascii "500 unknown command\n")
  | some cmd =>
    if argcOk cmd argv.length then .ok cmd.handler
    else .error (ascii "501 wrong number of arguments\n")

/-- `dicod_handle_command`, of the words that `alias_expand` leaves: those of
the client, where no aliases are defined. -/
def dicodHandleCommand (cfg : Config) (i : Input) (s : Session) :
    Except Fault (Reply × Session) :=
  match handlerOf s.commandList i.argv with
  | .error text => .ok ([.write text], s)
  | .ok handler => runHandler cfg i.env s i.argv handler

/-! ## The commands there are -/

/-- `command_tab`. -/
def commandTab : List Command :=
  [⟨ascii "DEFINE", 3, some 3, some (ascii "database word"), ascii "look up word in database",
      .define⟩,
    ⟨ascii "MATCH", 4, some 4, some (ascii "database strategy word"),
      ascii "match word in database using strategy", .match_⟩,
    ⟨ascii "SHOW DB", 2, some 2, none, ascii "list all accessible databases", .showDatabases⟩,
    ⟨ascii "SHOW DATABASES", 2, some 2, none, ascii "list all accessible databases",
      .showDatabases⟩,
    ⟨ascii "SHOW STRAT", 2, some 2, none, ascii "list available matching strategies",
      .showStrategies⟩,
    ⟨ascii "SHOW STRATEGIES", 2, some 2, none, ascii "list available matching strategies",
      .showStrategies⟩,
    ⟨ascii "SHOW INFO", 3, some 3, some (ascii "database"),
      ascii "provide information about the database", .showInfo⟩,
    ⟨ascii "SHOW SERVER", 2, some 2, none, ascii "provide site-specific information",
      .showServer⟩,
    ⟨ascii "CLIENT", 1, none, some (ascii "info"), ascii "identify client to server", .client⟩,
    ⟨ascii "STATUS", 1, some 1, none, ascii "display timing information", .status⟩,
    ⟨ascii "HELP", 1, some 1, none, ascii "display this help information", .help⟩,
    ⟨ascii "QUIT", 1, some 1, none, ascii "terminate connection", .quit⟩]

/-- The capabilities that come with commands, in the order they are
registered; `sasl` is any of the mechanisms. -/
inductive Capability
  | auth | mime | lang | markup | xidle | xversion | xlev | sasl
  deriving DecidableEq, Repr

/-- The commands of a capability. -/
def Capability.commands : Capability → List Command
  | .auth =>
    [⟨ascii "AUTH", 3, some 3, some (ascii "user string"),
        ascii "provide authentication information", .auth⟩]
  | .mime => [⟨ascii "OPTION MIME", 2, some 2, none, ascii "use MIME headers", .mime⟩]
  | .lang =>
    [⟨ascii "OPTION LANG", 2, none, some (ascii "[list]"), ascii "define language preferences",
        .lang⟩,
      ⟨ascii "SHOW LANG DB", 3, some 3, none,
        ascii "show databases with their language preferences", .showLangDb⟩,
      ⟨ascii "SHOW LANG DATABASES", 3, some 3, none,
        ascii "show databases with their language preferences", .showLangDb⟩,
      ⟨ascii "SHOW LANG INFO", 4, some 4, some (ascii "database"),
        ascii "show language preferences of a database", .showLangInfo⟩,
      ⟨ascii "SHOW LANG PREF", 3, some 3, none, ascii "show server language preferences",
        .showLangPref⟩]
  | .markup =>
    [⟨ascii "OPTION MARKUP", 2, some 3, some (ascii "type"), ascii "Set output markup type",
        .markup⟩]
  | .xidle =>
    [⟨ascii "XIDLE", 1, some 1, none, ascii "report inactivity timeout, reset idle timer",
        .xidle⟩]
  | .xversion =>
    [⟨ascii "XVERSION", 1, some 1, none, ascii "show implementation and version info", .xversion⟩]
  | .xlev =>
    [⟨ascii "XLEV", 2, some 2, some (ascii "distance"), ascii "Set Levenshtein distance",
        .xlevdist⟩]
  | .sasl =>
    [⟨ascii "SASLAUTH", 2, some 3, some (ascii "mechanism [initial-response]"),
        ascii "Start SASL authentication", .saslauth⟩]

/-- The commands after `dicod_capa_flush`. -/
def registered (enabled : Capability → Bool) : List Command :=
  commandTab ++
    ([.auth, .mime, .lang, .markup, .xidle, .xversion, .xlev, .sasl].filter enabled).flatMap
      Capability.commands

/-! ## Sessions -/

/-- What a new connection brings: the client's address and identity, and
which databases open. -/
structure Client where
  clientAddr : ClientAddr
  identityName : Option Bytes
  opens : Database → Bool

/-- `dicod_loop` up to its loop. -/
def beginSession (cfg : Config) (conn : Client) (s : Session) : Except Fault Session :=
  checkDbVisibility cfg { s with
    gotQuit := false
    clientAddr := conn.clientAddr
    identityName := conn.identityName
    databases := s.databases.filter conn.opens }

/-- One turn of the loop. After `QUIT` nothing is read any more, and an
empty line is skipped. -/
def loopStep (cfg : Config) (i : Input) (s : Session) : Except Fault Session :=
  if s.gotQuit || i.argv.isEmpty then .ok s
  else do
    let (_, s) ← dicodHandleCommand cfg i s
    .ok s

/-- `dicod_loop`. -/
def dicodLoop (cfg : Config) (conn : Client) (inputs : List Input) (s : Session) :
    Except Fault Session := do
  let s ← beginSession cfg conn s
  let s ← Run.run (loopStep cfg) inputs s
  initAuthData s

end Dico
