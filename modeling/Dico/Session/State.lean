import Dico.Session.Acl
/-!
# The state of the server

The globals of `dicod` that a client can act on: the databases with the
modules behind them, the user, and the settings that commands change; the
configuration, which stays; and what the rest of the world answers while a
command runs. The timing report is off.
-/

namespace Dico

/-- The headers of a MIME entity, an association list. -/
abbrev Headers := List (Bytes × Bytes)

/-- An entry of a strategy's `deny` list, `struct stratcl`. -/
inductive Stratcl
  | all
  | word (w : Bytes)
  | length (op : ℕ → ℕ → Bool) (len : ℕ)

/-- `struct dico_strategy`, as far as the server reads it. -/
structure Strategy where
  name : Bytes
  descr : Bytes
  stratcl : Option (List Stratcl)

/-- A `dico_result_t`: how many items it has, the text of each, and what it
does to the headers, if its module has headers. -/
structure DbResult where
  count : ℕ
  output : ℕ → Bytes
  headers : Option (Headers → Headers)

/-- Two lists of languages, each of which may be missing. -/
abbrev LangLists := Option (List Bytes) × Option (List Bytes)

/-- The callbacks of a module for one database, `struct
dico_database_module`; `dbDescr`, `dbInfo` and `dbLang` may be missing. -/
structure DbModule where
  define : Bytes → Option DbResult
  match_ : Strategy → Bytes → Option DbResult
  dbDescr : Option (Option Bytes)
  dbInfo : Option (Option Bytes)
  dbLang : Option (LangLists → LangLists)

/-- `struct dicod_database`; `langKnown` is the flag `DICOD_DBF_LANG`. -/
structure Database where
  langKnown : Bool
  name : Bytes
  descr : Option Bytes
  info : Option Bytes
  langlist : LangLists
  acl : Option ℕ
  visible : Bool
  mimeHeaders : Option Headers
  module : DbModule

/-- The function behind a command. -/
inductive Handler
  | define | match_ | showDatabases | showStrategies | showInfo | showServer
  | client | status | help | quit
  | auth | mime | lang | showLangDb | showLangInfo | showLangPref
  | markup | xidle | xversion | xlevdist | saslauth
  deriving DecidableEq, Repr

/-- `struct dicod_command`; without `maxparam` there is no limit. -/
structure Command where
  keyword : Bytes
  minparam : ℕ
  maxparam : Option ℕ
  param : Option Bytes
  help : Bytes
  handler : Handler
  deriving DecidableEq, Repr

/-- What a pointer to allocated data points to. -/
inductive Pointer (α : Type)
  | null
  | live (a : α)
  /-- The data were freed and the pointer was kept. -/
  | freed
  deriving DecidableEq, Repr

/-- `free (p)`. -/
def Pointer.free {α : Type} : Pointer α → Except Fault Unit
  | .freed => .error .dangling
  | _ => .ok ()

/-- `dicod_lang_lazy_prefs` and `dicod_lang_prefs`. -/
structure LangPrefs where
  lazy : Option (List Bytes)
  prefs : LangLists
  deriving DecidableEq, Repr

/-- What is configured. `apop` is the hexadecimal digest `verify_apop`
makes of a password, and `quotearg` the function of that name. -/
structure Config where
  globalAcl : Option ℕ
  acls : ℕ → List AclEntry
  stack : ℕ
  strategies : List Strategy
  defaultStrategy : Option Strategy
  markupList : List Bytes
  saslEnabledMech : Option (List Bytes)
  saslDisabledMech : Option (List Bytes)
  saslAnonGroups : Option (List Bytes)
  apop : Bytes → Bytes
  quotearg : Bytes → Bytes
  showSysInfo : Option ℕ
  packageString : Bytes
  sysname : Bytes
  release : Bytes
  hostname : Bytes
  serverInfo : Option Bytes
  helpText : Option Bytes
  programVersion : Bytes
  inactivityTimeout : ℕ

/-- A configuration without access control that sets nothing up. -/
def Config.plain : Config where
  globalAcl := none
  acls := fun _ => []
  stack := 0
  strategies := []
  defaultStrategy := none
  markupList := [ascii "none"]
  saslEnabledMech := none
  saslDisabledMech := none
  saslAnonGroups := none
  apop := id
  quotearg := id
  showSysInfo := none
  packageString := []
  sysname := []
  release := []
  hostname := []
  serverInfo := none
  helpText := none
  programVersion := []
  inactivityTimeout := 0

/-- The globals of the server. The client's identification is kept as the
words it was made of. -/
structure Session where
  userName : Option Bytes
  userGroups : Option (List Bytes)
  clientAddr : ClientAddr
  clientId : Pointer (List Bytes)
  identityName : Option Bytes
  lang : LangPrefs
  optionMime : Bool
  levenshteinDistance : ℕ
  markupType : Bytes
  commandList : List Command
  databases : List Database
  gotQuit : Bool

/-- How the user database answers: whether it opens, the password of a
user, who may be unknown, and his groups. A query that fails leaves its
result alone. -/
structure Udb where
  opens : Bool
  password : Bytes → Option (Option Bytes)
  groups : Bytes → Option (Option (List Bytes))

/-- How an exchange with the SASL library and the client ends. -/
inductive SaslResult
  /-- `gsasl_server_start` does not know the mechanism. -/
  | unknown
  /-- It failed otherwise, or a later step did, or the client did. -/
  | failed
  /-- It ended well, with the user name the callbacks left, if any. -/
  | done (username : Option Bytes) (anon : Bool)
  deriving DecidableEq, Repr

/-- What the world answers while a command runs. -/
structure Env where
  udb : Udb
  sasl : SaslResult
  gsaslStream : Bool

/-- What a reply is made of: calls of the stream functions on the
connection (`write`, `writeln`) or on the output stream a command
creates. -/
inductive Out
  | write (text : Bytes)
  | writeln (text : Bytes)
  | ostreamCreate (headers : Option Headers)
  | put (text : Bytes)
  | multiline (text : Bytes)
  | ostreamClose
  deriving DecidableEq, Repr

namespace Session

/-- What access control knows of the client. -/
def who (s : Session) : Credentials := ⟨s.userName, s.userGroups, s.clientAddr⟩

/-- The globals as the process starts, with the commands and the databases
the configuration gives. -/
def start (commands : List Command) (databases : List Database) : Session where
  userName := none
  userGroups := none
  clientAddr := .other
  clientId := .null
  identityName := none
  lang := ⟨none, none, none⟩
  optionMime := false
  levenshteinDistance := 1
  markupType := ascii "none"
  commandList := commands
  databases := databases
  gotQuit := false

end Session

end Dico
