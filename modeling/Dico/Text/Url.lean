import Dico.List.Assoc
import Dico.Text.Number
/-!
# URLs

`dico_url_parse` takes a URL apart with one scanner behind another: the
protocol, the user, the host, the path and its arguments. The path of a
`dict` URL is a request, which is taken apart in turn.

`dictUrl_iff` says for which requests the parts that were put together are
found again, with a default in the place of what is missing. It takes that
no empty database or strategy comes last: `alloc_string_def` compares the
two ends of a field, and the last field has no end.
-/

namespace Dico

/-! ## The parser -/

/-- `DICO_REQUEST_DEFINE` and `DICO_REQUEST_MATCH`. -/
inductive RequestType
  | define
  | matching
  deriving DecidableEq

/-- `struct dico_request`. -/
structure DicoRequest where
  type : RequestType
  word : Option Bytes
  database : Option Bytes
  strategy : Option Bytes
  n : ℕ
  deriving DecidableEq

/-- `struct dico_url`. -/
structure DicoUrl where
  string : Option Bytes
  proto : Option Bytes
  host : Option Bytes
  port : ℕ
  path : Option Bytes
  user : Option Bytes
  passwd : Option Bytes
  args : Option DicoAssocList
  req : DicoRequest
  deriving DecidableEq

/-- How a URL is refused. -/
inductive UrlError
  /-- The code returned is not zero. -/
  | invalid
  /-- There is no code. -/
  | fault (f : Fault)
  deriving DecidableEq

/-- What `memset` makes of the URL. -/
def DicoUrl.blank : DicoUrl :=
  ⟨none, none, none, 0, none, none, none, none, ⟨.define, none, none, none, 0⟩⟩

/-- `alloc_string`: the string up to its end, or all of it. -/
def allocString (start : Bytes) (stop : Option ℕ) : Bytes :=
  start.take (stop.getD start.length)

/-- `alloc_string_def`. -/
def allocStringDef (start : Bytes) (stop : Option ℕ) (dflt : Bytes) : Bytes :=
  if stop = some 0 then allocString dflt none else allocString start stop

/-- `url_parse_arg`. -/
def urlParseArg (url : DicoUrl) (arg : Bytes) : Except UrlError DicoUrl :=
  let s := strcspn [61] arg
  let key := allocString arg (some s)
  let value := if s ≠ arg.length then some (allocString (arg.drop (s + 1)) none) else none
  match url.args with
  | none => .error (.fault .dangling)
  | some args =>
    match args.add key value 1 false with
    | none => .ok url
    | some args => .ok { url with args := some args }

/-- The loop of `url_get_args`. -/
def urlArgsLoop (url : DicoUrl) (p : Bytes) : Except UrlError DicoUrl :=
  match h : strchr 59 p with
  | some q => do
    let url ← urlParseArg url (p.take q)
    urlArgsLoop url (p.drop (q + 1))
  | none => urlParseArg url p
termination_by p.length
decreasing_by
  have hmem : (59 : UInt8) ∈ p := by
    by_contra hnot
    rw [strchr, if_neg hnot] at h
    cases h
  have hpos := List.length_pos_of_mem hmem
  rw [List.length_drop]
  omega

/-- `url_get_args`. -/
def urlGetArgs (url : DicoUrl) (str : Bytes) : Except UrlError DicoUrl :=
  if str = [] then .ok url
  else urlArgsLoop { url with args := some (DicoAssocList.create false true) } str

/-- `url_get_path`. -/
def urlGetPath (url : DicoUrl) (str : Bytes) : Except UrlError DicoUrl :=
  let p := strcspn [59] str
  let url := { url with path := some (allocString str (some p)) }
  urlGetArgs url (str.drop (p + 1))

/-- `url_get_host`. -/
def urlGetHost (url : DicoUrl) (s : Bytes) : Except UrlError DicoUrl := do
  let len := strcspn [47, 58] s
  let (port, str) ←
    if (s.drop len).head? = some 58 then
      let (n, q) := strtoul10 (s.drop (len + 1))
      if (∃ c ∈ q.head?, c ∉ ascii "/;:") ∨ 65535 < n then .error .invalid
      else .ok (n, q.drop (strcspn [47] q))
    else .ok (url.port, s.drop len)
  let url := { url with port := port, host := some (s.take len) }
  if str = [] then .ok url else urlGetPath url (str.drop 1)

/-- The case of `url_get_user` where a colon, or a semicolon, is behind the
name: it is a password only if an at sign ends it. -/
def urlGetPasswd (url : DicoUrl) (str : Bytes) (len : ℕ) : Except UrlError DicoUrl :=
  let p := str.drop (len + 1)
  let len' := strcspn [64, 47, 58] p
  if (p.drop len').head? = some 64 then
    urlGetHost { url with
      passwd := some (p.take len')
      user := some (allocString str (some len)) } (p.drop (len' + 1))
  else urlGetHost url str

/-- `url_get_user`. -/
def urlGetUser (url : DicoUrl) (str : Bytes) : Except UrlError DicoUrl :=
  let len := strcspn [58, 59, 64, 47] str
  match (str.drop len).head? with
  | some 59 =>
    if url.proto ≠ some (ascii "dict") then urlGetHost url str else urlGetPasswd url str len
  | some 58 => urlGetPasswd url str len
  | some 64 =>
    urlGetHost { url with user := some (allocString str (some len)), passwd := none }
      (str.drop (len + 1))
  | _ => urlGetHost url str

/-- `url_get_proto`. -/
def urlGetProto (url : DicoUrl) (str : Bytes) : Except UrlError DicoUrl :=
  match strchr 58 str with
  | none => .error .invalid
  | some p =>
    let url := { url with proto := some (allocString str (some p)) }
    let s := str.drop (p + 1)
    urlGetUser url (s.drop (strspn [47] s))

/-- The number behind the last colon. -/
def urlParseNumber (url : DicoUrl) (p : Bytes) (q : Option ℕ) : Except UrlError DicoUrl :=
  match q with
  | none => .ok url
  | some q =>
    let (n, r) := strtoul10 (p.drop (q + 1))
    if r ≠ [] then .error .invalid else .ok { url with req := { url.req with n := n } }

/-- The fields behind the word. -/
def urlParseFields (url : DicoUrl) (p : Bytes) : Except UrlError DicoUrl :=
  let q := strchr 58 p
  let req := { url.req with database := some (allocStringDef p q (ascii "*")) }
  match req.type with
  | .define => urlParseNumber { url with req := req } p q
  | .matching =>
    match q with
    | none => .ok { url with req := { req with strategy := some (ascii ".") } }
    | some q =>
      let p := p.drop (q + 1)
      let q := strchr 58 p
      let req := { req with strategy := some (allocStringDef p q (ascii ".")) }
      urlParseNumber { url with req := req } p q

/-- The letter in front of a request. -/
def requestType (c : UInt8) : Option RequestType :=
  if c = 109 then some .matching else if c = 100 then some .define else none

/-- `url_parse_dico_request`. The second byte of an empty path is not
there. -/
def urlParseDicoRequest (url : DicoUrl) : Except UrlError DicoUrl :=
  match url.path with
  | none => .ok url
  | some [] => .error (.fault .bounds)
  | some (c :: r) =>
    if r.head? ≠ some 58 then .error .invalid
    else
      match requestType c with
      | none => .error .invalid
      | some type =>
        let p := r.drop 1
        let q := strchr 58 p
        let req := { url.req with type := type, word := some (allocString p q) }
        match q with
        | none => .ok { url with
            req := { req with database := some (ascii "!"), strategy := some (ascii ".") } }
        | some q => urlParseFields { url with req := req } (p.drop (q + 1))

/-- `dico_url_parse`. -/
def dicoUrlParse (str : Bytes) : Except UrlError DicoUrl := do
  let url ← urlGetProto .blank str
  let url := { url with string := some str }
  match url.proto with
  | none => .error (.fault .dangling)
  | some proto =>
    match memeq (proto ++ [0]) (ascii "dict" ++ [0]) 4 with
    | .error f => .error (.fault f)
    | .ok true => urlParseDicoRequest url
    | .ok false => .ok url

/-! ## What a URL is put together from -/

/-- A part of a URL, free of the delimiters. -/
structure Component where
  bytes : Bytes
  plain : ∀ c ∈ bytes, c ∉ [0, 47, 58, 59, 64]

/-- `d:word[:database[:n]]` and `m:word[:database[:strategy[:n]]]`. -/
inductive DictRequest
  | define (word : Component) (rest : Option (Component × Option Decimal))
  | matching (word : Component) (rest : Option (Component × Option (Component × Option Decimal)))

/-- `dict://[user[:password]@]host[:port]/request`. -/
structure DictUrl where
  user : Option (Component × Option Component)
  host : Component
  host_ne_nil : host.bytes ≠ []
  port : Option Decimal
  port_le : ∀ p ∈ port, p.value ≤ 65535
  request : DictRequest

/-- A part that is there only behind a colon. -/
def afterColon {α : Type} (text : α → Bytes) : Option α → Bytes
  | none => []
  | some a => 58 :: text a

namespace DictRequest

/-- The request as text. -/
def text : DictRequest → Bytes
  | define word rest =>
    100 :: 58 :: (word.bytes ++
      afterColon (fun f => f.1.bytes ++ afterColon Decimal.digits f.2) rest)
  | matching word rest =>
    109 :: 58 :: (word.bytes ++ afterColon (fun f => f.1.bytes ++
      afterColon (fun g => g.1.bytes ++ afterColon Decimal.digits g.2) f.2) rest)

/-- What is asked for. -/
def type : DictRequest → RequestType
  | define _ _ => .define
  | matching _ _ => .matching

/-- The word. -/
def word : DictRequest → Component
  | define word _ => word
  | matching word _ => word

/-- The database, if there is one. -/
def database : DictRequest → Option Component
  | define _ rest => rest.map Prod.fst
  | matching _ rest => rest.map Prod.fst

/-- The strategy, if there is one. -/
def strategy : DictRequest → Option Component
  | define _ _ => none
  | matching _ rest => rest.bind fun f => f.2.map Prod.fst

/-- The number, if there is one. -/
def number : DictRequest → Option Decimal
  | define _ rest => rest.bind Prod.snd
  | matching _ rest => rest.bind fun f => f.2.bind Prod.snd

/-- No empty database or strategy comes last, and the number is an
`unsigned long`. -/
def Ends : DictRequest → Prop
  | define _ none => True
  | define _ (some (database, none)) => database.bytes ≠ []
  | define _ (some (_, some n)) => n.value < 2 ^ 64
  | matching _ none => True
  | matching _ (some (database, none)) => database.bytes ≠ []
  | matching _ (some (_, some (strategy, none))) => strategy.bytes ≠ []
  | matching _ (some (_, some (_, some n))) => n.value < 2 ^ 64

end DictRequest

namespace DictUrl

/-- The name and the password in front of a host. -/
def userText : Option (Component × Option Component) → Bytes
  | none => []
  | some (user, passwd) => user.bytes ++ (afterColon Component.bytes passwd ++ [64])

/-- The host and what follows it. -/
def hostText (u : DictUrl) : Bytes :=
  u.host.bytes ++ (afterColon Decimal.digits u.port ++ 47 :: u.request.text)

/-- The URL as text. -/
def text (u : DictUrl) : Bytes := ascii "dict://" ++ (userText u.user ++ u.hostText)

end DictUrl

/-- What is stored for a part: the part itself, or some default where it is
missing or empty. -/
def Given (part : Option Component) (stored : Option Bytes) : Prop :=
  ∃ s, stored = some s ∧ s ≠ [] ∧ ∀ c ∈ part, c.bytes ≠ [] → s = c.bytes

/-- The parts are found again. -/
structure Stored (u : DictUrl) (url : DicoUrl) : Prop where
  user : url.user = u.user.map fun p => p.1.bytes
  passwd : url.passwd = u.user.bind fun p => p.2.map Component.bytes
  host : url.host = some u.host.bytes
  port : url.port = u.port.elim 0 Decimal.value
  type : url.req.type = u.request.type
  word : url.req.word = some u.request.word.bytes
  database : Given u.request.database url.req.database
  strategy : u.request.type = .matching → Given u.request.strategy url.req.strategy
  n : url.req.n = u.request.number.elim 0 Decimal.value

/-! ## One part after another -/

section Parts

variable {s t : Bytes} {a : Component} {url : DicoUrl}

/-- A complement span over all of a string. -/
theorem strcspn_all {reject : Bytes} (hs : ∀ b ∈ s, b ∉ reject) : strcspn reject s = s.length := by
  rw [strcspn, List.takeWhile_eq_self_iff.2 fun b hb => decide_eq_true (hs b hb)]

/-- A delimiter is not in a part. -/
theorem Component.notMem (a : Component) {c : UInt8} (hc : c ∈ ([0, 47, 58, 59, 64] : Bytes)) :
    c ∉ a.bytes := fun h => a.plain c h hc

/-- A part is gone over by a scan for delimiters. -/
theorem Component.forall_notMem (a : Component) {reject : Bytes}
    (h : reject ⊆ [0, 47, 58, 59, 64]) : ∀ b ∈ a.bytes, b ∉ reject :=
  fun b hb hr => a.plain b hb (h hr)

/-- A digit is none of the delimiters. -/
theorem Decimal.forall_notMem (d : Decimal) {reject : Bytes}
    (h : reject ⊆ [0, 47, 58, 59, 64]) : ∀ b ∈ d.digits, b ∉ reject := by
  intro b hb hr
  have hdigit := d.isDigit b hb
  have hdelim := h hr
  simp only [List.mem_cons, List.not_mem_nil, or_false] at hdelim
  rcases hdelim with rfl | rfl | rfl | rfl | rfl <;> exact absurd hdigit (by decide)

/-- The colon behind a part, if there is one. -/
theorem strchr_component {α : Type} (a : Component) (f : α → Bytes) (o : Option α) :
    strchr 58 (a.bytes ++ afterColon f o) = o.map fun _ => a.bytes.length := by
  have ha : (58 : UInt8) ∉ a.bytes := a.notMem (by decide)
  cases o with
  | none => rw [afterColon, List.append_nil, strchr, if_neg ha, Option.map_none]
  | some x => rw [afterColon, strchr_append ha, Option.map_some]

/-- The part is taken. -/
theorem allocString_component {α : Type} (a : Component) (f : α → Bytes) (o : Option α) :
    allocString (a.bytes ++ afterColon f o) (o.map fun _ => a.bytes.length) = a.bytes := by
  cases o with
  | none => rw [Option.map_none, afterColon, List.append_nil, allocString, Option.getD_none,
      List.take_length]
  | some x => rw [Option.map_some, allocString, Option.getD_some, List.take_left]

/-- What is behind it. -/
theorem drop_component {α : Type} (a : Component) (f : α → Bytes) (x : α) :
    (a.bytes ++ afterColon f (some x)).drop (a.bytes.length + 1) = f x := by
  rw [afterColon, drop_place]

/-- What a field is stored as: the default is used only if more follows. -/
def fieldOr (a : Component) (more : Bool) (dflt : Bytes) : Bytes :=
  if more ∧ a.bytes = [] then dflt else a.bytes

/-- A field with a default. -/
theorem allocStringDef_component {α : Type} (a : Component) (f : α → Bytes) (o : Option α)
    (dflt : Bytes) :
    allocStringDef (a.bytes ++ afterColon f o) (o.map fun _ => a.bytes.length) dflt =
      fieldOr a o.isSome dflt := by
  rw [allocStringDef, fieldOr, allocString_component, allocString, Option.getD_none,
    List.take_length]
  cases o with
  | none => rfl
  | some x => simp only [Option.map_some, Option.some.injEq, List.length_eq_zero_iff,
      Option.isSome_some, true_and]

/-- The number at the end of a request. -/
def numberOr (n : Option Decimal) : ℕ := n.elim 0 fun d => min d.value ulongMax

/-- The number is read to its end. -/
theorem urlParseNumber_component (a : Component) (n : Option Decimal) (hn : url.req.n = 0) :
    urlParseNumber url (a.bytes ++ afterColon Decimal.digits n) (n.map fun _ => a.bytes.length) =
      .ok { url with req := { url.req with n := numberOr n } } := by
  cases n with
  | none =>
    have hsame : { url.req with n := numberOr none } = url.req := by
      rw [numberOr, Option.elim_none, ← hn]
    rw [Option.map_none, urlParseNumber, hsame]
  | some d =>
    have hread := strtoul10_digits d.ne_nil d.isDigit
    rw [Option.map_some, urlParseNumber, drop_component, hread]
    rfl

end Parts

/-! ## The request -/

namespace DictRequest

/-- What the request is stored as. -/
def stored : DictRequest → DicoRequest
  | define word none =>
    ⟨.define, some word.bytes, some (ascii "!"), some (ascii "."), 0⟩
  | define word (some (database, n)) =>
    ⟨.define, some word.bytes, some (fieldOr database n.isSome (ascii "*")), none, numberOr n⟩
  | matching word none =>
    ⟨.matching, some word.bytes, some (ascii "!"), some (ascii "."), 0⟩
  | matching word (some (database, none)) =>
    ⟨.matching, some word.bytes, some database.bytes, some (ascii "."), 0⟩
  | matching word (some (database, some (strategy, n))) =>
    ⟨.matching, some word.bytes, some (fieldOr database true (ascii "*")),
      some (fieldOr strategy n.isSome (ascii ".")), numberOr n⟩

variable {url : DicoUrl}

/-- The fields of a definition. -/
theorem urlParseFields_define (htype : url.req.type = .define) (hn : url.req.n = 0)
    (database : Component) (n : Option Decimal) :
    urlParseFields url (database.bytes ++ afterColon Decimal.digits n) = .ok { url with
      req := { url.req with
        database := some (fieldOr database n.isSome (ascii "*"))
        n := numberOr n } } := by
  unfold urlParseFields
  simp only [htype, strchr_component, allocStringDef_component]
  rw [urlParseNumber_component database n]
  exact hn

/-- The fields of a match that has no strategy. -/
theorem urlParseFields_database (htype : url.req.type = .matching) (database : Component) :
    urlParseFields url database.bytes = .ok { url with
      req := { url.req with
        database := some database.bytes
        strategy := some (ascii ".") } } := by
  have hnone := strchr_component database Decimal.digits none
  have hdef := allocStringDef_component database Decimal.digits none (ascii "*")
  rw [afterColon, List.append_nil, Option.map_none] at hnone hdef
  unfold urlParseFields
  simp only [htype, hnone, hdef]
  rfl

/-- The fields of a match that has one. -/
theorem urlParseFields_strategy (htype : url.req.type = .matching) (hn : url.req.n = 0)
    (database strategy : Component) (n : Option Decimal) :
    urlParseFields url (database.bytes ++ afterColon (fun g : Component × Option Decimal =>
      g.1.bytes ++ afterColon Decimal.digits g.2) (some (strategy, n))) = .ok { url with
        req := { url.req with
          database := some (fieldOr database true (ascii "*"))
          strategy := some (fieldOr strategy n.isSome (ascii "."))
          n := numberOr n } } := by
  have hdef := allocStringDef_component database
    (fun g : Component × Option Decimal => g.1.bytes ++ afterColon Decimal.digits g.2)
    (some (strategy, n)) (ascii "*")
  rw [Option.map_some] at hdef
  unfold urlParseFields
  simp only [htype, strchr_component, hdef, Option.map_some, drop_component,
    allocStringDef_component, Option.isSome_some]
  rw [urlParseNumber_component strategy n]
  exact hn

/-- A request is taken apart. -/
theorem urlParseDicoRequest_text (r : DictRequest) (hpath : url.path = some r.text)
    (hreq : url.req = DicoUrl.blank.req) :
    urlParseDicoRequest url = .ok { url with req := r.stored } := by
  have hdefine : requestType 100 = some .define := rfl
  have hmatching : requestType 109 = some .matching := rfl
  rw [urlParseDicoRequest, hpath]
  cases r with
  | define word rest =>
    simp only [text, List.head?_cons, ne_eq, not_true_eq_false, if_false, List.drop_succ_cons,
      List.drop_zero, strchr_component, allocString_component, hdefine, hreq]
    rcases rest with - | ⟨database, n⟩
    · rfl
    · simp only [Option.map_some, drop_component]
      rw [urlParseFields_define]
      all_goals rfl
  | matching word rest =>
    simp only [text, List.head?_cons, ne_eq, not_true_eq_false, if_false, List.drop_succ_cons,
      List.drop_zero, strchr_component, allocString_component, hmatching, hreq]
    rcases rest with - | ⟨database, - | ⟨strategy, n⟩⟩
    · rfl
    · simp only [Option.map_some, drop_component]
      rw [afterColon, List.append_nil, urlParseFields_database]
      all_goals rfl
    · simp only [Option.map_some, drop_component]
      rw [urlParseFields_strategy]
      all_goals rfl

end DictRequest

/-! ## The scanners -/

section Scanners

variable {url : DicoUrl}

/-- There is no semicolon in what comes behind a colon. -/
theorem semicolon_notMem_afterColon {α : Type} {f : α → Bytes} {o : Option α}
    (h : ∀ a ∈ o, (59 : UInt8) ∉ f a) : (59 : UInt8) ∉ afterColon f o := by
  cases o with
  | none => exact List.not_mem_nil
  | some a =>
    rw [afterColon, List.mem_cons, not_or]
    exact ⟨by decide, h a rfl⟩

/-- Nor behind a part. -/
theorem semicolon_notMem_append {α : Type} (a : Component) {f : α → Bytes} {o : Option α}
    (h : ∀ x ∈ o, (59 : UInt8) ∉ f x) : (59 : UInt8) ∉ a.bytes ++ afterColon f o := by
  rw [List.mem_append, not_or]
  exact ⟨a.notMem (by decide), semicolon_notMem_afterColon h⟩

/-- Nor in a number. -/
theorem semicolon_notMem_digits (d : Decimal) : (59 : UInt8) ∉ d.digits := fun h =>
  d.forall_notMem (List.Subset.refl _) 59 h (by decide)

/-- A request has no arguments behind it. -/
theorem semicolon_notMem_text (r : DictRequest) : (59 : UInt8) ∉ r.text := by
  cases r with
  | define word rest =>
    have hrest := semicolon_notMem_append word (o := rest) (f := fun f =>
      f.1.bytes ++ afterColon Decimal.digits f.2) fun f _ =>
        semicolon_notMem_append f.1 fun n _ => semicolon_notMem_digits n
    rw [DictRequest.text, List.mem_cons, List.mem_cons, not_or, not_or]
    exact ⟨by decide, by decide, hrest⟩
  | matching word rest =>
    have hrest := semicolon_notMem_append word (o := rest) (f := fun f => f.1.bytes ++
      afterColon (fun g => g.1.bytes ++ afterColon Decimal.digits g.2) f.2) fun f _ =>
        semicolon_notMem_append f.1 fun g _ =>
          semicolon_notMem_append g.1 fun n _ => semicolon_notMem_digits n
    rw [DictRequest.text, List.mem_cons, List.mem_cons, not_or, not_or]
    exact ⟨by decide, by decide, hrest⟩

/-- The path is all that is left. -/
theorem urlGetPath_text (r : DictRequest) :
    urlGetPath url r.text = .ok { url with path := some r.text } := by
  have hspan : strcspn [59] r.text = r.text.length :=
    strcspn_all fun b hb hr => semicolon_notMem_text r (List.mem_singleton.1 hr ▸ hb)
  rw [urlGetPath]
  simp only [hspan, allocString, Option.getD_some, List.take_length,
    List.drop_eq_nil_of_le (Nat.le_succ r.text.length)]
  rfl

/-- A host with its port, up to the path. -/
theorem urlGetHost_hostText (u : DictUrl) :
    urlGetHost url u.hostText = .ok { url with
      port := u.port.elim url.port Decimal.value
      host := some u.host.bytes
      path := some u.request.text } := by
  have hhost : ∀ b ∈ u.host.bytes, b ∉ ([47, 58] : Bytes) := u.host.forall_notMem (by decide)
  rw [urlGetHost, DictUrl.hostText]
  cases hport : u.port with
  | none =>
    have hspan : strcspn [47, 58] (u.host.bytes ++ 47 :: u.request.text) = u.host.bytes.length :=
      strcspn_append hhost (by decide)
    simp only [afterColon, List.nil_append, hspan, List.drop_left, List.take_left]
    exact urlGetPath_text u.request
  | some d =>
    have hle : d.value ≤ 65535 := u.port_le d hport
    have hspan : strcspn [47, 58] (u.host.bytes ++ 58 :: (d.digits ++ 47 :: u.request.text)) =
        u.host.bytes.length := strcspn_append hhost (by decide)
    have hread : strtoul10 (d.digits ++ 47 :: u.request.text) =
        (d.value, 47 :: u.request.text) := by
      refine d.strtoul10_eq (by omega) ?_
      intro c hc
      obtain rfl := Option.some.inj hc
      decide
    have hok : ¬ ((∃ c ∈ (47 :: u.request.text).head?, c ∉ ascii "/;:") ∨ 65535 < d.value) := by
      rintro (⟨c, hc, hnot⟩ | hlt)
      · obtain rfl := Option.some.inj hc
        exact hnot (by decide)
      · omega
    simp only [afterColon, List.cons_append, hspan, List.drop_left, drop_place, hread, if_neg hok,
      List.take_left]
    exact urlGetPath_text u.request

/-- A port is not taken for a password. -/
theorem urlGetUser_hostText (u : DictUrl) :
    urlGetUser url u.hostText = urlGetHost url u.hostText := by
  have hhost : ∀ b ∈ u.host.bytes, b ∉ ([58, 59, 64, 47] : Bytes) :=
    u.host.forall_notMem (by decide)
  unfold urlGetUser
  rw [DictUrl.hostText]
  cases hport : u.port with
  | none =>
    have hspan : strcspn [58, 59, 64, 47] (u.host.bytes ++ 47 :: u.request.text) =
        u.host.bytes.length := strcspn_append hhost (by decide)
    simp only [afterColon, List.nil_append, hspan, List.drop_left]
    rfl
  | some d =>
    have hspan : strcspn [58, 59, 64, 47]
        (u.host.bytes ++ 58 :: (d.digits ++ 47 :: u.request.text)) = u.host.bytes.length :=
      strcspn_append hhost (by decide)
    have hdigits : strcspn [64, 47, 58] (d.digits ++ 47 :: u.request.text) = d.digits.length :=
      strcspn_append (d.forall_notMem (by decide)) (by decide)
    simp only [afterColon, List.cons_append, hspan, List.drop_left, List.head?_cons, urlGetPasswd,
      drop_place, hdigits]
    rfl

/-- The name and the password, if there are any. -/
theorem urlGetUser_userText (huser : url.user = none) (hpasswd : url.passwd = none)
    (user : Option (Component × Option Component)) (u : DictUrl) :
    urlGetUser url (DictUrl.userText user ++ u.hostText) = urlGetHost { url with
      user := user.map fun p => p.1.bytes
      passwd := user.bind fun p => p.2.map Component.bytes } u.hostText := by
  rcases user with - | ⟨name, - | passwd⟩
  · have hsame : { url with user := none, passwd := none } = url := by
      cases url
      cases huser
      cases hpasswd
      rfl
    rw [DictUrl.userText, List.nil_append, urlGetUser_hostText, Option.map_none,
      Option.bind_none, hsame]
  · have hspan : strcspn [58, 59, 64, 47] (name.bytes ++ 64 :: u.hostText) =
        name.bytes.length := strcspn_append (name.forall_notMem (by decide)) (by decide)
    rw [DictUrl.userText, afterColon, List.nil_append, List.append_assoc, List.singleton_append,
      urlGetUser]
    simp only [hspan, List.drop_left, drop_place, List.head?_cons, allocString, Option.getD_some,
      List.take_left]
    rfl
  · have hspan : strcspn [58, 59, 64, 47] (name.bytes ++ 58 :: (passwd.bytes ++ 64 :: u.hostText)) =
        name.bytes.length := strcspn_append (name.forall_notMem (by decide)) (by decide)
    have hspan' : strcspn [64, 47, 58] (passwd.bytes ++ 64 :: u.hostText) =
        passwd.bytes.length := strcspn_append (passwd.forall_notMem (by decide)) (by decide)
    have htext : DictUrl.userText (some (name, some passwd)) ++ u.hostText =
        name.bytes ++ 58 :: (passwd.bytes ++ 64 :: u.hostText) := by
      simp only [DictUrl.userText, afterColon, List.append_assoc, List.cons_append, List.nil_append]
    rw [htext, urlGetUser]
    simp only [hspan, List.drop_left, List.head?_cons, urlGetPasswd, drop_place, hspan',
      allocString, Option.getD_some, List.take_left, if_true]
    rfl

end Scanners

/-! ## The URL -/

namespace DictUrl

/-- What the URL is stored as. -/
def stored (u : DictUrl) : DicoUrl where
  string := some u.text
  proto := some (ascii "dict")
  host := some u.host.bytes
  port := u.port.elim 0 Decimal.value
  path := some u.request.text
  user := u.user.map fun p => p.1.bytes
  passwd := u.user.bind fun p => p.2.map Component.bytes
  args := none
  req := u.request.stored

/-- What follows the protocol does not begin with a slash. -/
theorem strspn_slash (u : DictUrl) : strspn [47] (userText u.user ++ u.hostText) = 0 := by
  obtain ⟨b, t, ht, hb⟩ : ∃ b t, userText u.user ++ u.hostText = b :: t ∧ b ≠ 47 := by
    have hcomp : ∀ (a : Component) (c : UInt8) (r : Bytes), c ≠ 47 →
        ∃ b t, a.bytes ++ c :: r = b :: t ∧ b ≠ 47 := by
      intro a c r hc
      cases ha : a.bytes with
      | nil => exact ⟨c, r, rfl, hc⟩
      | cons b t =>
        refine ⟨b, t ++ c :: r, rfl, ?_⟩
        rintro rfl
        exact a.notMem (by decide) (ha ▸ List.mem_cons_self)
    rcases u.user with - | ⟨name, - | passwd⟩
    · obtain ⟨b, t, ht⟩ := List.exists_cons_of_ne_nil u.host_ne_nil
      refine ⟨b, t ++ (afterColon Decimal.digits u.port ++ 47 :: u.request.text), ?_, ?_⟩
      · rw [userText, List.nil_append, hostText, ht, List.cons_append]
      · rintro rfl
        exact u.host.notMem (by decide) (ht ▸ List.mem_cons_self)
    · rw [userText, afterColon, List.nil_append, List.append_assoc, List.singleton_append]
      exact hcomp name 64 _ (by decide)
    · rw [userText, afterColon, List.append_assoc, List.cons_append, List.cons_append]
      exact hcomp name 58 _ (by decide)
  rw [ht]
  exact strspn_cons fun h => hb (List.mem_singleton.1 h)

/-- **The URL is taken apart.** -/
theorem dicoUrlParse_text (u : DictUrl) : dicoUrlParse u.text = .ok u.stored := by
  have hproto : strchr 58 u.text = some 4 := strchr_append (s := ascii "dict") (by decide)
  have hslash : strspn [47] (47 :: 47 :: (userText u.user ++ u.hostText)) = 2 := by
    have hnone := u.strspn_slash
    rw [strspn] at hnone ⊢
    rw [List.takeWhile_cons_of_pos (by decide), List.takeWhile_cons_of_pos (by decide),
      List.length_cons, List.length_cons, hnone]
  have hget : urlGetProto .blank u.text = .ok { u.stored with
      string := none
      req := DicoUrl.blank.req } := by
    rw [urlGetProto, hproto]
    change urlGetUser { DicoUrl.blank with proto := some (ascii "dict") }
      ((47 :: 47 :: (userText u.user ++ u.hostText)).drop
        (strspn [47] (47 :: 47 :: (userText u.user ++ u.hostText)))) = _
    rw [hslash, List.drop_succ_cons, List.drop_succ_cons, List.drop_zero,
      urlGetUser_userText rfl rfl, urlGetHost_hostText]
    rfl
  have hdict : memeq (ascii "dict" ++ [0]) (ascii "dict" ++ [0]) 4 = .ok true := rfl
  rw [dicoUrlParse, hget, ok_bind]
  simp only [stored, hdict]
  rw [DictRequest.urlParseDicoRequest_text u.request]
  all_goals rfl

/-- A field that more follows has what it should. -/
theorem given_more (a : Component) {dflt : Bytes} (hd : dflt ≠ []) :
    Given (some a) (some (fieldOr a true dflt)) := by
  refine ⟨_, rfl, ?_, ?_⟩
  · rw [fieldOr]
    split_ifs with hif
    · exact hd
    · exact fun hnil => hif ⟨rfl, hnil⟩
  · rintro c hc hne
    obtain rfl := Option.some.inj hc
    rw [fieldOr, if_neg fun hif => hne hif.2]

/-- The last one has it if it is not empty. -/
theorem given_last (a : Component) (dflt : Bytes) :
    Given (some a) (some (fieldOr a false dflt)) ↔ a.bytes ≠ [] := by
  have hsame : fieldOr a false dflt = a.bytes := if_neg fun h => Bool.false_ne_true h.1
  rw [hsame]
  constructor
  · rintro ⟨s, hs, hne, -⟩
    obtain rfl := Option.some.inj hs
    exact hne
  · intro hne
    refine ⟨_, rfl, hne, ?_⟩
    rintro c hc -
    rw [Option.some.inj hc]

/-- A default for what is missing. -/
theorem given_none {dflt : Bytes} (hd : dflt ≠ []) : Given none (some dflt) :=
  ⟨dflt, rfl, hd, fun _ hc => absurd hc (Option.not_mem_none _)⟩

/-- The number is the one given where it is an `unsigned long`. -/
theorem numberOr_eq_iff (d : Decimal) : numberOr (some d) = d.value ↔ d.value < 2 ^ 64 := by
  rw [numberOr, Option.elim_some, ulongMax]
  omega

/-- The defaults. -/
theorem defaults_ne_nil : ascii "*" ≠ [] ∧ ascii "." ≠ [] ∧ ascii "!" ≠ [] := by decide

/-- What is stored of a request is what was given. -/
theorem request_stored_iff (r : DictRequest) :
    (Given r.database r.stored.database ∧
      (r.type = .matching → Given r.strategy r.stored.strategy) ∧
      r.stored.n = r.number.elim 0 Decimal.value) ↔ r.Ends := by
  obtain ⟨hstar, hdot, hbang⟩ := defaults_ne_nil
  have hdefine : RequestType.define ≠ .matching := by decide
  rcases r with ⟨-, - | ⟨database, - | n⟩⟩ | ⟨-, - | ⟨database, - | ⟨strategy, - | n⟩⟩⟩
  · exact iff_of_true ⟨given_none hbang, fun h => absurd h hdefine, rfl⟩ trivial
  · refine Iff.trans ?_ (given_last database (ascii "*"))
    exact ⟨fun h => h.1, fun h => ⟨h, fun h => absurd h hdefine, rfl⟩⟩
  · refine Iff.trans ?_ (numberOr_eq_iff n)
    exact ⟨fun h => h.2.2, fun h => ⟨given_more database hstar, fun h => absurd h hdefine, h⟩⟩
  · exact iff_of_true ⟨given_none hbang, fun _ => given_none hdot, rfl⟩ trivial
  · refine Iff.trans ?_ (given_last database (ascii "*"))
    exact ⟨fun h => h.1, fun h => ⟨h, fun _ => given_none hdot, rfl⟩⟩
  · refine Iff.trans ?_ (given_last strategy (ascii "."))
    exact ⟨fun h => h.2.1 rfl, fun h => ⟨given_more database hstar, fun _ => h, rfl⟩⟩
  · refine Iff.trans ?_ (numberOr_eq_iff n)
    exact ⟨fun h => h.2.2, fun h =>
      ⟨given_more database hstar, fun _ => given_more strategy hdot, h⟩⟩

end DictUrl

/-- **URLs of the `dict` protocol.** The URL is accepted with its parts
stored as they were given, and with a default for a database and a strategy
that are missing or empty, exactly if no empty database or strategy comes
last and the number is an `unsigned long`. -/
theorem dictUrl_iff (u : DictUrl) :
    (∃ url, dicoUrlParse u.text = .ok url ∧ Stored u url) ↔ u.request.Ends := by
  rw [← DictUrl.request_stored_iff, u.dicoUrlParse_text]
  constructor
  · rintro ⟨url, hurl, h⟩
    obtain rfl := Except.ok.inj hurl
    exact ⟨h.database, h.strategy, h.n⟩
  · rintro ⟨hdatabase, hstrategy, hn⟩
    have htype : u.stored.req.type = u.request.type ∧
        u.stored.req.word = some u.request.word.bytes := by
      change u.request.stored.type = _ ∧ u.request.stored.word = _
      rcases u.request with ⟨-, - | -⟩ | ⟨-, - | ⟨-, - | -⟩⟩ <;> exact ⟨rfl, rfl⟩
    exact ⟨_, rfl, rfl, rfl, rfl, rfl, htype.1, htype.2, hdatabase, hstrategy, hn⟩

/-- `dict://h/d:w:`. -/
def emptyLast : DictUrl where
  user := none
  host := ⟨ascii "h", forall_mem_of_all rfl⟩
  host_ne_nil := by decide
  port := none
  port_le := fun _ h => nomatch h
  request := .define ⟨ascii "w", forall_mem_of_all rfl⟩ (some (⟨[], forall_mem_of_all rfl⟩, none))

/-- **An empty database that comes last** is stored as it is. -/
theorem not_stored_emptyLast :
    emptyLast.text = ascii "dict://h/d:w:" ∧
      ¬ ∃ url, dicoUrlParse emptyLast.text = .ok url ∧ Stored emptyLast url := by
  refine ⟨by decide, ?_⟩
  rw [emptyLast.dicoUrlParse_text]
  rintro ⟨url, hurl, h⟩
  obtain rfl := Except.ok.inj hurl
  obtain ⟨s, hs, hne, -⟩ := h.database
  exact hne (Option.some.inj hs).symm

end Dico
