import Dico.Session.Acl
/-!
# Access control lists in the configuration

The parser of `acl` blocks, `acl_cb` of `dicod/main.c` and the functions of
`dicod/acl.c` it calls. An entry that names another list is linked to it
when it is read, so it can only name a list whose block has begun: an
earlier one, or its own. The latter is what a check can get lost in.
-/

namespace Dico

/-! ## The model -/

/-- `struct grecs_value`. -/
inductive GrecsValue
  | string (s : Bytes)
  | list (l : List GrecsValue)
  | array (args : List GrecsValue)

/-- `value->v.string`, which is another member of the union where the value
is no string. -/
def GrecsValue.word : GrecsValue → Except Fault Bytes
  | .string s => .ok s
  | _ => .error .dangling

/-- What the parser asks for: the table of lists, by the names in it and
the name looked for, and what an address stands for or else the error. -/
structure AclEnv where
  hashLookup : List Bytes → Bytes → Option ℕ
  /-- What is found is in the table. -/
  hashLookup_lt : ∀ {names name i}, hashLookup names name = some i → i < names.length
  sockaddr : Bytes → Except Bytes Sockaddr

/-- What a function that fills in an entry leaves: whether it returned 0,
the entry, and the errors it reported. -/
structure EntryParse where
  ok : Bool
  entry : AclEntry
  errors : List Bytes

namespace EntryParse

/-- Nothing wrong. -/
def done (entry : AclEntry) : EntryParse := ⟨true, entry, []⟩

/-- An error. -/
def error (entry : AclEntry) (text : Bytes) : EntryParse := ⟨false, entry, [text]⟩

end EntryParse

open EntryParse

/-- `_parse_token`, where it returns 0. -/
def parseToken (entry : AclEntry) (word : Bytes) : Option AclEntry :=
  if word = ascii "all" ∨ word = ascii "any" then some entry
  else if word = ascii "auth" ∨ word = ascii "authenticated" then
    some { entry with authenticated := true }
  else none

/-- `_parse_sockaddr`. -/
def parseSockaddr (env : AclEnv) (entry : AclEntry) : GrecsValue → EntryParse
  | .string s =>
    match env.sockaddr s with
    | .ok addr => done { entry with sockaddrs := some (entry.sockaddrs.getD [] ++ [addr]) }
    | .error text => error entry text
  | _ => error entry (ascii "expected string but found list")

/-- The loop over a list of addresses, which goes on after an error. -/
def parseSockaddrs (env : AclEnv) : List GrecsValue → AclEntry → EntryParse
  | [], entry => done entry
  | v :: l, entry =>
    let r := parseSockaddr env entry v
    let r' := parseSockaddrs env l r.entry
    ⟨r.ok && r'.ok, r'.entry, r.errors ++ r'.errors⟩

/-- The addresses of an entry. -/
def parseAddresses (env : AclEnv) (entry : AclEntry) : GrecsValue → Except Fault EntryParse
  | .string s =>
    if s = ascii "any" then .ok (done { entry with dflt := true })
    else .ok (parseSockaddr env { entry with sockaddrs := some [] } (.string s))
  | .list l => .ok (parseSockaddrs env l { entry with sockaddrs := some [] })
  | .array _ => .error .dangling

/-- `_parse_from`. What is behind the addresses is worth a warning, which
is no error, and the entry is dropped. -/
def parseFrom (env : AclEnv) (entry : AclEntry) : List GrecsValue → Except Fault EntryParse
  | [] => .ok (done entry)
  | .list _ :: _ => .ok (error entry (ascii "expected `from', but found list"))
  | v :: args => do
    let word ← v.word
    if word ≠ ascii "from" then
      .ok (error entry (ascii "expected `from', but found `" ++ word ++ ascii "'"))
    else
      match args with
      | [] => .ok (error entry (ascii "unexpected end of statement after `from'"))
      | addr :: junk => do
        let r ← parseAddresses env entry addr
        .ok ⟨r.ok && junk.isEmpty, r.entry, r.errors⟩

/-- `_parse_sub_acl`. -/
def parseSubAcl (env : AclEnv) (names : List Bytes) (entry : AclEntry) :
    List GrecsValue → Except Fault EntryParse
  | [] => .ok (done entry)
  | v :: args => do
    let word ← v.word
    if word = ascii "acl" then
      match args with
      | [] => .ok (error entry (ascii "expected ACL name, but found end of statement"))
      | .string name :: args =>
        match env.hashLookup names name with
        | some acl => parseFrom env { entry with acl := some acl } args
        | none => .ok (error entry (ascii "ACL not defined: `" ++ name ++ ascii "'"))
      | _ :: _ => .ok (error entry (ascii "expected string, but found list"))
    else parseFrom env entry (v :: args)

/-- `dicod_string_list_from_grecs`: the strings up to what is none. -/
def stringListFromGrecs : List GrecsValue → List Bytes × List Bytes
  | [] => ([], [])
  | .string s :: l => (s :: (stringListFromGrecs l).1, (stringListFromGrecs l).2)
  | _ :: _ => ([], [ascii "expected string"])

/-- `_parse_group`. -/
def parseGroup (env : AclEnv) (names : List Bytes) (entry : AclEntry) (word : Bytes)
    (args : List GrecsValue) : Except Fault EntryParse :=
  if word = ascii "group" then
    match args with
    | [] => .ok (error entry (ascii "expected group list, but found end of statement"))
    | .string s :: args => parseSubAcl env names { entry with groups := some [s] } args
    | .list l :: args => do
      let r ← parseSubAcl env names { entry with groups := some (stringListFromGrecs l).1 } args
      .ok { r with errors := (stringListFromGrecs l).2 ++ r.errors }
    | .array _ :: _ => .ok (error entry (ascii "expected group list, but found array"))
  else parseSubAcl env names entry (.string word :: args)

/-- `_parse_acl`. -/
def parseAcl (env : AclEnv) (names : List Bytes) (entry : AclEntry) :
    List GrecsValue → Except Fault EntryParse
  | [] => .error .bounds
  | .string word :: args =>
    match parseToken entry word with
    | some entry => parseSubAcl env names entry args
    | none => parseGroup env names entry word args
  | _ :: _ => .ok (error entry (ascii "expected string value"))

/-- `parse_acl_line`: the entry it appends, if it does, and the errors. -/
def parseAclLine (env : AclEnv) (names : List Bytes) (allow : Bool) (value : GrecsValue) :
    Except Fault (Option AclEntry × List Bytes) := do
  let entry : AclEntry := ⟨allow, false, false, none, none, none⟩
  match value with
  | .string word =>
    match parseToken entry word with
    | some entry => .ok (some entry, [])
    | none => .ok (none, [ascii "unknown word `" ++ word ++ ascii "'"])
  | .array args => do
    let r ← parseAcl env names entry args
    .ok (if r.ok then some r.entry else none, r.errors)
  | .list _ => .ok (none, [ascii "unexpected list"])

/-- The lines of a block, `allow` and `deny`. -/
def parseLines (env : AclEnv) (names : List Bytes) :
    List (Bool × GrecsValue) → Except Fault (List AclEntry × List Bytes)
  | [] => .ok ([], [])
  | (allow, value) :: lines => do
    let (entry, errors) ← parseAclLine env names allow value
    let (entries, errors') ← parseLines env names lines
    .ok (entry.toList ++ entries, errors ++ errors')

/-- An `acl` block: its label, which may be missing, and its lines. -/
structure AclBlock where
  label : Option GrecsValue
  lines : List (Bool × GrecsValue)

/-- The lists installed so far, each with its name. -/
abbrev AclTable := List (Bytes × List AclEntry)

/-- `acl_cb` and what follows it: the list is in the table before its lines
are read. -/
def parseBlock (env : AclEnv) (table : AclTable) (block : AclBlock) :
    Except Fault (AclTable × List Bytes) :=
  match block.label with
  | none => .ok (table, [ascii "missing ACL name"])
  | some (.string name) =>
    match env.hashLookup (table.map Prod.fst) name with
    | some _ =>
      .ok (table, [ascii "redefinition of ACL " ++ name,
        ascii "location of the previous definition"])
    | none => do
      let (entries, errors) ← parseLines env (table.map Prod.fst ++ [name]) block.lines
      .ok (table ++ [(name, entries)], errors)
  | some _ => .ok (table, [ascii "ACL name must be a string"])

/-- The blocks of a configuration. -/
def parseBlocks (env : AclEnv) : List AclBlock → AclTable → Except Fault (AclTable × List Bytes)
  | [], table => .ok (table, [])
  | block :: blocks, table => do
    let (table, errors) ← parseBlock env table block
    let (table, errors') ← parseBlocks env blocks table
    .ok (table, errors ++ errors')

/-- `config_parse`, as far as access control lists go: a configuration with
an error in it is refused. -/
def configParse (env : AclEnv) (blocks : List AclBlock) : Except Fault (Option AclTable) := do
  let (table, errors) ← parseBlocks env blocks []
  .ok (if errors = [] then some table else none)

/-- The lists of a table, by their place in it. -/
def AclTable.acls (table : AclTable) (k : ℕ) : List AclEntry := (table[k]?.map Prod.snd).getD []

/-! ## What the parser lets through -/

/-- An entry that names none but the first `n` lists. -/
def AclEntry.RefersBelow (n : ℕ) (entry : AclEntry) : Prop := ∀ i, entry.acl = some i → i < n

section Parser

variable {env : AclEnv} {names : List Bytes} {entry : AclEntry} {args : List GrecsValue}
variable {r : EntryParse} {n : ℕ}

/-- Addresses do not change the list an entry names. -/
theorem acl_parseSockaddr (env : AclEnv) (entry : AclEntry) (v : GrecsValue) :
    (parseSockaddr env entry v).entry.acl = entry.acl := by
  cases v with
  | string s =>
    rw [parseSockaddr]
    cases env.sockaddr s with
    | ok addr => rfl
    | error text => rfl
  | list l => rfl
  | array args => rfl

/-- Nor do lists of them. -/
theorem acl_parseSockaddrs (env : AclEnv) (l : List GrecsValue) (entry : AclEntry) :
    (parseSockaddrs env l entry).entry.acl = entry.acl := by
  induction l generalizing entry with
  | nil => rfl
  | cons v l ih =>
    rw [parseSockaddrs]
    exact (ih _).trans (acl_parseSockaddr env entry v)

/-- Nor does anything behind `from`. -/
theorem acl_parseAddresses {v : GrecsValue} (h : parseAddresses env entry v = .ok r) :
    r.entry.acl = entry.acl := by
  cases v with
  | string s =>
    rw [parseAddresses] at h
    split_ifs at h
    · obtain rfl := Except.ok.inj h
      rfl
    · obtain rfl := Except.ok.inj h
      exact acl_parseSockaddr env _ _
  | list l =>
    obtain rfl := Except.ok.inj h
    exact acl_parseSockaddrs env l _
  | array args => cases h

/-- Nor does `from`. -/
theorem acl_parseFrom (h : parseFrom env entry args = .ok r) : r.entry.acl = entry.acl := by
  cases args with
  | nil =>
    obtain rfl := Except.ok.inj h
    rfl
  | cons v args =>
    cases v with
    | list l =>
      obtain rfl := Except.ok.inj h
      rfl
    | array l => cases h
    | string word =>
      rw [parseFrom.eq_def] at h
      dsimp only [GrecsValue.word] at h
      rw [ok_bind] at h
      split_ifs at h
      · obtain rfl := Except.ok.inj h
        rfl
      · cases args with
        | nil =>
          obtain rfl := Except.ok.inj h
          rfl
        | cons addr junk =>
          obtain ⟨r', hr', h⟩ := bind_eq_ok.1 h
          obtain rfl := Except.ok.inj h
          have hacl := acl_parseAddresses hr'
          exact hacl

/-- An entry that names no list. -/
theorem refersBelow_of_none (h : entry.acl = none) : entry.RefersBelow n := by
  intro i hi
  rw [h] at hi
  cases hi

/-- **A list is named when it is in the table.** -/
theorem refersBelow_parseSubAcl (hentry : entry.acl = none)
    (h : parseSubAcl env names entry args = .ok r) : r.entry.RefersBelow names.length := by
  cases args with
  | nil =>
    obtain rfl := Except.ok.inj h
    exact refersBelow_of_none hentry
  | cons v args =>
    rw [parseSubAcl.eq_def] at h
    obtain ⟨word, hword, h⟩ := bind_eq_ok.1 h
    split_ifs at h
    · cases args with
      | nil =>
        obtain rfl := Except.ok.inj h
        exact refersBelow_of_none hentry
      | cons w args =>
        cases w with
        | string name =>
          cases hfind : env.hashLookup names name with
          | some acl =>
            -- the name was in the table, the new list among its names
            simp only [hfind] at h
            intro i hi
            rw [acl_parseFrom h] at hi
            obtain rfl := Option.some.inj hi
            exact env.hashLookup_lt hfind
          | none =>
            simp only [hfind] at h
            obtain rfl := Except.ok.inj h
            exact refersBelow_of_none hentry
        | list l =>
          obtain rfl := Except.ok.inj h
          exact refersBelow_of_none hentry
        | array l =>
          obtain rfl := Except.ok.inj h
          exact refersBelow_of_none hentry
    · exact refersBelow_of_none ((acl_parseFrom h).trans hentry)

/-- Behind the groups. -/
theorem refersBelow_parseGroup {word : Bytes} (hentry : entry.acl = none)
    (h : parseGroup env names entry word args = .ok r) : r.entry.RefersBelow names.length := by
  unfold parseGroup at h
  split_ifs at h
  · cases args with
    | nil =>
      obtain rfl := Except.ok.inj h
      exact refersBelow_of_none hentry
    | cons v args =>
      cases v with
      | string s => exact refersBelow_parseSubAcl (by exact hentry) h
      | list l =>
        obtain ⟨r', hr', h⟩ := bind_eq_ok.1 h
        obtain rfl := Except.ok.inj h
        have hbelow : r'.entry.RefersBelow names.length :=
          refersBelow_parseSubAcl (by exact hentry) hr'
        exact hbelow
      | array l =>
        obtain rfl := Except.ok.inj h
        exact refersBelow_of_none hentry
  · exact refersBelow_parseSubAcl hentry h

/-- The first word of an entry names no list. -/
theorem acl_parseToken {word : Bytes} {e : AclEntry} (h : parseToken entry word = some e) :
    e.acl = entry.acl := by
  unfold parseToken at h
  split_ifs at h
  · obtain rfl := Option.some.inj h
    rfl
  · obtain rfl := Option.some.inj h
    rfl

/-- The words of an entry. -/
theorem refersBelow_parseAcl (hentry : entry.acl = none)
    (h : parseAcl env names entry args = .ok r) : r.entry.RefersBelow names.length := by
  cases args with
  | nil => cases h
  | cons v args =>
    cases v with
    | string word =>
      rw [parseAcl] at h
      cases htoken : parseToken entry word with
      | some e =>
        rw [htoken] at h
        exact refersBelow_parseSubAcl ((acl_parseToken htoken).trans hentry) h
      | none =>
        rw [htoken] at h
        exact refersBelow_parseGroup hentry h
    | list l =>
      obtain rfl := Except.ok.inj h
      exact refersBelow_of_none hentry
    | array l =>
      obtain rfl := Except.ok.inj h
      exact refersBelow_of_none hentry

/-- A line of a block. -/
theorem refersBelow_parseAclLine {allow : Bool} {value : GrecsValue} {e : AclEntry}
    {errors : List Bytes} (h : parseAclLine env names allow value = .ok (some e, errors)) :
    e.RefersBelow names.length := by
  rw [parseAclLine.eq_def] at h
  cases value with
  | string word =>
    dsimp only at h
    cases htoken : parseToken ⟨allow, false, false, none, none, none⟩ word with
    | some e' =>
      rw [htoken] at h
      obtain ⟨he, -⟩ := Prod.mk.inj (Except.ok.inj h)
      obtain rfl := Option.some.inj he
      exact refersBelow_of_none (acl_parseToken htoken)
    | none =>
      rw [htoken] at h
      obtain ⟨he, -⟩ := Prod.mk.inj (Except.ok.inj h)
      cases he
  | list l =>
    obtain ⟨he, -⟩ := Prod.mk.inj (Except.ok.inj h)
    cases he
  | array args =>
    obtain ⟨r, hr, h⟩ := bind_eq_ok.1 h
    obtain ⟨he, -⟩ := Prod.mk.inj (Except.ok.inj h)
    split_ifs at he
    obtain rfl := Option.some.inj he
    exact refersBelow_parseAcl rfl hr

/-- The lines of a block. -/
theorem refersBelow_parseLines {lines : List (Bool × GrecsValue)} {entries : List AclEntry}
    {errors : List Bytes} (h : parseLines env names lines = .ok (entries, errors)) :
    ∀ e ∈ entries, e.RefersBelow names.length := by
  induction lines generalizing entries errors with
  | nil =>
    obtain ⟨rfl, rfl⟩ := Prod.mk.inj (Except.ok.inj h)
    exact fun e he => absurd he List.not_mem_nil
  | cons line lines ih =>
    rw [parseLines] at h
    obtain ⟨⟨entry, errors₁⟩, hline, h⟩ := bind_eq_ok.1 h
    obtain ⟨⟨entries₂, errors₂⟩, hlines, h⟩ := bind_eq_ok.1 h
    obtain ⟨rfl, rfl⟩ := Prod.mk.inj (Except.ok.inj h)
    refine List.forall_mem_append.2 ⟨?_, ih hlines⟩
    intro e he
    obtain rfl := Option.mem_toList.1 he
    exact refersBelow_parseAclLine hline

/-- Lists whose entries name earlier lists, or their own. -/
def RefersBack (acls : ℕ → List AclEntry) : Prop := ∀ k, ∀ e ∈ acls k, e.RefersBelow (k + 1)

/-- A block adds a list to the table, or none. -/
theorem refersBack_parseBlock {table table' : AclTable} {block : AclBlock} {errors : List Bytes}
    (ht : RefersBack table.acls) (h : parseBlock env table block = .ok (table', errors)) :
    RefersBack table'.acls := by
  obtain ⟨label, lines⟩ := block
  rw [parseBlock.eq_def] at h
  cases label with
  | none =>
    obtain ⟨rfl, -⟩ := Prod.mk.inj (Except.ok.inj h)
    exact ht
  | some v =>
    cases v with
    | list l =>
      obtain ⟨rfl, -⟩ := Prod.mk.inj (Except.ok.inj h)
      exact ht
    | array l =>
      obtain ⟨rfl, -⟩ := Prod.mk.inj (Except.ok.inj h)
      exact ht
    | string name =>
      dsimp only at h
      cases hfind : env.hashLookup (table.map Prod.fst) name with
      | some i =>
        rw [hfind] at h
        obtain ⟨rfl, -⟩ := Prod.mk.inj (Except.ok.inj h)
        exact ht
      | none =>
        rw [hfind] at h
        obtain ⟨⟨entries, errors'⟩, hlines, h⟩ := bind_eq_ok.1 h
        obtain ⟨rfl, -⟩ := Prod.mk.inj (Except.ok.inj h)
        have hnew := refersBelow_parseLines hlines
        rw [List.length_append, List.length_map, List.length_singleton] at hnew
        intro k e he
        rw [AclTable.acls] at he
        -- the lists before the new one, the new one, and none behind it
        rcases Nat.lt_trichotomy k table.length with hlt | rfl | hgt
        · rw [List.getElem?_append_left hlt] at he
          exact ht k e he
        · rw [List.getElem?_append_right le_rfl, Nat.sub_self] at he
          exact hnew e he
        · have hlen : (table ++ [(name, entries)]).length ≤ k := by
            rw [List.length_append, List.length_singleton]
            omega
          rw [List.getElem?_eq_none hlen] at he
          exact absurd he List.not_mem_nil

/-- **What the parser lets through.** -/
theorem refersBack_parseBlocks {blocks : List AclBlock} {table table' : AclTable}
    {errors : List Bytes} (ht : RefersBack table.acls)
    (h : parseBlocks env blocks table = .ok (table', errors)) : RefersBack table'.acls := by
  induction blocks generalizing table errors with
  | nil =>
    obtain ⟨rfl, -⟩ := Prod.mk.inj (Except.ok.inj h)
    exact ht
  | cons block blocks ih =>
    rw [parseBlocks] at h
    obtain ⟨⟨table₁, errors₁⟩, hblock, h⟩ := bind_eq_ok.1 h
    obtain ⟨⟨table₂, errors₂⟩, hblocks, h⟩ := bind_eq_ok.1 h
    obtain ⟨rfl, -⟩ := Prod.mk.inj (Except.ok.inj h)
    exact ih (refersBack_parseBlock ht hblock) hblocks

/-- The lists of a configuration that is not refused. -/
theorem refersBack_configParse {blocks : List AclBlock} {table : AclTable}
    (h : configParse env blocks = .ok (some table)) : RefersBack table.acls := by
  rw [configParse] at h
  obtain ⟨⟨table', errors⟩, hblocks, h⟩ := bind_eq_ok.1 h
  have htable := Except.ok.inj h
  split_ifs at htable
  obtain rfl := Option.some.inj htable
  exact refersBack_parseBlocks (fun k e he => absurd he List.not_mem_nil) hblocks

end Parser

/-! ## What a list means -/

section Meaning

variable (acls : ℕ → List AclEntry) (who : Credentials)

/-- What the lists say when an entry that does not name an earlier list is
left out: the first entry that matches decides. -/
def aclValue (k : ℕ) (result : Bool) : Bool :=
  match (acls k).find? fun ent => aclWho who ent && aclWhere who ent &&
      match ent.acl with
      | none => true
      | some i => if _h : i < k then aclValue i true else false with
  | none => result
  | some ent => ent.allow
termination_by k

/-- Whether an entry of list `k` matches. -/
def aclMatches (k : ℕ) (ent : AclEntry) : Bool :=
  aclWho who ent && aclWhere who ent &&
    match ent.acl with
    | none => true
    | some i => if i < k then aclValue acls who i true else false

/-- The first entry that matches decides. -/
theorem aclValue_eq (k : ℕ) (result : Bool) :
    aclValue acls who k result =
      (((acls k).find? (aclMatches acls who k)).map AclEntry.allow).getD result := by
  have hmatches : (fun ent => aclWho who ent && aclWhere who ent &&
      match ent.acl with
      | none => true
      | some i => if _h : i < k then aclValue acls who i true else false) =
      aclMatches acls who k := by
    funext ent
    rfl
  rw [aclValue, hmatches]
  cases (acls k).find? (aclMatches acls who k) with
  | none => rfl
  | some ent => rfl

/-- A client that a check of list `k` loses: no entry matches it before one
that names the list itself, and that one is not for others. -/
def Trapped (k : ℕ) : Prop :=
  ∃ before ent after, acls k = before ++ ent :: after ∧ ent.acl = some k ∧
    aclWho who ent = true ∧ ∀ e ∈ before, aclMatches acls who k e = false

end Meaning

/-! ## A check of a list -/

section Check

variable {acls : ℕ → List AclEntry} {who : Credentials} {k : ℕ}

/-- Entries that do not match are passed over. -/
theorem aclScan_append {check : Option ℕ → Bool → Except Fault Bool} {before : List AclEntry}
    {b : Bool} (hpre : ∀ e ∈ before, ∀ m, aclEntryCheck check who e = .ok m → m = false)
    {rest : List AclEntry} {result : Bool}
    (h : aclScan check who (before ++ rest) result = .ok b) :
    aclScan check who rest result = .ok b := by
  induction before with
  | nil => exact h
  | cons e before ih =>
    obtain ⟨he, hpre⟩ := List.forall_mem_cons.1 hpre
    rw [List.cons_append, aclScan] at h
    obtain ⟨m, hm, h⟩ := bind_eq_ok.1 h
    obtain rfl := he m hm
    exact ih hpre h

/-- An entry that is asked about its list refers to one before its own. -/
theorem AclEntry.RefersBelow.lt_of_who {e : AclEntry} {i : ℕ} (he : e.RefersBelow (k + 1))
    (hself : e.acl = some k → aclWho who e = false) (hacl : e.acl = some i)
    (hwho : aclWho who e = true) : i < k := by
  have hle := he i hacl
  have hne : i ≠ k := by
    rintro rfl
    exact absurd hwho (Bool.eq_false_iff.1 (hself hacl))
  omega

/-- **An entry says what it means**, if its check returns and it does not
name its own list. -/
theorem aclMatches_of_check {check : Option ℕ → Bool → Except Fault Bool} {e : AclEntry}
    {m : Bool} (hnone : check none true = .ok true)
    (hbelow : ∀ i < k, ∀ b, check (some i) true = .ok b → b = aclValue acls who i true)
    (he : e.RefersBelow (k + 1)) (hself : e.acl = some k → aclWho who e = false)
    (h : aclEntryCheck check who e = .ok m) : m = aclMatches acls who k e := by
  unfold aclEntryCheck at h
  unfold aclMatches
  by_cases hwho : aclWho who e = true
  · rw [if_pos hwho] at h
    obtain ⟨b, hb, h⟩ := bind_eq_ok.1 h
    obtain rfl := Except.ok.inj h
    cases hacl : e.acl with
    | none =>
      rw [hacl, hnone] at hb
      obtain rfl := Except.ok.inj hb
      rw [hwho, Bool.true_and]
      exact (Bool.and_true _).symm
    | some i =>
      have hlt := he.lt_of_who hself hacl hwho
      rw [hacl] at hb
      have hval := hbelow i hlt b hb
      simp only [hwho, Bool.true_and, if_pos hlt, hval, Bool.and_comm]
  · rw [if_neg hwho] at h
    obtain rfl := Except.ok.inj h
    rw [Bool.not_eq_true] at hwho
    rw [hwho, Bool.false_and, Bool.false_and]

/-- No entry that a check comes to names its own list, unless it is
trapped. -/
theorem not_self_of_not_trapped (hno : ¬ Trapped acls who k) {before rest : List AclEntry}
    (hsplit : acls k = before ++ rest) (hbefore : ∀ e ∈ before, aclMatches acls who k e = false)
    {e : AclEntry} (he : e ∈ before) (hself : e.acl = some k) : aclWho who e = false := by
  by_contra hwho
  obtain ⟨u, v, rfl⟩ := List.append_of_mem he
  refine hno ⟨u, e, v ++ rest, ?_, hself, by rwa [Bool.not_eq_false] at hwho, ?_⟩
  · rw [hsplit, List.append_assoc, List.cons_append]
  · exact fun e' he' => hbefore e' (List.mem_append_left _ he')

/-- **A check that is trapped never returns**, however deep the stack. -/
theorem Trapped.check_ne_ok (hback : RefersBack acls)
    (hbelow : ∀ i < k, ∀ depth result b, dicodAclCheck acls who depth (some i) result = .ok b →
      b = aclValue acls who i result)
    (h : Trapped acls who k) (depth : ℕ) (result b : Bool) :
    dicodAclCheck acls who depth (some k) result ≠ .ok b := by
  obtain ⟨before, ent, after, hsplit, hself, hwho, hbefore⟩ := h
  induction depth generalizing result b with
  | zero => exact fun hc => nomatch hc
  | succ depth ih =>
    intro hok
    rw [dicodAclCheck, hsplit] at hok
    have hrest := aclScan_append (fun e he m hm => ?_) hok
    · rw [aclScan] at hrest
      obtain ⟨m, hm, -⟩ := bind_eq_ok.1 hrest
      rw [aclEntryCheck, if_pos hwho, hself] at hm
      obtain ⟨b', hb', -⟩ := bind_eq_ok.1 hm
      exact ih true b' hb'
    · rw [← hbefore e he]
      refine aclMatches_of_check (by rw [dicodAclCheck]) (fun i hi => hbelow i hi depth true)
        (hback k e (hsplit ▸ List.mem_append_left _ he)) ?_ hm
      intro hacl
      by_contra hwho'
      rw [Bool.not_eq_false] at hwho'
      rw [aclEntryCheck, if_pos hwho', hacl] at hm
      obtain ⟨b', hb', -⟩ := bind_eq_ok.1 hm
      exact ih true b' hb'

/-- The entry that decides, and those before it. -/
theorem find?_aclMatches (acls : ℕ → List AclEntry) (who : Credentials) (k : ℕ) :
    (∀ e ∈ acls k, aclMatches acls who k e = false) ∧
        (∀ result, aclValue acls who k result = result) ∨
      ∃ before ent after, acls k = before ++ ent :: after ∧ aclMatches acls who k ent = true ∧
        (∀ e ∈ before, aclMatches acls who k e = false) ∧
        ∀ result, aclValue acls who k result = ent.allow := by
  cases hfind : (acls k).find? (aclMatches acls who k) with
  | none =>
    refine .inl ⟨fun e he => ?_, fun result => ?_⟩
    · exact Bool.eq_false_iff.2 (List.find?_eq_none.1 hfind e he)
    · rw [aclValue_eq, hfind]
      rfl
  | some ent =>
    obtain ⟨hent, before, after, hsplit, hbefore⟩ := List.find?_eq_some_iff_append.1 hfind
    refine .inr ⟨before, ent, after, hsplit, hent, fun e he => ?_, fun result => ?_⟩
    · exact Bool.eq_false_iff.2 (by simpa using hbefore e he)
    · rw [aclValue_eq, hfind]
      rfl

/-- An entry that names its own list does not match. -/
theorem acl_ne_of_aclMatches {ent : AclEntry} (h : aclMatches acls who k ent = true) :
    ent.acl ≠ some k := by
  intro hself
  simp [aclMatches, hself] at h

/-- **A check that returns says what the lists mean**, and it was not
trapped. -/
theorem not_trapped_of_check (hback : RefersBack acls) (k depth : ℕ) {result b : Bool}
    (h : dicodAclCheck acls who depth (some k) result = .ok b) :
    ¬ Trapped acls who k ∧ b = aclValue acls who k result := by
  induction k using Nat.strong_induction_on generalizing depth result b with
  | _ k ih =>
    -- the lists before it say what they should, if they say anything
    have hbelow : ∀ i < k, ∀ depth result b,
        dicodAclCheck acls who depth (some i) result = .ok b → b = aclValue acls who i result :=
      fun i hi depth result b h => (ih i hi depth h).2
    have hno : ¬ Trapped acls who k := fun ht => ht.check_ne_ok hback hbelow depth result b h
    refine ⟨hno, ?_⟩
    cases depth with
    | zero => cases h
    | succ depth =>
      rw [dicodAclCheck] at h
      have heval : ∀ e ∈ acls k, (e.acl = some k → aclWho who e = false) → ∀ m,
          aclEntryCheck (dicodAclCheck acls who depth) who e = .ok m →
            m = aclMatches acls who k e := fun e he hself m hm =>
        aclMatches_of_check (by rw [dicodAclCheck]) (fun i hi => hbelow i hi depth true)
          (hback k e he) hself hm
      -- entries that do not match are passed by, as none of them is a trap
      have hpre : ∀ {before rest : List AclEntry}, acls k = before ++ rest →
          (∀ e ∈ before, aclMatches acls who k e = false) → ∀ e ∈ before, ∀ m,
            aclEntryCheck (dicodAclCheck acls who depth) who e = .ok m → m = false := by
        intro before rest hsplit hbefore e he m hm
        rw [← hbefore e he]
        exact heval e (hsplit ▸ List.mem_append_left _ he)
          (not_self_of_not_trapped hno hsplit hbefore he) m hm
      rcases find?_aclMatches acls who k with
        ⟨hall, hval⟩ | ⟨before, ent, after, hsplit, hent, hbefore, hval⟩
      · have hnil : acls k = acls k ++ [] := (List.append_nil _).symm
        rw [hnil] at h
        have hrest := aclScan_append (hpre hnil hall) h
        rw [hval]
        exact (Except.ok.inj hrest).symm
      · rw [hsplit] at h
        have hrest := aclScan_append (hpre hsplit hbefore) h
        rw [aclScan] at hrest
        obtain ⟨m, hm, hrest⟩ := bind_eq_ok.1 hrest
        have hmem : ent ∈ acls k := by
          rw [hsplit]
          exact List.mem_append_right _ List.mem_cons_self
        -- the first that matches ends the scan
        have hne : ent.acl ≠ some k := acl_ne_of_aclMatches hent
        obtain rfl : m = true := by
          rw [← hent]
          exact heval ent hmem (fun hself => absurd hself hne) m hm
        rw [hval]
        exact (Except.ok.inj hrest).symm

/-- An entry that does not name its own list is checked, if the lists
before can be. -/
theorem aclEntryCheck_eq {check : Option ℕ → Bool → Except Fault Bool} {e : AclEntry}
    (hnone : check none true = .ok true)
    (hbelow : ∀ i < k, check (some i) true = .ok (aclValue acls who i true))
    (he : e.RefersBelow (k + 1)) (hself : e.acl = some k → aclWho who e = false) :
    aclEntryCheck check who e = .ok (aclMatches acls who k e) := by
  -- it has a value, and that is the right one
  have hok : ∃ m, aclEntryCheck check who e = .ok m := by
    unfold aclEntryCheck
    by_cases hwho : aclWho who e = true
    · rw [if_pos hwho]
      cases hacl : e.acl with
      | none =>
        rw [hnone]
        exact ⟨_, rfl⟩
      | some i =>
        rw [hbelow i (he.lt_of_who hself hacl hwho)]
        exact ⟨_, rfl⟩
    · rw [if_neg hwho]
      exact ⟨_, rfl⟩
  obtain ⟨m, hm⟩ := hok
  rw [hm]
  congr 1
  refine aclMatches_of_check hnone (fun i hi b hb => ?_) he hself hm
  rw [hbelow i hi] at hb
  exact (Except.ok.inj hb).symm

/-- Entries that do not match are passed over. -/
theorem aclScan_pass {check : Option ℕ → Bool → Except Fault Bool} {before : List AclEntry}
    (hpre : ∀ e ∈ before, aclEntryCheck check who e = .ok false) (rest : List AclEntry)
    (result : Bool) :
    aclScan check who (before ++ rest) result = aclScan check who rest result := by
  induction before with
  | nil => rfl
  | cons e before ih =>
    obtain ⟨he, hpre⟩ := List.forall_mem_cons.1 hpre
    rw [List.cons_append, aclScan, he]
    exact ih hpre

/-- **A check returns** when no list is trapped; a stack as deep as the
lists are many is enough. -/
theorem dicodAclCheck_eq (hback : RefersBack acls) (hno : ∀ k, ¬ Trapped acls who k) (k depth : ℕ)
    (hdepth : k < depth) (result : Bool) :
    dicodAclCheck acls who depth (some k) result = .ok (aclValue acls who k result) := by
  induction k using Nat.strong_induction_on generalizing depth result with
  | _ k ih =>
    obtain ⟨d, rfl⟩ : ∃ d, depth = d + 1 := ⟨depth - 1, by omega⟩
    -- a reference goes to a list before this one, which takes less stack
    have heval : ∀ e ∈ acls k, (e.acl = some k → aclWho who e = false) →
        aclEntryCheck (dicodAclCheck acls who d) who e = .ok (aclMatches acls who k e) :=
      fun e he hself => aclEntryCheck_eq (by rw [dicodAclCheck])
        (fun i hi => ih i hi d (by omega) true) (hback k e he) hself
    have hpre : ∀ {before rest : List AclEntry}, acls k = before ++ rest →
        (∀ e ∈ before, aclMatches acls who k e = false) → ∀ e ∈ before,
          aclEntryCheck (dicodAclCheck acls who d) who e = .ok false := by
      intro before rest hsplit hbefore e he
      rw [← hbefore e he]
      exact heval e (hsplit ▸ List.mem_append_left _ he)
        (not_self_of_not_trapped (hno k) hsplit hbefore he)
    rw [dicodAclCheck]
    rcases find?_aclMatches acls who k with
      ⟨hall, hval⟩ | ⟨before, ent, after, hsplit, hent, hbefore, hval⟩
    · have hnil : acls k = acls k ++ [] := (List.append_nil _).symm
      rw [hval, hnil, aclScan_pass (hpre hnil hall)]
      rfl
    · have hmem : ent ∈ acls k := by
        rw [hsplit]
        exact List.mem_append_right _ List.mem_cons_self
      have hne : ent.acl ≠ some k := acl_ne_of_aclMatches hent
      rw [hval, hsplit, aclScan_pass (hpre hsplit hbefore), aclScan,
        heval ent hmem (fun hself => absurd hself hne), hent]
      rfl

end Check

/-! ## Termination -/

/-- **A check of any list of a configuration returns** if and only if no
list traps the client. -/
theorem acl_check_returns_iff {env : AclEnv} {blocks : List AclBlock} {table : AclTable}
    (h : configParse env blocks = .ok (some table)) (who : Credentials) :
    (∀ k < table.length, ∀ result, ∃ depth b,
        dicodAclCheck table.acls who depth (some k) result = .ok b) ↔
      ∀ k < table.length, ¬ Trapped table.acls who k := by
  have hback := refersBack_configParse h
  constructor
  · intro hret k hk
    obtain ⟨depth, b, hb⟩ := hret k hk true
    exact (not_trapped_of_check hback k depth hb).1
  · intro hno k hk result
    refine ⟨k + 1, _, dicodAclCheck_eq hback (fun i => ?_) k (k + 1) (Nat.lt_succ_self k) result⟩
    by_cases hi : i < table.length
    · exact hno i hi
    · rintro ⟨before, ent, after, hsplit, -⟩
      rw [AclTable.acls, List.getElem?_eq_none (by omega)] at hsplit
      exact absurd hsplit.symm (by simp)

/-- A table that is searched for the name as it is, and no addresses. -/
def plainAclEnv : AclEnv where
  hashLookup names name := names.findIdx? (· == name)
  hashLookup_lt h := (List.findIdx?_eq_some_iff_getElem.1 h).1
  sockaddr s := .error (ascii "bad address: " ++ s)

/-- The configuration `acl a { allow all; }`, then
`acl b { allow all acl a; }`. -/
def chainedBlocks : List AclBlock :=
  [⟨some (.string (ascii "a")), [(true, .string (ascii "all"))]⟩,
    ⟨some (.string (ascii "b")),
      [(true, .array [.string (ascii "all"), .string (ascii "acl"), .string (ascii "a")])]⟩]

/-- The lists of it. -/
def chainedTable : AclTable :=
  [(ascii "a", [⟨true, false, false, none, none, none⟩]),
    (ascii "b", [⟨true, false, false, some 0, none, none⟩])]

theorem acl_check_returns_iff_chained :
    configParse plainAclEnv chainedBlocks = .ok (some chainedTable) ∧
      ∀ k < 2, ∀ result, ∃ depth b,
        dicodAclCheck chainedTable.acls ⟨none, none, .other⟩ depth (some k) result = .ok b := by
  have hparse : configParse plainAclEnv chainedBlocks = .ok (some chainedTable) := by rfl
  refine ⟨hparse, (acl_check_returns_iff hparse ⟨none, none, .other⟩).2 ?_⟩
  rintro k hk ⟨before, ent, after, hsplit, hself, -⟩
  have hmem : ent ∈ chainedTable.acls k := by
    rw [hsplit]
    exact List.mem_append_right _ List.mem_cons_self
  have hk : k = 0 ∨ k = 1 := by
    have : chainedTable.length = 2 := rfl
    omega
  rcases hk with rfl | rfl
  · obtain rfl := List.mem_singleton.1 hmem
    cases hself
  · obtain rfl := List.mem_singleton.1 hmem
    cases hself

/-- The configuration `acl a { allow all acl a; }`. -/
def ownBlocks : List AclBlock :=
  [⟨some (.string (ascii "a")),
    [(true, .array [.string (ascii "all"), .string (ascii "acl"), .string (ascii "a")])]⟩]

theorem not_forall_acl_check_returns :
    ¬ ∀ (env : AclEnv) (blocks : List AclBlock) (table : AclTable),
      configParse env blocks = .ok (some table) → ∀ (who : Credentials), ∀ k < table.length,
        ∀ result, ∃ depth b, dicodAclCheck table.acls who depth (some k) result = .ok b := by
  intro h
  have hparse : configParse plainAclEnv ownBlocks =
      .ok (some [(ascii "a", [⟨true, false, false, some 0, none, none⟩])]) := by rfl
  obtain ⟨depth, b, hb⟩ := h _ _ _ hparse ⟨none, none, .other⟩ 0 Nat.zero_lt_one true
  refine (not_trapped_of_check (refersBack_configParse hparse) 0 depth hb).1 ?_
  exact ⟨[], _, [], rfl, rfl, rfl, fun e he => absurd he List.not_mem_nil⟩

end Dico
