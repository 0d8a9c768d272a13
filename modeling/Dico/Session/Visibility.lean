import Dico.Session.Effects
/-!
# Visibility is current

The flag `visible` of a database is computed from the user's name and
groups, the client's address and the language preferences, and kept. It is
never stale: a command that changes one of them computes it anew, and one
that fails changes none.
-/

namespace Dico

/-- Access control lets the client at the database. -/
def Allowed (cfg : Config) (who : Credentials) (db : Database) : Prop :=
  ∃ global, dicodAclCheck cfg.acls who cfg.stack cfg.globalAcl true = .ok global ∧
    dicodAclCheck cfg.acls who cfg.stack db.acl global = .ok true

/-- **Every flag is what the client's credentials and preferences make
it.** -/
def Current (cfg : Config) (s : Session) : Prop :=
  ∀ db ∈ s.databases, db.visible = true ↔
    Allowed cfg s.who db ∧ dicodLangCheck s.lang (databaseLanguages db) = true

variable {cfg : Config} {s s' : Session} {db db' : Database} {dbs dbs' : List Database}
  {i : Input} {h : Handler} {who : Credentials} {lang : LangPrefs} {global : Bool}

/-- Fetching the languages of a database does not change them. -/
theorem databaseLanguages_get (db : Database) :
    databaseLanguages (dicodGetDatabaseLanguages db) = databaseLanguages db := rfl

/-- What the check makes of one database. -/
theorem checkVisibility_ok (hdb : checkVisibility cfg who lang global db = .ok db') :
    db'.acl = db.acl ∧ databaseLanguages db' = databaseLanguages db ∧
      (db'.visible = true ↔ dicodAclCheck cfg.acls who cfg.stack db.acl global = .ok true ∧
        dicodLangCheck lang (databaseLanguages db) = true) := by
  obtain ⟨allowed, hacl, hrest⟩ := bind_eq_ok.1 hdb
  rw [hacl]
  cases allowed with
  | true =>
    obtain rfl := Except.ok.inj hrest
    refine ⟨rfl, databaseLanguages_get db, ?_⟩
    simp only [true_and]
    exact Iff.rfl
  | false =>
    obtain rfl := Except.ok.inj hrest
    refine ⟨rfl, rfl, ?_⟩
    simp only [Bool.false_eq_true, Except.ok.injEq, false_and]

/-- The loop of the check, one database at a time. -/
theorem checkAll_ok (hall : checkAll cfg who lang global dbs = .ok dbs') :
    List.Forall₂ (fun db db' => checkVisibility cfg who lang global db = .ok db') dbs dbs' := by
  induction dbs generalizing dbs' with
  | nil =>
    obtain rfl := Except.ok.inj hall
    exact List.Forall₂.nil
  | cons db l ih =>
    obtain ⟨db', hdb, hrest⟩ := bind_eq_ok.1 hall
    obtain ⟨l', hl, hrest⟩ := bind_eq_ok.1 hrest
    obtain rfl := Except.ok.inj hrest
    exact List.Forall₂.cons hdb (ih hl)

/-- What comes of every element of a list. -/
theorem forall₂_mem_right {α β : Type} {R : α → β → Prop} {l : List α} {l' : List β}
    (hl : List.Forall₂ R l l') {b : β} (hb : b ∈ l') : ∃ a ∈ l, R a b := by
  induction hl with
  | nil => cases hb
  | cons hab _ ih =>
    rcases List.mem_cons.1 hb with rfl | hb
    · exact ⟨_, List.mem_cons_self, hab⟩
    · obtain ⟨a, ha, hR⟩ := ih hb
      exact ⟨a, List.mem_cons_of_mem _ ha, hR⟩

/-- A check changes nothing but the databases. -/
theorem checkDbVisibility_frame (hs : checkDbVisibility cfg s = .ok s') :
    s' = { s with databases := s'.databases } := by
  obtain ⟨global, -, hrest⟩ := bind_eq_ok.1 hs
  obtain ⟨dbs, -, hrest⟩ := bind_eq_ok.1 hrest
  obtain rfl := Except.ok.inj hrest
  rfl

/-- **After a check every flag is current.** -/
theorem checkDbVisibility_current (hs : checkDbVisibility cfg s = .ok s') : Current cfg s' := by
  obtain ⟨global, hglobal, hrest⟩ := bind_eq_ok.1 hs
  obtain ⟨dbs, hall, hrest⟩ := bind_eq_ok.1 hrest
  obtain rfl := Except.ok.inj hrest
  intro db' hdb'
  obtain ⟨db, -, hcheck⟩ := forall₂_mem_right (checkAll_ok hall) hdb'
  obtain ⟨hacl, hlangs, hvis⟩ := checkVisibility_ok hcheck
  rw [hvis, hlangs]
  refine and_congr_left' ⟨fun hok => ⟨global, hglobal, ?_⟩, ?_⟩
  · rw [hacl]
    exact hok
  · rintro ⟨g, hg, hok⟩
    obtain rfl := Except.ok.inj (hglobal.symm.trans hg)
    rw [hacl] at hok
    exact hok

/-- Fetching languages keeps the flags current. -/
theorem Current.fetched (hc : Current cfg s) (hf : Fetched s.databases dbs) :
    Current cfg { s with databases := dbs } := by
  intro db' hdb'
  obtain ⟨db, hdb, rfl | rfl⟩ := forall₂_mem_right hf hdb'
  · exact hc db' hdb
  · exact hc db hdb

/-- **Every command keeps the flags current.** -/
theorem Effect.current (he : Effect cfg i s h s') (hc : Current cfg s) : Current cfg s' := by
  cases he with
  | still _ _ => exact hc
  | client _ => exact hc
  | quit => exact hc
  | mime => exact hc
  | xlev _ _ => exact hc
  | xlevRefused _ => exact hc
  | markup _ _ _ => exact hc
  | markupRefused _ => exact hc
  | showLangDb _ hf => exact hc.fetched hf
  | showLangInfo _ hf => exact hc.fetched hf
  | lang _ hs => exact checkDbVisibility_current hs
  | auth _ _ hs => exact checkDbVisibility_current hs
  | authRefused _ => exact hc
  | saslauth user anon s₁ _ hs =>
    -- the list of commands is not read by the check
    have hc₁ := checkDbVisibility_current hs
    by_cases hg : i.env.gsaslStream = true
    · rw [if_pos hg]
      exact hc₁
    · rw [if_neg hg]
      exact hc₁
  | saslauthRefused _ => exact hc

theorem loopStep_current (hc : Current cfg s) (hstep : loopStep cfg i s = .ok s') :
    Current cfg s' := by
  rcases loopStep_effect hstep with ⟨rfl, -⟩ | ⟨h, -, -, he⟩
  · exact hc
  · exact he.current hc

/-- A database that only members of a group see. -/
def staffDb : Database where
  langKnown := false
  name := ascii "d"
  descr := none
  info := none
  langlist := (none, none)
  acl := some 0
  visible := true
  mimeHeaders := none
  module := ⟨fun _ => none, fun _ _ => none, none, none,
    some fun _ => (some [ascii "en"], none)⟩

/-- The configuration with its access control. -/
def staffConfig : Config :=
  { Config.plain with
    acls := fun _ => [⟨true, true, false, none, some [ascii "staff"], none⟩,
      ⟨false, false, false, none, none, none⟩]
    stack := 2 }

/-- **In every state between two commands of a session, a database is
visible exactly if access control allows it to the client as he is
identified then, and its languages suit the preferences set then.** -/
theorem session_visibility_current (cfg : Config) (conn : Client) (s₀ s : Session)
    (inputs : List Input) (hbegin : beginSession cfg conn s₀ = .ok s) :
    Run.Always (loopStep cfg) (Current cfg) inputs s :=
  Run.always_of_step (fun _ _ _ hc hstep => loopStep_current hc hstep)
    (checkDbVisibility_current hbegin)

theorem session_visibility_current_staff :
    ∃ s, beginSession staffConfig ⟨.other, none, fun _ => true⟩
        (.start (registered fun _ => true) [staffDb]) = .ok s ∧
      Run.Always (loopStep staffConfig) (Current staffConfig)
        [⟨[ascii "AUTH", ascii "u", ascii "p"],
            ⟨⟨true, fun _ => some (some (ascii "p")), fun _ => some (some [ascii "staff"])⟩,
              .failed, false⟩⟩,
          ⟨[ascii "OPTION", ascii "LANG", ascii "fr"], ⟨⟨true, fun _ => none, fun _ => none⟩,
            .failed, false⟩⟩] s := by
  obtain ⟨s, hs⟩ : ∃ s, beginSession staffConfig ⟨.other, none, fun _ => true⟩
      (.start (registered fun _ => true) [staffDb]) = .ok s := ⟨_, rfl⟩
  exact ⟨s, hs, session_visibility_current _ _ _ s _ hs⟩

end Dico
