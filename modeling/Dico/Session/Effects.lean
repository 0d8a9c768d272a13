import Dico.Session.Commands
import Mathlib.Data.List.Forall2
/-!
# What a command can do

Every change a command makes to the globals, said once: `Effect` has a
case for each handler that changes something and for each way it may
refuse to, and `loopStep_effect` reads it off the code. What a session
keeps is derived from it.
-/

namespace Dico

/-- A handler that only replies. -/
def Handler.Still : Handler → Prop
  | .define | .match_ | .showDatabases | .showStrategies | .showInfo | .showServer
  | .status | .help | .showLangPref | .xidle | .xversion => True
  | _ => False

/-- The databases with the languages of some of them fetched. -/
def Fetched (dbs dbs' : List Database) : Prop :=
  List.Forall₂ (fun db db' => db' = db ∨ db' = dicodGetDatabaseLanguages db) dbs dbs'

/-- The globals after a login, before visibility is checked. -/
def Session.login (s : Session) (user : Bytes) (groups : Option (List Bytes)) : Session :=
  { s with userName := some user, userGroups := groups }

/-- **What the handler of a command does to the globals.** -/
inductive Effect (cfg : Config) (i : Input) (s : Session) : Handler → Session → Prop
  | still (h : Handler) (hs : h.Still) : Effect cfg i s h s
  | client (id : Pointer (List Bytes)) : Effect cfg i s .client { s with clientId := id }
  | quit : Effect cfg i s .quit { s with gotQuit := true }
  | mime : Effect cfg i s .mime { s with optionMime := true }
  | xlev (n : ℕ) (hn : levOf (i.argv.getD 1 []) = some n) :
      Effect cfg i s .xlevdist { s with levenshteinDistance := n }
  | xlevRefused (hn : levOf (i.argv.getD 1 []) = none) : Effect cfg i s .xlevdist s
  | markup (p : Bytes) (hargc : i.argv.length ≠ 2)
      (hp : dicoMarkupLookup cfg (i.argv.getD 2 []) = some p) :
      Effect cfg i s .markup { s with markupType := p }
  | markupRefused (hp : i.argv.length = 2 ∨ dicoMarkupLookup cfg (i.argv.getD 2 []) = none) :
      Effect cfg i s .markup s
  | showLangDb (dbs : List Database) (hf : Fetched s.databases dbs) :
      Effect cfg i s .showLangDb { s with databases := dbs }
  | showLangInfo (dbs : List Database) (hf : Fetched s.databases dbs) :
      Effect cfg i s .showLangInfo { s with databases := dbs }
  | lang (s' : Session)
      (hs : checkDbVisibility cfg { s with lang := langPrefs (i.argv.drop 2) } = .ok s') :
      Effect cfg i s .lang s'
  | auth (s' : Session) (hok : authOk cfg i.env.udb (i.argv.getD 1 []) (i.argv.getD 2 []) = true)
      (hs : checkDbVisibility cfg (s.login (i.argv.getD 1 [])
        (getGroups i.env.udb (i.argv.getD 1 []) s.userGroups)) = .ok s') :
      Effect cfg i s .auth s'
  | authRefused
      (hok : authOk cfg i.env.udb (i.argv.getD 1 []) (i.argv.getD 2 []) = false) :
      Effect cfg i s .auth s
  | saslauth (user : Bytes) (anon : Bool) (s' : Session)
      (hok : saslUser cfg i.env (i.argv.getD 1 []) = some (user, anon))
      (hs : checkDbVisibility cfg
        (s.login user (saslGroups cfg i.env user anon s.userGroups)) = .ok s') :
      Effect cfg i s .saslauth (if i.env.gsaslStream then
        { s' with commandList := dicodRemoveCommand (ascii "SASLAUTH") s'.commandList } else s')
  | saslauthRefused (hok : saslUser cfg i.env (i.argv.getD 1 []) = none) :
      Effect cfg i s .saslauth s

variable {cfg : Config} {i : Input} {s s' : Session} {r : Reply} {h : Handler}

theorem Fetched.refl (dbs : List Database) : Fetched dbs dbs :=
  List.forall₂_same.2 fun _ _ => Or.inl rfl

theorem fetched_visible (dbs : List Database) : Fetched dbs (fetchVisible dbs) := by
  refine List.forall₂_map_right_iff.2 (List.forall₂_same.2 fun db _ => ?_)
  by_cases hv : db.visible = true
  · rw [if_pos hv]
    exact Or.inr rfl
  · rw [if_neg hv]
    exact Or.inl rfl

theorem fetched_named (name : Bytes) (dbs : List Database) : Fetched dbs (fetchNamed name dbs) := by
  induction dbs with
  | nil => exact List.Forall₂.nil
  | cons db l ih =>
    rw [fetchNamed]
    by_cases hn : isNamed name db = true
    · rw [if_pos hn]
      exact List.Forall₂.cons (Or.inr rfl) (Fetched.refl l)
    · rw [if_neg hn]
      exact List.Forall₂.cons (Or.inl rfl) ih

/-- `tell` is not a threshold. -/
theorem levOf_tell {arg : Bytes} (ht : cStrcaseeq arg (ascii "tell") = true) :
    levOf arg = none := by
  have hlen := congrArg List.length (eq_of_beq ht)
  rw [List.length_map, List.length_map] at hlen
  match arg, hlen with
  | [], _ => rfl
  | [_], hlen => exact absurd hlen (show ¬ 1 = (ascii "tell").length by decide +kernel)
  | _ :: _ :: _, _ => rfl

/-- **The handlers do what `Effect` says.** -/
theorem runHandler_effect (hr : runHandler cfg i.env s i.argv h = .ok (r, s')) :
    Effect cfg i s h s' := by
  cases h with
  -- a reply and nothing else, which may fail where it reads an access list or a description
  | define | match_ | showStrategies | showInfo | status | help | showLangPref | xidle | xversion =>
    obtain ⟨-, rfl⟩ := Prod.mk.inj (Except.ok.inj hr)
    exact .still _ trivial
  | showDatabases | showServer =>
    obtain ⟨_, -, hr⟩ := bind_eq_ok.1 hr
    obtain ⟨-, rfl⟩ := Prod.mk.inj (Except.ok.inj hr)
    exact .still _ trivial
  | client =>
    obtain ⟨_, -, hr⟩ := bind_eq_ok.1 hr
    obtain ⟨-, rfl⟩ := Prod.mk.inj (Except.ok.inj hr)
    exact .client _
  | quit =>
    obtain ⟨-, rfl⟩ := Prod.mk.inj (Except.ok.inj hr)
    exact .quit
  | mime =>
    obtain ⟨-, rfl⟩ := Prod.mk.inj (Except.ok.inj hr)
    exact .mime
  | auth =>
    rw [runHandler, dicodAuth] at hr
    split at hr
    · next hok =>
      obtain ⟨s₁, hs, hr⟩ := bind_eq_ok.1 hr
      obtain ⟨-, rfl⟩ := Prod.mk.inj (Except.ok.inj hr)
      exact .auth _ hok hs
    · next hok =>
      obtain ⟨-, rfl⟩ := Prod.mk.inj (Except.ok.inj hr)
      exact .authRefused (Bool.eq_false_iff.2 hok)
  | lang =>
    obtain ⟨s₁, hs, hr⟩ := bind_eq_ok.1 hr
    obtain ⟨-, rfl⟩ := Prod.mk.inj (Except.ok.inj hr)
    exact .lang _ hs
  | showLangDb =>
    have hs' := congrArg Prod.snd (Except.ok.inj hr)
    simp only [dicodShowLangDb] at hs'
    split at hs'
    · subst hs'
      exact .showLangDb _ (Fetched.refl _)
    · subst hs'
      exact .showLangDb _ (fetched_visible _)
  | showLangInfo =>
    have hs' := congrArg Prod.snd (Except.ok.inj hr)
    simp only [dicodShowLangInfo] at hs'
    split at hs'
    · subst hs'
      exact .showLangInfo _ (Fetched.refl _)
    · subst hs'
      exact .showLangInfo _ (fetched_named _ _)
  | markup =>
    have hs' := congrArg Prod.snd (Except.ok.inj hr)
    simp only [dicodMarkup] at hs'
    split at hs'
    · next hargc =>
      subst hs'
      exact .markupRefused (Or.inl hargc)
    · next hargc =>
      split at hs'
      · next p hp =>
        subst hs'
        exact .markup p hargc hp
      · next hp =>
        subst hs'
        exact .markupRefused (Or.inr hp)
  | xlevdist =>
    have hs' := congrArg Prod.snd (Except.ok.inj hr)
    simp only [dicodXlevdist] at hs'
    split at hs'
    · next ht =>
      subst hs'
      exact .xlevRefused (levOf_tell ht)
    · split at hs'
      · next n hn =>
        subst hs'
        exact .xlev n hn
      · next hn =>
        subst hs'
        exact .xlevRefused hn
  | saslauth =>
    simp only [runHandler, dicodSaslauth] at hr
    split at hr
    · next hok =>
      obtain ⟨-, rfl⟩ := Prod.mk.inj (Except.ok.inj hr)
      exact .saslauthRefused hok
    · next user anon hok =>
      obtain ⟨s₁, hs, hr⟩ := bind_eq_ok.1 hr
      obtain ⟨-, rfl⟩ := Prod.mk.inj (Except.ok.inj hr)
      exact .saslauth user anon s₁ hok hs

/-- The handler of an input that is not an empty line, if it has one. -/
def inputHandler (commands : List Command) (i : Input) : Option Handler :=
  if i.argv.isEmpty then none else (handlerOf commands i.argv).toOption

/-- A handler comes from a command of the list. -/
theorem exists_command {commands : List Command} (hh : inputHandler commands i = some h) :
    ∃ cmd ∈ commands, cmd.handler = h := by
  rw [inputHandler] at hh
  split at hh
  · cases hh
  · rw [handlerOf] at hh
    split at hh
    · cases hh
    · next cmd hloc =>
      split at hh
      · exact ⟨cmd, List.mem_of_find?_eq_some hloc, Option.some.inj hh⟩
      · cases hh

/-- **What one turn of the loop does**: nothing, or what its handler does. -/
theorem loopStep_effect (hstep : loopStep cfg i s = .ok s') :
    (s' = s ∧ (s.gotQuit = true ∨ inputHandler s.commandList i = none)) ∨
      ∃ h, s.gotQuit = false ∧ inputHandler s.commandList i = some h ∧ Effect cfg i s h s' := by
  rw [loopStep] at hstep
  by_cases hskip : (s.gotQuit || i.argv.isEmpty) = true
  · rw [if_pos hskip] at hstep
    refine Or.inl ⟨(Except.ok.inj hstep).symm, ?_⟩
    rcases Bool.or_eq_true _ _ ▸ hskip with hq | he
    · exact Or.inl hq
    · exact Or.inr (if_pos he)
  · rw [if_neg hskip] at hstep
    obtain ⟨hq, he⟩ := not_or.1 (mt (Bool.or_eq_true _ _).mpr hskip)
    obtain ⟨⟨r, s₁⟩, hcmd, hs⟩ := bind_eq_ok.1 hstep
    obtain rfl := Except.ok.inj hs
    rw [dicodHandleCommand] at hcmd
    cases hh : handlerOf s.commandList i.argv with
    | error text =>
      rw [hh] at hcmd
      obtain ⟨-, rfl⟩ := Prod.mk.inj (Except.ok.inj hcmd)
      refine Or.inl ⟨rfl, Or.inr ?_⟩
      rw [inputHandler, if_neg he, hh]
      rfl
    | ok h =>
      rw [hh] at hcmd
      refine Or.inr ⟨h, Bool.eq_false_iff.2 hq, ?_, runHandler_effect hcmd⟩
      rw [inputHandler, if_neg he, hh]
      rfl

end Dico
