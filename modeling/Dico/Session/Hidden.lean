import Dico.Session.Effects
/-!
# Hidden databases

A client that may not see a database learns nothing of it. Every command
that reads the databases reads those that are visible, in their order
(`seen`), and nothing else; so two servers that differ in hidden databases
only cannot be told apart, whatever is asked of them.
-/

namespace Dico

/-- The databases the client sees. -/
def seen (dbs : List Database) : List Database := dbs.filter Database.visible

/-- The two databases are both hidden, or visible and the same. -/
def SameSeen (a b : Database) : Prop := a.visible = b.visible ∧ (a.visible = true → a = b)

/-- **Two servers that agree on everything but hidden databases.** -/
structure SameView (s t : Session) : Prop where
  rest : t = { s with databases := t.databases }
  databases : List.Forall₂ SameSeen s.databases t.databases

/-- The commands that look things up. -/
def Handler.isQuery : Handler → Bool
  | .define | .match_ | .showDatabases | .showInfo | .showLangDb | .showLangInfo => true
  | _ => false

/-- An input that is one of these, or no command. -/
def isQuery (commands : List Command) (i : Input) : Bool :=
  (locateCommand commands i.argv).all fun cmd => cmd.handler.isQuery

/-- The replies to one command after another, up to the one that ends the
server. -/
def transcript (cfg : Config) : List Input → Session → List (Except Fault Reply)
  | [], _ => []
  | i :: is, s =>
    match dicodHandleCommand cfg i s with
    | .error e => [.error e]
    | .ok (r, s') => .ok r :: transcript cfg is s'

variable {cfg : Config} {i : Input} {s t : Session} {dbs dbs' : List Database} {name : Bytes}
  {strat : Option Strategy} {word : Bytes}

/-! ## Commands read what is seen -/

theorem foundIn_hidden {db : Database} (hv : ¬ db.visible = true) :
    foundIn strat word db = none := if_neg hv

theorem firstLoop_seen (f : Frame) (proc : Database → DbResult → Reply) (dbs : List Database) :
    firstLoop strat word f proc dbs = firstLoop strat word f proc (seen dbs) := by
  induction dbs with
  | nil => rfl
  | cons db l ih =>
    by_cases hv : db.visible = true
    · rw [seen, List.filter_cons_of_pos hv, firstLoop, firstLoop, ih]
      rfl
    · rw [seen, List.filter_cons_of_neg hv, firstLoop, foundIn_hidden hv, ih]
      rfl

theorem filterMap_foundIn_seen (dbs : List Database) :
    dbs.filterMap (foundIn strat word) = (seen dbs).filterMap (foundIn strat word) := by
  induction dbs with
  | nil => rfl
  | cons db l ih =>
    by_cases hv : db.visible = true
    · rw [seen, List.filter_cons_of_pos hv, List.filterMap_cons, List.filterMap_cons, ih]
      rfl
    · rw [seen, List.filter_cons_of_neg hv, List.filterMap_cons_none (foundIn_hidden hv), ih]
      rfl

theorem find_seen (dbs : List Database) :
    dbs.find? (isNamed name) = (seen dbs).find? (isNamed name) := by
  rw [seen, List.find?_filter]
  congr 1
  funext db
  rw [isNamed]
  cases db.visible <;> cases db.name == name <;> rfl

theorem countP_seen (dbs : List Database) : dbs.countP Database.visible = (seen dbs).length :=
  List.countP_eq_length_filter

theorem showEach_seen (dbs : List Database) : showEach dbs = showEach (seen dbs) := by
  induction dbs with
  | nil => rfl
  | cons db l ih =>
    by_cases hv : db.visible = true
    · rw [seen, List.filter_cons_of_pos hv, showEach, showEach, if_pos hv, if_pos hv, ih]
      rfl
    · rw [seen, List.filter_cons_of_neg hv, showEach, if_neg hv, ih]
      rfl

/-! ## Servers with the same view -/

/-- The same is seen of them. -/
theorem seen_eq (hd : List.Forall₂ SameSeen dbs dbs') : seen dbs = seen dbs' := by
  induction hd with
  | nil => rfl
  | @cons a b l l' hab _ ih =>
    obtain ⟨hvis, heq⟩ := hab
    by_cases hv : a.visible = true
    · obtain rfl := heq hv
      rw [seen, seen, List.filter_cons_of_pos hv, List.filter_cons_of_pos hv]
      exact congrArg _ ih
    · rw [seen, seen, List.filter_cons_of_neg hv, List.filter_cons_of_neg (hvis ▸ hv)]
      exact ih

/-- Fetching languages of a visible database keeps it the same in both. -/
theorem sameSeen_get {a b : Database} (hab : SameSeen a b) (hv : a.visible = true) :
    SameSeen (dicodGetDatabaseLanguages a) (dicodGetDatabaseLanguages b) := by
  rw [hab.2 hv]
  exact ⟨rfl, fun _ => rfl⟩

theorem fetchVisible_same (hd : List.Forall₂ SameSeen dbs dbs') :
    List.Forall₂ SameSeen (fetchVisible dbs) (fetchVisible dbs') := by
  refine List.forall₂_map_left_iff.2 (List.forall₂_map_right_iff.2 (hd.imp fun a b hab => ?_))
  by_cases hv : a.visible = true
  · rw [if_pos hv, if_pos (hab.1 ▸ hv)]
    exact sameSeen_get hab hv
  · rw [if_neg hv, if_neg (hab.1 ▸ hv)]
    exact hab

theorem fetchNamed_same (hd : List.Forall₂ SameSeen dbs dbs') :
    List.Forall₂ SameSeen (fetchNamed name dbs) (fetchNamed name dbs') := by
  induction hd with
  | nil => exact List.Forall₂.nil
  | @cons a b l l' hab hl ih =>
    -- a hidden database has no name, as far as the search is concerned
    have hnamed : isNamed name a = isNamed name b := by
      by_cases hv : a.visible = true
      · rw [hab.2 hv]
      · rw [isNamed, isNamed, ← hab.1, Bool.eq_false_iff.2 hv, Bool.and_false, Bool.and_false]
    rw [fetchNamed, fetchNamed, ← hnamed]
    by_cases hn : isNamed name a = true
    · rw [if_pos hn, if_pos hn]
      exact List.Forall₂.cons (sameSeen_get hab (Bool.and_eq_true _ _ ▸ hn).2) hl
    · rw [if_neg hn, if_neg hn]
      exact List.Forall₂.cons hab ih

section View

variable (hv : SameView s t)

include hv

theorem SameView.seen_eq : seen s.databases = seen t.databases := Dico.seen_eq hv.databases

theorem SameView.findDatabase_eq : findDatabase s name = findDatabase t name := by
  rw [findDatabase, findDatabase, find_seen, hv.seen_eq, ← find_seen]

theorem SameView.databaseCount_eq : databaseCount s = databaseCount t := by
  rw [databaseCount, databaseCount, countP_seen, countP_seen, hv.seen_eq]

theorem SameView.wordFirst_eq (f : Frame) (proc : Database → DbResult → Reply) :
    dicodWordFirst s.databases strat word f proc =
      dicodWordFirst t.databases strat word f proc := by
  rw [dicodWordFirst, dicodWordFirst, firstLoop_seen, hv.seen_eq, ← firstLoop_seen]

theorem SameView.wordAll_eq (f : Frame) (proc : Database → DbResult → Reply) :
    dicodWordAll s.databases strat word f proc = dicodWordAll t.databases strat word f proc := by
  rw [dicodWordAll, dicodWordAll, filterMap_foundIn_seen, hv.seen_eq, ← filterMap_foundIn_seen]

theorem SameView.showList_eq (body : Reply) : showList s body = showList t body := by
  rw [showList, showList, hv.databaseCount_eq]

theorem SameView.define_eq (argv : List Bytes) : dicodDefine s argv = dicodDefine t argv := by
  rw [dicodDefine, dicodDefine]
  simp only [hv.wordFirst_eq, hv.wordAll_eq, hv.findDatabase_eq]

theorem SameView.match_eq (argv : List Bytes) : dicodMatch cfg s argv = dicodMatch cfg t argv := by
  rw [dicodMatch, dicodMatch]
  simp only [hv.wordFirst_eq, hv.wordAll_eq, hv.findDatabase_eq]

theorem SameView.showDatabases_eq : dicodShowDatabases s = dicodShowDatabases t := by
  rw [dicodShowDatabases, dicodShowDatabases, showEach_seen, hv.seen_eq, ← showEach_seen]
  simp only [hv.showList_eq]

theorem SameView.showInfo_eq (argv : List Bytes) : dicodShowInfo s argv = dicodShowInfo t argv := by
  rw [dicodShowInfo, dicodShowInfo]
  simp only [hv.findDatabase_eq]

/-- Other databases, again the same as far as they are seen. -/
theorem SameView.update (hd : List.Forall₂ SameSeen dbs dbs') :
    SameView { s with databases := dbs } { t with databases := dbs' } := by
  refine ⟨?_, hd⟩
  rw [hv.rest]

theorem SameView.showLangDb :
    (dicodShowLangDb s).1 = (dicodShowLangDb t).1 ∧
      SameView (dicodShowLangDb s).2 (dicodShowLangDb t).2 := by
  rw [dicodShowLangDb, dicodShowLangDb]
  constructor
  · show showList s ((seen s.databases).flatMap showDatabaseLang) =
      showList t ((seen t.databases).flatMap showDatabaseLang)
    rw [hv.showList_eq, hv.seen_eq]
  · simp only [hv.databaseCount_eq]
    by_cases hc : databaseCount t = 0
    · rw [if_pos hc, if_pos hc]
      exact hv
    · rw [if_neg hc, if_neg hc]
      exact hv.update (fetchVisible_same hv.databases)

theorem SameView.showLangInfo (argv : List Bytes) :
    (dicodShowLangInfo s argv).1 = (dicodShowLangInfo t argv).1 ∧
      SameView (dicodShowLangInfo s argv).2 (dicodShowLangInfo t argv).2 := by
  simp only [dicodShowLangInfo, hv.findDatabase_eq]
  cases findDatabase t (argv.getD 3 []) with
  | none => exact ⟨rfl, hv⟩
  | some db => exact ⟨rfl, hv.update (fetchNamed_same hv.databases)⟩

end View

/-- Both end the server, or they give the same reply and leave servers with
the same view, and the commands as they were. -/
def SameReply (commands : List Command) (x y : Except Fault (Reply × Session)) : Prop :=
  (∃ e, x = .error e ∧ y = .error e) ∨
    ∃ r s' t', x = .ok (r, s') ∧ y = .ok (r, t') ∧ SameView s' t' ∧ s'.commandList = commands

/-- A command that changes nothing. -/
theorem SameView.reply (hv : SameView s t) (r : Reply) :
    SameReply s.commandList (.ok (r, s)) (.ok (r, t)) := Or.inr ⟨r, s, t, rfl, rfl, hv, rfl⟩

/-- **A command that looks things up gives the same reply.** -/
theorem runHandler_same (hv : SameView s t) (env : Env) (argv : List Bytes) {h : Handler}
    (hq : h.isQuery = true) :
    SameReply s.commandList (runHandler cfg env s argv h) (runHandler cfg env t argv h) := by
  cases h with
  | define =>
    rw [runHandler, runHandler, hv.define_eq]
    exact hv.reply _
  | match_ =>
    rw [runHandler, runHandler, hv.match_eq]
    exact hv.reply _
  | showDatabases =>
    rw [runHandler, runHandler, hv.showDatabases_eq]
    cases dicodShowDatabases t with
    | error e => exact Or.inl ⟨e, rfl, rfl⟩
    | ok r => exact hv.reply r
  | showInfo =>
    rw [runHandler, runHandler, hv.showInfo_eq]
    exact hv.reply _
  | showLangDb =>
    obtain ⟨hr, hs⟩ := hv.showLangDb
    refine Or.inr ⟨(dicodShowLangDb s).1, (dicodShowLangDb s).2, (dicodShowLangDb t).2, rfl, ?_,
      hs, ?_⟩
    · rw [hr]
      rfl
    · simp only [dicodShowLangDb]
      split <;> rfl
  | showLangInfo =>
    obtain ⟨hr, hs⟩ := hv.showLangInfo argv
    refine Or.inr ⟨(dicodShowLangInfo s argv).1, (dicodShowLangInfo s argv).2,
      (dicodShowLangInfo t argv).2, rfl, ?_, hs, ?_⟩
    · rw [hr]
      rfl
    · simp only [dicodShowLangInfo]
      split <;> rfl
  | showStrategies | showServer | client | status | help | quit | auth | mime | lang
  | showLangPref | markup | xidle | xversion | xlevdist | saslauth => cases hq

theorem handleCommand_same (cfg : Config) (hv : SameView s t)
    (hq : isQuery s.commandList i = true) :
    SameReply s.commandList (dicodHandleCommand cfg i s) (dicodHandleCommand cfg i t) := by
  have hcommands : t.commandList = s.commandList := by rw [hv.rest]
  rw [dicodHandleCommand, dicodHandleCommand, hcommands, handlerOf]
  cases hl : locateCommand s.commandList i.argv with
  | none => exact hv.reply _
  | some cmd =>
    simp only
    by_cases hargc : argcOk cmd i.argv.length = true
    · rw [if_pos hargc]
      rw [isQuery, hl, Option.all_some] at hq
      exact runHandler_same hv i.env i.argv hq
    · rw [if_neg hargc]
      exact hv.reply _

/-- **Two servers that differ in hidden databases only send the same replies
to every sequence of commands that look things up.** -/
theorem hidden_databases_unseen (cfg : Config) (s t : Session) (inputs : List Input)
    (hv : SameView s t) (hq : ∀ i ∈ inputs, isQuery s.commandList i = true) :
    transcript cfg inputs s = transcript cfg inputs t := by
  induction inputs generalizing s t with
  | nil => rfl
  | cons i is ih =>
    rw [transcript, transcript]
    rcases handleCommand_same cfg hv (hq i List.mem_cons_self) with
      ⟨e, hs, ht⟩ | ⟨r, s', t', hs, ht, hv', hcommands⟩
    · rw [hs, ht]
    · rw [hs, ht]
      refine congrArg _ (ih s' t' hv' fun j hj => ?_)
      rw [hcommands]
      exact hq j (List.mem_cons_of_mem _ hj)

/-- A database of a name, that finds every word. -/
def wordDb (name : String) (visible : Bool) : Database where
  langKnown := false
  name := ascii name
  descr := none
  info := none
  langlist := (none, none)
  acl := none
  visible := visible
  mimeHeaders := none
  module := ⟨fun w => some ⟨1, fun _ => w, none⟩, fun _ w => some ⟨1, fun _ => w, none⟩,
    none, none, none⟩

/-- A question whose words are given, while nothing else happens. -/
def question (argv : List String) : Input :=
  ⟨argv.map ascii, ⟨⟨false, fun _ => none, fun _ => none⟩, .failed, false⟩⟩

theorem hidden_databases_unseen_two :
    transcript .plain
        [question ["DEFINE", "!", "w"], question ["SHOW", "DB"], question ["DEFINE", "b", "w"],
          question ["SHOW", "LANG", "DB"]]
        (.start (registered fun _ => true) [wordDb "b" false, wordDb "d" true]) =
      transcript .plain
        [question ["DEFINE", "!", "w"], question ["SHOW", "DB"], question ["DEFINE", "b", "w"],
          question ["SHOW", "LANG", "DB"]]
        (.start (registered fun _ => true) [wordDb "c" false, wordDb "d" true]) := by
  refine hidden_databases_unseen _ _ _ _ ⟨rfl, ?_⟩ ?_
  · exact .cons ⟨rfl, fun hv => by cases hv⟩ (.cons ⟨rfl, fun _ => rfl⟩ .nil)
  · decide +kernel

end Dico
