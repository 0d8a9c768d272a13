import Dico.Session.Visibility
/-!
# Sessions after each other

In single-process mode one process serves one session after another. Only
`init_auth_data` puts the globals back in between: the user, his groups and
the client's identification. What `OPTION LANG`, `OPTION MIME`, `XLEV` and
`OPTION MARKUP` set stays for the next client, and a `SASLAUTH` command
that was removed does not come back. So a session starts as the first one
did exactly if every session before it left these as it found them, which
can be told from its commands.
-/

namespace Dico

/-- The state of the protocol at the start of a session. -/
structure Protocol where
  userName : Option Bytes
  userGroups : Option (List Bytes)
  clientId : Pointer (List Bytes)
  lang : LangPrefs
  optionMime : Bool
  levenshteinDistance : ℕ
  markupType : Bytes
  commandList : List Command
  deriving DecidableEq

def Session.protocol (s : Session) : Protocol where
  userName := s.userName
  userGroups := s.userGroups
  clientId := s.clientId
  lang := s.lang
  optionMime := s.optionMime
  levenshteinDistance := s.levenshteinDistance
  markupType := s.markupType
  commandList := s.commandList

/-- A session: who connects, and what he sends. -/
abbrev Visit := Client × List Input

/-- A whole session. -/
def visitStep (cfg : Config) (v : Visit) (s : Session) : Except Fault Session :=
  dicodLoop cfg v.1 v.2 s

/-! ## What the commands of a session set -/

section Settings

variable (cfg : Config) (commands : List Command)

/-- The commands a session listens to: those up to the first `QUIT`. -/
def heard : List Input → List Input
  | [] => []
  | i :: is => if inputHandler commands i = some .quit then [i] else i :: heard is

/-- The threshold an input sets. -/
def levSet (i : Input) : Option ℕ :=
  if inputHandler commands i = some .xlevdist then levOf (i.argv.getD 1 []) else none

/-- The preferences an input sets. -/
def langSet (i : Input) : Option LangPrefs :=
  if inputHandler commands i = some .lang then some (langPrefs (i.argv.drop 2)) else none

/-- The markup type an input sets. -/
def markupSet (i : Input) : Option Bytes :=
  if inputHandler commands i = some .markup ∧ i.argv.length ≠ 2 then
    dicoMarkupLookup cfg (i.argv.getD 2 [])
  else none

/-- The MIME option an input sets. -/
def mimeSet (i : Input) : Option Bool :=
  if inputHandler commands i = some .mime then some true else none

/-- An input that logs in with SASL and gets a security layer, upon which
`SASLAUTH` is removed. -/
def removesSasl (i : Input) : Prop :=
  inputHandler commands i = some .saslauth ∧
    (saslUser cfg i.env (i.argv.getD 1 [])).isSome = true ∧ i.env.gsaslStream = true

/-- **A session that leaves the settings as they were at first**: the last
threshold it sets is 1, the last preferences are none, the last markup type
is `none`, the MIME option is not set, and no login removes `SASLAUTH`. -/
structure Restores (inputs : List Input) : Prop where
  lev : ∀ n ∈ ((heard commands inputs).filterMap (levSet commands)).getLast?, n = 1
  lang : ∀ l ∈ ((heard commands inputs).filterMap (langSet commands)).getLast?,
    l = ⟨none, none, none⟩
  markup : ∀ p ∈ ((heard commands inputs).filterMap (markupSet cfg commands)).getLast?,
    p = ascii "none"
  mime : ∀ i ∈ heard commands inputs, inputHandler commands i ≠ some .mime
  sasl : ∀ i ∈ heard commands inputs, ¬ removesSasl cfg commands i

end Settings

/-! ## Registers -/

section Register

variable {ι α : Type} (f : ι → Option α)

/-- What a register holds after inputs that may set it: what was last set,
or what it held. -/
theorem foldl_getD (is : List ι) (a : α) :
    is.foldl (fun a i => (f i).getD a) a = (is.filterMap f).getLast?.getD a := by
  induction is generalizing a with
  | nil => rfl
  | cons i is ih =>
    rw [List.foldl_cons, ih]
    cases hf : f i with
    | none => rw [List.filterMap_cons_none hf, Option.getD_none]
    | some b =>
      rw [List.filterMap_cons_some hf, Option.getD_some]
      cases hl : is.filterMap f with
      | nil => rfl
      | cons c l => rw [List.getLast?_cons_cons, List.getLast?_cons, Option.getD_some,
          Option.getD_some]

/-- It holds again what it held exactly if what was last set is that. -/
theorem foldl_getD_eq_iff (is : List ι) (a : α) :
    is.foldl (fun a i => (f i).getD a) a = a ↔ ∀ b ∈ (is.filterMap f).getLast?, b = a := by
  rw [foldl_getD]
  cases (is.filterMap f).getLast? with
  | none => simp only [Option.getD_none, Option.mem_def, reduceCtorEq, false_implies,
      implies_true]
  | some b => simp only [Option.getD_some, Option.mem_def, Option.some.injEq, forall_eq']

end Register

variable {cfg : Config} {i : Input} {s s' s₀ : Session} {h : Handler} {inputs : List Input}

/-! ## One command -/

/-- **What a command does to the settings**, if it does not remove
`SASLAUTH`. -/
theorem loopStep_settings (hq : s.gotQuit = false) (hstep : loopStep cfg i s = .ok s')
    (hr : ¬ removesSasl cfg s.commandList i) :
    s'.commandList = s.commandList ∧
      s'.gotQuit = decide (inputHandler s.commandList i = some .quit) ∧
      s'.levenshteinDistance = (levSet s.commandList i).getD s.levenshteinDistance ∧
      s'.lang = (langSet s.commandList i).getD s.lang ∧
      s'.markupType = (markupSet cfg s.commandList i).getD s.markupType ∧
      s'.optionMime = (mimeSet s.commandList i).getD s.optionMime := by
  rcases loopStep_effect hstep with ⟨rfl, hquit | hnone⟩ | ⟨h, -, hh, he⟩
  · rw [hq] at hquit
    cases hquit
  · simp only [hnone, hq, levSet, langSet, markupSet, mimeSet, reduceCtorEq, false_and, if_false,
      decide_false, Option.getD_none, and_self]
  · simp only [levSet, langSet, markupSet, mimeSet, hh, Option.some.injEq]
    cases he with
    | still _ hs =>
      cases h <;> first
        | exact hs.elim
        | exact ⟨rfl, hq, rfl, rfl, rfl, rfl⟩
    | client _ => exact ⟨rfl, hq, rfl, rfl, rfl, rfl⟩
    | quit => exact ⟨rfl, rfl, rfl, rfl, rfl, rfl⟩
    | mime => exact ⟨rfl, hq, rfl, rfl, rfl, rfl⟩
    | xlev n hn => exact ⟨rfl, hq, by rw [if_pos rfl, hn]; rfl, rfl, rfl, rfl⟩
    | xlevRefused hn => exact ⟨rfl, hq, by rw [if_pos rfl, hn]; rfl, rfl, rfl, rfl⟩
    | markup p hargc hp =>
      exact ⟨rfl, hq, rfl, rfl, by rw [if_pos ⟨rfl, hargc⟩, hp]; rfl, rfl⟩
    | markupRefused hp =>
      refine ⟨rfl, hq, rfl, rfl, ?_, rfl⟩
      by_cases hargc : i.argv.length = 2
      · rw [if_neg fun hc => hc.2 hargc]
        rfl
      · rw [if_pos ⟨rfl, hargc⟩, hp.resolve_left hargc]
        rfl
    | showLangDb _ _ => exact ⟨rfl, hq, rfl, rfl, rfl, rfl⟩
    | showLangInfo _ _ => exact ⟨rfl, hq, rfl, rfl, rfl, rfl⟩
    | lang _ hs =>
      rw [checkDbVisibility_frame hs]
      exact ⟨rfl, hq, rfl, rfl, rfl, rfl⟩
    | auth _ _ hs =>
      rw [checkDbVisibility_frame hs]
      exact ⟨rfl, hq, rfl, rfl, rfl, rfl⟩
    | authRefused _ => exact ⟨rfl, hq, rfl, rfl, rfl, rfl⟩
    | saslauth user anon s₁ hok hs =>
      have hg : ¬ i.env.gsaslStream = true := by
        intro hg
        exact hr ⟨hh, by rw [hok]; rfl, hg⟩
      rw [if_neg hg, checkDbVisibility_frame hs]
      exact ⟨rfl, hq, rfl, rfl, rfl, rfl⟩
    | saslauthRefused _ => exact ⟨rfl, hq, rfl, rfl, rfl, rfl⟩

/-- A login that gets a security layer removes `SASLAUTH`. -/
theorem Effect.removes (he : Effect cfg i s h s') (hh : inputHandler s.commandList i = some h)
    (hr : removesSasl cfg s.commandList i) :
    s'.commandList = dicodRemoveCommand (ascii "SASLAUTH") s.commandList := by
  obtain rfl := Option.some.inj (hh.symm.trans hr.1)
  cases he with
  | still _ hs => exact hs.elim
  | saslauth user anon s₁ _ hs =>
    rw [if_pos hr.2.2, checkDbVisibility_frame hs]
    rfl
  | saslauthRefused hok =>
    have hsome := hr.2.1
    rw [hok] at hsome
    cases hsome

/-- No command adds to the list of commands. -/
theorem loopStep_commands_le (hstep : loopStep cfg i s = .ok s') :
    s'.commandList.length ≤ s.commandList.length := by
  by_cases hr : removesSasl cfg s.commandList i
  · rcases loopStep_effect hstep with ⟨rfl, -⟩ | ⟨h, -, hh, he⟩
    · exact Nat.le_refl _
    · rw [he.removes hh hr]
      exact List.length_eraseP_le
  · by_cases hq : s.gotQuit = true
    · rw [loopStep, hq, Bool.true_or, if_pos rfl] at hstep
      rw [Except.ok.inj hstep]
    · rw [(loopStep_settings (Bool.eq_false_iff.2 hq) hstep hr).1]

/-- The command `SASLAUTH` is registered under that name only. -/
theorem registered_saslauth {enabled : Capability → Bool} {cmd : Command}
    (hcmd : cmd ∈ registered enabled) (hh : cmd.handler = .saslauth) :
    cmd.keyword = ascii "SASLAUTH" := by
  rcases List.mem_append.1 hcmd with htab | hcapa
  · have : ∀ cmd ∈ commandTab, cmd.handler ≠ .saslauth := by decide +kernel
    exact absurd hh (this cmd htab)
  · obtain ⟨capa, -, hmem⟩ := List.mem_flatMap.1 hcapa
    have : ∀ cmd ∈ capa.commands, cmd.handler = .saslauth → cmd.keyword = ascii "SASLAUTH" := by
      cases capa <;> decide +kernel
    exact this cmd hmem hh

/-- A login that removes `SASLAUTH` leaves one command less. -/
theorem loopStep_removes {enabled : Capability → Bool} (hc : s.commandList = registered enabled)
    (hq : s.gotQuit = false) (hstep : loopStep cfg i s = .ok s')
    (hr : removesSasl cfg s.commandList i) : s'.commandList.length < s.commandList.length := by
  rcases loopStep_effect hstep with ⟨rfl, hquit | hnone⟩ | ⟨h, -, hh, he⟩
  · rw [hq] at hquit
    cases hquit
  · rw [hr.1] at hnone
    cases hnone
  · -- the command that led here is in the list, and under the name that is removed
    obtain ⟨cmd, hmem, hcmd⟩ := exists_command hr.1
    have hkey : cStrcaseeq cmd.keyword (ascii "SASLAUTH") = true := by
      rw [registered_saslauth (hc ▸ hmem) hcmd]
      exact beq_self_eq_true _
    rw [he.removes hh hr, dicodRemoveCommand, List.length_eraseP_of_mem hmem hkey]
    exact Nat.sub_lt (List.length_pos_of_mem hmem) Nat.one_pos

/-! ## A whole session -/

/-- After `QUIT` nothing happens. -/
theorem run_quit (hq : s.gotQuit = true) (inputs : List Input) :
    Run.run (loopStep cfg) inputs s = .ok s := by
  induction inputs with
  | nil => rfl
  | cons i is ih => rw [Run.run, loopStep, hq, Bool.true_or, if_pos rfl, ok_bind, ih]

/-- The list of commands never grows. -/
theorem run_commands_le (hrun : Run.run (loopStep cfg) inputs s = .ok s') :
    s'.commandList.length ≤ s.commandList.length := by
  induction inputs generalizing s with
  | nil =>
    rw [Except.ok.inj hrun]
  | cons i is ih =>
    obtain ⟨s₁, hs, hrest⟩ := bind_eq_ok.1 hrun
    exact (ih hrest).trans (loopStep_commands_le hs)

/-- **What a session sets**, if no login removes `SASLAUTH`. -/
theorem run_settings (hq : s.gotQuit = false) (hrun : Run.run (loopStep cfg) inputs s = .ok s')
    (hr : ∀ i ∈ heard s.commandList inputs, ¬ removesSasl cfg s.commandList i) :
    s'.commandList = s.commandList ∧
      s'.levenshteinDistance = (heard s.commandList inputs).foldl
        (fun n i => (levSet s.commandList i).getD n) s.levenshteinDistance ∧
      s'.lang = (heard s.commandList inputs).foldl
        (fun l i => (langSet s.commandList i).getD l) s.lang ∧
      s'.markupType = (heard s.commandList inputs).foldl
        (fun p i => (markupSet cfg s.commandList i).getD p) s.markupType ∧
      s'.optionMime = (heard s.commandList inputs).foldl
        (fun b i => (mimeSet s.commandList i).getD b) s.optionMime := by
  induction inputs generalizing s with
  | nil =>
    obtain rfl := Except.ok.inj hrun
    exact ⟨rfl, rfl, rfl, rfl, rfl⟩
  | cons i is ih =>
    obtain ⟨s₁, hs, hrest⟩ := bind_eq_ok.1 hrun
    rw [heard] at hr ⊢
    have hri : ¬ removesSasl cfg s.commandList i := by
      refine hr i ?_
      split
      · exact List.mem_singleton_self i
      · exact List.mem_cons_self
    obtain ⟨hc, hquit, hlev, hlang, hmarkup, hmime⟩ := loopStep_settings hq hs hri
    by_cases hi : inputHandler s.commandList i = some .quit
    · -- nothing behind `QUIT` is heard
      rw [decide_eq_true hi] at hquit
      rw [run_quit hquit] at hrest
      obtain rfl := Except.ok.inj hrest
      rw [if_pos hi]
      exact ⟨hc, hlev, hlang, hmarkup, hmime⟩
    · rw [decide_eq_false hi] at hquit
      rw [if_neg hi] at hr ⊢
      have hrest' := ih hquit hrest (by
        rw [hc]
        exact fun j hj => hr j (List.mem_cons_of_mem _ hj))
      rw [hc, hlev, hlang, hmarkup, hmime] at hrest'
      exact hrest'

/-- A session in which a login removes `SASLAUTH` leaves one command less. -/
theorem run_removes {enabled : Capability → Bool} (hc : s.commandList = registered enabled)
    (hq : s.gotQuit = false) (hrun : Run.run (loopStep cfg) inputs s = .ok s') {j : Input}
    (hj : j ∈ heard s.commandList inputs) (hr : removesSasl cfg s.commandList j) :
    s'.commandList.length < s.commandList.length := by
  induction inputs generalizing s with
  | nil => cases hj
  | cons i is ih =>
    obtain ⟨s₁, hs, hrest⟩ := bind_eq_ok.1 hrun
    by_cases hi : removesSasl cfg s.commandList i
    · -- one command less here, and none more later
      exact Nat.lt_of_le_of_lt (run_commands_le hrest) (loopStep_removes hc hq hs hi)
    · obtain ⟨hc₁, hquit, -⟩ := loopStep_settings hq hs hi
      rw [heard] at hj
      split at hj
      · obtain rfl := List.mem_singleton.1 hj
        exact absurd hr hi
      · next hnq =>
        rcases List.mem_cons.1 hj with rfl | hj
        · exact absurd hr hi
        · rw [decide_eq_false hnq] at hquit
          have := ih (hc₁.trans hc) hquit hrest (by rw [hc₁]; exact hj) (by rw [hc₁]; exact hr)
          rwa [hc₁] at this

/-- The MIME option is set exactly if some command sets it. -/
theorem foldl_mime (commands : List Command) (is : List Input) :
    is.foldl (fun b i => (mimeSet commands i).getD b) false = false ↔
      ∀ i ∈ is, inputHandler commands i ≠ some .mime := by
  rw [foldl_getD_eq_iff]
  constructor
  · intro hlast i hi hmime
    have hset : true ∈ is.filterMap (mimeSet commands) :=
      List.mem_filterMap.2 ⟨i, hi, if_pos hmime⟩
    obtain ⟨b, hb⟩ := List.getLast?_isSome.2 (List.ne_nil_of_mem hset) |> Option.isSome_iff_exists.1
    have hb' := hlast b hb
    obtain ⟨j, -, hj⟩ := List.mem_filterMap.1 (List.mem_of_getLast? hb)
    rw [mimeSet] at hj
    split at hj
    · rw [hb'] at hj
      cases hj
    · cases hj
  · intro hall b hb
    obtain ⟨j, hj, hset⟩ := List.mem_filterMap.1 (List.mem_of_getLast? hb)
    rw [mimeSet, if_neg (hall j hj)] at hset
    cases hset

/-- What the beginning of a session leaves alone. -/
theorem beginSession_frame {conn : Client} (hb : beginSession cfg conn s = .ok s') :
    s'.gotQuit = false ∧ s'.commandList = s.commandList ∧ s'.lang = s.lang ∧
      s'.optionMime = s.optionMime ∧ s'.levenshteinDistance = s.levenshteinDistance ∧
      s'.markupType = s.markupType := by
  rw [checkDbVisibility_frame hb]
  exact ⟨rfl, rfl, rfl, rfl, rfl, rfl⟩

/-- The end of a session puts the user and the client's identification back,
and nothing else. -/
theorem initAuthData_protocol (hi : initAuthData s = .ok s') (commands : List Command)
    (dbs : List Database) :
    s'.protocol = (Session.start commands dbs).protocol ↔
      s.lang = ⟨none, none, none⟩ ∧ s.optionMime = false ∧ s.levenshteinDistance = 1 ∧
        s.markupType = ascii "none" ∧ s.commandList = commands := by
  obtain ⟨_, -, hrest⟩ := bind_eq_ok.1 hi
  obtain rfl := Except.ok.inj hrest
  simp only [Session.protocol, Session.start, resetDbVisibility, Protocol.mk.injEq, true_and]

/-- **A session leaves the protocol as at first exactly if it restores
it.** -/
theorem visitStep_protocol {enabled : Capability → Bool} {dbs : List Database} {v : Visit}
    (hs : s.protocol = (Session.start (registered enabled) dbs).protocol)
    (hstep : visitStep cfg v s = .ok s') :
    s'.protocol = (Session.start (registered enabled) dbs).protocol ↔
      Restores cfg (registered enabled) v.2 := by
  obtain ⟨s₁, hbegin, hrest⟩ := bind_eq_ok.1 hstep
  obtain ⟨s₂, hrun, hend⟩ := bind_eq_ok.1 hrest
  obtain ⟨hq, hcmds, hlang, hmime, hlev, hmarkup⟩ := beginSession_frame hbegin
  have hc : s₁.commandList = registered enabled := hcmds.trans (congrArg Protocol.commandList hs)
  have hlang₀ : s₁.lang = ⟨none, none, none⟩ := hlang.trans (congrArg Protocol.lang hs)
  have hmime₀ : s₁.optionMime = false := hmime.trans (congrArg Protocol.optionMime hs)
  have hlev₀ : s₁.levenshteinDistance = 1 :=
    hlev.trans (congrArg Protocol.levenshteinDistance hs)
  have hmarkup₀ : s₁.markupType = ascii "none" :=
    hmarkup.trans (congrArg Protocol.markupType hs)
  rw [initAuthData_protocol hend]
  by_cases hr : ∀ i ∈ heard s₁.commandList v.2, ¬ removesSasl cfg s₁.commandList i
  · obtain ⟨hc', hlev', hlang', hmarkup', hmime'⟩ := run_settings hq hrun hr
    rw [hlev', hlang', hmarkup', hmime', hc', hlev₀, hlang₀, hmarkup₀, hmime₀, hc, foldl_mime,
      foldl_getD_eq_iff, foldl_getD_eq_iff, foldl_getD_eq_iff]
    rw [hc] at hr
    exact ⟨fun ⟨h₁, h₂, h₃, h₄, _⟩ => ⟨h₃, h₁, h₄, h₂, hr⟩,
      fun h => ⟨h.lang, h.mime, h.lev, h.markup, rfl⟩⟩
  · -- a removed command does not come back, so the list of commands is too short
    simp only [not_forall, not_not] at hr
    obtain ⟨j, hj, hjr⟩ := hr
    have hlt := run_removes hc hq hrun hj hjr
    rw [hc] at hlt hj hjr
    constructor
    · rintro ⟨-, -, -, -, hcmd⟩
      rw [hcmd] at hlt
      exact absurd hlt (Nat.lt_irrefl _)
    · intro h
      exact absurd hjr (h.sasl j hj)

/-- **Every session starts with the state of the protocol of the very first
one, exactly if every session that ends before it restores that state.** -/
theorem sessions_isolated_iff (cfg : Config) (enabled : Capability → Bool) (dbs : List Database)
    (visits : List Visit) :
    Run.Always (visitStep cfg)
        (fun s => s.protocol = (Session.start (registered enabled) dbs).protocol) visits
        (.start (registered enabled) dbs) ↔
      Run.Heeded (visitStep cfg) (fun v _ => Restores cfg (registered enabled) v.2) visits
        (.start (registered enabled) dbs) :=
  Run.always_iff_heeded (fun _ _ _ hs hG hstep => (visitStep_protocol hs hstep).2 hG)
    (fun _ _ _ hs hG hstep => mt (visitStep_protocol hs hstep).1 hG) rfl

/-- One client asks for a distance of three and leaves. -/
def levVisit : Visit :=
  let idle : Env := ⟨⟨false, fun _ => none, fun _ => none⟩, .failed, false⟩
  (⟨.other, none, fun _ => true⟩,
    [⟨[ascii "XLEV", ascii "3"], idle⟩, ⟨[ascii "QUIT"], idle⟩])

/-- The next client finds it set. -/
theorem sessions_not_isolated :
    ¬ Run.Always (visitStep .plain)
      (fun s => s.protocol = (Session.start (registered fun _ => true) []).protocol) [levVisit]
      (.start (registered fun _ => true) []) := by
  intro halways
  have hrun : ((Run.run (visitStep .plain) [levVisit]
      (.start (registered fun _ => true) [])).toOption.map fun s => s.levenshteinDistance) =
        some 3 := by
    decide +kernel
  obtain ⟨s, hs, hlev⟩ := Option.map_eq_some_iff.1 hrun
  have heq := halways _ (List.prefix_refl _) s (eq_ok_of_toOption hs)
  have h₁ : s.levenshteinDistance = 1 := congrArg Protocol.levenshteinDistance heq
  rw [hlev] at h₁
  cases h₁

end Dico
