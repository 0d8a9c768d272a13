import Dico.Session.Visibility
/-!
# Whose groups

The groups that access control reads should be those of the user who is
logged in. `Member` is that user with his groups: the list the user
database returned for him, or the configured one for an anonymous login,
and none if nobody gave a list. The server's `user_groups` is set apart
from `user_name`, and a login for which nobody gives a list leaves it as it
was. So the two agree exactly as long as such a login finds no groups of
another user there.
-/

namespace Dico

/-- The user who is logged in, and his groups. -/
structure Member where
  user : Option Bytes
  groups : List Bytes
  deriving DecidableEq, Repr

/-- The user whom a command logs in, with the answer to the question for his
groups, if there is one; the answer may be a null list. -/
def loginAnswer (cfg : Config) (i : Input) :
    Handler → Option (Bytes × Option (Option (List Bytes)))
  | .auth =>
    let user := i.argv.getD 1 []
    if authOk cfg i.env.udb user (i.argv.getD 2 []) then some (user, i.env.udb.groups user)
    else none
  | .saslauth =>
    (saslUser cfg i.env (i.argv.getD 1 [])).map fun p =>
      (p.1, if p.2 then cfg.saslAnonGroups.map some else i.env.udb.groups p.1)
  | _ => none

/-- The login an input makes, if the loop reads it. -/
def loginBy (cfg : Config) (i : Input) (s : Session) :
    Option (Bytes × Option (Option (List Bytes))) :=
  if s.gotQuit then none else (inputHandler s.commandList i).bind (loginAnswer cfg i)

/-- The member after a login. -/
def Member.after (m : Member) :
    Option (Bytes × Option (Option (List Bytes))) → Member
  | none => m
  | some (user, answer) => ⟨some user, answer.join.getD []⟩

/-- One turn of the loop, with the member it leaves logged in. -/
def memberStep (cfg : Config) (i : Input) (p : Session × Member) :
    Except Fault (Session × Member) := do
  let s ← loopStep cfg i p.1
  .ok (s, p.2.after (loginBy cfg i p.1))

/-- **The server knows the user and exactly his groups.** -/
def Knows (p : Session × Member) : Prop :=
  p.1.userName = p.2.user ∧ p.1.userGroups.getD [] = p.2.groups

/-- A login without an answer about groups comes where there are none. -/
def Answered (cfg : Config) (i : Input) (p : Session × Member) : Prop :=
  ∀ user, loginBy cfg i p.1 = some (user, none) → p.1.userGroups.getD [] = []

variable {cfg : Config} {i : Input} {s s' : Session} {h : Handler} {m : Member}
  {p p' : Session × Member}

/-- **What a command does to the user and his groups.** -/
theorem Effect.login (he : Effect cfg i s h s') :
    match loginAnswer cfg i h with
    | none => s'.userName = s.userName ∧ s'.userGroups = s.userGroups
    | some (user, answer) =>
      s'.userName = some user ∧ s'.userGroups = answer.getD s.userGroups := by
  cases he with
  | still _ hs => cases h <;> first | exact ⟨rfl, rfl⟩ | exact hs.elim
  | client _ => exact ⟨rfl, rfl⟩
  | quit => exact ⟨rfl, rfl⟩
  | mime => exact ⟨rfl, rfl⟩
  | xlev _ _ => exact ⟨rfl, rfl⟩
  | xlevRefused _ => exact ⟨rfl, rfl⟩
  | markup _ _ _ => exact ⟨rfl, rfl⟩
  | markupRefused _ => exact ⟨rfl, rfl⟩
  | showLangDb _ _ => exact ⟨rfl, rfl⟩
  | showLangInfo _ _ => exact ⟨rfl, rfl⟩
  | lang _ hs =>
    rw [checkDbVisibility_frame hs]
    exact ⟨rfl, rfl⟩
  | auth _ hok hs =>
    rw [checkDbVisibility_frame hs]
    simp only [loginAnswer, hok, if_true]
    exact ⟨rfl, rfl⟩
  | authRefused hok =>
    have hnone : loginAnswer cfg i .auth = none := by
      simp only [loginAnswer, hok, Bool.false_eq_true, if_false]
    rw [hnone]
    exact ⟨rfl, rfl⟩
  | saslauth user anon s₁ hok hs =>
    have hframe := checkDbVisibility_frame hs
    have hname : s₁.userName = some user := by rw [hframe]; rfl
    have hgroups : s₁.userGroups = saslGroups cfg i.env user anon s.userGroups := by
      rw [hframe]; rfl
    simp only [loginAnswer, hok, Option.map_some]
    have hanswer : saslGroups cfg i.env user anon s.userGroups =
        (if anon then cfg.saslAnonGroups.map some else i.env.udb.groups user).getD
          s.userGroups := by
      cases anon with
      | false => rfl
      | true =>
        rw [saslGroups, if_pos rfl, if_pos rfl]
        cases cfg.saslAnonGroups with
        | none => rfl
        | some groups => rfl
    rw [← hanswer, ← hname, ← hgroups]
    by_cases hg : i.env.gsaslStream = true
    · rw [if_pos hg]
      exact ⟨rfl, rfl⟩
    · rw [if_neg hg]
      exact ⟨rfl, rfl⟩
  | saslauthRefused hok =>
    have hnone : loginAnswer cfg i .saslauth = none := by
      rw [loginAnswer, hok, Option.map_none]
    rw [hnone]
    exact ⟨rfl, rfl⟩

/-- The same for a turn of the loop. -/
theorem loopStep_login (hstep : loopStep cfg i s = .ok s') :
    match loginBy cfg i s with
    | none => s'.userName = s.userName ∧ s'.userGroups = s.userGroups
    | some (user, answer) =>
      s'.userName = some user ∧ s'.userGroups = answer.getD s.userGroups := by
  rcases loopStep_effect hstep with ⟨rfl, hq | hnone⟩ | ⟨h, hq, hh, he⟩
  · rw [loginBy, if_pos hq]
    exact ⟨rfl, rfl⟩
  · rw [loginBy, hnone, Option.bind_none, ite_self]
    exact ⟨rfl, rfl⟩
  · rw [loginBy, if_neg (Bool.eq_false_iff.1 hq), hh, Option.bind_some]
    exact he.login

/-- **A turn of the loop keeps the groups with the user exactly if it is
answered.** -/
theorem memberStep_knows (hk : Knows p) (hstep : memberStep cfg i p = .ok p') :
    Knows p' ↔ Answered cfg i p := by
  obtain ⟨hname, hgroups⟩ := hk
  obtain ⟨s', hs, hp'⟩ := bind_eq_ok.1 hstep
  obtain rfl := Except.ok.inj hp'
  have hlogin := loopStep_login hs
  rw [Knows, Answered]
  cases hby : loginBy cfg i p.1 with
  | none =>
    rw [hby] at hlogin
    simp only [Member.after, hlogin.1, hlogin.2, reduceCtorEq, false_implies, implies_true,
      iff_true]
    exact ⟨hname, hgroups⟩
  | some l =>
    obtain ⟨user, answer⟩ := l
    rw [hby] at hlogin
    simp only [Member.after, hlogin.1, hlogin.2, true_and, Option.some.injEq, Prod.mk.injEq]
    cases answer with
    | none =>
      -- no answer: the groups are what they were, and the member has none
      exact ⟨fun hg _ _ => hg, fun hg => hg user ⟨rfl, rfl⟩⟩
    | some g =>
      simp only [reduceCtorEq, and_false, false_implies, implies_true, iff_true]
      rfl

/-- **In every state of a session that starts with nobody logged in, the
groups are exactly those of the user, if and only if every login that gets
no answer about groups comes where there are no groups.** -/
theorem session_groups_iff (cfg : Config) (s : Session) (inputs : List Input)
    (hname : s.userName = none) (hgroups : s.userGroups = none) :
    Run.Always (memberStep cfg) Knows inputs (s, ⟨none, []⟩) ↔
      Run.Heeded (memberStep cfg) (Answered cfg) inputs (s, ⟨none, []⟩) := by
  refine Run.always_iff_heeded (fun i p p' hk hG hstep => (memberStep_knows hk hstep).2 hG)
    (fun i p p' hk hG hstep => mt (memberStep_knows hk hstep).1 hG) ⟨hname, ?_⟩
  rw [hgroups]
  rfl

/-- A user database where everybody has the password `p`, and the groups
given are found. -/
def udbOf (groups : Option (Option (List Bytes))) : Udb :=
  ⟨true, fun _ => some (some (ascii "p")), fun _ => groups⟩

/-- The input `AUTH user p`. -/
def authInput (user : String) (groups : Option (Option (List Bytes))) : Input :=
  ⟨[ascii "AUTH", ascii user, ascii "p"], ⟨udbOf groups, .failed, false⟩⟩

/-- Two logins, for both of which the groups are found. -/
theorem session_groups_iff_alice :
    Run.Always (memberStep .plain) Knows
      [authInput "alice" (some (some [ascii "staff"])),
        authInput "bob" (some (some [ascii "guest"]))]
      (.start (registered fun _ => true) [], ⟨none, []⟩) := by
  refine (session_groups_iff .plain (.start (registered fun _ => true) []) _ rfl rfl).2 ?_
  have hfirst : loginBy .plain (authInput "alice" (some (some [ascii "staff"])))
      (.start (registered fun _ => true) []) =
        some (ascii "alice", some (some [ascii "staff"])) := by
    decide +kernel
  have hsecond : (memberStep .plain (authInput "alice" (some (some [ascii "staff"])))
      (.start (registered fun _ => true) [], ⟨none, []⟩)).toOption.map (fun p =>
        loginBy .plain (authInput "bob" (some (some [ascii "guest"]))) p.1) =
        some (some (ascii "bob", some (some [ascii "guest"]))) := by
    decide +kernel
  intro p hp
  refine ⟨fun user hnone => ?_, fun p' hp' => ⟨fun user hnone => ?_, trivial⟩⟩
  · rw [hfirst] at hnone
    cases hnone
  · rw [hp, Except.toOption, Option.map_some, Option.some.injEq] at hsecond
    rw [hsecond] at hnone
    cases hnone

/-- The query for the groups of the second user fails, and he is left with
those of the first. -/
theorem session_groups_stale :
    ¬ Run.Always (memberStep .plain) Knows
      [authInput "alice" (some (some [ascii "staff"])), authInput "bob" none]
      (.start (registered fun _ => true) [], ⟨none, []⟩) := by
  intro halways
  have hrun : ((Run.run (memberStep .plain)
      [authInput "alice" (some (some [ascii "staff"])), authInput "bob" none]
      (.start (registered fun _ => true) [], ⟨none, []⟩)).toOption.map fun p =>
        (p.1.userGroups, p.2.groups)) = some (some [ascii "staff"], []) := by
    decide +kernel
  obtain ⟨p, hp, hproj⟩ := Option.map_eq_some_iff.1 hrun
  obtain ⟨hgroups, hmember⟩ := Prod.mk.inj hproj
  have hknows := (halways _ (List.prefix_refl _) p (eq_ok_of_toOption hp)).2
  rw [hgroups, hmember] at hknows
  cases hknows

end Dico
