import Dico.Session.Results
import Dico.Session.Isolation
/-!
# One reply for every command

Every command answers with exactly one reply (`runHandler_answers`), which
tells itself apart from what is behind it. The two commands that report the
idle time and the version are the exception: they use a code that announces
a text elsewhere, and a client must know that it asked for them.

It takes texts without newlines in the status lines. A session keeps that
(`Session.Tidy.effect`), whatever commands it is given, and so a client
never gets out of step with the server (`session_in_step`).
-/

namespace Dico

open DicoStream Lines

section Handlers

variable {L : Limits} {P : Printing} {block : Bytes} {cfg : Config} {s s' : Session}
  {argv : List Bytes} {r : Reply}

/-- Whether a client must know the command to read its reply. -/
def Handler.isLone : Handler → Bool
  | .xidle | .xversion => true
  | _ => false

/-- A reply of one line that is written at once. -/
theorem answers_write {lone : Bool} {text : Bytes} (hl : IsLine text)
    (hcode : lone = true ∨ text.take 3 ≠ definitionsCode ∧ text.take 3 ∉ textCodes) :
    ∃ a, AnswersWith L P block lone [.write text] a := by
  refine ⟨.status text, answers_status ?_ hl hcode⟩
  rw [directText, directText, Option.map_some, List.append_nil]

/-- The words of a list in a line. -/
theorem newline_notMem_prefs (list : Option (List Bytes)) (h : ∀ l ∈ list.getD [], newline ∉ l) :
    ∃ text, directText (displayPrefs .write list) = some text ∧ newline ∉ text := by
  unfold displayPrefs
  generalize list.getD [] = ls at h ⊢
  induction ls with
  | nil => exact ⟨[], rfl, List.not_mem_nil⟩
  | cons l ls ih =>
    rw [List.forall_mem_cons] at h
    obtain ⟨text, htext, hnl⟩ := ih h.2
    refine ⟨ascii " " ++ (l ++ text), ?_, ?_⟩
    · rw [List.flatMap_cons]
      simp only [List.cons_append, List.nil_append, directText, htext, Option.map_some]
    · exact newline_notMem_append (by decide) (newline_notMem_append h.1 hnl)

/-- Calls on the connection one after another. -/
theorem directText_append {r r' : Reply} {w w' : Bytes} (h : directText r = some w)
    (h' : directText r' = some w') : directText (r ++ r') = some (w ++ w') := by
  induction r generalizing w with
  | nil =>
    obtain rfl := Option.some.inj h
    exact h'
  | cons out r ih =>
    cases out with
    | write text =>
      obtain ⟨v, hv, rfl⟩ := Option.map_eq_some_iff.1 h
      rw [List.cons_append, directText, ih hv, Option.map_some, List.append_assoc]
    | writeln text =>
      obtain ⟨v, hv, rfl⟩ := Option.map_eq_some_iff.1 h
      rw [List.cons_append, directText, ih hv, Option.map_some, List.append_assoc,
        List.cons_append]
    | ostreamCreate headers => cases h
    | put text => cases h
    | multiline text => cases h
    | ostreamClose => cases h

/-- A line with language preferences. -/
theorem showLangLists_line {list : LangLists} (h : ∀ l ∈ langWords list, newline ∉ l) :
    ∃ line, directText (.write (ascii "280") :: showLangLists .write list) = some line ∧
      IsLine line ∧ ∃ rest, line = ascii "280" ++ rest := by
  obtain ⟨t₁, h₁, hn₁⟩ := newline_notMem_prefs list.1 fun l hl =>
    h l (List.mem_append_left _ hl)
  obtain ⟨t₂, h₂, hn₂⟩ := newline_notMem_prefs list.2 fun l hl =>
    h l (List.mem_append_right _ hl)
  have hlast : directText [.write (ascii "\n")] = some (ascii "\n") := by decide
  have htail := directText_append h₂ hlast
  have hcolon : directText (.write (ascii " :") :: (displayPrefs .write list.2 ++
      [.write (ascii "\n")])) = some (ascii " :" ++ (t₂ ++ ascii "\n")) := by
    rw [directText, htail, Option.map_some]
  have hlists := directText_append h₁ hcolon
  refine ⟨ascii "280" ++ (t₁ ++ (ascii " :" ++ (t₂ ++ ascii "\n"))), ?_, ?_, _, rfl⟩
  · rw [directText, showLangLists]
    simp only [List.append_assoc, List.cons_append] at hlists ⊢
    rw [hlists, Option.map_some]
  · have hend : IsLine (ascii "\n") := isLine_of_dropLast (by decide)
    exact (((hend.append hn₂).append (by decide)).append hn₁).append (by decide)

/-- A text between a line and the end of a listing. -/
theorem answers_listing {body : Reply} {text line : Bytes} (hblock : 0 < block.length)
    (hl : IsLine line) (hcode : line.take 3 ∈ textCodes) (hbody : Printed P body text)
    (htext : EndsLine text) :
    ∃ a, AnswersWith L P block false (.write line :: .ostreamCreate none :: (body ++ okEnd)) a := by
  obtain ⟨ps, hps, rfl⟩ := hbody
  have htail : directText [.write (ascii ".\n"), .write (ascii "250 ok\n")] =
      some (dot :: newline :: ascii "250 ok\n") := by decide
  exact ⟨_, answers_text hblock hl hcode hps htext htail (isLine_of_dropLast (by decide))⟩

/-- Texts that are put, each of them ending a line. -/
theorem printed_lines {α : Type} (f : α → Reply) (as : List α)
    (h : ∀ a ∈ as, (∀ out ∈ f a, ∃ t, out = .put t) ∧ EndsLine (putText (f a))) :
    Printed P (as.flatMap f) (putText (as.flatMap f)) ∧ EndsLine (putText (as.flatMap f)) := by
  refine ⟨printed_puts ?_, ?_⟩
  · intro out hout
    obtain ⟨a, ha, hout⟩ := List.mem_flatMap.1 hout
    exact (h a ha).1 out hout
  · rw [putText_flatMap]
    exact endsLine_flatMap fun a ha => (h a ha).2

/-- A text whose last byte is a newline. -/
theorem endsLine_append (text : Bytes) {z : Bytes} (hz : z.getLast? = some newline) :
    EndsLine (text ++ z) := by
  refine .inr ?_
  rw [List.getLast?_append_of_ne_nil]
  · exact hz
  · rintro rfl
    cases hz

/-- A listing of the databases. -/
theorem showList_answers {body : Reply} {text : Bytes} (hblock : 0 < block.length)
    (hbody : Printed P body text) (htext : EndsLine text) :
    ∃ a, AnswersWith L P block false (showList s body) a := by
  unfold showList
  split_ifs
  · exact answers_write (isLine_of_dropLast (by decide)) (.inr (by decide))
  · have hcode : (ascii "110 " ++ decimal (databaseCount s) ++
        ascii " databases present\n").take 3 = ascii "110" :=
      (take_around (by decide)).trans (by decide)
    exact answers_listing hblock (isLine_around (by decide) (newline_notMem_decimal _)
      (isLine_of_dropLast (by decide))) (by rw [hcode]; decide) hbody htext

/-- `SHOW DB`. -/
theorem dicodShowDatabases_answers (hblock : 0 < block.length)
    (hr : dicodShowDatabases s = .ok r) : ∃ a, AnswersWith L P block false r a := by
  have heach : ∀ (dbs : List Database) (body : Reply), showEach dbs = .ok body →
      (∀ out ∈ body, ∃ t, out = .put t) ∧ EndsLine (putText body) := by
    intro dbs
    induction dbs with
    | nil =>
      intro body hbody
      obtain rfl := Except.ok.inj hbody
      exact ⟨List.forall_mem_nil _, .inl rfl⟩
    | cons db dbs ih =>
      intro body hbody
      rw [showEach] at hbody
      split_ifs at hbody
      · obtain ⟨one, hone, hbody⟩ := bind_eq_ok.1 hbody
        obtain ⟨more, hmore, hbody⟩ := bind_eq_ok.1 hbody
        obtain rfl := Except.ok.inj hbody
        obtain ⟨hputs, hends⟩ := ih more hmore
        unfold showDatabase at hone
        split at hone
        · cases hone
        · obtain rfl := Except.ok.inj hone
          refine ⟨List.forall_mem_cons.2 ⟨⟨_, rfl⟩, hputs⟩, ?_⟩
          exact (endsLine_append _ (by decide)).append hends
      · exact ih body hbody
  obtain ⟨body, hbody, hr⟩ := bind_eq_ok.1 hr
  obtain rfl := Except.ok.inj hr
  obtain ⟨hputs, hends⟩ := heach _ _ hbody
  exact showList_answers hblock (printed_puts hputs) hends

/-- `SHOW STRAT`. -/
theorem dicodShowStrategies_answers (hblock : 0 < block.length) :
    ∃ a, AnswersWith L P block false (dicodShowStrategies cfg) a := by
  unfold dicodShowStrategies
  split_ifs
  · exact answers_write (isLine_of_dropLast (by decide)) (.inr (by decide))
  · have hcode : (ascii "111 " ++ decimal cfg.strategies.length ++
        ascii " strategies present: list follows\n").take 3 = ascii "111" :=
      (take_around (by decide)).trans (by decide)
    have hlines := printed_lines (P := P) (fun sp : Strategy =>
      [.put (sp.name ++ ascii " \"" ++ cfg.quotearg sp.descr ++ ascii "\"\n")]) cfg.strategies (by
        intro sp _
        refine ⟨List.forall_mem_singleton.2 ⟨_, rfl⟩, ?_⟩
        rw [putText, putText, List.append_nil]
        exact endsLine_append _ (by decide))
    rw [← List.map_eq_flatMap] at hlines
    exact answers_listing hblock (isLine_around (by decide) (newline_notMem_decimal _)
      (isLine_of_dropLast (by decide))) (by rw [hcode]; decide) hlines.1 hlines.2

/-- An empty line behind a text. -/
theorem answers_paragraph {body : Reply} {text line : Bytes} (hblock : 0 < block.length)
    (hl : IsLine line) (hcode : line.take 3 ∈ textCodes) (hbody : Printed P body text) :
    ∃ a, AnswersWith L P block false
      (.write line :: .ostreamCreate none :: body ++ .put (ascii "\n") :: okEnd) a := by
  have hnl : Printed P [.put (ascii "\n")] (ascii "\n") :=
    printed_puts (List.forall_mem_singleton.2 ⟨_, rfl⟩)
  have hcalls : .write line :: .ostreamCreate none :: body ++ .put (ascii "\n") :: okEnd =
      .write line :: .ostreamCreate none :: ((body ++ [.put (ascii "\n")]) ++ okEnd) := by
    simp only [List.cons_append, List.append_assoc, List.nil_append]
  rw [hcalls]
  exact answers_listing hblock hl hcode (hbody.append hnl) (endsLine_append _ (by decide))

/-- `SHOW INFO`. -/
theorem dicodShowInfo_answers (hblock : 0 < block.length) (hs : s.Tidy P) :
    ∃ a, AnswersWith L P block false (dicodShowInfo s argv) a := by
  unfold dicodShowInfo
  simp only
  cases hdb : findDatabase s (argv.getD 2 []) with
  | none => exact ⟨_, invalidDatabase_answers⟩
  | some db =>
    have hmem : db ∈ s.databases := List.mem_of_find?_eq_some hdb
    have hname : newline ∉ argv.getD 2 [] := (visible_of_find hdb).1 ▸ (hs.databases db hmem).name
    have hcode : (ascii "112 information for " ++ argv.getD 2 [] ++ ascii "\n").take 3 =
        ascii "112" := (take_around (by decide)).trans (by decide)
    have hline : IsLine (ascii "112 information for " ++ argv.getD 2 [] ++ ascii "\n") :=
      isLine_around (by decide) hname (isLine_of_dropLast (by decide))
    simp only
    cases hinfo : dicodGetDatabaseInfo db with
    | none =>
      have hbody : Printed P [.put (ascii "No information available.\n")]
          (putText [.put (ascii "No information available.\n")]) :=
        printed_puts (List.forall_mem_singleton.2 ⟨_, rfl⟩)
      exact answers_paragraph hblock hline (by rw [hcode]; decide) hbody
    | some info =>
      obtain ⟨lines, hlines⟩ := (hs.databases db hmem).info info hinfo
      exact answers_paragraph hblock hline (by rw [hcode]; decide) (printed_multiline hlines)

/-- `HELP`. -/
theorem dicodHelp_answers (hblock : 0 < block.length) (hcfg : cfg.Tidy P) :
    ∃ a, AnswersWith L P block false (dicodHelp cfg s) a := by
  have hbody : ∀ {body : Reply} {text : Bytes}, Printed P body text → ∃ a,
      AnswersWith L P block false (.write (ascii "113 help text follows\n") ::
        .ostreamCreate none :: body ++ .put (ascii "\n") :: okEnd) a := by
    intro body text h
    exact answers_paragraph hblock (isLine_of_dropLast (by decide)) (by decide) h
  have hcommands : Printed P (s.commandList.flatMap printHelp)
      (putText (s.commandList.flatMap printHelp)) := by
    refine printed_puts fun out hout => ?_
    obtain ⟨cmd, -, hout⟩ := List.mem_flatMap.1 hout
    unfold printHelp at hout
    cases hparam : cmd.param with
    | none =>
      rw [hparam] at hout
      simp only [List.cons_append, List.nil_append, List.mem_cons, List.not_mem_nil,
        or_false] at hout
      rcases hout with rfl | rfl
      · exact ⟨_, rfl⟩
      · exact ⟨_, rfl⟩
    | some p =>
      rw [hparam] at hout
      simp only [List.cons_append, List.nil_append, List.mem_cons, List.not_mem_nil,
        or_false] at hout
      rcases hout with rfl | rfl | rfl
      · exact ⟨_, rfl⟩
      · exact ⟨_, rfl⟩
      · exact ⟨_, rfl⟩
  unfold dicodHelp
  simp only
  cases htext : cfg.helpText with
  | none => exact hbody hcommands
  | some text =>
    obtain ⟨lines, hlines⟩ := hcfg.helpText text htext
    cases text with
    | nil => exact hbody (printed_multiline hlines)
    | cons c text =>
      simp only
      by_cases hc : c = 43
      · rw [List.head?_cons, if_pos (congrArg some hc), List.tail_cons] at hlines
        rw [if_pos hc]
        exact hbody (hcommands.append (printed_multiline hlines))
      · rw [List.head?_cons, if_neg fun h => hc (Option.some.inj h)] at hlines
        rw [if_neg hc]
        exact hbody (printed_multiline hlines)

/-- `SHOW SERVER`. -/
theorem dicodShowServer_answers (hblock : 0 < block.length) (hcfg : cfg.Tidy P)
    (hr : dicodShowServer cfg s = .ok r) : ∃ a, AnswersWith L P block false r a := by
  obtain ⟨sysInfo, -, hr⟩ := bind_eq_ok.1 hr
  obtain rfl := Except.ok.inj hr
  have hsystem : newline ∉ if sysInfo then
      ascii "(" ++ cfg.packageString ++ ascii ") on " ++ cfg.sysname ++ ascii " " ++
        cfg.release ++ ascii ", "
      else ascii "server on " := by
    split_ifs
    · exact newline_notMem_append (newline_notMem_append (newline_notMem_append
        (newline_notMem_append (newline_notMem_append (newline_notMem_append (by decide)
          hcfg.packageString) (by decide)) hcfg.sysname) (by decide)) hcfg.release) (by decide)
    · decide
  generalize (if sysInfo then
      ascii "(" ++ cfg.packageString ++ ascii ") on " ++ cfg.sysname ++ ascii " " ++
        cfg.release ++ ascii ", "
      else ascii "server on ") = system at hsystem ⊢
  have hbefore : directText [.write (ascii "dicod "), .write system, .write cfg.hostname,
      .write (ascii "\n")] =
        some (ascii "dicod " ++ (system ++ (cfg.hostname ++ (ascii "\n" ++ [])))) := rfl
  have hline : IsLine (ascii "dicod " ++ (system ++ (cfg.hostname ++ (ascii "\n" ++ [])))) := by
    have hend : IsLine (ascii "\n" ++ []) := isLine_of_dropLast (by decide)
    exact ((hend.append hcfg.hostname).append hsystem).append (by decide)
  have htail : directText [.write (ascii ".\n"), .write (ascii "250 ok\n")] =
      some (dot :: newline :: ascii "250 ok\n") := by decide
  have hgo : ∀ {body : Reply} {text : Bytes}, Printed P body text → EndsLine text →
      ∃ a, AnswersWith L P block false (.write (ascii "114 server information\n") ::
        .ostreamCreate none :: .write (ascii "dicod ") :: .write system :: .write cfg.hostname ::
          .write (ascii "\n") :: (body ++ okEnd)) a := by
    rintro body text ⟨ps, hps, rfl⟩ htext
    exact ⟨_, answers_text_behind hblock (isLine_of_dropLast (by decide)) (by decide) hbefore hline
      (by rw [List.head?_append_of_ne_nil _ (by decide)]; decide) hps htext htail
      (isLine_of_dropLast (by decide))⟩
  simp only [List.cons_append]
  cases hinfo : cfg.serverInfo with
  | none =>
    have hnone : Printed P [] [] := ⟨[], rfl, rfl⟩
    exact hgo hnone (.inl rfl)
  | some text =>
    obtain ⟨lines, hlines⟩ := hcfg.serverInfo text hinfo
    have hnl : Printed P [.put (ascii "\n")] (ascii "\n") :=
      printed_puts (List.forall_mem_singleton.2 ⟨_, rfl⟩)
    exact hgo ((printed_multiline hlines).append hnl) (endsLine_append _ (by decide))

/-- `SHOW LANG DB`. -/
theorem dicodShowLangDb_answers (hblock : 0 < block.length) :
    ∃ a, AnswersWith L P block false (dicodShowLangDb s).1 a := by
  have hprefs : ∀ (list : Option (List Bytes)), ∀ out ∈ displayPrefs .put list,
      ∃ t, out = .put t := by
    intro list out hout
    obtain ⟨l, -, hout⟩ := List.mem_flatMap.1 hout
    simp only [List.mem_cons, List.not_mem_nil, or_false] at hout
    rcases hout with rfl | rfl
    · exact ⟨_, rfl⟩
    · exact ⟨_, rfl⟩
  have hlines := printed_lines (P := P) showDatabaseLang (s.databases.filter Database.visible) (by
    intro db _
    refine ⟨?_, ?_⟩
    · intro out hout
      simp only [showDatabaseLang, showLangLists, List.mem_cons, List.mem_append,
        List.not_mem_nil, or_false] at hout
      rcases hout with rfl | (hout | rfl | hout) | rfl
      · exact ⟨_, rfl⟩
      · exact hprefs _ out hout
      · exact ⟨_, rfl⟩
      · exact hprefs _ out hout
      · exact ⟨_, rfl⟩
    · have hlast : showDatabaseLang db = (.put db.name ::
          (displayPrefs .put (databaseLanguages db).1 ++ .put (ascii " :") ::
            displayPrefs .put (databaseLanguages db).2)) ++ [.put (ascii "\n")] := by
        simp only [showDatabaseLang, showLangLists, List.cons_append, List.append_assoc]
      rw [hlast, putText_append]
      exact endsLine_append _ (by decide))
  exact showList_answers hblock hlines.1 hlines.2

/-- A reply of one line, by whatever calls. -/
theorem answers_calls {lone : Bool} {line : Bytes} (h : directText r = some line)
    (hl : IsLine line) (hcode : line.take 3 ≠ definitionsCode ∧ line.take 3 ∉ textCodes) :
    ∃ a, AnswersWith L P block lone r a :=
  ⟨_, answers_status h hl (.inr hcode)⟩

/-- A reply with the language preferences. -/
theorem showLangLists_answers {list : LangLists} (h : ∀ l ∈ langWords list, newline ∉ l) :
    ∃ a, AnswersWith L P block false (.write (ascii "280") :: showLangLists .write list) a := by
  obtain ⟨line, hline, hl, rest, rfl⟩ := showLangLists_line h
  refine answers_calls hline hl ?_
  rw [take_code (by decide)]
  decide

/-- **Every command answers with one reply.** -/
theorem runHandler_answers {i : Input} {h : Handler} (hblock : 0 < block.length)
    (hcfg : cfg.Tidy P) (hs : s.Tidy P) (hargv : ∀ w ∈ i.argv, newline ∉ w)
    (hr : runHandler cfg i.env s i.argv h = .ok (r, s')) :
    ∃ a, AnswersWith L P block h.isLone r a := by
  have hword : ∀ n, newline ∉ i.argv.getD n [] := by
    intro n
    rw [List.getD_eq_getElem?_getD]
    cases hget : i.argv[n]? with
    | none => exact List.not_mem_nil
    | some w => exact hargv w (List.mem_of_getElem? hget)
  cases h with
  | define =>
    obtain ⟨rfl, rfl⟩ := Prod.mk.inj (Except.ok.inj hr)
    exact ⟨_, dicodDefine_answers hblock hs.databases (hword 2)⟩
  | match_ =>
    obtain ⟨rfl, rfl⟩ := Prod.mk.inj (Except.ok.inj hr)
    exact ⟨_, dicodMatch_answers hblock cfg s i.argv⟩
  | showDatabases =>
    obtain ⟨r', hr', hr⟩ := bind_eq_ok.1 hr
    obtain ⟨rfl, rfl⟩ := Prod.mk.inj (Except.ok.inj hr)
    exact dicodShowDatabases_answers hblock hr'
  | showStrategies =>
    obtain ⟨rfl, rfl⟩ := Prod.mk.inj (Except.ok.inj hr)
    exact dicodShowStrategies_answers hblock
  | showInfo =>
    obtain ⟨rfl, rfl⟩ := Prod.mk.inj (Except.ok.inj hr)
    exact dicodShowInfo_answers hblock hs
  | showServer =>
    obtain ⟨r', hr', hr⟩ := bind_eq_ok.1 hr
    obtain ⟨rfl, rfl⟩ := Prod.mk.inj (Except.ok.inj hr)
    exact dicodShowServer_answers hblock hcfg hr'
  | client =>
    obtain ⟨_, -, hr⟩ := bind_eq_ok.1 hr
    obtain ⟨rfl, -⟩ := Prod.mk.inj (Except.ok.inj hr)
    exact answers_write (isLine_of_dropLast (by decide)) (.inr (by decide))
  | status =>
    obtain ⟨rfl, rfl⟩ := Prod.mk.inj (Except.ok.inj hr)
    have hline : directText [.write (ascii "210"), .write (ascii " No timing data available"),
        .write (ascii "\n")] = some (ascii "210 No timing data available\n") := by decide
    exact answers_calls hline (isLine_of_dropLast (by decide)) (by decide)
  | help =>
    obtain ⟨rfl, rfl⟩ := Prod.mk.inj (Except.ok.inj hr)
    exact dicodHelp_answers hblock hcfg
  | quit =>
    obtain ⟨rfl, rfl⟩ := Prod.mk.inj (Except.ok.inj hr)
    have hline : directText [.write (ascii "221 bye"), .write (ascii "\n")] =
        some (ascii "221 bye\n") := by decide
    exact answers_calls hline (isLine_of_dropLast (by decide)) (by decide)
  | auth =>
    rw [runHandler, dicodAuth] at hr
    split at hr
    · obtain ⟨_, -, hr⟩ := bind_eq_ok.1 hr
      obtain ⟨rfl, -⟩ := Prod.mk.inj (Except.ok.inj hr)
      have hline : directText [.write (ascii "230 Authentication successful"),
          .write (ascii "\n")] = some (ascii "230 Authentication successful\n") := by decide
      exact answers_calls hline (isLine_of_dropLast (by decide)) (by decide)
    · obtain ⟨rfl, -⟩ := Prod.mk.inj (Except.ok.inj hr)
      have hline : directText [.write accessDenied, .write (ascii "\n")] =
          some (accessDenied ++ ascii "\n") := by decide
      exact answers_calls hline (isLine_of_dropLast (by decide)) (by decide)
  | mime =>
    obtain ⟨rfl, rfl⟩ := Prod.mk.inj (Except.ok.inj hr)
    exact answers_write (isLine_of_dropLast (by decide)) (.inr (by decide))
  | lang =>
    obtain ⟨_, -, hr⟩ := bind_eq_ok.1 hr
    obtain ⟨rfl, -⟩ := Prod.mk.inj (Except.ok.inj hr)
    exact answers_write (isLine_of_dropLast (by decide)) (.inr (by decide))
  | showLangDb =>
    have hfst := congrArg Prod.fst (Except.ok.inj hr)
    subst hfst
    exact dicodShowLangDb_answers hblock
  | showLangInfo =>
    have hfst := congrArg Prod.fst (Except.ok.inj hr)
    subst hfst
    unfold dicodShowLangInfo
    simp only
    cases hdb : findDatabase s (i.argv.getD 3 []) with
    | none => exact ⟨_, invalidDatabase_answers⟩
    | some db =>
      exact showLangLists_answers (hs.databases db (List.mem_of_find?_eq_some hdb)).langs
  | showLangPref =>
    obtain ⟨rfl, rfl⟩ := Prod.mk.inj (Except.ok.inj hr)
    unfold dicodShowLangPref
    cases hlazy : s.lang.lazy with
    | none =>
      refine showLangLists_answers fun l hl => hs.lang l ?_
      rw [hlazy]
      exact hl
    | some ls =>
      obtain ⟨text, htext, hnl⟩ := newline_notMem_prefs (some ls) fun l hl => hs.lang l (by
        rw [hlazy]
        exact List.mem_append_left _ hl)
      have hend : directText [.write (ascii "\n")] = some (ascii "\n") := by decide
      have hprefs := directText_append htext hend
      have hline : directText (.write (ascii "280") :: (displayPrefs .write (some ls) ++
          [.write (ascii "\n")])) = some (ascii "280" ++ (text ++ ascii "\n")) := by
        rw [directText, hprefs, Option.map_some]
      refine answers_calls hline (((isLine_of_dropLast (by decide)).append hnl).append
        (by decide)) ?_
      rw [take_code (by decide)]
      decide
  | markup =>
    have hfst := congrArg Prod.fst (Except.ok.inj hr)
    subst hfst
    unfold dicodMarkup
    split_ifs
    · refine answers_write (isLine_around (by decide) hs.markup (isLine_of_dropLast (by decide)))
        (.inr ?_)
      rw [take_around (by decide)]
      decide
    · cases hp : dicoMarkupLookup cfg (i.argv.getD 2 []) with
      | none => exact answers_write (isLine_of_dropLast (by decide)) (.inr (by decide))
      | some p =>
        refine answers_write (isLine_around (by decide)
          (hcfg.markupList p (List.mem_of_find?_eq_some hp)) (isLine_of_dropLast (by decide)))
          (.inr ?_)
        rw [take_around (by decide)]
        decide
  | xidle =>
    obtain ⟨rfl, rfl⟩ := Prod.mk.inj (Except.ok.inj hr)
    exact answers_write (isLine_around (by decide) (newline_notMem_decimal _)
      (isLine_of_dropLast (by decide))) (.inl rfl)
  | xversion =>
    obtain ⟨rfl, rfl⟩ := Prod.mk.inj (Except.ok.inj hr)
    have hend : IsLine (ascii "\n" ++ []) := isLine_of_dropLast (by decide)
    have hline : directText [.write (ascii "110 "), .write cfg.programVersion,
        .write (ascii "\n")] = some (ascii "110 " ++ (cfg.programVersion ++ (ascii "\n" ++ []))) :=
      rfl
    exact ⟨_, answers_status hline ((hend.append hcfg.programVersion).append (by decide))
      (.inl rfl)⟩
  | xlevdist =>
    have hfst := congrArg Prod.fst (Except.ok.inj hr)
    subst hfst
    unfold dicodXlevdist
    split_ifs
    · refine answers_write (isLine_around (by decide) (newline_notMem_decimal _)
        (isLine_of_dropLast (by decide))) (.inr ?_)
      rw [take_around (by decide)]
      decide
    · cases levOf (i.argv.getD 1 []) with
      | none => exact answers_write (isLine_of_dropLast (by decide)) (.inr (by decide))
      | some n =>
        refine answers_write (isLine_around (by decide) (newline_notMem_decimal _)
          (isLine_of_dropLast (by decide))) (.inr ?_)
        rw [take_around (by decide)]
        decide
  | saslauth =>
    simp only [runHandler, dicodSaslauth] at hr
    split at hr
    · obtain ⟨rfl, -⟩ := Prod.mk.inj (Except.ok.inj hr)
      unfold saslDenied
      split_ifs
      · exact answers_write (isLine_of_dropLast (by decide)) (.inr (by decide))
      · exact answers_write (isLine_of_dropLast (by decide)) (.inr (by decide))
    · obtain ⟨_, -, hr⟩ := bind_eq_ok.1 hr
      obtain ⟨rfl, -⟩ := Prod.mk.inj (Except.ok.inj hr)
      exact answers_write (isLine_of_dropLast (by decide)) (.inr (by decide))

end Handlers

/-! ## Sessions -/

section Sessions

variable {L : Limits} {P : Printing} {block : Bytes} {cfg : Config} {s s' : Session}
  {i : Input} {inputs : List Input} {h : Handler}

/-- Languages that are fetched or checked stay on their line. -/
theorem Database.Tidy.of_languages {db db' : Database} (h : db.Tidy P) (hname : db'.name = db.name)
    (hdescr : dicodGetDatabaseDescr db' = dicodGetDatabaseDescr db)
    (hinfo : dicodGetDatabaseInfo db' = dicodGetDatabaseInfo db)
    (hlangs : databaseLanguages db' = databaseLanguages db) : db'.Tidy P where
  name := hname ▸ h.name
  descr := hdescr ▸ h.descr
  langs := hlangs ▸ h.langs
  info := hinfo ▸ h.info

/-- A check of the databases keeps what they contribute. -/
theorem tidy_of_check (hcheck : checkDbVisibility cfg s = .ok s')
    (hs : ∀ db ∈ s.databases, db.Tidy P) : ∀ db ∈ s'.databases, db.Tidy P := by
  obtain ⟨global, -, hrest⟩ := bind_eq_ok.1 hcheck
  obtain ⟨dbs, hall, hrest⟩ := bind_eq_ok.1 hrest
  obtain rfl := Except.ok.inj hrest
  intro db' hdb'
  obtain ⟨db, hdb, hone⟩ := forall₂_mem_right (checkAll_ok hall) hdb'
  obtain ⟨allowed, -, hone⟩ := bind_eq_ok.1 hone
  cases allowed with
  | true =>
    obtain rfl := Except.ok.inj hone
    exact (hs db hdb).of_languages rfl rfl rfl rfl
  | false =>
    obtain rfl := Except.ok.inj hone
    exact (hs db hdb).of_languages rfl rfl rfl rfl

/-- So does fetching languages. -/
theorem tidy_of_fetched {dbs : List Database} (hs : ∀ db ∈ s.databases, db.Tidy P)
    (hf : Fetched s.databases dbs) : ∀ db ∈ dbs, db.Tidy P := by
  intro db' hdb'
  obtain ⟨db, hdb, rfl | rfl⟩ := forall₂_mem_right hf hdb'
  · exact hs db' hdb
  · exact (hs db hdb).of_languages rfl rfl rfl rfl

/-- The words of the preferences are those of the command. -/
theorem langPrefs_words {args : List Bytes} (hargs : ∀ w ∈ args, newline ∉ w) :
    ∀ l ∈ (langPrefs args).lazy.getD [] ++ langWords (langPrefs args).prefs, newline ∉ l := by
  have hloop : ∀ (args : List Bytes) (n : Bool) (prefs : LangLists), (∀ w ∈ args, newline ∉ w) →
      (∀ l ∈ langWords prefs, newline ∉ l) → ∀ l ∈ langWords (langLoop args n prefs).2,
        newline ∉ l := by
    intro args
    induction args with
    | nil => exact fun n prefs _ hprefs => hprefs
    | cons arg args ih =>
      intro n prefs hargs hprefs
      rw [List.forall_mem_cons] at hargs
      have hitem : ∀ (l : Option (List Bytes)), (∀ w ∈ l.getD [], newline ∉ w) →
          ∀ w ∈ (appendItem l arg).getD [], newline ∉ w := by
        intro l hl w hw
        rcases List.mem_append.1 hw with hw | hw
        · exact hl w hw
        · rw [List.mem_singleton.1 hw]
          exact hargs.1
      have hsplit : (∀ l ∈ prefs.1.getD [], newline ∉ l) ∧ ∀ l ∈ prefs.2.getD [], newline ∉ l :=
        ⟨fun l hl => hprefs l (List.mem_append_left _ hl),
          fun l hl => hprefs l (List.mem_append_right _ hl)⟩
      cases n with
      | false =>
        rw [langLoop]
        split_ifs
        · exact ih true prefs hargs.2 hprefs
        · refine ih false _ hargs.2 fun l hl => ?_
          rcases List.mem_append.1 hl with hl | hl
          · exact hitem _ hsplit.1 l hl
          · exact hsplit.2 l hl
      | true =>
        refine ih true _ hargs.2 fun l hl => ?_
        rcases List.mem_append.1 hl with hl | hl
        · exact hsplit.1 l hl
        · exact hitem _ hsplit.2 l hl
  have hwords := hloop args false (none, none) hargs (List.forall_mem_nil _)
  unfold langPrefs
  split
  · next prefs heq =>
    rw [heq] at hwords
    intro l hl
    rcases List.mem_append.1 hl with hl | hl
    · exact hwords l (List.mem_append_left _ hl)
    · exact hwords l (List.mem_append_right _ hl)
  · next prefs heq =>
    rw [heq] at hwords
    exact hwords

/-- **Every command keeps the texts of a session on their lines.** -/
theorem Session.Tidy.effect (hcfg : cfg.Tidy P) (hs : s.Tidy P)
    (hargv : ∀ w ∈ i.argv, newline ∉ w) (hmime : h ≠ .mime) (hsasl : h ≠ .saslauth)
    (he : Effect cfg i s h s') : s'.Tidy P ∧ s'.commandList = s.commandList := by
  cases he with
  | still _ _ => exact ⟨hs, rfl⟩
  | client _ => exact ⟨⟨hs.databases, hs.lang, hs.markup, hs.mime, hs.commands⟩, rfl⟩
  | quit => exact ⟨⟨hs.databases, hs.lang, hs.markup, hs.mime, hs.commands⟩, rfl⟩
  | mime => exact absurd rfl hmime
  | xlev _ _ => exact ⟨⟨hs.databases, hs.lang, hs.markup, hs.mime, hs.commands⟩, rfl⟩
  | xlevRefused _ => exact ⟨hs, rfl⟩
  | markup p _ hp =>
    exact ⟨⟨hs.databases, hs.lang, hcfg.markupList p (List.mem_of_find?_eq_some hp), hs.mime,
      hs.commands⟩, rfl⟩
  | markupRefused _ => exact ⟨hs, rfl⟩
  | showLangDb dbs hf =>
    exact ⟨⟨tidy_of_fetched hs.databases hf, hs.lang, hs.markup, hs.mime, hs.commands⟩, rfl⟩
  | showLangInfo dbs hf =>
    exact ⟨⟨tidy_of_fetched hs.databases hf, hs.lang, hs.markup, hs.mime, hs.commands⟩, rfl⟩
  | lang _ hcheck =>
    have hdbs := tidy_of_check hcheck hs.databases
    have hargs : ∀ w ∈ i.argv.drop 2, newline ∉ w := fun w hw => hargv w (List.mem_of_mem_drop hw)
    have hwords := langPrefs_words hargs
    rw [checkDbVisibility_frame hcheck]
    exact ⟨⟨hdbs, hwords, hs.markup, hs.mime, hs.commands⟩, rfl⟩
  | auth _ _ hcheck =>
    have hdbs := tidy_of_check hcheck hs.databases
    rw [checkDbVisibility_frame hcheck]
    exact ⟨⟨hdbs, hs.lang, hs.markup, hs.mime, hs.commands⟩, rfl⟩
  | authRefused _ => exact ⟨hs, rfl⟩
  | saslauth _ _ _ _ _ => exact absurd rfl hsasl
  | saslauthRefused _ => exact absurd rfl hsasl

/-! ## In step -/

/-- One turn of the loop of `dicod_loop`, with what it sends. -/
def serveStep {τ : Type} (L : Limits) (S : Sink τ) (P : Printing) (block : Bytes) (cfg : Config)
    (i : Input) (x : Session × Channel τ) : Except Fault (Session × Channel τ) :=
  if x.1.gotQuit || i.argv.isEmpty then .ok x
  else do
    let (r, s) ← dicodHandleCommand cfg i x.1
    let c ← sendReply L S P block r x.2
    .ok (s, c)

/-- Whether a client must know the command it sent to read the reply. -/
def loneReply (commands : List Command) (i : Input) : Bool :=
  (inputHandler commands i).elim false Handler.isLone

/-- A client that reads one reply for every command it sends, up to `QUIT`;
an empty line is no command. -/
def readSession (commands : List Command) :
    List Input → List Bytes → Option (List Answer × List Bytes)
  | [], ls => some ([], ls)
  | i :: is, ls =>
    if i.argv.isEmpty then readSession commands is ls
    else do
      let (a, ls) ← readAnswer (loneReply commands i) ls
      if inputHandler commands i = some .quit then some ([a], ls)
      else do
        let (as, ls) ← readSession commands is ls
        some (a :: as, ls)

/-- A command that is run, or refused, answers with one reply. -/
theorem dicodHandleCommand_answers {r : Reply} (hblock : 0 < block.length) (hcfg : cfg.Tidy P)
    (hs : s.Tidy P) (hargv : ∀ w ∈ i.argv, newline ∉ w) (hne : i.argv.isEmpty = false)
    (hr : dicodHandleCommand cfg i s = .ok (r, s')) :
    ∃ a, AnswersWith L P block (loneReply s.commandList i) r a := by
  unfold dicodHandleCommand at hr
  unfold loneReply inputHandler
  rw [hne, if_neg Bool.false_ne_true]
  cases hh : handlerOf s.commandList i.argv with
  | error text =>
    rw [hh] at hr
    obtain ⟨rfl, -⟩ := Prod.mk.inj (Except.ok.inj hr)
    unfold handlerOf at hh
    split at hh
    · obtain rfl := Except.error.inj hh
      exact answers_write (isLine_of_dropLast (by decide)) (.inr (by decide))
    · split at hh
      · cases hh
      · obtain rfl := Except.error.inj hh
        exact answers_write (isLine_of_dropLast (by decide)) (.inr (by decide))
  | ok h =>
    rw [hh] at hr
    exact runHandler_answers hblock hcfg hs hargv hr

/-- The commands of a session stay as they are, and so do its texts. -/
theorem Session.Tidy.step (hcfg : cfg.Tidy P) (hs : s.Tidy P) (hargv : ∀ w ∈ i.argv, newline ∉ w)
    (hstep : loopStep cfg i s = .ok s') : s'.Tidy P ∧ s'.commandList = s.commandList := by
  rcases loopStep_effect hstep with ⟨rfl, -⟩ | ⟨h, -, hh, he⟩
  · exact ⟨hs, rfl⟩
  · obtain ⟨cmd, hcmd, rfl⟩ := exists_command hh
    obtain ⟨hmime, hsasl⟩ := hs.commands cmd hcmd
    exact hs.effect hcfg hargv hmime hsasl he

/-- After `QUIT` nothing is sent. -/
theorem run_serve_quit {τ : Type} {S : Sink τ} (hq : s.gotQuit = true) (inputs : List Input)
    (c : Channel τ) : Run.run (serveStep L S P block cfg) inputs (s, c) = .ok (s, c) := by
  induction inputs with
  | nil => rfl
  | cons i is ih =>
    have hskip : ((s, c).1.gotQuit || i.argv.isEmpty) = true := by
      rw [hq]
      rfl
    rw [Run.run, serveStep, if_pos hskip, ok_bind, ih]

/-- `QUIT` ends the session, and nothing else does. -/
theorem gotQuit_step (hq : s.gotQuit = false) (hs : s.Tidy P)
    (hstep : loopStep cfg i s = .ok s') :
    s'.gotQuit = decide (inputHandler s.commandList i = some .quit) := by
  refine (loopStep_settings hq hstep ?_).2.1
  rintro ⟨hh, -⟩
  obtain ⟨cmd, hcmd, hsasl⟩ := exists_command hh
  exact (hs.commands cmd hcmd).2 hsasl

/-- **A client never gets out of step.** -/
theorem run_read (hblock : 0 < block.length) (hcfg : cfg.Tidy P) (hs : s.Tidy P)
    (hargv : ∀ i ∈ inputs, ∀ w ∈ i.argv, newline ∉ w) (hq : s.gotQuit = false)
    (hrun : Run.run (loopStep cfg) inputs s = .ok s') {τ : Type} {S : Sink τ} {log : τ → Bytes}
    (hS : S.Delivers log) (str : τ) :
    ∃ str' w answers,
      Run.run (serveStep L S P block cfg) inputs (s, .plain str) = .ok (s', .plain str') ∧
      log str' = log str ++ w ∧ ∀ rest, readSession s.commandList inputs
        (lines newline (w ++ rest)) = some (answers, lines newline rest) := by
  induction inputs generalizing s str with
  | nil =>
    obtain rfl := Except.ok.inj hrun
    exact ⟨str, [], [], rfl, (List.append_nil _).symm, fun rest => rfl⟩
  | cons i is ih =>
    rw [List.forall_mem_cons] at hargv
    obtain ⟨s₁, hstep, hrest⟩ := bind_eq_ok.1 hrun
    obtain ⟨hs₁, hcommands⟩ := hs.step hcfg hargv.1 hstep
    by_cases hempty : i.argv.isEmpty = true
    · -- an empty line
      have hsame : s₁ = s := by
        rw [loopStep, hempty, Bool.or_true, if_pos rfl] at hstep
        exact (Except.ok.inj hstep).symm
      rw [hsame] at hrest
      obtain ⟨str', w, answers, hserve, hlog, hread⟩ := ih hs hargv.2 hq hrest str
      refine ⟨str', w, answers, ?_, hlog, fun rest => ?_⟩
      · have hskip : ((s, Channel.plain str).1.gotQuit || i.argv.isEmpty) = true := by
          rw [hempty, Bool.or_true]
        rw [Run.run, serveStep, if_pos hskip, ok_bind, hserve]
      · rw [readSession, if_pos hempty, hread]
    · have hne : i.argv.isEmpty = false := Bool.eq_false_iff.2 hempty
      have hgo : ((s, Channel.plain str).1.gotQuit || i.argv.isEmpty) = false := by
        rw [hne, Bool.or_false]
        exact hq
      have hreply := hstep
      rw [loopStep, hq, hne, Bool.or_false, if_neg Bool.false_ne_true] at hreply
      obtain ⟨⟨r, s₂⟩, hcmd, hs₂⟩ := bind_eq_ok.1 hreply
      obtain rfl := Except.ok.inj hs₂
      obtain ⟨a, w₁, hsends, hframes⟩ := dicodHandleCommand_answers (L := L) hblock hcfg hs
        hargv.1 hne hcmd
      obtain ⟨str₁, hsend, hlog₁⟩ := hsends τ S log hS str
      have hserve₁ : serveStep L S P block cfg i (s, .plain str) = .ok (s₂, .plain str₁) := by
        rw [serveStep, hgo, if_neg Bool.false_ne_true]
        simp only [hcmd, hsend, ok_bind]
      have hquit := gotQuit_step hq hs hstep
      by_cases hi : inputHandler s.commandList i = some .quit
      · -- nothing behind it is read
        rw [decide_eq_true hi] at hquit
        rw [run_quit hquit] at hrest
        obtain rfl := Except.ok.inj hrest
        refine ⟨str₁, w₁, [a], ?_, hlog₁, fun rest => ?_⟩
        · rw [Run.run, hserve₁, ok_bind, run_serve_quit hquit]
        · rw [readSession, if_neg hempty, hframes rest]
          simp only [Option.bind_eq_bind, Option.bind_some, if_pos hi]
      · rw [decide_eq_false hi] at hquit
        obtain ⟨str', w, answers, hserve, hlog, hread⟩ := ih hs₁ hargv.2 hquit hrest str₁
        refine ⟨str', w₁ ++ w, a :: answers, ?_, ?_, fun rest => ?_⟩
        · rw [Run.run, hserve₁, ok_bind, hserve]
        · rw [hlog, hlog₁, List.append_assoc]
        · have hnext := hread rest
          rw [hcommands] at hnext
          rw [readSession, if_neg hempty, List.append_assoc, hframes (w ++ rest)]
          simp only [Option.bind_eq_bind, Option.bind_some, if_neg hi, hnext]

/-- The client read one reply for every command that was heard. -/
theorem length_readSession {commands : List Command} {ls ls' : List Bytes}
    {answers : List Answer} (h : readSession commands inputs ls = some (answers, ls')) :
    answers.length = ((heard commands inputs).filter fun i => !i.argv.isEmpty).length := by
  induction inputs generalizing ls answers with
  | nil =>
    obtain ⟨rfl, -⟩ := Prod.mk.inj (Option.some.inj h)
    rfl
  | cons i is ih =>
    rw [readSession] at h
    by_cases hempty : i.argv.isEmpty = true
    · have hquit : inputHandler commands i ≠ some .quit := by
        rw [inputHandler, if_pos hempty]
        exact Option.some_ne_none _ ∘ Eq.symm
      rw [if_pos hempty] at h
      have hdrop : ¬ (!i.argv.isEmpty) = true := by
        rw [hempty]
        exact Bool.false_ne_true
      rw [heard, if_neg hquit, List.filter_cons_of_neg (p := fun i : Input => !i.argv.isEmpty)
        hdrop, ih h]
    · have hkeep : (!i.argv.isEmpty) = true := by
        rw [Bool.eq_false_iff.2 hempty]
        rfl
      rw [if_neg hempty] at h
      obtain ⟨⟨a, rest⟩, -, h⟩ := Option.bind_eq_some_iff.1 h
      simp only at h
      rw [heard]
      split_ifs at h ⊢
      · obtain ⟨rfl, -⟩ := Prod.mk.inj (Option.some.inj h)
        rw [List.filter_cons_of_pos (p := fun i : Input => !i.argv.isEmpty) hkeep]
        rfl
      · obtain ⟨⟨as, rest'⟩, hmore, h⟩ := Option.bind_eq_some_iff.1 h
        obtain ⟨rfl, rfl⟩ := Prod.mk.inj (Option.some.inj h)
        rw [List.filter_cons_of_pos (p := fun i : Input => !i.argv.isEmpty) hkeep,
          List.length_cons, List.length_cons, ih hmore]

end Sessions

/-- **A client never gets out of step with the server.** In every session
without MIME output and SASL logins, whatever is asked and whatever the
databases find, the bytes the server sends are one reply for each command,
in order: a client that reads them by their codes finds the end of each,
and nothing is left. It takes single lines where a status line is made of
them; the texts may be any. -/
theorem session_in_step {L : Limits} {P : Printing} {block : Bytes} (hblock : 0 < block.length)
    {cfg : Config} (hcfg : cfg.Tidy P) {s₀ s₁ : Session} (hs : s₀.Tidy P) {conn : Client}
    {inputs : List Input} (hargv : ∀ i ∈ inputs, ∀ w ∈ i.argv, newline ∉ w)
    (hloop : dicodLoop cfg conn inputs s₀ = .ok s₁) {τ : Type} {S : Sink τ} {log : τ → Bytes}
    (hS : S.Delivers log) (str : τ) :
    ∃ s s' str' w answers, beginSession cfg conn s₀ = .ok s ∧
      Run.run (serveStep L S P block cfg) inputs (s, .plain str) = .ok (s', .plain str') ∧
      initAuthData s' = .ok s₁ ∧ log str' = log str ++ w ∧
      (∀ rest, readSession s₀.commandList inputs (lines newline (w ++ rest)) =
        some (answers, lines newline rest)) ∧
      answers.length = ((heard s₀.commandList inputs).filter fun i => !i.argv.isEmpty).length := by
  obtain ⟨s, hbegin, hloop⟩ := bind_eq_ok.1 hloop
  obtain ⟨s', hrun, hinit⟩ := bind_eq_ok.1 hloop
  obtain ⟨hq, hcommands, hlang, hmime, -, hmarkup⟩ := beginSession_frame hbegin
  have hdbs := tidy_of_check (P := P) hbegin fun db hdb =>
    hs.databases db (List.mem_of_mem_filter hdb)
  have hs' : s.Tidy P :=
    ⟨hdbs, hlang ▸ hs.lang, hmarkup ▸ hs.markup, hmime.trans hs.mime, hcommands ▸ hs.commands⟩
  obtain ⟨str', w, answers, hserve, hlog, hread⟩ :=
    run_read (L := L) hblock hcfg hs' hargv hq hrun hS str
  rw [hcommands] at hread
  exact ⟨s, s', str', w, answers, hbegin, hserve, hinit, hlog, hread,
    length_readSession (hread [])⟩

end Dico
