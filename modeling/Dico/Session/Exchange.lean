import Dico.Filter.CrlfReader
import Dico.Reply.ClientLines
import Dico.Session.Dbtext
import Dico.Session.Wire
import Dico.Text.Quotearg
import Mathlib.Data.Set.List
/-!
# A lookup, from the client to the server and back

`dict_define` and `dict_match` send a command with its words quoted, and
parse what comes back. In between are both CRLF filters, the loop of
`dicod_loop` with its tokenizer, the handlers, and the output stream. The
theorems here say that all of this together is the lookup: the client ends
up with the definitions and the matches that the databases have, none left
out, in order, and byte by byte (`match_exchanged`, `define_exchanged`).
-/

namespace Dico

open DicoStream Lines
open Utf8 (encode)

/-! ## The model -/

/-- The line that the server has of a command, past its CRLF filter and
`trimnl`. -/
def received (request : Bytes) : Bytes :=
  let buf := fromCrlf (request ++ [carriageReturn, newline])
  (Dbtext.trimnl (buf ++ [0]) buf.length).takeWhile (· ≠ 0)

/-- The command of `dict_define`. -/
def defineRequest (iswprint : ℕ → Bool) (database word : Utf8Text) : Bytes :=
  requestText iswprint (ascii "DEFINE") [database, word]

/-- The command of `dict_match`. -/
def matchRequest (iswprint : ℕ → Bool) (database strategy word : Utf8Text) : Bytes :=
  requestText iswprint (ascii "MATCH") [database, strategy, word]

/-- A session that takes commands, without MIME output. -/
structure Session.Serving (s : Session) : Prop where
  gotQuit : s.gotQuit = false
  mime : s.optionMime = false
  commands : ∃ more, s.commandList = commandTab ++ more

/-! ## What is looked up -/

/-- The name of the database and the headword of each item. -/
def matchPairs (found : List (Database × DbResult)) : List (Bytes × Bytes) :=
  (itemsOf found).map fun x => (x.1.1.name, itemText x)

/-- The definition that each item is. A newline is added to its text. -/
def definitionResults (word : Bytes) (found : List (Database × DbResult)) : List DefineResult :=
  (itemsOf found).map fun x =>
    ⟨word, x.1.1.name, (dicodGetDatabaseDescr x.1.1).getD [], itemText x ++ [newline],
      countLines (itemText x ++ [newline])⟩

/-- The matches that the databases have. -/
def matchesFound (cfg : Config) (s : Session) (dbname strat word : Bytes) :
    List (Bytes × Bytes) :=
  match dicoStrategyFind cfg strat with
  | none => []
  | some st => matchPairs ((lookedUp s dbname (some st) word).getD [])

/-- The definitions that the databases have. -/
def definitionsFound (s : Session) (dbname word : Bytes) : List DefineResult :=
  definitionResults word ((lookedUp s dbname none word).getD [])

/-- A match that can be written on a line. -/
def Writable (p : Bytes × Bytes) : Prop := ∃ x : Match, (x.name, x.word) = p

/-- A definition whose line stands for itself, with a text that goes through
the CRLF filter. -/
def Definition.Clean (d : Definition) : Prop :=
  d.Faithful ∧ ∀ l ∈ lines newline d.text, Dico.Clean l

/-- A result that is such a definition. -/
def Readable (r : DefineResult) : Prop := ∃ d : Definition, d.result = r ∧ d.Clean

/-- What `dict_match` returns: the matches, if there are any. -/
def HasMatches (r : Except Fault (DictOutcome MatchResult)) (found : List (Bytes × Bytes)) :
    Prop :=
  if found = [] then r = .ok .refused
  else ∃ res, r = .ok (.result res) ∧ res.count = found.length ∧
    res.set.map (Match.strings res.base) = found.map .ok

/-- What `dict_define` returns: the definitions, if there are any. -/
def HasDefinitions (r : Except Fault (DictOutcome DefineResult)) (found : List DefineResult) :
    Prop :=
  if found = [] then r = .ok .refused
  else ∃ res, r = .ok (.result res) ∧ res.count = found.length ∧ res.set = found

/-! ## The request -/

section Request

variable {iswprint : ℕ → Bool} {keyword tail : Bytes} {ts : List Utf8Text}

/-- A line that the client ended is the line. -/
theorem received_eq {c : Bytes} (hne : c ≠ []) (hnull : 0 ∉ c) (hcr : carriageReturn ∉ c) :
    received c = c := by
  have hcrlf : fromCrlf (c ++ [carriageReturn, newline]) = c ++ [10] := by
    clear hne hnull
    induction c with
    | nil => rfl
    | cons b c ih =>
      rw [List.mem_cons, not_or] at hcr
      rw [List.cons_append, fromCrlf_cons (Ne.symm hcr.1), ih hcr.2, List.cons_append]
  have hlast : c.getLast? ≠ some 13 := fun h => hcr (List.mem_of_getLast? h)
  have hall : ∀ b ∈ c, decide (b ≠ 0) = true := fun b hb =>
    decide_eq_true fun h => hnull (h ▸ hb)
  unfold received
  dsimp only
  rw [hcrlf, Dbtext.trimnl_newline hne hlast, List.takeWhile_append_of_pos hall]
  exact List.append_nil c

/-- An ASCII byte is the character it stands for. -/
theorem code_of_mem_encode {wc : ℕ} (hwc : wc < 0x110000) {b : UInt8} (hb : b.toNat < 0x80)
    (hmem : b ∈ encode wc) : wc = b.toNat := by
  by_cases hlow : wc < 0x80
  · rw [Utf8.encode_one hlow] at hmem
    rw [List.mem_singleton.1 hmem, Utf8.toNat_ofNat (by omega)]
  · have hle := Utf8.le_of_mem_encode (not_lt.1 hlow) (by omega) hmem
    omega

/-- A byte in a quoted word is a backslash or a character of it. -/
theorem notMem_quotearg {t : Utf8Text} {b : UInt8} (hb : b.toNat < 0x80) (hbs : b ≠ 92)
    (hcode : b.toNat ∉ t.codes) (h : ∀ wc ∈ t.codes, Arriving iswprint wc) :
    b ∉ t.quotearg iswprint := by
  intro hmem
  obtain ⟨wc, hwc, hmem⟩ := List.mem_flatMap.1 hmem
  rw [quoteargChar_arriving (h wc hwc)] at hmem
  obtain ⟨u, hu, henc⟩ := List.mem_flatMap.1 hmem
  rcases mem_utf8WcQuote hu with hu | rfl
  · obtain rfl := List.mem_singleton.1 hu
    have hub : u = b.toNat := code_of_mem_encode (t.codes_range hwc).2 hb henc
    exact hcode (hub ▸ hwc)
  · rw [Utf8.encode_one (by decide)] at henc
    exact hbs (List.mem_singleton.1 henc)

/-- And neither is a control character in the command. -/
theorem notMem_requestText {b : UInt8} (hb : b.toNat < 32) (hkey : b ∉ keyword)
    (hcode : ∀ t ∈ ts, b.toNat ∉ t.codes) (h : ∀ t ∈ ts, ∀ wc ∈ t.codes, Arriving iswprint wc) :
    b ∉ requestText iswprint keyword ts := by
  have hother : ∀ c : UInt8, 32 ≤ c.toNat → b ≠ c := by
    rintro c hc rfl
    omega
  intro hmem
  rcases List.mem_append.1 hmem with hmem | hmem
  · exact hkey hmem
  · obtain ⟨q, hq, hmem⟩ := List.mem_flatMap.1 hmem
    obtain ⟨t, ht, rfl⟩ := List.mem_map.1 hq
    rcases List.mem_cons.1 hmem with hmem | hmem
    · exact hother 32 (by decide) hmem
    · rcases List.mem_cons.1 hmem with hmem | hmem
      · exact hother 34 (by decide) hmem
      · rcases List.mem_append.1 hmem with hmem | hmem
        · exact notMem_quotearg (by omega) (hother 92 (by decide)) (hcode t ht) (h t ht) hmem
        · exact hother 34 (by decide) (List.mem_singleton.1 hmem)

/-- **A command arrives as it was sent.** -/
theorem received_request (hkey : Keyword keyword) (hcr : carriageReturn ∉ keyword)
    (h : ∀ t ∈ ts, ∀ wc ∈ t.codes, Arriving iswprint wc) :
    received (requestText iswprint keyword ts) = requestText iswprint keyword ts := by
  refine received_eq (List.append_ne_nil_of_left_ne_nil hkey.ne_nil _)
    (notMem_requestText (by decide) hkey.null_notMem (fun t _ hmem => ?_) h)
    (notMem_requestText (by decide) hcr (fun t ht hmem => ?_) h)
  · exact absurd (t.codes_range hmem).1 (by decide)
  · rcases h t ht _ hmem with h | ⟨-, h, -⟩
    · cases h
    · cases h

end Request

/-! ## The turn of the server -/

section Serving

variable {L : Limits} {P : Printing} {block : Bytes} {cfg : Config} {s s' : Session}
  {line tail : Bytes} {argv : List Bytes} {env : Env} {r : Reply} {a : Answer} {lone : Bool}

/-- **One turn of the loop**: a line is tokenized, and the reply to it goes
onto the wire. -/
theorem served (hq : s.gotQuit = false) (htok : lineTokens (line ++ 0 :: tail) = .ok argv)
    (hne : argv ≠ []) (hcmd : dicodHandleCommand cfg ⟨argv, env⟩ s = .ok (r, s'))
    (hans : AnswersWith L P block lone r a) (tb : DicoTokbuf) {τ : Type} {S : Sink τ}
    {log : τ → Bytes} (hS : S.Delivers log) (str : τ) :
    ∃ tb' str' w, xdicoTokenizeString tb (line ++ 0 :: tail) = .ok tb' ∧ tb'.words = .ok argv ∧
      serveStep L S P block cfg ⟨argv, env⟩ (s, .plain str) = .ok (s', .plain str') ∧
      log str' = log str ++ w ∧ Frames lone w a := by
  obtain ⟨tb', hrun, hwords⟩ := (xdico_words_iff tb).2 htok
  obtain ⟨w, hsends, hframes⟩ := hans
  obtain ⟨str', hsend, hlog⟩ := hsends τ S log hS str
  refine ⟨tb', str', w, hrun, hwords, ?_, hlog, hframes⟩
  have hgo : ((s, Channel.plain str).1.gotQuit || argv.isEmpty) = false := by
    rw [hq, Bool.false_or]
    exact List.isEmpty_eq_false_iff.2 hne
  unfold serveStep
  simp only [hgo, Bool.false_eq_true, if_false, hcmd, ok_bind, hsend]

/-- A keyword of one word is found by that word. -/
theorem cmdArgEq_self (keyword : Bytes) (args : List Bytes) :
    cmdArgEq keyword (keyword :: args) = true := by
  rw [cmdArgEq, List.take_length, if_pos rfl, List.drop_length]

/-- `DEFINE` is handled. -/
theorem handles_define (hs : s.Serving) (a b : Bytes) :
    dicodHandleCommand cfg ⟨[ascii "DEFINE", a, b], env⟩ s =
      .ok (dicodDefine s [ascii "DEFINE", a, b], s) := by
  obtain ⟨more, hmore⟩ := hs.commands
  have hlocate : locateCommand s.commandList [ascii "DEFINE", a, b] = commandTab.head? := by
    rw [hmore, commandTab, List.cons_append]
    exact List.find?_cons_of_pos (cmdArgEq_self _ _)
  rw [dicodHandleCommand, handlerOf]
  dsimp only
  rw [hlocate]
  rfl

/-- And so is `MATCH`. -/
theorem handles_match (hs : s.Serving) (a b c : Bytes) :
    dicodHandleCommand cfg ⟨[ascii "MATCH", a, b, c], env⟩ s =
      .ok (dicodMatch cfg s [ascii "MATCH", a, b, c], s) := by
  obtain ⟨more, hmore⟩ := hs.commands
  have hlocate : locateCommand s.commandList [ascii "MATCH", a, b, c] = commandTab[1]? := by
    rw [hmore, commandTab, List.cons_append, List.cons_append, locateCommand,
      List.find?_cons_of_neg (by rw [cmdArgEq, if_neg (by decide)]; exact Bool.false_ne_true)]
    exact List.find?_cons_of_pos (cmdArgEq_self _ _)
  rw [dicodHandleCommand, handlerOf]
  dsimp only
  rw [hlocate]
  rfl

end Serving

/-! ## The turn of the client -/

section Client

variable {found : List (Database × DbResult)} {word w : Bytes} {s : Session}
  {xcalloc : ℕ → Bool} {threshold n : ℕ} {conn : ReplyConn} {line : Bytes}

/-- Where there are results, there are items. -/
theorem itemsOf_eq_nil (hcount : ∀ x ∈ found, x.2.count ≠ 0) : itemsOf found = [] ↔ found = [] := by
  constructor
  · intro h
    cases found with
    | nil => rfl
    | cons x found =>
      have hlen := congrArg List.length h
      rw [length_itemsOf, List.map_cons, List.sum_cons, List.length_nil] at hlen
      exact absurd (Nat.eq_zero_of_add_eq_zero_right hlen) (hcount x List.mem_cons_self)
  · rintro rfl
    rfl

/-- A result has something in it. -/
theorem count_lookedUp {dbname : Bytes} {strat : Option Strategy}
    (h : lookedUp s dbname strat word = some found) : ∀ x ∈ found, x.2.count ≠ 0 := by
  intro x hx
  unfold lookedUp at h
  split_ifs at h
  · obtain rfl := Option.some.inj h
    exact (mem_resultsOf hx).2
  · obtain rfl := Option.some.inj h
    exact (mem_resultsOf hx).2
  · obtain ⟨db, -, rfl⟩ := Option.map_eq_some_iff.1 h
    rw [Option.mem_toList] at hx
    exact (foundIn_some hx).2

/-- The status line in front of some results. -/
theorem frame_line {code tail : Bytes} (hcode : code.length = 3) (htail : Clean tail)
    (hclean : newline ∉ code ∧ 0 ∉ code ∧ carriageReturn ∉ code)
    (hhead : tail.head? = some space) (hlong : 1 < tail.length) (hn : n < 2 ^ 64) :
    Clean (code ++ [space] ++ decimal n ++ tail) ∧
      dictStatusP (code ++ [space] ++ decimal n ++ tail).dropLast code ∧
      announced (code ++ [space] ++ decimal n ++ tail).dropLast = n := by
  obtain ⟨t, rfl⟩ : ∃ t, tail = t ++ [newline] := by
    obtain ⟨c, hc, -⟩ := htail
    exact ⟨c, hc⟩
  have hdigits := digits_decimal n
  have hdrop : (code ++ [space] ++ decimal n ++ (t ++ [newline])).dropLast =
      code ++ space :: (decimal n ++ t) := by
    rw [← List.append_assoc, List.dropLast_concat]
    simp only [List.append_assoc, List.cons_append, List.nil_append]
  rw [hdrop]
  refine ⟨?_, ⟨?_, ?_, .inl (.inl ?_)⟩, announced_decimal hcode hn ?_ ?_⟩
  · refine htail.append ?_ ?_ ?_
    · simp only [List.mem_append, List.mem_singleton, not_or]
      exact ⟨⟨hclean.1, by decide⟩, fun h => absurd (hdigits _ h) (by decide)⟩
    · simp only [List.mem_append, List.mem_singleton, not_or]
      exact ⟨⟨hclean.2.1, by decide⟩, fun h => absurd (hdigits _ h) (by decide)⟩
    · simp only [List.mem_append, List.mem_singleton, not_or]
      exact ⟨⟨hclean.2.2, by decide⟩, fun h => absurd (hdigits _ h) (by decide)⟩
  · rw [List.length_append, List.length_cons]
    omega
  · rw [← hcode, List.take_left]
  · rw [List.getD_eq_getElem?_getD, ← hcode, List.getElem?_append_right le_rfl, Nat.sub_self]
    rfl
  · intro c hc
    cases t with
    | nil => exact absurd hc (Option.not_mem_none c)
    | cons b t =>
      obtain rfl := Option.some.inj hhead
      obtain rfl := Option.some.inj hc
      decide
  · obtain ⟨c, hc, -, hnull, -⟩ := htail
    rw [List.append_cancel_right hc]
    exact hnull

/-- Of matches. -/
theorem frame_match (hn : n < 2 ^ 64) :
    Clean (matchFrame.begfmt n) ∧ dictStatusP (matchFrame.begfmt n).dropLast (ascii "152") ∧
      announced (matchFrame.begfmt n).dropLast = n :=
  @frame_line n (ascii "152") (ascii " matches found: list follows\n") (by decide)
    ⟨ascii " matches found: list follows", by decide, by decide, by decide, by decide⟩
    (by decide) (by decide) (by decide) hn

/-- And of definitions. -/
theorem frame_define (hn : n < 2 ^ 64) :
    Clean (defineFrame.begfmt n) ∧ dictStatusP (defineFrame.begfmt n).dropLast (ascii "150") ∧
      announced (defineFrame.begfmt n).dropLast = n :=
  @frame_line n (ascii "150") (ascii " definitions found: list follows\n") (by decide)
    ⟨ascii " definitions found: list follows", by decide, by decide, by decide, by decide⟩
    (by decide) (by decide) (by decide) hn

/-- A reply of one line that is no list refuses `MATCH`. -/
theorem refused_match (hframes : Frames false w (.status line)) (hl : Clean line)
    (hstatus : ¬dictStatusP line.dropLast (ascii "152"))
    (hlev : ¬(threshold ≠ 0 ∧ conn.levdist ≠ threshold ∧ ascii "xlev" ∈ conn.capav))
    (rest : List Bytes) :
    dictMatch xcalloc threshold { conn with lines := clientLines w ++ rest } = .ok .refused := by
  obtain ⟨ls, hlines, hread⟩ := clientLines_of_frames hframes hl
  rw [hlines]
  exact @dictMatch_status _ _ rest _ { conn with lines := ls.map wireLine ++ rest } _ _ hread hl
    hstatus hlev rfl

/-- And `DEFINE`. -/
theorem refused_define (hframes : Frames false w (.status line)) (hl : Clean line)
    (hstatus : ¬dictStatusP line.dropLast (ascii "150")) (rest : List Bytes) :
    dictDefine xcalloc { conn with lines := clientLines w ++ rest } = .ok .refused := by
  obtain ⟨ls, hlines, hread⟩ := clientLines_of_frames hframes hl
  rw [hlines]
  exact @dictDefine_status _ _ rest _ { conn with lines := ls.map wireLine ++ rest } _ hread hl
    hstatus rfl

/-- Where nothing was found, the command is refused. -/
theorem hasMatches_nil {r : Except Fault (DictOutcome MatchResult)} (h : r = .ok .refused) :
    HasMatches r [] := by
  unfold HasMatches
  rw [if_pos rfl]
  exact h

theorem hasDefinitions_nil {r : Except Fault (DictOutcome DefineResult)} (h : r = .ok .refused) :
    HasDefinitions r [] := by
  unfold HasDefinitions
  rw [if_pos rfl]
  exact h

/-- The lines that refuse it. -/
theorem clean_noMatch : Clean (ascii "552 No match\n") :=
  ⟨ascii "552 No match", by decide, by decide, by decide, by decide⟩

theorem clean_invalid : Clean (ascii "550 invalid database, use SHOW DB for a list\n") :=
  ⟨ascii "550 invalid database, use SHOW DB for a list", by decide, by decide, by decide,
    by decide⟩

/-- The line that ends a list. -/
theorem clean_complete : Clean (ascii "250 Command complete\n") :=
  ⟨ascii "250 Command complete", by decide, by decide, by decide, by decide⟩

/-- The lines of some matches. -/
theorem lines_matches (ms : List Match) :
    lines newline (Match.text ms) = ms.map (fun x => x.line ++ [newline]) ∧
      ∀ l ∈ lines newline (Match.text ms), Clean l := by
  have hlines : lines newline (Match.text ms) = ms.map fun x => x.line ++ [newline] := by
    have htext : Match.text ms = ms.flatMap fun x => x.line ++ [newline] := by
      unfold Match.text
      exact congrArg (List.flatMap · ms) (funext matchText_eq)
    rw [htext]
    exact lines_flatMap fun x _ h => (line_plain x _ h).2 rfl
  refine ⟨hlines, ?_⟩
  intro l hl
  rw [hlines] at hl
  obtain ⟨x, -, rfl⟩ := List.mem_map.1 hl
  refine ⟨x.line, rfl, fun h => (line_plain x _ h).2 rfl, fun h => (line_plain x _ h).1 rfl, ?_⟩
  have hlast : x.line = (x.name ++ space :: doubleQuote :: x.word) ++ [doubleQuote] := by
    unfold Match.line
    simp only [List.append_assoc, List.cons_append]
  rw [hlast, List.getLast?_concat]
  decide

/-- **The client has the matches of a reply.** -/
theorem hasMatches_of_frames (hcount : ∀ x ∈ found, x.2.count ≠ 0)
    (hframes : Frames false w (matchesAnswer (lines newline (matchesText found)) found))
    (hwrite : ∀ p ∈ matchPairs found, Writable p) (hn : (matchPairs found).length < 2 ^ 64)
    (hmem : xcalloc (matchPairs found).length = true)
    (hlev : ¬(threshold ≠ 0 ∧ conn.levdist ≠ threshold ∧ ascii "xlev" ∈ conn.capav))
    (hstk : conn.stk = []) (rest : List Bytes) :
    HasMatches (dictMatch xcalloc threshold { conn with lines := clientLines w ++ rest })
      (matchPairs found) := by
  have hempty : matchPairs found = [] ↔ found = [] :=
    List.map_eq_nil_iff.trans (itemsOf_eq_nil hcount)
  unfold HasMatches
  unfold matchesAnswer at hframes
  by_cases hnil : found = []
  · rw [if_pos hnil] at hframes
    rw [if_pos (hempty.2 hnil)]
    exact refused_match hframes clean_noMatch (by decide) hlev rest
  · rw [if_neg hnil] at hframes
    rw [if_neg fun h => hnil (hempty.1 h)]
    -- the items as matches that can be written
    obtain ⟨ms, hms⟩ : ∃ ms : List Match, ms.map (fun x => (x.name, x.word)) = matchPairs found :=
      (Set.range_list_map fun x : Match => (x.name, x.word)).ge hwrite
    have htext : matchesText found = Match.text ms := by
      have hpairs : matchesText found =
          (matchPairs found).flatMap fun p => matchText p.1 p.2 := by
        rw [matchPairs, List.flatMap_map]
        rfl
      rw [hpairs, ← hms, List.flatMap_map]
      rfl
    have hlen : (itemsOf found).length = ms.length := by
      have := congrArg List.length hms
      rw [List.length_map, matchPairs, List.length_map] at this
      exact this.symm
    have hlength : (matchPairs found).length = ms.length := by
      rw [← hms, List.length_map]
    rw [htext, hlen] at hframes
    rw [hlength] at hn hmem
    obtain ⟨hline, hstatus, hannounced⟩ := frame_match hn
    have hclean : (Answer.listing (matchFrame.begfmt ms.length) (lines newline (Match.text ms))
        (ascii "250 Command complete\n")).Clean :=
      ⟨hline, (lines_matches ms).2, clean_complete⟩
    obtain ⟨ls, hlines, hread⟩ := clientLines_of_frames hframes hclean
    have hparse : resultParseMat ms.length (Match.text ms ++ [0]) =
        .ok (((ms.flatMap fun x => x.cut ++ [0]) ++ [0]), Match.pointers 0 ms) :=
      parseMatLoop_lines [] ms
    have hstrings := map_strings [] ms
    have hpointers : (Match.pointers 0 ms).length = ms.length := by
      have := congrArg List.length hstrings
      rwa [List.length_map, List.length_map] at this
    have hrun := @dictMatch_listing _ _ rest _ _ _ { conn with lines := ls.map wireLine ++ rest }
      xcalloc threshold hread hclean hstatus (by rw [hannounced]; exact hmem) hlev rfl hstk
    rw [hannounced, flatten_lines, hparse, ok_bind] at hrun
    rw [hlines, hrun]
    refine ⟨_, rfl, hpointers.trans hlength.symm, ?_⟩
    rw [← hms, List.map_map]
    exact hstrings

/-- The status line of a definition. -/
theorem definition_line (d : Definition) (hd : d.Faithful) :
    statusLine d.word d.name d.descr = d.line ++ [newline] ∧
      Clean (statusLine d.word d.name d.descr) ∧ dictStatusP d.line (ascii "151") := by
  obtain ⟨hw, hn, -, -, -⟩ := hd
  have hline := line_eq d hw hn
  have hsplit : statusLine d.word d.name d.descr = d.line ++ [newline] := by
    rw [statusLine_eq, hline]
    simp only [List.append_assoc, List.cons_append, List.nil_append]
  refine ⟨hsplit, ⟨d.line, hsplit, ?_, null_notMem_line d, ?_⟩, ?_⟩
  · rw [hline]
    simp only [List.mem_append, List.mem_cons, List.not_mem_nil, or_false, not_or]
    exact ⟨by decide, hw, by decide, by decide, hn, by decide, by decide, d.descr_newline,
      by decide⟩
  · have hquote : d.line = (lineHead ++ (d.word ++ doubleQuote :: space ::
        (d.name ++ space :: doubleQuote :: d.descr))) ++ [doubleQuote] := by
      rw [hline]
      simp only [List.append_assoc, List.cons_append]
    rw [hquote, List.getLast?_concat]
    decide
  · rw [hline]
    refine ⟨?_, by rfl, .inl (.inl rfl)⟩
    rw [List.length_append, show lineHead.length = 5 from rfl]
    omega

/-- The entries of the reply. -/
theorem entries_eq (word : Bytes) (found : List (Database × DbResult)) :
    ((itemsOf found).map fun x => (itemLine word x, definitionLines (itemText x))) =
      (definitionResults word found).map fun r =>
        (statusLine r.word r.database r.descr, lines newline r.defn) := by
  rw [definitionResults, List.map_map]
  rfl

/-- **The client has the definitions of a reply.** -/
theorem hasDefinitions_of_frames (hcount : ∀ x ∈ found, x.2.count ≠ 0)
    (hframes : Frames false w (definitionsAnswer definitionLines word found))
    (hread : ∀ r ∈ definitionResults word found, Readable r)
    (hn : (definitionResults word found).length < 2 ^ 64)
    (hmem : xcalloc (definitionResults word found).length = true) (hstk : conn.stk = [])
    (rest : List Bytes) :
    HasDefinitions (dictDefine xcalloc { conn with lines := clientLines w ++ rest })
      (definitionResults word found) := by
  have hempty : definitionResults word found = [] ↔ found = [] :=
    List.map_eq_nil_iff.trans (itemsOf_eq_nil hcount)
  unfold HasDefinitions
  unfold definitionsAnswer at hframes
  by_cases hnil : found = []
  · rw [if_pos hnil] at hframes
    rw [if_pos (hempty.2 hnil)]
    exact refused_define hframes clean_noMatch (by decide) rest
  · rw [if_neg hnil, entries_eq] at hframes
    rw [if_neg fun h => hnil (hempty.1 h)]
    have hitems : (itemsOf found).length = (definitionResults word found).length := by
      rw [definitionResults, List.length_map]
    rw [hitems] at hframes
    clear hempty hnil hitems
    generalize definitionResults word found = results at *
    -- the results as definitions that are read back
    obtain ⟨as, rfl⟩ : ∃ as : List {d : Definition // d.Clean},
        as.map (fun a => a.1.result) = results := by
      refine (Set.range_list_map fun a : {d : Definition // d.Clean} => a.1.result).ge ?_
      intro r hr
      obtain ⟨d, hd, hclean⟩ := hread r hr
      exact ⟨⟨d, hclean⟩, hd⟩
    obtain ⟨hline, hstatus, hannounced⟩ := frame_define hn
    have hcountIn : countIn (defineFrame.begfmt (as.map fun a => a.1.result).length) =
        (as.map fun a => a.1.result).length := by
      unfold defineFrame
      simp only [List.append_assoc]
      exact countIn_decimal (by decide) _ (by decide)
    have hentries : ∀ e ∈ (as.map fun a => a.1.result).map fun r =>
          (statusLine r.word r.database r.descr, lines newline r.defn),
        (Clean e.1 ∧ ∀ l ∈ e.2, Clean l) ∧ dictStatusP e.1.dropLast (ascii "151") := by
      intro e he
      obtain ⟨r, hr, rfl⟩ := List.mem_map.1 he
      obtain ⟨a, -, rfl⟩ := List.mem_map.1 hr
      obtain ⟨hsplit, hclean, hs⟩ := definition_line a.1 a.2.1
      refine ⟨⟨hclean, a.2.2⟩, ?_⟩
      change dictStatusP (statusLine a.1.word a.1.name a.1.descr).dropLast (ascii "151")
      rw [hsplit, List.dropLast_concat]
      exact hs
    have hbase : sectionsBase (((as.map fun a => a.1.result).map fun r =>
          (statusLine r.word r.database r.descr, lines newline r.defn)).map fun e =>
            (e.1.dropLast, e.2.flatten)) = replyBase (as.map fun a => a.1) := by
      rw [List.map_map, List.map_map, sectionsBase, replyBase, List.flatMap_map, List.flatMap_map]
      refine congrArg (List.flatMap · as) (funext fun a => ?_)
      change (statusLine a.1.word a.1.name a.1.descr).dropLast ++
        0 :: (lines newline a.1.text).flatten ++ [0] = _
      rw [(definition_line a.1 a.2.1).1, List.dropLast_concat, flatten_lines]
    have hclean : (Answer.definitions _ _ _).Clean :=
      ⟨hline, fun e he => (hentries e he).1, clean_complete⟩
    obtain ⟨ls, hlines, hreply⟩ := clientLines_of_frames hframes hclean
    have hrun := @dictDefine_definitions _ _ rest _ _ _ { conn with
      lines := ls.map wireLine ++ rest } xcalloc hreply hclean
      hstatus (hannounced.trans hcountIn.symm) (fun e he => (hentries e he).2)
      (by rw [hcountIn]; exact hmem) rfl hstk
    have hparse := (Cleared.parsed_iff (as.map fun a => a.1)).2 (by
      intro d hd
      obtain ⟨a, -, rfl⟩ := List.mem_map.1 hd
      exact a.2.1)
    rw [List.length_map, List.map_map] at hparse
    rw [hcountIn, hbase, List.length_map] at hrun
    simp only [hparse, ok_bind] at hrun
    rw [hlines, hrun]
    exact ⟨_, rfl, (List.length_map _).symm, rfl⟩

end Client

/-! ## From end to end -/

/-- **A lookup of matches is the lookup.** Any words of printable text
without double quotes, sent by `dict_match` to a server without MIME output
and aliases: the server cuts the line into the words, runs the command and
sends its reply; and what `dict_match` makes of the reply, through both CRLF filters
and whatever follows it, are the matches that the databases have, each with
the name of its database, all of them and in order, or a refusal if there
are none. Names have no blanks and headwords stay on their line; and no dot
inside a line was put at the front of an empty buffer. -/
theorem match_exchanged {L : Limits} {P : Printing} {block : Bytes} (hblock : 0 < block.length)
    {cfg : Config} {s : Session} (hs : s.Serving) {iswprint : ℕ → Bool}
    {database strategy word : Utf8Text}
    (harrive : ∀ t ∈ [database, strategy, word], ∀ wc ∈ t.codes, Arriving iswprint wc)
    (hwrite : ∀ p ∈ matchesFound cfg s database.bytes strategy.bytes word.bytes, Writable p)
    (hun : ∀ st, dicoStrategyFind cfg strategy.bytes = some st → ∀ found,
      lookedUp s database.bytes (some st) word.bytes = some found →
        Unbroken block.length (matchPuts P found))
    {xcalloc : ℕ → Bool} {threshold : ℕ} {conn : ReplyConn}
    (hn : (matchesFound cfg s database.bytes strategy.bytes word.bytes).length < 2 ^ 64)
    (hmem : xcalloc (matchesFound cfg s database.bytes strategy.bytes word.bytes).length = true)
    (hlev : ¬(threshold ≠ 0 ∧ conn.levdist ≠ threshold ∧ ascii "xlev" ∈ conn.capav))
    (hstk : conn.stk = []) (tb : DicoTokbuf) (tail : Bytes) (env : Env) {τ : Type} {S : Sink τ}
    {log : τ → Bytes} (hS : S.Delivers log) (str : τ) :
    ∃ tb' argv str' w,
      xdicoTokenizeString tb (received (matchRequest iswprint database strategy word) ++
        0 :: tail) = .ok tb' ∧ tb'.words = .ok argv ∧
      serveStep L S P block cfg ⟨argv, env⟩ (s, .plain str) = .ok (s, .plain str') ∧
      log str' = log str ++ w ∧
      ∀ rest, HasMatches (dictMatch xcalloc threshold { conn with lines := clientLines w ++ rest })
        (matchesFound cfg s database.bytes strategy.bytes word.bytes) := by
  have hline : received (matchRequest iswprint database strategy word) =
      matchRequest iswprint database strategy word :=
    received_request keyword_match (by decide) harrive
  have htok := request_arrives keyword_match (List.cons_ne_nil _ _) harrive tail
  rw [hline]
  obtain ⟨tb', str', w, hrun, hwords, hserve, hlog, hframes⟩ :=
    served hs.gotQuit htok (List.cons_ne_nil _ _) (handles_match hs _ _ _)
      (dicodMatch_answers (L := L) (P := P) hblock cfg s _) tb hS str
  refine ⟨tb', _, str', w, hrun, hwords, hserve, hlog, fun rest => ?_⟩
  clear hrun hwords hserve hlog htok
  unfold matchesFound at hwrite hn hmem ⊢
  unfold matchAnswer at hframes
  simp only [List.getD_cons_succ, List.getD_cons_zero] at hframes
  cases hstrat : dicoStrategyFind cfg strategy.bytes with
  | none =>
    simp only [hstrat] at hframes ⊢
    exact hasMatches_nil (refused_match hframes
      ⟨ascii "551 Invalid strategy, use SHOW STRAT for a list", by decide, by decide, by decide,
        by decide⟩ (by decide) hlev rest)
  | some st =>
    simp only [hstrat] at hwrite hn hmem hframes ⊢
    cases hfound : lookedUp s database.bytes (some st) word.bytes with
    | none =>
      simp only [hfound] at hframes ⊢
      exact hasMatches_nil (refused_match hframes clean_invalid (by decide) hlev rest)
    | some found =>
      simp only [hfound, Option.getD_some] at hwrite hn hmem hframes ⊢
      rw [textLines_matches (hun st hstrat found hfound)] at hframes
      exact hasMatches_of_frames (count_lookedUp hfound) hframes hwrite hn hmem hlev hstk rest

/-- A server with one database. -/
def dottedServer : Session := .start commandTab [dottedDb]

/-- And a client of it. -/
def newConn : ReplyConn := { lines := [], tail := [] }

theorem match_exchanged_dotted :
    ∃ tb' argv str' w,
      xdicoTokenizeString .begin (received (matchRequest printable ⟨"*".toList, by decide⟩
        ⟨"exact".toList, by decide⟩ ⟨"a\\b".toList, by decide⟩) ++ 0 :: []) = .ok tb' ∧
      tb'.words = .ok argv ∧
      serveStep ample tape printOnce (List.replicate 1024 0)
        { Config.plain with strategies := [anyStrategy] } ⟨argv, idle⟩ (dottedServer, .plain []) =
          .ok (dottedServer, .plain str') ∧
      id str' = id [] ++ w ∧
      ∀ rest, HasMatches
        (dictMatch (fun _ => true) 0 { newConn with lines := clientLines w ++ rest })
        [(ascii "d", ascii ".x"), (ascii "d", ascii ".x")] := by
  have hblock : 0 < (List.replicate 1024 (0 : UInt8)).length := by
    rw [List.length_replicate]
    decide
  have hfound : matchesFound { Config.plain with strategies := [anyStrategy] } dottedServer
      (ascii "*") (ascii "exact") (ascii "a\\b") =
        [(ascii "d", ascii ".x"), (ascii "d", ascii ".x")] := by rfl
  rw [← hfound]
  refine @match_exchanged ample printOnce _ hblock _ _ ⟨rfl, rfl, [], rfl⟩ _ _ _ _ (by decide) ?_
    ?_ _ _ newConn (by decide) rfl (fun h => h.1 rfl) rfl .begin [] idle _ _ _ tape_delivers []
  · intro p hp
    have hpair : p ∈ [(ascii "d", ascii ".x"), (ascii "d", ascii ".x")] := hp
    simp only [List.mem_cons, List.not_mem_nil, or_false, or_self] at hpair
    exact ⟨⟨ascii "d", ascii ".x", by decide, List.all_iff_forall_prop.1 (by decide),
      List.all_iff_forall_prop.1 (by decide)⟩, hpair.symm⟩
  · intro st hst found hlook
    have hany : dicoStrategyFind { Config.plain with strategies := [anyStrategy] }
        (ascii "exact") = some anyStrategy := rfl
    obtain rfl := Option.some.inj (hst.symm.trans hany)
    have hlook' : lookedUp dottedServer (ascii "*") (some anyStrategy) (ascii "a\\b") =
        some [(dottedDb, ⟨2, fun _ => ascii ".x", none⟩)] := rfl
    obtain rfl := Option.some.inj (hlook'.symm.trans hlook)
    rw [List.length_replicate]
    decide

/-- **And so is a lookup of definitions.** What `dict_define` makes of the
reply are the definitions that the databases have, each with the word, the
name and the description of its database and its text, to which a newline
is added. Their lines stand for themselves, and no carriage return ends a
line of a text. -/
theorem define_exchanged {L : Limits} {P : Printing} {block : Bytes} (hblock : 0 < block.length)
    {cfg : Config} {s : Session} (hs : s.Serving) (hdbs : ∀ db ∈ s.databases, db.Tidy P)
    {iswprint : ℕ → Bool} {database word : Utf8Text}
    (harrive : ∀ t ∈ [database, word], ∀ wc ∈ t.codes, Arriving iswprint wc)
    (hread : ∀ r ∈ definitionsFound s database.bytes word.bytes, Readable r)
    (hun : ∀ found, lookedUp s database.bytes none word.bytes = some found →
      ∀ x ∈ itemsOf found, Unbroken block.length (P.cut (itemText x)))
    {xcalloc : ℕ → Bool} {conn : ReplyConn}
    (hn : (definitionsFound s database.bytes word.bytes).length < 2 ^ 64)
    (hmem : xcalloc (definitionsFound s database.bytes word.bytes).length = true)
    (hstk : conn.stk = []) (tb : DicoTokbuf) (tail : Bytes) (env : Env) {τ : Type} {S : Sink τ}
    {log : τ → Bytes} (hS : S.Delivers log) (str : τ) :
    ∃ tb' argv str' w,
      xdicoTokenizeString tb (received (defineRequest iswprint database word) ++ 0 :: tail) =
        .ok tb' ∧ tb'.words = .ok argv ∧
      serveStep L S P block cfg ⟨argv, env⟩ (s, .plain str) = .ok (s, .plain str') ∧
      log str' = log str ++ w ∧
      ∀ rest, HasDefinitions
        (dictDefine xcalloc { conn with lines := clientLines w ++ rest })
        (definitionsFound s database.bytes word.bytes) := by
  have hline : received (defineRequest iswprint database word) =
      defineRequest iswprint database word :=
    received_request keyword_define (by decide) harrive
  have htok := request_arrives keyword_define (List.cons_ne_nil _ _) harrive tail
  have hnl : newline ∉ word.bytes := by
    intro hmem
    rw [word.bytes_eq] at hmem
    obtain ⟨u, hu, henc⟩ := List.mem_flatMap.1 hmem
    have hcode : u = newline.toNat :=
      code_of_mem_encode (word.codes_range hu).2 (by decide) henc
    rw [show u = 10 from hcode] at hu
    rcases harrive word (by simp only [List.mem_cons, true_or, or_true]) 10 hu with h | ⟨-, h, -⟩
    · cases h
    · cases h
  rw [hline]
  obtain ⟨tb', str', w, hrun, hwords, hserve, hlog, hframes⟩ :=
    served hs.gotQuit htok (List.cons_ne_nil _ _) (handles_define hs _ _)
      (dicodDefine_answers (L := L) hblock hdbs hnl) tb hS str
  refine ⟨tb', _, str', w, hrun, hwords, hserve, hlog, fun rest => ?_⟩
  clear hrun hwords hserve hlog htok
  unfold definitionsFound at hread hn hmem ⊢
  unfold defineAnswer at hframes
  simp only [List.getD_cons_succ, List.getD_cons_zero] at hframes
  cases hfound : lookedUp s database.bytes none word.bytes with
  | none =>
    simp only [hfound] at hframes ⊢
    exact hasDefinitions_nil (refused_define hframes clean_invalid (by decide) rest)
  | some found =>
    simp only [hfound, definitionsAnswer_eq (hun found hfound)] at hframes
    simp only [hfound, Option.getD_some] at hread hn hmem ⊢
    exact hasDefinitions_of_frames (count_lookedUp hfound) hframes hread hn hmem hstk rest

theorem define_exchanged_dotted :
    ∃ tb' argv str' w,
      xdicoTokenizeString .begin (received (defineRequest printable ⟨"d".toList, by decide⟩
        ⟨"x y".toList, by decide⟩) ++ 0 :: []) = .ok tb' ∧
      tb'.words = .ok argv ∧
      serveStep ample tape printOnce (List.replicate 1024 0) .plain ⟨argv, idle⟩
        (dottedServer, .plain []) = .ok (dottedServer, .plain str') ∧
      id str' = id [] ++ w ∧
      ∀ rest, HasDefinitions
        (dictDefine (fun _ => true) { newConn with lines := clientLines w ++ rest })
        [⟨ascii "x y", ascii "d", ascii "Dots", ascii ".\nb\n", 2⟩] := by
  have hblock : 0 < (List.replicate 1024 (0 : UInt8)).length := by
    rw [List.length_replicate]
    decide
  have hdb : dottedDb.Tidy printOnce :=
    ⟨by decide, by decide, by decide, (by intro text h; cases h)⟩
  have hfound : definitionsFound dottedServer (ascii "d") (ascii "x y") =
      [⟨ascii "x y", ascii "d", ascii "Dots", ascii ".\nb\n", 2⟩] := by rfl
  rw [← hfound]
  refine @define_exchanged ample printOnce _ hblock .plain _ ⟨rfl, rfl, [], rfl⟩
    (List.forall_mem_singleton.2 hdb) _ _ _ (by decide) ?_ ?_ _ newConn (by decide) rfl rfl .begin
    [] idle _ _ _ tape_delivers []
  · intro r hr
    have hone : r ∈ [(⟨ascii "x y", ascii "d", ascii "Dots", ascii ".\nb\n", 2⟩ : DefineResult)] :=
      hr
    obtain rfl := List.mem_singleton.1 hone
    refine ⟨⟨ascii "x y", ascii "d", ascii "Dots", ascii ".\nb\n", by decide, by decide,
      by decide, List.all_iff_forall_prop.1 (by decide), by decide, by decide, by decide⟩,
      by decide, by decide +kernel, ?_⟩
    intro l hl
    rw [show lines newline (ascii ".\nb\n") = [ascii ".\n", ascii "b\n"] by decide] at hl
    rcases List.mem_cons.1 hl with rfl | hl
    · exact ⟨ascii ".", by decide, by decide, by decide, by decide⟩
    · obtain rfl := List.mem_singleton.1 hl
      exact ⟨ascii "b", by decide, by decide, by decide, by decide⟩
  · intro found hlook x hx
    have hlook' : lookedUp dottedServer (ascii "d") none (ascii "x y") =
        some [(dottedDb, ⟨1, fun _ => ascii ".\nb", none⟩)] := rfl
    obtain rfl := Option.some.inj (hlook'.symm.trans hlook)
    obtain rfl := List.mem_singleton.1 (show x ∈ [((dottedDb, _), 0)] from hx)
    rw [List.length_replicate]
    decide

end Dico
