import Dico.Filter.CrlfWriter
import Dico.Reply.Answer
import Dico.Reply.Parsing
/-!
# Replies as the client takes them in

A reply leaves the server through the CRLF filter, and the client takes the
line ends off again. On a reply without nulls, and with no carriage return
before a newline, the two cancel out (`clientLines_flatten`), and
`dict_multiline_reply` and the loop of `dict_define` take it apart as
`readText` and `readDefinitions` do (`multilineReply_readText`,
`defineLoop_readDefinitions`).
-/

namespace Dico

open Lines

/-! ## Lines on the wire -/

/-- A line without a null, and with no carriage return before its
newline. -/
def Clean (l : Bytes) : Prop :=
  ∃ c, l = c ++ [newline] ∧ newline ∉ c ∧ 0 ∉ c ∧ c.getLast? ≠ some carriageReturn

/-- All lines of a reply are such. -/
def Answer.Clean : Answer → Prop
  | .status line => Dico.Clean line
  | .listing line text last =>
    Dico.Clean line ∧ (∀ l ∈ text, Dico.Clean l) ∧ Dico.Clean last
  | .definitions line entries last =>
    Dico.Clean line ∧ (∀ e ∈ entries, Dico.Clean e.1 ∧ ∀ l ∈ e.2, Dico.Clean l) ∧
      Dico.Clean last

/-- A line on the wire, without its newline. -/
def wireLine (l : Bytes) : Bytes := l.dropLast ++ [carriageReturn]

/-- The lines that arrive at the client of what was written on the
server. -/
def clientLines (w : Bytes) : List Bytes := (lines newline (toCrlf none w)).map List.dropLast

section Wire

variable {prev : Option UInt8} {l u : Bytes} {ls : List Bytes}

/-- Something in front of a line. -/
theorem Clean.append (hl : Clean l) (hnl : newline ∉ u) (hnull : 0 ∉ u)
    (hcr : carriageReturn ∉ u) : Clean (u ++ l) := by
  obtain ⟨c, rfl, hc, hc₀, hlast⟩ := hl
  refine ⟨u ++ c, (List.append_assoc _ _ _).symm, ?_, ?_, ?_⟩
  · rw [List.mem_append, not_or]
    exact ⟨hnl, hc⟩
  · rw [List.mem_append, not_or]
    exact ⟨hnull, hc₀⟩
  · intro h
    cases c using List.reverseRecOn with
    | nil =>
      rw [List.append_nil] at h
      exact hcr (List.mem_of_getLast? h)
    | append_singleton c b =>
      rw [List.getLast?_concat] at hlast
      rw [← List.append_assoc, List.getLast?_concat] at h
      exact hlast h

/-- Nothing is done to a text without newlines. -/
theorem toCrlf_of_notMem (prev : Option UInt8) {c : Bytes} (hc : newline ∉ c) :
    toCrlf prev c = c := by
  induction c generalizing prev with
  | nil => rfl
  | cons b c ih =>
    rw [List.mem_cons, not_or] at hc
    rw [toCrlf, if_neg fun h => hc.1 h.1.symm, ih _ hc.2, List.singleton_append]

/-- A line goes through the filter. -/
theorem toCrlf_clean (hprev : prev ≠ some carriageReturn) (hl : Clean l) (rest : Bytes) :
    toCrlf prev (l ++ rest) = wireLine l ++ newline :: toCrlf (some newline) rest := by
  obtain ⟨c, rfl, hnl, -, hcr⟩ := hl
  have hlast : lastOf prev c ≠ some carriageReturn := by
    unfold lastOf
    cases hc : c.getLast? with
    | none => exact hprev
    | some b =>
      rw [hc] at hcr
      exact hcr
  rw [wireLine, List.dropLast_concat, List.append_assoc, toCrlf_append, toCrlf_of_notMem _ hnl,
    List.singleton_append, toCrlf, if_pos ⟨rfl, hlast⟩]
  simp only [List.append_assoc, List.cons_append, List.nil_append]

/-- Its newline is the only one. -/
theorem newline_notMem_wireLine (hl : Clean l) : newline ∉ wireLine l := by
  obtain ⟨c, rfl, hnl, -, -⟩ := hl
  rw [wireLine, List.dropLast_concat, List.mem_append, not_or]
  exact ⟨hnl, by decide⟩

/-- **The lines of a reply arrive**, each with a carriage return. -/
theorem clientLines_flatten (hls : ∀ l ∈ ls, Clean l) :
    clientLines ls.flatten = ls.map wireLine := by
  have hwire : ∀ prev : Option UInt8, prev ≠ some carriageReturn →
      (lines newline (toCrlf prev ls.flatten)).map List.dropLast = ls.map wireLine := by
    induction ls with
    | nil => intro prev _; rfl
    | cons l ls ih =>
      intro prev hprev
      obtain ⟨hl, hls⟩ := List.forall_mem_cons.1 hls
      rw [List.flatten_cons, toCrlf_clean hprev hl,
        lines_append_cons (newline_notMem_wireLine hl), List.map_cons, List.dropLast_concat,
        ih hls _ (by decide), List.map_cons]
  exact hwire none nofun

/-- **The client takes the line end off.** -/
theorem replyLine_wireLine (hl : Clean l) : replyLine (wireLine l) = l.dropLast := by
  obtain ⟨c, rfl, hnl, hnull, hcr⟩ := hl
  rw [wireLine, List.dropLast_concat, replyLine]
  have hstring : cString (c ++ [carriageReturn] ++ [newline]) = c ++ [carriageReturn, newline] := by
    unfold cString
    rw [List.append_assoc, List.takeWhile_append_of_pos
      (fun b hb => decide_eq_true (by rintro rfl; exact hnull hb))]
    rfl
  rw [hstring, trimNl]
  have hassoc : c ++ [carriageReturn, newline] = (c ++ [carriageReturn]) ++ [newline] := by
    rw [List.append_assoc, List.singleton_append]
  rw [hassoc, List.rdropWhile_concat_pos _ _ _ (by decide),
    List.rdropWhile_concat_pos _ _ _ (by decide)]
  induction c using List.reverseRecOn with
  | nil => rfl
  | append_singleton c b _ =>
    rw [List.getLast?_concat] at hcr
    refine List.rdropWhile_concat_neg _ _ _ ?_
    rw [decide_eq_true_iff]
    rintro (rfl | rfl)
    · exact hcr rfl
    · exact hnl (List.mem_append_right _ (List.mem_singleton.2 rfl))

/-- A line before its dot was taken off. -/
theorem clean_of_unstuff (hl : Clean (unstuff l)) : Clean l := by
  unfold unstuff at hl
  split_ifs at hl with hdots
  · obtain ⟨c, hc, hnl, hnull, hcr⟩ := hl
    cases l with
    | nil => exact absurd hdots (by decide)
    | cons b l =>
      rw [List.drop_one, List.tail_cons] at hc
      subst hc
      obtain rfl : b = dot := by
        rw [List.take_succ_cons] at hdots
        exact (List.cons.inj hdots).1
      refine ⟨dot :: c, rfl, ?_, ?_, ?_⟩
      · rw [List.mem_cons, not_or]
        exact ⟨by decide, hnl⟩
      · rw [List.mem_cons, not_or]
        exact ⟨by decide, hnull⟩
      · rw [List.getLast?_cons]
        cases hlast : c.getLast? with
        | none => decide
        | some d =>
          rw [hlast] at hcr
          exact hcr
  · exact hl

/-- The dot is taken off with the newline or without it. -/
theorem unstuff_dropLast (hl : Clean l) : unstuff l.dropLast ++ [newline] = unstuff l := by
  obtain ⟨c, rfl, -, -, -⟩ := hl
  have htake : (c ++ [newline]).take 2 = [dot, dot] ↔ c.take 2 = [dot, dot] := by
    match c with
    | [] => exact iff_of_false (by decide) (by decide)
    | [a] =>
      refine iff_of_false ?_ ?_
      · intro h
        exact absurd (List.cons.inj (List.cons.inj h).2).1 (by decide)
      · intro h
        cases (List.cons.inj h).2
    | a :: b :: c => exact Iff.rfl
  rw [List.dropLast_concat]
  unfold unstuff
  by_cases hdots : c.take 2 = [dot, dot]
  · rw [if_pos hdots, if_pos (htake.2 hdots)]
    cases c with
    | nil => exact absurd hdots (by decide)
    | cons b c => rfl
  · rw [if_neg hdots, if_neg fun h => hdots (htake.1 h)]

end Wire

/-! ## The lines of a reply -/

section Used

variable {ls rest : List Bytes} {text : List Bytes} {n : ℕ} {entries : List (Bytes × List Bytes)}
  {lone : Bool} {a : Answer}

/-- The lines a text was read from. -/
theorem used_readText (h : readText ls = some (text, rest)) (htext : ∀ l ∈ text, Clean l) :
    ∃ used, ls = used ++ rest ∧ ∀ l ∈ used, Clean l := by
  induction ls generalizing text with
  | nil => cases h
  | cons l ls ih =>
    rw [readText] at h
    split_ifs at h with hend
    · obtain ⟨-, rfl⟩ := Prod.mk.inj (Option.some.inj h)
      refine ⟨[l], rfl, List.forall_mem_singleton.2 ?_⟩
      rw [hend]
      exact ⟨[dot], rfl, by decide, by decide, by decide⟩
    · obtain ⟨r, hr, hpair⟩ := Option.map_eq_some_iff.1 h
      obtain ⟨rfl, rfl⟩ := Prod.mk.inj hpair
      obtain ⟨hl, htext⟩ := List.forall_mem_cons.1 htext
      obtain ⟨used, rfl, hused⟩ := ih hr htext
      exact ⟨l :: used, rfl, List.forall_mem_cons.2 ⟨clean_of_unstuff hl, hused⟩⟩

/-- And some definitions. -/
theorem used_readDefinitions (h : readDefinitions n ls = some (entries, rest))
    (hclean : ∀ e ∈ entries, Clean e.1 ∧ ∀ l ∈ e.2, Clean l) :
    ∃ used, ls = used ++ rest ∧ ∀ l ∈ used, Clean l := by
  induction n generalizing ls entries with
  | zero =>
    obtain ⟨-, rfl⟩ := Prod.mk.inj (Option.some.inj h)
    exact ⟨[], rfl, List.forall_mem_nil _⟩
  | succ n ih =>
    cases ls with
    | nil => cases h
    | cons l ls =>
      rw [readDefinitions] at h
      split_ifs at h
      obtain ⟨⟨text, ls'⟩, htext, h⟩ := Option.bind_eq_some_iff.1 h
      obtain ⟨⟨es, ls''⟩, hes, h⟩ := Option.bind_eq_some_iff.1 h
      obtain ⟨rfl, rfl⟩ := Prod.mk.inj (Option.some.inj h)
      obtain ⟨⟨hl, hlines⟩, hclean⟩ := List.forall_mem_cons.1 hclean
      obtain ⟨used, rfl, hused⟩ := used_readText htext hlines
      obtain ⟨used', rfl, hused'⟩ := ih hes hclean
      refine ⟨l :: (used ++ used'), by rw [List.cons_append, List.append_assoc], ?_⟩
      exact List.forall_mem_cons.2 ⟨hl, List.forall_mem_append.2 ⟨hused, hused'⟩⟩

/-- **The lines a reply was read from** are such as the reply is. -/
theorem used_readAnswer (h : readAnswer lone ls = some (a, rest)) (ha : a.Clean) :
    ∃ used, ls = used ++ rest ∧ ∀ l ∈ used, Clean l := by
  cases ls with
  | nil => cases h
  | cons l ls =>
    rw [readAnswer] at h
    split_ifs at h
    · obtain ⟨rfl, rfl⟩ := Prod.mk.inj (Option.some.inj h)
      exact ⟨[l], rfl, List.forall_mem_singleton.2 ha⟩
    · split at h
      · next entries last ls' hread =>
        obtain ⟨rfl, rfl⟩ := Prod.mk.inj (Option.some.inj h)
        obtain ⟨hl, hes, hlast⟩ := ha
        obtain ⟨used, rfl, hused⟩ := used_readDefinitions hread hes
        refine ⟨l :: (used ++ [last]), ?_, ?_⟩
        · rw [List.cons_append, List.append_assoc, List.singleton_append]
        · exact List.forall_mem_cons.2
            ⟨hl, List.forall_mem_append.2 ⟨hused, List.forall_mem_singleton.2 hlast⟩⟩
      · cases h
    · split at h
      · next text last ls' hread =>
        obtain ⟨rfl, rfl⟩ := Prod.mk.inj (Option.some.inj h)
        obtain ⟨hl, htext, hlast⟩ := ha
        obtain ⟨used, rfl, hused⟩ := used_readText hread htext
        refine ⟨l :: (used ++ [last]), ?_, ?_⟩
        · rw [List.cons_append, List.append_assoc, List.singleton_append]
        · exact List.forall_mem_cons.2
            ⟨hl, List.forall_mem_append.2 ⟨hused, List.forall_mem_singleton.2 hlast⟩⟩
      · cases h
    · obtain ⟨rfl, rfl⟩ := Prod.mk.inj (Option.some.inj h)
      exact ⟨[l], rfl, List.forall_mem_singleton.2 ha⟩

/-- **A reply arrives line by line.** -/
theorem clientLines_of_frames {w : Bytes} (h : Frames lone w a) (ha : a.Clean) :
    ∃ ls, clientLines w = ls.map wireLine ∧ readAnswer lone ls = some (a, []) := by
  have hread := h []
  rw [List.append_nil] at hread
  obtain ⟨used, hused, hclean⟩ := used_readAnswer hread ha
  rw [show lines newline ([] : Bytes) = [] from rfl, List.append_nil] at hused
  refine ⟨lines newline w, ?_, hread⟩
  have hflatten := clientLines_flatten hclean
  rw [← hused, flatten_lines] at hflatten
  exact hflatten

end Used

/-! ## What the client does -/

section Client

variable {ls rest more : List Bytes} {text : List Bytes} {n : ℕ}
  {entries : List (Bytes × List Bytes)} {line last : Bytes} {conn : ReplyConn}

/-- A line is read. -/
theorem readReply_wireLine {l : Bytes} (hl : Clean l) (h : conn.lines = wireLine l :: more) :
    readReply conn = (true, { conn with buf := l.dropLast, lines := more }) := by
  rw [readReply, h]
  simp only [replyLine_wireLine hl]

/-- **`dict_multiline_reply` reads the text.** -/
theorem multilineReply_readText (hread : readText ls = some (text, rest))
    (htext : ∀ l ∈ text, Clean l) (hlines : conn.lines = ls.map wireLine ++ more) :
    multilineReply conn = { conn with
      lines := rest.map wireLine ++ more
      buf := [dot]
      stk := conn.stk ++ text.flatten ++ [0] } := by
  induction ls generalizing text conn with
  | nil => cases hread
  | cons l ls ih =>
    rw [readText] at hread
    rw [List.map_cons, List.cons_append] at hlines
    split_ifs at hread with hend
    · obtain ⟨rfl, rfl⟩ := Prod.mk.inj (Option.some.inj hread)
      have hl : Clean l := by
        rw [hend]
        exact ⟨[dot], rfl, by decide, by decide, by decide⟩
      have hdrop : l.dropLast = [dot] := by
        rw [hend]
        rfl
      rw [multilineReply]
      simp only [readReply_wireLine hl hlines, hdrop, if_true, dite_true, List.flatten_nil,
        List.append_nil]
    · obtain ⟨r, hr, hpair⟩ := Option.map_eq_some_iff.1 hread
      obtain ⟨rfl, rfl⟩ := Prod.mk.inj hpair
      obtain ⟨hl, htext⟩ := List.forall_mem_cons.1 htext
      have hclean := clean_of_unstuff hl
      have hdot : l.dropLast ≠ [dot] := by
        obtain ⟨c, rfl, -, -, -⟩ := hclean
        rw [List.dropLast_concat]
        rintro rfl
        exact hend rfl
      rw [multilineReply]
      simp only [readReply_wireLine hclean hlines, if_neg hdot, dite_true]
      have hstuff : conn.stk ++ unstuff l.dropLast ++ [newline] = conn.stk ++ unstuff l := by
        rw [List.append_assoc, unstuff_dropLast hclean]
      rw [hstuff, ih hr htext rfl, List.flatten_cons]
      simp only [List.append_assoc]

/-- **The loop of `dict_define` reads the definitions.** -/
theorem defineLoop_readDefinitions (hread : readDefinitions n ls = some (entries, rest))
    (hclean : ∀ e ∈ entries, Clean e.1 ∧ ∀ l ∈ e.2, Clean l)
    (hstatus : ∀ e ∈ entries, dictStatusP e.1.dropLast (ascii "151"))
    (hlines : conn.lines = ls.map wireLine ++ more) :
    ∃ buf, defineLoop n conn = (n, { conn with
      lines := rest.map wireLine ++ more
      buf := buf
      stk := conn.stk ++ sectionsBase (entries.map fun e => (e.1.dropLast, e.2.flatten)) }) := by
  induction n generalizing ls entries conn with
  | zero =>
    obtain ⟨rfl, rfl⟩ := Prod.mk.inj (Option.some.inj hread)
    refine ⟨conn.buf, ?_⟩
    rw [defineLoop, ← hlines, List.map_nil, sectionsBase, List.flatMap_nil, List.append_nil]
  | succ n ih =>
    cases ls with
    | nil => cases hread
    | cons l ls =>
      rw [readDefinitions] at hread
      split_ifs at hread
      obtain ⟨⟨text, ls'⟩, htext, h⟩ := Option.bind_eq_some_iff.1 hread
      obtain ⟨⟨es, ls''⟩, hes, h⟩ := Option.bind_eq_some_iff.1 h
      obtain ⟨rfl, rfl⟩ := Prod.mk.inj (Option.some.inj h)
      obtain ⟨⟨hl, htexts⟩, hclean⟩ := List.forall_mem_cons.1 hclean
      obtain ⟨hs, hstatus⟩ := List.forall_mem_cons.1 hstatus
      rw [List.map_cons, List.cons_append] at hlines
      have hfirst := readReply_wireLine hl hlines
      rw [defineLoop]
      simp only [hfirst, not_true_eq_false, hs, if_false]
      have hmulti := @multilineReply_readText ls ls' more text { conn with
        lines := ls.map wireLine ++ more
        buf := l.dropLast
        stk := conn.stk ++ l.dropLast ++ [0] } htext htexts rfl
      rw [hmulti]
      obtain ⟨buf, hloop⟩ := @ih ls' es { conn with
        lines := ls'.map wireLine ++ more
        buf := [dot]
        stk := conn.stk ++ l.dropLast ++ [0] ++ text.flatten ++ [0] } hes hclean hstatus rfl
      refine ⟨buf, ?_⟩
      rw [hloop, List.map_cons, sectionsBase_cons]
      simp only [List.append_assoc, List.cons_append, List.nil_append]

/-- A reply of one line. -/
theorem readAnswer_status (h : readAnswer false ls = some (.status line, rest)) :
    ls = line :: rest := by
  cases ls with
  | nil => cases h
  | cons l ls =>
    rw [readAnswer, if_neg Bool.false_ne_true] at h
    split_ifs at h
    · split at h
      · cases h
      · cases h
    · split at h
      · cases h
      · cases h
    · obtain ⟨hl, rfl⟩ := Prod.mk.inj (Option.some.inj h)
      rw [Answer.status.inj hl]

/-- A reply with a text. -/
theorem readAnswer_listing (h : readAnswer false ls = some (.listing line text last, rest)) :
    ∃ ls', ls = line :: ls' ∧ readText ls' = some (text, last :: rest) := by
  cases ls with
  | nil => cases h
  | cons l ls =>
    rw [readAnswer, if_neg Bool.false_ne_true] at h
    split_ifs at h
    · split at h
      · cases h
      · cases h
    · split at h
      · next text' last' ls' hread =>
        obtain ⟨hl, rfl⟩ := Prod.mk.inj (Option.some.inj h)
        obtain ⟨rfl, rfl, rfl⟩ := Answer.listing.inj hl
        exact ⟨ls, rfl, hread⟩
      · cases h
    · cases h

/-- A reply with definitions. -/
theorem readAnswer_definitions
    (h : readAnswer false ls = some (.definitions line entries last, rest)) :
    ∃ ls', ls = line :: ls' ∧
      readDefinitions (countIn line) ls' = some (entries, last :: rest) := by
  cases ls with
  | nil => cases h
  | cons l ls =>
    rw [readAnswer, if_neg Bool.false_ne_true] at h
    split_ifs at h
    · split at h
      · next es last' ls' hread =>
        obtain ⟨hl, rfl⟩ := Prod.mk.inj (Option.some.inj h)
        obtain ⟨rfl, rfl, rfl⟩ := Answer.definitions.inj hl
        exact ⟨ls, rfl, hread⟩
      · cases h
    · split at h
      · cases h
      · cases h
    · cases h

variable {xcalloc : ℕ → Bool} {threshold : ℕ}

/-- `XLEV` is not sent. -/
theorem sendXlev_eq
    (hlev : ¬(threshold ≠ 0 ∧ conn.levdist ≠ threshold ∧ ascii "xlev" ∈ conn.capav)) :
    sendXlev threshold conn = conn := if_neg hlev

/-- **`dict_match` on a reply with matches.** -/
theorem dictMatch_listing (hread : readAnswer false ls = some (.listing line text last, rest))
    (ha : (Answer.listing line text last).Clean)
    (hstatus : dictStatusP line.dropLast (ascii "152"))
    (hmem : xcalloc (announced line.dropLast) = true)
    (hlev : ¬(threshold ≠ 0 ∧ conn.levdist ≠ threshold ∧ ascii "xlev" ∈ conn.capav))
    (hlines : conn.lines = ls.map wireLine ++ more) (hstk : conn.stk = []) :
    dictMatch xcalloc threshold conn =
      resultParseMat (announced line.dropLast) (text.flatten ++ [0]) >>= fun r =>
        .ok (.result ⟨r.2.length, r.1, r.2, countLines (text.flatten ++ [0])⟩) := by
  obtain ⟨hl, htext, -⟩ := ha
  obtain ⟨ls', rfl, htaken⟩ := readAnswer_listing hread
  rw [List.map_cons, List.cons_append] at hlines
  have hmulti := @multilineReply_readText ls' (last :: rest) more text { conn with
    buf := line.dropLast
    lines := ls'.map wireLine ++ more } htaken htext rfl
  simp only [hstk, List.nil_append] at hmulti
  unfold dictMatch
  simp only [sendXlev_eq hlev, readReply_wireLine hl hlines, hstatus, not_true_eq_false, if_false,
    hmem, Bool.true_eq_false, hmulti, hstk]

/-- And on one with none. -/
theorem dictMatch_status (hread : readAnswer false ls = some (.status line, rest))
    (hl : Clean line) (hstatus : ¬dictStatusP line.dropLast (ascii "152"))
    (hlev : ¬(threshold ≠ 0 ∧ conn.levdist ≠ threshold ∧ ascii "xlev" ∈ conn.capav))
    (hlines : conn.lines = ls.map wireLine ++ more) :
    dictMatch xcalloc threshold conn = .ok .refused := by
  obtain rfl := readAnswer_status hread
  rw [List.map_cons, List.cons_append] at hlines
  unfold dictMatch
  simp only [sendXlev_eq hlev, readReply_wireLine hl hlines, hstatus, not_false_eq_true, if_true]

/-- **`dict_define` on a reply with definitions.** -/
theorem dictDefine_definitions
    (hread : readAnswer false ls = some (.definitions line entries last, rest))
    (ha : (Answer.definitions line entries last).Clean)
    (hstatus : dictStatusP line.dropLast (ascii "150"))
    (hcount : announced line.dropLast = countIn line)
    (hentries : ∀ e ∈ entries, dictStatusP e.1.dropLast (ascii "151"))
    (hmem : xcalloc (countIn line) = true)
    (hlines : conn.lines = ls.map wireLine ++ more) (hstk : conn.stk = []) :
    dictDefine xcalloc conn =
      let base := sectionsBase (entries.map fun e => (e.1.dropLast, e.2.flatten))
      resultParseDef (countIn line) base >>= fun defs =>
        .ok (.result ⟨countIn line, base, defs, countIn line⟩) := by
  obtain ⟨hl, hes, hlast⟩ := ha
  obtain ⟨ls', rfl, htaken⟩ := readAnswer_definitions hread
  rw [List.map_cons, List.cons_append] at hlines
  obtain ⟨buf, hloop⟩ := @defineLoop_readDefinitions ls' (last :: rest) more _ entries { conn with
    buf := line.dropLast
    lines := ls'.map wireLine ++ more } htaken hes hentries rfl
  simp only [hstk, List.nil_append] at hloop
  unfold dictDefine
  simp only [readReply_wireLine hl hlines, hstatus, not_true_eq_false, if_false, hcount, hloop,
    hmem, Bool.true_eq_false, stk_readReply, hstk]

/-- And on one with none. -/
theorem dictDefine_status (hread : readAnswer false ls = some (.status line, rest))
    (hl : Clean line) (hstatus : ¬dictStatusP line.dropLast (ascii "150"))
    (hlines : conn.lines = ls.map wireLine ++ more) :
    dictDefine xcalloc conn = .ok .refused := by
  obtain rfl := readAnswer_status hread
  rw [List.map_cons, List.cons_append] at hlines
  unfold dictDefine
  simp only [readReply_wireLine hl hlines, hstatus, not_false_eq_true, if_true]

end Client

/-! ## The count that is announced -/

section Count

variable {n : ℕ} {r : Bytes}

/-- A blank in front of a number. -/
theorem strtoul10_blank {b : UInt8} (hb : isSpace b) (s : Bytes) :
    (strtoul10 (b :: s)).1 = (strtoul10 s).1 := by
  have hdrop : (b :: s).dropWhile (fun c => decide (isSpace c)) =
      s.dropWhile fun c => decide (isSpace c) := List.dropWhile_cons_of_pos (decide_eq_true hb)
  unfold strtoul10
  simp only [hdrop]
  split_ifs
  · rfl
  · rfl
  · rfl
  · rfl

/-- A number has digits. -/
theorem decimal_ne_nil (n : ℕ) : decimal n ≠ [] := by
  intro hnil
  have hnum : (toString n).toList = [] := List.map_eq_nil_iff.1 hnil
  simp at hnum

/-- **The client reads the count that the server wrote.** -/
theorem announced_decimal {code : Bytes} (hcode : code.length = 3) (hn : n < 2 ^ 64)
    (hr : ∀ c ∈ r.head?, ¬(digitIn 10 c).isSome) (hnull : 0 ∉ r) :
    announced (code ++ space :: (decimal n ++ r)) = n := by
  have hdigits := digits_decimal n
  have hstring : cString ((code ++ space :: (decimal n ++ r)).drop 3) =
      space :: (decimal n ++ r) := by
    rw [← hcode, List.drop_left]
    refine List.takeWhile_eq_self_iff.2 fun b hb => decide_eq_true ?_
    rintro rfl
    rcases List.mem_cons.1 hb with hb | hb
    · exact absurd hb (by decide)
    · rcases List.mem_append.1 hb with hb | hb
      · exact absurd (hdigits 0 hb) (by decide)
      · exact hnull hb
  rw [announced, hstring, strtoul10_blank (show isSpace space from .inl rfl),
    strtoul10_append (decimal_ne_nil n) hdigits hr,
    numberOf_decimal]
  unfold ulongMax
  omega

end Count

end Dico
