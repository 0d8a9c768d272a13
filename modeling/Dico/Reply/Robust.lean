import Dico.Common.Lines
import Dico.Reply.Banner
import Dico.Reply.Define
import Dico.Reply.Matches
import Dico.Text.Number
/-!
# Replies of any kind

`dict_define` and `dict_match`, with the parsers they call, on whatever a
server may send: lines, and at the end what is left of a line when the
connection breaks off. `dict_match` copes with all of it. `dict_define`
stops at the first reply that is no definition and then parses as many as
were announced, and it takes the tokens of a status line without asking
how many there are. The token buffer is cleared before each line, so a
definition does not depend on those before it (`defLoop_any`).
`replies_iff` says when that goes well.
-/

namespace Dico

/-! ## The connection -/

/-- `struct dict_connection`: the lines that will come, and what comes
behind the last of them before the connection ends; the line that was
read, the object on the obstack, the capabilities and the distance. -/
structure ReplyConn where
  lines : List Bytes
  tail : Bytes
  buf : Bytes := []
  stk : Bytes := []
  capav : List Bytes := []
  levdist : ℕ := 0

/-- `dict_read_reply`, and whether it returns 0. What is left of a line is
not trimmed. -/
def readReply (conn : ReplyConn) : Bool × ReplyConn :=
  match conn.lines with
  | [] => (false, { conn with buf := conn.tail, tail := [] })
  | l :: ls => (true, { conn with buf := replyLine l, lines := ls })

/-- A line that was read is gone. -/
theorem length_readReply {conn : ReplyConn} (h : (readReply conn).1 = true) :
    (readReply conn).2.lines.length < conn.lines.length := by
  unfold readReply at h ⊢
  split at h
  · cases h
  · rename_i l ls hl
    rw [hl]
    exact Nat.lt_succ_self _

/-- `dict_multiline_reply`. -/
def multilineReply (conn : ReplyConn) : ReplyConn :=
  if _h : (readReply conn).1 = true then
    let next := (readReply conn).2
    if next.buf = [dot] then { next with stk := next.stk ++ [0] }
    else multilineReply { next with stk := next.stk ++ unstuff next.buf ++ [newline] }
  else
    let next := (readReply conn).2
    { next with stk := next.stk ++ [0] }
termination_by conn.lines.length
decreasing_by exact length_readReply _h

/-! ## Definitions -/

/-- The loop of `_result_parse_def`, on the memory from `p` on. -/
def defLoop : ℕ → DicoTokbuf → Bytes → Except Fault (List DefineResult)
  | 0, _, _ => .ok []
  | count + 1, tb, p => do
    let tb ← xdicoTokenizeString tb p
    let word ← tb.token 1
    let database ← tb.token 2
    let descr ← tb.token 3
    let line ← strAt p 0
    let p := p.drop (line.length + 1)
    let defn ← strAt p 0
    let more ← defLoop count tb (p.drop (defn.length + 1))
    .ok (⟨word, database, descr, defn, countLines defn⟩ :: more)

/-- `_result_parse_def`, where `xcalloc` has found memory. -/
def resultParseDef (count : ℕ) (base : Bytes) : Except Fault (List DefineResult) :=
  defLoop count .begin base

/-- The loop of `dict_define`: how many definitions were received. -/
def defineLoop : ℕ → ReplyConn → ℕ × ReplyConn
  | 0, conn => (0, conn)
  | count + 1, conn =>
    let conn := (readReply conn).2
    if ¬dictStatusP conn.buf (ascii "151") then (0, conn)
    else
      let conn := multilineReply { conn with stk := conn.stk ++ conn.buf ++ [0] }
      let r := defineLoop count conn
      (r.1 + 1, r.2)

/-- `struct dict_result`, with how many items were received. -/
structure DictResult (α : Type) where
  count : ℕ
  base : Bytes
  set : List α
  received : ℕ

/-- What comes of a command. -/
inductive DictOutcome (α : Type)
  /-- The function returns 1. -/
  | refused
  /-- `xcalloc` finds no memory and ends the program. -/
  | exits
  /-- It returns 0, and there is a result. -/
  | result (res : DictResult α)

/-- The count that a status line announces. -/
def announced (buf : Bytes) : ℕ := (strtoul10 (cString (buf.drop 3))).1

/-- `dict_define`, once the command was sent. `xcalloc` is the function that
says whether there is memory for so many results. -/
def dictDefine (xcalloc : ℕ → Bool) (conn : ReplyConn) :
    Except Fault (DictOutcome DefineResult) :=
  let conn := (readReply conn).2
  if ¬dictStatusP conn.buf (ascii "150") then .ok .refused
  else
    let count := announced conn.buf
    let (received, conn) := defineLoop count conn
    let conn := (readReply conn).2
    if xcalloc count = false then .ok .exits
    else do
      let defs ← resultParseDef count conn.stk
      .ok (.result ⟨count, conn.stk, defs, received⟩)

/-! ## Matches -/

/-- The command `XLEV`, where it is sent. -/
def sendXlev (threshold : ℕ) (conn : ReplyConn) : ReplyConn :=
  if threshold ≠ 0 ∧ conn.levdist ≠ threshold ∧ ascii "xlev" ∈ conn.capav then
    let conn := (readReply conn).2
    if dictStatusP conn.buf (ascii "250") then { conn with levdist := threshold } else conn
  else conn

/-- `dict_match`. The count of the result is lowered where there are fewer
lines. -/
def dictMatch (xcalloc : ℕ → Bool) (threshold : ℕ) (conn : ReplyConn) :
    Except Fault (DictOutcome MatchResult) :=
  let conn := (readReply (sendXlev threshold conn)).2
  if ¬dictStatusP conn.buf (ascii "152") then .ok .refused
  else
    let count := announced conn.buf
    let conn := multilineReply conn
    if xcalloc count = false then .ok .exits
    else do
      let (base, mats) ← resultParseMat count conn.stk
      .ok (.result ⟨mats.length, base, mats, countLines conn.stk⟩)

/-- **The lines on the wire are read as they are here.** -/
theorem readReply_wire {L : Limits} {conn : DictConnection Bytes} {r : ReplyConn} {l : Bytes}
    {ls : List Bytes} (hst : Reading conn.str) (hl : newline ∉ l) (hmem : L.Holds (l.length + 1))
    (hr : r.lines = l :: ls)
    (hdev : conn.dev = (l :: ls).flatMap (· ++ [newline]) ++ r.tail) :
    ∃ conn', dictReadReply L wire conn = .ok (0, conn') ∧ Reading conn'.str ∧
      conn'.buf = (readReply r).2.buf ∧
      conn'.dev = (readReply r).2.lines.flatMap (· ++ [newline]) ++ (readReply r).2.tail := by
  rw [List.flatMap_cons, List.append_assoc, List.append_assoc, List.singleton_append] at hdev
  obtain ⟨conn', hread, hst', hbuf, hdev', -⟩ := dictReadReply_wire hst hl hmem hdev
  refine ⟨conn', hread, hst', ?_, ?_⟩
  · rw [hbuf, readReply, hr]
  · rw [hdev', readReply, hr]

/-! ## What is asked -/

/-- A command copes with its replies: nothing is read that was not received,
and there are not more results than were received. -/
def ReplySafe {α : Type} (r : Except Fault (DictOutcome α)) : Prop :=
  ∃ o, r = .ok o ∧ ∀ res, o = .result res → res.count ≤ res.received

/-- The status lines of the definitions, up to the first reply that is
none, and their texts. -/
def sections : ℕ → ReplyConn → List (Bytes × Bytes)
  | 0, _ => []
  | count + 1, conn =>
    let conn := (readReply conn).2
    if ¬dictStatusP conn.buf (ascii "151") then []
    else
      let next := multilineReply { conn with stk := [] }
      (conn.buf, next.stk.dropLast) :: sections count next

/-- The memory they take on the obstack. -/
def sectionsBase (secs : List (Bytes × Bytes)) : Bytes :=
  secs.flatMap fun s => s.1 ++ 0 :: s.2 ++ [0]

/-- Status lines that are tokenized within the memory that was received, and
have four tokens. -/
def Tokenized : List (Bytes × Bytes) → Prop
  | [] => True
  | s :: secs =>
    (∃ ts, lineTokens (sectionsBase (s :: secs)) = .ok ts ∧ 4 ≤ ts.length) ∧ Tokenized secs

/-- What is asked of the replies to `DEFINE`, if there are definitions in
them and memory for the results. -/
def DefinitionsTokenized (xcalloc : ℕ → Bool) (conn : ReplyConn) : Prop :=
  let conn := (readReply conn).2
  dictStatusP conn.buf (ascii "150") → xcalloc (announced conn.buf) = true →
    (sections (announced conn.buf) conn).length = announced conn.buf ∧
      Tokenized (sections (announced conn.buf) conn)

/-! ## The text of a reply -/

section Text

/-- A line that is held has no null in it. -/
theorem null_notMem_replyLine (l : Bytes) : 0 ∉ replyLine l := by
  intro h
  have hmem := (trimNl_isPrefix _).subset h
  have hne := List.mem_takeWhile_imp hmem
  simp at hne

/-- Without the dot it was stuffed with neither. -/
theorem null_notMem_unstuff {b : Bytes} (h : 0 ∉ b) : 0 ∉ unstuff b := by
  unfold unstuff
  split_ifs
  · exact fun hmem => h (List.mem_of_mem_drop hmem)
  · exact h

/-- The text of a multi-line reply: its lines, each with a newline. -/
structure ReplyText (t : Bytes) : Prop where
  null_notMem : 0 ∉ t
  lined : t = [] ∨ t.getLast? = some newline

/-- One more line. -/
theorem ReplyText.cons {t b : Bytes} (h : ReplyText t) (hb : 0 ∉ b) :
    ReplyText (b ++ newline :: t) := by
  refine ⟨?_, .inr ?_⟩
  · simp only [List.mem_append, List.mem_cons, not_or]
    exact ⟨hb, by decide, h.null_notMem⟩
  · rw [List.getLast?_append_of_ne_nil _ (List.cons_ne_nil newline t)]
    rcases h.lined with rfl | hlast
    · rfl
    · rw [List.getLast?_cons, hlast]
      rfl

/-- A connection with something else on its obstack. -/
def ReplyConn.holding (conn : ReplyConn) (a : Bytes) : ReplyConn := { conn with stk := a }

/-- Reading a line does not look at the obstack. -/
theorem readReply_holding (conn : ReplyConn) (a : Bytes) :
    readReply (conn.holding a) = ((readReply conn).1, (readReply conn).2.holding a) := by
  unfold readReply ReplyConn.holding
  dsimp only
  cases conn.lines <;> rfl

/-- And leaves it as it is. -/
theorem stk_readReply (conn : ReplyConn) : (readReply conn).2.stk = conn.stk := by
  unfold readReply
  cases conn.lines <;> rfl

/-- A line that was read, and not just what is left of one. -/
theorem buf_readReply {conn : ReplyConn} (h : (readReply conn).1 = true) :
    0 ∉ (readReply conn).2.buf := by
  unfold readReply at h ⊢
  split at h
  · cases h
  · exact null_notMem_replyLine _

/-- The loop, with something else on the obstack. -/
theorem multilineReply_holding (conn : ReplyConn) (a : Bytes) :
    multilineReply (conn.holding a) =
      if (readReply conn).1 = true then
        if (readReply conn).2.buf = [dot] then (readReply conn).2.holding (a ++ [0])
        else multilineReply ((readReply conn).2.holding
          (a ++ unstuff (readReply conn).2.buf ++ [newline]))
      else (readReply conn).2.holding (a ++ [0]) := by
  rw [multilineReply, readReply_holding]
  by_cases hread : (readReply conn).1 = true
  · rw [dif_pos hread, if_pos hread]
    rfl
  · rw [dif_neg hread, if_neg hread]
    rfl

/-- **A multi-line reply** puts its text behind what is on the obstack, with
a null, and does nothing else with it. -/
theorem multilineReply_eq (conn : ReplyConn) :
    ∃ (t : Bytes) (next : ReplyConn), ReplyText t ∧
      ∀ a, multilineReply (conn.holding a) = next.holding (a ++ t ++ [0]) := by
  induction hn : conn.lines.length using Nat.strong_induction_on generalizing conn with
  | _ n ih =>
    by_cases hread : (readReply conn).1 = true
    · by_cases hdot : (readReply conn).2.buf = [dot]
      · refine ⟨[], (readReply conn).2, ⟨List.not_mem_nil, .inl rfl⟩, fun a => ?_⟩
        rw [multilineReply_holding, if_pos hread, if_pos hdot, List.append_nil]
      · obtain ⟨t, next, ht, hall⟩ := ih _ (hn ▸ length_readReply hread) (readReply conn).2 rfl
        refine ⟨unstuff (readReply conn).2.buf ++ newline :: t, next,
          ht.cons (null_notMem_unstuff (buf_readReply hread)), fun a => ?_⟩
        rw [multilineReply_holding, if_pos hread, if_neg hdot, hall]
        simp only [List.append_assoc, List.cons_append, List.nil_append]
    · refine ⟨[], (readReply conn).2, ⟨List.not_mem_nil, .inl rfl⟩, fun a => ?_⟩
      rw [multilineReply_holding, if_neg hread, List.append_nil]

end Text

/-! ## Matches -/

section Matches

variable {l t pre : Bytes}

/-- What is behind a place in a block is not changed by a byte stored
before it. -/
theorem set_append_length (pre t : Bytes) {i : ℕ} (c : UInt8) (hi : i < pre.length) :
    ∃ pre', pre'.length = pre.length ∧ store (pre ++ t) i c = .ok (pre' ++ t) := by
  refine ⟨pre.set i c, List.length_set, ?_⟩
  rw [store, if_pos (by rw [List.length_append]; omega), List.set_append_left _ _ hi]

/-- The headword of a line stays within it. -/
theorem matchWord_line (hl : 0 ∉ l) (pre t : Bytes) :
    ∃ w pre', pre'.length = pre.length + l.length ∧
      matchWord (pre ++ (l ++ 0 :: t)) pre.length = .ok (w, pre' ++ 0 :: t) := by
  rw [matchWord, strAt_append pre hl, ok_bind]
  dsimp only
  split_ifs with hquote
  · have hne : (l.drop (strspn [space, tab] l)).length ≠ 0 := by
      intro h
      rw [List.length_eq_zero_iff.1 h] at hquote
      cases hquote.1
    have hlen : (l.drop (strspn [space, tab] l)).length = l.length - strspn [space, tab] l :=
      List.length_drop
    obtain ⟨pre', hpre', hstore⟩ := set_append_length (pre ++ l) (0 :: t)
      (i := pre.length + strspn [space, tab] l + (l.drop (strspn [space, tab] l)).length - 1) 0
      (by rw [List.length_append]; omega)
    rw [List.append_assoc] at hstore
    rw [hstore, ok_bind]
    exact ⟨_, pre', by rw [hpre', List.length_append], rfl⟩
  · exact ⟨_, pre ++ l, List.length_append, by rw [List.append_assoc]⟩

/-- Behind the last byte of a line there is no headword to take quotes
from. -/
theorem matchWord_text (ht : ReplyText t) (pre : Bytes) :
    ∃ w, matchWord (pre ++ (t ++ [0])) pre.length = .ok (w, pre ++ (t ++ [0])) := by
  rw [matchWord, strAt_append pre ht.null_notMem, ok_bind]
  dsimp only
  split_ifs with hquote
  · exfalso
    obtain ⟨hhead, hlast⟩ := hquote
    have hne : t.drop (strspn [space, tab] t) ≠ [] := by
      intro h
      rw [h] at hhead
      cases hhead
    have hsuffix : (t.drop (strspn [space, tab] t)).getLast? = t.getLast? := by
      conv_rhs => rw [← List.take_append_drop (strspn [space, tab] t) t]
      rw [List.getLast?_append_of_ne_nil _ hne]
    rcases ht.lined with rfl | h
    · rw [List.drop_nil] at hne
      exact hne rfl
    · rw [hsuffix, h] at hlast
      exact absurd hlast (by decide)
  · exact ⟨_, rfl⟩

/-- **A line of any kind is cut within the text**, and what is behind it
stays as it is. -/
theorem matchLine_text (hl : 0 ∉ l) (ht : ReplyText t) (pre : Bytes) :
    ∃ r pre', pre'.length = pre.length + l.length + 1 ∧
      matchLine (pre ++ (l ++ 0 :: (t ++ [0]))) pre.length = .ok (r, pre' ++ (t ++ [0])) := by
  rw [matchLine, strAt_append pre hl, ok_bind]
  dsimp only
  cases hblank : l.find? (· ∈ [space, tab]) with
  | some b =>
    obtain ⟨hb, a, u, rfl, ha⟩ := List.find?_eq_some_iff_append.1 hblank
    have ha : ∀ c ∈ a, c ∉ [space, tab] := fun c hc => by simpa using ha c hc
    have hb : b ∈ [space, tab] := by simpa using hb
    have hspan : strcspn [space, tab] (a ++ b :: u) = a.length := strcspn_append ha hb
    have hstore := store_append (c := 0) (pre ++ a) b (u ++ 0 :: (t ++ [0]))
    rw [List.append_assoc, List.length_append] at hstore
    have hu : 0 ∉ u := fun h => hl (List.mem_append_right _ (List.mem_cons_of_mem _ h))
    obtain ⟨w, pre', hpre', hword⟩ := matchWord_line hu (pre ++ a ++ [0]) (t ++ [0])
    have hlen : (pre ++ a ++ [0]).length = pre.length + a.length + 1 := by
      simp only [List.length_append, List.length_singleton]
    rw [hlen] at hword
    have hcut : pre ++ a ++ 0 :: (u ++ 0 :: (t ++ [0])) =
        pre ++ a ++ [0] ++ (u ++ 0 :: (t ++ [0])) := by
      simp only [List.append_assoc, List.singleton_append]
    rw [hspan, List.append_assoc, List.cons_append, hstore, ok_bind, hcut, hword, ok_bind]
    refine ⟨_, pre' ++ [0], ?_, by rw [List.append_assoc, List.singleton_append]⟩
    rw [List.length_append, hpre', hlen]
    simp only [List.length_append, List.length_cons, List.length_nil]
    omega
  | none =>
    have hspan : strcspn [space, tab] l = l.length := by
      rw [strcspn, List.takeWhile_eq_self_iff.2]
      intro b hb
      simpa using List.find?_eq_none.1 hblank b hb
    have hstore := store_append (c := 0) (pre ++ l) 0 (t ++ [0])
    rw [List.append_assoc, List.length_append] at hstore
    have hcut : pre ++ (l ++ 0 :: (t ++ [0])) = pre ++ l ++ [0] ++ (t ++ [0]) := by
      simp only [List.append_assoc, List.singleton_append]
    have hlen : (pre ++ l ++ [0]).length = pre.length + l.length + 1 := by
      simp only [List.length_append, List.length_singleton]
    obtain ⟨w, hword⟩ := matchWord_text ht (pre ++ l ++ [0])
    rw [hlen] at hword
    rw [hspan, hstore, ok_bind, hcut, hword, ok_bind]
    exact ⟨_, pre ++ l ++ [0], hlen, rfl⟩

/-- `strtok` goes over what ends a line. -/
theorem strtok_skip {c : UInt8} {delim : Bytes} (hc : c ∈ delim) (hc₀ : c ≠ 0) (ht : 0 ∈ t)
    (pre : Bytes) :
    strtok delim (pre ++ c :: t) pre.length = strtok delim (pre ++ c :: t) (pre ++ [c]).length := by
  obtain ⟨u, v, rfl, hu⟩ := List.eq_append_cons_of_mem ht
  have hcu : 0 ∉ c :: u := by
    rw [List.mem_cons, not_or]
    exact ⟨hc₀.symm, hu⟩
  have h₁ : strAt (pre ++ c :: (u ++ 0 :: v)) pre.length = .ok (c :: u) := strAt_append pre hcu v
  have h₂ : strAt (pre ++ c :: (u ++ 0 :: v)) (pre ++ [c]).length = .ok u := by
    have h := strAt_append (pre ++ [c]) hu v
    rwa [List.append_assoc, List.singleton_append] at h
  have hspan : strspn delim (c :: u) = strspn delim u + 1 := by
    rw [strspn, List.takeWhile_cons_of_pos (by rwa [decide_eq_true_iff]), List.length_cons, strspn]
  have hlen : pre.length + (strspn delim u + 1) = (pre ++ [c]).length + strspn delim u := by
    rw [List.length_append, List.length_singleton]
    omega
  rw [strtok, strtok, h₁, h₂, ok_bind, ok_bind]
  simp only [hspan, List.drop_succ_cons, hlen]

/-- A line of a reply. -/
def TextLine (l : Bytes) : Prop := ∃ body, l = body ++ [newline] ∧ newline ∉ body ∧ 0 ∉ body

/-- Lines make a text. -/
theorem replyText_flatten {ls : List Bytes} (h : ∀ l ∈ ls, TextLine l) : ReplyText ls.flatten := by
  induction ls with
  | nil => exact ⟨List.not_mem_nil, .inl rfl⟩
  | cons l ls ih =>
    obtain ⟨body, rfl, -, hbody⟩ := h l List.mem_cons_self
    have hrest := (ih fun l' hl' => h l' (List.mem_cons_of_mem _ hl')).cons hbody
    rwa [List.flatten_cons, List.append_assoc, List.singleton_append]

/-- A text is made of lines. -/
theorem ReplyText.lines (h : ReplyText t) : ∀ l ∈ Lines.lines newline t, TextLine l := by
  intro l hl
  obtain ⟨body, rfl, hbody⟩ := Lines.exists_body_of_mem_lines h.lined hl
  refine ⟨body, rfl, hbody, fun h₀ => h.null_notMem ?_⟩
  rw [← Lines.flatten_lines newline t]
  exact List.mem_flatten.2 ⟨_, hl, List.mem_append_left _ h₀⟩

/-- **Any text is parsed within its bounds**, into at most one match for
each line. -/
theorem parseMatLoop_text {ls : List Bytes} (hls : ∀ l ∈ ls, TextLine l) (count : ℕ)
    (pre : Bytes) :
    ∃ m mats, (strtok [newline] (pre ++ (ls.flatten ++ [0])) pre.length >>= fun r =>
        parseMatLoop count r.1 r.2.1 r.2.2) = .ok (m, mats) ∧ mats.length ≤ ls.length := by
  induction ls generalizing count pre with
  | nil =>
    change ∃ m mats, (strtok [newline] (pre ++ [0]) pre.length >>= _) = _ ∧ _
    rw [strtok_end, ok_bind]
    cases count <;> exact ⟨_, [], rfl, le_rfl⟩
  | cons l ls ih =>
    obtain ⟨body, rfl, hnl, hnull⟩ := hls l List.mem_cons_self
    have hrest := fun l' hl' => hls l' (List.mem_cons_of_mem _ hl')
    have htext := replyText_flatten hrest
    have hmem : (0 : UInt8) ∈ ls.flatten ++ [0] :=
      List.mem_append_right _ (List.mem_singleton.2 rfl)
    rw [List.flatten_cons, List.append_assoc, List.append_assoc, List.singleton_append]
    rcases body with - | ⟨a, s⟩
    · obtain ⟨m, mats, hrun, hle⟩ := ih hrest count (pre ++ [newline])
      rw [List.nil_append, strtok_skip List.mem_cons_self (by decide) hmem pre]
      rw [List.append_assoc, List.singleton_append] at hrun
      exact ⟨m, mats, hrun, hle.trans (Nat.le_succ _)⟩
    · have hplain : ∀ b ∈ a :: s, b ∉ [newline] :=
        fun b hb h => hnl (List.mem_singleton.1 h ▸ hb)
      have htok := strtok_append pre hplain hnull (List.mem_cons_self (a := newline)) (by decide)
        hmem
      rw [htok, ok_bind]
      rcases count with - | count
      · exact ⟨_, [], rfl, Nat.zero_le _⟩
      · obtain ⟨r, pre', hpre', hline⟩ := matchLine_text hnull htext pre
        obtain ⟨m, mats, hrun, hle⟩ := ih hrest count pre'
        obtain ⟨⟨next, m', save⟩, hnext, hmore⟩ := bind_eq_ok.1 hrun
        have hsave : (pre ++ (a :: s ++ [0])).length = pre'.length := by
          rw [hpre']
          simp only [List.length_append, List.length_singleton, Nat.add_assoc]
        refine ⟨m, r :: mats, ?_, Nat.succ_le_succ hle⟩
        simp only [parseMatLoop, hline, ok_bind, hsave, hnext, hmore]

/-- A text has as many newlines as lines. -/
theorem countLines_flatten {ls : List Bytes} (hls : ∀ l ∈ ls, TextLine l) :
    countLines (ls.flatten ++ [0]) = ls.length := by
  induction ls with
  | nil => rfl
  | cons l ls ih =>
    obtain ⟨body, rfl, hnl, -⟩ := hls l List.mem_cons_self
    have hrest := ih fun l' hl' => hls l' (List.mem_cons_of_mem _ hl')
    rw [countLines] at hrest ⊢
    rw [List.flatten_cons, List.append_assoc, List.count_append, hrest, List.count_append,
      List.count_eq_zero_of_not_mem hnl, List.count_singleton_self, List.length_cons]
    omega

/-- Before the reply to `MATCH` nothing is put on the obstack. -/
theorem stk_sendXlev (threshold : ℕ) (conn : ReplyConn) :
    (sendXlev threshold conn).stk = conn.stk := by
  unfold sendXlev
  split_ifs
  · simp only [apply_ite ReplyConn.stk, stk_readReply, ite_self]
  · rfl

/-- **`dict_match` is safe**, whatever the server sends. -/
theorem replySafe_match (xcalloc : ℕ → Bool) (threshold : ℕ) {conn : ReplyConn}
    (hstk : conn.stk = []) : ReplySafe (dictMatch xcalloc threshold conn) := by
  have hnil : (readReply (sendXlev threshold conn)).2.stk = [] := by
    rw [stk_readReply, stk_sendXlev, hstk]
  obtain ⟨t, next, ht, hall⟩ := multilineReply_eq (readReply (sendXlev threshold conn)).2
  have hself : (readReply (sendXlev threshold conn)).2 =
      (readReply (sendXlev threshold conn)).2.holding [] :=
    congrArg (readReply (sendXlev threshold conn)).2.holding hnil
  have hreply : multilineReply (readReply (sendXlev threshold conn)).2 =
      next.holding (t ++ [0]) := by
    rw [hself]
    exact hall []
  unfold dictMatch
  dsimp only
  by_cases hstatus : dictStatusP (readReply (sendXlev threshold conn)).2.buf (ascii "152")
  · rw [if_neg (not_not.2 hstatus)]
    by_cases halloc : xcalloc (announced (readReply (sendXlev threshold conn)).2.buf) = false
    · rw [if_pos halloc]
      exact ⟨_, rfl, nofun⟩
    · rw [if_neg halloc, hreply]
      obtain ⟨m, mats, hrun, hle⟩ := parseMatLoop_text ht.lines
        (announced (readReply (sendXlev threshold conn)).2.buf) []
      rw [Lines.flatten_lines] at hrun
      have hparse : resultParseMat (announced (readReply (sendXlev threshold conn)).2.buf)
          (next.holding (t ++ [0])).stk = .ok (m, mats) := hrun
      have hcount : countLines (next.holding (t ++ [0])).stk = (Lines.lines newline t).length := by
        have h := countLines_flatten ht.lines
        rwa [Lines.flatten_lines] at h
      rw [hparse, ok_bind]
      refine ⟨_, rfl, fun res hres => ?_⟩
      obtain rfl := DictOutcome.result.inj hres
      rw [hcount]
      exact hle
  · rw [if_pos hstatus]
    exact ⟨_, rfl, nofun⟩

end Matches

/-! ## The definitions that were received -/

section Sections

variable {s : Bytes × Bytes} {secs : List (Bytes × Bytes)}

/-- What the obstack holds does not matter. -/
theorem sections_holding (count : ℕ) (conn : ReplyConn) (a : Bytes) :
    sections count (conn.holding a) = sections count conn := by
  cases count with
  | zero => rfl
  | succ count =>
    rw [sections, sections, readReply_holding]
    rfl

/-- One definition more. -/
theorem sections_succ (count : ℕ) (conn : ReplyConn) :
    ∃ (t : Bytes) (next : ReplyConn), ReplyText t ∧
      (∀ a, multilineReply ((readReply conn).2.holding a) = next.holding (a ++ t ++ [0])) ∧
      (dictStatusP (readReply conn).2.buf (ascii "151") →
        sections (count + 1) conn = ((readReply conn).2.buf, t) :: sections count next) := by
  obtain ⟨t, next, ht, hall⟩ := multilineReply_eq (readReply conn).2
  refine ⟨t, next, ht, hall, fun hstatus => ?_⟩
  have hreply : multilineReply { (readReply conn).2 with stk := [] } = next.holding (t ++ [0]) :=
    hall []
  rw [sections]
  simp only [not_not.2 hstatus, if_false, hreply, sections_holding]
  rw [ReplyConn.holding, List.dropLast_concat]

/-- Another reply ends them. -/
theorem sections_stop (count : ℕ) {conn : ReplyConn}
    (h : ¬dictStatusP (readReply conn).2.buf (ascii "151")) : sections (count + 1) conn = [] :=
  if_pos h

/-- **The loop of `dict_define`** counts the definitions and collects them. -/
theorem defineLoop_eq (count : ℕ) (conn : ReplyConn) (a : Bytes) :
    ∃ next : ReplyConn, defineLoop count (conn.holding a) =
      ((sections count conn).length, next.holding (a ++ sectionsBase (sections count conn))) := by
  induction count generalizing conn a with
  | zero => exact ⟨conn, by rw [sections, sectionsBase, List.flatMap_nil, List.append_nil]; rfl⟩
  | succ count ih =>
    rw [defineLoop, readReply_holding]
    by_cases hstatus : dictStatusP (readReply conn).2.buf (ascii "151")
    · obtain ⟨t, next, -, hall, hsec⟩ := sections_succ count conn
      obtain ⟨last, hloop⟩ := ih next (a ++ (readReply conn).2.buf ++ [0] ++ t ++ [0])
      refine ⟨last, ?_⟩
      have hreply : multilineReply { (readReply conn).2.holding a with
          stk := ((readReply conn).2.holding a).stk ++
            ((readReply conn).2.holding a).buf ++ [0] } =
          next.holding (a ++ (readReply conn).2.buf ++ [0] ++ t ++ [0]) :=
        hall (a ++ (readReply conn).2.buf ++ [0])
      have hbuf : ((readReply conn).2.holding a).buf = (readReply conn).2.buf := rfl
      simp only [hbuf, not_not.2 hstatus, if_false]
      simp only [hbuf] at hreply
      rw [hreply, hloop, hsec hstatus, sectionsBase, sectionsBase, List.flatMap_cons]
      simp only [List.length_cons, List.append_assoc, List.cons_append, List.nil_append]
    · refine ⟨(readReply conn).2, ?_⟩
      have hbuf : ((readReply conn).2.holding a).buf = (readReply conn).2.buf := rfl
      simp only [hbuf, hstatus, not_false_eq_true, if_true, sections_stop count hstatus]
      rw [List.length_nil, sectionsBase, List.flatMap_nil, List.append_nil]

/-- There are not more than were asked for. -/
theorem length_sections_le (count : ℕ) (conn : ReplyConn) :
    (sections count conn).length ≤ count := by
  induction count generalizing conn with
  | zero => exact le_rfl
  | succ count ih =>
    by_cases hstatus : dictStatusP (readReply conn).2.buf (ascii "151")
    · obtain ⟨t, next, -, -, hsec⟩ := sections_succ count conn
      rw [hsec hstatus]
      exact Nat.succ_le_succ (ih next)
    · rw [sections_stop count hstatus]
      exact Nat.zero_le _

/-- Definitions as they can be received: no text has a null in it, and of
the status lines at most the last. -/
def Received : List (Bytes × Bytes) → Prop
  | [] => True
  | s :: secs => (secs ≠ [] → 0 ∉ s.1) ∧ 0 ∉ s.2 ∧ Received secs

/-- A connection that has ended. -/
def ReplyConn.Ended (conn : ReplyConn) : Prop := conn.lines = [] ∧ conn.tail = []

/-- It ends where a line is not complete. -/
theorem ended_readReply {conn : ReplyConn} (h : (readReply conn).1 = false) :
    (readReply conn).2.Ended := by
  unfold readReply at h ⊢
  split at h
  · rename_i hl
    exact ⟨hl, rfl⟩
  · cases h

/-- Then no more definitions come. -/
theorem ReplyConn.Ended.sections {conn : ReplyConn} (h : conn.Ended) (count : ℕ) :
    Dico.sections count conn = [] := by
  cases count with
  | zero => rfl
  | succ count =>
    refine sections_stop count ?_
    have hbuf : (readReply conn).2.buf = [] := by
      rw [readReply, h.1]
      exact h.2
    rw [hbuf]
    exact fun hs => absurd hs.1 (by decide)

/-- Nor a text. -/
theorem ReplyConn.Ended.multilineReply {conn : ReplyConn} (h : conn.Ended) (a : Bytes) :
    (Dico.multilineReply (conn.holding a)).Ended := by
  have hread : readReply conn = (false, { conn with buf := conn.tail, tail := [] }) := by
    rw [readReply, h.1]
  rw [multilineReply_holding, hread, if_neg Bool.false_ne_true]
  exact ⟨h.1, rfl⟩

/-- What is received is such. -/
theorem received_sections (count : ℕ) (conn : ReplyConn) : Received (sections count conn) := by
  induction count generalizing conn with
  | zero => trivial
  | succ count ih =>
    by_cases hstatus : dictStatusP (readReply conn).2.buf (ascii "151")
    · obtain ⟨t, next, ht, hall, hsec⟩ := sections_succ count conn
      rw [hsec hstatus]
      refine ⟨fun hne => ?_, ht.null_notMem, ih next⟩
      cases hread : (readReply conn).1 with
      | true => exact buf_readReply hread
      | false =>
        have hend : (next.holding ([] ++ t ++ [0])).Ended := by
          rw [← hall]
          exact (ended_readReply hread).multilineReply []
        exact absurd (@ReplyConn.Ended.sections next hend count) hne
    · rw [sections_stop count hstatus]
      trivial

end Sections

/-! ## Parsing them -/

section Parsing

variable {count : ℕ} {tb : DicoTokbuf} {p : Bytes} {defs : List DefineResult}
variable {s : Bytes × Bytes} {secs : List (Bytes × Bytes)}

/-- The memory from a definition on. -/
theorem sectionsBase_cons (s : Bytes × Bytes) (secs : List (Bytes × Bytes)) :
    sectionsBase (s :: secs) = s.1 ++ 0 :: (s.2 ++ 0 :: sectionsBase secs) := by
  rw [sectionsBase, List.flatMap_cons]
  simp only [sectionsBase, List.append_assoc, List.cons_append, List.nil_append]

/-- A string that is not yet at its end. -/
theorem strAt_of_mem {m : Bytes} (h : 0 ∈ m) :
    ∃ u v, strAt m 0 = .ok u ∧ m = u ++ 0 :: v ∧ 0 ∉ u := by
  obtain ⟨u, v, rfl, hu⟩ := List.eq_append_cons_of_mem h
  exact ⟨u, v, strAt_append [] hu v, rfl, hu⟩

/-- The two strings of a definition, and what is behind them. -/
theorem strings_section (hrec : Received (s :: secs)) :
    ∃ line defn rest, strAt (sectionsBase (s :: secs)) 0 = .ok line ∧
      strAt ((sectionsBase (s :: secs)).drop (line.length + 1)) 0 = .ok defn ∧
      ((sectionsBase (s :: secs)).drop (line.length + 1)).drop (defn.length + 1) = rest ∧
      (secs ≠ [] → rest = sectionsBase secs) := by
  have hmem : (0 : UInt8) ∈ s.2 ++ 0 :: sectionsBase secs :=
    List.mem_append_right _ List.mem_cons_self
  rw [sectionsBase_cons]
  obtain ⟨line, v, hline, hsplit, hnull⟩ := strAt_of_mem
    (show (0 : UInt8) ∈ s.1 ++ 0 :: (s.2 ++ 0 :: sectionsBase secs) from
      List.mem_append_right _ List.mem_cons_self)
  have hdrop : (s.1 ++ 0 :: (s.2 ++ 0 :: sectionsBase secs)).drop (line.length + 1) = v := by
    rw [hsplit, drop_place]
  -- the text of the definition ends in a null, wherever the line ended
  have hv : (0 : UInt8) ∈ v ∧ (secs ≠ [] → v = s.2 ++ 0 :: sectionsBase secs) := by
    obtain ⟨w, hw, hrest⟩ := place_behind hnull hsplit.symm
    constructor
    · rcases w with - | ⟨b, w⟩
      · rw [(List.cons.inj hrest).2]
        exact hmem
      · rw [List.cons_append, List.cons.injEq] at hrest
        rw [hrest.2]
        exact List.mem_append_right _ List.mem_cons_self
    · intro hne
      exact (place_unique (hrec.1 hne) hnull hsplit).2.symm
  obtain ⟨defn, r, hdefn, hv', hnull'⟩ := strAt_of_mem hv.1
  refine ⟨line, defn, r, hline, by rw [hdrop, hdefn], by rw [hdrop, hv', drop_place], ?_⟩
  intro hne
  exact (place_unique hrec.2.1 hnull' ((hv.2 hne).symm.trans hv')).2.symm

/-- One definition, and the rest of them with the buffer it leaves. -/
theorem defLoop_succ :
    defLoop (count + 1) tb p = .ok defs ↔
      ∃ tb' ts word database descr line defn more,
        xdicoTokenizeString tb p = .ok tb' ∧ lineTokens p = .ok ts ∧ ts[1]? = some word ∧
        ts[2]? = some database ∧ ts[3]? = some descr ∧ strAt p 0 = .ok line ∧
        strAt (p.drop (line.length + 1)) 0 = .ok defn ∧
        defLoop count tb' ((p.drop (line.length + 1)).drop (defn.length + 1)) = .ok more ∧
        defs = ⟨word, database, descr, defn, countLines defn⟩ :: more := by
  rw [defLoop]
  constructor
  · intro h
    obtain ⟨tb', hrun, h⟩ := bind_eq_ok.1 h
    obtain ⟨word, hword, h⟩ := bind_eq_ok.1 h
    obtain ⟨database, hdatabase, h⟩ := bind_eq_ok.1 h
    obtain ⟨descr, hdescr, h⟩ := bind_eq_ok.1 h
    obtain ⟨line, hline, h⟩ := bind_eq_ok.1 h
    obtain ⟨defn, hdefn, h⟩ := bind_eq_ok.1 h
    obtain ⟨more, hmore, h⟩ := bind_eq_ok.1 h
    obtain ⟨ts, hwords, hts⟩ := words_of_xdico hrun
    exact ⟨tb', ts, word, database, descr, line, defn, more, hrun, hts,
      (token_eq_ok hwords).1 hword, (token_eq_ok hwords).1 hdatabase,
      (token_eq_ok hwords).1 hdescr, hline, hdefn, hmore, (Except.ok.inj h).symm⟩
  · rintro ⟨tb', ts, word, database, descr, line, defn, more, hrun, hts, hword, hdatabase, hdescr,
      hline, hdefn, hmore, rfl⟩
    obtain ⟨ts', hwords, hts'⟩ := words_of_xdico hrun
    obtain rfl := Except.ok.inj (hts'.symm.trans hts)
    rw [hrun, ok_bind, (token_eq_ok hwords).2 hword, ok_bind, (token_eq_ok hwords).2 hdatabase,
      ok_bind, (token_eq_ok hwords).2 hdescr, ok_bind, hline, ok_bind]
    dsimp only
    rw [hdefn, ok_bind, hmore, ok_bind]

/-- **The lines before do not matter.** -/
theorem defLoop_any (tb' : DicoTokbuf) (h : defLoop count tb p = .ok defs) :
    defLoop count tb' p = .ok defs := by
  induction count generalizing tb tb' p defs with
  | zero => exact h
  | succ count ih =>
    obtain ⟨tb₁, ts, word, database, descr, line, defn, more, -, hts, hword, hdatabase, hdescr,
      hline, hdefn, hmore, hdefs⟩ := defLoop_succ.1 h
    obtain ⟨tb₂, hrun, -⟩ := (xdico_words_iff tb').2 hts
    exact defLoop_succ.2 ⟨tb₂, ts, word, database, descr, line, defn, more, hrun, hts, hword,
      hdatabase, hdescr, hline, hdefn, ih tb₂ hmore, hdefs⟩

/-- **Definitions are parsed** exactly where they are tokenized. -/
theorem defLoop_tokenized (hrec : Received secs) :
    (∃ defs, defLoop secs.length tb (sectionsBase secs) = .ok defs) ↔ Tokenized secs := by
  induction secs generalizing tb with
  | nil => exact iff_of_true ⟨[], rfl⟩ trivial
  | cons s secs ih =>
    obtain ⟨line, defn, rest, hline, hdefn, hdrop, hrest⟩ := strings_section hrec
    have hmore : ∀ tb',
        defLoop secs.length tb' rest = defLoop secs.length tb' (sectionsBase secs) := by
      intro tb'
      by_cases hne : secs = []
      · rw [hne]
        rfl
      · rw [hrest hne]
    constructor
    · rintro ⟨defs, h⟩
      obtain ⟨tb', ts, word, database, descr, line', defn', more, -, hts, -, -, hdescr, hline',
        hdefn', hrun, -⟩ := defLoop_succ.1 h
      obtain rfl := Except.ok.inj (hline.symm.trans hline')
      obtain rfl := Except.ok.inj (hdefn.symm.trans hdefn')
      rw [hdrop, hmore] at hrun
      exact ⟨⟨ts, hts, (List.getElem?_eq_some_iff.1 hdescr).1⟩, (ih hrec.2.2).1 ⟨more, hrun⟩⟩
    · rintro ⟨⟨ts, hts, hlen⟩, hsecs⟩
      obtain ⟨tb', hrun, -⟩ := (xdico_words_iff tb).2 hts
      obtain ⟨more, hdefs⟩ := (@ih tb' hrec.2.2).2 hsecs
      refine ⟨_, defLoop_succ.2 ⟨tb', ts, ts[1], ts[2], ts[3], line, defn, more, hrun, hts,
        List.getElem?_eq_getElem _, List.getElem?_eq_getElem _, List.getElem?_eq_getElem _, hline,
        hdefn, ?_, rfl⟩⟩
      rw [hdrop, hmore]
      exact hdefs

end Parsing

/-! ## Every reply -/

/-- **`dict_define` is safe exactly where the definitions are tokenized.** -/
theorem replySafe_define (xcalloc : ℕ → Bool) {conn : ReplyConn} (hstk : conn.stk = []) :
    ReplySafe (dictDefine xcalloc conn) ↔ DefinitionsTokenized xcalloc conn := by
  have hself : (readReply conn).2 = (readReply conn).2.holding [] :=
    congrArg (readReply conn).2.holding ((stk_readReply conn).trans hstk)
  unfold dictDefine DefinitionsTokenized
  dsimp only
  by_cases hstatus : dictStatusP (readReply conn).2.buf (ascii "150")
  swap
  · rw [if_pos hstatus]
    exact iff_of_true ⟨_, rfl, nofun⟩ fun h => absurd h hstatus
  rw [if_neg (not_not.2 hstatus), forall_prop_of_true hstatus]
  generalize announced (readReply conn).2.buf = count
  cases halloc : xcalloc count with
  | false =>
    rw [if_pos rfl]
    exact iff_of_true ⟨_, rfl, nofun⟩ nofun
  | true =>
    rw [if_neg (by decide), forall_prop_of_true rfl]
    obtain ⟨next, hloop⟩ := defineLoop_eq count (readReply conn).2 []
    rw [← hself, List.nil_append] at hloop
    have hbase : (readReply (next.holding
        (sectionsBase (sections count (readReply conn).2)))).2.stk =
          sectionsBase (sections count (readReply conn).2) := stk_readReply _
    have hparse := @defLoop_tokenized .begin _ (received_sections count (readReply conn).2)
    have hle := length_sections_le count (readReply conn).2
    rw [hloop]
    simp only [hbase, resultParseDef]
    constructor
    · rintro ⟨o, ho, hcount⟩
      obtain ⟨defs, hdefs, ho⟩ := bind_eq_ok.1 ho
      have hge := hcount _ (Except.ok.inj ho).symm
      have hlen : (sections count (readReply conn).2).length = count := le_antisymm hle hge
      rw [hlen] at hparse
      exact ⟨hlen, hparse.1 ⟨defs, hdefs⟩⟩
    · rintro ⟨hlen, hheld⟩
      rw [hlen] at hparse
      obtain ⟨defs, hdefs⟩ := hparse.2 hheld
      rw [hdefs, ok_bind]
      refine ⟨_, rfl, fun res hres => ?_⟩
      obtain rfl := DictOutcome.result.inj hres
      exact hlen.ge

/-- A connection on which some replies will come. -/
def replies (lines : List Bytes) (tail : Bytes) (capav : List Bytes) (levdist : ℕ) : ReplyConn :=
  { lines := lines, tail := tail, capav := capav, levdist := levdist }

/-- **The client copes with replies of any kind** to `DEFINE` and to `MATCH`
exactly where as many definitions came as were announced and the line of
each has four tokens: `dict_match` always does. -/
theorem replies_iff (xcalloc : ℕ → Bool) (threshold levdist : ℕ) (capav lines lines' : List Bytes)
    (tail tail' : Bytes) :
    ReplySafe (dictDefine xcalloc (replies lines tail capav levdist)) ∧
        ReplySafe (dictMatch xcalloc threshold (replies lines' tail' capav levdist)) ↔
      DefinitionsTokenized xcalloc (replies lines tail capav levdist) := by
  rw [and_iff_left (replySafe_match xcalloc threshold rfl)]
  exact replySafe_define xcalloc rfl

/-- A definition is announced and does not come: it is looked for where
nothing was received. -/
theorem dictDefine_announced :
    dictDefine (fun _ => true) (replies [ascii "150 1 definitions", ascii "420 closing"] [] [] 0) =
        .error .bounds ∧
      ¬ReplySafe (dictDefine (fun _ => true)
        (replies [ascii "150 1 definitions", ascii "420 closing"] [] [] 0)) := by
  have hstatus : dictStatusP (replyLine (ascii "150 1 definitions")) (ascii "150") := by decide
  have hstop : ¬dictStatusP (replyLine (ascii "420 closing")) (ascii "151") := by decide
  have hone : announced (replyLine (ascii "150 1 definitions")) = 1 := by decide
  have hfault : dictDefine (fun _ => true)
      (replies [ascii "150 1 definitions", ascii "420 closing"] [] [] 0) = .error .bounds := by
    simp only [dictDefine, replies, readReply, hstatus, not_true, if_false, hone, defineLoop,
      hstop, not_false_eq_true, if_true]
    rfl
  refine ⟨hfault, ?_⟩
  rintro ⟨o, ho, -⟩
  rw [hfault] at ho
  cases ho

end Dico
