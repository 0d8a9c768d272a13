import Dico.Reply.Client
import Dico.Session.Lookup
import Dico.Text.Cstr
import Dico.Text.Tokenize
/-!
# The client reads matches

`_result_parse_mat` of `dico/connect.c` cuts the text of a reply into lines
with `strtok` and a line into a name and a headword, and leaves both in the
block they came in. `parseMatLoop_lines` follows the block and the pointers
through the loop; the strings they lead to are the pairs that
`print_matches` wrote (`matches_roundTrip`).
-/

namespace Dico

/-- `struct match_result`, two pointers into the text of the reply. -/
structure MatchResult where
  database : ℕ
  word : ℕ
  deriving DecidableEq

/-- The headword of a line, without the quotes around it. -/
def matchWord (m : Bytes) (p : ℕ) : Except Fault (ℕ × Bytes) := do
  let s ← strAt m p
  let p := p + strspn [space, tab] s
  let s := s.drop (strspn [space, tab] s)
  if s.head? = some doubleQuote ∧ s.getLast? = some doubleQuote then
    let m ← store m (p + s.length - 1) 0
    .ok (p + 1, m)
  else .ok (p, m)

/-- One line of the reply. -/
def matchLine (m : Bytes) (p : ℕ) : Except Fault (MatchResult × Bytes) := do
  let s ← strAt m p
  let len := strcspn [space, tab] s
  let m ← store m (p + len) 0
  let (word, m) ← matchWord m (p + len + 1)
  .ok (⟨p, word⟩, m)

/-- The loop of `_result_parse_mat`: the block it leaves, and as many
results as there were lines. -/
def parseMatLoop : ℕ → Option ℕ → Bytes → ℕ → Except Fault (Bytes × List MatchResult)
  | 0, _, m, _ => .ok (m, [])
  | _ + 1, none, m, _ => .ok (m, [])
  | count + 1, some p, m, save => do
    let (mat, m) ← matchLine m p
    let (next, m, save) ← strtok [newline] m save
    let (m, mats) ← parseMatLoop count next m save
    .ok (m, mat :: mats)

/-- `_result_parse_mat`. -/
def resultParseMat (count : ℕ) (base : Bytes) : Except Fault (Bytes × List MatchResult) := do
  let (p, m, save) ← strtok [newline] base 0
  parseMatLoop count p m save

/-- The line of a match. -/
def matchText (name word : Bytes) : Bytes := name ++ ascii " \"" ++ word ++ ascii "\"\n"

/-- What a reply puts into the output stream. -/
def putText : Reply → Bytes
  | [] => []
  | .put text :: r => text ++ putText r
  | _ :: r => putText r

/-- A match as the server sends it. -/
structure Match where
  name : Bytes
  word : Bytes
  name_ne_nil : name ≠ []
  name_plain : ∀ b ∈ name, b ≠ 0 ∧ b ≠ newline ∧ ¬ isWs b
  word_plain : ∀ b ∈ word, b ≠ 0 ∧ b ≠ newline ∧ b ≠ carriageReturn

namespace Match

variable (x : Match)

/-- Its line, without the newline. -/
def line : Bytes := x.name ++ space :: doubleQuote :: (x.word ++ [doubleQuote])

/-- The text of some matches. -/
def text (ms : List Match) : Bytes := ms.flatMap fun x => matchText x.name x.word

/-- The line after it was read. -/
def cut : Bytes := x.name ++ 0 :: doubleQuote :: (x.word ++ [0])

/-- The pointers into some lines, the first of them at `off`. -/
def pointers : ℕ → List Match → List MatchResult
  | _, [] => []
  | off, x :: ms => ⟨off, off + x.name.length + 2⟩ :: pointers (off + x.line.length + 1) ms

/-- What the pointers lead to. -/
def strings (m : Bytes) (r : MatchResult) : Except Fault (Bytes × Bytes) := do
  let database ← strAt m r.database
  let word ← strAt m r.word
  .ok (database, word)

end Match

section Lines

variable {x : Match} {ms : List Match}

/-- The name of a match. -/
theorem null_notMem_name (x : Match) : 0 ∉ x.name := fun h => (x.name_plain 0 h).1 rfl

/-- The word of a match. -/
theorem null_notMem_word (x : Match) : 0 ∉ x.word := fun h => (x.word_plain 0 h).1 rfl

/-- The line of a match, byte by byte. -/
theorem matchText_eq (x : Match) : matchText x.name x.word = x.line ++ [newline] := by
  rw [matchText, show ascii " \"" = [space, doubleQuote] by decide,
    show ascii "\"\n" = [doubleQuote, newline] by decide, Match.line]
  simp only [List.append_assoc, List.cons_append, List.nil_append]

/-- The bytes of a line. -/
theorem line_plain (x : Match) : ∀ b ∈ x.line, b ≠ 0 ∧ b ≠ newline := by
  intro b hb
  simp only [Match.line, List.mem_append, List.mem_cons, List.not_mem_nil, or_false] at hb
  rcases hb with h | rfl | rfl | h | rfl
  · exact ⟨(x.name_plain b h).1, (x.name_plain b h).2.1⟩
  · decide
  · decide
  · exact ⟨(x.word_plain b h).1, (x.word_plain b h).2.1⟩
  · decide

/-- The word behind the name. -/
theorem matchWord_cut (pre t : Bytes) (x : Match) :
    matchWord (pre ++ (doubleQuote :: (x.word ++ [doubleQuote]) ++ 0 :: t)) pre.length =
      .ok (pre.length + 1, pre ++ (doubleQuote :: (x.word ++ [0]) ++ 0 :: t)) := by
  have hnull : 0 ∉ doubleQuote :: (x.word ++ [doubleQuote]) := by
    intro h
    rcases List.mem_cons.1 h with h | h
    · exact absurd h (by decide)
    · rcases List.mem_append.1 h with h | h
      · exact null_notMem_word x h
      · exact absurd (List.mem_singleton.1 h) (by decide)
  have hspan : strspn [space, tab] (doubleQuote :: (x.word ++ [doubleQuote])) = 0 :=
    strspn_cons (by decide)
  have hquote : (doubleQuote :: (x.word ++ [doubleQuote])).head? = some doubleQuote ∧
      (doubleQuote :: (x.word ++ [doubleQuote])).getLast? = some doubleQuote :=
    ⟨rfl, by rw [← List.cons_append, List.getLast?_concat]⟩
  have hstore : store (pre ++ (doubleQuote :: (x.word ++ [doubleQuote]) ++ 0 :: t))
      (pre.length + (doubleQuote :: (x.word ++ [doubleQuote])).length - 1) 0 =
        .ok (pre ++ (doubleQuote :: (x.word ++ [0]) ++ 0 :: t)) := by
    have hat := store_append (c := 0) (pre ++ doubleQuote :: x.word) doubleQuote (0 :: t)
    have hlen : pre.length + (doubleQuote :: (x.word ++ [doubleQuote])).length - 1 =
        (pre ++ doubleQuote :: x.word).length := by
      simp only [List.length_append, List.length_cons, List.length_nil]
      omega
    rw [hlen]
    simpa only [List.append_assoc, List.cons_append, List.nil_append] using hat
  rw [matchWord, strAt_append pre hnull, ok_bind]
  simp only [hspan, Nat.add_zero, List.drop_zero, if_pos hquote, hstore, ok_bind]

/-- One line is cut in place. -/
theorem matchLine_line (pre t : Bytes) (x : Match) :
    matchLine (pre ++ (x.line ++ 0 :: t)) pre.length =
      .ok (⟨pre.length, pre.length + x.name.length + 2⟩, pre ++ (x.cut ++ 0 :: t)) := by
  have hstr : strAt (pre ++ (x.line ++ 0 :: t)) pre.length = .ok x.line :=
    strAt_append pre (fun h => (line_plain x 0 h).1 rfl) t
  have hname : ∀ b ∈ x.name, b ∉ [space, tab] := by
    intro b hb hmem
    exact (x.name_plain b hb).2.2 (by simpa [isWs] using hmem)
  have hspan : strcspn [space, tab] x.line = x.name.length := strcspn_append hname (by decide)
  have hstore : store (pre ++ (x.line ++ 0 :: t)) (pre.length + x.name.length) 0 =
      .ok ((pre ++ (x.name ++ [0])) ++ (doubleQuote :: (x.word ++ [doubleQuote]) ++ 0 :: t)) := by
    have hat := store_append (c := 0) (pre ++ x.name) space
      (doubleQuote :: (x.word ++ [doubleQuote]) ++ 0 :: t)
    rw [List.length_append] at hat
    simpa only [Match.line, List.append_assoc, List.cons_append, List.nil_append] using hat
  have hword := matchWord_cut (pre ++ (x.name ++ [0])) t x
  have hlen : (pre ++ (x.name ++ [0])).length = pre.length + x.name.length + 1 := by
    simp only [List.length_append, List.length_singleton, Nat.add_assoc]
  rw [hlen] at hword
  rw [matchLine, hstr, ok_bind]
  simp only [hspan, hstore, hword, ok_bind]
  simp only [Match.cut, List.append_assoc, List.cons_append, List.nil_append]

/-- A name has a first byte. -/
theorem line_eq_cons (x : Match) : ∃ a s, x.line = a :: s := by
  obtain ⟨a, s, h⟩ := List.exists_cons_of_ne_nil x.name_ne_nil
  exact ⟨a, _, by rw [Match.line, h, List.cons_append]⟩

/-- `strtok` cuts off a line. -/
theorem strtok_line (pre t : Bytes) (x : Match) (ht : 0 ∈ t) :
    strtok [newline] (pre ++ (x.line ++ newline :: t)) pre.length =
      .ok (some pre.length, pre ++ (x.line ++ 0 :: t), (pre ++ (x.line ++ [0])).length) := by
  have hplain := line_plain x
  obtain ⟨a, s, hline⟩ := line_eq_cons x
  rw [hline] at hplain ⊢
  exact strtok_append pre (fun b hb hmem => (hplain b hb).2 (List.mem_singleton.1 hmem))
    (fun h => (hplain 0 h).1 rfl) List.mem_cons_self (by decide) ht

/-- A line that was cut takes the bytes it took before. -/
theorem length_cut (x : Match) : x.cut.length = x.line.length := by
  simp only [Match.cut, Match.line, List.length_append, List.length_cons, List.length_nil]

/-- **The block and the pointers**, line after line. -/
theorem parseMatLoop_lines (pre : Bytes) (ms : List Match) :
    (strtok [newline] (pre ++ (Match.text ms ++ [0])) pre.length >>= fun r =>
        parseMatLoop ms.length r.1 r.2.1 r.2.2) =
      .ok (pre ++ ((ms.flatMap fun x => x.cut ++ [0]) ++ [0]), Match.pointers pre.length ms) := by
  induction ms generalizing pre with
  | nil =>
    change (strtok [newline] (pre ++ [0]) pre.length >>= _) = _
    rw [strtok_end, ok_bind]
    rfl
  | cons x ms ih =>
    have htext : Match.text (x :: ms) ++ [0] = x.line ++ newline :: (Match.text ms ++ [0]) := by
      rw [Match.text, List.flatMap_cons, ← Match.text, matchText_eq]
      simp only [List.append_assoc, List.cons_append, List.nil_append]
    have hmem : (0 : UInt8) ∈ Match.text ms ++ [0] :=
      List.mem_append_right _ (List.mem_singleton.2 rfl)
    have hlen : (pre ++ (x.line ++ [0])).length = (pre ++ (x.cut ++ [0])).length := by
      simp only [List.length_append, length_cut]
    have hnext := ih (pre ++ (x.cut ++ [0]))
    have hoff : (pre ++ (x.cut ++ [0])).length = pre.length + x.line.length + 1 := by
      rw [← hlen]
      simp only [List.length_append, List.length_singleton, Nat.add_assoc]
    obtain ⟨⟨next, m, save⟩, htok, hmore⟩ := bind_eq_ok.1 hnext
    have hblock : pre ++ (x.cut ++ 0 :: (Match.text ms ++ [0])) =
        (pre ++ (x.cut ++ [0])) ++ (Match.text ms ++ [0]) := by
      simp only [List.append_assoc, List.cons_append, List.nil_append]
    rw [htext, strtok_line pre _ x hmem, ok_bind, List.length_cons, hlen, parseMatLoop,
      matchLine_line, ok_bind, hblock]
    simp only [htok, hmore, ok_bind]
    rw [Match.pointers, hoff, List.flatMap_cons]
    simp only [List.append_assoc]

/-- The pointers into a line that was cut lead to its name and its word. -/
theorem strings_cut (pre t : Bytes) (x : Match) :
    Match.strings (pre ++ (x.cut ++ t)) ⟨pre.length, pre.length + x.name.length + 2⟩ =
      .ok (x.name, x.word) := by
  have hname := strAt_append pre (null_notMem_name x) (doubleQuote :: (x.word ++ 0 :: t))
  have hword := strAt_append (pre ++ (x.name ++ [0, doubleQuote])) (null_notMem_word x) t
  have hlen : (pre ++ (x.name ++ [0, doubleQuote])).length = pre.length + x.name.length + 2 := by
    simp only [List.length_append, List.length_cons, List.length_nil, Nat.add_assoc]
  rw [hlen] at hword
  simp only [List.append_assoc, List.cons_append, List.nil_append] at hword
  rw [Match.strings, Match.cut]
  simp only [List.append_assoc, List.cons_append, List.nil_append]
  rw [hname, ok_bind, hword, ok_bind]

/-- The pointers lead to the names and the words. -/
theorem map_strings (pre : Bytes) (ms : List Match) :
    (Match.pointers pre.length ms).map
        (Match.strings (pre ++ ((ms.flatMap fun x => x.cut ++ [0]) ++ [0]))) =
      ms.map fun x => .ok (x.name, x.word) := by
  induction ms generalizing pre with
  | nil => rfl
  | cons x ms ih =>
    have hnext := ih (pre ++ (x.cut ++ [0]))
    have hoff : (pre ++ (x.cut ++ [0])).length = pre.length + x.line.length + 1 := by
      simp only [List.length_append, length_cut, List.length_singleton, Nat.add_assoc]
    rw [hoff] at hnext
    rw [Match.pointers, List.map_cons, List.map_cons, List.flatMap_cons]
    simp only [List.append_assoc] at hnext ⊢
    rw [hnext, strings_cut]

end Lines

/-- The lines `print_matches` puts into the output stream. -/
theorem putText_printMatches (db : Database) (res : DbResult) :
    putText (printMatches db res) =
      (List.range res.count).flatMap fun i => matchText db.name (res.output i) := by
  rw [printMatches]
  induction List.range res.count with
  | nil => rfl
  | cons i l ih =>
    rw [List.flatMap_cons, List.flatMap_cons, ← ih, matchText]
    simp only [List.cons_append, List.nil_append, putText, List.append_assoc]

/-- **Matches come back.** The lines that `print_matches` puts into the
output stream are parsed into the pairs they were made of. -/
theorem matches_roundTrip :
    (∀ db res, putText (printMatches db res) =
      (List.range res.count).flatMap fun i => matchText db.name (res.output i)) ∧
    ∀ ms : List Match, ∃ m mats,
      resultParseMat ms.length (Match.text ms ++ [0]) = .ok (m, mats) ∧
      mats.map (Match.strings m) = ms.map fun x => .ok (x.name, x.word) := by
  refine ⟨putText_printMatches, fun ms => ⟨_, _, parseMatLoop_lines [] ms, ?_⟩⟩
  exact map_strings [] ms

end Dico
