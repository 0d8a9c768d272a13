import Dico.Reply.Channel
import Dico.Reply.Matches
/-!
# Calls that are one reply

`AnswersWith r a` says that the calls `r` put one reply on the wire, the reply
`a`, whatever the connection is and whatever comes behind it. There is a
lemma for each of the ways the commands reply: a line; a text, with the
output stream closed before its end or only behind the last line;
definitions.
-/

namespace Dico

open DicoStream Lines

/-! ## Replies -/

/-- **The calls are a reply on the wire.** -/
def AnswersWith (L : Limits) (P : Printing) (block : Bytes) (lone : Bool) (r : Reply) (a : Answer) :
    Prop := ∃ w, Sends L P block r w ∧ Frames lone w a

/-- The calls print a text. -/
def Printed (P : Printing) (body : Reply) (text : Bytes) : Prop :=
  ∃ ps, putsOf P body = .ok ps ∧ written ps = text

section Bodies

variable {P : Printing} {body body' : Reply} {text text' : Bytes} {ps qs : List Put}

theorem written_append (ps qs : List Put) : written (ps ++ qs) = written ps ++ written qs :=
  List.flatMap_append

theorem putsOf_append (hps : putsOf P body = .ok ps) (hqs : putsOf P body' = .ok qs) :
    putsOf P (body ++ body') = .ok (ps ++ qs) := by
  induction body generalizing ps with
  | nil =>
    obtain rfl := Except.ok.inj hps
    exact hqs
  | cons out body ih =>
    cases out with
    | put t =>
      obtain ⟨ps', hps', h⟩ := bind_eq_ok.1 hps
      obtain rfl := Except.ok.inj h
      rw [List.cons_append, putsOf, ih hps', ok_bind, List.append_assoc]
    | multiline t =>
      obtain ⟨lines, hlines, h⟩ := bind_eq_ok.1 hps
      obtain ⟨ps', hps', h⟩ := bind_eq_ok.1 h
      obtain rfl := Except.ok.inj h
      rw [List.cons_append, putsOf, hlines, ok_bind, ih hps', ok_bind, List.append_assoc]
    | write t => cases hps
    | writeln t => cases hps
    | ostreamCreate headers => cases hps
    | ostreamClose => cases hps

theorem Printed.append (h : Printed P body text) (h' : Printed P body' text') :
    Printed P (body ++ body') (text ++ text') := by
  obtain ⟨ps, hps, rfl⟩ := h
  obtain ⟨qs, hqs, rfl⟩ := h'
  exact ⟨ps ++ qs, putsOf_append hps hqs, written_append ps qs⟩

/-- Texts that are put. -/
theorem printed_puts (h : ∀ out ∈ body, ∃ t, out = .put t) : Printed P body (putText body) := by
  induction body with
  | nil => exact ⟨[], rfl, rfl⟩
  | cons out body ih =>
    rw [List.forall_mem_cons] at h
    obtain ⟨⟨t, rfl⟩, h⟩ := h
    obtain ⟨ps, hps, htext⟩ := ih h
    refine ⟨P.cut t ++ ps, ?_, ?_⟩
    · rw [putsOf, hps, ok_bind]
    · rw [written_append, P.written_cut, htext, putText]

/-- A text that is written line by line. -/
theorem printed_multiline {lines : List Bytes} (h : P.lines text = .ok lines) :
    Printed P [.multiline text] (lines.flatMap (· ++ [newline])) := by
  refine ⟨(lines.flatMap fun line => [.write line, .write [newline]]) ++ [], ?_, ?_⟩
  · rw [putsOf, h, ok_bind]
    rfl
  · rw [List.append_nil, written, List.flatMap_assoc]
    rfl

/-- Texts that end a line, one after another. -/
theorem EndsLine.append (h : EndsLine text) (h' : EndsLine text') : EndsLine (text ++ text') := by
  rcases h' with rfl | h'
  · rwa [List.append_nil]
  · refine .inr ?_
    rwa [List.getLast?_append_of_ne_nil]
    rintro rfl
    cases h'

/-- A text behind which a line ends. -/
theorem endsLine_concat (text : Bytes) : EndsLine (text ++ [newline]) :=
  .inr List.getLast?_concat

theorem endsLine_flatMap {α : Type} {f : α → Bytes} {as : List α}
    (h : ∀ a ∈ as, EndsLine (f a)) : EndsLine (as.flatMap f) := by
  induction as with
  | nil => exact .inl rfl
  | cons a as ih =>
    rw [List.forall_mem_cons] at h
    exact h.1.append (ih h.2)

theorem putText_append (r r' : Reply) : putText (r ++ r') = putText r ++ putText r' := by
  induction r with
  | nil => rfl
  | cons out r ih =>
    cases out <;> simp only [List.cons_append, putText, ih, List.append_assoc]

theorem putText_flatMap {α : Type} (f : α → Reply) (as : List α) :
    putText (as.flatMap f) = as.flatMap fun a => putText (f a) := by
  induction as with
  | nil => rfl
  | cons a as ih => rw [List.flatMap_cons, putText_append, ih, List.flatMap_cons]

end Bodies

section Kinds

variable {L : Limits} {P : Printing} {block : Bytes} {r body tail : Reply} {ps : List Put}
  {line last text : Bytes} {lone : Bool}

/-- A reply of one line. -/
theorem answers_status (h : directText r = some line) (hl : IsLine line)
    (hcode : lone = true ∨ line.take 3 ≠ definitionsCode ∧ line.take 3 ∉ textCodes) :
    AnswersWith L P block lone r (.status line) :=
  ⟨line, sends_direct h, frames_status hl hcode⟩

/-- The marks of a text that ends a line. -/
theorem textMarks_marks (size : ℕ) (ps : List Put) (hend : EndsLine (written ps)) :
    TextMarks (marks size 0 ps) where
  lineMarked := lineMarked_marks size ps fun _ => rfl
  endsLine := by rwa [map_snd_marks]

/-- A reply with a text, the stream closed before the text ends. -/
theorem answers_text (hblock : 0 < block.length) (hl : IsLine line)
    (hcode : line.take 3 ∈ textCodes) (hps : putsOf P body = .ok ps)
    (hend : EndsLine (written ps)) (htail : directText tail = some (dot :: newline :: last))
    (hlast : IsLine last) :
    AnswersWith L P block false
      (.write line :: .ostreamCreate none :: (body ++ .ostreamClose :: tail))
      (.listing line (textLines (marks block.length 0 ps)) last) := by
  refine ⟨_, ?_, frames_listing hl hcode (textMarks_marks block.length ps hend) hlast⟩
  have hhead : Sends L P block [.write line] line := sends_direct (by
    rw [directText, directText, Option.map_some, List.append_nil])
  have hstream := sends_stream (L := L) hblock [] [] rfl hps rfl (.inl rfl)
    none
  rw [List.nil_append, List.append_nil] at hstream
  have := (hhead.append hstream).append (sends_direct htail)
  simp only [List.nil_append, List.append_assoc, List.cons_append] at this ⊢
  exact this

/-- A line written to the connection, and marks behind it. -/
theorem textMarks_behind {b : Bytes} {M : List (Bool × UInt8)} (hb : IsLine b)
    (hM : TextMarks M) :
    TextMarks (markChunk b ++ M) := by
  obtain ⟨body, rfl, hbody⟩ := hb
  refine ⟨?_, ?_⟩
  · cases body with
    | nil => exact ⟨fun _ => rfl, hM.lineMarked⟩
    | cons c u =>
      rw [List.mem_cons, not_or] at hbody
      have hc : (c == newline) = false := beq_eq_false_iff_ne.2 (Ne.symm hbody.1)
      have hu : newline ∉ (u.map (false, ·)).map Prod.snd := by
        rw [List.map_map]
        simpa only [Function.comp_def, List.map_id'] using hbody.2
      rw [List.cons_append, markChunk, List.map_append, List.map_singleton, List.cons_append,
        List.append_assoc, LineMarked, hc]
      exact ⟨fun _ => rfl, (lineMarked_false_append _ _ hu).2 hM.lineMarked⟩
  · rw [List.map_append, map_snd_markChunk]
    exact (endsLine_concat body).append hM.endsLine

/-- A text whose first line the command writes to the connection itself,
with the stream open. -/
theorem answers_text_behind {before : Reply} {b : Bytes} (hblock : 0 < block.length)
    (hl : IsLine line) (hcode : line.take 3 ∈ textCodes) (hbefore : directText before = some b)
    (hb : IsLine b) (hdot : b.head? ≠ some dot) (hps : putsOf P body = .ok ps)
    (hend : EndsLine (written ps)) (htail : directText tail = some (dot :: newline :: last))
    (hlast : IsLine last) :
    AnswersWith L P block false
      (.write line :: .ostreamCreate none :: (before ++ (body ++ .ostreamClose :: tail)))
      (.listing line (textLines (markChunk b ++ marks block.length 0 ps)) last) := by
  refine ⟨_, ?_, frames_listing hl hcode
    (textMarks_behind hb (textMarks_marks block.length ps hend)) hlast⟩
  have hhead : Sends L P block [.write line] line := sends_direct (by
    rw [directText, directText, Option.map_some, List.append_nil])
  have hstream := sends_stream (L := L) hblock before [] hbefore hps rfl (.inl rfl) none
  rw [List.nil_append, List.append_nil] at hstream
  have hplain : stuffChunk b = b := if_neg hdot
  have := (hhead.append hstream).append (sends_direct htail)
  rw [List.flatMap_append, flatMap_emit_markChunk, hplain]
  simp only [List.append_assoc, List.cons_append, List.nil_append] at this ⊢
  exact this

/-- And closed behind it. -/
theorem answers_text_inside (hblock : 0 < block.length) (hl : IsLine line)
    (hcode : line.take 3 ∈ textCodes) (hps : putsOf P body = .ok ps)
    (hend : EndsLine (written ps)) (htail : directText tail = some (dot :: newline :: last))
    (hlast : IsLine last) :
    AnswersWith L P block false
      (.ostreamCreate none :: .write line :: (body ++ (tail ++ [.ostreamClose])))
      (.listing line (textLines (marks block.length 0 ps)) last) := by
  refine ⟨_, ?_, frames_listing hl hcode (textMarks_marks block.length ps hend) hlast⟩
  have hbefore : directText [.write line] = some line := by
    rw [directText, directText, Option.map_some, List.append_nil]
  exact sends_stream hblock [.write line] tail hbefore hps htail (.inr hend) none

/-- A definition among the calls of a reply: its line, the text, and its
end. -/
def entryCalls (line : Bytes) (headers : Option Headers) (text : Bytes) : Reply :=
  [.write line, .ostreamCreate headers, .put text, .ostreamClose, .write (ascii "\n.\n")]

/-- The marks of a definition and of the newline behind it. -/
def entryMarks (P : Printing) (block text : Bytes) : List (Bool × UInt8) :=
  marks block.length 0 (P.cut text) ++ [(true, newline)]

/-- What a definition puts on the wire. -/
theorem sends_entry (hblock : 0 < block.length) (headers : Option Headers) :
    Sends L P block (entryCalls line headers text) (entryText (line, entryMarks P block text)) := by
  have hhead : Sends L P block [.write line] line := sends_direct (by
    rw [directText, directText, Option.map_some, List.append_nil])
  have hput : putsOf P [.put text] = .ok (P.cut text) := by
    rw [putsOf, putsOf, ok_bind, List.append_nil]
  have hstream := sends_stream (L := L) hblock [] [] rfl hput rfl (.inl rfl)
    headers
  have htail : Sends L P block [.write (ascii "\n.\n")] [newline, dot, newline] :=
    sends_direct (by decide)
  rw [List.nil_append, List.append_nil] at hstream
  have := (hhead.append hstream).append htail
  have hnl : emit (true, newline) = [newline] := rfl
  simp only [entryText, entryMarks, List.flatMap_append, List.flatMap_singleton, hnl,
    List.append_assoc, List.cons_append, List.nil_append] at this ⊢
  exact this

/-- A newline behind a text puts no dot inside a line. -/
theorem UnbrokenMarks.concat {start : Bool} {M : List (Bool × UInt8)} (h : UnbrokenMarks start M) :
    UnbrokenMarks start (M ++ [(true, newline)]) := by
  induction M generalizing start with
  | nil => exact ⟨fun _ hdot => absurd hdot.2 (by decide), trivial⟩
  | cons a M ih => exact ⟨h.1, ih h.2⟩

/-- **A definition comes through** if its text puts no dot inside a line at
the front of an empty buffer: its lines, and an empty one where it ended
one. -/
theorem textLines_entryMarks (hun : Unbroken block.length (P.cut text)) :
    textLines (entryMarks P block text) = lines newline (text ++ [newline]) := by
  have htext : TextMarks (entryMarks P block text) :=
    .concat (lineMarked_marks block.length (P.cut text) fun _ => rfl)
  rw [textLines_eq htext hun.concat, entryMarks, List.map_append, map_snd_marks, P.written_cut,
    List.map_singleton]

/-- A reply with definitions. -/
theorem answers_definitions {α : Type} {as : List α} (lineOf textOf : α → Bytes)
    (headersOf : α → Option Headers) (hblock : 0 < block.length) (hl : IsLine line)
    (hcode : line.take 3 = definitionsCode) (hcount : countIn line = as.length)
    (has : ∀ a ∈ as, IsLine (lineOf a) ∧ (lineOf a).take 3 = ascii "151")
    (htail : directText tail = some last) (hlast : IsLine last) :
    AnswersWith L P block false
      (.write line :: (as.flatMap fun a => entryCalls (lineOf a) (headersOf a) (textOf a)) ++ tail)
      (.definitions line
        (as.map fun a => (lineOf a, textLines (entryMarks P block (textOf a)))) last) := by
  have hes : ∀ e ∈ as.map fun a => (lineOf a, entryMarks P block (textOf a)),
      IsLine e.1 ∧ e.1.take 3 = ascii "151" ∧ TextMarks e.2 := by
    intro e he
    obtain ⟨a, ha, rfl⟩ := List.mem_map.1 he
    obtain ⟨hline, hcode⟩ := has a ha
    exact ⟨hline, hcode, .concat (lineMarked_marks block.length (P.cut (textOf a)) fun _ => rfl)⟩
  have hframes := frames_definitions hl hcode (by rw [hcount, List.length_map]) hes hlast
  rw [List.map_map] at hframes
  refine ⟨_, ?_, hframes⟩
  have hhead : Sends L P block [.write line] line := sends_direct (by
    rw [directText, directText, Option.map_some, List.append_nil])
  have hentries : Sends L P block
      (as.flatMap fun a => entryCalls (lineOf a) (headersOf a) (textOf a))
      (as.flatMap fun a => entryText (lineOf a, entryMarks P block (textOf a))) :=
    sends_flatMap fun a _ => sends_entry hblock (headersOf a)
  rw [List.flatMap_map]
  exact hhead.append (hentries.append (sends_direct htail))

end Kinds

end Dico
