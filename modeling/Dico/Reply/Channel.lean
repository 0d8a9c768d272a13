import Dico.Reply.Answer
import Dico.Session.State
import Dico.Text.IteratorBounds
/-!
# The calls of a reply

What the calls a command makes to reply do to the connection: `write` and
`writeln` go to the connection itself, also while an output stream is open
over it, and `put` and `multiline` to the output stream, which holds part
of a line. `Sends r w` says that the calls `r` put the bytes `w` on the
wire, whatever the connection is. A text between the opening of the stream
and its end arrives with its marked dots doubled (`sends_stream`), also
where the command writes to the connection before the stream is closed, as
long as the text ends a line.
-/

namespace Dico

open DicoStream

/-! ## The model -/

/-- The connection, or the output stream a command has opened over it. -/
inductive Channel (τ : Type)
  | plain (str : τ)
  | over (st : DicoStream) (o : Ostream τ)

/-- How a text is printed: a module may print one in any pieces and flush
in between; and what an iterator has for a width before it is used. -/
structure Printing where
  cut : Bytes → List Put
  written_cut : ∀ text, written (cut text) = text
  width : ℕ

/-- The lines `stream_write_multiline` makes of a text. -/
def Printing.lines (P : Printing) (text : Bytes) : Except Fault (List Bytes) :=
  streamWriteMultiline P.width (text.length + 1) text

section Model

variable {τ σ : Type} (L : Limits) (S : Sink τ) (P : Printing) (block : Bytes)

/-- `dico_stream_writeln`, over a sink. -/
def Sink.writeln (str : τ) (buf : Bytes) : τ :=
  let r := S.write str buf
  if r.1 = 0 then (S.write r.2 [newline]).2 else r.2

/-- `dico_stream_writeln`. -/
def DicoStream.writeln (T : Transport σ) (st : DicoStream) (x : σ) (buf : Bytes) :
    Except Fault (ℕ × DicoStream × σ) := do
  let (rc, st, x) ← st.write L T x buf
  if rc = 0 then st.write L T x [newline] else .ok (rc, st, x)

/-- The calls of `stream_write_multiline`, for the lines it makes. -/
def writeLines (T : Transport σ) : List Bytes → DicoStream × σ → Except Fault (DicoStream × σ)
  | [], x => .ok x
  | line :: lines, (st, x) => do
    let (_, st, x) ← st.writeln L T x line
    writeLines T lines (st, x)

/-- A call of a reply, with `option_mime` off, so that an `ostream` writes no header. No command
opens a stream over a stream. -/
def sendOut : Out → Channel τ → Except Fault (Channel τ)
  | .write text, .plain str => .ok (.plain (S.write str text).2)
  | .write text, .over st o =>
    .ok (.over st { o with transport := (S.write o.transport text).2 })
  | .writeln text, .plain str => .ok (.plain (S.writeln str text))
  | .writeln text, .over st o => .ok (.over st { o with transport := S.writeln o.transport text })
  | .ostreamCreate _, .plain str => do
    let (_, st, o) ← dicodOstreamCreate S L str block
    .ok (.over st o)
  | .put text, .over st o => do
    let (st, o) ← Run.run (Op.step L (ostreamTransport S)) ((P.cut text).map Put.op) (st, o)
    .ok (.over st o)
  | .multiline text, .over st o => do
    let lines ← P.lines text
    let (st, o) ← writeLines L (ostreamTransport S) lines (st, o)
    .ok (.over st o)
  -- `dico_stream_close` flushes, and the transport stays
  | .ostreamClose, .over st o => do
    let (_, _, o) ← st.flush L (ostreamTransport S) o
    .ok (.plain o.transport)
  | _, _ => .error .dangling

/-- The calls of a reply. -/
def sendReply (r : List Out) (c : Channel τ) : Except Fault (Channel τ) :=
  Run.run (sendOut L S P block) r c

end Model

/-- **The calls put the bytes on the wire**, over any connection that takes
what it is given. -/
def Sends (L : Limits) (P : Printing) (block : Bytes) (r : List Out) (w : Bytes) : Prop :=
  ∀ (τ : Type) (S : Sink τ) (log : τ → Bytes), S.Delivers log → ∀ str, ∃ str',
    sendReply L S P block r (.plain str) = .ok (.plain str') ∧ log str' = log str ++ w

/-! ## Calls on the connection -/

/-- What some calls write to the connection itself, if that is all they
do. -/
def directText : List Out → Option Bytes
  | [] => some []
  | .write text :: r => (directText r).map (text ++ ·)
  | .writeln text :: r => (directText r).map (text ++ newline :: ·)
  | _ :: _ => none

/-- The calls by which a text comes into an output stream, if nothing else
is done. -/
def putsOf (P : Printing) : List Out → Except Fault (List Put)
  | [] => .ok []
  | .put text :: r => do
    let ps ← putsOf P r
    .ok (P.cut text ++ ps)
  | .multiline text :: r => do
    let lines ← P.lines text
    let ps ← putsOf P r
    .ok (lines.flatMap (fun line => [.write line, .write [newline]]) ++ ps)
  | _ :: _ => .error .dangling

section Calls

variable {τ σ : Type} {L : Limits} {S : Sink τ} {P : Printing} {block : Bytes} {log : τ → Bytes}
  {r r' : List Out} {w w' : Bytes}

theorem Sink.Delivers.writeln_log (hS : S.Delivers log) (str : τ) (buf : Bytes) :
    log (S.writeln str buf) = log str ++ (buf ++ [newline]) := by
  unfold Sink.writeln
  simp only [hS.write_ok, if_true]
  rw [hS.write_log, hS.write_log, List.append_assoc]

/-- Calls on the connection, with no stream over it. -/
theorem sends_direct (h : directText r = some w) : Sends L P block r w := by
  intro τ S log hS str
  induction r generalizing w str with
  | nil =>
    obtain rfl := Option.some.inj h
    exact ⟨str, rfl, (List.append_nil _).symm⟩
  | cons out r ih =>
    cases out with
    | write text =>
      obtain ⟨w', hw', rfl⟩ := Option.map_eq_some_iff.1 h
      obtain ⟨str', hrun, hlog⟩ := ih hw' (S.write str text).2
      exact ⟨str', hrun, by rw [hlog, hS.write_log, List.append_assoc]⟩
    | writeln text =>
      obtain ⟨w', hw', rfl⟩ := Option.map_eq_some_iff.1 h
      obtain ⟨str', hrun, hlog⟩ := ih hw' (S.writeln str text)
      refine ⟨str', hrun, ?_⟩
      rw [hlog, hS.writeln_log]
      simp only [List.append_assoc, List.singleton_append]
    | ostreamCreate headers => cases h
    | put text => cases h
    | multiline text => cases h
    | ostreamClose => cases h

variable (L P block) in
/-- And under an open stream, which does not notice. -/
theorem sendReply_over (hS : S.Delivers log) (h : directText r = some w) (st : DicoStream)
    (o : Ostream τ) :
    ∃ o', sendReply L S P block r (.over st o) = .ok (.over st o') ∧
      log o'.transport = log o.transport ++ w := by
  induction r generalizing w o with
  | nil =>
    obtain rfl := Option.some.inj h
    exact ⟨o, rfl, (List.append_nil _).symm⟩
  | cons out r ih =>
    cases out with
    | write text =>
      obtain ⟨w', hw', rfl⟩ := Option.map_eq_some_iff.1 h
      obtain ⟨o', hrun, hlog⟩ := ih hw' { o with transport := (S.write o.transport text).2 }
      exact ⟨o', hrun, by rw [hlog, hS.write_log, List.append_assoc]⟩
    | writeln text =>
      obtain ⟨w', hw', rfl⟩ := Option.map_eq_some_iff.1 h
      obtain ⟨o', hrun, hlog⟩ := ih hw' { o with transport := S.writeln o.transport text }
      refine ⟨o', hrun, ?_⟩
      rw [hlog, hS.writeln_log]
      simp only [List.append_assoc, List.singleton_append]
    | ostreamCreate headers => cases h
    | put text => cases h
    | multiline text => cases h
    | ostreamClose => cases h

/-- Calls one after another. -/
theorem Sends.append (h : Sends L P block r w) (h' : Sends L P block r' w') :
    Sends L P block (r ++ r') (w ++ w') := by
  intro τ S log hS str
  obtain ⟨str₁, hrun₁, hlog₁⟩ := h τ S log hS str
  obtain ⟨str₂, hrun₂, hlog₂⟩ := h' τ S log hS str₁
  refine ⟨str₂, ?_, by rw [hlog₂, hlog₁, List.append_assoc]⟩
  unfold sendReply at hrun₁ hrun₂ ⊢
  rw [Run.run_append, hrun₁, ok_bind, hrun₂]

/-- No calls. -/
theorem sends_nil : Sends L P block [] [] := sends_direct rfl

/-- The same calls for each of some things. -/
theorem sends_flatMap {α : Type} {f : α → List Out} {g : α → Bytes} {as : List α}
    (h : ∀ a ∈ as, Sends L P block (f a) (g a)) :
    Sends L P block (as.flatMap f) (as.flatMap g) := by
  induction as with
  | nil => exact sends_nil
  | cons a as ih =>
    rw [List.forall_mem_cons] at h
    exact h.1.append (ih h.2)

end Calls

/-! ## Texts -/

section Texts

variable {τ σ γ : Type} {L : Limits} {S : Sink τ} {P : Printing} {block : Bytes}
  {log : τ → Bytes} {T : Transport σ} {obs : σ → γ} {add : γ → Bytes → γ} {body : List Out}
  {ps : List Put} {st : DicoStream}

/-- The lines of a text are written and ended one by one. -/
theorem writeLines_eq (hT : T.Feeds obs add) (hst : Ready st) (lines : List Bytes) (x : σ) :
    writeLines L T lines (st, x) = Run.run (Op.step L T)
      ((lines.flatMap fun line => [Put.write line, Put.write [newline]]).map Put.op) (st, x) := by
  induction lines generalizing st x with
  | nil => rfl
  | cons line lines ih =>
    obtain ⟨st₁, x₁, hw₁, hst₁, -⟩ := write_feeds (L := L) hT hst x line
    obtain ⟨st₂, x₂, hw₂, hst₂, -⟩ := write_feeds (L := L) hT hst₁ x₁ [newline]
    rw [writeLines, DicoStream.writeln, hw₁, ok_bind]
    simp only [if_true, hw₂, ok_bind, ih hst₂, List.flatMap_cons, List.map_cons,
      List.cons_append, List.nil_append, Run.run, Put.op, Op.step, hw₁]

/-- A run of writes and flushes goes on with the stream as it should be. -/
theorem runPuts_held (hS : S.Delivers log) (ps : List Put) (hst : Held st) (o : Ostream τ) :
    ∃ st' o', Run.run (Op.step L (ostreamTransport S)) (ps.map Put.op) (st, o) = .ok (st', o') ∧
      Held st' := by
  obtain ⟨st', o', -, hrun, hst', -⟩ := runPuts_marks (L := L) (ostream_feeds hS) ps hst o
  exact ⟨st', o', hrun, hst'⟩

variable (L block) in
/-- The calls that print a text are calls of the stream. -/
theorem sendReply_body (hS : S.Delivers log) (hps : putsOf P body = .ok ps) (hst : Held st)
    (o : Ostream τ) :
    sendReply L S P block body (.over st o) =
      (Run.run (Op.step L (ostreamTransport S)) (ps.map Put.op) (st, o)).map
        fun x => .over x.1 x.2 := by
  induction body generalizing ps st o with
  | nil =>
    obtain rfl := Except.ok.inj hps
    rfl
  | cons out body ih =>
    -- a call is a run of its own, and the rest goes on behind it
    have hgo : ∀ qs qs', ps = qs ++ qs' → putsOf P body = .ok qs' →
        sendOut L S P block out (.over st o) =
          (Run.run (Op.step L (ostreamTransport S)) (qs.map Put.op) (st, o)).map
            (fun x => .over x.1 x.2) →
        sendReply L S P block (out :: body) (.over st o) =
          (Run.run (Op.step L (ostreamTransport S)) (ps.map Put.op) (st, o)).map
            fun x => .over x.1 x.2 := by
      rintro qs qs' rfl hqs' hout
      obtain ⟨st₁, o₁, hrun, hst₁⟩ := runPuts_held (L := L) hS qs hst o
      rw [hrun] at hout
      have hnext := ih hqs' hst₁ o₁
      unfold sendReply at hnext ⊢
      rw [Run.run, hout, List.map_append, Run.run_append, hrun, ok_bind]
      exact hnext
    cases out with
    | put text =>
      obtain ⟨qs', hqs', h⟩ := bind_eq_ok.1 hps
      obtain rfl := Except.ok.inj h
      refine hgo _ _ rfl hqs' ?_
      obtain ⟨st₁, o₁, hrun, -⟩ := runPuts_held (L := L) hS (P.cut text) hst o
      simp only [sendOut, hrun, ok_bind, Except.map]
    | multiline text =>
      obtain ⟨lines, hlines, h⟩ := bind_eq_ok.1 hps
      obtain ⟨qs', hqs', h⟩ := bind_eq_ok.1 h
      obtain rfl := Except.ok.inj h
      refine hgo _ _ rfl hqs' ?_
      have heq := writeLines_eq (L := L) (ostream_feeds hS) hst.toReady lines o
      obtain ⟨st₁, o₁, hrun, -⟩ := runPuts_held (L := L) hS
        (lines.flatMap fun line => [Put.write line, Put.write [newline]]) hst o
      simp only [sendOut, hlines, heq, hrun, ok_bind, Except.map]
    | write text => cases hps
    | writeln text => cases hps
    | ostreamCreate headers => cases hps
    | ostreamClose => cases hps

/-- Nothing is held of a text that ends a line. -/
theorem window_eq_nil_of_endsLine {st' : DicoStream} {cs : List Bytes} {size : ℕ}
    (hst' : Held st') (hmarks : marks size 0 ps = cs.flatMap markChunk ++ markChunk st'.window)
    (htext : EndsLine (written ps)) : st'.window = [] := by
  have hcat := congrArg (List.map Prod.snd) hmarks
  rw [List.map_append, map_snd_markChunk, map_snd_marks] at hcat
  by_contra hne
  rcases htext with h | h
  · rw [h] at hcat
    exact hne (List.append_eq_nil_iff.1 hcat.symm).2
  · have hlast : st'.window.getLast? = some newline := by
      rw [← List.getLast?_append_of_ne_nil _ hne, ← hcat]
      exact h
    exact hst'.noNewline (List.mem_of_getLast? hlast)

/-- **An output stream, from its opening to its end.** The command may write
to the connection itself before the text, and behind one that ends a
line. -/
theorem sends_stream (hblock : 0 < block.length) (before after : List Out) {b a : Bytes}
    (hbefore : directText before = some b) (hps : putsOf P body = .ok ps)
    (hafter : directText after = some a) (hend : a = [] ∨ EndsLine (written ps))
    (headers : Option Headers) :
    Sends L P block (.ostreamCreate headers :: (before ++ (body ++ (after ++ [.ostreamClose]))))
      (b ++ ((marks block.length 0 ps).flatMap emit ++ a)) := by
  intro τ S log hS str
  have hset := setBuffer_create (L := L) (T := ostreamTransport S) false true
    (show BufferType.line ≠ .none by decide) hblock ⟨str, false⟩
  have hheld : Held (opened false true .line block) :=
    ⟨⟨⟨rfl, rfl⟩, rfl, BufferType.noConfusion, hblock, rfl, Nat.zero_le _, fun h => absurd rfl h⟩,
      rfl, List.not_mem_nil, hblock⟩
  have hcreate : sendOut L S P block (.ostreamCreate headers) (.plain str) =
      .ok (.over (opened false true .line block) ⟨str, false⟩) := by
    simp only [sendOut, dicodOstreamCreate, hset, ok_bind]
  obtain ⟨o₁, hrun₁, hlog₁⟩ := sendReply_over L P block hS hbefore
    (opened false true .line block) ⟨str, false⟩
  obtain ⟨st₂, o₂, cs, hputs, hst₂, hobs₂, hmarks⟩ :=
    runPuts_marks (L := L) (ostream_feeds hS) ps hheld o₁
  have hrun₂ := sendReply_body L block hS hps hheld o₁
  rw [hputs] at hrun₂
  obtain ⟨o₃, hrun₃, hlog₃⟩ := sendReply_over L P block hS hafter st₂ o₂
  obtain ⟨rc, st₄, o₄, hflush, -, -, -, hobs₄⟩ :=
    flush_feeds (L := L) (ostream_feeds hS) hst₂.toReady o₃
  have hrun₄ : sendOut L S P block .ostreamClose (.over st₂ o₃) = .ok (.plain o₄.transport) := by
    simp only [sendOut, hflush, ok_bind]
  rw [hst₂.spill] at hobs₄
  rw [foldl_stuffChunk] at hobs₂ hobs₄
  refine ⟨o₄.transport, ?_, ?_⟩
  · unfold sendReply at hrun₁ hrun₂ hrun₃ ⊢
    rw [Run.run, hcreate, ok_bind, Run.run_append, hrun₁, ok_bind, Run.run_append, hrun₂]
    simp only [Except.map, ok_bind]
    rw [Run.run_append, hrun₃, ok_bind, Run.run, hrun₄]
    rfl
  · have hempty : markChunk (opened false true .line block).window = [] := rfl
    rw [hempty, List.nil_append] at hmarks
    have hsize : (opened false true .line block).bufsize = block.length := rfl
    have hlevel : (opened false true .line block).level = 0 := rfl
    rw [hsize, hlevel] at hmarks
    rw [hobs₄, hlog₃, hobs₂, hlog₁, flatMap_markChunk_chunk, hmarks]
    rcases hend with rfl | htext
    · simp only [List.flatMap_append, List.append_assoc, List.append_nil]
    · rw [window_eq_nil_of_endsLine hst₂ hmarks htext]
      simp only [markChunk, List.flatMap_nil, List.append_assoc, List.append_nil]

end Texts

end Dico
