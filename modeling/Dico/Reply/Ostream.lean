import Dico.Stream.Delivery
/-!
# The output stream of the server

`dicod/ostream.c` with MIME output off: a line-buffered stream whose
transport writes to another stream, with a dot put before every chunk
that starts with one. What that other stream does is a `Sink`.

Where chunks start is decided by the buffer, and can be told from the
calls alone: `marks` follows the number of bytes held and of those behind
the last newline, and marks every byte that starts a chunk. `ostream_wire`
says that the bytes on the wire are the bytes written, with a dot before
every marked dot.
-/

namespace Dico

open DicoStream

/-- The byte `.`. -/
def dot : UInt8 := 46

/-- A stream as seen by one that writes to it: `dico_stream_write`,
`dico_stream_flush` and `dico_stream_last_error`. -/
structure Sink (τ : Type) where
  write : τ → Bytes → ℕ × τ
  flush : τ → ℕ × τ
  lastError : τ → Errno

/-- The sink takes everything, and `log` is what it took. -/
structure Sink.Delivers {τ : Type} (S : Sink τ) (log : τ → Bytes) : Prop where
  write_ok : ∀ t buf, (S.write t buf).1 = 0
  write_log : ∀ t buf, log (S.write t buf).2 = log t ++ buf
  flush_log : ∀ t, log (S.flush t).2 = log t

/-- A sink that keeps what it is given. -/
def tape : Sink Bytes where
  write t buf := (0, t ++ buf)
  flush t := (0, t)
  lastError _ := EIO

theorem tape_delivers : tape.Delivers id := ⟨fun _ _ => rfl, fun _ _ => rfl, fun _ => rfl⟩

/-- `struct ostream`. -/
structure Ostream (τ : Type) where
  transport : τ
  /-- `OSTREAM_INITIALIZED`. -/
  initialized : Bool
  deriving DecidableEq, Repr

section Model

variable {τ : Type} (S : Sink τ)

/-- The last write of `ostream_write`. -/
def ostreamBody (o : Ostream τ) (buf : Bytes) : WriteReply × Ostream τ :=
  let r := S.write o.transport buf
  (if h : r.1 = 0 then .ok buf.length else .fail ⟨r.1, h⟩, { o with transport := r.2 })

/-- `ostream_write` with MIME output off. -/
def ostreamWrite (o : Ostream τ) (buf : Bytes) : WriteReply × Ostream τ :=
  if buf.head? = some dot then
    let r := S.write o.transport [dot]
    if r.1 ≠ 0 then (.fail (S.lastError r.2), ⟨r.2, true⟩)
    else ostreamBody S ⟨r.2, true⟩ buf
  else ostreamBody S { o with initialized := true } buf

/-- `ostream_flush`. -/
def ostreamFlush (o : Ostream τ) : ℕ × Ostream τ :=
  ((S.flush o.transport).1, { o with transport := (S.flush o.transport).2 })

/-- The callbacks `dicod_ostream_create` sets. -/
def ostreamTransport : Transport (Ostream τ) where
  read := none
  write := some (ostreamWrite S)
  flush := some (ostreamFlush S)
  seek := none

/-- `dicod_ostream_create`, given the block `malloc` returned. -/
def dicodOstreamCreate (L : Limits) (str : τ) (block : Bytes) :
    Except Fault (ℕ × DicoStream × Ostream τ) :=
  setBuffer L (ostreamTransport S) (create false true false) ⟨str, false⟩ .line (some block)

end Model

/-! ## Where chunks start -/

/-- A chunk as `ostream_write` passes it on. -/
def stuffChunk (c : Bytes) : Bytes := if c.head? = some dot then dot :: c else c

/-- The bytes of a chunk, the first one marked. -/
def markChunk : Bytes → List (Bool × UInt8)
  | [] => []
  | b :: bs => (true, b) :: bs.map (false, ·)

/-- A marked dot is sent twice. -/
def emit (a : Bool × UInt8) : Bytes := if a.1 = true ∧ a.2 = dot then [dot, dot] else [a.2]

/-- How full the line buffer is: the bytes held, and how many of them
stand behind the last newline held. -/
structure Fill where
  held : ℕ
  tail : ℕ
  deriving DecidableEq, Repr

/-- One byte more, in a buffer of the given size: a buffer that gets full
is emptied. -/
def Fill.push (size : ℕ) (f : Fill) (b : UInt8) : Fill :=
  if f.held + 1 = size then ⟨0, 0⟩
  else ⟨f.held + 1, if b = newline then 0 else f.tail + 1⟩

/-- The bytes of one write, each marked if it starts a chunk: if nothing
is held behind the last newline. -/
def markBytes (size : ℕ) : Fill → Bytes → List (Bool × UInt8)
  | _, [] => []
  | f, b :: bs => (f.tail == 0, b) :: markBytes size (f.push size b) bs

/-- The bytes of some calls, each marked if it starts a chunk. A write ends
by letting complete lines go; a flush lets everything go. `held` is what
is held between two calls. -/
def marks (size : ℕ) : ℕ → List Put → List (Bool × UInt8)
  | _, [] => []
  | held, .write buf :: ps =>
    markBytes size ⟨held, held⟩ buf ++ marks size (buf.foldl (Fill.push size) ⟨held, held⟩).tail ps
  | _, .flush :: ps => marks size 0 ps

section Marks

variable {size : ℕ} {w buf : Bytes}

theorem flatMap_emit_unmarked (bs : Bytes) : (bs.map (false, ·)).flatMap emit = bs := by
  induction bs with
  | nil => rfl
  | cons b bs ih =>
    rw [List.map_cons, List.flatMap_cons, ih]
    rfl

theorem flatMap_emit_markChunk (c : Bytes) : (markChunk c).flatMap emit = stuffChunk c := by
  cases c with
  | nil => rfl
  | cons b bs =>
    rw [markChunk, List.flatMap_cons, flatMap_emit_unmarked, emit, stuffChunk]
    by_cases hb : b = dot
    · subst hb
      rfl
    · have hhead : ¬ (b :: bs).head? = some dot := fun h => hb (Option.some.inj h)
      rw [if_neg (fun h => hb h.2), if_neg hhead]
      rfl

/-- A chunk with nothing in it has no marks. -/
theorem flatMap_markChunk_chunk (c : Bytes) : (chunk c).flatMap markChunk = markChunk c := by
  unfold chunk
  split_ifs with hc
  · rw [hc]
    rfl
  · exact List.append_nil _

theorem map_snd_markChunk (c : Bytes) : (markChunk c).map Prod.snd = c := by
  cases c with
  | nil => rfl
  | cons b bs => simp only [markChunk, List.map_cons, List.map_map, Function.comp_def, List.map_id']

/-- A byte behind a chunk is marked if the chunk is empty. -/
theorem markChunk_append_singleton (w : Bytes) (b : UInt8) :
    markChunk (w ++ [b]) = markChunk w ++ [(w.length == 0, b)] := by
  cases w with
  | nil => rfl
  | cons a w =>
    rw [List.cons_append, markChunk, markChunk, List.map_append, List.cons_append]
    rfl

/-- The marks of bytes that do not fill the buffer, with `t` bytes behind
the last newline to start with. -/
def lineMarks : ℕ → Bytes → List (Bool × UInt8)
  | _, [] => []
  | t, b :: bs => (t == 0, b) :: lineMarks (if b = newline then 0 else t + 1) bs

theorem newline_notMem_concat (hw : newline ∉ w) {b : UInt8} (hb : b ≠ newline) :
    newline ∉ w ++ [b] := by
  rw [List.mem_append, List.mem_singleton, not_or]
  exact ⟨hw, fun h => hb h.symm⟩

/-- The first line of some bytes, and the rest. -/
theorem cutLines_append_newline (hw : newline ∉ w) (bs : Bytes) :
    cutLines (w ++ newline :: bs) = ((w ++ [newline]) :: (cutLines bs).1, (cutLines bs).2) := by
  have hmem : newline ∈ w ++ newline :: bs := by
    rw [List.mem_append]
    exact Or.inr List.mem_cons_self
  have hidx : (w ++ newline :: bs).idxOf newline = w.length := by
    rw [List.idxOf_append_of_notMem hw, List.idxOf_cons_self, Nat.add_zero]
  have hlen : (w ++ [newline]).length = w.length + 1 := by
    rw [List.length_append, List.length_singleton]
  rw [cutLines_of_mem hmem, hidx, List.append_cons, List.take_left' hlen, List.drop_left' hlen]

/-- Cutting bytes into lines puts the marks where `lineMarks` does. -/
theorem lineMarks_cutLines (hw : newline ∉ w) (buf : Bytes) :
    markChunk w ++ lineMarks w.length buf =
      (cutLines (w ++ buf)).1.flatMap markChunk ++ markChunk (cutLines (w ++ buf)).2 := by
  induction buf generalizing w with
  | nil =>
    rw [List.append_nil, cutLines_of_notMem hw]
    exact List.append_nil _
  | cons b bs ih =>
    have hstep : markChunk w ++ lineMarks w.length (b :: bs) =
        markChunk (w ++ [b]) ++ lineMarks (if b = newline then 0 else w.length + 1) bs := by
      rw [markChunk_append_singleton, List.append_assoc]
      rfl
    rw [hstep]
    by_cases hb : b = newline
    · -- the newline ends a chunk, and the rest starts the next
      subst hb
      have := ih (w := []) List.not_mem_nil
      rw [List.nil_append, markChunk, List.nil_append, List.length_nil] at this
      rw [cutLines_append_newline hw, if_pos rfl, List.flatMap_cons, this, List.append_assoc]
    · have := ih (newline_notMem_concat hw hb)
      rw [List.length_append, List.length_singleton, List.append_assoc,
        List.singleton_append] at this
      rw [if_neg hb, this]

/-- The number of bytes behind the last newline. -/
theorem foldl_tail_cutLines (hw : newline ∉ w) (buf : Bytes) :
    buf.foldl (fun t b => if b = newline then 0 else t + 1) w.length =
      (cutLines (w ++ buf)).2.length := by
  induction buf generalizing w with
  | nil => rw [List.append_nil, cutLines_of_notMem hw, List.foldl_nil]
  | cons b bs ih =>
    rw [List.foldl_cons]
    by_cases hb : b = newline
    · subst hb
      rw [if_pos rfl, cutLines_append_newline hw]
      exact ih (w := []) List.not_mem_nil
    · have := ih (newline_notMem_concat hw hb)
      rw [List.length_append, List.length_singleton, List.append_assoc,
        List.singleton_append] at this
      rw [if_neg hb, this]

/-- Bytes that leave room in the buffer. -/
theorem markBytes_of_lt (held t : ℕ) (h : held + buf.length < size) :
    markBytes size ⟨held, t⟩ buf = lineMarks t buf ∧
      buf.foldl (Fill.push size) ⟨held, t⟩ =
        ⟨held + buf.length, buf.foldl (fun t b => if b = newline then 0 else t + 1) t⟩ := by
  induction buf generalizing held t with
  | nil => exact ⟨rfl, rfl⟩
  | cons b bs ih =>
    rw [List.length_cons] at h
    have hpush : Fill.push size ⟨held, t⟩ b = ⟨held + 1, if b = newline then 0 else t + 1⟩ :=
      if_neg (by simp only; omega)
    obtain ⟨h1, h2⟩ := ih (held + 1) (if b = newline then 0 else t + 1) (by omega)
    refine ⟨?_, ?_⟩
    · rw [markBytes, hpush, h1]
      rfl
    · rw [List.foldl_cons, List.foldl_cons, hpush, h2, List.length_cons, Nat.add_right_comm,
        Nat.add_assoc]

/-- Bytes that fill the buffer exactly. -/
theorem markBytes_of_eq (held t : ℕ) (h : held + buf.length = size) (hne : buf ≠ []) :
    markBytes size ⟨held, t⟩ buf = lineMarks t buf ∧
      buf.foldl (Fill.push size) ⟨held, t⟩ = ⟨0, 0⟩ := by
  induction buf generalizing held t with
  | nil => exact absurd rfl hne
  | cons b bs ih =>
    rw [List.length_cons] at h
    by_cases hbs : bs = []
    · subst hbs
      exact ⟨rfl, if_pos h⟩
    · have hpos : bs.length ≠ 0 := fun h => hbs (List.length_eq_zero_iff.1 h)
      have hpush : Fill.push size ⟨held, t⟩ b = ⟨held + 1, if b = newline then 0 else t + 1⟩ :=
        if_neg (by simp only; omega)
      obtain ⟨h1, h2⟩ := ih (held + 1) (if b = newline then 0 else t + 1)
        (by omega) hbs
      refine ⟨?_, ?_⟩
      · rw [markBytes, hpush, h1]
        rfl
      · rw [List.foldl_cons, hpush, h2]

theorem markBytes_append (f : Fill) (a b : Bytes) :
    markBytes size f (a ++ b) =
      markBytes size f a ++ markBytes size (a.foldl (Fill.push size) f) b := by
  induction a generalizing f with
  | nil => rfl
  | cons c a ih =>
    rw [List.cons_append, markBytes, markBytes, ih, List.cons_append, List.foldl_cons]

/-- A line buffer with bytes of one line in it lets nothing go. -/
theorem vent_line_of_lt (hw : newline ∉ w) (hlt : w.length < size) :
    vent .line size w = ([], w) := by
  refine if_neg ?_
  rw [ripe, Bool.or_eq_true, beq_iff_eq, decide_eq_true_eq]
  exact fun h => h.elim (Nat.ne_of_lt hlt) hw

/-- One that is not full lets the lines go. -/
theorem vent_line_of_length_ne (hne : w.length ≠ size) : vent .line size w = cutLines w := by
  unfold vent
  split_ifs with hripe
  · exact if_neg (fun h => h.elim (by decide) hne)
  · rw [ripe, Bool.or_eq_true, not_or, decide_eq_true_eq] at hripe
    exact (cutLines_of_notMem hripe.2).symm

/-- And one that is full, everything. -/
theorem vent_line_of_length_eq (heq : w.length = size) :
    vent .line size w = ((cutLines w).1 ++ chunk (cutLines w).2, []) := by
  rw [vent, ripe, beq_iff_eq.2 heq, Bool.true_or, if_pos rfl, spill, if_pos (Or.inr heq)]

/-- Writing on to a full buffer is writing to the emptied one. -/
theorem feed_line_of_length_eq (heq : w.length = size) (hpos : 0 < size) (buf : Bytes) :
    feed .line size w buf = ((cutLines w).1 ++ chunk (cutLines w).2 ++
      (feed .line size [] buf).1, (feed .line size [] buf).2) := by
  have hempty : vent .line size [] = ([], []) := vent_line_of_lt List.not_mem_nil hpos
  have hfull := vent_line_of_length_eq heq
  by_cases hnil : buf = []
  · rw [hnil, feed_nil, feed_nil, hfull, hempty, List.append_nil]
  · have hlen : 0 < buf.length := List.length_pos_iff.2 hnil
    have hp : 0 < min (size - (vent .line size ([] : Bytes)).2.length) buf.length := by
      rw [hempty]
      simp only [List.length_nil]
      omega
    have hp' : 0 < min (size - (vent .line size w).2.length) buf.length := by
      rw [hfull]
      simp only [List.length_nil]
      omega
    rw [feed_of_pos hp', feed_of_pos hp, hfull, hempty]
    simp only [List.nil_append]

/-- **A line buffer starts its chunks where the bytes are marked**: what is
pending when a write starts and when it ends is the start of a chunk. -/
theorem feed_line_marks (hw : newline ∉ w) (hlt : w.length < size) (buf : Bytes) :
    markChunk w ++ markBytes size ⟨w.length, w.length⟩ buf =
        (feed .line size w buf).1.flatMap markChunk ++ markChunk (feed .line size w buf).2 ∧
      (buf.foldl (Fill.push size) ⟨w.length, w.length⟩).tail = (feed .line size w buf).2.length ∧
      newline ∉ (feed .line size w buf).2 ∧ (feed .line size w buf).2.length < size := by
  induction hlen : buf.length using Nat.strongRecOn generalizing buf w with
  | _ k ih =>
    have hvent := vent_line_of_lt hw hlt
    by_cases hnil : buf = []
    · subst hnil
      rw [feed_nil, hvent]
      exact ⟨List.append_nil _, rfl, hw, hlt⟩
    have hpos : buf.length ≠ 0 := fun h => hnil (List.length_eq_zero_iff.1 h)
    have hn : 0 < min (size - (vent .line size w).2.length) buf.length := by
      rw [hvent]
      simp only
      omega
    rw [feed_of_pos hn, hvent]
    simp only [List.nil_append]
    by_cases hroom : w.length + buf.length < size
    · -- everything fits: the second round only lets the lines go
      have hmin : min (size - w.length) buf.length = buf.length := by omega
      rw [hmin, List.take_length, List.drop_length, feed_nil]
      obtain ⟨h1, h2⟩ := markBytes_of_lt w.length w.length hroom
      have hcut := @vent_line_of_length_ne size (w ++ buf) (by rw [List.length_append]; omega)
      have hle : (cutLines (w ++ buf)).2.length ≤ (w ++ buf).length := by
        have := congrArg List.length (cutLines_flatten (w ++ buf))
        rw [List.length_append] at this
        omega
      rw [List.length_append] at hle
      rw [hcut, h1, h2, lineMarks_cutLines hw]
      exact ⟨rfl, foldl_tail_cutLines hw buf, newline_notMem_cutLines _, by omega⟩
    · -- the buffer fills up and is emptied, and the rest is written to an empty one
      have hmin : min (size - w.length) buf.length = size - w.length := by omega
      rw [hmin]
      set n := size - w.length with hndef
      have htake : w.length + (buf.take n).length = size := by
        rw [List.length_take]
        omega
      have hne : buf.take n ≠ [] := by
        intro h
        rw [h, List.length_nil] at htake
        omega
      obtain ⟨h1, h2⟩ := markBytes_of_eq w.length w.length htake hne
      have hfeed := @feed_line_of_length_eq size (w ++ buf.take n)
        (by rw [List.length_append, htake]) (Nat.lt_of_le_of_lt (Nat.zero_le _) hlt) (buf.drop n)
      obtain ⟨i1, i2, i3, i4⟩ := ih (buf.drop n).length (by rw [List.length_drop]; omega)
        (w := []) List.not_mem_nil (Nat.lt_of_le_of_lt (Nat.zero_le _) hlt) (buf.drop n) rfl
      rw [List.length_nil] at i1 i2
      rw [hfeed]
      refine ⟨?_, ?_, i3, i4⟩
      · conv_lhs => rw [← List.take_append_drop n buf]
        rw [markBytes_append, h1, h2, ← List.append_assoc, lineMarks_cutLines hw,
          List.flatMap_append, List.flatMap_append, flatMap_markChunk_chunk,
          List.append_assoc _ _ (markChunk _), ← i1]
        rfl
      · rw [← i2]
        conv_lhs => rw [← List.take_append_drop n buf]
        rw [List.foldl_append, h2]

end Marks

/-! ## The wire -/

section Wire

variable {τ : Type} {S : Sink τ} {log : τ → Bytes} {L : Limits} {st : DicoStream}

/-- One call of `ostream_write` takes its chunk whole, and stuffs it. -/
theorem ostreamWrite_delivers (hS : S.Delivers log) (o : Ostream τ) (buf : Bytes) :
    ∃ o', ostreamWrite S o buf = (.ok buf.length, o') ∧
      log o'.transport = log o.transport ++ stuffChunk buf := by
  have hbody : ∀ o : Ostream τ, ostreamBody S o buf =
      (.ok buf.length, { o with transport := (S.write o.transport buf).2 }) := by
    intro o
    simp only [ostreamBody, hS.write_ok, dite_true]
  unfold ostreamWrite stuffChunk
  by_cases hdot : buf.head? = some dot
  · simp only [if_pos hdot, hS.write_ok, ne_eq, not_true_eq_false, if_false, hbody]
    refine ⟨_, rfl, ?_⟩
    rw [hS.write_log, hS.write_log, List.append_assoc]
    rfl
  · simp only [if_neg hdot, hbody]
    exact ⟨_, rfl, hS.write_log _ _⟩

/-- **The transport of an output stream passes chunks on, stuffed.** -/
theorem ostream_feeds (hS : S.Delivers log) :
    (ostreamTransport S).Feeds (fun o => log o.transport) (fun g c => g ++ stuffChunk c) where
  takes := by
    intro st o buf hcan herr hne
    obtain ⟨o', hw, hlog⟩ := ostreamWrite_delivers hS o buf
    obtain ⟨st', hrun, hf, herr'⟩ := writeUnbuffered_of_loop (T := ostreamTransport S) rfl hcan herr
      hne (writeLoop_whole hw hne 0)
    exact ⟨st', o', hrun, hf, herr', hlog⟩
  flushes := by
    intro fl hfl o
    obtain rfl := Option.some.inj hfl
    exact hS.flush_log _

/-- A line-buffered stream between two calls: it holds part of one line. -/
structure Held (st : DicoStream) : Prop extends Ready st where
  line : st.buftype = .line
  noNewline : newline ∉ st.window
  room : st.level < st.bufsize

theorem Held.spill (h : Held st) :
    Dico.spill st.buftype st.bufsize true st.window = (chunk st.window, []) := by
  rw [h.line, Dico.spill, if_pos (Or.inl rfl), cutLines_of_notMem h.noNewline]
  rfl

/-- **Calls of a line-buffered stream let chunks go that start where the
bytes are marked.** -/
theorem runPuts_marks {σ γ : Type} {T : Transport σ} {obs : σ → γ} {add : γ → Bytes → γ}
    (hT : T.Feeds obs add) (ps : List Put) (hst : Held st) (x : σ) :
    ∃ st' x', ∃ cs : List Bytes,
      Run.run (Op.step L T) (ps.map Put.op) (st, x) = .ok (st', x') ∧ Held st' ∧
      obs x' = cs.foldl add (obs x) ∧
      markChunk st.window ++ marks st.bufsize st.level ps =
        cs.flatMap markChunk ++ markChunk st'.window := by
  induction ps generalizing st x with
  | nil => exact ⟨st, x, [], rfl, hst, rfl, List.append_nil _⟩
  | cons p ps ih =>
    cases p with
    | write buf =>
      obtain ⟨st₁, x₁, hw, hst₁, hs, hwin, hobs₁⟩ := write_feeds (L := L) hT hst.toReady x buf
      rw [hst.line] at hwin hobs₁
      have hlen := length_window hst.inBounds
      obtain ⟨h1, h2, h3, h4⟩ := feed_line_marks hst.noNewline
        (show st.window.length < st.bufsize by rw [hlen]; exact hst.room) buf
      rw [← hwin] at h1 h2 h3 h4
      rw [hlen] at h1 h2
      rw [length_window hst₁.inBounds] at h2 h4
      have hheld : Held st₁ :=
        ⟨hst₁, hs.buftype.trans hst.line, h3, by rw [hs.bufsize]; exact h4⟩
      obtain ⟨st', x', cs, hrun, hst', hobs, hmarks⟩ := ih hheld x₁
      refine ⟨st', x', (feed .line st.bufsize st.window buf).1 ++ cs, ?_, hst', ?_, ?_⟩
      · simp only [List.map_cons, Run.run, Put.op, Op.step, hw, ok_bind, hrun]
      · rw [hobs, hobs₁, List.foldl_append]
      · rw [marks, h2, ← List.append_assoc, h1, List.append_assoc, ← hs.bufsize, hmarks,
          List.flatMap_append, List.append_assoc]
    | flush =>
      obtain ⟨rc, st₁, x₁, hf, hst₁, hs, hwin, hobs₁⟩ := flush_feeds (L := L) hT hst.toReady x
      rw [hst.spill] at hwin hobs₁
      have hlevel : st₁.level = 0 := (window_eq_nil hst₁.inBounds).1 hwin
      have hheld : Held st₁ := ⟨hst₁, hs.buftype.trans hst.line,
        by rw [hwin]; exact List.not_mem_nil, by rw [hlevel]; exact hst₁.bufsize⟩
      obtain ⟨st', x', cs, hrun, hst', hobs, hmarks⟩ := ih hheld x₁
      refine ⟨st', x', chunk st.window ++ cs, ?_, hst', ?_, ?_⟩
      · simp only [List.map_cons, Run.run, Put.op, Op.step, hf, ok_bind, hrun]
      · rw [hobs, hobs₁, List.foldl_append]
      · rw [hwin, hlevel, hs.bufsize] at hmarks
        rw [marks, List.flatMap_append, flatMap_markChunk_chunk, List.append_assoc, ← hmarks]
        rfl

/-- What is sent over the stream `str` for some calls of the output stream
made of it: the text, and the line that ends it. -/
def sendText (L : Limits) (S : Sink τ) (str : τ) (block : Bytes) (ps : List Put) :
    Except Fault τ := do
  let (_, st, o) ← dicodOstreamCreate S L str block
  let (_, o') ← Run.run (Op.step L (ostreamTransport S)) (ps.map Put.op) (st, o)
  .ok (S.write o'.transport [dot, newline]).2

theorem map_snd_markBytes (size : ℕ) (f : Fill) (buf : Bytes) :
    (markBytes size f buf).map Prod.snd = buf := by
  induction buf generalizing f with
  | nil => rfl
  | cons b bs ih => rw [markBytes, List.map_cons, ih]

/-- The marked bytes are the bytes written. -/
theorem map_snd_marks (size held : ℕ) (ps : List Put) :
    (marks size held ps).map Prod.snd = written ps := by
  induction ps generalizing held with
  | nil => rfl
  | cons p ps ih =>
    cases p with
    | write buf =>
      rw [marks, List.map_append, map_snd_markBytes, ih]
      rfl
    | flush => exact ih 0

/-- The text is made of lines, each with its newline. -/
def EndsLine (t : Bytes) : Prop := t = [] ∨ t.getLast? = some newline

instance (t : Bytes) : Decidable (EndsLine t) := inferInstanceAs (Decidable (_ ∨ _))

theorem foldl_stuffChunk (g : Bytes) (cs : List Bytes) :
    cs.foldl (fun g c => g ++ stuffChunk c) g = g ++ (cs.flatMap markChunk).flatMap emit := by
  induction cs generalizing g with
  | nil => exact (List.append_nil g).symm
  | cons c cs ih =>
    rw [List.foldl_cons, ih, List.flatMap_cons, List.flatMap_append, flatMap_emit_markChunk,
      List.append_assoc]

/-- **What goes over the wire**: the bytes written, with a dot before every
marked dot, and the line that ends the text. -/
theorem ostream_wire (hS : S.Delivers log) (str : τ) {block : Bytes} (hblock : 0 < block.length)
    {ps : List Put} (htext : EndsLine (written ps)) :
    ∃ t, sendText L S str block ps = .ok t ∧
      log t = log str ++ (marks block.length 0 ps).flatMap emit ++ [dot, newline] := by
  have hset := setBuffer_create (L := L) (T := ostreamTransport S) false true
    (show BufferType.line ≠ .none by decide) hblock ⟨str, false⟩
  have hheld : Held (opened false true .line block) :=
    ⟨⟨⟨rfl, rfl⟩, rfl, BufferType.noConfusion, hblock, rfl, Nat.zero_le _, fun h => absurd rfl h⟩,
      rfl, List.not_mem_nil, hblock⟩
  obtain ⟨st', o', cs, hrun, hst', hobs, hmarks⟩ :=
    runPuts_marks (L := L) (ostream_feeds hS) ps hheld ⟨str, false⟩
  -- the text ends a line, so that nothing is pending after it
  have hempty : st'.window = [] := by
    have hcat := congrArg (List.map Prod.snd) hmarks
    rw [List.map_append, List.map_append, map_snd_markChunk, map_snd_markChunk,
      map_snd_marks] at hcat
    by_contra hne
    rcases htext with h | h
    · rw [h] at hcat
      exact hne (List.append_eq_nil_iff.1 hcat.symm).2
    · have hlast : st'.window.getLast? = some newline := by
        rw [← List.getLast?_append_of_ne_nil _ hne, ← hcat]
        exact h
      exact hst'.noNewline (List.mem_of_getLast? hlast)
  rw [hempty] at hmarks
  refine ⟨(S.write o'.transport [dot, newline]).2, ?_, ?_⟩
  · simp only [sendText, dicodOstreamCreate, hset, hrun, ok_bind]
  · rw [hS.write_log, hobs, foldl_stuffChunk]
    have : cs.flatMap markChunk = marks block.length 0 ps := by
      rw [markChunk, List.append_nil] at hmarks
      exact hmarks.symm
    rw [this]

end Wire

end Dico
