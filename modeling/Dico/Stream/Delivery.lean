import Dico.Stream.Chunks
/-!
# Everything written is delivered

A stream opened for writing, buffered or not, over a transport that takes
at least a byte of whatever it is offered: after any writes and flushes
and a last flush the transport has been given exactly the bytes written,
in order (`delivered_eq_written`). What the transport is given is kept by
`Transport.record`.
-/

namespace Dico

/-- The transport takes one byte at least of what it is offered, and never
fails. -/
def Transport.Accepting {σ : Type} (T : Transport σ) : Prop :=
  ∃ wr, T.write = some wr ∧ ∀ x buf, buf ≠ [] →
    ∃ n x', wr x buf = (.ok n, x') ∧ 1 ≤ n ∧ n ≤ buf.length

/-- A write callback that keeps the bytes taken. -/
def recordWrite {σ : Type} (wr : σ → Bytes → WriteReply × σ) (x : σ × Bytes) (buf : Bytes) :
    WriteReply × σ × Bytes :=
  match wr x.1 buf with
  | (.ok n, x') => (.ok n, x', x.2 ++ buf.take n)
  | (.fail rc, x') => (.fail rc, x', x.2)

/-- The transport with a record of the bytes it took. -/
def Transport.record {σ : Type} (T : Transport σ) : Transport (σ × Bytes) where
  read := T.read.map fun rd x n => ((rd x.1 n).1, (rd x.1 n).2, x.2)
  write := T.write.map recordWrite
  flush := T.flush.map fun fl x => ((fl x.1).1, (fl x.1).2, x.2)
  seek := T.seek.map fun sk x off whence => ((sk x.1 off whence).1, (sk x.1 off whence).2, x.2)

namespace DicoStream

variable {σ : Type} {L : Limits} {T : Transport σ} {st st' : DicoStream} {x x' : σ}

/-- The write loop goes on until the transport took everything. -/
theorem writeLoop_records {wr : σ → Bytes → WriteReply × σ} {log : σ → Bytes}
    (hwr : ∀ x buf, buf ≠ [] → ∃ n x', wr x buf = (.ok n, x') ∧ 1 ≤ n ∧ n ≤ buf.length ∧
      log x' = log x ++ buf.take n)
    (fuel : ℕ) (buf : Bytes) (hfuel : buf.length ≤ fuel) (out : ℕ) (x : σ) :
    ∃ x', writeLoop wr fuel buf out x = .ok (0, out + buf.length, x') ∧
      log x' = log x ++ buf := by
  induction fuel generalizing buf out x with
  | zero =>
    obtain rfl := List.length_eq_zero_iff.1 (Nat.le_zero.1 hfuel)
    exact ⟨x, rfl, (List.append_nil _).symm⟩
  | succ fuel ih =>
    rw [writeLoop]
    by_cases hlen : buf.length = 0
    · obtain rfl := List.length_eq_zero_iff.1 hlen
      exact ⟨x, if_pos hlen, (List.append_nil _).symm⟩
    rw [if_neg hlen]
    -- a round takes a byte at least, so a round for each byte is enough
    obtain ⟨n, x₁, hr, hpos, hle, hlog⟩ := hwr x buf (fun h => hlen (by rw [h]; rfl))
    obtain ⟨x', hrun, hlog'⟩ := ih (buf.drop n) (by rw [List.length_drop]; omega) (out + n) x₁
    have hout : out + n + (buf.drop n).length = out + buf.length := by
      rw [List.length_drop]
      omega
    refine ⟨x', ?_, ?_⟩
    · simp only [hr, if_neg (Nat.ne_of_gt hpos), if_neg (Nat.not_lt.2 hle), hrun, hout]
    · rw [hlog', hlog, List.append_assoc, List.take_append_drop]

/-- A transport that takes something of everything takes everything in the
end. -/
theorem record_feeds (hT : T.Accepting) : T.record.Feeds Prod.snd (· ++ ·) where
  takes := by
    intro st x buf hcan herr hne
    obtain ⟨wr, hwr, hacc⟩ := hT
    have hrec : T.record.write = some (recordWrite wr) := by
      rw [Transport.record, hwr]
      rfl
    have hstep : ∀ x buf, buf ≠ [] → ∃ n x', recordWrite wr x buf = (.ok n, x') ∧ 1 ≤ n ∧
        n ≤ buf.length ∧ x'.2 = x.2 ++ buf.take n := by
      intro x buf hbuf
      obtain ⟨n, x', hr, hpos, hle⟩ := hacc x.1 buf hbuf
      exact ⟨n, (x', x.2 ++ buf.take n), by rw [recordWrite, hr], hpos, hle, rfl⟩
    obtain ⟨x', hrun, hlog⟩ := writeLoop_records hstep buf.length buf (Nat.le_refl _) 0 x
    obtain ⟨st', hw, hf, herr'⟩ := writeUnbuffered_of_loop hrec hcan herr hne hrun
    exact ⟨st', x', hw, hf, herr', hlog⟩
  flushes := by
    intro fl hfl x
    rw [Transport.record, Option.mem_def] at hfl
    obtain ⟨fl', -, rfl⟩ := Option.map_eq_some_iff.1 hfl
    rfl

/-! ## Writes and flushes -/

/-- A call of a user that only writes. -/
inductive Put
  | write (buf : Bytes)
  | flush
  deriving DecidableEq, Repr

/-- It as a call of the stream. -/
def Put.op : Put → Op
  | .write buf => .write buf
  | .flush => .flush

/-- The bytes it writes. -/
def Put.bytes : Put → Bytes
  | .write buf => buf
  | .flush => []

/-- All the bytes some calls write. -/
def written (ps : List Put) : Bytes := ps.flatMap Put.bytes

/-- The chunks the call lets go from a buffer, and what stays pending. -/
def Put.spills (st : DicoStream) : Put → List Bytes × Bytes
  | .write buf => feed st.buftype st.bufsize st.window buf
  | .flush => spill st.buftype st.bufsize true st.window

theorem Put.flatten_spills (hst : Ready st) (p : Put) :
    (p.spills st).1.flatten ++ (p.spills st).2 = st.window ++ p.bytes := by
  cases p with
  | write buf =>
    exact feed_flatten hst.buftype hst.bufsize
      (by rw [length_window hst.inBounds]; exact hst.level) buf
  | flush => exact (spill_flatten _ _ _ _).trans (List.append_nil _).symm

/-- **One call of a buffered stream**, over a transport that admits what it
lets go. -/
theorem put_admitted {γ : Type} {obs : σ → γ} {add : γ → Bytes → γ} {ok : γ → Bytes → Prop}
    (hT : T.FeedsOn obs add ok) (hst : Ready st) (x : σ) (p : Put)
    (hok : Admitted ok add (obs x) (p.spills st).1) :
    ∃ st' x', p.op.step L T (st, x) = .ok (st', x') ∧ Ready st' ∧ SameShape st st' ∧
      st'.window = (p.spills st).2 ∧ obs x' = (p.spills st).1.foldl add (obs x) := by
  cases p with
  | write buf =>
    obtain ⟨st', x', hrun, hst', hs, hwin, hobs⟩ := write_admitted (L := L) hT hst x buf hok
    exact ⟨st', x', by simp only [Put.op, Op.step, hrun, ok_bind], hst', hs, hwin, hobs⟩
  | flush =>
    obtain ⟨rc, st', x', hrun, hst', hs, hwin, hobs⟩ := flush_admitted (L := L) hT hst x hok
    exact ⟨st', x', by simp only [Put.op, Op.step, hrun, ok_bind], hst', hs, hwin, hobs⟩

/-- An unbuffered stream opened for writing. -/
structure Bare (st : DicoStream) : Prop extends Sound st where
  buftype : st.buftype = .none
  dirty : st.dirty = false
  level : st.level = 0

/-- A stream that can be written to: buffered and ready, or unbuffered. -/
def Writable (st : DicoStream) : Prop := Ready st ∨ Bare st

/-- The bytes written to the stream that it has not passed on yet. -/
def pending (st : DicoStream) : Bytes := if st.buftype = .none then [] else st.window

theorem foldl_append_chunks (log : Bytes) (cs : List Bytes) :
    cs.foldl (· ++ ·) log = log ++ cs.flatten := by
  induction cs generalizing log with
  | nil => exact (List.append_nil log).symm
  | cons c cs ih => rw [List.foldl_cons, ih, List.flatten_cons, List.append_assoc]

variable {obs : σ → Bytes}

/-- **A write adds its bytes** to those passed on and those pending. -/
theorem write_delivers (hT : T.Feeds obs (· ++ ·)) (hst : Writable st) (x : σ) (buf : Bytes) :
    ∃ st' x', write L T st x buf = .ok (0, st', x') ∧ Writable st' ∧
      obs x' ++ st'.pending = obs x ++ st.pending ++ buf := by
  rcases hst with hst | hst
  · obtain ⟨st', x', hrun, hst', hs, hwin, hobs⟩ := write_feeds (L := L) hT hst x buf
    refine ⟨st', x', hrun, Or.inl hst', ?_⟩
    rw [pending, if_neg hst'.buftype, pending, if_neg hst.buftype, hobs, hwin,
      foldl_append_chunks, List.append_assoc, List.append_assoc,
      feed_flatten hst.buftype hst.bufsize
        (by rw [length_window hst.inBounds]; exact hst.level)]
  · rw [write, if_pos hst.buftype]
    by_cases hnil : buf = []
    · subst hnil
      exact ⟨st, x, writeUnbuffered_nil (hT.on x) hst.toSound x, Or.inr hst,
        (List.append_nil _).symm⟩
    · obtain ⟨st', x', hrun, hf, herr, hobs⟩ := hT.takes st x buf hst.canWrite hst.err hnil
      have hbare : Bare st' := ⟨⟨hf.canWrite.trans hst.canWrite, herr⟩,
        hf.buftype.trans hst.buftype, hf.dirty.trans hst.dirty, hf.level.trans hst.level⟩
      refine ⟨st', x', hrun, Or.inr hbare, ?_⟩
      rw [pending, if_pos hbare.buftype, pending, if_pos hst.buftype, hobs, List.append_nil,
        List.append_nil]

/-- An unbuffered stream flushes its transport and nothing else. -/
theorem flush_bare (hst : Bare st) (x : σ) :
    flush L T st x = .ok (transportFlush T { st with dirty := false, level := 0, cur := 0 } x) := by
  obtain ⟨k, hk⟩ : ∃ k, L.stack = k + 1 := ⟨L.stack - 1, (Nat.sub_add_cancel L.stack_pos).symm⟩
  have hrun : flushBuffer T L.stack true st x =
      .ok (0, { st with dirty := false, level := 0, cur := 0 }, x) := by
    rw [hk, flushBuffer, hst.dirty, settle, hst.level]
    rfl
  simp only [flush, hrun, ok_bind, ne_eq, not_true_eq_false, if_false]

/-- **A flush passes on all that is pending.** -/
theorem flush_delivers (hT : T.Feeds obs (· ++ ·)) (hst : Writable st) (x : σ) :
    ∃ rc st' x', flush L T st x = .ok (rc, st', x') ∧ Writable st' ∧ st'.pending = [] ∧
      obs x' = obs x ++ st.pending := by
  rcases hst with hst | hst
  · obtain ⟨rc, st', x', hrun, hst', hs, hwin, hobs⟩ := flush_feeds (L := L) hT hst x
    have hnil : (spill st.buftype st.bufsize true st.window).2 = [] := spill_all hst.buftype
    have hflat := spill_flatten st.buftype st.bufsize true st.window
    rw [hnil, List.append_nil] at hflat
    refine ⟨rc, st', x', hrun, Or.inl hst', ?_, ?_⟩
    · rw [pending, if_neg hst'.buftype, hwin, hnil]
    · rw [pending, if_neg hst.buftype, hobs, foldl_append_chunks, hflat]
  · have hbare : Bare { st with dirty := false, level := 0, cur := 0 } :=
      ⟨⟨hst.canWrite, hst.err⟩, hst.buftype, rfl, rfl⟩
    have hpend : st.pending = [] := if_pos hst.buftype
    rw [flush_bare hst, hpend, List.append_nil, transportFlush]
    split
    · exact ⟨0, _, x, rfl, Or.inr hbare, if_pos hst.buftype, rfl⟩
    · rename_i fl hfl
      exact ⟨_, _, _, rfl, Or.inr hbare, if_pos hst.buftype, hT.flushes fl hfl x⟩

/-- Writes and flushes, one after another. -/
theorem runPuts_delivers (hT : T.Feeds obs (· ++ ·)) (ps : List Put) (hst : Writable st) (x : σ) :
    ∃ st' x', Run.run (Op.step L T) (ps.map Put.op) (st, x) = .ok (st', x') ∧ Writable st' ∧
      obs x' ++ st'.pending = obs x ++ st.pending ++ written ps := by
  induction ps generalizing st x with
  | nil => exact ⟨st, x, rfl, hst, (List.append_nil _).symm⟩
  | cons p ps ih =>
    cases p with
    | write buf =>
      obtain ⟨st₁, x₁, hw, hst₁, hobs₁⟩ := write_delivers (L := L) hT hst x buf
      obtain ⟨st', x', hrun, hst', hobs⟩ := ih hst₁ x₁
      refine ⟨st', x', ?_, hst', ?_⟩
      · simp only [List.map_cons, Run.run, Put.op, Op.step, hw, ok_bind, hrun]
      · rw [hobs, hobs₁, List.append_assoc _ buf]
        rfl
    | flush =>
      obtain ⟨rc, st₁, x₁, hf, hst₁, hpend, hobs₁⟩ := flush_delivers (L := L) hT hst x
      obtain ⟨st', x', hrun, hst', hobs⟩ := ih hst₁ x₁
      refine ⟨st', x', ?_, hst', ?_⟩
      · simp only [List.map_cons, Run.run, Put.op, Op.step, hf, ok_bind, hrun]
      · rw [hobs, hpend, List.append_nil, hobs₁]
        rfl

/-- What the transport is given by a stream opened for writing, with a
buffer set, after some writes and flushes and a last flush. -/
def delivered (L : Limits) (T : Transport σ) (type : BufferType) (block : Bytes) (ps : List Put)
    (x : σ) : Except Fault Bytes := do
  let (_, st, y) ← setBuffer L T.record (create false true false) (x, []) type (some block)
  let (_, y') ← Run.run (Op.step L T.record) ((ps ++ [Put.flush]).map Put.op) (st, y)
  .ok y'.2

/-- A stream just opened for writing is writable, whatever buffer it is
given, and has nothing pending. -/
theorem writable_setBuffer (type : BufferType) (block : Bytes) (x : σ) :
    ∃ st, setBuffer L T (create false true false) x type (some block) = .ok (0, st, x) ∧
      Writable st ∧ st.pending = [] := by
  have hbare : Bare { create false true false with buftype := .none, buffer := [] } :=
    ⟨⟨rfl, rfl⟩, rfl, rfl, rfl⟩
  by_cases hpos : type ≠ .none ∧ 0 < block.length
  · exact ⟨_, setBuffer_create false true hpos.1 hpos.2 x,
      Or.inl ⟨⟨rfl, rfl⟩, rfl, hpos.1, hpos.2, rfl, Nat.zero_le _, fun h => absurd rfl h⟩,
      if_neg hpos.1⟩
  · refine ⟨_, ?_, Or.inr hbare, rfl⟩
    rw [not_and_or, not_not, Nat.pos_iff_ne_zero, not_not] at hpos
    cases type with
    | none => rfl
    | line => exact if_pos (hpos.resolve_left (by decide))
    | full => exact if_pos (hpos.resolve_left (by decide))

/-- **Everything written is delivered, in order and once**, whatever the
buffer; so a buffered stream delivers what the unbuffered one does. -/
theorem delivered_eq_written (hT : T.Accepting) (type : BufferType) (block : Bytes)
    (ps : List Put) (x : σ) :
    delivered L T type block ps x = .ok (written ps) ∧
      delivered L T type block ps x = delivered L T .none [] ps x := by
  have hall : ∀ (type : BufferType) (block : Bytes),
      delivered L T type block ps x = .ok (written ps) := by
    intro type block
    have hfeeds := record_feeds hT
    obtain ⟨st, hset, hst, hpend⟩ :=
      writable_setBuffer (L := L) (T := T.record) type block (x, [])
    obtain ⟨st₁, x₁, hrun, hst₁, hobs⟩ := runPuts_delivers (L := L) hfeeds ps hst (x, [])
    obtain ⟨rc, st₂, x₂, hflush, -, -, hlast⟩ := flush_delivers (L := L) hfeeds hst₁ x₁
    rw [hobs, hpend, List.append_nil, List.nil_append] at hlast
    simp only [delivered, hset, ok_bind, List.map_append, Run.run_append, hrun, List.map_cons,
      List.map_nil, Run.run, Put.op, Op.step, hflush, hlast]
  exact ⟨hall type block, (hall type block).trans (hall .none []).symm⟩

/-- A transport that takes two bytes at a time. -/
def pairs : Transport Unit where
  read := none
  write := some fun x buf => (.ok (min 2 buf.length), x)
  flush := none
  seek := none

theorem pairs_accepting : pairs.Accepting := by
  refine ⟨_, rfl, fun x buf hne => ⟨_, x, rfl, ?_, Nat.min_le_right _ _⟩⟩
  have : buf.length ≠ 0 := fun h => hne (List.length_eq_zero_iff.1 h)
  omega

/-- Two lines and the start of a third, in pieces, through a line buffer of
four bytes. -/
theorem delivered_three_lines :
    delivered ample pairs .line [0, 0, 0, 0]
        [.write [97, 98, 10, 99], .flush, .write [100, 101, 102, 103, 104, 10, 105]] () =
      .ok [97, 98, 10, 99, 100, 101, 102, 103, 104, 10, 105] ∧
    delivered ample pairs .line [0, 0, 0, 0]
        [.write [97, 98, 10, 99], .flush, .write [100, 101, 102, 103, 104, 10, 105]] () =
      delivered ample pairs .none []
        [.write [97, 98, 10, 99], .flush, .write [100, 101, 102, 103, 104, 10, 105]] () :=
  delivered_eq_written pairs_accepting _ _ _ _

end DicoStream

end Dico
