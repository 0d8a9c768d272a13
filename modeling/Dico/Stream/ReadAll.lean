import Dico.Common.Lines
import Dico.Stream.Lines
/-!
# Reading all lines

The loop `while (dico_stream_getline(…) == 0)`, with which the index of a
dict.org database is read, over a transport that hands out its content
and then reports the end of input. `Feeding` says what is still to come:
the window and then what the transport has left. A read of one byte
takes the first of it or fails, and it fails only where no newline is
left (`read_feeding`): the line buffer keeps an unfinished last line and
fails before it hands any of it out, the other two fail behind it.
Either way the loop does not see that line, and `readsAllLines_iff` says
when it sees everything.
-/

namespace Dico

open Memory

variable {σ : Type}

/-- The transport hands out its content: `rest` is what it has left, a read
returns a beginning of that, and nothing only at its end. -/
def Transport.Supplies (T : Transport σ) (rest : σ → Bytes) : Prop :=
  ∃ rd, T.read = some rd ∧ ∀ x n, 0 < n → ∃ data x', rd x n = (.ok data, x') ∧
    data ++ rest x' = rest x ∧ data.length ≤ n ∧ (data = [] → rest x = [])

namespace DicoStream

variable {L : Limits} {T : Transport σ} {rest : σ → Bytes} {st st' : DicoStream} {x x' : σ}
variable {s : Bytes} {n fuel : ℕ}

/-! ## The transport -/

/-- The state is fit for reading: the end of input is on record only where
nothing is left. -/
structure Readable (rest : σ → Bytes) (st : DicoStream) (x : σ) : Prop where
  canRead : st.canRead = true
  err : st.err = false
  eof : st.eof = true → rest x = []

/-- Reading is not refused then. -/
theorem Readable.not_refused (h : Readable rest st x) :
    ¬ (!st.canRead) = true ∧ ¬ st.err = true := by
  rw [h.canRead, h.err]
  decide

/-- One byte from the transport. -/
theorem readUnbuffered_one (hT : T.Supplies rest) (h : Readable rest st x) :
    ∃ r, readUnbuffered T st x 1 false = .ok r ∧ Readable rest r.st r.dev ∧
      (r.rc = 0 → rest x = charRead r :: rest r.dev) ∧
      (r.rc ≠ 0 → rest x = [] ∧ rest r.dev = []) := by
  obtain ⟨rd, hrd, hsupply⟩ := hT
  obtain ⟨hcan, herr⟩ := h.not_refused
  have herr' : (st.err || false) = false := by rw [h.err, Bool.or_false]
  rw [readUnbuffered, hrd]
  simp only [if_neg hcan, if_neg herr]
  by_cases heof : (st.eof || (1 : ℕ) == 0) = true
  · have hnil : rest x = [] := h.eof (by simpa using heof)
    rw [if_pos heof]
    exact ⟨_, rfl, ⟨h.canRead, herr', h.eof⟩, fun h0 => absurd h0 EIO.property,
      fun _ => ⟨hnil, hnil⟩⟩
  have hnot : st.eof = false := by simpa using heof
  obtain ⟨data, x', hread, hsplit, hle, hend⟩ := hsupply x 1 Nat.one_pos
  rw [if_neg heof]
  cases data with
  | nil =>
    have hnil := hend rfl
    have hnil' : rest x' = [] := hsplit.trans hnil
    have hloop : readLoop rd 1 1 [] x = .ok (0, [], true, x') := by
      simp only [readLoop, hread, List.length_nil, Nat.not_lt_zero, if_false, if_true,
        Nat.one_ne_zero]
    simp only [hloop, ok_bind, Bool.false_eq_true, if_false, List.length_nil, Nat.one_pos,
      if_true]
    exact ⟨_, rfl, ⟨h.canRead, herr', fun _ => hnil'⟩, fun h0 => absurd h0 EIO.property,
      fun _ => ⟨hnil, hnil'⟩⟩
  | cons b data =>
    obtain rfl : data = [] := by
      rw [List.length_cons] at hle
      exact List.length_eq_zero_iff.1 (by omega)
    have hloop : readLoop rd 1 1 [] x = .ok (0, [b], false, x') := by
      simp only [readLoop, hread, List.length_singleton, Nat.lt_irrefl, if_false,
        Nat.one_ne_zero, List.nil_append]
    simp only [hloop, ok_bind, Bool.false_eq_true, if_false, List.length_singleton,
      Nat.lt_irrefl]
    have heof' : ¬ (st.eof || false) = true := by
      rw [hnot]
      decide
    exact ⟨_, rfl, ⟨h.canRead, herr', fun h0 => absurd h0 heof'⟩, fun _ => hsplit.symm,
      fun h0 => absurd rfl h0⟩

/-- As much as the transport cares to return, up to a block. -/
theorem readUnbuffered_some (hT : T.Supplies rest) (h : Readable rest st x) (hn : 0 < n) :
    ∃ data st' x', readUnbuffered T st x n true = .ok ⟨0, data, some data.length, st', x'⟩ ∧
      Readable rest st' x' ∧ data ++ rest x' = rest x ∧ (data = [] → rest x = []) := by
  obtain ⟨rd, hrd, hsupply⟩ := hT
  obtain ⟨hcan, herr⟩ := h.not_refused
  rw [readUnbuffered, hrd]
  simp only [if_neg hcan, if_neg herr]
  have hn' : (n == 0) = false := beq_false_of_ne (Nat.ne_of_gt hn)
  rw [hn', Bool.or_false]
  by_cases heof : st.eof = true
  · rw [if_pos heof]
    exact ⟨[], st, x, rfl, h, rfl, fun _ => h.eof heof⟩
  obtain ⟨data, x', hread, hsplit, hle, hend⟩ := hsupply x n hn
  simp only [if_neg heof, if_true, hread, if_neg (Nat.not_lt.2 hle)]
  refine ⟨data, _, x', rfl, ⟨h.canRead, h.err, fun heof' => ?_⟩, hsplit, hend⟩
  have hnil : data = [] := by
    simpa only [Bool.not_eq_true _ ▸ heof, Bool.false_or, beq_iff_eq,
      List.length_eq_zero_iff] using heof'
  rw [← hend hnil, ← hsplit, hnil, List.nil_append]

/-! ## Filling the buffer -/

/-- Filling a line buffer that holds `n` bytes moves bytes from the
transport behind them; it fails only at the end of input, on a line
without newline. -/
theorem fillLine_supplies (hT : T.Supplies rest) (fuel : ℕ) (h : Readable rest st x)
    (hn : n ≤ st.bufsize) (hnew : newline ∉ st.buffer.take n) :
    ∃ rc m st' x', fillLine T fuel n st x = .ok (rc, m, st', x') ∧ Readable rest st' x' ∧
      SameShape st st' ∧ n ≤ m ∧ m ≤ st.bufsize ∧
      st'.buffer.take m ++ rest x' = st.buffer.take n ++ rest x ∧
      (rc ≠ 0 → rest x' = [] ∧ newline ∉ st'.buffer.take m) ∧
      (rc = 0 → 0 < fuel → n < st.bufsize → n < m) := by
  induction fuel generalizing n st x with
  | zero =>
    exact ⟨0, n, st, x, rfl, h, SameShape.refl st, Nat.le_refl n, hn, rfl, fun h0 => absurd rfl h0,
      fun _ h0 => absurd h0 (Nat.lt_irrefl 0)⟩
  | succ fuel ih =>
    rw [fillLine]
    by_cases hlt : n < st.bufsize
    · obtain ⟨r, hread, hready, hok, hfail⟩ := readUnbuffered_one hT h
      obtain ⟨hsame, -, -⟩ := readUnbuffered_frame hread
      rw [if_pos hlt, hread, ok_bind]
      by_cases hrc : r.rc = 0
      · have hfit : n + [charRead r].length ≤ r.st.buffer.length :=
          Nat.le_trans hlt (Nat.le_of_eq hsame.bufsize.symm)
        obtain ⟨m, hm⟩ : ∃ m, poke r.st.buffer n [charRead r] = some m := ⟨_, poke_eq_some hfit⟩
        have hsize : m.length = st.bufsize := (length_of_poke hm).trans hsame.bufsize
        have hshape : SameShape st { r.st with buffer := m } :=
          ⟨hsame.buftype, hsize, hsame.canSeek⟩
        -- the block holds one byte more
        have htake : m.take (n + 1) = st.buffer.take n ++ [charRead r] := by
          rw [hsame.buffer, ← Nat.zero_add n] at hm
          exact peek_val (peek_poke_append (peek_eq_some (by rwa [Nat.zero_add])) hm)
        have hmove : m.take (n + 1) ++ rest r.dev = st.buffer.take n ++ rest x := by
          rw [htake, hok hrc, List.append_assoc, List.singleton_append]
        simp only [if_neg (not_not.2 hrc), hm]
        by_cases hc : charRead r = newline
        · rw [if_pos hc]
          exact ⟨0, n + 1, _, r.dev, rfl, ⟨hready.canRead, hready.err, hready.eof⟩, hshape,
            Nat.le_succ n, hlt, hmove, fun h0 => absurd rfl h0, fun _ _ _ => Nat.lt_succ_self n⟩
        · rw [if_neg hc]
          have hnew' : newline ∉ m.take (n + 1) := by
            rw [htake, List.mem_append, List.mem_singleton, not_or]
            exact ⟨hnew, Ne.symm hc⟩
          obtain ⟨rc, k, st', x', hrun, hready', hs, hge, hk, hmove', hend, -⟩ :=
            @ih { r.st with buffer := m } _ _ ⟨hready.canRead, hready.err, hready.eof⟩
              (show n + 1 ≤ m.length from Nat.le_trans hlt (Nat.le_of_eq hsize.symm)) hnew'
          exact ⟨rc, k, st', x', hrun, hready', hshape.trans hs, Nat.le_of_succ_le hge,
            hk.trans (Nat.le_of_eq hsize), hmove'.trans hmove, hend, fun _ _ _ => hge⟩
      · rw [if_pos hrc]
        obtain ⟨hend, hend'⟩ := hfail hrc
        refine ⟨r.rc, n, r.st, r.dev, rfl, hready, hsame.shape, Nat.le_refl n, hn, ?_,
          fun _ => ⟨hend', ?_⟩, fun h0 => absurd h0 hrc⟩
        · rw [hsame.buffer, hend, hend']
        · rw [hsame.buffer]
          exact hnew
    · exact ⟨0, n, st, x, if_neg hlt, h, SameShape.refl st, Nat.le_refl n, hn, rfl,
        fun h0 => absurd rfl h0, fun _ _ h0 => absurd h0 hlt⟩

/-- What a reader has before it: the bytes of the window, and those the
transport has left. -/
structure Feeding (rest : σ → Bytes) (st : DicoStream) (x : σ) (s : Bytes) : Prop where
  ready : Readable rest st x
  inBounds : st.InBounds
  pos : st.buftype ≠ .none → 0 < st.bufsize
  unbuffered : st.buftype = .none → st.level = 0
  pending : s = st.window ++ rest x

/-- An empty window has no bytes. -/
theorem window_of_level (h : st.level = 0) : st.window = [] := by
  rw [window, h, List.take_zero]

/-- **Filling an empty buffer** leaves what is to come as it is. It fails
only where no newline is to come, and stays empty only where nothing
is. -/
theorem fillBuffer_feeding (hT : T.Supplies rest) (h : Feeding rest st x s) (hlevel : st.level = 0)
    (htype : st.buftype ≠ .none) :
    ∃ rc st' x', fillBuffer T st x = .ok (rc, st', x') ∧ Feeding rest st' x' s ∧
      st'.buftype = st.buftype ∧ (rc ≠ 0 → newline ∉ s) ∧ (rc = 0 → st'.level = 0 → s = []) := by
  have hpos := h.pos htype
  have hs : s = rest x := by rw [h.pending, window_of_level hlevel, List.nil_append]
  unfold fillBuffer
  cases hkind : st.buftype with
  | none => exact absurd hkind htype
  | full =>
    obtain ⟨data, st₁, x₁, hread, hready, hsplit, hend⟩ := readUnbuffered_some hT h.ready hpos
    obtain ⟨hsame, hlen, -⟩ := readUnbuffered_frame hread
    have hfit : 0 + data.length ≤ st₁.buffer.length := by
      rw [Nat.zero_add]
      exact hlen.trans (Nat.le_of_eq hsame.bufsize.symm)
    obtain ⟨m, hm⟩ : ∃ m, poke st₁.buffer 0 data = some m := ⟨_, poke_eq_some hfit⟩
    have hsize : m.length = st.bufsize := (length_of_poke hm).trans hsame.bufsize
    have hwindow : m.take data.length = data := peek_val (peek_poke hm)
    simp only [hread, ok_bind, hm, ne_eq, not_true_eq_false, if_false, Option.getD_some]
    refine ⟨0, _, x₁, rfl, ⟨⟨hready.canRead, hready.err, hready.eof⟩, ?_, ?_, ?_, ?_⟩,
      hsame.buftype.trans hkind, fun h0 => absurd rfl h0, fun _ h0 => ?_⟩
    · simpa only [InBounds, bufsize, hsize, Nat.zero_add] using hlen
    · exact fun _ => Nat.lt_of_lt_of_eq hpos hsize.symm
    · intro h0
      exact absurd (hsame.buftype.symm.trans h0) htype
    · rw [hs, ← hsplit]
      simp only [window, List.drop_zero, hwindow]
    · rw [hs]
      exact hend (List.length_eq_zero_iff.1 h0)
  | line =>
    obtain ⟨rc, m, st₁, x₁, hrun, hready, hshape, -, hm, hmove, hfail, hgrow⟩ :=
      fillLine_supplies hT st.bufsize h.ready (Nat.zero_le _) List.not_mem_nil
    have hsize : st₁.buffer.length = st.bufsize := hshape.bufsize
    rw [List.take_zero, List.nil_append, ← hs] at hmove
    simp only [hrun, ok_bind]
    refine ⟨rc, _, x₁, rfl, ⟨⟨hready.canRead, hready.err, hready.eof⟩, ?_, ?_, ?_, ?_⟩,
      hshape.buftype.trans hkind, fun h0 => ?_, fun h0 h1 => ?_⟩
    · simpa only [InBounds, bufsize, hsize, Nat.zero_add] using hm
    · exact fun _ => Nat.lt_of_lt_of_eq hpos hsize.symm
    · intro h0
      exact absurd (hshape.buftype.symm.trans h0) htype
    · rw [← hmove]
      rfl
    · obtain ⟨hnil, hnew⟩ := hfail h0
      rwa [← hmove, hnil, List.append_nil]
    · exact absurd h1 (Nat.ne_of_gt (hgrow h0 hpos hpos))

/-- The same where it is filled only if it is empty. -/
theorem refill_feeding (hT : T.Supplies rest) (h : Feeding rest st x s)
    (htype : st.buftype ≠ .none) :
    ∃ rc st' x', refill T st x = .ok (rc, st', x') ∧ Feeding rest st' x' s ∧
      st'.buftype = st.buftype ∧ (rc ≠ 0 → newline ∉ s) ∧ (rc = 0 → st'.level = 0 → s = []) := by
  unfold refill
  by_cases hlevel : st.level = 0
  · rw [if_pos hlevel]
    exact fillBuffer_feeding hT h hlevel htype
  · exact ⟨0, st, x, if_neg hlevel, h, rfl, fun h0 => absurd rfl h0, fun _ h0 => absurd h0 hlevel⟩

/-! ## One byte at a time -/

/-- A byte that is in the buffer is copied from there. -/
theorem Feeding.advance (h : Feeding rest st x s) (htype : st.buftype ≠ .none)
    (hlevel : st.level ≠ 0) :
    ∃ b s', s = b :: s' ∧ peek st.buffer st.cur 1 = some [b] ∧
      Feeding rest (st.advanceBuffer 1) x s' := by
  have hc := consumed_advance (Nat.pos_of_ne_zero hlevel)
  obtain ⟨b, w, hw⟩ : ∃ b w, st.window = b :: w := by
    refine List.exists_cons_of_ne_nil fun hnil => hlevel ?_
    rw [← length_window h.inBounds, hnil, List.length_nil]
  have hpeek := peek_part (peek_window h.inBounds) (show 0 + 1 ≤ st.level by omega)
  have hdrop := peek_drop (peek_window h.inBounds) (Nat.pos_of_ne_zero hlevel)
  rw [hw] at hpeek hdrop
  refine ⟨b, w ++ rest x, ?_, hpeek, ⟨h.ready.canRead, h.ready.err, h.ready.eof⟩,
    hc.inBounds h.inBounds, h.pos, fun h0 => absurd h0 htype, ?_⟩
  · rw [h.pending, hw, List.cons_append]
  · exact congrArg (· ++ rest x) (peek_val hdrop).symm

/-- **A read of one byte** takes the first byte to come, or fails where no
newline is to come. -/
theorem read_feeding (hT : T.Supplies rest) (h : Feeding rest st x s) :
    ∃ r, read T st x 1 false = .ok r ∧
      (r.rc = 0 → ∃ s', s = charRead r :: s' ∧ Feeding rest r.st r.dev s') ∧
      (r.rc ≠ 0 → newline ∉ s) := by
  by_cases htype : st.buftype = .none
  · have hlevel := h.unbuffered htype
    have hs : s = rest x := by rw [h.pending, window_of_level hlevel, List.nil_append]
    obtain ⟨r, hread, hready, hok, hfail⟩ := readUnbuffered_one hT h.ready
    obtain ⟨hsame, -, -⟩ := readUnbuffered_frame hread
    rw [read, if_pos htype]
    refine ⟨r, hread, fun h0 => ⟨rest r.dev, hs.trans (hok h0), hready, hsame.inBounds h.inBounds,
      fun h1 => absurd (hsame.buftype.trans htype) h1, fun _ => hsame.level.trans hlevel, ?_⟩,
      fun h0 => ?_⟩
    · rw [window_of_level (hsame.level.trans hlevel), List.nil_append]
    · rw [hs, (hfail h0).1]
      exact List.not_mem_nil
  · obtain ⟨rc, st₁, x₁, hrefill, h₁, htype₁, hfail, hend⟩ := refill_feeding hT h htype
    rw [read, if_neg htype, if_neg h.ready.not_refused.2]
    by_cases hrc : rc = 0
    · by_cases hlevel : st₁.level = 0
      · -- nothing came: the loop is left, and no byte is too few
        have hloop : readBuffered T 1 1 [] st x = .ok (false, [], st₁, x₁) := by
          simp only [readBuffered, Nat.one_ne_zero, if_false, hrefill, ok_bind, hrc, ne_eq,
            not_true_eq_false, hlevel, if_true]
        simp only [hloop, ok_bind, Bool.false_eq_true, if_false, List.length_nil, Nat.one_pos,
          if_true]
        refine ⟨_, rfl, fun h0 => absurd h0 EIO.property, fun _ => ?_⟩
        rw [hend hrc hlevel]
        exact List.not_mem_nil
      · obtain ⟨b, s', hs, hpeek, h₂⟩ := h₁.advance (fun h0 => htype (htype₁.symm.trans h0)) hlevel
        have hmin : min 1 st₁.level = 1 := by omega
        have hloop : readBuffered T 1 1 [] st x = .ok (false, [b], st₁.advanceBuffer 1, x₁) := by
          simp only [readBuffered, Nat.one_ne_zero, if_false, hrefill, ok_bind, hrc, ne_eq,
            not_true_eq_false, hlevel, hmin, hpeek, List.nil_append, ite_self]
        simp only [hloop, ok_bind, Bool.false_eq_true, if_false, List.length_singleton,
          Nat.lt_irrefl]
        exact ⟨_, rfl, fun _ => ⟨s', hs, h₂⟩, fun h0 => absurd rfl h0⟩
    · have hloop : readBuffered T 1 1 [] st x = .ok (true, [], st₁, x₁) := by
        simp only [readBuffered, Nat.one_ne_zero, if_false, hrefill, ok_bind, hrc, ne_eq,
          not_false_eq_true, if_true, List.length_nil, BEq.rfl]
      simp only [hloop, ok_bind, if_true]
      exact ⟨_, rfl, fun h0 => absurd h0 Nat.one_ne_zero, fun _ => hfail hrc⟩

/-- The next line where a newline is to come. -/
theorem Feeding.nextLine (hT : T.Supplies rest) {body : Bytes} (hbody : newline ∉ body)
    (h : Feeding rest st x (body ++ newline :: s)) :
    ∃ st' x', NextLine T st x (body ++ [newline]) 0 st' x' ∧ Feeding rest st' x' s := by
  induction body generalizing st x with
  | nil =>
    obtain ⟨r, hread, hok, hfail⟩ := read_feeding hT h
    have hrc : r.rc = 0 := by
      by_contra hrc
      exact hfail hrc List.mem_cons_self
    obtain ⟨s', hs, h'⟩ := hok hrc
    obtain ⟨hc, rfl⟩ := List.cons.inj hs
    exact ⟨r.st, r.dev, .ends hread hrc hc.symm, h'⟩
  | cons b body ih =>
    rw [List.mem_cons, not_or] at hbody
    obtain ⟨r, hread, hok, hfail⟩ := read_feeding hT h
    have hrc : r.rc = 0 := by
      by_contra hrc
      exact hfail hrc (List.mem_append_right _ List.mem_cons_self)
    obtain ⟨s', hs, h'⟩ := hok hrc
    rw [List.cons_append] at hs
    obtain ⟨hc, rfl⟩ := List.cons.inj hs
    obtain ⟨st', x', hnext, hfeed⟩ := ih hbody.2 h'
    subst hc
    exact ⟨st', x', .more hread hrc (Ne.symm hbody.1) hnext, hfeed⟩

/-! ## The loop -/

/-- The loop `while (dico_stream_getline(stream, &buf, &size, &n) == 0)`:
the lines its body sees. -/
def readLines (L : Limits) (T : Transport σ) : ℕ → ℕ → DicoStream → σ → Except Fault (List Bytes)
  | 0, _, _, _ => .error .loop
  | fuel + 1, n, st, x => do
    let (rc, line, n, st, x) ← getline L T st x n
    if rc ≠ 0 then .ok []
    else do
      let ls ← readLines L T fuel n st x
      .ok (line :: ls)

/-- Every line it sees has its newline, and fits the largest block. -/
theorem readLines_line {ls : List Bytes} (h : readLines L T fuel n st x = .ok ls) :
    ∀ l ∈ ls, (∃ body, l = body ++ [newline] ∧ newline ∉ body) ∧ l.length < max n neededMax := by
  induction fuel generalizing n st x ls with
  | zero => cases h
  | succ fuel ih =>
    obtain ⟨⟨rc, line, n', st', x'⟩, hget, h⟩ := bind_eq_ok.1 (h : Except.bind _ _ = _)
    obtain ⟨hlen, hn', hline⟩ := getline_line hget
    by_cases hrc : rc = 0
    · simp only [hrc, ne_eq, not_true_eq_false, if_false] at h
      obtain ⟨ls', hls', h⟩ := bind_eq_ok.1 h
      cases h
      intro l hl
      rcases List.mem_cons.1 hl with rfl | hl
      · exact ⟨hline hrc, hlen⟩
      · rw [← hn']
        exact ih hls' l hl
    · simp only [hrc, ne_eq, not_false_eq_true, if_true] at h
      cases h
      exact fun l hl => absurd hl List.not_mem_nil

/-- **Lines that all have their newline are all seen.** -/
theorem readLines_feeding (hT : T.Supplies rest) {ls : List Bytes}
    (hls : ∀ l ∈ ls, (∃ body, l = body ++ [newline] ∧ newline ∉ body) ∧
      l.length < max n neededMax ∧ 2 * l.length + 1 ≤ L.mem)
    (hmem : 120 ≤ L.mem) (h : Feeding rest st x ls.flatten) :
    readLines L T (ls.length + 1) n st x = .ok ls := by
  induction ls generalizing n st x with
  | nil =>
    -- nothing is to come, so the first read fails
    obtain ⟨r, hread, hok, -⟩ := read_feeding hT h
    have hrc : r.rc ≠ 0 := by
      intro hrc
      obtain ⟨s', hs, -⟩ := hok hrc
      cases hs
    obtain ⟨n', hget, -⟩ := getline_of_nextLine (L := L) (n := n) (.fails hread hrc) hmem
      (by rw [List.length_nil]; omega)
      (Nat.lt_of_lt_of_le (by decide) (Nat.le_max_right _ _))
    simp only [List.length_nil, readLines, hget, ok_bind, ne_eq, hrc, not_false_eq_true, if_true]
  | cons l ls ih =>
    obtain ⟨⟨body, rfl, hbody⟩, hmax, hroom⟩ := hls l List.mem_cons_self
    rw [List.flatten_cons, List.append_assoc, List.singleton_append] at h
    obtain ⟨st', x', hnext, h'⟩ := h.nextLine hT hbody
    obtain ⟨n', hget, hn'⟩ := getline_of_nextLine (L := L) (n := n) hnext hmem hroom hmax
    have hrest : readLines L T (ls.length + 1) n' st' x' = .ok ls := by
      refine ih (fun l hl => ?_) h'
      rw [hn']
      exact hls l (List.mem_cons_of_mem _ hl)
    rw [List.length_cons, readLines, hget, ok_bind]
    simp only [ne_eq, not_true_eq_false, if_false, hrest, ok_bind]

/-- With enough memory the loop ends, the lines it sees make up the
content, and every one of them but the last ends in a newline. -/
def ReadsAllLines (T : Transport σ) (st : DicoStream) (x : σ) (n : ℕ) (content : Bytes) : Prop :=
  ∃ M fuel, ∀ L : Limits, M ≤ L.mem → ∃ ls, readLines L T fuel n st x = .ok ls ∧
    ls.flatten = content ∧ ∀ l ∈ ls.dropLast, l.getLast? = some newline

/-- A stream opened for reading, with a buffer. -/
def reader (canWrite canSeek : Bool) (type : BufferType) (block : Bytes) : DicoStream :=
  { create true canWrite canSeek with buftype := type, buffer := block }

/-- All of the transport's content is to come. -/
theorem feeding_reader (canWrite canSeek : Bool) (type : BufferType) {block : Bytes}
    (hpos : 0 < block.length) (rest : σ → Bytes) (x : σ) :
    Feeding rest (reader canWrite canSeek type block) x (rest x) where
  ready := ⟨rfl, rfl, fun h => absurd h Bool.false_ne_true⟩
  inBounds := Nat.zero_le _
  pos := fun _ => hpos
  unbuffered := fun _ => rfl
  pending := rfl

/-- **When the loop sees everything**: exactly where the content is empty
or ends in a newline, and no line is too long for the largest block. -/
theorem readsAllLines_iff (hT : T.Supplies rest) (canWrite canSeek : Bool) (type : BufferType)
    {block : Bytes} (hpos : 0 < block.length) (x : σ) (n : ℕ) :
    ReadsAllLines T (reader canWrite canSeek type block) x n (rest x) ↔
      (rest x = [] ∨ (rest x).getLast? = some newline) ∧
        ∀ l ∈ Lines.lines newline (rest x), l.length < max n neededMax := by
  constructor
  · rintro ⟨M, fuel, hall⟩
    obtain ⟨ls, hrun, hflat, -⟩ := hall (Limits.withMem M) (Nat.le_refl _)
    have hls := readLines_line hrun
    have hlines : Lines.lines newline (rest x) = ls := by
      rw [← hflat]
      exact Lines.lines_flatten fun l hl => (hls l hl).1
    refine ⟨?_, fun l hl => (hls l (hlines ▸ hl)).2⟩
    rw [← hflat]
    rcases List.eq_nil_or_concat' ls with rfl | ⟨ls', l, rfl⟩
    · exact .inl rfl
    · obtain ⟨⟨body, rfl, -⟩, -⟩ := hls l (List.mem_append_right _ (List.mem_singleton.2 rfl))
      refine .inr ?_
      rw [List.flatten_append, List.flatten_singleton, ← List.append_assoc, List.getLast?_concat]
  · rintro ⟨hend, hlen⟩
    have hbody : ∀ l ∈ Lines.lines newline (rest x), ∃ body, l = body ++ [newline] ∧
        newline ∉ body := fun l hl => Lines.exists_body_of_mem_lines hend hl
    refine ⟨2 * (rest x).length + 120, (Lines.lines newline (rest x)).length + 1, fun L hmem => ?_⟩
    have hfeed := feeding_reader canWrite canSeek type hpos rest x
    rw [← Lines.flatten_lines newline (rest x)] at hfeed
    refine ⟨_, readLines_feeding hT (fun l hl => ⟨hbody l hl, hlen l hl, ?_⟩) (by omega) hfeed,
      Lines.flatten_lines newline _, fun l hl => ?_⟩
    · have hle : l.length ≤ (rest x).length := by
        rw [← Lines.flatten_lines newline (rest x)]
        exact (List.sublist_flatten_of_mem hl).length_le
      omega
    · obtain ⟨body, rfl, -⟩ := hbody l (List.mem_of_mem_dropLast hl)
      exact List.getLast?_concat

/-- The bytes that are left are what the transport has. -/
theorem supplies_remaining : remaining.Supplies id := by
  refine ⟨_, rfl, fun x n hn => ⟨_, _, rfl, List.take_append_drop n x, List.length_take_le n x, ?_⟩⟩
  intro hnil
  exact (List.take_eq_nil_iff.1 hnil).resolve_left (Nat.ne_of_gt hn)

/-- Two lines through a line buffer of two bytes. -/
theorem readsAllLines_twoLines :
    ReadsAllLines remaining (reader false false .line [0, 0]) [97, 98, 99, 10, 10] 0
      [97, 98, 99, 10, 10] := by
  refine (readsAllLines_iff supplies_remaining false false .line (by decide) _ 0).2 ⟨.inr rfl, ?_⟩
  exact List.forall_iff_forall_mem.1 (by decide)

/-- **A last line without newline is not seen**: the content `a` has one
line, and the loop sees none. -/
theorem not_readsAllLines_unterminated :
    ¬ ∀ (content : Bytes) (type : BufferType) (block : Bytes), 0 < block.length →
      ReadsAllLines remaining (reader false false type block) content 0 content := by
  intro hall
  obtain ⟨M, fuel, hrun⟩ := hall [97] .full [0] (by decide)
  obtain ⟨ls, hls, hflat, -⟩ := hrun (Limits.withMem M) (Nat.le_refl _)
  -- every line that is seen has a newline, and the content has none
  have hnil : ls = [] := by
    refine List.eq_nil_iff_forall_not_mem.2 fun l hl => ?_
    obtain ⟨⟨body, rfl, -⟩, -⟩ := readLines_line hls l hl
    have hmem : newline ∈ ls.flatten :=
      List.mem_flatten.2 ⟨_, hl, List.mem_append_right _ (List.mem_singleton.2 rfl)⟩
    rw [hflat] at hmem
    exact absurd hmem (by decide)
  rw [hnil] at hflat
  cases hflat

end DicoStream

end Dico
