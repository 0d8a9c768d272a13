import Dico.Stream.Bounds
/-!
# What a buffer lets out

The write-behind of a stream, said without its block: a buffer holds the
bytes pending, and a write or a flush lets a list of chunks go and leaves
bytes pending. `feed` and `spill` are that abstract buffer; no byte is
lost, doubled or moved by either (`feed_flatten`, `spill_flatten`). The
second half shows that a stream opened for writing does the same, chunk
for chunk, over any transport that takes what it is given
(`write_feeds`, `flush_feeds`), or takes it while the chunks are such as
it admits (`write_admitted`, `flush_admitted`).
-/

namespace Dico

open Memory

/-! ## The abstract buffer -/

/-- The complete lines of some bytes, and what follows the last of them. -/
def cutLines : Bytes → List Bytes × Bytes
  | [] => ([], [])
  | b :: bs =>
    if b = newline then ([b] :: (cutLines bs).1, (cutLines bs).2)
    else match cutLines bs with
      | ([], r) => ([], b :: r)
      | (l :: ls, r) => ((b :: l) :: ls, r)

/-- A chunk, if there is anything in it. -/
def chunk (w : Bytes) : List Bytes := if w = [] then [] else [w]

/-- The chunks a flush of the pending bytes lets go, and what stays
pending. -/
def spill (type : BufferType) (size : ℕ) (all : Bool) (w : Bytes) : List Bytes × Bytes :=
  match type with
  | .none => ([], w)
  | .full => (chunk w, [])
  | .line =>
    if all = true ∨ w.length = size then ((cutLines w).1 ++ chunk (cutLines w).2, [])
    else cutLines w

/-- Whether the pending bytes have to go before more are added. -/
def ripe (type : BufferType) (size : ℕ) (w : Bytes) : Bool :=
  match type with
  | .none => false
  | .full => w.length == size
  | .line => w.length == size || decide (newline ∈ w)

/-- Letting go what has to. -/
def vent (type : BufferType) (size : ℕ) (w : Bytes) : List Bytes × Bytes :=
  if ripe type size w then spill type size false w else ([], w)

/-- Writing bytes to a buffer: the chunks it lets go on the way, and what
is pending in the end. -/
def feed (type : BufferType) (size : ℕ) (w buf : Bytes) : List Bytes × Bytes :=
  let w₁ := (vent type size w).2
  if _h : 0 < min (size - w₁.length) buf.length then
    let n := min (size - w₁.length) buf.length
    let r := feed type size (w₁ ++ buf.take n) (buf.drop n)
    ((vent type size w).1 ++ r.1, r.2)
  else vent type size w
termination_by buf.length
decreasing_by
  rw [List.length_drop]
  exact Nat.sub_lt (Nat.lt_of_lt_of_le _h (Nat.min_le_right _ _)) _h

section Abstract

variable {type : BufferType} {size : ℕ} {w buf : Bytes}

theorem chunk_flatten (w : Bytes) : (chunk w).flatten = w := by
  unfold chunk
  split_ifs with h
  · rw [h, List.flatten_nil]
  · simp only [List.flatten_cons, List.flatten_nil, List.append_nil]

/-- Bytes without a newline are no line yet. -/
theorem cutLines_of_notMem (h : newline ∉ w) : cutLines w = ([], w) := by
  induction w with
  | nil => rfl
  | cons b bs ih =>
    rw [List.mem_cons, not_or] at h
    rw [cutLines, if_neg (Ne.symm h.1), ih h.2]

/-- The first line goes up to the first newline. -/
theorem cutLines_of_mem (h : newline ∈ w) :
    cutLines w = (w.take (w.idxOf newline + 1) :: (cutLines (w.drop (w.idxOf newline + 1))).1,
      (cutLines (w.drop (w.idxOf newline + 1))).2) := by
  induction w with
  | nil => cases h
  | cons b bs ih =>
    by_cases hb : b = newline
    · subst hb
      rw [cutLines, if_pos rfl, List.idxOf_cons_self]
      rfl
    · have hbs : newline ∈ bs := (List.mem_cons.1 h).resolve_left (Ne.symm hb)
      rw [cutLines, if_neg hb, List.idxOf_cons_ne _ hb, ih hbs]
      rfl

theorem cutLines_flatten (w : Bytes) : (cutLines w).1.flatten ++ (cutLines w).2 = w := by
  induction w with
  | nil => rfl
  | cons b bs ih =>
    rw [cutLines]
    split_ifs
    · simp only [List.flatten_cons, List.cons_append, List.nil_append, ih]
    · revert ih
      rcases cutLines bs with ⟨_ | ⟨l, ls⟩, r⟩
      · intro ih
        simpa only [List.flatten_nil, List.nil_append, List.cons.injEq, true_and] using ih
      · intro ih
        simpa only [List.flatten_cons, List.cons_append, List.cons.injEq, true_and] using ih

/-- What is left of the lines has no newline. -/
theorem newline_notMem_cutLines (w : Bytes) : newline ∉ (cutLines w).2 := by
  induction w with
  | nil => exact List.not_mem_nil
  | cons b bs ih =>
    rw [cutLines]
    split_ifs with hb
    · exact ih
    · revert ih
      rcases cutLines bs with ⟨_ | ⟨l, ls⟩, r⟩
      · intro ih h
        exact (List.mem_cons.1 h).elim (fun h => hb h.symm) ih
      · intro ih
        exact ih

/-- **A flush lets go the first of the pending bytes and keeps the rest.** -/
theorem spill_flatten (type : BufferType) (size : ℕ) (all : Bool) (w : Bytes) :
    (spill type size all w).1.flatten ++ (spill type size all w).2 = w := by
  cases type with
  | none => rfl
  | full => rw [spill, List.append_nil, chunk_flatten]
  | line =>
    rw [spill]
    split_ifs
    · rw [List.append_nil, List.flatten_append, chunk_flatten, cutLines_flatten]
    · exact cutLines_flatten w

theorem vent_flatten (type : BufferType) (size : ℕ) (w : Bytes) :
    (vent type size w).1.flatten ++ (vent type size w).2 = w := by
  unfold vent
  split_ifs
  · exact spill_flatten type size false w
  · rfl

/-- A flush of everything leaves nothing pending. -/
theorem spill_all (htype : type ≠ .none) : (spill type size true w).2 = [] := by
  cases type with
  | none => exact absurd rfl htype
  | full => rfl
  | line => rw [spill, if_pos (Or.inl rfl)]

/-- What is left behind is no longer than the pending bytes were. -/
theorem length_spill_le (type : BufferType) (size : ℕ) (all : Bool) (w : Bytes) :
    (spill type size all w).2.length ≤ w.length := by
  have h := congrArg List.length (spill_flatten type size all w)
  rw [List.length_append] at h
  omega

/-- There is room after letting go. -/
theorem length_vent_lt (htype : type ≠ .none) (hpos : 0 < size) (hw : w.length ≤ size) :
    (vent type size w).2.length < size := by
  unfold vent
  by_cases hlen : w.length = size
  · have hripe : ripe type size w = true := by
      cases type with
      | none => exact absurd rfl htype
      | full => exact beq_iff_eq.2 hlen
      | line => rw [ripe, beq_iff_eq.2 hlen, Bool.true_or]
    have hnil : (spill type size false w).2 = [] := by
      cases type with
      | none => exact absurd rfl htype
      | full => rfl
      | line => rw [spill, if_pos (Or.inr hlen)]
    rw [if_pos hripe, hnil]
    exact hpos
  · have hlt : w.length < size := Nat.lt_of_le_of_ne hw hlen
    split_ifs
    · exact Nat.lt_of_le_of_lt (length_spill_le type size false w) hlt
    · exact hlt

/-- One round of writing that copies something. -/
theorem feed_of_pos (h : 0 < min (size - (vent type size w).2.length) buf.length) :
    feed type size w buf =
      ((vent type size w).1 ++
        (feed type size
          ((vent type size w).2 ++ buf.take (min (size - (vent type size w).2.length) buf.length))
          (buf.drop (min (size - (vent type size w).2.length) buf.length))).1,
        (feed type size
          ((vent type size w).2 ++ buf.take (min (size - (vent type size w).2.length) buf.length))
          (buf.drop (min (size - (vent type size w).2.length) buf.length))).2) := by
  conv_lhs => rw [feed]
  exact dif_pos h

/-- Writing nothing lets go what is ripe. -/
theorem feed_nil : feed type size w [] = vent type size w := by
  rw [feed]
  exact dif_neg (by rw [List.length_nil]; omega)

/-- **Writing keeps every byte, in order.** -/
theorem feed_flatten (htype : type ≠ .none) (hpos : 0 < size) (hw : w.length ≤ size)
    (buf : Bytes) :
    (feed type size w buf).1.flatten ++ (feed type size w buf).2 = w ++ buf := by
  induction hlen : buf.length using Nat.strongRecOn generalizing buf w with
  | _ k ih =>
    have hroom := length_vent_lt htype hpos hw
    by_cases hnil : buf.length = 0
    · obtain rfl := List.length_eq_zero_iff.1 hnil
      rw [feed_nil, vent_flatten, List.append_nil]
    · have hn : 0 < min (size - (vent type size w).2.length) buf.length := by omega
      rw [feed_of_pos hn]
      set n := min (size - (vent type size w).2.length) buf.length with hdef
      have hfit : ((vent type size w).2 ++ buf.take n).length ≤ size := by
        rw [List.length_append, List.length_take]
        omega
      have hrest := ih (buf.drop n).length (by rw [List.length_drop]; omega) hfit (buf.drop n) rfl
      rw [List.flatten_append, List.append_assoc, hrest, List.append_assoc, List.take_append_drop,
        ← List.append_assoc, vent_flatten]

end Abstract

/-! ## The stream lets out the same -/

/-- The transport takes what it is given: a stream in order that writes
some bytes writes them all, and what is observed of the transport changes
by just these bytes. -/
structure Transport.Feeds {σ γ : Type} (T : Transport σ) (obs : σ → γ) (add : γ → Bytes → γ) :
    Prop where
  takes : ∀ (st : DicoStream) (x : σ) (buf : Bytes), st.canWrite = true → st.err = false →
    buf ≠ [] → ∃ st' x', st.writeUnbuffered T x buf = .ok (0, st', x') ∧
      DicoStream.SameBuffer st st' ∧ st'.err = false ∧ obs x' = add (obs x) buf
  flushes : ∀ fl ∈ T.flush, ∀ x, obs (fl x).2 = obs x

/-- Chunks one after another, each one of those admitted at what is
observed by then. -/
def Admitted {γ : Type} (ok : γ → Bytes → Prop) (add : γ → Bytes → γ) : γ → List Bytes → Prop
  | _, [] => True
  | g, c :: cs => ok g c ∧ Admitted ok add (add g c) cs

theorem admitted_append {γ : Type} {ok : γ → Bytes → Prop} {add : γ → Bytes → γ} {g : γ}
    {cs ds : List Bytes} :
    Admitted ok add g (cs ++ ds) ↔ Admitted ok add g cs ∧ Admitted ok add (cs.foldl add g) ds := by
  induction cs generalizing g with
  | nil => exact (and_iff_right trivial).symm
  | cons c cs ih => rw [List.cons_append, Admitted, Admitted, ih, List.foldl_cons, and_assoc]

theorem admitted_true {γ : Type} (add : γ → Bytes → γ) (g : γ) (cs : List Bytes) :
    Admitted (fun _ _ => True) add g cs := by
  induction cs generalizing g with
  | nil => trivial
  | cons c cs ih => exact ⟨trivial, ih _⟩

/-- The transport takes the chunks that are admitted. -/
structure Transport.FeedsOn {σ γ : Type} (T : Transport σ) (obs : σ → γ) (add : γ → Bytes → γ)
    (ok : γ → Bytes → Prop) : Prop where
  writes : T.write ≠ none
  takes : ∀ (st : DicoStream) (x : σ) (buf : Bytes), st.canWrite = true → st.err = false →
    buf ≠ [] → ok (obs x) buf → ∃ st' x', st.writeUnbuffered T x buf = .ok (0, st', x') ∧
      DicoStream.SameBuffer st st' ∧ st'.err = false ∧ obs x' = add (obs x) buf
  flushes : ∀ fl ∈ T.flush, ∀ x, obs (fl x).2 = obs x

/-- One that takes what it is given takes every chunk; one without `write`
takes none. -/
theorem Transport.Feeds.on {σ γ : Type} {T : Transport σ} {obs : σ → γ} {add : γ → Bytes → γ}
    (hT : T.Feeds obs add) (x : σ) : T.FeedsOn obs add (fun _ _ => True) where
  writes := by
    intro hwr
    obtain ⟨st', x', hrun, -⟩ := hT.takes (DicoStream.create false true false) x [0] rfl rfl
      (by decide)
    rw [DicoStream.writeUnbuffered, hwr] at hrun
    cases hrun
  takes := fun st x buf hcan herr hne _ => hT.takes st x buf hcan herr hne
  flushes := hT.flushes

namespace DicoStream

variable {σ γ : Type} {L : Limits} {T : Transport σ} {obs : σ → γ} {add : γ → Bytes → γ}
variable {ok : γ → Bytes → Prop}
variable {st st' : DicoStream} {x x' : σ} {n : ℕ}

/-- Opened for writing, and no error so far. -/
structure Sound (st : DicoStream) : Prop where
  canWrite : st.canWrite = true
  err : st.err = false

/-- A buffered stream between two writes: its window starts at the front
of the block, and bytes in it are to be written back. -/
structure Ready (st : DicoStream) : Prop extends Sound st where
  canSeek : st.canSeek = false
  buftype : st.buftype ≠ .none
  bufsize : 0 < st.bufsize
  cur : st.cur = 0
  level : st.level ≤ st.bufsize
  dirty : st.level ≠ 0 → st.dirty = true

theorem Ready.inBounds (h : Ready st) : st.InBounds := by
  unfold InBounds
  rw [h.cur, Nat.zero_add]
  exact h.level

theorem Consumed.window (h : Consumed st st' n) (hb : st.InBounds) :
    st'.window = st.window.drop n := by
  have hlevel := h.level
  have hpeek := peek_drop (peek_window hb) (k := n) (by omega)
  rw [← h.buffer, ← h.cur, show st.level - n = st'.level by omega] at hpeek
  exact peek_val hpeek

theorem window_eq_nil (hb : st.InBounds) : st.window = [] ↔ st.level = 0 := by
  rw [← length_window hb, List.length_eq_zero_iff]

/-- Writing no bytes does nothing, as the transport has a `write`. -/
theorem writeUnbuffered_nil (hT : T.FeedsOn obs add ok) (hst : Sound st) (x : σ) :
    writeUnbuffered T st x [] = .ok (0, st, x) := by
  cases hwr : T.write with
  | none => exact absurd hwr hT.writes
  | some wr =>
    rw [writeUnbuffered, hwr, hst.canWrite, hst.err]
    rfl

/-- Writing out the window lets it go as one chunk. -/
theorem flushPending_admitted (hT : T.FeedsOn obs add ok) (hst : Sound st) (hb : st.InBounds)
    (x : σ) (hok : Admitted ok add (obs x) (chunk st.window)) :
    ∃ st' x', flushPending T st x = .ok (0, st', x') ∧ Consumed st st' st.level ∧ Sound st' ∧
      obs x' = (chunk st.window).foldl add (obs x) := by
  rw [flushPending, peek_window hb]
  by_cases hnil : st.window = []
  · have hlevel := (window_eq_nil hb).1 hnil
    have hsame : st.advanceBuffer st.level = st := by
      rw [hlevel]
      rfl
    have hw := writeUnbuffered_nil hT hst x
    refine ⟨st, x, ?_, hlevel ▸ (SameBuffer.refl st).consumed, hst, ?_⟩
    · simp only [hnil, hw, ok_bind, ne_eq, not_true_eq_false, if_false, hsame]
    · rw [hnil]
      rfl
  · rw [chunk, if_neg hnil] at hok
    obtain ⟨st₁, x₁, hw, hf, herr, hobs⟩ :=
      hT.takes st x st.window hst.canWrite hst.err hnil hok.1
    have hc : Consumed st (st₁.advanceBuffer st₁.level) st.level := by
      rw [← hf.level]
      simpa only [Nat.zero_add] using
        hf.consumed.trans (consumed_advance (Nat.le_refl st₁.level))
    refine ⟨_, x₁, ?_, hc, ⟨hf.canWrite.trans hst.canWrite, herr⟩, ?_⟩
    · simp only [hw, ok_bind, ne_eq, not_true_eq_false, if_false]
    · rw [hobs, chunk, if_neg hnil]
      rfl

/-- Writing out lines lets go the complete ones. -/
theorem flushLines_admitted (hT : T.FeedsOn obs add ok) (fuel : ℕ) (hst : Sound st)
    (hb : st.InBounds) (hfuel : st.level ≤ fuel) (x : σ)
    (hok : Admitted ok add (obs x) (cutLines st.window).1) :
    ∃ st' x' n, flushLines T fuel st x = .ok (0, st', x') ∧ Consumed st st' n ∧ Sound st' ∧
      st'.window = (cutLines st.window).2 ∧
      obs x' = (cutLines st.window).1.foldl add (obs x) := by
  induction fuel generalizing st x with
  | zero =>
    have hnil := (window_eq_nil hb).2 (Nat.le_zero.1 hfuel)
    refine ⟨st, x, 0, rfl, (SameBuffer.refl st).consumed, hst, ?_, ?_⟩
    · rw [hnil]
      rfl
    · rw [hnil]
      rfl
  | succ fuel ih =>
    rw [flushLines, peek_window hb]
    by_cases hmem : newline ∈ st.window
    · set size := st.window.idxOf newline + 1 with hsize
      have hle : size ≤ st.level := by
        rw [← length_window hb]
        exact List.idxOf_lt_length_of_mem hmem
      have hline : st.window.take size ≠ [] := by
        intro h
        have := congrArg List.length h
        rw [List.length_take, length_window hb, List.length_nil] at this
        omega
      rw [cutLines_of_mem hmem, ← hsize] at hok
      obtain ⟨st₁, x₁, hw, hf, herr, hobs⟩ :=
        hT.takes st x (st.window.take size) hst.canWrite hst.err hline hok.1
      have hc : Consumed st (st₁.advanceBuffer size) size := by
        have hle₁ : size ≤ st₁.level := by
          rw [hf.level]
          exact hle
        have := hf.consumed.trans (consumed_advance hle₁)
        rwa [Nat.zero_add] at this
      have hlevel := hc.level
      have hok' : Admitted ok add (obs x₁) (cutLines (st₁.advanceBuffer size).window).1 := by
        rw [hc.window hb, hobs]
        exact hok.2
      obtain ⟨st', x', n, hrun, hc', hst', hwin, hobs'⟩ :=
        ih (show (st₁.advanceBuffer size).Sound from ⟨hf.canWrite.trans hst.canWrite, herr⟩)
          (hc.inBounds hb) (by omega) x₁ hok'
      rw [hc.window hb] at hwin hobs'
      rw [cutLines_of_mem hmem, ← hsize]
      refine ⟨st', x', _, ?_, hc.trans hc', hst', hwin, ?_⟩
      · simp only [if_pos hmem, ← hsize, hw, ok_bind, ne_eq, not_true_eq_false, if_false, hrun]
      · rw [hobs', hobs]
        rfl
    · rw [cutLines_of_notMem hmem]
      exact ⟨st, x, 0, if_neg hmem, (SameBuffer.refl st).consumed, hst, rfl, rfl⟩

/-- The flush of a line buffer: the complete lines go one by one, and what
is left of them in one piece, if all is asked for or the block was full. -/
theorem flushDirty_line_admitted (hT : T.FeedsOn obs add ok) (all : Bool) (hst : Ready st)
    (htype : st.buftype = .line) (x : σ)
    (hok : Admitted ok add (obs x) (spill .line st.bufsize all st.window).1) :
    ∃ st' x' n, flushDirty T all st x = .ok (0, st', x') ∧ Consumed st st' n ∧ Sound st' ∧
      st'.window = (spill .line st.bufsize all st.window).2 ∧
      obs x' = (spill .line st.bufsize all st.window).1.foldl add (obs x) := by
  have hb := hst.inBounds
  rw [flushDirty, htype]
  rw [spill, length_window hb] at hok ⊢
  -- the complete lines go first, whatever follows
  have hlines : Admitted ok add (obs x) (cutLines st.window).1 := by
    split_ifs at hok
    · exact (admitted_append.1 hok).1
    · exact hok
  obtain ⟨st₁, x₁, n, hrun, hc, hs, hwin, hobs⟩ :=
    flushLines_admitted hT st.level hst.toSound hb (Nat.le_refl _) x hlines
  have hb₁ := hc.inBounds hb
  -- consuming moves the start of the window only: the block is full after the lines if it was
  have hend : st₁.bufferFull = true ↔ st.level = st.bufsize := by
    have := hc.cur; have := hc.level; have := hc.shape.bufsize; have := hst.cur
    rw [bufferFull, beq_iff_eq]
    omega
  by_cases hlevel : st.level = 0
  · have hnil := (window_eq_nil hb).2 hlevel
    refine ⟨st, x, 0, if_pos hlevel, (SameBuffer.refl st).consumed, hst.toSound, ?_, ?_⟩
    · rw [hnil]
      split_ifs <;> rfl
    · rw [hnil]
      split_ifs <;> rfl
  simp only [if_neg hlevel, hrun, ok_bind, ne_eq, not_true_eq_false, if_false]
  by_cases hgo : ((all && st₁.level != 0) || st₁.bufferFull) = true
  · have hcond : all = true ∨ st.level = st.bufsize := by
      rcases Bool.or_eq_true_iff.1 hgo with h | h
      · exact Or.inl (Bool.and_eq_true_iff.1 h).1
      · exact Or.inr (hend.1 h)
    rw [if_pos hcond] at hok
    have hrest : Admitted ok add (obs x₁) (chunk st₁.window) := by
      rw [hwin, hobs]
      exact (admitted_append.1 hok).2
    obtain ⟨st₂, x₂, hrun₂, hc₂, hs₂, hobs₂⟩ := flushPending_admitted hT hs hb₁ x₁ hrest
    rw [if_pos hgo, if_pos hcond]
    refine ⟨st₂, x₂, _, hrun₂, hc.trans hc₂, hs₂, ?_, ?_⟩
    · rw [hc₂.window hb₁]
      exact List.drop_eq_nil_of_le (Nat.le_of_eq (length_window hb₁))
    · rw [hobs₂, hobs, hwin, List.foldl_append]
  · rw [if_neg hgo]
    refine ⟨st₁, x₁, n, rfl, hc, hs, ?_, ?_⟩
    all_goals
      rw [Bool.or_eq_true_iff, hend, Bool.and_eq_true_iff, not_or, not_and] at hgo
      split_ifs with hcond
    · -- all is asked for, and the lines were all there was
      have hall := hcond.resolve_right hgo.2
      have hz : st₁.level = 0 := by simpa using hgo.1 hall
      exact (window_eq_nil hb₁).2 hz
    · exact hwin
    · have hall := hcond.resolve_right hgo.2
      have hz : st₁.level = 0 := by simpa using hgo.1 hall
      rw [← hwin, (window_eq_nil hb₁).2 hz, chunk, if_pos rfl, List.append_nil, hobs]
    · exact hobs

/-- The `switch` of the flush lets go what the abstract buffer does. -/
theorem flushDirty_admitted (hT : T.FeedsOn obs add ok) (all : Bool) (hst : Ready st) (x : σ)
    (hok : Admitted ok add (obs x) (spill st.buftype st.bufsize all st.window).1) :
    ∃ st' x' n, flushDirty T all st x = .ok (0, st', x') ∧ Consumed st st' n ∧ Sound st' ∧
      st'.window = (spill st.buftype st.bufsize all st.window).2 ∧
      obs x' = (spill st.buftype st.bufsize all st.window).1.foldl add (obs x) := by
  have hb := hst.inBounds
  cases htype : st.buftype with
  | none => exact absurd htype hst.buftype
  | full =>
    rw [htype, spill] at hok
    obtain ⟨st₁, x₁, hrun, hc, hs, hobs⟩ := flushPending_admitted hT hst.toSound hb x hok
    refine ⟨st₁, x₁, st.level, ?_, hc, hs, ?_, hobs⟩
    · simp only [flushDirty, htype, hrun, ok_bind, ne_eq, not_true_eq_false, if_false]
    · rw [hc.window hb]
      exact List.drop_eq_nil_of_le (Nat.le_of_eq (length_window hb))
  | line =>
    rw [htype] at hok
    exact flushDirty_line_admitted hT all hst htype x hok

/-- What moving the rest to the front leaves alone. -/
theorem settle_frame (h : settle st = .ok st') :
    st'.canWrite = st.canWrite ∧ st'.err = st.err ∧ (st'.level ≠ 0 → st'.dirty = st.dirty) := by
  unfold settle at h
  split_ifs at h with hlevel hcur
  · split at h
    · cases h
    · split at h
      · cases h
      · cases h
        exact ⟨rfl, rfl, fun _ => rfl⟩
  · cases h
    exact ⟨rfl, rfl, fun _ => rfl⟩
  · cases h
    exact ⟨rfl, rfl, fun h => absurd rfl h⟩

/-- Moving what a flush has left to the front makes the stream ready
again. -/
theorem Ready.settled {st₁ : DicoStream} (hst : Ready st) (hc : Consumed st st₁ n)
    (hs : Sound st₁) :
    ∃ st', settle st₁ = .ok st' ∧ Ready st' ∧ SameShape st st' ∧ st'.window = st₁.window := by
  obtain ⟨st', hsettle, hshape, hcur, hlevel, hw⟩ := settle_ok (hc.inBounds hst.inBounds)
  obtain ⟨hcan, herr, hdirty⟩ := settle_frame hsettle
  have hshape' := hc.shape.trans hshape
  have hconsumed := hc.level
  refine ⟨st', hsettle, ⟨⟨hcan.trans hs.canWrite, herr.trans hs.err⟩,
    hshape'.canSeek.trans hst.canSeek, fun h => hst.buftype (hshape'.buftype.symm.trans h),
    by rw [hshape'.bufsize]; exact hst.bufsize, hcur, ?_, ?_⟩, hshape', hw⟩
  · have := hst.level; have := hshape'.bufsize
    omega
  · intro hne
    rw [hdirty hne, hc.dirty]
    exact hst.dirty (by omega)

/-- **A flush of the buffer lets go what the abstract buffer does**, and
leaves the stream ready. -/
theorem flushBuffer_admitted (hT : T.FeedsOn obs add ok) {k : ℕ} (hk : 0 < k) (all : Bool)
    (hst : Ready st) (x : σ)
    (hok : Admitted ok add (obs x) (spill st.buftype st.bufsize all st.window).1) :
    ∃ st' x', flushBuffer T k all st x = .ok (0, st', x') ∧ Ready st' ∧ SameShape st st' ∧
      st'.window = (spill st.buftype st.bufsize all st.window).2 ∧
      obs x' = (spill st.buftype st.bufsize all st.window).1.foldl add (obs x) := by
  obtain ⟨depth, rfl⟩ : ∃ d, k = d + 1 := ⟨k - 1, (Nat.sub_add_cancel hk).symm⟩
  rw [flushBuffer]
  cases hdirty : st.dirty with
  | false =>
    -- what is pending is marked dirty, so there is nothing pending
    have hlevel : st.level = 0 := by
      by_contra hne
      rw [hst.dirty hne] at hdirty
      cases hdirty
    have hwin : (spill st.buftype st.bufsize all st.window) = ([], []) := by
      rw [(window_eq_nil hst.inBounds).2 hlevel]
      cases st.buftype with
      | none => rfl
      | full => rfl
      | line =>
        rw [spill]
        split_ifs <;> rfl
    obtain ⟨st', hsettle, hst', hshape, hw⟩ :=
      hst.settled (SameBuffer.refl st).consumed hst.toSound
    refine ⟨st', x, ?_, hst', hshape, ?_, ?_⟩
    · simp only [Bool.false_eq_true, if_false, hsettle, ok_bind]
    · rw [hwin, hw]
      exact (window_eq_nil hst.inBounds).2 hlevel
    · rw [hwin]
      rfl
  | true =>
    obtain ⟨st₁, x₁, n, hrun, hc, hs, hwin, hobs⟩ := flushDirty_admitted hT all hst x hok
    obtain ⟨st', hsettle, hst', hshape, hw⟩ := hst.settled hc hs
    refine ⟨st', x₁, ?_, hst', hshape, hw.trans hwin, hobs⟩
    simp only [if_true, writeBack, hst.canSeek, Bool.false_eq_true, if_false, hrun, ok_bind,
      ne_eq, not_true_eq_false, hsettle]

/-- The stream takes its buffer for full exactly when the pending bytes
have to go. -/
theorem bufferFullP_eq_ripe (hst : Ready st) :
    st.bufferFullP = .ok (ripe st.buftype st.bufsize st.window) := by
  have hb := hst.inBounds
  have hfull : st.bufferFull = (st.window.length == st.bufsize) := by
    rw [bufferFull, hst.cur, Nat.zero_add, length_window hb]
  unfold bufferFullP
  split
  · rename_i h
    exact absurd h hst.buftype
  · rename_i h
    rw [h, hfull]
    rfl
  · rename_i h
    rw [h, hfull, peek_window hb, ripe]
    split_ifs with hlen
    · rw [hlen, Bool.true_or]
    · rw [Bool.eq_false_iff.2 hlen, Bool.false_or]

theorem makeRoom_admitted (hT : T.FeedsOn obs add ok) (hst : Ready st) (x : σ)
    (hok : Admitted ok add (obs x) (vent st.buftype st.bufsize st.window).1) :
    ∃ st' x', makeRoom L T st x = .ok (0, st', x') ∧ Ready st' ∧ SameShape st st' ∧
      st'.window = (vent st.buftype st.bufsize st.window).2 ∧
      obs x' = (vent st.buftype st.bufsize st.window).1.foldl add (obs x) := by
  rw [makeRoom, bufferFullP_eq_ripe hst, ok_bind]
  rw [vent] at hok ⊢
  by_cases hripe : ripe st.buftype st.bufsize st.window = true
  · rw [if_pos hripe] at hok
    simp only [if_pos hripe]
    exact flushBuffer_admitted hT L.stack_pos false hst x hok
  · simp only [if_neg hripe]
    exact ⟨st, x, rfl, hst, SameShape.refl st, rfl, rfl⟩

/-- Writing lets go what is ripe before anything else. -/
theorem admitted_vent {type : BufferType} {size : ℕ} {w buf : Bytes} {g : γ}
    (hok : Admitted ok add g (feed type size w buf).1) :
    Admitted ok add g (vent type size w).1 := by
  rw [feed] at hok
  split_ifs at hok
  · exact (admitted_append.1 hok).1
  · exact hok

/-- The loop of a write lets go what the abstract buffer does. -/
theorem writeBuffered_admitted (hT : T.FeedsOn obs add ok) (fuel : ℕ) (buf : Bytes)
    (hfuel : buf.length < fuel) (hst : Ready st) (x : σ)
    (hok : Admitted ok add (obs x) (feed st.buftype st.bufsize st.window buf).1) :
    ∃ st' x', writeBuffered L T fuel buf st x = .ok (0, st', x') ∧ Ready st' ∧ SameShape st st' ∧
      st'.window = (feed st.buftype st.bufsize st.window buf).2 ∧
      obs x' = (feed st.buftype st.bufsize st.window buf).1.foldl add (obs x) := by
  induction fuel generalizing buf st x with
  | zero => omega
  | succ fuel ih =>
    obtain ⟨st₁, x₁, hroom, hst₁, hs, hwin, hobs⟩ :=
      makeRoom_admitted (L := L) hT hst x (admitted_vent hok)
    simp only [writeBuffered, hroom, ok_bind, ne_eq, not_true_eq_false, if_false]
    by_cases hnil : buf.length = 0
    · obtain rfl := List.length_eq_zero_iff.1 hnil
      rw [feed_nil]
      exact ⟨st₁, x₁, if_pos hnil, hst₁, hs, hwin, hobs⟩
    rw [if_neg hnil]
    have hwlen : (vent st.buftype st.bufsize st.window).2.length = st₁.level := by
      rw [← hwin, length_window hst₁.inBounds]
    have hlt : st₁.level < st.bufsize := by
      rw [← hwlen]
      exact length_vent_lt hst.buftype hst.bufsize
        (by rw [length_window hst.inBounds]; exact hst.level)
    have hsize := hs.bufsize
    set n := min (st₁.bufsize - st₁.level) buf.length with hn
    have hlen : (buf.take n).length = n := by
      rw [List.length_take]
      omega
    have hin : st₁.cur + st₁.level + (buf.take n).length ≤ st₁.buffer.length := by
      have : st₁.buffer.length = st₁.bufsize := rfl
      rw [hlen, hst₁.cur]
      omega
    obtain ⟨m, hm⟩ : ∃ m, poke st₁.buffer (st₁.cur + st₁.level) (buf.take n) = some m :=
      ⟨_, poke_eq_some hin⟩
    have hmlen : m.length = st₁.bufsize := length_of_poke hm
    set st₂ : DicoStream :=
      { st₁ with buffer := m, level := st₁.level + n, dirty := true } with hst₂
    have hs₂ : SameShape st₁ st₂ := ⟨rfl, hmlen, rfl⟩
    have hready : Ready st₂ := ⟨⟨hst₁.canWrite, hst₁.err⟩, hst₁.canSeek, hst₁.buftype,
      by rw [hs₂.bufsize]; exact hst₁.bufsize, hst₁.cur,
      by rw [hs₂.bufsize]; exact (by omega : st₁.level + n ≤ st₁.bufsize), fun _ => rfl⟩
    -- the copy lands right behind the window, which starts at the front of the block
    have hwin₂ : st₂.window = st₁.window ++ buf.take n := by
      have := peek_poke_append (peek_window hst₁.inBounds) hm
      rw [hlen] at this
      exact peek_val this
    have hpos : 0 < min (st.bufsize - (vent st.buftype st.bufsize st.window).2.length)
        buf.length := by
      rw [hwlen]
      omega
    have hok' : Admitted ok add (obs x₁)
        (feed st₂.buftype st₂.bufsize st₂.window (buf.drop n)).1 := by
      rw [feed_of_pos hpos, hwlen, ← hsize, ← hn, admitted_append] at hok
      rw [(hs.trans hs₂).buftype, hs₂.bufsize, hwin₂, hwin, hobs, ← hsize]
      exact hok.2
    obtain ⟨st', x', hrun, hst', hs', hwin', hobs'⟩ :=
      ih (buf.drop n) (by rw [List.length_drop]; omega) hready x₁ hok'
    rw [(hs.trans hs₂).buftype, (hs.trans hs₂).bufsize, hwin₂, hwin] at hwin' hobs'
    rw [feed_of_pos hpos, hwlen, ← hsize, ← hn]
    rw [hm]
    refine ⟨st', x', hrun, hst', (hs.trans hs₂).trans hs', ?_, ?_⟩
    · rw [hwin', hsize]
    · rw [hobs', hobs, List.foldl_append, hsize]

/-- **A buffered write lets go what the abstract buffer does**, where the
transport admits it. -/
theorem write_admitted (hT : T.FeedsOn obs add ok) (hst : Ready st) (x : σ) (buf : Bytes)
    (hok : Admitted ok add (obs x) (feed st.buftype st.bufsize st.window buf).1) :
    ∃ st' x', write L T st x buf = .ok (0, st', x') ∧ Ready st' ∧ SameShape st st' ∧
      st'.window = (feed st.buftype st.bufsize st.window buf).2 ∧
      obs x' = (feed st.buftype st.bufsize st.window buf).1.foldl add (obs x) := by
  rw [write, if_neg hst.buftype, if_neg (by rw [hst.err]; exact Bool.false_ne_true)]
  exact writeBuffered_admitted hT _ buf (by omega) hst x hok

/-- **And so does `dico_stream_flush`**, whatever the transport's own flush
answers. -/
theorem flush_admitted (hT : T.FeedsOn obs add ok) (hst : Ready st) (x : σ)
    (hok : Admitted ok add (obs x) (spill st.buftype st.bufsize true st.window).1) :
    ∃ rc st' x', flush L T st x = .ok (rc, st', x') ∧ Ready st' ∧ SameShape st st' ∧
      st'.window = (spill st.buftype st.bufsize true st.window).2 ∧
      obs x' = (spill st.buftype st.bufsize true st.window).1.foldl add (obs x) := by
  obtain ⟨st₁, x₁, hrun, hst₁, hs, hwin, hobs⟩ :=
    flushBuffer_admitted hT L.stack_pos true hst x hok
  simp only [flush, hrun, ok_bind, ne_eq, not_true_eq_false, if_false, transportFlush]
  split
  · exact ⟨0, st₁, x₁, rfl, hst₁, hs, hwin, hobs⟩
  · rename_i fl hfl
    exact ⟨_, st₁, _, rfl, hst₁, hs, hwin, (hT.flushes fl hfl x₁).trans hobs⟩

/-- A buffered write over a transport that takes everything. -/
theorem write_feeds (hT : T.Feeds obs add) (hst : Ready st) (x : σ) (buf : Bytes) :
    ∃ st' x', write L T st x buf = .ok (0, st', x') ∧ Ready st' ∧ SameShape st st' ∧
      st'.window = (feed st.buftype st.bufsize st.window buf).2 ∧
      obs x' = (feed st.buftype st.bufsize st.window buf).1.foldl add (obs x) :=
  write_admitted (hT.on x) hst x buf (admitted_true add _ _)

/-- A flush over one. -/
theorem flush_feeds (hT : T.Feeds obs add) (hst : Ready st) (x : σ) :
    ∃ rc st' x', flush L T st x = .ok (rc, st', x') ∧ Ready st' ∧ SameShape st st' ∧
      st'.window = (spill st.buftype st.bufsize true st.window).2 ∧
      obs x' = (spill st.buftype st.bufsize true st.window).1.foldl add (obs x) :=
  flush_admitted (hT.on x) hst x (admitted_true add _ _)

end DicoStream

end Dico
