import Dico.Stream.Bounds
/-!
# Flushing that does not end

`_stream_flush_buffer` of a stream opened for seeking moves the transport
back before it writes what is pending. It calls `dico_stream_seek` for
that, which flushes the stream first, and nothing has changed by then: the
calls go on until the stack is used up. Every other flush needs one call
of each function.
-/

namespace Dico

/-- A result is no fault. -/
theorem ok_ne_error {ε : Type} {α : Type} (a : α) (e : ε) :
    (Except.ok a : Except ε α) ≠ .error e := by
  intro h
  cases h

/-- A computation that does not end in some fault, step by step. -/
theorem bind_ne_error {ε : Type} {α β : Type} {e : ε} {x : Except ε α} {f : α → Except ε β}
    (hx : x ≠ .error e) (hf : ∀ a, f a ≠ .error e) : (x >>= f) ≠ .error e := by
  cases x with
  | error e' =>
    intro h
    exact hx (by rw [error_bind] at h; rw [Except.error.inj h])
  | ok a => exact hf a

namespace DicoStream

open Memory

variable {σ : Type} {T : Transport σ}

/-! ## The functions that do not call back -/

section Leaves

theorem writeLoop_ne_stack (wr : σ → Bytes → WriteReply × σ) (fuel : ℕ) (buf : Bytes) (out : ℕ)
    (x : σ) : writeLoop wr fuel buf out x ≠ .error .stack := by
  induction fuel generalizing buf out x with
  | zero => exact ok_ne_error _ _
  | succ fuel ih =>
    rw [writeLoop]
    split_ifs with hnil
    · exact ok_ne_error _ _
    · split
      · exact ok_ne_error _ _
      · split_ifs with hzero hlong
        · exact ok_ne_error _ _
        · intro h
          cases Except.error.inj h
        · exact ih _ _ _

theorem writeUnbuffered_ne_stack (st : DicoStream) (x : σ) (buf : Bytes) :
    writeUnbuffered T st x buf ≠ .error .stack := by
  unfold writeUnbuffered
  split
  · exact ok_ne_error _ _
  · split_ifs
    · exact ok_ne_error _ _
    · exact ok_ne_error _ _
    · exact ok_ne_error _ _
    · exact bind_ne_error (writeLoop_ne_stack _ _ _ _ _) fun _ => ok_ne_error _ _

theorem flushPending_ne_stack (st : DicoStream) (x : σ) :
    flushPending T st x ≠ .error .stack := by
  unfold flushPending
  split
  · intro h
    cases Except.error.inj h
  · refine bind_ne_error (writeUnbuffered_ne_stack _ _ _) ?_
    intro r
    dsimp only
    split_ifs
    · exact ok_ne_error _ _
    · exact ok_ne_error _ _

theorem flushLines_ne_stack (fuel : ℕ) (st : DicoStream) (x : σ) :
    flushLines T fuel st x ≠ .error .stack := by
  induction fuel generalizing st x with
  | zero => exact ok_ne_error _ _
  | succ fuel ih =>
    rw [flushLines]
    split
    · intro h
      cases Except.error.inj h
    · split_ifs
      · refine bind_ne_error (writeUnbuffered_ne_stack _ _ _) ?_
        intro r
        dsimp only
        split_ifs
        · exact ok_ne_error _ _
        · exact ih _ _
      · exact ok_ne_error _ _

theorem flushDirty_ne_stack (all : Bool) (st : DicoStream) (x : σ) :
    flushDirty T all st x ≠ .error .stack := by
  unfold flushDirty
  split
  · intro h
    cases Except.error.inj h
  · exact bind_ne_error (flushPending_ne_stack _ _) fun _ => ok_ne_error _ _
  · split_ifs
    · exact ok_ne_error _ _
    · refine bind_ne_error (flushLines_ne_stack _ _ _) ?_
      intro r
      dsimp only
      split_ifs
      · exact ok_ne_error _ _
      · exact flushPending_ne_stack _ _
      · exact ok_ne_error _ _

theorem settle_ne_stack (st : DicoStream) : settle st ≠ .error .stack := by
  unfold settle
  split_ifs
  · split
    · intro h
      cases Except.error.inj h
    · split
      · intro h
        cases Except.error.inj h
      · exact ok_ne_error _ _
  · exact ok_ne_error _ _
  · exact ok_ne_error _ _

end Leaves

/-! ## The circle -/

/-- A state in which flushing seeks, and the seek gets as far as flushing:
output is pending on a stream that was opened for seeking, has a function
for it and has had no error. -/
def Circular (T : Transport σ) (st : DicoStream) : Prop :=
  st.dirty = true ∧ st.canSeek = true ∧ st.err = false ∧ T.seek.isSome = true

instance (T : Transport σ) (st : DicoStream) : Decidable (Circular T st) :=
  inferInstanceAs (Decidable (_ ∧ _ ∧ _ ∧ _))

/-- From there the calls use up any stack: each finds the stream as the one
before it did. -/
theorem Circular.flushBuffer {st : DicoStream} (h : Circular T st) (depth : ℕ) (all : Bool)
    (x : σ) : flushBuffer T depth all st x = .error .stack := by
  obtain ⟨hdirty, hseek, herr, hsome⟩ := h
  obtain ⟨sk, hsk⟩ := Option.isSome_iff_exists.1 hsome
  induction depth generalizing all with
  | zero => rfl
  | succ depth ih =>
    rw [DicoStream.flushBuffer, if_pos hdirty]
    simp only [writeBack, seekWith, hseek, herr, hsk, ih, error_bind, if_true, Bool.not_true,
      Bool.false_eq_true, if_false, reduceCtorEq, false_and]

/-- Otherwise one call is enough. -/
theorem flushBuffer_ne_stack {st : DicoStream} (h : ¬Circular T st) {depth : ℕ} (hpos : 0 < depth)
    (all : Bool) (x : σ) : flushBuffer T depth all st x ≠ .error .stack := by
  obtain ⟨depth, rfl⟩ := Nat.exists_eq_succ_of_ne_zero hpos.ne'
  rw [flushBuffer]
  split_ifs with hdirty
  · refine bind_ne_error ?_ ?_
    · unfold writeBack
      split_ifs with hseek
      · refine bind_ne_error ?_ ?_
        · -- The seek fails before it flushes.
          unfold seekWith
          by_cases herr : st.err = true
          · rw [if_pos herr]
            exact ok_ne_error _ _
          · have hnone : T.seek = none := by
              by_contra hsome
              exact h ⟨hdirty, hseek, by simpa using herr, Option.ne_none_iff_isSome.1 hsome⟩
            rw [if_neg herr, hnone]
            exact ok_ne_error _ _
        · intro r
          dsimp only
          split_ifs
          · exact ok_ne_error _ _
          · exact flushDirty_ne_stack _ _ _
      · exact flushDirty_ne_stack _ _ _
    · intro r
      dsimp only
      split_ifs
      · exact ok_ne_error _ _
      · exact bind_ne_error (settle_ne_stack _) fun _ => ok_ne_error _ _
  · exact bind_ne_error (settle_ne_stack _) fun _ => ok_ne_error _ _

/-- **Flushing ends**, with some stack and with any larger one, just where
no output is pending on a stream that can seek. -/
theorem flush_ends_iff (T : Transport σ) (st : DicoStream) (x : σ) :
    (∃ n, ∀ L : Limits, n ≤ L.stack → flush L T st x ≠ .error .stack) ↔ ¬Circular T st := by
  constructor
  · rintro ⟨n, hn⟩ hc
    refine hn ⟨n + 1, 0, Nat.succ_pos n⟩ (Nat.le_succ n) ?_
    unfold flush
    rw [hc.flushBuffer, error_bind]
  · intro hc
    refine ⟨0, fun L _ => ?_⟩
    unfold flush
    refine bind_ne_error (flushBuffer_ne_stack hc L.stack_pos true x) ?_
    intro r
    dsimp only
    split_ifs
    · exact ok_ne_error _ _
    · exact ok_ne_error _ _

/-- A device that takes what it is given and moves where it is told. -/
def rewindable : Transport Unit where
  read := none
  write := some fun x buf => (.ok buf.length, x)
  flush := none
  seek := some fun x _ _ => (.ok 0, x)

/-- One byte that was written to a stream opened for seeking is enough. -/
theorem not_forall_flush_ends :
    ¬∀ (L : Limits) (T : Transport Unit) (canRead canWrite canSeek : Bool) (type : BufferType)
      (block : Bytes) (ops : List Op) (rc : ℕ) (st st' : DicoStream) (x x' : Unit),
      setBuffer L T (create canRead canWrite canSeek) () type (some block) = .ok (rc, st, x) →
        Run.run (Op.step L T) ops (st, x) = .ok (st', x') →
          ∃ n, ∀ L' : Limits, n ≤ L'.stack → flush L' T st' x' ≠ .error .stack := by
  intro hall
  obtain ⟨n, hn⟩ := hall ample rewindable false true true .full [0, 0] [.write [97]] _ _ _ _ _
    rfl rfl
  refine hn ⟨n + 1, 0, Nat.succ_pos n⟩ (Nat.le_succ n) ?_
  unfold flush
  rw [Circular.flushBuffer (by decide), error_bind]

end DicoStream

end Dico
