import Dico.Stream.Seek
/-!
# Streams over transports that fail

A transport may fail whenever it likes and still be faithful: when it says
that it moved it has, and when it says that it read it has read the file.
On a stream without a buffer over such a transport a seek that is not
reported to have failed is followed by a read of the right place; and an
error is never reported as none.
-/

namespace Dico

open Memory

variable {σ : Type}

/-- **A transport that is a file when it does not fail.** -/
structure Transport.Faithful (T : Transport σ) (content : Bytes) (pos : σ → ℕ) : Prop where
  flush : T.flush = none
  read : ∀ rd, T.read = some rd → ∀ x n data x', rd x n = (.ok data, x') →
    data = (content.drop (pos x)).take n
  seek : ∀ sk, T.seek = some sk → ∀ x offset whence res x', sk x offset whence = (.ok res, x') →
    res = seekTarget content (pos x) offset whence ∧ (pos x' : ℤ) = res

/-- **A mapped file is one.** -/
theorem mapfile_faithful (content : Bytes) : (mapfile content).Faithful content id where
  flush := rfl
  read rd hrd x n data x' h := by
    obtain rfl := Option.some.inj hrd
    rw [mapfileRead] at h
    split at h
    · cases h
    · obtain ⟨hdata, -⟩ := Prod.mk.inj h
      obtain rfl := ReadReply.ok.inj hdata
      rw [id_eq]
      split
      · rw [List.take_of_length_le (by rw [List.length_drop]),
          List.take_of_length_le (by rw [List.length_drop]; omega)]
      · rfl
  seek sk hsk x offset whence res x' h := by
    obtain rfl := Option.some.inj hsk
    rw [mapfileSeek] at h
    split at h
    · cases h
    · obtain ⟨hres, rfl⟩ := Prod.mk.inj h
      obtain rfl := SeekReply.ok.inj hres
      rw [id_eq, id_eq]
      exact ⟨rfl, by omega⟩

namespace DicoStream

/-- A stream without a buffer whose error, if there is one, has a code. -/
structure Naked (st : DicoStream) : Prop where
  buftype : st.buftype = .none
  level : st.level = 0
  cur : st.cur = 0
  dirty : st.dirty = false
  err : st.err = true → st.lastErr ≠ 0

variable {T : Transport σ} {content : Bytes} {pos : σ → ℕ} {st st' : DicoStream} {x x' : σ}

/-- A stream that was just opened. -/
theorem naked_create (canRead canWrite canSeek : Bool) :
    Naked (create canRead canWrite canSeek) :=
  ⟨rfl, rfl, rfl, rfl, fun h => by cases h⟩

theorem Naked.seterror (h : Naked st) {code : ℕ} (hcode : code ≠ 0) (perm : Bool) :
    Naked (st.seterror code perm) :=
  ⟨h.buftype, h.level, h.cur, h.dirty, fun _ => hcode⟩

/-- There is nothing to flush. -/
theorem Naked.flush (L : Limits) (h : Naked st) (hT : T.flush = none) :
    DicoStream.flush L T st x = .ok (0, st, x) := by
  obtain ⟨depth, hdepth⟩ : ∃ depth, L.stack = depth + 1 :=
    ⟨L.stack - 1, by have := L.stack_pos; omega⟩
  have hsame : { st with dirty := false, level := 0, cur := 0 } = st := by
    obtain ⟨-, hlevel, hcur, hdirty, -⟩ := h
    cases st
    subst hlevel hcur hdirty
    rfl
  have hbuffer : flushBuffer T L.stack true st x = .ok (0, st, x) := by
    rw [hdepth, flushBuffer, if_neg (by rw [h.dirty]; exact Bool.false_ne_true), settle,
      if_neg (not_not.2 h.level), ok_bind, hsame]
  simp only [DicoStream.flush, hbuffer, ok_bind, ne_eq, not_true_eq_false, if_false,
    transportFlush, hT]

/-- **A seek fails with an error, or moves.** -/
theorem Naked.seek {L : Limits} (hT : T.Faithful content pos) (h : Naked st) {offset : ℕ} {res : ℤ}
    (hseek : st.seek L T x offset .set = .ok (res, st', x')) :
    Naked st' ∧ (res < 0 → st'.lastErr ≠ 0) ∧
      (0 ≤ res → pos x' = offset ∧ st'.eof = false ∧ st'.err = false) := by
  unfold DicoStream.seek seekWith at hseek
  split at hseek
  case isTrue herr =>
    obtain ⟨rfl, hrest⟩ := Prod.mk.inj (Except.ok.inj hseek)
    obtain ⟨rfl, -⟩ := Prod.mk.inj hrest
    exact ⟨h, fun _ => h.err herr, fun hneg => absurd hneg (by decide)⟩
  case isFalse herr =>
    cases hsk : T.seek with
    | none =>
      rw [hsk] at hseek
      obtain ⟨rfl, hrest⟩ := Prod.mk.inj (Except.ok.inj hseek)
      obtain ⟨rfl, -⟩ := Prod.mk.inj hrest
      exact ⟨h.seterror ENOSYS.2 false, fun _ => ENOSYS.2, fun hneg => absurd hneg (by decide)⟩
    | some sk =>
      rw [hsk] at hseek
      dsimp only at hseek
      split at hseek
      · obtain ⟨rfl, hrest⟩ := Prod.mk.inj (Except.ok.inj hseek)
        obtain ⟨rfl, -⟩ := Prod.mk.inj hrest
        exact ⟨h.seterror EACCES.2 true, fun _ => EACCES.2, fun hneg => absurd hneg (by decide)⟩
      · rw [if_neg (by rintro ⟨hw, -⟩; cases hw), h.flush L hT.flush, ok_bind] at hseek
        dsimp only at hseek
        rw [if_neg (not_not.2 rfl)] at hseek
        match hcall : sk x offset .set with
        | (.fail rc, y) =>
          rw [hcall] at hseek
          obtain ⟨rfl, hrest⟩ := Prod.mk.inj (Except.ok.inj hseek)
          obtain ⟨rfl, -⟩ := Prod.mk.inj hrest
          exact ⟨h.seterror rc.2 true, fun _ => rc.2, fun hneg => absurd hneg (by decide)⟩
        | (.ok r, y) =>
          rw [hcall] at hseek
          obtain ⟨rfl, hrest⟩ := Prod.mk.inj (Except.ok.inj hseek)
          obtain ⟨rfl, rfl⟩ := Prod.mk.inj hrest
          obtain ⟨htarget, hpos⟩ := hT.seek sk hsk _ _ _ _ _ hcall
          have hr : r = offset := htarget
          refine ⟨⟨h.buftype, h.level, h.cur, h.dirty, h.err⟩, fun hneg => ?_, fun _ => ?_⟩
          · omega
          · exact ⟨by omega, rfl, Bool.eq_false_iff.2 herr⟩

/-- **A read that does not fail is of the file.** -/
theorem Naked.read (hT : T.Faithful content pos) (h : Naked st) (heof : st.eof = false)
    (herr : st.err = false) {n : ℕ} {r : ReadResult σ} (hread : st.read T x n true = .ok r)
    (hrc : r.rc = 0) :
    Naked r.st ∧ r.data = (content.drop (pos x)).take n ∧ r.pread = some r.data.length := by
  rw [DicoStream.read, if_pos h.buftype] at hread
  unfold readUnbuffered at hread
  cases hrd : T.read with
  | none =>
    rw [hrd] at hread
    obtain rfl := Except.ok.inj hread
    exact absurd hrc ENOSYS.2
  | some rd =>
    rw [hrd] at hread
    dsimp only at hread
    split at hread
    · obtain rfl := Except.ok.inj hread
      exact absurd hrc EACCES.2
    · rw [herr, heof, Bool.false_or, if_neg Bool.false_ne_true] at hread
      simp only [if_true] at hread
      split at hread
      case isTrue hzero =>
        obtain rfl := Except.ok.inj hread
        rw [beq_iff_eq] at hzero
        subst hzero
        exact ⟨h, List.take_zero.symm, rfl⟩
      case isFalse =>
        obtain ⟨⟨res, y⟩, hcall⟩ : ∃ p, rd x n = p := ⟨_, rfl⟩
        cases res with
        | ok data =>
          rw [hcall] at hread
          dsimp only at hread
          split at hread
          · cases hread
          · obtain rfl := Except.ok.inj hread
            exact ⟨⟨h.buftype, h.level, h.cur, h.dirty, fun h' => by cases h'⟩,
              hT.read rd hrd _ _ _ _ hcall, rfl⟩
        | fail rc stored =>
          rw [hcall] at hread
          dsimp only at hread
          split at hread
          · cases hread
          · obtain rfl := Except.ok.inj hread
            exact absurd hrc rc.2

end DicoStream

end Dico
