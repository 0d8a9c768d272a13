import Dico.Filter.Base64
/-!
# The base64 encoding stream

`encodeSplit` is the text that bytes written in pieces are encoded to. It
differs from the encoding of the whole where one or two bytes are left
behind a side buffer that a write has just filled, since these are padded
at once, and more bytes follow. `base64Stream_encodes_iff` says exactly
when the transport gets the encoding of what was written; no line of it
is ever too long.
-/

namespace Dico

open DicoStream

/-- The pieces one after another: what is encoded, and what is left in the
side buffer. -/
def encodeSplit : Bytes → List Bytes → Bytes × Bytes
  | c, [] => ([], c)
  | c, b :: bs =>
    ((encodeStep c b).1 ++ (encodeSplit (encodeStep c b).2 bs).1,
      (encodeSplit (encodeStep c b).2 bs).2)

/-- The number of bytes a write of `s` leaves in the side buffer. -/
def carried (c s : ℕ) : ℕ := if PadsEarly c s then 0 else (c + s) % 3

/-- **Nothing follows bytes that are padded early**, where the side buffer
holds `c` bytes to start with. -/
def WellSplit : ℕ → List Bytes → Prop
  | _, [] => True
  | c, b :: bs => (PadsEarly c b.length → bs.flatten = []) ∧ WellSplit (carried c b.length) bs

instance decidableWellSplit : (c : ℕ) → (bs : List Bytes) → Decidable (WellSplit c bs)
  | _, [] => isTrue trivial
  | c, b :: bs =>
    haveI := decidableWellSplit (carried c b.length) bs
    inferInstanceAs (Decidable ((PadsEarly c b.length → bs.flatten = []) ∧ _))

section Split

variable {c b : Bytes} {bs : List Bytes}

theorem length_encodeStep (c b : Bytes) :
    (encodeStep c b).2.length = carried c.length b.length := by
  unfold encodeStep carried
  split_ifs
  · rfl
  · rw [List.length_drop, List.length_append]
    omega

theorem carried_lt (c s : ℕ) : carried c s < 3 := by
  unfold carried
  split_ifs
  · decide
  · exact Nat.mod_lt _ (by decide)

/-- Without early padding nothing is lost. -/
theorem encodeStep_append (hpad : ¬ PadsEarly c.length b.length) (u : Bytes) :
    (encodeStep c b).1 ++ Base64.encode ((encodeStep c b).2 ++ u) =
      Base64.encode (c ++ (b ++ u)) := by
  have hlen : ((c ++ b).take ((c ++ b).length / 3 * 3)).length % 3 = 0 := by
    rw [List.length_take, Nat.min_eq_left (Nat.div_mul_le_self _ _)]
    exact Nat.mul_mod_left _ _
  rw [encodeStep, if_neg hpad, ← Base64.encode_append hlen, ← List.append_assoc,
    List.take_append_drop, List.append_assoc]

theorem encodeStep_eq_nil_iff :
    (encodeStep c b).1 = [] ∧ (encodeStep c b).2 = [] ↔ c ++ b = [] := by
  unfold encodeStep
  split_ifs with hpad
  · rw [Base64.encode_eq_nil_iff]
    exact ⟨fun h => h.1, fun h => ⟨h, rfl⟩⟩
  · rw [Base64.encode_eq_nil_iff, ← List.append_eq_nil_iff, List.take_append_drop]

/-- Something comes out in the end if there is anything to encode. -/
theorem encodeSplit_eq_nil_iff :
    (encodeSplit c bs).1 ++ Base64.encode (encodeSplit c bs).2 = [] ↔ c ++ bs.flatten = [] := by
  induction bs generalizing c with
  | nil => rw [encodeSplit, List.nil_append, Base64.encode_eq_nil_iff, List.flatten_nil,
      List.append_nil]
  | cons b bs ih =>
    rw [encodeSplit, List.append_assoc, List.append_eq_nil_iff, ih, List.append_eq_nil_iff,
      ← and_assoc, encodeStep_eq_nil_iff, List.flatten_cons, ← List.append_assoc,
      ← List.append_eq_nil_iff]

theorem wellSplit_of_flatten_nil (h : bs.flatten = []) {c : ℕ} (hc : c < 3) : WellSplit c bs := by
  induction bs generalizing c with
  | nil => trivial
  | cons b bs ih =>
    rw [List.flatten_cons, List.append_eq_nil_iff] at h
    exact ⟨fun _ => h.2, ih h.2 (carried_lt _ _)⟩

/-- **The pieces are encoded to the encoding of the whole exactly if
nothing follows bytes padded early.** -/
theorem encodeSplit_eq_iff :
    (encodeSplit c bs).1 ++ Base64.encode (encodeSplit c bs).2 = Base64.encode (c ++ bs.flatten) ↔
      WellSplit c.length bs := by
  induction bs generalizing c with
  | nil =>
    rw [encodeSplit, List.nil_append, List.flatten_nil, List.append_nil]
    exact ⟨fun _ => trivial, fun _ => rfl⟩
  | cons b bs ih =>
    rw [encodeSplit, WellSplit, List.append_assoc, List.flatten_cons]
    by_cases hpad : PadsEarly c.length b.length
    · have hstep : encodeStep c b = (Base64.encode (c ++ b), []) := if_pos hpad
      rw [hstep]
      have hrest : (encodeSplit [] bs).1 ++ Base64.encode (encodeSplit [] bs).2 = [] ↔
          [] ++ bs.flatten = [] := encodeSplit_eq_nil_iff
      rw [List.nil_append] at hrest
      by_cases hnil : bs.flatten = []
      · rw [hrest.2 hnil, hnil, List.append_nil, List.append_nil]
        exact ⟨fun _ => ⟨fun _ => rfl, wellSplit_of_flatten_nil hnil (carried_lt _ _)⟩,
          fun _ => rfl⟩
      · have hmod : (c ++ b).length % 3 ≠ 0 := by
          have := hpad.2
          rw [List.length_append]
          omega
        rw [← List.append_assoc c]
        exact ⟨fun h => absurd h (Base64.encode_append_ne hmod hnil (fun h => hnil (hrest.1 h))),
          fun h => absurd (h.1 hpad) hnil⟩
    · rw [← encodeStep_append hpad, ← length_encodeStep, ← ih]
      exact ⟨fun h => ⟨fun hp => absurd hp hpad, List.append_cancel_left h⟩,
        fun h => by rw [h.2]⟩

/-- Nothing is encoded before the flush exactly if there are fewer than
three bytes. -/
theorem encodeSplit_fst_eq_nil_iff (hc : c.length < 3) :
    (encodeSplit c bs).1 = [] ↔ (c ++ bs.flatten).length < 3 := by
  induction bs generalizing c with
  | nil =>
    rw [List.flatten_nil, List.append_nil]
    exact ⟨fun _ => hc, fun _ => rfl⟩
  | cons b bs ih =>
    rw [encodeSplit, List.append_eq_nil_iff, List.flatten_cons, ← List.append_assoc]
    by_cases hlt : (c ++ b).length < 3
    · rw [encodeStep_of_lt hlt, ih hlt]
      exact and_iff_right rfl
    · have hsome : (encodeStep c b).1 ≠ [] := by
        unfold encodeStep
        split_ifs
        · rw [Ne, Base64.encode_eq_nil_iff]
          intro hnil
          rw [hnil] at hlt
          exact hlt (by decide)
        · rw [Ne, Base64.encode_eq_nil_iff, List.take_eq_nil_iff, not_or]
          refine ⟨by omega, fun hnil => ?_⟩
          rw [hnil] at hlt
          exact hlt (by decide)
      refine ⟨fun h => absurd h.1 hsome, fun h => absurd ?_ hlt⟩
      rw [List.length_append] at h
      omega

end Split

/-! ## The stream -/

/-- What the transport has taken when the bytes were written to the
encoding stream in pieces and the stream was flushed. -/
def base64Send {τ : Type} (L : Limits) (S : Sink τ) (str : τ) (bs : List Bytes) :
    Except Fault τ := do
  let (_, fs) ← Run.run (Op.step L (FilterStream.transportOf S base64Xcode))
    ((bs.map Put.write ++ [Put.flush]).map Put.op) (dicoBase64StreamCreate str)
  .ok fs.transport

/-- The transport gets the encoding of what was written, in lines of at
most 76 characters. -/
def Encodes {τ : Type} (L : Limits) (S : Sink τ) (log : τ → Bytes) (str : τ) (bs : List Bytes) :
    Prop :=
  ∃ t, base64Send L S str bs = .ok t ∧ strip (log t) = Base64.encode bs.flatten ∧
    LinesLE 76 0 (log t)

section Stream

variable {τ : Type} {L : Limits} {S : Sink τ} {log : τ → Bytes} {st : DicoStream}
variable {fs : FilterStream τ}

open FilterStream

/-- Writes of the stream, one after another. -/
theorem runWrites_encodes (hS : S.Delivers log) (bs : List Bytes) (hst : Bare st)
    (h : Filling log fs) (hin : fs.inbuf.length < 3) (hstart : fs.Started log) :
    ∃ st' fs', Run.run (Op.step L (transportOf S base64Xcode)) ((bs.map Put.write).map Put.op)
        (st, fs) = .ok (st', fs') ∧ Bare st' ∧ Filling log fs' ∧ fs'.inbuf.length < 3 ∧
      fs'.Started log ∧ fs'.chars log = fs.chars log ++ (encodeSplit fs.inbuf bs).1 ∧
      fs'.inbuf = (encodeSplit fs.inbuf bs).2 := by
  induction bs generalizing st fs with
  | nil => exact ⟨st, fs, rfl, hst, h, hin, hstart, (List.append_nil _).symm, rfl⟩
  | cons b bs ih =>
    have hstep : ∃ st₁ fs₁, DicoStream.write L (transportOf S base64Xcode) st fs b =
        .ok (0, st₁, fs₁) ∧ Bare st₁ ∧ Filling log fs₁ ∧ fs₁.Started log ∧
        fs₁.chars log = fs.chars log ++ (encodeStep fs.inbuf b).1 ∧
        fs₁.inbuf = (encodeStep fs.inbuf b).2 := by
      unfold DicoStream.write
      rw [if_pos hst.buftype]
      by_cases hnil : b = []
      · subst hnil
        rw [encodeStep_nil hin]
        refine ⟨st, fs, ?_, hst, h, hstart, (List.append_nil _).symm, rfl⟩
        rw [writeUnbuffered, hst.canWrite, hst.err]
        rfl
      · obtain ⟨fs₁, hloop, h₁, hstart₁, hchars₁, hin₁⟩ :=
          writeLoop_spec hS b.length (Nat.le_refl _) h hin hstart 0
        obtain ⟨st₁, hrun, hf, herr⟩ := writeUnbuffered_of_loop
          (T := transportOf S base64Xcode) rfl hst.canWrite hst.err hnil hloop
        exact ⟨st₁, fs₁, hrun, ⟨⟨hf.canWrite.trans hst.canWrite, herr⟩,
          hf.buftype.trans hst.buftype, hf.dirty.trans hst.dirty, hf.level.trans hst.level⟩, h₁,
          hstart₁, hchars₁, hin₁⟩
    obtain ⟨st₁, fs₁, hw, hst₁, h₁, hstart₁, hchars₁, hin₁⟩ := hstep
    have hlt : fs₁.inbuf.length < 3 := by
      rw [hin₁, length_encodeStep]
      exact carried_lt _ _
    obtain ⟨st', fs', hrun, hst', h', hin', hstart', hchars', hside⟩ :=
      ih hst₁ h₁ hlt hstart₁
    rw [hin₁] at hchars' hside
    refine ⟨st', fs', ?_, hst', h', hin', hstart', ?_, hside⟩
    · simp only [List.map_cons, Run.run, Put.op, Op.step, hw, ok_bind, hrun]
    · rw [hchars', hchars₁, encodeSplit, List.append_assoc]

/-- What the transport gets: the encoded pieces and the rest, or nothing if
nothing was encoded before the flush. -/
theorem base64Send_spec (hS : S.Delivers log) {str : τ} (hstr : log str = []) (bs : List Bytes) :
    ∃ t, base64Send L S str bs = .ok t ∧ LinesLE 76 0 (log t) ∧
      strip (log t) = if (encodeSplit [] bs).1 = [] then []
        else (encodeSplit [] bs).1 ++ Base64.encode (encodeSplit [] bs).2 := by
  have hbare : Bare (dicoBase64StreamCreate str).1 := ⟨⟨rfl, rfl⟩, rfl, rfl, rfl⟩
  have hfill : Filling log (dicoBase64StreamCreate str).2 := by
    have hlog : log (dicoBase64StreamCreate str).2.transport = [] := hstr
    refine ⟨rfl, rfl, ?_, Nat.succ_pos 75, ?_, List.not_mem_nil, rfl, Nat.zero_le _⟩
    · rw [hlog]
      rfl
    · rw [hlog]
      trivial
  obtain ⟨st', fs', hrun, hst', h', hin', hstart', hchars', hside⟩ :=
    runWrites_encodes (L := L) hS bs hbare hfill (Nat.succ_pos 2) (fun _ => hstr)
  have hnone : (dicoBase64StreamCreate str).2.chars log = [] := by
    have hlog : log (dicoBase64StreamCreate str).2.transport = [] := hstr
    rw [chars, hlog]
    rfl
  have hempty : (dicoBase64StreamCreate str).2.inbuf = [] := rfl
  rw [hnone, hempty, List.nil_append] at hchars'
  rw [hempty] at hside
  obtain ⟨rc, fs'', hflush, hlines, hstrip⟩ := wrFlush_spec hS h' hin' hstart'
  rw [hchars', hside] at hstrip
  have hlast : DicoStream.flush L (transportOf S base64Xcode) st' fs' =
      .ok (rc, { st' with dirty := false, level := 0, cur := 0 }, fs'') := by
    rw [flush_bare hst']
    simp only [transportFlush, transportOf, hflush]
  have hcreate : dicoBase64StreamCreate str =
      ((dicoBase64StreamCreate str).1, (dicoBase64StreamCreate str).2) := rfl
  refine ⟨fs''.transport, ?_, hlines, hstrip⟩
  rw [base64Send, hcreate]
  simp only [List.map_append, Run.run_append, hrun, ok_bind, List.map_cons, List.map_nil, Run.run,
    Put.op, Op.step, hlast]

/-- **The transport gets the encoding of what was written exactly if that
is nothing or three bytes at least, and nothing follows bytes padded
early.** -/
theorem base64Stream_encodes_iff (hS : S.Delivers log) {str : τ} (hstr : log str = [])
    (bs : List Bytes) :
    Encodes L S log str bs ↔
      (bs.flatten = [] ∨ 3 ≤ bs.flatten.length) ∧ WellSplit 0 bs := by
  obtain ⟨t, hsend, hlines, hstrip⟩ := base64Send_spec (L := L) hS hstr bs
  have hiff : Encodes L S log str bs ↔ strip (log t) = Base64.encode bs.flatten := by
    constructor
    · rintro ⟨t', hsend', henc, -⟩
      obtain rfl := Except.ok.inj (hsend.symm.trans hsend')
      exact henc
    · exact fun h => ⟨t, hsend, h, hlines⟩
  rw [hiff, hstrip]
  by_cases hnone : (encodeSplit [] bs).1 = []
  · -- everything is in the side buffer, and the flush leaves it there
    rw [if_pos hnone, eq_comm, Base64.encode_eq_nil_iff]
    have hshort := (encodeSplit_fst_eq_nil_iff (by decide)).1 hnone
    rw [List.nil_append] at hshort
    constructor
    · exact fun h => ⟨Or.inl h, wellSplit_of_flatten_nil h (by decide)⟩
    · exact fun h => h.1.resolve_right (by omega)
  · have hlong : 3 ≤ bs.flatten.length := by
      by_contra hlt
      exact hnone ((encodeSplit_fst_eq_nil_iff (by decide)).2 (by rw [List.nil_append]; omega))
    have hsplit : (encodeSplit [] bs).1 ++ Base64.encode (encodeSplit [] bs).2 =
        Base64.encode ([] ++ bs.flatten) ↔ WellSplit 0 bs := encodeSplit_eq_iff
    rw [List.nil_append] at hsplit
    rw [if_neg hnone, hsplit]
    exact ⟨fun h => ⟨Or.inr hlong, h⟩, fun h => h.2⟩

end Stream

/-- Seven bytes in pieces of which none is padded early, and a last one
that is. -/
theorem base64Stream_encodes_pieces :
    Encodes ample tape id [] [[1, 2], [3], [4, 5], [6, 7]] :=
  (base64Stream_encodes_iff tape_delivers rfl _).2 (by decide)

/-- **A single byte is lost**: it waits in the side buffer, and the flush
finds nothing encoded. -/
theorem base64Stream_loses_byte : ¬ Encodes ample tape id [] [[65]] := by
  rintro ⟨t, hsend, hstrip, -⟩
  obtain ⟨t', hsend', -, hstrip'⟩ := base64Send_spec (L := ample) tape_delivers
    (show id ([] : Bytes) = [] from rfl) [[65]]
  obtain rfl := Except.ok.inj (hsend.symm.trans hsend')
  exact absurd (hstrip.symm.trans hstrip') (by decide)

end Dico
