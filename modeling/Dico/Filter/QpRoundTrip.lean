import Dico.Common.CInt
import Dico.Filter.Decode
/-!
# Quoted-printable there and back

`dico_qp_encode` of `lib/qp.c`, and what `dico_qp_decode` makes of its
output. The encoder writes blanks and newlines as they are. The decoder
drops blanks before a newline, and leaves those at the end of its input to
another call. Both return the number of bytes they consumed as an `int`.
-/

namespace Dico

/-! ## The encoder -/

/-- `simple_char`. -/
def QpSimple (c : UInt8) : Prop := 32 ≤ c ∧ c ≤ 60 ∨ 62 ≤ c ∧ c ≤ 126 ∨ c = 9 ∨ c = 10

instance : DecidablePred QpSimple := fun _ => inferInstanceAs (Decidable (_ ∨ _))

/-- `_hexdigits[n]`. -/
def qpHexdigit (n : ℕ) : UInt8 := (ascii "0123456789ABCDEF").getD n 0

/-- What one character is written as. -/
def qpUnit (c : UInt8) : Bytes :=
  if QpSimple c then [c]
  else [61, qpHexdigit ((c.toNat >>> 4) &&& 0xf), qpHexdigit (c.toNat &&& 0xf)]

/-- `dico_qp_encode`, with room for so many bytes: the number of bytes
consumed, and the output. -/
def dicoQpEncode : Bytes → ℕ → ℕ × Bytes
  | [], _ => (0, [])
  | c :: rest, room =>
    if (qpUnit c).length ≤ room then
      let (n, out) := dicoQpEncode rest (room - (qpUnit c).length)
      (n + 1, qpUnit c ++ out)
    else (0, [])

/-- The text of a string. -/
def qpText (x : Bytes) : Bytes := x.flatMap qpUnit

/-- Its length: three bytes for each that is not simple. -/
def qpLength (x : Bytes) : ℕ := x.length + 2 * x.countP fun c => decide (¬QpSimple c)

section Encode

theorem length_qpUnit (c : UInt8) :
    (qpUnit c).length = 1 + 2 * if decide (¬QpSimple c) = true then 1 else 0 := by
  unfold qpUnit
  by_cases hc : QpSimple c
  · rw [if_pos hc, if_neg (by simpa using hc)]
    rfl
  · rw [if_neg hc, if_pos (by simpa using hc)]
    rfl

theorem length_qpText (x : Bytes) : (qpText x).length = qpLength x := by
  unfold qpText qpLength
  induction x with
  | nil => rfl
  | cons c x ih =>
    rw [List.flatMap_cons, List.length_append, ih, length_qpUnit, List.countP_cons,
      List.length_cons]
    omega

/-- With enough room everything is encoded. -/
theorem dicoQpEncode_eq {x : Bytes} {osize : ℕ} (h : qpLength x ≤ osize) :
    dicoQpEncode x osize = (x.length, qpText x) := by
  rw [← length_qpText] at h
  induction x generalizing osize with
  | nil => rfl
  | cons c x ih =>
    have hlen : (qpText (c :: x)).length = (qpUnit c).length + (qpText x).length := by
      unfold qpText
      rw [List.flatMap_cons, List.length_append]
    rw [dicoQpEncode, if_pos (by omega), ih (by omega)]
    rfl

end Encode

/-! ## The decoder on encoded text -/

/-- What becomes of a text behind some blanks: the output, and the blanks
that wait at the end. -/
def qpBack : Bytes → Bytes → Bytes × Bytes
  | blanks, [] => ([], blanks)
  | blanks, c :: x =>
    if isWs c then qpBack (blanks ++ [c]) x
    else if c = newline then (c :: (qpBack [] x).1, (qpBack [] x).2)
    else (blanks ++ c :: (qpBack [] x).1, (qpBack [] x).2)

/-- The output is no longer than the text. -/
theorem length_qpBack (blanks x : Bytes) :
    (qpBack blanks x).1.length + (qpBack blanks x).2.length ≤ blanks.length + x.length := by
  induction x generalizing blanks with
  | nil => exact le_of_eq (Nat.add_comm _ _)
  | cons c x ih =>
    have h := ih []
    have h' := ih (blanks ++ [c])
    rw [qpBack]
    split_ifs
    · rw [List.length_append, List.length_singleton] at h'
      rw [List.length_cons]
      omega
    · simp only [List.length_cons, List.length_nil] at h ⊢
      omega
    · simp only [List.length_append, List.length_cons, List.length_nil] at h ⊢
      omega

namespace QpDecode

variable {s : QpDecode} {out w : Bytes} {c : UInt8}

/-- The decoder has written some bytes. -/
structure Wrote (s : QpDecode) (out : Bytes) : Prop where
  nbytes : s.nbytes = out.length
  take : s.obuf.take s.nbytes = out

/-- Another byte goes out. -/
theorem Wrote.put (h : s.Wrote out) (hroom : out.length < s.obuf.length) (c : UInt8) (n : ℕ) :
    ∃ s', s.put c n = .ok s' ∧ s'.Wrote (out ++ [c]) ∧ s'.obuf.length = s.obuf.length ∧
      s'.consumed = s.consumed + n ∧ s'.blanks = s.blanks := by
  have hlt : s.nbytes < s.obuf.length := by rw [h.nbytes]; exact hroom
  refine ⟨⟨s.obuf.set s.nbytes c, s.nbytes + 1, s.consumed + n, s.blanks⟩, ?_, ⟨?_, ?_⟩,
    List.length_set, rfl, rfl⟩
  · rw [QpDecode.put, store, if_pos hlt, ok_bind]
  · rw [List.length_append, List.length_singleton, h.nbytes]
  · dsimp only
    rw [List.take_succ_eq_append_getElem (by rwa [List.length_set]), List.take_set_of_le le_rfl,
      List.getElem_set_self, h.take]

/-- The blanks go out before a character that is not the end of a line. -/
theorem Wrote.settle (h : s.Wrote out) (hroom : out.length + s.blanks.length < s.obuf.length)
    (hcr : c ≠ 13) (hnl : c ≠ newline) :
    ∃ s', s.settle c = .ok (false, s') ∧ s'.Wrote (out ++ s.blanks) ∧
      s'.obuf.length = s.obuf.length ∧ s'.consumed = s.consumed ∧ s'.blanks = [] := by
  unfold QpDecode.settle
  by_cases hnil : s.blanks = []
  · rw [if_pos hnil, hnil, List.append_nil]
    exact ⟨s, rfl, h, rfl, rfl, hnil⟩
  · have hmin : min s.blanks.length (s.obuf.length - s.nbytes) = s.blanks.length := by
      rw [h.nbytes]
      omega
    have hfit : s.nbytes + s.blanks.length ≤ s.obuf.length := by
      rw [h.nbytes]
      omega
    have hpoke : Memory.poke s.obuf s.nbytes s.blanks = some
        (s.obuf.take s.nbytes ++ s.blanks ++ s.obuf.drop (s.nbytes + s.blanks.length)) :=
      Memory.poke_eq_some hfit
    have hlen := Memory.length_of_poke hpoke
    have hpos : s.nbytes + s.blanks.length ≠ s.obuf.length := by
      rw [h.nbytes]
      omega
    rw [if_neg hnil, if_neg (by tauto)]
    simp only [hmin, List.take_length, hpoke, List.drop_length, hlen, hpos, ne_eq, not_true,
      or_self, decide_false]
    refine ⟨_, rfl, ⟨?_, ?_⟩, hlen, rfl, rfl⟩
    · rw [List.length_append, h.nbytes]
    · dsimp only
      rw [h.take, List.take_left' (by rw [List.length_append, h.nbytes])]

/-- Before a newline they are dropped. -/
theorem settle_newline (s : QpDecode) :
    s.settle newline = .ok (false, { s with blanks := [] }) := by
  unfold QpDecode.settle
  by_cases hnil : s.blanks = []
  · rw [if_pos hnil, ← hnil]
  · rw [if_neg hnil, if_pos (.inr rfl)]

/-- The two digits of a character, read back. -/
theorem strtoulHex_digits (c : UInt8) :
    UInt8.ofNat (strtoulHex [qpHexdigit ((c.toNat >>> 4) &&& 0xf), qpHexdigit (c.toNat &&& 0xf)]) =
      c := by
  have hall : ∀ n : Fin 256, strtoulHex [qpHexdigit ((n.val >>> 4) &&& 0xf),
      qpHexdigit (n.val &&& 0xf)] = n.val := by decide +kernel
  rw [hall ⟨c.toNat, c.toNat_lt⟩, UInt8.ofNat_toNat]

/-- The first of them is no newline. -/
theorem qpHexdigit_ne_newline (n : ℕ) : qpHexdigit (n &&& 0xf) ≠ newline := by
  have hall : ∀ k : Fin 16, qpHexdigit k.val ≠ newline := by decide
  exact hall ⟨n &&& 0xf, Nat.lt_of_le_of_lt Nat.and_le_right (by decide)⟩

/-- A simple character is no `=` and no carriage return. -/
theorem ne_of_qpSimple (h : QpSimple c) : c ≠ 61 ∧ c ≠ 13 := by
  constructor
  · rintro rfl
    exact absurd h (by decide)
  · rintro rfl
    exact absurd h (by decide)

/-- What `dico_qp_decode` does with one character as it was encoded, apart
from a blank or a newline. -/
theorem Wrote.loop_unit (h : s.Wrote out) (hroom : out.length + s.blanks.length < s.obuf.length)
    (hws : ¬isWs c) (hnl : c ≠ newline) (fuel : ℕ) (w : Bytes) :
    ∃ s', loop (fuel + 1) (qpUnit c ++ w) s = loop fuel w s' ∧
      s'.Wrote (out ++ s.blanks ++ [c]) ∧ s'.obuf.length = s.obuf.length ∧
      s'.consumed = s.consumed + (qpUnit c).length ∧ s'.blanks = [] := by
  have hlt : s.nbytes < s.obuf.length := by
    rw [h.nbytes]
    omega
  unfold qpUnit
  by_cases hc : QpSimple c
  · obtain ⟨s₁, hrun₁, h₁, hlen₁, hcons₁, hnil₁⟩ := h.settle hroom (ne_of_qpSimple hc).2 hnl
    obtain ⟨s₂, hrun₂, h₂, hlen₂, hcons₂, hnil₂⟩ := h₁.put
      (by rw [List.length_append, hlen₁]; exact hroom) c 1
    refine ⟨s₂, ?_, h₂, hlen₂.trans hlen₁, ?_, hnil₂.trans hnil₁⟩
    · rw [if_pos hc, List.singleton_append, loop, if_pos hlt, round, if_neg hws, hrun₁, ok_bind]
      simp only [Bool.false_eq_true, if_false, if_neg (ne_of_qpSimple hc).1,
        if_neg (ne_of_qpSimple hc).2, hrun₂, ok_bind]
    · rw [if_pos hc, hcons₂, hcons₁]
      rfl
  · obtain ⟨s₁, hrun₁, h₁, hlen₁, hcons₁, hnil₁⟩ :=
      h.settle (c := 61) hroom (by decide) (by decide)
    obtain ⟨s₂, hrun₂, h₂, hlen₂, hcons₂, hnil₂⟩ := h₁.put
      (by rw [List.length_append, hlen₁]; exact hroom) c 3
    refine ⟨s₂, ?_, h₂, hlen₂.trans hlen₁, ?_, hnil₂.trans hnil₁⟩
    · rw [if_neg hc, List.cons_append, List.cons_append, List.cons_append, List.nil_append, loop,
        if_pos hlt, round, if_neg (by decide), hrun₁, ok_bind]
      simp only [Bool.false_eq_true, if_false, if_true, if_neg (qpHexdigit_ne_newline _),
        strtoulHex_digits, hrun₂, ok_bind]
    · rw [if_neg hc, hcons₂, hcons₁]
      rfl

/-- With a newline. -/
theorem Wrote.loop_newline (h : s.Wrote out) (hroom : out.length < s.obuf.length) (fuel : ℕ)
    (w : Bytes) :
    ∃ s', loop (fuel + 1) (qpUnit newline ++ w) s = loop fuel w s' ∧
      s'.Wrote (out ++ [newline]) ∧ s'.obuf.length = s.obuf.length ∧
      s'.consumed = s.consumed + (qpUnit newline).length ∧ s'.blanks = [] := by
  have hlt : s.nbytes < s.obuf.length := by
    rw [h.nbytes]
    exact hroom
  have h₁ : ({ s with blanks := [] } : QpDecode).Wrote out := ⟨h.nbytes, h.take⟩
  obtain ⟨s₂, hrun₂, h₂, hlen₂, hcons₂, hnil₂⟩ := h₁.put hroom newline 1
  refine ⟨s₂, ?_, h₂, hlen₂, hcons₂, hnil₂⟩
  have hunit : qpUnit newline = [newline] := by decide
  rw [hunit, List.singleton_append, loop, if_pos hlt, round, if_neg (by decide), settle_newline,
    ok_bind]
  simp only [Bool.false_eq_true, if_false, if_neg (show newline ≠ 61 by decide),
    if_neg (show newline ≠ 13 by decide), hrun₂, ok_bind]

/-- With a blank, which waits. -/
theorem Wrote.loop_blank (h : s.Wrote out) (hroom : out.length < s.obuf.length) (hws : isWs c)
    (fuel : ℕ) (w : Bytes) :
    loop (fuel + 1) (qpUnit c ++ w) s =
      loop fuel w { s with blanks := s.blanks ++ [c], consumed := s.consumed + 1 } := by
  have hlt : s.nbytes < s.obuf.length := by
    rw [h.nbytes]
    exact hroom
  have hunit : qpUnit c = [c] := by
    rcases hws with rfl | rfl
    · decide
    · decide
  rw [hunit, List.singleton_append, loop, if_pos hlt, round, if_pos hws, ok_bind]

/-- **The decoder on the text of a string**, behind some output and some
blanks that wait. -/
theorem Wrote.loop_text (x : Bytes) (h : s.Wrote out)
    (hroom : out.length + s.blanks.length + x.length ≤ s.obuf.length) {fuel : ℕ}
    (hfuel : x.length < fuel) :
    ∃ s', loop fuel (qpText x) s = .ok s' ∧ s'.Wrote (out ++ (qpBack s.blanks x).1) ∧
      s'.consumed = s.consumed + (qpText x).length ∧ s'.blanks = (qpBack s.blanks x).2 := by
  induction x generalizing s out fuel with
  | nil =>
    obtain ⟨fuel, rfl⟩ : ∃ n, fuel = n + 1 := ⟨fuel - 1, by omega⟩
    refine ⟨s, rfl, ?_, rfl, rfl⟩
    rw [qpBack, List.append_nil]
    exact h
  | cons c x ih =>
    obtain ⟨fuel, rfl⟩ : ∃ n, fuel = n + 1 := ⟨fuel - 1, by omega⟩
    rw [List.length_cons] at hroom hfuel
    have htext : qpText (c :: x) = qpUnit c ++ qpText x := List.flatMap_cons
    rw [htext, List.length_append, qpBack]
    by_cases hws : isWs c
    · rw [h.loop_blank (by omega) hws, if_pos hws]
      have hunit : (qpUnit c).length = 1 := by
        rcases hws with rfl | rfl
        · decide
        · decide
      have h₁ : QpDecode.Wrote ⟨s.obuf, s.nbytes, s.consumed + 1, s.blanks ++ [c]⟩ out :=
        ⟨h.nbytes, h.take⟩
      obtain ⟨s', hrun, hw, hcons, hblanks⟩ := ih h₁
        (by simp only [List.length_append, List.length_singleton]; omega)
        (show x.length < fuel by omega)
      refine ⟨s', hrun, hw, ?_, hblanks⟩
      rw [hcons, hunit, Nat.add_assoc]
    · rw [if_neg hws]
      by_cases hnl : c = newline
      · subst hnl
        obtain ⟨s₁, hrun₁, h₁, hlen₁, hcons₁, hnil₁⟩ :=
          h.loop_newline (by omega) fuel (qpText x)
        obtain ⟨s', hrun, hw, hcons, hblanks⟩ := ih h₁
          (by rw [hnil₁, hlen₁, List.length_append, List.length_singleton, List.length_nil]; omega)
          (show x.length < fuel by omega)
        rw [hnil₁] at hw hblanks
        rw [hrun₁, if_pos rfl]
        refine ⟨s', hrun, ?_, ?_, hblanks⟩
        · rw [List.append_assoc, List.singleton_append] at hw
          exact hw
        · rw [hcons, hcons₁, Nat.add_assoc]
      · obtain ⟨s₁, hrun₁, h₁, hlen₁, hcons₁, hnil₁⟩ :=
          h.loop_unit (by omega) hws hnl fuel (qpText x)
        obtain ⟨s', hrun, hw, hcons, hblanks⟩ := ih h₁
          (by
            rw [hnil₁, hlen₁, List.length_append, List.length_append, List.length_singleton,
              List.length_nil]
            omega)
          (show x.length < fuel by omega)
        rw [hnil₁] at hw hblanks
        rw [hrun₁, if_neg hnl]
        refine ⟨s', hrun, ?_, ?_, hblanks⟩
        · simp only [List.append_assoc, List.singleton_append] at hw ⊢
          exact hw
        · rw [hcons, hcons₁, Nat.add_assoc]

end QpDecode

/-- **`dico_qp_decode` on what `dico_qp_encode` wrote.** -/
theorem dicoQpDecode_text {x obuf : Bytes} (hroom : x.length ≤ obuf.length) :
    ∃ obuf', dicoQpDecode (qpText x) obuf =
        .ok ((qpText x).length - (qpBack [] x).2.length, obuf', (qpBack [] x).1.length) ∧
      obuf'.take (qpBack [] x).1.length = (qpBack [] x).1 := by
  have hstart : QpDecode.Wrote ⟨obuf, 0, 0, []⟩ [] := ⟨rfl, rfl⟩
  have hfuel : x.length < (qpText x).length + 1 := by
    rw [length_qpText, qpLength]
    omega
  obtain ⟨s', hrun, hw, hcons, hblanks⟩ := hstart.loop_text x (by simpa using hroom) hfuel
  rw [List.nil_append] at hw
  refine ⟨s'.obuf, ?_, ?_⟩
  · rw [dicoQpDecode, hrun, ok_bind, hcons, hblanks, Nat.zero_add, hw.nbytes]
  · rw [← hw.nbytes]
    exact hw.take

/-! ## There and back -/

/-- Every blank has a byte behind it that does not end the line. -/
def BlanksInside : Bytes → Prop
  | [] => True
  | b :: x => (isWs b → ∃ c ∈ x.head?, c ≠ newline) ∧ BlanksInside x

/-- A text comes back just where no blank of it is at the end of a line. -/
theorem qpBack_eq_iff {blanks : Bytes} (hblanks : ∀ b ∈ blanks, isWs b) (x : Bytes) :
    (qpBack blanks x).1 = blanks ++ x ∧ (qpBack blanks x).2 = [] ↔
      (blanks ≠ [] → ∃ c ∈ x.head?, c ≠ newline) ∧ BlanksInside x := by
  induction x generalizing blanks with
  | nil =>
    rw [qpBack, List.append_nil]
    simp only [List.head?_nil, Option.not_mem_none, false_and, exists_false, imp_false, not_not,
      BlanksInside, and_true]
    exact ⟨fun h => h.2, fun h => ⟨h.symm, h⟩⟩
  | cons c x ih =>
    have hnil := @ih [] (by intro b hb; exact absurd hb List.not_mem_nil)
    simp only [ne_eq, not_true, false_imp_iff, true_and, List.nil_append] at hnil
    have hhead : (∃ d ∈ (c :: x).head?, d ≠ newline) ↔ c ≠ newline := by simp
    rw [qpBack, hhead, BlanksInside]
    by_cases hws : isWs c
    · -- a blank waits with the others
      have hc : c ≠ newline := by
        rintro rfl
        exact absurd hws (by decide)
      have h := @ih (blanks ++ [c]) (by
        intro b hb
        rcases List.mem_append.1 hb with hb | hb
        · exact hblanks b hb
        · rw [List.mem_singleton.1 hb]
          exact hws)
      rw [List.append_assoc, List.singleton_append] at h
      rw [if_pos hws, h]
      have hne : blanks ++ [c] ≠ [] := List.append_ne_nil_of_right_ne_nil _ (List.cons_ne_nil _ _)
      tauto
    · rw [if_neg hws]
      by_cases hnl : c = newline
      · -- a newline comes back alone
        rw [if_pos hnl]
        cases blanks with
        | nil => simpa [hws] using hnil
        | cons b blanks =>
          have hb : c ≠ b := by
            rintro rfl
            exact hws (hblanks c List.mem_cons_self)
          rw [hnl] at hb
          simp [hb, hnl]
      · rw [if_neg hnl]
        simpa [hws, hnl] using hnil

/-- The same, in terms of the two ways to go wrong. -/
theorem blanksInside_iff (x : Bytes) :
    BlanksInside x ↔ ∀ b, isWs b → ¬[b, newline] <:+: x ∧ ¬[b] <:+ x := by
  induction x with
  | nil => simp [BlanksInside]
  | cons a x ih =>
    rw [BlanksInside, ih]
    constructor
    · rintro ⟨ha, hx⟩ b hb
      refine ⟨?_, ?_⟩
      · intro hin
        rcases List.infix_cons_iff.1 hin with hpre | hin
        · obtain ⟨rfl, htail⟩ := List.cons_prefix_cons.1 hpre
          obtain ⟨c, hc, hne⟩ := ha hb
          obtain ⟨y, rfl⟩ := htail
          exact hne (Option.some.inj hc).symm
        · exact (hx b hb).1 hin
      · intro hsuf
        rcases List.suffix_cons_iff.1 hsuf with heq | hsuf
        · obtain ⟨rfl, rfl⟩ := List.cons.inj heq
          obtain ⟨c, hc, -⟩ := ha hb
          exact Option.not_mem_none c hc
        · exact (hx b hb).2 hsuf
    · intro h
      refine ⟨?_, ?_⟩
      · intro ha
        cases x with
        | nil => exact absurd (List.suffix_refl [a]) (h a ha).2
        | cons c x =>
          refine ⟨c, rfl, ?_⟩
          rintro rfl
          exact (h a ha).1 (List.IsPrefix.isInfix ⟨x, rfl⟩)
      · intro b hb
        exact ⟨fun hin => (h b hb).1 (List.infix_cons hin),
          fun hsuf => (h b hb).2 (hsuf.trans (List.suffix_cons a x))⟩

/-- A string is encoded and decoded, both in one call: all of it is
consumed each time, and the output is the string. -/
def QpRoundTrips (x : Bytes) (osize : ℕ) (obuf : Bytes) : Prop :=
  asInt (dicoQpEncode x osize).1 = x.length ∧
    ∃ rc obuf', dicoQpDecode (dicoQpEncode x osize).2 obuf = .ok (rc, obuf', x.length) ∧
      asInt rc = (dicoQpEncode x osize).2.length ∧ obuf'.take x.length = x

/-- **Strings that come back.** With room enough for both, they are those
whose text is shorter than 2³¹ bytes and that have no blank before a
newline or at the end. -/
theorem qpRoundTrips_iff {x : Bytes} {osize : ℕ} {obuf : Bytes} (hosize : qpLength x ≤ osize)
    (hobuf : x.length ≤ obuf.length) :
    QpRoundTrips x osize obuf ↔
      qpLength x < 2 ^ 31 ∧ ∀ b, isWs b → ¬[b, newline] <:+: x ∧ ¬[b] <:+ x := by
  obtain ⟨obuf', hrun, hout⟩ := dicoQpDecode_text hobuf
  have hback := @qpBack_eq_iff [] (fun b hb => absurd hb List.not_mem_nil) x
  simp only [ne_eq, not_true, false_imp_iff, true_and, List.nil_append] at hback
  have hle : x.length ≤ qpLength x := Nat.le_add_right _ _
  have hleft := length_qpBack [] x
  rw [List.length_nil, Nat.zero_add] at hleft
  unfold QpRoundTrips
  rw [dicoQpEncode_eq hosize, ← blanksInside_iff, ← hback, ← length_qpText]
  rw [← length_qpText] at hle
  constructor
  · rintro ⟨-, rc, obuf'', hrun', hrc, htake⟩
    obtain ⟨rfl, hrest⟩ := Prod.mk.inj (Except.ok.inj (hrun.symm.trans hrun'))
    obtain ⟨rfl, hlen⟩ := Prod.mk.inj hrest
    rw [hlen, htake] at hout
    -- the output has the length of the string, so no blank waits at the end
    have hnil : (qpBack [] x).2 = [] := List.length_eq_zero_iff.1 (by omega)
    rw [hnil, List.length_nil, Nat.sub_zero] at hrc
    exact ⟨(asInt_eq_iff _).1 hrc, hout.symm, hnil⟩
  · rintro ⟨hlt, hx, hnil⟩
    rw [hnil, hx, List.length_nil, Nat.sub_zero] at hrun
    rw [hx] at hout
    exact ⟨(asInt_eq_iff _).2 (by omega), _, obuf', hrun, (asInt_eq_iff _).2 hlt, hout⟩

/-- A word and a newline come back. -/
theorem qpRoundTrips_word :
    (qpLength (ascii "a b\n") ≤ 4 ∧ (ascii "a b\n").length ≤ ([0, 0, 0, 0] : Bytes).length) ∧
      (QpRoundTrips (ascii "a b\n") 4 [0, 0, 0, 0] ↔
        qpLength (ascii "a b\n") < 2 ^ 31 ∧ ∀ b, isWs b →
          ¬[b, newline] <:+: ascii "a b\n" ∧ ¬[b] <:+ ascii "a b\n") :=
  ⟨⟨by decide, by decide⟩, qpRoundTrips_iff (by decide) (by decide)⟩

/-- A blank before a newline does not. -/
theorem not_forall_qpRoundTrips :
    ¬∀ (x : Bytes) (osize : ℕ) (obuf : Bytes), qpLength x ≤ osize → x.length ≤ obuf.length →
      QpRoundTrips x osize obuf := by
  intro hall
  obtain ⟨-, rc, obuf', hrun, -, -⟩ :=
    hall (ascii " \n") 2 [0, 0] (by decide) (by decide)
  have hdecode : dicoQpDecode (dicoQpEncode (ascii " \n") 2).2 [0, 0] = .ok (2, [10, 0], 1) := by
    decide
  have hlen := (Prod.mk.inj (Prod.mk.inj (Except.ok.inj (hdecode.symm.trans hrun))).2).2
  exact absurd hlen (by decide)

end Dico
