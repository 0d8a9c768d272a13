import Dico.Filter.Base64
import Dico.Filter.QpRoundTrip
import Mathlib.Algebra.Ring.Int.Defs
/-!
# Base64 of whole buffers

`dico_base64_encode` and `dico_base64_decode` of `lib/base64.c`, which
allocate their output. The decoder takes four characters at a time, and
asks how many are left only afterwards; it keeps the size of its output in
an `int`. A read past the end of the input or a write past the end of the
output is a fault.
-/

namespace Dico

/-! ## The model -/

/-- What `malloc` grants, where there is memory enough: up to
`PTRDIFF_MAX`. -/
def Grants (size : ℕ) : Prop := size < 2 ^ 63

instance : DecidablePred Grants := fun _ => inferInstanceAs (Decidable (_ < _))

/-- The characters that `dico_base64_encode` writes. -/
def base64Groups : Bytes → Bytes
  | [] => []
  | [a] => [b64char (a.toNat >>> 2), b64char ((a.toNat <<< 4) &&& 0x30), 61, 61]
  | [a, b] => [b64char (a.toNat >>> 2), b64char (((a.toNat <<< 4) &&& 0x30) ||| (b.toNat >>> 4)),
      b64char ((b.toNat <<< 2) &&& 0x3c), 61]
  | a :: b :: c :: rest =>
    b64char (a.toNat >>> 2) :: b64char (((a.toNat <<< 4) &&& 0x30) ||| (b.toNat >>> 4)) ::
      b64char (((b.toNat <<< 2) &&& 0x3c) ||| (c.toNat >>> 6)) :: b64char (c.toNat &&& 0x3f) ::
      base64Groups rest

/-- `dico_base64_encode`: its output, if it returns 0. A null byte follows
the output in the block. -/
def dicoBase64Encode (input : Bytes) : Except Fault (Option Bytes) :=
  let olen := 4 * ((input.length + 2) % 2 ^ 64) % 2 ^ 64 / 3 + 1
  if ¬Grants olen then .ok none
  else if (base64Groups input).length + 1 ≤ olen then .ok (some (base64Groups input))
  else .error .bounds

/-- `b64val[c]`, where `c` is at most 127 and the value is not -1. -/
def b64digit (c : UInt8) : Option ℕ :=
  if 127 < c then none
  else if b64val.getD c.toNat (-1) = -1 then none
  else some (b64val.getD c.toNat (-1)).toNat

/-- Whether a character passes the test of `dico_base64_decode`; `pad` where
it may be a `=`. -/
def b64accepts (pad : Bool) (c : UInt8) : Bool := (b64digit c).isSome || pad && c == 61

/-- The bytes of a group of four characters. -/
def base64Bytes (a b c d : UInt8) : Bytes :=
  let v := fun x => (b64digit x).getD 0
  UInt8.ofNat ((v a <<< 2) ||| (v b >>> 4)) ::
    if c = 61 then []
    else UInt8.ofNat (((v b <<< 4) &&& 0xf0) ||| (v c >>> 2)) ::
      if d = 61 then [] else [UInt8.ofNat (((v c <<< 6) &&& 0xc0) ||| v d)]

/-- The loop of `dico_base64_decode` over what is left of the input, with a
block for so many bytes of output and those that are there: the output, if
the function returns 0. Where `input_len` is less than four, the read of a
byte that is not there comes before it is lowered. -/
def base64Loop (olen : ℕ) : ℕ → Bytes → Bytes → Except Fault (Option Bytes)
  | 0, _, _ => .error .loop
  | fuel + 1, input, out => do
    let a ← load input 0
    if b64accepts false a = false then .ok none
    else do
      let b ← load input 1
      if b64accepts false b = false then .ok none
      else do
        let c ← load input 2
        if b64accepts true c = false then .ok none
        else do
          let d ← load input 3
          if b64accepts true d = false then .ok none
          else if olen < (out ++ base64Bytes a b c d).length then .error .bounds
          else if 0 < (input.drop 4).length then
            base64Loop olen fuel (input.drop 4) (out ++ base64Bytes a b c d)
          else .ok (some (out ++ base64Bytes a b c d))

/-- `dico_base64_decode`: its output, if it returns 0. A negative `olen` is
a very large size for `malloc`. -/
def dicoBase64Decode (input : Bytes) : Except Fault (Option Bytes) :=
  let olen := (asInt input.length % 2 ^ 64).toNat
  if ¬Grants olen then .ok none else base64Loop olen (input.length + 1) input []

example : dicoBase64Encode (ascii "dict") = .ok (some (ascii "ZGljdA==")) := by decide
example : dicoBase64Decode (ascii "ZGljdA==") = .ok (some (ascii "dict")) := by decide

/-! ## What the decoder asks of its input -/

/-- Every character is accepted where it stands: `=` in the third and
fourth place of a group only. The first character is at the place `k`. -/
def AcceptsFrom : ℕ → Bytes → Prop
  | _, [] => True
  | k, c :: s => b64accepts (2 ≤ k % 4) c = true ∧ AcceptsFrom (k + 1) s

instance decidableAcceptsFrom : (k : ℕ) → (s : Bytes) → Decidable (AcceptsFrom k s)
  | _, [] => isTrue trivial
  | k, _ :: s => @instDecidableAnd _ _ inferInstance (decidableAcceptsFrom (k + 1) s)

/-- All of them are. -/
def Accepts (s : Bytes) : Prop := AcceptsFrom 0 s

instance : DecidablePred Accepts := decidableAcceptsFrom 0

/-- How many bytes the groups stand for that are accepted, up to the first
that is not. -/
def base64Yield : Bytes → ℕ
  | a :: b :: c :: d :: s =>
    if AcceptsFrom 0 [a, b, c, d] then
      (if c = 61 then 1 else if d = 61 then 2 else 3) + base64Yield s
    else 0
  | _ => 0

/-- Base64 as it should be: groups of four digits, the last of which may end
in one or two `=`. -/
structure WellFormed64 (s : Bytes) : Prop where
  ne_nil : s ≠ []
  length : s.length % 4 = 0
  padded : ∃ body pad, s = body ++ pad ∧ (∀ c ∈ body, (b64digit c).isSome) ∧
    (pad = [] ∨ pad = [61] ∨ pad = [61, 61])

/-- The bytes of all groups. -/
def base64Content : Bytes → Bytes
  | a :: b :: c :: d :: s => base64Bytes a b c d ++ base64Content s
  | _ => []

/-! ## The decoder -/

section Decode

variable {a b c d : UInt8} {s out : Bytes} {olen fuel : ℕ}

/-- Places are counted modulo four. -/
theorem acceptsFrom_add_four (k : ℕ) (s : Bytes) : AcceptsFrom (k + 4) s ↔ AcceptsFrom k s := by
  induction s generalizing k with
  | nil => exact Iff.rfl
  | cons c s ih =>
    have hk : (k + 4) % 4 = k % 4 := Nat.add_mod_right k 4
    rw [AcceptsFrom, AcceptsFrom, hk, Nat.add_right_comm k 4 1, ih]

/-- A group and what is behind it. -/
theorem accepts_group :
    Accepts (a :: b :: c :: d :: s) ↔ AcceptsFrom 0 [a, b, c, d] ∧ Accepts s := by
  unfold Accepts
  simp only [AcceptsFrom, acceptsFrom_add_four, and_true, and_assoc]

theorem length_base64Bytes (a b c d : UInt8) :
    (base64Bytes a b c d).length = if c = 61 then 1 else if d = 61 then 2 else 3 := by
  unfold base64Bytes
  split_ifs <;> rfl

/-- Reads of the four characters. -/
theorem load_cons_zero : load (a :: s) 0 = .ok a := rfl

theorem load_cons_succ (i : ℕ) : load (a :: s) (i + 1) = load s i := rfl

theorem load_nil (i : ℕ) : load [] i = .error .bounds := rfl

/-- The characters of a group are looked at in turn. -/
theorem base64Loop_succ :
    base64Loop olen (fuel + 1) s out = (do
      let a ← load s 0
      if b64accepts false a = false then .ok none
      else do
        let b ← load s 1
        if b64accepts false b = false then .ok none
        else do
          let c ← load s 2
          if b64accepts true c = false then .ok none
          else do
            let d ← load s 3
            if b64accepts true d = false then .ok none
            else if olen < (out ++ base64Bytes a b c d).length then .error .bounds
            else if 0 < (s.drop 4).length then
              base64Loop olen fuel (s.drop 4) (out ++ base64Bytes a b c d)
            else .ok (some (out ++ base64Bytes a b c d))) := rfl

/-- Where one is not accepted, the decoder returns an error. -/
theorem base64Loop_reject (h : ¬AcceptsFrom 0 (s.take 4)) :
    base64Loop olen (fuel + 1) s out = .ok none := by
  rw [base64Loop_succ]
  rcases s with - | ⟨a, - | ⟨b, - | ⟨c, - | ⟨d, s⟩⟩⟩⟩ <;>
    simp only [AcceptsFrom, List.take_succ_cons, List.take_nil, List.take_zero, load_cons_zero,
      load_cons_succ, load_nil, ok_bind, Nat.reduceMod, Nat.reduceAdd, Nat.reduceLeDiff,
      decide_false, decide_true, and_true, not_and_or, Bool.not_eq_true, not_true] at h ⊢
  all_goals grind

/-- Where they are, but there are not four, it reads on. -/
theorem base64Loop_short (hlen : s.length < 4) (h : AcceptsFrom 0 s) :
    base64Loop olen (fuel + 1) s out = .error .bounds := by
  rw [base64Loop_succ]
  rcases s with - | ⟨a, - | ⟨b, - | ⟨c, - | ⟨d, s⟩⟩⟩⟩
  · rfl
  all_goals
    simp only [AcceptsFrom, load_cons_zero, load_cons_succ, load_nil, ok_bind, error_bind,
      Nat.reduceMod, Nat.reduceAdd, Nat.reduceLeDiff, decide_false, decide_true, and_true,
      List.length_cons] at h hlen ⊢
  · simp only [h, Bool.true_eq_false, if_false]
  · simp only [h, Bool.true_eq_false, if_false]
  · simp only [h, Bool.true_eq_false, if_false]
  · omega

/-- A group that is complete and accepted. -/
theorem base64Loop_group (h : AcceptsFrom 0 [a, b, c, d]) :
    base64Loop olen (fuel + 1) (a :: b :: c :: d :: s) out =
      if olen < (out ++ base64Bytes a b c d).length then .error .bounds
      else if 0 < s.length then base64Loop olen fuel s (out ++ base64Bytes a b c d)
      else .ok (some (out ++ base64Bytes a b c d)) := by
  rw [base64Loop_succ]
  simp only [AcceptsFrom, Nat.reduceMod, Nat.reduceAdd, Nat.reduceLeDiff, decide_false,
    decide_true, and_true] at h
  simp only [load_cons_zero, load_cons_succ, ok_bind, h, Bool.true_eq_false, if_false,
    List.drop_succ_cons, List.drop_zero]

/-- Less than a group stands for nothing. -/
theorem base64Yield_of_short (h : s.length < 4) : base64Yield s = 0 := by
  rcases s with - | ⟨a, - | ⟨b, - | ⟨c, - | ⟨d, s⟩⟩⟩⟩
  · rfl
  · rfl
  · rfl
  · rfl
  · simp only [List.length_cons] at h
    omega

/-- A group in front does not change whether there are whole groups. -/
theorem whole_group (hs : 0 < s.length) :
    (s ≠ [] ∧ s.length % 4 = 0) ↔
      a :: b :: c :: d :: s ≠ [] ∧ (a :: b :: c :: d :: s).length % 4 = 0 := by
  have hmod : (a :: b :: c :: d :: s).length % 4 = s.length % 4 := by
    simp only [List.length_cons]
    omega
  rw [hmod, and_iff_right (List.length_pos_iff.1 hs), and_iff_right (List.cons_ne_nil _ _)]

/-- **The loop of the decoder.** It writes past the end of its block where
the groups stand for more than the block holds; it returns an error at a
character that is not accepted; it reads past the end of the input where
the last group is not complete, or there is none. -/
theorem base64Loop_eq (hfuel : s.length < fuel) (hout : out.length ≤ olen) :
    base64Loop olen fuel s out =
      if olen < out.length + base64Yield s then .error .bounds
      else if ¬Accepts s then .ok none
      else if s ≠ [] ∧ s.length % 4 = 0 then .ok (some (out ++ base64Content s))
      else .error .bounds := by
  induction fuel generalizing s out with
  | zero => omega
  | succ fuel ih =>
    by_cases hshort : s.length < 4
    · have hlast : ¬(s ≠ [] ∧ s.length % 4 = 0) := by
        rintro ⟨hne, hmod⟩
        have := List.length_pos_iff.2 hne
        omega
      rw [base64Yield_of_short hshort, if_neg (by omega), if_neg hlast]
      by_cases hacc : Accepts s
      · rw [if_neg (not_not.2 hacc)]
        exact base64Loop_short hshort hacc
      · rw [if_pos hacc]
        exact base64Loop_reject (by rwa [List.take_of_length_le (by omega)])
    · rcases s with - | ⟨a, - | ⟨b, - | ⟨c, - | ⟨d, s⟩⟩⟩⟩
      iterate 4 exact absurd (by simp) hshort
      simp only [List.length_cons] at hfuel
      by_cases hacc : AcceptsFrom 0 [a, b, c, d]
      · have hiff : Accepts (a :: b :: c :: d :: s) ↔ Accepts s :=
          accepts_group.trans (and_iff_right hacc)
        rw [base64Loop_group hacc, base64Yield, if_pos hacc, ← length_base64Bytes a b c d,
          List.length_append, base64Content]
        by_cases hover : olen < out.length + (base64Bytes a b c d).length
        · rw [if_pos hover, if_pos (by omega)]
        · rw [if_neg hover]
          by_cases hs : 0 < s.length
          · have hlast := whole_group (a := a) (b := b) (c := c) (d := d) hs
            rw [if_pos hs, ih (by omega) (by rw [List.length_append]; omega), List.length_append,
              Nat.add_assoc, List.append_assoc]
            exact if_congr Iff.rfl rfl
              (if_congr (not_congr hiff.symm) rfl (if_congr hlast rfl rfl))
          · obtain rfl := List.length_eq_zero_iff.1 (Nat.eq_zero_of_not_pos hs)
            have hyes : Accepts [a, b, c, d] := hiff.2 trivial
            have hyield : base64Yield [] = 0 := rfl
            have hcontent : base64Content [] = [] := rfl
            rw [if_neg hs, hyield, if_neg (by omega), if_neg (not_not.2 hyes),
              if_pos ⟨List.cons_ne_nil _ _, by simp⟩, hcontent, List.append_nil]
      · have hno : ¬Accepts (a :: b :: c :: d :: s) := fun h => hacc (accepts_group.1 h).1
        rw [base64Loop_reject (by simpa using hacc), base64Yield, if_neg hacc, if_neg (by omega),
          if_pos hno]

/-- A size of which an `int` makes a negative number is refused. -/
theorem not_grants_olen {n : ℕ} (h : 2 ^ 31 ≤ n % 2 ^ 32) :
    ¬Grants (asInt n % 2 ^ 64).toNat := by
  unfold Grants asInt
  rw [Int.bmod_def]
  have hneg : ¬(n : ℤ) % (2 ^ 32 : ℕ) < ((2 ^ 32 : ℕ) + 1) / 2 := by omega
  rw [if_neg hneg]
  omega

/-- Any other is taken modulo 2³². -/
theorem grants_olen {n : ℕ} (h : n % 2 ^ 32 < 2 ^ 31) :
    Grants (asInt n % 2 ^ 64).toNat ∧ (asInt n % 2 ^ 64).toNat = n % 2 ^ 32 := by
  unfold Grants asInt
  rw [Int.bmod_def]
  have hpos : (n : ℤ) % (2 ^ 32 : ℕ) < ((2 ^ 32 : ℕ) + 1) / 2 := by omega
  rw [if_pos hpos]
  omega

/-- The block for the output. -/
theorem dicoBase64Decode_eq (s : Bytes) :
    dicoBase64Decode s =
      if 2 ^ 31 ≤ s.length % 2 ^ 32 then .ok none
      else base64Loop (s.length % 2 ^ 32) (s.length + 1) s [] := by
  unfold dicoBase64Decode
  by_cases hbig : 2 ^ 31 ≤ s.length % 2 ^ 32
  · rw [if_pos hbig]
    exact if_pos (not_grants_olen hbig)
  · obtain ⟨hgrants, hsize⟩ := grants_olen (not_le.1 hbig)
    rw [if_neg hbig, hsize]
    rw [hsize] at hgrants
    exact if_neg (not_not.2 hgrants)

/-- A text in two parts. -/
theorem acceptsFrom_append (k : ℕ) (u v : Bytes) :
    AcceptsFrom k (u ++ v) ↔ AcceptsFrom k u ∧ AcceptsFrom (k + u.length) v := by
  induction u generalizing k with
  | nil => simp [AcceptsFrom]
  | cons c u ih =>
    rw [List.cons_append, AcceptsFrom, AcceptsFrom, ih, List.length_cons, and_assoc,
      Nat.add_assoc, Nat.add_comm 1]

/-- Digits are accepted anywhere. -/
theorem acceptsFrom_digits (k : ℕ) {u : Bytes} (h : ∀ c ∈ u, (b64digit c).isSome) :
    AcceptsFrom k u := by
  induction u generalizing k with
  | nil => trivial
  | cons c u ih =>
    refine ⟨?_, ih (k + 1) fun d hd => h d (List.mem_cons_of_mem c hd)⟩
    rw [b64accepts, h c List.mem_cons_self, Bool.true_or]

/-- What is well formed is accepted. -/
theorem WellFormed64.accepts (h : WellFormed64 s) : Accepts s := by
  obtain ⟨-, hlen, body, pad, rfl, hbody, hpad⟩ := h
  rw [List.length_append] at hlen
  refine (acceptsFrom_append 0 body pad).2 ⟨acceptsFrom_digits 0 hbody, ?_⟩
  rw [Nat.zero_add]
  have hpadding (k : ℕ) (hk : 2 ≤ k % 4) : b64accepts (2 ≤ k % 4) 61 = true := by
    rw [decide_eq_true hk]
    decide
  rcases hpad with rfl | rfl | rfl
  · trivial
  · rw [List.length_singleton] at hlen
    exact ⟨hpadding _ (by omega), trivial⟩
  · simp only [List.length_cons, List.length_nil] at hlen
    exact ⟨hpadding _ (by omega), hpadding _ (by omega), trivial⟩

/-- **Decoding untrusted text**: the decoder returns, without having read or
written past the end of a block, and with an error if the text is not well
formed. -/
def DecodesSafely (s : Bytes) : Prop :=
  ∃ r, dicoBase64Decode s = .ok r ∧ (¬WellFormed64 s → r = none)

/-- It does where the length is a negative `int`, and else just where the
groups up to the first character that is not accepted fit into the block,
and there is such a character or the text is well formed. -/
theorem decodesSafely_iff (s : Bytes) :
    DecodesSafely s ↔ 2 ^ 31 ≤ s.length % 2 ^ 32 ∨
      base64Yield s ≤ s.length % 2 ^ 32 ∧ (¬Accepts s ∨ WellFormed64 s) := by
  unfold DecodesSafely
  rw [dicoBase64Decode_eq]
  by_cases hbig : 2 ^ 31 ≤ s.length % 2 ^ 32
  · rw [if_pos hbig]
    exact ⟨fun _ => .inl hbig, fun _ => ⟨none, rfl, fun _ => rfl⟩⟩
  rw [if_neg hbig, or_iff_right hbig, base64Loop_eq (Nat.lt_succ_self _) (Nat.zero_le _),
    List.length_nil, Nat.zero_add]
  by_cases hover : s.length % 2 ^ 32 < base64Yield s
  · rw [if_pos hover]
    constructor
    · rintro ⟨r, hr, -⟩
      cases hr
    · rintro ⟨hle, -⟩
      omega
  rw [if_neg hover]
  by_cases hacc : Accepts s
  · rw [if_neg (not_not.2 hacc)]
    by_cases hlast : s ≠ [] ∧ s.length % 4 = 0
    · rw [if_pos hlast]
      constructor
      · rintro ⟨r, hr, hwf⟩
        refine ⟨not_lt.1 hover, .inr ?_⟩
        by_contra hnot
        rw [hwf hnot] at hr
        cases hr
      · rintro ⟨-, h | h⟩
        · exact absurd hacc h
        · exact ⟨_, rfl, fun hnot => absurd h hnot⟩
    · rw [if_neg hlast]
      constructor
      · rintro ⟨r, hr, -⟩
        cases hr
      · rintro ⟨-, h | h⟩
        · exact absurd hacc h
        · exact absurd ⟨h.ne_nil, h.length⟩ hlast
  · rw [if_pos hacc]
    exact ⟨fun _ => ⟨not_lt.1 hover, .inl hacc⟩, fun _ => ⟨none, rfl, fun _ => rfl⟩⟩

/-- The groups stand for less than they are long. -/
theorem base64Yield_le (s : Bytes) : base64Yield s ≤ s.length := by
  fun_induction base64Yield s with
  | case1 a b c d s h ih =>
    simp only [List.length_cons]
    split_ifs <;> omega
  | case2 a b c d s h => exact Nat.zero_le _
  | case3 s h => exact Nat.zero_le _

/-- Of a text an `int` holds the length of, nothing else is asked. -/
theorem decodesSafely_iff_of_lt (h : s.length < 2 ^ 31) :
    DecodesSafely s ↔ ¬Accepts s ∨ WellFormed64 s := by
  have hmod : s.length % 2 ^ 32 = s.length := Nat.mod_eq_of_lt (by omega)
  have hyield := base64Yield_le s
  rw [decodesSafely_iff, hmod, or_iff_right (by omega), and_iff_right hyield]

/-- Nothing at all is read past its end. -/
theorem not_forall_decodesSafely : ¬∀ s : Bytes, DecodesSafely s := by
  intro hall
  obtain ⟨r, hr, -⟩ := hall []
  have hfault : dicoBase64Decode [] = .error .bounds := by decide
  exact absurd (hfault.symm.trans hr) (by rintro ⟨⟩)

end Decode

/-! ## There and back -/

section Encode

variable {x : Bytes} {n : ℕ}

/-- The table of values undoes the table of digits. -/
theorem b64digit_b64char (hn : n < 64) : b64digit (b64char n) = some n := by
  have hall : ∀ k : Fin 64, b64digit (b64char k) = some k.val := by decide
  exact hall ⟨n, hn⟩

/-- No digit is a `=`. -/
theorem b64char_ne_padding (hn : n < 64) : b64char n ≠ 61 := by
  rw [b64char_eq_digit hn]
  exact Base64.digit_ne_padding hn

/-- Bits put behind others. -/
theorem shiftLeft_or {k : ℕ} (m : ℕ) (hn : n < 2 ^ k) : (m <<< k) ||| n = m * 2 ^ k + n := by
  rw [← Nat.shiftLeft_add_eq_or_of_lt hn, Nat.shiftLeft_eq]

/-- Nothing put behind them. -/
theorem or_shiftRight_zero (m k : ℕ) : m ||| ((0 : UInt8).toNat >>> k) = m := by
  rw [show (0 : UInt8).toNat = 0 from rfl, Nat.zero_shiftRight, Nat.or_zero]

/-- The bits that the encoder takes of a byte for the next digit. -/
theorem encoder_masks (a : UInt8) :
    (a.toNat <<< 4) &&& 0x30 = (a.toNat % 4) <<< 4 ∧
      (a.toNat <<< 2) &&& 0x3c = (a.toNat % 16) <<< 2 ∧ a.toNat &&& 0x3f = a.toNat % 64 := by
  have hall : ∀ n : Fin 256, (n.val <<< 4) &&& 0x30 = (n.val % 4) <<< 4 ∧
      (n.val <<< 2) &&& 0x3c = (n.val % 16) <<< 2 ∧ n.val &&& 0x3f = n.val % 64 := by
    decide +kernel
  exact hall ⟨a.toNat, a.toNat_lt⟩

/-- The bits that the decoder takes of a digit for the next byte. -/
theorem decoder_masks (hn : n < 64) :
    (n <<< 4) &&& 0xf0 = (n % 16) <<< 4 ∧ (n <<< 6) &&& 0xc0 = (n % 4) <<< 6 := by
  have hall : ∀ n : Fin 64, (n.val <<< 4) &&& 0xf0 = (n.val % 16) <<< 4 ∧
      (n.val <<< 6) &&& 0xc0 = (n.val % 4) <<< 6 := by decide
  exact hall ⟨n, hn⟩

/-- The digits of three bytes. -/
theorem encoder_digits (a b c : UInt8) :
    a.toNat >>> 2 = a.toNat / 4 ∧
      ((a.toNat <<< 4) &&& 0x30) ||| (b.toNat >>> 4) = a.toNat % 4 * 16 + b.toNat / 16 ∧
      ((b.toNat <<< 2) &&& 0x3c) ||| (c.toNat >>> 6) = b.toNat % 16 * 4 + c.toNat / 64 ∧
      c.toNat &&& 0x3f = c.toNat % 64 := by
  have hb := b.toNat_lt
  have hc := c.toNat_lt
  have h₁ : b.toNat >>> 4 = b.toNat / 16 := Nat.shiftRight_eq_div_pow _ 4
  have h₂ : c.toNat >>> 6 = c.toNat / 64 := Nat.shiftRight_eq_div_pow _ 6
  refine ⟨Nat.shiftRight_eq_div_pow _ 2, ?_, ?_, (encoder_masks c).2.2⟩
  · rw [(encoder_masks a).1, h₁]
    exact shiftLeft_or _ (show b.toNat / 16 < 2 ^ 4 by omega)
  · rw [(encoder_masks b).2.1, h₂]
    exact shiftLeft_or _ (show c.toNat / 64 < 2 ^ 2 by omega)

/-- The bytes of four digits. -/
theorem decoder_bytes {p q r t : ℕ} (hq : q < 64) (hr : r < 64) (ht : t < 64) :
    (p <<< 2) ||| (q >>> 4) = p * 4 + q / 16 ∧
      ((q <<< 4) &&& 0xf0) ||| (r >>> 2) = q % 16 * 16 + r / 4 ∧
      ((r <<< 6) &&& 0xc0) ||| t = r % 4 * 64 + t := by
  have h₁ : q >>> 4 = q / 16 := Nat.shiftRight_eq_div_pow _ 4
  have h₂ : r >>> 2 = r / 4 := Nat.shiftRight_eq_div_pow _ 2
  refine ⟨?_, ?_, ?_⟩
  · rw [h₁]
    exact shiftLeft_or _ (show q / 16 < 2 ^ 2 by omega)
  · rw [(decoder_masks hq).1, h₂]
    exact shiftLeft_or _ (show r / 4 < 2 ^ 4 by omega)
  · rw [(decoder_masks hr).2]
    exact shiftLeft_or _ (show t < 2 ^ 6 by omega)

/-- A byte that was put together again. -/
theorem ofNat_eq {a : UInt8} (h : n = a.toNat) : UInt8.ofNat n = a := by
  rw [h, UInt8.ofNat_toNat]

/-- Three bytes come back from their four characters. -/
theorem base64Bytes_three (a b c : UInt8) :
    base64Bytes (b64char (a.toNat >>> 2))
      (b64char (((a.toNat <<< 4) &&& 0x30) ||| (b.toNat >>> 4)))
      (b64char (((b.toNat <<< 2) &&& 0x3c) ||| (c.toNat >>> 6))) (b64char (c.toNat &&& 0x3f)) =
      [a, b, c] := by
  have ha := a.toNat_lt
  have hb := b.toNat_lt
  have hc := c.toNat_lt
  obtain ⟨h₀, h₁, h₂, h₃⟩ := encoder_digits a b c
  rw [h₀, h₁, h₂, h₃]
  have l₀ : a.toNat / 4 < 64 := by omega
  have l₁ : a.toNat % 4 * 16 + b.toNat / 16 < 64 := by omega
  have l₂ : b.toNat % 16 * 4 + c.toNat / 64 < 64 := by omega
  have l₃ : c.toNat % 64 < 64 := by omega
  obtain ⟨e₀, -, -⟩ := @decoder_bytes (a.toNat / 4) _ _ _ l₁ l₂ l₃
  obtain ⟨-, e₁, e₂⟩ := @decoder_bytes 0 _ _ _ l₁ l₂ l₃
  unfold base64Bytes
  simp only [b64digit_b64char l₀, b64digit_b64char l₁, b64digit_b64char l₂, b64digit_b64char l₃,
    Option.getD_some, if_neg (b64char_ne_padding l₂), if_neg (b64char_ne_padding l₃), e₀, e₁, e₂]
  rw [ofNat_eq (a := a) (by omega), ofNat_eq (a := b) (by omega), ofNat_eq (a := c) (by omega)]

/-- Two bytes. -/
theorem base64Bytes_two (a b : UInt8) :
    base64Bytes (b64char (a.toNat >>> 2))
      (b64char (((a.toNat <<< 4) &&& 0x30) ||| (b.toNat >>> 4)))
      (b64char ((b.toNat <<< 2) &&& 0x3c)) 61 = [a, b] := by
  have ha := a.toNat_lt
  have hb := b.toNat_lt
  obtain ⟨h₀, h₁, -, -⟩ := encoder_digits a b 0
  have h₂ : (b.toNat <<< 2) &&& 0x3c = b.toNat % 16 * 4 := by
    rw [(encoder_masks b).2.1, Nat.shiftLeft_eq]
  rw [h₀, h₁, h₂]
  have l₀ : a.toNat / 4 < 64 := by omega
  have l₁ : a.toNat % 4 * 16 + b.toNat / 16 < 64 := by omega
  have l₂ : b.toNat % 16 * 4 < 64 := by omega
  obtain ⟨e₀, e₁, -⟩ := @decoder_bytes (a.toNat / 4) _ _ 0 l₁ l₂ (by decide)
  unfold base64Bytes
  simp only [b64digit_b64char l₀, b64digit_b64char l₁, b64digit_b64char l₂, Option.getD_some,
    if_neg (b64char_ne_padding l₂), if_true, e₀, e₁]
  rw [ofNat_eq (a := a) (by omega), ofNat_eq (a := b) (by omega)]

/-- One byte. -/
theorem base64Bytes_one (a : UInt8) :
    base64Bytes (b64char (a.toNat >>> 2)) (b64char ((a.toNat <<< 4) &&& 0x30)) 61 61 = [a] := by
  have ha := a.toNat_lt
  have h₀ : a.toNat >>> 2 = a.toNat / 4 := Nat.shiftRight_eq_div_pow _ 2
  have h₁ : (a.toNat <<< 4) &&& 0x30 = a.toNat % 4 * 16 := by
    rw [(encoder_masks a).1, Nat.shiftLeft_eq]
  rw [h₀, h₁]
  have l₀ : a.toNat / 4 < 64 := by omega
  have l₁ : a.toNat % 4 * 16 < 64 := by omega
  obtain ⟨e₀, -, -⟩ := @decoder_bytes (a.toNat / 4) _ 0 0 l₁ (by decide) (by decide)
  unfold base64Bytes
  simp only [b64digit_b64char l₀, b64digit_b64char l₁, Option.getD_some, if_true, e₀]
  rw [ofNat_eq (a := a) (by omega)]

/-- A digit is accepted anywhere. -/
theorem b64accepts_b64char (pad : Bool) (hn : n < 64) : b64accepts pad (b64char n) = true := by
  rw [b64accepts, b64digit_b64char hn, Option.isSome_some, Bool.true_or]

/-- The digits are below 64. -/
theorem encoder_lt (a b c : UInt8) :
    a.toNat >>> 2 < 64 ∧ ((a.toNat <<< 4) &&& 0x30) ||| (b.toNat >>> 4) < 64 ∧
      ((b.toNat <<< 2) &&& 0x3c) ||| (c.toNat >>> 6) < 64 ∧ c.toNat &&& 0x3f < 64 := by
  have ha := a.toNat_lt
  have hb := b.toNat_lt
  have hc := c.toNat_lt
  obtain ⟨h₀, h₁, h₂, h₃⟩ := encoder_digits a b c
  rw [h₀, h₁, h₂, h₃]
  exact ⟨by omega, by omega, by omega, by omega⟩

/-- A group in front of others. -/
theorem group_spec {p q r t : UInt8} {s bs : Bytes} (hacc : AcceptsFrom 0 [p, q, r, t])
    (hbytes : base64Bytes p q r t = bs) (hs : Accepts s) :
    Accepts (p :: q :: r :: t :: s) ∧
      base64Yield (p :: q :: r :: t :: s) = bs.length + base64Yield s ∧
      base64Content (p :: q :: r :: t :: s) = bs ++ base64Content s := by
  refine ⟨accepts_group.2 ⟨hacc, hs⟩, ?_, ?_⟩
  · rw [base64Yield, if_pos hacc, ← length_base64Bytes p q r t, hbytes]
  · rw [base64Content, hbytes]

/-- **What was encoded is accepted**, stands for as many bytes as there
were, and for these. -/
theorem base64Groups_spec (x : Bytes) :
    Accepts (base64Groups x) ∧ base64Yield (base64Groups x) = x.length ∧
      base64Content (base64Groups x) = x ∧
      (base64Groups x).length = 4 * ((x.length + 2) / 3) := by
  have hpadding : b64accepts true 61 = true := by decide
  fun_induction base64Groups x with
  | case1 => exact ⟨trivial, rfl, rfl, rfl⟩
  | case2 a =>
    obtain ⟨l₀, l₁, -, -⟩ := encoder_lt a 0 0
    rw [or_shiftRight_zero] at l₁
    obtain ⟨hacc, hyield, hcontent⟩ := group_spec
      ⟨b64accepts_b64char _ l₀, b64accepts_b64char _ l₁, hpadding, hpadding, trivial⟩
      (base64Bytes_one a) (s := []) trivial
    exact ⟨hacc, hyield, hcontent, by simp⟩
  | case3 a b =>
    obtain ⟨l₀, l₁, l₂, -⟩ := encoder_lt a b 0
    rw [or_shiftRight_zero] at l₂
    obtain ⟨hacc, hyield, hcontent⟩ := group_spec
      ⟨b64accepts_b64char _ l₀, b64accepts_b64char _ l₁, b64accepts_b64char _ l₂, hpadding,
        trivial⟩
      (base64Bytes_two a b) (s := []) trivial
    exact ⟨hacc, hyield, hcontent, by simp⟩
  | case4 a b c rest ih =>
    obtain ⟨l₀, l₁, l₂, l₃⟩ := encoder_lt a b c
    obtain ⟨hrest, hyield', hcontent', hlen⟩ := ih
    obtain ⟨hacc, hyield, hcontent⟩ := group_spec
      ⟨b64accepts_b64char _ l₀, b64accepts_b64char _ l₁, b64accepts_b64char _ l₂,
        b64accepts_b64char _ l₃, trivial⟩
      (base64Bytes_three a b c) hrest
    refine ⟨hacc, ?_, ?_, ?_⟩
    · rw [hyield, hyield']
      simp only [List.length_cons, List.length_nil]
      omega
    · rw [hcontent, hcontent']
      rfl
    · simp only [List.length_cons, hlen]
      omega

/-- The characters of three bytes are the standard ones. -/
theorem encoder_triple (a b c : UInt8) :
    [b64char (a.toNat >>> 2), b64char (((a.toNat <<< 4) &&& 0x30) ||| (b.toNat >>> 4)),
      b64char (((b.toNat <<< 2) &&& 0x3c) ||| (c.toNat >>> 6)), b64char (c.toNat &&& 0x3f)] =
      Base64.digits (Base64.triple a b c) := by
  have ha := a.toNat_lt
  have hb := b.toNat_lt
  have hc := c.toNat_lt
  obtain ⟨l₀, l₁, l₂, l₃⟩ := encoder_lt a b c
  obtain ⟨h₀, h₁, h₂, h₃⟩ := encoder_digits a b c
  have e₀ : a.toNat / 4 = Base64.triple a b c / 2 ^ 18 % 64 := by
    unfold Base64.triple
    omega
  have e₁ : a.toNat % 4 * 16 + b.toNat / 16 = Base64.triple a b c / 2 ^ 12 % 64 := by
    unfold Base64.triple
    omega
  have e₂ : b.toNat % 16 * 4 + c.toNat / 64 = Base64.triple a b c / 2 ^ 6 % 64 := by
    unfold Base64.triple
    omega
  have e₃ : c.toNat % 64 = Base64.triple a b c % 64 := by
    unfold Base64.triple
    omega
  rw [b64char_eq_digit l₀, b64char_eq_digit l₁, b64char_eq_digit l₂, b64char_eq_digit l₃, h₀, h₁,
    h₂, h₃, e₀, e₁, e₂, e₃, Base64.digits]

/-- **The encoder writes base64.** -/
theorem base64Groups_eq_encode (x : Bytes) : base64Groups x = Base64.encode x := by
  fun_induction base64Groups x with
  | case1 => rfl
  | case2 a =>
    rw [Base64.encode, ← encoder_triple, or_shiftRight_zero]
    rfl
  | case3 a b =>
    rw [Base64.encode, ← encoder_triple, or_shiftRight_zero]
    rfl
  | case4 a b c rest ih =>
    rw [Base64.encode, ← encoder_triple, ih]
    rfl

/-- The block of `dico_base64_encode` has room for the characters and the
null byte. -/
theorem dicoBase64Encode_eq (h : x.length < 2 ^ 61) :
    dicoBase64Encode x = .ok (some (base64Groups x)) := by
  obtain ⟨-, -, -, hlen⟩ := base64Groups_spec x
  have holen : 4 * ((x.length + 2) % 2 ^ 64) % 2 ^ 64 / 3 + 1 = 4 * (x.length + 2) / 3 + 1 := by
    omega
  unfold dicoBase64Encode Grants
  simp only [holen]
  rw [if_neg (by omega), if_pos (by omega)]

/-- What a decoder makes of what was encoded. -/
theorem dicoBase64Decode_groups (hne : x ≠ []) :
    dicoBase64Decode (base64Groups x) =
      if 2 ^ 31 ≤ 4 * ((x.length + 2) / 3) % 2 ^ 32 then .ok none
      else if 4 * ((x.length + 2) / 3) % 2 ^ 32 < x.length then .error .bounds
      else .ok (some x) := by
  obtain ⟨hacc, hyield, hcontent, hlen⟩ := base64Groups_spec x
  have hpos : 0 < x.length := List.length_pos_iff.2 hne
  have hlast : base64Groups x ≠ [] ∧ (base64Groups x).length % 4 = 0 := by
    refine ⟨?_, by omega⟩
    intro hnil
    rw [hnil, List.length_nil] at hlen
    omega
  rw [dicoBase64Decode_eq, base64Loop_eq (Nat.lt_succ_self _) (Nat.zero_le _), hyield, hcontent,
    if_neg (not_not.2 hacc), if_pos hlast, hlen, List.length_nil, Nat.zero_add, List.nil_append]

/-- **A buffer that is encoded and decoded**: the encoder keeps to its block
and writes a multiple of four characters, and the decoder returns the
buffer. -/
def Base64RoundTrips (x : Bytes) : Prop :=
  ∃ text, dicoBase64Encode x = .ok (some text) ∧ text.length % 4 = 0 ∧
    dicoBase64Decode text = .ok (some x)

/-- The largest buffer whose text has a length that is an `int`. -/
def base64Max : ℕ := 3 * (2 ^ 29 - 1)

/-- A larger buffer does not come back. -/
theorem not_base64RoundTrips (h : base64Max < x.length) : ¬Base64RoundTrips x := by
  rintro ⟨text, henc, -, hdec⟩
  unfold base64Max at h
  have htext : base64Groups x = text := by
    unfold dicoBase64Encode at henc
    dsimp only at henc
    split_ifs at henc with hgrant hroom
    · exact Option.some.inj (Except.ok.inj henc)
    · cases Except.ok.inj henc
  rw [← htext, dicoBase64Decode_groups (List.ne_nil_of_length_pos (by omega))] at hdec
  split_ifs at hdec with hbig hover
  · cases Except.ok.inj hdec
  · omega

/-- **The buffers that come back** are those whose text is shorter than 2³¹
characters. -/
theorem base64RoundTrips_iff (hne : x ≠ []) : Base64RoundTrips x ↔ x.length ≤ base64Max := by
  constructor
  · intro h
    by_contra hlong
    exact not_base64RoundTrips (not_le.1 hlong) h
  · intro h
    obtain ⟨-, -, -, hlen⟩ := base64Groups_spec x
    unfold base64Max at h
    refine ⟨base64Groups x, dicoBase64Encode_eq (by omega), by omega, ?_⟩
    rw [dicoBase64Decode_groups hne, if_neg (by omega), if_neg (by omega)]

/-- A short one. -/
theorem base64RoundTrips_word :
    ascii "dict" ≠ [] ∧ (Base64RoundTrips (ascii "dict") ↔ (ascii "dict").length ≤ base64Max) :=
  ⟨by decide, base64RoundTrips_iff (by decide)⟩

/-- A gigabyte and a half is too much. -/
theorem not_forall_base64RoundTrips : ¬∀ x : Bytes, x ≠ [] → Base64RoundTrips x := by
  intro hall
  have hlen : (List.replicate (base64Max + 1) (0 : UInt8)).length = base64Max + 1 :=
    List.length_replicate
  refine @not_base64RoundTrips (List.replicate (base64Max + 1) 0) (by rw [hlen]; omega)
    (hall _ (List.ne_nil_of_length_pos (by rw [hlen]; omega)))

end Encode

end Dico
