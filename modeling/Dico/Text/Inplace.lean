import Dico.Text.Cstr
import Dico.Text.Planes
import Dico.Text.Select
/-!
# Case conversion in place

`utf8_toupper` and `utf8_tolower` write the case of each character over the
character and only then compare the two widths. Where the case takes fewer
bytes they give up, but the character is already half overwritten: the
bytes that are left of it begin no character. So the string survives
exactly if no character of it is narrowed (`converted_iff`), and then it is
converted throughout.
-/

namespace Dico

open Utf8 (encode trail width)

/-! ## The conversion -/

/-- The loop of `utf8_toupper` and `utf8_tolower`, at an offset of the
block; `len` is the length the string had before. -/
def convertLoop (f : ℕ → ℕ) (len : ℕ) : ℕ → Bytes → ℕ → Except Fault (ℕ × Bytes)
  | 0, _, _ => .error .loop
  | fuel + 1, m, s => do
    let c ← load m s
    if c = 0 then .ok (0, m)
    else
      match utf8MbtowcN (m.drop s) len with
      | none => .ok (1, m)
      | some (wc, rc) =>
        match utf8Wctomb (f wc) with
        | none => .ok (1, m)
        | some r =>
          match Memory.poke m s r with
          | none => .error .bounds
          | some m => if rc ≠ r.length then .ok (1, m) else convertLoop f len fuel m (s + rc)

/-- The two conversions: what they return, and the block behind the
pointer. -/
def convertCase (f : ℕ → ℕ) (m : Bytes) : Except Fault (ℕ × Bytes) := do
  let s ← strAt m 0
  convertLoop f s.length (s.length + 1) m 0

/-- `utf8_toupper`. -/
def utf8Toupper (m : Bytes) : Except Fault (ℕ × Bytes) := convertCase utf8WcToupper m

/-- `utf8_tolower`. -/
def utf8Tolower (m : Bytes) : Except Fault (ℕ × Bytes) := convertCase utf8WcTolower m

/-! ## Characters that are narrowed -/

section Narrow

variable {narrow : List ℕ} {column : ℕ → Option (List ℕ)} {wc : ℕ}

/-- The case of a code point takes fewer bytes: it is one of those listed,
or a supplementary one that is taken for one of the basic plane. -/
def Narrowed (narrow : List ℕ) (wc : ℕ) : Prop := wc ∈ narrow ∨ 0x10000 ≤ wc ∧ Tabled wc

instance (narrow : List ℕ) : DecidablePred (Narrowed narrow) :=
  fun _ => inferInstanceAs (Decidable (_ ∨ _))

/-- What a conversion relies on: every code point but those narrowed keeps
its width, those become narrower, and characters stay characters. -/
structure CaseMap (f : ℕ → ℕ) (narrow : List ℕ) : Prop where
  /-- A code point that is narrowed takes fewer bytes. -/
  narrower : ∀ wc, Narrowed narrow wc → width (f wc) < width wc
  /-- The others take as many. -/
  kept : ∀ wc, ¬ Narrowed narrow wc → width (f wc) = width wc
  /-- The case of a character is one. -/
  valid : ∀ c : Char, (f c.toNat).isValidChar
  /-- Null is the case of no other. -/
  null : ∀ wc, 1 ≤ wc → ¬ Narrowed narrow wc → 1 ≤ f wc

/-- The widths run from one to four. -/
theorem width_pos (wc : ℕ) : 1 ≤ width wc := by
  rw [← Utf8.length_encode]
  exact List.length_pos_of_ne_nil (Utf8.encode_ne_nil wc)

/-- The basic plane takes three bytes at most. -/
theorem width_lt_iff : width wc < 4 ↔ wc < 0x10000 := by
  unfold width
  split_ifs <;> omega

/-- A code point that takes one byte. -/
theorem width_eq_one : width wc = 1 ↔ wc < 0x80 := by
  unfold width
  split_ifs <;> omega

/-- **A column is a case map**, where the code points it narrows have
tables and it has null for null alone. -/
theorem caseMap_lookup (hcol : TameColumn narrow column)
    (hsame : ∀ k, (column k).isSome = (uniPlaneToupper k).isSome)
    (hbasic : ∀ wc ∈ narrow, wc < 0x10000 ∧ Tabled wc)
    (hnull : ∀ wc < 0x80, 1 ≤ wc → 1 ≤ lookup column wc) :
    CaseMap (lookup column) narrow := by
  have htame : ∀ wc, Tabled wc → TameCase narrow (wc % 0x10000) (lookup column wc) := fun wc h =>
    lookup_of_some hcol (by rw [hsame]; exact h)
  have hown : ∀ wc, ¬ Tabled wc → lookup column wc = wc := fun wc h =>
    lookup_of_none (by rw [hsame]; exact Bool.eq_false_of_not_eq_true h)
  have hlow : ∀ wc, wc < 0x10000 → Tabled wc →
      if wc ∈ narrow then width (lookup column wc) < width wc
      else width (lookup column wc) = width wc := by
    intro wc hwc h
    have hmod := (htame wc h).2.2
    rwa [Nat.mod_eq_of_lt hwc] at hmod
  have hkept : ∀ wc, ¬ Narrowed narrow wc → width (lookup column wc) = width wc := by
    intro wc h
    by_cases htab : Tabled wc
    · have hwc : wc < 0x10000 := by
        by_contra hge
        exact h (.inr ⟨by omega, htab⟩)
      simpa only [if_neg fun hmem => h (.inl hmem)] using hlow wc hwc htab
    · rw [hown wc htab]
  refine ⟨?_, hkept, ?_, ?_⟩
  · rintro wc (hmem | ⟨hsup, htab⟩)
    · have hwc := hbasic wc hmem
      simpa only [if_pos hmem] using hlow wc hwc.1 hwc.2
    · have hlt := width_lt_iff.2 (htame wc htab).1
      have hge : ¬ width wc < 4 := fun h => absurd (width_lt_iff.1 h) (by omega)
      omega
  · intro c
    by_cases htab : Tabled c.toNat
    · obtain ⟨hbmp, hlt | hge, -⟩ := htame c.toNat htab
      · exact .inl hlt
      · exact .inr ⟨by omega, by omega⟩
    · rw [hown _ htab]
      exact c.valid
  · intro wc hpos h
    by_contra hzero
    have hone : wc < 0x80 := by
      rw [← width_eq_one, ← hkept wc h, width_eq_one]
      omega
    exact hzero (hnull wc hone hpos)

/-- Upper case. -/
theorem caseMap_toupper : CaseMap utf8WcToupper narrowUpper :=
  caseMap_lookup tameColumn_toupper (fun _ => rfl) (by decide) (by decide +kernel)

/-- Lower case. -/
theorem caseMap_tolower : CaseMap utf8WcTolower narrowLower :=
  caseMap_lookup tameColumn_tolower isSome_uniPlaneTolower (by decide) (by decide +kernel)

end Narrow

/-! ## What the loop does to a string -/

section Loop

variable {f : ℕ → ℕ} {narrow ws : List ℕ} {pre rest : Bytes} {len fuel wc : ℕ}

/-- One round of the loop writes the case over the character, and goes on
where the widths agree. -/
theorem convertLoop_char (h₀ : 1 ≤ wc) (hwc : wc < 0x110000) (hf : f wc < 0x110000)
    (hle : width (f wc) ≤ width wc) (hlen : width wc ≤ len) :
    convertLoop f len (fuel + 1) (pre ++ (encode wc ++ rest)) pre.length =
      if width (f wc) = width wc then
        convertLoop f len fuel ((pre ++ encode (f wc)) ++ rest) (pre ++ encode (f wc)).length
      else .ok (1, pre ++ (encode (f wc) ++ ((encode wc).drop (width (f wc)) ++ rest))) := by
  have hdec : utf8MbtowcN (encode wc ++ rest) len = some (wc, (encode wc).length) :=
    utf8MbtowcN_encode h₀ (by omega) (by rwa [Utf8.length_encode]) rest
  have hpoke : Memory.poke (pre ++ (encode wc ++ rest)) pre.length (encode (f wc)) =
      some (pre ++ (encode (f wc) ++ ((encode wc).drop (width (f wc)) ++ rest))) := by
    have hdrop : (pre ++ (encode wc ++ rest)).drop (pre.length + width (f wc)) =
        (encode wc).drop (width (f wc)) ++ rest := by
      rw [List.drop_append, List.drop_eq_nil_of_le (by omega), List.nil_append,
        Nat.add_sub_cancel_left, List.drop_append_of_le_length (by rwa [Utf8.length_encode])]
    rw [Memory.poke_eq_some, List.take_left, Utf8.length_encode, hdrop, List.append_assoc]
    simp only [List.length_append, Utf8.length_encode]
    omega
  obtain ⟨b, q, hb⟩ := Utf8.encode_append wc rest
  have hbne : b ≠ 0 := by
    obtain ⟨d, r, hd⟩ := List.exists_cons_of_ne_nil (Utf8.encode_ne_nil wc)
    rw [hd, List.cons_append] at hb
    rw [← (List.cons.inj hb).1]
    exact Utf8.ne_zero_of_mem_encode h₀ (by omega) (by rw [hd]; exact List.mem_cons_self)
  have hload : load (pre ++ (encode wc ++ rest)) pre.length = .ok b := by
    rw [hb, load_append]
  rw [convertLoop, hload, ok_bind, if_neg hbne, List.drop_left, hdec]
  dsimp only
  rw [utf8Wctomb_eq (by omega)]
  dsimp only
  rw [hpoke]
  dsimp only
  rw [Utf8.length_encode, Utf8.length_encode]
  by_cases heq : width (f wc) = width wc
  · rw [if_pos heq, if_neg (by omega), heq,
      List.drop_eq_nil_of_le (by rw [Utf8.length_encode]), List.nil_append, List.length_append,
      Utf8.length_encode, heq, List.append_assoc]
  · rw [if_neg heq, if_pos (by omega)]

/-- The end of the string. -/
theorem convertLoop_end :
    convertLoop f len (fuel + 1) (pre ++ 0 :: rest) pre.length = .ok (0, pre ++ 0 :: rest) := by
  rw [convertLoop, load_append, ok_bind, if_pos rfl]

/-- What the case map makes of a code point of Unicode. -/
theorem CaseMap.width_le (hf : CaseMap f narrow) (wc : ℕ) : width (f wc) ≤ width wc := by
  by_cases h : Narrowed narrow wc
  · exact (hf.narrower wc h).le
  · exact (hf.kept wc h).le

/-- **A string without narrowed characters is converted.** -/
theorem convertLoop_kept (hf : CaseMap f narrow) (hws : Scalars ws)
    (hmap : ∀ wc ∈ ws, f wc < 0x110000) (hkept : ∀ wc ∈ ws, ¬ Narrowed narrow wc)
    (hlen : (ws.flatMap encode).length ≤ len) (hfuel : ws.length < fuel) :
    convertLoop f len fuel (pre ++ (ws.flatMap encode ++ 0 :: rest)) pre.length =
      .ok (0, pre ++ ((ws.map f).flatMap encode ++ 0 :: rest)) := by
  induction ws generalizing pre fuel with
  | nil =>
    obtain ⟨fuel, rfl⟩ : ∃ k, fuel = k + 1 := ⟨fuel - 1, by omega⟩
    exact convertLoop_end
  | cons wc ws ih =>
    obtain ⟨hwc, hws⟩ := List.forall_mem_cons.1 hws
    obtain ⟨hfwc, hmap⟩ := List.forall_mem_cons.1 hmap
    obtain ⟨hk, hkept⟩ := List.forall_mem_cons.1 hkept
    rw [List.length_cons] at hfuel
    rw [List.flatMap_cons, List.length_append, Utf8.length_encode] at hlen
    obtain ⟨fuel, rfl⟩ : ∃ k, fuel = k + 1 := ⟨fuel - 1, by omega⟩
    rw [List.flatMap_cons, List.append_assoc,
      convertLoop_char hwc.1 hwc.2 hfwc (hf.width_le wc) (by omega), if_pos (hf.kept wc hk),
      ih hws hmap hkept (by omega) (by omega), List.map_cons, List.flatMap_cons,
      List.append_assoc, List.append_assoc]

/-- **The first narrowed character ends the conversion**, with its case
written over its first bytes. -/
theorem convertLoop_narrowed (hf : CaseMap f narrow) {bs : List ℕ} (hws : Scalars (ws ++ wc :: bs))
    (hmap : ∀ x ∈ ws ++ wc :: bs, f x < 0x110000) (hkept : ∀ x ∈ ws, ¬ Narrowed narrow x)
    (hwc : Narrowed narrow wc) (hlen : ((ws ++ wc :: bs).flatMap encode).length ≤ len)
    (hfuel : ws.length < fuel) :
    convertLoop f len fuel (pre ++ ((ws ++ wc :: bs).flatMap encode ++ 0 :: rest)) pre.length =
      .ok (1, pre ++ ((ws.map f).flatMap encode ++ (encode (f wc) ++
        ((encode wc).drop (width (f wc)) ++ (bs.flatMap encode ++ 0 :: rest))))) := by
  induction ws generalizing pre fuel with
  | nil =>
    rw [List.nil_append] at hws hmap
    obtain ⟨hscal, -⟩ := List.forall_mem_cons.1 hws
    obtain ⟨hfwc, -⟩ := List.forall_mem_cons.1 hmap
    have hlt := hf.narrower wc hwc
    rw [List.nil_append, List.flatMap_cons, List.length_append, Utf8.length_encode] at hlen
    obtain ⟨fuel, rfl⟩ : ∃ k, fuel = k + 1 := ⟨fuel - 1, by omega⟩
    rw [List.nil_append, List.flatMap_cons, List.append_assoc,
      convertLoop_char hscal.1 hscal.2 hfwc hlt.le (by omega), if_neg (by omega), List.map_nil,
      List.flatMap_nil, List.nil_append]
  | cons x ws ih =>
    rw [List.cons_append] at hws hmap
    obtain ⟨hx, hws⟩ := List.forall_mem_cons.1 hws
    obtain ⟨hfx, hmap⟩ := List.forall_mem_cons.1 hmap
    obtain ⟨hk, hkept⟩ := List.forall_mem_cons.1 hkept
    rw [List.length_cons] at hfuel
    rw [List.cons_append, List.flatMap_cons, List.length_append, Utf8.length_encode] at hlen
    obtain ⟨fuel, rfl⟩ : ∃ k, fuel = k + 1 := ⟨fuel - 1, by omega⟩
    rw [List.cons_append, List.flatMap_cons, List.append_assoc,
      convertLoop_char hx.1 hx.2 hfx (hf.width_le x) (by omega), if_pos (hf.kept x hk),
      ih hws hmap hkept (by omega) (by omega), List.map_cons, List.flatMap_cons,
      List.append_assoc, List.append_assoc]

end Loop

/-! ## What is left of the string -/

section Strings

variable {f : ℕ → ℕ} {narrow : List ℕ}

/-- A byte that continues a character begins none. -/
theorem flatMap_encode_ne_trail {C : List ℕ} (hC : Scalars C) (x : ℕ) (r : Bytes) :
    C.flatMap encode ≠ trail x :: r := by
  intro h
  cases C with
  | nil => cases h
  | cons c C =>
    obtain ⟨hc, -⟩ := List.forall_mem_cons.1 hC
    have hwidth := utf8CharWidth_encode hc.2 (C.flatMap encode)
    rw [List.flatMap_cons] at h
    rw [h, utf8CharWidth_trail] at hwidth
    exact absurd (List.length_eq_zero_iff.1 hwidth.symm) (Utf8.encode_ne_nil c)

/-- Nothing valid is left where a character was narrowed: its case, if
that is not null, has bytes behind it that begin no character. -/
theorem not_valid_narrowed {A : List ℕ} {x : ℕ} {wc : ℕ} (hA : Codepoints A) (hx : 1 ≤ x)
    (hlt : width x < width wc) (t : Utf8Text) (r : Bytes) :
    t.bytes ≠ A.flatMap encode ++ (encode x ++ ((encode wc).drop (width x) ++ r)) := by
  intro h
  have hx' : x < 0x200000 := by
    have h4 : width wc ≤ 4 := by
      unfold width
      split_ifs <;> omega
    have := width_lt_iff.1 (show width x < 4 by omega)
    omega
  obtain ⟨y, q, hy⟩ := drop_encode (width_pos x) (by rwa [Utf8.length_encode])
  have hsplit : (A ++ [x]).flatMap encode ++ (trail y :: (q ++ r)) = t.codes.flatMap encode := by
    rw [← t.bytes_eq, h, hy, List.flatMap_append, List.flatMap_singleton, List.append_assoc,
      List.cons_append]
  have hAx : Codepoints (A ++ [x]) := List.forall_mem_append.2
    ⟨hA, List.forall_mem_singleton.2 ⟨hx, hx'⟩⟩
  obtain ⟨C, hC, hr⟩ := flatMap_encode_append hAx t.codes_codepoints hsplit
  have hscal : Scalars C := fun c hc => t.codes_range (by rw [hC]; exact List.mem_append_right _ hc)
  exact flatMap_encode_ne_trail hscal y (q ++ r) hr.symm

/-- The text of the cases of a text, where none of them is null. -/
def Utf8Text.mapped (s : Utf8Text) (f : ℕ → ℕ) (hvalid : ∀ c : Char, (f c.toNat).isValidChar)
    (hnull : ∀ wc ∈ s.codes, 1 ≤ f wc) : Utf8Text where
  chars := s.chars.map fun c => Char.ofNat (f c.toNat)
  null_notMem := by
    intro h
    obtain ⟨c, hc, heq⟩ := List.mem_map.1 h
    have hpos := hnull c.toNat (List.mem_map_of_mem hc)
    have hnat := congrArg Char.toNat heq
    rw [Utf8.toNat_charOfNat (hvalid c)] at hnat
    exact absurd hnat (Nat.ne_of_gt hpos)

/-- Its code points. -/
theorem Utf8Text.codes_mapped (s : Utf8Text) (f : ℕ → ℕ)
    (hvalid : ∀ c : Char, (f c.toNat).isValidChar) (hnull : ∀ wc ∈ s.codes, 1 ≤ f wc) :
    (s.mapped f hvalid hnull).codes = s.codes.map f := by
  rw [Utf8Text.codes, Utf8Text.codes, Utf8Text.mapped, List.map_map, List.map_map]
  refine List.map_congr_left fun c _ => ?_
  rw [Function.comp_apply, Function.comp_apply, Utf8.toNat_charOfNat (hvalid c)]

/-- Characters that keep their widths take as many bytes together. -/
theorem length_flatMap_map {ws : List ℕ} (h : ∀ wc ∈ ws, width (f wc) = width wc) :
    ((ws.map f).flatMap encode).length = (ws.flatMap encode).length := by
  induction ws with
  | nil => rfl
  | cons wc ws ih =>
    obtain ⟨hwc, hws⟩ := List.forall_mem_cons.1 h
    rw [List.map_cons, List.flatMap_cons, List.flatMap_cons, List.length_append,
      List.length_append, Utf8.length_encode, Utf8.length_encode, hwc, ih hws]

/-- What is asked of a conversion of a string in a block, with anything
behind it: the block still has a string of valid UTF-8 of as many bytes,
whatever is returned, and after 0 its code points are the cases of those
there were. -/
def Converted (f : ℕ → ℕ) (convert : Bytes → Except Fault (ℕ × Bytes)) (s : Utf8Text)
    (rest : Bytes) : Prop :=
  ∃ (rc : ℕ) (m : Bytes) (t : Utf8Text), convert (s.bytes ++ 0 :: rest) = .ok (rc, m) ∧
    strAt m 0 = .ok t.bytes ∧ t.bytes.length = s.bytes.length ∧
    (rc = 0 → t.codes = s.codes.map f)

variable (s : Utf8Text) (rest : Bytes)

/-- There is no null byte in a text. -/
theorem Utf8Text.zero_notMem : (0 : UInt8) ∉ s.bytes := by
  rw [s.bytes_eq]
  exact fun h => ne_zero_of_mem_encode s.codes_codepoints h rfl

/-- The conversion begins at the first byte. -/
theorem convertCase_bytes :
    convertCase f (s.bytes ++ 0 :: rest) =
      convertLoop f s.bytes.length (s.bytes.length + 1)
        ([] ++ (s.codes.flatMap encode ++ 0 :: rest)) ([] : Bytes).length := by
  have hstr := strAt_append [] s.zero_notMem rest
  rw [List.nil_append, List.length_nil] at hstr
  rw [convertCase, hstr, ok_bind, List.nil_append, ← s.bytes_eq, List.length_nil]

/-- The cases of a text's characters are characters. -/
theorem CaseMap.lt (hf : CaseMap f narrow) : ∀ wc ∈ s.codes, f wc < 0x110000 := by
  intro wc hwc
  obtain ⟨c, -, rfl⟩ := List.mem_map.1 hwc
  rcases hf.valid c with h | h
  · exact lt_trans h (by decide)
  · exact h.2

/-- The first character that is narrowed, where there is one. -/
theorem exists_first_narrowed {ws : List ℕ} (h : ¬ ∀ wc ∈ ws, ¬ Narrowed narrow wc) :
    ∃ as x bs, ws = as ++ x :: bs ∧ Narrowed narrow x ∧ ∀ y ∈ as, ¬ Narrowed narrow y := by
  push Not at h
  obtain ⟨wc, hwc, hn⟩ := h
  have hsome : (ws.find? fun x => decide (Narrowed narrow x)).isSome :=
    List.find?_isSome.2 ⟨wc, hwc, decide_eq_true hn⟩
  obtain ⟨x, hx⟩ := Option.isSome_iff_exists.1 hsome
  obtain ⟨hpx, as, bs, hsplit, has⟩ := List.find?_eq_some_iff_append.1 hx
  refine ⟨as, x, bs, hsplit, of_decide_eq_true hpx, fun y hy hny => ?_⟩
  have hpy := has y hy
  rw [decide_eq_true hny] at hpy
  cases hpy

/-- A string that ends in null bytes is read up to the first of them. -/
theorem strAt_zero {m r : Bytes} (h : 0 ∉ m) : strAt (m ++ 0 :: r) 0 = .ok m := by
  have hstr := strAt_append [] h r
  rwa [List.nil_append, List.length_nil] at hstr

/-- **A narrowed character is not got over**: the string is cut off, where
its case is null, or is no longer valid. -/
theorem not_converted (hf : CaseMap f narrow) (h : ¬ ∀ wc ∈ s.codes, ¬ Narrowed narrow wc) :
    ¬ Converted f (convertCase f) s rest := by
  rintro ⟨rc, m, t, hrun, hstr, hsame, -⟩
  obtain ⟨as, x, bs, hsplit, hx, has⟩ := exists_first_narrowed h
  have hlt := hf.narrower x hx
  have hmap := hf.lt s
  have hcodes : ∀ y ∈ as, y ∈ s.codes := fun y hy => hsplit ▸ List.mem_append_left _ hy
  have hA : Codepoints (as.map f) := by
    intro y hy
    obtain ⟨z, hz, rfl⟩ := List.mem_map.1 hy
    have hfz := hmap z (hcodes z hz)
    exact ⟨hf.null z (s.codes_range (hcodes z hz)).1 (has z hz), by omega⟩
  have hlen := length_codes_le s
  rw [convertCase_bytes, hsplit, convertLoop_narrowed hf (hsplit ▸ s.scalars) (hsplit ▸ hmap) has hx
    (by rw [← hsplit, s.bytes_eq])
    (by rw [hsplit, List.length_append] at hlen; omega), Except.ok.injEq, Prod.mk.injEq,
    List.nil_append] at hrun
  obtain ⟨-, rfl⟩ := hrun
  have hclean : 0 ∉ (as.map f).flatMap encode := fun h => ne_zero_of_mem_encode hA h rfl
  rcases Nat.eq_zero_or_pos (f x) with hzero | hpos
  · -- the case is the null byte: the string ends before it
    rw [hzero, show encode 0 = [0] from rfl, List.cons_append, strAt_zero hclean,
      Except.ok.injEq] at hstr
    rw [← hstr, s.bytes_eq, hsplit, List.flatMap_append, List.length_append,
      length_flatMap_map fun y hy => hf.kept y (has y hy), List.flatMap_cons,
      List.length_append, Utf8.length_encode] at hsame
    have := width_pos x
    omega
  · have hbs : Codepoints bs := fun y hy => s.codes_codepoints y
      (hsplit ▸ List.mem_append_right _ (List.mem_cons_of_mem _ hy))
    have hxc := s.codes_codepoints x (hsplit ▸ List.mem_append_right _ List.mem_cons_self)
    have hfx := hmap x (hsplit ▸ List.mem_append_right _ List.mem_cons_self)
    have hnull : 0 ∉ (as.map f).flatMap encode ++ (encode (f x) ++
        ((encode x).drop (width (f x)) ++ bs.flatMap encode)) := by
      simp only [List.mem_append, not_or]
      exact ⟨hclean, fun h => Utf8.ne_zero_of_mem_encode hpos (by omega) h rfl,
        fun h => Utf8.ne_zero_of_mem_encode hxc.1 hxc.2 (List.mem_of_mem_drop h) rfl,
        fun h => ne_zero_of_mem_encode hbs h rfl⟩
    have happ := strAt_zero (r := rest) hnull
    simp only [List.append_assoc] at happ
    rw [happ, Except.ok.injEq] at hstr
    exact not_valid_narrowed hA hpos hlt t _ hstr.symm

/-- **A conversion in place keeps the string exactly if no character of it
is narrowed.** -/
theorem converted_convertCase_iff (hf : CaseMap f narrow) :
    Converted f (convertCase f) s rest ↔ ∀ wc ∈ s.codes, ¬ Narrowed narrow wc := by
  refine ⟨fun h => not_not.1 fun hn => not_converted s rest hf hn h, fun hkept => ?_⟩
  have hnull : ∀ wc ∈ s.codes, 1 ≤ f wc := fun wc hwc =>
    hf.null wc (s.codes_range hwc).1 (hkept wc hwc)
  have hcodes := s.codes_mapped f hf.valid hnull
  refine ⟨0, [] ++ ((s.codes.map f).flatMap encode ++ 0 :: rest), s.mapped f hf.valid hnull,
    ?_, ?_, ?_, fun _ => hcodes⟩
  · rw [convertCase_bytes]
    exact convertLoop_kept hf s.scalars (hf.lt s) hkept (by rw [s.bytes_eq])
      (Nat.lt_succ_of_le (length_codes_le s))
  · rw [List.nil_append, ← hcodes, ← Utf8Text.bytes_eq]
    exact strAt_zero (Utf8Text.zero_notMem _)
  · rw [Utf8Text.bytes_eq, hcodes, s.bytes_eq]
    exact length_flatMap_map fun wc hwc => hf.kept wc (hkept wc hwc)

/-- **Case conversion in place.** `utf8_toupper` and `utf8_tolower` leave a
valid string of as many bytes, converted where they return 0, exactly if
no character is among those whose case takes fewer bytes and no
supplementary character has a table of the basic plane. -/
theorem converted_iff :
    (Converted utf8WcToupper utf8Toupper s rest ↔ ∀ wc ∈ s.codes, ¬ Narrowed narrowUpper wc) ∧
    (Converted utf8WcTolower utf8Tolower s rest ↔ ∀ wc ∈ s.codes, ¬ Narrowed narrowLower wc) :=
  ⟨converted_convertCase_iff s rest caseMap_toupper,
    converted_convertCase_iff s rest caseMap_tolower⟩

end Strings

/-- **A letter overwritten by half.** The upper case of the letter i
without its dot is the letter I; the second byte of the character is left
behind it. -/
theorem not_converted_dotless :
    utf8Toupper ((oneChar (Char.ofNat 0x131) (by decide)).bytes ++ [0]) =
      .ok (1, [0x49, 0xb1, 0]) ∧
    ¬ Converted utf8WcToupper utf8Toupper (oneChar (Char.ofNat 0x131) (by decide)) [] :=
  ⟨by decide +kernel, not_converted _ _ caseMap_toupper (by decide +kernel)⟩

end Dico
