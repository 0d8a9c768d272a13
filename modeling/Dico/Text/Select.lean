import Dico.Text.Compare
/-!
# The selectors

A selector is called with `DICO_SELECT_BEGIN` once, with
`DICO_SELECT_RUN` for each headword, and with `DICO_SELECT_END` at last;
what it wants to remember about the key it leaves in `call_data`. Here are
the three that compare text: `exact_sel`, `prefix_sel` and `suffix_sel`.

`suffix_sel` keeps the two lengths of the key in each other's place. It
steps back from the end of the headword by as many bytes as the key has
characters, so the end it looks at is the right one only where a
character is a byte (`suffixSel_iff`).
-/

namespace Dico

open Utf8 (encode trail)

/-! ## The model -/

/-- The commands to a selector. -/
inductive SelectCmd
  | begin
  | run
  | done
  deriving DecidableEq, Repr

/-- What the selectors leave in `call_data`. -/
inductive CallData
  | null
  | length (keylen : ℕ)
  | suffix (charlen bytelen : ℕ)
  deriving DecidableEq, Repr

/-- `struct dico_key`, as far as the selectors go. -/
structure DicoKey where
  /-- The word looked for. -/
  word : Bytes
  /-- The selector's own data. -/
  callData : CallData
  deriving DecidableEq, Repr

/-- `struct dico_key`, for the selector of a module that leaves data of its
own in `call_data`. -/
structure ModuleKey (δ : Type) where
  /-- The word looked for. -/
  word : Bytes
  /-- The module's data, where it has set any. -/
  callData : Option δ

/-- The loop of `utf8_strlen`. A character that is cut off by the end of
the string would lead the pointer beyond it. -/
def strlenLoop : ℕ → Bytes → Option ℕ
  | _, [] => some 0
  | 0, _ :: _ => none
  | fuel + 1, b :: s => do
    let n := utf8CharWidth (b :: s)
    if n = 0 then some 0
    else if s.length + 1 < n then none
    else
      let len ← strlenLoop fuel ((b :: s).drop n)
      some (len + 1)

/-- `utf8_strlen`. -/
def utf8Strlen (s : Bytes) : Option ℕ := strlenLoop s.length s

/-- `exact_sel`. -/
def exactSel (cmd : SelectCmd) (key : DicoKey) (dictWord : Bytes) : Option (Bool × DicoKey) :=
  match cmd with
  | .begin => some (false, key)
  | .run => do
    let rc ← utf8Strcasecmp key.word dictWord
    some (rc == 0, key)
  | .done => some (false, key)

/-- `prefix_sel`. -/
def prefixSel (cmd : SelectCmd) (key : DicoKey) (dictWord : Bytes) : Option (Bool × DicoKey) :=
  match cmd with
  | .begin => do
    let keylen ← utf8Strlen key.word
    some (false, { key with callData := .length keylen })
  | .run =>
    match key.callData with
    | .length keylen => do
      let wordlen ← utf8Strlen dictWord
      if keylen ≤ wordlen then
        let rc ← utf8Strncasecmp dictWord key.word keylen
        some (rc == 0, key)
      else some (false, key)
    | _ => none
  | .done => some (false, key)

/-- `suffix_sel`. -/
def suffixSel (cmd : SelectCmd) (key : DicoKey) (dictWord : Bytes) : Option (Bool × DicoKey) :=
  match cmd with
  | .begin => do
    let bytelen ← utf8Strlen key.word
    let charlen := key.word.length
    some (false, { key with callData := .suffix charlen bytelen })
  | .run =>
    match key.callData with
    | .suffix _ bytelen =>
      let wordlen := dictWord.length
      if bytelen ≤ wordlen then do
        let rc ← utf8Strncasecmp (dictWord.drop (wordlen - bytelen)) key.word bytelen
        some (rc == 0, key)
      else some (false, key)
    | _ => none
  | .done => some (false, { key with callData := .null })

/-- What a selector answers to `DICO_SELECT_RUN` after
`DICO_SELECT_BEGIN`. -/
def selects (sel : SelectCmd → DicoKey → Bytes → Option (Bool × DicoKey))
    (word dictWord : Bytes) : Option Bool := do
  let (_, key) ← sel .begin ⟨word, .null⟩ []
  let (answer, _) ← sel .run key dictWord
  some answer

example : selects suffixSel (ascii "CAT") (ascii "concat") = some true := by decide +kernel

/-! ## Strings cut in two -/

section Cuts

variable {ws A B : List ℕ}

/-- A character of the width that its first byte announces is one more. -/
theorem strlenLoop_encode_append {wc : ℕ} {s : Bytes} (fuel : ℕ)
    (hwidth : utf8CharWidth (encode wc ++ s) = (encode wc).length) :
    strlenLoop (fuel + 1) (encode wc ++ s) = (strlenLoop fuel s).map (· + 1) := by
  have hdrop : (encode wc ++ s).drop (encode wc).length = s := List.drop_left
  have hpos := List.length_pos_of_ne_nil (Utf8.encode_ne_nil wc)
  have hlen : (encode wc ++ s).length = (encode wc).length + s.length := List.length_append
  obtain ⟨b, r, hbr⟩ := Utf8.encode_append wc s
  rw [hbr] at hwidth hdrop hlen
  rw [List.length_cons] at hlen
  rw [hbr, strlenLoop]
  simp only [hwidth]
  rw [if_neg (by omega), if_neg (by omega), hdrop]
  cases strlenLoop fuel s with
  | none => rfl
  | some len => rfl

/-- `utf8_strlen` counts the code points. -/
theorem strlenLoop_encode (h : Scalars ws) {fuel : ℕ} (hfuel : ws.length ≤ fuel) :
    strlenLoop fuel (ws.flatMap encode) = some ws.length := by
  induction ws generalizing fuel with
  | nil => rw [List.flatMap_nil, strlenLoop, List.length_nil]
  | cons wc ws ih =>
    obtain ⟨hwc, hws⟩ := List.forall_mem_cons.1 h
    rw [List.length_cons] at hfuel
    obtain ⟨fuel, rfl⟩ : ∃ k, fuel = k + 1 := ⟨fuel - 1, by omega⟩
    have hwidth := utf8CharWidth_encode hwc.2 (ws.flatMap encode)
    rw [List.flatMap_cons, strlenLoop_encode_append fuel hwidth, ih hws (by omega)]
    rfl

/-- A byte inside a character continues it. -/
theorem drop_encode {wc n : ℕ} (h₀ : 0 < n) (h : n < (encode wc).length) :
    ∃ x r, (encode wc).drop n = trail x :: r := by
  rcases Utf8.width_cases wc with h₁ | ⟨h₂, h₁⟩ | ⟨h₂, h₁⟩ | h₂
  · rw [Utf8.encode_one h₁, List.length_singleton] at h
    omega
  · rw [Utf8.encode_two h₂ h₁] at h ⊢
    obtain rfl : n = 1 := by
      simp only [List.length_cons, List.length_nil] at h
      omega
    exact ⟨wc, [], rfl⟩
  · rw [Utf8.encode_three h₂ h₁] at h ⊢
    simp only [List.length_cons, List.length_nil] at h
    obtain rfl | rfl : n = 1 ∨ n = 2 := by omega
    · exact ⟨wc / 64, [trail wc], rfl⟩
    · exact ⟨wc, [], rfl⟩
  · rw [Utf8.encode_four h₂] at h ⊢
    simp only [List.length_cons, List.length_nil] at h
    obtain rfl | rfl | rfl : n = 1 ∨ n = 2 ∨ n = 3 := by omega
    · exact ⟨wc / 4096, [trail (wc / 64), trail wc], rfl⟩
    · exact ⟨wc / 64, [trail wc], rfl⟩
    · exact ⟨wc, [], rfl⟩

/-- **Where a cut falls**: between two characters, or inside one. -/
theorem drop_flatMap_encode (ws : List ℕ) {n : ℕ} (h : n ≤ (ws.flatMap encode).length) :
    (∃ ws', ws' <:+ ws ∧ (ws.flatMap encode).drop n = ws'.flatMap encode) ∨
      ∃ x r, (ws.flatMap encode).drop n = trail x :: r := by
  induction ws generalizing n with
  | nil =>
    rw [List.flatMap_nil, List.drop_nil]
    exact .inl ⟨[], List.suffix_refl [], rfl⟩
  | cons wc ws ih =>
    rw [List.flatMap_cons] at h ⊢
    rw [List.length_append] at h
    rw [List.drop_append]
    rcases Nat.lt_or_ge n (encode wc).length with hn | hn
    · rcases Nat.eq_zero_or_pos n with rfl | hpos
      · rw [Nat.zero_sub, List.drop_zero, List.drop_zero]
        exact .inl ⟨wc :: ws, List.suffix_refl _, rfl⟩
      · obtain ⟨x, r, hx⟩ := drop_encode hpos hn
        rw [hx]
        exact .inr ⟨x, _, rfl⟩
    · rw [List.drop_eq_nil_of_le hn, List.nil_append]
      rcases ih (n := n - (encode wc).length) (by omega) with ⟨ws', hsuf, heq⟩ | hmid
      · exact .inl ⟨ws', hsuf.trans (List.suffix_cons wc ws), heq⟩
      · exact .inr hmid

/-- No character begins with a byte that continues one. -/
theorem utf8CharWidth_trail (x : ℕ) (r : Bytes) : utf8CharWidth (trail x :: r) = 0 := by
  rw [trail, utf8CharWidth_ofNat (by omega), if_neg (by omega), if_neg (by omega),
    if_neg (by omega), if_neg (by omega)]

/-- So nothing compares equal to a string that begins inside one. -/
theorem utf8Strncasecmp_trail {x n : ℕ} {r b : Bytes} (hn : 0 < n) :
    ∃ rc, utf8Strncasecmp (trail x :: r) b n = some rc ∧ rc ≠ 0 := by
  rw [utf8Strncasecmp]
  cases b with
  | nil => exact ⟨1, strncasecmpLoop_nil_right hn (List.cons_ne_nil _ _), by decide⟩
  | cons d b =>
    refine ⟨-1, ?_, by decide⟩
    rw [List.length_cons, strncasecmpLoop, if_pos hn, headCasecmp]
    simp only [utf8CharWidth_trail, if_true]
    rfl

/-- As many bytes as code points: every one of them is ASCII. -/
theorem length_flatMap_encode_eq :
    (ws.flatMap encode).length = ws.length ↔ ∀ wc ∈ ws, wc < 0x80 := by
  induction ws with
  | nil => exact iff_of_true rfl (List.forall_mem_nil _)
  | cons wc ws ih =>
    have hpos := List.length_pos_of_ne_nil (Utf8.encode_ne_nil wc)
    have hle := length_le_encode ws
    rw [List.flatMap_cons, List.length_append, List.length_cons, List.forall_mem_cons, ← ih]
    constructor
    · intro h
      exact ⟨Utf8.lt_of_length_encode (by omega), by omega⟩
    · rintro ⟨hwc, h⟩
      rw [Utf8.encode_one hwc, List.length_singleton]
      omega

/-- Bounded by the length of the second string, the comparison finds a
string that is not longer equal only if it is the same throughout, be the
counter wide enough for the bound or not. -/
theorem utf8Strncasecmp_encode (hA : Scalars A) (hB : Scalars B) (hle : A.length ≤ B.length) :
    utf8Strncasecmp (A.flatMap encode) (B.flatMap encode) B.length =
      some (lexSign (folded A) (folded B)) := by
  rw [utf8Strncasecmp]
  rcases Nat.lt_or_ge B.length (2 ^ 32) with hn | hn
  · rw [strncasecmpLoop_narrow hA hB hn (length_le_encode A) (Nat.zero_le _), Nat.sub_zero,
      List.take_of_length_le hle, List.take_length]
  · exact strncasecmpLoop_wide hA hB hn (length_le_encode A) (by decide)

end Cuts

/-! ## What the selectors select -/

section Selectors

variable (key hw : Utf8Text)

/-- The code points of a text are Unicode's. -/
theorem Utf8Text.scalars : Scalars hw.codes := fun _ => hw.codes_range

/-- `utf8_strlen` on texts. -/
theorem utf8Strlen_bytes : utf8Strlen hw.bytes = some hw.codes.length := by
  have hle := length_codes_le hw
  rw [utf8Strlen]
  rw [hw.bytes_eq] at hle ⊢
  exact strlenLoop_encode hw.scalars hle

/-- The last code points of a headword, as many as the key has. -/
def lastCodes : List ℕ := hw.codes.drop (hw.codes.length - key.codes.length)

/-- They are mapped as the key is where the key is a suffix. -/
theorem suffix_iff_folded_lastCodes :
    folded key.codes <:+ folded hw.codes ↔ folded (lastCodes key hw) = folded key.codes := by
  rw [List.suffix_iff_eq_drop, lastCodes]
  simp only [folded, List.length_map, List.map_drop]
  exact eq_comm

/-- An end of the headword of as many bytes as the key has characters
compares equal only if it is the last characters, each a byte. -/
theorem eq_lastCodes {ws : List ℕ} (hsuf : ws <:+ hw.codes)
    (hlen : (ws.flatMap encode).length = key.codes.length)
    (heq : folded ws = folded key.codes) :
    ws = lastCodes key hw ∧ ∀ wc ∈ ws, wc < 0x80 := by
  have hws : ws.length = key.codes.length := by
    have h := congrArg List.length heq
    simpa only [folded, List.length_map] using h
  refine ⟨?_, length_flatMap_encode_eq.1 (hlen.trans hws.symm)⟩
  rw [lastCodes, ← hws]
  exact List.suffix_iff_eq_drop.1 hsuf

/-- The last characters, each a byte, begin as many bytes before the end
as the key has characters. -/
theorem drop_bytes_lastCodes (hle : key.codes.length ≤ hw.codes.length)
    (hone : ∀ wc ∈ lastCodes key hw, wc < 0x80) :
    hw.bytes.drop (hw.bytes.length - key.codes.length) = (lastCodes key hw).flatMap encode := by
  have hsplit : hw.codes.take (hw.codes.length - key.codes.length) ++ lastCodes key hw = hw.codes :=
    List.take_append_drop _ _
  have hlast : (lastCodes key hw).length = key.codes.length := by
    rw [lastCodes, List.length_drop]
    omega
  have hbytes := length_flatMap_encode_eq.2 hone
  rw [hw.bytes_eq, ← hsplit, List.flatMap_append, List.length_append]
  exact List.drop_left' (by omega)

/-- An end that is not those characters compares unequal, wherever it
begins. -/
theorem utf8Strncasecmp_drop_ne_zero (hle : key.codes.length ≤ hw.bytes.length)
    (hnot : ¬ (folded (lastCodes key hw) = folded key.codes ∧
      ∀ wc ∈ lastCodes key hw, wc < 0x80)) :
    ∃ rc, utf8Strncasecmp (hw.bytes.drop (hw.bytes.length - key.codes.length)) key.bytes
        key.codes.length = some rc ∧ rc ≠ 0 := by
  have hlen : (hw.bytes.drop (hw.bytes.length - key.codes.length)).length = key.codes.length := by
    rw [List.length_drop]
    omega
  have hcut := drop_flatMap_encode hw.codes (n := hw.bytes.length - key.codes.length)
    (by rw [hw.bytes_eq]; exact Nat.sub_le _ _)
  rw [← hw.bytes_eq] at hcut
  rcases hcut with ⟨ws, hsuf, hcut⟩ | ⟨x, r, hcut⟩
  · rw [hcut] at hlen
    have hws : Scalars ws := fun wc hwc => hw.codes_range (hsuf.mem hwc)
    refine ⟨lexSign (folded ws) (folded key.codes), ?_, fun hzero => hnot ?_⟩
    · rw [hcut, key.bytes_eq]
      exact utf8Strncasecmp_encode hws key.scalars (hlen ▸ length_le_encode ws)
    · have heq := lexSign_eq_zero.1 hzero
      obtain ⟨rfl, hone⟩ := eq_lastCodes key hw hsuf hlen heq
      exact ⟨heq, hone⟩
  · rw [hcut] at hlen ⊢
    rw [List.length_cons] at hlen
    exact utf8Strncasecmp_trail (by omega)

/-- What the comparison says of the end of the headword that is as many
bytes long as the key has characters. -/
theorem utf8Strncasecmp_drop (hle : key.codes.length ≤ hw.bytes.length) :
    ∃ rc, utf8Strncasecmp (hw.bytes.drop (hw.bytes.length - key.codes.length)) key.bytes
        key.codes.length = some rc ∧
      (rc = 0 ↔ folded key.codes <:+ folded hw.codes ∧ ∀ wc ∈ lastCodes key hw, wc < 0x80) := by
  rw [suffix_iff_folded_lastCodes]
  by_cases hlast : folded (lastCodes key hw) = folded key.codes ∧ ∀ wc ∈ lastCodes key hw, wc < 0x80
  · obtain ⟨heq, hone⟩ := hlast
    have hlen : (lastCodes key hw).length = key.codes.length := by
      have h := congrArg List.length heq
      simpa only [folded, List.length_map] using h
    have hcodes : key.codes.length ≤ hw.codes.length := by
      rw [← hlen, lastCodes, List.length_drop]
      exact Nat.sub_le _ _
    have hscal : Scalars (lastCodes key hw) := fun wc hwc =>
      hw.codes_range (List.mem_of_mem_drop hwc)
    refine ⟨0, ?_, iff_of_true rfl ⟨heq, hone⟩⟩
    rw [drop_bytes_lastCodes key hw hcodes hone, key.bytes_eq,
      utf8Strncasecmp_encode hscal key.scalars hlen.le, heq, lexSign_self]
  · obtain ⟨rc, hrc, hne⟩ := utf8Strncasecmp_drop_ne_zero key hw hle hlast
    exact ⟨rc, hrc, iff_of_false hne hlast⟩

/-- **What `suffix_sel` selects**: the headwords that end with the key in
characters of one byte. -/
theorem selects_suffixSel :
    selects suffixSel key.bytes hw.bytes = some (decide
      (folded key.codes <:+ folded hw.codes ∧ ∀ wc ∈ lastCodes key hw, wc < 0x80)) := by
  simp only [selects, suffixSel, utf8Strlen_bytes, Option.bind_eq_bind, Option.bind_some]
  rcases Nat.lt_or_ge hw.bytes.length key.codes.length with hlt | hle
  · have hcodes := length_codes_le hw
    rw [if_neg (by omega), Option.bind_some, Option.some.injEq, eq_comm, decide_eq_false_iff_not]
    rintro ⟨hsuf, -⟩
    have hlen := hsuf.length_le
    simp only [folded, List.length_map] at hlen
    omega
  · obtain ⟨rc, hrc, hiff⟩ := utf8Strncasecmp_drop key hw hle
    rw [if_pos hle, hrc]
    simp only [Option.bind_some, Bool.beq_eq_decide_eq, hiff]

/-- **The suffix selector at work.** It answers as it should exactly where
the key is not a suffix of the headword, or the characters that are are
all ASCII. -/
theorem suffixSel_iff :
    (selects suffixSel key.bytes hw.bytes = some true ↔
        folded key.codes <:+ folded hw.codes) ↔
      (folded key.codes <:+ folded hw.codes → ∀ wc ∈ lastCodes key hw, wc < 0x80) := by
  rw [selects_suffixSel, Option.some.injEq, decide_eq_true_iff]
  tauto

/-- A word of one character that takes two bytes. -/
def umlaut : Utf8Text where
  chars := ['ä']
  null_notMem := by decide

/-- **The word itself is not among its suffixes**: one byte before the end
of the headword is the middle of its character. -/
theorem not_suffixSel_umlaut :
    ¬ (selects suffixSel umlaut.bytes umlaut.bytes = some true ↔
        folded umlaut.codes <:+ folded umlaut.codes) := by
  decide +kernel

end Selectors

end Dico
