import Dico.Text.Cstr
import Dico.Text.Select
import Mathlib.Data.List.Destutter
/-!
# Soundex

`dico_soundex` looks every byte behind the first up in a table of the
letters, under the upper-casing of the locale, until three digits of the
code are there. It asks neither whether the byte is a letter nor whether
there is a first one, so it is safe on some strings only (`soundex_iff`).
-/

namespace Dico

/-! ## The model -/

/-- `DICO_SOUNDEX_SIZE`. -/
def dicoSoundexSize : ℕ := 5

/-- `soundextbl`. -/
def soundextbl : List ℕ :=
  [0, 1, 2, 3, 0, 1, 2, 0, 0, 2, 2, 4, 5, 5, 0, 1, 2, 6, 2, 3, 0, 1, 0, 2, 0, 2]

/-- `soundex_code`, with the `toupper` of the locale. -/
def soundexCode (toupper : UInt8 → ℤ) (c : UInt8) : Except Fault ℕ :=
  if 0 ≤ toupper c - 65 ∧ toupper c - 65 < soundextbl.length then
    .ok (soundextbl.getD (toupper c - 65).toNat 0)
  else .error .bounds

/-- The first loop of `dico_soundex`, with what was written of the code, on
what is left of the block. -/
def soundexLoop (toupper : UInt8 → ℤ) (prev : ℕ) (codestr : Bytes) : Bytes → Except Fault Bytes
  | [] => if codestr.length < dicoSoundexSize - 1 then .error .bounds else .ok codestr
  | c :: s =>
    if codestr.length < dicoSoundexSize - 1 ∧ c ≠ 0 then do
      let n ← soundexCode toupper c
      if n ≠ 0 ∧ n ≠ prev then soundexLoop toupper n (codestr ++ [UInt8.ofNat (n + 48)]) s
      else soundexLoop toupper prev codestr s
    else .ok codestr

/-- `dico_soundex`, on the block of the string: what it writes. -/
def dicoSoundex (toupper : UInt8 → ℤ) (s : Bytes) : Except Fault Bytes := do
  let c ← load s 0
  let codestr ← soundexLoop toupper 0 [UInt8.ofInt (toupper c)] (s.drop 1)
  .ok (codestr ++ List.replicate (dicoSoundexSize - 1 - codestr.length) 48 ++ [0])

/-- `soundex_sel`, with the code of the key in `call_data`. -/
def soundexSel (toupper : UInt8 → ℤ) (cmd : SelectCmd) (key : ModuleKey Bytes)
    (dictWord : Bytes) : Except Fault (Bool × ModuleKey Bytes) :=
  match cmd with
  | .begin => do
    let code ← dicoSoundex toupper (key.word ++ [0])
    .ok (false, { key with callData := some code })
  | .run => do
    let dcode ← dicoSoundex toupper (dictWord ++ [0])
    match key.callData with
    | none => .error .dangling
    | some code => .ok (dcode.takeWhile (· ≠ 0) == code.takeWhile (· ≠ 0), key)
  | .done => .ok (false, { key with callData := none })

/-- `toupper` of the C locale, for a signed `char`. -/
def cLocaleToupper (c : UInt8) : ℤ :=
  if 97 ≤ c ∧ c ≤ 122 then c.toNat - 32 else if c < 128 then c.toNat else c.toNat - 256

example : dicoSoundex cLocaleToupper (ascii "Robert" ++ [0]) = .ok (ascii "R163" ++ [0]) := by
  decide

/-! ## Letters -/

section Letters

variable {toupper : UInt8 → ℤ} {c : UInt8} {s : Bytes} {prev : ℕ} {codestr : Bytes}

/-- The upper case of the byte is in the table. -/
def IsLetter (toupper : UInt8 → ℤ) (c : UInt8) : Prop := 65 ≤ toupper c ∧ toupper c ≤ 90

instance (toupper : UInt8 → ℤ) : DecidablePred (IsLetter toupper) := fun c =>
  inferInstanceAs (Decidable (65 ≤ toupper c ∧ _))

/-- The code of a letter. -/
def letterCode (toupper : UInt8 → ℤ) (c : UInt8) : ℕ :=
  soundextbl.getD (toupper c - 65).toNat 0

/-- The codes of some letters that count. -/
def letterCodes (toupper : UInt8 → ℤ) (s : Bytes) : List ℕ :=
  (s.map (letterCode toupper)).filter (· ≠ 0)

/-- The digits they make: one for equal codes that follow each other. -/
def soundexDigits (toupper : UInt8 → ℤ) (s : Bytes) : List ℕ :=
  (letterCodes toupper s).destutter (· ≠ ·)

/-- There is a first byte, and what stands behind it are letters until
three digits are there. -/
def Codable (toupper : UInt8 → ℤ) (s : Bytes) : Prop :=
  s ≠ [] ∧ ∀ u c v, s.tail = u ++ c :: v → (soundexDigits toupper u).length < 3 →
    IsLetter toupper c

/-- The table is read where the byte is a letter. -/
theorem soundexCode_eq (toupper : UInt8 → ℤ) (c : UInt8) :
    soundexCode toupper c =
      if IsLetter toupper c then .ok (letterCode toupper c) else .error .bounds := by
  have hlen : (soundextbl.length : ℤ) = 26 := rfl
  have hiff : (0 ≤ toupper c - 65 ∧ toupper c - 65 < soundextbl.length) ↔ IsLetter toupper c := by
    rw [hlen, IsLetter]
    omega
  rw [soundexCode, letterCode]
  exact if_congr hiff rfl rfl

/-- One letter more. -/
theorem letterCodes_cons : letterCodes toupper (c :: s) =
    if letterCode toupper c ≠ 0 then letterCode toupper c :: letterCodes toupper s
    else letterCodes toupper s := by
  rw [letterCodes, List.map_cons, List.filter_cons]
  simp only [decide_eq_true_eq]
  rfl

/-- So many bytes of the code there are when the letters have been read. -/
def codeLength (toupper : UInt8 → ℤ) (prev : ℕ) (s : Bytes) : ℕ :=
  ((letterCodes toupper s).destutter' (· ≠ ·) prev).length

/-- Nothing was read. -/
theorem codeLength_nil : codeLength toupper prev [] = 1 := rfl

/-- The first byte is there. -/
theorem codeLength_pos (s : Bytes) : 1 ≤ codeLength toupper prev s := by
  rw [codeLength]
  exact List.length_pos_of_ne_nil (List.destutter'_ne_nil _ _)

/-- A letter whose digit is new, and any other. -/
theorem codeLength_cons : codeLength toupper prev (c :: s) =
    if letterCode toupper c ≠ 0 ∧ letterCode toupper c ≠ prev then
      codeLength toupper (letterCode toupper c) s + 1
    else codeLength toupper prev s := by
  rw [codeLength, letterCodes_cons]
  by_cases h₀ : letterCode toupper c = 0
  · rw [if_neg (not_not.2 h₀), if_neg fun h => h.1 h₀, codeLength]
  rw [if_pos h₀]
  by_cases hprev : letterCode toupper c = prev
  · rw [if_neg fun h => h.2 hprev, hprev, List.destutter'_cons_neg _ (not_not.2 rfl),
      codeLength]
  · rw [if_pos ⟨h₀, hprev⟩, List.destutter'_cons_pos _ (Ne.symm hprev), List.length_cons,
      codeLength]

/-- Before the first letter there is no digit. -/
theorem codeLength_zero (s : Bytes) :
    codeLength toupper 0 s = (soundexDigits toupper s).length + 1 := by
  have hne : ∀ n ∈ letterCodes toupper s, n ≠ 0 := fun n hn =>
    of_decide_eq_true (List.mem_filter.1 hn).2
  rw [codeLength, soundexDigits]
  cases hcodes : letterCodes toupper s with
  | nil => rfl
  | cons n l =>
    rw [hcodes] at hne
    rw [List.destutter'_cons_pos _ (hne n List.mem_cons_self).symm, List.length_cons]
    rfl

/-! ## The loop -/

/-- It leaves room for the terminator. -/
theorem soundexLoop_length {r : Bytes} (h : soundexLoop toupper prev codestr s = .ok r)
    (hlen : codestr.length ≤ dicoSoundexSize - 1) : r.length ≤ dicoSoundexSize - 1 := by
  induction s generalizing prev codestr with
  | nil =>
    rw [soundexLoop] at h
    split_ifs at h
    rwa [← Except.ok.inj h]
  | cons c s ih =>
    rw [soundexLoop] at h
    by_cases hfull : codestr.length < dicoSoundexSize - 1 ∧ c ≠ 0
    · rw [if_pos hfull] at h
      obtain ⟨n, -, h⟩ := bind_eq_ok.1 h
      split_ifs at h
      · refine ih h ?_
        rw [List.length_append, List.length_singleton]
        omega
      · exact ih h hlen
    · rw [if_neg hfull] at h
      rwa [← Except.ok.inj h]

/-- **The loop is safe** if every byte that it comes to is a letter. -/
theorem soundexLoop_iff (h₀ : 0 ∉ s) :
    (∃ r, soundexLoop toupper prev codestr (s ++ [0]) = .ok r) ↔
      ∀ u c v, s = u ++ c :: v → codestr.length + codeLength toupper prev u < dicoSoundexSize →
        IsLetter toupper c := by
  induction s generalizing prev codestr with
  | nil =>
    refine iff_of_true ⟨codestr, ?_⟩ fun u c v h => ?_
    · rw [List.nil_append, soundexLoop, if_neg fun h => h.2 rfl]
    · exact absurd h (List.append_ne_nil_of_right_ne_nil u (List.cons_ne_nil c v)).symm
  | cons c s ih =>
    rw [List.mem_cons, not_or] at h₀
    rw [List.cons_append, soundexLoop,
      forall_split_cons (P := fun u c => codestr.length + codeLength toupper prev u <
        dicoSoundexSize → IsLetter toupper c)]
    by_cases hfull : codestr.length < dicoSoundexSize - 1
    · have hroom : codestr.length + codeLength toupper prev [] < dicoSoundexSize := by
        rw [codeLength_nil]
        omega
      rw [if_pos ⟨hfull, fun hc => h₀.1 hc.symm⟩, soundexCode_eq, imp_iff_right hroom]
      by_cases hc : IsLetter toupper c
      · rw [if_pos hc, ok_bind, and_iff_right hc]
        simp only [codeLength_cons]
        by_cases hnew : letterCode toupper c ≠ 0 ∧ letterCode toupper c ≠ prev
        · rw [if_pos hnew, ih h₀.2]
          simp only [if_pos hnew, List.length_append, List.length_singleton, Nat.add_assoc,
            Nat.add_comm 1]
        · rw [if_neg hnew, ih h₀.2]
          simp only [if_neg hnew]
      · rw [if_neg hc, error_bind]
        exact iff_of_false (fun ⟨r, h⟩ => by cases h) fun h => hc h.1
    · -- the code is full, and nothing more is read
      have hfilled : ∀ u, ¬ codestr.length + codeLength toupper prev u < dicoSoundexSize := by
        intro u
        have hpos : 1 ≤ codeLength toupper prev u := codeLength_pos u
        omega
      rw [if_neg fun h => hfull h.1]
      exact iff_of_true ⟨codestr, rfl⟩ ⟨fun h => absurd h (hfilled []),
        fun u c v _ h => absurd h (hfilled (_ :: u))⟩

/-- A code is written, with its terminator, and nothing but the string and
the table is read. -/
def SoundexSafe (toupper : UInt8 → ℤ) (s : Bytes) : Prop :=
  ∃ code, dicoSoundex toupper (s ++ [0]) = .ok code ∧ code.length = dicoSoundexSize ∧
    code.getLast? = some 0

/-- Whatever is written has the length of a code. -/
theorem soundexSafe_iff_ok (s : Bytes) :
    SoundexSafe toupper s ↔ ∃ code, dicoSoundex toupper (s ++ [0]) = .ok code := by
  refine ⟨fun ⟨code, h, _⟩ => ⟨code, h⟩, fun ⟨code, h⟩ => ⟨code, h, ?_⟩⟩
  obtain ⟨c, -, h⟩ := bind_eq_ok.1 h
  obtain ⟨codestr, hcodestr, h⟩ := bind_eq_ok.1 h
  have hlen := soundexLoop_length hcodestr (show 1 ≤ dicoSoundexSize - 1 by decide)
  rw [← Except.ok.inj h, List.length_append, List.length_append, List.length_replicate,
    List.length_singleton]
  rw [dicoSoundexSize] at hlen ⊢
  exact ⟨by omega, List.getLast?_concat⟩

/-- **The strings that have a code.** -/
theorem soundexSafe_iff_codable (h₀ : 0 ∉ s) : SoundexSafe toupper s ↔ Codable toupper s := by
  rw [soundexSafe_iff_ok]
  cases s with
  | nil =>
    refine iff_of_false ?_ fun h => h.1 rfl
    rintro ⟨code, h⟩
    cases h
  | cons c s =>
    rw [List.mem_cons, not_or] at h₀
    have hloop := @soundexLoop_iff toupper s 0 [UInt8.ofInt (toupper c)] h₀.2
    have hroom : ∀ u, [UInt8.ofInt (toupper c)].length + codeLength toupper 0 u < dicoSoundexSize ↔
        (soundexDigits toupper u).length < 3 := by
      intro u
      rw [codeLength_zero, List.length_singleton, dicoSoundexSize]
      omega
    simp only [hroom] at hloop
    have hload : load (c :: s ++ [0]) 0 = .ok c := rfl
    rw [Codable, and_iff_right (List.cons_ne_nil c s), List.tail_cons, ← hloop, dicoSoundex,
      hload, ok_bind, List.cons_append, List.drop_one, List.tail_cons]
    constructor
    · rintro ⟨code, h⟩
      obtain ⟨codestr, hcodestr, -⟩ := bind_eq_ok.1 h
      exact ⟨codestr, hcodestr⟩
    · rintro ⟨codestr, hcodestr⟩
      exact ⟨_, by rw [hcodestr, ok_bind]⟩

/-- The selector is called for a key and a headword. -/
def SoundexSelects (toupper : UInt8 → ℤ) (key dictWord : Bytes) : Prop :=
  ∃ a k b k', soundexSel toupper .begin ⟨key, none⟩ [] = .ok (a, k) ∧
    soundexSel toupper .run k dictWord = .ok (b, k')

/-- It takes a code of each. -/
theorem soundexSelects_iff_safe (key dictWord : Bytes) :
    SoundexSelects toupper key dictWord ↔
      SoundexSafe toupper key ∧ SoundexSafe toupper dictWord := by
  rw [soundexSafe_iff_ok, soundexSafe_iff_ok]
  constructor
  · rintro ⟨a, k, b, k', hbegin, hrun⟩
    obtain ⟨code, hcode, -⟩ := bind_eq_ok.1 hbegin
    obtain ⟨dcode, hdcode, -⟩ := bind_eq_ok.1 hrun
    exact ⟨⟨code, hcode⟩, ⟨dcode, hdcode⟩⟩
  · rintro ⟨⟨code, hcode⟩, dcode, hdcode⟩
    refine ⟨false, ⟨key, some code⟩, dcode.takeWhile (· ≠ 0) == code.takeWhile (· ≠ 0),
      ⟨key, some code⟩, ?_, ?_⟩
    · rw [soundexSel, hcode]
      rfl
    · rw [soundexSel, hdcode]
      rfl

/-- **`dico_soundex` is safe** on the strings that are not empty and whose
bytes behind the first are letters, until there are three digits; and the
selector for two of them. -/
theorem soundex_iff (toupper : UInt8 → ℤ) (s word : CText) :
    (SoundexSafe toupper s.bytes ↔ Codable toupper s.bytes) ∧
      (SoundexSelects toupper s.bytes word.bytes ↔
        Codable toupper s.bytes ∧ Codable toupper word.bytes) := by
  rw [soundexSelects_iff_safe, soundexSafe_iff_codable s.null_notMem,
    soundexSafe_iff_codable word.null_notMem]
  exact ⟨Iff.rfl, Iff.rfl⟩

/-- A digit behind a letter has no place in the table. -/
theorem not_soundexSafe_digit :
    dicoSoundex cLocaleToupper (ascii "A4" ++ [0]) = .error .bounds ∧
      ¬ SoundexSafe cLocaleToupper (ascii "A4") ∧ ¬ SoundexSafe cLocaleToupper [] := by
  have hdigit : dicoSoundex cLocaleToupper (ascii "A4" ++ [0]) = .error .bounds := by decide
  refine ⟨hdigit, ?_, ?_⟩
  · rintro ⟨code, h, -⟩
    rw [hdigit] at h
    cases h
  · rintro ⟨code, h, -⟩
    cases h

end Letters

end Dico
