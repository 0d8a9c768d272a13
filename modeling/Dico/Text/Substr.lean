import Dico.Text.Inplace
import Dico.Text.Wide
import Mathlib.Data.List.TakeWhile
/-!
# The substring strategy

`substr_sel` maps the key and each headword to upper case, as arrays of
code points, and looks for the one in the other. The mapping works in
place, and a code point that it maps to zero ends the array where it
stands: those are the multiples of `0x10000`, which are looked up as zero
is. So the search sees each string only up to the first of them
(`selectsWith_substrSel`), and `selectsSubstring_iff` says when that is
enough.
-/

namespace Dico

open Utf8 (encode)

/-- `utf8_wc_strupper`, on an array with what follows its string. -/
def utf8WcStrupper : List ℕ → List ℕ
  | [] => []
  | x :: s => if x = 0 then x :: s else utf8WcToupper x :: utf8WcStrupper s

/-- The string that an array holds. -/
def wcAt (array : List ℕ) : List ℕ := array.takeWhile (· ≠ 0)

/-- `substr_sel`. -/
def substrSel (cmd : SelectCmd) (key : ModuleKey (List ℕ)) (dictWord : Bytes) :
    Option (Bool × ModuleKey (List ℕ)) :=
  match cmd with
  | .begin =>
    match utf8MbstrToWcN key.word with
    | none => some (true, key)
    | some (sample, _) => some (false, { key with callData := some (utf8WcStrupper sample) })
  | .run => do
    let sample ← key.callData
    match utf8MbstrToWcN dictWord with
    | none => some (false, key)
    | some (tmp, _) =>
      some ((utf8WcStrstr (wcAt (utf8WcStrupper tmp)) (wcAt sample)).isSome, key)
  | .done => some (false, { key with callData := none })

/-- What a module's selector answers to `DICO_SELECT_RUN` after
`DICO_SELECT_BEGIN`, if that returned 0. -/
def selectsWith {δ : Type} (sel : SelectCmd → ModuleKey δ → Bytes → Option (Bool × ModuleKey δ))
    (word dictWord : Bytes) : Option Bool := do
  let (failed, key) ← sel .begin ⟨word, none⟩ []
  if failed then none
  else
    let (answer, _) ← sel .run key dictWord
    some answer

example : selectsWith substrSel (ascii "ORD") (ascii "headwords") = some true := by
  decide +kernel

/-! ## Code points mapped to zero -/

/-- **The code points that are mapped to zero.** -/
theorem utf8WcToupper_eq_zero {wc : ℕ} : utf8WcToupper wc = 0 ↔ 0x10000 ∣ wc := by
  by_cases htab : Tabled wc
  · have hmod : utf8WcToupper (wc % 0x10000) = utf8WcToupper wc := lookup_mod htab
    rw [← hmod, Nat.dvd_iff_mod_eq_zero]
    constructor
    · intro h
      by_contra hne
      have hpos : 1 ≤ wc % 0x10000 := by omega
      by_cases hnarrow : Narrowed narrowUpper (wc % 0x10000)
      · rcases hnarrow with hmem | ⟨hsup, -⟩
        · have hall : ∀ x ∈ narrowUpper, utf8WcToupper x ≠ 0 := by decide +kernel
          exact hall _ hmem h
        · omega
      · have := caseMap_toupper.null _ hpos hnarrow
        omega
    · intro h
      rw [h]
      decide +kernel
  · rw [utf8WcToupper_eq htab]
    constructor
    · rintro rfl
      exact Nat.dvd_zero _
    · rintro ⟨k, rfl⟩
      have hzero : (0x10000 * k) >>> 8 &&& 0xff = 0 := by
        rw [second_byte]
        omega
      exact absurd (by rw [Tabled, hzero]; rfl) htab

/-- The code points before the first that is mapped to zero. -/
def beforeZero (ws : List ℕ) : List ℕ := ws.takeWhile fun wc => ¬ 0x10000 ∣ wc

/-- They are mapped to what is before the first zero. -/
theorem folded_beforeZero (ws : List ℕ) : folded (beforeZero ws) = wcAt (folded ws) := by
  rw [wcAt, folded, folded, List.takeWhile_map, beforeZero]
  congr 2
  funext wc
  rw [Function.comp_apply, decide_eq_decide, ← utf8WcToupper_eq_zero]

/-- A string without such code points is all of it before them. -/
theorem beforeZero_eq_self {ws : List ℕ} : beforeZero ws = ws ↔ ∀ wc ∈ ws, ¬ 0x10000 ∣ wc := by
  rw [beforeZero, List.takeWhile_eq_self_iff]
  simp only [decide_eq_true_iff]

/-- The mapping in place, over the zeros behind the string. -/
theorem utf8WcStrupper_append {ws : List ℕ} (h : Codepoints ws) (n : ℕ) :
    utf8WcStrupper (ws ++ List.replicate n 0) = folded ws ++ List.replicate n 0 := by
  induction ws with
  | nil =>
    cases n with
    | zero => rfl
    | succ n => rw [List.replicate_succ, List.nil_append, utf8WcStrupper, if_pos rfl]; rfl
  | cons wc ws ih =>
    obtain ⟨hwc, hws⟩ := codepoints_cons.1 h
    rw [List.cons_append, utf8WcStrupper, if_neg (by omega), ih hws]
    rfl

/-- The string in the array is what is before the first zero. -/
theorem wcAt_append (ws : List ℕ) (n : ℕ) : wcAt (ws ++ List.replicate n 0) = wcAt ws := by
  induction ws with
  | nil =>
    cases n with
    | zero => rfl
    | succ n => rfl
  | cons wc ws ih =>
    rw [wcAt] at ih
    rw [List.cons_append, wcAt, wcAt, List.takeWhile_cons, List.takeWhile_cons, ih]
    rfl

/-! ## What is selected -/

section Selects

variable {key hw : Bytes} {K H : List ℕ}

/-- The array of a string, mapped, as the search reads it. -/
theorem wcAt_upper (h : utf8MbstrToWc key = some K) :
    ∃ array len, utf8MbstrToWcN key = some (array, len) ∧
      wcAt (utf8WcStrupper array) = folded (beforeZero K) := by
  obtain ⟨hK, rfl⟩ := utf8MbstrToWc_iff.1 h
  refine ⟨_, _, utf8MbstrToWcN_encode hK, ?_⟩
  rw [utf8WcStrupper_append hK, wcAt_append, folded_beforeZero]

/-- **What `substr_sel` selects**: the headwords in which the key occurs,
each up to its first code point that is mapped to zero. -/
theorem selectsWith_substrSel (hK : utf8MbstrToWc key = some K) (hH : utf8MbstrToWc hw = some H) :
    ∃ answer, selectsWith substrSel key hw = some answer ∧
      (answer = true ↔ folded (beforeZero K) <:+: folded (beforeZero H)) := by
  obtain ⟨sample, n, hsample, hkey⟩ := wcAt_upper hK
  obtain ⟨tmp, m, htmp, hword⟩ := wcAt_upper hH
  refine ⟨_, ?_, isSome_utf8WcStrstr⟩
  simp only [selectsWith, substrSel, hsample, htmp, hkey, hword, Option.bind_eq_bind,
    Option.bind_some, Bool.false_eq_true, if_false]

/-- What is asked of the strategy at a key and a headword: where both can
be decoded, the headword is accepted exactly if the mapped code points of
the key occur in it one after another. -/
def SelectsSubstring (key hw : Bytes) : Prop :=
  ∀ K H, utf8MbstrToWc key = some K → utf8MbstrToWc hw = some H →
    (selectsWith substrSel key hw = some true ↔ folded K <:+: folded H)

/-- Where nothing is lost before the zeros: the key occurs also before the
first code point of the headword that is mapped to zero, if it occurs at
all; and if the key has such a code point itself, its beginning does not
occur there without the rest. -/
def SeenWhole (K H : List ℕ) : Prop :=
  (folded K <:+: folded H → folded (beforeZero K) <:+: folded (beforeZero H)) ∧
  ((∃ wc ∈ K, 0x10000 ∣ wc) → folded (beforeZero K) <:+: folded (beforeZero H) →
    folded K <:+: folded H)

/-- **Substring search.** `utf8_wc_strstr` returns the first place where
the needle occurs and NULL if there is none, whatever the arrays;
`substr_sel` accepts what it should exactly where a code point mapped to
zero hides nothing. -/
theorem selectsSubstring_iff (haystack needle : List ℕ) (key hw : Bytes) :
    (∀ i, utf8WcStrstr haystack needle = some i ↔
      OccursAt needle haystack i ∧ ∀ j < i, ¬ OccursAt needle haystack j) ∧
    (utf8WcStrstr haystack needle = none ↔ ¬ needle <:+: haystack) ∧
    (SelectsSubstring key hw ↔
      ∀ K H, utf8MbstrToWc key = some K → utf8MbstrToWc hw = some H → SeenWhole K H) := by
  refine ⟨fun _ => utf8WcStrstr_eq_some, utf8WcStrstr_eq_none, ?_⟩
  refine forall₂_congr fun K H => forall₂_congr fun hK hH => ?_
  obtain ⟨answer, hanswer, hiff⟩ := selectsWith_substrSel hK hH
  rw [hanswer, Option.some.injEq, hiff, SeenWhole]
  constructor
  · intro h
    exact ⟨h.2, fun _ => h.1⟩
  · rintro ⟨hfound, hpart⟩
    refine ⟨fun hin => ?_, hfound⟩
    by_cases hzero : ∃ wc ∈ K, 0x10000 ∣ wc
    · exact hpart hzero hin
    · -- a key without such code points is looked for as it is
      push Not at hzero
      rw [beforeZero_eq_self.2 hzero] at hin
      exact hin.trans ((List.takeWhile_prefix _).isInfix.map utf8WcToupper)

end Selects

/-- A key that is cut off before its second character. -/
def cutKey : Bytes := [0x61, 0xf0, 0x90, 0x80, 0x80, 0x62]

/-- **A headword that has only the beginning of the key.** The key is the
letter a, the code point `0x10000` and the letter b; the headword a is
accepted. -/
theorem not_selectsSubstring_cut :
    utf8MbstrToWc cutKey = some [0x61, 0x10000, 0x62] ∧
    selectsWith substrSel cutKey [0x61] = some true ∧ ¬ SelectsSubstring cutKey [0x61] := by
  have hkey : utf8MbstrToWc cutKey = some [0x61, 0x10000, 0x62] := by decide +kernel
  have hsel : selectsWith substrSel cutKey [0x61] = some true := by decide +kernel
  refine ⟨hkey, hsel, fun h => ?_⟩
  have hin := (h _ [0x61] hkey (by decide +kernel)).1 hsel
  exact absurd hin.length_le (by decide +kernel)

end Dico
