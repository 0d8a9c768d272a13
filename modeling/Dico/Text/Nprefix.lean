import Dico.Text.Number
import Dico.Text.Select
/-!
# The limited prefix strategy

`MATCH <dict> nprefix <skip>#<count>#<string>`: `nprefix_sel` counts the
headwords that begin with the string, each but once, and accepts `count`
of them behind the first `skip`. The number of the current match and the
sum of the limits are kept in a `size_t`.

`limited_iff` and `unlimited_iff` say for which keys the headwords accepted
are `take count (drop skip kept)`, whatever the headwords are. It takes a
string of fewer than `2 ^ 32` characters, the limit of `utf8_strncasecmp`,
and room in the counter for one match more than the limits allow.
-/

namespace Dico

/-! ## The selector -/

/-- `struct nprefix`. -/
structure Nprefix where
  /-- What the headwords are to begin with. -/
  pfx : Bytes
  /-- Its length in characters. -/
  pfxlen : ℕ
  /-- Whether the limits are used. -/
  lim : Bool
  /-- So many matches are skipped. -/
  skip : ℕ
  /-- And at most so many are shown. -/
  count : ℕ
  /-- The number of the current match. -/
  n : ℕ
  /-- The last string that matched. -/
  lastMatchStr : Option Bytes
  /-- The size of its block. -/
  lastMatchLen : ℕ

/-- The key split at its number signs, with no limits where there are not
two numbers. -/
def nprefixBegin (keyWord : Bytes) : Nprefix :=
  let np : Nprefix := ⟨keyWord, 0, false, 0, 0, 0, none, 0⟩
  let (skip, p) := strtoul10 keyWord
  if p.head? = some 35 then
    let (count, p) := strtoul10 (p.drop 1)
    if p.head? = some 35 then { np with pfx := p.drop 1, skip := skip, count := count, lim := true }
    else np
  else np

/-- A match at the headword: it is stored, and counted if there are limits. -/
def nprefixMatch (np : Nprefix) (dictWord : Bytes) : Bool × Nprefix :=
  let np := { np with
    lastMatchStr := some dictWord
    lastMatchLen := max np.lastMatchLen (dictWord.length + 1) }
  if np.lim then
    let n := (np.n + 1) % 2 ^ 64
    (decide (n > np.skip ∧ n ≤ (np.skip + np.count) % 2 ^ 64), { np with n := n })
  else (true, np)

/-- Whether the headword is the last match again. -/
def isLastMatch (np : Nprefix) (dictWord : Bytes) : Option Bool :=
  match np.lastMatchStr with
  | none => some false
  | some last => (utf8Strcasecmp dictWord last).map (· == 0)

/-- The answer to `DICO_SELECT_RUN`. -/
def nprefixRun (np : Nprefix) (dictWord : Bytes) : Option (Bool × Nprefix) := do
  let again ← isLastMatch np dictWord
  if again then some (false, np)
  else if np.lim ∧ np.n > (np.skip + np.count) % 2 ^ 64 then some (false, np)
  else
    let wordlen ← utf8Strlen dictWord
    if wordlen ≥ np.pfxlen then
      let rc ← utf8Strncasecmp dictWord np.pfx np.pfxlen
      if rc = 0 then some (nprefixMatch np dictWord) else some (false, np)
    else some (false, np)

/-- `nprefix_sel`. -/
def nprefixSel (cmd : SelectCmd) (key : ModuleKey Nprefix) (dictWord : Bytes) :
    Option (Bool × ModuleKey Nprefix) :=
  match cmd with
  | .begin => do
    let np := nprefixBegin key.word
    let pfxlen ← utf8Strlen np.pfx
    some (false, { key with callData := some { np with pfxlen := pfxlen } })
  | .run => do
    let np ← key.callData
    let (answer, np) ← nprefixRun np dictWord
    some (answer, { key with callData := some np })
  | .done => some (false, { key with callData := none })

/-- The headwords that a selector accepts, presented to it one after
another, and the key it ends with. -/
def acceptLoop {δ : Type} (sel : SelectCmd → ModuleKey δ → Bytes → Option (Bool × ModuleKey δ)) :
    ModuleKey δ → List Bytes → Option (List Bytes × ModuleKey δ)
  | key, [] => some ([], key)
  | key, w :: ws => do
    let (answer, key) ← sel .run key w
    let (rest, key) ← acceptLoop sel key ws
    some (if answer then w :: rest else rest, key)

/-- The same from `DICO_SELECT_BEGIN` on. -/
def accepts {δ : Type} (sel : SelectCmd → ModuleKey δ → Bytes → Option (Bool × ModuleKey δ))
    (word : Bytes) (ws : List Bytes) : Option (List Bytes) := do
  let (failed, key) ← sel .begin ⟨word, none⟩ []
  if failed then none else (acceptLoop sel key ws).map Prod.fst

example : accepts nprefixSel (ascii "1#2#ab") [ascii "ab", ascii "AB", ascii "b", ascii "abc",
    ascii "abd", ascii "abe"] = some [ascii "abc", ascii "abd"] := by decide +kernel

/-! ## What is meant -/

/-- A headword begins with a string, whatever the case. -/
def startsWith (p w : Utf8Text) : Prop := folded p.codes <+: folded w.codes

instance (p w : Utf8Text) : Decidable (startsWith p w) :=
  inferInstanceAs (Decidable (_ <+: _))

/-- The same words but for their case. -/
def sameWord (v w : Utf8Text) : Prop := folded v.codes = folded w.codes

instance (v w : Utf8Text) : Decidable (sameWord v w) := inferInstanceAs (Decidable (_ = _))

/-- Words without those that are the same as the last one kept. -/
def dropRepeats : Option Utf8Text → List Utf8Text → List Utf8Text
  | _, [] => []
  | last, w :: ws =>
    if ∃ v ∈ last, sameWord v w then dropRepeats last ws else w :: dropRepeats (some w) ws

/-- The headwords that begin with a string, each but once. -/
def kept (p : Utf8Text) (ws : List Utf8Text) : List Utf8Text :=
  dropRepeats none (ws.filter fun w => startsWith p w)

/-- A key `S#C#P`. -/
def limitedKey (S C : Decimal) (p : Utf8Text) : Bytes :=
  S.digits ++ 35 :: (C.digits ++ 35 :: p.bytes)

/-- What is asked of the strategy with a key `S#C#P`: whatever the
headwords, it accepts `C` of those kept behind the first `S`. -/
def Limited (S C : Decimal) (p : Utf8Text) : Prop :=
  ∀ ws : List Utf8Text, accepts nprefixSel (limitedKey S C p) (ws.map Utf8Text.bytes) =
    some ((((kept p ws).drop S.value).take C.value).map Utf8Text.bytes)

/-- What is asked of it with a key without a number sign: it accepts all
that are kept. -/
def Unlimited (p : Utf8Text) : Prop :=
  ∀ ws : List Utf8Text, accepts nprefixSel p.bytes (ws.map Utf8Text.bytes) =
    some ((kept p ws).map Utf8Text.bytes)

/-! ## One headword -/

section Step

variable {p w : Utf8Text} {last : Option Utf8Text} {lim : Bool} {skip count n len : ℕ}

/-- What the comparison finds: a headword that begins with the string, but
from `2 ^ 32` characters on only the string itself. -/
def found (p w : Utf8Text) : Prop :=
  if p.codes.length < 2 ^ 32 then startsWith p w else sameWord p w

instance (p w : Utf8Text) : Decidable (found p w) := inferInstanceAs (Decidable (ite _ _ _))

/-- A headword that is found is at least as long as the string. -/
theorem length_le_of_found (h : found p w) : p.codes.length ≤ w.codes.length := by
  have hlen : (folded p.codes).length ≤ (folded w.codes).length := by
    unfold found at h
    split_ifs at h
    · exact h.length_le
    · exact (congrArg List.length h).le
  simpa only [folded, List.length_map] using hlen

/-- **The comparison of a headword with the string**, in as many
characters as the string has. -/
theorem utf8Strncasecmp_found (p w : Utf8Text) :
    ∃ rc, utf8Strncasecmp w.bytes p.bytes p.codes.length = some rc ∧ (rc = 0 ↔ found p w) := by
  rw [utf8Strncasecmp_bytes, found]
  split_ifs with hn
  · refine ⟨_, rfl, ?_⟩
    rw [lexSign_eq_zero, List.take_length, startsWith, List.prefix_iff_eq_take, eq_comm]
    simp only [folded, List.length_map, List.map_take]
  · refine ⟨_, rfl, ?_⟩
    rw [lexSign_eq_zero, sameWord, eq_comm]

/-- The data of the selector, with the last headword kept. -/
def npAt (p : Utf8Text) (lim : Bool) (skip count n : ℕ) (last : Option Utf8Text) (len : ℕ) :
    Nprefix :=
  ⟨p.bytes, p.codes.length, lim, skip, count, n, last.map Utf8Text.bytes, len⟩

/-- A headword that makes no difference to the selector: it is the last one
again, the limits are passed, or it does not begin with the string. -/
def Passed (p : Utf8Text) (lim : Bool) (skip count n : ℕ) (last : Option Utf8Text)
    (w : Utf8Text) : Prop :=
  (∃ v ∈ last, sameWord v w) ∨ (lim ∧ n > (skip + count) % 2 ^ 64) ∨ ¬ found p w

/-- Whether the headword is the last one kept. -/
theorem isLastMatch_eq :
    isLastMatch (npAt p lim skip count n last len) w.bytes =
      some (decide (∃ v ∈ last, sameWord v w)) := by
  cases last with
  | none => rfl
  | some v =>
    have hsame : (lexSign (folded w.codes) (folded v.codes) == 0) = decide (sameWord v w) := by
      rw [Bool.beq_eq_decide_eq, decide_eq_decide, lexSign_eq_zero, sameWord, eq_comm]
    simp only [isLastMatch, npAt, Option.map_some, utf8Strcasecmp_bytes, hsame, Option.mem_def,
      Option.some.injEq, exists_eq_left']

/-- A headword that is passed over. -/
theorem nprefixRun_passed (h : Passed p lim skip count n last w) :
    nprefixRun (npAt p lim skip count n last len) w.bytes =
      some (false, npAt p lim skip count n last len) := by
  rw [nprefixRun, isLastMatch_eq, Option.bind_eq_bind, Option.bind_some, npAt]
  dsimp only
  by_cases hagain : ∃ v ∈ last, sameWord v w
  · rw [if_pos (decide_eq_true hagain)]
  · rw [if_neg (by rwa [decide_eq_true_iff])]
    by_cases hlim : lim ∧ n > (skip + count) % 2 ^ 64
    · rw [if_pos hlim]
    · rw [if_neg hlim, utf8Strlen_bytes, Option.bind_eq_bind, Option.bind_some]
      have hfound := (h.resolve_left hagain).resolve_left hlim
      split_ifs with hle
      · obtain ⟨rc, hrc, hiff⟩ := utf8Strncasecmp_found p w
        rw [hrc, Option.bind_eq_bind, Option.bind_some, if_neg (mt hiff.1 hfound)]
      · rfl

/-- A headword that is kept. -/
theorem nprefixRun_match (h : ¬ Passed p lim skip count n last w) :
    nprefixRun (npAt p lim skip count n last len) w.bytes =
      some (nprefixMatch (npAt p lim skip count n last len) w.bytes) := by
  simp only [Passed, not_or, not_not] at h
  obtain ⟨hagain, hlim, hfound⟩ := h
  have hle := length_le_of_found hfound
  obtain ⟨rc, hrc, hiff⟩ := utf8Strncasecmp_found p w
  rw [nprefixRun, isLastMatch_eq, Option.bind_eq_bind, Option.bind_some,
    if_neg (by rwa [decide_eq_true_iff]), npAt]
  dsimp only
  rw [if_neg hlim, utf8Strlen_bytes, Option.bind_eq_bind, Option.bind_some, if_pos hle, hrc,
    Option.bind_eq_bind, Option.bind_some, if_pos (hiff.2 hfound)]

/-- A match is counted, where there are limits. -/
theorem nprefixMatch_limited :
    nprefixMatch (npAt p true skip count n last len) w.bytes =
      (decide (skip < (n + 1) % 2 ^ 64 ∧ (n + 1) % 2 ^ 64 ≤ (skip + count) % 2 ^ 64),
        npAt p true skip count ((n + 1) % 2 ^ 64) (some w) (max len (w.bytes.length + 1))) := rfl

end Step

/-! ## A run over the headwords -/

section Run

variable {p : Utf8Text} {last : Option Utf8Text} {skip count n len : ℕ} {lim : Bool}
  {word : Bytes} {ws : List Utf8Text}

/-- The headwords that the comparison finds, each but once. -/
def keptBy (p : Utf8Text) (last : Option Utf8Text) (ws : List Utf8Text) : List Utf8Text :=
  dropRepeats last (ws.filter fun w => found p w)

/-- The key between two headwords. -/
def keyAt (word : Bytes) (np : Nprefix) : ModuleKey Nprefix := ⟨word, some np⟩

/-- The run, one headword at a time. -/
theorem acceptLoop_step {w : Utf8Text} {bs rest : List Bytes} {np np' : Nprefix} {answer : Bool}
    {key : ModuleKey Nprefix} (hrun : nprefixRun np w.bytes = some (answer, np'))
    (hrest : acceptLoop nprefixSel (keyAt word np') bs = some (rest, key)) :
    acceptLoop nprefixSel (keyAt word np) (w.bytes :: bs) =
      some (if answer then w.bytes :: rest else rest, key) := by
  rw [keyAt] at hrest ⊢
  simp only [acceptLoop, nprefixSel, hrun, Option.bind_eq_bind, Option.bind_some, hrest]

/-- No headwords, nothing done. -/
theorem acceptLoop_nil (key : ModuleKey Nprefix) :
    acceptLoop nprefixSel key [] = some ([], key) := rfl

/-- A headword that is passed over leaves the run as it is. -/
theorem acceptLoop_passed {w : Utf8Text} {bs rest : List Bytes} {key : ModuleKey Nprefix}
    (h : Passed p lim skip count n last w)
    (hrest : acceptLoop nprefixSel (keyAt word (npAt p lim skip count n last len)) bs =
      some (rest, key)) :
    acceptLoop nprefixSel (keyAt word (npAt p lim skip count n last len)) (w.bytes :: bs) =
      some (rest, key) := by
  rw [acceptLoop_step (nprefixRun_passed h) hrest]
  rfl

/-- The last headword again is not kept again. -/
theorem keptBy_again {w : Utf8Text} (h : ∃ v ∈ last, sameWord v w) :
    keptBy p last (w :: ws) = keptBy p last ws := by
  rw [keptBy, keptBy, List.filter_cons]
  split_ifs
  · rw [dropRepeats, if_pos h]
  · rfl

/-- Nor one that is not found. -/
theorem keptBy_not_found {w : Utf8Text} (h : ¬ found p w) :
    keptBy p last (w :: ws) = keptBy p last ws := by
  rw [keptBy, keptBy, List.filter_cons, if_neg (by rwa [decide_eq_true_iff])]

/-- Any other is. -/
theorem keptBy_cons {w : Utf8Text} (hagain : ¬ ∃ v ∈ last, sameWord v w) (hfound : found p w) :
    keptBy p last (w :: ws) = w :: keptBy p (some w) ws := by
  rw [keptBy, keptBy, List.filter_cons, if_pos (decide_eq_true hfound), dropRepeats, if_neg hagain]

/-- **Without limits all that are kept are accepted.** -/
theorem acceptLoop_unlimited :
    ∃ key, acceptLoop nprefixSel (keyAt word (npAt p false skip count n last len))
      (ws.map Utf8Text.bytes) = some ((keptBy p last ws).map Utf8Text.bytes, key) := by
  induction ws generalizing last len with
  | nil => exact ⟨_, rfl⟩
  | cons w ws ih =>
    rw [List.map_cons]
    by_cases hagain : ∃ v ∈ last, sameWord v w
    · obtain ⟨key, hkey⟩ := @ih last len
      rw [keptBy_again hagain]
      exact ⟨key, acceptLoop_passed (.inl hagain) hkey⟩
    by_cases hfound : found p w
    · have hmatch : ¬ Passed p false skip count n last w := by
        rintro (h | ⟨h, -⟩ | h)
        · exact hagain h
        · cases h
        · exact h hfound
      obtain ⟨key, hkey⟩ := @ih (some w) (max len (w.bytes.length + 1))
      rw [keptBy_cons hagain hfound]
      exact ⟨key, acceptLoop_step (nprefixRun_match hmatch) hkey⟩
    · obtain ⟨key, hkey⟩ := @ih last len
      rw [keptBy_not_found hfound]
      exact ⟨key, acceptLoop_passed (.inr (.inr hfound)) hkey⟩

/-- The matches that are still to be shown when `n` have been counted. -/
def shown (skip count n : ℕ) (l : List Utf8Text) : List Utf8Text :=
  (l.drop (skip - n)).take (skip + count - max n skip)

/-- One match counted. -/
theorem shown_cons (skip count n : ℕ) (w : Utf8Text) (l : List Utf8Text) :
    shown skip count n (w :: l) =
      if skip < n + 1 ∧ n + 1 ≤ skip + count then w :: shown skip count (n + 1) l
      else shown skip count (n + 1) l := by
  unfold shown
  rcases Nat.lt_or_ge n skip with hlt | hge
  · rw [if_neg (by omega), max_eq_right hlt.le, max_eq_right hlt,
      show skip - n = skip - (n + 1) + 1 by omega, List.drop_succ_cons]
  · rw [max_eq_left hge, max_eq_left (by omega), Nat.sub_eq_zero_of_le hge,
      Nat.sub_eq_zero_of_le (by omega : skip ≤ n + 1), List.drop_zero, List.drop_zero]
    split_ifs with h
    · rw [show skip + count - n = skip + count - (n + 1) + 1 by omega, List.take_succ_cons]
    · rw [show skip + count - n = 0 by omega, show skip + count - (n + 1) = 0 by omega,
        List.take_zero, List.take_zero]

/-- **With limits the matches shown are accepted**, where the counter has
room for one more than the limits allow. -/
theorem acceptLoop_limited (hroom : skip + count + 1 < 2 ^ 64) (hn : n ≤ skip + count + 1) :
    ∃ key, acceptLoop nprefixSel (keyAt word (npAt p true skip count n last len))
      (ws.map Utf8Text.bytes) =
        some ((shown skip count n (keptBy p last ws)).map Utf8Text.bytes, key) := by
  have hsum : (skip + count) % 2 ^ 64 = skip + count := Nat.mod_eq_of_lt (by omega)
  induction ws generalizing last len n with
  | nil =>
    refine ⟨keyAt word (npAt p true skip count n last len), ?_⟩
    rw [keptBy, List.filter_nil, dropRepeats, shown, List.drop_nil, List.take_nil, List.map_nil,
      acceptLoop]
  | cons w ws ih =>
    rw [List.map_cons]
    by_cases hagain : ∃ v ∈ last, sameWord v w
    · obtain ⟨key, hkey⟩ := @ih last n len hn
      rw [keptBy_again hagain]
      exact ⟨key, acceptLoop_passed (.inl hagain) hkey⟩
    by_cases hfound : found p w
    · rw [keptBy_cons hagain hfound, shown_cons]
      by_cases hover : n > skip + count
      · -- the limits are passed: nothing is shown any more
        have hnone : ∀ m l, skip + count ≤ m → shown skip count m l = [] := by
          intro m l hm
          rw [shown, show skip + count - max m skip = 0 by omega, List.take_zero]
        obtain ⟨key, hkey⟩ := @ih last n len hn
        rw [hnone _ _ (by omega)] at hkey
        rw [if_neg (by omega), hnone _ _ (by omega)]
        exact ⟨key, acceptLoop_passed (.inr (.inl ⟨rfl, by rwa [hsum]⟩)) hkey⟩
      · have hmatch : ¬ Passed p true skip count n last w := by
          rintro (h | ⟨-, h⟩ | h)
          · exact hagain h
          · rw [hsum] at h
            exact hover h
          · exact h hfound
        have hrun : nprefixRun (npAt p true skip count n last len) w.bytes =
            some (decide (skip < n + 1 ∧ n + 1 ≤ skip + count),
              npAt p true skip count (n + 1) (some w) (max len (w.bytes.length + 1))) := by
          rw [nprefixRun_match hmatch, nprefixMatch_limited, hsum,
            Nat.mod_eq_of_lt (show n + 1 < 2 ^ 64 by omega)]
        obtain ⟨key, hkey⟩ := @ih (some w) (n + 1) (max len (w.bytes.length + 1)) (by omega)
        refine ⟨key, ?_⟩
        rw [acceptLoop_step hrun hkey]
        simp only [decide_eq_true_iff]
        split_ifs <;> rfl
    · obtain ⟨key, hkey⟩ := @ih last n len hn
      rw [keptBy_not_found hfound]
      exact ⟨key, acceptLoop_passed (.inr (.inr hfound)) hkey⟩

/-- Where nothing is to be shown nothing is accepted. -/
theorem acceptLoop_count_zero (hskip : skip < 2 ^ 64) :
    ∃ key, acceptLoop nprefixSel (keyAt word (npAt p true skip 0 n last len))
      (ws.map Utf8Text.bytes) = some ([], key) := by
  induction ws generalizing last len n with
  | nil => exact ⟨_, rfl⟩
  | cons w ws ih =>
    rw [List.map_cons]
    by_cases hpassed : Passed p true skip 0 n last w
    · obtain ⟨key, hkey⟩ := @ih last n len
      exact ⟨key, acceptLoop_passed hpassed hkey⟩
    · obtain ⟨key, hkey⟩ := @ih (some w) ((n + 1) % 2 ^ 64) (max len (w.bytes.length + 1))
      have hrun := @nprefixRun_match p w last true skip 0 n len hpassed
      have hsum : (skip + 0) % 2 ^ 64 = skip := Nat.mod_eq_of_lt hskip
      rw [nprefixMatch_limited, hsum] at hrun
      refine ⟨key, ?_⟩
      rw [acceptLoop_step hrun hkey, if_neg (by rw [decide_eq_true_iff]; omega)]

/-- Nor where nothing is found. -/
theorem acceptLoop_not_found (h : ∀ w ∈ ws, ¬ found p w) :
    acceptLoop nprefixSel (keyAt word (npAt p lim skip count n last len))
      (ws.map Utf8Text.bytes) = some ([], keyAt word (npAt p lim skip count n last len)) := by
  induction ws with
  | nil => rfl
  | cons w ws ih =>
    obtain ⟨hw, hws⟩ := List.forall_mem_cons.1 h
    exact acceptLoop_passed (.inr (.inr hw)) (ih hws)

/-- A run in two parts. -/
theorem acceptLoop_append {as bs rest rest' : List Bytes} {key key' key'' : ModuleKey Nprefix}
    (has : acceptLoop nprefixSel key as = some (rest, key'))
    (hbs : acceptLoop nprefixSel key' bs = some (rest', key'')) :
    acceptLoop nprefixSel key (as ++ bs) = some (rest ++ rest', key'') := by
  induction as generalizing key rest with
  | nil =>
    obtain ⟨rfl, rfl⟩ := Prod.mk.inj (Option.some.inj has)
    exact hbs
  | cons w as ih =>
    rw [acceptLoop, Option.bind_eq_bind, Option.bind_eq_some_iff] at has
    obtain ⟨⟨answer, key₁⟩, hsel, has⟩ := has
    dsimp only at has
    rw [Option.bind_eq_bind, Option.bind_eq_some_iff] at has
    obtain ⟨⟨rest₁, key₂⟩, hloop, has⟩ := has
    obtain ⟨rfl, rfl⟩ := Prod.mk.inj (Option.some.inj has)
    rw [List.cons_append, acceptLoop, hsel, Option.bind_eq_bind, Option.bind_some]
    dsimp only
    rw [ih hloop, Option.bind_eq_bind, Option.bind_some]
    dsimp only
    split_ifs <;> rfl

end Run

/-! ## The keys -/

section Keys

variable {S C : Decimal} {p : Utf8Text}

/-- Neither number goes on over the number sign. -/
theorem sign_not_digit (r : Bytes) :
    ∀ c ∈ (35 :: r : Bytes).head?, ¬ (digitIn 10 c).isSome := by
  rintro c hc
  obtain rfl := Option.some.inj hc
  decide

/-- A key `S#C#P` is taken apart. -/
theorem accepts_limitedKey (h : S.value + C.value < 2 ^ 64) (bs : List Bytes) :
    accepts nprefixSel (limitedKey S C p) bs =
      (acceptLoop nprefixSel (keyAt (limitedKey S C p)
        (npAt p true S.value C.value 0 none 0)) bs).map Prod.fst := by
  have hS : strtoul10 (limitedKey S C p) = (S.value, 35 :: (C.digits ++ 35 :: p.bytes)) :=
    S.strtoul10_eq (by omega) (sign_not_digit _)
  have hC : strtoul10 (C.digits ++ 35 :: p.bytes) = (C.value, 35 :: p.bytes) :=
    C.strtoul10_eq (by omega) (sign_not_digit _)
  simp only [accepts, nprefixSel, nprefixBegin, hS, List.head?_cons, if_true, List.drop_succ_cons,
    List.drop_zero, hC, utf8Strlen_bytes, Option.bind_eq_bind, Option.bind_some,
    Bool.false_eq_true, if_false]
  rfl

/-- A key without a number sign is the string. -/
theorem accepts_unlimited (h : (35 : UInt8) ∉ p.bytes) (bs : List Bytes) :
    accepts nprefixSel p.bytes bs =
      (acceptLoop nprefixSel (keyAt p.bytes (npAt p false 0 0 0 none 0)) bs).map Prod.fst := by
  have hhead : (strtoul10 p.bytes).2.head? ≠ some 35 := fun hc =>
    h (mem_of_mem_strtoul10 (List.mem_of_head? hc))
  have hbegin : nprefixBegin p.bytes = ⟨p.bytes, 0, false, 0, 0, 0, none, 0⟩ := if_neg hhead
  simp only [accepts, nprefixSel, hbegin, utf8Strlen_bytes, Option.bind_eq_bind,
    Option.bind_some, Bool.false_eq_true, if_false]
  rfl

/-- Below `2 ^ 32` characters what is found begins with the string. -/
theorem keptBy_eq_kept (h : p.codes.length < 2 ^ 32) (ws : List Utf8Text) :
    keptBy p none ws = kept p ws := by
  rw [keptBy, kept]
  congr 2
  funext w
  rw [decide_eq_decide, found, if_pos h]

/-- **Keys within the limits.** -/
theorem limited_of (hsum : S.value + C.value < 2 ^ 64)
    (h : C.value = 0 ∨ p.codes.length < 2 ^ 32 ∧ S.value + C.value + 1 < 2 ^ 64) :
    Limited S C p := by
  intro ws
  rw [accepts_limitedKey hsum]
  rcases h with hzero | ⟨hlen, hroom⟩
  · obtain ⟨key, hkey⟩ := @acceptLoop_count_zero p none S.value 0 0 (limitedKey S C p) ws (by omega)
    rw [hzero, hkey, List.take_zero]
    rfl
  · obtain ⟨key, hkey⟩ := @acceptLoop_limited p none S.value C.value 0 0 (limitedKey S C p) ws
      hroom (Nat.zero_le _)
    rw [hkey, keptBy_eq_kept hlen, shown, Nat.sub_zero, Nat.zero_max, Nat.add_sub_cancel_left]
    rfl

/-- Keys without limits. -/
theorem unlimited_of (hsign : (35 : UInt8) ∉ p.bytes) (h : p.codes.length < 2 ^ 32) :
    Unlimited p := by
  intro ws
  obtain ⟨key, hkey⟩ := @acceptLoop_unlimited p none 0 0 0 0 p.bytes ws
  rw [accepts_unlimited hsign, hkey, keptBy_eq_kept h]
  rfl

end Keys

/-! ## Keys beyond the limits -/

section Beyond

variable {S C : Decimal} {p : Utf8Text}

/-- The string with one of two letters behind it. -/
def marked (p : Utf8Text) (b : Bool) : Utf8Text where
  chars := p.chars ++ [if b then 'a' else 'b']
  null_notMem := by
    intro h
    rcases List.mem_append.1 h with h | h
    · exact p.null_notMem h
    · cases b <;> exact absurd (List.mem_singleton.1 h) (by decide)

/-- Its code points. -/
theorem codes_marked (p : Utf8Text) (b : Bool) :
    (marked p b).codes = p.codes ++ [if b then 0x61 else 0x62] := by
  rw [Utf8Text.codes, marked, List.map_append]
  cases b <;> rfl

/-- It begins with the string. -/
theorem startsWith_marked (p : Utf8Text) (b : Bool) : startsWith p (marked p b) := by
  rw [startsWith, codes_marked, folded, folded, List.map_append]
  exact List.prefix_append _ _

/-- And is not the string. -/
theorem not_sameWord_marked (p : Utf8Text) (b : Bool) : ¬ sameWord p (marked p b) := by
  intro h
  have hlen := congrArg List.length h
  rw [codes_marked] at hlen
  simp only [folded, List.length_map, List.length_append, List.length_singleton] at hlen
  omega

/-- The two letters make a difference. -/
theorem not_sameWord_not (p : Utf8Text) (b : Bool) : ¬ sameWord (marked p b) (marked p !b) := by
  intro h
  rw [sameWord, codes_marked, codes_marked, folded, folded, List.map_append, List.map_append] at h
  have hlast := List.append_cancel_left h
  cases b <;> exact absurd hlast (by decide +kernel)

/-- Headwords of which no two in a row are the same. -/
def alternating (p : Utf8Text) : Bool → ℕ → List Utf8Text
  | _, 0 => []
  | b, k + 1 => marked p b :: alternating p (!b) k

/-- There are so many of them. -/
theorem length_alternating (b : Bool) (k : ℕ) : (alternating p b k).length = k := by
  induction k generalizing b with
  | zero => rfl
  | succ k ih => rw [alternating, List.length_cons, ih]

/-- All of them begin with the string. -/
theorem mem_alternating {w : Utf8Text} {b : Bool} {k : ℕ} (h : w ∈ alternating p b k) :
    ∃ c, w = marked p c := by
  induction k generalizing b with
  | zero => cases h
  | succ k ih =>
    rcases List.mem_cons.1 h with rfl | h
    · exact ⟨b, rfl⟩
    · exact ih h

/-- And all are kept. -/
theorem kept_alternating (b : Bool) (k : ℕ) : kept p (alternating p b k) = alternating p b k := by
  have hall : (alternating p b k).filter (fun w => startsWith p w) = alternating p b k := by
    rw [List.filter_eq_self]
    intro w hw
    obtain ⟨c, rfl⟩ := mem_alternating hw
    exact decide_eq_true (startsWith_marked p c)
  have hdrop : ∀ last, (¬ ∃ v ∈ last, sameWord v (marked p b)) →
      dropRepeats last (alternating p b k) = alternating p b k := by
    clear hall
    induction k generalizing b with
    | zero => exact fun _ _ => rfl
    | succ k ih =>
      intro last hlast
      rw [alternating, dropRepeats, if_neg hlast, ih]
      rintro ⟨v, hv, hsame⟩
      obtain rfl := Option.some.inj hv
      exact not_sameWord_not p b hsame
  rw [kept, hall, hdrop none fun h => by obtain ⟨v, hv, -⟩ := h; cases hv]

/-- **A string of `2 ^ 32` characters is found in no longer headword.** -/
theorem not_limited_of_long (hsum : S.value + C.value < 2 ^ 64) (hC : C.value ≠ 0)
    (h : 2 ^ 32 ≤ p.codes.length) : ¬ Limited S C p := by
  intro hlim
  have hrun := hlim (alternating p true (S.value + 1))
  have hnot : ∀ w ∈ alternating p true (S.value + 1), ¬ found p w := by
    intro w hw
    obtain ⟨c, rfl⟩ := mem_alternating hw
    rw [found, if_neg (not_lt.2 h)]
    exact not_sameWord_marked p c
  rw [accepts_limitedKey hsum, acceptLoop_not_found hnot, Option.map_some, Option.some.injEq,
    kept_alternating] at hrun
  have hlen := congrArg List.length hrun
  rw [List.length_map, List.length_take, List.length_drop, length_alternating,
    List.length_nil] at hlen
  omega

/-- The same for a key without limits. -/
theorem not_unlimited_of_long (hsign : (35 : UInt8) ∉ p.bytes) (h : 2 ^ 32 ≤ p.codes.length) :
    ¬ Unlimited p := by
  intro hunl
  have hrun := hunl (alternating p true 1)
  have hnot : ∀ w ∈ alternating p true 1, ¬ found p w := by
    intro w hw
    obtain ⟨c, rfl⟩ := mem_alternating hw
    rw [found, if_neg (not_lt.2 h)]
    exact not_sameWord_marked p c
  rw [accepts_unlimited hsign, acceptLoop_not_found hnot, Option.map_some, Option.some.injEq,
    kept_alternating] at hrun
  cases hrun

/-- A headword that is kept when the limits leave no room in the counter. -/
theorem not_passed_marked {skip count n : ℕ} {last : Option Utf8Text} {b : Bool}
    (hlen : p.codes.length < 2 ^ 32) (hfull : skip + count + 1 = 2 ^ 64) (hn : n < 2 ^ 64)
    (hlast : ¬ ∃ v ∈ last, sameWord v (marked p b)) :
    ¬ Passed p true skip count n last (marked p b) := by
  rintro (h | ⟨-, h⟩ | h)
  · exact hlast h
  · rw [Nat.mod_eq_of_lt (by omega)] at h
    omega
  · rw [found, if_pos hlen] at h
    exact h (startsWith_marked p b)

/-- **The counter goes on from zero** when the limits leave no room in it:
after so many headwords it is their number modulo `2 ^ 64`. -/
theorem acceptLoop_alternating {skip count n len : ℕ} {last : Option Utf8Text} {word : Bytes}
    (hlen : p.codes.length < 2 ^ 32) (hfull : skip + count + 1 = 2 ^ 64) (hn : n < 2 ^ 64)
    (b : Bool) (k : ℕ) (hlast : ¬ ∃ v ∈ last, sameWord v (marked p b)) :
    ∃ rest last' len' c, acceptLoop nprefixSel (keyAt word (npAt p true skip count n last len))
        ((alternating p b k).map Utf8Text.bytes) =
          some (rest, keyAt word (npAt p true skip count ((n + k) % 2 ^ 64) last' len')) ∧
      (¬ ∃ v ∈ last', sameWord v (marked p c)) ∧
      alternating p b (k + 1) = alternating p b k ++ [marked p c] := by
  induction k generalizing b n last len with
  | zero =>
    refine ⟨[], last, len, b, ?_, hlast, rfl⟩
    rw [Nat.add_zero, Nat.mod_eq_of_lt hn]
    rfl
  | succ k ih =>
    have hnext : ¬ ∃ v ∈ some (marked p b), sameWord v (marked p !b) := by
      rintro ⟨v, hv, hsame⟩
      obtain rfl := Option.some.inj hv
      exact not_sameWord_not p b hsame
    obtain ⟨rest, last', len', c, hloop, hc, halt⟩ := @ih ((n + 1) % 2 ^ 64)
      (max len ((marked p b).bytes.length + 1)) (some (marked p b))
      (Nat.mod_lt _ (by decide)) (!b) hnext
    rw [show ((n + 1) % 2 ^ 64 + k) % 2 ^ 64 = (n + (k + 1)) % 2 ^ 64 by omega] at hloop
    have hrun := @nprefixRun_match p (marked p b) last true skip count n len
      (not_passed_marked hlen hfull hn hlast)
    rw [nprefixMatch_limited] at hrun
    refine ⟨_, last', len', c, acceptLoop_step hrun hloop, hc, ?_⟩
    rw [alternating, halt]
    rfl

/-- **Limits that leave no room in the counter are started again** by
`2 ^ 64` headwords. -/
theorem not_limited_of_full (hC : C.value ≠ 0) (hlen : p.codes.length < 2 ^ 32)
    (hfull : S.value + C.value + 1 = 2 ^ 64) : ¬ Limited S C p := by
  intro hlim
  have hsum : S.value + C.value < 2 ^ 64 := by omega
  -- all but the last of the headwords, and the last one, which is accepted too
  obtain ⟨rest, last, len, c, hloop, hlast, halt⟩ := @acceptLoop_alternating p S.value C.value 0 0
    none (limitedKey S C p) hlen hfull (by decide) true (2 ^ 64 + S.value)
    (by rintro ⟨v, hv, -⟩; cases hv)
  have hcount : (0 + (2 ^ 64 + S.value)) % 2 ^ 64 = S.value := by omega
  rw [hcount] at hloop
  have hrun := @nprefixRun_match p (marked p c) last true S.value C.value S.value len
    (not_passed_marked hlen hfull (by omega) hlast)
  rw [nprefixMatch_limited, Nat.mod_eq_of_lt (show S.value + 1 < 2 ^ 64 by omega),
    Nat.mod_eq_of_lt hsum] at hrun
  have hone := acceptLoop_step hrun (acceptLoop_nil (keyAt (limitedKey S C p) _))
  rw [if_pos (decide_eq_true ⟨by omega, by omega⟩)] at hone
  have hshort := hlim (alternating p true (2 ^ 64 + S.value))
  have hlong := hlim (alternating p true (2 ^ 64 + S.value + 1))
  rw [accepts_limitedKey hsum, hloop, Option.map_some, Option.some.injEq,
    kept_alternating] at hshort
  rw [accepts_limitedKey hsum, kept_alternating, halt, List.map_append, List.map_singleton,
    acceptLoop_append hloop hone, Option.map_some, Option.some.injEq, ← halt] at hlong
  have hlen₁ := congrArg List.length hshort
  have hlen₂ := congrArg List.length hlong
  simp only [List.length_append, List.length_map, List.length_take, List.length_drop,
    length_alternating, List.length_singleton] at hlen₁ hlen₂
  omega

end Beyond

/-- Keys with limits. -/
theorem limited_iff {S C : Decimal} {p : Utf8Text} (h : S.value + C.value < 2 ^ 64) :
    Limited S C p ↔
      C.value = 0 ∨ p.codes.length < 2 ^ 32 ∧ S.value + C.value + 1 < 2 ^ 64 := by
  refine ⟨fun hlim => ?_, limited_of h⟩
  by_contra hnot
  rw [not_or, not_and_or, not_lt, not_lt] at hnot
  obtain ⟨hC, hlong | hfull⟩ := hnot
  · exact not_limited_of_long h hC hlong hlim
  · rcases Nat.lt_or_ge p.codes.length (2 ^ 32) with hshort | hlong
    · exact not_limited_of_full hC hshort (by omega) hlim
    · exact not_limited_of_long h hC hlong hlim

/-- **The limited prefix strategy.** With a key `S#C#P` it accepts what it
should, whatever the headwords, exactly if nothing is asked for or `P` has
fewer than `2 ^ 32` characters and the counter has room for one match more
than the limits allow; with a key without a number sign, exactly if that
has fewer than `2 ^ 32` characters. -/
theorem nprefix_iff (S C : Decimal) (p : Utf8Text) :
    (S.value + C.value < 2 ^ 64 →
      (Limited S C p ↔
        C.value = 0 ∨ p.codes.length < 2 ^ 32 ∧ S.value + C.value + 1 < 2 ^ 64)) ∧
    ((35 : UInt8) ∉ p.bytes → (Unlimited p ↔ p.codes.length < 2 ^ 32)) := by
  refine ⟨fun h => limited_iff h, fun hsign => ⟨fun hunl => ?_, unlimited_of hsign⟩⟩
  by_contra hlong
  exact not_unlimited_of_long hsign (not_lt.1 hlong) hunl

/-- The numbers with one digit. -/
def digit (d : UInt8) (h : (digitIn 10 d).isSome) : Decimal where
  digits := [d]
  ne_nil := List.cons_ne_nil d []
  isDigit := List.forall_mem_singleton.2 h

/-- A word to begin with. -/
def abText : Utf8Text where
  chars := ['a', 'b']
  null_notMem := by decide

/-- Two of the headwords that begin with ab behind the first, or all. -/
theorem nprefix_abText : Limited (digit 49 (by decide)) (digit 50 (by decide)) abText ∧
    Unlimited abText :=
  ⟨((nprefix_iff _ _ _).1 (by decide)).2 (.inr ⟨by decide, by decide⟩),
    ((nprefix_iff (digit 49 (by decide)) (digit 50 (by decide)) abText).2 (by decide)).2
      (by decide)⟩

/-- **A string too long for the comparison.** It has `2 ^ 32` characters
and one more; of a headword that begins with it and goes on, nothing is
accepted. -/
theorem not_limited_padded :
    ¬ Limited (digit 48 (by decide)) (digit 49 (by decide)) (padded (2 ^ 32) 'x' (by decide)) := by
  refine not_limited_of_long (by decide) (by decide) ?_
  rw [codes_padded, List.length_append, List.length_replicate]
  exact Nat.le_add_right _ _

end Dico
