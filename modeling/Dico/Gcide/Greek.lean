import Dico.Common.LongestMatch
import Dico.Common.Utf8
import Dico.Text.Cstr
/-!
# Greek letters

`gcide_grk_to_utf8` looks a transliterated text up in a table and takes the
longest sequence that the text begins with. It goes through the table until
a sequence has another first letter, once it has found one, and misses
nothing by that, since the table is grouped by first letters
(`grk_longest`).
-/

namespace Dico

/-- A literal of the source that is not in ASCII. -/
def utf8 (s : String) : Bytes := Utf8.encodeAll s.toList

/-- The table as the source has it. -/
def xlitText : List (String × String) :=
  [("'A", "Ἀ"), ("'A,", "ᾈ"), ("'A^", "Ἆ"), ("'A`", "Ἄ"), ("'A~", "Ἂ"), ("'A~,", "ᾊ"),
    ("'A~,", "ᾌ"), ("'A~,", "ᾎ"), ("'E", "Ἐ"), ("'E`", "Ἔ"), ("'E~", "Ἒ"), ("'H", "Ἠ"),
    ("'H,", "ᾘ"), ("'H^", "Ἦ"), ("'H`", "Ἤ"), ("'H~", "Ἢ"), ("'H~,", "ᾚ"), ("'H~,", "ᾜ"),
    ("'H~,", "ᾞ"), ("'I", "Ἰ"), ("'I^", "Ἶ"), ("'I`", "Ἴ"), ("'I~", "Ἲ"), ("'O", "Ὀ"),
    ("'O`", "Ὄ"), ("'O~", "Ὂ"), ("'W", "Ὠ"), ("'W,", "ᾨ"), ("'W^", "Ὦ"), ("'W`", "Ὤ"),
    ("'W~", "Ὢ"), ("'W~,", "ᾪ"), ("'W~,", "ᾬ"), ("'W~,", "ᾮ"), ("'`O", "Ὄ"), ("'a", "ἀ"),
    ("'a,", "ᾀ"), ("'a^", "ἆ"), ("'a^,", "ᾆ"), ("'a`", "ἄ"), ("'a`,", "ᾄ"), ("'a~", "ἂ"),
    ("'a~,", "ᾂ"), ("'e", "ἐ"), ("'e`", "ἔ"), ("'e~", "ἒ"), ("'h", "ἠ"), ("'h,", "ᾐ"),
    ("'h^", "ἦ"), ("'h^,", "ᾖ"), ("'h`", "῎η"), ("'h`,", "ᾔ"), ("'h~", "ἢ"), ("'h~,", "ᾒ"),
    ("'i", "ἰ"), ("'i^", "ἶ"), ("'i`", "ἴ"), ("'i~", "ἲ"), ("'o", "ὀ"), ("'o`", "ὄ"),
    ("'o~", "ὂ"), ("'r", "ῤ"), ("'u", "ὐ"), ("'u^", "ὖ"), ("'u`", "ὔ"), ("'u~", "ὒ"),
    ("'w", "ὠ"), ("'w,", "ᾠ"), ("'w^", "ὦ"), ("'w^,", "ᾦ"), ("'w`", "ὤ"), ("'w`,", "ᾤ"),
    ("'w~", "ὢ"), ("'w~,", "ᾢ"), ("'y", "ὐ"), ("'y^", "ὖ"), ("'y`", "ὔ"), ("'y~", "ὒ"),
    ("A", "Α"), ("A", "Α"), ("A,", "ᾼ"), ("A`", "Ά"), ("A~", "Ἁ"), ("B", "Β"), ("CH", "Χ"),
    ("Ch", "Χ"), ("D", "Δ"), ("E", "Ε"), ("E", "Ε"), ("E`", "Έ"), ("E~", "Ἑ"), ("F", "Φ"),
    ("G", "Γ"), ("H", "Η"), ("H", "Η"), ("H,", "ῌ"), ("H`", "Ή"), ("H~", "Ἡ"), ("I", "Ι"),
    ("I", "Ι"), ("I`", "Ί"), ("I~", "Ἱ"), ("K", "Κ"), ("L", "Λ"), ("M", "Μ"), ("N", "Ν"),
    ("O", "Ο"), ("O", "Ο"), ("O`", "Ό"), ("O~", "Ὁ"), ("P", "Π"), ("PS", "Ψ"), ("Ps", "Ψ"),
    ("Q", "Θ"), ("R", "Ρ"), ("S", "Σ"), ("T", "Τ"), ("U", "Υ"), ("U", "Υ"), ("U`", "Ύ"),
    ("U~", "Ὑ"), ("W", "Ω"), ("W", "Ω"), ("W,", "ῼ"), ("W`", "Ώ"), ("W~", "Ὡ"), ("X", "Ξ"),
    ("Y", "Υ"), ("Y", "Υ"), ("Y`", "Ύ"), ("Y~", "Ὑ"), ("Z", "Ζ"), ("\"A", "Ὰ"), ("\"A,", "ᾉ"),
    ("\"A^", "Ἇ"), ("\"A^,", "ᾏ"), ("\"A`", "Ἅ"), ("\"A`,", "ᾍ"), ("\"A~", "Ἃ"), ("\"A~,", "ᾋ"),
    ("\"E", "Ὲ"), ("\"E`", "Ἕ"), ("\"E~", "Ἓ"), ("\"H", "Ὴ"), ("\"H,", "ᾙ"), ("\"H^", "Ἧ"),
    ("\"H^,", "ᾟ"), ("\"H`", "Ἥ"), ("\"H`,", "ᾝ"), ("\"H~", "Ἣ"), ("\"H~,", "ᾛ"), ("\"I", "Ὶ"),
    ("\"I^", "Ἷ"), ("\"I`", "Ἵ"), ("\"I~", "Ἳ"), ("\"O", "Ὸ"), ("\"O`", "Ὅ"), ("\"O~", "Ὃ"),
    ("\"R", "Ῥ"), ("\"U", "Ὺ"), ("\"U^", "Ὗ"), ("\"U`", "Ὕ"), ("\"U~", "Ὓ"), ("\"W", "Ὼ"),
    ("\"W,", "ᾩ"), ("\"W^", "Ὧ"), ("\"W^,", "ᾯ"), ("\"W`", "Ὥ"), ("\"W`,", "ᾭ"), ("\"W~", "Ὣ"),
    ("\"W~,", "ᾫ"), ("\"Y", "Ὺ"), ("\"Y^", "Ὗ"), ("\"Y`", "Ὕ"), ("\"Y~", "Ὓ"), ("\"a", "ἁ"),
    ("\"a,", "ᾁ"), ("\"a^", "ἇ"), ("\"a^,", "ᾇ"), ("\"a`", "ἄ"), ("\"a`", "ἅ"), ("\"a`,", "ᾅ"),
    ("\"a~", "ἂ"), ("\"a~", "ἃ"), ("\"a~,", "ᾃ"), ("\"e", "ἑ"), ("\"e`", "ἕ"), ("\"e~", "ἓ"),
    ("\"h", "ἡ"), ("\"h,", "ᾑ"), ("\"h^", "ἧ"), ("\"h^,", "ᾗ"), ("\"h`", "ἤ"), ("\"h`", "ἥ"),
    ("\"h`,", "ᾕ"), ("\"h~", "ἣ"), ("\"h~,", "ᾓ"), ("\"i", "ἱ"), ("\"i^", "ἷ"), ("\"i`", "ἵ"),
    ("\"i~", "ἳ"), ("\"o", "ὁ"), ("\"o`", "ὅ"), ("\"o~", "ὃ"), ("\"r", "ῥ"), ("\"u", "ὑ"),
    ("\"u^", "ὗ"), ("\"u`", "ὕ"), ("\"u~", "ὓ"), ("\"w", "ὡ"), ("\"w,", "ᾡ"), ("\"w^", "ὣ"),
    ("\"w^", "ὧ"), ("\"w^,", "ᾧ"), ("\"w`", "ὥ"), ("\"w`,", "ᾥ"), ("\"w~,", "ᾣ"), ("\"y", "ὑ"),
    ("\"y^", "ὗ"), ("\"y`", "ὕ"), ("\"y~", "ὓ"), ("a", "α"), ("a,", "ᾳ"), ("a^", "ᾶ"),
    ("a^,", "ᾷ"), ("a`", "ά"), ("a`,", "ᾴ"), ("a~", "ὰ"), ("a~,", "ᾲ"), ("b", "β"), ("ch", "χ"),
    ("d", "δ"), ("e", "ε"), ("e`", "έ"), ("e~", "ὲ"), ("f", "φ"), ("g", "γ"), ("h", "η"),
    ("h,", "ῃ"), ("h^", "ῆ"), ("h^,", "ῇ"), ("h`", "ή"), ("h`,", "ῄ"), ("h~", "ὴ"),
    ("h~,", "ῂ"), ("i", "ι"), ("i:", "ϊ"), ("i:^", "ῗ"), ("i:`", "ῒ"), ("i:`", "ΐ"),
    ("i^", "ῖ"), ("i^:", "ῗ"), ("i`", "ί"), ("i`:", "ῒ"), ("i`:", "ΐ"), ("i~", "ὶ"), ("k", "κ"),
    ("l", "λ"), ("m", "μ"), ("n", "ν"), ("o", "ο"), ("o`", "ό"), ("o~", "ὸ"), ("p", "π"),
    ("ps", "ψ"), ("q", "θ"), ("r", "ρ"), ("s", "σ"), ("t", "τ"), ("u", "υ"), ("u:", "ϋ"),
    ("u:^", "ῧ"), ("u:`", "ΰ"), ("u:~", "ῢ"), ("u^", "ῦ"), ("u^:", "ῧ"), ("u`", "ύ"),
    ("u`:", "ΰ"), ("u~", "ὺ"), ("u~:", "ῢ"), ("w", "ω"), ("w,", "ῳ"), ("w^", "ῶ"), ("w^,", "ῷ"),
    ("w`", "ώ"), ("w`,", "ῴ"), ("w~", "ὼ"), ("w~,", "ῲ"), ("x", "ξ"), ("y", "υ"), ("y:", "ϋ"),
    ("y:^", "ῧ"), ("y:`", "ΰ"), ("y:~", "ῢ"), ("y^", "ῦ"), ("y^:", "ῧ"), ("y`", "ύ"),
    ("y`:", "ΰ"), ("y~", "ὺ"), ("y~:", "ῢ"), ("z", "ζ")]
/-- `xlit`: a sequence, and the letter it stands for. -/
def xlit : List (Bytes × Bytes) := xlitText.map fun p => (ascii p.1, utf8 p.2)

/-- The loop of `gcide_grk_to_utf8`, with the length and the letter of what
was found. -/
def grkLoop (input : Bytes) : List (Bytes × Bytes) → ℕ → Option Bytes → ℕ × Option Bytes
  | [], foundLen, foundXlit => (foundLen, foundXlit)
  | p :: table, foundLen, foundXlit =>
    let i := commonLength input p.1
    if i < p.1.length then
      if foundLen ≠ 0 ∧ i = 0 then (foundLen, foundXlit)
      else grkLoop input table foundLen foundXlit
    else if i > foundLen then grkLoop input table i (some p.2)
    else grkLoop input table foundLen foundXlit

/-- `gcide_grk_to_utf8`: the letter, and how many bytes it stands for. -/
def gcideGrkToUtf8 (input : Bytes) : Option (Bytes × ℕ) :=
  if input = [115] then some (utf8 "ς", 1)
  else
    let (foundLen, foundXlit) := grkLoop input xlit 0 none
    if foundLen ≠ 0 then foundXlit.map fun grk => (grk, foundLen) else none

example : gcideGrkToUtf8 (ascii "'a~,x") = some (utf8 "ᾂ", 4) := by decide +kernel

/-! ## The table -/

/-- The first letter of a sequence. -/
def seqHead (p : Bytes × Bytes) : UInt8 := p.1.headD 0

/-- A table in which the sequences with one first letter follow each other,
and none is empty. -/
def XlitOk (table : List (Bytes × Bytes)) : Prop :=
  Grouped (table.map seqHead) ∧ (table.all fun p => decide (p.1 ≠ [])) = true

instance : DecidablePred XlitOk := fun table =>
  inferInstanceAs (Decidable (Grouped (table.map seqHead) ∧ _))

/-- The table is one. -/
theorem xlit_ok : XlitOk xlit := by decide +kernel

/-- A sequence that a text begins with has its first letter. -/
theorem seqHead_of_begins {p : Bytes × Bytes} {input : Bytes} (hne : p.1 ≠ [])
    (h : p.1 <+: input) : seqHead p = input.headD 0 := by
  obtain ⟨c, t, ht⟩ := List.exists_cons_of_ne_nil hne
  obtain ⟨u, rfl⟩ := h
  rw [seqHead, ht, List.cons_append, List.headD_cons, List.headD_cons]

/-! ## The search -/

section Search

variable {input : Bytes} {table pre : List (Bytes × Bytes)} {foundLen : ℕ}
  {foundXlit : Option Bytes}

/-- What was found in a table is the longest sequence of it that the text
begins with. -/
def IsLongest (input : Bytes) (table : List (Bytes × Bytes)) (foundLen : ℕ)
    (foundXlit : Option Bytes) : Prop :=
  (foundLen = 0 ∧ ∀ p ∈ table, ¬ p.1 <+: input) ∨
    ∃ p ∈ table, p.1 <+: input ∧ foundLen = p.1.length ∧ foundXlit = some p.2 ∧
      ∀ q ∈ table, q.1 <+: input → q.1.length ≤ foundLen

/-- A sequence that does not match changes nothing. -/
theorem IsLongest.passed {p : Bytes × Bytes} (h : IsLongest input pre foundLen foundXlit)
    (hp : p.1 <+: input → foundLen ≠ 0 ∧ p.1.length ≤ foundLen) :
    IsLongest input (pre ++ [p]) foundLen foundXlit := by
  rcases h with ⟨hzero, hnone⟩ | ⟨e, he, hpre, hlen, hgrk, hall⟩
  · refine .inl ⟨hzero, fun q hq => ?_⟩
    rcases List.mem_append.1 hq with hq | hq
    · exact hnone q hq
    · rw [List.mem_singleton.1 hq]
      exact fun hmatch => (hp hmatch).1 hzero
  · refine .inr ⟨e, List.mem_append_left _ he, hpre, hlen, hgrk, fun q hq hmatch => ?_⟩
    rcases List.mem_append.1 hq with hq | hq
    · exact hall q hq hmatch
    · rw [List.mem_singleton.1 hq] at hmatch ⊢
      exact (hp hmatch).2

/-- A longer one that matches takes the place of what was found. -/
theorem IsLongest.found {p : Bytes × Bytes} (h : IsLongest input pre foundLen foundXlit)
    (hp : p.1 <+: input) (hlt : foundLen < p.1.length) :
    IsLongest input (pre ++ [p]) p.1.length (some p.2) := by
  refine .inr ⟨p, List.mem_append_right _ List.mem_cons_self, hp, rfl, rfl, fun q hq hmatch => ?_⟩
  rcases List.mem_append.1 hq with hq | hq
  · rcases h with ⟨-, hnone⟩ | ⟨e, -, -, -, -, hall⟩
    · exact absurd hmatch (hnone q hq)
    · exact (hall q hq hmatch).trans hlt.le
  · rw [List.mem_singleton.1 hq]

/-- **The search may stop** at another first letter. -/
theorem IsLongest.stop {p : Bytes × Bytes} (hok : XlitOk (pre ++ p :: table))
    (h : IsLongest input pre foundLen foundXlit) (hfound : foundLen ≠ 0)
    (hp : commonLength input p.1 = 0) :
    IsLongest input (pre ++ p :: table) foundLen foundXlit := by
  obtain ⟨hgrouped, hall⟩ := hok
  have hne : ∀ q ∈ pre ++ p :: table, q.1 ≠ [] := fun q hq =>
    of_decide_eq_true (List.all_eq_true.1 hall q hq)
  have hpmem : p ∈ pre ++ p :: table := List.mem_append_right pre List.mem_cons_self
  have hpnot : ¬ p.1 <+: input := by
    rw [← commonLength_lt_iff, hp]
    exact List.length_pos_of_ne_nil (hne p hpmem)
  rcases h with ⟨hzero, -⟩ | ⟨e, he, hpre, hlen, hgrk, hbest⟩
  · exact absurd hzero hfound
  have hene := hne e (List.mem_append_left _ he)
  have hother : seqHead p ≠ seqHead e := by
    intro hsame
    obtain ⟨c, t, ht⟩ := List.exists_cons_of_ne_nil hene
    obtain ⟨d, u, hu⟩ := List.exists_cons_of_ne_nil (hne p hpmem)
    obtain ⟨v, rfl⟩ := hpre
    rw [seqHead, seqHead, ht, hu, List.headD_cons, List.headD_cons] at hsame
    rw [ht, hu, hsame, List.cons_append] at hp
    exact commonLength_cons_ne_zero c _ u hp
  have hrest : seqHead e ∉ table.map seqHead := by
    rw [List.map_append, List.map_cons] at hgrouped
    exact hgrouped.head_notMem (List.mem_map_of_mem he) hother
  refine .inr ⟨e, List.mem_append_left _ he, hpre, hlen, hgrk, fun q hq hmatch => ?_⟩
  rcases List.mem_append.1 hq with hqpre | hqrest
  · exact hbest q hqpre hmatch
  rcases List.mem_cons.1 hqrest with rfl | hqrest
  · exact absurd hmatch hpnot
  · have hhead : seqHead q = seqHead e := by
      rw [seqHead_of_begins (hne q hq) hmatch, seqHead_of_begins hene hpre]
    exact absurd (hhead ▸ List.mem_map_of_mem hqrest) hrest

/-- **What the loop finds is the longest sequence.** -/
theorem grkLoop_longest (hok : XlitOk (pre ++ table))
    (h : IsLongest input pre foundLen foundXlit) :
    IsLongest input (pre ++ table) (grkLoop input table foundLen foundXlit).1
      (grkLoop input table foundLen foundXlit).2 := by
  induction table generalizing pre foundLen foundXlit with
  | nil =>
    rw [List.append_nil]
    exact h
  | cons p table ih =>
    have hassoc : pre ++ p :: table = pre ++ [p] ++ table := by
      rw [List.append_assoc, List.singleton_append]
    unfold grkLoop
    by_cases hlt : commonLength input p.1 < p.1.length
    · have hnot := (commonLength_lt_iff input p.1).1 hlt
      simp only [if_pos hlt]
      by_cases hstop : foundLen ≠ 0 ∧ commonLength input p.1 = 0
      · rw [if_pos hstop]
        exact h.stop hok hstop.1 hstop.2
      · rw [if_neg hstop, hassoc]
        rw [hassoc] at hok
        exact ih hok (h.passed fun hmatch => absurd hmatch hnot)
    · have hmatch : p.1 <+: input := not_not.1 fun hnot =>
        hlt ((commonLength_lt_iff input p.1).2 hnot)
      have hlen := (commonLength_eq_length_iff input p.1).2 hmatch
      have hpos : 0 < p.1.length := by
        refine List.length_pos_of_ne_nil (of_decide_eq_true (List.all_eq_true.1 hok.2 p ?_))
        exact List.mem_append_right pre List.mem_cons_self
      simp only [if_neg hlt]
      rw [hlen, hassoc]
      rw [hassoc] at hok
      split_ifs with hmore
      · exact ih hok (h.found hmatch hmore)
      · exact ih hok (h.passed fun _ => ⟨by omega, by omega⟩)

end Search

/-- **The transliteration is greedy**: there is none if the text begins
with no sequence of the table, and else it is that of a longest one. -/
theorem grk_longest (input : CText) (hinput : input.bytes ≠ [115]) :
    (gcideGrkToUtf8 input.bytes = none ↔ ∀ p ∈ xlit, ¬ p.1 <+: input.bytes) ∧
      ∀ grk rd, gcideGrkToUtf8 input.bytes = some (grk, rd) →
        ∃ p ∈ xlit, p.1 <+: input.bytes ∧ p.2 = grk ∧ p.1.length = rd ∧
          ∀ q ∈ xlit, q.1 <+: input.bytes → q.1.length ≤ rd := by
  have hloop := @grkLoop_longest input.bytes xlit [] 0 none xlit_ok
    (.inl ⟨rfl, fun p hp => absurd hp List.not_mem_nil⟩)
  rw [List.nil_append] at hloop
  rw [gcideGrkToUtf8, if_neg hinput]
  generalize grkLoop input.bytes xlit 0 none = found at hloop
  obtain ⟨foundLen, foundXlit⟩ := found
  rcases hloop with ⟨hzero, hnone⟩ | ⟨p, hp, hpre, hlen, hgrk, hall⟩
  · simp only at hzero
    simp only [hzero, ne_eq, not_true, if_false]
    exact ⟨iff_of_true trivial hnone, fun grk rd h => by cases h⟩
  · simp only at hlen hgrk hall
    have hne : foundLen ≠ 0 := by
      have hpne := of_decide_eq_true (List.all_eq_true.1 xlit_ok.2 p hp)
      rw [hlen]
      exact Nat.ne_of_gt (List.length_pos_of_ne_nil hpne)
    simp only [if_pos hne, hgrk, Option.map_some]
    refine ⟨iff_of_false (fun h => by cases h) fun h => h p hp hpre, fun grk rd h => ?_⟩
    obtain ⟨rfl, rfl⟩ := Prod.mk.inj (Option.some.inj h)
    exact ⟨p, hp, hpre, rfl, hlen.symm, hall⟩

/-- It is of `a` with its accents. -/
theorem grk_longest_accents :
    ascii "'a~,x" ≠ [115] ∧
      ∃ p ∈ xlit, p.1 <+: ascii "'a~,x" ∧ p.2 = utf8 "ᾂ" ∧ p.1.length = 4 ∧
        ∀ q ∈ xlit, q.1 <+: ascii "'a~,x" → q.1.length ≤ 4 :=
  ⟨by decide, (grk_longest ⟨ascii "'a~,x", by decide⟩ (by decide)).2 (utf8 "ᾂ") 4
    (by decide +kernel)⟩

end Dico
