import Dico.Gcide.Greek
import Mathlib.Data.List.Chain
/-!
# Entities and escapes

`gcide_entity_to_utf8` and `gcide_escape_to_utf8`: what the entities and the
escaped bytes of the markup stand for. The text of all entities but one is
hardly longer than the entity (`entity_length`), and the table of the
escapes has a row without a null, which is read into the next one.
-/

namespace Dico

/-- The table of the entities as the source has it. -/
def entityText : List (String × String) :=
  [("Cced", "Ç"), ("uum", "ü"), ("eacute", "é"), ("acir", "â"), ("aum", "ä"), ("agrave", "à"),
    ("aring", "å"), ("ccedil", "ç"), ("cced", "ç"), ("ecir", "ê"), ("eum", "ë"), ("egrave", "è"),
    ("ium", "ï"), ("icir", "î"), ("igrave", "ì"), ("Aum", "Ä"), ("Aring", "Å"), ("Eacute", "È"),
    ("ae", "æ"), ("AE", "Æ"), ("ocir", "ô"), ("oum", "ö"), ("ograve", "ò"), ("oacute", "ó"),
    ("Oacute", "Ó"), ("ucir", "û"), ("ugrave", "ù"), ("uacute", "ú"), ("yum", "ÿ"), ("Oum", "Ö"),
    ("Uum", "Ü"), ("pound", "£"), ("aacute", "á"), ("iacute", "í"), ("frac23", "⅔"),
    ("frac13", "⅓"), ("frac12", "½"), ("frac14", "¼"), ("?", "<?>"), ("hand", "☞"), ("sect", "§"),
    ("amac", "ā"), ("nsm", "ṉ"), ("sharp", "♯"), ("flat", "♭"),
    ("th", "<span class='cl-it'>th</span>"), ("imac", "ī"), ("emac", "ē"), ("dsdot", "ḍ"),
    ("nsdot", "ṇ"), ("tsdot", "ṭ"), ("ecr", "ĕ"), ("icr", "ĭ"), ("ocr", "ŏ"), ("OE", "Œ"),
    ("oe", "œ"), ("omac", "ō"), ("umac", "ū"), ("ocar", "ǒ"), ("aemac", "ǣ"), ("ucr", "ŭ"),
    ("acr", "ă"), ("ymac", "ȳ"), ("oomac", "o͝o"), ("asl", "a"), ("esl", "e"), ("isl", "i"),
    ("osl", "o"), ("usl", "u"), ("adot", "ȧ"), ("edh", "ð"), ("thorn", "þ"), ("atil", "ã"),
    ("etil", "ẽ"), ("itil", "ĩ"), ("otil", "õ"), ("util", "ũ"), ("ntil", "ñ"), ("Atil", "Ã"),
    ("Etil", "Ẽ"), ("Itil", "Ĩ"), ("Otil", "Õ"), ("Util", "Ũ"), ("Ntil", "Ñ"), ("ndot", "ṅ"),
    ("rsdot", "ṛ"), ("yogh", "ȝ"), ("deg", "°"), ("middot", "•"), ("root", "√"), ("alpha", "α"),
    ("beta", "β"), ("gamma", "γ"), ("delta", "δ"), ("epsilon", "ε"), ("zeta", "ζ"), ("eta", "η"),
    ("theta", "θ"), ("iota", "ι"), ("kappa", "κ"), ("lambda", "λ"), ("mu", "μ"), ("nu", "ν"),
    ("xi", "ξ"), ("omicron", "ο"), ("pi", "π"), ("rho", "ρ"), ("sigma", "σ"), ("sigmat", "ς"),
    ("tau", "τ"), ("upsilon", "υ"), ("phi", "φ"), ("chi", "χ"), ("psi", "ψ"), ("omega", "ω"),
    ("digamma", "ϝ"), ("ALPHA", "Α"), ("BETA", "Β"), ("GAMMA", "Γ"), ("DELTA", "Δ"),
    ("EPSILON", "Ε"), ("ZETA", "Ζ"), ("ETA", "Η"), ("THETA", "Θ"), ("IOTA", "Ι"), ("KAPPA", "Κ"),
    ("LAMBDA", "Λ"), ("MU", "Μ"), ("NU", "Ν"), ("XI", "Ξ"), ("OMICRON", "Ο"), ("PI", "Π"),
    ("RHO", "Ρ"), ("SIGMA", "Σ"), ("TAU", "Τ"), ("UPSILON", "Υ"), ("PHI", "Φ"), ("CHI", "Χ"),
    ("PSI", "Ψ"), ("OMEGA", "Ω"), ("AIT", "A"), ("BIT", "B"), ("CIT", "C"), ("DIT", "D"),
    ("EIT", "E"), ("FIT", "F"), ("GIT", "G"), ("HIT", "H"), ("IIT", "I"), ("JIT", "J"),
    ("KIT", "K"), ("LIT", "L"), ("MIT", "M"), ("NOT", "N"), ("OIT", "O"), ("PIT", "P"),
    ("QIT", "Q"), ("RIT", "R"), ("SIT", "S"), ("TIT", "T"), ("UIT", "U"), ("VIT", "V"),
    ("WIT", "W"), ("XIT", "X"), ("YIT", "Y"), ("ZIT", "Z"), ("ait", "a"), ("bit", "b"),
    ("cit", "c"), ("dit", "d"), ("eit", "e"), ("fit", "f"), ("git", "g"), ("hit", "h"),
    ("iit", "i"), ("jit", "j"), ("kit", "k"), ("lit", "l"), ("mit", "m"), ("not", "n"),
    ("oit", "o"), ("pit", "p"), ("qit", "q"), ("rit", "r"), ("sit", "s"), ("tit", "t"),
    ("uit", "u"), ("vit", "v"), ("wit", "w"), ("xit", "x"), ("yit", "y"), ("zit", "z"),
    ("add", "a"), ("udd", "u"), ("ADD", "A"), ("UDD", "U"), ("prime", "´"), ("bprime", "˝"),
    ("mdash", "—"), ("divide", "÷"), ("lsquo", "‘"), ("ldquo", "“"), ("rdquo", "”"),
    ("dagger", "†"), ("dag", "†"), ("Dagger", "‡"), ("ddag", "‡"), ("para", "§"), ("gt", "&gt;"),
    ("lt", "&lt;"), ("rarr", "→"), ("larr", "←"), ("schwa", "ə"), ("br", "<br/>"), ("and", "and"),
    ("or", "or"), ("sec", "˝")]

/-- `gcide_entity`. -/
def gcideEntity : List (Bytes × Bytes) := entityText.map fun p => (ascii p.1, utf8 p.2)

/-- `gcide_entity_to_utf8`. -/
def gcideEntityToUtf8 (str : Bytes) : Option Bytes :=
  let name := if str.head? = some 60 then (str.drop 1).takeWhile (· ≠ 47) else str
  (gcideEntity.find? fun p => p.1 == name).map Prod.snd

/-- The table of the escapes as the source has it. -/
def webchrText : List String :=
  ["", "", "", "", "", "", "", "", "", "", "", "", "", "", "", "", "", "", "", "", "", "", "", "",
    "", "", "", "", "", "", "", "", "", "", "", "", "", "", "", "", "", "", "", "", "", "", "",
    "", "", "", "", "", "", "", "", "", "", "", "", "", "<", "", ">", "", "", "", "", "", "", "",
    "", "", "", "", "", "", "", "", "", "", "", "", "", "", "", "", "", "", "", "", "", "", "",
    "", "", "", "", "", "", "", "", "", "", "", "", "", "", "", "", "", "", "", "", "", "", "",
    "", "", "", "", "", "", "", "", "", "", "", "", "Ç", "ü", "é", "â", "ä", "à", "å", "ç", "ê",
    "ë", "è", "ï", "î", "ì", "Ä", "Å", "È", "æ", "Æ", "ô", "ö", "ò", "û", "ù", "ÿ", "Ö", "Ü", "£",
    "", "", "", "", "á", "í", "ó", "ú", "ñ", "Ñ", "⅔", "⅓", "", "˝", "", "½", "¼", "", "", "",
    "<?>", "", "", "", "↑", "☞", "˝", "´", "”", "", "‖", "", "§", "“", "ā", "‘", "ṉ", "♯", "♭",
    "–", "―", "t", "ī", "ē", "ḍ", "ṇ", "ṭ", "ĕ", "ĭ", "", "ŏ", "‐", "—", "Œ", "œ", "ō", "ū", "ǒ",
    "ǣ", "ōē", "‖", "", "", "", "ŭ", "ă", "˘", "ȳ", "a", "e", "i", "o", "u", "ȧ", "μ", "h", "",
    "", "", "ð", "", "þ", "ã", "ṅ", "ṛ", "", "", "", "ȝ", "—", "÷", "≈", "°", "•", "·", "√", "",
    "", "", ""]

/-- A row of four bytes. A text of four leaves no room for the null. -/
def webchrRow (s : String) : Bytes := (utf8 s ++ [0, 0, 0, 0]).take 4

/-- `gcide_webchr`. -/
def gcideWebchr : Bytes := webchrText.flatMap webchrRow

/-- `xnum`. -/
def xnum (c : UInt8) : ℕ := (ascii "0123456789abcdef").idxOf c

/-- The string that begins with a row of the table. -/
def webchrAt (i : ℕ) : Bytes := (gcideWebchr.drop (4 * i)).takeWhile (· ≠ 0)

/-- `gcide_escape_to_utf8`, of two digits. -/
def gcideEscapeToUtf8 (a b : UInt8) : Option Bytes :=
  let s := webchrAt (xnum a * 16 + xnum b)
  if s ≠ [] then some s else none

example : gcideEntityToUtf8 (ascii "<frac12/") = some (utf8 "½") := by decide +kernel

/-! ## How long they are -/

/-- Few texts have more than three bytes, and the names of these, but for
`th`, are not much shorter. -/
theorem gcideEntity_length :
    (gcideEntity.all fun p => decide (p.2.length ≤ 3) || p.1 == ascii "th" ||
      decide (2 ≤ p.1.length ∧ p.2.length ≤ p.1.length + 5)) = true := by
  decide +kernel

/-- No two rows in a row are without a null. -/
theorem webchr_nulls : webchrText.IsChain fun s s' => 0 ∈ webchrRow s ∨ 0 ∈ webchrRow s' := by
  decide +kernel

section Lengths

variable {s : Bytes} {rows : List String}

theorem webchrRow_length (r : String) : (webchrRow r).length = 4 := by
  rw [webchrRow, List.length_take, List.length_append]
  exact min_eq_left (Nat.le_add_left _ _)

/-- What begins with a row of some. -/
theorem drop_rows (rows : List String) (i : ℕ) :
    (rows.flatMap webchrRow).drop (4 * i) = (rows.drop i).flatMap webchrRow := by
  induction i generalizing rows with
  | zero => rfl
  | succ i ih =>
    cases rows with
    | nil => simp only [List.flatMap_nil, List.drop_nil]
    | cons r rows =>
      rw [List.flatMap_cons, List.drop_succ_cons, ← ih,
        show 4 * (i + 1) = (webchrRow r).length + 4 * i by rw [webchrRow_length]; omega,
        List.drop_append, Nat.add_sub_cancel_left, List.drop_eq_nil_of_le (Nat.le_add_right _ _),
        List.nil_append]

/-- A row with a null in it ends the string. -/
theorem takeWhile_row (r : String) (t : Bytes) :
    ((webchrRow r ++ t).takeWhile (· ≠ 0)).length ≤
      if 0 ∈ webchrRow r then 3 else 4 + (t.takeWhile (· ≠ 0)).length := by
  have hlen := webchrRow_length r
  split_ifs with h
  · obtain ⟨u, v, huv⟩ := List.append_of_mem h
    rw [huv, List.length_append, List.length_cons] at hlen
    have hshort : ((webchrRow r ++ t).takeWhile (· ≠ 0)).length ≤ u.length := by
      rw [huv, List.append_assoc, List.cons_append, List.takeWhile_append,
        List.takeWhile_cons_of_neg (by decide)]
      split_ifs
      · rw [List.append_nil]
      · exact (List.takeWhile_prefix _).length_le
    omega
  · have hall : ∀ b ∈ webchrRow r, decide (b ≠ 0) = true := fun b hb =>
      decide_eq_true fun h0 => h (h0 ▸ hb)
    rw [List.takeWhile_append_of_pos hall, List.length_append, hlen]

/-- **An escape is no longer than a row and the text of the next.** -/
theorem webchrAt_length (i : ℕ) : (webchrAt i).length ≤ 7 := by
  have hnulls := webchr_nulls.drop i
  rw [webchrAt, gcideWebchr, drop_rows]
  cases hrows : webchrText.drop i with
  | nil => exact Nat.zero_le _
  | cons r rows =>
    rw [List.flatMap_cons]
    refine (takeWhile_row r _).trans ?_
    cases rows with
    | nil =>
      rw [List.flatMap_nil, List.takeWhile_nil, List.length_nil]
      split_ifs <;> decide
    | cons r' rows =>
      rw [hrows] at hnulls
      have hnext := takeWhile_row r' (rows.flatMap webchrRow)
      rw [List.flatMap_cons]
      split_ifs with h
      · decide
      · rw [if_pos ((List.isChain_cons_cons.1 hnulls).1.resolve_left h)] at hnext
        exact Nat.add_le_add_left hnext 4

/-- The text of an escape. -/
theorem gcideEscape_length {a b : UInt8} (h : gcideEscapeToUtf8 a b = some s) : s.length ≤ 7 := by
  rw [gcideEscapeToUtf8] at h
  split_ifs at h
  obtain rfl := Option.some.inj h
  exact webchrAt_length _

/-- **The text of an entity.** -/
theorem gcideEntity_length_le {c : UInt8} {name : Bytes} (hslash : 47 ∉ c :: name)
    (hth : c :: name ≠ ascii "th")
    (h : gcideEntityToUtf8 (60 :: c :: (name ++ [47])) = some s) :
    s.length ≤ 3 ∨ 1 ≤ name.length ∧ s.length ≤ name.length + 6 := by
  have hname : ((c :: (name ++ [47])).takeWhile (· ≠ 47)) = c :: name := by
    have hall : ∀ b ∈ c :: name, decide (b ≠ 47) = true := fun b hb =>
      decide_eq_true fun h47 => hslash (h47 ▸ hb)
    rw [← List.cons_append, List.takeWhile_append_of_pos hall,
      List.takeWhile_cons_of_neg (by decide), List.append_nil]
  rw [gcideEntityToUtf8, if_pos List.head?_cons, List.drop_succ_cons, List.drop_zero, hname] at h
  obtain ⟨p, hp, rfl⟩ := Option.map_eq_some_iff.1 h
  have hbeq := List.find?_some hp
  have hfound : p.1 = c :: name := beq_iff_eq.1 hbeq
  have hlen := List.all_eq_true.1 gcideEntity_length p (List.mem_of_find?_eq_some hp)
  simp only [Bool.or_eq_true, decide_eq_true_eq, beq_iff_eq, hfound, hth, or_false,
    List.length_cons] at hlen
  omega

end Lengths

end Dico
