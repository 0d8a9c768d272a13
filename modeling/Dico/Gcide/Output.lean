import Dico.Gcide.Greek
import Dico.Gcide.Tree
/-!
# The output of an article

`print_text` of the GCIDE module, which is called for every visit to the
tags of a parse tree, with the flags of `struct output_closure`. It writes
chunks: text of the article, quotation marks, and tags.
-/

namespace Dico

/-- What `isspace` and `ispunct` say in some locale. -/
structure Ctype where
  isspace : UInt8 → Bool
  ispunct : UInt8 → Bool
  isspace_null : isspace 0 = false
  ispunct_null : ispunct 0 = false

/-- The C locale. -/
def Ctype.posix : Ctype where
  isspace c := decide (isSpace c)
  ispunct c := decide (33 ≤ c ∧ c ≤ 47 ∨ 58 ≤ c ∧ c ≤ 64 ∨ 91 ≤ c ∧ c ≤ 96 ∨
    123 ≤ c ∧ c ≤ 126)
  isspace_null := by decide
  ispunct_null := by decide

/-- A text in the text space, and the string that memory holds behind the
null of it. -/
structure TextNode where
  text : CText
  behind : CText

/-- There is no null in the empty string. -/
theorem null_notMem_nil : (0 : UInt8) ∉ ([] : Bytes) := List.not_mem_nil

/-- The memory of a text. -/
def TextNode.memory (t : TextNode) : Bytes := t.text.bytes ++ 0 :: (t.behind.bytes ++ [0])

/-- The flags of `struct output_closure`: `GCIDE_NOPR`, `GOF_IGNORE`,
`GOF_AS` and `GOF_CHEM`. -/
structure OutputFlags where
  nopr : Bool
  ignore : Bool := false
  as : Bool := false
  chem : Bool := false
  deriving DecidableEq

/-- What is written at once. -/
inductive Chunk
  /-- Bytes of a text. -/
  | copy (s : Bytes)
  /-- Quotation marks. -/
  | insert (s : Bytes)
  /-- An opening tag: the element, and the rest of the tag. -/
  | start (elem attr : Bytes)
  /-- A closing tag. -/
  | stop (elem : Bytes)
  /-- A tag that closes itself. -/
  | empty (elem : Bytes)
  deriving DecidableEq, Repr

/-- The bytes that are written. -/
def Chunk.bytes : Chunk → Bytes
  | .copy s => s
  | .insert s => s
  | .start elem attr => ascii "<" ++ elem ++ attr ++ ascii ">"
  | .stop elem => ascii "</" ++ elem ++ ascii ">"
  | .empty elem => ascii "<" ++ elem ++ ascii "/>"

/-! ## The names of the tags -/

/-- `is_in_tags`. -/
def isInTags (tag : Bytes) (tags : List String) : Bool := tags.any fun t => cStrcaseeq (ascii t) tag

def isDiv (tag : Bytes) : Bool := isInTags tag ["rj", "q", "qau"]

def isVerbatim (tag : Bytes) : Bool :=
  isInTags tag ["h1", "h2", "pre", "it", "tt", "table", "tr", "td", "caption"]

def isSuperscript (tag : Bytes) : Bool := isInTags tag ["sups", "supr", "sup", "exp"]

def isSubscript (tag : Bytes) : Bool := isInTags tag ["sub", "subs"]

def isNumberSubscript (tag : Bytes) : Bool := isInTags tag ["chform", "chformi"]

def isParTags (tag : Bytes) : Bool := isInTags tag ["def", "sn"]

/-! ## Texts -/

/-- `isdigit`. -/
def isDigit (c : UInt8) : Bool := decide (48 ≤ c ∧ c ≤ 57)

/-- A text in a chemical formula: its numbers are subscripts. -/
def chemChunks : Bytes → List Chunk
  | [] => []
  | c :: s =>
    if isDigit c = false then .copy [c] :: chemChunks s
    else
      .start (ascii "sub") [] :: ((c :: s).takeWhile isDigit).map (fun d => .copy [d]) ++
        .stop (ascii "sub") :: chemChunks (s.dropWhile isDigit)
termination_by s => s.length
decreasing_by
  · exact Nat.lt_succ_self _
  · exact Nat.lt_succ_of_le (List.dropWhile_suffix _).length_le

/-- Whether a text begins with `as`, with a blank or a punctuation mark for
its fourth byte. -/
def TextNode.asForm (c : Ctype) (t : TextNode) : Bool :=
  t.text.bytes.take 2 == ascii "as" &&
    (c.isspace (t.memory.getD 3 0) || c.ispunct (t.memory.getD 3 0))

/-- A text behind the tag `as`. -/
def asChunks (c : Ctype) (t : TextNode) : List Chunk :=
  if t.asForm c = true then
    let s := (t.memory.drop 3).takeWhile (· ≠ 0)
    .copy (t.memory.take 3) :: (s.takeWhile c.isspace).map (fun b => .copy [b]) ++
      [.insert (utf8 "“"), .copy (s.dropWhile c.isspace)]
  else [.insert (utf8 "“")]

/-- The case of a text. -/
def textChunks (c : Ctype) (flags : OutputFlags) (t : TextNode) : List Chunk :=
  if flags.ignore = true then []
  else if flags.as = true then asChunks c t
  else if flags.chem = true then chemChunks t.text.bytes
  else [.copy t.text.bytes]

/-! ## Tags -/

/-- The beginning of a list of tags. -/
def openTag (name : Bytes) (flags : OutputFlags) : List Chunk × OutputFlags :=
  if name = ascii "pr" ∧ flags.nopr = true then ([], { flags with ignore := true })
  else if flags.ignore = true then ([], flags)
  else if name = ascii "as" then ([], { flags with as := true })
  else if isNumberSubscript name = true then ([], { flags with chem := true })
  else if name = ascii "p" then ([.empty (ascii "p")], flags)
  else if isSuperscript name = true then ([.start (ascii "sup") []], flags)
  else if isSubscript name = true then ([.start (ascii "sub") []], flags)
  else if isVerbatim name = true then ([.start name []], flags)
  else
    ((if isParTags name = true then [.empty (ascii "p")] else []) ++
      [.start (if isDiv name = true then ascii "div" else ascii "span")
        (ascii " class='cl-" ++ name ++ ascii "'")], flags)

/-- And its end. -/
def closeTag (name : Bytes) (flags : OutputFlags) : List Chunk × OutputFlags :=
  if name = ascii "pr" ∧ flags.nopr = true then ([], { flags with ignore := false })
  else if flags.ignore = true then ([], flags)
  else if name = ascii "as" then ([.insert (utf8 "”")], flags)
  else if isNumberSubscript name = true then ([], flags)
  else if name = ascii "p" then ([], flags)
  else if isVerbatim name = true then ([.stop name], flags)
  else if isSuperscript name = true then ([.stop (ascii "sup")], flags)
  else if isSubscript name = true then ([.stop (ascii "sub")], flags)
  else if isDiv name = true then ([.stop (ascii "div")], flags)
  else ([.stop (ascii "span")], flags)

/-- The flags without `GOF_AS` and `GOF_CHEM`. -/
def OutputFlags.plain (flags : OutputFlags) : OutputFlags :=
  { flags with as := false, chem := false }

/-- `print_text`: what is written at a visit, and the flags after it. It
always returns 0. -/
def printText (c : Ctype) : TagVisit TextNode → OutputFlags → List Chunk × OutputFlags
  | .unspecified _, flags => ([], flags)
  | .text t, flags => (textChunks c flags t, flags)
  | .opening (name :: _), flags => openTag name flags.plain
  | .closing (name :: _), flags => closeTag name flags.plain
  | _, flags => ([], flags)

/-- The output of a parse tree, from the flags of the database. -/
def outputTree (c : Ctype) (nopr : Bool) (root : GcideTag TextNode) : List Chunk :=
  (root.inorder (fun v st =>
    let r := printText c v st.1
    (false, r.2, st.2 ++ r.1)) ({ nopr := nopr }, [])).2.2

section Flags

variable {flags : OutputFlags} {name : Bytes}

/-- What the beginning of a tag does to the flags. -/
theorem openTag_snd : (openTag name flags).2 =
    if name = ascii "pr" ∧ flags.nopr = true then { flags with ignore := true }
    else if flags.ignore = true then flags
    else if name = ascii "as" then { flags with as := true }
    else if isNumberSubscript name = true then { flags with chem := true }
    else flags := by
  unfold openTag
  simp only [apply_ite Prod.snd, ite_self]

/-- And its end. -/
theorem closeTag_snd : (closeTag name flags).2 =
    if name = ascii "pr" ∧ flags.nopr = true then { flags with ignore := false } else flags := by
  unfold closeTag
  simp only [apply_ite Prod.snd, ite_self]

/-- Neither end of a tag that is not suppressed changes whether the text is
ignored. -/
theorem ignore_openTag (hpr : ¬(name = ascii "pr" ∧ flags.nopr = true)) :
    (openTag name flags).2.ignore = flags.ignore := by
  rw [openTag_snd, if_neg hpr]
  split_ifs <;> rfl

theorem ignore_closeTag (hpr : ¬(name = ascii "pr" ∧ flags.nopr = true)) :
    (closeTag name flags).2.ignore = flags.ignore := by
  rw [closeTag_snd, if_neg hpr]

/-- The pronunciation stays suppressed or not. -/
theorem nopr_openTag : (openTag name flags).2.nopr = flags.nopr := by
  rw [openTag_snd]
  split_ifs <;> rfl

theorem nopr_closeTag : (closeTag name flags).2.nopr = flags.nopr := by
  rw [closeTag_snd]
  split_ifs <;> rfl

/-- Texts are quoted behind the beginning of an `as` that is not ignored. -/
theorem as_openTag : (openTag name flags.plain).2.as = true ↔
    name = ascii "as" ∧ ¬(openTag name flags.plain).2.ignore = true := by
  have hplain : ¬flags.plain.as = true := Bool.false_ne_true
  rw [openTag_snd]
  by_cases hpr : name = ascii "pr" ∧ flags.plain.nopr = true
  · rw [if_pos hpr]
    exact ⟨fun h => absurd h hplain, fun h => absurd rfl h.2⟩
  rw [if_neg hpr]
  by_cases hign : flags.plain.ignore = true
  · rw [if_pos hign]
    exact ⟨fun h => absurd h hplain, fun h => absurd hign h.2⟩
  rw [if_neg hign]
  by_cases has : name = ascii "as"
  · rw [if_pos has]
    exact ⟨fun _ => ⟨has, hign⟩, fun _ => rfl⟩
  rw [if_neg has]
  refine ⟨fun h => absurd h ?_, fun h => absurd h.1 has⟩
  split_ifs <;> exact hplain

theorem as_closeTag : (closeTag name flags.plain).2.as = false := by
  rw [closeTag_snd]
  split_ifs <;> rfl

end Flags

/-! ## One visit after another -/

/-- What is written at some visits. -/
def printVisits (c : Ctype) : List (TagVisit TextNode) → OutputFlags → List Chunk × OutputFlags
  | [], flags => ([], flags)
  | v :: vs, flags =>
    let r := printText c v flags
    let rest := printVisits c vs r.2
    (r.1 ++ rest.1, rest.2)

section Visits

variable {c : Ctype} {flags : OutputFlags} {vs ws : List (TagVisit TextNode)}

theorem printVisits_cons (v : TagVisit TextNode) :
    printVisits c (v :: vs) flags =
      ((printText c v flags).1 ++ (printVisits c vs (printText c v flags).2).1,
        (printVisits c vs (printText c v flags).2).2) := rfl

/-- Visits in two parts. -/
theorem printVisits_append :
    printVisits c (vs ++ ws) flags =
      ((printVisits c vs flags).1 ++ (printVisits c ws (printVisits c vs flags).2).1,
        (printVisits c ws (printVisits c vs flags).2).2) := by
  induction vs generalizing flags with
  | nil => rfl
  | cons v vs ih =>
    rw [List.cons_append, printVisits_cons, printVisits_cons, ih]
    simp only [List.append_assoc]

/-- **The output of a tree is that of its visits.** -/
theorem outputTree_eq (c : Ctype) (nopr : Bool) (root : GcideTag TextNode) :
    outputTree c nopr root = (printVisits c root.visits { nopr := nopr }).1 := by
  have hfold : ∀ (vs : List (TagVisit TextNode)) (st : OutputFlags × List Chunk),
      vs.foldl (fun st v => ((printText c v st.1).2, st.2 ++ (printText c v st.1).1)) st =
        ((printVisits c vs st.1).2, st.2 ++ (printVisits c vs st.1).1) := by
    intro vs
    induction vs with
    | nil => exact fun st => by rw [List.foldl_nil, printVisits, List.append_nil]
    | cons v vs ih =>
      intro st
      rw [List.foldl_cons, ih, printVisits_cons]
      simp only [List.append_assoc]
  rw [outputTree, GcideTag.inorder_eq fun _ _ => rfl]
  simp only [hfold, List.nil_append]

end Visits

end Dico
