import Dico.Common.Run
import Dico.Gcide.MarkupInput
import Dico.Gcide.Scanner
import Dico.Gcide.Tree
/-!
# The parser of the markup

`gcide_markup_parse`, with the actions of the scanner, for memory that does
not run out. The texts of an article are stored one behind another in the
text space, which `text_add_str` doubles where there is no room: once, which
may not be enough. `wordsplit` splits the text of a tag into words; where it
fails the parser begins anew, and the scanner goes on.
-/

namespace Dico

/-- The text space: what is stored there, `textsize`, and `textstart`. The
position `textpos` is behind what is stored. -/
structure TextSpace where
  bytes : Bytes
  size : ℕ
  start : ℕ
  deriving DecidableEq

/-- `textpos`. -/
def TextSpace.pos (sp : TextSpace) : ℕ := sp.bytes.length

/-- `text_add_str`. -/
def textAddStr (s : Bytes) (sp : TextSpace) : Except Fault TextSpace :=
  let rest := sp.size - sp.pos
  let size := if rest < s.length then 2 * sp.size else sp.size
  if sp.pos + s.length ≤ size then .ok { sp with bytes := sp.bytes ++ s, size := size }
  else .error .bounds

/-- `text_segment_finish`. -/
def textSegmentFinish (sp : TextSpace) : Except Fault (ℕ × TextSpace) := do
  let sp' ← textAddStr [0] sp
  .ok (sp.start, { sp' with start := sp'.pos })

/-! ## The tree -/

/-- A tag that is open: its words, and the tags in it so far. A text is the
position where it is stored. -/
structure UnclosedTag where
  parmv : List Bytes
  tags : List (GcideTag ℕ)

/-- The tag it becomes. -/
def UnclosedTag.close (t : UnclosedTag) : GcideTag ℕ :=
  match t.tags with
  | [] => .unspecified t.parmv
  | tags => .taglist t.parmv tags

/-- The state of the parser: the text space, the tags of the root, the tags
that are open in it, `current_tag` first, and `in_grk`. A tag is put into
the one around it when it is closed, where the source does it before: what
is appended in between goes into the inner one. -/
structure MarkupParser where
  space : TextSpace
  root : List (GcideTag ℕ)
  opened : List UnclosedTag
  inGrk : Bool

/-- The state `gcide_markup_parse` sets. It leaves `in_grk` as it is. -/
def MarkupParser.start (len : ℕ) (inGrk : Bool) : MarkupParser where
  space := ⟨[], 2 * len, 0⟩
  root := []
  opened := []
  inGrk := inGrk

/-- `append_tag`. -/
def appendTag (tag : GcideTag ℕ) (p : MarkupParser) : MarkupParser :=
  match p.opened with
  | [] => { p with root := p.root ++ [tag] }
  | t :: ts => { p with opened := { t with tags := t.tags ++ [tag] } :: ts }

/-- Whether the words of a tag begin with `grk`. -/
def isGrk (parmv : List Bytes) : Bool := parmv.head? == some (ascii "grk")

/-- `push_tag`. -/
def pushTag (parmv : List Bytes) (p : MarkupParser) : MarkupParser :=
  { p with opened := ⟨parmv, []⟩ :: p.opened, inGrk := isGrk parmv }

/-- `pop_tag`. -/
def popTag (tagstr : Bytes) (p : MarkupParser) : MarkupParser :=
  let name := tagstr.takeWhile fun b => b ≠ 32 && b ≠ 9
  let inGrk := if name = ascii "grk" then false else p.inGrk
  match p.opened with
  | [] => { p with inGrk := inGrk }
  | t :: ts =>
    if t.parmv.head? = some name then
      appendTag t.close { p with opened := ts, inGrk := inGrk }
    else { p with inGrk := inGrk }

/-- A text segment that is not empty becomes a tag. -/
def finishText (p : MarkupParser) : Except Fault MarkupParser :=
  if p.space.pos - p.space.start = 0 then .ok p
  else do
    let r ← textSegmentFinish p.space
    .ok (appendTag (.text r.1) { p with space := r.2 })

/-! ## The scanner -/

/-- The text that is stored for a token. -/
def MarkupToken.text (inGrk : Bool) : MarkupToken → Bytes
  | .entity c s => (gcideEntityToUtf8 (60 :: c :: (s ++ [47]))).getD []
  | .accent c => if inGrk = true then [c] else []
  | .escape a b => (gcideEscapeToUtf8 a b).getD [92, 39, a, b]
  | .char c => [c]
  | _ => []

section Parse

variable (wordsplit : Bytes → Option (List Bytes)) (len : ℕ)

/-- The action of a token. Where `alloc_tag` fails, `gcide_markup_parse`
sets its state again. -/
def scanAction : MarkupToken → MarkupParser → Except Fault MarkupParser
  | .opening c s, p => do
    let p ← finishText p
    match wordsplit (c :: s) with
    | none => .ok (.start len p.inGrk)
    | some parmv => .ok (pushTag parmv p)
  | .closing c s, p => do
    let p ← finishText p
    .ok (popTag (c :: s) p)
  | t, p => do
    let sp ← textAddStr (t.text p.inGrk) p.space
    .ok { p with space := sp }

/-! ## The end -/

/-- The tags that are still open, put into each other. -/
def closeTags (opened : List UnclosedTag) : List (GcideTag ℕ) :=
  opened.foldl (fun inner t => [UnclosedTag.close { t with tags := t.tags ++ inner }]) []

/-- The root of the tree. -/
def MarkupParser.tree (p : MarkupParser) : GcideTag ℕ :=
  UnclosedTag.close ⟨[], p.root ++ closeTags p.opened⟩

/-- The loop of `greek_translit`, over what is left of the text. A letter
stands for one byte at least. -/
def greekLoop : Bytes → TextSpace → Except Fault TextSpace
  | [], sp => .ok sp
  | c :: s, sp =>
    match gcideGrkToUtf8 (c :: s) with
    | some (greek, rd) => do
      let sp ← textAddStr greek sp
      greekLoop (s.drop (rd - 1)) sp
    | none => do
      let sp ← textAddStr [c] sp
      greekLoop s sp
termination_by s => s.length
decreasing_by
  · rw [List.length_drop]
    exact Nat.lt_succ_of_le (Nat.sub_le _ _)
  · exact Nat.lt_succ_self _

/-- `greek_translit`. It adds behind the text it reads. -/
def greekTranslit (n : ℕ) (sp : TextSpace) : Except Fault (ℕ × TextSpace) := do
  let s ← strAt sp.bytes n
  let sp ← greekLoop s sp
  textSegmentFinish sp

mutual

/-- `early_fixup`: the texts of the tags `grk` are transliterated. -/
def earlyFixup (translate : Bool) : GcideTag ℕ → TextSpace → Except Fault (GcideTag ℕ × TextSpace)
  | .unspecified parmv, sp => .ok (.unspecified parmv, sp)
  | .text n, sp =>
    if translate = true then do
      let r ← greekTranslit n sp
      .ok (.text r.1, r.2)
    else .ok (.text n, sp)
  | .taglist parmv tags, sp => do
    let r ← earlyFixupAll (isGrk parmv) tags sp
    .ok (.taglist parmv r.1, r.2)

/-- `dico_list_iterate`, with `early_fixup`. -/
def earlyFixupAll (translate : Bool) :
    List (GcideTag ℕ) → TextSpace → Except Fault (List (GcideTag ℕ) × TextSpace)
  | [], sp => .ok ([], sp)
  | t :: ts, sp => do
    let r ← earlyFixup translate t sp
    let rs ← earlyFixupAll translate ts r.2
    .ok (r.1 :: rs.1, rs.2)

end

/-- `gcide_markup_parse`, of an article that is read in blocks of some
sizes: the tree, with the positions of its texts, and the text space. -/
def gcideMarkupParse (inGrk : Bool) (sizes : List ℕ) (text : Bytes) :
    Except Fault (GcideTag ℕ × TextSpace) := do
  let input := (yyInputs sizes (markupInput text)).1
  let p ← Run.run (scanAction wordsplit text.length) (markupTokens input)
    (.start text.length inGrk)
  let p ← finishText p
  earlyFixup false p.tree p.space

end Parse

end Dico
