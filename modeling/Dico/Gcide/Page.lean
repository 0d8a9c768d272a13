import Dico.Common.Memory
import Dico.Text.Compare
import Dico.Text.Cstr
import Dico.Text.Select
/-!
# The index file of a GCIDE dictionary

The index is a file of pages. A page is a header, an array of references,
and from its middle on the text of their headwords. A reference says where
in the page its headword is, and where in the dictionary its article is.
The layout is the one `struct gcide_idx_page` has on a little-endian
machine with 64-bit `unsigned long` and pointers, as what is written is
the memory itself.

Reading has no result where it touches memory outside a page.
-/

namespace Dico

namespace Gcide

open Memory (peek poke toLe ofLe getWord setWord)

/-- How a program ends, but for returning. -/
inductive Stop
  /-- An access outside a block. -/
  | bounds
  /-- A comparison of a code point that was never set. -/
  | unset
  /-- An `int` counts beyond its range. -/
  | overflow
  /-- `exit`. -/
  | exit
  /-- A loop ran past its budget. -/
  | loop
  deriving DecidableEq, Repr

/-- An access, where it is inside its block. -/
def inside {α : Type} : Option α → Except Stop α
  | some a => .ok a
  | none => .error .bounds

/-- What was read or written inside a page. -/
theorem inside_eq_ok {α : Type} {o : Option α} {a : α} : inside o = .ok a ↔ o = some a := by
  cases o with
  | none => exact iff_of_false nofun nofun
  | some b => rw [inside, Except.ok.injEq, Option.some_inj]

/-- A comparison, where the code points were set. -/
def compared : Option ℤ → Except Stop ℤ
  | some rc => .ok rc
  | none => .error .unset

/-! ## References -/

/-- `struct gcide_ref`. -/
structure Ref where
  /-- Where in the page the headword is. -/
  hwoff : UInt64
  /-- Its length in characters. -/
  hwlen : UInt64
  /-- Its length in bytes, with the null byte. -/
  hwbytelen : UInt64
  /-- The letter in the name of the dictionary file. -/
  letter : Int32
  /-- Where the article begins. -/
  offset : UInt64
  /-- Its size. -/
  size : UInt64
  /-- The address in `ref_headword`. -/
  addr : UInt64
  /-- The string there. -/
  headword : Bytes
  deriving DecidableEq, Repr

/-- `sizeof(struct gcide_ref)`, which is also the size of the header of a
page, a union with it. -/
def refSize : ℕ := 56

/-- The memory of a reference; four bytes of padding follow the letter. -/
def Ref.bytes (ref : Ref) : Bytes :=
  toLe 8 ref.hwoff.toNat ++ toLe 8 ref.hwlen.toNat ++ toLe 8 ref.hwbytelen.toNat ++
    toLe 4 ref.letter.toUInt32.toNat ++ toLe 4 0 ++ toLe 8 ref.offset.toNat ++
    toLe 8 ref.size.toNat ++ toLe 8 ref.addr.toNat

/-- `page->ipg_ref[i]`, with `ref_headword` set to point into the page:
addresses in a page are offsets into it. -/
def refAt (page : Bytes) (i : ℕ) : Except Stop Ref := do
  let w ← inside (peek page (refSize * (i + 1)) refSize)
  let word := fun k => ofLe ((w.drop k).take 8)
  let headword ← inside (strAt page (word 0)).toOption
  .ok {
    hwoff := UInt64.ofNat (word 0)
    hwlen := UInt64.ofNat (word 8)
    hwbytelen := UInt64.ofNat (word 16)
    letter := (UInt32.ofNat (ofLe ((w.drop 24).take 4))).toInt32
    offset := UInt64.ofNat (word 32)
    size := UInt64.ofNat (word 40)
    addr := UInt64.ofNat (word 0)
    headword := headword }

/-! ## The file -/

/-- `struct gcide_idx_file`: what the header says, and the file. -/
structure IdxFile where
  /-- `ihdr_pagesize`. -/
  pagesize : ℕ
  /-- `ihdr_num_pages`. -/
  numPages : ℕ
  /-- What is in the file. -/
  content : Bytes
  deriving DecidableEq, Repr

/-- `_idx_get_page`: the references of a page, or none where the file does
not have so much. No page is ever found in the cache. -/
def getPage (file : IdxFile) (n : ℕ) : Except Stop (Option (List Ref)) :=
  match peek file.content ((n + 1) * file.pagesize) file.pagesize with
  | none => .ok none
  | some page => do
    let numentries ← inside (getWord page 0)
    let refs ← (List.range numentries).mapM (refAt page)
    .ok (some refs)

/-- There is no page where the file ends before it. -/
theorem getPage_eq_none {file : IdxFile} {n : ℕ}
    (h : file.content.length < (n + 1) * file.pagesize + file.pagesize) :
    getPage file n = .ok none := by
  rw [getPage, peek, if_neg (by omega)]

section Enumerate

variable {σ : Type}

/-- The loop of `gcide_idx_enumerate` over the references of a page, of
which `j` are behind; `fun` returns whether to leave the page. -/
def enumeratePage (f : σ → Ref → Bool × σ) : ℕ → List Ref → σ → Except Stop σ
  | _, [], s => .ok s
  | j, ref :: refs, s =>
    if (f s ref).1 then .ok (f s ref).2
    else if j + 1 = 2 ^ 31 then .error .overflow
    else enumeratePage f (j + 1) refs (f s ref).2

/-- Its loop over the pages: `m` of them, from `i` on. -/
def enumerateLoop (file : IdxFile) (f : σ → Ref → Bool × σ) : ℕ → ℕ → σ → Except Stop (ℤ × σ)
  | 0, _, s => .ok (0, s)
  | m + 1, i, s => do
    let page ← getPage file i
    match page with
    | none => .ok (-1, s)
    | some refs => do
      let s ← enumeratePage f 0 refs s
      enumerateLoop file f m (i + 1) s

/-- `gcide_idx_enumerate`. -/
def enumerate (file : IdxFile) (f : σ → Ref → Bool × σ) (data : σ) : Except Stop (ℤ × σ) :=
  enumerateLoop file f file.numPages 0 data

end Enumerate

/-! ## Searching -/

/-- `_compare`. -/
def compare (headword : Bytes) (ref : Ref) (hwlen : ℕ) : Except Stop ℤ :=
  if hwlen ≠ 0 then
    let hwlen := if ref.hwlen.toNat < hwlen then ref.hwlen.toNat else hwlen
    compared (utf8Strncasecmp headword ref.headword hwlen)
  else compared (utf8Strcasecmp headword ref.headword)

/-- The loop of `utf8_strncasecmp`, when the first string is a block without
a null byte: reading on behind it has no result. -/
def blockcmpLoop (maxlen fuel asz : ℕ) (a b : Bytes) : Except Stop ℤ :=
  if asz < maxlen then
    match fuel, a, b with
    | _, [], _ => .error .bounds
    | _, _ :: _, [] => .ok 1
    | 0, _ :: _, _ :: _ => .error .loop
    | fuel + 1, c :: a, d :: b =>
      if (c :: a).length < utf8CharWidth (c :: a) then .error .bounds
      else
        match headCasecmp (c :: a) (d :: b) with
        | none => .error .unset
        | some (rc, a, b) =>
          if rc ≠ 0 then .ok rc else blockcmpLoop maxlen fuel ((asz + 1) % 2 ^ 32) a b
  else .ok 0
termination_by structural fuel

/-- The loop of `_idx_ref_locate`. -/
def refLocateLoop (page : List Ref) (headword : Bytes) (hwlen : ℕ) :
    ℕ → ℕ → ℕ → Except Stop (Option ℕ)
  | 0, _, _ => .error .loop
  | fuel + 1, l, u =>
    if l < u then do
      let idx := (l + u) / 2
      let ref ← inside page[idx]?
      let res ← compare headword ref hwlen
      if res < 0 then refLocateLoop page headword hwlen fuel l idx
      else if 0 < res then refLocateLoop page headword hwlen fuel (idx + 1) u
      else .ok (some idx)
    else .ok none

/-- `_idx_ref_locate`. -/
def refLocate (page : List Ref) (headword : Bytes) (hwlen : ℕ) : Except Stop (Option ℕ) :=
  refLocateLoop page headword hwlen (page.length + 1) 0 page.length

/-- The loop of `_idx_page_locate`. -/
def pageLocateLoop (file : IdxFile) (headword : Bytes) (hwlen : ℕ) :
    ℕ → ℕ → ℕ → Except Stop (Option ℕ)
  | 0, _, _ => .error .loop
  | fuel + 1, l, u =>
    if l < u then do
      let idx := (l + u) / 2
      let page ← getPage file idx
      match page with
      | none => .ok none
      | some page => do
        let ref ← inside page[0]?
        let res ← compare headword ref hwlen
        if res < 0 then pageLocateLoop file headword hwlen fuel l idx
        else if res = 0 then .ok (some idx)
        else do
          let ref ← inside page[page.length - 1]?
          let res ← compare headword ref hwlen
          if 0 < res then pageLocateLoop file headword hwlen fuel (idx + 1) u
          else .ok (some idx)
    else .ok none

/-- `_idx_page_locate`. -/
def pageLocate (file : IdxFile) (headword : Bytes) (hwlen : ℕ) : Except Stop (Option ℕ) :=
  pageLocateLoop file headword hwlen (file.numPages + 1) 0 file.numPages

/-- `struct gcide_iterator`. -/
structure Iterator where
  /-- The headword this iterator tracks. -/
  headword : Bytes
  /-- Its length. -/
  hwlen : ℕ
  /-- The number of the start page. -/
  startPageno : ℕ
  /-- The number of the start reference in the page. -/
  startRefno : ℕ
  /-- The number of the current page. -/
  curPageno : ℕ
  /-- The number of the current reference in the page. -/
  curRefno : ℕ
  /-- The number of references in the current page. -/
  pageNumrefs : ℕ
  /-- The number of references to the headword, zero if not yet
  determined. -/
  numrefs : ℕ
  /-- The position in the iterator. -/
  curref : ℕ
  deriving DecidableEq, Repr

/-- The loop of `gcide_idx_locate` that is to go back to the first
reference: the page it ends in, the number of that page and of the
reference, or none where a page cannot be read. -/
def backLoop (file : IdxFile) (headword : Bytes) (hwlen : ℕ) :
    ℕ → List Ref → ℕ → ℕ → Except Stop (Option (List Ref × ℕ × ℕ))
  | 0, _, _, _ => .error .loop
  | fuel + 1, page, pageno, refno => do
    let ref ← inside page[refno]?
    let res ← compare headword ref hwlen
    if res = 0 then .ok (some (page, pageno, refno))
    else do
      let prev ← inside (if refno = 0 then none else page[refno - 1]?)
      let res ← compare headword prev hwlen
      if 0 < res then .ok (some (page, pageno, refno))
      else if refno - 1 = 0 then
        if pageno = 0 then .ok (some (page, pageno, 0))
        else do
          let page ← getPage file (pageno - 1)
          match page with
          | none => .ok none
          | some page => backLoop file headword hwlen fuel page (pageno - 1) page.length
      else backLoop file headword hwlen fuel page pageno (refno - 1)

/-- The copy of the headword that an iterator keeps: of a prefix as many
bytes as it has characters, and no null byte. -/
def copyHeadword (headword : Bytes) (hwlen : ℕ) : Except Stop Bytes :=
  if hwlen ≠ 0 then inside (peek (headword ++ [0]) 0 hwlen) else .ok headword

/-- The iterator at a position. -/
def Iterator.create (headword : Bytes) (hwlen : ℕ) (page : List Ref) (pageno refno : ℕ) :
    Iterator where
  headword := headword
  hwlen := hwlen
  startPageno := pageno
  startRefno := refno
  curPageno := pageno
  curRefno := refno
  pageNumrefs := page.length
  numrefs := 0
  curref := 0

/-- `gcide_idx_locate`. -/
def locate (file : IdxFile) (headword : Bytes) (hwlen : ℕ) : Except Stop (Option Iterator) := do
  let pageno ← pageLocate file headword hwlen
  match pageno with
  | none => .ok none
  | some pageno => do
    let page ← getPage file pageno
    match page with
    | none => .ok none
    | some page => do
      let refno ← refLocate page headword hwlen
      match refno with
      | none => .ok none
      | some refno => do
        -- every turn of the loop steps back, and a page has fewer references than bytes
        let found ← backLoop file headword hwlen ((pageno + 1) * (file.pagesize + 1)) page
          pageno refno
        match found with
        | none => .ok none
        | some (page, pageno, refno) => do
          let copy ← copyHeadword headword hwlen
          if refno = page.length then
            .ok (some (Iterator.create copy hwlen page (pageno + 1) 0))
          else .ok (some (Iterator.create copy hwlen page pageno refno))

/-- `_compare` with the copy of the headword. -/
def Iterator.compare (itr : Iterator) (ref : Ref) : Except Stop ℤ :=
  if itr.hwlen ≠ 0 then
    let hwlen := if ref.hwlen.toNat < itr.hwlen then ref.hwlen.toNat else itr.hwlen
    if 0 ∈ itr.headword then
      compared (utf8Strncasecmp (itr.headword.takeWhile (· ≠ 0)) ref.headword hwlen)
    else blockcmpLoop hwlen itr.headword.length 0 itr.headword ref.headword
  else Gcide.compare itr.headword ref 0

/-- Where `gcide_iterator_next` looks for the next reference, unless it
knows that there is none. -/
def Iterator.nextPos (file : IdxFile) (itr : Iterator) : Option (ℕ × ℕ) :=
  if itr.curRefno < itr.pageNumrefs - 1 then some (itr.curPageno, itr.curRefno + 1)
  else if itr.curPageno = file.numPages then none
  else some (itr.curPageno + 1, 0)

/-- `gcide_iterator_next`: whether it returned zero, and the iterator. -/
def iteratorNext (file : IdxFile) (itr : Iterator) : Except Stop (Bool × Iterator) :=
  if itr.numrefs ≠ 0 ∧ itr.curref = itr.numrefs - 1 then .ok (false, itr)
  else
    match itr.nextPos file with
    | none => .ok (false, if itr.numrefs = 0 then { itr with numrefs := itr.curref + 1 } else itr)
    | some (pageno, refno) => do
      let page ← getPage file pageno
      match page with
      | none => .ok (false, itr)
      | some page => do
        let differs ← if itr.numrefs = 0 then do
            let ref ← inside page[refno]?
            let res ← itr.compare ref
            .ok (res ≠ 0 : Bool)
          else .ok false
        if differs then .ok (false, { itr with numrefs := itr.curref + 1 })
        else .ok (true, { itr with
          pageNumrefs := page.length, curPageno := pageno, curRefno := refno,
          curref := itr.curref + 1 })

/-- `gcide_iterator_rewind`: whether it returned zero, and the iterator. -/
def iteratorRewind (file : IdxFile) (itr : Iterator) : Except Stop (Bool × Iterator) := do
  let itr := { itr with curPageno := itr.startPageno, curRefno := itr.startRefno, curref := 0 }
  let page ← getPage file itr.curPageno
  match page with
  | none => .ok (false, itr)
  | some page => .ok (true, { itr with pageNumrefs := page.length })

/-- `gcide_iterator_ref`. -/
def iteratorRef (file : IdxFile) (itr : Iterator) : Except Stop (Option Ref) := do
  let page ← getPage file itr.curPageno
  match page with
  | none => .ok none
  | some page => do
    let ref ← inside page[itr.curRefno]?
    .ok (some ref)

end Gcide

end Dico
