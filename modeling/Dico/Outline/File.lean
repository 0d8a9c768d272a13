import Dico.Common.Lines
import Dico.Text.Cstr
import Dico.Text.Select
import Mathlib.Data.List.DropRight
/-!
# Outline files

The outline module reads its file with `fgets` and a buffer of 128 bytes,
and takes every piece that begins with a star for a header. `find_header`
looks for the next one, `read_entry` makes an entry of it and looks for
the one after it to see where the article ends, and `outline_init_db` goes
on as long as there are entries.
-/

namespace Dico

namespace Outline

open Lines (lines cutLine)

/-! ## The file -/

/-- A file open for reading; its size is an `off_t`. -/
structure OutlineFile where
  /-- What is in it. -/
  content : Bytes
  /-- Where the next read begins. -/
  pos : ℕ
  /-- An `off_t` holds the size. -/
  length_lt : content.length < 2 ^ 63
  deriving DecidableEq

namespace OutlineFile

variable (file : OutlineFile)

/-- What has not been read. -/
def rest : Bytes := file.content.drop file.pos

/-- `fgets`: the bytes it puts into a buffer of `size` bytes, and the file
after it. At the end of the file there is no result. -/
def fgets (size : ℕ) : Option (Bytes × OutlineFile) :=
  if file.rest = [] then none
  else
    let piece := cutLine 10 (size - 1) file.rest
    some (piece, { file with pos := file.pos + piece.length })

/-- `fseek (fp, -len, SEEK_CUR)`; in front of the file there is nowhere to
go. -/
def rewind (len : ℕ) : OutlineFile :=
  if len ≤ file.pos then { file with pos := file.pos - len } else file

/-- `ftell`. -/
def ftell : ℕ := file.pos

end OutlineFile

/-- A buffer as the string functions see it. -/
def cstring (buf : Bytes) : Bytes := buf.takeWhile (· ≠ 0)

/-- `trimnl`. -/
def trimnl (buf : Bytes) : Bytes :=
  if (cstring buf).getLast? = some 10 then (cstring buf).dropLast else cstring buf

/-- `trimws`. -/
def trimws (buf : Bytes) : Bytes := (cstring buf).rdropWhile fun c => decide (isSpace c)

/-- The loop over the level of a header. -/
def starLevel (buf : Bytes) : ℕ := (buf.takeWhile (· = 42)).length

/-! ## Headers -/

/-- What `find_header` leaves: the level it returns, the buffer and
`*pread`, which are the caller's, and the file. -/
structure Header where
  /-- The level, zero at the end of the file. -/
  level : ℕ
  /-- The buffer. -/
  buf : Bytes
  /-- `*pread`. -/
  pread : ℕ
  /-- The file. -/
  file : OutlineFile

/-- The loop of `find_header`; each piece takes a byte of the budget. -/
def findHeaderLoop (size : ℕ) : ℕ → OutlineFile → Bytes → ℕ → Header
  | 0, file, buf, pread => ⟨0, buf, pread, file⟩
  | fuel + 1, file, buf, pread =>
    match file.fgets size with
    | none => ⟨0, buf, pread, file⟩
    | some (piece, file) =>
      let rdbytes := (cstring piece).length
      let buf := trimnl piece
      if 0 < buf.length ∧ starLevel buf ≠ 0 then ⟨starLevel buf, buf, rdbytes, file⟩
      else findHeaderLoop size fuel file buf pread

/-- `find_header`. -/
def findHeader (file : OutlineFile) (buf : Bytes) (size pread : ℕ) : Header :=
  findHeaderLoop size (file.content.length + 1) file buf pread

/-- The loop of `skipws`, over lines with nothing in them. -/
def skipwsLoop (size : ℕ) : ℕ → OutlineFile → OutlineFile
  | 0, file => file
  | fuel + 1, file =>
    match file.fgets size with
    | none => file
    | some (piece, file) =>
      if cstring piece = [10] then skipwsLoop size fuel file
      else file.rewind (cstring piece).length

/-- `skipws`. -/
def skipws (file : OutlineFile) (size : ℕ) : OutlineFile :=
  skipwsLoop size (file.content.length + 1) file

/-! ## Entries -/

/-- `struct entry`, but for the peer. -/
structure Entry where
  /-- The word. -/
  word : Bytes
  /-- Its length in bytes. -/
  length : ℕ
  /-- Its length in characters, where `utf8_strlen` stays inside it. -/
  wordlen : Option ℕ
  /-- Where the article begins. -/
  offset : ℕ
  /-- The size of the article. -/
  size : ℕ
  deriving DecidableEq, Repr

/-- `alloc_entry`. -/
def allocEntry (text : Bytes) : Entry := ⟨text, text.length, utf8Strlen text, 0, 0⟩

/-- The size of the buffer of `read_entry`. -/
def bufSize : ℕ := 128

/-- `read_entry`: the level of the entry and the entry, and the file. -/
def readEntry (file : OutlineFile) : Option (ℕ × Entry × OutlineFile) :=
  -- nothing has been put into `rdbytes` yet, and nothing reads it before `find_header` has
  let hd := findHeader file [] bufSize 0
  if hd.level = 0 then none
  else
    let p := (hd.buf.drop hd.level).dropWhile fun c => decide (isSpace c)
    let ep := allocEntry (trimws p)
    let file := skipws hd.file bufSize
    let offset := file.ftell
    let next := findHeader file hd.buf bufSize hd.pread
    let file := next.file.rewind next.pread
    let size := (file.ftell + (2 ^ 64 - offset)) % 2 ^ 64
    some (hd.level, { ep with offset := offset, size := size }, file)

/-! ## The database -/

/-- `STATE_INITIAL` and `STATE_DICT`. -/
inductive LoadState
  | initial
  | dict
  deriving DecidableEq, Repr

/-- What `outline_init_db` collects. -/
structure Loading where
  /-- The state of the loop. -/
  state : LoadState
  /-- The dictionary entries. -/
  list : List Entry
  /-- `info_entry`. -/
  info : Option Entry
  /-- `descr_entry`. -/
  descr : Option Entry
  /-- `lang_entry`. -/
  lang : Option Entry

/-- Nothing yet. -/
def Loading.start : Loading := ⟨.initial, [], none, none, none⟩

/-- The case `STATE_INITIAL` of the switch. -/
def Loading.topLevel (st : Loading) (level : ℕ) (ep : Entry) : Loading :=
  if level = 1 then
    if cStrcaseeq ep.word (ascii "info") then { st with info := some ep }
    else if cStrcaseeq ep.word (ascii "description") then { st with descr := some ep }
    else if cStrcaseeq ep.word (ascii "languages") then { st with lang := some ep }
    else if cStrcaseeq ep.word (ascii "dictionary") then { st with state := .dict }
    else st
  else st

/-- The switch in the loop. A header of the first level ends the
dictionary and is then taken as any other. -/
def Loading.dispatch (st : Loading) (level : ℕ) (ep : Entry) : Loading :=
  match st.state with
  | .dict =>
    if level = 2 then { st with list := st.list ++ [ep] }
    else if level = 1 then { st with state := .initial }.topLevel level ep
    else st
  | .initial => st.topLevel level ep

/-- The loop of `outline_init_db`; it has an end only if the budget
suffices. -/
def initDbLoop : ℕ → OutlineFile → Loading → Option Loading
  | 0, _, _ => none
  | fuel + 1, file, st =>
    match readEntry file with
    | none => some st
    | some (level, ep, file) => initDbLoop fuel file (st.dispatch level ep)

/-- The entries the loop reads, and their levels. -/
def readEntries : ℕ → OutlineFile → Option (List (ℕ × Entry))
  | 0, _ => none
  | fuel + 1, file =>
    match readEntry file with
    | none => some []
    | some (level, ep, file) => (readEntries fuel file).map ((level, ep) :: ·)

/-- The loop collects from the entries it reads. -/
theorem initDbLoop_eq (fuel : ℕ) (file : OutlineFile) (st : Loading) :
    initDbLoop fuel file st =
      (readEntries fuel file).map (List.foldl (fun st e => st.dispatch e.1 e.2) st) := by
  induction fuel generalizing file st with
  | zero => rfl
  | succ fuel ih =>
    rw [initDbLoop, readEntries]
    cases readEntry file with
    | none => rfl
    | some r =>
      obtain ⟨level, ep, file⟩ := r
      dsimp only
      rw [ih, Option.map_map]
      rfl

/-! ## Pieces and headers -/

section Pieces

variable {file : OutlineFile} {piece l : Bytes} {ls : List Bytes}

/-- The file some bytes further on. -/
def OutlineFile.advance (file : OutlineFile) (k : ℕ) : OutlineFile :=
  { file with pos := file.pos + k }

/-- What it has left. -/
theorem rest_advance (file : OutlineFile) (k : ℕ) : (file.advance k).rest = file.rest.drop k := by
  rw [OutlineFile.rest, OutlineFile.rest, List.drop_drop]
  rfl

/-- One read, in terms of lines. -/
theorem fgets_eq (h : lines 10 file.rest = l :: ls) (n : ℕ) :
    file.fgets (n + 1) = some (l.take n, file.advance (l.take n).length) := by
  have hne : file.rest ≠ [] := by
    intro hnil
    rw [hnil] at h
    cases h
  rw [OutlineFile.fgets, if_neg hne, Nat.add_sub_cancel, Lines.cutLine_eq h]
  rfl

/-- And at the end. -/
theorem fgets_eq_none (h : file.rest = []) (size : ℕ) : file.fgets size = none := if_pos h

/-- What is left of a piece without its newline begins as the piece does. -/
theorem trimnl_isPrefix (piece : Bytes) : trimnl piece <+: piece := by
  rw [trimnl]
  split_ifs
  · exact (List.dropLast_prefix _).trans (List.takeWhile_prefix _)
  · exact List.takeWhile_prefix _

/-- A star in front stays there. -/
theorem trimnl_star (r : Bytes) : ∃ q, trimnl (42 :: r) = 42 :: q := by
  have hcons : cstring (42 :: r) = 42 :: cstring r := List.takeWhile_cons_of_pos (by decide)
  rw [trimnl, hcons]
  split_ifs with hlast
  · cases hr : cstring r with
    | nil =>
      rw [hr] at hlast
      exact absurd hlast (by decide)
    | cons b q => exact ⟨_, rfl⟩
  · exact ⟨_, rfl⟩

/-- **The pieces `find_header` stops at** are those that begin with a
star. -/
theorem header_iff :
    (0 < (trimnl piece).length ∧ starLevel (trimnl piece) ≠ 0) ↔ piece.head? = some 42 := by
  constructor
  · rintro ⟨-, hstar⟩
    obtain ⟨r, hr⟩ := trimnl_isPrefix piece
    cases ht : trimnl piece with
    | nil =>
      rw [ht] at hstar
      exact absurd rfl hstar
    | cons b q =>
      rw [ht] at hr hstar
      rw [← hr, List.cons_append, List.head?_cons]
      by_contra hb
      rw [starLevel, List.takeWhile_cons_of_neg
        (by rw [decide_eq_true_iff]; exact fun h => hb (congrArg some h))] at hstar
      exact hstar rfl
  · intro h
    cases piece with
    | nil => cases h
    | cons b r =>
      obtain rfl := Option.some.inj h
      obtain ⟨q, hq⟩ := trimnl_star r
      rw [hq, starLevel, List.takeWhile_cons_of_pos (by decide), List.length_cons,
        List.length_cons]
      exact ⟨by omega, by omega⟩

/-- The most a read puts into the buffer. -/
def room : ℕ := bufSize - 1

/-- A line none of whose pieces begins with a star. -/
def Quiet (l : Bytes) : Prop := ∀ k, l[room * k]? ≠ some 42

/-- Its first piece does not, and the others are those of its rest. -/
theorem quiet_iff : Quiet l ↔ l.head? ≠ some 42 ∧ Quiet (l.drop room) := by
  have hdrop : ∀ k, (l.drop room)[room * k]? = l[room * (k + 1)]? := by
    intro k
    rw [List.getElem?_drop, Nat.mul_succ, Nat.add_comm]
  constructor
  · intro h
    refine ⟨?_, fun k => hdrop k ▸ h (k + 1)⟩
    have h₀ := h 0
    rwa [Nat.mul_zero, ← List.head?_eq_getElem?] at h₀
  · rintro ⟨hhead, htail⟩ k
    cases k with
    | zero =>
      rw [Nat.mul_zero, ← List.head?_eq_getElem?]
      exact hhead
    | succ k =>
      rw [← hdrop]
      exact htail k

/-- A line that fits has no other piece. -/
theorem quiet_of_le (hle : l.length ≤ room) (h : l.head? ≠ some 42) : Quiet l := by
  rw [quiet_iff, List.drop_eq_nil_of_le hle]
  exact ⟨h, fun k hk => by rw [List.getElem?_nil] at hk; cases hk⟩

end Pieces

end Outline

end Dico
