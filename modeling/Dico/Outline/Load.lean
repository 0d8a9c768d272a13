import Dico.Outline.Header
/-!
# Loading an outline file

`read_entry` goes back by the length of the header it has found last. At
the end of the file it has found none, and what it goes back by is the
length of the header the entry began with: the article ends before the
end of the file, and the bytes behind its end are read again. Where they
hold the header itself, they are read forever.
-/

namespace Dico

namespace Outline

open Lines (lines)

section Positions

variable {file : OutlineFile}

/-- Going back over bytes that were read. -/
theorem rewind_pos {len : ℕ} (h : len ≤ file.pos) : (file.rewind len).pos = file.pos - len := by
  rw [OutlineFile.rewind, if_pos h]

/-- The file is the same file. -/
theorem rewind_content (len : ℕ) : (file.rewind len).content = file.content := by
  rw [OutlineFile.rewind]
  split_ifs
  · rfl
  · rfl

/-- A read moves forward, within the file. -/
theorem fgets_pos {size : ℕ} {piece : Bytes} {file' : OutlineFile}
    (h : file.fgets size = some (piece, file')) :
    file'.content = file.content ∧ file'.pos = file.pos + piece.length ∧
      file'.pos ≤ file.content.length := by
  rw [OutlineFile.fgets] at h
  split_ifs at h with hrest
  obtain ⟨rfl, rfl⟩ := Prod.mk.inj (Option.some.inj h)
  obtain ⟨l, ls, hl⟩ := Lines.exists_lines 10 hrest
  refine ⟨rfl, rfl, ?_⟩
  have hflat := congrArg List.length (Lines.flatten_lines 10 file.rest)
  have hlen := List.length_pos_of_ne_nil hrest
  rw [hl, List.flatten_cons, List.length_append] at hflat
  rw [OutlineFile.rest, List.length_drop] at hflat hlen
  rw [Lines.cutLine_eq hl, List.length_take]
  dsimp only
  omega

/-- A string is not longer than its buffer. -/
theorem length_cstring_le (buf : Bytes) : (cstring buf).length ≤ buf.length :=
  (List.takeWhile_prefix _).length_le

/-- `skipws` does not go behind where it began. -/
theorem skipwsLoop_pos (size fuel : ℕ) (file : OutlineFile)
    (hle : file.pos ≤ file.content.length) :
    (skipwsLoop size fuel file).content = file.content ∧
      file.pos ≤ (skipwsLoop size fuel file).pos ∧
      (skipwsLoop size fuel file).pos ≤ file.content.length := by
  induction fuel generalizing file with
  | zero => exact ⟨rfl, le_rfl, hle⟩
  | succ fuel ih =>
    rw [skipwsLoop]
    cases hget : file.fgets size with
    | none => exact ⟨rfl, le_rfl, hle⟩
    | some r =>
      obtain ⟨piece, file'⟩ := r
      obtain ⟨hcontent, hpos, hend⟩ := fgets_pos hget
      dsimp only
      split_ifs
      · obtain ⟨hc, hlo, hhi⟩ := ih file' (by rw [hcontent]; exact hend)
        rw [hcontent] at hc hhi
        exact ⟨hc, by omega, hhi⟩
      · have hback := length_cstring_le piece
        rw [rewind_content, rewind_pos (by omega), hcontent]
        exact ⟨rfl, by omega, by omega⟩

/-- **Where `find_header` leaves the file**: at its end with `*pread`
untouched, or behind a header, which has at least its star, and whose
length is in `*pread`. -/
theorem findHeader_pos (file : OutlineFile) (hle : file.pos ≤ file.content.length) (buf : Bytes)
    (pread : ℕ) {hd : Header} (hhd : findHeader file buf bufSize pread = hd) :
    hd.file.content = file.content ∧
      ((hd.level = 0 ∧ hd.pread = pread ∧ hd.file.pos = file.content.length) ∨
        (hd.level ≠ 0 ∧ 1 ≤ hd.pread ∧ file.pos + hd.pread ≤ hd.file.pos ∧
          hd.file.pos ≤ file.content.length)) := by
  rcases findHeader_cases file buf pread with ⟨-, hlevel, hpread, hfile⟩ | ⟨before, l, after, k, hs⟩
  · rw [hhd] at hlevel hpread hfile
    rw [hfile]
    refine ⟨rfl, .inl ⟨hlevel, hpread, ?_⟩⟩
    rw [OutlineFile.advance, OutlineFile.rest, List.length_drop]
    dsimp only
    omega
  · have hlevel := hs.level_pos
    have hhead := hs.head_piece
    have hpiece := piece_le hs.star
    have hheader := hs.header
    have hflat := congrArg List.length (Lines.flatten_lines 10 file.rest)
    rw [hs.split, List.flatten_append, List.flatten_cons, List.length_append,
      List.length_append, OutlineFile.rest, List.length_drop] at hflat
    rw [hhd] at hlevel hheader
    generalize (l.drop (room * k)).take room = piece at hhead hpiece hheader
    have hback := length_cstring_le piece
    have hone : 1 ≤ (cstring piece).length := by
      cases piece with
      | nil => cases hhead
      | cons b r =>
        obtain rfl := Option.some.inj hhead
        rw [cstring, List.takeWhile_cons_of_pos (by decide), List.length_cons]
        omega
    subst hheader
    refine ⟨rfl, .inr ⟨by omega, hone, ?_, ?_⟩⟩
    · simp only [OutlineFile.advance]
      omega
    · simp only [OutlineFile.advance]
      omega

end Positions

/-! ## Entries -/

/-- There is an entry just if some piece begins with a star. -/
theorem readEntry_eq_none {file : OutlineFile} :
    readEntry file = none ↔ ∀ l ∈ lines 10 file.rest, Quiet l := by
  rw [readEntry]
  rcases findHeader_cases file [] 0 with ⟨hquiet, hlevel, -, -⟩ | ⟨before, l, after, k, hs⟩
  · dsimp only
    rw [if_pos hlevel]
    exact iff_of_true rfl hquiet
  · have hlevel := hs.level_pos
    dsimp only
    rw [if_neg (by omega)]
    refine iff_of_false (Option.some_ne_none _) fun hquiet => ?_
    exact hquiet l (hs.split ▸ List.mem_append_right _ List.mem_cons_self) k hs.star

/-- The end of an article, wherever it began: the size is the difference
in the arithmetic of `size_t`. -/
theorem offset_add_size_ne {offset pos len : ℕ} (hpos : pos < len) (hoffset : offset ≤ len)
    (hlen : len < 2 ^ 63) : offset + (pos + (2 ^ 64 - offset)) % 2 ^ 64 ≠ len := by
  omega

/-- **Every article ends before the end of the file.** -/
theorem readEntry_end {file file' : OutlineFile} {level : ℕ} {ep : Entry}
    (h : readEntry file = some (level, ep, file')) :
    file'.content = file.content ∧ ep.offset + ep.size ≠ file.content.length := by
  have hle : file.pos ≤ file.content.length := by
    by_contra hgt
    have hrest : file.rest = [] := List.drop_eq_nil_of_le (by omega)
    rw [readEntry_eq_none.2 (by rw [hrest]; exact List.forall_mem_nil _)] at h
    cases h
  rw [readEntry] at h
  dsimp only at h
  split_ifs at h with hlevel
  obtain ⟨-, h⟩ := Prod.mk.inj (Option.some.inj h)
  obtain ⟨rfl, rfl⟩ := Prod.mk.inj h
  obtain ⟨hcontent, hfirst⟩ := findHeader_pos file hle [] 0 rfl
  obtain ⟨-, hone, hread, hend⟩ := hfirst.resolve_left fun h => hlevel h.1
  obtain ⟨hcontent₁, hlo, hhi⟩ := skipwsLoop_pos bufSize
    ((findHeader file [] bufSize 0).file.content.length + 1) (findHeader file [] bufSize 0).file
    (by rw [hcontent]; exact hend)
  rw [← skipws] at hcontent₁ hlo hhi
  rw [hcontent] at hcontent₁ hhi
  generalize skipws (findHeader file [] bufSize 0).file bufSize = file₁ at *
  obtain ⟨hcontent₂, hnext⟩ := findHeader_pos file₁ (by rw [hcontent₁]; exact hhi)
    (findHeader file [] bufSize 0).buf (findHeader file [] bufSize 0).pread rfl
  generalize findHeader file [] bufSize 0 = hd at *
  generalize findHeader file₁ hd.buf bufSize hd.pread = next at *
  rw [hcontent₁] at hcontent₂ hnext
  rw [rewind_content]
  refine ⟨hcontent₂, ?_⟩
  rw [OutlineFile.ftell, OutlineFile.ftell]
  refine offset_add_size_ne ?_ hhi file.length_lt
  -- the file is taken back by one byte at least, whichever header that is the length of
  rcases hnext with ⟨-, hpread, hpos⟩ | ⟨-, hpread, hpos, hlast⟩
  · rw [rewind_pos (by omega)]
    omega
  · rw [rewind_pos (by omega)]
    omega

/-- The entries the loop reads, one after another. -/
theorem readEntries_end {fuel : ℕ} {file : OutlineFile} {es : List (ℕ × Entry)}
    (h : readEntries fuel file = some es) :
    ∀ e ∈ es, e.2.offset + e.2.size ≠ file.content.length := by
  induction fuel generalizing file es with
  | zero => cases h
  | succ fuel ih =>
    rw [readEntries] at h
    cases hread : readEntry file with
    | none =>
      rw [hread] at h
      obtain rfl := Option.some.inj h
      exact List.forall_mem_nil _
    | some r =>
      obtain ⟨level, ep, file'⟩ := r
      obtain ⟨hcontent, hend⟩ := readEntry_end hread
      rw [hread] at h
      obtain ⟨es', hes', rfl⟩ := Option.map_eq_some_iff.1 h
      refine List.forall_mem_cons.2 ⟨hend, ?_⟩
      rw [← hcontent]
      exact ih hes'

/-! ## The loop -/

/-- What is asked of the loop of `outline_init_db`: it comes to an end, and
the article of the last header it found extends to the end of the file. -/
def LoadsWhole (file : OutlineFile) : Prop :=
  ∃ fuel st es, initDbLoop fuel file Loading.start = some st ∧
    readEntries fuel file = some es ∧
    ∀ e ∈ es.getLast?, e.2.offset + e.2.size = file.content.length

/-- **Loading.** The loop does that just if there is nothing to load: no
piece of a line begins with a star. -/
theorem loadsWhole_iff (file : OutlineFile) :
    LoadsWhole file ↔ ∀ l ∈ lines 10 file.rest, Quiet l := by
  rw [← readEntry_eq_none]
  constructor
  · rintro ⟨fuel, st, es, -, hes, hlast⟩
    have hnil : es = [] := by
      by_contra hne
      have hmem := List.getLast_mem hne
      exact readEntries_end hes _ hmem (hlast _ (List.getLast?_eq_some_getLast hne))
    subst hnil
    cases fuel with
    | zero => cases hes
    | succ fuel =>
      rw [readEntries] at hes
      cases hread : readEntry file with
      | none => rfl
      | some r =>
        rw [hread] at hes
        obtain ⟨es, -, hcons⟩ := Option.map_eq_some_iff.1 hes
        cases hcons
  · intro hnone
    refine ⟨1, Loading.start, [], ?_, ?_, ?_⟩
    · rw [initDbLoop, hnone]
    · rw [readEntries, hnone]
    · intro e he
      cases he

/-- A file that is one header. -/
def headerOnly : OutlineFile where
  content := ascii "** a\n"
  pos := 0
  length_lt := by decide

/-- Its entry is read again and again. -/
theorem initDbLoop_headerOnly (fuel : ℕ) (st : Loading) :
    initDbLoop fuel headerOnly st = none := by
  induction fuel generalizing st with
  | zero => rfl
  | succ fuel ih =>
    have hread : readEntry headerOnly =
        some (2, ⟨ascii "a", 1, some 1, 5, 2 ^ 64 - 5⟩, headerOnly) := by
      decide +kernel
    rw [initDbLoop, hread]
    exact ih _

/-- **The loop without an end.** -/
theorem not_loadsWhole_headerOnly : ¬ LoadsWhole headerOnly := by
  rintro ⟨fuel, st, -, hloop, -⟩
  rw [initDbLoop_headerOnly] at hloop
  cases hloop

end Outline

end Dico
