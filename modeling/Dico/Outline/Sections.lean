import Dico.Outline.Load
import Mathlib.Algebra.BigOperators.Group.List.Basic
/-!
# What an outline file says

An outline is a list of sections, each a header, which begins with stars,
and the lines up to the next one. `sectionsOf` reads it so, line by line,
and `articles` says what is in it: a level, a title and a text for each
section. `read_entry` reads the same file with a small buffer, goes back
where it read too far, and keeps positions. What its entries stand for is
what is in the outline (`reads_sections`), if headers fit the buffer
and nothing that is none is taken for one (`Section.Legible`).

There is no header behind the last section to go back to, and the file is
moved back by the length of its own header instead. Its text is cut by as
much (`Section.cut`).
-/

namespace Dico

namespace Outline

open Lines (lines)

/-! ## Sections -/

/-- A header, and the lines up to the next. -/
structure Section where
  /-- The line of the header. -/
  header : Bytes
  /-- The lines behind it. -/
  body : List Bytes

/-- The lines in front of the first header, and the sections. -/
def sectionsOf : List Bytes → List Bytes × List Section
  | [] => ([], [])
  | l :: ls =>
    if l.head? = some 42 then ([], ⟨l, (sectionsOf ls).1⟩ :: (sectionsOf ls).2)
    else (l :: (sectionsOf ls).1, (sectionsOf ls).2)

/-- A text without the blanks around it. -/
def trimmed (text : Bytes) : Bytes :=
  (text.dropWhile fun c => decide (isSpace c)).rdropWhile fun c => decide (isSpace c)

namespace Section

variable (s : Section)

/-- Its lines. -/
def lines : List Bytes := s.header :: s.body

/-- The number of stars. -/
def level : ℕ := starLevel s.header

/-- What the header says behind the stars. -/
def title : Bytes := trimmed (s.header.drop s.level)

/-- The lines with nothing in them that the body begins with. -/
def blanks : List Bytes := s.body.takeWhile fun l => decide (l = [10])

/-- What is behind these. -/
def article : Bytes := (s.body.dropWhile fun l => decide (l = [10])).flatten

/-- The text of the last section as it is seen: without as many bytes at
its end as there are in the header, or whole if there are not so many. -/
def cut : Bytes :=
  if s.article.length < s.header.length then s.article
  else s.article.take (s.article.length - s.header.length)

end Section

/-- What a section is to a reader. -/
structure Article where
  /-- The level. -/
  level : ℕ
  /-- The title. -/
  title : Bytes
  /-- The text. -/
  text : Bytes
  /-- Its size is what it should be and has not wrapped around. -/
  sized : Bool
  deriving DecidableEq

/-- What is in an outline. -/
def articles : List Section → List Article
  | [] => []
  | [s] => [⟨s.level, s.title, s.cut, decide (s.header.length ≤ s.article.length)⟩]
  | s :: ss => ⟨s.level, s.title, s.article, true⟩ :: articles ss

/-- What is in a section and those behind it. -/
theorem articles_cons_cons (s s' : Section) (ss : List Section) :
    articles (s :: s' :: ss) = ⟨s.level, s.title, s.article, true⟩ :: articles (s' :: ss) := rfl

/-- One for each section. -/
theorem length_articles (ss : List Section) : (articles ss).length = ss.length := by
  induction ss with
  | nil => rfl
  | cons s ss ih =>
    cases ss with
    | nil => rfl
    | cons s' ss => exact congrArg (· + 1) ih

/-- The body is the blanks and the article. -/
theorem Section.flatten_body (s : Section) :
    s.body.flatten = s.blanks.flatten ++ s.article := by
  unfold Section.blanks Section.article
  rw [← List.flatten_append, List.takeWhile_append_dropWhile]

/-- The lines are those of the sections, one after another. -/
theorem sectionsOf_lines (ls : List Bytes) :
    (sectionsOf ls).1 ++ (sectionsOf ls).2.flatMap Section.lines = ls := by
  induction ls with
  | nil => rfl
  | cons l ls ih =>
    rw [sectionsOf]
    split_ifs
    · rw [List.flatMap_cons, Section.lines, List.nil_append, List.cons_append, ih]
    · rw [List.cons_append, ih]

/-! ## Lines that are read as they are -/

/-- A line that is no header and is not taken for one. -/
def PlainLine (l : Bytes) : Prop := 0 ∉ l ∧ Quiet l

/-- A header that is seen whole. -/
def HeaderLine (l : Bytes) : Prop := 0 ∉ l ∧ l.head? = some 42 ∧ l.length ≤ room

/-- A section with such lines. -/
def Section.Legible (s : Section) : Prop := HeaderLine s.header ∧ ∀ l ∈ s.body, PlainLine l

/-- A line is one or the other. -/
def LegibleLine (l : Bytes) : Prop := PlainLine l ∨ HeaderLine l

/-- Of such lines there are such sections. -/
theorem sectionsOf_legible {ls : List Bytes} (h : ∀ l ∈ ls, LegibleLine l) :
    (∀ l ∈ (sectionsOf ls).1, PlainLine l) ∧ ∀ s ∈ (sectionsOf ls).2, s.Legible := by
  induction ls with
  | nil => exact ⟨List.forall_mem_nil _, List.forall_mem_nil _⟩
  | cons l ls ih =>
    rw [List.forall_mem_cons] at h
    obtain ⟨htext, hsections⟩ := ih h.2
    rw [sectionsOf]
    split_ifs with hstar
    · refine ⟨List.forall_mem_nil _, List.forall_mem_cons.2 ⟨⟨?_, htext⟩, hsections⟩⟩
      exact h.1.resolve_left fun hplain => hplain.2.head_ne hstar
    · refine ⟨List.forall_mem_cons.2 ⟨?_, htext⟩, hsections⟩
      exact h.1.resolve_right fun hheader => hstar hheader.2.1

section Reading

variable {file : OutlineFile} {before after pre : List Bytes} {l : Bytes} {s s' : Section}
  {ss : List Section}

/-- The string in a line without nulls. -/
theorem cstring_of_notMem (h : 0 ∉ l) : cstring l = l :=
  (List.takeWhile_prefix _).eq_of_length (length_cstring_eq.2 h)

/-- **The header ahead is found.** -/
theorem findHeader_at (h : lines 10 file.rest = before ++ l :: after)
    (hbefore : ∀ b ∈ before, Quiet b) (hl : HeaderLine l) (buf : Bytes) (pread : ℕ) :
    findHeader file buf bufSize pread =
      ⟨starLevel l, trimnl l, l.length, file.advance (before.flatten.length + l.length)⟩ := by
  obtain ⟨hnull, hstar, hfits⟩ := hl
  rcases findHeader_cases file buf pread with ⟨hquiet, -⟩ | ⟨before', l', after', k, hs⟩
  · exact absurd hstar (hquiet l (h ▸ List.mem_append_right _ List.mem_cons_self)).head_ne
  · have hheader := hs.header
    rcases split_cases (hs.split.symm.trans h) with ⟨rfl, rfl⟩ | ⟨m, rfl⟩ | ⟨m, rfl⟩
    · obtain rfl := hs.eq_zero hstar
      rw [Nat.mul_zero, List.drop_zero, List.take_of_length_le hfits, starLevel_trimnl hnull,
        cstring_of_notMem hnull, Nat.add_zero] at hheader
      exact hheader
    · exact absurd hstar (hs.before_quiet l (List.mem_append_right _ List.mem_cons_self)).head_ne
    · exact absurd hs.star (hbefore l' (List.mem_append_right _ List.mem_cons_self) k)

/-- Without one the scan goes to the end. -/
theorem findHeader_end (h : ∀ b ∈ lines 10 file.rest, Quiet b) (buf : Bytes) (pread : ℕ) :
    ∃ rest, findHeader file buf bufSize pread =
      ⟨0, rest, pread, file.advance file.rest.length⟩ := by
  rcases findHeader_cases file buf pread with ⟨-, hlevel, hpread, hfile⟩ | ⟨bs, l', as, k, hs⟩
  · generalize findHeader file buf bufSize pread = hd at hlevel hpread hfile ⊢
    obtain ⟨level, rest, pread', file'⟩ := hd
    dsimp only at hlevel hpread hfile
    rw [hlevel, hpread, hfile]
    exact ⟨rest, rfl⟩
  · exact absurd hs.star (h l' (hs.split ▸ List.mem_append_right _ List.mem_cons_self) k)

/-- The lines ahead, some lines further on. -/
theorem lines_rest_advance (h : lines 10 file.rest = before ++ after) :
    lines 10 (file.advance before.flatten.length).rest = after := by
  rw [rest_advance]
  exact Lines.lines_drop_flatten h

/-- Back from where a read has been. -/
theorem rewind_advance (file : OutlineFile) (k n : ℕ) :
    (file.advance (k + n)).rewind n = file.advance k := by
  unfold OutlineFile.rewind OutlineFile.advance
  dsimp only
  rw [if_pos (by omega)]
  congr 1
  omega

/-- **`skipws` skips the lines with nothing in them**, however many there
are. -/
theorem skipwsLoop_eq {ls : List Bytes} {fuel : ℕ} (h : lines 10 file.rest = ls)
    (hnull : ∀ l ∈ ls, 0 ∉ l) (hfuel : ls.length < fuel) :
    skipwsLoop bufSize fuel file =
      file.advance (ls.takeWhile fun l => decide (l = [10])).flatten.length := by
  induction ls generalizing file fuel with
  | nil =>
    obtain ⟨fuel, rfl⟩ := Nat.exists_eq_succ_of_ne_zero (by omega : fuel ≠ 0)
    rw [skipwsLoop, fgets_eq_none (Lines.eq_nil_of_lines h)]
    rfl
  | cons l ls ih =>
    obtain ⟨fuel, rfl⟩ := Nat.exists_eq_succ_of_ne_zero (by omega : fuel ≠ 0)
    rw [List.length_cons] at hfuel
    rw [List.forall_mem_cons] at hnull
    have hpiece : cstring (l.take room) = l.take room :=
      cstring_of_notMem fun hmem => hnull.1 (List.mem_of_mem_take hmem)
    rw [skipwsLoop, show bufSize = room + 1 from rfl, fgets_eq h]
    dsimp only
    rw [hpiece]
    by_cases hblank : l = [10]
    · subst hblank
      have hsplit : lines 10 file.rest = [[10]] ++ ls := h
      have hnext : lines 10 (file.advance 1).rest = ls := lines_rest_advance hsplit
      rw [if_pos (by decide), List.takeWhile_cons_of_pos (by decide), List.flatten_cons,
        List.length_append, ← advance_advance]
      exact ih hnext hnull.2 (by omega)
    · have hne : l.take room ≠ [10] := by
        intro heq
        have hhead : l.head? = some 10 := by
          have := congrArg List.head? heq
          rwa [List.head?_take, if_neg (by decide)] at this
        exact hblank (Lines.eq_singleton_of_head h hhead)
      rw [if_neg hne, List.takeWhile_cons_of_neg (by rwa [decide_eq_true_iff]), List.flatten_nil,
        List.length_nil]
      have hback := rewind_advance file 0 (l.take room).length
      rwa [Nat.zero_add] at hback

/-- There are no more lines than there are bytes. -/
theorem length_lines_le (text : Bytes) : (lines 10 text).length ≤ text.length := by
  conv_rhs => rw [← Lines.flatten_lines 10 text]
  rw [List.length_flatten]
  have hne : ∀ n ∈ (lines 10 text).map List.length, 1 ≤ n := by
    intro n hn
    obtain ⟨l, hl, rfl⟩ := List.mem_map.1 hn
    exact List.length_pos_of_ne_nil (Lines.ne_nil_of_mem_lines hl)
  have hsum := List.length_le_sum_of_one_le _ hne
  rwa [List.length_map] at hsum

/-- In front of a header, or of nothing, the lines to skip are those of
the body. -/
theorem takeWhile_blank_append {body rest : List Bytes}
    (hrest : ∀ l, rest.head? = some l → l.head? = some 42) :
    ((body ++ rest).takeWhile fun l => decide (l = [10])) =
      body.takeWhile fun l => decide (l = [10]) := by
  have hnil : (rest.takeWhile fun l => decide (l = [10])) = [] := by
    cases rest with
    | nil => rfl
    | cons l rest =>
      refine List.takeWhile_cons_of_neg ?_
      rw [decide_eq_true_iff]
      rintro rfl
      exact absurd (hrest _ rfl) (by decide)
  rw [List.takeWhile_append, hnil, List.append_nil]
  split_ifs with hall
  · exact ((List.takeWhile_prefix _).eq_of_length hall).symm
  · rfl

/-- Blanks around a text, with its newline and without it. -/
theorem trimmed_append_newline (text : Bytes) : trimmed (text ++ [10]) = trimmed text := by
  unfold trimmed
  rw [List.dropWhile_append]
  split_ifs with hall
  · rw [List.isEmpty_iff] at hall
    rw [hall]
    decide
  · exact List.rdropWhile_concat_pos _ _ _ (by decide)

/-- A newline behind the stars is none of them. -/
theorem starLevel_append_newline (text : Bytes) : starLevel (text ++ [10]) = starLevel text := by
  unfold starLevel
  rw [List.takeWhile_append]
  split_ifs with hall
  · rw [List.takeWhile_cons_of_neg (by decide), List.append_nil, hall]
  · rfl

/-- **The word of an entry is the title of its section.** -/
theorem trimws_header (h : 0 ∉ l) :
    trimws (((trimnl l).drop (starLevel l)).dropWhile fun c => decide (isSpace c)) =
      trimmed (l.drop (starLevel l)) := by
  have hword : ∀ text : Bytes, 0 ∉ text → trimws (text.dropWhile fun c => decide (isSpace c)) =
      trimmed text := by
    intro text htext
    rw [trimws, cstring_of_notMem fun hmem => htext ((List.dropWhile_suffix _).mem hmem)]
    rfl
  rw [hword _ fun hmem => h ((trimnl_isPrefix l).mem (List.mem_of_mem_drop hmem)), trimnl,
    cstring_of_notMem h]
  split_ifs with hlast
  · obtain ⟨text, rfl⟩ : ∃ text, l = text ++ [10] :=
      ⟨_, (List.dropLast_append_getLast? 10 hlast).symm⟩
    have hle : starLevel text ≤ text.length := (List.takeWhile_prefix _).length_le
    rw [List.dropLast_concat, starLevel_append_newline, List.drop_append_of_le_length hle,
      trimmed_append_newline]
  · rfl

/-- The entry of a section. -/
def Section.entry (s : Section) (offset size : ℕ) : Entry :=
  { allocEntry s.title with offset := offset, size := size }

/-- Where the text of a section begins, from where the lines in front of
it do. -/
def Section.textStart (s : Section) (pre : List Bytes) : ℕ :=
  pre.flatten.length + s.header.length + s.blanks.flatten.length

/-- **An entry is read** up to where its end is looked for. -/
theorem readEntry_eq {rest : List Bytes} (h : lines 10 file.rest = pre ++ s.lines ++ rest)
    (hpre : ∀ b ∈ pre, PlainLine b) (hs : s.Legible)
    (hrest : ∀ l, rest.head? = some l → l.head? = some 42) (hnull : ∀ l ∈ rest, 0 ∉ l) :
    ∃ mid, mid = file.advance (s.textStart pre) ∧
      lines 10 mid.rest = (s.body.dropWhile fun l => decide (l = [10])) ++ rest ∧
      readEntry file =
        let next := findHeader mid (trimnl s.header) bufSize s.header.length
        let end_ := next.file.rewind next.pread
        some (s.level, s.entry mid.pos ((end_.pos + (2 ^ 64 - mid.pos)) % 2 ^ 64), end_) := by
  obtain ⟨hheader, hbody⟩ := hs
  have hsplit : lines 10 file.rest = pre ++ s.header :: (s.body ++ rest) := by
    rw [h, List.append_assoc]
    rfl
  have hfound := findHeader_at hsplit (fun b hb => (hpre b hb).2) hheader [] 0
  have hlevel : starLevel s.header ≠ 0 := by
    have := header_iff.2 hheader.2.1
    rw [starLevel_trimnl hheader.1] at this
    exact this.2
  -- the file behind the header
  obtain ⟨behind, hbehind⟩ :
      ∃ behind, behind = file.advance (pre.flatten.length + s.header.length) := ⟨_, rfl⟩
  have hlines : lines 10 behind.rest = s.body ++ rest := by
    have hparts : lines 10 file.rest = (pre ++ [s.header]) ++ (s.body ++ rest) := by
      rw [hsplit, List.append_assoc, List.singleton_append]
    have hnext := lines_rest_advance hparts
    rwa [List.flatten_append, List.length_append, List.flatten_singleton, ← hbehind] at hnext
  have hskip : skipws behind bufSize = behind.advance s.blanks.flatten.length := by
    have hnulls : ∀ l ∈ s.body ++ rest, 0 ∉ l := by
      intro l hl
      rcases List.mem_append.1 hl with hl | hl
      · exact (hbody l hl).1
      · exact hnull l hl
    have hfuel : (s.body ++ rest).length < behind.content.length + 1 := by
      have hcount := length_lines_le behind.rest
      rw [hlines] at hcount
      unfold OutlineFile.rest at hcount
      rw [List.length_drop] at hcount
      omega
    unfold skipws
    rw [skipwsLoop_eq hlines hnulls hfuel, takeWhile_blank_append hrest]
    rfl
  refine ⟨behind.advance s.blanks.flatten.length, ?_, ?_, ?_⟩
  · rw [hbehind, advance_advance]
    rfl
  · refine lines_rest_advance ?_
    rw [hlines, ← List.append_assoc, Section.blanks, List.takeWhile_append_dropWhile]
  · unfold readEntry
    rw [hfound]
    dsimp only
    rw [if_neg hlevel, ← hbehind, hskip, trimws_header hheader.1]
    rfl

/-- No line of legible sections has a null. -/
theorem null_notMem_lines (hss : ∀ s ∈ ss, s.Legible) : ∀ l ∈ ss.flatMap Section.lines, 0 ∉ l := by
  intro l hl
  obtain ⟨s, hs, hl⟩ := List.mem_flatMap.1 hl
  obtain ⟨hheader, hbody⟩ := hss s hs
  rcases List.mem_cons.1 hl with rfl | hl
  · exact hheader.1
  · exact (hbody l hl).1

/-- **A section in front of another**: its text is what is between its
blanks and the next header, and there the file is left. -/
theorem readEntry_next (h : lines 10 file.rest = pre ++ s.lines ++ (s' :: ss).flatMap Section.lines)
    (hpre : ∀ b ∈ pre, PlainLine b) (hs : s.Legible) (hss : ∀ s ∈ s' :: ss, s.Legible) :
    s.article <+: file.content.drop (file.pos + s.textStart pre) ∧
      readEntry file = some (s.level, s.entry (file.pos + s.textStart pre) s.article.length,
        file.advance (s.textStart pre + s.article.length)) := by
  have hhead : ∀ l, ((s' :: ss).flatMap Section.lines).head? = some l → l.head? = some 42 := by
    intro l hl
    obtain rfl := Option.some.inj hl
    exact (hss s' List.mem_cons_self).1.2.1
  obtain ⟨mid, hmid, hlines, hread⟩ := readEntry_eq h hpre hs hhead (null_notMem_lines hss)
  have hplain : ∀ b ∈ s.body.dropWhile fun l => decide (l = [10]), Quiet b :=
    fun b hb => (hs.2 b ((List.dropWhile_suffix _).mem hb)).2
  have hahead : lines 10 mid.rest = (s.body.dropWhile fun l => decide (l = [10])) ++
      s'.header :: (s'.body ++ ss.flatMap Section.lines) := hlines
  have hnext := findHeader_at hahead hplain (hss s' List.mem_cons_self).1 (trimnl s.header)
    s.header.length
  have hend : mid.pos + s.article.length < 2 ^ 63 := by
    have hflat := congrArg List.length (Lines.flatten_lines 10 mid.rest)
    rw [hlines, List.flatten_append, List.length_append, List.flatMap_cons, Section.lines,
      List.cons_append, List.flatten_cons, List.length_append] at hflat
    unfold OutlineFile.rest at hflat
    rw [List.length_drop] at hflat
    have hstar := (hss s' List.mem_cons_self).1.2.1
    have hlen : s'.header.length ≠ 0 := by
      intro hzero
      rw [List.length_eq_zero_iff.1 hzero] at hstar
      cases hstar
    have hlt := mid.length_lt
    unfold Section.article
    omega
  have hsize : (mid.pos + s.article.length + (2 ^ 64 - mid.pos)) % 2 ^ 64 = s.article.length := by
    omega
  refine ⟨?_, ?_⟩
  · have hflat := Lines.flatten_lines 10 mid.rest
    rw [hlines, List.flatten_append, hmid] at hflat
    exact ⟨_, hflat⟩
  · rw [hread, hnext]
    dsimp only
    rw [← Section.article, rewind_advance, OutlineFile.advance, hsize, hmid]
    simp only [OutlineFile.advance, Nat.add_assoc]

/-- **The last section**: the file is moved back from its end by the length
of the header, and the text ends there, wherever it began. -/
theorem readEntry_last (h : lines 10 file.rest = pre ++ s.lines) (hpre : ∀ b ∈ pre, PlainLine b)
    (hs : s.Legible) (hle : file.pos ≤ file.content.length) :
    ∃ offset, offset + s.article.length = file.content.length ∧
      file.content.drop offset = s.article ∧ s.header.length ≤ file.content.length ∧
      readEntry file = some (s.level,
        s.entry offset ((file.content.length - s.header.length + (2 ^ 64 - offset)) % 2 ^ 64),
        { file with pos := file.content.length - s.header.length }) := by
  have hnil : lines 10 file.rest = pre ++ s.lines ++ [] := by rw [h, List.append_nil]
  obtain ⟨mid, hmid, hlines, hread⟩ := readEntry_eq hnil hpre hs (by intro l hl; cases hl)
    (List.forall_mem_nil _)
  rw [List.append_nil] at hlines
  have hplain : ∀ b ∈ lines 10 mid.rest, Quiet b := by
    rw [hlines]
    exact fun b hb => (hs.2 b ((List.dropWhile_suffix _).mem hb)).2
  obtain ⟨buf, hnext⟩ := findHeader_end hplain (trimnl s.header) s.header.length
  have hall := congrArg List.length (Lines.flatten_lines 10 file.rest)
  rw [h, List.flatten_append, List.length_append, Section.lines, List.flatten_cons,
    List.length_append] at hall
  have hrest : mid.rest.length = s.article.length := by
    rw [← Lines.flatten_lines 10 mid.rest, hlines]
    rfl
  have hbody := congrArg List.length s.flatten_body
  rw [List.length_append] at hbody
  unfold OutlineFile.rest at hall
  rw [List.length_drop] at hall
  have hpos : mid.pos = file.pos + s.textStart pre := by
    rw [hmid]
    rfl
  unfold Section.textStart at hpos
  have htext : file.content.drop mid.pos = s.article := by
    have hflat := Lines.flatten_lines 10 mid.rest
    rw [hlines, hmid] at hflat
    rw [hmid]
    exact hflat.symm
  refine ⟨mid.pos, by omega, htext, by omega, ?_⟩
  rw [hread, hnext]
  dsimp only
  have hback : ((mid.advance mid.rest.length).rewind s.header.length) =
      { file with pos := file.content.length - s.header.length } := by
    rw [hmid]
    rw [hmid] at hrest hpos
    unfold OutlineFile.rewind OutlineFile.advance
    unfold OutlineFile.advance at hpos hrest
    dsimp only at hpos hrest ⊢
    rw [if_pos (by omega)]
    congr 1
    omega
  rw [hback]

/-- What an entry stands for. -/
def view (content : Bytes) (e : ℕ × Entry) : Article :=
  ⟨e.1, e.2.word, (content.drop e.2.offset).take e.2.size, decide (e.2.size < 2 ^ 63)⟩

/-- The words of entries are as `alloc_entry` leaves them. -/
def Allocated (e : ℕ × Entry) : Prop :=
  e.2.length = e.2.word.length ∧ e.2.wordlen = utf8Strlen e.2.word

/-- What is read again behind the last section has no header in it. -/
def EndsQuiet (content : Bytes) (ss : List Section) : Prop :=
  ∀ s, ss.getLast? = some s →
    ∀ l ∈ lines 10 (content.drop (content.length - s.header.length)), Quiet l

/-- These are the entries of a file, and `n` of them can be read. -/
def Reads (file : OutlineFile) (n : ℕ) (es : List (ℕ × Entry)) : Prop :=
  ∀ fuel, n < fuel → readEntries fuel file = some es

/-- There is nothing more. -/
theorem Reads.nil (h : readEntry file = none) : Reads file 0 [] := by
  intro fuel hfuel
  obtain ⟨fuel, rfl⟩ := Nat.exists_eq_succ_of_ne_zero (by omega : fuel ≠ 0)
  rw [readEntries, h]

/-- There is one more. -/
theorem Reads.cons {file' : OutlineFile} {e : ℕ × Entry} {n : ℕ} {es : List (ℕ × Entry)}
    (h : readEntry file = some (e.1, e.2, file')) (hes : Reads file' n es) :
    Reads file (n + 1) (e :: es) := by
  intro fuel hfuel
  obtain ⟨fuel, rfl⟩ := Nat.exists_eq_succ_of_ne_zero (by omega : fuel ≠ 0)
  rw [readEntries, h]
  dsimp only
  rw [hes fuel (by omega), Option.map_some]

/-- One section: there is an entry for it and no other. -/
theorem reads_last (h : lines 10 file.rest = pre ++ s.lines) (hpre : ∀ b ∈ pre, PlainLine b)
    (hs : s.Legible) (hle : file.pos ≤ file.content.length) (hend : EndsQuiet file.content [s]) :
    ∃ es, Reads file 1 es ∧ es.map (view file.content) = articles [s] ∧ ∀ e ∈ es, Allocated e := by
  obtain ⟨offset, hoffset, htext, hheader, hread⟩ := readEntry_last h hpre hs hle
  have hnone : readEntry { file with pos := file.content.length - s.header.length } = none := by
    rw [readEntry_eq_none]
    exact hend s rfl
  obtain ⟨size, hsize⟩ : ∃ size, size =
      (file.content.length - s.header.length + (2 ^ 64 - offset)) % 2 ^ 64 := ⟨_, rfl⟩
  rw [← hsize] at hread
  refine ⟨[(s.level, s.entry offset size)], Reads.cons hread (Reads.nil hnone), ?_, ?_⟩
  · have hlt := file.length_lt
    have hcut : s.article.take size = s.cut := by
      unfold Section.cut
      split_ifs with hshort
      · exact List.take_of_length_le (by omega)
      · congr 1
        omega
    have hsized : size < 2 ^ 63 ↔ s.header.length ≤ s.article.length := by omega
    rw [List.map_singleton, view, articles]
    simp only [Section.entry, allocEntry, htext, hcut, hsized]
  · intro e he
    rw [List.mem_singleton.1 he]
    exact ⟨rfl, rfl⟩

/-- **The entries are what is in the outline**, section by section. -/
theorem reads_sections (h : lines 10 file.rest = pre ++ ss.flatMap Section.lines)
    (hpre : ∀ b ∈ pre, PlainLine b) (hss : ∀ s ∈ ss, s.Legible)
    (hle : file.pos ≤ file.content.length) (hend : EndsQuiet file.content ss) :
    ∃ es, Reads file ss.length es ∧ es.map (view file.content) = articles ss ∧
      ∀ e ∈ es, Allocated e := by
  induction ss generalizing file pre with
  | nil =>
    have hnone : readEntry file = none := by
      rw [readEntry_eq_none, h, List.flatMap_nil, List.append_nil]
      exact fun b hb => (hpre b hb).2
    exact ⟨[], Reads.nil hnone, rfl, List.forall_mem_nil _⟩
  | cons s ss ih =>
    obtain ⟨hs, hrest⟩ := List.forall_mem_cons.1 hss
    rw [List.flatMap_cons, ← List.append_assoc] at h
    cases ss with
    | nil =>
      rw [List.flatMap_nil, List.append_nil] at h
      exact reads_last h hpre hs hle hend
    | cons s' ss =>
      obtain ⟨hbegin, hread⟩ := readEntry_next h hpre hs hrest
      have hskip : (pre ++ s.lines).flatten.length = s.textStart pre + s.article.length := by
        unfold Section.lines Section.textStart
        rw [List.flatten_append, List.flatten_cons, List.length_append, List.length_append,
          s.flatten_body, List.length_append]
        omega
      have hlines : lines 10 (file.advance (s.textStart pre + s.article.length)).rest =
          [] ++ (s' :: ss).flatMap Section.lines := by
        rw [← hskip]
        exact lines_rest_advance h
      have hle' : file.pos + (s.textStart pre + s.article.length) ≤ file.content.length := by
        have hall := congrArg List.length (Lines.flatten_lines 10 file.rest)
        rw [h, List.flatten_append, List.length_append, hskip, OutlineFile.rest,
          List.length_drop] at hall
        omega
      obtain ⟨es, hes, hview, halloc⟩ := ih hlines (List.forall_mem_nil _) hrest hle' hend
      refine ⟨_, Reads.cons (e := (s.level, _)) hread hes, ?_,
        List.forall_mem_cons.2 ⟨⟨rfl, rfl⟩, halloc⟩⟩
      have htake : (file.content.drop (file.pos + s.textStart pre)).take s.article.length =
          s.article := (List.prefix_iff_eq_take.1 hbegin).symm
      have hsized : s.article.length < 2 ^ 63 := by
        have hlt := file.length_lt
        omega
      rw [List.map_cons, articles_cons_cons]
      refine congrArg₂ List.cons ?_ hview
      simp only [view, allocEntry, htake, hsized, decide_true]

end Reading

end Outline

end Dico
