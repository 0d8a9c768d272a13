import Dico.Outline.File
/-!
# Header recognition

`find_header` means to look at the beginning of each line, and looks at
the beginning of each piece of a line that fits its buffer. What it finds
is described once, for every file (`findHeader_cases`); whether that is
the header that is there is then a question about the lines up to it.
-/

namespace Dico

namespace Outline

open Lines (lines)

/-! ## What the scan finds -/

section Scan

variable {file : OutlineFile} {l : Bytes} {ls : List Bytes}

/-- Past a piece that is no header. -/
theorem findHeaderLoop_quiet (h : lines 10 file.rest = l :: ls) (hl : l.head? ≠ some 42)
    (fuel : ℕ) (buf : Bytes) (pread : ℕ) :
    findHeaderLoop bufSize (fuel + 1) file buf pread =
      findHeaderLoop bufSize fuel (file.advance (l.take room).length) (trimnl (l.take room))
        pread := by
  have hnot : ¬ (l.take room).head? = some 42 := by
    rwa [List.head?_take, if_neg (by decide)]
  rw [findHeaderLoop, show bufSize = room + 1 from rfl, fgets_eq h]
  dsimp only
  rw [if_neg (mt header_iff.1 hnot)]

/-- At one that is. -/
theorem findHeaderLoop_star (h : lines 10 file.rest = l :: ls) (hl : l.head? = some 42)
    (fuel : ℕ) (buf : Bytes) (pread : ℕ) :
    findHeaderLoop bufSize (fuel + 1) file buf pread =
      ⟨starLevel (trimnl (l.take room)), trimnl (l.take room), (cstring (l.take room)).length,
        file.advance (l.take room).length⟩ := by
  have hstar : (l.take room).head? = some 42 := by
    rwa [List.head?_take, if_neg (by decide)]
  rw [findHeaderLoop, show bufSize = room + 1 from rfl, fgets_eq h]
  dsimp only
  rw [if_pos (header_iff.2 hstar)]

/-- The scan came to the end of the file. -/
def RanOut (file : OutlineFile) (pread : ℕ) (hd : Header) : Prop :=
  (∀ l ∈ lines 10 file.rest, Quiet l) ∧ hd.level = 0 ∧ hd.pread = pread ∧
    hd.file = file.advance file.rest.length

/-- The scan stopped at a piece that begins with a star: the first such
piece of the first line that has one. -/
structure StoppedAt (file : OutlineFile) (hd : Header) (before : List Bytes) (l : Bytes)
    (after : List Bytes) (k : ℕ) : Prop where
  /-- The line is one of those ahead. -/
  split : lines 10 file.rest = before ++ l :: after
  /-- There is no such piece in the lines before it. -/
  before_quiet : ∀ b ∈ before, Quiet b
  /-- Nor before it in the line. -/
  none_before : ∀ j < k, l[room * j]? ≠ some 42
  /-- It begins with a star. -/
  star : l[room * k]? = some 42
  /-- What is made of it, and where the file is left. -/
  header : hd = ⟨starLevel (trimnl ((l.drop (room * k)).take room)),
    trimnl ((l.drop (room * k)).take room), (cstring ((l.drop (room * k)).take room)).length,
    file.advance (before.flatten.length + room * k + ((l.drop (room * k)).take room).length)⟩

/-- Two steps are one. -/
theorem advance_advance (file : OutlineFile) (i j : ℕ) :
    (file.advance i).advance j = file.advance (i + j) := by
  rw [OutlineFile.advance, OutlineFile.advance, OutlineFile.advance, Nat.add_assoc]

/-- The lines ahead after one piece. -/
theorem lines_advance (h : lines 10 file.rest = l :: ls) :
    lines 10 (file.advance (l.take room).length).rest =
      if l.length ≤ room then ls else l.drop room :: ls := by
  rw [rest_advance]
  exact Lines.lines_drop h room

/-- A scan that runs out from behind a piece that is no header runs out
from before it. -/
theorem RanOut.of_advance {pread : ℕ} {hd : Header} (h : lines 10 file.rest = l :: ls)
    (hl : l.head? ≠ some 42) (hr : RanOut (file.advance (l.take room).length) pread hd) :
    RanOut file pread hd := by
  obtain ⟨hquiet, hlevel, hpread, hfile⟩ := hr
  have hpiece : (l.take room).length ≤ file.rest.length := by
    have hflat := Lines.flatten_lines 10 file.rest
    rw [h, List.flatten_cons] at hflat
    rw [← hflat, List.length_append, List.length_take]
    omega
  refine ⟨?_, hlevel, hpread, ?_⟩
  · rw [lines_advance h] at hquiet
    rw [h, List.forall_mem_cons]
    split_ifs at hquiet with hle
    · exact ⟨quiet_of_le hle hl, hquiet⟩
    · obtain ⟨hrest, hls⟩ := List.forall_mem_cons.1 hquiet
      exact ⟨quiet_iff.2 ⟨hl, hrest⟩, hls⟩
  · rw [hfile, advance_advance, rest_advance, List.length_drop, Nat.add_sub_cancel' hpiece]

/-- A scan that stops from behind such a piece stops at the same place
from before it. -/
theorem StoppedAt.of_advance {hd : Header} {before after : List Bytes} {x : Bytes} {k : ℕ}
    (h : lines 10 file.rest = l :: ls) (hl : l.head? ≠ some 42)
    (hs : StoppedAt (file.advance (l.take room).length) hd before x after k) :
    ∃ before' x' after' k', StoppedAt file hd before' x' after' k' := by
  obtain ⟨hsplit, hbefore, hnone, hstar, hhead⟩ := hs
  rw [lines_advance h] at hsplit
  rw [advance_advance] at hhead
  split_ifs at hsplit with hle
  · -- the piece was a line
    refine ⟨l :: before, x, after, k, by rw [h, hsplit, List.cons_append], ?_, hnone, hstar, ?_⟩
    · exact List.forall_mem_cons.2 ⟨quiet_of_le hle hl, hbefore⟩
    · rw [hhead, List.flatten_cons, List.length_append, List.take_of_length_le hle, Nat.add_assoc,
        Nat.add_assoc, Nat.add_assoc]
  · have hroom : (l.take room).length = room := by
      rw [List.length_take]
      omega
    have hlater : ∀ j, (l.drop room)[room * j]? = l[room * (j + 1)]? := by
      intro j
      rw [List.getElem?_drop, Nat.mul_succ, Nat.add_comm]
    cases before with
    | nil =>
      -- the scan stopped further on in the same line
      obtain ⟨rfl, rfl⟩ := List.cons.inj hsplit
      refine ⟨[], l, ls, k + 1, h, List.forall_mem_nil _, ?_, by rw [← hlater]; exact hstar, ?_⟩
      · intro j hj
        cases j with
        | zero =>
          rw [Nat.mul_zero, ← List.head?_eq_getElem?]
          exact hl
        | succ j =>
          rw [← hlater]
          exact hnone j (by omega)
      · have hpiece : (l.drop room).drop (room * k) = l.drop (room * (k + 1)) := by
          rw [List.drop_drop, Nat.mul_succ, Nat.add_comm]
        rw [hhead, hpiece, hroom, List.flatten_nil, List.length_nil, Nat.mul_succ]
        congr 2
        omega
    | cons b before =>
      obtain ⟨rfl, rfl⟩ := List.cons.inj hsplit
      obtain ⟨hb, hbefore⟩ := List.forall_mem_cons.1 hbefore
      refine ⟨l :: before, x, after, k, h, ?_, hnone, hstar, ?_⟩
      · exact List.forall_mem_cons.2 ⟨quiet_iff.2 ⟨hl, hb⟩, hbefore⟩
      · rw [hhead, List.flatten_cons, List.flatten_cons, List.length_append, List.length_append,
          hroom, List.length_drop]
        congr 2
        omega

/-- **What the loop finds**, in every file. -/
theorem findHeaderLoop_cases {fuel : ℕ} {file : OutlineFile} (hfuel : file.rest.length < fuel)
    (buf : Bytes) (pread : ℕ) :
    RanOut file pread (findHeaderLoop bufSize fuel file buf pread) ∨
      ∃ before l after k,
        StoppedAt file (findHeaderLoop bufSize fuel file buf pread) before l after k := by
  induction fuel generalizing file buf with
  | zero => omega
  | succ fuel ih =>
    by_cases hrest : file.rest = []
    · refine .inl ⟨?_, ?_⟩
      · rw [hrest]
        exact List.forall_mem_nil _
      · rw [findHeaderLoop, fgets_eq_none hrest, hrest]
        exact ⟨rfl, rfl, rfl⟩
    · obtain ⟨l, ls, hl⟩ := Lines.exists_lines 10 hrest
      by_cases hstar : l.head? = some 42
      · refine .inr ⟨[], l, ls, 0, hl, List.forall_mem_nil _,
          fun j hj => absurd hj (Nat.not_lt_zero j),
          ?_, ?_⟩
        · rwa [Nat.mul_zero, ← List.head?_eq_getElem?]
        · rw [findHeaderLoop_star hl hstar, Nat.mul_zero, List.drop_zero, List.flatten_nil,
            List.length_nil, Nat.zero_add]
      · rw [findHeaderLoop_quiet hl hstar]
        have hpos := List.length_pos_of_ne_nil (Lines.ne_nil_of_mem_lines (hl ▸ List.mem_cons_self))
        have hlen := List.length_pos_of_ne_nil hrest
        have hless : (file.advance (l.take room).length).rest.length < fuel := by
          have hroom : 0 < room := by decide
          rw [rest_advance, List.length_drop, List.length_take]
          omega
        rcases ih hless (trimnl (l.take room)) with hr | ⟨before, x, after, k, hs⟩
        · exact .inl (hr.of_advance hl hstar)
        · exact .inr (hs.of_advance hl hstar)

/-- **What `find_header` finds**, in every file. -/
theorem findHeader_cases (file : OutlineFile) (buf : Bytes) (pread : ℕ) :
    RanOut file pread (findHeader file buf bufSize pread) ∨
      ∃ before l after k,
        StoppedAt file (findHeader file buf bufSize pread) before l after k := by
  refine findHeaderLoop_cases ?_ buf pread
  rw [OutlineFile.rest, List.length_drop]
  omega

end Scan

/-! ## Whether it is the header -/

section Recognition

variable {file : OutlineFile} {hd : Header} {before after : List Bytes} {l : Bytes}

/-- What is asked of `find_header`: it returns a level just if a line
ahead begins with a star, and then the first such line is the header: its
stars are the level, its length is in `*pread`, and the file is left
behind it. -/
def Recognized (file : OutlineFile) (hd : Header) : Prop :=
  (0 < hd.level ↔ ∃ l ∈ lines 10 file.rest, l.head? = some 42) ∧
  ∀ before l after, lines 10 file.rest = before ++ l :: after →
    (∀ b ∈ before, b.head? ≠ some 42) → l.head? = some 42 →
    hd.level = starLevel l ∧ hd.pread = l.length ∧
      hd.file.pos = file.pos + before.flatten.length + l.length

/-- No line up to the first header is mistaken for one, and that header is
seen whole: it fits the buffer, and no null in it ends the string early. -/
def InView (file : OutlineFile) : Prop :=
  ∀ before l after, lines 10 file.rest = before ++ l :: after →
    (∀ b ∈ before, b.head? ≠ some 42) →
    (l.head? = some 42 → l.length ≤ room ∧ 0 ∉ l) ∧ (l.head? ≠ some 42 → Quiet l)

/-- Two ways to single out a line: the same, or one before the other. -/
theorem split_cases {α : Type} {b b' a a' : List α} {x x' : α}
    (h : b ++ x :: a = b' ++ x' :: a') :
    (b = b' ∧ x = x') ∨ (∃ m, b = b' ++ x' :: m) ∨ ∃ m, b' = b ++ x :: m := by
  rcases List.append_eq_append_iff.1 h with ⟨m, rfl, hm⟩ | ⟨m, rfl, hm⟩
  · cases m with
    | nil => exact .inl ⟨(List.append_nil b).symm, (List.cons.inj hm).1⟩
    | cons y m =>
      obtain ⟨rfl, -⟩ := List.cons.inj hm
      exact .inr (.inr ⟨m, rfl⟩)
  · cases m with
    | nil => exact .inl ⟨List.append_nil b', (List.cons.inj hm).1.symm⟩
    | cons y m =>
      obtain ⟨rfl, -⟩ := List.cons.inj hm
      exact .inr (.inl ⟨m, rfl⟩)

/-- A quiet line is no header. -/
theorem Quiet.head_ne (h : Quiet l) : l.head? ≠ some 42 := (quiet_iff.1 h).1

/-- A line without a null is the string it is read as, and no other
is. -/
theorem length_cstring_eq : (cstring l).length = l.length ↔ 0 ∉ l := by
  constructor
  · intro h hmem
    have heq : l.takeWhile (· ≠ 0) = l := (List.takeWhile_prefix _).eq_of_length h
    have := List.takeWhile_eq_self_iff.1 heq 0 hmem
    exact absurd this (by decide)
  · intro h
    have heq : l.takeWhile (· ≠ 0) = l := List.takeWhile_eq_self_iff.2 fun b hb =>
      decide_eq_true fun h₀ => h (h₀ ▸ hb)
    rw [cstring, heq]

/-- The stars of a line that is seen whole. -/
theorem starLevel_trimnl (h : 0 ∉ l) : starLevel (trimnl l) = starLevel l := by
  have hstr : cstring l = l :=
    (List.takeWhile_prefix _).eq_of_length (length_cstring_eq.2 h)
  rw [trimnl, hstr]
  split_ifs with hlast
  · have hl : l.dropLast ++ [10] = l := List.dropLast_append_getLast? 10 hlast
    conv_rhs => rw [← hl]
    rw [starLevel, starLevel, List.takeWhile_append]
    split_ifs with hall
    · rw [List.takeWhile_cons_of_neg (by decide), List.append_nil, hall]
    · rfl
  · rfl

/-- A piece begins in its line and ends in it. -/
theorem piece_le {k : ℕ} (h : l[room * k]? = some 42) :
    room * k + ((l.drop (room * k)).take room).length ≤ l.length := by
  obtain ⟨hlt, -⟩ := List.getElem?_eq_some_iff.1 h
  rw [List.length_take, List.length_drop]
  omega

/-- The first header ahead, if there is one. -/
theorem exists_first (h : ∃ l ∈ lines 10 file.rest, l.head? = some 42) :
    ∃ before l after, lines 10 file.rest = before ++ l :: after ∧
      (∀ b ∈ before, b.head? ≠ some 42) ∧ l.head? = some 42 := by
  obtain ⟨x, hx, hstar⟩ := h
  have hfind := List.find?_isSome (p := fun l : Bytes => decide (l.head? = some 42)).2
    ⟨x, hx, decide_eq_true hstar⟩
  obtain ⟨l, hl⟩ := Option.isSome_iff_exists.1 hfind
  obtain ⟨hl, before, after, hsplit, hbefore⟩ := List.find?_eq_some_iff_append.1 hl
  refine ⟨before, l, after, hsplit, fun b hb hc => ?_, of_decide_eq_true hl⟩
  have := hbefore b hb
  rw [decide_eq_true hc] at this
  cases this

/-- The piece begins with a star. -/
theorem StoppedAt.head_piece {k : ℕ} (hs : StoppedAt file hd before l after k) :
    ((l.drop (room * k)).take room).head? = some 42 := by
  rw [List.head?_take, if_neg (by decide), List.head?_drop]
  exact hs.star

/-- So there is a level. -/
theorem StoppedAt.level_pos {k : ℕ} (hs : StoppedAt file hd before l after k) :
    0 < hd.level := by
  rw [hs.header]
  exact Nat.pos_of_ne_zero (header_iff.2 hs.head_piece).2

/-- A line that begins with a star is not read any further. -/
theorem StoppedAt.eq_zero {k : ℕ} (hs : StoppedAt file hd before l after k)
    (hstar : l.head? = some 42) : k = 0 := by
  by_contra hk
  refine hs.none_before 0 (by omega) ?_
  rwa [Nat.mul_zero, ← List.head?_eq_getElem?]

/-- **A header that is recognized is one that is seen whole**, and was
found at the beginning of its line. -/
theorem StoppedAt.whole {k : ℕ} (hs : StoppedAt file hd before l after k)
    (hrec : Recognized file hd) :
    l.head? = some 42 ∧ l.length ≤ room ∧ 0 ∉ l := by
  obtain ⟨B, L, A, hsplit, hB, hL⟩ := exists_first (hrec.1.1 hs.level_pos)
  obtain ⟨-, hpread, hpos⟩ := hrec.2 B L A hsplit hB hL
  have hend := piece_le hs.star
  rw [hs.header] at hpread hpos
  simp only [OutlineFile.advance] at hpread hpos
  rcases split_cases (hs.split.symm.trans hsplit) with ⟨rfl, rfl⟩ | ⟨m, rfl⟩ | ⟨m, rfl⟩
  · -- the line is the first header
    obtain rfl := hs.eq_zero hL
    rw [Nat.mul_zero, List.drop_zero] at hpread hpos
    have hlen : (l.take room).length = l.length := by omega
    have hle : l.length ≤ room := by
      rw [← hlen, List.length_take]
      exact Nat.min_le_left _ _
    rw [List.take_of_length_le hle] at hpread
    exact ⟨hL, hle, length_cstring_eq.1 hpread⟩
  · -- the first header would be among the lines that were passed over
    exact absurd hL (hs.before_quiet L (List.mem_append_right _ List.mem_cons_self)).head_ne
  · -- the scan stopped before it, and so the file is not where it should be
    have hne := List.length_pos_of_ne_nil
      (Lines.ne_nil_of_mem_lines (hsplit ▸ List.mem_append_right _ List.mem_cons_self) : L ≠ [])
    rw [List.flatten_append, List.flatten_cons, List.length_append, List.length_append] at hpos
    omega

/-- Where no piece begins with a star, nothing is found and nothing is
there. -/
theorem RanOut.recognized {pread : ℕ} (h : RanOut file pread hd) :
    Recognized file hd ∧ InView file := by
  obtain ⟨hquiet, hlevel, -, -⟩ := h
  refine ⟨⟨?_, ?_⟩, ?_⟩
  · refine iff_of_false (by omega) ?_
    rintro ⟨l, hl, hstar⟩
    exact (hquiet l hl).head_ne hstar
  · intro before l after hsplit _ hstar
    exact absurd hstar (hquiet l (hsplit ▸ List.mem_append_right _ List.mem_cons_self)).head_ne
  · intro before l after hsplit _
    have hl := hquiet l (hsplit ▸ List.mem_append_right _ List.mem_cons_self)
    exact ⟨fun hstar => absurd hstar hl.head_ne, fun _ => hl⟩

/-- A header that is seen whole, behind lines that are not mistaken for
one, is recognized. -/
theorem StoppedAt.recognized {k : ℕ} (hs : StoppedAt file hd before l after k)
    (hstar : l.head? = some 42) (hle : l.length ≤ room) (hnull : 0 ∉ l) :
    Recognized file hd := by
  obtain rfl := hs.eq_zero hstar
  have hhd := hs.header
  rw [Nat.mul_zero, List.drop_zero, List.take_of_length_le hle, starLevel_trimnl hnull,
    length_cstring_eq.2 hnull, Nat.add_zero] at hhd
  refine ⟨?_, ?_⟩
  · refine iff_of_true ?_ ⟨l, hs.split ▸ List.mem_append_right _ List.mem_cons_self, hstar⟩
    rw [hhd]
    have := (header_iff.2 hstar).2
    rw [starLevel_trimnl hnull] at this
    exact Nat.pos_of_ne_zero this
  · intro B L A hsplit hB hL
    rcases split_cases (hs.split.symm.trans hsplit) with ⟨rfl, rfl⟩ | ⟨m, rfl⟩ | ⟨m, rfl⟩
    · rw [hhd]
      exact ⟨rfl, rfl, by rw [OutlineFile.advance, Nat.add_assoc]⟩
    · exact absurd hL (hs.before_quiet L (List.mem_append_right _ List.mem_cons_self)).head_ne
    · exact absurd hstar (hB l (List.mem_append_right _ List.mem_cons_self))

/-- **Header recognition.** `find_header` recognizes the next header just
if no line before it is long enough to show a star at the beginning of a
piece, and it is seen whole. -/
theorem recognized_iff (file : OutlineFile) (buf : Bytes) (pread : ℕ) :
    Recognized file (findHeader file buf bufSize pread) ↔ InView file := by
  rcases findHeader_cases file buf pread with hr | ⟨before, l, after, k, hs⟩
  · exact iff_of_true hr.recognized.1 hr.recognized.2
  · constructor
    · intro hrec
      obtain ⟨hstar, hle, hnull⟩ := hs.whole hrec
      intro B L A hsplit hB
      rcases split_cases (hs.split.symm.trans hsplit) with ⟨rfl, rfl⟩ | ⟨m, rfl⟩ | ⟨m, rfl⟩
      · exact ⟨fun _ => ⟨hle, hnull⟩, fun hnot => absurd hstar hnot⟩
      · have hL := hs.before_quiet L (List.mem_append_right _ List.mem_cons_self)
        exact ⟨fun h => absurd h hL.head_ne, fun _ => hL⟩
      · exact absurd hstar (hB l (List.mem_append_right _ List.mem_cons_self))
    · intro hview
      obtain ⟨hwhole, hquiet⟩ := hview before l after hs.split fun b hb =>
        (hs.before_quiet b hb).head_ne
      by_cases hstar : l.head? = some 42
      · obtain ⟨hle, hnull⟩ := hwhole hstar
        exact hs.recognized hstar hle hnull
      · exact absurd hs.star (hquiet hstar k)

/-- A paragraph of 127 letters and a star, and no header. -/
def starInText : OutlineFile where
  content := List.replicate 127 120 ++ ascii "* not a header\n"
  pos := 0
  length_lt := by decide +kernel

/-- **Text taken for a header**: no line begins with a star, and a level
is returned. -/
theorem not_recognized_starInText :
    ¬ Recognized starInText (findHeader starInText [] bufSize 0) := by
  rintro ⟨hiff, -⟩
  have hlevel : 0 < (findHeader starInText [] bufSize 0).level := by decide +kernel
  exact absurd (hiff.1 hlevel) (by decide +kernel)

end Recognition

end Outline

end Dico
