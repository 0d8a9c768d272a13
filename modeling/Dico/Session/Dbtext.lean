import Dico.Common.Lines
import Dico.Text.Cstr
import Mathlib.Data.List.TakeWhile
/-!
# Credentials in a text file

`dicod/dbtext.c`: the passwords and the groups of a user are in files of
lines, a key and a value on each. `find_key` compares the beginning of a
line with the key rather than its first field, so that a key with a blank
in it is found across fields.
-/

namespace Dico

namespace Dbtext

/-- `isspace`. -/
def blank (c : UInt8) : Bool := decide (isSpace c)

/-! ## The model -/

/-- `trimnl` of `lib/xutil.c`. -/
def trimnl (buf : Bytes) (len : ℕ) : Bytes :=
  if 1 < len ∧ buf[len - 1]? = some 10 then
    let buf := buf.set (len - 1) 0
    if 1 < len - 1 ∧ buf[len - 2]? = some 13 then buf.set (len - 2) 0 else buf
  else buf

/-- The string `p` points to behind the blanks of a line that `getline`
read. -/
def lineStart (line : Bytes) : Bytes :=
  ((trimnl (line ++ [0]) line.length).takeWhile (· ≠ 0)).dropWhile blank

/-- The body of the loop of `find_key`. -/
def findKeyLine (key line : Bytes) : Option Bytes :=
  let p := lineStart line
  if p = [] ∨ p.head? = some 35 ∨ p.length < key.length then none
  else if p.take key.length = key then
    let q := p.drop key.length
    if q = [] then some []
    else if q.head?.any blank then some (q.dropWhile blank)
    else none
  else none

/-- `find_key`, and what is left of the file, in lines. -/
def findKey (key : Bytes) : List Bytes → Option (Bytes × List Bytes)
  | [] => none
  | line :: rest =>
    match findKeyLine key line with
    | some val => some (val, rest)
    | none => findKey key rest

/-- `dbtext_get_password`, of the file's contents. -/
def getPassword (file key : Bytes) : Option Bytes :=
  (findKey key (Lines.lines 10 file)).map Prod.fst

/-- Every call of `find_key` reads on. -/
theorem length_of_findKey {key : Bytes} {ls rest : List Bytes} {val : Bytes}
    (h : findKey key ls = some (val, rest)) : rest.length < ls.length := by
  induction ls with
  | nil => cases h
  | cons line ls ih =>
    rw [findKey] at h
    cases hline : findKeyLine key line with
    | some v =>
      rw [hline] at h
      obtain ⟨-, rfl⟩ := Prod.mk.inj (Option.some.inj h)
      exact Nat.lt_succ_self _
    | none =>
      rw [hline] at h
      exact Nat.lt_succ_of_lt (ih h)

/-- The loop of `dbtext_get_groups`. -/
def groupsLoop (key : Bytes) (ls : List Bytes) : List Bytes :=
  match h : findKey key ls with
  | some (val, rest) =>
    have : rest.length < ls.length := length_of_findKey h
    val :: groupsLoop key rest
  | none => []
termination_by ls.length

/-- `dbtext_get_groups`, of the file's contents. -/
def getGroups (file key : Bytes) : List Bytes := groupsLoop key (Lines.lines 10 file)

/-! ## The file as it is meant -/

/-- A line without its end. -/
def chomp (line : Bytes) : Bytes :=
  if [13, 10] <:+ line then line.dropLast.dropLast
  else if [10] <:+ line then line.dropLast
  else line

/-- The text of a line, a string of C, without the blanks in front. -/
def lineText (line : Bytes) : Bytes := ((chomp line).takeWhile (· ≠ 0)).dropWhile blank

/-- The first field of a line and what is behind the blanks that follow it;
a blank line and a comment have none. -/
def entryOf (line : Bytes) : Option (Bytes × Bytes) :=
  let t := lineText line
  if t = [] ∨ t.head? = some 35 then none
  else some (t.takeWhile (!blank ·), (t.dropWhile (!blank ·)).dropWhile blank)

/-- The value of a line for a key. -/
def valueOf (key line : Bytes) : Option Bytes :=
  (entryOf line).bind fun e => if e.1 = key then some e.2 else none

/-- Whether a line that is no comment begins with a key, as characters. -/
def Begins (key line : Bytes) : Prop :=
  (lineText line).head? ≠ some 35 ∧
    ∃ q, lineText line = key ++ q ∧ ∀ c ∈ q.head?, isSpace c

/-! ## One line -/

section Line

variable {key line : Bytes}

/-- A line that ends in `\n` loses it, unless there is nothing else. -/
theorem trimnl_newline {l : Bytes} (hne : l ≠ []) (h : l.getLast? ≠ some 13) :
    trimnl (l ++ [10] ++ [0]) (l ++ [10]).length = l ++ [0, 0] := by
  have hlen : (l ++ [10] : Bytes).length - 1 = l.length := by
    rw [List.length_append, List.length_singleton, Nat.add_sub_cancel]
  have hpos : 0 < l.length := List.length_pos_iff.2 hne
  have hget : (l ++ [0, 0])[l.length - 1]? ≠ some 13 := by
    rw [List.getElem?_append_left (by omega), ← List.getLast?_eq_getElem?]
    exact h
  unfold trimnl
  rw [hlen, List.append_assoc, List.singleton_append, getElem?_place, if_pos ⟨by simp [hpos], rfl⟩]
  simp only [set_place]
  have hlen' : (l ++ [10] : Bytes).length - 2 = l.length - 1 := by omega
  rw [hlen', if_neg fun h => hget h.2]

/-- A line that ends in `\r\n` loses both, unless there is nothing else. -/
theorem trimnl_crlf {l : Bytes} (hne : l ≠ []) :
    trimnl (l ++ [13, 10] ++ [0]) (l ++ [13, 10]).length = l ++ [0, 0, 0] := by
  have hpos : 0 < l.length := List.length_pos_iff.2 hne
  have happ : l ++ [13, 10] ++ [0] = (l ++ [13]) ++ 10 :: [0] := by simp
  have hlen : (l ++ [13, 10] : Bytes).length - 1 = (l ++ [13] : Bytes).length := by simp
  have hlen' : (l ++ [13, 10] : Bytes).length - 2 = l.length := by simp
  unfold trimnl
  rw [hlen, hlen', happ, getElem?_place, if_pos ⟨by simp, rfl⟩]
  simp only [set_place]
  rw [List.append_assoc, List.singleton_append, getElem?_place, if_pos ⟨by simpa using hpos, rfl⟩,
    set_place]

/-- `find_key` looks at the text of a line. -/
theorem lineStart_eq (line : Bytes) : lineStart line = lineText line := by
  unfold lineStart lineText
  by_cases hcrlf : [13, 10] <:+ line
  · obtain ⟨l, rfl⟩ := hcrlf
    have hchomp : chomp (l ++ [13, 10]) = l := by
      unfold chomp
      rw [if_pos (List.suffix_append l _)]
      simp
    rw [hchomp]
    by_cases hne : l = []
    · -- `\r\n` alone stays `\r`, which is blank.
      subst hne
      decide
    · rw [trimnl_crlf hne, takeWhile_append_zero]
  · by_cases hnl : [10] <:+ line
    · obtain ⟨l, rfl⟩ := hnl
      have hchomp : chomp (l ++ [10]) = l := by
        unfold chomp
        rw [if_neg hcrlf, if_pos (List.suffix_append l _), List.dropLast_concat]
      rw [hchomp]
      by_cases hne : l = []
      · subst hne
        decide
      · have hlast : l.getLast? ≠ some 13 := by
          intro h
          obtain ⟨l', rfl⟩ := List.getLast?_eq_some_iff.1 h
          exact hcrlf ⟨l', by simp⟩
        rw [trimnl_newline hne hlast, takeWhile_append_zero]
    · have hchomp : chomp line = line := by
        unfold chomp
        rw [if_neg hcrlf, if_neg hnl]
      have htrim : trimnl (line ++ [0]) line.length = line ++ [0] := by
        unfold trimnl
        rw [if_neg]
        rintro ⟨hlen, hget⟩
        rw [List.getElem?_append_left (by omega), ← List.getLast?_eq_getElem?] at hget
        obtain ⟨l, rfl⟩ := List.getLast?_eq_some_iff.1 hget
        exact hnl (List.suffix_append l _)
      rw [hchomp, htrim, takeWhile_append_zero]

/-- What `find_key` takes a line for. -/
theorem findKeyLine_eq_some_iff {val : Bytes} :
    findKeyLine key line = some val ↔
      (lineText line).head? ≠ some 35 ∧ lineText line ≠ [] ∧
        ∃ q, lineText line = key ++ q ∧ (∀ c ∈ q.head?, isSpace c) ∧ val = q.dropWhile blank := by
  unfold findKeyLine
  simp only [lineStart_eq]
  by_cases hskip : lineText line = [] ∨ (lineText line).head? = some 35 ∨
      (lineText line).length < key.length
  · rw [if_pos hskip]
    constructor
    · intro h
      cases h
    · rintro ⟨hc, hne, q, hq, -⟩
      have hlen : key.length ≤ (lineText line).length := by
        rw [hq, List.length_append]
        omega
      rcases hskip with h | h | h
      · exact absurd h hne
      · exact absurd h hc
      · omega
  · rw [if_neg hskip]
    have hne : lineText line ≠ [] := fun h => hskip (.inl h)
    have hc : (lineText line).head? ≠ some 35 := fun h => hskip (.inr (.inl h))
    constructor
    · intro h
      split_ifs at h with hkey hq hblank
      · refine ⟨hc, hne, [], ?_, ?_, (Option.some.inj h).symm⟩
        · rw [← hkey, ← hq, List.take_append_drop]
        · intro c hc
          exact absurd hc (Option.not_mem_none c)
      · refine ⟨hc, hne, (lineText line).drop key.length, ?_, ?_, (Option.some.inj h).symm⟩
        · have hsplit := List.take_append_drop key.length (lineText line)
          rw [hkey] at hsplit
          exact hsplit.symm
        · intro c hc
          rw [Option.mem_def.1 hc] at hblank
          exact of_decide_eq_true hblank
    · rintro ⟨-, -, q, hq, hhead, rfl⟩
      rw [hq, List.take_left, List.drop_left, if_pos rfl]
      cases q with
      | nil => exact if_pos rfl
      | cons c q =>
        have hc : blank c = true := decide_eq_true (hhead c rfl)
        rw [if_neg (List.cons_ne_nil c q), List.head?_cons, Option.any_some, if_pos hc]

/-- The value of a line, where the key is its first field. -/
theorem valueOf_eq_some_iff {val : Bytes} :
    valueOf key line = some val ↔
      (lineText line).head? ≠ some 35 ∧ lineText line ≠ [] ∧
        (lineText line).takeWhile (!blank ·) = key ∧
        val = ((lineText line).dropWhile (!blank ·)).dropWhile blank := by
  unfold valueOf entryOf
  by_cases hskip : lineText line = [] ∨ (lineText line).head? = some 35
  · rw [if_pos hskip, Option.bind_none]
    constructor
    · intro h
      cases h
    · rintro ⟨hc, hne, -⟩
      exact absurd hskip (not_or.2 ⟨hne, hc⟩)
  · obtain ⟨hne, hc⟩ := not_or.1 hskip
    rw [if_neg hskip, Option.bind_some]
    constructor
    · intro h
      split_ifs at h with hkey
      exact ⟨hc, hne, hkey, (Option.some.inj h).symm⟩
    · rintro ⟨-, -, hkey, rfl⟩
      exact if_pos hkey

/-- A first field has no blanks. -/
theorem valueOf_of_blank (hkey : ∃ c ∈ key, isSpace c) (line : Bytes) :
    valueOf key line = none := by
  rw [Option.eq_none_iff_forall_not_mem]
  intro val hval
  obtain ⟨-, -, hfield, -⟩ := valueOf_eq_some_iff.1 hval
  obtain ⟨c, hc, hspace⟩ := hkey
  rw [← hfield] at hc
  have hnot := List.mem_takeWhile_imp hc
  rw [blank, decide_eq_true hspace] at hnot
  cases hnot

/-- For a key without blanks, the beginning of a line is its first field. -/
theorem findKeyLine_eq_valueOf (hkey : ∀ c ∈ key, ¬isSpace c) (line : Bytes) :
    findKeyLine key line = valueOf key line := by
  have hall : ∀ c ∈ key, (!blank c) = true := by
    intro c hc
    rw [blank, decide_eq_false (hkey c hc)]
    rfl
  apply Option.ext
  intro val
  rw [findKeyLine_eq_some_iff, valueOf_eq_some_iff]
  refine and_congr_right fun _ => and_congr_right fun _ => ?_
  constructor
  · rintro ⟨q, hq, hhead, rfl⟩
    have hstop : q.takeWhile (!blank ·) = [] ∧ q.dropWhile (!blank ·) = q := by
      cases q with
      | nil => exact ⟨rfl, rfl⟩
      | cons c q =>
        have hc : ¬(!blank c) = true := by
          rw [blank, decide_eq_true (hhead c rfl)]
          exact Bool.false_ne_true
        exact ⟨List.takeWhile_cons_of_neg hc, List.dropWhile_cons_of_neg hc⟩
    rw [hq, List.takeWhile_append_of_pos hall, List.dropWhile_append_of_pos hall, hstop.1,
      hstop.2, List.append_nil]
    exact ⟨rfl, rfl⟩
  · rintro ⟨hfield, rfl⟩
    refine ⟨(lineText line).dropWhile (!blank ·), ?_, ?_, rfl⟩
    · rw [← hfield, List.takeWhile_append_dropWhile]
    · intro c hc
      have hnot := List.head?_dropWhile_not (!blank ·) (lineText line)
      rw [Option.mem_def.1 hc] at hnot
      simpa [blank] using hnot

/-- With a key that has a blank in it, `find_key` takes the lines that begin
with it. -/
theorem findKeyLine_eq_none_iff (hkey : key ≠ []) :
    findKeyLine key line = none ↔ ¬Begins key line := by
  rw [Option.eq_none_iff_forall_not_mem]
  constructor
  · rintro h ⟨hc, q, hq, hhead⟩
    have hne : lineText line ≠ [] := by
      rw [hq]
      exact List.append_ne_nil_of_left_ne_nil hkey q
    exact h _ (findKeyLine_eq_some_iff.2 ⟨hc, hne, q, hq, hhead, rfl⟩)
  · intro h val hval
    obtain ⟨hc, -, q, hq, hhead, -⟩ := findKeyLine_eq_some_iff.1 hval
    exact h ⟨hc, q, hq, hhead⟩

end Line

/-! ## The file -/

/-- The loop finds the first line it takes. -/
theorem map_findKey (key : Bytes) (ls : List Bytes) :
    (findKey key ls).map Prod.fst = ls.findSome? (findKeyLine key) := by
  induction ls with
  | nil => rfl
  | cons line ls ih =>
    rw [findKey, List.findSome?_cons]
    cases findKeyLine key line with
    | some val => rfl
    | none => exact ih

/-- **Looking up a key.** What is found is the value of the first line whose
first field is the key, just where the key has no blank in it or no line
begins with it and a blank or its end. -/
theorem findKey_eq_value_iff (file key : Bytes) :
    (findKey key (Lines.lines 10 file)).map Prod.fst =
        (Lines.lines 10 file).findSome? (valueOf key) ↔
      (∀ c ∈ key, ¬isSpace c) ∨ ∀ line ∈ Lines.lines 10 file, ¬Begins key line := by
  rw [map_findKey]
  by_cases hkey : ∀ c ∈ key, ¬isSpace c
  · have hline : findKeyLine key = valueOf key := funext (findKeyLine_eq_valueOf hkey)
    rw [hline]
    exact ⟨fun _ => .inl hkey, fun _ => rfl⟩
  · -- No line has the key for its first field, so nothing should be found.
    push Not at hkey
    have hnone : (Lines.lines 10 file).findSome? (valueOf key) = none := by
      rw [List.findSome?_eq_none_iff]
      intro line _
      exact valueOf_of_blank hkey line
    obtain ⟨c, hc, hspace⟩ := hkey
    rw [hnone, List.findSome?_eq_none_iff]
    constructor
    · intro h
      refine .inr fun line hline => ?_
      exact (findKeyLine_eq_none_iff (List.ne_nil_of_mem hc)).1 (h line hline)
    · rintro (h | h) line hline
      · exact absurd hspace (h c hc)
      · exact (findKeyLine_eq_none_iff (List.ne_nil_of_mem hc)).2 (h line hline)

/-- A user who calls himself `a b` has the password `secret` where `a` has
`b secret`. -/
theorem findKey_blank :
    ¬∀ file key : Bytes, (findKey key (Lines.lines 10 file)).map Prod.fst =
      (Lines.lines 10 file).findSome? (valueOf key) := by
  intro h
  exact absurd (h (ascii "a b secret\n") (ascii "a b")) (by decide)

/-- The password of a user is the value of the first line for it. -/
theorem getPassword_eq (file : Bytes) {key : Bytes} (hkey : ∀ c ∈ key, ¬isSpace c) :
    getPassword file key = (Lines.lines 10 file).findSome? (valueOf key) := by
  have hline : findKeyLine key = valueOf key := funext (findKeyLine_eq_valueOf hkey)
  rw [getPassword, map_findKey, hline]

/-- One round of the loop over the groups. -/
theorem groupsLoop_eq (key : Bytes) (ls : List Bytes) :
    groupsLoop key ls =
      ((findKey key ls).map fun r => r.1 :: groupsLoop key r.2).getD [] := by
  rw [groupsLoop]
  split
  · rename_i val rest h
    simp only [h, Option.map_some, Option.getD_some]
  · rename_i h
    simp only [h, Option.map_none, Option.getD_none]

/-- The loop goes over all lines. -/
theorem groupsLoop_eq_filterMap (key : Bytes) (ls : List Bytes) :
    groupsLoop key ls = ls.filterMap (findKeyLine key) := by
  induction ls with
  | nil =>
    rw [groupsLoop_eq]
    rfl
  | cons line ls ih =>
    rw [groupsLoop_eq, findKey]
    cases hline : findKeyLine key line with
    | some val =>
      rw [List.filterMap_cons_some hline, ← ih]
      rfl
    | none =>
      rw [List.filterMap_cons_none hline, ← ih, groupsLoop_eq]

/-- The groups of a user are the values of all lines for it. -/
theorem getGroups_eq (file : Bytes) {key : Bytes} (hkey : ∀ c ∈ key, ¬isSpace c) :
    getGroups file key = (Lines.lines 10 file).filterMap (valueOf key) := by
  have hline : findKeyLine key = valueOf key := funext (findKeyLine_eq_valueOf hkey)
  rw [getGroups, groupsLoop_eq_filterMap, hline]

end Dbtext

end Dico
