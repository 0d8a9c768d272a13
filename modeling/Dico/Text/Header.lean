import Dico.List.Assoc
import Dico.Stream.Model
import Dico.Text.Cstr
import Dico.Text.Tokenize
/-!
# MIME headers

`dico_header_parse` of `lib/header.c`, which collects a line and its
continuations in a buffer, cuts it at the colon and appends the pair, and
the block of lines that `print_headers` of `dicod/ostream.c` writes. What
is written is parsed into the same pairs (`headers_roundTrip`).
-/

namespace Dico

/-- The colon. -/
def colon : UInt8 := 58

/-! ## The writer -/

/-- The block `print_headers` writes before the text. -/
def printHeaders (headers : Option (List (Bytes × Bytes))) : Bytes :=
  (headers.getD []).flatMap (fun p => p.1 ++ ascii ": " ++ p.2 ++ ascii "\n") ++ ascii "\n"

/-! ## The parser -/

/-- `struct hdr_buf`: the `level` bytes in use, and the size of the block. -/
structure HdrBuf where
  base : Bytes
  size : ℕ

namespace HdrBuf

/-- `HDR_BUF_INIT`. -/
def init : HdrBuf := ⟨[], 0⟩

/-- `hdr_buf_clear`. -/
def clear (buf : HdrBuf) : HdrBuf := { buf with base := [] }

/-- The size of the block that takes `len` bytes more. -/
def sizeFor (buf : HdrBuf) (len : ℕ) : ℕ :=
  if buf.size = 0 then 128 * ((len + 128 - 1) / 128)
  else if buf.base.length + len > buf.size then
    let diff := buf.base.length + len - buf.size
    buf.size * ((diff + buf.size - 1) / buf.size + 1)
  else buf.size

/-- `hdr_buf_append`. -/
def append (buf : HdrBuf) (str : Bytes) : Except Fault HdrBuf :=
  if str.length = 0 then .ok buf
  else if buf.base.length + str.length ≤ buf.sizeFor str.length then
    .ok ⟨buf.base ++ str, buf.sizeFor str.length⟩
  else .error .bounds

end HdrBuf

/-- The loop of `collect_line`, with the number of lines it may join. -/
def collectLoop (m : Bytes) : ℕ → ℕ → HdrBuf → Except Fault (ℕ × HdrBuf)
  | 0, _, _ => .error .loop
  | fuel + 1, text, hbuf => do
    let s ← strAt m text
    -- of the blanks a line begins with, one is kept
    let text := if isWs (s.headD 0) then text + strspn [space, tab] s - 1 else text
    let s ← strAt m text
    let n := strcspn [newline] s
    if n = 0 then .ok (text + s.length, hbuf)
    else
      let hbuf ← hbuf.append (s.take n)
      let text := text + n
      if n = s.length then .ok (text, hbuf)
      else
        let text := text + 1
        let s ← strAt m text
        if isWs (s.headD 0) then collectLoop m fuel text hbuf else .ok (text, hbuf)

/-- `collect_line`: the text behind it, the list with the new pair, and the
buffer. There is none where the line has no colon. -/
def collectLine (m : Bytes) (text : ℕ) (asc : DicoAssocList) (hbuf : HdrBuf) :
    Except Fault (Option (ℕ × DicoAssocList × HdrBuf)) := do
  let (text, hbuf) ← collectLoop m (m.length + 1) text hbuf.clear
  let hbuf ← hbuf.append [0]
  let s ← strAt hbuf.base 0
  match strchr colon s with
  | none => .ok none
  | some i =>
    let base ← store hbuf.base i 0
    let s ← strAt base (i + 1)
    let key ← strAt base 0
    let value ← strAt base (i + 1 + strspn [space, tab] s)
    .ok ((asc.append key value).map fun asc => (text, asc, { hbuf with base := base }))

/-- The loop of `dico_header_parse`, with the number of lines it may
collect. -/
def headerLoop (m : Bytes) : ℕ → ℕ → DicoAssocList → HdrBuf → Except Fault (Option DicoAssocList)
  | 0, _, _, _ => .error .loop
  | fuel + 1, text, asc, hbuf => do
    let s ← strAt m text
    if s = [] ∨ s.head? = some newline then .ok (some asc)
    else
      match ← collectLine m text asc hbuf with
      | none => .ok none
      | some (text, asc, hbuf) => headerLoop m fuel text asc hbuf

/-- `dico_header_parse`, on the block of memory from `text` on. -/
def dicoHeaderParse (text : Option Bytes) : Except Fault (Option DicoAssocList) :=
  match text with
  | none => .ok (some (.create true true))
  | some m => headerLoop m (m.length + 1) 0 (.create true true) .init

/-! ## What is written is parsed -/

/-- A header that can be written on a line. -/
structure Header where
  key : Bytes
  value : Bytes
  key_ne_nil : key ≠ []
  key_plain : ∀ b ∈ key, b ≠ 0 ∧ b ≠ newline ∧ b ≠ colon
  key_head : ∀ b ∈ key.head?, ¬ isWs b
  value_plain : ∀ b ∈ value, b ≠ 0 ∧ b ≠ newline
  value_head : ∀ b ∈ value.head?, ¬ isWs b

namespace Header

variable (x : Header)

/-- The header in a list. -/
def pair : Bytes × Bytes := (x.key, x.value)

/-- Its line, without the newline. -/
def line : Bytes := x.key ++ colon :: space :: x.value

/-- The lines of some headers, and the empty line. -/
def block (hs : List Header) : Bytes := (hs.flatMap fun x => x.line ++ [newline]) ++ [newline]

end Header

section Buffer

variable {buf : HdrBuf}

/-- Rounding up to a multiple. -/
theorem le_mul_ceil {size : ℕ} (hsize : 0 < size) (n : ℕ) :
    n ≤ size * ((n + size - 1) / size) := by
  have hdiv := Nat.div_add_mod (n + size - 1) size
  have hmod := Nat.mod_lt (n + size - 1) hsize
  omega

/-- The block is made large enough. -/
theorem HdrBuf.le_sizeFor (hfit : buf.base.length ≤ buf.size) (len : ℕ) :
    buf.base.length + len ≤ buf.sizeFor len := by
  rw [sizeFor]
  split_ifs with hnew hover
  · have hle := le_mul_ceil (show 0 < 128 by decide) len
    omega
  · have hle := le_mul_ceil (Nat.pos_of_ne_zero hnew) (buf.base.length + len - buf.size)
    simp only [Nat.mul_add, Nat.mul_one]
    omega
  · omega

/-- Appending to the buffer. -/
theorem HdrBuf.append_eq (hfit : buf.base.length ≤ buf.size) (str : Bytes) :
    ∃ buf', buf.append str = .ok buf' ∧ buf'.base = buf.base ++ str ∧
      buf'.base.length ≤ buf'.size := by
  rw [append]
  split_ifs with hnil hroom
  · refine ⟨buf, rfl, ?_, hfit⟩
    rw [List.eq_nil_of_length_eq_zero hnil, List.append_nil]
  · exact ⟨_, rfl, rfl, by rwa [List.length_append]⟩
  · exact absurd (le_sizeFor hfit _) hroom

end Buffer

section Lines

variable {x : Header} {hs : List Header} {hbuf : HdrBuf} {asc : DicoAssocList}

/-- The bytes of a line. -/
theorem Header.line_plain (x : Header) : ∀ b ∈ x.line, b ≠ 0 ∧ b ≠ newline := by
  intro b hb
  simp only [Header.line, List.mem_append, List.mem_cons] at hb
  rcases hb with h | rfl | rfl | h
  · exact ⟨(x.key_plain b h).1, (x.key_plain b h).2.1⟩
  · decide
  · decide
  · exact x.value_plain b h

/-- A line begins with the key. -/
theorem Header.line_head (x : Header) (t : Bytes) : ¬ isWs ((x.line ++ t).headD 0) := by
  obtain ⟨b, k, hk⟩ := List.exists_cons_of_ne_nil x.key_ne_nil
  have hb := x.key_head b (by rw [hk, List.head?_cons]; rfl)
  rw [Header.line, hk]
  exact hb

/-- One line is collected, where the next begins with no blank. -/
theorem collectLoop_line (pre r junk : Bytes) (x : Header) (fuel : ℕ) (hr : 0 ∉ r)
    (hhead : ¬ isWs (r.headD 0)) (hfit : hbuf.base.length ≤ hbuf.size) :
    ∃ hbuf', collectLoop (pre ++ (x.line ++ newline :: (r ++ 0 :: junk))) (fuel + 1) pre.length
        hbuf = .ok ((pre ++ (x.line ++ [newline])).length, hbuf') ∧
      hbuf'.base = hbuf.base ++ x.line ∧ hbuf'.base.length ≤ hbuf'.size := by
  obtain ⟨hbuf', happend, hbase, hfit'⟩ := HdrBuf.append_eq hfit x.line
  refine ⟨hbuf', ?_, hbase, hfit'⟩
  have hnull : 0 ∉ x.line ++ newline :: r := by
    intro h
    rcases List.mem_append.1 h with h | h
    · exact (x.line_plain 0 h).1 rfl
    · exact hr ((List.mem_cons.1 h).resolve_left (by decide))
  have hstr : strAt (pre ++ (x.line ++ newline :: (r ++ 0 :: junk))) pre.length =
      .ok (x.line ++ newline :: r) := by
    have happ := strAt_append pre hnull junk
    rwa [List.append_assoc, List.cons_append] at happ
  have hlen : (pre ++ (x.line ++ [newline])).length = pre.length + x.line.length + 1 := by
    simp only [List.length_append, List.length_singleton, Nat.add_assoc]
  have hrest : strAt (pre ++ (x.line ++ newline :: (r ++ 0 :: junk)))
      (pre.length + x.line.length + 1) = .ok r := by
    have happ := strAt_append (pre ++ (x.line ++ [newline])) hr junk
    rw [hlen] at happ
    simpa only [List.append_assoc, List.cons_append, List.nil_append] using happ
  have hspan : strcspn [newline] (x.line ++ newline :: r) = x.line.length :=
    strcspn_append (fun b hb hmem => (x.line_plain b hb).2 (List.mem_singleton.1 hmem))
      List.mem_cons_self
  have hpos : x.line.length ≠ 0 := by
    rw [Header.line, List.length_append, List.length_cons]
    omega
  have hne : x.line.length ≠ (x.line ++ newline :: r).length := by
    rw [List.length_append, List.length_cons]
    omega
  rw [collectLoop, hstr, ok_bind, hlen]
  simp only [if_neg (x.line_head _), hstr, ok_bind, hspan, if_neg hpos, List.take_left, happend,
    if_neg hne, hrest, if_neg hhead]

/-- Blanks are passed over up to a byte that is none. -/
theorem strspn_blank (x : Header) : strspn [space, tab] (space :: x.value) = 1 := by
  rw [strspn, List.takeWhile_cons_of_pos (by decide), List.length_cons, ← strspn]
  cases hv : x.value with
  | nil => rfl
  | cons b v =>
    have hb := x.value_head b (by rw [hv]; rfl)
    have hmem : b ∉ [space, tab] := by
      intro h
      rcases List.mem_cons.1 h with h | h
      · exact hb (.inl h)
      · exact hb (.inr (List.mem_singleton.1 h))
    rw [strspn_cons hmem]

/-- **One line** adds its pair to the list. -/
theorem collectLine_line (pre r junk : Bytes) (x : Header) (hr : 0 ∉ r)
    (hhead : ¬ isWs (r.headD 0)) (hasc : asc.mult = true) :
    ∃ hbuf', collectLine (pre ++ (x.line ++ newline :: (r ++ 0 :: junk))) pre.length asc hbuf =
      .ok (some ((pre ++ (x.line ++ [newline])).length,
        { asc with list := asc.list ++ [x.pair] }, hbuf')) := by
  obtain ⟨hbuf₁, hloop, hbase₁, hfit₁⟩ := collectLoop_line pre r junk x
    (pre ++ (x.line ++ newline :: (r ++ 0 :: junk))).length hr hhead
    (show hbuf.clear.base.length ≤ hbuf.clear.size from Nat.zero_le _)
  obtain ⟨hbuf₂, happend, hbase₂, -⟩ := HdrBuf.append_eq hfit₁ [0]
  have hbase : hbuf₂.base = x.line ++ [0] := by
    rw [hbase₂, hbase₁, HdrBuf.clear, List.nil_append]
  have hkey : 0 ∉ x.key := fun h => (x.key_plain 0 h).1 rfl
  have hvalue : 0 ∉ x.value := fun h => (x.value_plain 0 h).1 rfl
  have hstr : strAt hbuf₂.base 0 = .ok x.line := by
    rw [hbase]
    exact strAt_append [] (fun h => (x.line_plain 0 h).1 rfl) []
  have hchr : strchr colon x.line = some x.key.length :=
    strchr_append fun h => (x.key_plain colon h).2.2 rfl
  have hstore : store hbuf₂.base x.key.length 0 =
      .ok (x.key ++ 0 :: (space :: x.value ++ [0])) := by
    rw [hbase, Header.line, List.append_assoc]
    exact store_append x.key colon _
  have hrest : strAt (x.key ++ 0 :: (space :: x.value ++ [0])) (x.key.length + 1) =
      .ok (space :: x.value) := by
    have happ := strAt_append (x.key ++ [0]) (s := space :: x.value)
      (fun h => hvalue ((List.mem_cons.1 h).resolve_left (by decide))) []
    rwa [List.append_assoc, List.length_append] at happ
  have hval : strAt (x.key ++ 0 :: (space :: x.value ++ [0])) (x.key.length + 1 + 1) =
      .ok x.value := by
    have happ := strAt_append (x.key ++ [0, space]) hvalue []
    rwa [List.append_assoc, List.length_append] at happ
  have hkey' : strAt (x.key ++ 0 :: (space :: x.value ++ [0])) 0 = .ok x.key :=
    strAt_append [] hkey _
  refine ⟨{ hbuf₂ with base := x.key ++ 0 :: (space :: x.value ++ [0]) }, ?_⟩
  rw [collectLine, hloop, ok_bind]
  simp only [happend, hstr, ok_bind, hchr, hstore, hrest, strspn_blank, hkey', hval,
    asc.append_mult hasc, Option.map_some]
  rfl

/-- The first line of some. -/
theorem block_cons (x : Header) (hs : List Header) :
    Header.block (x :: hs) = x.line ++ newline :: Header.block hs := by
  simp only [Header.block, List.flatMap_cons, List.append_assoc, List.cons_append,
    List.nil_append]

/-- The lines behind a line begin with no blank. -/
theorem block_head (hs : List Header) : ¬ isWs ((Header.block hs).headD 0) := by
  cases hs with
  | nil => decide
  | cons x hs =>
    rw [block_cons]
    exact x.line_head _

/-- No null is in them. -/
theorem null_notMem_block (hs : List Header) : 0 ∉ Header.block hs := by
  intro h
  rcases List.mem_append.1 h with h | h
  · obtain ⟨x, -, hx⟩ := List.mem_flatMap.1 h
    rcases List.mem_append.1 hx with h | h
    · exact (x.line_plain 0 h).1 rfl
    · exact absurd (List.mem_singleton.1 h) (by decide)
  · exact absurd (List.mem_singleton.1 h) (by decide)

/-- Each header has its line. -/
theorem length_le_block (hs : List Header) : hs.length ≤ (Header.block hs).length := by
  induction hs with
  | nil => exact Nat.zero_le _
  | cons x hs ih =>
    rw [block_cons, List.length_append, List.length_cons, List.length_cons]
    omega

/-- **Line after line**, the pairs are added to the list. -/
theorem headerLoop_block (hs : List Header) (pre junk : Bytes) (fuel : ℕ)
    (hasc : asc.mult = true) (hfuel : hs.length < fuel) :
    headerLoop (pre ++ (Header.block hs ++ 0 :: junk)) fuel pre.length asc hbuf =
      .ok (some { asc with list := asc.list ++ hs.map Header.pair }) := by
  induction hs generalizing pre fuel asc hbuf with
  | nil =>
    obtain ⟨fuel, rfl⟩ := Nat.exists_eq_add_of_lt hfuel
    rw [headerLoop, strAt_append pre (null_notMem_block []), ok_bind, List.map_nil,
      List.append_nil]
    exact if_pos (.inr rfl)
  | cons x hs ih =>
    obtain ⟨fuel, rfl⟩ := Nat.exists_eq_add_of_lt hfuel
    obtain ⟨hbuf', hline⟩ := @collectLine_line hbuf asc pre (Header.block hs) junk x
      (null_notMem_block hs) (block_head hs) hasc
    have hmore := @ih hbuf' { asc with list := asc.list ++ [x.pair] }
      (pre ++ (x.line ++ [newline])) ((x :: hs).length + fuel) hasc
      (by rw [List.length_cons]; omega)
    have hstr := strAt_append pre (null_notMem_block (x :: hs)) junk
    have hgo : ¬ (Header.block (x :: hs) = [] ∨ (Header.block (x :: hs)).head? = some newline) := by
      obtain ⟨b, k, hk⟩ := List.exists_cons_of_ne_nil x.key_ne_nil
      have hb := (x.key_plain b (hk ▸ List.mem_cons_self)).2.1
      rw [block_cons, Header.line, hk]
      rintro (h | h)
      · cases h
      · exact hb (Option.some.inj h)
    rw [headerLoop, hstr, ok_bind, if_neg hgo, block_cons, List.append_assoc, List.cons_append,
      hline, ok_bind]
    simp only [List.append_assoc, List.cons_append, List.nil_append] at hmore ⊢
    exact hmore

end Lines

/-- **Headers come back**: the block that is written is parsed into the
same pairs in the same order. -/
theorem headers_roundTrip (hs : List Header) (junk : Bytes) :
    dicoHeaderParse (some (printHeaders (some (hs.map Header.pair)) ++ 0 :: junk)) =
      .ok (some ⟨true, true, hs.map Header.pair⟩) := by
  have hblock : printHeaders (some (hs.map Header.pair)) = Header.block hs := by
    rw [printHeaders, Option.getD_some, List.flatMap_map, Header.block,
      show ascii ": " = [colon, space] by decide, show ascii "\n" = [newline] by decide]
    simp only [Header.pair, Header.line, List.append_assoc, List.cons_append, List.nil_append]
  have hfuel : hs.length < (Header.block hs ++ 0 :: junk).length + 1 := by
    have hle := length_le_block hs
    rw [List.length_append]
    omega
  rw [hblock]
  exact headerLoop_block hs [] junk _ rfl hfuel

example : dicoHeaderParse (some (ascii "a: b\n  c\nd:\n\n" ++ [0])) =
    .ok (some ⟨true, true, [(ascii "a", ascii "b c"), (ascii "d", [])]⟩) := by decide +kernel

end Dico
