import Dico.Gcide.Page
/-!
# Writing the index

`idxgcide` keeps one page in memory. It puts the headword of each
reference behind the text that is there, and the reference behind the
others, and writes the page out when either part is full. What
`gcide_idx_enumerate` reads back from the file is what was put into it,
as long as the `int` that counts the references can count them.
-/

namespace Dico

namespace Gcide

open Memory (peek poke toLe ofLe getWord setWord)

/-! ## The model -/

/-- The state of `idxgcide`. -/
structure Writer where
  /-- `ihdr_pagesize`. -/
  pagesize : ℕ
  /-- `ihdr_maxpageref`. -/
  maxpageref : ℕ
  /-- `ihdr_num_pages`. -/
  numPages : ℕ
  /-- `idx_page`. -/
  page : Bytes
  /-- What was written behind the first page of the file. -/
  out : Bytes
  deriving DecidableEq, Repr

/-- What `main` does to begin with, in the memory that `malloc` returned. It
does not set the number of references. -/
def start (mem : Bytes) (pagesize : ℕ) : Except Stop Writer := do
  let page ← inside (setWord mem 8 (pagesize / 2))
  let maxpageref := pagesize / 2 / refSize
  if maxpageref < 1 then .error .exit
  else .ok ⟨pagesize, maxpageref - 1, 0, page, []⟩

/-- `flush_page`. -/
def flushPage (w : Writer) : Except Stop Writer := do
  let numentries ← inside (getWord w.page 0)
  let textOffset ← inside (getWord w.page 8)
  if numentries = 0 ∨ textOffset = 0 then .error .exit
  else do
    let page ← inside (setWord (List.replicate w.pagesize 0) 8 (w.pagesize / 2))
    .ok { w with page := page, out := w.out ++ w.page, numPages := w.numPages + 1 }

/-- What `store_ref` does to the page, once there is room. -/
def putRef (page : Bytes) (ref : Ref) : Except Stop Bytes := do
  let textOffset ← inside (getWord page 8)
  let ref := { ref with hwoff := UInt64.ofNat textOffset }
  let text ← inside (peek (ref.headword ++ [0]) 0 ref.hwbytelen.toNat)
  let page ← inside (poke page textOffset text)
  let textOffset ← inside (getWord page 8)
  let page ← inside (setWord page 8 ((textOffset + ref.hwbytelen.toNat) % 2 ^ 64))
  let numentries ← inside (getWord page 0)
  let page ← inside (setWord page 0 ((numentries + 1) % 2 ^ 64))
  inside (poke page (refSize * (numentries + 1)) ref.bytes)

/-- `store_ref`. -/
def storeRef (w : Writer) (ref : Ref) : Except Stop Writer := do
  let numentries ← inside (getWord w.page 0)
  let textOffset ← inside (getWord w.page 8)
  let w ← if numentries = w.maxpageref ∨
      w.pagesize < (textOffset + ref.hwbytelen.toNat) % 2 ^ 64 then flushPage w else .ok w
  let page ← putRef w.page ref
  .ok { w with page := page }

/-- `refcmp`. -/
def refcmp (aref bref : Ref) : Option ℤ := utf8Strcasecmp aref.headword bref.headword

/-- The loop of `flush_refs`, of whose references `i` are behind. -/
def flushRefsLoop : ℕ → List Ref → Writer → Except Stop Writer
  | _, [], w => .ok w
  | i, ref :: refs, w => do
    let w ← storeRef w ref
    if i + 1 = 2 ^ 31 then .error .overflow else flushRefsLoop (i + 1) refs w

/-- `flush_refs`, with the `qsort` it calls. -/
def flushRefs (qsort : List Ref → List Ref) (refs : List Ref) (w : Writer) :
    Except Stop Writer := do
  let w ← flushRefsLoop 0 (qsort refs) w
  let numentries ← inside (getWord w.page 0)
  if numentries ≠ 0 then flushPage w else .ok w

/-- The header of the file. -/
def headerBytes (w : Writer) (numHeadwords numDefs : ℕ) : Bytes :=
  ascii "GCIDEIDX" ++ toLe 8 w.pagesize ++ toLe 8 w.maxpageref ++ toLe 8 w.numPages ++
    toLe 8 numHeadwords ++ toLe 8 numDefs

/-- The index file, as it is opened: the header in the first page, if there
are others, and what was written behind that. -/
def Writer.file (w : Writer) (numHeadwords numDefs : ℕ) : IdxFile where
  pagesize := w.pagesize
  numPages := w.numPages
  content := headerBytes w numHeadwords numDefs ++
    List.replicate (if w.out = [] then 0 else w.pagesize - 48) 0 ++ w.out

/-! ## What is asked -/

/-- What a reference says. -/
def Ref.content (ref : Ref) : Bytes × UInt64 × UInt64 × Int32 × UInt64 × UInt64 :=
  (ref.headword, ref.hwlen, ref.hwbytelen, ref.letter, ref.offset, ref.size)

/-- A reference made of a string, whose text is not longer than the text
area of a page. -/
structure Storable (pagesize : ℕ) (ref : Ref) : Prop where
  /-- It is a string. -/
  null_notMem : 0 ∉ ref.headword
  /-- It is counted with its null byte. -/
  hwbytelen_eq : ref.hwbytelen.toNat = ref.headword.length + 1
  /-- There is room for it. -/
  hwbytelen_le : ref.hwbytelen.toNat ≤ pagesize / 2

/-- A page of the file: it has references, not too many; they end before
the text area begins, that is inside the page, and the headwords are in
it. -/
def PageFits (file : IdxFile) (maxpageref n : ℕ) : Prop :=
  ∃ page numentries textOffset,
    peek file.content ((n + 1) * file.pagesize) file.pagesize = some page ∧
    getWord page 0 = some numentries ∧ getWord page 8 = some textOffset ∧
    1 ≤ numentries ∧ numentries ≤ maxpageref ∧
    refSize * (numentries + 1) ≤ file.pagesize / 2 ∧ textOffset ≤ file.pagesize ∧
    ∀ i < numentries, ∃ ref, refAt page i = .ok ref ∧ file.pagesize / 2 ≤ ref.hwoff.toNat ∧
      ref.hwoff.toNat + ref.hwbytelen.toNat ≤ textOffset

/-- A `qsort` sorts some references by `refcmp`. -/
structure Sorts (qsort : List Ref → List Ref) (refs : List Ref) : Prop where
  /-- It only changes their order. -/
  perm : (qsort refs).Perm refs
  /-- The order is that of `refcmp`. -/
  sorted : (qsort refs).Pairwise fun a b => ∃ rc, refcmp a b = some rc ∧ rc ≤ 0

/-- What is asked of writer and reader, where the memory of the page is zero
to begin with: every page is as it should be, and the references that are
visited are those that were written, in the order of `refcmp`. -/
def WriterAgrees (pagesize : ℕ) (qsort : List Ref → List Ref) (refs : List Ref) : Prop :=
  ∃ w₀ w, start (List.replicate pagesize 0) pagesize = .ok w₀ ∧
    flushRefs qsort refs w₀ = .ok w ∧
    ∀ numDefs, (∀ n < w.numPages, PageFits (w.file refs.length numDefs) w.maxpageref n) ∧
      ∃ visited, enumerate (w.file refs.length numDefs)
          (fun (acc : List Ref) ref => (false, acc ++ [ref])) [] = .ok (0, visited) ∧
        (visited.map Ref.content).Perm (refs.map Ref.content) ∧
        visited.Pairwise fun a b => ∃ rc, refcmp a b = some rc ∧ rc ≤ 0

/-! ## Reading a reference -/

section Pages

/-- The size of a reference. -/
theorem length_bytes (ref : Ref) : ref.bytes.length = refSize := by
  simp only [Ref.bytes, List.length_append, Memory.length_toLe]
  rfl

/-- An `unsigned long` in memory. -/
theorem ofNat_ofLe_toLe (v : UInt64) : UInt64.ofNat (ofLe (toLe 8 v.toNat)) = v := by
  rw [Memory.ofLe_toLe, Nat.mod_eq_of_lt (by have := v.toNat_lt; omega), UInt64.ofNat_toNat]

/-- An `int` in memory. -/
theorem ofNat_ofLe_toLe_int (v : Int32) :
    (UInt32.ofNat (ofLe (toLe 4 v.toUInt32.toNat))).toInt32 = v := by
  have hlt := v.toUInt32.toNat_lt
  rw [Memory.ofLe_toLe, Nat.mod_eq_of_lt (by omega), UInt32.ofNat_toNat,
    Int32.toInt32_toUInt32]

/-- A reference as it is read: its address is that of the headword in the
page. -/
def Ref.located (ref : Ref) : Ref := { ref with addr := ref.hwoff }

/-- **Reading back a reference**: where the page has its memory at its
place, and the string where it says. -/
theorem refAt_eq {page : Bytes} {i : ℕ} {ref : Ref}
    (hmem : peek page (refSize * (i + 1)) refSize = some ref.bytes)
    (htext : peek page ref.hwoff.toNat (ref.headword.length + 1) = some (ref.headword ++ [0]))
    (hnull : 0 ∉ ref.headword) : refAt page i = .ok ref.located := by
  have hstr : strAt page ref.hwoff.toNat = .ok ref.headword := by
    have hdrop : page.drop ref.hwoff.toNat = ref.headword ++
        0 :: (page.drop ref.hwoff.toNat).drop (ref.headword.length + 1) := by
      conv_lhs => rw [← List.take_append_drop (ref.headword.length + 1)
        (page.drop ref.hwoff.toNat), Memory.peek_val htext]
      rw [List.append_assoc, List.singleton_append]
    rw [strAt, hdrop, if_pos (List.mem_append_right _ List.mem_cons_self), takeWhile_ne_zero hnull]
  have hoff : ofLe (toLe 8 ref.hwoff.toNat) = ref.hwoff.toNat := by
    have := ref.hwoff.toNat_lt
    rw [Memory.ofLe_toLe, Nat.mod_eq_of_lt (by omega)]
  -- each field is where the record has it
  have h₀ : (ref.bytes.drop 0).take 8 = toLe 8 ref.hwoff.toNat := rfl
  have h₁ : (ref.bytes.drop 8).take 8 = toLe 8 ref.hwlen.toNat := rfl
  have h₂ : (ref.bytes.drop 16).take 8 = toLe 8 ref.hwbytelen.toNat := rfl
  have h₃ : (ref.bytes.drop 24).take 4 = toLe 4 ref.letter.toUInt32.toNat := rfl
  have h₄ : (ref.bytes.drop 32).take 8 = toLe 8 ref.offset.toNat := rfl
  have h₅ : (ref.bytes.drop 40).take 8 = toLe 8 ref.size.toNat := rfl
  rw [refAt, hmem, inside, ok_bind]
  dsimp only
  rw [h₀, h₁, h₂, h₃, h₄, h₅, hoff, hstr, UInt64.ofNat_toNat, ofNat_ofLe_toLe, ofNat_ofLe_toLe,
    ofNat_ofLe_toLe, ofNat_ofLe_toLe, ofNat_ofLe_toLe_int]
  rfl

/-! ## A page in memory -/

/-- A reference is in a page, whose text ends at `text`: its memory in the
array, and its headword in the text area. -/
structure RefHolds (pagesize : ℕ) (page : Bytes) (text i : ℕ) (ref : Ref) : Prop where
  /-- It can be there. -/
  storable : Storable pagesize ref
  /-- The `i`th of the array. -/
  memory : peek page (refSize * (i + 1)) refSize = some ref.bytes
  /-- The headword. -/
  string : peek page ref.hwoff.toNat (ref.headword.length + 1) = some (ref.headword ++ [0])
  /-- It is behind the array. -/
  lower : pagesize / 2 ≤ ref.hwoff.toNat
  /-- And before the end of the text. -/
  upper : ref.hwoff.toNat + ref.hwbytelen.toNat ≤ text

/-- A page has some references, and its text ends at `text`. -/
structure PageHolds (pagesize : ℕ) (page : Bytes) (refs : List Ref) (text : ℕ) : Prop where
  /-- The size of the page. -/
  length_eq : page.length = pagesize
  /-- `phdr_numentries`. -/
  numentries : getWord page 0 = some refs.length
  /-- `phdr_text_offset`. -/
  textOffset : getWord page 8 = some text
  /-- There are not too many. -/
  count_le : refs.length ≤ pagesize / 2 / refSize - 1
  /-- The text is behind the array. -/
  lower : pagesize / 2 ≤ text
  /-- And inside the page. -/
  upper : text ≤ pagesize
  /-- A page without references has no text. -/
  empty : refs = [] → text = pagesize / 2
  /-- The references. -/
  ref : ∀ i ref, refs[i]? = some ref → RefHolds pagesize page text i ref

variable {pagesize text : ℕ} {page : Bytes} {refs : List Ref} {ref : Ref}

/-- The head of a page: it has `n` references, and its text ends at `text`. -/
structure Sized (pagesize : ℕ) (page : Bytes) (n text : ℕ) : Prop where
  /-- The size of the page. -/
  length_eq : page.length = pagesize
  /-- `phdr_numentries`. -/
  numentries : getWord page 0 = some n
  /-- `phdr_text_offset`. -/
  textOffset : getWord page 8 = some text
  /-- There are not too many. -/
  count_le : n ≤ pagesize / 2 / refSize - 1
  /-- The text is behind the array. -/
  lower : pagesize / 2 ≤ text
  /-- And inside the page. -/
  upper : text ≤ pagesize
  /-- A page without references has no text. -/
  empty : n = 0 → text = pagesize / 2

/-- A page and its head. -/
theorem PageHolds.sized (h : PageHolds pagesize page refs text) :
    Sized pagesize page refs.length text where
  length_eq := h.length_eq
  numentries := h.numentries
  textOffset := h.textOffset
  count_le := h.count_le
  lower := h.lower
  upper := h.upper
  empty := fun hn => h.empty (List.eq_nil_of_length_eq_zero hn)

/-- **The first page**: the memory that `malloc` returned, with the offset of
the text; what is in the place of the count stays there. -/
theorem page_start {mem : Bytes} {n : ℕ} (hpage : pagesize < 2 ^ 63)
    (hmax : 1 ≤ pagesize / 2 / refSize) (hmem : mem.length = pagesize)
    (hn : getWord mem 0 = some n) :
    ∃ page, setWord mem 8 (pagesize / 2) = some page ∧ page.length = pagesize ∧
      getWord page 0 = some n ∧ getWord page 8 = some (pagesize / 2) := by
  rw [refSize] at hmax
  have hset : setWord mem 8 (pagesize / 2) = some _ :=
    Memory.poke_eq_some (by rw [Memory.length_toLe, hmem]; omega)
  refine ⟨_, hset, ?_, ?_, Memory.getWord_setWord hset (by omega)⟩
  · rw [Memory.length_of_poke hset, hmem]
  · rw [Memory.getWord_poke_of_disjoint hset (.inl (by omega)), hn]

/-- A page for which the count is right. -/
theorem sized_start {mem : Bytes} {n : ℕ} (hpage : pagesize < 2 ^ 63)
    (hmax : 1 ≤ pagesize / 2 / refSize) (hmem : mem.length = pagesize)
    (hn : getWord mem 0 = some n) (hle : n ≤ pagesize / 2 / refSize - 1) :
    ∃ page, setWord mem 8 (pagesize / 2) = some page ∧ Sized pagesize page n (pagesize / 2) := by
  obtain ⟨page, hset, hlen, hnum, htext⟩ := page_start hpage hmax hmem hn
  exact ⟨page, hset, hlen, hnum, htext, hle, le_rfl, by omega, fun _ => rfl⟩

/-- The count in memory that is zero. -/
theorem getWord_replicate (hmax : 1 ≤ pagesize / 2 / refSize) :
    getWord (List.replicate pagesize 0) 0 = some 0 := by
  rw [refSize] at hmax
  rw [getWord, Memory.peek_eq_some (by rw [List.length_replicate]; omega), List.drop_replicate,
    List.take_replicate, min_eq_left (by omega)]
  rfl

/-- A page in memory that is zero. -/
theorem sized_zero (hpage : pagesize < 2 ^ 63) (hmax : 1 ≤ pagesize / 2 / refSize) :
    ∃ page, setWord (List.replicate pagesize 0) 8 (pagesize / 2) = some page ∧
      Sized pagesize page 0 (pagesize / 2) :=
  sized_start hpage hmax List.length_replicate (getWord_replicate hmax) (Nat.zero_le _)

/-- A page without references. -/
theorem pageHolds_nil {mem : Bytes} (hpage : pagesize < 2 ^ 63)
    (hmax : 1 ≤ pagesize / 2 / refSize - 1) (hmem : mem.length = pagesize)
    (hzero : getWord mem 0 = some 0) :
    ∃ page, setWord mem 8 (pagesize / 2) = some page ∧
      PageHolds pagesize page [] (pagesize / 2) := by
  obtain ⟨page, hset, h⟩ := sized_start hpage (by omega) hmem hzero (Nat.zero_le _)
  exact ⟨page, hset, h.length_eq, h.numentries, h.textOffset, h.count_le, h.lower, h.upper,
    fun _ => rfl, fun i ref hi => by cases hi⟩

/-- What is written of a reference and where: the headword, and then the
words of the header and the memory of the reference; nothing else is
touched. -/
theorem putRef_eq {n : ℕ} (hpage : pagesize < 2 ^ 63) (h : Sized pagesize page n text)
    (hroom : n < pagesize / 2 / refSize - 1)
    (hbytelen : ref.hwbytelen.toNat = ref.headword.length + 1)
    (hfit : text + ref.hwbytelen.toNat ≤ pagesize) :
    ∃ page₁ page', poke page text (ref.headword ++ [0]) = some page₁ ∧
      putRef page ref = .ok page' ∧ page'.length = pagesize ∧
      getWord page' 0 = some (n + 1) ∧
      getWord page' 8 = some (text + ref.hwbytelen.toNat) ∧
      peek page' (refSize * (n + 1)) refSize =
        some { ref with hwoff := UInt64.ofNat text }.bytes ∧
      ∀ off k, 16 ≤ off →
        off + k ≤ refSize * (n + 1) ∨ refSize * (n + 2) ≤ off →
        peek page' off k = peek page₁ off k := by
  have hlower := h.lower
  have hlength := h.length_eq
  have hsize : refSize = 56 := rfl
  rw [hsize] at hroom
  have htextlen : (ref.headword ++ [0]).length = ref.hwbytelen.toNat := by
    rw [List.length_append, List.length_singleton, hbytelen]
  have htext : peek (ref.headword ++ [0]) 0 ref.hwbytelen.toNat = some (ref.headword ++ [0]) := by
    rw [Memory.peek_eq_some (by omega), List.drop_zero, ← htextlen, List.take_length]
  -- the headword
  have h₁ : poke page text (ref.headword ++ [0]) = some _ := Memory.poke_eq_some (by omega)
  generalize hp₁ : page.take text ++ _ ++ _ = page₁ at h₁
  have hlen₁ := (Memory.length_of_poke h₁).trans hlength
  have hoff₁ : getWord page₁ 8 = some text := by
    rw [Memory.getWord_poke_of_disjoint h₁ (.inl (by omega)), h.textOffset]
  have hnum₁ : getWord page₁ 0 = some n := by
    rw [Memory.getWord_poke_of_disjoint h₁ (.inl (by omega)), h.numentries]
  -- the end of the text
  have hmod₂ : (text + ref.hwbytelen.toNat) % 2 ^ 64 = text + ref.hwbytelen.toNat :=
    Nat.mod_eq_of_lt (by omega)
  have h₂ : setWord page₁ 8 (text + ref.hwbytelen.toNat) = some _ :=
    Memory.poke_eq_some (by rw [Memory.length_toLe]; omega)
  generalize hp₂ : page₁.take 8 ++ _ ++ _ = page₂ at h₂
  have hlen₂ := (Memory.length_of_poke h₂).trans hlen₁
  have hnum₂ : getWord page₂ 0 = some n := by
    rw [Memory.getWord_poke_of_disjoint h₂ (.inl (by omega)), hnum₁]
  -- the number of references
  have hmod₃ : (n + 1) % 2 ^ 64 = n + 1 := Nat.mod_eq_of_lt (by omega)
  have h₃ : setWord page₂ 0 (n + 1) = some _ :=
    Memory.poke_eq_some (by rw [Memory.length_toLe]; omega)
  generalize hp₃ : page₂.take 0 ++ _ ++ _ = page₃ at h₃
  have hlen₃ := (Memory.length_of_poke h₃).trans hlen₂
  -- the reference
  have hbytes := length_bytes { ref with hwoff := UInt64.ofNat text }
  have h₄ : poke page₃ (refSize * (n + 1))
      { ref with hwoff := UInt64.ofNat text }.bytes = some _ :=
    Memory.poke_eq_some (by rw [hbytes, hsize]; omega)
  generalize hp₄ : page₃.take _ ++ _ ++ _ = page₄ at h₄
  have hlen₄ := (Memory.length_of_poke h₄).trans hlen₃
  refine ⟨page₁, page₄, h₁, ?_, hlen₄, ?_, ?_, ?_, ?_⟩
  · simp only [putRef, h.textOffset, inside, ok_bind, htext, h₁, hoff₁, hmod₂, h₂, hnum₂, hmod₃,
      h₃, h₄]
  · rw [Memory.getWord_poke_of_disjoint h₄ (.inl (by rw [hsize]; omega)),
      Memory.getWord_setWord h₃ (by omega)]
  · rw [Memory.getWord_poke_of_disjoint h₄ (.inl (by rw [hsize]; omega)),
      Memory.getWord_poke_of_disjoint h₃ (.inr (by rw [Memory.length_toLe])),
      Memory.getWord_setWord h₂ (by omega)]
  · have hpeek := Memory.peek_poke h₄
    rwa [hbytes] at hpeek
  · intro off k hoff hout
    rw [Memory.peek_poke_of_disjoint h₄ (by rw [hbytes, hsize]; rw [hsize] at hout; omega),
      Memory.peek_poke_of_disjoint h₃ (.inr (by rw [Memory.length_toLe]; omega)),
      Memory.peek_poke_of_disjoint h₂ (.inr (by rw [Memory.length_toLe]; omega))]

/-- A reference that was there: none of the writes touches it. -/
theorem RefHolds.kept {page₁ page' src : Bytes} {text' n i : ℕ} {r : Ref}
    (h : RefHolds pagesize page text i r) (h₁ : poke page text src = some page₁) (hi : i < n)
    (hcount : refSize * (n + 2) ≤ pagesize / 2) (hle : text ≤ text')
    (hframe : ∀ off k, 16 ≤ off →
      off + k ≤ refSize * (n + 1) ∨ refSize * (n + 2) ≤ off →
      peek page' off k = peek page₁ off k) :
    RefHolds pagesize page' text' i r := by
  have hsize : refSize = 56 := rfl
  have hlower := h.lower
  have hupper := h.upper
  have hlen := h.storable.hwbytelen_eq
  rw [hsize] at hcount
  refine ⟨h.storable, ?_, ?_, hlower, by omega⟩
  · rw [hframe _ _ (by rw [hsize]; omega) (.inl (by rw [hsize]; omega)),
      Memory.peek_poke_of_disjoint h₁ (.inl (by rw [hsize]; omega)), h.memory]
  · rw [hframe _ _ (by omega) (.inr (by rw [hsize]; omega)),
      Memory.peek_poke_of_disjoint h₁ (.inl (by omega)), h.string]

/-- An element of a list with one more. -/
theorem getElem?_concat_cases {α : Type} {l : List α} {a b : α} {i : ℕ}
    (h : (l ++ [a])[i]? = some b) : i < l.length ∧ l[i]? = some b ∨ i = l.length ∧ a = b := by
  have hlen := (List.getElem?_eq_some_iff.1 h).1
  rw [List.length_append, List.length_singleton] at hlen
  rcases Nat.lt_or_ge i l.length with hlt | hge
  · rw [List.getElem?_append_left hlt] at h
    exact Or.inl ⟨hlt, h⟩
  · obtain rfl : i = l.length := by omega
    rw [List.getElem?_concat_length] at h
    exact Or.inr ⟨rfl, Option.some.inj h⟩

/-- **A page with one reference more.** -/
theorem PageHolds.putRef (hpage : pagesize < 2 ^ 63) (h : PageHolds pagesize page refs text)
    (hroom : refs.length < pagesize / 2 / refSize - 1) (href : Storable pagesize ref)
    (hfit : text + ref.hwbytelen.toNat ≤ pagesize) :
    ∃ page', Gcide.putRef page ref = .ok page' ∧
      PageHolds pagesize page' (refs ++ [{ ref with hwoff := UInt64.ofNat text }])
        (text + ref.hwbytelen.toNat) := by
  obtain ⟨page₁, page', h₁, hput, hlength, hnum, hoff, hmem, hframe⟩ :=
    putRef_eq hpage h.sized hroom href.hwbytelen_eq hfit
  have hlower := h.lower
  have hbytelen := href.hwbytelen_eq
  have hsize : refSize = 56 := rfl
  have htextlen : (ref.headword ++ [0]).length = ref.headword.length + 1 := by
    rw [List.length_append, List.length_singleton]
  have hcount : refSize * (refs.length + 2) ≤ pagesize / 2 := by
    rw [hsize] at hroom ⊢
    omega
  have hbehind : 16 ≤ text := by
    rw [hsize] at hcount
    omega
  have htext : (UInt64.ofNat text).toNat = text := by
    rw [UInt64.toNat_ofNat', Nat.mod_eq_of_lt (by have := h.upper; omega)]
  refine ⟨page', hput, hlength, ?_, hoff, ?_, by omega, hfit, fun hnil => ?_, fun i r hi => ?_⟩
  · rw [hnum, List.length_append, List.length_singleton]
  · rw [List.length_append, List.length_singleton]
    omega
  · exact absurd hnil (List.append_ne_nil_of_right_ne_nil _ (List.cons_ne_nil _ _))
  rcases getElem?_concat_cases hi with ⟨hlt, hi⟩ | ⟨rfl, rfl⟩
  · exact (h.ref i r hi).kept h₁ hlt hcount (by omega) hframe
  · -- the new one
    refine ⟨⟨href.null_notMem, href.hwbytelen_eq, href.hwbytelen_le⟩, hmem, ?_, ?_, ?_⟩
    · change peek page' (UInt64.ofNat text).toNat (ref.headword.length + 1) = _
      have hpeek := Memory.peek_poke h₁
      rw [htextlen] at hpeek
      rw [htext, hframe _ _ hbehind (.inr (by omega)), hpeek]
    · change pagesize / 2 ≤ (UInt64.ofNat text).toNat
      rw [htext]
      exact hlower
    · change (UInt64.ofNat text).toNat + ref.hwbytelen.toNat ≤ _
      rw [htext]

end Pages

/-! ## The writer -/

section Writing

variable {pagesize : ℕ} {w : Writer} {full : List (List Ref)} {cur : List Ref} {ref : Ref}

/-- The pages that were written, and the one in memory. -/
structure Holding (pagesize : ℕ) (w : Writer) (full : List (List Ref)) (cur : List Ref) :
    Prop where
  /-- The size of a page. -/
  pagesize_eq : w.pagesize = pagesize
  /-- How many references it may have. -/
  maxpageref_eq : w.maxpageref = pagesize / 2 / refSize - 1
  /-- The pages are counted. -/
  numPages_eq : w.numPages = full.length
  /-- They are in the file one after another. -/
  out_length : w.out.length = full.length * pagesize
  /-- And have their references. -/
  written : ∀ n refs, full[n]? = some refs → refs ≠ [] ∧
    ∃ page text, peek w.out (n * pagesize) pagesize = some page ∧
      PageHolds pagesize page refs text
  /-- The page in memory. -/
  current : ∃ text, PageHolds pagesize w.page cur text

/-- At the beginning there is no page. -/
theorem start_eq {mem : Bytes} (hpage : pagesize < 2 ^ 63)
    (hmax : 1 ≤ pagesize / 2 / refSize - 1) (hmem : mem.length = pagesize)
    (hzero : getWord mem 0 = some 0) :
    ∃ w, start mem pagesize = .ok w ∧ Holding pagesize w [] [] := by
  obtain ⟨page, hset, hholds⟩ := pageHolds_nil hpage hmax hmem hzero
  refine ⟨⟨pagesize, pagesize / 2 / refSize - 1, 0, page, []⟩, ?_, rfl, rfl, rfl, ?_, ?_,
    _, hholds⟩
  · rw [start, hset, inside, ok_bind]
    dsimp only
    rw [if_neg (by omega)]
  · rw [List.length_nil, List.length_nil, Nat.zero_mul]
  · intro n refs hn
    cases hn

/-- **`flush_page`** writes the page, if there is something in it. -/
theorem Holding.flushPage (hpage : pagesize < 2 ^ 63) (hmax : 1 ≤ pagesize / 2 / refSize - 1)
    (h : Holding pagesize w full cur) (hne : cur ≠ []) :
    ∃ w', Gcide.flushPage w = .ok w' ∧ Holding pagesize w' (full ++ [cur]) [] := by
  obtain ⟨text, hcur⟩ := h.current
  obtain ⟨page, hset, hholds⟩ := pageHolds_nil hpage hmax List.length_replicate
    (getWord_replicate (by omega))
  have hlower := hcur.lower
  have hlength := hcur.length_eq
  have hout := h.out_length
  have hpos := List.length_pos_of_ne_nil hne
  rw [refSize] at hmax
  refine ⟨⟨w.pagesize, w.maxpageref, w.numPages + 1, page, w.out ++ w.page⟩, ?_, h.pagesize_eq,
    h.maxpageref_eq, ?_, ?_, ?_, _, hholds⟩
  · rw [Gcide.flushPage, hcur.numentries, inside, ok_bind, hcur.textOffset, inside, ok_bind,
      if_neg (by omega), h.pagesize_eq, hset, inside, ok_bind]
  · rw [List.length_append, List.length_singleton, h.numPages_eq]
  · rw [List.length_append, List.length_append, List.length_singleton, hout, hlength,
      Nat.add_mul, Nat.one_mul]
  · intro n refs hn
    rcases getElem?_concat_cases hn with ⟨-, hn⟩ | ⟨rfl, rfl⟩
    · obtain ⟨hrefs, page', text', hpeek, hpage'⟩ := h.written n refs hn
      refine ⟨hrefs, page', text', ?_, hpage'⟩
      have hle := Memory.le_of_peek hpeek
      rw [Memory.peek_eq_some (by rw [List.length_append]; omega), ← Memory.peek_val hpeek,
        List.drop_append_of_le_length (by omega), List.take_append_of_le_length]
      rw [List.length_drop]
      omega
    · refine ⟨hne, w.page, text, ?_, hcur⟩
      rw [← hout, Memory.peek_eq_some (by rw [List.length_append]; omega), List.drop_left,
        ← hlength, List.take_length]

/-- **`store_ref`** puts the reference behind the others, in a new page if
there is no room. -/
theorem Holding.storeRef (hpage : pagesize < 2 ^ 63) (hmax : 1 ≤ pagesize / 2 / refSize - 1)
    (h : Holding pagesize w full cur) (href : Storable pagesize ref) :
    ∃ w' full' cur', Gcide.storeRef w ref = .ok w' ∧ Holding pagesize w' full' cur' ∧
      (full'.flatten ++ cur').map Ref.content =
        (full.flatten ++ cur).map Ref.content ++ [ref.content] := by
  obtain ⟨text, hcur⟩ := h.current
  have hupper := hcur.upper
  have hbytelen := href.hwbytelen_le
  have hmod : (text + ref.hwbytelen.toNat) % 2 ^ 64 = text + ref.hwbytelen.toNat :=
    Nat.mod_eq_of_lt (by omega)
  by_cases hfull : cur.length = w.maxpageref ∨ w.pagesize < text + ref.hwbytelen.toNat
  · -- the page is full, so there is something in it
    have hne : cur ≠ [] := by
      rintro rfl
      have htext := hcur.empty rfl
      rw [List.length_nil, h.maxpageref_eq, h.pagesize_eq] at hfull
      omega
    obtain ⟨w₁, hflush, h₁⟩ := h.flushPage hpage hmax hne
    obtain ⟨text₁, hcur₁⟩ := h₁.current
    obtain ⟨page', hput, hholds⟩ := hcur₁.putRef hpage (by rw [List.length_nil]; omega) href
      (by rw [hcur₁.empty rfl]; omega)
    refine ⟨{ w₁ with page := page' }, full ++ [cur], [_], ?_, ⟨h₁.pagesize_eq, h₁.maxpageref_eq,
      h₁.numPages_eq, h₁.out_length, h₁.written, _, hholds⟩, ?_⟩
    · rw [Gcide.storeRef, hcur.numentries, inside, ok_bind, hcur.textOffset, inside, ok_bind, hmod,
        if_pos hfull, hflush, ok_bind]
      dsimp only
      rw [hput, ok_bind]
    · rw [List.flatten_append, List.flatten_singleton, List.map_append]
      rfl
  · rw [not_or, h.maxpageref_eq, h.pagesize_eq] at hfull
    have hcount := hcur.count_le
    obtain ⟨page', hput, hholds⟩ := hcur.putRef hpage (by omega) href (by omega)
    refine ⟨{ w with page := page' }, full, _, ?_, ⟨h.pagesize_eq, h.maxpageref_eq,
      h.numPages_eq, h.out_length, h.written, _, hholds⟩, ?_⟩
    · rw [Gcide.storeRef, hcur.numentries, inside, ok_bind, hcur.textOffset, inside, ok_bind, hmod,
        if_neg (by rw [not_or, h.maxpageref_eq, h.pagesize_eq]; exact hfull), ok_bind]
      dsimp only
      rw [hput, ok_bind]
    · rw [← List.append_assoc, List.map_append]
      rfl

/-- The loop goes on as long as its counter does. -/
theorem Holding.flushRefsLoop (hpage : pagesize < 2 ^ 63) (hmax : 1 ≤ pagesize / 2 / refSize - 1)
    (h : Holding pagesize w full cur) {refs : List Ref}
    (hrefs : ∀ ref ∈ refs, Storable pagesize ref) {i : ℕ} (hi : i + refs.length < 2 ^ 31) :
    ∃ w' full' cur', Gcide.flushRefsLoop i refs w = .ok w' ∧ Holding pagesize w' full' cur' ∧
      (full'.flatten ++ cur').map Ref.content =
        (full.flatten ++ cur).map Ref.content ++ refs.map Ref.content := by
  induction refs generalizing w full cur i with
  | nil => exact ⟨w, full, cur, rfl, h, by rw [List.map_nil, List.append_nil]⟩
  | cons ref refs ih =>
    obtain ⟨href, hrefs⟩ := List.forall_mem_cons.1 hrefs
    rw [List.length_cons] at hi
    obtain ⟨w₁, full₁, cur₁, hstore, h₁, hcontent₁⟩ := h.storeRef hpage hmax href
    obtain ⟨w', full', cur', hloop, h', hcontent⟩ := ih h₁ hrefs (by omega : i + 1 + _ < _)
    refine ⟨w', full', cur', ?_, h', ?_⟩
    · rw [Gcide.flushRefsLoop, hstore, ok_bind, if_neg (by omega), hloop]
    · rw [hcontent, hcontent₁, List.append_assoc, List.map_cons, List.singleton_append]

/-- And no longer. -/
theorem flushRefsLoop_overflow {refs : List Ref} {i : ℕ} (hi : i < 2 ^ 31)
    (hlen : 2 ^ 31 ≤ i + refs.length) (w' : Writer) : flushRefsLoop i refs w ≠ .ok w' := by
  induction refs generalizing w i with
  | nil =>
    rw [List.length_nil] at hlen
    omega
  | cons ref refs ih =>
    rw [List.length_cons] at hlen
    intro h
    rw [flushRefsLoop] at h
    obtain ⟨w₁, -, h⟩ := bind_eq_ok.1 h
    split_ifs at h with hend
    exact ih (by omega) (by omega) h

/-- **`flush_refs`** writes all references. -/
theorem Holding.flushRefs (hpage : pagesize < 2 ^ 63) (hmax : 1 ≤ pagesize / 2 / refSize - 1)
    (h : Holding pagesize w [] []) {qsort : List Ref → List Ref} {refs : List Ref}
    (hrefs : ∀ ref ∈ qsort refs, Storable pagesize ref) (hlen : (qsort refs).length < 2 ^ 31) :
    ∃ w' full, Gcide.flushRefs qsort refs w = .ok w' ∧ Holding pagesize w' full [] ∧
      full.flatten.map Ref.content = (qsort refs).map Ref.content := by
  obtain ⟨w₁, full, cur, hloop, h₁, hcontent⟩ := h.flushRefsLoop hpage hmax hrefs
    (by omega : 0 + _ < _)
  obtain ⟨text, hcur⟩ := h₁.current
  rw [List.flatten_nil, List.nil_append, List.map_nil, List.nil_append] at hcontent
  by_cases hne : cur = []
  · subst hne
    refine ⟨w₁, full, ?_, h₁, by rw [← hcontent, List.append_nil]⟩
    rw [Gcide.flushRefs, hloop, ok_bind, hcur.numentries, inside, ok_bind]
    rfl
  · obtain ⟨w', hflush, h'⟩ := h₁.flushPage hpage hmax hne
    have hpos := List.length_pos_of_ne_nil hne
    refine ⟨w', full ++ [cur], ?_, h', ?_⟩
    · rw [Gcide.flushRefs, hloop, ok_bind, hcur.numentries, inside, ok_bind, if_pos (by omega),
        hflush]
    · rw [← hcontent, List.flatten_append, List.flatten_singleton]

end Writing

/-! ## Reading it back -/

section Reading

variable {pagesize : ℕ} {w : Writer} {full : List (List Ref)} {numHeadwords numDefs : ℕ}

/-- A loop that has a result at every turn has them all. -/
theorem mapM_range' {α : Type} {f : ℕ → Except Stop α} {l : List α} {s : ℕ}
    (h : ∀ i x, l[i]? = some x → f (s + i) = .ok x) :
    (List.range' s l.length).mapM f = .ok l := by
  induction l generalizing s with
  | nil => rfl
  | cons x l ih =>
    have hrest : (List.range' (s + 1) l.length).mapM f = .ok l := ih fun i y hy => by
      rw [Nat.add_assoc, Nat.add_comm 1 i]
      exact h (i + 1) y hy
    have hfirst : f s = .ok x := h 0 x rfl
    rw [List.length_cons, List.range'_succ, List.mapM_cons, hfirst, ok_bind, hrest]
    rfl

/-- The references of a page, as they are read. -/
theorem PageHolds.refAt {page : Bytes} {refs : List Ref} {text : ℕ}
    (h : PageHolds pagesize page refs text) {i : ℕ} {ref : Ref} (hi : refs[i]? = some ref) :
    Gcide.refAt page i = .ok ref.located :=
  refAt_eq (h.ref i ref hi).memory (h.ref i ref hi).string (h.ref i ref hi).storable.null_notMem

/-- What is in front of the pages is as long as a page. -/
theorem Holding.peek_content (hmax : 1 ≤ pagesize / 2 / refSize - 1)
    (h : Holding pagesize w full []) {n : ℕ} (hn : n < full.length) :
    peek (w.file numHeadwords numDefs).content ((n + 1) * pagesize) pagesize =
      peek w.out (n * pagesize) pagesize := by
  rw [refSize] at hmax
  have hpos : 0 < full.length * pagesize := Nat.mul_pos (by omega) (by omega)
  have hne : w.out ≠ [] := by
    rw [← h.out_length] at hpos
    exact List.ne_nil_of_length_pos hpos
  have hfront : (headerBytes w numHeadwords numDefs ++
      List.replicate (if w.out = [] then 0 else w.pagesize - 48) 0).length = pagesize := by
    have hheader : (headerBytes w numHeadwords numDefs).length = 48 := by
      simp only [headerBytes, List.length_append, Memory.length_toLe]
      rfl
    rw [List.length_append, hheader, List.length_replicate, if_neg hne, h.pagesize_eq]
    omega
  rw [Writer.file, Nat.add_mul, Nat.one_mul, Nat.add_comm (n * pagesize)]
  conv_lhs => rw [← hfront]
  rw [Memory.peek_append_right, hfront]

/-- **Reading back a page.** -/
theorem Holding.getPage (hmax : 1 ≤ pagesize / 2 / refSize - 1) (h : Holding pagesize w full [])
    {n : ℕ} {refs : List Ref} (hn : full[n]? = some refs) :
    Gcide.getPage (w.file numHeadwords numDefs) n = .ok (some (refs.map Ref.located)) := by
  obtain ⟨-, page, text, hpeek, hpage⟩ := h.written n refs hn
  have hsize : (w.file numHeadwords numDefs).pagesize = pagesize := h.pagesize_eq
  have hrefs : (List.range refs.length).mapM (Gcide.refAt page) = .ok (refs.map Ref.located) := by
    rw [List.range_eq_range', ← List.length_map (f := Ref.located)]
    refine mapM_range' fun i ref hi => ?_
    rw [List.getElem?_map, Option.map_eq_some_iff] at hi
    obtain ⟨ref', hi, rfl⟩ := hi
    rw [Nat.zero_add]
    exact hpage.refAt hi
  rw [Gcide.getPage, hsize, h.peek_content hmax (List.getElem?_eq_some_iff.1 hn).1, hpeek]
  dsimp only
  rw [hpage.numentries, inside, ok_bind, hrefs, ok_bind]

/-- The loop over a page visits its references. -/
theorem enumeratePage_eq {refs acc : List Ref} {j : ℕ} (hj : j + refs.length < 2 ^ 31) :
    enumeratePage (fun (acc : List Ref) ref => (false, acc ++ [ref])) j refs acc =
      .ok (acc ++ refs) := by
  induction refs generalizing j acc with
  | nil => rw [enumeratePage, List.append_nil]
  | cons ref refs ih =>
    rw [List.length_cons] at hj
    rw [enumeratePage, if_neg Bool.false_ne_true, if_neg (by omega), ih (by omega),
      List.append_assoc, List.singleton_append]

/-- And the loop over the pages visits all of them. -/
theorem Holding.enumerate (hmax : 1 ≤ pagesize / 2 / refSize - 1) (h : Holding pagesize w full [])
    (hlen : full.flatten.length < 2 ^ 31) :
    Gcide.enumerate (w.file numHeadwords numDefs)
        (fun (acc : List Ref) ref => (false, acc ++ [ref])) [] =
      .ok (0, full.flatten.map Ref.located) := by
  have hloop : ∀ m i acc, i + m = full.length →
      enumerateLoop (w.file numHeadwords numDefs)
        (fun (acc : List Ref) ref => (false, acc ++ [ref])) m i acc =
        .ok (0, acc ++ (full.drop i).flatten.map Ref.located) := by
    intro m
    induction m with
    | zero =>
      intro i acc hi
      rw [enumerateLoop, List.drop_eq_nil_of_le (by omega), List.flatten_nil, List.map_nil,
        List.append_nil]
    | succ m ih =>
      intro i acc hi
      have hlt : i < full.length := by omega
      have hpage := List.getElem?_eq_getElem hlt
      have hcount : (full[i].map Ref.located).length ≤ full.flatten.length := by
        rw [List.length_map]
        exact (List.sublist_flatten_of_mem (List.getElem_mem hlt)).length_le
      rw [enumerateLoop, h.getPage hmax hpage, ok_bind]
      dsimp only
      rw [enumeratePage_eq (by omega), ok_bind, ih (i + 1) _ (by omega),
        List.drop_eq_getElem_cons hlt, List.flatten_cons, List.map_append, List.append_assoc]
  have hnum : (w.file numHeadwords numDefs).numPages = full.length := h.numPages_eq
  rw [Gcide.enumerate, hnum, hloop full.length 0 [] (by omega), List.drop_zero, List.nil_append]

/-- The pages are as they should be. -/
theorem Holding.pageFits (hmax : 1 ≤ pagesize / 2 / refSize - 1) (h : Holding pagesize w full [])
    {n : ℕ} (hn : n < w.numPages) : PageFits (w.file numHeadwords numDefs) w.maxpageref n := by
  rw [h.numPages_eq] at hn
  have hrefs := List.getElem?_eq_getElem hn
  obtain ⟨hne, page, text, hpeek, hpage⟩ := h.written n _ hrefs
  have hsize : (w.file numHeadwords numDefs).pagesize = pagesize := h.pagesize_eq
  have hcount := hpage.count_le
  refine ⟨page, full[n].length, text, ?_, hpage.numentries, hpage.textOffset,
    List.length_pos_of_ne_nil hne, by rw [h.maxpageref_eq]; exact hcount, ?_,
    by rw [hsize]; exact hpage.upper, fun i hi => ?_⟩
  · rw [hsize, h.peek_content hmax hn, hpeek]
  · rw [hsize]
    rw [refSize] at hcount hmax ⊢
    omega
  · have hi' := List.getElem?_eq_getElem hi
    refine ⟨_, hpage.refAt hi', ?_, (hpage.ref i _ hi').upper⟩
    rw [hsize]
    exact (hpage.ref i _ hi').lower

/-- **Writer and reader agree.** For every page size that has room for a
reference, and all references whose headwords have room in a page: every
page is as it should be, and what is read back is what was written, just if
there are fewer than `2 ^ 31` references. -/
theorem writerAgrees_iff (pagesize : ℕ) (qsort : List Ref → List Ref) (refs : List Ref)
    (hpage : pagesize < 2 ^ 63) (hmax : 1 ≤ pagesize / 2 / refSize - 1)
    (hrefs : ∀ ref ∈ refs, Storable pagesize ref) (hsort : Sorts qsort refs) :
    WriterAgrees pagesize qsort refs ↔ refs.length < 2 ^ 31 := by
  obtain ⟨w₀, hstart, h₀⟩ := start_eq hpage hmax List.length_replicate
    (getWord_replicate (by omega))
  have hlength := hsort.perm.length_eq
  constructor
  · rintro ⟨w₀', w, hstart', hflush, -⟩
    obtain rfl := Except.ok.inj (hstart.symm.trans hstart')
    by_contra hge
    rw [flushRefs] at hflush
    obtain ⟨w₁, hloop, -⟩ := bind_eq_ok.1 hflush
    exact flushRefsLoop_overflow (by omega) (by omega) w₁ hloop
  · intro hlt
    obtain ⟨w, full, hflush, h, hcontent⟩ := h₀.flushRefs hpage hmax
      (fun ref href => hrefs ref (hsort.perm.mem_iff.1 href)) (by omega)
    have hcount : full.flatten.length < 2 ^ 31 := by
      have heq := congrArg List.length hcontent
      rw [List.length_map, List.length_map] at heq
      omega
    refine ⟨w₀, w, hstart, hflush, fun numDefs => ⟨fun n hn => h.pageFits hmax hn, _,
      h.enumerate hmax hcount, ?_, ?_⟩⟩
    · have hlocated : (full.flatten.map Ref.located).map Ref.content =
          full.flatten.map Ref.content := by
        rw [List.map_map]
        rfl
      rw [hlocated, hcontent]
      exact hsort.perm.map Ref.content
    · -- the order is one of headwords
      have hwords : (full.flatten.map Ref.located).map Ref.headword =
          (qsort refs).map Ref.headword := by
        have hfst := congrArg (List.map Prod.fst) hcontent
        rw [List.map_map, List.map_map] at hfst
        rw [List.map_map]
        exact hfst
      have hsorted : ((qsort refs).map Ref.headword).Pairwise fun a b =>
          ∃ rc, utf8Strcasecmp a b = some rc ∧ rc ≤ 0 := List.pairwise_map.2 hsort.sorted
      rw [← hwords] at hsorted
      exact List.pairwise_map.1 hsorted

/-- A reference to a headword of one letter. -/
def letterRef (c : UInt8) (offset : UInt64) : Ref := ⟨0, 1, 2, 65, offset, 10, 0, [c]⟩

/-- It can be stored in any page that can have references. -/
theorem storable_letterRef {c : UInt8} {offset : UInt64} (hc : c ≠ 0) {pagesize : ℕ}
    (hmax : 1 ≤ pagesize / 2 / refSize - 1) : Storable pagesize (letterRef c offset) where
  null_notMem := fun h => hc (List.mem_singleton.1 h).symm
  hwbytelen_eq := rfl
  hwbytelen_le := by
    have hlen : (letterRef c offset).hwbytelen.toNat = 2 := rfl
    rw [refSize] at hmax
    omega

/-- Two references in the smallest page that can have one. -/
theorem writerAgrees_letters :
    WriterAgrees 224 id [letterRef 97 0, letterRef 98 10] ↔
      [letterRef 97 0, letterRef 98 10].length < 2 ^ 31 := by
  refine writerAgrees_iff 224 id _ (by decide) (by decide) ?_ ⟨List.Perm.refl _, ?_⟩
  · exact List.forall_mem_cons.2 ⟨storable_letterRef (by decide) (by decide),
      List.forall_mem_singleton.2 (storable_letterRef (by decide) (by decide))⟩
  · exact List.pairwise_pair.2 ⟨-1, by decide +kernel, by decide⟩

/-- **So many references that an `int` cannot count them.** -/
theorem not_forall_writerAgrees :
    ¬ ∀ (pagesize : ℕ) (qsort : List Ref → List Ref) (refs : List Ref), pagesize < 2 ^ 63 →
      1 ≤ pagesize / 2 / refSize - 1 → (∀ ref ∈ refs, Storable pagesize ref) →
      Sorts qsort refs → WriterAgrees pagesize qsort refs := by
  intro h
  have hsort : Sorts id (List.replicate (2 ^ 31) (letterRef 97 0)) :=
    ⟨List.Perm.refl _, List.pairwise_replicate.2 (.inr ⟨0, by decide +kernel, le_rfl⟩)⟩
  have hrefs : ∀ ref ∈ List.replicate (2 ^ 31) (letterRef 97 0), Storable 10240 ref := by
    intro ref href
    rw [List.eq_of_mem_replicate href]
    exact storable_letterRef (by decide) (by decide)
  obtain ⟨w₀, w, -, hflush, -⟩ := h 10240 id _ (by decide) (by decide) hrefs hsort
  rw [flushRefs] at hflush
  obtain ⟨w₁, hloop, -⟩ := bind_eq_ok.1 hflush
  refine flushRefsLoop_overflow (by omega) ?_ w₁ hloop
  rw [id_eq, List.length_replicate]
  exact le_rfl

end Reading

end Gcide

end Dico
