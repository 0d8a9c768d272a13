import Dico.Gcide.Writer
/-!
# The cache of pages

`_idx_get_page` of `modules/gcide/idx.c` keeps the pages it read, but it
never looks for a page there: `_cache_find_page` returns a null pointer at
once. The cache is where the pages are put. A page that was handed out stays
as it is until so many were read that the cache is full; from then on every
page is read into the last entry.

In a page that was read, the addresses of the headwords are put in the place
of what they were when the page was written. How many there are is what the
page says.
-/

namespace Dico

namespace Gcide

open Memory (peek poke toLe ofLe getWord setWord)

/-! ## The model -/

/-- The loop of `_idx_get_page` over the references of a page, of which `i`
are behind: addresses in a page are offsets into it. -/
def setHeadwords : ℕ → ℕ → Bytes → Except Stop Bytes
  | 0, _, page => .ok page
  | k + 1, i, page => do
    let hwoff ← inside (getWord page (refSize * (i + 1)))
    let page ← inside (setWord page (refSize * (i + 1) + 48) hwoff)
    setHeadwords k (i + 1) page

/-- What `_idx_get_page` does to a page that was read. The number of
references is not where the addresses are. -/
def withHeadwords (page : Bytes) : Except Stop Bytes := do
  let numentries ← inside (getWord page 0)
  setHeadwords numentries 0 page

/-- `struct gcide_idx_cache`. -/
structure IdxCache where
  pageno : ℕ
  refcount : ℕ
  page : Bytes
  deriving DecidableEq, Repr

/-- `_cache_alloc`: the number of the entry, and the entries; `fresh` is
what `malloc` leaves in a page. -/
def cacheAlloc (cacheSize : ℕ) (fresh : Bytes) (cache : List IdxCache) :
    Except Stop (ℕ × List IdxCache) :=
  if cache.length < cacheSize then
    match cache.getLast? with
    | some cp =>
      if cp.refcount = 0 then .ok (cache.length - 1, cache)
      else .ok (cache.length, cache ++ [⟨0, 0, fresh⟩])
    | none => .ok (cache.length, cache ++ [⟨0, 0, fresh⟩])
  else do
    -- the entry before the first one, where the cache has no room at all and `calloc` has
    -- returned a block of no size
    let cp ← inside cache.getLast?
    .ok (cache.length - 1, cache.set (cache.length - 1) { cp with pageno := 0, refcount := 0 })

/-- `_idx_get_page`: the number of the entry with the page, or none where the
file is too short, and the entries. The offset is a `size_t` that is made an
`off_t`; to one that is negative there is no way. -/
def idxGetPage (file : IdxFile) (cacheSize : ℕ) (fresh : Bytes) (cache : List IdxCache) (n : ℕ) :
    Except Stop (Option ℕ × List IdxCache) :=
  let off := (n + 1) * file.pagesize % 2 ^ 64
  if 2 ^ 63 ≤ off then .ok (none, cache)
  else do
    let (i, cache) ← cacheAlloc cacheSize fresh cache
    let cp ← inside cache[i]?
    match peek file.content off file.pagesize with
    | none =>
      -- `_idx_full_read` has read what there is
      let short := file.content.drop off
      .ok (none, cache.set i { cp with page := short ++ cp.page.drop short.length })
    | some page => do
      let page ← withHeadwords page
      .ok (some i, cache.set i { cp with page := page, refcount := (cp.refcount + 1) % 2 ^ 32 })

/-- What was handed out: an entry, and the page that was in it. -/
abbrev Handed := Option (ℕ × Bytes)

/-- One page more is asked for. -/
def idxStep (file : IdxFile) (cacheSize : ℕ) (fresh : Bytes) (n : ℕ)
    (s : List IdxCache × List Handed) : Except Stop (List IdxCache × List Handed) := do
  let (r, cache) ← idxGetPage file cacheSize fresh s.1 n
  let handed ← match r with
    | none => .ok none
    | some i => do
      let cp ← inside cache[i]?
      .ok (some (i, cp.page))
  .ok (cache, s.2 ++ [handed])

/-- A page without a cache: read from the file, with the addresses of its
headwords. -/
def loadPage (file : IdxFile) (n : ℕ) : Except Stop (Option Bytes) :=
  match peek file.content ((n + 1) * file.pagesize) file.pagesize with
  | none => .ok none
  | some page => do
    let page ← withHeadwords page
    .ok (some page)

/-- `page->ipg_ref[i]` of a page that was handed out, with what is in the
place of `ref_headword`, and the string there. -/
def refIn (page : Bytes) (i : ℕ) : Except Stop Ref := do
  let w ← inside (peek page (refSize * (i + 1)) refSize)
  let word := fun k => ofLe ((w.drop k).take 8)
  let headword ← inside (strAt page (word 48)).toOption
  .ok {
    hwoff := UInt64.ofNat (word 0)
    hwlen := UInt64.ofNat (word 8)
    hwbytelen := UInt64.ofNat (word 16)
    letter := (UInt32.ofNat (ofLe ((w.drop 24).take 4))).toInt32
    offset := UInt64.ofNat (word 32)
    size := UInt64.ofNat (word 40)
    addr := UInt64.ofNat (word 48)
    headword := headword }

/-- The references of such a page. -/
def refsIn (page : Bytes) : Except Stop (List Ref) := do
  let numentries ← inside (getWord page 0)
  (List.range numentries).mapM (refIn page)

/-! ## The addresses of a page -/

section Addresses

variable {page page' : Bytes} {k i : ℕ}

/-- **The loop sets the addresses**, and nothing else. -/
theorem setHeadwords_ok (hroom : k = 0 ∨ refSize * (i + k + 1) ≤ page.length) :
    ∃ page', setHeadwords k i page = .ok page' ∧ page'.length = page.length ∧
      (∀ off n, (∀ j < k, off + n ≤ refSize * (i + j + 1) + 48 ∨ refSize * (i + j + 2) ≤ off) →
        peek page' off n = peek page off n) ∧
      ∀ j < k, getWord page' (refSize * (i + j + 1) + 48) =
        getWord page (refSize * (i + j + 1)) := by
  induction k generalizing page i with
  | zero => exact ⟨page, rfl, rfl, fun _ _ _ => rfl, fun j hj => absurd hj (Nat.not_lt_zero j)⟩
  | succ k ih =>
    have hlen := hroom.resolve_left (Nat.succ_ne_zero k)
    rw [refSize] at hlen
    obtain ⟨hwoff, hget⟩ : ∃ v, getWord page (refSize * (i + 1)) = some v :=
      ⟨_, by rw [getWord, Memory.peek_eq_some (by rw [refSize]; omega), Option.map_some]⟩
    have hlt : hwoff < 2 ^ 64 := Memory.getWord_lt hget
    obtain ⟨page₁, hset⟩ : ∃ m, setWord page (refSize * (i + 1) + 48) hwoff = some m :=
      ⟨_, Memory.poke_eq_some (by rw [Memory.length_toLe, refSize]; omega)⟩
    have hlen₁ := Memory.length_of_poke hset
    obtain ⟨page', hloop, hlen', hframe, haddr⟩ :=
      @ih page₁ (i + 1) (.inr (by rw [hlen₁, refSize]; omega))
    refine ⟨page', ?_, hlen'.trans hlen₁, fun off n hoff => ?_, fun j hj => ?_⟩
    · rw [setHeadwords, hget, inside, ok_bind, hset, inside, ok_bind, hloop]
    · have hfirst := hoff 0 (by omega)
      rw [hframe off n fun j hj => by
        have := hoff (j + 1) (by omega)
        rwa [show i + (j + 1) = i + 1 + j by omega] at this]
      refine Memory.peek_poke_of_disjoint hset ?_
      rw [Memory.length_toLe]
      rw [refSize] at hfirst ⊢
      omega
    · cases j with
      | zero =>
        rw [getWord, hframe _ 8 fun j hj => .inl (by rw [refSize]; omega), ← getWord,
          Memory.getWord_setWord hset hlt]
        exact hget.symm
      | succ j =>
        have hnext := haddr j (by omega)
        rw [show i + 1 + j = i + (j + 1) by omega] at hnext
        rw [hnext]
        refine Memory.getWord_poke_of_disjoint hset (.inr ?_)
        rw [Memory.length_toLe, refSize]
        omega

/-- Where there is no room for the references, it goes beyond the end of the
page. -/
theorem setHeadwords_bounds (hpos : k ≠ 0) (hroom : page.length < refSize * (i + k + 1)) :
    setHeadwords k i page = .error .bounds := by
  induction k generalizing page i with
  | zero => exact absurd rfl hpos
  | succ k ih =>
    rw [setHeadwords]
    cases hget : getWord page (refSize * (i + 1)) with
    | none => rfl
    | some hwoff =>
      rw [inside, ok_bind]
      cases hset : setWord page (refSize * (i + 1) + 48) hwoff with
      | none => rfl
      | some page₁ =>
        have hle := Memory.le_of_poke hset
        have hlen := Memory.length_of_poke hset
        rw [Memory.length_toLe] at hle
        rw [inside, ok_bind]
        rw [refSize] at hle hroom
        refine ih ?_ (by rw [hlen, refSize]; omega)
        rintro rfl
        omega

end Addresses

/-! ## The references of a page that was handed out -/

section References

variable {page page' : Bytes} {numentries : ℕ}

/-- The headwords of a page are behind its references. -/
def HeadwordsBehind (page : Bytes) : Prop :=
  ∀ numentries, getWord page 0 = some numentries → ∀ i < numentries,
    ∀ hwoff, getWord page (refSize * (i + 1)) = some hwoff → refSize * (numentries + 1) ≤ hwoff

/-- The addresses of a page are set, and nothing else is changed. -/
structure Addressed (page page' : Bytes) (numentries : ℕ) : Prop where
  /-- There is room for the references. -/
  room : numentries = 0 ∨ refSize * (numentries + 1) ≤ page.length
  /-- The size of the page. -/
  length_eq : page'.length = page.length
  /-- What is beside the addresses. -/
  frame : ∀ off n, (∀ j < numentries, off + n ≤ refSize * (j + 1) + 48 ∨ refSize * (j + 2) ≤ off) →
    peek page' off n = peek page off n
  /-- The addresses. -/
  addr : ∀ j < numentries, getWord page' (refSize * (j + 1) + 48) =
    getWord page (refSize * (j + 1))

/-- **What `_idx_get_page` does to a page**: it sets the addresses, or goes
beyond its end. -/
theorem withHeadwords_eq (hnum : getWord page 0 = some numentries) :
    (∃ page', withHeadwords page = .ok page' ∧ Addressed page page' numentries) ∨
      withHeadwords page = .error .bounds ∧ numentries ≠ 0 ∧
        page.length < refSize * (numentries + 1) := by
  rw [withHeadwords, hnum, inside, ok_bind]
  by_cases hroom : numentries = 0 ∨ refSize * (numentries + 1) ≤ page.length
  · obtain ⟨page', hset, hlen, hframe, haddr⟩ :=
      @setHeadwords_ok page numentries 0 (by rwa [Nat.zero_add])
    simp only [Nat.zero_add] at hframe haddr
    exact .inl ⟨page', hset, hroom, hlen, hframe, haddr⟩
  · rw [not_or, not_le] at hroom
    exact .inr ⟨setHeadwords_bounds hroom.1 (by rw [Nat.zero_add]; exact hroom.2), hroom⟩

/-- The bytes of a field. -/
theorem field_eq {w w' : Bytes} {off k n : ℕ} (hw : peek page off refSize = some w)
    (hw' : peek page' off refSize = some w') (hkn : k + n ≤ refSize)
    (h : peek page' (off + k) n = peek page (off + k) n) :
    (w'.drop k).take n = (w.drop k).take n := by
  rw [Memory.peek_part hw hkn, Memory.peek_part hw' hkn] at h
  exact Option.some.inj h

/-- The memory behind the addresses. -/
theorem Addressed.drop_eq (h : Addressed page page' numentries) {off : ℕ}
    (hoff : refSize * (numentries + 1) ≤ off) : page'.drop off = page.drop off := by
  have hlen := h.length_eq
  rcases Nat.lt_or_ge page.length off with hlt | hle
  · rw [List.drop_eq_nil_of_le (by omega), List.drop_eq_nil_of_le (by omega)]
  · have hpeek := h.frame off (page.length - off) fun j hj => by
      rw [refSize] at hoff ⊢
      exact .inr (by omega)
    rw [Memory.peek_eq_some (by omega), Memory.peek_eq_some (by omega), Option.some.injEq,
      List.take_of_length_le (by rw [List.length_drop, hlen]),
      List.take_of_length_le (by rw [List.length_drop])] at hpeek
    exact hpeek

/-- **A reference is read as it would be from the file.** -/
theorem Addressed.refIn_eq (h : Addressed page page' numentries)
    (hnum : getWord page 0 = some numentries) (hbehind : HeadwordsBehind page) {i : ℕ}
    (hi : i < numentries) : refIn page' i = refAt page i := by
  have hroom := h.room.resolve_left (by omega)
  have hlen := h.length_eq
  rw [refSize] at hroom
  obtain ⟨w, hw⟩ : ∃ w, peek page (refSize * (i + 1)) refSize = some w :=
    ⟨_, Memory.peek_eq_some (by rw [refSize]; omega)⟩
  obtain ⟨w', hw'⟩ : ∃ w, peek page' (refSize * (i + 1)) refSize = some w :=
    ⟨_, Memory.peek_eq_some (by rw [hlen, refSize]; omega)⟩
  -- the fields in front of the address are those of the file
  have hfield : ∀ k n, k + n ≤ 48 → (w'.drop k).take n = (w.drop k).take n := by
    intro k n hkn
    refine field_eq hw hw' (by rw [refSize]; omega) (h.frame _ _ fun j hj => ?_)
    rw [refSize]
    omega
  have haddr : ofLe ((w'.drop 48).take 8) = ofLe ((w.drop 0).take 8) := by
    have hword := h.addr i hi
    rw [getWord, getWord, Memory.peek_part hw' (by decide), Option.map_some] at hword
    have hpart := Memory.peek_part hw (by decide : 0 + 8 ≤ refSize)
    rw [Nat.add_zero] at hpart
    rw [hpart, Option.map_some] at hword
    exact Option.some.inj hword
  have hoff : refSize * (numentries + 1) ≤ ofLe ((w.drop 0).take 8) := by
    refine hbehind numentries hnum i hi _ ?_
    have hpart := Memory.peek_part hw (by decide : 0 + 8 ≤ refSize)
    rw [Nat.add_zero] at hpart
    rw [getWord, hpart, Option.map_some]
  rw [refIn, refAt, hw, hw', inside, ok_bind, inside, ok_bind]
  dsimp only
  rw [hfield 0 8 (by decide), hfield 8 8 (by decide), hfield 16 8 (by decide),
    hfield 24 4 (by decide), hfield 32 8 (by decide), hfield 40 8 (by decide), haddr, strAt, strAt,
    h.drop_eq hoff]

/-- Loops whose turns have the same results. -/
theorem mapM_congr_mem {α β : Type} {f g : α → Except Stop β} {l : List α}
    (h : ∀ x ∈ l, f x = g x) : l.mapM f = l.mapM g := by
  induction l with
  | nil => rfl
  | cons x l ih =>
    obtain ⟨hx, hl⟩ := List.forall_mem_cons.1 h
    rw [List.mapM_cons, List.mapM_cons, hx, ih hl]

/-- A loop over references that goes beyond the end of the page. -/
theorem mapM_refAt_bounds {l : List ℕ} (h : ∃ i ∈ l, page.length < refSize * (i + 2)) :
    l.mapM (refAt page) = .error .bounds := by
  have hbad : ∀ i, page.length < refSize * (i + 2) → refAt page i = .error .bounds := by
    intro i hi
    rw [refAt, peek, if_neg]
    · rfl
    · rw [refSize] at hi ⊢
      omega
  induction l with
  | nil =>
    obtain ⟨i, hi, -⟩ := h
    exact absurd hi List.not_mem_nil
  | cons i l ih =>
    rw [List.mapM_cons]
    by_cases hi : page.length < refSize * (i + 2)
    · rw [hbad i hi]
      rfl
    · obtain ⟨j, hj, hlt⟩ := h
      have hjl : j ∈ l := (List.mem_cons.1 hj).resolve_left fun heq => hi (heq ▸ hlt)
      cases href : refAt page i with
      | error stop =>
        rw [error_bind]
        rw [refAt, Memory.peek_eq_some (by rw [refSize] at hi ⊢; omega), inside, ok_bind] at href
        dsimp only at href
        obtain hstr | ⟨word, hstr⟩ := (strAt page _).toOption.eq_none_or_eq_some
        · rw [hstr, inside, error_bind] at href
          cases href
          rfl
        · rw [hstr, inside, ok_bind] at href
          cases href
      | ok ref => rw [ok_bind, ih ⟨j, hjl, hlt⟩, error_bind]

/-- **The two readings of a page agree**: the references of the page that is
loaded are those of the page in the file, where the headwords are behind
them. -/
theorem getPage_eq_loadPage (file : IdxFile) (n : ℕ)
    (hbehind : ∀ page ∈ peek file.content ((n + 1) * file.pagesize) file.pagesize,
      HeadwordsBehind page) :
    getPage file n = loadPage file n >>= fun o => match o with
      | none => .ok none
      | some page => refsIn page >>= fun refs => .ok (some refs) := by
  rw [getPage, loadPage]
  cases hpage : peek file.content ((n + 1) * file.pagesize) file.pagesize with
  | none => rfl
  | some page =>
    dsimp only
    cases hnum : getWord page 0 with
    | none =>
      rw [withHeadwords, hnum]
      rfl
    | some numentries =>
      rw [inside, ok_bind]
      rcases withHeadwords_eq hnum with ⟨page', hset, haddr⟩ | ⟨hset, hne, hlt⟩
      · have hrefs : ∀ i ∈ List.range numentries, refAt page i = refIn page' i := fun i hi =>
          (haddr.refIn_eq hnum (hbehind page hpage) (List.mem_range.1 hi)).symm
        have hcount : getWord page' 0 = some numentries := by
          rw [getWord, haddr.frame 0 8 fun j hj => .inl (by rw [refSize]; omega), ← getWord, hnum]
        rw [hset, ok_bind, ok_bind]
        dsimp only
        rw [refsIn, hcount, inside, ok_bind, mapM_congr_mem hrefs]
      · rw [hset, mapM_refAt_bounds ⟨numentries - 1, List.mem_range.2 (by omega), ?_⟩]
        · rfl
        · rwa [show numentries - 1 + 2 = numentries + 1 by omega]

/-- In the pages that are written the headwords are behind the references. -/
theorem PageFits.headwordsBehind {file : IdxFile} {maxpageref n : ℕ}
    (h : PageFits file maxpageref n) :
    ∀ page ∈ peek file.content ((n + 1) * file.pagesize) file.pagesize, HeadwordsBehind page := by
  obtain ⟨page, numentries, text, hpeek, hnum, -, -, -, hroom, -, hrefs⟩ := h
  rw [hpeek]
  rintro _ ⟨⟩ numentries' hnum' i hi hwoff hget
  obtain rfl := Option.some.inj (hnum.symm.trans hnum')
  obtain ⟨ref, href, hlower, -⟩ := hrefs i hi
  rw [refAt] at href
  obtain ⟨w, hw, href⟩ := bind_eq_ok.1 href
  rw [inside_eq_ok] at hw
  dsimp only at href
  obtain ⟨headword, -, href⟩ := bind_eq_ok.1 href
  obtain rfl := Except.ok.inj href
  have hpart := Memory.peek_part hw (by decide : 0 + 8 ≤ refSize)
  rw [Nat.add_zero] at hpart
  have hlt := Memory.getWord_lt hget
  rw [getWord, hpart, Option.map_some, Option.some.injEq] at hget
  dsimp only at hlower
  rw [hget, UInt64.toNat_ofNat', Nat.mod_eq_of_lt hlt] at hlower
  exact hroom.trans hlower

end References

/-! ## One page -/

section Steps

variable {file : IdxFile} {cacheSize : ℕ} {fresh : Bytes} {cache : List IdxCache}
  {handed : List Handed} {n : ℕ}

/-- A cache with another last entry, or with one more. Where there is room
for another, the last entry is not in use. -/
def Replaced (cacheSize : ℕ) (cache front : List IdxCache) : Prop :=
  front = cache ∨ ∃ last, cache = front ++ [last] ∧ (cache.length < cacheSize → last.refcount = 0)

/-- **An entry is found for every page**: the last one, or one behind it. -/
theorem cacheAlloc_spec (hroom : cache.length ≤ cacheSize) (hsize : 0 < cacheSize) :
    ∃ front cp, cacheAlloc cacheSize fresh cache = .ok (front.length, front ++ [cp]) ∧
      cp.refcount = 0 ∧ front.length < cacheSize ∧ Replaced cacheSize cache front := by
  rcases List.eq_nil_or_concat cache with rfl | ⟨front, last, rfl⟩
  · refine ⟨[], ⟨0, 0, fresh⟩, ?_, rfl, hsize, .inl rfl⟩
    unfold cacheAlloc
    rw [if_pos (by rw [List.length_nil]; exact hsize)]
    rfl
  · rw [List.concat_eq_append] at hroom ⊢
    have hlen : (front ++ [last]).length = front.length + 1 := by
      rw [List.length_append, List.length_singleton]
    rw [hlen] at hroom
    unfold cacheAlloc
    rw [List.getLast?_concat, hlen, Nat.add_sub_cancel]
    by_cases hlt : front.length + 1 < cacheSize
    · rw [if_pos hlt]
      by_cases hzero : last.refcount = 0
      · exact ⟨front, last, if_pos hzero, hzero, by omega, .inr ⟨last, rfl, fun _ => hzero⟩⟩
      · refine ⟨front ++ [last], ⟨0, 0, fresh⟩, ?_, rfl, by rw [hlen]; exact hlt, .inl rfl⟩
        rw [hlen]
        exact if_neg hzero
    · refine ⟨front, { last with pageno := 0, refcount := 0 }, ?_, rfl, by omega,
        .inr ⟨last, rfl, fun h => absurd (hlen ▸ h) hlt⟩⟩
      rw [if_neg hlt, inside, ok_bind, List.set_append_right _ _ (Nat.le_refl _), Nat.sub_self]
      rfl

/-- **One page**: it is the page of the file, and it is in the last entry,
which is in use then. -/
theorem idxStep_spec (hroom : cache.length ≤ cacheSize) (hsize : 0 < cacheSize)
    (hoff : (n + 1) * file.pagesize < 2 ^ 63) :
    ∃ front, front.length < cacheSize ∧ Replaced cacheSize cache front ∧
      ((∃ stop, loadPage file n = .error stop ∧
        idxStep file cacheSize fresh n (cache, handed) = .error stop) ∨
      ∃ o cp, loadPage file n = .ok o ∧
        idxStep file cacheSize fresh n (cache, handed) =
          .ok (front ++ [cp], handed ++ [o.map fun page => (front.length, page)]) ∧
        ∀ page ∈ o, cp.page = page ∧ cp.refcount = 1) := by
  obtain ⟨front, cp, halloc, hcount, hlt, hcache⟩ :=
    @cacheAlloc_spec cacheSize fresh cache hroom hsize
  have hlast : (front ++ [cp])[front.length]? = some cp := List.getElem?_concat_length
  have hset : ∀ cp', (front ++ [cp]).set front.length cp' = front ++ [cp'] := by
    intro cp'
    rw [List.set_append_right _ _ (Nat.le_refl _), Nat.sub_self]
    rfl
  have hmod : (n + 1) * file.pagesize % 2 ^ 64 = (n + 1) * file.pagesize :=
    Nat.mod_eq_of_lt (by omega)
  refine ⟨front, hlt, hcache, ?_⟩
  unfold idxStep idxGetPage loadPage
  dsimp only
  rw [hmod, if_neg (by omega), halloc, ok_bind]
  dsimp only
  rw [hlast, inside, ok_bind]
  cases hpage : peek file.content ((n + 1) * file.pagesize) file.pagesize with
  | none =>
    let short := file.content.drop ((n + 1) * file.pagesize)
    refine .inr ⟨none, { cp with page := short ++ cp.page.drop short.length }, rfl, ?_,
      fun page h => by cases h⟩
    dsimp only
    rw [hset]
    rfl
  | some page =>
    dsimp only
    cases hwith : withHeadwords page with
    | error stop => exact .inl ⟨stop, rfl, rfl⟩
    | ok page' =>
      refine .inr ⟨some page',
        { cp with page := page', refcount := (cp.refcount + 1) % 2 ^ 32 }, rfl, ?_, ?_⟩
      · rw [ok_bind, ok_bind]
        dsimp only
        rw [hset, List.getElem?_concat_length, inside, ok_bind, ok_bind]
        rfl
      · rintro _ ⟨⟩
        rw [hcount]
        exact ⟨rfl, rfl⟩

/-- The pages that were handed out are in the cache, in use. -/
def Kept (cache : List IdxCache) (handed : List Handed) : Prop :=
  ∀ i page, some (i, page) ∈ handed → ∃ cp, cache[i]? = some cp ∧ cp.page = page ∧ cp.refcount = 1

/-- They stay there as long as there is room for one more. -/
theorem Kept.step {front : List IdxCache} {cp : IdxCache} {o : Option Bytes}
    (h : Kept cache handed) (hlt : cache.length < cacheSize)
    (hcache : Replaced cacheSize cache front)
    (hcp : ∀ page ∈ o, cp.page = page ∧ cp.refcount = 1) :
    Kept (front ++ [cp]) (handed ++ [o.map fun page => (front.length, page)]) := by
  intro i page hmem
  rcases List.mem_append.1 hmem with hmem | hmem
  · obtain ⟨cp', hcp', hpage, hcount⟩ := h i page hmem
    refine ⟨cp', ?_, hpage, hcount⟩
    rcases hcache with rfl | ⟨last, rfl, hlast⟩
    · rw [List.getElem?_append_left (List.getElem?_eq_some_iff.1 hcp').1]
      exact hcp'
    · -- the last entry is not in use, so it is not the one
      have hne : i ≠ front.length := by
        rintro rfl
        rw [List.getElem?_concat_length] at hcp'
        obtain rfl := Option.some.inj hcp'
        rw [hlast hlt] at hcount
        cases hcount
      have hi := (List.getElem?_eq_some_iff.1 hcp').1
      rw [List.length_append, List.length_singleton] at hi
      rw [List.getElem?_append_left (by omega)] at hcp' ⊢
      exact hcp'
  · have hnew := List.mem_singleton.1 hmem
    obtain ⟨page', hpage', heq⟩ := Option.map_eq_some_iff.1 hnew.symm
    obtain ⟨rfl, rfl⟩ := Prod.mk.inj heq
    obtain ⟨hpage, hcount⟩ := hcp page' hpage'
    exact ⟨cp, List.getElem?_concat_length, hpage, hcount⟩

end Steps

/-! ## All pages -/

/-- What is asked of the cache, for some pages that are asked for: with no
room at all the first one is put outside the block; else what is handed out
are the pages of the file, each in one of the entries, or the program goes
beyond the end of a page where it would without the cache; and no page has
changed as long as no more were asked for than there is room for. -/
structure Transparent (file : IdxFile) (cacheSize : ℕ) (fresh : Bytes) (ns : List ℕ) : Prop where
  /-- There is no room at all. -/
  none : cacheSize = 0 → ns ≠ [] →
    ns.foldlM (fun s n => idxStep file cacheSize fresh n s) ([], []) = .error Stop.bounds
  /-- The pages. -/
  pages : 0 < cacheSize →
    (ns.foldlM (fun s n => idxStep file cacheSize fresh n s) ([], [])).map
      (fun s => s.2.map (Option.map Prod.snd)) = ns.mapM (loadPage file)
  /-- The entries, and the pages in them. -/
  kept : 0 < cacheSize → ∀ cache handed,
    ns.foldlM (fun s n => idxStep file cacheSize fresh n s) ([], []) = .ok (cache, handed) →
      cache.length ≤ cacheSize ∧
      (ns.length ≤ cacheSize → ∀ i page, some (i, page) ∈ handed →
        cache[i]?.map IdxCache.page = some page)

/-- **A run of requests**: it stops where the pages without a cache do, and
else it hands out just these, of which as many are kept as there is room
for. -/
theorem idxSteps_spec {file : IdxFile} {cacheSize : ℕ} {fresh : Bytes} {ns : List ℕ}
    (hoff : ∀ n ∈ ns, (n + 1) * file.pagesize < 2 ^ 63) (hsize : 0 < cacheSize) :
    (∃ stop, ns.foldlM (fun s n => idxStep file cacheSize fresh n s) ([], []) = .error stop ∧
      ns.mapM (loadPage file) = .error stop) ∨
    ∃ cache handed,
      ns.foldlM (fun s n => idxStep file cacheSize fresh n s) ([], []) = .ok (cache, handed) ∧
      ns.mapM (loadPage file) = .ok (handed.map (Option.map Prod.snd)) ∧
      cache.length ≤ cacheSize ∧ cache.length ≤ ns.length ∧
      (ns.length ≤ cacheSize → Kept cache handed) := by
  induction ns using List.reverseRecOn with
  | nil =>
    exact .inr ⟨[], [], rfl, rfl, Nat.zero_le _, Nat.le_refl _,
      fun _ i page hmem => by cases hmem⟩
  | append_singleton ns n ih =>
    rw [List.foldlM_append, List.mapM_append]
    rcases ih fun m hm => hoff m (List.mem_append_left _ hm) with
      ⟨stop, hrun, hload⟩ | ⟨cache, handed, hrun, hload, hroom, hcount, hkept⟩
    · exact .inl ⟨stop, by rw [hrun, error_bind], by rw [hload, error_bind]⟩
    obtain ⟨front, hlt, hcache, hstep⟩ := @idxStep_spec file cacheSize fresh cache handed n
      hroom hsize (hoff n (List.mem_append_right _ (List.mem_singleton_self n)))
    have hfront : front.length ≤ cache.length := by
      rcases hcache with rfl | ⟨last, rfl, -⟩
      · exact Nat.le_refl _
      · rw [List.length_append]
        exact Nat.le_add_right _ _
    rw [hrun, hload, ok_bind, ok_bind, List.foldlM_cons, List.mapM_cons]
    rcases hstep with ⟨stop, hpage, hstep⟩ | ⟨o, cp, hpage, hstep, hcp⟩
    · exact .inl ⟨stop, by rw [hstep, error_bind], by rw [hpage, error_bind, error_bind]⟩
    · refine .inr ⟨_, _, by rw [hstep, ok_bind]; rfl, ?_, ?_, ?_, fun hle => ?_⟩
      · rw [hpage, ok_bind, List.map_append, List.map_singleton, Option.map_map]
        have hid : o.map (Prod.snd ∘ fun page : Bytes => (front.length, page)) = o :=
          Option.map_id'
        rw [hid]
        rfl
      · rw [List.length_append, List.length_singleton]
        exact hlt
      · rw [List.length_append, List.length_append, List.length_singleton, List.length_singleton]
        omega
      · rw [List.length_append, List.length_singleton] at hle
        exact (hkept (by omega)).step (by omega) hcache hcp

/-- **The cache of pages.** Whatever pages are asked for, also such as are
not in the file, as long as an `off_t` can tell where they are: the cache
is transparent. -/
theorem idxGetPage_run (file : IdxFile) (cacheSize : ℕ) (fresh : Bytes) (ns : List ℕ)
    (hoff : ∀ n ∈ ns, (n + 1) * file.pagesize < 2 ^ 63) : Transparent file cacheSize fresh ns := by
  refine ⟨?_, fun hsize => ?_, fun hsize cache handed hok => ?_⟩
  · rintro rfl hne
    obtain ⟨n, ns, rfl⟩ := List.exists_cons_of_ne_nil hne
    have hmod : (n + 1) * file.pagesize % 2 ^ 64 = (n + 1) * file.pagesize :=
      Nat.mod_eq_of_lt (by have := hoff n List.mem_cons_self; omega)
    have hlt := hoff n List.mem_cons_self
    rw [List.foldlM_cons]
    unfold idxStep idxGetPage
    dsimp only
    rw [hmod, if_neg (by omega)]
    rfl
  · rcases @idxSteps_spec _ _ fresh _ hoff hsize with
      ⟨stop, hrun, hload⟩ | ⟨cache, handed, hrun, hload, -⟩
    · rw [hrun, hload]
      rfl
    · rw [hrun, hload]
      rfl
  · rcases @idxSteps_spec _ _ fresh _ hoff hsize with
      ⟨stop, hrun, -⟩ | ⟨cache', handed', hrun, -, hroom, -, hkept⟩
    · rw [hrun] at hok
      cases hok
    · rw [hrun] at hok
      obtain ⟨rfl, rfl⟩ := Prod.mk.inj (Except.ok.inj hok)
      refine ⟨hroom, fun hle i page hmem => ?_⟩
      obtain ⟨cp, hcp, hpage, -⟩ := hkept hle i page hmem
      rw [hcp, Option.map_some, hpage]

/-- A page with a reference to a letter. -/
def letterPage (c : UInt8) : Bytes :=
  toLe 8 1 ++ List.replicate 48 0 ++ { letterRef c 0 with hwoff := 112 }.bytes ++ [c, 0] ++
    List.replicate 58 0

/-- A file of two such pages. -/
def twoPages : IdxFile where
  pagesize := 172
  numPages := 2
  content := List.replicate 172 0 ++ letterPage 97 ++ letterPage 98

/-- The pages, one that is not in the file, and the first page again, in a
cache of two entries. -/
theorem idxGetPage_run_twoPages :
    Transparent twoPages 2 (List.replicate 172 0) [0, 1, 2, 0] :=
  idxGetPage_run _ _ _ _ (by decide)

end Gcide

end Dico
