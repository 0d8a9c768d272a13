import Dico.Common.Run
import Dico.Gcide.Writer
/-!
# Where the writer writes

`store_ref` looks once whether there is room for a reference, in the page
that is in memory. If there is none, that page is written and the reference
goes into the new one, where nobody looks again. So a headword for which no
page has room ends the program if it comes to an empty page, and is written
beyond the end of the new page if it does not. And nobody sets the number
of references of the first page: it is what `malloc` left there.
-/

namespace Dico

namespace Gcide

open Memory (peek poke getWord setWord)

/-! ## What is asked -/

/-- A reference made of a string of the memory. -/
structure OfString (ref : Ref) : Prop where
  /-- It is counted with its null byte. -/
  hwbytelen_eq : ref.hwbytelen.toNat = ref.headword.length + 1
  /-- There are no longer objects. -/
  hwbytelen_lt : ref.hwbytelen.toNat < 2 ^ 63

/-- The references of the page end before its middle, and the text ends
before its end. -/
def Writer.Inside (w : Writer) : Prop :=
  ∃ numentries textOffset, w.page.length = w.pagesize ∧
    getWord w.page 0 = some numentries ∧ getWord w.page 8 = some textOffset ∧
    refSize * (numentries + 1) ≤ w.pagesize / 2 ∧ textOffset ≤ w.pagesize

/-- Storing the references one after another, each inside the page, unless
the program exits. -/
def StoredInside : List Ref → Writer → Prop
  | [], _ => True
  | ref :: refs, w =>
    match storeRef w ref with
    | .ok w' => w'.Inside ∧ StoredInside refs w'
    | .error stop => stop = .exit

/-- So from the beginning, with what `malloc` returned. -/
def StoresInside (mem : Bytes) (pagesize : ℕ) (refs : List Ref) : Prop :=
  ∀ w, start mem pagesize = .ok w → StoredInside refs w

/-- What `malloc` left in the place of `phdr_numentries`. -/
def leftCount (mem : Bytes) : ℕ := (getWord mem 0).getD 0

/-- No page has room for the headword. -/
def TooLong (pagesize : ℕ) (ref : Ref) : Prop := pagesize - pagesize / 2 < ref.hwbytelen.toNat

instance (pagesize : ℕ) (ref : Ref) : Decidable (TooLong pagesize ref) :=
  inferInstanceAs (Decidable (_ < _))

/-- The references are written inside their pages: the count of the first
page is not too large and no headword too long, or it is zero and the
program exits at once. -/
def RefsFit (mem : Bytes) (pagesize : ℕ) (refs : List Ref) : Prop :=
  (leftCount mem ≤ pagesize / 2 / refSize - 1 ∧ ∀ ref ∈ refs, ¬TooLong pagesize ref) ∨
    leftCount mem = 0 ∧
      (pagesize / 2 / refSize - 1 = 0 ∨ ∃ ref ∈ refs.head?, TooLong pagesize ref)

/-! ## One reference -/

section Storing

variable {pagesize n text : ℕ} {mem : Bytes} {w : Writer} {ref : Ref} {refs : List Ref}

/-- A reference that is stored. -/
theorem storedInside_cons_ok {w' : Writer} (h : storeRef w ref = .ok w') :
    StoredInside (ref :: refs) w ↔ w'.Inside ∧ StoredInside refs w' := by
  rw [StoredInside, h]

/-- And one that is not. -/
theorem storedInside_cons_error {stop : Stop} (h : storeRef w ref = .error stop) :
    StoredInside (ref :: refs) w ↔ stop = .exit := by
  rw [StoredInside, h]

/-- The writer, of whose page the head is known. -/
structure Headed (pagesize : ℕ) (w : Writer) (n text : ℕ) : Prop where
  /-- The size of a page. -/
  pagesize_eq : w.pagesize = pagesize
  /-- How many references it may have. -/
  maxpageref_eq : w.maxpageref = pagesize / 2 / refSize - 1
  /-- The page in memory. -/
  sized : Sized pagesize w.page n text

/-- Such a writer is inside its page. -/
theorem Headed.inside (hmax : 1 ≤ pagesize / 2 / refSize) (h : Headed pagesize w n text) :
    w.Inside := by
  have hcount := h.sized.count_le
  refine ⟨n, text, ?_, h.sized.numentries, h.sized.textOffset, ?_, ?_⟩
  · rw [h.pagesize_eq, h.sized.length_eq]
  · rw [h.pagesize_eq]
    rw [refSize] at *
    omega
  · rw [h.pagesize_eq]
    exact h.sized.upper

/-- What the program accepts as the size of a page. -/
theorem one_le_of_start (h : start mem pagesize = .ok w) : 1 ≤ pagesize / 2 / refSize := by
  rw [start] at h
  obtain ⟨page, -, h⟩ := bind_eq_ok.1 h
  dsimp only at h
  split_ifs at h with hlt
  omega

/-- There is a count in the memory of a page. -/
theorem getWord_leftCount (hmax : 1 ≤ pagesize / 2 / refSize) (hmem : mem.length = pagesize) :
    getWord mem 0 = some (leftCount mem) := by
  rw [refSize] at hmax
  rw [leftCount, getWord, Memory.peek_eq_some (by omega)]
  rfl

/-- **Such a size is accepted**, whatever the count. -/
theorem start_ok (hpage : pagesize < 2 ^ 63) (hmax : 1 ≤ pagesize / 2 / refSize)
    (hmem : mem.length = pagesize) :
    ∃ page, start mem pagesize = .ok ⟨pagesize, pagesize / 2 / refSize - 1, 0, page, []⟩ ∧
      page.length = pagesize ∧ getWord page 0 = some (leftCount mem) ∧
      getWord page 8 = some (pagesize / 2) := by
  obtain ⟨page, hset, hlen, hnum, htext⟩ :=
    page_start hpage hmax hmem (getWord_leftCount hmax hmem)
  refine ⟨page, ?_, hlen, hnum, htext⟩
  rw [start, hset, Gcide.inside, ok_bind]
  dsimp only
  rw [if_neg (by omega)]

/-- At the beginning the page has what `malloc` left. -/
theorem Headed.start (hpage : pagesize < 2 ^ 63) (hmem : mem.length = pagesize)
    (hle : leftCount mem ≤ pagesize / 2 / refSize - 1) (h : Gcide.start mem pagesize = .ok w) :
    Headed pagesize w (leftCount mem) (pagesize / 2) := by
  have hmax := one_le_of_start h
  obtain ⟨page, hstart, hlen, hnum, htext⟩ := start_ok hpage hmax hmem
  obtain rfl := Except.ok.inj (hstart.symm.trans h)
  exact ⟨rfl, rfl, hlen, hnum, htext, hle, le_rfl, by omega, fun _ => rfl⟩

/-- An empty page is not written: the program exits. -/
theorem Headed.flushPage_exit (h : Headed pagesize w 0 text) : flushPage w = .error .exit := by
  rw [flushPage, h.sized.numentries, Gcide.inside, ok_bind, h.sized.textOffset, Gcide.inside,
    ok_bind, if_pos (.inl rfl)]

/-- Any other is, and the next one is empty. -/
theorem Headed.flushPage (hpage : pagesize < 2 ^ 63) (hmax : 1 ≤ pagesize / 2 / refSize)
    (h : Headed pagesize w n text) (hn : n ≠ 0) :
    ∃ w', Gcide.flushPage w = .ok w' ∧ Headed pagesize w' 0 (pagesize / 2) := by
  obtain ⟨page, hset, hsized⟩ := sized_zero hpage hmax
  have hlower := h.sized.lower
  rw [refSize] at hmax
  refine ⟨⟨w.pagesize, w.maxpageref, w.numPages + 1, page, w.out ++ w.page⟩, ?_,
    h.pagesize_eq, h.maxpageref_eq, hsized⟩
  rw [Gcide.flushPage, h.sized.numentries, Gcide.inside, ok_bind, h.sized.textOffset,
    Gcide.inside, ok_bind, if_neg (by omega), h.pagesize_eq, hset, Gcide.inside, ok_bind]

/-- A reference for which there is room. -/
theorem Headed.putRef (hpage : pagesize < 2 ^ 63) (h : Headed pagesize w n text)
    (hroom : n < pagesize / 2 / refSize - 1) (href : OfString ref)
    (hfit : text + ref.hwbytelen.toNat ≤ pagesize) :
    ∃ page, Gcide.putRef w.page ref = .ok page ∧
      Headed pagesize { w with page := page } (n + 1) (text + ref.hwbytelen.toNat) := by
  obtain ⟨-, page, -, hput, hlength, hnum, hoff, -, -⟩ :=
    putRef_eq hpage h.sized hroom href.hwbytelen_eq hfit
  have hlower := h.sized.lower
  exact ⟨page, hput, h.pagesize_eq, h.maxpageref_eq, hlength, hnum, hoff, by omega, by omega,
    hfit, fun hn => by omega⟩

/-- A reference for which there is none. -/
theorem Headed.putRef_bounds (h : Headed pagesize w n text) (href : OfString ref)
    (hfit : pagesize < text + ref.hwbytelen.toNat) :
    Gcide.putRef w.page ref = .error .bounds := by
  have htextlen : (ref.headword ++ [0]).length = ref.hwbytelen.toNat := by
    rw [List.length_append, List.length_singleton, href.hwbytelen_eq]
  have htext : peek (ref.headword ++ [0]) 0 ref.hwbytelen.toNat = some (ref.headword ++ [0]) := by
    rw [Memory.peek_eq_some (by omega), List.drop_zero, ← htextlen, List.take_length]
  have hpoke : poke w.page text (ref.headword ++ [0]) = none := by
    rw [poke, if_neg]
    rw [htextlen, h.sized.length_eq]
    omega
  simp only [Gcide.putRef, h.sized.textOffset, Gcide.inside, ok_bind, htext, hpoke, error_bind]

/-- What `store_ref` looks at. -/
theorem Headed.storeRef_eq (hpage : pagesize < 2 ^ 63) (h : Headed pagesize w n text)
    (href : OfString ref) :
    storeRef w ref = ((if n = w.maxpageref ∨ pagesize < text + ref.hwbytelen.toNat then
      Gcide.flushPage w else .ok w) >>= fun w =>
        Gcide.putRef w.page ref >>= fun page => .ok { w with page := page }) := by
  have hupper := h.sized.upper
  have hlt := href.hwbytelen_lt
  have hmod : (text + ref.hwbytelen.toNat) % 2 ^ 64 = text + ref.hwbytelen.toNat :=
    Nat.mod_eq_of_lt (by omega)
  rw [storeRef, h.sized.numentries, Gcide.inside, ok_bind, h.sized.textOffset, Gcide.inside,
    ok_bind, hmod, h.pagesize_eq]
  split_ifs <;> rfl

/-- **A page that is empty and has no room**: the program exits. -/
theorem Headed.storeRef_exit (hpage : pagesize < 2 ^ 63) (h : Headed pagesize w 0 text)
    (href : OfString ref) (hroom : pagesize / 2 / refSize - 1 = 0 ∨ TooLong pagesize ref) :
    storeRef w ref = .error .exit := by
  have htext := h.sized.empty rfl
  rw [h.storeRef_eq hpage href, if_pos, h.flushPage_exit, error_bind]
  rw [h.maxpageref_eq, htext]
  rcases hroom with hmax | hlong
  · exact Or.inl hmax.symm
  · rw [TooLong] at hlong
    exact Or.inr (by omega)

/-- **A page that is not**: the headword is written beyond the end of the
next one. -/
theorem Headed.storeRef_bounds (hpage : pagesize < 2 ^ 63) (hmax : 1 ≤ pagesize / 2 / refSize)
    (h : Headed pagesize w n text) (hn : n ≠ 0) (href : OfString ref)
    (hlong : TooLong pagesize ref) : storeRef w ref = .error .bounds := by
  have hlower := h.sized.lower
  rw [TooLong] at hlong
  obtain ⟨w', hflush, h'⟩ := h.flushPage hpage hmax hn
  rw [h.storeRef_eq hpage href, if_pos (.inr (by omega)), hflush, ok_bind,
    h'.putRef_bounds href (by omega), error_bind]

/-- **A headword that is not too long** is stored. -/
theorem Headed.storeRef (hpage : pagesize < 2 ^ 63) (hmax : 1 ≤ pagesize / 2 / refSize - 1)
    (h : Headed pagesize w n text) (href : OfString ref) (hlong : ¬ TooLong pagesize ref) :
    ∃ w' n' text', Gcide.storeRef w ref = .ok w' ∧ Headed pagesize w' (n' + 1) text' := by
  rw [TooLong] at hlong
  have hcount := h.sized.count_le
  by_cases hfull : n = w.maxpageref ∨ pagesize < text + ref.hwbytelen.toNat
  · -- a page without room has something in it
    have hn : n ≠ 0 := by
      rintro rfl
      have htext := h.sized.empty rfl
      rw [h.maxpageref_eq] at hfull
      omega
    obtain ⟨w₁, hflush, h₁⟩ := h.flushPage hpage (by omega) hn
    obtain ⟨page, hput, h'⟩ := h₁.putRef hpage (by omega) href (by omega)
    refine ⟨_, _, _, ?_, h'⟩
    rw [h.storeRef_eq hpage href, if_pos hfull, hflush, ok_bind, hput, ok_bind]
  · have hroom : n < pagesize / 2 / refSize - 1 := by
      rw [h.maxpageref_eq] at hfull
      omega
    obtain ⟨page, hput, h'⟩ := h.putRef hpage hroom href (by omega)
    refine ⟨_, _, _, ?_, h'⟩
    rw [h.storeRef_eq hpage href, if_neg hfull, ok_bind, hput, ok_bind]

/-- **From a page with something in it**, all references are stored inside
the page just if none is too long. -/
theorem Headed.storedInside_iff (hpage : pagesize < 2 ^ 63)
    (hmax : 1 ≤ pagesize / 2 / refSize - 1) (hrefs : ∀ ref ∈ refs, OfString ref)
    (h : Headed pagesize w (n + 1) text) :
    StoredInside refs w ↔ ∀ ref ∈ refs, ¬ TooLong pagesize ref := by
  induction refs generalizing w n text with
  | nil => exact iff_of_true trivial (List.forall_mem_nil _)
  | cons ref refs ih =>
    obtain ⟨href, hrefs⟩ := List.forall_mem_cons.1 hrefs
    rw [List.forall_mem_cons]
    by_cases hlong : TooLong pagesize ref
    · -- it goes beyond the end of the next page
      rw [storedInside_cons_error (h.storeRef_bounds hpage (by omega) (by omega) href hlong)]
      exact iff_of_false nofun fun hall => hall.1 hlong
    · obtain ⟨w', n', text', hstore, h'⟩ := h.storeRef hpage hmax href hlong
      rw [storedInside_cons_ok hstore, ih hrefs h', and_iff_right (h'.inside (by omega)),
        and_iff_right hlong]

/-- **From an empty page**, they are also if the program exits at once. -/
theorem Headed.storedInside_empty (hpage : pagesize < 2 ^ 63)
    (hmax : 1 ≤ pagesize / 2 / refSize) (hrefs : ∀ ref ∈ refs, OfString ref) (hne : refs ≠ [])
    (h : Headed pagesize w 0 text) :
    StoredInside refs w ↔ (∀ ref ∈ refs, ¬ TooLong pagesize ref) ∨
      pagesize / 2 / refSize - 1 = 0 ∨ ∃ ref ∈ refs.head?, TooLong pagesize ref := by
  obtain ⟨ref, refs, rfl⟩ := List.exists_cons_of_ne_nil hne
  obtain ⟨href, hrefs⟩ := List.forall_mem_cons.1 hrefs
  rw [List.forall_mem_cons, List.head?_cons]
  by_cases hexit : pagesize / 2 / refSize - 1 = 0 ∨ TooLong pagesize ref
  · rw [storedInside_cons_error (h.storeRef_exit hpage href hexit)]
    exact iff_of_true rfl (.inr (hexit.imp_right fun hlong => ⟨ref, rfl, hlong⟩))
  · rw [not_or] at hexit
    obtain ⟨hzero, hlong⟩ := hexit
    obtain ⟨w', n', text', hstore, h'⟩ := h.storeRef hpage (by omega) href hlong
    rw [storedInside_cons_ok hstore, h'.storedInside_iff hpage (by omega) hrefs,
      and_iff_right (h'.inside (by omega)), and_iff_right hlong]
    refine ⟨.inl, ?_⟩
    rintro (hall | hz | ⟨r, hr, hr'⟩)
    · exact hall
    · exact absurd hz hzero
    · cases hr
      exact absurd hr' hlong

/-- What a store leaves in the header. -/
theorem putRef_count {page page' : Bytes} {textOffset : ℕ} (hpage : page.length < 2 ^ 63)
    (hnum : getWord page 0 = some n) (htext : getWord page 8 = some textOffset)
    (hlower : 16 ≤ textOffset) (hput : putRef page ref = .ok page') :
    getWord page' 0 = some (n + 1) := by
  rw [putRef, htext, Gcide.inside, ok_bind] at hput
  obtain ⟨text, -, hput⟩ := bind_eq_ok.1 hput
  obtain ⟨page₁, hpage₁, hput⟩ := bind_eq_ok.1 hput
  obtain ⟨textOffset', -, hput⟩ := bind_eq_ok.1 hput
  obtain ⟨page₂, hpage₂, hput⟩ := bind_eq_ok.1 hput
  obtain ⟨n', hn', hput⟩ := bind_eq_ok.1 hput
  obtain ⟨page₃, hpage₃, hput⟩ := bind_eq_ok.1 hput
  rw [inside_eq_ok] at hpage₁ hpage₂ hpage₃ hn' hput
  have hcount : getWord page₂ 0 = some n := by
    rw [Memory.getWord_poke_of_disjoint hpage₂ (.inl (by omega)),
      Memory.getWord_poke_of_disjoint hpage₁ (.inl (by omega)), hnum]
  obtain rfl := Option.some.inj (hcount.symm.trans hn')
  have hbound : refSize * (n + 1) < 2 ^ 63 := by
    have hlen := Memory.le_of_poke hput
    rw [Memory.length_of_poke hpage₃, Memory.length_of_poke hpage₂,
      Memory.length_of_poke hpage₁] at hlen
    omega
  rw [refSize] at hbound
  rw [Memory.getWord_poke_of_disjoint hput (.inl (by rw [refSize]; omega)),
    Memory.getWord_setWord hpage₃ (Nat.mod_lt _ (by decide)), Nat.mod_eq_of_lt (by omega)]

/-- No store makes the program exit. -/
theorem putRef_ne_exit (page : Bytes) : putRef page ref ≠ .error .exit := by
  have hinside : ∀ {α : Type} (o : Option α), inside o ≠ .error .exit := fun o => by
    cases o <;> exact nofun
  have hbind : ∀ {α : Type} {x : Except Stop α} {f : α → Except Stop Bytes},
      x ≠ .error .exit → (∀ a, f a ≠ .error .exit) → (x >>= f) ≠ .error .exit := by
    intro α x f hx hf
    cases x with
    | error stop => exact fun h => hx (congrArg _ (Except.error.inj h))
    | ok a => exact hf a
  rw [putRef]
  exact hbind (hinside _) fun _ => hbind (hinside _) fun _ => hbind (hinside _) fun _ =>
    hbind (hinside _) fun _ => hbind (hinside _) fun _ => hbind (hinside _) fun _ =>
      hbind (hinside _) fun _ => hinside _

/-- With a count that is too large, a headword that is too long is written
beyond the end of the page behind, which has no room for it either. -/
theorem storeRef_left_bounds {n : ℕ} {page : Bytes} (hpage : pagesize < 2 ^ 63)
    (hmax : 1 ≤ pagesize / 2 / refSize) (hlarge : pagesize / 2 / refSize - 1 < n)
    (hnum : getWord page 0 = some n) (htext : getWord page 8 = some (pagesize / 2))
    (href : OfString ref) (hlong : TooLong pagesize ref) :
    storeRef ⟨pagesize, pagesize / 2 / refSize - 1, 0, page, []⟩ ref = .error .bounds := by
  have hlt := href.hwbytelen_lt
  have hmod : (pagesize / 2 + ref.hwbytelen.toNat) % 2 ^ 64 =
      pagesize / 2 + ref.hwbytelen.toNat := Nat.mod_eq_of_lt (by omega)
  obtain ⟨next, hset, hsized⟩ := sized_zero hpage hmax
  have hnext : Headed pagesize ⟨pagesize, pagesize / 2 / refSize - 1, 1, next, page⟩ 0
      (pagesize / 2) := ⟨rfl, rfl, hsized⟩
  rw [TooLong] at hlong
  have hzero : ¬(n = 0 ∨ pagesize / 2 = 0) := by
    rw [refSize] at hmax hlarge
    omega
  have hfull : pagesize < pagesize / 2 + ref.hwbytelen.toNat := by omega
  rw [storeRef, hnum, Gcide.inside, ok_bind, htext, Gcide.inside, ok_bind, hmod,
    if_pos (.inr hfull), Gcide.flushPage, hnum, Gcide.inside, ok_bind, htext,
    Gcide.inside, ok_bind, if_neg hzero, hset, Gcide.inside, ok_bind, ok_bind]
  exact congrArg (· >>= _) (hnext.putRef_bounds href (by omega))

/-- **Where the count is too large**, the first reference is not written in
its place. -/
theorem storedInside_left (hpage : pagesize < 2 ^ 63) (hmem : mem.length = pagesize)
    (hrefs : ∀ ref ∈ refs, OfString ref) (hne : refs ≠ [])
    (hlarge : pagesize / 2 / refSize - 1 < leftCount mem) (h : start mem pagesize = .ok w) :
    ¬StoredInside refs w := by
  have hmax := one_le_of_start h
  obtain ⟨page, hstart, hlen, hnum, htext⟩ := start_ok hpage hmax hmem
  obtain rfl := Except.ok.inj (hstart.symm.trans h)
  obtain ⟨ref, refs, rfl⟩ := List.exists_cons_of_ne_nil hne
  obtain ⟨href, hrefs⟩ := List.forall_mem_cons.1 hrefs
  have hlt := href.hwbytelen_lt
  have hmod : (pagesize / 2 + ref.hwbytelen.toNat) % 2 ^ 64 =
      pagesize / 2 + ref.hwbytelen.toNat := Nat.mod_eq_of_lt (by omega)
  intro hsafe
  by_cases hlong : TooLong pagesize ref
  · have hbounds := storeRef_left_bounds hpage hmax hlarge hnum htext href hlong
    cases (storedInside_cons_error hbounds).1 hsafe
  · rw [TooLong] at hlong
    have hstore : storeRef ⟨pagesize, pagesize / 2 / refSize - 1, 0, page, []⟩ ref =
        putRef page ref >>= fun page =>
          .ok ⟨pagesize, pagesize / 2 / refSize - 1, 0, page, []⟩ := by
      have hroom : ¬(leftCount mem = pagesize / 2 / refSize - 1 ∨
          pagesize < pagesize / 2 + ref.hwbytelen.toNat) := by omega
      rw [storeRef, hnum, Gcide.inside, ok_bind, htext, Gcide.inside, ok_bind, hmod,
        if_neg hroom]
      rfl
    rw [StoredInside, hstore] at hsafe
    cases hput : putRef page ref with
    | error stop =>
      rw [hput] at hsafe
      have hexit : stop = .exit := hsafe
      exact putRef_ne_exit page (hexit ▸ hput)
    | ok page' =>
      rw [hput] at hsafe
      obtain ⟨⟨numentries, -, -, hcount, -, hroom, -⟩, -⟩ := hsafe
      have hone := putRef_count (by omega) hnum htext (by rw [refSize] at hmax; omega) hput
      obtain rfl := Option.some.inj (hone.symm.trans hcount)
      dsimp only at hroom
      rw [refSize] at hmax hlarge hroom
      omega

end Storing

/-! ## All references -/

/-- **Where the references are written**: for every page size that is
accepted, all references and whatever `malloc` returned, every one is
written inside the page or the program exits before, just if there are none
or they fit. -/
theorem storesInside_iff (mem : Bytes) (pagesize : ℕ) (refs : List Ref) (hpage : pagesize < 2 ^ 63)
    (hmem : mem.length = pagesize) (hrefs : ∀ ref ∈ refs, OfString ref) :
    StoresInside mem pagesize refs ↔
      pagesize / 2 / refSize = 0 ∨ refs = [] ∨ RefsFit mem pagesize refs := by
  by_cases hmax : 1 ≤ pagesize / 2 / refSize
  swap
  · exact iff_of_true (fun w hw => absurd (one_le_of_start hw) hmax)
      (.inl (Nat.lt_one_iff.1 (not_le.1 hmax)))
  rw [or_iff_right (Nat.one_le_iff_ne_zero.1 hmax)]
  rcases eq_or_ne refs [] with rfl | hne
  · exact iff_of_true (fun _ _ => trivial) (.inl rfl)
  rw [or_iff_right hne]
  obtain ⟨page, hw, -⟩ := start_ok hpage hmax hmem
  have hstores : StoresInside mem pagesize refs ↔ StoredInside refs _ :=
    ⟨fun hall => hall _ hw, fun hsafe w' hw' => Except.ok.inj (hw.symm.trans hw') ▸ hsafe⟩
  rw [hstores, RefsFit]
  rcases Nat.lt_or_ge (pagesize / 2 / refSize - 1) (leftCount mem) with hlarge | hle
  · refine iff_of_false (storedInside_left hpage hmem hrefs hne hlarge hw) ?_
    rintro (hfit | hzero)
    · omega
    · omega
  · have h := Headed.start hpage hmem hle hw
    rw [and_iff_right hle]
    rcases Nat.eq_zero_or_pos (leftCount mem) with hzero | hpos
    · rw [hzero] at h
      rw [h.storedInside_empty hpage hmax hrefs hne, and_iff_right hzero]
    · obtain ⟨n, hn⟩ : ∃ n, leftCount mem = n + 1 := ⟨leftCount mem - 1, by omega⟩
      rw [hn] at h
      rw [h.storedInside_iff hpage (by omega) hrefs, or_iff_left fun hz => by omega]

/-- A reference to a headword of `k` letters. -/
def longRef (k : ℕ) : Ref :=
  ⟨0, UInt64.ofNat k, UInt64.ofNat (k + 1), 65, 0, 10, 0, List.replicate k 97⟩

/-- A headword that fills the text area of a page and one that does not. -/
theorem storesInside_letters :
    StoresInside (List.replicate 224 0) 224 [longRef 111, longRef 1] ↔
      224 / 2 / refSize = 0 ∨ [longRef 111, longRef 1] = [] ∨
        RefsFit (List.replicate 224 0) 224 [longRef 111, longRef 1] :=
  storesInside_iff _ 224 _ (by decide) List.length_replicate
    (List.forall_mem_cons.2 ⟨⟨by decide, by decide⟩,
      List.forall_mem_singleton.2 ⟨by decide, by decide⟩⟩)

/-- **A headword that is too long behind one that is not** is written beyond
the end of its page, also where the memory was zero. -/
theorem not_forall_storesInside :
    ¬ ∀ (mem : Bytes) (pagesize : ℕ) (refs : List Ref), pagesize < 2 ^ 63 →
      mem.length = pagesize → (∀ ref ∈ refs, OfString ref) → StoresInside mem pagesize refs := by
  intro h
  have hone : OfString (longRef 1) := ⟨by decide, by decide⟩
  have hlong : OfString (longRef 112) := ⟨by decide, by decide⟩
  have hsafe := h (List.replicate 224 0) 224 [longRef 1, longRef 112] (by decide)
    List.length_replicate (List.forall_mem_cons.2 ⟨hone, List.forall_mem_singleton.2 hlong⟩)
  have hzero : leftCount (List.replicate 224 0) = 0 := by
    rw [leftCount, getWord_replicate (by decide), Option.getD_some]
  obtain ⟨page, hw, -⟩ := @start_ok 224 (List.replicate 224 0) (by decide) (by decide)
    List.length_replicate
  have h₀ := Headed.start (by decide) List.length_replicate
    (by rw [hzero]; exact Nat.zero_le _) hw
  rw [hzero] at h₀
  rcases (h₀.storedInside_empty (by decide) (by decide)
    (List.forall_mem_cons.2 ⟨hone, List.forall_mem_singleton.2 hlong⟩)
    (List.cons_ne_nil _ _)).1 (hsafe _ hw) with hall | hmax | ⟨ref, href, hfirst⟩
  · exact hall (longRef 112) (List.mem_cons_of_mem _ List.mem_cons_self) (by decide)
  · exact absurd hmax (by decide)
  · cases href
    exact absurd hfirst (by decide)

end Gcide

end Dico
