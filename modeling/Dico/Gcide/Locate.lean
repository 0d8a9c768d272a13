import Dico.Gcide.Search
import Dico.Text.Collate
/-!
# Looking up a headword

`gcide_idx_locate` halves the pages, and then the references of the page
it comes to. What it finds may be anywhere among the references equal to
the headword. The loop that is to go back to the first of them ends at
once, as it begins at a reference that is equal; the iterator goes on from
there, and what is before it is never visited.
-/

namespace Dico

namespace Gcide

open Bsearch (Partitioned FirstMet bisect)

/-! ## What is asked -/

section Lookup

variable (file : IdxFile) (pages : List (List Ref)) (hw : Bytes)

/-- The references are sorted. -/
def Sorted : Prop :=
  pages.flatten.Pairwise fun a b => ∃ rc, utf8Strcasecmp a.headword b.headword = some rc ∧ rc ≤ 0

/-- No comparison with the headword looks at a character that is cut
off. -/
def Comparable : Prop := ∀ ref ∈ pages.flatten, ∃ rc, utf8Strcasecmp hw ref.headword = some rc

/-- Whether a reference equals the headword, ignoring case. -/
def equals (ref : Ref) : Bool := utf8Strcasecmp hw ref.headword == some 0

/-- `gcide_iterator_ref` followed by `gcide_iterator_next` until it fails:
the references visited. -/
def visits : ℕ → Iterator → Except Stop (List Ref)
  | 0, _ => .error .loop
  | fuel + 1, itr => do
    let ref ← iteratorRef file itr
    let (success, itr) ← iteratorNext file itr
    if success then do
      let refs ← visits fuel itr
      .ok (ref.toList ++ refs)
    else .ok ref.toList

/-- What is asked: there is no iterator just if no reference equals the
headword, and otherwise it visits all that do, in order. -/
def LocatesAll : Prop :=
  ∃ r, locate file hw 0 = .ok r ∧
    (r = none ↔ ∀ ref ∈ pages.flatten, equals hw ref = false) ∧
    ∀ itr, r = some itr →
      ∃ fuel, visits file fuel itr = .ok (pages.flatten.filter (equals hw))

/-- No reference equals the headword; or else, of the pages in which some
do, halving comes to the first one first, and so it does of the references
in that page that do. -/
def FoundFirst : Prop :=
  (∀ ref ∈ pages.flatten, equals hw ref = false) ∨
  ∃ p page k, pages[p]? = some page ∧
    FirstMet pages.length
      (fun q => ∃ page, pages[q]? = some page ∧ ∃ ref ∈ page, equals hw ref = true) p ∧
    FirstMet page.length (fun i => ∃ ref, page[i]? = some ref ∧ equals hw ref = true) k

/-! ## The comparisons -/

/-- What the headword compares with a reference. -/
def sign (ref : Ref) : ℤ := (utf8Strcasecmp hw ref.headword).getD 0

variable {file pages hw}

/-- And `_compare` says that. -/
theorem Comparable.compare (hdef : Comparable pages hw) {ref : Ref} (href : ref ∈ pages.flatten) :
    compare hw ref 0 = .ok (sign hw ref) ∧ (equals hw ref = true ↔ sign hw ref = 0) := by
  obtain ⟨rc, hrc⟩ := hdef ref href
  rw [Gcide.compare, if_neg (not_not.2 rfl), equals, sign, hrc, Option.getD_some, beq_iff_eq,
    Option.some.injEq]
  exact ⟨rfl, Iff.rfl⟩

/-- One reference before another, as the headword sees them. -/
def Before (hw : Bytes) (a b : Ref) : Prop :=
  (0 ≤ sign hw b → 0 ≤ sign hw a) ∧ (0 < sign hw b → 0 < sign hw a)

/-- The references are so. -/
theorem Sorted.before (hsort : Sorted pages) (hdef : Comparable pages hw) :
    pages.flatten.Pairwise (Before hw) := by
  have hsign : ∀ ref ∈ pages.flatten, sign hw ref = keySign (keys hw) (keys ref.headword) := by
    intro ref href
    obtain ⟨rc, hrc⟩ := hdef ref href
    rw [sign, hrc, Option.getD_some, utf8Strcasecmp_keys hrc]
  refine hsort.imp_of_mem fun {a b} ha hb hab => ?_
  obtain ⟨rc, hrc, hle⟩ := hab
  rw [utf8Strcasecmp_keys hrc, keySign_nonpos] at hle
  rw [Before, hsign a ha, hsign b hb]
  exact keySign_antitone (keys hw) hle

/-! ## The two searches -/

section Order

variable (hord : pages.flatten.Pairwise (Before hw))

include hord

/-- The references of a page are in three parts. -/
theorem partitioned_page {p : ℕ} {page : List Ref} (hp : pages[p]? = some page) :
    Partitioned page.length (sgnAt (sign hw) page) := by
  have hpage := (List.pairwise_flatten.1 hord).1 page (List.mem_of_getElem? hp)
  intro i j hij hj
  rcases Nat.eq_or_lt_of_le hij with rfl | hlt
  · exact ⟨id, id⟩
  · rw [sgnAt_eq (List.getElem?_eq_getElem (by omega : i < page.length)),
      sgnAt_eq (List.getElem?_eq_getElem hj)]
    exact List.pairwise_iff_getElem.1 hpage i j (by omega) hj hlt

/-- And so are the pages. -/
theorem partitioned_pages (hne : ∀ page ∈ pages, page ≠ []) :
    Partitioned pages.length (pageSgnAt (sign hw) pages) := by
  intro i j hij hj
  rcases Nat.eq_or_lt_of_le hij with rfl | hlt
  · exact ⟨id, id⟩
  have hbefore := List.pairwise_iff_getElem.1 (List.pairwise_flatten.1 hord).2 i j (by omega) hj hlt
  have hP := List.getElem?_eq_getElem (by omega : i < pages.length)
  have hQ := List.getElem?_eq_getElem hj
  generalize pages[i] = P at hbefore hP
  generalize pages[j] = Q at hbefore hQ
  have hPpos := List.length_pos_of_ne_nil (hne P (List.mem_of_getElem? hP))
  have hQpos := List.length_pos_of_ne_nil (hne Q (List.mem_of_getElem? hQ))
  -- the first and the last reference of the one page are before the first of the other
  have hfirst := hbefore _ (List.getElem_mem hPpos) _ (List.getElem_mem hQpos)
  have hlast := hbefore _ (List.getElem_mem (by omega : P.length - 1 < P.length)) _
    (List.getElem_mem hQpos)
  rw [Before] at hfirst hlast
  rw [pageSgnAt_eq hP, pageSgnAt_eq hQ, pageSgn, pageSgn,
    sgnAt_eq (List.getElem?_eq_getElem hPpos), sgnAt_eq (List.getElem?_eq_getElem hQpos),
    sgnAt_eq (List.getElem?_eq_getElem (by omega : P.length - 1 < P.length))]
  constructor
  · intro h
    split_ifs at h ⊢ <;> omega
  · intro h
    split_ifs at h ⊢ <;> omega

/-- **The pages that are not passed by are those with references equal to
the headword**, if there are any in the file. -/
theorem pageSgn_eq_zero_iff {p : ℕ} {page : List Ref} (hp : pages[p]? = some page)
    (hne : page ≠ []) (hex : ∃ ref ∈ pages.flatten, sign hw ref = 0) :
    pageSgn (sign hw) page = 0 ↔ ∃ ref ∈ page, sign hw ref = 0 := by
  have hpos := List.length_pos_of_ne_nil hne
  have hfirst := List.getElem?_eq_getElem hpos
  have hlast := List.getElem?_eq_getElem (by omega : page.length - 1 < page.length)
  rw [pageSgn, sgnAt_eq hfirst, sgnAt_eq hlast]
  constructor
  · intro h
    split_ifs at h with hneg hzero hgt
    · exact ⟨_, List.mem_of_getElem? hfirst, hzero⟩
    · omega
    · -- the headword is strictly inside the page, and so is what equals it
      obtain ⟨ref, href, hsign⟩ := hex
      rw [flatten_split hp] at hord href
      obtain ⟨-, hrest, hA⟩ := List.pairwise_append.1 hord
      obtain ⟨-, -, hB⟩ := List.pairwise_append.1 hrest
      rcases List.mem_append.1 href with href | href
      · have hb := (hA ref href _ (List.mem_append_left _ (List.mem_of_getElem? hfirst))).2
          (by omega)
        omega
      · rcases List.mem_append.1 href with href | href
        · exact ⟨ref, href, hsign⟩
        · have hb := (hB _ (List.mem_of_getElem? hlast) ref href).1 (by omega)
          exact ⟨_, List.mem_of_getElem? hlast, by omega⟩
  · rintro ⟨ref, href, hsign⟩
    obtain ⟨i, hi, rfl⟩ := List.mem_iff_getElem.1 href
    have hparts := partitioned_page hord hp
    have hzero := (sgnAt_eq (List.getElem?_eq_getElem hi)).trans hsign
    have h₀ := (hparts 0 i (Nat.zero_le i) hi).1 (by omega)
    have h₁ := hparts i (page.length - 1) (by omega) (by omega)
    rw [sgnAt_eq hfirst] at h₀
    rw [sgnAt_eq hlast] at h₁
    split_ifs <;> omega

end Order

/-! ## Visiting -/

/-- An iterator that stands at a reference of a page, and has not come to
the end of its run. -/
structure Points (pages : List (List Ref)) (hw : Bytes) (itr : Iterator) (page : List Ref)
    (ref : Ref) : Prop where
  /-- It looks for the headword. -/
  headword : itr.headword = hw
  /-- The whole of it. -/
  hwlen : itr.hwlen = 0
  /-- The end is not known. -/
  numrefs : itr.numrefs = 0
  /-- The page. -/
  page_eq : pages[itr.curPageno]? = some page
  /-- The reference. -/
  ref_eq : page[itr.curRefno]? = some ref
  /-- The number of references in the page. -/
  count : itr.pageNumrefs = page.length

/-- Where it stands. -/
theorem Points.stands {itr : Iterator} {page : List Ref} {ref : Ref}
    (h : Points pages hw itr page ref) : Stands pages itr page where
  page_eq := h.page_eq
  lt := (List.getElem?_eq_some_iff.1 h.ref_eq).1
  count := h.count

section Visits

variable {itr : Iterator} {page : List Ref} {ref : Ref}

/-- The next step goes to the next reference, whatever page that is in, if
it is equal to the headword. -/
theorem iteratorNext_eq (hfile : Holds file pages) (hdef : Comparable pages hw)
    (h : Points pages hw itr page ref) :
    ((∀ next ∈ (behind pages itr page).head?, sign hw next ≠ 0) ∧
        ∃ itr', iteratorNext file itr = .ok (false, itr')) ∨
      ∃ itr' page' next, iteratorNext file itr = .ok (true, itr') ∧ sign hw next = 0 ∧
        Points pages hw itr' page' next ∧
        behind pages itr page = next :: behind pages itr' page' := by
  rcases h.stands.nextPos hfile with
    ⟨hnil, hpos⟩ | ⟨p, k, page', next, hpos, hp, hk, hstands, hcons⟩
  · -- there is no page behind the last
    refine .inl ⟨?_, itr, iteratorNext_none hfile h.numrefs hpos⟩
    rw [hnil]
    exact fun x hx => by cases hx
  · have hcmp : itr.compare next = .ok (sign hw next) := by
      rw [Iterator.compare, if_neg (not_not.2 h.hwlen), h.headword]
      exact (hdef.compare (mem_flatten_of_getElem? hp hk)).1
    rw [iteratorNext_compare hfile h.numrefs hpos hp hk, hcmp, ok_bind]
    by_cases hzero : sign hw next = 0
    · exact .inr ⟨_, page', next, if_neg (not_not.2 hzero), hzero,
        ⟨h.headword, h.hwlen, h.numrefs, hp, hk, rfl⟩, hcons⟩
    · refine .inl ⟨?_, _, if_pos hzero⟩
      rw [hcons]
      intro x hx
      obtain rfl := Option.some.inj hx
      exact hzero

/-- **The iterator visits its reference and those behind it that equal the
headword**, up to the first that does not. -/
theorem visits_eq (hfile : Holds file pages) (hdef : Comparable pages hw)
    (h : Points pages hw itr page ref) {fuel : ℕ} (hfuel : (behind pages itr page).length < fuel) :
    visits file fuel itr =
      .ok (ref :: (behind pages itr page).takeWhile fun next => sign hw next = 0) := by
  induction fuel generalizing itr page ref with
  | zero => omega
  | succ fuel ih =>
    have href := h.stands.iteratorRef hfile h.ref_eq
    rw [visits, href, ok_bind]
    rcases iteratorNext_eq hfile hdef h with ⟨hstop, itr', hnext⟩ |
      ⟨itr', page', next, hnext, hzero, hpoints, hbehind⟩
    · rw [hnext, ok_bind]
      have htake : ((behind pages itr page).takeWhile fun next => sign hw next = 0) = [] := by
        cases hb : behind pages itr page with
        | nil => rfl
        | cons next rest =>
          rw [hb] at hstop
          exact List.takeWhile_cons_of_neg (by
            rw [decide_eq_true_iff]
            exact hstop next rfl)
      rw [htake]
      rfl
    · rw [hbehind, List.length_cons] at hfuel
      rw [hnext, ok_bind]
      dsimp only
      rw [if_pos rfl, ih hpoints (by omega), ok_bind, hbehind,
        List.takeWhile_cons_of_pos (p := fun next => decide (sign hw next = 0))
          (decide_eq_true hzero)]
      rfl

/-- A budget that is enough stays enough. -/
theorem visits_mono {fuel fuel' : ℕ} {refs : List Ref} (h : visits file fuel itr = .ok refs)
    (hle : fuel ≤ fuel') : visits file fuel' itr = .ok refs := by
  induction fuel generalizing itr fuel' refs with
  | zero => cases h
  | succ fuel ih =>
    obtain ⟨fuel', rfl⟩ : ∃ k, fuel' = k + 1 := ⟨fuel' - 1, by omega⟩
    rw [visits] at h ⊢
    obtain ⟨ref, href, h⟩ := bind_eq_ok.1 h
    obtain ⟨⟨success, itr'⟩, hnext, h⟩ := bind_eq_ok.1 h
    rw [href, ok_bind, hnext, ok_bind]
    dsimp only at h ⊢
    split_ifs at h ⊢ with hsucc
    · obtain ⟨rest, hrest, h⟩ := bind_eq_ok.1 h
      rw [ih hrest (by omega), ok_bind, h]
    · exact h

end Visits

/-! ## Looking up -/

/-- Behind a reference that equals the headword, those that equal it are
the ones up to the first that does not. -/
theorem filter_eq_takeWhile {ref : Ref} {rest : List Ref} (hzero : sign hw ref = 0)
    (hord : (ref :: rest).Pairwise (Before hw)) :
    (rest.filter fun next => sign hw next = 0) = rest.takeWhile fun next => sign hw next = 0 := by
  obtain ⟨href, hrest⟩ := List.pairwise_cons.1 hord
  refine Bsearch.filter_eq_takeWhile_of_first (hrest.imp_of_mem fun {a b} ha _ hab hb => ?_)
  rw [decide_eq_true_iff] at hb ⊢
  have hfirst := href a ha
  rw [Before] at hab hfirst
  omega

/-- What `gcide_idx_locate` returns, by what the two searches return. -/
theorem locate_eq (hfile : Holds file pages) (hdef : Comparable pages hw) :
    locate file hw 0 = .ok ((bisect pages.length (pageSgnAt (sign hw) pages)).bind fun p =>
      pages[p]?.bind fun page => (bisect page.length (sgnAt (sign hw) page)).map fun k =>
        Iterator.create hw 0 page p k) :=
  locate_sgn hfile (fun _ href => (hdef.compare href).1) rfl

/-- Where some reference equals the headword, the searches find a page and
a reference in it. -/
theorem exists_located (hfile : Holds file pages) (hord : pages.flatten.Pairwise (Before hw))
    (hex : ∃ ref ∈ pages.flatten, sign hw ref = 0) :
    ∃ p page k ref, bisect pages.length (pageSgnAt (sign hw) pages) = some p ∧
      pages[p]? = some page ∧ bisect page.length (sgnAt (sign hw) page) = some k ∧
      page[k]? = some ref ∧ sign hw ref = 0 := by
  have hzeros : ∀ q page, pages[q]? = some page →
      (pageSgn (sign hw) page = 0 ↔ ∃ ref ∈ page, sign hw ref = 0) := fun q page hq =>
    pageSgn_eq_zero_iff hord hq (hfile.ne_nil page (List.mem_of_getElem? hq)) hex
  obtain ⟨ref, href, hzero⟩ := id hex
  obtain ⟨page, hpage, href⟩ := List.mem_flatten.1 href
  obtain ⟨q, hq⟩ := List.mem_iff_getElem?.1 hpage
  obtain ⟨p, hp⟩ := Option.ne_none_iff_exists'.1 (Bsearch.finds_bisect.complete _ _ q
    (partitioned_pages hord hfile.ne_nil) (List.getElem?_eq_some_iff.1 hq).1
    (by rw [pageSgnAt_eq hq]; exact (hzeros q page hq).2 ⟨ref, href, hzero⟩))
  obtain ⟨hpn, hpzero⟩ := Bsearch.finds_bisect.sound _ _ _ hp
  have hpage := List.getElem?_eq_getElem hpn
  rw [pageSgnAt_eq hpage] at hpzero
  obtain ⟨ref, href, hzero⟩ := (hzeros p _ hpage).1 hpzero
  obtain ⟨i, hi⟩ := List.mem_iff_getElem?.1 href
  obtain ⟨k, hk⟩ := Option.ne_none_iff_exists'.1 (Bsearch.finds_bisect.complete _ _ i
    (partitioned_page hord hpage) (List.getElem?_eq_some_iff.1 hi).1
    ((sgnAt_eq hi).trans hzero))
  obtain ⟨hkn, hkzero⟩ := Bsearch.finds_bisect.sound _ _ _ hk
  have href := List.getElem?_eq_getElem hkn
  rw [sgnAt_eq href] at hkzero
  exact ⟨p, _, k, _, hp, hpage, hk, href, hkzero⟩

/-- What is before a position. -/
theorem mem_take_iff {α : Type} {l : List α} {n : ℕ} {x : α} :
    x ∈ l.take n ↔ ∃ i < n, l[i]? = some x := by
  rw [List.mem_iff_getElem?]
  constructor
  · rintro ⟨i, hi⟩
    rw [List.getElem?_take] at hi
    split_ifs at hi with hlt
    exact ⟨i, hlt, hi⟩
  · rintro ⟨i, hlt, hi⟩
    exact ⟨i, by rw [List.getElem?_take, if_pos hlt, hi]⟩

section Located

variable {p k : ℕ} {page : List Ref} {ref : Ref}

/-- All are visited just if none is before the reference that was found. -/
theorem locatesAll_iff_before (hfile : Holds file pages) (hdef : Comparable pages hw)
    (hord : pages.flatten.Pairwise (Before hw))
    (hp : bisect pages.length (pageSgnAt (sign hw) pages) = some p) (hpage : pages[p]? = some page)
    (hk : bisect page.length (sgnAt (sign hw) page) = some k) (href : page[k]? = some ref)
    (hzero : sign hw ref = 0) :
    LocatesAll file pages hw ↔
      ∀ x ∈ (pages.take p).flatten ++ page.take k, sign hw x ≠ 0 := by
  obtain ⟨itr, hitr⟩ : ∃ itr, itr = Iterator.create hw 0 page p k := ⟨_, rfl⟩
  have hpoints : Points pages hw itr page ref := by
    rw [hitr]
    exact ⟨rfl, rfl, rfl, hpage, href, rfl⟩
  have hlocate : locate file hw 0 = .ok (some itr) := by
    rw [locate_eq hfile hdef, hp, Option.bind_some, hpage, Option.bind_some, hk, hitr]
    rfl
  have hsplit : pages.flatten =
      ((pages.take p).flatten ++ page.take k) ++ ref :: behind pages itr page := by
    rw [hitr]
    exact flatten_page_split hpage href
  have hbehind : ((behind pages itr page).filter fun x => sign hw x = 0) =
      (behind pages itr page).takeWhile fun x => sign hw x = 0 := by
    rw [hsplit] at hord
    exact filter_eq_takeWhile hzero (List.pairwise_append.1 hord).2.1
  have hall : pages.flatten.filter (equals hw) =
      (((pages.take p).flatten ++ page.take k).filter fun x => sign hw x = 0) ++
        ref :: (behind pages itr page).takeWhile fun x => sign hw x = 0 := by
    have hcongr : pages.flatten.filter (equals hw) =
        pages.flatten.filter fun x => sign hw x = 0 := List.filter_congr fun x hx => by
      rw [Bool.eq_iff_iff, (hdef.compare hx).2, decide_eq_true_iff]
    rw [hcongr, hsplit, List.filter_append, List.filter_cons_of_pos
      (p := fun x => decide (sign hw x = 0)) (decide_eq_true hzero), hbehind]
  have hvisits := @visits_eq file pages hw itr page ref hfile hdef hpoints
  have hnil : ((((pages.take p).flatten ++ page.take k).filter fun x => sign hw x = 0) = []) ↔
      ∀ x ∈ (pages.take p).flatten ++ page.take k, sign hw x ≠ 0 := by
    rw [List.filter_eq_nil_iff]
    simp only [decide_eq_true_iff, ne_eq]
  rw [← hnil]
  constructor
  · rintro ⟨r, hr, -, hall'⟩
    obtain rfl := Except.ok.inj (hr.symm.trans hlocate)
    obtain ⟨fuel, hfuel⟩ := hall' itr rfl
    have hmore := visits_mono hfuel (Nat.le_add_right fuel ((behind pages itr page).length + 1))
    rw [hvisits (by omega), hall] at hmore
    exact List.self_eq_append_left.1 (Except.ok.inj hmore)
  · intro hempty
    refine ⟨some itr, hlocate, iff_of_false (Option.some_ne_none itr) fun hnone => ?_, ?_⟩
    · have hmem := mem_flatten_of_getElem? hpage href
      exact Bool.false_ne_true ((hnone ref hmem).symm.trans ((hdef.compare hmem).2.2 hzero))
    · rintro itr' hitr'
      obtain rfl := Option.some.inj hitr'
      exact ⟨_, by rw [hvisits (Nat.lt_succ_self _), hall, hempty, List.nil_append]⟩

/-- The pages with a reference that equals the headword are those halving
stops at. -/
theorem pageMet_iff (hfile : Holds file pages) (hdef : Comparable pages hw)
    (hord : pages.flatten.Pairwise (Before hw)) (hex : ∃ ref ∈ pages.flatten, sign hw ref = 0)
    {q : ℕ} (hq : q < pages.length) :
    (∃ page, pages[q]? = some page ∧ ∃ x ∈ page, equals hw x = true) ↔
      pageSgnAt (sign hw) pages q = 0 := by
  have hQ := List.getElem?_eq_getElem hq
  rw [pageSgnAt_eq hQ, pageSgn_eq_zero_iff hord hQ (hfile.ne_nil _ (List.mem_of_getElem? hQ))
    hex]
  constructor
  · rintro ⟨Q, hQ', x, hx, heq⟩
    obtain rfl := Option.some.inj (hQ.symm.trans hQ')
    exact ⟨x, hx, (hdef.compare (List.mem_flatten.2 ⟨_, List.mem_of_getElem? hQ, hx⟩)).2.1 heq⟩
  · rintro ⟨x, hx, hxzero⟩
    exact ⟨_, hQ, x, hx,
      (hdef.compare (List.mem_flatten.2 ⟨_, List.mem_of_getElem? hQ, hx⟩)).2.2 hxzero⟩

/-- And so are the references of a page. -/
theorem refMet_iff (hdef : Comparable pages hw) (hpage : pages[p]? = some page) {i : ℕ}
    (hi : i < page.length) :
    (∃ x, page[i]? = some x ∧ equals hw x = true) ↔ sgnAt (sign hw) page i = 0 := by
  have hx := List.getElem?_eq_getElem hi
  rw [sgnAt_eq hx, ← (hdef.compare (mem_flatten_of_getElem? hpage hx)).2, hx]
  simp only [Option.some.injEq, exists_eq_left']

/-- Halving comes to the first page first, and to the first reference, just
if it stops at none before them. -/
theorem foundFirst_iff_signs (hfile : Holds file pages) (hdef : Comparable pages hw)
    (hord : pages.flatten.Pairwise (Before hw))
    (hp : bisect pages.length (pageSgnAt (sign hw) pages) = some p) (hpage : pages[p]? = some page)
    (hk : bisect page.length (sgnAt (sign hw) page) = some k) (href : page[k]? = some ref)
    (hzero : sign hw ref = 0) :
    FoundFirst pages hw ↔
      (∀ q < p, pageSgnAt (sign hw) pages q ≠ 0) ∧ ∀ i < k, sgnAt (sign hw) page i ≠ 0 := by
  have hmem := mem_flatten_of_getElem? hpage href
  have hnone : ¬ ∀ x ∈ pages.flatten, equals hw x = false := fun h =>
    Bool.false_ne_true ((h ref hmem).symm.trans ((hdef.compare hmem).2.2 hzero))
  have hpages : ∀ q < pages.length, _ ↔ pageSgnAt (sign hw) pages q = 0 := fun q hq =>
    pageMet_iff hfile hdef hord ⟨ref, hmem, hzero⟩ hq
  have hrefs : ∀ i < page.length, _ ↔ sgnAt (sign hw) page i = 0 := fun i hi =>
    refMet_iff hdef hpage hi
  rw [FoundFirst, or_iff_right hnone]
  constructor
  · rintro ⟨q, page', j, hpage', hq, hj⟩
    rw [Bsearch.firstMet_congr hpages, Bsearch.firstMet_iff
      (partitioned_pages hord hfile.ne_nil) hp] at hq
    obtain ⟨rfl, hq⟩ := hq
    obtain rfl := Option.some.inj (hpage.symm.trans hpage')
    rw [Bsearch.firstMet_congr hrefs, Bsearch.firstMet_iff (partitioned_page hord hpage) hk] at hj
    exact ⟨hq, hj.2⟩
  · rintro ⟨hq, hj⟩
    refine ⟨p, page, k, hpage, ?_, ?_⟩
    · rw [Bsearch.firstMet_congr hpages,
        Bsearch.firstMet_iff (partitioned_pages hord hfile.ne_nil) hp]
      exact ⟨rfl, hq⟩
    · rw [Bsearch.firstMet_congr hrefs, Bsearch.firstMet_iff (partitioned_page hord hpage) hk]
      exact ⟨rfl, hj⟩

/-- And so it is just if halving comes to the first page first, and to the
first reference. -/
theorem foundFirst_iff_before (hfile : Holds file pages) (hdef : Comparable pages hw)
    (hord : pages.flatten.Pairwise (Before hw))
    (hp : bisect pages.length (pageSgnAt (sign hw) pages) = some p) (hpage : pages[p]? = some page)
    (hk : bisect page.length (sgnAt (sign hw) page) = some k) (href : page[k]? = some ref)
    (hzero : sign hw ref = 0) :
    FoundFirst pages hw ↔ ∀ x ∈ (pages.take p).flatten ++ page.take k, sign hw x ≠ 0 := by
  have hex : ∃ ref ∈ pages.flatten, sign hw ref = 0 :=
    ⟨ref, mem_flatten_of_getElem? hpage href, hzero⟩
  have hpn := (List.getElem?_eq_some_iff.1 hpage).1
  have hkn := (List.getElem?_eq_some_iff.1 href).1
  rw [foundFirst_iff_signs hfile hdef hord hp hpage hk href hzero, List.forall_mem_append]
  refine and_congr ?_ ?_
  · constructor
    · intro h x hx hxzero
      obtain ⟨Q, hQ, hx⟩ := List.mem_flatten.1 hx
      obtain ⟨q, hq, hQ⟩ := mem_take_iff.1 hQ
      refine h q hq ((pageMet_iff hfile hdef hord hex (by omega)).1 ⟨Q, hQ, x, hx, ?_⟩)
      exact (hdef.compare (List.mem_flatten.2 ⟨Q, List.mem_of_getElem? hQ, hx⟩)).2.2 hxzero
    · intro h q hq hqzero
      obtain ⟨Q, hQ, x, hx, heq⟩ := (pageMet_iff hfile hdef hord hex (by omega)).2 hqzero
      refine h x (List.mem_flatten.2 ⟨Q, mem_take_iff.2 ⟨q, hq, hQ⟩, hx⟩) ?_
      exact (hdef.compare (List.mem_flatten.2 ⟨Q, List.mem_of_getElem? hQ, hx⟩)).2.1 heq
  · constructor
    · intro h x hx
      obtain ⟨i, hi, hx⟩ := mem_take_iff.1 hx
      rw [← @sgnAt_eq _ (sign hw) _ _ hx]
      exact h i hi
    · intro h i hi
      have hx := List.getElem?_eq_getElem (by omega : i < page.length)
      rw [sgnAt_eq hx]
      exact h _ (mem_take_iff.2 ⟨i, hi, hx⟩)

end Located

/-- **Exact lookup.** For every file of sorted references and every
headword: what `gcide_idx_locate` returns visits all references that equal
the headword just if `FoundFirst`. -/
theorem locatesAll_iff (file : IdxFile) (pages : List (List Ref)) (hw : Bytes)
    (hfile : Holds file pages) (hsort : Sorted pages) (hdef : Comparable pages hw) :
    LocatesAll file pages hw ↔ FoundFirst pages hw := by
  have hord := hsort.before hdef
  have hequals : ∀ ref ∈ pages.flatten, (equals hw ref = true ↔ sign hw ref = 0) :=
    fun ref href => (hdef.compare href).2
  have hlocate := locate_eq hfile hdef
  by_cases hex : ∃ ref ∈ pages.flatten, sign hw ref = 0
  · obtain ⟨p, page, k, ref, hp, hpage, hk, href, hzero⟩ := exists_located hfile hord hex
    rw [locatesAll_iff_before hfile hdef hord hp hpage hk href hzero,
      foundFirst_iff_before hfile hdef hord hp hpage hk href hzero]
  · -- whatever page is looked at, nothing in it is equal
    have hnone : ∀ ref ∈ pages.flatten, equals hw ref = false := by
      intro ref href
      rw [Bool.eq_false_iff, Ne, hequals ref href]
      exact fun hzero => hex ⟨ref, href, hzero⟩
    refine iff_of_true ⟨none, ?_, iff_of_true rfl hnone, fun itr hitr => by cases hitr⟩ (.inl hnone)
    rw [hlocate]
    congr 1
    rw [Option.bind_eq_none_iff]
    intro p hp
    rw [Option.bind_eq_none_iff]
    intro page hpage
    rw [Option.map_eq_none_iff]
    refine Bsearch.finds_bisect.eq_none ?_
    rintro ⟨i, hi, hzero⟩
    rw [sgnAt_eq (List.getElem?_eq_getElem hi)] at hzero
    exact hex ⟨_, mem_flatten_of_getElem? hpage (List.getElem?_eq_getElem hi), hzero⟩

/-- References to headwords of one letter: where each is, and which it is. -/
def sampleRefs (words : List (UInt64 × UInt8)) : List Ref :=
  words.map fun w => ⟨w.1, 1, 2, 65, 0, 10, w.1, [w.2]⟩

/-- An index file of one page with room for two of them. -/
def sampleFile (words : List (UInt64 × UInt8)) : IdxFile where
  pagesize := 172
  numPages := 1
  content := List.replicate 172 0 ++ Memory.toLe 8 words.length ++ List.replicate 48 0 ++
    ((sampleRefs words).flatMap Ref.bytes ++ List.replicate 112 0).take 112 ++
    (words.flatMap (fun w : UInt64 × UInt8 => [w.2, 0]) ++ List.replicate 4 0).take 4

/-- It has one page. -/
theorem holds_sampleFile {words : List (UInt64 × UInt8)}
    (h : getPage (sampleFile words) 0 = .ok (some (sampleRefs words)))
    (hlen : (sampleFile words).content.length = 344) (hne : words ≠ []) :
    Holds (sampleFile words) [sampleRefs words] where
  numPages := rfl
  page n := by
    cases n with
    | zero => exact h
    | succ n =>
      have hpos : (sampleFile words).pagesize = 172 := rfl
      exact getPage_eq_none (by rw [hlen, hpos]; omega)
  ne_nil page hpage := by
    rw [List.mem_singleton.1 hpage]
    exact fun hnil => hne (List.map_eq_nil_iff.1 hnil)

/-- Two references, and the headword of the first. -/
theorem locatesAll_sampleFile :
    LocatesAll (sampleFile [(168, 97), (170, 98)]) [sampleRefs [(168, 97), (170, 98)]]
        (ascii "A") ↔
      FoundFirst [sampleRefs [(168, 97), (170, 98)]] (ascii "A") := by
  refine locatesAll_iff _ _ _ ?_ ?_ ?_
  · exact holds_sampleFile (by decide +kernel) (by decide +kernel) (by decide)
  · exact List.pairwise_pair.2 ⟨-1, by decide +kernel, by decide⟩
  · exact List.forall_mem_cons.2 ⟨⟨0, by decide +kernel⟩,
      List.forall_mem_singleton.2 ⟨-1, by decide +kernel⟩⟩

/-- **Of two references to one headword, one is visited.** -/
theorem not_forall_locatesAll :
    ¬ ∀ (file : IdxFile) (pages : List (List Ref)) (hw : Bytes), Holds file pages →
      Sorted pages → Comparable pages hw → LocatesAll file pages hw := by
  intro h
  have hfile : Holds (sampleFile [(168, 97), (170, 97)]) [sampleRefs [(168, 97), (170, 97)]] :=
    holds_sampleFile (by decide +kernel) (by decide +kernel) (by decide)
  have hsort : Sorted [sampleRefs [(168, 97), (170, 97)]] :=
    List.pairwise_pair.2 ⟨0, by decide +kernel, le_rfl⟩
  have hdef : Comparable [sampleRefs [(168, 97), (170, 97)]] (ascii "a") :=
    List.forall_mem_cons.2 ⟨⟨0, by decide +kernel⟩,
      List.forall_mem_singleton.2 ⟨0, by decide +kernel⟩⟩
  have hall := h _ _ _ hfile hsort hdef
  rw [@locatesAll_iff_before _ _ _ 0 1 _ _ hfile hdef (hsort.before hdef) (by decide +kernel) rfl
    (by decide +kernel) rfl (by decide +kernel)] at hall
  exact hall _ List.mem_cons_self (by decide +kernel)

end Lookup

end Gcide

end Dico
