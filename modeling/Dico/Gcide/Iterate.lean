import Dico.Gcide.Page
/-!
# Steps of an iterator

An iterator stands at a reference of a page. What is behind it in the file
is a list, and a step goes to its head, whatever page that is in
(`Stands.nextPos`); the comparison with the headword, or the number of
references if that is known, says whether the step is taken.
-/

namespace Dico

namespace Gcide

/-! ## The pages of a file -/

/-- The file has these pages, none of them empty. -/
structure Holds (file : IdxFile) (pages : List (List Ref)) : Prop where
  /-- The header counts them. -/
  numPages : file.numPages = pages.length
  /-- They can be read, and no other. -/
  page : ∀ n, getPage file n = .ok pages[n]?
  /-- There is a reference in each. -/
  ne_nil : ∀ page ∈ pages, page ≠ []

section Steps

variable {file : IdxFile} {pages : List (List Ref)} {itr : Iterator} {page : List Ref}

/-- The references before and behind a page. -/
theorem flatten_split {p : ℕ} (hp : pages[p]? = some page) :
    pages.flatten = (pages.take p).flatten ++ (page ++ (pages.drop (p + 1)).flatten) := by
  obtain ⟨hlt, hget⟩ := List.getElem?_eq_some_iff.1 hp
  conv_lhs => rw [← List.take_append_drop p pages, List.drop_eq_getElem_cons hlt, hget]
  rw [List.flatten_append, List.flatten_cons]

/-- And before and behind a reference of a page. -/
theorem page_split {k : ℕ} {ref : Ref} (hk : page[k]? = some ref) :
    page = page.take k ++ ref :: page.drop (k + 1) := by
  obtain ⟨hlt, hget⟩ := List.getElem?_eq_some_iff.1 hk
  conv_lhs => rw [← List.take_append_drop k page, List.drop_eq_getElem_cons hlt, hget]

/-- And in all pages. -/
theorem flatten_page_split {p k : ℕ} {ref : Ref} (hp : pages[p]? = some page)
    (hk : page[k]? = some ref) :
    pages.flatten = ((pages.take p).flatten ++ page.take k) ++
      ref :: (page.drop (k + 1) ++ (pages.drop (p + 1)).flatten) := by
  rw [flatten_split hp]
  conv_lhs => rw [page_split hk]
  rw [List.append_assoc, List.append_assoc, List.cons_append]

/-! ## Where an iterator stands -/

/-- What is behind an iterator. -/
def behind (pages : List (List Ref)) (itr : Iterator) (page : List Ref) : List Ref :=
  page.drop (itr.curRefno + 1) ++ (pages.drop (itr.curPageno + 1)).flatten

/-- An iterator that stands at a reference of a page. -/
structure Stands (pages : List (List Ref)) (itr : Iterator) (page : List Ref) : Prop where
  /-- The page. -/
  page_eq : pages[itr.curPageno]? = some page
  /-- There is a reference. -/
  lt : itr.curRefno < page.length
  /-- The number of references in the page. -/
  count : itr.pageNumrefs = page.length

/-- The iterator after a step. -/
def Iterator.moved (itr : Iterator) (p k : ℕ) (page : List Ref) : Iterator :=
  { itr with
    pageNumrefs := page.length, curPageno := p, curRefno := k, curref := itr.curref + 1 }

/-- **A step goes to the next reference**, if there is one; if not, to a page
that the file does not have. -/
theorem Stands.nextPos (hfile : Holds file pages) (h : Stands pages itr page) :
    (behind pages itr page = [] ∧ itr.nextPos file = some (pages.length, 0)) ∨
      ∃ p k page' next, itr.nextPos file = some (p, k) ∧ pages[p]? = some page' ∧
        page'[k]? = some next ∧ Stands pages (itr.moved p k page') page' ∧
        behind pages itr page = next :: behind pages (itr.moved p k page') page' := by
  obtain ⟨hplt, -⟩ := List.getElem?_eq_some_iff.1 h.page_eq
  have hlt := h.lt
  have hnum := hfile.numPages
  rw [Iterator.nextPos, h.count]
  rcases Nat.lt_or_ge (itr.curRefno + 1) page.length with hin | hend
  · rw [if_pos (by omega)]
    refine .inr ⟨_, _, page, _, rfl, h.page_eq, List.getElem?_eq_getElem hin,
      ⟨h.page_eq, hin, rfl⟩, ?_⟩
    rw [behind, List.drop_eq_getElem_cons hin, List.cons_append]
    rfl
  · have hnil : page.drop (itr.curRefno + 1) = [] := List.drop_eq_nil_of_le hend
    rw [if_neg (by omega), if_neg (by omega)]
    rcases Nat.lt_or_ge (itr.curPageno + 1) pages.length with hmore | hlast
    · have hp := List.getElem?_eq_getElem hmore
      generalize hpage : pages[itr.curPageno + 1] = page' at hp
      have hpos := List.length_pos_of_ne_nil (hfile.ne_nil _ (List.mem_of_getElem? hp))
      refine .inr ⟨_, _, page', _, rfl, hp, List.getElem?_eq_getElem hpos, ⟨hp, hpos, rfl⟩, ?_⟩
      rw [behind, hnil, List.nil_append, List.drop_eq_getElem_cons hmore, List.flatten_cons, hpage]
      conv_lhs => rw [page_split (List.getElem?_eq_getElem hpos)]
      rw [List.take_zero, List.nil_append, List.cons_append]
      rfl
    · refine .inl ⟨?_, ?_⟩
      · rw [behind, hnil, List.drop_eq_nil_of_le hlast]
        rfl
      · rw [show itr.curPageno + 1 = pages.length by omega]

/-- The end of the run, if it is known. -/
theorem iteratorNext_end (hnum : itr.numrefs ≠ 0) (hlast : itr.curref = itr.numrefs - 1) :
    iteratorNext file itr = .ok (false, itr) := by
  rw [iteratorNext, if_pos ⟨hnum, hlast⟩]

/-- A step to a page that the file does not have. -/
theorem iteratorNext_none (hfile : Holds file pages) (hnum : itr.numrefs = 0)
    (hpos : itr.nextPos file = some (pages.length, 0)) :
    iteratorNext file itr = .ok (false, itr) := by
  rw [iteratorNext, if_neg (fun hc => hc.1 hnum), hpos]
  dsimp only
  rw [hfile.page, List.getElem?_eq_none le_rfl, ok_bind]

variable {p k : ℕ} {page' : List Ref} {next : Ref}

/-- **A step while the end is not known**: the next reference is compared. -/
theorem iteratorNext_compare (hfile : Holds file pages) (hnum : itr.numrefs = 0)
    (hpos : itr.nextPos file = some (p, k)) (hp : pages[p]? = some page')
    (hk : page'[k]? = some next) :
    iteratorNext file itr = (itr.compare next >>= fun rc =>
      if rc ≠ 0 then .ok (false, { itr with numrefs := itr.curref + 1 })
      else .ok (true, itr.moved p k page')) := by
  rw [iteratorNext, if_neg (fun hc => hc.1 hnum), hpos]
  dsimp only
  rw [hfile.page, hp, ok_bind]
  dsimp only
  rw [if_pos hnum, hk, inside, ok_bind]
  cases itr.compare next with
  | error e => rfl
  | ok rc =>
    simp only [ok_bind, decide_eq_true_iff]
    split_ifs <;> rfl

/-- **A step when it is known.** -/
theorem iteratorNext_known (hfile : Holds file pages) (hnum : itr.numrefs ≠ 0)
    (hlast : itr.curref ≠ itr.numrefs - 1) (hpos : itr.nextPos file = some (p, k))
    (hp : pages[p]? = some page') :
    iteratorNext file itr = .ok (true, itr.moved p k page') := by
  rw [iteratorNext, if_neg (fun hc => hlast hc.2), hpos]
  dsimp only
  rw [hfile.page, hp, ok_bind]
  dsimp only
  rw [if_neg hnum, ok_bind, if_neg Bool.false_ne_true]
  rfl

/-- The reference an iterator stands at. -/
theorem Stands.iteratorRef (hfile : Holds file pages) (h : Stands pages itr page) {ref : Ref}
    (href : page[itr.curRefno]? = some ref) : Gcide.iteratorRef file itr = .ok (some ref) := by
  rw [Gcide.iteratorRef, hfile.page, h.page_eq, ok_bind]
  dsimp only
  rw [href, inside, ok_bind]

/-! ## Where an iterator begins -/

variable {hw : Bytes} {hwlen : ℕ}

/-- The loop that is to go back ends where it begins, at a reference that is
equal. -/
theorem backLoop_self {ref : Ref} (href : page[k]? = some ref)
    (hzero : compare hw ref hwlen = .ok 0) (n : ℕ) :
    backLoop file hw hwlen ((p + 1) * (n + 1)) page p k = .ok (some (page, p, k)) := by
  obtain ⟨fuel, hfuel⟩ : ∃ fuel, (p + 1) * (n + 1) = fuel + 1 :=
    ⟨(p + 1) * (n + 1) - 1, by
      have : 0 < (p + 1) * (n + 1) := Nat.mul_pos (by omega) (by omega)
      omega⟩
  rw [hfuel, backLoop, href, inside, ok_bind, hzero, ok_bind, if_pos rfl]

/-- What `_idx_ref_locate` finds is equal. -/
theorem compare_of_refLocateLoop {fuel l u : ℕ}
    (h : refLocateLoop page hw hwlen fuel l u = .ok (some k)) :
    ∃ ref, page[k]? = some ref ∧ compare hw ref hwlen = .ok 0 := by
  induction fuel generalizing l u with
  | zero => cases h
  | succ fuel ih =>
    rw [refLocateLoop] at h
    split_ifs at h with hlu
    · dsimp only at h
      obtain ⟨ref, href, h⟩ := bind_eq_ok.1 h
      obtain ⟨res, hres, h⟩ := bind_eq_ok.1 h
      split_ifs at h with hneg hpos
      · exact ih h
      · exact ih h
      · cases h
        have hzero : res = 0 := by omega
        refine ⟨ref, ?_, hzero ▸ hres⟩
        cases hget : page[(l + u) / 2]? with
        | none =>
          rw [hget] at href
          cases href
        | some ref' =>
          rw [hget] at href
          cases href
          rfl
    · cases h

/-- **An iterator begins at a reference that is equal to the headword.** -/
theorem locate_created (hfile : Holds file pages) (h : locate file hw hwlen = .ok (some itr)) :
    ∃ copy p page k, copyHeadword hw hwlen = .ok copy ∧ pages[p]? = some page ∧ k < page.length ∧
      itr = Iterator.create copy hwlen page p k := by
  rw [locate] at h
  obtain ⟨found, -, h⟩ := bind_eq_ok.1 h
  cases found with
  | none => cases h
  | some p =>
    dsimp only at h
    rw [hfile.page, ok_bind] at h
    cases hp : pages[p]? with
    | none =>
      rw [hp] at h
      cases h
    | some page =>
      rw [hp] at h
      dsimp only at h
      obtain ⟨refno, hrefno, h⟩ := bind_eq_ok.1 h
      cases refno with
      | none => cases h
      | some k =>
        obtain ⟨ref, href, hzero⟩ := compare_of_refLocateLoop hrefno
        have hlt := (List.getElem?_eq_some_iff.1 href).1
        dsimp only at h
        rw [backLoop_self href hzero, ok_bind] at h
        dsimp only at h
        obtain ⟨copy, hcopy, h⟩ := bind_eq_ok.1 h
        rw [if_neg (by omega)] at h
        cases h
        exact ⟨copy, p, page, k, hcopy, hp, hlt, rfl⟩

end Steps

end Gcide

end Dico
