import Dico.Common.Bsearch
import Dico.Gcide.Iterate
/-!
# The searches of an index file

`_idx_page_locate` halves the pages of a file, and `_idx_ref_locate` the
references of a page. What they do depends on the comparisons only: where
`_compare` says of every reference what some function of it says, they are
halving searches for its zeros, and `gcide_idx_locate` makes an iterator
where the second of them ends.
-/

namespace Dico

namespace Gcide

open Bsearch (bisect bisectLoop)

variable {file : IdxFile} {pages : List (List Ref)} {page : List Ref} {hw : Bytes} {hwlen : ℕ}
variable {sgn : Ref → ℤ} {ref : Ref} {p k : ℕ}

/-- The comparison with the reference at a position. -/
def sgnAt (sgn : Ref → ℤ) (page : List Ref) (i : ℕ) : ℤ := (page[i]?.map sgn).getD 0

/-- It is the one with the reference there. -/
theorem sgnAt_eq (h : page[k]? = some ref) : sgnAt sgn page k = sgn ref := by
  rw [sgnAt, h, Option.map_some, Option.getD_some]

/-- What `_idx_page_locate` makes of a page: negative to go to the left,
positive to go to the right. -/
def pageSgn (sgn : Ref → ℤ) (page : List Ref) : ℤ :=
  if sgnAt sgn page 0 < 0 then -1
  else if sgnAt sgn page 0 = 0 then 0
  else if 0 < sgnAt sgn page (page.length - 1) then 1
  else 0

/-- And of the page at a position. -/
def pageSgnAt (sgn : Ref → ℤ) (pages : List (List Ref)) (p : ℕ) : ℤ :=
  (pages[p]?.map (pageSgn sgn)).getD 0

/-- It is what it makes of the page there. -/
theorem pageSgnAt_eq (h : pages[p]? = some page) : pageSgnAt sgn pages p = pageSgn sgn page := by
  rw [pageSgnAt, h, Option.map_some, Option.getD_some]

/-- A reference of a page is one of the file. -/
theorem mem_flatten_of_getElem? (hp : pages[p]? = some page) (hk : page[k]? = some ref) :
    ref ∈ pages.flatten :=
  List.mem_flatten.2 ⟨page, List.mem_of_getElem? hp, List.mem_of_getElem? hk⟩

/-- `_idx_ref_locate` halves the references of the page. -/
theorem refLocate_sgn (hcmp : ∀ ref ∈ page, compare hw ref hwlen = .ok (sgn ref)) :
    refLocate page hw hwlen = .ok (bisect page.length (sgnAt sgn page)) := by
  have hloop : ∀ fuel l u, u ≤ page.length → u - l < fuel →
      refLocateLoop page hw hwlen fuel l u = .ok (bisectLoop (sgnAt sgn page) fuel l u) := by
    intro fuel
    induction fuel with
    | zero =>
      intro l u _ hfuel
      omega
    | succ fuel ih =>
      intro l u hu hfuel
      rw [refLocateLoop, bisectLoop]
      split_ifs with hlu
      · have hidx : page[(l + u) / 2]? = some (page.get ⟨(l + u) / 2, by omega⟩) :=
          List.getElem?_eq_getElem (by omega)
        dsimp only
        rw [hidx, inside, ok_bind, hcmp _ (List.mem_of_getElem? hidx), ok_bind, sgnAt_eq hidx]
        split_ifs with hneg hpos
        · exact ih l _ (by omega) (by omega)
        · exact ih _ u hu (by omega)
        · rfl
      · rfl
  exact hloop _ 0 _ le_rfl (by omega)

section File

variable (hfile : Holds file pages)
  (hcmp : ∀ ref ∈ pages.flatten, compare hw ref hwlen = .ok (sgn ref))

include hfile hcmp

/-- `_idx_page_locate` halves the pages. -/
theorem pageLocate_sgn :
    pageLocate file hw hwlen = .ok (bisect pages.length (pageSgnAt sgn pages)) := by
  have hloop : ∀ fuel l u, u ≤ pages.length → u - l < fuel →
      pageLocateLoop file hw hwlen fuel l u =
        .ok (bisectLoop (pageSgnAt sgn pages) fuel l u) := by
    intro fuel
    induction fuel with
    | zero =>
      intro l u _ hfuel
      omega
    | succ fuel ih =>
      intro l u hu hfuel
      rw [pageLocateLoop, bisectLoop]
      split_ifs with hlu
      · have hp : pages[(l + u) / 2]? = some (pages.get ⟨(l + u) / 2, by omega⟩) :=
          List.getElem?_eq_getElem (by omega)
        generalize pages.get _ = page at hp
        have hpos := List.length_pos_of_ne_nil (hfile.ne_nil page (List.mem_of_getElem? hp))
        have hfirst : page[0]? = some (page.get ⟨0, hpos⟩) := List.getElem?_eq_getElem hpos
        have hlast : page[page.length - 1]? = some (page.get ⟨page.length - 1, by omega⟩) :=
          List.getElem?_eq_getElem (by omega)
        have hcmp₀ := hcmp _ (mem_flatten_of_getElem? hp hfirst)
        have hcmp₁ := hcmp _ (mem_flatten_of_getElem? hp hlast)
        dsimp only
        rw [hfile.page, hp, ok_bind]
        dsimp only
        rw [hfirst, inside, ok_bind, hcmp₀, ok_bind, hlast, pageSgnAt_eq hp, pageSgn,
          sgnAt_eq hfirst, sgnAt_eq hlast]
        simp only [inside, ok_bind, hcmp₁]
        -- the last reference is looked at only where the first compares less
        split_ifs <;> first | rfl | exact ih _ _ (by omega) (by omega) | omega
      · rfl
  rw [pageLocate, hfile.numPages]
  exact hloop _ 0 _ le_rfl (by omega)

/-- **What `gcide_idx_locate` returns**, by what the two searches return: the
loop that is to go back ends where it begins. -/
theorem locate_sgn {copy : Bytes} (hcopy : copyHeadword hw hwlen = .ok copy) :
    locate file hw hwlen = .ok ((bisect pages.length (pageSgnAt sgn pages)).bind fun p =>
      pages[p]?.bind fun page => (bisect page.length (sgnAt sgn page)).map fun k =>
        Iterator.create copy hwlen page p k) := by
  rw [locate, pageLocate_sgn hfile hcmp, ok_bind]
  cases hp : bisect pages.length (pageSgnAt sgn pages) with
  | none => rfl
  | some p =>
    obtain ⟨hpn, -⟩ := Bsearch.finds_bisect.sound _ _ _ hp
    have hpage := List.getElem?_eq_getElem hpn
    generalize pages[p] = page at hpage
    have hrefs : ∀ ref ∈ page, compare hw ref hwlen = .ok (sgn ref) := fun ref href =>
      hcmp ref (List.mem_flatten.2 ⟨page, List.mem_of_getElem? hpage, href⟩)
    dsimp only
    rw [hfile.page, Option.bind_some, hpage, ok_bind, Option.bind_some]
    dsimp only
    rw [refLocate_sgn hrefs, ok_bind]
    cases hk : bisect page.length (sgnAt sgn page) with
    | none => rfl
    | some k =>
      obtain ⟨hkn, hzero⟩ := Bsearch.finds_bisect.sound _ _ _ hk
      have href := List.getElem?_eq_getElem hkn
      rw [sgnAt_eq href] at hzero
      have hsame := hrefs _ (List.mem_of_getElem? href)
      rw [hzero] at hsame
      -- the loop that is to go back begins at a reference that compares equal
      dsimp only
      rw [backLoop_self href hsame, ok_bind]
      dsimp only
      rw [hcopy, ok_bind, if_neg (by omega)]
      rfl

end File

end Gcide

end Dico
