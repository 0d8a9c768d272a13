import Mathlib.Data.List.Destutter
import Dico.DictOrg.Model
import Dico.Gcide.Copy
import Dico.Gcide.Locate
/-!
# Looking up a prefix

With the strategy `prefix`, `gcide_match` has `gcide_idx_locate` compare no
more characters than the prefix has, and no more than the headword has. A
headword that is a beginning of the prefix compares equal, too. What the
searches come to is anywhere among those that compare equal, and the result
is what is from there on, as far as the copy of the prefix tells.
-/

namespace Dico

namespace Gcide

open Bsearch (FirstSeen bisect)
open Utf8 (encode)

/-! ## The model -/

/-- `gcide_result_list_append` to a list that is to have no duplicates. -/
def resultListAppend (list : List Ref) (ref : Ref) : Except Stop (List Ref) :=
  match DictOrg.appendTail (fun a b => utf8Strcasecmp a.headword b.headword) list ref with
  | none => .error .unset
  | some list => .ok list

/-- `prefix_match`. -/
def prefixMatch (file : IdxFile) (hw : Bytes) : Except Stop (Option Iterator) := do
  let hwlen ← inside (utf8Strlen hw)
  locate file hw hwlen

/-- The loop of `gcide_match`. -/
def matchLoop (file : IdxFile) : ℕ → Iterator → List Ref → Except Stop (List Ref)
  | 0, _, _ => .error .loop
  | fuel + 1, itr, list => do
    let ref ← iteratorRef file itr
    let ref ← inside ref
    let list ← resultListAppend list ref
    let (success, itr) ← iteratorNext file itr
    if success then matchLoop file fuel itr list else .ok list

/-- `gcide_match` with the strategy `prefix`: the list of the result, if
there is one. -/
def matchPrefix (file : IdxFile) (fuel : ℕ) (word : Bytes) : Except Stop (Option (List Ref)) := do
  let itr ← prefixMatch file word
  match itr with
  | none => .ok none
  | some itr => do
    let list ← matchLoop file fuel itr []
    .ok (some list)

/-! ## What is asked -/

/-- The characters of a headword, in upper case. -/
def upper (ref : Ref) : List ℕ := folded (codesOf ref.headword)

/-- The headword is a text, and its length is right. -/
def IsText (ref : Ref) : Prop :=
  ∃ t : Utf8Text, ref.headword = t.bytes ∧ ref.hwlen.toNat = t.codes.length

section Asked

variable (file : IdxFile) (pages : List (List Ref)) (hw : Utf8Text)

/-- Whether the headword begins with the prefix, ignoring case. -/
def begins (ref : Ref) : Bool := decide (folded hw.codes <+: upper ref)

/-- What is asked: the headwords that begin with the prefix, in order, and
of those that follow each other and differ in case at most only the
first. -/
def PrefixMatches : Prop :=
  ∃ fuel r, matchPrefix file fuel hw.bytes = .ok r ∧
    (r.getD []).map Ref.headword =
      ((pages.flatten.filter (begins hw)).destutter fun a b => upper a ≠ upper b).map Ref.headword

/-- What the prefix compares with a reference: no more than both have. -/
def prefixSign (ref : Ref) : ℤ := truncSign (folded hw.codes) (upper ref)

/-- Halving the pages comes to this page, and halving the page to this
reference: it is the first, of those looked at on the way to the last that
do not compare greater, that compares equal. -/
def Lands (p : ℕ) (page : List Ref) (k : ℕ) (ref : Ref) : Prop :=
  pages[p]? = some page ∧ page[k]? = some ref ∧
    FirstSeen pages.length
      (pages.takeWhile fun page => decide (0 ≤ sgnAt (prefixSign hw) page 0)).length
      (fun q => pageSgnAt (prefixSign hw) pages q = 0) p ∧
    FirstSeen page.length (page.takeWhile fun ref => decide (0 ≤ prefixSign hw ref)).length
      (fun i => sgnAt (prefixSign hw) page i = 0) k

/-- Every character is one byte, and a 32-bit number counts them. -/
def Plain : Prop := hw.bytes.length = hw.codes.length ∧ hw.codes.length < 2 ^ 32

/-- Nothing begins with the prefix, and the searches come to nothing. Or
they come to a reference with the same headword as the first that begins
with it; and the prefix is plain, or else what is behind that reference
does not begin with the characters that are whole in the copy. -/
def PrefixFound : Prop :=
  ((∀ ref ∈ pages.flatten, begins hw ref = false) ∧
    ∀ p page k ref, ¬ Lands pages hw p page k ref) ∨
  ∃ p page k ref, Lands pages hw p page k ref ∧
    (pages.flatten.find? (begins hw)).map Ref.headword = some ref.headword ∧
    (Plain hw ∨ ∀ next ∈ (page.drop (k + 1) ++ (pages.drop (p + 1)).flatten).head?,
      ¬ folded (whole hw.codes.length hw.codes) <+: upper next)

end Asked

/-! ## Lists -/

section Stutter

variable {α β : Type} {R : α → α → Prop} [DecidableRel R] {a a' : α} {l m : List α}

/-- The first stays. -/
theorem head?_destutter' : (l.destutter' R a).head? = some a := by
  induction l with
  | nil => rfl
  | cons b l ih =>
    rw [List.destutter'_cons]
    split_ifs
    · rfl
    · exact ih

/-- What is not different from the first goes. -/
theorem destutter'_append (h : ∀ x ∈ l, ¬ R a x) :
    (l ++ m).destutter' R a = m.destutter' R a := by
  induction l with
  | nil => rfl
  | cons b l ih =>
    obtain ⟨hb, hl⟩ := List.forall_mem_cons.1 h
    rw [List.cons_append, List.destutter'_cons_neg _ hb, ih hl]

/-- One that is like the first may be in its place. -/
theorem map_destutter'_congr {f : α → β} (hf : f a = f a') (hR : ∀ x, R a x ↔ R a' x) :
    (l.destutter' R a).map f = (l.destutter' R a').map f := by
  induction l with
  | nil => rw [List.destutter'_nil, List.destutter'_nil, List.map_singleton, List.map_singleton, hf]
  | cons b l ih =>
    by_cases hb : R a b
    · rw [List.destutter'_cons_pos _ hb, List.destutter'_cons_pos _ ((hR b).1 hb), List.map_cons,
        List.map_cons, hf]
    · rw [List.destutter'_cons_neg _ hb, List.destutter'_cons_neg _ (fun h => hb ((hR b).2 h)), ih]

end Stutter

/-! ## The comparisons -/

section Texts

variable {pages : List (List Ref)} {hw : Utf8Text} {ref next : Ref}

/-- A headword that is a text. -/
theorem IsText.spec (h : IsText ref) :
    ref.headword = (codesOf ref.headword).flatMap encode ∧ Scalars (codesOf ref.headword) ∧
      ref.hwlen.toNat = (codesOf ref.headword).length := by
  obtain ⟨t, ht, hlen⟩ := h
  rw [ht, codesOf_bytes]
  exact ⟨t.bytes_eq, t.scalars, hlen⟩

/-- It has as many characters in upper case. -/
theorem length_upper (ref : Ref) : (upper ref).length = (codesOf ref.headword).length :=
  List.length_map _

/-- What two of them compare. -/
theorem IsText.utf8Strcasecmp (h : IsText ref) (h' : IsText next) :
    utf8Strcasecmp ref.headword next.headword = some (lexSign (upper ref) (upper next)) := by
  obtain ⟨t, ht, -⟩ := h
  obtain ⟨u, hu, -⟩ := h'
  rw [upper, upper, ht, hu, codesOf_bytes, codesOf_bytes, utf8Strcasecmp_bytes]

/-- Sorted texts are in the order of their characters. -/
theorem Sorted.upper_le (hsort : Sorted pages) (htext : ∀ ref ∈ pages.flatten, IsText ref) :
    pages.flatten.Pairwise fun a b => upper a ≤ upper b := by
  refine hsort.imp_of_mem fun {a b} ha hb hab => ?_
  obtain ⟨rc, hrc, hle⟩ := hab
  rw [(htext a ha).utf8Strcasecmp (htext b hb)] at hrc
  obtain rfl := Option.some.inj hrc
  exact lexSign_nonpos.1 hle

/-- `_compare` with a prefix. -/
theorem compare_bytes (hne : hw.codes ≠ []) (h : IsText ref) :
    compare hw.bytes ref hw.codes.length = .ok (prefixSign hw ref) := by
  obtain ⟨t, ht, hlen⟩ := h
  have hmin : (if ref.hwlen.toNat < hw.codes.length then ref.hwlen.toNat else hw.codes.length) =
      min hw.codes.length t.codes.length := by
    rw [hlen]
    split_ifs <;> omega
  have hpos := List.length_pos_of_ne_nil hne
  rw [Gcide.compare, if_pos (by omega), hmin, ht]
  dsimp only
  rw [utf8Strncasecmp_min, prefixSign, upper, ht, codesOf_bytes, compared]

/-- What is copied of it. -/
theorem copyHeadword_bytes (hne : hw.codes ≠ []) :
    copyHeadword hw.bytes hw.codes.length = .ok (hw.bytes.take hw.codes.length) := by
  have hpos := List.length_pos_of_ne_nil hne
  have hle := length_codes_le hw
  have hpeek : Memory.peek (hw.bytes ++ [0]) 0 hw.codes.length =
      some (hw.bytes.take hw.codes.length) := by
    rw [Memory.peek, if_pos (by rw [List.length_append]; omega), List.drop_zero,
      List.take_append_of_le_length hle]
  rw [copyHeadword, if_pos (by omega), hpeek, inside]

end Texts

/-! ## Where the searches come to -/

section Landing

variable {file : IdxFile} {pages : List (List Ref)} {hw : Utf8Text}
variable {p k : ℕ} {page : List Ref} {ref : Ref}

/-- What is before a reference that does not compare greater does not. -/
theorem prefixSign_nonneg {a b : Ref} (hab : upper a ≤ upper b) (hb : 0 ≤ prefixSign hw b) :
    0 ≤ prefixSign hw a := by
  by_contra hneg
  exact not_lt.2 hb (truncSign_neg_mono hab (not_le.1 hneg))

variable (hord : pages.flatten.Pairwise fun a b => upper a ≤ upper b)

include hord

/-- Halving the pages. -/
theorem bisect_pages_iff (hne : ∀ page ∈ pages, page ≠ []) :
    bisect pages.length (pageSgnAt (prefixSign hw) pages) = some p ↔
      FirstSeen pages.length
        (pages.takeWhile fun page => decide (0 ≤ sgnAt (prefixSign hw) page 0)).length
        (fun q => pageSgnAt (prefixSign hw) pages q = 0) p := by
  refine Bsearch.bisect_list_iff ?_ fun i P hP => ?_
  · refine (List.pairwise_flatten.1 hord).2.imp_of_mem fun {P Q} hP hQ hPQ => ?_
    have hP₀ := List.getElem?_eq_getElem (List.length_pos_of_ne_nil (hne P hP))
    have hQ₀ := List.getElem?_eq_getElem (List.length_pos_of_ne_nil (hne Q hQ))
    rw [decide_eq_true_iff, decide_eq_true_iff, sgnAt_eq hP₀, sgnAt_eq hQ₀]
    exact prefixSign_nonneg (hPQ _ (List.mem_of_getElem? hP₀) _ (List.mem_of_getElem? hQ₀))
  · rw [decide_eq_true_iff, pageSgnAt_eq hP, pageSgn]
    split_ifs <;> omega

/-- Halving a page. -/
theorem bisect_page_iff (hp : pages[p]? = some page) :
    bisect page.length (sgnAt (prefixSign hw) page) = some k ↔
      FirstSeen page.length (page.takeWhile fun ref => decide (0 ≤ prefixSign hw ref)).length
        (fun i => sgnAt (prefixSign hw) page i = 0) k := by
  refine Bsearch.bisect_list_iff ?_ fun i x hx => ?_
  · refine ((List.pairwise_flatten.1 hord).1 page (List.mem_of_getElem? hp)).imp fun {a b} hab => ?_
    rw [decide_eq_true_iff, decide_eq_true_iff]
    exact prefixSign_nonneg hab
  · rw [decide_eq_true_iff, sgnAt_eq hx]

/-- **The searches come to where `Lands` says.** -/
theorem lands_iff (hne : ∀ page ∈ pages, page ≠ []) :
    Lands pages hw p page k ref ↔
      bisect pages.length (pageSgnAt (prefixSign hw) pages) = some p ∧ pages[p]? = some page ∧
        bisect page.length (sgnAt (prefixSign hw) page) = some k ∧ page[k]? = some ref := by
  rw [Lands, bisect_pages_iff hord hne]
  constructor
  · rintro ⟨hp, hk, hpage, href⟩
    exact ⟨hpage, hp, (bisect_page_iff hord hp).2 href, hk⟩
  · rintro ⟨hpage, hp, href, hk⟩
    exact ⟨hp, hk, hpage, (bisect_page_iff hord hp).1 href⟩

end Landing

/-! ## The comparisons with the copy -/

section Copied

variable {hw : Utf8Text} {ref next : Ref} {itr : Iterator}

/-- Behind a reference that begins with the prefix there is no beginning of
the prefix, but the prefix. -/
theorem prefix_of_behind (hbegins : folded hw.codes <+: upper ref) (hle : upper ref ≤ upper next)
    (hpre : upper next <+: folded hw.codes) : folded hw.codes <+: upper next := by
  rw [le_antisymm (prefix_le (hpre.trans hbegins)) hle]
  exact hbegins

/-- The characters in the copy are characters of the prefix. -/
theorem scalars_whole (n : ℕ) : Scalars (whole n hw.codes) := fun wc hwc =>
  hw.scalars wc ((prefix_whole n hw.codes).subset hwc)

/-- In upper case, too. -/
theorem prefix_folded_whole (hw : Utf8Text) (n : ℕ) :
    folded (whole n hw.codes) <+: folded hw.codes :=
  (prefix_whole n hw.codes).map utf8WcToupper

variable (hhead : itr.headword = hw.bytes.take hw.codes.length)
  (hlen : itr.hwlen = hw.codes.length) (hne : hw.codes ≠ []) (hnext : IsText next)

include hhead hlen hne hnext

/-- `_compare` with the copy. -/
theorem iterator_compare_copy :
    ∃ t, Cut t ∧ (hw.bytes.length = hw.codes.length → t = []) ∧
      itr.compare next =
        blockcmpLoop (min hw.codes.length (codesOf next.headword).length)
          ((whole hw.codes.length hw.codes).flatMap encode ++ t).length 0
          ((whole hw.codes.length hw.codes).flatMap encode ++ t)
          ((codesOf next.headword).flatMap encode) := by
  obtain ⟨htext, -, hnum⟩ := hnext.spec
  obtain ⟨t, ht, hcut⟩ := exists_take_encode hw.scalars hw.codes.length
  have hpos := List.length_pos_of_ne_nil hne
  have hmin : (if next.hwlen.toNat < hw.codes.length then next.hwlen.toNat
      else hw.codes.length) = min hw.codes.length (codesOf next.headword).length := by
    rw [hnum]
    split_ifs <;> omega
  rw [← hw.bytes_eq] at ht
  have hnull : (0 : UInt8) ∉ itr.headword := by
    rw [hhead, hw.bytes_eq]
    exact fun h => ne_zero_of_mem_encode hw.codes_codepoints (List.mem_of_mem_take h) rfl
  refine ⟨t, hcut, fun hbytes => ?_, ?_⟩
  · -- all is copied
    have hall := (@whole_eq_self_iff hw.codes.length hw.codes).2 (by rw [← hw.bytes_eq]; omega)
    rw [hall, ← hw.bytes_eq, ← hbytes, List.take_length] at ht
    exact List.self_eq_append_right.1 ht
  · rw [Iterator.compare, hlen, if_pos (by omega), hmin]
    dsimp only
    rw [if_neg hnull, hhead, ht, ← htext]

/-- A reference that begins with a plain prefix compares equal. -/
theorem compare_plain (hplain : Plain hw) (hbegins : folded hw.codes <+: upper next) :
    itr.compare next = .ok 0 := by
  obtain ⟨t, -, hnil, hcmp⟩ := iterator_compare_copy hhead hlen hne hnext
  obtain ⟨-, hscalars, -⟩ := hnext.spec
  have hall := (@whole_eq_self_iff hw.codes.length hw.codes).2
    (by rw [← hw.bytes_eq, hplain.1])
  have hle := hbegins.length_le
  rw [length_upper, folded, List.length_map] at hle
  rw [hcmp, hnil hplain.1, List.append_nil, hall, min_eq_left hle]
  exact blockcmpLoop_same hw.scalars hscalars hbegins (length_le_encode _) (Nat.zero_add _)
    hplain.2

variable (hbegins : folded hw.codes <+: upper ref) (hle : upper ref ≤ upper next)

include hbegins hle

/-- One that does not begin with the characters in the copy compares
different. -/
theorem compare_differs
    (hnot : ¬ folded (whole hw.codes.length hw.codes) <+: upper next) :
    ∃ rc, rc ≠ 0 ∧ itr.compare next = .ok rc := by
  obtain ⟨t, -, -, hcmp⟩ := iterator_compare_copy hhead hlen hne hnext
  obtain ⟨-, hscalars, -⟩ := hnext.spec
  have hpre := prefix_folded_whole hw hw.codes.length
  have hback : ¬ upper next <+: folded (whole hw.codes.length hw.codes) := fun h =>
    hnot (hpre.trans (prefix_of_behind hbegins hle (h.trans hpre)))
  have hlen' := (prefix_whole hw.codes.length hw.codes).length_le
  have hfuel := length_le_encode (whole hw.codes.length hw.codes)
  -- neither begins with the other, so a character decides
  rw [hcmp]
  refine blockcmpLoop_differs (scalars_whole _) hscalars hnot hback ?_ ?_
  · rw [List.length_append]
    omega
  · omega

/-- **One that begins with them is compared with what is behind the copy**,
if the prefix is not plain. -/
theorem compare_overrun (hplain : ¬ Plain hw)
    (hwhole : folded (whole hw.codes.length hw.codes) <+: upper next) :
    itr.compare next = .error .bounds := by
  obtain ⟨t, hcut, hnil, hcmp⟩ := iterator_compare_copy hhead hlen hne hnext
  obtain ⟨-, hscalars, -⟩ := hnext.spec
  have hbytes := length_codes_le hw
  have hpre := prefix_folded_whole hw hw.codes.length
  have hlen' := hwhole.length_le
  rw [length_upper, folded, List.length_map] at hlen'
  rw [hcmp]
  by_cases hall : hw.bytes.length = hw.codes.length
  · -- the number of characters that were compared is never the number there is
    have hself := (@whole_eq_self_iff hw.codes.length hw.codes).2 (by rw [← hw.bytes_eq, hall])
    have hlong : 2 ^ 32 ≤ hw.codes.length := not_lt.1 fun h => hplain ⟨hall, h⟩
    refine blockcmpLoop_overrun (scalars_whole _) hscalars hwhole le_rfl hcut
      (fun h => absurd (hnil hall) h) (.inr ⟨?_, by decide⟩)
    rw [hself] at hlen'
    omega
  · have hshort : (whole hw.codes.length hw.codes).length < hw.codes.length := by
      refine lt_of_le_of_ne (prefix_whole _ _).length_le fun heq => hall ?_
      have hself := (prefix_whole hw.codes.length hw.codes).eq_of_length heq
      rw [whole_eq_self_iff, ← hw.bytes_eq] at hself
      omega
    have hmore : (whole hw.codes.length hw.codes).length < (codesOf next.headword).length := by
      refine lt_of_le_of_ne hlen' fun heq => ?_
      have hsame : folded (whole hw.codes.length hw.codes) = upper next := by
        refine hwhole.eq_of_length ?_
        rw [length_upper, folded, List.length_map, heq]
      have hback := (prefix_of_behind hbegins hle (hsame ▸ hpre)).length_le
      rw [length_upper, folded, List.length_map] at hback
      omega
    exact blockcmpLoop_overrun (scalars_whole _) hscalars hwhole le_rfl hcut (fun _ => hmore)
      (.inl (by omega))

end Copied

/-! ## The list of the result -/

section Result

variable {ref a : Ref} {list list' refs : List Ref}

/-- What is appended behind a reference. -/
theorem resultListAppend_concat (ha : IsText a) (href : IsText ref) :
    resultListAppend (list ++ [a]) ref =
      .ok (if upper a = upper ref then list ++ [a] else list ++ [a] ++ [ref]) := by
  rw [resultListAppend, DictOrg.appendTail, List.getLast?_concat]
  dsimp only
  rw [ha.utf8Strcasecmp href, Option.bind_eq_bind, Option.bind_some]
  simp only [lexSign_eq_zero]

/-- What is in the list stays in it. -/
theorem prefix_of_resultListAppend (h : resultListAppend list ref = .ok list') :
    list <+: list' := by
  rw [resultListAppend, DictOrg.appendTail] at h
  cases hlast : list.getLast? with
  | none =>
    rw [hlast] at h
    obtain rfl := Except.ok.inj h
    exact List.prefix_append list [ref]
  | some last =>
    rw [hlast] at h
    dsimp only at h
    cases hrc : utf8Strcasecmp last.headword ref.headword with
    | none =>
      rw [hrc] at h
      cases h
    | some rc =>
      rw [hrc, Option.bind_eq_bind, Option.bind_some] at h
      obtain rfl := Except.ok.inj h
      split_ifs
      · exact List.prefix_rfl
      · exact List.prefix_append list [ref]

/-- **References appended one by one**: those that differ from the one
before them. -/
theorem foldlM_resultListAppend (ha : IsText a) (hrefs : ∀ ref ∈ refs, IsText ref) :
    refs.foldlM resultListAppend (list ++ [a]) =
      .ok (list ++ refs.destutter' (fun a b => upper a ≠ upper b) a) := by
  induction refs generalizing list a with
  | nil => rfl
  | cons ref refs ih =>
    obtain ⟨href, hrefs⟩ := List.forall_mem_cons.1 hrefs
    rw [List.foldlM_cons, resultListAppend_concat ha href, ok_bind]
    split_ifs with heq
    · rw [ih ha hrefs, List.destutter'_cons_neg _ (not_not.2 heq)]
    · rw [ih href hrefs, List.destutter'_cons_pos _ heq, List.append_assoc, List.singleton_append]

/-- **What is lost when the list begins late**: nothing, just if the first
headword is the same. -/
theorem map_destutter_iff {A B : List Ref}
    (hord : (A ++ ref :: B).Pairwise fun a b => upper a ≤ upper b) :
    (B.destutter' (fun a b => upper a ≠ upper b) ref).map Ref.headword =
        ((A ++ ref :: B).destutter fun a b => upper a ≠ upper b).map Ref.headword ↔
      (A ++ ref :: B).head?.map Ref.headword = some ref.headword := by
  cases A with
  | nil => exact iff_of_true rfl rfl
  | cons a A =>
    rw [List.cons_append, List.destutter_cons', List.head?_cons, Option.map_some,
      Option.some.injEq]
    constructor
    · intro h
      have hhead := congrArg List.head? h
      rw [List.head?_map, List.head?_map, head?_destutter', head?_destutter'] at hhead
      exact (Option.some.inj hhead).symm
    · intro h
      have hupper : upper a = upper ref := congrArg (fun s => folded (codesOf s)) h
      -- what is between the two does not differ from them
      have hsame : ∀ x ∈ A ++ [ref], ¬ upper a ≠ upper x := by
        rw [List.cons_append] at hord
        obtain ⟨ha, hrest⟩ := List.pairwise_cons.1 hord
        intro x hx
        rw [not_not]
        rcases List.mem_append.1 hx with hx | hx
        · refine le_antisymm (ha x (List.mem_append_left _ hx)) ?_
          rw [hupper]
          exact (List.pairwise_append.1 hrest).2.2 x hx ref List.mem_cons_self
        · rw [List.mem_singleton.1 hx, hupper]
      rw [← List.singleton_append, ← List.append_assoc, destutter'_append hsame]
      exact map_destutter'_congr h.symm fun x => by rw [hupper]

end Result

/-! ## The loop -/

/-- An iterator that stands at a reference, with a copy of the prefix, and
has not come to the end of its run. -/
structure Tracks (pages : List (List Ref)) (hw : Utf8Text) (itr : Iterator) (page : List Ref)
    (ref : Ref) : Prop where
  /-- The copy. -/
  headword : itr.headword = hw.bytes.take hw.codes.length
  /-- The number of characters. -/
  hwlen : itr.hwlen = hw.codes.length
  /-- The end is not known. -/
  numrefs : itr.numrefs = 0
  /-- The page. -/
  stands : Stands pages itr page
  /-- The reference. -/
  ref_eq : page[itr.curRefno]? = some ref

section Run

variable {file : IdxFile} {pages : List (List Ref)} {hw : Utf8Text} {itr : Iterator}
variable {page list list' : List Ref} {ref : Ref} {fuel : ℕ}

/-- The next step compares the next reference, if there is one. -/
theorem Tracks.next (hfile : Holds file pages) (h : Tracks pages hw itr page ref) :
    (behind pages itr page = [] ∧ iteratorNext file itr = .ok (false, itr)) ∨
      ∃ p k page' next, behind pages itr page = next :: behind pages (itr.moved p k page') page' ∧
        Tracks pages hw (itr.moved p k page') page' next ∧
        iteratorNext file itr = (itr.compare next >>= fun rc =>
          if rc ≠ 0 then .ok (false, { itr with numrefs := itr.curref + 1 })
          else .ok (true, itr.moved p k page')) := by
  rcases h.stands.nextPos hfile with
    ⟨hnil, hpos⟩ | ⟨p, k, page', next, hpos, hp, hk, hstands, hcons⟩
  · exact .inl ⟨hnil, iteratorNext_none hfile h.numrefs hpos⟩
  · exact .inr ⟨p, k, page', next, hcons, ⟨h.headword, h.hwlen, h.numrefs, hstands, hk⟩,
      iteratorNext_compare hfile h.numrefs hpos hp hk⟩

/-- One turn. -/
theorem matchLoop_succ (hfile : Holds file pages) (h : Tracks pages hw itr page ref) :
    matchLoop file (fuel + 1) itr list = (resultListAppend list ref >>= fun list =>
      iteratorNext file itr >>= fun r =>
        if r.1 then matchLoop file fuel r.2 list else .ok list) := by
  rw [matchLoop, h.stands.iteratorRef hfile h.ref_eq, ok_bind, inside, ok_bind]

/-- A budget that is enough stays enough. -/
theorem matchLoop_mono {fuel' : ℕ} (h : matchLoop file fuel itr list = .ok list')
    (hle : fuel ≤ fuel') : matchLoop file fuel' itr list = .ok list' := by
  induction fuel generalizing itr fuel' list with
  | zero => cases h
  | succ fuel ih =>
    obtain ⟨fuel', rfl⟩ : ∃ k, fuel' = k + 1 := ⟨fuel' - 1, by omega⟩
    rw [matchLoop] at h ⊢
    obtain ⟨found, hfound, h⟩ := bind_eq_ok.1 h
    obtain ⟨ref, href, h⟩ := bind_eq_ok.1 h
    obtain ⟨list₁, hlist₁, h⟩ := bind_eq_ok.1 h
    obtain ⟨⟨success, itr'⟩, hnext, h⟩ := bind_eq_ok.1 h
    rw [hfound, ok_bind, href, ok_bind, hlist₁, ok_bind, hnext, ok_bind]
    dsimp only at h ⊢
    split_ifs at h ⊢
    · exact ih h (by omega)
    · exact h

/-- What is in the list stays in it. -/
theorem prefix_of_matchLoop (h : matchLoop file fuel itr list = .ok list') : list <+: list' := by
  induction fuel generalizing itr list with
  | zero => cases h
  | succ fuel ih =>
    rw [matchLoop] at h
    obtain ⟨found, -, h⟩ := bind_eq_ok.1 h
    obtain ⟨ref, -, h⟩ := bind_eq_ok.1 h
    obtain ⟨list₁, hlist₁, h⟩ := bind_eq_ok.1 h
    obtain ⟨⟨success, itr'⟩, -, h⟩ := bind_eq_ok.1 h
    have hpre := prefix_of_resultListAppend hlist₁
    dsimp only at h
    split_ifs at h
    · exact hpre.trans (ih h)
    · obtain rfl := Except.ok.inj h
      exact hpre

/-- The first of the list is where the iterator stands. -/
theorem head_of_matchLoop (hfile : Holds file pages) (h : Tracks pages hw itr page ref)
    (hlist : matchLoop file fuel itr [] = .ok list) : ∃ rest, list = ref :: rest := by
  cases fuel with
  | zero => cases hlist
  | succ fuel =>
    have hfirst : resultListAppend [] ref = .ok [ref] := rfl
    rw [matchLoop_succ hfile h, hfirst, ok_bind] at hlist
    obtain ⟨⟨success, itr'⟩, -, hlist⟩ := bind_eq_ok.1 hlist
    dsimp only at hlist
    split_ifs at hlist
    · obtain ⟨rest, rfl⟩ := prefix_of_matchLoop hlist
      exact ⟨rest, rfl⟩
    · obtain rfl := Except.ok.inj hlist
      exact ⟨[], rfl⟩

/-- **The loop appends the reference where the iterator stands, and those
behind it that compare equal**, up to the first that does not. -/
theorem matchLoop_eq (hfile : Holds file pages) (h : Tracks pages hw itr page ref)
    (hcmp : ∀ itr' page' ref', Tracks pages hw itr' page' ref' →
      ∀ next ∈ behind pages itr page, ∃ rc, itr'.compare next = .ok rc ∧
        (rc = 0 ↔ begins hw next = true))
    (hfuel : (behind pages itr page).length < fuel) :
    matchLoop file fuel itr list =
      (ref :: (behind pages itr page).takeWhile (begins hw)).foldlM resultListAppend list := by
  induction fuel generalizing itr page ref list with
  | zero => omega
  | succ fuel ih =>
    rw [matchLoop_succ hfile h, List.foldlM_cons]
    refine congrArg _ (funext fun list => ?_)
    rcases h.next hfile with ⟨hnil, hnext⟩ | ⟨p, k, page', next, hcons, htracks, hnext⟩
    · rw [hnext, hnil, ok_bind]
      rfl
    · rw [hcons] at hcmp hfuel ⊢
      obtain ⟨rc, hrc, hiff⟩ := hcmp itr page ref h next List.mem_cons_self
      rw [hnext, hrc, ok_bind]
      by_cases hzero : rc = 0
      · rw [if_neg (not_not.2 hzero), ok_bind, if_pos rfl,
          List.takeWhile_cons_of_pos (hiff.1 hzero)]
        refine ih htracks (fun itr' page' ref' h' x hx => ?_) (Nat.lt_of_succ_lt_succ hfuel)
        exact hcmp itr' page' ref' h' x (List.mem_cons_of_mem next hx)
      · rw [if_pos hzero, ok_bind, List.takeWhile_cons_of_neg fun h => hzero (hiff.2 h)]
        rfl

end Run

/-! ## Looking up -/

section Lookup

variable {file : IdxFile} {pages : List (List Ref)} {hw : Utf8Text} {itr : Iterator}
variable {page list : List Ref} {ref : Ref}

/-- Whether a headword begins with the prefix, in Prop. -/
theorem begins_iff : begins hw ref = true ↔ folded hw.codes <+: upper ref := decide_eq_true_iff

/-- It depends on the headword. -/
theorem begins_congr {a b : Ref} (h : a.headword = b.headword) : begins hw a = begins hw b :=
  congrArg (fun s => decide (folded hw.codes <+: folded (codesOf s))) h

/-- Behind a reference that begins with the prefix, those that do are the
ones up to the first that does not. -/
theorem filter_begins_eq {rest : List Ref} (hbegins : begins hw ref = true)
    (hord : (ref :: rest).Pairwise fun a b => upper a ≤ upper b) :
    rest.filter (begins hw) = rest.takeWhile (begins hw) := by
  obtain ⟨href, hrest⟩ := List.pairwise_cons.1 hord
  refine Bsearch.filter_eq_takeWhile_of_first (hrest.imp_of_mem fun {a b} ha _ hab hb => ?_)
  rw [begins_iff] at hbegins hb ⊢
  exact prefix_of_between (href a ha) hab hbegins hb

section Begun

variable (hfile : Holds file pages) (hne : hw.codes ≠ []) (h : Tracks pages hw itr page ref)
  (htext : ∀ x ∈ ref :: behind pages itr page, IsText x)
  (hord : (ref :: behind pages itr page).Pairwise fun a b => upper a ≤ upper b)
  (hbegins : begins hw ref = true)

include hfile hne h htext hord hbegins

/-- **The run of a plain prefix**, or of one where the next reference is
another: those that begin with it, without duplicates. -/
theorem exists_matchLoop
    (hgood : Plain hw ∨ ∀ next ∈ (behind pages itr page).head?,
      ¬ folded (whole hw.codes.length hw.codes) <+: upper next) :
    ∃ fuel, matchLoop file fuel itr [] =
      .ok (((behind pages itr page).filter (begins hw)).destutter'
        (fun a b => upper a ≠ upper b) ref) := by
  obtain ⟨href, htext⟩ := List.forall_mem_cons.1 htext
  obtain ⟨hle, -⟩ := List.pairwise_cons.1 hord
  have hbegins' := begins_iff.1 hbegins
  by_cases hplain : Plain hw
  · have hall := (@whole_eq_self_iff hw.codes.length hw.codes).2 (by rw [← hw.bytes_eq, hplain.1])
    have hcmp : ∀ itr' page' ref', Tracks pages hw itr' page' ref' →
        ∀ next ∈ behind pages itr page, ∃ rc, itr'.compare next = .ok rc ∧
          (rc = 0 ↔ begins hw next = true) := by
      intro itr' page' ref' h' next hnext
      have hnext' := htext next hnext
      by_cases hb : begins hw next = true
      · exact ⟨0, compare_plain h'.headword h'.hwlen hne hnext' hplain (begins_iff.1 hb),
          iff_of_true rfl hb⟩
      · obtain ⟨rc, hrc, hcmp⟩ := compare_differs h'.headword h'.hwlen hne hnext' hbegins'
          (hle next hnext) (by rw [hall]; exact fun h => hb (begins_iff.2 h))
        exact ⟨rc, hcmp, iff_of_false hrc hb⟩
    refine ⟨(behind pages itr page).length + 1, ?_⟩
    rw [matchLoop_eq hfile h hcmp (Nat.lt_succ_self _), ← filter_begins_eq hbegins hord]
    exact @foldlM_resultListAppend ref [] _ href fun x hx => htext x (List.mem_filter.1 hx).1
  · -- nothing behind it begins with the prefix, and the comparison says so
    have hgood := hgood.resolve_left hplain
    refine ⟨1, ?_⟩
    have hfirst : resultListAppend [] ref = .ok [ref] := rfl
    rw [filter_begins_eq hbegins hord, matchLoop_succ hfile h, hfirst, ok_bind]
    rcases h.next hfile with ⟨hnil, hnext⟩ | ⟨p, k, page', next, hcons, -, hnext⟩
    · rw [hnext, hnil]
      rfl
    · rw [hcons] at hgood hle htext
      have hnot := hgood next rfl
      obtain ⟨rc, hrc, hcmp⟩ := compare_differs h.headword h.hwlen hne
        (htext next List.mem_cons_self) hbegins' (hle next List.mem_cons_self) hnot
      have hend : ¬ begins hw next = true := fun hb =>
        hnot ((prefix_folded_whole hw _).trans (begins_iff.1 hb))
      rw [hnext, hcmp, ok_bind, if_pos hrc, hcons, List.takeWhile_cons_of_neg hend]
      rfl

/-- **Otherwise there is no result.** -/
theorem matchLoop_ne_ok (hplain : ¬ Plain hw)
    (hbad : ∃ next ∈ (behind pages itr page).head?,
      folded (whole hw.codes.length hw.codes) <+: upper next) (fuel : ℕ) :
    matchLoop file fuel itr [] ≠ .ok list := by
  intro hlist
  obtain ⟨-, htext⟩ := List.forall_mem_cons.1 htext
  obtain ⟨hle, -⟩ := List.pairwise_cons.1 hord
  obtain ⟨next, hhead, hwhole⟩ := hbad
  cases fuel with
  | zero => cases hlist
  | succ fuel =>
    rw [matchLoop_succ hfile h] at hlist
    obtain ⟨list₁, -, hlist⟩ := bind_eq_ok.1 hlist
    rcases h.next hfile with ⟨hnil, -⟩ | ⟨p, k, page', next', hcons, -, hnext⟩
    · rw [hnil] at hhead
      cases hhead
    · rw [hcons] at hhead hle htext
      obtain rfl := Option.some.inj hhead
      rw [hnext, compare_overrun h.headword h.hwlen hne (htext _ List.mem_cons_self)
        (begins_iff.1 hbegins) (hle _ List.mem_cons_self) hplain hwhole] at hlist
      cases hlist

end Begun

/-- **Looking up from a reference that begins with the prefix.** -/
theorem prefixMatches_iff_of_begins {before : List Ref} (hfile : Holds file pages)
    (htext : ∀ ref ∈ pages.flatten, IsText ref)
    (hord : pages.flatten.Pairwise fun a b => upper a ≤ upper b) (hne : hw.codes ≠ [])
    (h : Tracks pages hw itr page ref)
    (hsplit : pages.flatten = before ++ ref :: behind pages itr page)
    (hbegins : begins hw ref = true)
    (hmatch : ∀ fuel, matchPrefix file fuel hw.bytes =
      (matchLoop file fuel itr [] >>= fun list => .ok (some list))) :
    PrefixMatches file pages hw ↔
      (pages.flatten.find? (begins hw)).map Ref.headword = some ref.headword ∧
        (Plain hw ∨ ∀ next ∈ (behind pages itr page).head?,
          ¬ folded (whole hw.codes.length hw.codes) <+: upper next) := by
  -- what is asked is what is before the reference, and what the loop may return
  have hall : pages.flatten.filter (begins hw) =
      before.filter (begins hw) ++ ref :: (behind pages itr page).filter (begins hw) := by
    rw [hsplit, List.filter_append, List.filter_cons_of_pos hbegins]
  have hfilter := hord.filter (begins hw)
  rw [hall] at hfilter
  rw [hsplit] at htext hord
  have hrest := (List.pairwise_append.1 hord).2.1
  have hrefs : ∀ x ∈ ref :: behind pages itr page, IsText x := fun x hx =>
    htext x (List.mem_append_right _ hx)
  rw [PrefixMatches, ← List.head?_filter, hall]
  constructor
  · rintro ⟨fuel, r, hr, heq⟩
    rw [hmatch] at hr
    obtain ⟨list, hlist, hr⟩ := bind_eq_ok.1 hr
    obtain rfl := Except.ok.inj hr
    have hgood : Plain hw ∨ ∀ next ∈ (behind pages itr page).head?,
        ¬ folded (whole hw.codes.length hw.codes) <+: upper next := by
      by_contra hbad
      push Not at hbad
      exact matchLoop_ne_ok hfile hne h hrefs hrest hbegins hbad.1 hbad.2 fuel hlist
    obtain ⟨fuel', hloop⟩ := exists_matchLoop hfile hne h hrefs hrest hbegins hgood
    have hmore := matchLoop_mono hlist (le_max_left fuel fuel')
    have hmore' := matchLoop_mono hloop (le_max_right fuel fuel')
    obtain rfl := Except.ok.inj (hmore.symm.trans hmore')
    exact ⟨(map_destutter_iff hfilter).1 heq, hgood⟩
  · rintro ⟨hfirst, hgood⟩
    obtain ⟨fuel, hloop⟩ := exists_matchLoop hfile hne h hrefs hrest hbegins hgood
    refine ⟨fuel, some _, ?_, (map_destutter_iff hfilter).2 hfirst⟩
    rw [hmatch, hloop, ok_bind]

/-- What `prefix_match` returns, by what the two searches return. -/
theorem prefixMatch_eq (hfile : Holds file pages) (htext : ∀ ref ∈ pages.flatten, IsText ref)
    (hne : hw.codes ≠ []) :
    prefixMatch file hw.bytes =
      .ok ((bisect pages.length (pageSgnAt (prefixSign hw) pages)).bind fun p =>
        pages[p]?.bind fun page => (bisect page.length (sgnAt (prefixSign hw) page)).map fun k =>
          Iterator.create (hw.bytes.take hw.codes.length) hw.codes.length page p k) := by
  rw [prefixMatch, utf8Strlen_bytes, inside, ok_bind]
  exact locate_sgn hfile (fun ref href => compare_bytes hne (htext ref href))
    (copyHeadword_bytes hne)

section Landed

variable {p k : ℕ} (hfile : Holds file pages) (htext : ∀ ref ∈ pages.flatten, IsText ref)
  (hord : pages.flatten.Pairwise fun a b => upper a ≤ upper b) (hne : hw.codes ≠ [])
  (hlands : Lands pages hw p page k ref)

include hfile htext hord hne hlands

/-- The loop begins where the searches come to. -/
theorem matchPrefix_of_lands (fuel : ℕ) :
    matchPrefix file fuel hw.bytes =
      (matchLoop file fuel (Iterator.create (hw.bytes.take hw.codes.length) hw.codes.length page
        p k) [] >>= fun list => .ok (some list)) := by
  obtain ⟨hpage, hp, href, hk⟩ := (lands_iff hord hfile.ne_nil).1 hlands
  rw [matchPrefix, prefixMatch_eq hfile htext hne, hpage, Option.bind_some, hp, Option.bind_some,
    href, ok_bind]
  rfl

/-- **Looking up when the searches come to a reference.** -/
theorem prefixMatches_iff_of_lands :
    PrefixMatches file pages hw ↔
      (pages.flatten.find? (begins hw)).map Ref.headword = some ref.headword ∧
        (Plain hw ∨ ∀ next ∈ (page.drop (k + 1) ++ (pages.drop (p + 1)).flatten).head?,
          ¬ folded (whole hw.codes.length hw.codes) <+: upper next) := by
  have hmatch := matchPrefix_of_lands hfile htext hord hne hlands
  obtain ⟨hp, hk, -, -⟩ := hlands
  have hmem := mem_flatten_of_getElem? hp hk
  have hsplit := flatten_page_split hp hk
  generalize hitr : Iterator.create (hw.bytes.take hw.codes.length) hw.codes.length page p k = itr
    at hmatch
  have htracks : Tracks pages hw itr page ref := by
    rw [← hitr]
    exact ⟨rfl, rfl, rfl, ⟨hp, (List.getElem?_eq_some_iff.1 hk).1, rfl⟩, hk⟩
  have hbehind : page.drop (k + 1) ++ (pages.drop (p + 1)).flatten = behind pages itr page := by
    rw [← hitr]
    rfl
  rw [hbehind] at hsplit ⊢
  by_cases hbegins : begins hw ref = true
  · exact prefixMatches_iff_of_begins hfile htext hord hne htracks hsplit hbegins hmatch
  · -- the headword is shorter than the prefix, and it is in the result
    refine iff_of_false ?_ ?_
    · rintro ⟨fuel, r, hr, heq⟩
      rw [hmatch] at hr
      obtain ⟨list, hlist, hr⟩ := bind_eq_ok.1 hr
      obtain rfl := Except.ok.inj hr
      obtain ⟨rest, rfl⟩ := head_of_matchLoop hfile htracks hlist
      have hin : ref.headword ∈ ((pages.flatten.filter (begins hw)).destutter
          fun a b => upper a ≠ upper b).map Ref.headword :=
        heq ▸ List.mem_cons_self
      obtain ⟨x, hx, hxref⟩ := List.mem_map.1 hin
      have hxbegins := (List.mem_filter.1 ((List.destutter_sublist _ _).subset hx)).2
      exact hbegins (begins_congr hxref ▸ hxbegins)
    · rintro ⟨hfirst, -⟩
      obtain ⟨x, hx, hxref⟩ := Option.map_eq_some_iff.1 hfirst
      exact hbegins (begins_congr hxref ▸ List.find?_some hx)

end Landed

/-- **Looking up when they come to nothing.** -/
theorem prefixMatches_iff_of_not_lands (hfile : Holds file pages)
    (htext : ∀ ref ∈ pages.flatten, IsText ref)
    (hord : pages.flatten.Pairwise fun a b => upper a ≤ upper b) (hne : hw.codes ≠ [])
    (hnone : ∀ p page k ref, ¬ Lands pages hw p page k ref) :
    PrefixMatches file pages hw ↔ ∀ ref ∈ pages.flatten, begins hw ref = false := by
  have hnothing : prefixMatch file hw.bytes = .ok none := by
    rw [prefixMatch_eq hfile htext hne]
    congr 1
    rw [Option.bind_eq_none_iff]
    intro p hpage
    rw [Option.bind_eq_none_iff]
    intro page hp
    rw [Option.map_eq_none_iff]
    cases hk : bisect page.length (sgnAt (prefixSign hw) page) with
    | none => rfl
    | some k =>
      have href := List.getElem?_eq_getElem (Bsearch.finds_bisect.sound _ _ _ hk).1
      exact absurd ((lands_iff hord hfile.ne_nil).2 ⟨hpage, hp, hk, href⟩) (hnone p page k _)
  have hmatch : ∀ fuel, matchPrefix file fuel hw.bytes = .ok none := fun fuel => by
    rw [matchPrefix, hnothing, ok_bind]
  have hnil : ((pages.flatten.filter (begins hw)).destutter
      fun a b => upper a ≠ upper b).map Ref.headword = [] ↔
        ∀ ref ∈ pages.flatten, begins hw ref = false := by
    rw [List.map_eq_nil_iff, List.destutter_eq_nil, List.filter_eq_nil_iff]
    simp only [Bool.not_eq_true]
  rw [← hnil]
  constructor
  · rintro ⟨fuel, r, hr, heq⟩
    rw [hmatch] at hr
    obtain rfl := Except.ok.inj hr
    exact heq.symm
  · intro hempty
    exact ⟨0, none, hmatch 0, hempty.symm⟩

/-- **Prefix lookup.** For every file of sorted references to texts and
every prefix that is not empty: `gcide_match` returns the headwords that
begin with the prefix just if `PrefixFound`. -/
theorem prefixMatches_iff (file : IdxFile) (pages : List (List Ref)) (hw : Utf8Text)
    (hfile : Holds file pages) (hsort : Sorted pages)
    (htext : ∀ ref ∈ pages.flatten, IsText ref) (hne : hw.chars ≠ []) :
    PrefixMatches file pages hw ↔ PrefixFound pages hw := by
  have hord := hsort.upper_le htext
  have hcodes : hw.codes ≠ [] := fun h => hne (List.map_eq_nil_iff.1 h)
  by_cases hlands : ∃ p page k ref, Lands pages hw p page k ref
  · obtain ⟨p, page, k, ref, hlands⟩ := hlands
    rw [prefixMatches_iff_of_lands hfile htext hord hcodes hlands]
    constructor
    · intro h
      exact .inr ⟨p, page, k, ref, hlands, h⟩
    · rintro (⟨-, hnone⟩ | ⟨p', page', k', ref', hlands', h⟩)
      · exact absurd hlands (hnone p page k ref)
      · -- there is one place they come to
        rw [lands_iff hord hfile.ne_nil] at hlands hlands'
        obtain ⟨hpage, hp, href, hk⟩ := hlands
        obtain ⟨hpage', hp', href', hk'⟩ := hlands'
        obtain rfl := Option.some.inj (hpage.symm.trans hpage')
        obtain rfl := Option.some.inj (hp.symm.trans hp')
        obtain rfl := Option.some.inj (href.symm.trans href')
        obtain rfl := Option.some.inj (hk.symm.trans hk')
        exact h
  · have hnone : ∀ p page k ref, ¬ Lands pages hw p page k ref := fun p page k ref h =>
      hlands ⟨p, page, k, ref, h⟩
    rw [prefixMatches_iff_of_not_lands hfile htext hord hcodes hnone]
    constructor
    · intro h
      exact .inl ⟨h, hnone⟩
    · rintro (⟨h, -⟩ | ⟨p, page, k, ref, h, -⟩)
      · exact h
      · exact absurd h (hnone p page k ref)

/-- The reference of a sample file is a text. -/
theorem isText_sampleRefs : ∀ ref ∈ [sampleRefs [(168, 97)]].flatten, IsText ref :=
  List.forall_mem_singleton.2 ⟨⟨['a'], by decide⟩, by decide +kernel, by decide +kernel⟩

/-- Two references, and the headword of the first for a prefix. -/
theorem prefixMatches_iff_sampleFile :
    PrefixMatches (sampleFile [(168, 97), (170, 98)]) [sampleRefs [(168, 97), (170, 98)]]
        ⟨['A'], by decide⟩ ↔
      PrefixFound [sampleRefs [(168, 97), (170, 98)]] ⟨['A'], by decide⟩ := by
  refine prefixMatches_iff _ _ _ ?_ ?_ ?_ (by decide)
  · exact holds_sampleFile (by decide +kernel) (by decide +kernel) (by decide)
  · exact List.pairwise_pair.2 ⟨-1, by decide +kernel, by decide⟩
  · exact List.forall_mem_cons.2 ⟨⟨⟨['a'], by decide⟩, by decide +kernel, by decide +kernel⟩,
      List.forall_mem_singleton.2 ⟨⟨['b'], by decide⟩, by decide +kernel, by decide +kernel⟩⟩

/-- **A headword shorter than the prefix is in the result.** -/
theorem not_forall_prefixMatches :
    ¬ ∀ (file : IdxFile) (pages : List (List Ref)) (hw : Utf8Text), Holds file pages →
      Sorted pages → (∀ ref ∈ pages.flatten, IsText ref) → hw.chars ≠ [] →
        PrefixMatches file pages hw := by
  intro h
  have hfile : Holds (sampleFile [(168, 97)]) [sampleRefs [(168, 97)]] :=
    holds_sampleFile (by decide +kernel) (by decide +kernel) (by decide)
  have hsort : Sorted [sampleRefs [(168, 97)]] := List.pairwise_singleton _ _
  have hord := hsort.upper_le isText_sampleRefs
  have hall := h _ _ ⟨['a', 'b'], by decide⟩ hfile hsort isText_sampleRefs (by decide)
  rw [@prefixMatches_iff_of_lands _ _ _ _ _ 0 0 hfile isText_sampleRefs hord (by decide)
    ((lands_iff hord hfile.ne_nil).2 ⟨by decide +kernel, rfl, by decide +kernel, rfl⟩)] at hall
  exact absurd hall.1 (by decide +kernel)

end Lookup

end Gcide

end Dico
