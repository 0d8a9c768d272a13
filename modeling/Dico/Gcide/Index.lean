import Dico.Common.Choice
import Dico.Gcide.Locate
import Dico.Gcide.Prefix
import Dico.Gcide.Writer
/-!
# An index from its writing to its use

The file that `idxgcide` writes, opened by `_open_index`, and asked by
`gcide_define` and by `gcide_match` with a strategy that has no matcher of
its own. What is found is what was written (`index_serves`): a word that no
headword equals has no definition, and of the references that equal it only
those may be missing that are before the one the searches come to.
-/

namespace Dico

namespace Gcide

open Memory (peek toLe ofLe)
open Bsearch (bisect)
open Choice (chosen chosen_map mem_of_mem_chosen)

/-! ## The model -/

/-- `struct gcide_idx_header`, without the magic. -/
structure IdxHeader where
  pagesize : ℕ
  maxpageref : ℕ
  numPages : ℕ
  numHeadwords : ℕ
  numDefs : ℕ
  deriving DecidableEq, Repr

/-- The size of it in memory. -/
def headerSize : ℕ := 48

/-- `_open_index`: the header, and the file, or none where it is not valid.
The size of the file is an `off_t`. -/
def openIndex (content : Bytes) : Option (IdxHeader × IdxFile) := do
  let header ← peek content 0 headerSize
  let word := fun k => ofLe ((header.drop k).take 8)
  if header.take 8 ≠ ascii "GCIDEIDX" then none
  else if (word 24 + 1) * word 8 % 2 ^ 64 ≠ content.length then none
  else some (⟨word 8, word 16, word 24, word 32, word 40⟩, ⟨word 8, word 24, content⟩)

/-- The loop of `gcide_define`: the references of the iterator, which are
appended to a list without a comparator. -/
def defineLoop (file : IdxFile) : ℕ → Iterator → List Ref → Except Stop (List Ref)
  | 0, _, _ => .error .loop
  | fuel + 1, itr, list => do
    let ref ← iteratorRef file itr
    let ref ← inside ref
    let (success, itr) ← iteratorNext file itr
    if success then defineLoop file fuel itr (list ++ [ref]) else .ok (list ++ [ref])

/-- `gcide_define`: the list of the result, if there is one. -/
def define (file : IdxFile) (fuel : ℕ) (word : Bytes) : Except Stop (Option (List Ref)) := do
  let itr ← locate file word 0
  match itr with
  | none => .ok none
  | some itr => do
    let list ← defineLoop file fuel itr []
    .ok (some list)

section Selectors

variable {κ : Type} (select : κ → Bytes → Bool × κ)

/-- `match_key`, whose key is what the selector keeps between its calls. A
comparison that has no result is the result of all that follow. -/
def matchKey (s : Except Stop (List Ref) × κ) (ref : Ref) : Bool × Except Stop (List Ref) × κ :=
  let (chosen, key) := select s.2 ref.headword
  (false, if chosen then s.1 >>= (resultListAppend · ref) else s.1, key)

/-- `gcide_match_all`, once the key is initialized: the list of the result,
if there is one. -/
def matchAll (file : IdxFile) (key : κ) : Except Stop (Option (List Ref)) := do
  let (_, list, _) ← enumerate file (matchKey select) (.ok [], key)
  let list ← list
  .ok (if list = [] then none else some list)

end Selectors

/-! ## Opening -/

section Opening

variable {pagesize : ℕ} {w : Writer} {full : List (List Ref)} {numHeadwords numDefs : ℕ}

/-- A word of those that are in memory one after another. -/
theorem word_of_words {ws : List ℕ} {i v : ℕ} (hi : ws[i]? = some v) (hv : v < 2 ^ 64) :
    ofLe (((ws.flatMap (toLe 8)).drop (8 * i)).take 8) = v := by
  induction ws generalizing i with
  | nil => cases hi
  | cons x ws ih =>
    rw [List.flatMap_cons]
    cases i with
    | zero =>
      obtain rfl := Option.some.inj hi
      rw [Nat.mul_zero, List.drop_zero, List.take_left' (Memory.length_toLe 8 x), Memory.ofLe_toLe,
        Nat.mod_eq_of_lt (by omega)]
    | succ i =>
      rw [Nat.mul_succ, Nat.add_comm, ← List.drop_drop, List.drop_left' (Memory.length_toLe 8 x)]
      exact ih hi

/-- A word of the header, behind the magic. -/
theorem headerBytes_word {i v : ℕ}
    (hi : [w.pagesize, w.maxpageref, w.numPages, numHeadwords, numDefs][i]? = some v)
    (hv : v < 2 ^ 64) :
    ofLe (((headerBytes w numHeadwords numDefs).drop (8 + 8 * i)).take 8) = v := by
  have hbytes : headerBytes w numHeadwords numDefs = ascii "GCIDEIDX" ++
      [w.pagesize, w.maxpageref, w.numPages, numHeadwords, numDefs].flatMap (toLe 8) := by
    unfold headerBytes
    simp only [List.flatMap_cons, List.flatMap_nil, List.append_assoc, List.append_nil]
  rw [hbytes, ← List.drop_drop, List.drop_left' (show (ascii "GCIDEIDX").length = 8 from rfl)]
  exact word_of_words hi hv

/-- The header has a fixed size. -/
theorem length_headerBytes (w : Writer) (numHeadwords numDefs : ℕ) :
    (headerBytes w numHeadwords numDefs).length = headerSize := by
  simp only [headerBytes, List.length_append, Memory.length_toLe]
  rfl

/-- The size of a file that has a page. -/
theorem Holding.length_content (hmax : 1 ≤ pagesize / 2 / refSize - 1)
    (h : Holding pagesize w full []) (hne : full ≠ []) :
    (w.file numHeadwords numDefs).content.length = (full.length + 1) * pagesize := by
  have hroom : headerSize ≤ pagesize := by
    rw [refSize] at hmax
    rw [headerSize]
    omega
  have hout : w.out ≠ [] := by
    rw [headerSize] at hroom
    refine List.ne_nil_of_length_pos ?_
    rw [h.out_length]
    exact Nat.mul_pos (List.length_pos_of_ne_nil hne) (by omega)
  unfold Writer.file
  simp only [List.length_append, List.length_replicate, length_headerBytes, if_neg hout,
    h.out_length, h.pagesize_eq]
  rw [Nat.add_mul, Nat.one_mul]
  rw [headerSize] at hroom ⊢
  omega

/-- **The file is opened** with what its header says. It has to have a page,
as the header has no padding without one. -/
theorem Holding.openIndex (hmax : 1 ≤ pagesize / 2 / refSize - 1)
    (h : Holding pagesize w full []) (hne : full ≠ [])
    (hfits : (full.length + 1) * pagesize < 2 ^ 64) (hwords : numHeadwords < 2 ^ 64)
    (hdefs : numDefs < 2 ^ 64) :
    Gcide.openIndex (w.file numHeadwords numDefs).content =
      some (⟨pagesize, w.maxpageref, full.length, numHeadwords, numDefs⟩,
        w.file numHeadwords numDefs) := by
  have hpos := List.length_pos_of_ne_nil hne
  have hpage : 0 < pagesize := by
    by_contra hzero
    rw [Nat.eq_zero_of_not_pos hzero, refSize] at hmax
    omega
  have hsmall : pagesize ≤ (full.length + 1) * pagesize := Nat.le_mul_of_pos_left _ (by omega)
  have hnum : full.length + 1 ≤ (full.length + 1) * pagesize := Nat.le_mul_of_pos_right _ hpage
  have hmaxref : w.maxpageref ≤ pagesize := by
    rw [h.maxpageref_eq]
    have := Nat.div_le_self (pagesize / 2) refSize
    omega
  have hheader := length_headerBytes w numHeadwords numDefs
  have hlen := @Holding.length_content pagesize w full numHeadwords numDefs hmax h hne
  have hpeek : peek (w.file numHeadwords numDefs).content 0 headerSize =
      some (headerBytes w numHeadwords numDefs) := by
    unfold Writer.file
    rw [List.append_assoc, Memory.peek_eq_some (by rw [List.length_append, hheader]; omega),
      List.drop_zero, List.take_left' hheader]
  have hmagic : (headerBytes w numHeadwords numDefs).take 8 = ascii "GCIDEIDX" := by
    unfold headerBytes
    simp only [List.append_assoc]
    exact List.take_left' rfl
  have hword := @headerBytes_word w numHeadwords numDefs
  rw [h.pagesize_eq, h.numPages_eq] at hword
  have h₀ := hword (i := 0) rfl (by omega)
  have h₁ := hword (i := 1) rfl (by omega)
  have h₂ := hword (i := 2) rfl (by omega)
  have h₃ := hword (i := 3) rfl hwords
  have h₄ := hword (i := 4) rfl hdefs
  unfold Gcide.openIndex
  rw [hpeek, Option.bind_eq_bind, Option.bind_some, if_neg (not_not.2 hmagic)]
  simp only [h₀, h₁, h₂, h₃, h₄]
  rw [if_neg]
  · unfold Writer.file
    rw [h.pagesize_eq, h.numPages_eq]
  · rw [hlen, Nat.mod_eq_of_lt hfits]
    exact not_not.2 rfl

end Opening

/-! ## Defining -/

section Defining

variable {file : IdxFile} {pages : List (List Ref)} {hw : Bytes}

/-- **The loop of `gcide_define`** goes on as long as the references are
equal. -/
theorem defineLoop_eq {itr : Iterator} {page : List Ref} {ref : Ref} (hfile : Holds file pages)
    (hdef : Comparable pages hw) (h : Points pages hw itr page ref) {fuel : ℕ}
    (hfuel : (behind pages itr page).length < fuel) (list : List Ref) :
    defineLoop file fuel itr list =
      .ok (list ++ ref :: (behind pages itr page).takeWhile fun next => sign hw next = 0) := by
  induction fuel generalizing itr page ref list with
  | zero => omega
  | succ fuel ih =>
    have href := h.stands.iteratorRef hfile h.ref_eq
    unfold defineLoop
    rw [href, ok_bind, inside, ok_bind]
    rcases iteratorNext_eq hfile hdef h with ⟨hstop, itr', hnext⟩ |
      ⟨itr', page', next, hnext, hzero, hpoints, hbehind⟩
    · have htake : ((behind pages itr page).takeWhile fun next => sign hw next = 0) = [] := by
        cases hb : behind pages itr page with
        | nil => rfl
        | cons next rest =>
          rw [hb] at hstop
          exact List.takeWhile_cons_of_neg (by
            rw [decide_eq_true_iff]
            exact hstop next rfl)
      rw [hnext, ok_bind, htake]
      rfl
    · rw [hbehind, List.length_cons] at hfuel
      rw [hnext, ok_bind]
      dsimp only
      rw [if_pos rfl, ih hpoints (by omega), hbehind,
        List.takeWhile_cons_of_pos (p := fun next => decide (sign hw next = 0))
          (decide_eq_true hzero), List.append_assoc, List.singleton_append]

/-- **What a lookup finds**: nothing, if no reference equals the word; or an
iterator at one that does, and all that do behind it. -/
theorem locate_points (hfile : Holds file pages) (hsort : Sorted pages)
    (hdef : Comparable pages hw) :
    (locate file hw 0 = .ok none ∧ pages.flatten.filter (equals hw) = []) ∨
      ∃ itr page ref skipped, locate file hw 0 = .ok (some itr) ∧ Points pages hw itr page ref ∧
        pages.flatten.filter (equals hw) =
          skipped ++ ref :: (behind pages itr page).takeWhile fun next => sign hw next = 0 := by
  have hord := hsort.before hdef
  have hlocate := locate_eq hfile hdef
  have hequals : pages.flatten.filter (equals hw) =
      pages.flatten.filter fun x => sign hw x = 0 := by
    refine List.filter_congr fun x hx => ?_
    rw [Bool.eq_iff_iff, (hdef.compare hx).2, decide_eq_true_iff]
  by_cases hex : ∃ ref ∈ pages.flatten, sign hw ref = 0
  · obtain ⟨p, page, k, ref, hp, hpage, hk, href, hzero⟩ := exists_located hfile hord hex
    refine .inr ⟨Iterator.create hw 0 page p k, page, ref,
      ((pages.take p).flatten ++ page.take k).filter fun x => sign hw x = 0, ?_,
      ⟨rfl, rfl, rfl, hpage, href, rfl⟩, ?_⟩
    · rw [hlocate, hp, Option.bind_some, hpage, Option.bind_some, hk]
      rfl
    · have hsplit := flatten_page_split hpage href
      rw [hsplit] at hord
      have hbehind := filter_eq_takeWhile hzero (List.pairwise_append.1 hord).2.1
      rw [hequals, hsplit, List.filter_append,
        List.filter_cons_of_pos (p := fun x => decide (sign hw x = 0)) (decide_eq_true hzero),
        hbehind]
      rfl
  · have hnone : ∀ ref ∈ pages.flatten, sign hw ref ≠ 0 := fun ref href hzero =>
      hex ⟨ref, href, hzero⟩
    refine .inl ⟨?_, ?_⟩
    · rw [hlocate]
      congr 1
      rw [Option.bind_eq_none_iff]
      intro p hp
      rw [Option.bind_eq_none_iff]
      intro page hpage
      rw [Option.map_eq_none_iff]
      refine Bsearch.finds_bisect.eq_none ?_
      rintro ⟨i, hi, hzero⟩
      rw [sgnAt_eq (List.getElem?_eq_getElem hi)] at hzero
      exact hnone _ (mem_flatten_of_getElem? hpage (List.getElem?_eq_getElem hi)) hzero
    · rw [hequals, List.filter_eq_nil_iff]
      intro x hx
      rw [decide_eq_true_iff]
      exact hnone x hx

/-- **The definitions of a word**, in a file of sorted references. -/
theorem define_eq (hfile : Holds file pages) (hsort : Sorted pages) (hdef : Comparable pages hw) :
    ∃ skipped found, pages.flatten.filter (equals hw) = skipped ++ found ∧
      (found = [] → skipped = []) ∧ ∀ fuel, pages.flatten.length < fuel →
        define file fuel hw = .ok (if found = [] then none else some found) := by
  rcases locate_points hfile hsort hdef with ⟨hnone, hnil⟩ |
    ⟨itr, page, ref, skipped, hsome, hpoints, hfilter⟩
  · refine ⟨[], [], hnil, fun _ => rfl, fun fuel _ => ?_⟩
    unfold define
    rw [hnone, ok_bind]
    rfl
  · refine ⟨skipped, _, hfilter, fun h => absurd h (List.cons_ne_nil _ _),
      fun fuel hfuel => ?_⟩
    have hlen : (behind pages itr page).length < pages.flatten.length := by
      rw [flatten_page_split hpoints.page_eq hpoints.ref_eq, List.length_append, List.length_cons]
      unfold behind
      omega
    unfold define
    rw [hsome, ok_bind]
    dsimp only
    rw [defineLoop_eq hfile hdef hpoints (by omega), ok_bind, List.nil_append,
      if_neg (List.cons_ne_nil _ _)]

end Defining

/-! ## Matching -/

section Matching

variable {file : IdxFile} {pages : List (List Ref)} {σ κ : Type} {select : κ → Bytes → Bool × κ}

/-- A page is enumerated whole by a function that never leaves it. -/
theorem enumeratePage_fold {f : σ → Ref → Bool × σ} (hf : ∀ s ref, (f s ref).1 = false)
    {refs : List Ref} {j : ℕ} (hj : j + refs.length < 2 ^ 31) (s : σ) :
    enumeratePage f j refs s = .ok (refs.foldl (fun s ref => (f s ref).2) s) := by
  induction refs generalizing j s with
  | nil => rfl
  | cons ref refs ih =>
    rw [List.length_cons] at hj
    rw [enumeratePage, if_neg (Bool.eq_false_iff.1 (hf s ref)), if_neg (by omega), ih (by omega),
      List.foldl_cons]

/-- **The file is enumerated whole** by such a function. -/
theorem Holds.enumerate_fold (hfile : Holds file pages) {f : σ → Ref → Bool × σ}
    (hf : ∀ s ref, (f s ref).1 = false) (hlen : pages.flatten.length < 2 ^ 31) (s : σ) :
    enumerate file f s = .ok (0, pages.flatten.foldl (fun s ref => (f s ref).2) s) := by
  have hloop : ∀ m i s, i + m = pages.length → enumerateLoop file f m i s =
      .ok (0, (pages.drop i).flatten.foldl (fun s ref => (f s ref).2) s) := by
    intro m
    induction m with
    | zero =>
      intro i s hi
      rw [enumerateLoop, List.drop_eq_nil_of_le (by omega)]
      rfl
    | succ m ih =>
      intro i s hi
      have hlt : i < pages.length := by omega
      have hcount : pages[i].length ≤ pages.flatten.length :=
        (List.sublist_flatten_of_mem (List.getElem_mem hlt)).length_le
      rw [enumerateLoop, hfile.page, List.getElem?_eq_getElem hlt, ok_bind]
      dsimp only
      rw [enumeratePage_fold hf (by omega), ok_bind, ih (i + 1) _ (by omega),
        List.drop_eq_getElem_cons hlt, List.flatten_cons, List.foldl_append]
  rw [enumerate, hfile.numPages, hloop pages.length 0 s (by omega), List.drop_zero]

variable (select) in
/-- Keys matched one by one: those chosen are appended. -/
theorem foldl_matchKey (refs : List Ref) (list : Except Stop (List Ref)) (key : κ) :
    (refs.foldl (fun s ref => (matchKey select s ref).2) (list, key)).1 =
      list >>= fun l => (chosen select Ref.headword key refs).foldlM resultListAppend l := by
  induction refs generalizing list key with
  | nil =>
    cases list <;> rfl
  | cons ref refs ih =>
    rw [List.foldl_cons, matchKey, chosen]
    dsimp only
    rw [ih]
    split_ifs
    · cases list <;> rfl
    · rfl

/-- References appended to an empty list. -/
theorem foldlM_resultListAppend_nil {refs : List Ref} (hrefs : ∀ ref ∈ refs, IsText ref) :
    refs.foldlM resultListAppend [] = .ok (refs.destutter fun a b => upper a ≠ upper b) := by
  cases refs with
  | nil => rfl
  | cons a refs =>
    obtain ⟨ha, hrefs⟩ := List.forall_mem_cons.1 hrefs
    have happend := @foldlM_resultListAppend a [] refs ha hrefs
    exact happend

/-- **A match with any selector**: what it chooses, but for what differs in
case at most from what is before it. -/
theorem matchAll_eq (hfile : Holds file pages) (hlen : pages.flatten.length < 2 ^ 31)
    (htext : ∀ ref ∈ pages.flatten, IsText ref) (key : κ) :
    ∃ r, matchAll select file key = .ok r ∧
      r.getD [] = (chosen select Ref.headword key pages.flatten).destutter
        fun a b => upper a ≠ upper b := by
  have hlist := foldl_matchKey select pages.flatten (.ok []) key
  rw [ok_bind, foldlM_resultListAppend_nil fun ref href => htext ref (mem_of_mem_chosen href)]
    at hlist
  unfold matchAll
  rw [hfile.enumerate_fold (fun _ _ => rfl) hlen, ok_bind]
  dsimp only
  rw [hlist, ok_bind]
  refine ⟨_, rfl, ?_⟩
  split_ifs with hnil
  · exact hnil.symm
  · rfl

end Matching

/-! ## From writing to use -/

section Serving

variable {pagesize : ℕ} {qsort : List Ref → List Ref} {refs : List Ref} {w : Writer}
  {full : List (List Ref)} {numHeadwords numDefs : ℕ}

/-- **The pages that were written** are those of the file. -/
theorem Holding.holds (hmax : 1 ≤ pagesize / 2 / refSize - 1) (h : Holding pagesize w full []) :
    Holds (w.file numHeadwords numDefs) (full.map (·.map Ref.located)) where
  numPages := h.numPages_eq.trans (List.length_map _).symm
  page := by
    intro n
    cases hn : full[n]? with
    | some page =>
      rw [h.getPage hmax hn, List.getElem?_map, hn]
      rfl
    | none =>
      have hge := List.getElem?_eq_none_iff.1 hn
      have hsize : (w.file numHeadwords numDefs).pagesize = pagesize := h.pagesize_eq
      rw [List.getElem?_map, hn]
      refine getPage_eq_none ?_
      rw [hsize]
      by_cases hnil : full = []
      · -- without a page there is the header only
        subst hnil
        have hout : w.out = [] := by
          rw [← List.length_eq_zero_iff, h.out_length, List.length_nil, Nat.zero_mul]
        have hpos := Nat.le_mul_of_pos_left pagesize (show 0 < n + 1 by omega)
        unfold Writer.file
        simp only [List.length_append, List.length_replicate, length_headerBytes, hout, if_true,
          List.length_nil]
        rw [refSize] at hmax
        rw [headerSize]
        omega
      · have hle := Nat.mul_le_mul_right pagesize (Nat.add_le_add_right hge 1)
        rw [h.length_content hmax hnil]
        rw [refSize] at hmax
        omega
  ne_nil := by
    intro page hpage
    obtain ⟨page, hmem, rfl⟩ := List.mem_map.1 hpage
    obtain ⟨n, hn⟩ := List.mem_iff_getElem?.1 hmem
    exact fun hnil => (h.written n page hn).1 (List.map_eq_nil_iff.1 hnil)

/-- There are as many references as pages at least. -/
theorem length_le_length_flatten {α : Type} {ls : List (List α)} (h : ∀ l ∈ ls, l ≠ []) :
    ls.length ≤ ls.flatten.length := by
  induction ls with
  | nil => exact Nat.le_refl 0
  | cons l ls ih =>
    obtain ⟨hl, hls⟩ := List.forall_mem_cons.1 h
    have hpos := List.length_pos_of_ne_nil hl
    have hle := ih hls
    rw [List.length_cons, List.flatten_cons, List.length_append]
    omega

/-- **What an index with some references, in order, has to answer.** -/
structure Serves (file : IdxFile) (refs : List Ref) : Prop where
  /-- A word that a headword equals is defined by references that equal it;
  those that are missing come before them, and none is if no two headwords
  are equal. -/
  define : ∀ hw : Utf8Text, ∃ skipped found,
    (∀ fuel, refs.length < fuel →
      define file fuel hw.bytes = .ok (if found = [] then none else some found)) ∧
    (refs.filter (equals hw.bytes)).map Ref.content = (skipped ++ found).map Ref.content ∧
    (found = [] → skipped = []) ∧ ((refs.map upper).Nodup → skipped = [])
  /-- A selector's choice is matched, without repetitions. -/
  matchAll : ∀ (κ : Type) (select : κ → Bytes → Bool × κ) (key : κ), ∃ r,
    matchAll select file key = .ok r ∧ (r.getD []).map Ref.content =
      ((chosen select Ref.headword key refs).destutter fun a b => upper a ≠ upper b).map Ref.content

/-- Of headwords that all differ, no two equal a word. -/
theorem length_filter_equals (hw : Utf8Text) (htext : ∀ ref ∈ refs, IsText ref)
    (hnodup : (refs.map upper).Nodup) : (refs.filter (equals hw.bytes)).length ≤ 1 := by
  have hall : ∀ x ∈ (refs.filter (equals hw.bytes)).map upper, x = folded hw.codes := by
    intro x hx
    obtain ⟨ref, href, rfl⟩ := List.mem_map.1 hx
    obtain ⟨hmem, hequals⟩ := List.mem_filter.1 href
    obtain ⟨t, ht, -⟩ := htext ref hmem
    rw [equals, beq_iff_eq, ht, utf8Strcasecmp_bytes, Option.some.injEq, lexSign_eq_zero] at hequals
    rw [upper, ht, codesOf_bytes, hequals]
  have hsub : ((refs.filter (equals hw.bytes)).map upper).Nodup :=
    hnodup.sublist (List.filter_sublist.map upper)
  rw [List.eq_replicate_of_mem hall, List.nodup_replicate, List.length_map] at hsub
  exact hsub

/-- **A file serves what it holds**, and all lists of references that say
the same. -/
theorem Holds.serves {file : IdxFile} {pages : List (List Ref)} (hfile : Holds file pages)
    (hcontent : pages.flatten.map Ref.content = refs.map Ref.content)
    (hlen : refs.length < 2 ^ 31) (htext : ∀ ref ∈ refs, IsText ref)
    (hsort : refs.Pairwise fun a b => ∃ rc, refcmp a b = some rc ∧ rc ≤ 0) :
    Serves file refs := by
  have hcount : pages.flatten.length = refs.length := by
    have heq := congrArg List.length hcontent
    rwa [List.length_map, List.length_map] at heq
  have htexts : ∀ ref ∈ pages.flatten, IsText ref := by
    intro ref href
    have hmem : ref.content ∈ refs.map Ref.content := hcontent ▸ List.mem_map_of_mem href
    obtain ⟨ref', href', heq⟩ := List.mem_map.1 hmem
    obtain ⟨t, hhead, hhwlen⟩ := htext ref' href'
    obtain ⟨hword, hrest⟩ := Prod.mk.inj heq
    exact ⟨t, hword ▸ hhead, (Prod.mk.inj hrest).1 ▸ hhwlen⟩
  have hsorted : Sorted pages := by
    have hwords : pages.flatten.map Ref.headword = refs.map Ref.headword := by
      have hfst := congrArg (List.map Prod.fst) hcontent
      rwa [List.map_map, List.map_map] at hfst
    have hpairs : (refs.map Ref.headword).Pairwise fun a b =>
        ∃ rc, utf8Strcasecmp a b = some rc ∧ rc ≤ 0 := List.pairwise_map.2 hsort
    rw [← hwords] at hpairs
    exact List.pairwise_map.1 hpairs
  constructor
  · intro hw
    have hdef : Comparable pages hw.bytes := by
      intro ref href
      obtain ⟨t, ht, -⟩ := htexts ref href
      rw [ht]
      exact ⟨_, utf8Strcasecmp_bytes hw t⟩
    obtain ⟨skipped, found, hfilter, hnil, hdefine⟩ := define_eq hfile hsorted hdef
    have hfilters : (refs.filter (equals hw.bytes)).map Ref.content =
        (skipped ++ found).map Ref.content := by
      have hmap : ∀ l : List Ref, (l.filter (equals hw.bytes)).map Ref.content =
          (l.map Ref.content).filter fun c => utf8Strcasecmp hw.bytes c.1 == some 0 := by
        intro l
        rw [List.filter_map]
        rfl
      rw [hmap, ← hcontent, ← hmap, hfilter]
    refine ⟨skipped, found, fun fuel hfuel => hdefine fuel (by omega), hfilters, hnil, ?_⟩
    intro hnodup
    by_contra hskipped
    have hfound : found ≠ [] := fun h => hskipped (hnil h)
    have hle := length_filter_equals hw htext hnodup
    have htwo := congrArg List.length hfilters
    rw [List.length_map, List.length_map, List.length_append] at htwo
    have hpos := List.length_pos_of_ne_nil hskipped
    have hpos' := List.length_pos_of_ne_nil hfound
    omega
  · intro κ select key
    obtain ⟨r, hr, hlist⟩ := matchAll_eq hfile (by omega) htexts key
    have hmap : ∀ l : List Ref, ((chosen select Ref.headword key l).destutter
        fun a b => upper a ≠ upper b).map Ref.content =
          (chosen select Prod.fst key (l.map Ref.content)).destutter
            fun c d => folded (codesOf c.1) ≠ folded (codesOf d.1) := by
      intro l
      rw [← chosen_map (f := Ref.content) fun _ => rfl]
      exact List.map_destutter fun _ _ _ _ => Iff.rfl
    exact ⟨r, hr, by rw [hlist, hmap, hmap, hcontent]⟩

/-- **From the writing of an index to its use.** Whatever references to texts
are written, as long as they have room in a page and an `int` can count
them, and the count of the memory that `malloc` returned is zero, the file is
opened again, with the counts of its header, and serves them. -/
theorem index_serves {mem : Bytes} (hmax : 1 ≤ pagesize / 2 / refSize - 1)
    (hmem : mem.length = pagesize) (hzero : Memory.getWord mem 0 = some 0)
    (hrefs : ∀ ref ∈ refs, Storable pagesize ref ∧ IsText ref) (hsort : Sorts qsort refs)
    (hne : refs ≠ []) (hlen : refs.length < 2 ^ 31) (hfits : (refs.length + 1) * pagesize < 2 ^ 63)
    (hdefs : numDefs < 2 ^ 64) :
    ∃ w₀ w header file, start mem pagesize = .ok w₀ ∧ flushRefs qsort refs w₀ = .ok w ∧
      openIndex (w.file refs.length numDefs).content = some (header, file) ∧
      header.numHeadwords = refs.length ∧ header.numDefs = numDefs ∧
      Serves file (qsort refs) := by
  have hpage : pagesize < 2 ^ 63 :=
    (Nat.le_mul_of_pos_left pagesize (show 0 < refs.length + 1 by omega)).trans_lt hfits
  have hsorted : ∀ ref ∈ qsort refs, Storable pagesize ref ∧ IsText ref := fun ref href =>
    hrefs ref (hsort.perm.mem_iff.1 href)
  have hcount : (qsort refs).length = refs.length := hsort.perm.length_eq
  obtain ⟨w₀, hstart, h₀⟩ := start_eq hpage hmax hmem hzero
  obtain ⟨w, full, hflush, h, hcontent⟩ :=
    h₀.flushRefs hpage hmax (fun ref href => (hsorted ref href).1) (by omega)
  have hlength : full.flatten.length = refs.length := by
    have heq := congrArg List.length hcontent
    rw [List.length_map, List.length_map] at heq
    omega
  have hfull : full ≠ [] := by
    rintro rfl
    exact hne (List.length_eq_zero_iff.1 hlength.symm)
  have hpages : full.length ≤ refs.length := by
    rw [← hlength]
    refine length_le_length_flatten fun page hpage' => ?_
    obtain ⟨n, hn⟩ := List.mem_iff_getElem?.1 hpage'
    exact (h.written n page hn).1
  have hsize := Nat.mul_le_mul_right pagesize (Nat.add_le_add_right hpages 1)
  have hopen := h.openIndex hmax hfull (by omega) (show refs.length < 2 ^ 64 by omega) hdefs
  refine ⟨w₀, w, _, _, hstart, hflush, hopen, rfl, rfl, ?_⟩
  refine (h.holds hmax).serves ?_ (by omega) (fun ref href => (hsorted ref href).2) hsort.sorted
  rw [← hcontent, ← List.map_flatten, List.map_map]
  rfl

/-- Two headwords in the smallest page that can have a reference. -/
theorem index_serves_letters :
    ∃ w₀ w header file, start (List.replicate 224 0) 224 = .ok w₀ ∧
      flushRefs id [letterRef 97 0, letterRef 98 10] w₀ = .ok w ∧
      openIndex (w.file 2 1).content = some (header, file) ∧
      header.numHeadwords = 2 ∧ header.numDefs = 1 ∧
      Serves file [letterRef 97 0, letterRef 98 10] := by
  have hmax : 1 ≤ 224 / 2 / refSize - 1 := by decide
  refine index_serves hmax List.length_replicate (getWord_replicate (by decide)) ?_
    ⟨List.Perm.refl _, ?_⟩ (List.cons_ne_nil _ _) (by decide) (by decide) (by decide)
  · have ha : IsText (letterRef 97 0) := ⟨⟨"a".toList, by decide⟩, by decide, by decide +kernel⟩
    have hb : IsText (letterRef 98 10) := ⟨⟨"b".toList, by decide⟩, by decide, by decide +kernel⟩
    exact List.forall_mem_cons.2 ⟨⟨storable_letterRef (by decide) hmax, ha⟩,
      List.forall_mem_singleton.2 ⟨storable_letterRef (by decide) hmax, hb⟩⟩
  · exact List.pairwise_pair.2 ⟨-1, by decide +kernel, by decide⟩

end Serving

end Gcide

end Dico
