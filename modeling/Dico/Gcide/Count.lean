import Mathlib.Data.List.TakeWhile
import Dico.Common.Run
import Dico.Gcide.Locate
/-!
# Counting references

`gcide_iterator_count` steps an iterator until it fails, and by then the
step that failed has left the number of references in the iterator: where
the next reference is not equal to the headword. Where there is no next
reference, the test for the last page is off by one, the step asks for a
page that the file does not have, and the number is never set.
-/

namespace Dico

namespace Gcide

/-! ## The model -/

/-- The page that `gcide_iterator_next` asks for. -/
def Iterator.asks (file : IdxFile) (itr : Iterator) : Option ℕ :=
  if itr.numrefs ≠ 0 ∧ itr.curref = itr.numrefs - 1 then none
  else (itr.nextPos file).map Prod.fst

/-- The loop of `gcide_iterator_count`, with the pages that were asked
for. -/
def countLoop (file : IdxFile) : ℕ → Iterator → List ℕ → Except Stop (Iterator × List ℕ)
  | 0, _, _ => .error .loop
  | fuel + 1, itr, asked => do
    let (success, itr') ← iteratorNext file itr
    let asked := asked ++ (itr.asks file).toList
    if success then countLoop file fuel itr' asked else .ok (itr', asked)

/-- `gcide_iterator_count`, with the pages that were asked for. -/
def iteratorCount (file : IdxFile) (fuel : ℕ) (itr : Iterator) (asked : List ℕ) :
    Except Stop (ℕ × Iterator × List ℕ) :=
  if itr.numrefs = 0 then do
    let (itr, asked) ← countLoop file fuel itr asked
    let (_, itr) ← iteratorRewind file itr
    .ok (itr.numrefs, itr, asked ++ [itr.startPageno])
  else .ok (itr.numrefs, itr, asked)

/-- The calls on an iterator. -/
inductive IterOp
  | next
  | rewind
  | count
  deriving DecidableEq, Repr

/-- An iterator in use: the pages that were asked for, and what
`gcide_iterator_count` returned. -/
structure Visitor where
  /-- The iterator. -/
  itr : Iterator
  /-- The pages. -/
  asked : List ℕ
  /-- The counts. -/
  counts : List ℕ
  deriving DecidableEq, Repr

/-- One call. -/
def iterStep (file : IdxFile) (fuel : ℕ) : IterOp → Visitor → Except Stop Visitor
  | .next, s => do
    let (_, itr) ← iteratorNext file s.itr
    .ok { s with itr := itr, asked := s.asked ++ (s.itr.asks file).toList }
  | .rewind, s => do
    let (_, itr) ← iteratorRewind file s.itr
    .ok { s with itr := itr, asked := s.asked ++ [s.itr.startPageno] }
  | .count, s => do
    let (n, itr, asked) ← iteratorCount file fuel s.itr s.asked
    .ok { itr := itr, asked := asked, counts := s.counts ++ [n] }

/-! ## What is asked -/

/-- No page was asked for that the file does not have, every count was `n`,
and so many references are visited from the beginning to the first step
that fails. -/
def CountedRight (file : IdxFile) (fuel n : ℕ) (s : Visitor) : Prop :=
  (∀ p ∈ s.asked, p < file.numPages) ∧ (∀ c ∈ s.counts, c = n) ∧
    ∃ itr refs, iteratorRewind file s.itr = .ok (true, itr) ∧
      visits file fuel itr = .ok refs ∧ refs.length = n

/-- And so it is whatever calls are made. -/
def CountsRight (file : IdxFile) (itr : Iterator) : Prop :=
  ∃ n k, 1 ≤ n ∧ ∀ fuel, k ≤ fuel → ∀ ops,
    Run.Safe (iterStep file fuel) (CountedRight file fuel n) ops ⟨itr, [], []⟩

/-- A reference is equal to the headword, as the iterator sees it. -/
def Iterator.matching (itr : Iterator) (ref : Ref) : Bool := (itr.compare ref).toOption == some 0

/-- Behind the references that match there is one more, and comparing it
reads no memory but the headwords. -/
def StopsBeforeEnd (pages : List (List Ref)) (itr : Iterator) : Prop :=
  ∃ page next rc, pages[itr.curPageno]? = some page ∧
    ((behind pages itr page).dropWhile itr.matching).head? = some next ∧ itr.compare next = .ok rc

/-! ## An iterator on its run -/

section Counting

variable {file : IdxFile} {pages : List (List Ref)} {itr₀ itr : Iterator} {run tail : List Ref}
variable {i : ℕ}

/-- An iterator is `i` references behind the one it was at first; those of
the run match, and something else may follow. -/
structure OnRun (pages : List (List Ref)) (itr₀ : Iterator) (run tail : List Ref) (i : ℕ)
    (itr : Iterator) : Prop where
  /-- The references of the run match. -/
  matches_run : ∀ x ∈ run, itr₀.compare x = .ok 0
  /-- It is not beyond them. -/
  le : i ≤ run.length
  /-- It stands there. -/
  stands : ∃ page, Stands pages itr page ∧ behind pages itr page = run.drop i ++ tail
  /-- The position is counted. -/
  curref : itr.curref = i
  /-- The number of references is right, or not known. -/
  numrefs : itr.numrefs = 0 ∨ itr.numrefs = run.length + 1
  /-- The headword stays. -/
  headword : itr.headword = itr₀.headword
  /-- And its length. -/
  hwlen : itr.hwlen = itr₀.hwlen
  /-- The page at the beginning. -/
  startPageno : itr.startPageno = itr₀.curPageno
  /-- The reference there. -/
  startRefno : itr.startRefno = itr₀.curRefno

/-- The comparisons are the same. -/
theorem OnRun.compare (h : OnRun pages itr₀ run tail i itr) : itr.compare = itr₀.compare := by
  funext ref
  rw [Iterator.compare, Iterator.compare, h.headword, h.hwlen]

/-- The page that is asked for. -/
theorem asks_lt {p k : ℕ} {page : List Ref} (hpos : itr.nextPos file = some (p, k))
    (hp : pages[p]? = some page) : ∀ q ∈ itr.asks file, q < pages.length := by
  intro q hq
  rw [Iterator.asks] at hq
  split_ifs at hq
  · cases hq
  · rw [hpos] at hq
    cases hq
    exact (List.getElem?_eq_some_iff.1 hp).1

/-- **A step on the run** that is not the last goes on. -/
theorem OnRun.next (hfile : Holds file pages) (h : OnRun pages itr₀ run tail i itr)
    (hi : i < run.length) :
    ∃ itr', iteratorNext file itr = .ok (true, itr') ∧ OnRun pages itr₀ run tail (i + 1) itr' ∧
      itr'.numrefs = itr.numrefs ∧ ∀ p ∈ itr.asks file, p < pages.length := by
  obtain ⟨page, hstands, hbehind⟩ := h.stands
  rw [List.drop_eq_getElem_cons hi, List.cons_append] at hbehind
  have hcurref := h.curref
  rcases hstands.nextPos hfile with ⟨hnil, -⟩ | ⟨p, k, page', next, hpos, hp, hk, hstands', hcons⟩
  · rw [hbehind] at hnil
    cases hnil
  rw [hbehind, List.cons.injEq] at hcons
  obtain ⟨rfl, htail⟩ := hcons
  have hmoved : OnRun pages itr₀ run tail (i + 1) (itr.moved p k page') :=
    ⟨h.matches_run, hi, ⟨page', hstands', htail.symm⟩, by rw [Iterator.moved, hcurref],
      h.numrefs, h.headword, h.hwlen, h.startPageno, h.startRefno⟩
  refine ⟨_, ?_, hmoved, rfl, asks_lt hpos hp⟩
  rcases h.numrefs with hzero | hknown
  · have hcmp : itr.compare run[i] = .ok 0 := by
      rw [h.compare]
      exact h.matches_run _ (List.getElem_mem hi)
    rw [iteratorNext_compare hfile hzero hpos hp hk, hcmp, ok_bind, if_neg (by decide)]
  · exact iteratorNext_known hfile (by omega) (by omega) hpos hp

/-- **The last step of the run** fails, and then the number is known, if the
next reference can be compared and does not match. -/
theorem OnRun.next_last (hfile : Holds file pages) {next : Ref} {rest : List Ref} {rc : ℤ}
    (htail : tail = next :: rest) (hcmp : itr₀.compare next = .ok rc) (hrc : rc ≠ 0)
    (h : OnRun pages itr₀ run tail run.length itr) :
    ∃ itr', iteratorNext file itr = .ok (false, itr') ∧
      OnRun pages itr₀ run tail run.length itr' ∧ itr'.numrefs = run.length + 1 ∧
      ∀ p ∈ itr.asks file, p < pages.length := by
  obtain ⟨page, hstands, hbehind⟩ := h.stands
  rw [List.drop_length, List.nil_append, htail] at hbehind
  have hcurref := h.curref
  rcases hstands.nextPos hfile with ⟨hnil, -⟩ | ⟨p, k, page', next', hpos, hp, hk, -, hcons⟩
  · rw [hbehind] at hnil
    cases hnil
  rw [hbehind, List.cons.injEq] at hcons
  obtain ⟨rfl, -⟩ := hcons
  rcases h.numrefs with hzero | hknown
  · refine ⟨{ itr with numrefs := itr.curref + 1 }, ?_, ?_, ?_, asks_lt hpos hp⟩
    · rw [iteratorNext_compare hfile hzero hpos hp hk, h.compare, hcmp, ok_bind, if_pos hrc]
    · exact ⟨h.matches_run, h.le,
        h.stands.imp fun page h => ⟨⟨h.1.page_eq, h.1.lt, h.1.count⟩, h.2⟩, h.curref,
        .inr (by rw [← hcurref]), h.headword, h.hwlen, h.startPageno, h.startRefno⟩
    · rw [← hcurref]
  · exact ⟨itr, iteratorNext_end (by omega) (by omega), h, hknown, asks_lt hpos hp⟩

/-- **`gcide_iterator_rewind`** goes to the beginning of the run. -/
theorem OnRun.rewind (hfile : Holds file pages) {page₀ : List Ref}
    (hstart : Stands pages itr₀ page₀) (hbehind : behind pages itr₀ page₀ = run ++ tail)
    (h : OnRun pages itr₀ run tail i itr) :
    ∃ itr', iteratorRewind file itr = .ok (true, itr') ∧ OnRun pages itr₀ run tail 0 itr' ∧
      itr'.numrefs = itr.numrefs ∧ itr'.startPageno < pages.length := by
  refine ⟨{ itr with
    curPageno := itr.startPageno, curRefno := itr.startRefno, curref := 0,
    pageNumrefs := page₀.length }, ?_, ⟨h.matches_run, Nat.zero_le _, ?_, rfl, h.numrefs,
    h.headword, h.hwlen, h.startPageno, h.startRefno⟩, rfl, ?_⟩
  · rw [iteratorRewind]
    dsimp only
    rw [h.startPageno, hfile.page, hstart.page_eq, ok_bind]
  · refine ⟨page₀, ⟨?_, ?_, rfl⟩, ?_⟩
    · dsimp only
      rw [h.startPageno]
      exact hstart.page_eq
    · dsimp only
      rw [h.startRefno]
      exact hstart.lt
    · rw [List.drop_zero, ← hbehind, behind, behind]
      dsimp only
      rw [h.startPageno, h.startRefno]
  · dsimp only
    rw [h.startPageno]
    exact (List.getElem?_eq_some_iff.1 hstart.page_eq).1

/-- **The loop of `gcide_iterator_count`** comes to the end of the run. -/
theorem OnRun.countLoop (hfile : Holds file pages) (h : OnRun pages itr₀ run tail i itr)
    (asked : List ℕ) :
    ∃ itr' more, OnRun pages itr₀ run tail run.length itr' ∧ itr'.numrefs = itr.numrefs ∧
      (∀ p ∈ more, p < pages.length) ∧ ∀ fuel,
        Gcide.countLoop file (fuel + (run.length - i)) itr asked =
          Gcide.countLoop file fuel itr' (asked ++ more) := by
  have hle := h.le
  obtain ⟨n, hn⟩ : ∃ n, n = run.length - i := ⟨_, rfl⟩
  induction n generalizing i itr asked with
  | zero =>
    obtain rfl : i = run.length := by omega
    refine ⟨itr, [], h, rfl, fun p hp => absurd hp List.not_mem_nil, fun fuel => ?_⟩
    rw [Nat.sub_self, Nat.add_zero, List.append_nil]
  | succ n ih =>
    obtain ⟨itr₁, hnext, h₁, hnum₁, hasks⟩ := h.next hfile (by omega)
    obtain ⟨itr', more, h', hnum', hmore, hloop⟩ :=
      ih h₁ (asked ++ (itr.asks file).toList) h₁.le (by omega)
    refine ⟨itr', (itr.asks file).toList ++ more, h', hnum'.trans hnum₁, ?_, fun fuel => ?_⟩
    · rw [List.forall_mem_append]
      exact ⟨fun p hp => hasks p (Option.mem_toList.1 hp), hmore⟩
    · rw [show fuel + (run.length - i) = fuel + (run.length - (i + 1)) + 1 by omega,
        Gcide.countLoop, hnext, ok_bind]
      dsimp only
      rw [if_pos rfl, hloop, List.append_assoc]

/-- **What is visited from a place of the run on**, when its end is found. -/
theorem OnRun.visits (hfile : Holds file pages) {next : Ref} {rest : List Ref} {rc : ℤ}
    (htail : tail = next :: rest) (hcmp : itr₀.compare next = .ok rc) (hrc : rc ≠ 0)
    (h : OnRun pages itr₀ run tail i itr) {fuel : ℕ} (hfuel : run.length - i < fuel) :
    ∃ refs, Gcide.visits file fuel itr = .ok refs ∧ refs.length = run.length - i + 1 := by
  induction fuel generalizing i itr with
  | zero => omega
  | succ fuel ih =>
    obtain ⟨page, hstands, -⟩ := h.stands
    have href := hstands.iteratorRef hfile (List.getElem?_eq_getElem hstands.lt)
    have hle := h.le
    rw [Gcide.visits, href, ok_bind]
    rcases Nat.lt_or_eq_of_le h.le with hlt | rfl
    · obtain ⟨itr', hnext, h', -, -⟩ := h.next hfile hlt
      obtain ⟨refs, hrefs, hlen⟩ := ih h' (by omega)
      rw [hnext, ok_bind]
      dsimp only
      rw [if_pos rfl, hrefs, ok_bind]
      refine ⟨_, rfl, ?_⟩
      rw [List.length_append, hlen, Option.toList_some, List.length_singleton]
      omega
    · obtain ⟨itr', hnext, -, -, -⟩ := h.next_last hfile htail hcmp hrc
      rw [hnext, ok_bind]
      refine ⟨_, rfl, ?_⟩
      rw [Option.toList_some, List.length_singleton]
      omega

/-! ## All calls -/

/-- **One call on an iterator on its run**: it goes through, asks for no
other page, and a count is right. -/
theorem OnRun.iterStep (hfile : Holds file pages) {page₀ : List Ref}
    (hstart : Stands pages itr₀ page₀) (hbehind : behind pages itr₀ page₀ = run ++ tail)
    {next : Ref} {rest : List Ref} {rc : ℤ} (htail : tail = next :: rest)
    (hcmp : itr₀.compare next = .ok rc) (hrc : rc ≠ 0) {fuel : ℕ} (hfuel : run.length < fuel)
    (op : IterOp) {s : Visitor} (h : OnRun pages itr₀ run tail i s.itr)
    (hasked : ∀ p ∈ s.asked, p < pages.length) (hcounts : ∀ c ∈ s.counts, c = run.length + 1) :
    ∃ s' j, Gcide.iterStep file fuel op s = .ok s' ∧ OnRun pages itr₀ run tail j s'.itr ∧
      (∀ p ∈ s'.asked, p < pages.length) ∧ ∀ c ∈ s'.counts, c = run.length + 1 := by
  cases op with
  | next =>
    have hstep : ∃ success itr' j, iteratorNext file s.itr = .ok (success, itr') ∧
        OnRun pages itr₀ run tail j itr' ∧ ∀ p ∈ s.itr.asks file, p < pages.length := by
      rcases Nat.lt_or_eq_of_le h.le with hlt | rfl
      · obtain ⟨itr', hnext, h', -, hasks⟩ := h.next hfile hlt
        exact ⟨true, itr', i + 1, hnext, h', hasks⟩
      · obtain ⟨itr', hnext, h', -, hasks⟩ := h.next_last hfile htail hcmp hrc
        exact ⟨false, itr', run.length, hnext, h', hasks⟩
    obtain ⟨success, itr', j, hnext, h', hasks⟩ := hstep
    rw [Gcide.iterStep, hnext, ok_bind]
    refine ⟨_, j, rfl, h', ?_, hcounts⟩
    exact List.forall_mem_append.2 ⟨hasked, fun p hp => hasks p (Option.mem_toList.1 hp)⟩
  | rewind =>
    obtain ⟨itr', hrewind, h', -, hlt⟩ := h.rewind hfile hstart hbehind
    rw [Gcide.iterStep, hrewind, ok_bind]
    refine ⟨_, 0, rfl, h', ?_, hcounts⟩
    refine List.forall_mem_append.2 ⟨hasked, List.forall_mem_singleton.2 ?_⟩
    rwa [h.startPageno, ← h'.startPageno]
  | count =>
    rw [Gcide.iterStep, iteratorCount]
    -- the count is known, or it steps to the end of the run and back to its beginning
    by_cases hzero : s.itr.numrefs = 0
    · obtain ⟨itr₁, more, h₁, -, hmore, hloop⟩ := h.countLoop hfile s.asked
      obtain ⟨itr₂, hnext, h₂, hnum₂, hasks⟩ := h₁.next_last hfile htail hcmp hrc
      obtain ⟨itr₃, hrewind, h₃, hnum₃, hlt⟩ := h₂.rewind hfile hstart hbehind
      have hcount : Gcide.countLoop file fuel s.itr s.asked =
          .ok (itr₂, s.asked ++ more ++ (itr₁.asks file).toList) := by
        have hfuel' : fuel = fuel - 1 - (run.length - i) + 1 + (run.length - i) := by omega
        rw [hfuel', hloop, Gcide.countLoop, hnext, ok_bind]
        dsimp only
        rw [if_neg Bool.false_ne_true]
      rw [if_pos hzero, hcount, ok_bind]
      dsimp only
      rw [hrewind, ok_bind, ok_bind]
      refine ⟨_, 0, rfl, h₃, ?_, ?_⟩
      · rw [List.forall_mem_append, List.forall_mem_append, List.forall_mem_append]
        exact ⟨⟨⟨hasked, hmore⟩, fun p hp => hasks p (Option.mem_toList.1 hp)⟩,
          List.forall_mem_singleton.2 hlt⟩
      · refine List.forall_mem_append.2 ⟨hcounts, List.forall_mem_singleton.2 ?_⟩
        rw [hnum₃, hnum₂]
    · rw [if_neg hzero, ok_bind]
      refine ⟨_, i, rfl, h, hasked, ?_⟩
      exact List.forall_mem_append.2
        ⟨hcounts, List.forall_mem_singleton.2 (h.numrefs.resolve_left hzero)⟩

/-- **Counting is right** where something follows the run. -/
theorem OnRun.countsRight (hfile : Holds file pages) {page₀ : List Ref}
    (hstart : Stands pages itr₀ page₀) (hbehind : behind pages itr₀ page₀ = run ++ tail)
    {next : Ref} {rest : List Ref} {rc : ℤ} (htail : tail = next :: rest)
    (hcmp : itr₀.compare next = .ok rc) (hrc : rc ≠ 0) (h : OnRun pages itr₀ run tail 0 itr₀) :
    CountsRight file itr₀ := by
  refine ⟨run.length + 1, run.length + 1, Nat.le_add_left 1 _, fun fuel hfuel ops => ?_⟩
  have hsafe : Run.Safe (Gcide.iterStep file fuel) (fun s =>
      (∃ j, OnRun pages itr₀ run tail j s.itr) ∧ (∀ p ∈ s.asked, p < pages.length) ∧
        ∀ c ∈ s.counts, c = run.length + 1) ops ⟨itr₀, [], []⟩ := by
    refine Run.safe_of_step ?_ ⟨⟨0, h⟩, fun p hp => absurd hp List.not_mem_nil,
      fun c hc => absurd hc List.not_mem_nil⟩
    rintro op s ⟨⟨j, hj⟩, hasked, hcounts⟩
    obtain ⟨s', j', hstep, hj', hasked', hcounts'⟩ :=
      hj.iterStep hfile hstart hbehind htail hcmp hrc hfuel op hasked hcounts
    exact ⟨s', hstep, ⟨j', hj'⟩, hasked', hcounts'⟩
  refine hsafe.imp fun s hs => ?_
  obtain ⟨⟨j, hj⟩, hasked, hcounts⟩ := hs
  obtain ⟨itr', hrewind, h', -, -⟩ := hj.rewind hfile hstart hbehind
  obtain ⟨refs, hrefs, hlen⟩ := h'.visits hfile htail hcmp hrc (by omega : _ < fuel)
  refine ⟨?_, hcounts, itr', refs, hrewind, hrefs, ?_⟩
  · rw [hfile.numPages]
    exact hasked
  · rw [hlen, Nat.sub_zero]

/-- And it is not where nothing does, or nothing that can be compared. -/
theorem OnRun.not_countsRight (hfile : Holds file pages)
    (hend : ∀ next ∈ tail.head?, ∃ e, itr₀.compare next = .error e)
    (h : OnRun pages itr₀ run tail 0 itr₀) (hnum : itr₀.numrefs = 0) : ¬ CountsRight file itr₀ := by
  rintro ⟨n, k, -, hright⟩
  obtain ⟨s, hrun, hasked, -, -⟩ := hright (k + 1 + run.length) (by omega) [.count] [.count]
    List.prefix_rfl
  obtain ⟨itr₁, more, h₁, hnum₁, hmore, hloop⟩ := h.countLoop hfile []
  rw [Nat.sub_zero] at hloop
  obtain ⟨page, hstands, hbehind⟩ := h₁.stands
  rw [List.drop_length, List.nil_append] at hbehind
  rw [Run.run, Gcide.iterStep, iteratorCount, if_pos hnum, hloop, Gcide.countLoop] at hrun
  rcases hstands.nextPos hfile with ⟨hnil, hpos⟩ | ⟨p, k, page', next, hpos, hp, hk, -, hcons⟩
  · -- the page behind the last is asked for
    have hasks : itr₁.asks file = some pages.length := by
      rw [Iterator.asks, if_neg (fun hc => hc.1 (hnum₁.trans hnum)), hpos]
      rfl
    rw [iteratorNext_none hfile (hnum₁.trans hnum) hpos, ok_bind, hasks] at hrun
    dsimp only at hrun
    rw [if_neg Bool.false_ne_true, ok_bind] at hrun
    obtain ⟨s₁, hs₁, hs⟩ := bind_eq_ok.1 hrun
    obtain ⟨⟨m, itr₂, asked⟩, hcount, hs₁⟩ := bind_eq_ok.1 hs₁
    obtain ⟨⟨success, itr₃⟩, -, hcount⟩ := bind_eq_ok.1 hcount
    cases hcount
    cases hs₁
    cases hs
    have hlt := hasked pages.length (by simp)
    rw [hfile.numPages] at hlt
    omega
  · rw [hbehind] at hcons
    obtain ⟨e, he⟩ := hend next (by rw [hcons]; rfl)
    rw [iteratorNext_compare hfile (hnum₁.trans hnum) hpos hp hk, h₁.compare, he] at hrun
    cases hrun

/-- An iterator that was just made, at a reference of a page. -/
theorem Stands.countsRight_iff_stopsBeforeEnd (hfile : Holds file pages) {copy : Bytes}
    {hwlen p k : ℕ} {page : List Ref} (hitr : Iterator.create copy hwlen page p k = itr)
    (hstart : Stands pages itr page) : CountsRight file itr ↔ StopsBeforeEnd pages itr := by
  have hnum : itr.numrefs = 0 := by
    rw [← hitr]
    rfl
  have hsplit : behind pages itr page = (behind pages itr page).takeWhile itr.matching ++
      (behind pages itr page).dropWhile itr.matching := List.takeWhile_append_dropWhile.symm
  have hmatch : ∀ x ∈ (behind pages itr page).takeWhile itr.matching, itr.compare x = .ok 0 := by
    intro x hx
    have hx := List.mem_takeWhile_imp hx
    rw [Iterator.matching, beq_iff_eq] at hx
    exact eq_ok_of_toOption hx
  have hrun : OnRun pages itr ((behind pages itr page).takeWhile itr.matching)
      ((behind pages itr page).dropWhile itr.matching) 0 itr := by
    refine ⟨hmatch, Nat.zero_le _, ⟨page, hstart, hsplit⟩, ?_, .inl hnum, rfl, rfl, ?_, ?_⟩
    · rw [← hitr]
      rfl
    · rw [← hitr]
      rfl
    · rw [← hitr]
      rfl
  constructor
  · intro hright
    by_contra hstop
    refine hrun.not_countsRight hfile ?_ hnum hright
    intro next hnext
    cases hcmp : itr.compare next with
    | error e => exact ⟨e, rfl⟩
    | ok rc => exact absurd ⟨page, next, rc, hstart.page_eq, hnext, hcmp⟩ hstop
  · rintro ⟨page', next, rc, hp', hnext, hcmp⟩
    obtain rfl := Option.some.inj (hstart.page_eq.symm.trans hp')
    obtain ⟨rest, hrest⟩ := List.head?_eq_some_iff.1 hnext
    have hrc : rc ≠ 0 := by
      rintro rfl
      have hne : (behind pages itr page).dropWhile itr.matching ≠ [] := by
        rw [hrest]
        exact List.cons_ne_nil _ _
      have hnot := List.head_dropWhile_not itr.matching hne
      simp only [hrest, List.head_cons] at hnot
      rw [Iterator.matching, hcmp] at hnot
      cases hnot
    exact hrun.countsRight hfile hstart hsplit hrest hcmp hrc

/-- **Counting references**: for every iterator that `gcide_idx_locate`
makes and all calls on it, every count is right and no page is asked for
that the file does not have, just if the run of the references that match
is not the end of the file. -/
theorem countsRight_iff (file : IdxFile) (pages : List (List Ref)) (hw : Bytes) (hwlen : ℕ)
    (itr : Iterator) (hfile : Holds file pages) (hlocate : locate file hw hwlen = .ok (some itr)) :
    CountsRight file itr ↔ StopsBeforeEnd pages itr := by
  obtain ⟨copy, p, page, k, -, hp, hk, rfl⟩ := locate_created hfile hlocate
  exact Stands.countsRight_iff_stopsBeforeEnd hfile rfl ⟨hp, hk, rfl⟩

/-- The iterator at the first of the two references of a file. -/
theorem countsRight_sampleFile :
    CountsRight (sampleFile [(168, 97), (170, 98)])
        (Iterator.create (ascii "a") 0 (sampleRefs [(168, 97), (170, 98)]) 0 0) ↔
      StopsBeforeEnd [sampleRefs [(168, 97), (170, 98)]]
        (Iterator.create (ascii "a") 0 (sampleRefs [(168, 97), (170, 98)]) 0 0) :=
  countsRight_iff _ _ (ascii "a") 0 _
    (holds_sampleFile (by decide +kernel) (by decide +kernel) (by decide)) (by decide +kernel)

/-- **The only reference of a file is not counted.** -/
theorem not_forall_countsRight :
    ¬ ∀ (file : IdxFile) (pages : List (List Ref)) (hw : Bytes) (hwlen : ℕ) (itr : Iterator),
      Holds file pages → Sorted pages → locate file hw hwlen = .ok (some itr) →
      CountsRight file itr := by
  intro h
  have hfile : Holds (sampleFile [(168, 97)]) [sampleRefs [(168, 97)]] :=
    holds_sampleFile (by decide +kernel) (by decide +kernel) (by decide)
  have hright := h _ _ (ascii "a") 0
    (Iterator.create (ascii "a") 0 (sampleRefs [(168, 97)]) 0 0) hfile
    (List.pairwise_singleton _ _) (by decide +kernel)
  rw [Stands.countsRight_iff_stopsBeforeEnd hfile rfl ⟨rfl, by decide, rfl⟩] at hright
  obtain ⟨page, next, rc, hp, hnext, -⟩ := hright
  cases hp
  cases hnext

end Counting

end Gcide

end Dico
