import Dico.Common.CInt
import Dico.Common.EditDistance
import Dico.Common.Run
import Dico.Text.Select
import Dico.Text.Unicase
/-!
# Edit distance

`dico_levenshtein_distance` of `lib/levenshtein.c`, over the code points of
two strings, and the selector of `dicod/lev.c` that asks it. The program
keeps two or three rows of the table of distances and goes around them; a
row that is written again still has the cells of an older one behind the
column it has come to. The lengths of the strings and the number of cells
are `int`s, so long strings lose characters, or have no rows at all.
-/

namespace Dico

open EditDistance (table distance)

/-! ## The model -/

/-- `DICO_LEV_NORM`. -/
def levNorm : ℕ := 0x1

/-- `DICO_LEV_DAMERAU`. -/
def levDamerau : ℕ := 0x2

/-- `ISWS` of `lib/utf8.c`. -/
def isNormWs (wc : ℕ) : Bool := wc = 32 || wc = 9 || wc = 10

/-- The loop of `utf8_mbstr_to_norm_wc`. -/
def normLoop : ℕ → Bytes → Bool → Option (List ℕ)
  | _, [], _ => some []
  | 0, _ :: _, _ => none
  | fuel + 1, b :: r, inws => do
    let (wc, rc) ← utf8Mbtowc (b :: r)
    if rc = 1 ∧ isNormWs wc then
      if inws then normLoop fuel ((b :: r).drop rc) inws
      else do
        let ws ← normLoop fuel ((b :: r).drop rc) true
        some (32 :: ws)
    else do
      let ws ← normLoop fuel ((b :: r).drop rc) false
      some (wc :: ws)

/-- `utf8_mbstr_to_norm_wc`: the array it stores, with the zero that ends
it. -/
def utf8MbstrToNormWc (str : Bytes) : Option (List ℕ) := do
  let ws ← normLoop str.length str false
  some (ws ++ [0])

/-- `conv`. -/
def levConv (flags : ℕ) (str : Bytes) : Option (List ℕ) :=
  if flags &&& levNorm ≠ 0 then utf8MbstrToNormWc str
  else (utf8MbstrToWcN str).map Prod.fst

/-- The block at `rowptr`: rows of `width` cells each, one after another. -/
structure Rows where
  width : ℕ
  cells : List ℕ

namespace Rows

/-- `row[k][j]`. -/
def get (r : Rows) (k j : ℕ) : Except Fault ℕ :=
  match r.cells[k * r.width + j]? with
  | some n => .ok n
  | none => .error .bounds

/-- `row[k][j] = n`. -/
def set (r : Rows) (k j n : ℕ) : Except Fault Rows :=
  if k * r.width + j < r.cells.length then
    .ok { r with cells := r.cells.set (k * r.width + j) n }
  else .error .bounds

end Rows

/-- A word of an array. -/
def word (a : List ℕ) (i : ℕ) : Except Fault ℕ :=
  match a[i]? with
  | some wc => .ok wc
  | none => .error .bounds

/-- The two strings, and whether neighbours can be exchanged. -/
structure LevArgs where
  a : List ℕ
  b : List ℕ
  damerau : Bool

namespace LevArgs

variable (l : LevArgs)

/-- `alen`, an `int`. -/
def alen : ℤ := asInt (utf8WcStrlen l.a)

/-- `blen`, an `int`. -/
def blen : ℤ := asInt (utf8WcStrlen l.b)

/-- `nrows`. -/
def nrows : ℕ := if l.damerau then 3 else 2

/-- What `calloc` is asked for, which is counted in `int`s. Where the count
is not positive no row has a cell. -/
def callocRows : Except Fault Rows := do
  let width ← intOp (l.blen + 1)
  let count ← intOp (l.nrows * width)
  .ok ⟨width.toNat, List.replicate count.toNat 0⟩

/-- The loop that fills the first row. -/
def initLoop : ℕ → ℕ → Rows → Except Fault Rows
  | 0, _, rows => .ok rows
  | k + 1, i, rows => rows.set 0 i i >>= initLoop k (i + 1)

/-- The transposition: what is left of `n`. -/
def transposition (i idx j cost n : ℕ) (rows : Rows) : Except Fault ℕ :=
  if l.damerau ∧ 0 < i ∧ 0 < j then do
    let ai ← word l.a i
    let bj' ← word l.b (j - 1)
    let ai' ← word l.a (i - 1)
    let bj ← word l.b j
    if utf8WcToupper ai = utf8WcToupper bj' ∧ utf8WcToupper ai' = utf8WcToupper bj then do
      let t ← rows.get ((idx + 1) % l.nrows) (j - 1)
      .ok (min n ((t + cost) % 2 ^ 32))
    else .ok n
  else .ok n

/-- The body of the loop over the columns. A cell is `unsigned`. -/
def cell (i idx j : ℕ) (rows : Rows) : Except Fault Rows := do
  let prev := (idx + l.nrows - 1) % l.nrows
  let ai ← word l.a i
  let bj ← word l.b j
  let cost := if utf8WcToupper ai = utf8WcToupper bj then 0 else 1
  let deletion ← rows.get prev (j + 1)
  let insertion ← rows.get idx j
  let substitution ← rows.get prev j
  let n := min (min ((deletion + 1) % 2 ^ 32) ((insertion + 1) % 2 ^ 32))
    ((substitution + cost) % 2 ^ 32)
  let n ← l.transposition i idx j cost n rows
  rows.set idx (j + 1) n

/-- The loop over the columns. -/
def rowLoop (i idx : ℕ) : ℕ → ℕ → Rows → Except Fault Rows
  | 0, _, rows => .ok rows
  | k + 1, j, rows => l.cell i idx j rows >>= rowLoop i idx k (j + 1)

/-- The loop over the rows; `dist` is an `int`. -/
def rowsLoop : ℕ → ℕ → ℕ → Rows → ℤ → Except Fault ℤ
  | 0, _, _, _, dist => .ok dist
  | k + 1, i, idx, rows, _ => do
    let rows ← rows.set idx 0 (i + 1)
    let rows ← l.rowLoop i idx l.blen.toNat 0 rows
    let dist ← rows.get idx l.blen.toNat
    rowsLoop k (i + 1) ((idx + 1) % l.nrows) rows (asInt dist)

end LevArgs

/-- `dico_levenshtein_distance`, with what is in `dist` before anything is
stored there. There is memory for what can be asked for. -/
def dicoLevenshteinDistance (dist : ℤ) (astr bstr : Bytes) (flags : ℕ) : Except Fault ℤ :=
  match levConv flags astr, levConv flags bstr with
  | some a, some b => do
    let l : LevArgs := ⟨a, b, flags &&& levDamerau ≠ 0⟩
    let rows ← l.callocRows
    let rows ← LevArgs.initLoop rows.width 0 rows
    l.rowsLoop l.alen.toNat 0 1 rows dist
  | _, _ => .ok (-1)

/-- `lev_sel`, with the threshold `levenshtein_distance`, and with `flags`
in the strategy's closure. -/
def levSel (dist : ℤ) (levenshteinDistance flags : ℕ) (cmd : SelectCmd)
    (key dictWord : Bytes) : Except Fault Bool :=
  match cmd with
  | .run => do
    let dist ← dicoLevenshteinDistance dist key dictWord flags
    .ok (decide (0 ≤ dist ∧ dist ≤ levenshteinDistance))
  | _ => .ok false

example : dicoLevenshteinDistance (-7) (ascii "kitten") (ascii "Sitting") 0 = .ok 3 := by
  decide +kernel

example : dicoLevenshteinDistance (-7) (ascii "ab  c") (ascii "ba c") 3 = .ok 1 := by
  decide +kernel

/-! ## What is compared -/

/-- Every run of blanks replaced by one space. -/
def squeeze : List ℕ → List ℕ
  | [] => []
  | wc :: ws =>
    if isNormWs wc then 32 :: squeeze (ws.dropWhile isNormWs) else wc :: squeeze ws
termination_by ws => ws.length
decreasing_by
  · exact Nat.lt_succ_of_le (List.dropWhile_suffix _).length_le
  · exact Nat.lt_succ_self _

/-- The code points of a string, as the flags ask for them. -/
def compared (flags : ℕ) (ws : List ℕ) : List ℕ :=
  (if flags &&& levNorm ≠ 0 then squeeze ws else ws).map utf8WcToupper

section Conversion

variable {ws : List ℕ} {flags : ℕ}

/-- Squeezing leaves something of something. -/
theorem squeeze_eq_nil : squeeze ws = [] ↔ ws = [] := by
  cases ws with
  | nil => rw [squeeze]
  | cons wc ws =>
    rw [squeeze]
    split_ifs <;> simp

/-- What is compared of something is something. -/
theorem compared_eq_nil : compared flags ws = [] ↔ ws = [] := by
  rw [compared, List.map_eq_nil_iff]
  split_ifs
  · exact squeeze_eq_nil
  · exact Iff.rfl

/-- Squeezing keeps code points. -/
theorem Codepoints.squeeze (h : Codepoints ws) : Codepoints (squeeze ws) := by
  fun_induction Dico.squeeze ws with
  | case1 => exact h
  | case2 wc ws _ ih =>
    have hws : Codepoints (ws.dropWhile isNormWs) := fun wd hwd =>
      h wd (List.mem_cons_of_mem wc ((List.dropWhile_suffix _).subset hwd))
    exact codepoints_cons.2 ⟨by decide, ih hws⟩
  | case3 wc ws _ ih =>
    exact codepoints_cons.2 ⟨(codepoints_cons.1 h).1, ih (codepoints_cons.1 h).2⟩

/-- **The loop squeezes.** In a run of blanks, the rest of the run is
skipped first. -/
theorem normLoop_encode (h : Codepoints ws) {fuel : ℕ}
    (hfuel : (ws.flatMap Utf8.encode).length ≤ fuel) (inws : Bool) :
    normLoop fuel (ws.flatMap Utf8.encode) inws =
      some (squeeze (if inws then ws.dropWhile isNormWs else ws)) := by
  induction ws generalizing fuel inws with
  | nil =>
    rw [List.dropWhile_nil, ite_self, List.flatMap_nil, normLoop, squeeze]
  | cons wc ws ih =>
    obtain ⟨⟨hwc₀, hwc⟩, hws⟩ := codepoints_cons.1 h
    have hdec := utf8Mbtowc_encode hwc₀ hwc (ws.flatMap Utf8.encode)
    have hdrop : (Utf8.encode wc ++ ws.flatMap Utf8.encode).drop (Utf8.encode wc).length =
        ws.flatMap Utf8.encode := List.drop_left
    have hpos := List.length_pos_of_ne_nil (Utf8.encode_ne_nil wc)
    rw [List.flatMap_cons] at hfuel ⊢
    rw [List.length_append] at hfuel
    obtain ⟨fuel, rfl⟩ : ∃ k, fuel = k + 1 := ⟨fuel - 1, by omega⟩
    have hrest := ih hws (show (ws.flatMap Utf8.encode).length ≤ fuel by omega)
    obtain ⟨b, r, hbr⟩ := Utf8.encode_append wc (ws.flatMap Utf8.encode)
    rw [hbr] at hdec hdrop ⊢
    rw [normLoop, hdec]
    simp only [Option.bind_eq_bind, Option.bind_some, hdrop, hrest]
    -- of blanks in a row the first is kept, as a space
    by_cases hblank : isNormWs wc = true
    · have hone : (Utf8.encode wc).length = 1 := by
        simp only [isNormWs, Bool.or_eq_true, decide_eq_true_eq] at hblank
        rw [Utf8.encode_one (by omega)]
        rfl
      rw [if_pos ⟨hone, hblank⟩, List.dropWhile_cons_of_pos hblank]
      cases inws with
      | true => rfl
      | false =>
        rw [if_neg Bool.false_ne_true, if_neg Bool.false_ne_true, squeeze, if_pos hblank]
        rfl
    · rw [if_neg fun hc => hblank hc.2, List.dropWhile_cons_of_neg hblank, ite_self, squeeze,
        if_neg hblank]
      rfl

/-- **What is compared.** The array of a string that can be decoded, up to
its zero. -/
theorem levConv_encode (flags : ℕ) (h : Codepoints ws) :
    ∃ ks n, levConv flags (ws.flatMap Utf8.encode) = some (ks ++ List.replicate (n + 1) 0) ∧
      Codepoints ks ∧ compared flags ws = ks.map utf8WcToupper := by
  unfold levConv compared
  split_ifs with hnorm
  · refine ⟨squeeze ws, 0, ?_, h.squeeze, rfl⟩
    have hloop := normLoop_encode h le_rfl false
    rw [if_neg Bool.false_ne_true] at hloop
    rw [utf8MbstrToNormWc, hloop]
    rfl
  · have hle := length_le_encode ws
    refine ⟨ws, (ws.flatMap Utf8.encode).length - ws.length, ?_, h, rfl⟩
    rw [utf8MbstrToWcN_encode h, Option.map_some, Nat.sub_add_comm hle]

end Conversion

/-! ## The rows -/

namespace Rows

/-- A block of `n` rows. -/
def Sized (n : ℕ) (r : Rows) : Prop := r.cells.length = n * r.width

/-- A row that holds the values of a function in its first columns. -/
def Holds (r : Rows) (k c : ℕ) (f : ℕ → ℕ) : Prop := ∀ j < c, r.get k j = .ok (f j)

variable {r r' : Rows} {n k j c v : ℕ} {f : ℕ → ℕ}

/-- Two cells of a block are the same only in the same row and column. -/
theorem index_inj {w k' j' : ℕ} (hj : j < w) (hj' : j' < w) (h : k * w + j = k' * w + j') :
    k = k' ∧ j = j' := by
  have hk : ∀ {k j : ℕ}, j < w → (k * w + j) / w = k := by
    intro k j hj
    rw [Nat.mul_comm, Nat.mul_add_div (by omega), Nat.div_eq_of_lt hj, Nat.add_zero]
  have hdiv := congrArg (· / w) h
  simp only [hk hj, hk hj'] at hdiv
  subst hdiv
  exact ⟨rfl, by omega⟩

/-- **A cell is written**, and no other one. -/
theorem set_spec (hr : r.Sized n) (hk : k < n) (hj : j < r.width) (v : ℕ) :
    ∃ r', r.set k j v = .ok r' ∧ r'.Sized n ∧ r'.width = r.width ∧ r'.get k j = .ok v ∧
      ∀ k' j', j' < r.width → (k' ≠ k ∨ j' ≠ j) → r'.get k' j' = r.get k' j' := by
  have hin : k * r.width + j < r.cells.length := by
    rw [hr]
    calc k * r.width + j < k * r.width + r.width := Nat.add_lt_add_left hj _
      _ = (k + 1) * r.width := (Nat.succ_mul k r.width).symm
      _ ≤ n * r.width := Nat.mul_le_mul_right _ hk
  refine ⟨_, if_pos hin, ?_, rfl, ?_, ?_⟩
  · rw [Sized, List.length_set]
    exact hr
  · simp only [get, List.getElem?_set_self hin]
  · intro k' j' hj' hne
    have hidx : k * r.width + j ≠ k' * r.width + j' := by
      intro heq
      obtain ⟨rfl, rfl⟩ := index_inj hj hj' heq
      rcases hne with h | h
      · exact h rfl
      · exact h rfl
    simp only [get, List.getElem?_set_ne hidx]

/-- A row grows by the cell behind it. -/
theorem Holds.succ (h : r.Holds k c f) (hc : r.get k c = .ok (f c)) : r.Holds k (c + 1) f := by
  intro j hj
  rcases Nat.lt_succ_iff_lt_or_eq.1 hj with hlt | rfl
  · exact h j hlt
  · exact hc

end Rows

namespace LevArgs

/-- **The first row is filled.** -/
theorem initLoop_spec {n k i : ℕ} {r : Rows} (hr : r.Sized n) (hn : 0 < n)
    (hk : i + k = r.width) (hrow : r.Holds 0 i id) :
    ∃ r', initLoop k i r = .ok r' ∧ r'.Sized n ∧ r'.width = r.width ∧ r'.Holds 0 r.width id := by
  induction k generalizing i r with
  | zero =>
    rw [Nat.add_zero] at hk
    exact ⟨r, rfl, hr, rfl, hk ▸ hrow⟩
  | succ k ih =>
    obtain ⟨r₁, hset, hr₁, hw, hcell, hother⟩ := Rows.set_spec hr hn (show i < r.width by omega) i
    have hrow₁ : r₁.Holds 0 (i + 1) id := by
      refine Rows.Holds.succ ?_ hcell
      intro j hj
      rw [hother 0 j (by omega) (.inr (by omega))]
      exact hrow j hj
    obtain ⟨r', hrun, hr', hw', hrow'⟩ := ih hr₁ (by omega) hrow₁
    rw [hw] at hw' hrow'
    refine ⟨r', ?_, hr', hw', hrow'⟩
    rw [initLoop, hset]
    exact hrun

/-- The arguments hold two lists of code points in upper case, as far as the
lengths go. -/
structure Reads (l : LevArgs) (A B : List ℕ) : Prop where
  alen : l.alen.toNat = A.length
  blen : l.blen = B.length
  a : ∀ i < A.length, ∃ wc, word l.a i = .ok wc ∧ A[i]? = some (utf8WcToupper wc)
  b : ∀ j < B.length, ∃ wc, word l.b j = .ok wc ∧ B[j]? = some (utf8WcToupper wc)

/-- What the rows hold when row `i + 1` of the table has come to column `c`:
row `i`, and row `i - 1` where it is still needed. -/
structure Table (l : LevArgs) (A B : List ℕ) (i c : ℕ) (r : Rows) : Prop where
  sized : r.Sized l.nrows
  width : r.width = B.length + 1
  above : r.Holds (i % l.nrows) (B.length + 1) (table l.damerau A B i)
  older : l.damerau = true → ∀ i', i = i' + 1 →
    r.Holds (i' % l.nrows) (B.length + 1) (table l.damerau A B i')
  here : r.Holds ((i + 1) % l.nrows) c (table l.damerau A B (i + 1))

variable {l : LevArgs} {A B : List ℕ} {i j : ℕ} {r : Rows}

/-- The lengths are below 2³¹. -/
theorem Reads.lt (hl : l.Reads A B) : A.length < 2 ^ 31 ∧ B.length < 2 ^ 31 := by
  obtain ⟨-, ha⟩ := asInt_bounds (utf8WcStrlen l.a)
  obtain ⟨-, hb⟩ := asInt_bounds (utf8WcStrlen l.b)
  have halen := hl.alen
  have hblen := hl.blen
  unfold LevArgs.alen at halen
  unfold LevArgs.blen at hblen
  omega

/-- **Every cell of the table has a place in an `int`.** -/
theorem Reads.table_lt (hl : l.Reads A B) (i j : ℕ) : table l.damerau A B i j < 2 ^ 31 := by
  obtain ⟨ha, hb⟩ := hl.lt
  have hle := @EditDistance.distance_le_max _ _ l.damerau (A.take i).reverse (B.take j).reverse
  have hi : (A.take i).length ≤ A.length := List.length_take_le' i A
  have hj : (B.take j).length ≤ B.length := List.length_take_le' j B
  rw [List.length_reverse, List.length_reverse] at hle
  exact hle.trans_lt (by omega)

/-- And does not wrap with the cost of an edit. -/
theorem Reads.wrap (hl : l.Reads A B) (i j : ℕ) {cost : ℕ} (hcost : cost ≤ 1) :
    (table l.damerau A B i j + cost) % 2 ^ 32 = table l.damerau A B i j + cost := by
  have hlt := hl.table_lt i j
  exact Nat.mod_eq_of_lt (by omega)

/-- The cost of a substitution. -/
theorem cost_le (x y : ℕ) : (if x = y then 0 else 1) ≤ 1 := by
  split_ifs
  · exact Nat.zero_le 1
  · exact le_rfl

/-- Where the rows are: the one above, and the one above that. -/
theorem slots (l : LevArgs) (i : ℕ) :
    ((i + 1) % l.nrows + l.nrows - 1) % l.nrows = i % l.nrows ∧
      (i + 1) % l.nrows < l.nrows ∧ i % l.nrows ≠ (i + 1) % l.nrows ∧
      (l.damerau = true → ∀ i', i = i' + 1 →
        ((i + 1) % l.nrows + 1) % l.nrows = i' % l.nrows ∧
          i' % l.nrows ≠ (i + 1) % l.nrows) := by
  unfold nrows
  cases l.damerau with
  | false =>
    refine ⟨?_, ?_, ?_, (fun h => nomatch h)⟩
    · simp only [Bool.false_eq_true, if_false]
      omega
    · simp only [Bool.false_eq_true, if_false]
      omega
    · simp only [Bool.false_eq_true, if_false]
      omega
  | true =>
    simp only [if_true]
    refine ⟨by omega, by omega, by omega, fun _ i' hi => ⟨by omega, by omega⟩⟩

/-- **One more cell of a row is written**; the rows above it stay. -/
theorem Table.write {c : ℕ} (ht : l.Table A B i c r) (hc : c ≤ B.length) :
    ∃ r', r.set ((i + 1) % l.nrows) c (table l.damerau A B (i + 1) c) = .ok r' ∧
      l.Table A B i (c + 1) r' := by
  obtain ⟨-, hlt, hne, holder⟩ := slots l i
  have hw := ht.width
  obtain ⟨r', hset, hsized, hwidth, hcell, hother⟩ :=
    Rows.set_spec ht.sized hlt (show c < r.width by omega) (table l.damerau A B (i + 1) c)
  refine ⟨r', hset, hsized, hwidth.trans hw, ?_, ?_, ?_⟩
  · intro j hj
    rw [hother _ j (by omega) (.inl hne)]
    exact ht.above j hj
  · intro hdam i' hi' j hj
    rw [hother _ j (by omega) (.inl (holder hdam i' hi').2)]
    exact ht.older hdam i' hi' j hj
  · refine Rows.Holds.succ ?_ hcell
    intro j hj
    rw [hother _ j (by omega) (.inr (by omega))]
    exact ht.here j hj

/-- **The transposition.** -/
theorem transposition_spec (hl : l.Reads A B) (ht : l.Table A B i (j + 1) r) (hi : i < A.length)
    (hj : j < B.length) {ai bj : ℕ} (hai : word l.a i = .ok ai) (hbj : word l.b j = .ok bj)
    (hA : A[i]? = some (utf8WcToupper ai)) (hB : B[j]? = some (utf8WcToupper bj)) :
    l.transposition i ((i + 1) % l.nrows) j
      (if utf8WcToupper ai = utf8WcToupper bj then 0 else 1)
      (min (min (table l.damerau A B i (j + 1) + 1) (table l.damerau A B (i + 1) j + 1))
        (table l.damerau A B i j + if utf8WcToupper ai = utf8WcToupper bj then 0 else 1)) r =
      .ok (table l.damerau A B (i + 1) (j + 1)) := by
  unfold transposition
  by_cases hcond : l.damerau = true ∧ 0 < i ∧ 0 < j
  · obtain ⟨hdam, hi₀, hj₀⟩ := hcond
    obtain ⟨i, rfl⟩ : ∃ i', i = i' + 1 := ⟨i - 1, by omega⟩
    obtain ⟨j, rfl⟩ : ∃ j', j = j' + 1 := ⟨j - 1, by omega⟩
    obtain ⟨ai', hai', hA'⟩ := hl.a i (by omega)
    obtain ⟨bj', hbj', hB'⟩ := hl.b j (by omega)
    -- the row two above is still there: three rows are kept with transpositions
    have hslot := (slots l (i + 1)).2.2.2 hdam i rfl
    have hcell := ht.older hdam i rfl j (by omega)
    rw [if_pos ⟨hdam, hi₀, hj₀⟩]
    simp only [Nat.add_sub_cancel, hai, hbj, hai', hbj', ok_bind, hslot.1, hcell]
    by_cases hswap : utf8WcToupper ai = utf8WcToupper bj' ∧ utf8WcToupper ai' = utf8WcToupper bj
    · rw [if_pos hswap, hl.wrap i j (cost_le _ _)]
      rw [← hswap.1] at hB'
      rw [hswap.2] at hA'
      rw [EditDistance.table_swap hdam hA hB hA' hB']
    · rw [if_neg hswap, EditDistance.table_succ hA hB]
      rintro i' j' hi' hj' ⟨-, hy, hx⟩
      obtain rfl := Nat.succ.inj hi'
      obtain rfl := Nat.succ.inj hj'
      rw [hB'] at hy
      rw [hA'] at hx
      exact hswap ⟨(Option.some.inj hy).symm, Option.some.inj hx⟩
  · rw [if_neg hcond, EditDistance.table_succ hA hB]
    rintro i' j' rfl rfl ⟨hdam, -⟩
    exact hcond ⟨hdam, Nat.succ_pos i', Nat.succ_pos j'⟩

/-- **A cell of the table is filled.** -/
theorem cell_spec (hl : l.Reads A B) (ht : l.Table A B i (j + 1) r) (hi : i < A.length)
    (hj : j < B.length) :
    ∃ r', l.cell i ((i + 1) % l.nrows) j r = .ok r' ∧ l.Table A B i (j + 2) r' := by
  obtain ⟨ai, hai, hA⟩ := hl.a i hi
  obtain ⟨bj, hbj, hB⟩ := hl.b j hj
  have hn := transposition_spec hl ht hi hj hai hbj hA hB
  obtain ⟨r', hset, ht'⟩ := ht.write (show j + 1 ≤ B.length by omega)
  refine ⟨r', ?_, ht'⟩
  rw [cell, (slots l i).1]
  simp only [hai, hbj, ok_bind, ht.above (j + 1) (by omega), ht.above j (by omega),
    ht.here j (by omega), hl.wrap _ _ le_rfl, hl.wrap _ _ (cost_le _ _), hn]
  exact hset

/-- **A row of the table is filled.** -/
theorem rowLoop_spec (hl : l.Reads A B) {k : ℕ} (ht : l.Table A B i (j + 1) r)
    (hi : i < A.length) (hk : j + k = B.length) :
    ∃ r', l.rowLoop i ((i + 1) % l.nrows) k j r = .ok r' ∧ l.Table A B i (B.length + 1) r' := by
  induction k generalizing j r with
  | zero =>
    rw [Nat.add_zero] at hk
    exact ⟨r, rfl, hk ▸ ht⟩
  | succ k ih =>
    obtain ⟨r₁, hcell, ht₁⟩ := cell_spec hl ht hi (by omega)
    obtain ⟨r', hrun, ht'⟩ := ih ht₁ (by omega)
    refine ⟨r', ?_, ht'⟩
    rw [rowLoop, hcell]
    exact hrun

/-- The rows go around. -/
theorem Table.next (ht : l.Table A B i (B.length + 1) r) :
    l.Table A B (i + 1) 0 r := by
  refine ⟨ht.sized, ht.width, ?_, ?_, fun c hc => absurd hc (Nat.not_lt_zero c)⟩
  · exact ht.here
  · rintro - i' hi'
    obtain rfl := Nat.succ.inj hi'
    exact ht.above

/-- **The table is filled**, and the distance is its last cell. -/
theorem rowsLoop_spec (hl : l.Reads A B) {k : ℕ} (ht : l.Table A B i 0 r) (hk : i + k = A.length)
    (dist : ℤ) :
    l.rowsLoop k i ((i + 1) % l.nrows) r dist =
      .ok (if k = 0 then dist else table l.damerau A B A.length B.length) := by
  induction k generalizing i r dist with
  | zero => rfl
  | succ k ih =>
    obtain ⟨r₁, hset, ht₁⟩ := ht.write (Nat.zero_le _)
    rw [EditDistance.table_zero_right (show i + 1 ≤ A.length by omega)] at hset
    obtain ⟨r₂, hrow, ht₂⟩ := rowLoop_spec hl ht₁ (by omega) (Nat.zero_add _)
    have hdist := ht₂.here B.length (Nat.lt_succ_self _)
    have hint : asInt (table l.damerau A B (i + 1) B.length) =
        table l.damerau A B (i + 1) B.length := by
      rw [asInt_eq_iff]
      exact hl.table_lt (i + 1) B.length
    rw [rowsLoop, hset, ok_bind, hl.blen, Int.toNat_natCast, hrow, ok_bind, hdist, ok_bind,
      Nat.mod_add_mod, ih ht₂.next (by omega), if_neg (Nat.succ_ne_zero k), hint]
    split_ifs with hlast
    · rw [show i + 1 = A.length by omega]
    · rfl

/-- **There are rows** for a string if their cells can be counted. -/
theorem callocRows_eq (hl : l.Reads A B) (hcells : l.nrows * (B.length + 1) < 2 ^ 31) :
    l.callocRows = .ok ⟨B.length + 1, List.replicate (l.nrows * (B.length + 1)) 0⟩ := by
  have hpos : 0 < l.nrows := by
    unfold nrows
    split_ifs
    · decide
    · decide
  have hle : B.length + 1 ≤ l.nrows * (B.length + 1) := Nat.le_mul_of_pos_left _ hpos
  have hwidth : intOp ((B.length : ℤ) + 1) = .ok ((B.length + 1 : ℕ) : ℤ) :=
    intOp_ok (by omega) (by omega)
  have hcount : intOp ((l.nrows : ℤ) * ((B.length + 1 : ℕ) : ℤ)) =
      .ok ((l.nrows * (B.length + 1) : ℕ) : ℤ) := by
    rw [← Nat.cast_mul]
    exact intOp_ok (by omega) (by omega)
  rw [callocRows, hl.blen, hwidth, ok_bind, hcount, ok_bind, Int.toNat_natCast, Int.toNat_natCast]

/-- **The two loops.** -/
theorem loops_spec (hl : l.Reads A B) (hcells : l.nrows * (B.length + 1) < 2 ^ 31) (dist : ℤ) :
    (l.callocRows >>= fun rows => initLoop rows.width 0 rows >>= fun rows =>
        l.rowsLoop l.alen.toNat 0 1 rows dist) =
      .ok (if A = [] then dist else distance l.damerau A B) := by
  have hlt : 1 < l.nrows := by
    unfold nrows
    split_ifs
    · decide
    · decide
  have hsized : Rows.Sized l.nrows ⟨B.length + 1, List.replicate (l.nrows * (B.length + 1)) 0⟩ :=
    List.length_replicate
  obtain ⟨r, hinit, hr, hwidth, hrow⟩ := initLoop_spec hsized (by omega)
    (Nat.zero_add (B.length + 1)) (fun j hj => absurd hj (Nat.not_lt_zero j))
  have ht : l.Table A B 0 0 r := by
    refine ⟨hr, hwidth, ?_, (fun _ i' hi' => nomatch hi'),
      fun j hj => absurd hj (Nat.not_lt_zero j)⟩
    intro j hj
    rw [Nat.zero_mod, EditDistance.table_zero_left (by omega)]
    exact hrow j hj
  have hrun := rowsLoop_spec hl ht (Nat.zero_add A.length) dist
  rw [Nat.zero_add, Nat.mod_eq_of_lt hlt] at hrun
  rw [callocRows_eq hl hcells, ok_bind, hinit, ok_bind, hl.alen, hrun, EditDistance.table_length]
  simp only [List.length_eq_zero_iff]

/-- The words of an array. -/
theorem word_append {ks : List ℕ} {i n : ℕ} (hi : i < (ks.map utf8WcToupper).length) :
    ∃ wc, word (ks ++ List.replicate n 0) i = .ok wc ∧
      (ks.map utf8WcToupper)[i]? = some (utf8WcToupper wc) := by
  rw [List.length_map] at hi
  refine ⟨ks[i], ?_, ?_⟩
  · rw [word, List.getElem?_append_left hi, List.getElem?_eq_getElem hi]
  · rw [List.getElem?_map, List.getElem?_eq_getElem hi, Option.map_some]

/-- The length of an array. -/
theorem utf8WcStrlen_append {ks : List ℕ} (h : Codepoints ks) (n : ℕ) :
    utf8WcStrlen (ks ++ List.replicate n 0) = (ks.map utf8WcToupper).length := by
  have htake := congrArg List.length (take_utf8WcStrlen h (n := n))
  have hlen : utf8WcStrlen (ks ++ List.replicate n 0) ≤ (ks ++ List.replicate n 0).length :=
    (List.takeWhile_prefix _).length_le
  rw [List.length_take, Nat.min_eq_left hlen] at htake
  rw [htake, List.length_map]

end LevArgs

/-! ## What the program computes -/

/-- The beginning of a string that its length leads to, as the `int` it is
kept in. -/
def counted (ws : List ℕ) : List ℕ := ws.take (asInt ws.length).toNat

/-- `nrows`, as the flags ask for them. -/
def levRows (flags : ℕ) : ℕ := if flags &&& levDamerau ≠ 0 then 3 else 2

/-- There are rows for a string: its length is not negative as an `int`, and
the number of cells is an `int`. -/
def RowsFit (flags : ℕ) (ws : List ℕ) : Prop :=
  0 ≤ asInt ws.length ∧ levRows flags * (asInt ws.length + 1) < 2 ^ 31

section Counted

variable {ws us : List ℕ} {flags : ℕ}

/-- The length that is counted. -/
theorem length_counted (ws : List ℕ) : (counted ws).length = (asInt ws.length).toNat := by
  have hle := asInt_le ws.length
  rw [counted, List.length_take]
  omega

/-- A string with fewer than 2³¹ characters is counted to its end. -/
theorem counted_of_lt (h : ws.length < 2 ^ 31) : counted ws = ws := by
  rw [counted, (asInt_eq_iff _).2 h, Int.toNat_natCast, List.take_length]

/-- **Rows for a string** that an `int` can count. -/
theorem rowsFit_of_lt (h : levRows flags * (ws.length + 1) < 2 ^ 31) :
    ws.length < 2 ^ 31 ∧ RowsFit flags ws := by
  have hrows : 1 ≤ levRows flags := by
    unfold levRows
    split_ifs
    · decide
    · decide
  have hle : ws.length + 1 ≤ levRows flags * (ws.length + 1) := Nat.le_mul_of_pos_left _ hrows
  have hlt : ws.length < 2 ^ 31 := by omega
  refine ⟨hlt, ?_, ?_⟩
  · rw [(asInt_eq_iff _).2 hlt]
    exact Int.natCast_nonneg _
  · rw [(asInt_eq_iff _).2 hlt]
    exact_mod_cast h

/-- And for one that has as many characters as an `int` says. -/
theorem lt_of_rowsFit (h : RowsFit flags ws) (hlen : asInt ws.length = ws.length) :
    levRows flags * (ws.length + 1) < 2 ^ 31 := by
  have hcells := h.2
  rw [hlen] at hcells
  exact_mod_cast hcells

end Counted

section Distance

variable {ws us : List ℕ} {flags : ℕ}

/-- The arguments of the loops. -/
theorem reads_compared (hws : Codepoints ws) (hus : Codepoints us)
    (hlen : 0 ≤ asInt (compared flags us).length) :
    ∃ l : LevArgs, levConv flags (ws.flatMap Utf8.encode) = some l.a ∧
      levConv flags (us.flatMap Utf8.encode) = some l.b ∧
      l.damerau = decide (flags &&& levDamerau ≠ 0) ∧
      l.Reads (counted (compared flags ws)) (counted (compared flags us)) := by
  obtain ⟨ks, m, hka, hks, hA⟩ := levConv_encode flags hws
  obtain ⟨ls, n, hlb, hls, hB⟩ := levConv_encode flags hus
  refine ⟨⟨_, _, decide (flags &&& levDamerau ≠ 0)⟩, hka, hlb, rfl, ?_, ?_, ?_, ?_⟩
  · rw [length_counted, hA, LevArgs.alen, LevArgs.utf8WcStrlen_append hks]
  · rw [length_counted, LevArgs.blen, LevArgs.utf8WcStrlen_append hls, ← hB,
      Int.toNat_of_nonneg hlen]
  · intro i hi
    rw [counted] at hi ⊢
    obtain ⟨hlt, hle⟩ := Nat.lt_min.1 (List.length_take ▸ hi)
    rw [List.getElem?_take_of_lt hlt, hA]
    exact LevArgs.word_append (hA ▸ hle)
  · intro j hj
    rw [counted] at hj ⊢
    obtain ⟨hlt, hle⟩ := Nat.lt_min.1 (List.length_take ▸ hj)
    rw [List.getElem?_take_of_lt hlt, hB]
    exact LevArgs.word_append (hB ▸ hle)

/-- **What the program computes**, where there are rows: the distance of
what is counted, or whatever was on the stack if that is nothing. -/
theorem dicoLevenshteinDistance_encode (hws : Codepoints ws) (hus : Codepoints us)
    (hfit : RowsFit flags (compared flags us)) (dist : ℤ) :
    dicoLevenshteinDistance dist (ws.flatMap Utf8.encode) (us.flatMap Utf8.encode) flags =
      .ok (if counted (compared flags ws) = [] then dist
        else distance (flags &&& levDamerau ≠ 0) (counted (compared flags ws))
          (counted (compared flags us))) := by
  obtain ⟨hlen, hcells⟩ := hfit
  obtain ⟨⟨a, b, _⟩, ha, hb, rfl, hl⟩ := @reads_compared _ _ flags hws hus hlen
  have hrows : LevArgs.nrows ⟨a, b, decide (flags &&& levDamerau ≠ 0)⟩ = levRows flags := by
    unfold LevArgs.nrows levRows
    simp only [decide_eq_true_eq]
  have hrun := LevArgs.loops_spec hl (by
    rw [hrows, length_counted]
    rw [← Int.toNat_of_nonneg hlen] at hcells
    exact_mod_cast hcells) dist
  rw [dicoLevenshteinDistance, ha, hb]
  exact hrun

/-- **Without rows** the program returns nothing, or what was on the stack. -/
theorem dicoLevenshteinDistance_unfit (hws : Codepoints ws) (hus : Codepoints us)
    (hfit : ¬RowsFit flags (compared flags us)) (v : ℤ) :
    ¬∀ dist, dicoLevenshteinDistance dist (ws.flatMap Utf8.encode) (us.flatMap Utf8.encode) flags =
      .ok v := by
  obtain ⟨ks, m, hka, hks, hA⟩ := levConv_encode flags hws
  obtain ⟨ls, n, hlb, hls, hB⟩ := levConv_encode flags hus
  intro h
  have hrun := h (v + 1)
  rw [dicoLevenshteinDistance, hka, hlb] at hrun
  obtain ⟨rows, hrows, hrun⟩ := bind_eq_ok.1 hrun
  obtain ⟨width, hwidth, hrows⟩ := bind_eq_ok.1 hrows
  obtain ⟨count, hcount, hrows⟩ := bind_eq_ok.1 hrows
  obtain ⟨-, rfl⟩ := intOp_eq_ok.1 hwidth
  obtain ⟨hle, rfl⟩ := intOp_eq_ok.1 hcount
  obtain rfl := Except.ok.inj hrows
  rw [LevArgs.blen, LevArgs.utf8WcStrlen_append hls, ← hB] at hle hrun
  have hneg : asInt (compared flags us).length < 0 := by
    by_contra hpos
    refine hfit ⟨not_lt.1 hpos, ?_⟩
    have hnrows : ((LevArgs.nrows ⟨ks ++ List.replicate (m + 1) 0, ls ++ List.replicate (n + 1) 0,
        decide (flags &&& levDamerau ≠ 0)⟩ : ℕ) : ℤ) = levRows flags := by
      unfold LevArgs.nrows levRows
      simp only [decide_eq_true_eq]
    rw [hnrows] at hle
    exact hle.2
  -- no row has a cell
  have hcells : ∀ k : ℕ, ((k : ℤ) * (asInt (compared flags us).length + 1)).toNat = 0 := by
    intro k
    exact Int.toNat_of_nonpos (mul_nonpos_of_nonneg_of_nonpos (Int.natCast_nonneg k) (by omega))
  have hzero : (asInt (compared flags us).length + 1).toNat = 0 := by omega
  rw [hcells, hzero] at hrun
  cases hk : LevArgs.alen ⟨ks ++ List.replicate (m + 1) 0, ls ++ List.replicate (n + 1) 0,
      decide (flags &&& levDamerau ≠ 0)⟩ |>.toNat with
  | zero =>
    rw [hk] at hrun
    have := Except.ok.inj hrun
    omega
  | succ k =>
    rw [hk] at hrun
    cases hrun

/-- **When the program computes a number**, whatever was on the stack. -/
theorem dicoLevenshteinDistance_eq_iff (hws : Codepoints ws) (hus : Codepoints us) (v : ℤ) :
    (∀ dist, dicoLevenshteinDistance dist (ws.flatMap Utf8.encode) (us.flatMap Utf8.encode) flags =
        .ok v) ↔
      counted (compared flags ws) ≠ [] ∧ RowsFit flags (compared flags us) ∧
        (distance (flags &&& levDamerau ≠ 0) (counted (compared flags ws))
          (counted (compared flags us)) : ℤ) = v := by
  by_cases hfit : RowsFit flags (compared flags us)
  · have hrun := dicoLevenshteinDistance_encode hws hus hfit
    rw [and_iff_right hfit]
    simp only [hrun]
    by_cases hnil : counted (compared flags ws) = []
    · refine iff_of_false ?_ fun h => h.1 hnil
      intro h
      have hv := Except.ok.inj (h (v + 1))
      rw [if_pos hnil] at hv
      omega
    · simp only [if_neg hnil, Except.ok.injEq]
      exact ⟨fun h => ⟨hnil, h 0⟩, fun h _ => h.2⟩
  · exact iff_of_false (dicoLevenshteinDistance_unfit hws hus hfit v) fun h => hfit h.2.1

/-- Two strings whose lengths are apart, for what is counted of the other to
be at the same distance. -/
theorem not_counted_of_far {swaps : Bool} {A B : List ℕ} (hA : A.length < 2 ^ 31)
    (hB : 2 ^ 32 + asInt B.length ≤ B.length) (hlen : 0 ≤ asInt B.length) :
    distance swaps A (counted B) ≠ distance swaps A B := by
  have hfar := @EditDistance.length_le_add_distance _ _ swaps B A
  have hnear := @EditDistance.distance_le_max _ _ swaps A (counted B)
  obtain ⟨-, hlt⟩ := asInt_bounds B.length
  rw [EditDistance.distance_comm] at hfar
  rw [length_counted] at hnear
  omega

/-- The number the program should return, whatever was on the stack. -/
def LevAgrees (flags : ℕ) (astr bstr : Bytes) (ws us : List ℕ) : Prop :=
  ∀ dist, dicoLevenshteinDistance dist astr bstr flags =
    .ok (distance (flags &&& levDamerau ≠ 0) (compared flags ws) (compared flags us))

/-- The characters of the first string and the cells for the second can be
counted in an `int`. -/
def LevFits (flags : ℕ) (A B : List ℕ) : Prop :=
  A.length < 2 ^ 31 ∧ levRows flags * (B.length + 1) < 2 ^ 31

/-- Neither string has as many characters as it is taken to have, but what
is counted of them is at the same distance. -/
def LevWraps (flags : ℕ) (A B : List ℕ) : Prop :=
  2 ^ 32 ≤ A.length ∧ 2 ^ 32 ≤ B.length ∧ counted A ≠ [] ∧ RowsFit flags B ∧
    distance (flags &&& levDamerau ≠ 0) (counted A) (counted B) =
      distance (flags &&& levDamerau ≠ 0) A B

/-- **When it does.** -/
theorem levAgrees_of_codepoints (hws : Codepoints ws) (hus : Codepoints us) (hne : ws ≠ []) :
    LevAgrees flags (ws.flatMap Utf8.encode) (us.flatMap Utf8.encode) ws us ↔
      LevFits flags (compared flags ws) (compared flags us) ∨
        LevWraps flags (compared flags ws) (compared flags us) := by
  have hnil : compared flags ws ≠ [] := fun h => hne (compared_eq_nil.1 h)
  rw [LevAgrees, dicoLevenshteinDistance_eq_iff hws hus, Nat.cast_inj]
  generalize compared flags ws = A at hnil ⊢
  generalize compared flags us = B
  constructor
  · rintro ⟨hcount, hfit, hdist⟩
    have hApos : 0 < asInt A.length := by
      by_contra hle
      refine hcount (List.eq_nil_of_length_eq_zero ?_)
      rw [length_counted]
      omega
    rcases asInt_eq_or A.length with hA | hA <;> rcases asInt_eq_or B.length with hB | hB
    · exact .inl ⟨(asInt_eq_iff _).1 hA, lt_of_rowsFit hfit hB⟩
    · have hlt := (asInt_eq_iff _).1 hA
      rw [counted_of_lt hlt] at hdist
      exact absurd hdist (not_counted_of_far hlt hB hfit.1)
    · have hlt := (asInt_eq_iff _).1 hB
      rw [counted_of_lt hlt, EditDistance.distance_comm,
        @EditDistance.distance_comm _ _ _ A] at hdist
      exact absurd hdist (not_counted_of_far hlt hA hApos.le)
    · have hBpos := hfit.1
      exact .inr ⟨by omega, by omega, hcount, hfit, hdist⟩
  · rintro (⟨hlt, hcells⟩ | ⟨-, -, hcount, hfit, hdist⟩)
    · obtain ⟨hlt', hfit⟩ := rowsFit_of_lt hcells
      rw [counted_of_lt hlt, counted_of_lt hlt']
      exact ⟨hnil, hfit, rfl⟩
    · exact ⟨hcount, hfit, hdist⟩

/-- **Edit distance.** Of a string with a code point in it and another one,
the program computes the recursive distance of what is compared, with
exchanges if the flags say so, and whatever is on the stack, exactly where
the first has fewer than 2³¹ characters and the cells for the second can be
counted in an `int`, or where both are so long that the lengths wrap and
what is counted of them happens to be at the same distance. -/
theorem levAgrees_iff {astr bstr : Bytes} (ha : utf8MbstrToWc astr = some ws)
    (hb : utf8MbstrToWc bstr = some us) (hne : ws ≠ []) (flags : ℕ) :
    LevAgrees flags astr bstr ws us ↔
      LevFits flags (compared flags ws) (compared flags us) ∨
        LevWraps flags (compared flags ws) (compared flags us) := by
  obtain ⟨hws, rfl⟩ := utf8MbstrToWc_iff.1 ha
  obtain ⟨hus, rfl⟩ := utf8MbstrToWc_iff.1 hb
  exact levAgrees_of_codepoints hws hus hne

/-- A word and one with its letters exchanged and the blank between them
written otherwise. -/
theorem levAgrees_iff_blank :
    LevAgrees 3 (ascii "ab c") (ascii "BA\t c") [97, 98, 32, 99] [66, 65, 9, 32, 99] ↔
      LevFits 3 (compared 3 [97, 98, 32, 99]) (compared 3 [66, 65, 9, 32, 99]) ∨
        LevWraps 3 (compared 3 [97, 98, 32, 99]) (compared 3 [66, 65, 9, 32, 99]) :=
  levAgrees_iff (by decide +kernel) (by decide +kernel) (by decide) 3

/-- A letter and a string of letters for which three rows have more cells
than an `int` can count. -/
theorem not_forall_levAgrees : ¬∀ (astr bstr : Bytes) (ws us : List ℕ) (flags : ℕ),
    utf8MbstrToWc astr = some ws → utf8MbstrToWc bstr = some us → ws ≠ [] →
      LevAgrees flags astr bstr ws us := by
  intro h
  have hone : Codepoints [97] := codepoints_cons.2 ⟨by decide, fun _ hc => nomatch hc⟩
  have hmany : Codepoints (List.replicate 715827882 97) := by
    intro c hc
    rw [List.eq_of_mem_replicate hc]
    decide
  have hagrees := h _ _ [97] (List.replicate 715827882 97) levDamerau
    (utf8MbstrToWc_iff.2 ⟨hone, rfl⟩) (utf8MbstrToWc_iff.2 ⟨hmany, rfl⟩) (List.cons_ne_nil _ _)
  rw [levAgrees_of_codepoints hone hmany (List.cons_ne_nil _ _)] at hagrees
  have hlen : (compared levDamerau (List.replicate 715827882 97)).length = 715827882 := by
    rw [compared, if_neg (by decide), List.length_map, List.length_replicate]
  rcases hagrees with ⟨-, hcells⟩ | ⟨hlong, -⟩
  · rw [hlen] at hcells
    exact absurd hcells (by decide)
  · have hone : (compared levDamerau [97]).length = 1 := by decide
    rw [hone] at hlong
    exact absurd hlong (by decide)

/-! ## The program as a distance -/

/-- What makes a distance of the number the program returns for two
strings, whatever is on the stack: it does not depend on their order, it is
zero for strings that compare equal, it is not beyond the longer one, and
the selector answers the same with either of them as the key. -/
structure LevMetric (flags : ℕ) (astr bstr : Bytes) (ws us : List ℕ) : Prop where
  comm : ∀ dist dist', dicoLevenshteinDistance dist astr bstr flags =
    dicoLevenshteinDistance dist' bstr astr flags
  eq_zero : ∀ dist, dicoLevenshteinDistance dist astr bstr flags = .ok 0 ↔
    compared flags ws = compared flags us
  le_max : ∀ dist, ∃ n : ℕ, dicoLevenshteinDistance dist astr bstr flags = .ok (n : ℤ) ∧
    n ≤ max (compared flags ws).length (compared flags us).length
  levSel_comm : ∀ dist dist' levenshteinDistance cmd,
    levSel dist levenshteinDistance flags cmd astr bstr =
      levSel dist' levenshteinDistance flags cmd bstr astr

/-- The characters and the cells of either string can be counted, and where
the same is counted of both, they are the same. -/
structure LevCounts (flags : ℕ) (A B : List ℕ) : Prop where
  left : counted A ≠ []
  right : counted B ≠ []
  rowsLeft : RowsFit flags A
  rowsRight : RowsFit flags B
  exact : counted A = counted B → A = B

/-- Of strings whose cells can be counted in an `int`, only the empty one is
no good. -/
theorem levCounts_of_lt {A B : List ℕ} (hA : levRows flags * (A.length + 1) < 2 ^ 31)
    (hB : levRows flags * (B.length + 1) < 2 ^ 31) :
    LevCounts flags A B ↔ A ≠ [] ∧ B ≠ [] := by
  obtain ⟨hltA, hfitA⟩ := rowsFit_of_lt hA
  obtain ⟨hltB, hfitB⟩ := rowsFit_of_lt hB
  have hcountA := counted_of_lt hltA
  have hcountB := counted_of_lt hltB
  constructor
  · intro h
    exact ⟨hcountA ▸ h.left, hcountB ▸ h.right⟩
  · rintro ⟨hneA, hneB⟩
    refine ⟨hcountA.symm ▸ hneA, hcountB.symm ▸ hneB, hfitA, hfitB, fun h => ?_⟩
    rwa [hcountA, hcountB] at h

/-- Two strings that are counted. -/
theorem levMetric_of_counts (hws : Codepoints ws) (hus : Codepoints us)
    (h : LevCounts flags (compared flags ws) (compared flags us)) :
    LevMetric flags (ws.flatMap Utf8.encode) (us.flatMap Utf8.encode) ws us := by
  have hab := dicoLevenshteinDistance_encode hws hus h.rowsRight
  have hba := dicoLevenshteinDistance_encode hus hws h.rowsLeft
  simp only [h.left, h.right, if_false] at hab hba
  refine ⟨?_, ?_, ?_, ?_⟩
  · intro dist dist'
    rw [hab, hba, EditDistance.distance_comm]
  · intro dist
    have hzero : distance (decide (flags &&& levDamerau ≠ 0)) (counted (compared flags ws))
        (counted (compared flags us)) = 0 ↔ compared flags ws = compared flags us := by
      rw [EditDistance.distance_eq_zero_iff]
      exact ⟨h.exact, congrArg counted⟩
    rw [hab, ← hzero]
    constructor
    · intro heq
      exact Int.ofNat_eq_zero.1 (Except.ok.inj heq)
    · intro heq
      rw [heq]
      rfl
  · intro dist
    have hle := @EditDistance.distance_le_max _ _ (decide (flags &&& levDamerau ≠ 0))
      (counted (compared flags ws)) (counted (compared flags us))
    refine ⟨_, hab dist, hle.trans (max_le_max ?_ ?_)⟩
    · exact List.length_take_le' _ _
    · exact List.length_take_le' _ _
  · intro dist dist' levenshteinDistance cmd
    cases cmd with
    | run => rw [levSel, levSel, hab, hba, EditDistance.distance_comm]
    | begin => rfl
    | done => rfl

/-- **When the program is a distance.** Of two strings that can be decoded,
exactly when neither is empty and their characters and cells can be counted
in `int`s; a length that wraps does no harm if it tells the strings apart
all the same. -/
theorem levMetric_iff {astr bstr : Bytes} (ha : utf8MbstrToWc astr = some ws)
    (hb : utf8MbstrToWc bstr = some us) (flags : ℕ) :
    LevMetric flags astr bstr ws us ↔ LevCounts flags (compared flags ws) (compared flags us) := by
  obtain ⟨hws, rfl⟩ := utf8MbstrToWc_iff.1 ha
  obtain ⟨hus, rfl⟩ := utf8MbstrToWc_iff.1 hb
  constructor
  · intro h
    obtain ⟨n, hn, -⟩ := h.le_max 0
    -- the number does not depend on what is on the stack, in either order
    have hba : ∀ dist, dicoLevenshteinDistance dist (us.flatMap Utf8.encode)
        (ws.flatMap Utf8.encode) flags = .ok (n : ℤ) := fun dist => (h.comm 0 dist).symm.trans hn
    have hab : ∀ dist, dicoLevenshteinDistance dist (ws.flatMap Utf8.encode)
        (us.flatMap Utf8.encode) flags = .ok (n : ℤ) := fun dist => (h.comm dist 0).trans (hba 0)
    obtain ⟨hleft, hfit, hdist⟩ := (dicoLevenshteinDistance_eq_iff hws hus n).1 hab
    obtain ⟨hright, hfit', -⟩ := (dicoLevenshteinDistance_eq_iff hus hws n).1 hba
    refine ⟨hleft, hright, hfit', hfit, fun heq => (h.eq_zero 0).1 ?_⟩
    rw [hab 0, ← hdist, (EditDistance.distance_eq_zero_iff _).2 heq]
    rfl
  · exact levMetric_of_counts hws hus

/-- Two words that are not empty. -/
theorem levMetric_iff_words :
    LevMetric 0 (ascii "cat") (ascii "cut") [99, 97, 116] [99, 117, 116] ↔
      LevCounts 0 (compared 0 [99, 97, 116]) (compared 0 [99, 117, 116]) :=
  levMetric_iff (by decide +kernel) (by decide +kernel) 0

/-- Two empty strings, with something on the stack. -/
theorem not_forall_levMetric : ¬ ∀ (astr bstr : Bytes) (ws us : List ℕ) (flags : ℕ),
    utf8MbstrToWc astr = some ws → utf8MbstrToWc bstr = some us →
      LevMetric flags astr bstr ws us := by
  intro h
  have hzero := ((h [] [] [] [] 0 rfl rfl).eq_zero 7).2 rfl
  exact absurd hzero (by decide)

end Distance

end Dico
