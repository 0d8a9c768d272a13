import Dico.List.Assoc
import Dico.List.Links
/-!
# Association lists, entry by entry

`lib/assoc.c` over the linked list of `lib/list.c`. A search passes a
closure to the comparison of the list, which counts it down at every key
that matches; so the entry found depends on how often the list asks, and
in which order. It asks about each entry once, from the head on, and the
association list is what it is for: an ordered multimap, with at most one
pair for a key unless keys may come twice.
-/

namespace Dico

open Chain

/-- `struct dico_assoc_list`. The comparison of the list takes a closure,
and is passed to the loops that search; the flags of the list are clear,
so `dico_list_append` does not use it. -/
structure DicoAssoc where
  ci : Bool
  mult : Bool
  list : DicoList (Bytes × Bytes)

namespace DicoAssoc

variable (assoc : DicoAssoc)

/-- `dico_assoc_create`. -/
def create (ci mult : Bool) : DicoAssoc := ⟨ci, mult, DicoList.create 0 none⟩

/-- The loop of `_dico_list_locate` and of `_dico_list_remove`. -/
def locate (ci : Bool) (h : Heap (Bytes × Bytes)) :
    ℕ → Option ℕ → FindClosure → Except Fault (Option ℕ)
  | 0, _, _ => .error .loop
  | _ + 1, none, _ => .ok none
  | fuel + 1, some p, clos => do
    let e ← DicoList.deref h (some p)
    let r := assocKeyCmp ci e.data clos
    if r.1 then .ok (some p) else locate ci h fuel e.next r.2

/-- `_dico_assoc_find_n`, and the search of `dico_assoc_remove_n`. -/
def entryN (key : Bytes) (n : ℕ) : Except Fault (Option ℕ) :=
  if n = 0 then .ok none
  else locate assoc.ci assoc.list.heap (assoc.list.count + 1) assoc.list.head ⟨n, key⟩

/-- `dico_assoc_find_n`. -/
def findN (key : Bytes) (n : ℕ) : Except Fault (Option Bytes) := do
  match ← assoc.entryN key n with
  | none => .ok none
  | some p => do
    let e ← DicoList.deref assoc.list.heap (some p)
    .ok (some e.data.2)

/-- `dico_assoc_remove_n`. -/
def removeN (key : Bytes) (n : ℕ) : Except Fault DicoAssoc := do
  match ← assoc.entryN key n with
  | none => .ok assoc
  | some p => do
    let (_, list) ← assoc.list.removeItem p
    .ok { assoc with list := list }

/-- Another value for the pair of an entry. -/
def setValue (p : ℕ) (value : Bytes) : Except Fault DicoAssoc := do
  let e ← DicoList.deref assoc.list.heap (some p)
  let e' := { e with data := (e.data.1, value) }
  .ok { assoc with list := { assoc.list with
    heap := Function.update assoc.list.heap p (some e') } }

/-- `dico_assoc_add`; `a` is where `dico_list_append` has its entry. -/
def add (a : ℕ) (key : Bytes) (value : Option Bytes) (count : ℕ) (replace : Bool) :
    Except Fault (ℕ × DicoAssoc) :=
  match value with
  | none => do
    let assoc ← assoc.removeN key count
    .ok (0, assoc)
  | some value => do
    match ← if assoc.mult then .ok none else assoc.entryN key count with
    | some p =>
      if replace then do
        let assoc ← assoc.setValue p value
        .ok (0, assoc)
      else .ok (1, assoc)
    | none => do
      let (rc, list) ← assoc.list.append a (key, value)
      .ok (rc, { assoc with list := list })

/-- `dico_assoc_append`. -/
def append (a : ℕ) (key value : Bytes) : Except Fault (ℕ × DicoAssoc) :=
  assoc.add a key (some value) 1 false

end DicoAssoc

/-! ## The multimap -/

/-- Whether the key of a pair matches. -/
def hasKey (ci : Bool) (key : Bytes) (pair : Bytes × Bytes) : Bool :=
  if ci then cStrcaseeq pair.1 key else pair.1 == key

/-- Where the `n`-th pair with a key is, counting from one. -/
def nthIdx (ci : Bool) (key : Bytes) (n : ℕ) (pairs : List (Bytes × Bytes)) : Option ℕ :=
  if n = 0 then none else (pairs.findIdxs (hasKey ci key))[n - 1]?

/-- The value of the `n`-th pair with a key. -/
def nthValue (ci : Bool) (key : Bytes) (n : ℕ) (pairs : List (Bytes × Bytes)) : Option Bytes :=
  (nthIdx ci key n pairs).bind fun i => pairs[i]?.map Prod.snd

/-- All pairs but the `n`-th with a key. -/
def dropNth (ci : Bool) (key : Bytes) (n : ℕ) (pairs : List (Bytes × Bytes)) :
    List (Bytes × Bytes) :=
  match nthIdx ci key n pairs with
  | none => pairs
  | some i => pairs.eraseIdx i

/-- A call of the user of an association list; `a` is the address `malloc`
returns. -/
inductive AssocOp
  | append (a : ℕ) (key value : Bytes)
  | add (a : ℕ) (key : Bytes) (value : Option Bytes) (replace : Bool)
  | removeN (key : Bytes) (n : ℕ)

/-- A pair added to a multimap: where keys may not come twice, and the key
is there, its value is replaced where it is, or the pair is refused. -/
def addPair (ci mult : Bool) (key value : Bytes) (replace : Bool) (pairs : List (Bytes × Bytes)) :
    ℕ × List (Bytes × Bytes) :=
  if mult then (0, pairs ++ [(key, value)])
  else
    match pairs.findIdx? (hasKey ci key) with
    | none => (0, pairs ++ [(key, value)])
    | some i =>
      if replace then (0, pairs.modify i fun pair => (pair.1, value)) else (1, pairs)

/-- What a call returns, and what it does to the multimap. -/
def AssocOp.apply (ci mult : Bool) :
    AssocOp → List (Bytes × Bytes) → ℕ × List (Bytes × Bytes)
  | .append _ key value, pairs => addPair ci mult key value false pairs
  | .add _ key (some value) replace, pairs => addPair ci mult key value replace pairs
  | .add _ key none _, pairs => (0, dropNth ci key 1 pairs)
  | .removeN key n, pairs => (0, dropNth ci key n pairs)

/-- What it does to the list. -/
def DicoAssoc.call : AssocOp → DicoAssoc → Except Fault (ℕ × DicoAssoc)
  | .append a key value, d => d.append a key value
  | .add a key value replace, d => d.add a key value 1 replace
  | .removeN key n, d => do
    let d ← d.removeN key n
    .ok (0, d)

/-- `malloc` returns an address that is not in use. -/
def AssocOp.Fresh (d : DicoAssoc) : AssocOp → Prop
  | .append a _ _ | .add a _ _ _ => d.list.heap a = none
  | .removeN _ _ => True

/-- A call, with the codes returned so far. -/
def assocStep (op : AssocOp) (s : List ℕ × DicoAssoc) : Except Fault (List ℕ × DicoAssoc) := do
  let (rc, d) ← s.2.call op
  .ok (s.1 ++ [rc], d)

/-- The same on the multimap. -/
def AssocOp.applyTo (ci mult : Bool) (s : List ℕ × List (Bytes × Bytes)) (op : AssocOp) :
    List ℕ × List (Bytes × Bytes) :=
  (s.1 ++ [(op.apply ci mult s.2).1], (op.apply ci mult s.2).2)

variable {ci mult : Bool} {key value : Bytes} {pairs : List (Bytes × Bytes)} {n i : ℕ}

/-! ## Counting matches -/

/-- What a comparison does to its closure. -/
theorem assocKeyCmp_eq (item : Bytes × Bytes) :
    assocKeyCmp ci item ⟨n + 1, key⟩ =
      if hasKey ci key item then (decide (n = 0), ⟨n, key⟩) else (false, ⟨n + 1, key⟩) := rfl

/-- **The countdown ends at the match that was asked for.** -/
theorem assocLocate_eq (pairs : List (Bytes × Bytes)) (n : ℕ) :
    assocLocate ci pairs ⟨n + 1, key⟩ = (pairs.findIdxs (hasKey ci key))[n]? := by
  induction pairs generalizing n with
  | nil => rfl
  | cons pair pairs ih =>
    rw [assocLocate, assocKeyCmp_eq, List.findIdxs_cons, List.findIdxs_start]
    cases hkey : hasKey ci key pair with
    | false =>
      simp only [Bool.false_eq_true, if_false, ih, List.getElem?_map]
    | true =>
      cases n with
      | zero => simp only [if_true, decide_true, List.getElem?_cons_zero]
      | succ n =>
        simp only [if_true, Nat.succ_ne_zero, decide_false, Bool.false_eq_true, if_false, ih,
          List.getElem?_cons_succ, List.getElem?_map]

/-- The match is a pair of the list. -/
theorem nthIdx_lt (h : nthIdx ci key n pairs = some i) : i < pairs.length := by
  rw [nthIdx] at h
  split_ifs at h
  obtain ⟨hlt, -⟩ := List.mem_findIdxs_iff_exists_getElem_pos.1 (List.mem_of_getElem? h)
  exact hlt

/-- The first match. -/
theorem nthIdx_one : nthIdx ci key 1 pairs = pairs.findIdx? (hasKey ci key) := by
  rw [nthIdx, if_neg Nat.one_ne_zero]
  induction pairs with
  | nil => rfl
  | cons pair pairs ih =>
    rw [List.findIdxs_cons, List.findIdxs_start, List.findIdx?_cons]
    cases hkey : hasKey ci key pair with
    | true => rfl
    | false =>
      simp only [Bool.false_eq_true, if_false, List.getElem?_map, ih]

/-! ## The list and the multimap -/

/-- No two pairs have keys that match. -/
def DistinctKeys (ci : Bool) (pairs : List (Bytes × Bytes)) : Prop :=
  pairs.Pairwise fun x y => hasKey ci y.1 x = false

theorem distinctKeys_dropNth (h : DistinctKeys ci pairs) :
    DistinctKeys ci (dropNth ci key n pairs) := by
  unfold dropNth
  split
  · exact h
  · exact List.Pairwise.sublist (List.eraseIdx_sublist _ _) h

/-- A replaced value leaves the keys. -/
theorem map_fst_modify (i : ℕ) (value : Bytes) (pairs : List (Bytes × Bytes)) :
    (pairs.modify i fun pair => (pair.1, value)).map Prod.fst = pairs.map Prod.fst := by
  induction pairs generalizing i with
  | nil => rw [List.modify_nil]
  | cons pair pairs ih =>
    cases i with
    | zero => rfl
    | succ i => rw [List.modify_succ_cons, List.map_cons, List.map_cons, ih]

theorem distinctKeys_iff_map_fst :
    DistinctKeys ci pairs ↔
      (pairs.map Prod.fst).Pairwise fun k k' => hasKey ci k' (k, []) = false := by
  rw [List.pairwise_map]
  rfl

theorem distinctKeys_addPair (h : DistinctKeys ci pairs) (replace : Bool) :
    DistinctKeys ci (addPair ci false key value replace pairs).2 := by
  unfold addPair
  rw [if_neg Bool.false_ne_true]
  cases hidx : pairs.findIdx? (hasKey ci key) with
  | none =>
    refine List.pairwise_append.2 ⟨h, List.pairwise_singleton _ _, fun x hx y hy => ?_⟩
    rw [List.mem_singleton.1 hy]
    exact List.findIdx?_eq_none_iff.1 hidx x hx
  | some i =>
    cases replace with
    | false => exact h
    | true =>
      rw [distinctKeys_iff_map_fst] at h ⊢
      simp only [if_true, map_fst_modify]
      exact h

/-- **Without `DICO_ASSOC_MULT` a call leaves at most one pair for a key.** -/
theorem distinctKeys_apply (op : AssocOp) (h : DistinctKeys ci pairs) :
    DistinctKeys ci (op.apply ci false pairs).2 := by
  cases op with
  | append a key value => exact distinctKeys_addPair h false
  | add a key value replace =>
    cases value with
    | none => exact distinctKeys_dropNth h
    | some value => exact distinctKeys_addPair h replace
  | removeN key n => exact distinctKeys_dropNth h

/-- The association list has the pairs of a multimap. -/
structure Represents (d : DicoAssoc) (ci mult : Bool) (p : PureList (Bytes × Bytes)) : Prop where
  refines : Refines d.list p
  comp : p.comp = none
  ci : d.ci = ci
  mult : d.mult = mult

namespace Represents

variable {d : DicoAssoc} {p : PureList (Bytes × Bytes)} {a : ℕ}

/-- The search goes from the head on, and asks about each entry once. -/
theorem locate_eq {h : Heap (Bytes × Bytes)} {q : Option ℕ} {l : List (ℕ × Bytes × Bytes)}
    (hl : Linked h q l none) {fuel : ℕ} (hfuel : l.length < fuel) (clos : FindClosure) :
    DicoAssoc.locate ci h fuel (first l none) clos =
      .ok ((assocLocate ci (l.map Prod.snd) clos).bind fun i => l[i]?.map Prod.fst) := by
  induction l generalizing q fuel clos with
  | nil =>
    obtain ⟨f, rfl⟩ : ∃ f, fuel = f + 1 := ⟨fuel - 1, by omega⟩
    rfl
  | cons j l ih =>
    obtain ⟨f, rfl⟩ : ∃ f, fuel = f + 1 := ⟨fuel - 1, by omega⟩
    rw [List.length_cons] at hfuel
    rw [show first (j :: l) none = some j.1 from rfl, DicoAssoc.locate, deref_some hl.1, ok_bind,
      List.map_cons, assocLocate]
    by_cases hcmp : (assocKeyCmp ci j.2 clos).1 = true
    · rw [if_pos hcmp, if_pos hcmp]
      rfl
    · rw [if_neg hcmp, if_neg hcmp, ih hl.2 (by omega), Option.bind_map]
      rfl

/-- The entry of the `n`-th pair with a key. -/
theorem entryN_eq (h : Represents d ci mult p) (key : Bytes) (n : ℕ) :
    d.entryN key n = .ok ((nthIdx ci key n (p.items.map Prod.snd)).bind fun i =>
      p.items[i]?.map Prod.fst) := by
  cases n with
  | zero => rfl
  | succ n =>
    rw [DicoAssoc.entryN, if_neg (Nat.succ_ne_zero n), h.refines.head, h.refines.count, h.ci,
      locate_eq h.refines.holds.linked (Nat.lt_succ_self _), assocLocate_eq, nthIdx,
      if_neg (Nat.succ_ne_zero n), Nat.add_sub_cancel]

/-- The items around the one of an index. -/
theorem items_split (hi : i < p.items.length) :
    p.items = p.items.take i ++ (p.items[i].1, p.items[i].2) :: p.items.drop (i + 1) := by
  rw [← List.drop_eq_getElem_cons hi, List.take_append_drop]

theorem findN_eq (h : Represents d ci mult p) (key : Bytes) (n : ℕ) :
    d.findN key n = .ok (nthValue ci key n (p.items.map Prod.snd)) := by
  rw [DicoAssoc.findN, h.entryN_eq, ok_bind, nthValue]
  cases hidx : nthIdx ci key n (p.items.map Prod.snd) with
  | none => rfl
  | some i =>
    have hi := nthIdx_lt hidx
    rw [List.length_map] at hi
    simp only [Option.bind_some, List.getElem?_eq_getElem hi, Option.map_some, List.getElem?_map,
      deref_some (h.refines.get (items_split hi)), ok_bind]

/-- **Removing takes out the `n`-th pair with the key.** -/
theorem removeN (h : Represents d ci mult p) (key : Bytes) (n : ℕ) :
    ∃ d' p', d.removeN key n = .ok d' ∧ Represents d' ci mult p' ∧
      p'.items.map Prod.snd = dropNth ci key n (p.items.map Prod.snd) := by
  rw [DicoAssoc.removeN, h.entryN_eq, ok_bind, dropNth]
  cases hidx : nthIdx ci key n (p.items.map Prod.snd) with
  | none => exact ⟨d, p, rfl, h, rfl⟩
  | some i =>
    have hi := nthIdx_lt hidx
    rw [List.length_map] at hi
    obtain ⟨c', hc', hr'⟩ := removeItem_refines h.refines (items_split hi)
    refine ⟨{ d with list := c' }, p.removeAt p.items[i].1, ?_, ⟨hr', h.comp, h.ci, h.mult⟩, ?_⟩
    · simp only [Option.bind_some, List.getElem?_eq_getElem hi, Option.map_some, hc', ok_bind]
    · have hnd := h.refines.holds.nodup
      rw [items_split hi] at hnd
      obtain ⟨-, -, herase⟩ := split_item (q := none) hnd
      rw [← items_split hi] at herase
      simp only [PureList.removeAt, herase, List.eraseIdx_eq_take_drop_succ, List.map_append,
        List.map_take, List.map_drop]

/-- **A replaced value.** -/
theorem setValue (h : Represents d ci mult p) {u v : List (ℕ × Bytes × Bytes)} {b : ℕ}
    {pair : Bytes × Bytes} (hi : p.items = u ++ (b, pair) :: v) (value : Bytes) :
    ∃ d', d.setValue b value = .ok d' ∧
      Represents d' ci mult { p with items := u ++ (b, pair.1, value) :: v } := by
  have hget := h.refines.get hi
  have hholds := h.refines.holds
  have hhead := h.refines.head
  have htail := h.refines.tail
  have hcount := h.refines.count
  rw [hi] at hholds hhead htail hcount
  refine ⟨{ d with list := { d.list with
    heap := Function.update d.list.heap b (some ⟨first v none, last none u, pair.1, value⟩) } },
    ?_, ⟨hholds.setData _, ?_, ?_, ?_, h.refines.flags, h.refines.comp, h.refines.itr⟩, h.comp,
    h.ci, h.mult⟩
  · rw [DicoAssoc.setValue, deref_some hget, ok_bind]
  · simp only [hhead, first_append]
    rfl
  · simp only [htail, last_append]
    rfl
  · simp only [hcount, List.length_append, List.length_cons]

/-- **A pair behind the others.** -/
theorem append (h : Represents d ci mult p) (ha : d.list.heap a = none) (key value : Bytes) :
    ∃ c', d.list.append a (key, value) = .ok (0, c') ∧ Represents { d with list := c' } ci mult
      { p with items := p.items ++ [(a, key, value)] } := by
  obtain ⟨c', hc', hr'⟩ := append₀_refines h.refines ha (key, value)
  refine ⟨c', ?_, ⟨hr', h.comp, h.ci, h.mult⟩⟩
  have hcomp : d.list.comp = none := h.refines.comp.trans h.comp
  simp only [DicoList.append, DicoList.equalAt, hcomp, ok_bind, Bool.false_eq_true, if_false, hc']

/-- The pairs with one value replaced. -/
theorem modify_split (u v : List (ℕ × Bytes × Bytes)) (b : ℕ) (pair : Bytes × Bytes)
    (value : Bytes) :
    (u ++ (b, pair.1, value) :: v).map Prod.snd =
      ((u ++ (b, pair) :: v).map Prod.snd).modify u.length fun pair => (pair.1, value) := by
  induction u with
  | nil => rfl
  | cons j u ih =>
    rw [List.cons_append, List.map_cons, ih, List.cons_append, List.map_cons, List.length_cons,
      List.modify_succ_cons]

/-- **`dico_assoc_add` adds a pair, replaces a value, or refuses.** -/
theorem add (h : Represents d ci mult p) (ha : d.list.heap a = none) (key value : Bytes)
    (replace : Bool) :
    ∃ d' p', d.add a key (some value) 1 replace =
        .ok ((addPair ci mult key value replace (p.items.map Prod.snd)).1, d') ∧
      Represents d' ci mult p' ∧
      p'.items.map Prod.snd = (addPair ci mult key value replace (p.items.map Prod.snd)).2 := by
  obtain ⟨c', hc', happend⟩ := h.append ha key value
  have hitems : (p.items ++ [(a, key, value)]).map Prod.snd =
      p.items.map Prod.snd ++ [(key, value)] := by
    rw [List.map_append]
    rfl
  have hmult := h.mult
  rw [DicoAssoc.add, addPair]
  cases mult with
  | true =>
    rw [if_pos hmult, if_pos rfl]
    exact ⟨_, _, by simp only [ok_bind, hc'], happend, hitems⟩
  | false =>
    rw [if_neg (by rw [hmult]; exact Bool.false_ne_true), if_neg Bool.false_ne_true, h.entryN_eq,
      nthIdx_one, ok_bind]
    cases hidx : (p.items.map Prod.snd).findIdx? (hasKey ci key) with
    | none => exact ⟨_, _, by simp only [Option.bind_none, hc', ok_bind], happend, hitems⟩
    | some i =>
      have hi : i < p.items.length := by
        rw [← nthIdx_one] at hidx
        have hlt := nthIdx_lt hidx
        rwa [List.length_map] at hlt
      simp only [Option.bind_some, List.getElem?_eq_getElem hi, Option.map_some]
      -- the key is there: nothing is done, or the value is set in its place
      cases replace with
      | false => exact ⟨d, p, rfl, h, rfl⟩
      | true =>
        obtain ⟨d', hd', h'⟩ := h.setValue (items_split hi) value
        refine ⟨d', _, by simp only [if_true, hd', ok_bind], h', ?_⟩
        have hmodify := modify_split (p.items.take i) (p.items.drop (i + 1)) p.items[i].1
          p.items[i].2 value
        rw [← items_split hi, List.length_take, min_eq_left hi.le] at hmodify
        exact hmodify

/-- **A call does to the list what it does to the multimap.** -/
theorem call (h : Represents d ci mult p) {op : AssocOp} (hfresh : op.Fresh d) :
    ∃ d' p', d.call op = .ok ((op.apply ci mult (p.items.map Prod.snd)).1, d') ∧
      Represents d' ci mult p' ∧
      p'.items.map Prod.snd = (op.apply ci mult (p.items.map Prod.snd)).2 := by
  cases op with
  | append a key value => exact h.add hfresh key value false
  | add a key value replace =>
    cases value with
    | none =>
      obtain ⟨d', p', hd', h', hitems⟩ := h.removeN key 1
      exact ⟨d', p', by simp only [DicoAssoc.call, DicoAssoc.add, hd', ok_bind, AssocOp.apply], h',
        hitems⟩
    | some value => exact h.add hfresh key value replace
  | removeN key n =>
    obtain ⟨d', p', hd', h', hitems⟩ := h.removeN key n
    exact ⟨d', p', by simp only [DicoAssoc.call, hd', ok_bind, AssocOp.apply], h', hitems⟩

end Represents

/-! ## Runs -/

/-- Calls from a list that represents a multimap. -/
theorem assocStep_run {ops : List AssocOp} {d : DicoAssoc} {p : PureList (Bytes × Bytes)}
    (h : Represents d ci mult p) (codes : List ℕ)
    (hfresh : Run.Guarded assocStep (fun op s => op.Fresh s.2) ops (codes, d)) :
    ∃ codes' d' p', Run.run assocStep ops (codes, d) = .ok (codes', d') ∧
      Represents d' ci mult p' ∧ ops.foldl (AssocOp.applyTo ci mult) (codes, p.items.map Prod.snd) =
        (codes', p'.items.map Prod.snd) := by
  induction ops generalizing d p codes with
  | nil => exact ⟨codes, d, p, rfl, h, rfl⟩
  | cons op ops ih =>
    obtain ⟨hop, hrest⟩ := hfresh
    obtain ⟨d₁, p₁, hd₁, h₁, hitems⟩ := h.call hop
    have hstep : assocStep op (codes, d) =
        .ok (codes ++ [(op.apply ci mult (p.items.map Prod.snd)).1], d₁) := by
      simp only [assocStep, hd₁, ok_bind]
    obtain ⟨codes', d', p', hrun, h', hfold⟩ := ih h₁ _ (hrest _ hstep)
    refine ⟨codes', d', p', ?_, h', ?_⟩
    · rw [Run.run, hstep, ok_bind, hrun]
    · rw [List.foldl_cons, AssocOp.applyTo, ← hitems, hfold]

theorem distinctKeys_foldl (ops : List AssocOp) {s : List ℕ × List (Bytes × Bytes)}
    (h : DistinctKeys ci s.2) : DistinctKeys ci (ops.foldl (AssocOp.applyTo ci false) s).2 := by
  induction ops generalizing s with
  | nil => exact h
  | cons op ops ih => exact ih (distinctKeys_apply op h)

/-- **An association list is an ordered multimap**: after any calls, each
on an address that was free, it has returned the codes and has the pairs
of the multimap, `dico_assoc_find_n` finds the value of the `n`-th pair
with a key, and without `DICO_ASSOC_MULT` no two pairs have keys that
match. -/
theorem assoc_run_refines (ci mult : Bool) (ops : List AssocOp)
    (hfresh : Run.Guarded assocStep (fun op s => op.Fresh s.2) ops
      ([], DicoAssoc.create ci mult)) :
    ∃ d, Run.run assocStep ops ([], DicoAssoc.create ci mult) =
        .ok ((ops.foldl (AssocOp.applyTo ci mult) ([], [])).1, d) ∧
      WellFormed d.list (ops.foldl (AssocOp.applyTo ci mult) ([], [])).2 ∧
      (∀ key n, d.findN key n =
        .ok (nthValue ci key n (ops.foldl (AssocOp.applyTo ci mult) ([], [])).2)) ∧
      (mult = false → DistinctKeys ci (ops.foldl (AssocOp.applyTo ci mult) ([], [])).2) := by
  have hcreate : Represents (DicoAssoc.create ci mult) ci mult (PureList.create 0 none) :=
    ⟨create_refines 0 none, rfl, rfl, rfl⟩
  obtain ⟨codes, d, p, hrun, h, hfold⟩ := assocStep_run hcreate [] hfresh
  have hfold : ops.foldl (AssocOp.applyTo ci mult) ([], []) = (codes, p.items.map Prod.snd) := hfold
  refine ⟨d, ?_, ?_, ?_, ?_⟩
  · rw [hrun, hfold]
  · rw [hfold]
    exact h.refines.wellFormed
  · intro key n
    rw [hfold]
    exact h.findN_eq key n
  · rintro rfl
    exact distinctKeys_foldl ops List.Pairwise.nil

/-- Three calls. -/
def threeCalls : List AssocOp :=
  [.append 1 [97] [49], .add 2 [65] (some [50]) true, .removeN [97] 1]

/-- A pair, its value replaced under another case, and the pair removed. -/
theorem assoc_run_three_calls :
    ∃ d, Run.run assocStep threeCalls ([], DicoAssoc.create true false) =
        .ok ((threeCalls.foldl (AssocOp.applyTo true false) ([], [])).1, d) ∧
      WellFormed d.list (threeCalls.foldl (AssocOp.applyTo true false) ([], [])).2 ∧
      (∀ key n, d.findN key n =
        .ok (nthValue true key n (threeCalls.foldl (AssocOp.applyTo true false) ([], [])).2)) ∧
      (false = false →
        DistinctKeys true (threeCalls.foldl (AssocOp.applyTo true false) ([], [])).2) := by
  refine assoc_run_refines true false threeCalls ⟨rfl, fun s hs => ?_⟩
  obtain rfl := Except.ok.inj hs
  refine ⟨rfl, fun s hs => ?_⟩
  obtain rfl := Except.ok.inj hs
  exact ⟨trivial, fun s hs => trivial⟩

end Dico
