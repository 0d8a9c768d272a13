import Dico.List.Cursor
/-!
# Removing entries while iterating

`dico_iterator_remove_current` inside a loop over the list: the iterator
that stood at the entry is moved on and marked, and the mark makes the
next `dico_iterator_next` stay where it is. The loop asks its predicate
about every element once, in order, and takes out those that satisfy it,
whatever other iterators there are; but an element that is a null pointer
looks like the end of the list, and ends the loop. The databases of the
server are removed by such loops.
-/

namespace Dico

open Chain

variable {β ι : Type}

namespace DicoList

/-- The loop `for (; p; p = dico_iterator_next(itr)) if (pred(p))
dico_iterator_remove_current(itr, &q)`: the elements asked about, and the
list. -/
def filterLoop (pred : β → Bool) (k : ℕ) :
    ℕ → Option β → DicoList (Option β) → Except Fault (List β × DicoList (Option β))
  | 0, _, _ => .error .loop
  | _ + 1, none, list => .ok ([], list)
  | fuel + 1, some p, list => do
    let list ← if pred p then list.removeCurrent k else .ok list
    let (q, list) ← list.iteratorNext k
    let (asked, list) ← filterLoop pred k fuel q.join list
    .ok (p :: asked, list)

/-- The loop from `dico_iterator_first` on. A round for each entry and one
to leave are enough. -/
def filterWith (pred : β → Bool) (k : ℕ) (list : DicoList (Option β)) :
    Except Fault (List β × DicoList (Option β)) := do
  let (p, list) ← list.iteratorFirst k
  filterLoop pred k (list.count + 1) p.join list

/-- The same with an iterator of its own. -/
def sweep (pred : β → Bool) (k : ℕ) (list : DicoList (Option β)) :
    Except Fault (List β × DicoList (Option β)) := do
  let (asked, list) ← (list.attach k).filterWith pred k
  .ok (asked, list.detach k)

/-- `init_databases`. -/
def initDatabases (dicodInitDatabase : β → ℤ) :
    ℕ → DicoList (Option β) → Except Fault (List β × DicoList (Option β)) :=
  sweep fun dp => dicodInitDatabase dp ≠ 0

/-- `open_databases`. -/
def openDatabases (dicodOpenDatabase : β → ℤ) :
    ℕ → DicoList (Option β) → Except Fault (List β × DicoList (Option β)) :=
  sweep fun dp => dicodOpenDatabase dp ≠ 0

/-- `database_remove_dependent`. -/
def databaseRemoveDependent [DecidableEq ι] (instanceOf : β → ι) (inst : ι) :
    ℕ → DicoList (Option β) → Except Fault (List β × DicoList (Option β)) :=
  sweep fun dp => instanceOf dp = inst

end DicoList

/-- The elements before the first null pointer. -/
def beforeNull (data : List (Option β)) : List β := (data.takeWhile Option.isSome).reduceOption

/-- The elements before the first null pointer without those that satisfy
the predicate, and the others. -/
def sieve (pred : β → Bool) (data : List (Option β)) : List (Option β) :=
  ((beforeNull data).filter fun p => !pred p).map some ++ data.dropWhile Option.isSome

variable {pred : β → Bool} {data : List (Option β)} {p : β}

@[simp] theorem beforeNull_some : beforeNull (some p :: data) = p :: beforeNull data := rfl

theorem sieve_some_of_pos (hp : pred p = true) : sieve pred (some p :: data) = sieve pred data := by
  rw [sieve, beforeNull_some, List.filter_cons_of_neg (by rw [hp]; exact Bool.false_ne_true)]
  rfl

theorem sieve_some_of_neg (hp : pred p = false) :
    sieve pred (some p :: data) = some p :: sieve pred data := by
  rw [sieve, beforeNull_some, List.filter_cons_of_pos (by rw [hp]; rfl)]
  rfl

/-- Without null pointers all elements are asked about. -/
theorem beforeNull_map (l : List β) : beforeNull (l.map some) = l := by
  induction l with
  | nil => rfl
  | cons p l ih => rw [List.map_cons, beforeNull_some, ih]

/-- And those left are the ones that do not satisfy the predicate. -/
theorem sieve_map (l : List β) :
    sieve pred (l.map some) = (l.filter fun p => !pred p).map some := by
  induction l with
  | nil => rfl
  | cons p l ih =>
    cases hp : pred p with
    | true =>
      rw [List.map_cons, sieve_some_of_pos hp, ih, List.filter_cons_of_neg (by simp [hp])]
    | false =>
      rw [List.map_cons, sieve_some_of_neg hp, ih, List.filter_cons_of_pos (by simp [hp]),
        List.map_cons]

/-! ## One round -/

section Round

variable {α : Type} {c : DicoList α} {p : PureList α} {u v : List (ℕ × α)} {i : ℕ × α} {k : ℕ}
  {ip : Iterator}

/-- The iterator of a name stands between the items `u` and the items `v`;
it is not marked, unless it is at the end. -/
structure Facing (c : DicoList α) (k : ℕ) (u v : List (ℕ × α)) (p : PureList α)
    (ip : Iterator) : Prop where
  refines : Refines c p
  items : p.items = u ++ v
  lookup : p.itr.lookup k = some ip
  cur : ip.cur = first v none
  advanced : v ≠ [] → ip.advanced = 0

/-- The iterator where the loop starts. -/
theorem Facing.first (hr : Refines c p) (hk : p.itr.lookup k = some ip) :
    ∃ c' p' ip', c.iteratorFirst k = .ok (p.items.head?.map Prod.snd, c') ∧
      Facing c' k [] p.items p' ip' := by
  obtain ⟨hmove, hr'⟩ := hr.moveTo_eq k ⟨c.head, 0, 0⟩ (List.nil_append p.items).symm hr.head
  refine ⟨_, _, _, ?_, hr', rfl, lookup_setItr hk, hr.head, fun _ => rfl⟩
  rw [iteratorFirst_eq ((hr.iteratorOf_eq k).trans hk), hmove]

/-- Past an element that stays. -/
theorem Facing.pass (h : Facing c k u (i :: v) p ip) :
    ∃ c' p' ip', c.iteratorNext k = .ok (v.head?.map Prod.snd, c') ∧
      Facing c' k (u ++ [i]) v p' ip' := by
  have hget := h.refines.get (show p.items = u ++ (i.1, i.2) :: v from h.items)
  have hsplit : p.items = (u ++ [i]) ++ v := by
    rw [h.items, List.append_assoc]
    rfl
  obtain ⟨hmove, hr'⟩ := h.refines.moveTo_eq k ⟨Chain.first v none, 0, ip.pos + 1⟩ hsplit rfl
  refine ⟨_, _, _, ?_, hr', hsplit, lookup_setItr h.lookup, rfl, fun _ => rfl⟩
  rw [iteratorNext_eq ((h.refines.iteratorOf_eq k).trans h.lookup) h.cur
    (h.advanced (List.cons_ne_nil _ _)) hget, hmove]

/-- Past an element that is removed. The mark left by
`dico_iterator_remove_current` goes with the next step, which does not
move; at the end of the list it stays. -/
theorem Facing.drop (h : Facing c k u (i :: v) p ip) :
    ∃ c₁ c' p' ip', c.removeCurrent k = .ok c₁ ∧
      c₁.iteratorNext k = .ok (v.head?.map Prod.snd, c') ∧ Facing c' k u v p' ip' := by
  have hi : p.items = u ++ (i.1, i.2) :: v := h.items
  have hcur : ip.cur = some i.1 := h.cur
  obtain ⟨c₁, hc₁, hr₁⟩ := removeItem_refines h.refines hi
  have hnd := h.refines.holds.nodup
  rw [hi] at hnd
  obtain ⟨hsucc, -, herase⟩ := split_item (q := none) hnd
  have hremove : c.removeCurrent k = .ok c₁ := by
    rw [DicoList.removeCurrent, DicoList.iteratorOf, h.refines.itr, h.lookup]
    simp only [hcur, hc₁, ok_bind]
  have hitems : (p.removeAt i.1).items = u ++ v := by
    rw [PureList.removeAt, hi]
    exact herase
  -- the iterator is moved to the next item and marked
  have hlook : (p.removeAt i.1).itr.lookup k =
      some ⟨Chain.first v none, ip.advanced + 1, ip.pos⟩ := by
    rw [PureList.removeAt, lookup_mapItr, h.lookup, Option.map_some, Iterator.advance,
      if_pos hcur, hi, hsucc]
  cases v with
  | nil =>
    refine ⟨c₁, c₁, _, _, hremove, ?_, hr₁, hitems, hlook, rfl, fun hne => absurd rfl hne⟩
    rw [iteratorNext_atEnd ((hr₁.iteratorOf_eq k).trans hlook) rfl]
    rfl
  | cons j v =>
    obtain ⟨hmove, hr'⟩ := hr₁.moveTo_eq k ⟨Chain.first (j :: v) none, 0, ip.pos⟩ hitems rfl
    refine ⟨c₁, _, _, _, hremove, ?_, hr', hitems, lookup_setItr hlook, rfl, fun _ => rfl⟩
    rw [iteratorNext_marked ((hr₁.iteratorOf_eq k).trans hlook) rfl (Nat.succ_ne_zero _)]
    exact hmove

end Round

/-! ## The loop -/

section Loop

variable {c : DicoList (Option β)} {q : PureList (Option β)} {u v : List (ℕ × Option β)} {k : ℕ}
  {ip : Iterator}

/-- **The loop**, from where its iterator stands to the end: by induction
on the items it has not come to. -/
theorem Facing.filterLoop (pred : β → Bool) (h : Facing c k u v q ip) {fuel : ℕ}
    (hfuel : v.length < fuel) :
    ∃ c' q', DicoList.filterLoop pred k fuel (v.head?.map Prod.snd).join c =
        .ok (beforeNull (v.map Prod.snd), c') ∧ Refines c' q' ∧
      q'.items.map Prod.snd = u.map Prod.snd ++ sieve pred (v.map Prod.snd) := by
  induction v generalizing c u q ip fuel with
  | nil =>
    obtain ⟨f, rfl⟩ : ∃ f, fuel = f + 1 := ⟨fuel - 1, by omega⟩
    refine ⟨c, q, rfl, h.refines, ?_⟩
    rw [h.items, List.map_append]
    rfl
  | cons i v ih =>
    obtain ⟨a, x⟩ := i
    obtain ⟨f, rfl⟩ : ∃ f, fuel = f + 1 := ⟨fuel - 1, by omega⟩
    rw [List.length_cons] at hfuel
    cases x with
    | none =>
      -- a null pointer ends the loop
      refine ⟨c, q, rfl, h.refines, ?_⟩
      rw [h.items, List.map_append]
      rfl
    | some p =>
      have hloop : DicoList.filterLoop pred k (f + 1)
          ((((a, some p) :: v).head?.map Prod.snd).join) c = (do
            let list ← if pred p then c.removeCurrent k else .ok c
            let (o, list) ← list.iteratorNext k
            let (asked, list) ← DicoList.filterLoop pred k f o.join list
            .ok (p :: asked, list)) := rfl
      rw [hloop, List.map_cons, beforeNull_some]
      cases hp : pred p with
      | true =>
        obtain ⟨c₁, c₂, q₂, ip₂, hremove, hnext, h₂⟩ := h.drop
        obtain ⟨c', q', hrest, hr', hitems⟩ := ih h₂ (show v.length < f by omega)
        refine ⟨c', q', ?_, hr', ?_⟩
        · simp only [if_true, hremove, ok_bind, hnext, hrest]
        · rw [hitems, sieve_some_of_pos hp]
      | false =>
        obtain ⟨c₂, q₂, ip₂, hnext, h₂⟩ := h.pass
        obtain ⟨c', q', hrest, hr', hitems⟩ := ih h₂ (show v.length < f by omega)
        refine ⟨c', q', ?_, hr', ?_⟩
        · simp only [Bool.false_eq_true, if_false, ok_bind, hnext, hrest]
        · rw [hitems, sieve_some_of_neg hp, List.map_append, List.append_assoc]
          rfl

/-- **The loop from the first element on.** -/
theorem Refines.filterWith (pred : β → Bool) (hr : Refines c q) (hk : q.itr.lookup k = some ip) :
    ∃ c' q', c.filterWith pred k = .ok (beforeNull (q.items.map Prod.snd), c') ∧ Refines c' q' ∧
      q'.items.map Prod.snd = sieve pred (q.items.map Prod.snd) := by
  obtain ⟨c₁, q₁, ip₁, hfirst, h₁⟩ := Facing.first hr hk
  have hcount : q.items.length < c₁.count + 1 := by
    rw [h₁.refines.count, h₁.items, List.nil_append]
    omega
  obtain ⟨c', q', hloop, hr', hitems⟩ := h₁.filterLoop pred hcount
  refine ⟨c', q', ?_, hr', hitems⟩
  rw [DicoList.filterWith, hfirst, ok_bind]
  exact hloop

/-- The same for a new iterator. -/
theorem Refines.sweep (pred : β → Bool) (hr : Refines c q) (hk : q.itr.lookup k = none) :
    ∃ c' q', c.sweep pred k = .ok (beforeNull (q.items.map Prod.snd), c') ∧ Refines c' q' ∧
      q'.items.map Prod.snd = sieve pred (q.items.map Prod.snd) := by
  have hattach := attach_refines hr k
  rw [hk, if_neg (by simp)] at hattach
  obtain ⟨c', q', hfilter, hr', hitems⟩ := hattach.filterWith pred List.lookup_cons_self
  refine ⟨c'.detach k, _, ?_, detach_refines hr' k, hitems⟩
  rw [DicoList.sweep, hfilter, ok_bind]

end Loop

/-! ## Lists built by appends -/

/-- A call of which a list of appends is made: `dico_list_append`, and
whatever iterators do short of removing. -/
def ListOp.Builds {α : Type} : ListOp α → Prop
  | .append _ _ | .iterator _ | .first _ | .next _ | .prev _ | .destroy _ => True
  | _ => False

/-- Such calls go through, and leave a list of the items. -/
theorem builds_refines {α : Type} [DecidableEq α] {ops : List (ListOp α)} {c : DicoList α}
    {p : PureList α} (hops : ∀ op ∈ ops, op.Builds) (hr : Refines c p) (hs : p.Standing) :
    ∃ c' p', Run.run DicoList.step ops c = .ok c' ∧ Refines c' p' ∧ p'.Standing := by
  induction ops generalizing c p with
  | nil => exact ⟨c, p, rfl, hr, hs⟩
  | cons op ops ih =>
    obtain ⟨hop, hops⟩ := List.forall_mem_cons.1 hops
    have hkeeps : op.Keeps p := by
      cases op with
      | next k => exact hs.stands k
      | prev k => exact hs.stands k
      | prepend a x => exact hop.elim
      | insertSorted a x => exact hop.elim
      | removeCurrent k => exact hop.elim
      | _ => trivial
    have hclear : op ≠ .clear := by
      rintro rfl
      exact hop
    obtain ⟨c₁, hc₁, hr₁⟩ := step_refines hr hkeeps
    obtain ⟨c', p', hrun, hr', hs'⟩ := ih hops hr₁ (hs.step hr.holds.nodup hclear)
    exact ⟨c', p', by rw [Run.run, hc₁, ok_bind, hrun], hr', hs'⟩

variable [DecidableEq β] [DecidableEq ι]

/-- **The loop that removes on a list built by appends**, with an iterator
of the list and whatever other iterators there are: it asks about each
element before the first null pointer once, in order, and leaves those
that do not satisfy the predicate and the others. So of a list of
databases the server's loops remove exactly those that cannot be
initialised or opened, or that depend on the handler. -/
theorem removes_while_iterating (flags : ℕ) (comp : Option (Option β → Option β → ℤ))
    (ops : List (ListOp (Option β))) (hops : ∀ op ∈ ops, op.Builds) :
    ∃ c data, Run.run DicoList.step ops (DicoList.create flags comp) = .ok c ∧
      WellFormed c data ∧
      (∀ (pred : β → Bool) (k : ℕ), c.iteratorOf k ≠ none →
        ∃ c', c.filterWith pred k = .ok (beforeNull data, c') ∧
          WellFormed c' (sieve pred data)) ∧
      ∀ dbs : List β, data = dbs.map some → ∀ k, c.iteratorOf k = none →
        (∀ rc : β → ℤ, ∃ c', c.initDatabases rc k = .ok (dbs, c') ∧
          WellFormed c' ((dbs.filter fun dp => rc dp = 0).map some)) ∧
        (∀ rc : β → ℤ, ∃ c', c.openDatabases rc k = .ok (dbs, c') ∧
          WellFormed c' ((dbs.filter fun dp => rc dp = 0).map some)) ∧
        ∀ (instanceOf : β → ι) (inst : ι), ∃ c',
          c.databaseRemoveDependent instanceOf inst k = .ok (dbs, c') ∧
            WellFormed c' ((dbs.filter fun dp => instanceOf dp ≠ inst).map some) := by
  obtain ⟨c, q, hrun, hr, -⟩ := builds_refines hops (create_refines flags comp)
    (fun i hi => absurd hi List.not_mem_nil)
  -- the three functions of the server are one loop with three conditions
  have hsweep : ∀ dbs : List β, q.items.map Prod.snd = dbs.map some → ∀ k,
      c.iteratorOf k = none → ∀ pred : β → Bool, ∃ c', c.sweep pred k = .ok (dbs, c') ∧
        WellFormed c' ((dbs.filter fun dp => !pred dp).map some) := by
    intro dbs hdbs k hk pred
    rw [hr.iteratorOf_eq] at hk
    obtain ⟨c', q', hloop, hr', hitems⟩ := hr.sweep pred hk
    refine ⟨c', ?_, ?_⟩
    · rw [hloop, hdbs, beforeNull_map]
    · rw [← sieve_map, ← hdbs, ← hitems]
      exact hr'.wellFormed
  refine ⟨c, q.items.map Prod.snd, hrun, hr.wellFormed, fun pred k hk => ?_,
    fun dbs hdbs k hk => ⟨fun rc => ?_, fun rc => ?_, fun instanceOf inst => ?_⟩⟩
  · rw [hr.iteratorOf_eq] at hk
    obtain ⟨ip, hip⟩ := Option.ne_none_iff_exists'.1 hk
    obtain ⟨c', q', hloop, hr', hitems⟩ := hr.filterWith pred hip
    refine ⟨c', hloop, ?_⟩
    rw [← hitems]
    exact hr'.wellFormed
  · obtain ⟨c', hc', hw⟩ := hsweep dbs hdbs k hk fun dp => rc dp ≠ 0
    exact ⟨c', hc', by simpa using hw⟩
  · obtain ⟨c', hc', hw⟩ := hsweep dbs hdbs k hk fun dp => rc dp ≠ 0
    exact ⟨c', hc', by simpa using hw⟩
  · obtain ⟨c', hc', hw⟩ := hsweep dbs hdbs k hk fun dp => instanceOf dp = inst
    exact ⟨c', hc', by simpa using hw⟩

/-- A list of two elements with one iterator. -/
theorem removes_while_iterating_two :
    ∃ c data, Run.run DicoList.step
        [.append 1 (some 'a'), .iterator 0, .append 2 (some 'b')] (DicoList.create 0 none) =
          .ok c ∧
      WellFormed c data ∧
      (∀ (pred : Char → Bool) (k : ℕ), c.iteratorOf k ≠ none →
        ∃ c', c.filterWith pred k = .ok (beforeNull data, c') ∧
          WellFormed c' (sieve pred data)) ∧
      ∀ dbs : List Char, data = dbs.map some → ∀ k, c.iteratorOf k = none →
        (∀ rc : Char → ℤ, ∃ c', c.initDatabases rc k = .ok (dbs, c') ∧
          WellFormed c' ((dbs.filter fun dp => rc dp = 0).map some)) ∧
        (∀ rc : Char → ℤ, ∃ c', c.openDatabases rc k = .ok (dbs, c') ∧
          WellFormed c' ((dbs.filter fun dp => rc dp = 0).map some)) ∧
        ∀ (instanceOf : Char → ℕ) (inst : ℕ), ∃ c',
          c.databaseRemoveDependent instanceOf inst k = .ok (dbs, c') ∧
            WellFormed c' ((dbs.filter fun dp => instanceOf dp ≠ inst).map some) :=
  removes_while_iterating 0 none [.append 1 (some 'a'), .iterator 0, .append 2 (some 'b')]
    (List.forall_mem_cons.2 ⟨trivial, List.forall_mem_cons.2 ⟨trivial,
      List.forall_mem_cons.2 ⟨trivial, fun _ h => (nomatch h)⟩⟩⟩)

/-- **An element behind a null pointer is not asked about.** -/
theorem not_forall_asked :
    ¬ ∀ (ops : List (ListOp (Option Char))) (c : DicoList (Option Char))
        (data : List (Option Char)), (∀ op ∈ ops, op.Builds) →
      Run.run DicoList.step ops (DicoList.create 0 none) = .ok c → WellFormed c data →
      ∀ (pred : Char → Bool) (k : ℕ), c.iteratorOf k ≠ none →
        ∃ c', c.filterWith pred k = .ok (data.reduceOption, c') ∧
          WellFormed c' (data.filter fun o => !o.any pred) := by
  intro hall
  obtain ⟨c', hc', -⟩ := hall [.append 1 none, .append 2 (some 'a'), .iterator 0] _
    [none, some 'a']
    (List.forall_mem_cons.2 ⟨trivial, List.forall_mem_cons.2 ⟨trivial,
      List.forall_mem_cons.2 ⟨trivial, fun _ h => (nomatch h)⟩⟩⟩) rfl
    ⟨[1, 2], ⟨rfl, some 2, rfl, rfl, none, rfl, trivial⟩, ⟨rfl, some 1, rfl, rfl, none, rfl,
      trivial⟩, fun a ha => Option.some.inj ha ▸ rfl, fun a ha => Option.some.inj ha ▸ rfl, rfl,
      rfl⟩ (fun _ => true) 0 (Option.some_ne_none _)
  exact List.cons_ne_nil _ _ (congrArg Prod.fst (Except.ok.inj hc')).symm

end Dico
