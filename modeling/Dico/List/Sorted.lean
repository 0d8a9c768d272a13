import Dico.List.Links
/-!
# Sorted insertion

Items put into an empty list by `dico_list_insert_sorted` alone. The list
never loses its links forward, but each entry that was once the head keeps
the null link back it was made with: such a list is one with all its links
(`Refines`), of which the links back of the first entries are cut. The
place of a new item is found through the links forward, so it is right;
whether the place is the front is read off a link back, so an item whose
place is before an entry that was once the head goes before all others.
-/

namespace Dico

open Chain

variable {α : Type}

/-- **A total preorder**, as a comparator. -/
structure Preordered (cmp : α → α → ℤ) : Prop where
  flip : ∀ a b, 0 < cmp a b ↔ cmp b a < 0
  trans : ∀ a b c, cmp a b ≤ 0 → cmp b c ≤ 0 → cmp a c ≤ 0

namespace Preordered

variable {cmp : α → α → ℤ} {a b c : α}

theorem symm (hc : Preordered cmp) (h : cmp a b = 0) : cmp b a = 0 := by
  have h₁ := hc.flip a b
  have h₂ := hc.flip b a
  omega

theorem self (hc : Preordered cmp) (a : α) : cmp a a = 0 := by
  have h := hc.flip a a
  omega

/-- What comes before a lesser item comes before a greater one. -/
theorem lt_trans (hc : Preordered cmp) (h : 0 < cmp b a) (h' : cmp b c ≤ 0) : 0 < cmp c a := by
  by_contra hle
  have := hc.trans b c a h' (by omega)
  omega

theorem trans_eq (hc : Preordered cmp) (h : cmp a b = 0) (h' : cmp b c = 0) : cmp a c = 0 := by
  have hba := hc.symm h
  have hcb := hc.symm h'
  have hac := hc.trans a b c (by omega) (by omega)
  have hca := hc.trans c b a (by omega) (by omega)
  have hflip := hc.flip c a
  omega

end Preordered

/-! ## What the list is to hold -/

/-- The data of a list: what the links forward lead to from the head. -/
def DicoList.Forward (c : DicoList α) (data : List α) : Prop :=
  ∃ as, Path (fun a => (c.heap a).map Node.next) c.head as ∧ c.count = as.length ∧
    as.map (fun a => (c.heap a).map Node.data) = data.map some

/-- **The items offered, in order**: all of them without flags; with flags,
one of every kind. -/
structure Arranged (cmp : α → α → ℤ) (flags : ℕ) (seen data : List α) : Prop where
  sorted : data.Pairwise fun a b => cmp a b ≤ 0
  offered : ∀ a ∈ data, a ∈ seen
  all : flags = 0 → data.Perm seen
  distinct : flags ≠ 0 → data.Pairwise fun a b => cmp a b ≠ 0
  covers : ∀ a ∈ seen, ∃ b ∈ data, cmp b a = 0

/-- A call of `dico_list_insert_sorted` with the address `malloc` returns,
on the list and the items offered so far. An address in use is not
returned by `malloc`. -/
def offer [DecidableEq α] (op : ℕ × α) (s : DicoList α × List α) :
    Except Fault (DicoList α × List α) :=
  if (s.1.heap op.1).isSome then .ok s
  else do
    let (_, c) ← s.1.insertSorted op.1 op.2
    .ok (c, s.2 ++ [op.2])

/-- **The list is in order**: it has the items offered so far, arranged, and
with flags it rejects an item equal to one of them. -/
def InOrder [DecidableEq α] (cmp : α → α → ℤ) (flags : ℕ) (s : DicoList α × List α) : Prop :=
  ∃ data, s.1.Forward data ∧ Arranged cmp flags s.2 data ∧
    (flags ≠ 0 → ∀ a x, (∃ b ∈ data, cmp b x = 0) → s.1.insertSorted a x = .ok (EEXIST, s.1))

/-- **An item that finds its place**: it is equal to one offered before and
the list has flags; or it is not greater than any offered before; or it is
not less than the first. -/
def Placed (cmp : α → α → ℤ) (flags : ℕ) (seen : List α) (x : α) : Prop :=
  (flags ≠ 0 ∧ ∃ a ∈ seen, cmp a x = 0) ∨ (∀ a ∈ seen, cmp x a ≤ 0) ∨
    ∃ a, seen.head? = some a ∧ cmp a x ≤ 0

variable {cmp : α → α → ℤ} {flags : ℕ} {seen d d₁ d₂ : List α} {x : α}

/-- There is one list of data the links lead to. -/
theorem DicoList.Forward.unique {c : DicoList α} (h₁ : c.Forward d₁) (h₂ : c.Forward d₂) :
    d₁ = d₂ := by
  obtain ⟨as, hp, -, hd⟩ := h₁
  obtain ⟨bs, hp', -, hd'⟩ := h₂
  rw [hp.unique hp', hd'] at hd
  exact ((List.map_inj_right fun a b => Option.some.inj).1 hd).symm

/-- A new item put in its place. -/
theorem Arranged.insert (hc : Preordered cmp) (h : Arranged cmp flags seen (d₁ ++ d₂))
    (hnew : flags ≠ 0 → ∀ a ∈ d₁ ++ d₂, cmp a x ≠ 0) (h₁ : ∀ a ∈ d₁, cmp a x ≤ 0)
    (h₂ : ∀ a ∈ d₂, cmp x a ≤ 0) : Arranged cmp flags (seen ++ [x]) (d₁ ++ x :: d₂) := by
  obtain ⟨s₁, s₂, s₁₂⟩ := List.pairwise_append.1 h.sorted
  have hperm : (d₁ ++ x :: d₂).Perm (x :: (d₁ ++ d₂)) := List.perm_middle
  refine ⟨?_, ?_, ?_, ?_, ?_⟩
  · refine List.pairwise_append.2 ⟨s₁, List.pairwise_cons.2 ⟨h₂, s₂⟩, ?_⟩
    intro a ha b hb
    rcases List.mem_cons.1 hb with rfl | hb
    · exact h₁ a ha
    · exact s₁₂ a ha b hb
  · intro a ha
    rcases List.mem_cons.1 (hperm.mem_iff.1 ha) with rfl | ha
    · exact List.mem_append_right _ (List.mem_singleton.2 rfl)
    · exact List.mem_append_left _ (h.offered a ha)
  · intro hf
    exact hperm.trans (((h.all hf).cons x).trans (List.perm_append_singleton x seen).symm)
  · intro hf
    have hne : ∀ a ∈ d₁ ++ d₂, cmp x a ≠ 0 := fun a ha heq => hnew hf a ha (hc.symm heq)
    obtain ⟨n₁, n₂, n₁₂⟩ := List.pairwise_append.1 (h.distinct hf)
    refine List.pairwise_append.2 ⟨n₁, List.pairwise_cons.2
      ⟨fun a ha => hne a (List.mem_append_right _ ha), n₂⟩, ?_⟩
    intro a ha b hb
    rcases List.mem_cons.1 hb with rfl | hb
    · exact hnew hf a (List.mem_append_left _ ha)
    · exact n₁₂ a ha b hb
  · intro a ha
    rcases List.mem_append.1 ha with ha | ha
    · obtain ⟨b, hb, heq⟩ := h.covers a ha
      exact ⟨b, hperm.mem_iff.2 (List.mem_cons_of_mem x hb), heq⟩
    · rw [List.mem_singleton.1 ha]
      exact ⟨x, hperm.mem_iff.2 List.mem_cons_self, hc.self x⟩

/-- An item that is there already. -/
theorem Arranged.taken (h : Arranged cmp flags seen d) (hf : flags ≠ 0)
    (hx : ∃ a ∈ d, cmp a x = 0) : Arranged cmp flags (seen ++ [x]) d := by
  refine ⟨h.sorted, fun a ha => List.mem_append_left _ (h.offered a ha),
    fun h0 => absurd h0 hf, h.distinct, fun a ha => ?_⟩
  rcases List.mem_append.1 ha with ha | ha
  · exact h.covers a ha
  · rw [List.mem_singleton.1 ha]
    exact hx

/-! ## Links back that are cut -/

/-- The links back of the entries at some addresses cut. -/
def cutBack (H : List ℕ) (h : Heap α) : Heap α := fun a =>
  if a ∈ H then (h a).map fun e => { e with prev := none } else h a

/-- A list with links back cut. -/
def DicoList.cut (H : List ℕ) (c : DicoList α) : DicoList α := { c with heap := cutBack H c.heap }

variable {H : List ℕ} {h : Heap α} {c c' : DicoList α} {p : PureList α} {a b : ℕ}
  {q v : Option ℕ}

theorem cutBack_of_mem (ha : a ∈ H) :
    cutBack H h a = (h a).map fun e => { e with prev := none } := if_pos ha

theorem cutBack_of_not_mem (ha : a ∉ H) : cutBack H h a = h a := if_neg ha

/-- The links forward stay. -/
theorem cutBack_next : (cutBack H h a).map Node.next = (h a).map Node.next := by
  by_cases ha : a ∈ H
  · rw [cutBack_of_mem ha, Option.map_map]
    rfl
  · rw [cutBack_of_not_mem ha]

/-- So do the data. -/
theorem cutBack_data : (cutBack H h a).map Node.data = (h a).map Node.data := by
  by_cases ha : a ∈ H
  · rw [cutBack_of_mem ha, Option.map_map]
    rfl
  · rw [cutBack_of_not_mem ha]

theorem cutBack_eq_none : cutBack H h a = none ↔ h a = none := by
  by_cases ha : a ∈ H
  · rw [cutBack_of_mem ha, Option.map_eq_none_iff]
  · rw [cutBack_of_not_mem ha]

theorem cutBack_update (ha : a ∉ H) (e : Option (Node α)) :
    cutBack H (Function.update h a e) = Function.update (cutBack H h) a e := by
  funext b
  by_cases hb : b = a
  · subst hb
    rw [cutBack_of_not_mem ha, Function.update_self, Function.update_self]
  · simp only [cutBack, Function.update_of_ne hb]

theorem cutBack_putNext : cutBack H (putNext h q v) = putNext (cutBack H h) q v := by
  cases q with
  | none => rfl
  | some q =>
    funext b
    by_cases hb : b = q
    · subst hb
      by_cases hH : b ∈ H
      · simp only [cutBack, putNext, Function.update_self, if_pos hH, Option.map_map]
        rfl
      · simp only [cutBack, putNext, Function.update_self, if_neg hH]
    · simp only [cutBack, putNext, Function.update_of_ne hb]

theorem cutBack_putPrev (hb : b ∉ H) :
    cutBack H (putPrev h (some b) v) = putPrev (cutBack H h) (some b) v := by
  rw [putPrev, cutBack_update hb, putPrev, cutBack_of_not_mem hb]

/-- A link back that is cut anyway can be set. -/
theorem cutBack_putPrev_of_mem (hb : b ∈ H) :
    cutBack H (putPrev h (some b) v) = cutBack H h := by
  funext d
  by_cases hd : d = b
  · subst hd
    simp only [cutBack, putPrev, Function.update_self, if_pos hb, Option.map_map]
    rfl
  · simp only [cutBack, putPrev, Function.update_of_ne hd]

/-- An entry without a link back has none to be cut. -/
theorem cutBack_cons (ha : a ∉ H) (n : Option ℕ) (x : α) :
    cutBack (a :: H) (Function.update h a (some ⟨n, none, x⟩)) =
      Function.update (cutBack H h) a (some ⟨n, none, x⟩) := by
  funext b
  by_cases hb : b = a
  · subst hb
    rw [cutBack_of_mem List.mem_cons_self, Function.update_self, Function.update_self]
    rfl
  · simp only [cutBack, Function.update_of_ne hb, List.mem_cons, hb, false_or]

/-- Nor is it changed by a cut. -/
theorem cut_singleton {n : Option ℕ} (ha : c.heap a = some ⟨n, none, x⟩) :
    c.cut [a] = c.cut [] := by
  have hheap : cutBack [a] c.heap = cutBack [] c.heap := by
    funext b
    rw [cutBack_of_not_mem (H := []) List.not_mem_nil]
    by_cases hb : b = a
    · subst hb
      rw [cutBack_of_mem (List.mem_singleton.2 rfl), ha]
      rfl
    · exact cutBack_of_not_mem (mt List.mem_singleton.1 hb)
  rw [DicoList.cut, DicoList.cut, hheap]

/-- What is read of an entry whose link back may be cut. -/
theorem deref_cut {e : Node α} (he : h a = some e) :
    DicoList.deref (cutBack H h) (some a) =
      .ok { e with prev := if a ∈ H then none else e.prev } := by
  by_cases ha : a ∈ H
  · rw [if_pos ha]
    exact deref_some ((cutBack_of_mem ha).trans (congrArg _ he))
  · rw [if_neg ha]
    exact deref_some ((cutBack_of_not_mem ha).trans he)

/-- A pointer that leads nowhere does so still. -/
theorem deref_cut_none (he : h a = none) :
    DicoList.deref (cutBack H h) (some a) = .error .dangling :=
  deref_none (cutBack_eq_none.2 he)

/-- An append does not look at the links back. -/
theorem append₀_cut (ha : a ∉ H) (happ : c.append₀ a x = .ok c') :
    (c.cut H).append₀ a x = .ok (c'.cut H) := by
  obtain ⟨l, hl, hc'⟩ := bind_eq_ok.1 happ
  obtain rfl := Except.ok.inj hc'
  rw [DicoList.append₀]
  simp only [DicoList.cut, ← cutBack_update ha]
  cases ht : c.tail with
  | none =>
    simp only [DicoList.linkTail, ht] at hl ⊢
    obtain rfl := Except.ok.inj hl
    rfl
  | some t =>
    simp only [DicoList.linkTail, ht] at hl ⊢
    obtain ⟨h', hstore, hl'⟩ := bind_eq_ok.1 hl
    obtain ⟨e, -, hput⟩ := bind_eq_ok.1 hstore
    obtain rfl := Except.ok.inj hput
    obtain rfl := Except.ok.inj hl'
    have hne : Function.update c.heap a (some ⟨none, some t, x⟩) t ≠ none := by
      intro hnone
      rw [DicoList.storeNext, deref_none hnone, error_bind] at hstore
      cases hstore
    rw [storeNext_ok (mt cutBack_eq_none.1 hne)]
    simp only [ok_bind, cutBack_putNext]

/-- An entry is put before one whose link back is there. -/
theorem insertBefore_cut (ha : a ∉ H) (hb : b ∉ H) {i : ℕ}
    (hins : c.insertBefore a b i x = .ok c') :
    (c.cut H).insertBefore a b i x = .ok (c'.cut H) := by
  obtain ⟨e, he, hrest⟩ := bind_eq_ok.1 hins
  obtain ⟨h₁, hprev, hrest⟩ := bind_eq_ok.1 hrest
  obtain ⟨h₂, hnext, hrest⟩ := bind_eq_ok.1 hrest
  obtain rfl := Except.ok.inj hrest
  have heb : c.heap b = some e := by
    cases hcb : c.heap b with
    | none =>
      rw [deref_none hcb] at he
      cases he
    | some e' =>
      rw [deref_some hcb] at he
      rw [Except.ok.inj he]
  have hne : c.heap b ≠ none := by
    rw [heb]
    exact Option.some_ne_none e
  rw [storePrev_ok hne] at hprev
  obtain rfl := Except.ok.inj hprev
  obtain ⟨e', he', hput⟩ := bind_eq_ok.1 hnext
  obtain rfl := Except.ok.inj hput
  cases hp : e.prev with
  | none =>
    rw [hp] at he'
    cases he'
  | some q =>
    rw [hp] at he'
    have hq : putPrev c.heap (some b) (some a) q ≠ none := by
      intro hnone
      rw [deref_none hnone] at he'
      cases he'
    rw [DicoList.insertBefore]
    simp only [DicoList.cut, deref_cut heb, ok_bind, if_neg hb, hp,
      storePrev_ok (mt cutBack_eq_none.1 hne), ← cutBack_putPrev hb,
      storeNext_ok (mt cutBack_eq_none.1 hq), ← cutBack_putNext, ← cutBack_update ha]

/-- **A new head**: the entry that was the head gets no link back to it. -/
theorem prepend₀_cut (hr : Refines c p) (ha : c.heap a = none) {i : ℕ × α} {l : List (ℕ × α)}
    (hi : p.items = i :: l) (hH : i.1 ∈ H) (haH : a ∉ H) (x : α) :
    ∃ c', (c.cut H).prepend₀ a x = c'.cut (a :: H) ∧
      Refines c' { p with items := (a, x) :: p.items,
                          itr := mapItr (Iterator.increasePos 0) p.itr } := by
  have hold : Holds c.heap ([] ++ p.items) := hr.holds
  have hins := hold.insert ha x
  have hfirst : first p.items none = some i.1 := by
    rw [hi]
    rfl
  have hhead : c.head = some i.1 := hr.head.trans hfirst
  have hne : p.items ≠ [] := by
    rw [hi]
    exact List.cons_ne_nil _ _
  obtain ⟨t, -, ht⟩ := last_mem (p := none) hne
  refine ⟨{ c with
    heap := Function.update (putPrev c.heap (some i.1) (some a)) a (some ⟨some i.1, none, x⟩),
    head := some a,
    count := c.count + 1,
    itr := mapItr (Iterator.increasePos 0) c.itr }, ?_, ?_, rfl, ?_, ?_, hr.flags, hr.comp, ?_⟩
  · have htail : c.tail ≠ none := by
      rw [hr.tail, ht]
      exact Option.some_ne_none t
    simp only [DicoList.prepend₀, DicoList.cut, hhead, if_neg htail, cutBack_cons haH,
      cutBack_putPrev_of_mem hH]
  · rw [hfirst] at hins
    exact hins
  · show c.tail = last (some a) p.items
    rw [hr.tail, hi]
    rfl
  · show c.count + 1 = p.items.length + 1
    rw [hr.count]
  · show mapItr _ c.itr = _
    rw [hr.itr]

/-- The data of a list with links back cut. -/
theorem Refines.forward (hr : Refines c p) (H : List ℕ) :
    (c.cut H).Forward (p.items.map Prod.snd) := by
  refine ⟨addrs p.items, ?_, ?_, ?_⟩
  · simp only [DicoList.cut, cutBack_next, hr.head]
    exact hr.holds.linked.path_next
  · simp only [DicoList.cut, hr.count, addrs, List.length_map]
  · simp only [DicoList.cut, cutBack_data]
    exact linked_map_data hr.holds.linked

/-! ## Lists made by sorted insertion -/

/-- **A list made by sorted insertion, in order**: a list with all its
links, of which the entries that were once the head, `heads`, have no link
back; the last of them is the first item offered. -/
structure Ranked (cmp : α → α → ℤ) (flags : ℕ) (s : DicoList α × List α) (c : DicoList α)
    (p : PureList α) (heads rest : List (ℕ × α)) : Prop where
  cut : s.1 = c.cut (addrs heads)
  refines : Refines c p
  items : p.items = heads ++ rest
  oldest : s.2.head? = heads.getLast?.map Prod.snd
  flag_eq : p.flags = flags
  comp_eq : p.comp = some cmp
  arranged : Arranged cmp flags s.2 (p.items.map Prod.snd)

variable {s : DicoList α × List α} {heads rest u w : List (ℕ × α)} {y : α}

namespace Ranked

/-- Without heads there is nothing. -/
theorem items_ne_nil (hk : Ranked cmp flags s c p heads rest) (hne : p.items ≠ []) :
    heads ≠ [] := by
  intro hnil
  have hseen : s.2 = [] := by
    rw [← List.head?_eq_none_iff, hk.oldest, hnil]
    rfl
  refine hne (List.eq_nil_iff_forall_not_mem.2 fun i hi => ?_)
  have := hk.arranged.offered i.2 (List.mem_map_of_mem hi)
  rw [hseen] at this
  exact List.not_mem_nil this

theorem seen_ne_nil (hk : Ranked cmp flags s c p heads rest) (hne : heads ≠ []) : s.2 ≠ [] := by
  intro hnil
  have hold := hk.oldest
  rw [hnil, List.head?_nil, eq_comm, Option.map_eq_none_iff, List.getLast?_eq_none_iff] at hold
  exact hne hold

theorem isSome_iff (hk : Ranked cmp flags s c p heads rest) :
    (s.1.heap a).isSome = true ↔ a ∈ addrs p.items := by
  rw [hk.cut, DicoList.cut, Option.isSome_iff_ne_none, ← hk.refines.isSome_iff,
    Option.isSome_iff_ne_none]
  exact not_congr cutBack_eq_none

theorem not_mem_heads (hk : Ranked cmp flags s c p heads rest) (ha : a ∉ addrs p.items) :
    a ∉ addrs heads := by
  intro hmem
  rw [hk.items, addrs_append] at ha
  exact ha (List.mem_append_left _ hmem)

/-- Before an entry that was never the head come all that were. -/
theorem heads_before (hk : Ranked cmp flags s c p heads rest)
    (hsplit : p.items = u ++ (b, y) :: w) (hb : b ∉ addrs heads) :
    ∃ t, u = heads ++ t ∧ rest = t ++ (b, y) :: w := by
  rcases List.append_eq_append_iff.1 (hk.items.symm.trans hsplit) with
    ⟨t, hu, hrest⟩ | ⟨t, hheads, hrest⟩
  · exact ⟨t, hu, hrest⟩
  · cases t with
    | nil =>
      rw [List.append_nil] at hheads
      exact ⟨[], by rw [List.append_nil, hheads], hrest.symm⟩
    | cons i t =>
      obtain ⟨rfl, -⟩ := List.cons.inj hrest
      refine absurd ?_ hb
      rw [hheads, addrs_append, addrs_cons]
      exact List.mem_append_right _ List.mem_cons_self

/-- Behind an entry that was once the head comes the first item. -/
theorem oldest_behind (hk : Ranked cmp flags s c p heads rest)
    (hsplit : p.items = u ++ (b, y) :: w) (hb : b ∈ addrs heads) {d : α}
    (hd : s.2.head? = some d) : ∃ i ∈ (b, y) :: w, i.2 = d := by
  obtain ⟨i, hi, rfl⟩ := Option.map_eq_some_iff.1 (hk.oldest.symm.trans hd)
  have hnd := hk.refines.holds.nodup
  have hrest : b ∉ addrs rest := by
    rw [hk.items, addrs_append, List.nodup_append] at hnd
    exact fun hmem => hnd.2.2 b hb b hmem rfl
  have hmem : b ∉ addrs u := by
    rw [hsplit, addrs_append, addrs_cons, List.nodup_append] at hnd
    exact fun hmem => hnd.2.2 b hmem b List.mem_cons_self rfl
  rcases List.append_eq_append_iff.1 (hk.items.symm.trans hsplit) with
    ⟨t, hu, -⟩ | ⟨t, hheads, htail⟩
  · rw [hu, addrs_append] at hmem
    exact absurd (List.mem_append_left _ hb) hmem
  · cases t with
    | nil =>
      rw [List.nil_append] at htail
      rw [← htail] at hrest
      exact absurd List.mem_cons_self hrest
    | cons j t =>
      rw [hheads, List.getLast?_append_of_ne_nil _ (List.cons_ne_nil j t)] at hi
      refine ⟨i, ?_, rfl⟩
      rw [htail]
      exact List.mem_append_left _ (List.mem_of_getLast? hi)

end Ranked

/-- The empty list is in order. -/
theorem ranked_create (cmp : α → α → ℤ) (flags : ℕ) :
    Ranked cmp flags (DicoList.create flags (some cmp), []) (DicoList.create flags (some cmp))
      (PureList.create flags (some cmp)) [] [] where
  cut := by
    simp only [DicoList.cut, DicoList.create]
    congr 1
  refines := create_refines flags (some cmp)
  items := rfl
  oldest := rfl
  flag_eq := rfl
  comp_eq := rfl
  arranged := ⟨List.Pairwise.nil, fun _ h => h, fun _ => List.Perm.refl _,
    fun _ => List.Pairwise.nil, fun _ h => absurd h List.not_mem_nil⟩

/-! ## The place of an item -/

section Compare

variable [DecidableEq α]

/-- The loop of `_dico_list_insert_sorted` does not look at the links
back. -/
theorem findSpot_cut (fuel : ℕ) (s : Option ℕ) (i : ℕ) :
    (c.cut H).findSpot x fuel s i = c.findSpot x fuel s i := by
  induction fuel generalizing s i with
  | zero => rfl
  | succ fuel ih =>
    cases s with
    | none => rfl
    | some b =>
      rw [DicoList.findSpot, DicoList.findSpot]
      cases he : c.heap b with
      | none => simp only [DicoList.cut, deref_cut_none he, deref_none he, error_bind]
      | some e =>
        simp only [DicoList.cut, deref_cut he, deref_some he, ok_bind]
        have hih := ih e.next (i + 1)
        rw [DicoList.cut] at hih
        rw [hih]
        rfl

/-- Where the search ends in a list with links back cut. -/
theorem findSpot_cut_head (hr : Refines c p) :
    (c.cut H).findSpot x ((c.cut H).count + 1) (c.cut H).head 0 =
      .ok (spotOf 0 (p.spot x p.items)) := by
  rw [findSpot_cut]
  exact findSpot_head hr

variable {l : List (ℕ × α)}

/-- The search ends early only at an equal item. -/
theorem spot_eq_none (hs : p.spot x l = none) : p.flags ≠ 0 ∧ ∃ i ∈ l, p.cmp i.2 x = 0 := by
  induction l with
  | nil => cases hs
  | cons i l ih =>
    rw [PureList.spot] at hs
    split at hs
    · cases hs
    · split at hs
      case isTrue h => exact ⟨h.2, i, List.mem_cons_self, h.1⟩
      case isFalse =>
        obtain ⟨hf, j, hj, heq⟩ := ih (Option.map_eq_none_iff.1 hs)
        exact ⟨hf, j, List.mem_cons_of_mem _ hj, heq⟩

/-- What comes before the place is not greater, and not equal if the list
has flags; what is there is greater. -/
theorem spot_eq_some (hs : p.spot x l = some (u, w)) :
    (∀ i ∈ u, p.cmp i.2 x ≤ 0 ∧ (p.flags ≠ 0 → p.cmp i.2 x ≠ 0)) ∧
      ∀ i ∈ w.head?, 0 < p.cmp i.2 x := by
  induction l generalizing u with
  | nil =>
    obtain ⟨rfl, rfl⟩ := Prod.mk.inj (Option.some.inj hs)
    exact ⟨fun i hi => absurd hi List.not_mem_nil, fun i hi => by cases hi⟩
  | cons j l ih =>
    rw [PureList.spot] at hs
    split at hs
    case isTrue hgt =>
      obtain ⟨rfl, rfl⟩ := Prod.mk.inj (Option.some.inj hs)
      refine ⟨fun i hi => absurd hi List.not_mem_nil, fun i hi => ?_⟩
      obtain rfl := Option.some.inj hi
      exact hgt
    case isFalse hle =>
      split at hs
      · cases hs
      case isFalse hne =>
        obtain ⟨s, hspot, heq⟩ := Option.map_eq_some_iff.1 hs
        obtain ⟨rfl, rfl⟩ := Prod.mk.inj heq
        obtain ⟨hu, hw⟩ := ih hspot
        refine ⟨fun i hi => ?_, hw⟩
        rcases List.mem_cons.1 hi with rfl | hi
        · exact ⟨by omega, fun hf h0 => hne ⟨h0, hf⟩⟩
        · exact hu i hi

/-! ## One item -/

namespace Ranked

theorem cmp_eq (hk : Ranked cmp flags s c p heads rest) : p.cmp = cmp := by
  rw [PureList.cmp, hk.comp_eq, Option.getD_some]

/-- Items before the place of a new one are not greater, items behind it
not less. -/
theorem around (hc : Preordered cmp) (hk : Ranked cmp flags s c p heads rest)
    (hs : p.spot x p.items = some (u, w)) :
    (∀ i ∈ u, cmp i.2 x ≤ 0) ∧ (∀ i ∈ w, 0 < cmp i.2 x) ∧
      (flags ≠ 0 → ∀ i ∈ p.items, cmp i.2 x ≠ 0) := by
  obtain ⟨hu, hw⟩ := spot_eq_some hs
  rw [hk.cmp_eq] at hu hw
  have hsplit := spot_append hs
  have hgt : ∀ i ∈ w, 0 < cmp i.2 x := by
    cases w with
    | nil => exact fun i hi => absurd hi List.not_mem_nil
    | cons j w =>
      intro i hi
      have hj := hw j rfl
      rcases List.mem_cons.1 hi with rfl | hi
      · exact hj
      · have hsort := hk.arranged.sorted
        rw [hsplit, List.map_append, List.map_cons] at hsort
        have hrest := (List.pairwise_append.1 hsort).2.1
        exact hc.lt_trans hj ((List.pairwise_cons.1 hrest).1 i.2 (List.mem_map_of_mem hi))
  refine ⟨fun i hi => (hu i hi).1, hgt, fun hf i hi => ?_⟩
  rw [hsplit] at hi
  rcases List.mem_append.1 hi with hi | hi
  · exact (hu i hi).2 (hk.flag_eq ▸ hf)
  · have := hgt i hi
    omega

/-- **An item that is there already** is rejected. -/
theorem insertSorted_taken (hk : Ranked cmp flags s c p heads rest)
    (hs : p.spot x p.items = none) (a : ℕ) : s.1.insertSorted a x = .ok (EEXIST, s.1) := by
  rw [DicoList.insertSorted, hk.cut, findSpot_cut_head hk.refines, ok_bind, hs]
  rfl

/-- The search finds an equal item if there is one and the list has
flags. -/
theorem spot_eq_none_iff (hc : Preordered cmp) (hk : Ranked cmp flags s c p heads rest) :
    p.spot x p.items = none ↔ flags ≠ 0 ∧ ∃ d ∈ p.items.map Prod.snd, cmp d x = 0 := by
  constructor
  · intro hs
    obtain ⟨hf, i, hi, heq⟩ := spot_eq_none hs
    rw [hk.flag_eq] at hf
    rw [hk.cmp_eq] at heq
    exact ⟨hf, i.2, List.mem_map_of_mem hi, heq⟩
  · rintro ⟨hf, d, hd, heq⟩
    obtain ⟨i, hi, rfl⟩ := List.mem_map.1 hd
    cases hs : p.spot x p.items with
    | none => rfl
    | some s => exact absurd heq ((hk.around hc hs).2.2 hf i hi)

/-- Such a list is in order. -/
theorem inOrder (hc : Preordered cmp) (hk : Ranked cmp flags s c p heads rest) :
    InOrder cmp flags s := by
  refine ⟨p.items.map Prod.snd, ?_, hk.arranged, fun hf a x hx => ?_⟩
  · rw [hk.cut]
    exact hk.refines.forward _
  · exact hk.insertSorted_taken ((hk.spot_eq_none_iff hc).2 ⟨hf, hx⟩) a

/-- The items with a new one in its place. -/
theorem arranged_insert (hc : Preordered cmp) (hk : Ranked cmp flags s c p heads rest)
    (hs : p.spot x p.items = some (u, w)) :
    Arranged cmp flags (s.2 ++ [x]) ((u ++ (a, x) :: w).map Prod.snd) := by
  obtain ⟨hu, hw, hne⟩ := hk.around hc hs
  have harr := hk.arranged
  rw [spot_append hs, List.map_append] at harr
  rw [List.map_append, List.map_cons]
  refine harr.insert hc (fun hf d hd => ?_) (fun d hd => ?_) fun d hd => ?_
  · rw [← List.map_append, ← spot_append hs] at hd
    obtain ⟨i, hi, rfl⟩ := List.mem_map.1 hd
    exact hne hf i hi
  · obtain ⟨i, hi, rfl⟩ := List.mem_map.1 hd
    exact hu i hi
  · obtain ⟨i, hi, rfl⟩ := List.mem_map.1 hd
    have := (hc.flip i.2 x).1 (hw i hi)
    omega

/-- **An item behind all others.** -/
theorem insertSorted_atEnd (hc : Preordered cmp) (hk : Ranked cmp flags s c p heads rest)
    (ha : a ∉ addrs p.items) (hs : p.spot x p.items = some (u, [])) :
    ∃ d, s.1.insertSorted a x = .ok (0, d) ∧
      ∃ c' p' heads' rest', Ranked cmp flags (d, s.2 ++ [x]) c' p' heads' rest' := by
  obtain ⟨c', hc', hr'⟩ := append₀_refines hk.refines (hk.refines.heap_eq_none ha) x
  have happ := append₀_cut (hk.not_mem_heads ha) hc'
  have hu := spot_append hs
  rw [List.append_nil] at hu
  have harr := hk.arranged_insert hc hs (a := a)
  rw [← hu] at harr
  refine ⟨c'.cut (addrs heads), ?_, c', { p with items := p.items ++ [(a, x)] }, ?_⟩
  · rw [DicoList.insertSorted, hk.cut, findSpot_cut_head hk.refines, ok_bind, hs]
    simp only [spotOf, happ, ok_bind]
  · by_cases hnil : p.items = []
    · -- the first item of all: it has no link back either way
      have hheads : heads = [] := (List.append_eq_nil_iff.1 (hk.items.symm.trans hnil)).1
      have hseen : s.2 = [] := by
        rw [← List.head?_eq_none_iff, hk.oldest, hheads]
        rfl
      refine ⟨[(a, x)], [], ?_, hr', ?_, ?_, hk.flag_eq, hk.comp_eq, harr⟩
      · have hget : c'.heap a = some ⟨none, none, x⟩ := by
          have := hr'.get (show p.items ++ [(a, x)] = p.items ++ (a, x) :: [] from rfl)
          rw [hnil] at this
          exact this
        rw [hheads]
        exact (cut_singleton hget).symm
      · simp only [hnil, List.nil_append, List.append_nil]
      · simp only [hseen, List.nil_append, List.head?_cons, List.getLast?_singleton,
          Option.map_some]
    · have hseen := hk.seen_ne_nil (hk.items_ne_nil hnil)
      refine ⟨heads, rest ++ [(a, x)], rfl, hr', ?_, ?_, hk.flag_eq, hk.comp_eq, harr⟩
      · simp only [hk.items, List.append_assoc]
      · rw [← hk.oldest]
        exact List.head?_append_of_ne_nil _ hseen

/-- **An item before an entry that was never the head.** -/
theorem insertSorted_middle (hc : Preordered cmp) (hk : Ranked cmp flags s c p heads rest)
    (ha : a ∉ addrs p.items) (hs : p.spot x p.items = some (u, (b, y) :: w))
    (hb : b ∉ addrs heads) :
    ∃ d, s.1.insertSorted a x = .ok (0, d) ∧
      ∃ c' p' heads' rest', Ranked cmp flags (d, s.2 ++ [x]) c' p' heads' rest' := by
  have hsplit := spot_append hs
  have hne := hk.items_ne_nil (by
    rw [hsplit]
    exact List.append_ne_nil_of_right_ne_nil _ (List.cons_ne_nil _ _))
  obtain ⟨t, rfl, -⟩ := hk.heads_before hsplit hb
  obtain ⟨v, i, hv⟩ : ∃ v i, heads ++ t = v ++ [i] := by
    have hnil : heads ++ t ≠ [] := List.append_ne_nil_of_left_ne_nil hne _
    obtain ⟨v, i, hv⟩ := (List.eq_nil_or_concat _).resolve_left hnil
    exact ⟨v, i, by rw [hv, List.concat_eq_append]⟩
  rw [hv] at hs hsplit
  have hget := hk.refines.get hsplit
  obtain ⟨c', hc', hr'⟩ := insertBefore_refines hk.refines (hk.refines.heap_eq_none ha) x hsplit
    (0 + (v ++ [i]).length)
  have hins := insertBefore_cut (hk.not_mem_heads ha) hb hc'
  have hprev : last none (v ++ [i]) ≠ none := by
    rw [last_concat]
    exact Option.some_ne_none i.1
  refine ⟨c'.cut (addrs heads), ?_, c', _, heads, t ++ (a, x) :: (b, y) :: w, rfl, hr', ?_, ?_,
    hk.flag_eq, hk.comp_eq, hk.arranged_insert hc hs⟩
  · rw [DicoList.insertSorted, hk.cut, findSpot_cut_head hk.refines, ok_bind, hs]
    simp only [spotOf]
    rw [show (c.cut (addrs heads)).heap = cutBack (addrs heads) c.heap from rfl,
      deref_cut hget, ok_bind, if_neg hb, if_neg hprev, hins, ok_bind]
  · rw [← hv, List.append_assoc]
  · rw [← hk.oldest]
    exact List.head?_append_of_ne_nil _ (hk.seen_ne_nil hne)

/-- **An item before an entry that was once the head** goes before all
others. -/
theorem insertSorted_front (hk : Ranked cmp flags s c p heads rest)
    (ha : a ∉ addrs p.items) (hs : p.spot x p.items = some (u, (b, y) :: w))
    (hb : b ∈ addrs heads) :
    ∃ c', s.1.insertSorted a x = .ok (0, c'.cut (a :: addrs heads)) ∧
      Refines c' { p with items := (a, x) :: p.items,
                          itr := mapItr (Iterator.increasePos 0) p.itr } := by
  obtain ⟨i, t, rfl⟩ : ∃ i t, heads = i :: t := by
    cases heads with
    | nil => exact absurd hb List.not_mem_nil
    | cons i t => exact ⟨i, t, rfl⟩
  have hget := hk.refines.get (spot_append hs)
  obtain ⟨c', hc', hr'⟩ := prepend₀_cut hk.refines (hk.refines.heap_eq_none ha) hk.items
    (H := addrs (i :: t)) List.mem_cons_self (hk.not_mem_heads ha) x
  refine ⟨c', ?_, hr'⟩
  rw [DicoList.insertSorted, hk.cut, findSpot_cut_head hk.refines, ok_bind, hs]
  simp only [spotOf]
  rw [show (c.cut (addrs (i :: t))).heap = cutBack (addrs (i :: t)) c.heap from rfl,
    deref_cut hget, ok_bind, if_pos hb, if_pos rfl, hc']

/-- **An item that finds its place keeps the list in order.** -/
theorem insertSorted_placed (hc : Preordered cmp) (hk : Ranked cmp flags s c p heads rest)
    (ha : a ∉ addrs p.items) (hx : Placed cmp flags s.2 x) :
    ∃ rc d, s.1.insertSorted a x = .ok (rc, d) ∧
      ∃ c' p' heads' rest', Ranked cmp flags (d, s.2 ++ [x]) c' p' heads' rest' := by
  match hs : p.spot x p.items with
  | none =>
    obtain ⟨hf, hmem⟩ := (hk.spot_eq_none_iff hc).1 hs
    have hne : heads ≠ [] := by
      refine hk.items_ne_nil fun hnil => ?_
      rw [hnil] at hmem
      obtain ⟨d, hd, -⟩ := hmem
      exact List.not_mem_nil hd
    refine ⟨EEXIST, s.1, hk.insertSorted_taken hs a, c, p, heads, rest, hk.cut, hk.refines,
      hk.items, ?_, hk.flag_eq, hk.comp_eq, hk.arranged.taken hf hmem⟩
    rw [← hk.oldest]
    exact List.head?_append_of_ne_nil _ (hk.seen_ne_nil hne)
  | some (u, []) => exact ⟨0, hk.insertSorted_atEnd hc ha hs⟩
  | some (u, (b, y) :: w) =>
    by_cases hb : b ∈ addrs heads
    · have hsplit := spot_append hs
      obtain ⟨-, hgt, hnew⟩ := hk.around hc hs
      obtain ⟨c', hc', hr'⟩ := hk.insertSorted_front ha hs hb
      have hle : ∀ d ∈ s.2, cmp x d ≤ 0 := by
        rcases hx with ⟨hf, d, hd, heq⟩ | hle | ⟨d, hd, hle⟩
        · -- no item equal to it was offered
          obtain ⟨z, hz, hzd⟩ := hk.arranged.covers d hd
          have hnone := (hk.spot_eq_none_iff hc).2 ⟨hf, z, hz, hc.trans_eq hzd heq⟩
          rw [hs] at hnone
          cases hnone
        · exact hle
        · obtain ⟨i, hi, rfl⟩ := hk.oldest_behind hsplit hb hd
          have := hgt i hi
          omega
      refine ⟨0, _, hc', c', _, (a, x) :: heads, rest, rfl, hr', ?_, ?_, hk.flag_eq,
        hk.comp_eq, ?_⟩
      · rw [hk.items, List.cons_append]
      · have hne : heads ≠ [] := by
          intro hnil
          rw [hnil] at hb
          exact List.not_mem_nil hb
        rw [List.getLast?_cons_of_ne_nil hne, ← hk.oldest]
        exact List.head?_append_of_ne_nil _ (hk.seen_ne_nil hne)
      · have harr : Arranged cmp flags s.2 ([] ++ p.items.map Prod.snd) := hk.arranged
        refine harr.insert hc (fun hf d hd => ?_) (fun d hd => absurd hd List.not_mem_nil)
          fun d hd => hle d (hk.arranged.offered d hd)
        obtain ⟨i, hi, rfl⟩ := List.mem_map.1 hd
        exact hnew hf i hi
    · exact ⟨0, hk.insertSorted_middle hc ha hs hb⟩

/-- **An item that does not goes before a lesser one.** -/
theorem insertSorted_misplaced (hc : Preordered cmp) (hk : Ranked cmp flags s c p heads rest)
    (ha : a ∉ addrs p.items) (hx : ¬ Placed cmp flags s.2 x) {rc : ℕ} {d : DicoList α}
    (hd : s.1.insertSorted a x = .ok (rc, d)) : ¬ InOrder cmp flags (d, s.2 ++ [x]) := by
  simp only [Placed, not_or, not_and, not_exists, not_forall] at hx
  obtain ⟨hfresh, ⟨z, hz, hlt⟩, hold⟩ := hx
  obtain ⟨e, he⟩ : ∃ e, s.2.head? = some e := by
    cases hh : s.2.head? with
    | none =>
      rw [List.head?_eq_none_iff.1 hh] at hz
      exact absurd hz List.not_mem_nil
    | some e => exact ⟨e, rfl⟩
  obtain ⟨i, hi, rfl⟩ := Option.map_eq_some_iff.1 (hk.oldest.symm.trans he)
  have hiheads : i ∈ heads := List.mem_of_getLast? hi
  have hitems : i ∈ p.items := by
    rw [hk.items]
    exact List.mem_append_left _ hiheads
  have hgt : ¬ cmp i.2 x ≤ 0 := hold i.2 he
  match hs : p.spot x p.items with
  | none =>
    obtain ⟨hf, t, ht, heq⟩ := (hk.spot_eq_none_iff hc).1 hs
    exact absurd heq (hfresh hf t (hk.arranged.offered t ht))
  | some (u, []) =>
    have hu := spot_append hs
    rw [List.append_nil] at hu
    have := (hk.around hc hs).1 i (hu ▸ hitems)
    omega
  | some (u, (b, y) :: w) =>
    have hb : b ∈ addrs heads := by
      by_contra hb
      obtain ⟨t, rfl, -⟩ := hk.heads_before (spot_append hs) hb
      have := (hk.around hc hs).1 i (List.mem_append_left _ hiheads)
      omega
    obtain ⟨c', hc', hr'⟩ := hk.insertSorted_front ha hs hb
    obtain ⟨-, rfl⟩ := Prod.mk.inj (Except.ok.inj (hd.symm.trans hc'))
    rintro ⟨data, hfwd, harr, -⟩
    obtain rfl := hfwd.unique (hr'.forward _)
    obtain ⟨t, ht, heq⟩ := hk.arranged.covers z hz
    have hle := (List.pairwise_cons.1 harr.sorted).1 t ht
    have := hc.trans x t z hle (by omega)
    omega

end Ranked

/-! ## Every sequence of items -/

/-- **Items offered one after another to an empty list are kept in order all
along exactly if each finds its place**: it is not less than the first one
offered, or not greater than any offered before it, or a duplicate that is
rejected. -/
theorem insert_sorted_run_inOrder_iff (hc : Preordered cmp) (flags : ℕ) (ops : List (ℕ × α)) :
    Run.Safe offer (InOrder cmp flags) ops (DicoList.create flags (some cmp), []) ↔
      Run.Guarded offer
        (fun op s => (s.1.heap op.1).isSome ∨ Placed cmp flags s.2 op.2) ops
        (DicoList.create flags (some cmp), []) := by
  refine Run.safe_iff_guarded
    (fun s => ∃ c p heads rest, Ranked cmp flags s c p heads rest) ?_ ?_ ?_
    ⟨_, _, _, _, ranked_create cmp flags⟩
  · rintro s ⟨c, p, heads, rest, hk⟩
    exact hk.inOrder hc
  · rintro op s ⟨c, p, heads, rest, hk⟩ hop
    by_cases hused : (s.1.heap op.1).isSome = true
    · exact ⟨s, if_pos hused, c, p, heads, rest, hk⟩
    · obtain ⟨rc, d, hd, hk'⟩ := hk.insertSorted_placed hc (mt hk.isSome_iff.2 hused)
        (hop.resolve_left hused)
      exact ⟨(d, s.2 ++ [op.2]), by rw [offer, if_neg hused, hd, ok_bind], hk'⟩
  · rintro op s s' ⟨c, p, heads, rest, hk⟩ hop hs'
    obtain ⟨hused, hx⟩ := not_or.1 hop
    rw [offer, if_neg hused] at hs'
    obtain ⟨⟨rc, d⟩, hd, hs'⟩ := bind_eq_ok.1 hs'
    obtain rfl := Except.ok.inj hs'
    exact hk.insertSorted_misplaced hc (mt hk.isSome_iff.2 hused) hx hd

/-- The order of the integers. -/
theorem preordered_sub : Preordered fun a b : ℤ => a - b where
  flip a b := by omega
  trans a b c := by omega

/-- A least item, then one that is not less than the first. -/
theorem insert_sorted_run_two_one_three :
    Run.Safe offer (InOrder (fun a b : ℤ => a - b) 0) [(1, 2), (2, 1), (3, 3)]
      (DicoList.create 0 (some fun a b : ℤ => a - b), []) := by
  refine (insert_sorted_run_inOrder_iff preordered_sub 0 _).2 ⟨?_, fun s hs => ?_⟩
  · exact Or.inr (Or.inr (Or.inl fun a ha => absurd ha List.not_mem_nil))
  obtain rfl := Except.ok.inj hs
  refine ⟨Or.inr (Or.inr (Or.inl (by decide))), fun s hs => ?_⟩
  obtain rfl := Except.ok.inj hs
  refine ⟨Or.inr (Or.inr (Or.inr ⟨2, rfl, by decide⟩)), fun s hs => trivial⟩

/-- The place of 2 is between 1 and 3, but 3 was once the head. -/
theorem insert_sorted_run_three_one_two :
    Preordered (fun a b : ℤ => a - b) ∧
      ¬ Run.Safe offer (InOrder (fun a b : ℤ => a - b) 0) [(1, 3), (2, 1), (3, 2)]
        (DicoList.create 0 (some fun a b : ℤ => a - b), []) := by
  refine ⟨preordered_sub, fun hsafe => ?_⟩
  obtain ⟨s, hs, d, hd, harr, -⟩ := hsafe _ (List.prefix_refl _)
  obtain rfl := Except.ok.inj hs
  obtain rfl : d = [2, 1, 3] := hd.unique ⟨[3, 2, 1],
    ⟨rfl, some 2, rfl, rfl, some 1, rfl, rfl, none, rfl, trivial⟩, rfl, rfl⟩
  exact absurd harr.sorted (by decide)

end Compare

end Dico
