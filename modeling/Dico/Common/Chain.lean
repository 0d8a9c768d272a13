import Mathlib.Data.List.Induction
import Mathlib.Data.List.Nodup
import Mathlib.Logic.Function.Basic
import Mathlib.Tactic.Common
/-!
# Doubly linked chains

A heap of nodes, each with a link forward and a link back, and when it is
the doubly linked list of some items, the items being pairs of an address
and a datum. `Holds` says that the heap is that list and nothing else;
an item can be put in anywhere (`Holds.insert`) and taken out anywhere
(`Holds.remove`) by relinking its two neighbours. `Path` is what a reader
sees who follows one kind of link to the end.
-/

namespace Dico

namespace Chain

/-- A node of a doubly linked list. -/
structure Node (α : Type*) where
  next : Option ℕ
  prev : Option ℕ
  data : α
  deriving DecidableEq, Repr

/-- The nodes that are allocated, by their addresses. -/
abbrev Heap (α : Type*) := ℕ → Option (Node α)

/-- Following the links `link` from `s` to the end visits these addresses. -/
def Path (link : ℕ → Option (Option ℕ)) : Option ℕ → List ℕ → Prop
  | none, [] => True
  | some a, b :: as => a = b ∧ ∃ s, link a = some s ∧ Path link s as
  | _, _ => False

section Path

variable {link : ℕ → Option (Option ℕ)} {s : Option ℕ} {as bs : List ℕ} {a : ℕ}

/-- There is one way to follow links. -/
theorem Path.unique (h : Path link s as) (h' : Path link s bs) : as = bs := by
  induction as generalizing s bs with
  | nil =>
    match s, bs, h, h' with
    | none, [], _, _ => rfl
  | cons a as ih =>
    match s, bs, h, h' with
    | some c, b :: bs, ⟨hca, t, ht, hp⟩, ⟨hcb, t', ht', hp'⟩ =>
      obtain rfl := Option.some.inj (ht.symm.trans ht')
      rw [← hca, ← hcb, ih hp hp']

/-- Links of other addresses do not matter. -/
theorem Path.congr {link' : ℕ → Option (Option ℕ)} (h : Path link s as)
    (heq : ∀ a ∈ as, link' a = link a) : Path link' s as := by
  induction as generalizing s with
  | nil =>
    match s, h with
    | none, _ => trivial
  | cons a as ih =>
    match s, h with
    | some c, ⟨hca, t, ht, hp⟩ =>
      refine ⟨hca, t, (heq c (hca ▸ List.mem_cons_self)).trans ht,
        ih hp fun b hb => heq b (List.mem_cons_of_mem _ hb)⟩

end Path

variable {α : Type*}

/-- The address of the first item, or what follows the items. -/
def first (l : List (ℕ × α)) (n : Option ℕ) : Option ℕ :=
  match l with
  | [] => n
  | (a, _) :: _ => some a

/-- The address of the last item, or what comes before the items. -/
def last : Option ℕ → List (ℕ × α) → Option ℕ
  | p, [] => p
  | _, (a, _) :: l => last (some a) l

/-- The heap has the items linked to each other, to `p` before them and to
`n` behind. -/
def Linked (h : Heap α) : Option ℕ → List (ℕ × α) → Option ℕ → Prop
  | _, [], _ => True
  | p, (a, x) :: l, n => h a = some ⟨first l n, p, x⟩ ∧ Linked h (some a) l n

/-- The addresses of the items. -/
def addrs (l : List (ℕ × α)) : List ℕ := l.map Prod.fst

/-- **The heap is the doubly linked list of the items.** -/
structure Holds (h : Heap α) (l : List (ℕ × α)) : Prop where
  linked : Linked h none l none
  nodup : (addrs l).Nodup
  only : ∀ a, h a ≠ none → a ∈ addrs l

/-- Another link forward for the node at `q`, if there is one. -/
def putNext (h : Heap α) (q v : Option ℕ) : Heap α :=
  match q with
  | none => h
  | some q => Function.update h q ((h q).map fun e => { e with next := v })

/-- Another link back for the node at `r`, if there is one. -/
def putPrev (h : Heap α) (r v : Option ℕ) : Heap α :=
  match r with
  | none => h
  | some r => Function.update h r ((h r).map fun e => { e with prev := v })

variable {h h' : Heap α} {p n q r v : Option ℕ} {l l₁ l₂ : List (ℕ × α)} {a b : ℕ} {x : α}

@[simp] theorem addrs_append : addrs (l₁ ++ l₂) = addrs l₁ ++ addrs l₂ := List.map_append

@[simp] theorem addrs_cons : addrs ((a, x) :: l) = a :: addrs l := rfl

/-! ## What the links are -/

theorem first_append : first (l₁ ++ l₂) n = first l₁ (first l₂ n) := by
  cases l₁ with
  | nil => rfl
  | cons i l => rfl

theorem last_append : last p (l₁ ++ l₂) = last (last p l₁) l₂ := by
  induction l₁ generalizing p with
  | nil => rfl
  | cons i l ih => exact ih

@[simp] theorem last_concat {i : ℕ × α} : last p (l ++ [i]) = some i.1 := last_append

theorem last_mem (hl : l ≠ []) : ∃ a ∈ addrs l, last p l = some a := by
  induction l generalizing p with
  | nil => exact absurd rfl hl
  | cons i l ih =>
    by_cases hnil : l = []
    · subst hnil
      exact ⟨i.1, List.mem_cons_self, rfl⟩
    · obtain ⟨a, ha, hlast⟩ := ih (p := some i.1) hnil
      exact ⟨a, List.mem_cons_of_mem _ ha, hlast⟩

theorem last_eq_or_mem (p : Option ℕ) (l : List (ℕ × α)) :
    last p l = p ∨ ∃ a ∈ addrs l, last p l = some a := by
  by_cases hl : l = []
  · subst hl
    exact Or.inl rfl
  · exact Or.inr (last_mem hl)

theorem first_eq_or_mem (l : List (ℕ × α)) (n : Option ℕ) :
    first l n = n ∨ ∃ a ∈ addrs l, first l n = some a := by
  cases l with
  | nil => exact Or.inl rfl
  | cons i l => exact Or.inr ⟨i.1, List.mem_cons_self, rfl⟩

theorem mem_of_last (hl : last none l = some a) : a ∈ addrs l := by
  rcases last_eq_or_mem none l with hn | ⟨b, hb, hb'⟩
  · rw [hn] at hl
    cases hl
  · rw [hb'] at hl
    exact Option.some.inj hl ▸ hb

theorem mem_of_first (hl : first l none = some a) : a ∈ addrs l := by
  rcases first_eq_or_mem l none with hn | ⟨b, hb, hb'⟩
  · rw [hn] at hl
    cases hl
  · rw [hb'] at hl
    exact Option.some.inj hl ▸ hb

/-- Two linked parts. -/
theorem linked_append :
    Linked h p (l₁ ++ l₂) n ↔ Linked h p l₁ (first l₂ n) ∧ Linked h (last p l₁) l₂ n := by
  induction l₁ generalizing p with
  | nil => exact ⟨fun h => ⟨trivial, h⟩, fun h => h.2⟩
  | cons i l ih =>
    rw [List.cons_append, Linked, Linked, ih, first_append, last, and_assoc]

/-- Other nodes do not matter. -/
theorem Linked.congr (hl : Linked h p l n) (heq : ∀ a ∈ addrs l, h' a = h a) :
    Linked h' p l n := by
  induction l generalizing p with
  | nil => trivial
  | cons i l ih =>
    exact ⟨(heq i.1 List.mem_cons_self).trans hl.1,
      ih hl.2 fun a ha => heq a (List.mem_cons_of_mem _ ha)⟩

/-- The node of an item. -/
theorem Linked.get (hl : Linked h p (l₁ ++ (a, x) :: l₂) n) :
    h a = some ⟨first l₂ n, last p l₁, x⟩ := (linked_append.1 hl).2.1

/-- Following the links forward. -/
theorem Linked.path_next (hl : Linked h p l none) :
    Path (fun a => (h a).map Node.next) (first l none) (addrs l) := by
  induction l generalizing p with
  | nil => trivial
  | cons i l ih =>
    refine ⟨rfl, first l none, ?_, ih hl.2⟩
    simp only [hl.1, Option.map_some]

/-- Following the links back. -/
theorem Linked.path_prev (hl : Linked h none l n) :
    Path (fun a => (h a).map Node.prev) (last none l) (addrs l).reverse := by
  induction l using List.reverseRecOn generalizing n with
  | nil => trivial
  | append_singleton l i ih =>
    obtain ⟨hfront, hback⟩ := linked_append.1 hl
    rw [last_append, addrs_append, List.reverse_append]
    refine ⟨rfl, last none l, ?_, ih hfront⟩
    simp only [hback.1, Option.map_some]

/-! ## Relinking -/

theorem putNext_of_ne (hq : q ≠ some a) : putNext h q v a = h a := by
  cases q with
  | none => rfl
  | some q => exact Function.update_of_ne (fun heq => hq (congrArg some heq.symm)) _ _

theorem putPrev_of_ne (hr : r ≠ some a) : putPrev h r v a = h a := by
  cases r with
  | none => rfl
  | some r => exact Function.update_of_ne (fun heq => hr (congrArg some heq.symm)) _ _

theorem putNext_eq_none : putNext h q v a = none ↔ h a = none := by
  cases q with
  | none => exact Iff.rfl
  | some q =>
    by_cases hqa : a = q
    · subst hqa
      rw [putNext, Function.update_self, Option.map_eq_none_iff]
    · rw [putNext, Function.update_of_ne hqa]

theorem putPrev_eq_none : putPrev h r v a = none ↔ h a = none := by
  cases r with
  | none => exact Iff.rfl
  | some r =>
    by_cases hra : a = r
    · subst hra
      rw [putPrev, Function.update_self, Option.map_eq_none_iff]
    · rw [putPrev, Function.update_of_ne hra]

/-- A link of one node and the whole of another are set in either order. -/
theorem putNext_update (hq : q ≠ some a) (e : Option (Node α)) :
    putNext (Function.update h a e) q v = Function.update (putNext h q v) a e := by
  cases q with
  | none => rfl
  | some q =>
    have hqa : q ≠ a := fun heq => hq (congrArg some heq)
    rw [putNext, putNext, Function.update_of_ne hqa, Function.update_comm hqa]

/-- The two links are set in either order. -/
theorem putNext_putPrev {w : Option ℕ} :
    putNext (putPrev h r v) q w = putPrev (putNext h q w) r v := by
  cases q with
  | none => rfl
  | some q =>
    cases r with
    | none => rfl
    | some r =>
      by_cases hqr : q = r
      · subst hqr
        simp only [putNext, putPrev, Function.update_self, Function.update_idem,
          Option.map_map]
        rfl
      · rw [putNext, putPrev, putPrev, putNext, Function.update_of_ne hqr,
          Function.update_of_ne (Ne.symm hqr), Function.update_comm hqr]

/-- The last item linked to something else. -/
theorem Linked.putNext_last (hl : Linked h p l n) (hnd : (addrs l).Nodup) (v : Option ℕ) :
    Linked (putNext h (last p l) v) p l v := by
  induction l generalizing p with
  | nil => trivial
  | cons i l ih =>
    obtain ⟨hi, hrest⟩ := hl
    obtain ⟨hmem, hnd'⟩ := List.nodup_cons.1 hnd
    refine ⟨?_, ih hrest hnd'⟩
    by_cases hnil : l = []
    · subst hnil
      rw [last, last, putNext, Function.update_self, hi]
      rfl
    · obtain ⟨b, hb, hlast⟩ := last_mem (p := some i.1) hnil
      have hne : last p (i :: l) ≠ some i.1 := by
        intro heq
        rw [show last p (i :: l) = last (some i.1) l from rfl, hlast] at heq
        exact hmem (Option.some.inj heq ▸ hb)
      rw [putNext_of_ne hne, hi]
      cases l with
      | nil => exact absurd rfl hnil
      | cons j l => rfl

/-- The first item linked back to something else. -/
theorem Linked.putPrev_first (hl : Linked h p l n) (hnd : (addrs l).Nodup) (v : Option ℕ)
    (hn : ∀ a ∈ n, a ∉ addrs l) : Linked (putPrev h (first l n) v) v l n := by
  cases l with
  | nil => trivial
  | cons i l =>
    obtain ⟨hmem, -⟩ := List.nodup_cons.1 hnd
    refine ⟨?_, hl.2.congr fun a ha => putPrev_of_ne ?_⟩
    · rw [show first (i :: l) n = some i.1 from rfl, putPrev, Function.update_self, hl.1]
      rfl
    · intro heq
      exact hmem ((Option.some.inj heq).symm ▸ ha)

/-- The two ends of a gap linked to each other, or to what is put there. -/
theorem Linked.relink (h₁ : Linked h none l₁ p) (h₂ : Linked h q l₂ none)
    (hnd : (addrs (l₁ ++ l₂)).Nodup) (v w : Option ℕ) :
    Linked (putPrev (putNext h (last none l₁) v) (first l₂ none) w) none l₁ v ∧
      Linked (putPrev (putNext h (last none l₁) v) (first l₂ none) w) w l₂ none := by
  rw [addrs_append, List.nodup_append] at hnd
  obtain ⟨hnd₁, hnd₂, hdis⟩ := hnd
  constructor
  · exact (h₁.putNext_last hnd₁ v).congr fun a ha =>
      putPrev_of_ne fun heq => hdis a ha a (mem_of_first heq) rfl
  · exact Linked.putPrev_first
      (h₂.congr fun a ha => putNext_of_ne fun heq => hdis a (mem_of_last heq) a ha rfl) hnd₂ w
      (fun a ha => by cases ha)

/-- **An item put in anywhere**, at an address that is free. -/
theorem Holds.insert (hl : Holds h (l₁ ++ l₂)) (ha : h a = none) (x : α) :
    Holds (Function.update
      (putPrev (putNext h (last none l₁) (some a)) (first l₂ none) (some a)) a
      (some ⟨first l₂ none, last none l₁, x⟩)) (l₁ ++ (a, x) :: l₂) := by
  have hlink := hl.linked
  obtain ⟨h₁, h₂⟩ := linked_append.1 hlink
  have hfree : a ∉ addrs (l₁ ++ l₂) := by
    intro hmem
    obtain ⟨i, hi, rfl⟩ := List.mem_map.1 hmem
    obtain ⟨u, v, huv⟩ := List.append_of_mem hi
    rw [huv] at hlink
    rw [hlink.get] at ha
    cases ha
  rw [addrs_append, List.mem_append, not_or] at hfree
  obtain ⟨r₁, r₂⟩ := h₁.relink h₂ hl.nodup (some a) (some a)
  refine ⟨linked_append.2 ⟨?_, ?_, ?_⟩, ?_, ?_⟩
  · exact r₁.congr fun b hb =>
      Function.update_of_ne (fun heq : b = a => hfree.1 (heq ▸ hb)) _ _
  · exact Function.update_self _ _ _
  · exact r₂.congr fun b hb =>
      Function.update_of_ne (fun heq : b = a => hfree.2 (heq ▸ hb)) _ _
  · have hperm : (addrs (l₁ ++ (a, x) :: l₂)).Perm (a :: addrs (l₁ ++ l₂)) := by
      simp only [addrs_append, addrs_cons]
      exact List.perm_middle
    rw [hperm.nodup_iff, List.nodup_cons, addrs_append, List.mem_append, not_or]
    exact ⟨hfree, by rw [← addrs_append]; exact hl.nodup⟩
  · intro b hb
    by_cases hba : b = a
    · subst hba
      simp only [addrs_append, addrs_cons, List.mem_append, List.mem_cons, true_or, or_true]
    · rw [Function.update_of_ne hba, Ne, putPrev_eq_none, putNext_eq_none] at hb
      have := hl.only b hb
      simp only [addrs_append, addrs_cons, List.mem_append, List.mem_cons] at this ⊢
      exact this.imp id Or.inr

/-- **An item taken out anywhere.** -/
theorem Holds.remove (hl : Holds h (l₁ ++ (a, x) :: l₂)) :
    Holds (Function.update
      (putPrev (putNext h (last none l₁) (first l₂ none)) (first l₂ none) (last none l₁)) a none)
      (l₁ ++ l₂) := by
  obtain ⟨h₁, -, h₂⟩ := linked_append.1 hl.linked
  have hperm : (addrs (l₁ ++ (a, x) :: l₂)).Perm (a :: addrs (l₁ ++ l₂)) := by
    simp only [addrs_append, addrs_cons]
    exact List.perm_middle
  have hnd := hl.nodup
  rw [hperm.nodup_iff, List.nodup_cons] at hnd
  obtain ⟨hmem, hnd'⟩ := hnd
  rw [addrs_append, List.mem_append, not_or] at hmem
  obtain ⟨r₁, r₂⟩ := h₁.relink h₂ hnd' (first l₂ none) (last none l₁)
  refine ⟨linked_append.2 ⟨?_, ?_⟩, hnd', ?_⟩
  · exact r₁.congr fun b hb =>
      Function.update_of_ne (fun heq : b = a => hmem.1 (heq ▸ hb)) _ _
  · exact r₂.congr fun b hb =>
      Function.update_of_ne (fun heq : b = a => hmem.2 (heq ▸ hb)) _ _
  · intro b hb
    by_cases hba : b = a
    · subst hba
      exact absurd (Function.update_self _ _ _) hb
    · rw [Function.update_of_ne hba, Ne, putPrev_eq_none, putNext_eq_none] at hb
      have := hl.only b hb
      simp only [addrs_append, addrs_cons, List.mem_append, List.mem_cons] at this ⊢
      exact this.imp id fun h => h.resolve_left hba

/-- **Other data for an item.** -/
theorem Holds.setData (hl : Holds h (l₁ ++ (a, x) :: l₂)) (y : α) :
    Holds (Function.update h a (some ⟨first l₂ none, last none l₁, y⟩)) (l₁ ++ (a, y) :: l₂) := by
  obtain ⟨h₁, -, h₂⟩ := linked_append.1 hl.linked
  have hsame : addrs (l₁ ++ (a, y) :: l₂) = addrs (l₁ ++ (a, x) :: l₂) := by
    simp only [addrs_append, addrs_cons]
  have hnd := hl.nodup
  rw [addrs_append, addrs_cons, List.nodup_append, List.nodup_cons] at hnd
  obtain ⟨-, ⟨hmem₂, -⟩, hdis⟩ := hnd
  refine ⟨linked_append.2 ⟨?_, Function.update_self _ _ _, ?_⟩, by rw [hsame]; exact hl.nodup, ?_⟩
  · exact h₁.congr fun b hb => Function.update_of_ne
      (fun heq : b = a => hdis a (heq ▸ hb) a List.mem_cons_self rfl) _ _
  · exact h₂.congr fun b hb => Function.update_of_ne (fun heq : b = a => hmem₂ (heq ▸ hb)) _ _
  · intro b hb
    rw [hsame]
    by_cases hba : b = a
    · subst hba
      rw [addrs_append]
      exact List.mem_append_right _ List.mem_cons_self
    · rw [Function.update_of_ne hba] at hb
      exact hl.only b hb

/-- An address is an item's exactly if it is allocated. -/
theorem Holds.mem_iff (hl : Holds h l) : a ∈ addrs l ↔ h a ≠ none := by
  refine ⟨fun hmem hnone => ?_, hl.only a⟩
  obtain ⟨i, hi, rfl⟩ := List.mem_map.1 hmem
  obtain ⟨u, v, rfl⟩ := List.append_of_mem hi
  rw [hl.linked.get] at hnone
  cases hnone

/-- The empty heap is the empty list. -/
theorem holds_nil : Holds (fun _ => none : Heap α) [] :=
  ⟨trivial, List.nodup_nil, fun _ h => absurd rfl h⟩

end Chain

end Dico
