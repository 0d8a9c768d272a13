import Mathlib.Algebra.Ring.Nat
import Mathlib.Data.List.Infix
import Mathlib.Tactic.Common
/-!
# Runs of a partial step function

A program that takes one operation after another is a step function that
may have no result. `Safe` says that a run goes through, with a property
in every state it visits; `Guarded` that a condition on the operation and
the state before it holds at every step taken. `safe_iff_guarded` is the
one induction: where a guard is exactly what a step needs, a run is safe
exactly when it is guarded. `Always` and `Heeded` are the same for a run
that may stop on the way: they speak of the states it does reach.
-/

namespace Dico

universe u

/-- How an execution can go wrong for good. -/
inductive Fault
  /-- An access outside its block. -/
  | bounds
  /-- An access through a null pointer, or to memory that was freed. -/
  | dangling
  /-- `abort()`. -/
  | abort
  /-- The C stack is exhausted. -/
  | stack
  /-- A loop ran past its budget. -/
  | loop
  /-- A result has no place in an `int`. -/
  | overflow
  deriving DecidableEq, Repr

/-- The result of a successful step feeds the next. -/
@[simp] theorem ok_bind {ε : Type*} {α β : Type u} (a : α) (f : α → Except ε β) :
    (Except.ok a >>= f) = f a := rfl

/-- A fault ends the computation. -/
@[simp] theorem error_bind {ε : Type*} {α β : Type u} (e : ε) (f : α → Except ε β) :
    ((Except.error e : Except ε α) >>= f) = .error e := rfl

/-- What a computation with a result did on the way. -/
theorem bind_eq_ok {ε : Type*} {α β : Type u} {x : Except ε α} {f : α → Except ε β} {b : β} :
    (x >>= f) = .ok b ↔ ∃ a, x = .ok a ∧ f a = .ok b := by
  cases x with
  | error e => simp only [error_bind, reduceCtorEq, false_and, exists_false]
  | ok a => simp only [ok_bind, Except.ok.injEq, exists_eq_left']

/-- A computation whose result is there ended well. -/
theorem eq_ok_of_toOption {ε α : Type*} {x : Except ε α} {a : α} (h : x.toOption = some a) :
    x = .ok a := by
  cases x with
  | error e => cases h
  | ok b => rw [Option.some.inj h]

/-- What stands behind some elements. -/
theorem getElem?_place {α : Type*} (a b : List α) (x : α) : (a ++ x :: b)[a.length]? = some x := by
  rw [List.getElem?_append_right le_rfl, Nat.sub_self, List.getElem?_cons_zero]

/-- What comes after it. -/
theorem drop_place {α : Type*} (a b : List α) (x : α) : (a ++ x :: b).drop (a.length + 1) = b := by
  rw [← List.drop_drop, List.drop_left, List.drop_one, List.tail_cons]

/-- Another in its place. -/
theorem set_place {α : Type*} (a b : List α) (x y : α) :
    (a ++ x :: b).set a.length y = a ++ y :: b := by
  rw [List.set_append_right _ _ le_rfl, Nat.sub_self, List.set_cons_zero]

/-- Another place of an element is not before its first. -/
theorem place_behind {α : Type*} {a : α} {u v x y : List α} (hu : a ∉ u)
    (h : u ++ a :: v = x ++ a :: y) : ∃ w, x = u ++ w ∧ a :: v = w ++ a :: y := by
  rcases List.append_eq_append_iff.1 h with ⟨w, hx, hw⟩ | ⟨w, rfl, hw⟩
  · exact ⟨w, hx, hw⟩
  · rcases w with - | ⟨b, w⟩
    · exact ⟨[], by rw [List.append_nil, List.append_nil], hw.symm⟩
    · obtain ⟨rfl, -⟩ := List.cons.inj hw
      exact absurd (List.mem_append_right x List.mem_cons_self) hu

/-- There is one first place. -/
theorem place_unique {α : Type*} {a : α} {u v x y : List α} (hu : a ∉ u) (hx : a ∉ x)
    (h : u ++ a :: v = x ++ a :: y) : u = x ∧ v = y := by
  obtain ⟨w, rfl, hw⟩ := place_behind hu h
  rcases w with - | ⟨b, w⟩
  · exact ⟨(List.append_nil u).symm, (List.cons.inj hw).2⟩
  · obtain ⟨rfl, -⟩ := List.cons.inj hw
    exact absurd (List.mem_append_right u List.mem_cons_self) hx

/-- Where a list can be taken apart behind its first element, and at it. -/
theorem forall_split_cons {α : Type*} {a : α} {l : List α} {P : List α → α → Prop} :
    (∀ u b v, a :: l = u ++ b :: v → P u b) ↔
      P [] a ∧ ∀ u b v, l = u ++ b :: v → P (a :: u) b := by
  constructor
  · exact fun h => ⟨h [] a l rfl, fun u b v huv => h (a :: u) b v (by rw [huv, List.cons_append])⟩
  · rintro ⟨ha, hl⟩ u b v huv
    rcases List.cons_eq_append_iff.1 huv with ⟨rfl, h⟩ | ⟨u', rfl, h⟩
    · rw [(List.cons.inj h).1]
      exact ha
    · exact hl u' b v h

/-- What is there with it is there. -/
theorem mem_place {α : Type*} {a b : List α} {x e : α} (h : e ∈ a ++ b) : e ∈ a ++ x :: b := by
  rw [List.mem_append] at h ⊢
  exact h.imp_right (List.mem_cons_of_mem x)

/-- And nothing else is. -/
theorem forall_mem_place {α : Type*} {a b : List α} {x : α} {P : α → Prop}
    (h : ∀ e ∈ a ++ b, P e) (hx : P x) : ∀ e ∈ a ++ x :: b, P e := by
  rw [List.forall_mem_append] at h ⊢
  exact ⟨h.1, List.forall_mem_cons.2 ⟨hx, h.2⟩⟩

namespace Run

variable {ι S ε : Type*}

/-- The operations of a list, one after another. -/
def run (step : ι → S → Except ε S) : List ι → S → Except ε S
  | [], s => .ok s
  | i :: is, s => step i s >>= run step is

/-- Every beginning of the run goes through and ends in a state with the
property. -/
def Safe (step : ι → S → Except ε S) (Inv : S → Prop) (is : List ι) (s : S) : Prop :=
  ∀ pre, pre <+: is → ∃ s', run step pre s = .ok s' ∧ Inv s'

/-- Every operation the run comes to meets its guard in the state it is
applied to. -/
def Guarded (step : ι → S → Except ε S) (G : ι → S → Prop) : List ι → S → Prop
  | [], _ => True
  | i :: is, s => G i s ∧ ∀ s', step i s = .ok s' → Guarded step G is s'

variable {step : ι → S → Except ε S} {Inv : S → Prop} {G : ι → S → Prop}

/-- Whether a run is guarded can be found out by running it. -/
instance decidableGuarded [∀ i s, Decidable (G i s)] :
    (is : List ι) → (s : S) → Decidable (Guarded step G is s)
  | [], _ => isTrue trivial
  | i :: is, s =>
    match h : step i s with
    | .error e => decidable_of_iff (G i s)
        ⟨fun hG => ⟨hG, fun s' hs => by rw [h] at hs; cases hs⟩, fun hG => hG.1⟩
    | .ok s' =>
      haveI := decidableGuarded is s'
      decidable_of_iff (G i s ∧ Guarded step G is s')
        ⟨fun hG => ⟨hG.1, fun t ht => by rw [h] at ht; cases ht; exact hG.2⟩,
          fun hG => ⟨hG.1, hG.2 s' h⟩⟩

/-- A run in two parts. -/
theorem run_append (is js : List ι) (s : S) :
    run step (is ++ js) s = run step is s >>= run step js := by
  induction is generalizing s with
  | nil => rfl
  | cons i is ih =>
    simp only [List.cons_append, run]
    cases step i s with
    | error e => rfl
    | ok s' => exact ih s'

/-- A safe run starts in a state with the property. -/
theorem Safe.inv {is : List ι} {s : S} (h : Safe step Inv is s) : Inv s := by
  obtain ⟨s', hs, hinv⟩ := h [] List.nil_prefix
  obtain rfl := Except.ok.inj hs
  exact hinv

/-- **A safe run, one step at a time.** -/
theorem safe_cons {i : ι} {is : List ι} {s : S} :
    Safe step Inv (i :: is) s ↔
      Inv s ∧ ∃ s', step i s = .ok s' ∧ Safe step Inv is s' := by
  constructor
  · intro h
    obtain ⟨s', hs, -⟩ := h [i] (List.cons_prefix_cons.2 ⟨rfl, List.nil_prefix⟩)
    have hstep : step i s = .ok s' := by
      cases hi : step i s with
      | error e => simp only [run, hi, error_bind, reduceCtorEq] at hs
      | ok t => simpa only [run, hi, ok_bind] using hs
    refine ⟨h.inv, s', hstep, fun pre hpre => ?_⟩
    obtain ⟨t, ht, hinv⟩ := h (i :: pre) (List.cons_prefix_cons.2 ⟨rfl, hpre⟩)
    rw [run, hstep, ok_bind] at ht
    exact ⟨t, ht, hinv⟩
  · rintro ⟨hinv, s', hstep, h⟩ pre hpre
    cases pre with
    | nil => exact ⟨s, rfl, hinv⟩
    | cons j pre =>
      obtain ⟨rfl, htail⟩ := List.cons_prefix_cons.1 hpre
      obtain ⟨t, ht, htinv⟩ := h pre htail
      exact ⟨t, by rw [run, hstep, ok_bind, ht], htinv⟩

/-- The empty run is safe where it starts well. -/
theorem safe_nil {s : S} : Safe step Inv [] s ↔ Inv s := by
  refine ⟨Safe.inv, fun h pre hpre => ?_⟩
  obtain rfl := List.prefix_nil.1 hpre
  exact ⟨s, rfl, h⟩

/-- **A guarded run is safe**, where a guarded step goes through and keeps
the property. -/
theorem safe_of_guarded (hstep : ∀ i s, Inv s → G i s → ∃ s', step i s = .ok s' ∧ Inv s')
    {is : List ι} {s : S} (hinv : Inv s) (hG : Guarded step G is s) : Safe step Inv is s := by
  induction is generalizing s with
  | nil => exact safe_nil.2 hinv
  | cons i is ih =>
    obtain ⟨hi, hrest⟩ := hG
    obtain ⟨s', hs, hinv'⟩ := hstep i s hinv hi
    exact safe_cons.2 ⟨hinv, s', hs, ih hinv' (hrest s' hs)⟩

/-- **A guard that follows from another where the run can come to.** -/
theorem Guarded.imp {G' : ι → S → Prop} (I : S → Prop) (hG : ∀ i s, I s → G i s → G' i s)
    (hstep : ∀ i s s', I s → G i s → step i s = .ok s' → I s') {is : List ι} {s : S} (hs : I s)
    (h : Guarded step G is s) : Guarded step G' is s := by
  induction is generalizing s with
  | nil => trivial
  | cons i is ih =>
    obtain ⟨hi, hrest⟩ := h
    exact ⟨hG i s hs hi, fun s' hs' => ih (hstep i s s' hs hi hs') (hrest s' hs')⟩

/-- **Steps that always go through and keep the property** make safe runs. -/
theorem safe_of_step (hstep : ∀ i s, Inv s → ∃ s', step i s = .ok s' ∧ Inv s')
    {is : List ι} {s : S} (hinv : Inv s) : Safe step Inv is s := by
  induction is generalizing s with
  | nil => exact safe_nil.2 hinv
  | cons i is ih =>
    obtain ⟨s', hs, hinv'⟩ := hstep i s hinv
    exact safe_cons.2 ⟨hinv, s', hs, ih hinv'⟩

/-- A property weaker than the one a run keeps holds along the run too. -/
theorem Safe.imp {Inv' : S → Prop} (himp : ∀ s, Inv s → Inv' s) {is : List ι} {s : S}
    (h : Safe step Inv is s) : Safe step Inv' is s := by
  intro pre hpre
  obtain ⟨s', hs, hinv⟩ := h pre hpre
  exact ⟨s', hs, himp s' hinv⟩

/-- **A run is safe exactly when it is guarded**, where `I` is kept by
guarded steps, implies the property `P` asked for, and a step off its
guard does not go through or breaks `P`. -/
theorem safe_iff_guarded (I : S → Prop) {P : S → Prop} (himp : ∀ s, I s → P s)
    (hstep : ∀ i s, I s → G i s → ∃ s', step i s = .ok s' ∧ I s')
    (hbad : ∀ i s s', I s → ¬ G i s → step i s = .ok s' → ¬ P s')
    {is : List ι} {s : S} (hinv : I s) : Safe step P is s ↔ Guarded step G is s := by
  refine ⟨fun h => ?_, fun h => (safe_of_guarded hstep hinv h).imp himp⟩
  induction is generalizing s with
  | nil => trivial
  | cons i is ih =>
    obtain ⟨-, s', hs, hsafe⟩ := safe_cons.1 h
    have hG : G i s := by
      by_contra hnot
      exact hbad i s s' hinv hnot hs hsafe.inv
    obtain ⟨t, ht, hinv'⟩ := hstep i s hinv hG
    rw [hs] at ht
    obtain rfl := Except.ok.inj ht
    refine ⟨hG, fun t ht => ?_⟩
    rw [hs] at ht
    obtain rfl := Except.ok.inj ht
    exact ih hinv' hsafe

/-- Every state that a beginning of the run reaches has the property. -/
def Always (step : ι → S → Except ε S) (P : S → Prop) (is : List ι) (s : S) : Prop :=
  ∀ pre, pre <+: is → ∀ s', run step pre s = .ok s' → P s'

/-- Every operation the run gets through meets its guard in the state it is
applied to. -/
def Heeded (step : ι → S → Except ε S) (G : ι → S → Prop) : List ι → S → Prop
  | [], _ => True
  | i :: is, s => ∀ s', step i s = .ok s' → G i s ∧ Heeded step G is s'

/-- Whether a run heeds a guard can be found out by running it. -/
instance decidableHeeded [∀ i s, Decidable (G i s)] :
    (is : List ι) → (s : S) → Decidable (Heeded step G is s)
  | [], _ => isTrue trivial
  | i :: is, s =>
    match h : step i s with
    | .error e => isTrue fun s' hs => by rw [h] at hs; cases hs
    | .ok s' =>
      haveI := decidableHeeded is s'
      decidable_of_iff (G i s ∧ Heeded step G is s')
        ⟨fun hG t ht => by rw [h] at ht; cases ht; exact hG, fun hG => hG s' h⟩

theorem always_nil {P : S → Prop} {s : S} : Always step P [] s ↔ P s := by
  refine ⟨fun h => h [] List.nil_prefix s rfl, fun h pre hpre s' hs => ?_⟩
  obtain rfl := List.prefix_nil.1 hpre
  obtain rfl := Except.ok.inj hs
  exact h

/-- The states a run reaches, one step at a time. -/
theorem always_cons {P : S → Prop} {i : ι} {is : List ι} {s : S} :
    Always step P (i :: is) s ↔ P s ∧ ∀ s', step i s = .ok s' → Always step P is s' := by
  constructor
  · intro h
    refine ⟨h [] List.nil_prefix s rfl, fun s' hs pre hpre t ht => ?_⟩
    refine h (i :: pre) (List.cons_prefix_cons.2 ⟨rfl, hpre⟩) t ?_
    rw [run, hs, ok_bind, ht]
  · rintro ⟨hP, h⟩ pre hpre t ht
    cases pre with
    | nil =>
      obtain rfl := Except.ok.inj ht
      exact hP
    | cons j pre =>
      obtain ⟨rfl, htail⟩ := List.cons_prefix_cons.1 hpre
      obtain ⟨s', hs, ht'⟩ := bind_eq_ok.1 ht
      exact h s' hs pre htail t ht'

/-- **A property that every step keeps holds all along.** -/
theorem always_of_step {P : S → Prop} (hstep : ∀ i s s', P s → step i s = .ok s' → P s')
    {is : List ι} {s : S} (hP : P s) : Always step P is s := by
  induction is generalizing s with
  | nil => exact always_nil.2 hP
  | cons i is ih => exact always_cons.2 ⟨hP, fun s' hs => ih (hstep i s s' hP hs)⟩

/-- **A property that every step keeps that heeds the guard** holds all along
a run that heeds it. -/
theorem always_of_heeded {P : S → Prop}
    (hstep : ∀ i s s', P s → G i s → step i s = .ok s' → P s')
    {is : List ι} {s : S} (hP : P s) (hG : Heeded step G is s) : Always step P is s := by
  induction is generalizing s with
  | nil => exact always_nil.2 hP
  | cons i is ih =>
    refine always_cons.2 ⟨hP, fun s' hs => ?_⟩
    obtain ⟨hi, hrest⟩ := hG s' hs
    exact ih (hstep i s s' hP hi hs) hrest

/-- A property weaker than one that holds all along. -/
theorem Always.imp {P Q : S → Prop} (himp : ∀ s, P s → Q s) {is : List ι} {s : S}
    (h : Always step P is s) : Always step Q is s :=
  fun pre hpre s' hs => himp s' (h pre hpre s' hs)

/-- **A property holds all along exactly when the guard is heeded**, where a
step that heeds it keeps the property and one that does not breaks it. -/
theorem always_iff_heeded {P : S → Prop}
    (hstep : ∀ i s s', P s → G i s → step i s = .ok s' → P s')
    (hbad : ∀ i s s', P s → ¬ G i s → step i s = .ok s' → ¬ P s')
    {is : List ι} {s : S} (hP : P s) : Always step P is s ↔ Heeded step G is s := by
  induction is generalizing s with
  | nil => exact ⟨fun _ => trivial, fun _ => always_nil.2 hP⟩
  | cons i is ih =>
    rw [always_cons, Heeded]
    constructor
    · rintro ⟨-, h⟩ s' hs
      have hP' : P s' := (h s' hs) [] List.nil_prefix s' rfl
      have hG : G i s := by
        by_contra hnot
        exact hbad i s s' hP hnot hs hP'
      exact ⟨hG, (ih hP').1 (h s' hs)⟩
    · intro h
      refine ⟨hP, fun s' hs => ?_⟩
      obtain ⟨hG, hrest⟩ := h s' hs
      exact (ih (hstep i s s' hP hG hs)).2 hrest

end Run

end Dico
