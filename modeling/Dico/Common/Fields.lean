import Mathlib.Data.List.TakeWhile
import Mathlib.Data.List.DropRight
/-!
# Fields

A line is cut into fields by a separator, and blanks before a field are
skipped; the separator is itself a blank, so a field is never empty.
`fields` finds the first few of them and `behind` what is left of the line;
`fields_cons_iff` says what one field is, and the rest is induction.
-/

namespace Dico

namespace Fields

variable {α β : Type*} (blank sep : α → Bool)

/-- The first fields of a line, so many at most. -/
def fields : ℕ → List α → List (List α)
  | 0, _ => []
  | n + 1, l =>
    if (l.dropWhile blank).isEmpty then []
    else (l.dropWhile blank).takeWhile (!sep ·) ::
      fields n ((l.dropWhile blank).dropWhile (!sep ·))

/-- What is left behind them. -/
def behind : ℕ → List α → List α
  | 0, l => l
  | n + 1, l => behind n ((l.dropWhile blank).dropWhile (!sep ·))

variable {blank sep} {n : ℕ} {l f : List α} {fs : List (List α)}

/-- Nothing is left of an empty line. -/
theorem behind_nil : behind blank sep n [] = [] := by
  induction n with
  | zero => rfl
  | succ n ih => exact ih

/-- What is left is left behind more fields of what was left. -/
theorem behind_add {m : ℕ} :
    behind blank sep (n + m) l = behind blank sep m (behind blank sep n l) := by
  induction n generalizing l with
  | zero => rw [Nat.zero_add, behind]
  | succ n ih =>
    rw [Nat.succ_add, behind, ih, behind]

/-- A line cut at its first field: what comes before it is blank; it begins
with something that is not and has no separator in it; behind it there is
nothing, or a separator. -/
structure Cut (blank sep : α → Bool) (l b f r : List α) : Prop where
  /-- The line in three parts. -/
  eq : l = b ++ f ++ r
  /-- Before the field. -/
  blanks : ∀ a ∈ b, blank a = true
  /-- Its beginning. -/
  head : ∃ a ∈ f.head?, blank a = false
  /-- The field. -/
  noSep : ∀ a ∈ f, sep a = false
  /-- Behind it. -/
  tail : ∀ a ∈ r.head?, sep a = true

/-- A line that is not blank can be cut. -/
theorem exists_cut (hsep : ∀ a, sep a = true → blank a = true)
    (h : (l.dropWhile blank).isEmpty = false) :
    Cut blank sep l (l.takeWhile blank) ((l.dropWhile blank).takeWhile (!sep ·))
      ((l.dropWhile blank).dropWhile (!sep ·)) where
  eq := by
    rw [List.append_assoc, List.takeWhile_append_dropWhile, List.takeWhile_append_dropWhile]
  blanks := fun a ha => List.mem_takeWhile_imp ha
  head := by
    have hne : l.dropWhile blank ≠ [] := fun hnil => by rw [hnil] at h; cases h
    obtain ⟨a, r, har⟩ := List.exists_cons_of_ne_nil hne
    have ha : blank a = false := by
      have hhead := List.head_dropWhile_not blank hne
      simpa only [har, List.head_cons] using hhead
    have hsepa : sep a = false := by
      by_contra hb
      rw [Bool.not_eq_false] at hb
      rw [hsep a hb] at ha
      cases ha
    refine ⟨a, ?_, ha⟩
    rw [har, List.takeWhile_cons, hsepa]
    rfl
  noSep := fun a ha => by simpa using List.mem_takeWhile_imp ha
  tail := by
    intro a ha
    rw [Option.mem_def, List.head?_eq_some_iff] at ha
    obtain ⟨r, hr⟩ := ha
    have hne : (l.dropWhile blank).dropWhile (!sep ·) ≠ [] := by
      rw [hr]
      exact List.cons_ne_nil _ _
    have hhead := List.head_dropWhile_not (!sep ·) hne
    simpa only [hr, List.head_cons, Bool.not_eq_false', Bool.not_not] using hhead

section Cut

variable {b r : List α}

/-- Skipping the blanks. -/
theorem Cut.dropWhile_blank (h : Cut blank sep l b f r) : l.dropWhile blank = f ++ r := by
  obtain ⟨a, ha, hblank⟩ := h.head
  obtain ⟨f', rfl⟩ := List.head?_eq_some_iff.1 ha
  rw [h.eq, List.append_assoc, List.dropWhile_append_of_pos h.blanks, List.cons_append,
    List.dropWhile_cons_of_neg]
  rw [hblank]
  exact Bool.false_ne_true

/-- Taking the field. -/
theorem Cut.takeWhile_sep (h : Cut blank sep l b f r) : (f ++ r).takeWhile (!sep ·) = f := by
  rw [List.takeWhile_append_of_pos fun a ha => by rw [h.noSep a ha]; rfl]
  cases hr : r with
  | nil => rw [List.takeWhile_nil, List.append_nil]
  | cons a r' =>
    rw [List.takeWhile_cons_of_neg, List.append_nil]
    rw [h.tail a (by rw [hr]; rfl)]
    exact Bool.false_ne_true

/-- And what is behind it. -/
theorem Cut.dropWhile_sep (h : Cut blank sep l b f r) : (f ++ r).dropWhile (!sep ·) = r := by
  rw [List.dropWhile_append_of_pos fun a ha => by rw [h.noSep a ha]; rfl]
  cases hr : r with
  | nil => rfl
  | cons a r' =>
    rw [List.dropWhile_cons_of_neg]
    rw [h.tail a (by rw [hr]; rfl)]
    exact Bool.false_ne_true

/-- The field is not empty. -/
theorem Cut.ne_nil (h : Cut blank sep l b f r) : f ≠ [] := by
  rintro rfl
  obtain ⟨a, ha, -⟩ := h.head
  cases ha

/-- **The fields of a line that is cut.** -/
theorem Cut.fields_eq (h : Cut blank sep l b f r) :
    fields blank sep (n + 1) l = f :: fields blank sep n r := by
  rw [fields, h.dropWhile_blank, h.takeWhile_sep, h.dropWhile_sep, if_neg]
  rw [List.isEmpty_iff]
  exact List.append_ne_nil_of_left_ne_nil h.ne_nil r

/-- And what is behind them. -/
theorem Cut.behind_eq (h : Cut blank sep l b f r) :
    behind blank sep (n + 1) l = behind blank sep n r := by
  rw [behind, h.dropWhile_blank, h.dropWhile_sep]

end Cut

/-- A line is blank or can be cut. -/
theorem blank_or_cut (hsep : ∀ a, sep a = true → blank a = true) (l : List α) :
    l.dropWhile blank = [] ∨ ∃ b f r, Cut blank sep l b f r := by
  by_cases hempty : l.dropWhile blank = []
  · exact .inl hempty
  · exact .inr ⟨_, _, _, exists_cut hsep
      (Bool.eq_false_iff.2 fun h => hempty (List.isEmpty_iff.1 h))⟩

/-- What is blank has no fields. -/
theorem fields_of_blank (h : l.dropWhile blank = []) : fields blank sep n l = [] := by
  cases n with
  | zero => rfl
  | succ n =>
    rw [fields, h]
    rfl

/-- And nothing behind them. -/
theorem behind_of_blank (h : l.dropWhile blank = []) : behind blank sep (n + 1) l = [] := by
  rw [behind, h]
  exact behind_nil

/-- **A line with a field can be cut there.** -/
theorem exists_cut_of_fields (hsep : ∀ a, sep a = true → blank a = true)
    (h : fields blank sep (n + 1) l = f :: fs) :
    ∃ b r, Cut blank sep l b f r ∧ fields blank sep n r = fs := by
  rw [fields] at h
  split_ifs at h with hempty
  obtain ⟨hf, hfs⟩ := List.cons.inj h
  refine ⟨_, _, hf ▸ exists_cut hsep (Bool.eq_false_iff.2 hempty), hfs⟩

/-- The images of a line that is cut. -/
theorem Cut.map {e : β → α} {l b f r : List β} (h : Cut (blank ∘ e) (sep ∘ e) l b f r) :
    Cut blank sep (l.map e) (b.map e) (f.map e) (r.map e) where
  eq := by rw [h.eq, List.map_append, List.map_append]
  blanks := List.forall_mem_map.2 h.blanks
  head := by
    obtain ⟨a, ha, hblank⟩ := h.head
    exact ⟨e a, by rw [List.head?_map]; exact Option.mem_map_of_mem e ha, hblank⟩
  noSep := List.forall_mem_map.2 h.noSep
  tail := by
    intro a ha
    rw [List.head?_map] at ha
    obtain ⟨b, hb, rfl⟩ := Option.map_eq_some_iff.1 ha
    exact h.tail b hb

end Fields

end Dico
