import Dico.Text.Tokenize
/-!
# Loops over an iterator

An iterator steps over a string by the width that the byte it is at
announces. A byte that announces none leaves the width as it was, so the
steps depend on where the iterator came from; and it is the string, not the
iterator, that says where to stop: a width that is too large leads beyond
the end.

`strides` are the pieces that are stepped over, up to where there is no
step inside the string. What a loop over the iterator does is what
`dropWhile` does to its strides (`Before.advance`).
-/

namespace Dico

open Utf8 (encode)
open Utf8Iterator (widthAt)

/-- `for (; p(itr); utf8_iter_next(&itr));` -/
def advance (p : Utf8Iterator → Bool) : ℕ → Utf8Iterator → Except Fault Utf8Iterator
  | 0, _ => .error .loop
  | fuel + 1, itr => if p itr then itr.next >>= advance p fuel else .ok itr

/-- What is stepped over in a string with a first step of `w` bytes, and the
rest of the string, over which there is no step. -/
def strides : ℕ → ℕ → Bytes → List Bytes × Bytes
  | 0, _, s => ([], s)
  | fuel + 1, w, s =>
    if s = [] ∨ s.length < w then ([], s)
    else
      let next := strides fuel (widthAt w (s.drop w)) (s.drop w)
      (s.take w :: next.1, next.2)

/-- An iterator before some pieces of a string: each is as long as its first
byte announces, if it announces anything. -/
inductive Before : Utf8Iterator → List Bytes → Bytes → Prop
  | done (w : ℕ) : Before ⟨[0], w⟩ [] []
  | stuck {s : Bytes} {w : ℕ} (hs : s ≠ []) (hnull : 0 ∉ s) (hw : s.length < w) :
    Before ⟨s ++ [0], w⟩ [] s
  | step {c s rest : Bytes} {cs : List Bytes} (hc : c ≠ []) (hnull : 0 ∉ c)
    (hwidth : utf8CharWidth c = 0 ∨ utf8CharWidth c = c.length)
    (h : Before ⟨s ++ [0], widthAt c.length (s ++ [0])⟩ cs rest) :
    Before ⟨c ++ (s ++ [0]), c.length⟩ (c :: cs) rest

/-! ## Strides -/

section Strides

variable {itr : Utf8Iterator} {cs : List Bytes} {s rest : Bytes} {w : ℕ}

/-- The width is that of the first byte. -/
theorem utf8CharWidth_append {c : Bytes} (hc : c ≠ []) (s : Bytes) :
    utf8CharWidth (c ++ s) = utf8CharWidth c := by
  obtain ⟨b, c, rfl⟩ := List.exists_cons_of_ne_nil hc
  rfl

/-- The null byte has the width of the end. -/
theorem utf8CharWidth_null (s : Bytes) : utf8CharWidth (s ++ [0]) = utf8CharWidth s := by
  cases s with
  | nil => rfl
  | cons b s => rfl

/-- What is announced is what is kept, if there is anything. -/
theorem widthAt_cases (w : ℕ) (s : Bytes) :
    utf8CharWidth s = 0 ∨ utf8CharWidth s = widthAt w s := by
  rw [widthAt]
  split_ifs with h
  · exact .inl h
  · exact .inr rfl

/-- So is the width that an iterator has there. -/
theorem widthAt_append {c : Bytes} (hc : c ≠ []) : widthAt w (c ++ s) = widthAt w c := by
  unfold widthAt
  rw [utf8CharWidth_append hc]

/-- A width stays one. -/
theorem widthAt_pos (h : 0 < w) (s : Bytes) : 0 < widthAt w s := by
  rw [widthAt]
  split_ifs with hz
  · exact h
  · exact Nat.pos_of_ne_zero hz

/-- **An iterator that has a width is before its strides.** -/
theorem before_strides {fuel : ℕ} (hpos : 0 < w) (hnull : 0 ∉ s)
    (hwidth : utf8CharWidth s = 0 ∨ utf8CharWidth s = w) (hfuel : s.length ≤ fuel) :
    Before ⟨s ++ [0], w⟩ (strides fuel w s).1 (strides fuel w s).2 := by
  induction fuel generalizing s w with
  | zero =>
    obtain rfl := List.eq_nil_of_length_eq_zero (Nat.le_zero.1 hfuel)
    exact Before.done w
  | succ fuel ih =>
    rw [strides]
    split_ifs with hend
    · by_cases hs : s = []
      · subst hs
        exact Before.done w
      · exact Before.stuck hs hnull (hend.resolve_left hs)
    · rw [not_or, not_lt] at hend
      obtain ⟨hs, hle⟩ := hend
      have hlen : (s.take w).length = w := List.length_take_of_le hle
      have hc : s.take w ≠ [] := by
        intro hnil
        rw [hnil, List.length_nil] at hlen
        omega
      have hsplit : s.take w ++ s.drop w = s := List.take_append_drop w s
      have hfuel' : (s.drop w).length ≤ fuel := by
        rw [List.length_drop]
        omega
      have hnext := ih (widthAt_pos hpos _) (fun h => hnull (List.mem_of_mem_drop h))
        (widthAt_cases w _) hfuel'
      rw [← hsplit, utf8CharWidth_append hc] at hwidth
      have hwidth' : utf8CharWidth (s.take w) = 0 ∨
          utf8CharWidth (s.take w) = (s.take w).length := hlen.symm ▸ hwidth
      have hnext' : Before ⟨s.drop w ++ [0], widthAt (s.take w).length (s.drop w ++ [0])⟩
          (strides fuel (widthAt w (s.drop w)) (s.drop w)).1
          (strides fuel (widthAt w (s.drop w)) (s.drop w)).2 := by
        rw [hlen, widthAt, utf8CharWidth_null]
        exact hnext
      have hstep := Before.step hc (fun h => hnull (List.mem_of_mem_take h)) hwidth' hnext'
      rwa [hlen, ← List.append_assoc, hsplit] at hstep

/-- The pieces and the rest are the string. -/
theorem Before.flatten_eq (h : Before itr cs rest) : cs.flatten ++ (rest ++ [0]) = itr.cur := by
  induction h with
  | done w => rfl
  | stuck hs hnull hw => rfl
  | step hc hnull hwidth h ih => rw [List.flatten_cons, List.append_assoc, ih]

/-- The byte at the beginning of a string is not null. -/
theorem not_endP {c : Bytes} (hc : c ≠ []) (hnull : 0 ∉ c) (s : Bytes) (w : ℕ) :
    ¬ Utf8Iterator.endP ⟨c ++ s, w⟩ := by
  obtain ⟨b, c, rfl⟩ := List.exists_cons_of_ne_nil hc
  exact fun h => hnull (List.mem_cons.2 (.inl h.symm))

/-- At the end there are no pieces. -/
theorem Before.endP_iff (h : Before itr cs rest) : itr.endP ↔ cs = [] ∧ rest = [] := by
  cases h with
  | done w => exact ⟨fun _ => ⟨rfl, rfl⟩, fun _ => rfl⟩
  | stuck hs hnull hw =>
    exact ⟨fun h => absurd h (not_endP hs hnull _ _), fun h => absurd h.2 hs⟩
  | step hc hnull hwidth h =>
    exact ⟨fun h => absurd h (not_endP hc hnull _ _), fun h => nomatch h.1⟩

/-- The pieces are those of a walk. -/
theorem Before.width (h : Before itr cs rest) :
    ∀ c ∈ cs, c ≠ [] ∧ (utf8CharWidth c = 0 ∨ utf8CharWidth c = c.length) := by
  induction h with
  | done w => exact fun c hc => absurd hc List.not_mem_nil
  | stuck hs hnull hw => exact fun c hc => absurd hc List.not_mem_nil
  | step hc hnull hwidth h ih => exact List.forall_mem_cons.2 ⟨⟨hc, hwidth⟩, ih⟩

/-- A condition on an iterator is one on the piece it is before. -/
structure Judges (p : Utf8Iterator → Bool) (q : Bytes → Bool) (v : Bool) : Prop where
  /-- It does not hold at the end. -/
  done : ∀ w, p ⟨[0], w⟩ = false
  /-- Where there is no piece it always has the same value. -/
  stuck : ∀ s w, s ≠ [] → 0 ∉ s → s.length < w → p ⟨s ++ [0], w⟩ = v
  /-- Elsewhere it is the piece that decides. -/
  step : ∀ c s, c ≠ [] → 0 ∉ c → p ⟨c ++ s, c.length⟩ = q c

variable {p : Utf8Iterator → Bool} {q : Bytes → Bool} {v : Bool}

/-- A step over a piece. -/
theorem next_append {c : Bytes} (hc : c ≠ []) (hnull : 0 ∉ c) (s : Bytes) :
    Utf8Iterator.next ⟨c ++ (s ++ [0]), c.length⟩ =
      .ok ⟨s ++ [0], widthAt c.length (s ++ [0])⟩ := by
  rw [Utf8Iterator.next, if_neg (not_endP hc hnull _ _)]
  dsimp only
  rw [List.drop_left, Utf8Iterator.iter0,
    if_neg (List.append_ne_nil_of_right_ne_nil _ (List.cons_ne_nil _ _))]

/-- **The loop steps over the pieces for which its condition holds**, where
it has not to step over the rest. -/
theorem Before.advance (hp : Judges p q v) (h : Before itr cs rest)
    (hstop : cs.dropWhile q ≠ [] ∨ rest = [] ∨ v = false) {fuel : ℕ} (hfuel : cs.length < fuel) :
    ∃ itr', Dico.advance p fuel itr = .ok itr' ∧ Before itr' (cs.dropWhile q) rest := by
  obtain ⟨fuel, rfl⟩ : ∃ k, fuel = k + 1 := ⟨fuel - 1, by omega⟩
  induction h generalizing fuel with
  | done w =>
    refine ⟨⟨[0], w⟩, ?_, Before.done w⟩
    rw [Dico.advance, hp.done, if_neg Bool.false_ne_true]
  | @stuck s w hs hnull hw =>
    have hv : v = false := (hstop.resolve_left fun hne => hne rfl).resolve_left hs
    refine ⟨⟨s ++ [0], w⟩, ?_, Before.stuck hs hnull hw⟩
    rw [Dico.advance, hp.stuck s w hs hnull hw, hv, if_neg Bool.false_ne_true]
  | @step c s rest cs hc hnull hwidth h ih =>
    rw [Dico.advance, hp.step c _ hc hnull]
    by_cases hq : q c = true
    · rw [List.dropWhile_cons_of_pos hq] at hstop ⊢
      rw [List.length_cons] at hfuel
      obtain ⟨fuel, rfl⟩ : ∃ k, fuel = k + 1 := ⟨fuel - 1, by omega⟩
      obtain ⟨itr', hadv, hbefore⟩ := ih hstop fuel (by omega)
      exact ⟨itr', by rw [if_pos hq, next_append hc hnull, ok_bind, hadv], hbefore⟩
    · rw [List.dropWhile_cons_of_neg hq]
      exact ⟨_, if_neg hq, Before.step hc hnull hwidth h⟩

/-- **Where it has to, it leaves the string.** -/
theorem Before.advance_bounds (hp : Judges p q true) (h : Before itr cs rest)
    (hstop : cs.dropWhile q = []) (hrest : rest ≠ []) {fuel : ℕ} (hfuel : cs.length < fuel) :
    Dico.advance p (fuel + 1) itr = .error .bounds := by
  induction h generalizing fuel with
  | done w => exact absurd rfl hrest
  | @stuck s w hs hnull hw =>
    rw [Dico.advance, hp.stuck s w hs hnull hw, if_pos rfl, Utf8Iterator.next,
      if_neg (not_endP hs hnull _ _)]
    dsimp only
    rw [Utf8Iterator.iter0, if_pos, error_bind]
    rw [List.drop_eq_nil_iff, List.length_append, List.length_singleton]
    omega
  | @step c s rest cs hc hnull hwidth h ih =>
    have hq : q c = true := by
      by_contra hq
      rw [List.dropWhile_cons_of_neg hq] at hstop
      cases hstop
    rw [List.dropWhile_cons_of_pos hq] at hstop
    rw [List.length_cons] at hfuel
    obtain ⟨fuel, rfl⟩ : ∃ k, fuel = k + 1 := ⟨fuel - 1, by omega⟩
    rw [Dico.advance, hp.step c _ hc hnull, if_pos hq, next_append hc hnull, ok_bind]
    exact ih hstop hrest (by omega)

/-- **Without a width the loop does not move**, whatever the memory. -/
theorem advance_loop {m : Bytes} (hend : ¬ Utf8Iterator.endP ⟨m, 0⟩) (hwidth : utf8CharWidth m = 0)
    (hp : p ⟨m, 0⟩ = true) (fuel : ℕ) : Dico.advance p fuel ⟨m, 0⟩ = .error .loop := by
  have hm : m ≠ [] := by
    rintro rfl
    exact hend rfl
  induction fuel with
  | zero => rfl
  | succ fuel ih =>
    have hnext : Utf8Iterator.next ⟨m, 0⟩ = .ok ⟨m, 0⟩ := by
      rw [Utf8Iterator.next, if_neg hend]
      dsimp only
      rw [List.drop_zero, Utf8Iterator.iter0, if_neg hm, widthAt, if_pos hwidth]
    rw [Dico.advance, if_pos hp, hnext, ok_bind, ih]

/-- A step with a width leads on, and leaves a width; it may lead out of the
memory. -/
theorem next_shorter (hpos : 0 < itr.curwidth) (hend : ¬ itr.endP) :
    itr.next = .error .bounds ∨ ∃ itr', itr.next = .ok itr' ∧ 0 < itr'.curwidth ∧
      itr'.cur.length < itr.cur.length := by
  have hcur : itr.cur ≠ [] := fun h => hend (by rw [Utf8Iterator.endP, Utf8Iterator.char, h]; rfl)
  have hlen := List.length_pos_of_ne_nil hcur
  rw [Utf8Iterator.next, if_neg hend, Utf8Iterator.iter0]
  split_ifs
  · exact .inl rfl
  · refine .inr ⟨_, rfl, widthAt_pos hpos _, ?_⟩
    rw [List.length_drop]
    omega

/-- **With a width the loop ends**, whatever the memory, if it does not lead
out of it. -/
theorem advance_ends (hp : ∀ itr, p itr = true → ¬ itr.endP) (hpos : 0 < itr.curwidth) {fuel : ℕ}
    (hfuel : itr.cur.length < fuel) :
    Dico.advance p fuel itr = .error .bounds ∨ ∃ itr', Dico.advance p fuel itr = .ok itr' ∧
      0 < itr'.curwidth ∧ itr'.cur.length ≤ itr.cur.length := by
  induction fuel generalizing itr with
  | zero => exact absurd hfuel (Nat.not_lt_zero _)
  | succ fuel ih =>
    rw [Dico.advance]
    split_ifs with h
    · rcases next_shorter hpos (hp itr h) with hnext | ⟨itr', hnext, hpos', hlt⟩
      · exact .inl (by rw [hnext, error_bind])
      · rw [hnext, ok_bind]
        rcases ih hpos' (by omega : itr'.cur.length < fuel) with hadv | ⟨itr'', hadv, hpos'', hle⟩
        · exact .inl hadv
        · exact .inr ⟨itr'', hadv, hpos'', by omega⟩
    · exact .inr ⟨itr, rfl, hpos, le_rfl⟩

end Strides

/-! ## The characters of a text -/

/-- **The strides over a text are its characters.** -/
theorem before_encode {ws : List ℕ} (hws : ∀ wc ∈ ws, 1 ≤ wc ∧ wc < 0x110000) (w : ℕ) :
    Before ⟨ws.flatMap encode ++ [0], widthAt w (ws.flatMap encode ++ [0])⟩ (ws.map encode) [] := by
  induction ws generalizing w with
  | nil => exact Before.done 1
  | cons wc ws ih =>
    obtain ⟨hwc, hws⟩ := List.forall_mem_cons.1 hws
    have hc := Utf8.encode_ne_nil wc
    have hwidth := utf8CharWidth_encode hwc.2 (ws.flatMap encode ++ [0])
    have hpos := List.length_pos_of_ne_nil hc
    have hnull : 0 ∉ encode wc := fun h =>
      Utf8.ne_zero_of_mem_encode hwc.1 (by omega) h rfl
    rw [List.flatMap_cons, List.map_cons, List.append_assoc, widthAt, hwidth, if_neg (by omega)]
    refine Before.step hc hnull (.inr ?_) (ih hws _)
    rw [← utf8CharWidth_append hc, hwidth]

end Dico
