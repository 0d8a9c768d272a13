import Dico.Stream.Model
import Dico.Text.Cstr
import Dico.Text.Iterator
/-!
# Iteration inside the string

A step of the iterator is as long as the byte it starts at announces,
whatever the bytes behind it are. So it stays inside the string exactly
where the string is made of pieces that are as long as they announce, a
piece that announces nothing being as long as the one before it
(`Covered`); a sequence that the end of the string cuts off leads past the
end. One iterator stays without that: the one that has no width at all and
never moves.

Both loops over an iterator, that of the tokenizer and that of
`stream_write_multiline`, inherit it from one step (`Inside.next`).
-/

namespace Dico

open Utf8Iterator (widthAt)

/-! ## The model -/

/-- The iterator that `utf8_iter_first` makes: the width is what the stack
held, `w`, where the first byte announces none. -/
def iterFirst (w : ℕ) (s : Bytes) : Utf8Iterator := ⟨s ++ [0], widthAt w (s ++ [0])⟩

/-- The iterator after so many steps. -/
def iterAfter : ℕ → Utf8Iterator → Except Fault Utf8Iterator
  | 0, itr => .ok itr
  | n + 1, itr => itr.next >>= iterAfter n

/-- The `len` bytes before `curptr`, which `dico_stream_writeln` is given. -/
def lineBefore (text : Bytes) (itr : Utf8Iterator) (len : ℕ) : Except Fault Bytes :=
  let pos := text.length - itr.cur.length
  if len ≤ pos then .ok ((text.drop (pos - len)).take len) else .error .bounds

/-- The loop of `stream_write_multiline`: the lines it writes. -/
def multilineLoop (text : Bytes) : ℕ → Utf8Iterator → ℕ → Except Fault (List Bytes)
  | 0, _, _ => .error .loop
  | fuel + 1, itr, len =>
    if itr.endP then
      if len = 0 then .ok []
      else do
        let line ← lineBefore text itr len
        .ok [line]
    else if itr.isAscii ∧ itr.char = newline then do
      let line ← lineBefore text itr len
      let nxt ← itr.next
      let lines ← multilineLoop text fuel nxt 0
      .ok (line :: lines)
    else do
      let nxt ← itr.next
      multilineLoop text fuel nxt (len + itr.curwidth)

/-- `stream_write_multiline`. -/
def streamWriteMultiline (w fuel : ℕ) (s : Bytes) : Except Fault (List Bytes) :=
  multilineLoop (s ++ [0]) fuel (iterFirst w s) 0

/-! ## Strings that are covered -/

/-- A string in pieces that are as long as their first bytes announce, or
as the piece before where one announces nothing; `w` is what counts as the
length before the first. -/
inductive Covered : ℕ → Bytes → Prop
  | nil (w : ℕ) : Covered w []
  | step {w : ℕ} {c s : Bytes} (hc : c ≠ []) (hwidth : widthAt w c = c.length)
    (h : Covered c.length s) : Covered w (c ++ s)

/-- What keeps an iterator inside: a string that is covered, or no width at
all. -/
def Contained (w : ℕ) (s : Bytes) : Prop := Covered w s ∨ w = 0 ∧ utf8CharWidth s = 0

/-- An iterator between the start of a string and its end. -/
def Within (str : Bytes) (itr : Utf8Iterator) : Prop := itr.cur ≠ [] ∧ itr.cur <:+ str ++ [0]

/-- A computation that goes on and on, or has a result with a property. -/
def Stays {α : Type} (P : α → Prop) (r : Except Fault α) : Prop :=
  r = .error .loop ∨ ∃ a, r = .ok a ∧ P a

/-- One that would stay inside. -/
structure Inside (str : Bytes) (itr : Utf8Iterator) : Prop where
  /-- It is somewhere in the string. -/
  within : Within str itr
  /-- And what is left of it keeps it there. -/
  contained : ∃ w s, itr = iterFirst w s ∧ 0 ∉ s ∧ Contained w s

section Stays

variable {α β : Type} {P : α → Prop} {Q : β → Prop}

theorem stays_ok {a : α} (h : P a) : Stays P (.ok a) := .inr ⟨a, rfl, h⟩

theorem stays_bind {r : Except Fault α} {f : α → Except Fault β} (h : Stays P r)
    (hf : ∀ a, P a → Stays Q (f a)) : Stays Q (r >>= f) := by
  rcases h with rfl | ⟨a, rfl, ha⟩
  · exact .inl rfl
  · exact hf a ha

/-- It is never out of bounds. -/
theorem Stays.ne_bounds {r : Except Fault α} (h : Stays P r) : r ≠ .error .bounds := by
  rcases h with rfl | ⟨a, rfl, -⟩
  · intro h
    cases h
  · intro h
    cases h

end Stays

/-! ## One step -/

section Step

variable {str s : Bytes} {itr : Utf8Iterator} {w : ℕ}

/-- At its start a string is where `utf8_iter_first` puts the iterator. -/
theorem first_eq_iterFirst (h : utf8CharWidth s ≠ 0) :
    Utf8Iterator.first (s ++ [0]) = .ok (iterFirst w s) := by
  have hne : s ++ [0] ≠ [] := List.append_ne_nil_of_right_ne_nil s (List.cons_ne_nil 0 [])
  unfold Utf8Iterator.first Utf8Iterator.iter0 iterFirst widthAt
  rw [utf8CharWidth_null, if_neg h, if_neg hne, if_neg h, if_neg h]

/-- Before a piece that is as long as it announces, a step is one over it. -/
theorem next_iterFirst {c : Bytes} (hc : c ≠ []) (hnull : 0 ∉ c) (hwidth : widthAt w c = c.length)
    (s : Bytes) : (iterFirst w (c ++ s)).next = .ok (iterFirst c.length s) := by
  unfold iterFirst
  rw [List.append_assoc, widthAt_append hc, hwidth, next_append hc hnull]

/-- Without a width there is no step. -/
theorem next_of_no_width (hnull : 0 ∉ s) (h : utf8CharWidth s = 0) :
    (iterFirst 0 s).curwidth = 0 ∧ (iterFirst 0 s).next = .ok (iterFirst 0 s) := by
  have hs : s ≠ [] := by
    rintro rfl
    cases h
  have hne : s ++ [0] ≠ [] := List.append_ne_nil_of_left_ne_nil hs [0]
  have hwidth : widthAt 0 (s ++ [0]) = 0 := by
    unfold widthAt
    rw [utf8CharWidth_null, if_pos h]
  refine ⟨hwidth, ?_⟩
  unfold iterFirst
  rw [hwidth, Utf8Iterator.next, if_neg (not_endP hs hnull [0] 0)]
  dsimp only
  rw [List.drop_zero, Utf8Iterator.iter0, if_neg hne, hwidth]

/-- Where an iterator that stays inside is, and what its step does. -/
theorem Inside.shape (h : Inside str itr) :
    itr.endP ∧ itr.curwidth = 1 ∧ itr.cur = [0] ∨
      ¬ itr.endP ∧ itr.curwidth = 0 ∧ itr.next = .ok itr ∨
      ∃ nxt, itr.next = .ok nxt ∧ Inside str nxt ∧
        nxt.cur.length + itr.curwidth = itr.cur.length := by
  obtain ⟨hwithin, w, s, rfl, hnull, hcov | ⟨rfl, hzero⟩⟩ := h
  · cases hcov with
    | nil w => exact .inl ⟨rfl, rfl, rfl⟩
    | @step w c s hc hwidth hs =>
      have hc0 : 0 ∉ c := fun h0 => hnull (List.mem_append_left s h0)
      have hs0 : 0 ∉ s := fun h0 => hnull (List.mem_append_right c h0)
      have hsuffix : s ++ [0] <:+ str ++ [0] := by
        refine List.IsSuffix.trans ⟨c, ?_⟩ hwithin.2
        exact (List.append_assoc c s [0]).symm
      refine .inr (.inr ⟨iterFirst c.length s, next_iterFirst hc hc0 hwidth s, ?_, ?_⟩)
      · exact ⟨⟨List.append_ne_nil_of_right_ne_nil s (List.cons_ne_nil 0 []), hsuffix⟩,
          c.length, s, rfl, hs0, .inl hs⟩
      · unfold iterFirst
        dsimp only
        rw [List.append_assoc, widthAt_append hc, hwidth]
        simp only [List.length_append]
        omega
  · obtain ⟨hwidth, hnext⟩ := next_of_no_width hnull hzero
    refine .inr (.inl ⟨?_, hwidth, hnext⟩)
    have hs : s ≠ [] := by
      rintro rfl
      cases hzero
    exact not_endP hs hnull [0] _

/-- **A step stays inside.** -/
theorem Inside.next (h : Inside str itr) : ∃ nxt, itr.next = .ok nxt ∧ Inside str nxt ∧
    (¬ itr.endP → nxt.cur.length + itr.curwidth = itr.cur.length) := by
  rcases h.shape with ⟨hend, -, -⟩ | ⟨-, hwidth, hnext⟩ | ⟨nxt, hnext, hinside, hlen⟩
  · refine ⟨itr, ?_, h, fun hnot => absurd hend hnot⟩
    rw [Utf8Iterator.next, if_pos hend]
  · exact ⟨itr, hnext, h, fun _ => by omega⟩
  · exact ⟨nxt, hnext, hinside, fun _ => hlen⟩

/-- The bytes it is at are in the string. -/
theorem Inside.symbol (h : Inside str itr) : ∃ sym, itr.symbol = .ok sym := by
  have hle : itr.curwidth ≤ itr.cur.length := by
    rcases h.shape with ⟨-, hwidth, hcur⟩ | ⟨-, hwidth, -⟩ | ⟨nxt, -, -, hlen⟩
    · rw [hwidth, hcur, List.length_singleton]
    · omega
    · omega
  exact ⟨_, if_pos hle⟩

/-- The first iterator is inside where something keeps it there. -/
theorem inside_iterFirst (hnull : 0 ∉ s) (h : Contained w s) : Inside s (iterFirst w s) :=
  ⟨⟨List.append_ne_nil_of_right_ne_nil s (List.cons_ne_nil 0 []), List.suffix_rfl⟩,
    w, s, rfl, hnull, h⟩

/-- **The loop over the string stays inside.** -/
theorem Inside.iterAfter (h : Inside str itr) (n : ℕ) :
    ∃ itr', Dico.iterAfter n itr = .ok itr' ∧ Inside str itr' := by
  induction n generalizing itr with
  | zero => exact ⟨itr, rfl, h⟩
  | succ n ih =>
    obtain ⟨nxt, hnext, hinside, -⟩ := h.next
    rw [Dico.iterAfter, hnext, ok_bind]
    exact ih hinside

/-- **Elsewhere it leaves the string.** -/
theorem iterAfter_bounds (hnull : 0 ∉ s) (h : ¬ Contained w s) :
    ∃ n, iterAfter n (iterFirst w s) = .error .bounds := by
  obtain ⟨k, hk⟩ : ∃ k, s.length ≤ k := ⟨s.length, le_rfl⟩
  induction k generalizing w s with
  | zero =>
    obtain rfl := List.eq_nil_of_length_eq_zero (Nat.le_zero.1 hk)
    exact absurd (.inl (Covered.nil w)) h
  | succ k ih =>
    have hs : s ≠ [] := by
      rintro rfl
      exact h (.inl (Covered.nil w))
    have hpos : 0 < widthAt w s := by
      rcases Nat.eq_zero_or_pos w with rfl | hw
      · have hwidth : utf8CharWidth s ≠ 0 := fun hzero => h (.inr ⟨rfl, hzero⟩)
        rw [widthAt, if_neg hwidth]
        omega
      · exact widthAt_pos hw s
    rcases Nat.lt_or_ge s.length (widthAt w s) with hlt | hle
    · -- the piece is cut off: the first step is behind the end
      refine ⟨1, ?_⟩
      have hdrop : (s ++ [0]).drop (widthAt w s) = [] := by
        rw [List.drop_eq_nil_iff, List.length_append, List.length_singleton]
        omega
      rw [iterAfter, iterFirst, widthAt_append hs, Utf8Iterator.next,
        if_neg (not_endP hs hnull [0] _)]
      dsimp only
      rw [hdrop, Utf8Iterator.iter0, if_pos rfl, error_bind]
    · have hsplit : s.take (widthAt w s) ++ s.drop (widthAt w s) = s := List.take_append_drop _ s
      have hlen : (s.take (widthAt w s)).length = widthAt w s := List.length_take_of_le hle
      generalize s.take (widthAt w s) = c at hsplit hlen
      generalize s.drop (widthAt w s) = r at hsplit
      have hc : c ≠ [] := by
        rintro rfl
        rw [List.length_nil] at hlen
        omega
      subst hsplit
      rw [widthAt_append hc] at hlen
      have hc0 : 0 ∉ c := fun h0 => hnull (List.mem_append_left r h0)
      have hr0 : 0 ∉ r := fun h0 => hnull (List.mem_append_right c h0)
      have hrest : ¬ Contained c.length r := by
        rintro (hcov | ⟨hzero, -⟩)
        · exact h (.inl (Covered.step hc hlen.symm hcov))
        · exact hc (List.eq_nil_of_length_eq_zero hzero)
      have hcpos := List.length_pos_of_ne_nil hc
      rw [List.length_append] at hk
      obtain ⟨n, hn⟩ := ih hr0 hrest (by omega)
      refine ⟨n + 1, ?_⟩
      rw [iterAfter, next_iterFirst hc hc0 hlen.symm, ok_bind, hn]

end Step

/-! ## The loops -/

section Loops

variable {str : Bytes} {itr : Utf8Iterator} {w : ℕ}

/-- A step, with what comes after it. -/
theorem Inside.next_bind {α : Type} {P : α → Prop} {f : Utf8Iterator → Except Fault α}
    (h : Inside str itr) (hf : ∀ nxt, Inside str nxt → Stays P (f nxt)) :
    Stays P (itr.next >>= f) := by
  obtain ⟨nxt, hnext, hinside, -⟩ := h.next
  rw [hnext, ok_bind]
  exact hf nxt hinside

/-- The loop over blanks. -/
theorem Inside.skipWs (h : Inside str itr) (fuel : ℕ) :
    Stays (Inside str) (Dico.skipWs fuel itr) := by
  induction fuel generalizing itr with
  | zero => exact .inl rfl
  | succ fuel ih =>
    rw [Dico.skipWs]
    split_ifs
    · exact h.next_bind fun nxt hnxt => ih hnxt
    · exact stays_ok h

/-- The quote. -/
theorem Inside.openQuote (h : Inside str itr) :
    Stays (fun r => Inside str r.2) (Dico.openQuote itr) := by
  rw [Dico.openQuote]
  split_ifs
  · exact h.next_bind fun nxt hnxt => stays_ok hnxt
  · exact stays_ok h

/-- A character of a token. -/
theorem Inside.tokenStep (h : Inside str itr) (quote : UInt8) :
    Stays (fun r => Inside str r.2) (Dico.tokenStep quote itr) := by
  have hsymbol : ∀ {itr : Utf8Iterator}, Inside str itr → ∀ strs : Bytes → List Bytes,
      Stays (fun r => Inside str r.2) (do
        let sym ← itr.symbol
        let nxt ← itr.next
        (.ok (some (strs sym), nxt) : Except Fault (Option (List Bytes) × Utf8Iterator))) := by
    intro itr h strs
    obtain ⟨sym, hsym⟩ := h.symbol
    rw [hsym, ok_bind]
    exact h.next_bind fun nxt hnxt => stays_ok hnxt
  rw [Dico.tokenStep]
  split_ifs
  · exact stays_ok h
  · exact h.next_bind fun nxt hnxt => stays_ok hnxt
  · refine h.next_bind fun nxt hnxt => ?_
    split_ifs
    · exact hnxt.next_bind fun nxt' hnxt' => stays_ok hnxt'
    · exact hsymbol hnxt fun sym => [[backslash], sym]
  · exact hsymbol h fun sym => [sym]

/-- The characters of a token. -/
theorem Inside.tokenLoop (h : Inside str itr) (quote : UInt8) (fuel : ℕ) (tb : DicoTokbuf) :
    Stays (fun r => Inside str r.1) (Dico.tokenLoop quote fuel itr tb) := by
  induction fuel generalizing itr tb with
  | zero => exact .inl rfl
  | succ fuel ih =>
    rw [Dico.tokenLoop]
    refine stays_bind (h.tokenStep quote) ?_
    rintro ⟨_ | strs, itr'⟩ h'
    · exact stays_ok h'
    · exact ih h' _

/-- **The tokenizer stays inside.** -/
theorem Inside.tokensLoop (h : Inside str itr) (fuel : ℕ) (tb : DicoTokbuf) (argc : ℕ) :
    Stays (fun _ => True) (Dico.tokensLoop fuel itr tb argc) := by
  induction fuel generalizing itr tb argc with
  | zero => exact .inl rfl
  | succ fuel ih =>
    rw [Dico.tokensLoop]
    refine stays_bind (h.skipWs _) fun itr' h' => ?_
    split_ifs
    · exact stays_ok trivial
    · refine stays_bind h'.openQuote ?_
      rintro ⟨quote, itr''⟩ h''
      refine stays_bind (h''.tokenLoop quote _ tb) ?_
      rintro ⟨itr₃, tb'⟩ h₃
      exact ih h₃ _ _

/-- The bytes before it are in the string. -/
theorem lineBefore_of_le {text : Bytes} {len : ℕ} (h : len + itr.cur.length ≤ text.length) :
    ∃ line, lineBefore text itr len = .ok line := by
  unfold lineBefore
  exact ⟨_, if_pos (by omega)⟩

/-- **So does `stream_write_multiline`**: the line it has is what it went
over last. -/
theorem Inside.multilineLoop (h : Inside str itr) (fuel : ℕ) {len : ℕ}
    (hlen : len + itr.cur.length ≤ (str ++ [0]).length) :
    Stays (fun _ => True) (Dico.multilineLoop (str ++ [0]) fuel itr len) := by
  induction fuel generalizing itr len with
  | zero => exact .inl rfl
  | succ fuel ih =>
    rw [Dico.multilineLoop]
    obtain ⟨line, hline⟩ := lineBefore_of_le hlen
    obtain ⟨nxt, hnext, hinside, hstep⟩ := h.next
    split_ifs with hend hempty hnl
    · exact stays_ok trivial
    · rw [hline, ok_bind]
      exact stays_ok trivial
    · rw [hline, ok_bind, hnext, ok_bind]
      have hle := hinside.within.2.length_le
      exact stays_bind (ih hinside (by omega)) fun lines _ => stays_ok trivial
    · rw [hnext, ok_bind]
      have hstep := hstep hend
      exact ih hinside (by omega)

end Loops

/-- **Iteration inside the string.** Whatever the stack holds, the iterator
stays between the start of the string and its end in every step, and with
it the loops of the tokenizer and of `stream_write_multiline`, exactly if
the string is in pieces that are as long as they announce, or if its first
byte announces nothing and the stack holds a zero. -/
theorem iteration_inside_iff (w : ℕ) (s : CText) :
    ((∀ n, ∃ itr, iterAfter n (iterFirst w s.bytes) = .ok itr ∧ Within s.bytes itr) ∧
      (∀ fuel tb argc, tokensLoop fuel (iterFirst w s.bytes) tb argc ≠ .error .bounds) ∧
      ∀ fuel, streamWriteMultiline w fuel s.bytes ≠ .error .bounds) ↔
    Contained w s.bytes := by
  constructor
  · rintro ⟨hiter, -, -⟩
    by_contra hnot
    obtain ⟨n, hn⟩ := iterAfter_bounds s.null_notMem hnot
    obtain ⟨itr, hitr, -⟩ := hiter n
    rw [hn] at hitr
    cases hitr
  · intro h
    have hinside := inside_iterFirst s.null_notMem h
    refine ⟨fun n => ?_, fun fuel tb argc => ?_, fun fuel => ?_⟩
    · obtain ⟨itr, hitr, hin⟩ := hinside.iterAfter n
      exact ⟨itr, hitr, hin.within⟩
    · exact (hinside.tokensLoop fuel tb argc).ne_bounds
    · refine (hinside.multilineLoop fuel ?_).ne_bounds
      rw [Nat.zero_add]
      exact hinside.within.2.length_le

/-- A sequence that the end of the string cuts off. -/
theorem iteration_past_end :
    iterAfter 1 (iterFirst 0 [0xc3]) = .error .bounds ∧
      tokensLoop 1 (iterFirst 0 [0xc3]) .begin 0 = .error .bounds ∧
      streamWriteMultiline 0 1 [0xc3] = .error .bounds := by
  decide +kernel

end Dico
