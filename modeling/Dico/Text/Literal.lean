import Dico.Text.Tokens
/-!
# Text that stands for itself

Text that is put into a line without quoting comes back as it was exactly
when the tokenizer copies all of it (`Literal`): cut into characters the
way the iterator does, it comes out even, no character is the double
quote, and behind every backslash is a character that is not ASCII.
`literal_iff_walk` connects the condition to the walks of the iterator.
-/

namespace Dico

open Utf8Iterator

/-- The characters of a text as the iterator cuts it: as wide as the first
byte announces, and a byte that announces nothing as wide as the character
before. There are none if the last one is cut off. -/
def symbolsLoop : ℕ → ℕ → Bytes → Option (List Bytes)
  | _, _, [] => some []
  | 0, _, _ :: _ => none
  | fuel + 1, w, b :: r =>
    let n := widthAt w (b :: r)
    if n ≤ (b :: r).length then
      (symbolsLoop fuel n ((b :: r).drop n)).map ((b :: r).take n :: ·)
    else none

/-- The characters of a text. -/
def symbols (text : Bytes) : Option (List Bytes) := symbolsLoop text.length 1 text

/-- A character that is one ASCII byte. -/
def asciiSymbol : Bytes → Bool
  | [b] => b < 0x80
  | _ => false

/-- Characters the tokenizer copies: no quote, and no backslash but before
a character that is not ASCII. -/
def literalSymbols : List Bytes → Bool
  | [] => true
  | [s] => s ≠ [backslash] ∧ s ≠ [doubleQuote]
  | s :: t :: ss =>
    if s = [backslash] then !asciiSymbol t && literalSymbols ss
    else s ≠ [doubleQuote] ∧ literalSymbols (t :: ss)

/-- A text that stands for itself between quotes. -/
def literal (text : Bytes) : Bool :=
  match symbols text with
  | some ss => literalSymbols ss
  | none => false

example : literal (ascii "a b'c") = true ∧ literal (ascii "a\"b") = false ∧
    literal [92, 0xc3, 0xa9] = true ∧ literal [97, 0xe2, 0x82] = false := by decide +kernel

/-! ## The characters one by one -/

section Symbols

variable {s t : Bytes} {ss : List Bytes} {v r : Bytes} {w fuel : ℕ} {b : UInt8}

/-- A character that is copied in front. -/
theorem literalSymbols_cons (hs : s ≠ [backslash]) :
    literalSymbols (s :: ss) = true ↔ s ≠ [doubleQuote] ∧ literalSymbols ss = true := by
  cases ss with
  | nil =>
    change decide (s ≠ [backslash] ∧ s ≠ [doubleQuote]) = true ↔ _
    rw [decide_eq_true_iff]
    exact ⟨fun h => ⟨h.2, rfl⟩, fun h => ⟨hs, h.1⟩⟩
  | cons t ss => rw [literalSymbols, if_neg hs, decide_eq_true_iff]

/-- A backslash in front. -/
theorem literalSymbols_backslash :
    literalSymbols ([backslash] :: ss) = true ↔
      ∃ t ts, ss = t :: ts ∧ asciiSymbol t = false ∧ literalSymbols ts = true := by
  cases ss with
  | nil =>
    refine iff_of_false ?_ fun h => ?_
    · rw [literalSymbols, decide_eq_true_iff]
      exact fun h => h.1 rfl
    · obtain ⟨t, ts, h, -⟩ := h
      cases h
  | cons t ts =>
    rw [literalSymbols, if_pos rfl, Bool.and_eq_true, Bool.not_eq_true']
    constructor
    · intro h
      exact ⟨t, ts, rfl, h⟩
    · rintro ⟨t', ts', h, ha⟩
      obtain ⟨rfl, rfl⟩ := List.cons.inj h
      exact ha

/-- The first character of a text. -/
theorem symbolsLoop_append (hs : s ≠ []) (hw : widthAt w s = s.length) :
    symbolsLoop (fuel + 1) w (s ++ v) = (symbolsLoop fuel s.length v).map (s :: ·) := by
  obtain ⟨b, q, rfl⟩ := List.exists_cons_of_ne_nil hs
  have hn : widthAt w (b :: q ++ v) = (b :: q).length := (widthAt_append hs).trans hw
  rw [List.cons_append] at hn ⊢
  rw [symbolsLoop]
  simp only [hn]
  have hle : (b :: q).length ≤ (b :: (q ++ v)).length := by
    simp only [List.length_cons, List.length_append]
    omega
  rw [if_pos hle]
  have hdrop : (b :: q ++ v).drop (b :: q).length = v := List.drop_left
  have htake : (b :: q ++ v).take (b :: q).length = b :: q := List.take_left
  rw [← List.cons_append, hdrop, htake]

/-- And the first character of a text that has been cut. -/
theorem symbolsLoop_cons (h : symbolsLoop fuel w v = some ss) (hw : 0 < w) (hv : v ≠ []) :
    ∃ fuel' s v' ss', v = s ++ v' ∧ s ≠ [] ∧ widthAt w v = s.length ∧ ss = s :: ss' ∧
      symbolsLoop fuel' s.length v' = some ss' := by
  obtain ⟨b, r, rfl⟩ := List.exists_cons_of_ne_nil hv
  cases fuel with
  | zero => cases h
  | succ fuel =>
    rw [symbolsLoop] at h
    split_ifs at h with hle
    obtain ⟨ss', hss', rfl⟩ := Option.map_eq_some_iff.1 h
    have hlen : ((b :: r).take (widthAt w (b :: r))).length = widthAt w (b :: r) :=
      List.length_take_of_le hle
    refine ⟨fuel, (b :: r).take (widthAt w (b :: r)), (b :: r).drop (widthAt w (b :: r)), ss',
      (List.take_append_drop _ _).symm, ?_, hlen.symm, rfl, ?_⟩
    · intro hnil
      have hpos := widthAt_pos hw (b :: r)
      rw [hnil, List.length_nil] at hlen
      omega
    · rw [hlen]
      exact hss'

/-- A character is ASCII for the iterator when it is one ASCII byte. -/
theorem asciiSymbol_iff {itr : Utf8Iterator} (hs : itr.cur = s ++ r) (hw : itr.curwidth = s.length)
    (hne : s ≠ []) : itr.isAscii ↔ asciiSymbol s = true := by
  obtain ⟨b, q, rfl⟩ := List.exists_cons_of_ne_nil hne
  have hchar : itr.char = b := by
    rw [char, hs]
    rfl
  rw [isAscii, hchar, hw]
  cases q with
  | nil => exact ⟨fun h => decide_eq_true h.2, fun h => ⟨rfl, of_decide_eq_true h⟩⟩
  | cons c q =>
    refine iff_of_false (fun h => ?_) fun h => ?_
    · have := h.1
      simp only [List.length_cons] at this
      omega
    · cases h

end Symbols

/-! ## Literal text is walked over -/

section Walks

variable {quote d : UInt8} {v tail : Bytes} {w fuel : ℕ} {ss : List Bytes}

/-- The quote of a token, or a text that needs none. -/
def Fenced (quote : UInt8) (text : Bytes) : Prop :=
  quote = doubleQuote ∨ quote = 0 ∧ doubleQuote ∉ text ∧ ∀ b ∈ text, ¬ isWs b

/-- The end of such a text is one. -/
theorem Fenced.mono {s : Bytes} (h : Fenced quote (s ++ v)) : Fenced quote v := by
  rcases h with h | ⟨h, hq, hws⟩
  · exact .inl h
  · exact .inr ⟨h, fun hv => hq (List.mem_append_right _ hv),
      fun b hb => hws b (List.mem_append_right _ hb)⟩

/-- A token in quotes, or without them, does not end at a backslash. -/
theorem Fenced.ne_backslash (h : Fenced quote v) : quote ≠ backslash := by
  rcases h with rfl | ⟨rfl, -⟩
  · decide
  · decide

/-- A character that is copied, at the start of the text. -/
theorem tokenStep_symbol (d : UInt8) (tail : Bytes) {s : Bytes} (hs : s ≠ [])
    (hw : widthAt w (s ++ v) = s.length) (hback : s ≠ [backslash]) (hquote : s ≠ [doubleQuote])
    (hfence : Fenced quote (s ++ v)) (h₀ : 0 ∉ s) :
    tokenStep quote (pos w (s ++ v ++ d :: tail)) =
      .ok (some [s], pos s.length (v ++ d :: tail)) := by
  obtain ⟨b, q, hbq⟩ := List.exists_cons_of_ne_nil hs
  have hwidth : (pos w (s ++ v ++ d :: tail)).curwidth = s.length := by
    rw [pos, widthAt_append (List.append_ne_nil_of_left_ne_nil hs v)]
    exact hw
  have hcur : (pos w (s ++ v ++ d :: tail)).cur = s ++ (v ++ d :: tail) := List.append_assoc ..
  have hchar : (pos w (s ++ v ++ d :: tail)).char = b := by
    rw [char, hcur, hbq]
    rfl
  have hmem : b ∈ s := hbq ▸ List.mem_cons_self
  have hcopy := tokenStep_copy quote (pos w (s ++ v ++ d :: tail))
    (by
      rw [endP, hchar]
      exact fun h => h₀ (h ▸ hmem))
    (by
      intro ha
      -- an ASCII character is a text of one byte
      have hone : s = [b] := by
        rw [asciiSymbol_iff hcur hwidth hs, hbq] at ha
        cases q with
        | nil => exact hbq
        | cons c q => cases ha
      rw [hchar]
      refine ⟨?_, fun h => hback (h ▸ hone), ?_⟩
      · rintro rfl
        rcases hfence with rfl | ⟨rfl, -⟩
        · exact hquote hone
        · exact h₀ hmem
      · rintro ⟨rfl, hws⟩
        rcases hfence with h | ⟨-, -, h⟩
        · cases h
        · exact h b (List.mem_append_left _ hmem) hws)
    (by
      rw [hwidth, hcur, List.drop_left]
      exact List.append_ne_nil_of_right_ne_nil _ (List.cons_ne_nil _ _))
  rw [hwidth, hcur, List.take_left, List.drop_left] at hcopy
  exact hcopy

/-- **Text that stands for itself is stored as it is.** -/
theorem walk_of_literalSymbols (hsym : symbolsLoop fuel w v = some ss) (hw : 0 < w)
    (hlit : literalSymbols ss = true) (hfence : Fenced quote v) (h₀ : 0 ∉ v) (hd : d < 0x80) :
    Walk quote (pos w (v ++ d :: tail)) v v (pos 1 (d :: tail)) := by
  -- by induction on the length: a backslash takes the next character with it
  induction hn : v.length using Nat.strong_induction_on generalizing v w fuel ss with
  | h n ih =>
    rcases eq_or_ne v [] with rfl | hv
    · rw [List.nil_append, pos_ascii hd]
      exact .refl _
    obtain ⟨fuel₁, s, v₁, ss₁, rfl, hs, hws, rfl, hsym₁⟩ := symbolsLoop_cons hsym hw hv
    have hpos := List.length_pos_of_ne_nil hs
    have h₀' := not_or.1 (fun h => h₀ (List.mem_append.2 h))
    have hne : v₁ ++ d :: tail ≠ [] :=
      List.append_ne_nil_of_right_ne_nil _ (List.cons_ne_nil _ _)
    rw [List.length_append] at hn
    by_cases hback : s = [backslash]
    · subst hback
      obtain ⟨t, ts, rfl, hta, hts⟩ := literalSymbols_backslash.1 hlit
      have hv₁ : v₁ ≠ [] := by
        rintro rfl
        cases fuel₁ with
        | zero => cases hsym₁
        | succ k => cases hsym₁
      obtain ⟨fuel₂, t', v₂, ss₂, rfl, ht, hwt, hcons, hsym₂⟩ :=
        symbolsLoop_cons hsym₁ Nat.one_pos hv₁
      obtain ⟨rfl, rfl⟩ := List.cons.inj hcons
      have hwidth : widthAt 1 (t ++ v₂ ++ d :: tail) = t.length := by
        rw [widthAt_append hv₁]
        exact hwt
      have hrest : v₂ ++ d :: tail ≠ [] :=
        List.append_ne_nil_of_right_ne_nil _ (List.cons_ne_nil _ _)
      have hascii : ¬ (pos 1 (t ++ v₂ ++ d :: tail)).isAscii := by
        rw [asciiSymbol_iff (List.append_assoc t v₂ (d :: tail)) hwidth ht, hta]
        exact Bool.false_ne_true
      have hstep := tokenStep_wide (w := w) hfence.ne_backslash hne hascii (by
        rw [hwidth, List.append_assoc, List.drop_left]
        exact hrest)
      rw [hwidth, List.append_assoc, List.take_left, List.drop_left] at hstep
      have hwalk := ih v₂.length (by rw [List.length_append] at hn; omega) hsym₂
        (List.length_pos_of_ne_nil ht) hts hfence.mono.mono
        (fun h => h₀'.2 (List.mem_append_right _ h)) rfl
      have := Walk.step hstep (r := backslash :: t) (by rw [pos]; rfl) (List.cons_ne_nil _ _)
        (by
          rw [List.flatten_cons, List.flatten_singleton]
          exact .copied _) hwalk
      simpa only [List.flatten_cons, List.flatten_nil, List.append_nil, List.cons_append,
        List.nil_append, List.append_assoc] using this
    · obtain ⟨hquote, hss⟩ := (literalSymbols_cons hback).1 hlit
      have hstep := tokenStep_symbol d tail hs hws hback hquote hfence h₀'.1
      have hwalk := ih v₁.length (by omega) hsym₁ hpos hss hfence.mono h₀'.2 rfl
      have := Walk.step hstep (r := s) (List.append_assoc ..) hs
        (by
          rw [List.flatten_singleton]
          exact .copied _) hwalk
      rw [List.flatten_singleton] at this
      exact this

/-! ## And what is stored as it is stands for itself -/

/-- No more is stored than was walked over. -/
theorem Walk.length_le {itr itr₂ : Utf8Iterator} {R P : Bytes} (h : Walk quote itr R P itr₂) :
    P.length ≤ R.length := by
  induction h with
  | refl itr => exact le_rfl
  | @step _ _ _ strs r _ _ _ _ _ htaken _ ih =>
    have hle : strs.flatten.length ≤ r.length := by
      generalize strs.flatten = p at htaken
      cases htaken with
      | copied => exact le_rfl
      | escaped c _ => exact Nat.le_succ 1
      | ended => exact le_rfl
    rw [List.length_append, List.length_append]
    omega

/-- A step that stores what it goes over: a character, or a backslash and
a character that is not ASCII. -/
theorem tokenStep_copies {itr nxt : Utf8Iterator} {strs : List Bytes} (hp : itr.Placed)
    (h : tokenStep quote itr = .ok (some strs, nxt)) (hcur : itr.cur = strs.flatten ++ nxt.cur) :
    (¬ (itr.isAscii ∧ (itr.char = quote ∨ itr.char = backslash)) ∧
      strs.flatten.length = itr.curwidth ∧ nxt = pos itr.curwidth nxt.cur) ∨
    (itr.isAscii ∧ itr.char = backslash ∧ ∃ mid t, itr.next = .ok mid ∧ ¬ mid.isAscii ∧
      strs.flatten = backslash :: t ∧ mid.cur = t ++ nxt.cur ∧ t.length = mid.curwidth ∧
      nxt = pos mid.curwidth nxt.cur) := by
  rcases tokenStep_some h with ⟨hend, hascii, hle, rfl, hn⟩ | ⟨ha, hc, -, mid, hmid, hn, hstrs⟩
  · obtain ⟨-, rfl⟩ := (next_eq_ok hend).1 hn
    refine .inl ⟨hascii, ?_, rfl⟩
    rw [List.flatten_singleton]
    exact List.length_take_of_le hle
  · have hend : ¬ itr.endP := by
      rw [endP, hc]
      decide
    have hpm : mid.Placed := hp.next hmid
    have hcur' := cur_of_next_ascii hp hend ha hmid
    rw [hc] at hcur'
    rcases hstrs with ⟨hma, rfl⟩ | ⟨hma, hle, rfl⟩
    · -- one byte is stored for two, or a null for the backslash
      exfalso
      rw [hcur', List.flatten_singleton, List.singleton_append] at hcur
      obtain ⟨hq, hcur⟩ := List.cons.inj hcur
      by_cases hmend : mid.endP
      · rw [show mid.char = 0 from hmend] at hq
        exact absurd hq (by decide)
      · have := congrArg List.length (cur_of_next_ascii hpm hmend hma hn)
        rw [hcur, List.length_cons] at this
        omega
    · have hmend : ¬ mid.endP := fun hmend => hma (hpm.isAscii_of_endP hmend)
      refine .inr ⟨ha, hc, mid, mid.cur.take mid.curwidth, hmid, hma, ?_, cur_of_next hmend hn,
        List.length_take_of_le hle, ?_⟩
      · rw [List.flatten_cons, List.flatten_singleton]
        rfl
      · obtain ⟨-, rfl⟩ := (next_eq_ok hmend).1 hn
        rfl

/-- **What is stored as it is stands for itself.** -/
theorem literalSymbols_of_walk {itr itr₂ : Utf8Iterator} {R P : Bytes}
    (h : Walk quote itr R P itr₂) (hp : itr.Placed) (hRP : R = P) (h₀ : 0 ∉ R)
    (hquote : quote = doubleQuote ∨ doubleQuote ∉ R) (hw : 0 < w)
    (hwidth : itr.curwidth = widthAt w itr.cur) (hfuel : R.length ≤ fuel) :
    ∃ ss, symbolsLoop fuel w R = some ss ∧ literalSymbols ss = true := by
  induction h generalizing w fuel with
  | refl itr =>
    refine ⟨[], ?_, rfl⟩
    rw [symbolsLoop]
  | @step itr itr₁ itr₂ strs r R P hstep hcur hne htaken hwalk ih =>
    obtain ⟨r', hcur', -, -, hp₁⟩ := taken_of_tokenStep hp hstep
    have hlen := hwalk.length_le
    -- what is stored for this step is what it went over
    have hr : strs.flatten = r := by
      generalize hflat : strs.flatten = p at htaken hRP
      cases htaken with
      | copied => rfl
      | escaped c _ =>
        have := congrArg List.length hRP
        simp only [List.length_append, List.length_cons, List.length_nil] at this
        omega
      | ended =>
        obtain ⟨hb, -⟩ := List.cons.inj hRP
        exact absurd hb (by decide)
    rw [hr, List.append_right_inj] at hRP
    have hcopy := tokenStep_copies hp hstep (hr.symm ▸ hcur)
    rw [hr] at hcopy
    have hzero : 0 ∉ r ∧ 0 ∉ R := not_or.1 fun hmem => h₀ (List.mem_append.2 hmem)
    have hquoteR : quote = doubleQuote ∨ doubleQuote ∉ R :=
      hquote.imp_right fun hmem hR => hmem (List.mem_append_right _ hR)
    have hpos := List.length_pos_of_ne_nil hne
    rw [List.length_append] at hfuel
    rcases hcopy with ⟨hascii, hlenr, hnxt⟩ | ⟨ha, hc, mid, t, hmid, hma, rfl, hmcur, ht, hnxt⟩
    · obtain ⟨fuel, rfl⟩ : ∃ k, fuel = k + 1 := ⟨fuel - 1, by omega⟩
      obtain ⟨ss, hss, hlit⟩ := ih hp₁ hRP hzero.2 hquoteR hpos
        (by rw [hlenr]; exact congrArg curwidth hnxt) (show R.length ≤ fuel by omega)
      have hwr : widthAt w r = r.length := by
        rw [hlenr, hwidth, hcur, widthAt_append hne]
      refine ⟨r :: ss, by rw [symbolsLoop_append hne hwr, hss]; rfl, ?_⟩
      have hne_of : ∀ b : UInt8, b < 0x80 → (b = quote ∨ b = backslash) → r ≠ [b] := by
        rintro b hb hspecial rfl
        refine hascii ⟨(asciiSymbol_iff hcur hlenr.symm hne).2 (decide_eq_true hb), ?_⟩
        rw [char, hcur]
        exact hspecial
      rw [literalSymbols_cons (hne_of backslash (by decide) (.inr rfl))]
      refine ⟨?_, hlit⟩
      rcases hquote with hq | hq
      · exact hne_of doubleQuote (by decide) (.inl hq.symm)
      · rintro rfl
        exact hq (List.mem_append_left _ (List.mem_singleton_self _))
    · have hend : ¬ itr.endP := by
        rw [endP, hc]
        decide
      obtain ⟨hmne, hmpos⟩ := (next_eq_ok hend).1 hmid
      rw [ha.1] at hmpos
      have htne : t ≠ [] := by
        rintro rfl
        exact absurd ht.symm (Nat.ne_of_gt (hp.next hmid).width_pos)
      have hwt : widthAt 1 t = t.length := by
        have hmw : mid.curwidth = widthAt 1 mid.cur := by rw [hmpos]; rfl
        rw [ht, hmw, hmcur, widthAt_append htne]
      have hpt := List.length_pos_of_ne_nil htne
      rw [List.length_cons] at hfuel
      obtain ⟨fuel, rfl⟩ : ∃ k, fuel = k + 2 := ⟨fuel - 2, by omega⟩
      obtain ⟨ss, hss, hlit⟩ := ih hp₁ hRP hzero.2 hquoteR hpt
        (by rw [ht]; exact congrArg curwidth hnxt) (show R.length ≤ fuel by omega)
      have hwb : widthAt w [backslash] = [backslash].length := widthAt_ascii (by decide)
      refine ⟨[backslash] :: t :: ss, ?_, ?_⟩
      · rw [show backslash :: t ++ R = [backslash] ++ (t ++ R) from rfl,
          symbolsLoop_append (List.cons_ne_nil _ _) hwb,
          show [backslash].length = 1 from rfl, symbolsLoop_append htne hwt, hss]
        rfl
      · refine literalSymbols_backslash.2 ⟨t, ss, rfl, ?_, hlit⟩
        rwa [asciiSymbol_iff hmcur ht.symm htne, Bool.not_eq_true] at hma

end Walks

/-! ## Tokens -/

section Tokens

variable {quote d : UInt8} {v tail : Bytes} {itr : Utf8Iterator}

/-- Text that stands for itself, with its characters. -/
theorem literal_iff :
    literal v = true ↔ ∃ ss, symbolsLoop v.length 1 v = some ss ∧ literalSymbols ss = true := by
  rw [literal, symbols]
  cases symbolsLoop v.length 1 v with
  | none => exact iff_of_false Bool.false_ne_true fun ⟨ss, h, _⟩ => by cases h
  | some ss => exact ⟨fun h => ⟨ss, rfl, h⟩, fun ⟨ss', h, hl⟩ => Option.some.inj h ▸ hl⟩

/-- Its walk. -/
theorem walk_of_literal (tail : Bytes) (hlit : literal v = true) (hfence : Fenced quote v)
    (h₀ : 0 ∉ v) (hd : d < 0x80) : Walk quote (pos 1 (v ++ d :: tail)) v v (pos 1 (d :: tail)) := by
  obtain ⟨ss, hss, hlit⟩ := literal_iff.1 hlit
  exact walk_of_literalSymbols hss Nat.one_pos hlit hfence h₀ hd

/-- **A token that is the text up to the delimiter** is text that stands
for itself, and ends there. -/
theorem literal_of_walk {R P : Bytes} (hwalk : Walk quote (pos 1 (v ++ d :: tail)) R P itr)
    (hp : itr.Placed) (hd : d < 0x80) (hkept : Kept d) (hd₀ : d ≠ 0) (h₀ : 0 ∉ v)
    (hquote : quote = doubleQuote ∨ doubleQuote ∉ v) (htok : P.takeWhile (· ≠ 0) = v) :
    P = v ∧ literal v = true ∧ itr = pos 1 (d :: tail) := by
  have hne : v ++ d :: tail ≠ [] :=
    List.append_ne_nil_of_right_ne_nil _ (List.cons_ne_nil _ _)
  have hp₀ : (pos 1 (v ++ d :: tail)).Placed := placed_pos Nat.one_pos hne
  obtain ⟨rfl, rfl⟩ := hwalk.exact rfl hkept hd₀ htok
  refine ⟨rfl, literal_iff.2 (literalSymbols_of_walk hwalk hp₀ rfl h₀ hquote Nat.one_pos rfl
    le_rfl), ?_⟩
  have hcur : itr.cur = d :: tail := (List.append_cancel_left hwalk.cur).symm
  obtain ⟨-, w, -, hw⟩ := hp
  rw [← pos_ascii (w := w) hd, pos, ← hcur, ← hw]

end Tokens

/-! ## Tokens in a line -/

section Lines

variable {lead v rest : Bytes} {tb tb' : DicoTokbuf} {fuel argc argc' : ℕ}

/-- A token without quotes that is text standing for itself. -/
theorem tokensLoop_literal (fuel argc : ℕ) (rest : Bytes) (hlead : lead = [] ∨ lead = [space])
    (hlit : literal v = true) (hv : v ≠ []) (h₀ : 0 ∉ v) (hplain : ∀ b ∈ v, ¬ isWs b ∧ ¬ isQuote b)
    (hfit : tb.base.length ≤ tb.size) :
    ∃ tb', tokensLoop (fuel + 1) (pos 1 (lead ++ (v ++ space :: rest))) tb argc =
        tokensLoop fuel (pos 1 (space :: rest)) tb' (argc + 1) ∧ Grown tb (v ++ [0]) tb' := by
  have hfence : Fenced 0 v :=
    .inr ⟨rfl, fun h => (hplain _ h).2 (.inl rfl), fun b hb => (hplain b hb).1⟩
  have hwalk := walk_of_literal rest hlit hfence h₀ (d := space) (by decide)
  have hfuel : v.length < (v ++ space :: rest).length + 1 := by
    rw [List.length_append]
    omega
  obtain ⟨tb₁, hrun, hgrown⟩ := tokenLoop_of_walk hfit hwalk (tokenStep_ws (.inl rfl)) hfuel
  refine ⟨tb₁.tknGrow [0], ?_, hgrown.trans (grown_tknGrow tb₁ [0])⟩
  obtain ⟨b, q, rfl⟩ := List.exists_cons_of_ne_nil hv
  obtain ⟨hws, hq⟩ := hplain b List.mem_cons_self
  rw [List.cons_append] at hrun ⊢
  rw [tokensLoop_bare hlead hws hq fun hb => h₀ (hb ▸ List.mem_cons_self), hrun, ok_bind]

/-- **A token in quotes, judged by what it is.** -/
theorem literal_of_tokensLoop_quoted (hlead : lead = [] ∨ lead = [space]) (h₀ : 0 ∉ v)
    (hrest : rest ≠ []) (hfit : tb.base.length ≤ tb.size)
    (h : tokensLoop (fuel + 1) (pos 1 (lead ++ doubleQuote :: (v ++ doubleQuote :: rest))) tb argc =
      .ok (tb', argc')) :
    ∃ P tb₁ Q itr, Grown tb (P ++ [0]) tb₁ ∧ Grown tb₁ Q tb' ∧ argc + 1 ≤ argc' ∧
      tokensLoop fuel itr tb₁ (argc + 1) = .ok (tb', argc') ∧
      (P.takeWhile (· ≠ 0) = v → P = v ∧ literal v = true ∧ itr = pos 1 rest) := by
  have htext : v ++ doubleQuote :: rest ≠ [] :=
    List.append_ne_nil_of_right_ne_nil _ (List.cons_ne_nil _ _)
  rw [tokensLoop_quoted hlead htext] at h
  obtain ⟨R, P, itr₁, itr, tb₁, Q, hwalk, hp, hstop, hgrown, hgrown', hle, hmore⟩ :=
    walk_of_tokensLoop htext hfit h
  refine ⟨P, tb₁, Q, itr, hgrown, hgrown', hle, hmore, fun htok => ?_⟩
  obtain ⟨hP, hlit, rfl⟩ := literal_of_walk hwalk hp (by decide) ⟨by decide, .inl (by decide)⟩
    (by decide) h₀ (.inl rfl) htok
  rw [tokenStep_quote (by decide) (by decide) hrest] at hstop
  exact ⟨hP, hlit, (Prod.mk.inj (Except.ok.inj hstop)).2.symm⟩

/-- **And one without quotes.** -/
theorem literal_of_tokensLoop_bare (hlead : lead = [] ∨ lead = [space]) (hv : v ≠ [])
    (h₀ : 0 ∉ v) (hplain : ∀ b ∈ v, ¬ isWs b ∧ ¬ isQuote b) (hfit : tb.base.length ≤ tb.size)
    (h : tokensLoop (fuel + 1) (pos 1 (lead ++ (v ++ space :: rest))) tb argc =
      .ok (tb', argc')) :
    ∃ P tb₁ Q itr, Grown tb (P ++ [0]) tb₁ ∧ Grown tb₁ Q tb' ∧ argc + 1 ≤ argc' ∧
      tokensLoop fuel itr tb₁ (argc + 1) = .ok (tb', argc') ∧
      (P.takeWhile (· ≠ 0) = v → P = v ∧ literal v = true ∧ itr = pos 1 (space :: rest)) := by
  obtain ⟨b, q, rfl⟩ := List.exists_cons_of_ne_nil hv
  obtain ⟨hws, hq⟩ := hplain b List.mem_cons_self
  rw [List.cons_append,
    tokensLoop_bare hlead hws hq fun hb => h₀ (hb ▸ List.mem_cons_self)] at h
  obtain ⟨R, P, itr₁, itr, tb₁, Q, hwalk, hp, hstop, hgrown, hgrown', hle, hmore⟩ :=
    walk_of_tokensLoop (List.cons_ne_nil _ _) hfit h
  refine ⟨P, tb₁, Q, itr, hgrown, hgrown', hle, hmore, fun htok => ?_⟩
  obtain ⟨hP, hlit, rfl⟩ := literal_of_walk (v := b :: q) (d := space) hwalk hp (by decide)
    ⟨by decide, .inr (by decide)⟩ (by decide) h₀ (.inr fun h => (hplain _ h).2 (.inl rfl)) htok
  rw [tokenStep_ws (.inl rfl)] at hstop
  exact ⟨hP, hlit, (Prod.mk.inj (Except.ok.inj hstop)).2.symm⟩

end Lines

end Dico
