import Dico.Text.Iterator
import Mathlib.Data.List.TakeWhile
/-!
# What the tokenizer stores

The iterator walks over a stretch of the string, and the tokenizer stores
something for it (`Walk`): the bytes themselves, or one byte for a
backslash and the character behind it. A token is read back up to the
first null, so a walk can be judged by its token: `Walk.exact` says that
where the token is the text up to a delimiter, the walk went over that
text, byte by byte, and stopped there.
-/

namespace Dico

namespace Utf8Iterator

variable {itr nxt : Utf8Iterator} {b : UInt8} {r : Bytes} {w : ℕ}

/-- The iterator at some bytes, when it had a width before. -/
def pos (w : ℕ) (cur : Bytes) : Utf8Iterator := ⟨cur, widthAt w cur⟩

/-- An iterator that has been put somewhere: there is a byte, and the
width is that of a character, or the one from before. -/
def Placed (itr : Utf8Iterator) : Prop :=
  itr.cur ≠ [] ∧ ∃ w, 0 < w ∧ itr.curwidth = widthAt w itr.cur

/-- An ASCII byte announces one byte. -/
theorem widthAt_ascii (h : b < 0x80) : widthAt w (b :: r) = 1 := by
  have hle : b ≤ 0x7f := by
    rw [UInt8.lt_iff_toNat_lt] at h
    rw [UInt8.le_iff_toNat_le]
    exact Nat.le_of_lt_succ h
  have hw : utf8CharWidth (b :: r) = 1 := if_pos hle
  rw [widthAt, hw, if_neg (by decide)]

/-- An iterator put on bytes that are there. -/
theorem iter0_eq_ok {cur : Bytes} : iter0 cur w = .ok itr ↔ cur ≠ [] ∧ itr = pos w cur := by
  unfold iter0
  split_ifs with h
  · exact iff_of_false (fun hc => by cases hc) fun hc => hc.1 h
  · constructor
    · intro hc
      exact ⟨h, (Except.ok.inj hc).symm⟩
    · rintro ⟨-, rfl⟩
      rfl

/-- A step that is not the last. -/
theorem next_eq_ok (hend : ¬ itr.endP) :
    itr.next = .ok nxt ↔
      itr.cur.drop itr.curwidth ≠ [] ∧ nxt = pos itr.curwidth (itr.cur.drop itr.curwidth) := by
  rw [next, if_neg hend, iter0_eq_ok]

/-- The first byte, where there is one. -/
theorem Placed.cons (h : itr.Placed) : ∃ r, itr.cur = itr.char :: r := by
  obtain ⟨b, r, hbr⟩ := List.exists_cons_of_ne_nil h.1
  rw [char, hbr]
  exact ⟨r, rfl⟩

/-- The width is not zero. -/
theorem Placed.width_pos (h : itr.Placed) : 0 < itr.curwidth := by
  obtain ⟨-, w, hw, hitr⟩ := h
  rw [hitr]
  exact widthAt_pos hw _

/-- An iterator put on bytes. -/
theorem placed_pos {cur : Bytes} (hw : 0 < w) (hcur : cur ≠ []) : (pos w cur).Placed :=
  ⟨hcur, w, hw, rfl⟩

/-- The null byte is ASCII. -/
theorem Placed.isAscii_of_endP (h : itr.Placed) (hend : itr.endP) : itr.isAscii := by
  obtain ⟨r, hr⟩ := h.cons
  obtain ⟨-, w, hw, hitr⟩ := h
  have hchar : itr.char = 0 := hend
  rw [hchar] at hr
  refine ⟨?_, ?_⟩
  · rw [hitr, hr]
    exact widthAt_ascii (by decide)
  · rw [hchar]
    decide

/-- A step leads somewhere. -/
theorem Placed.next (h : itr.Placed) (hn : itr.next = .ok nxt) : nxt.Placed := by
  by_cases hend : itr.endP
  · rw [Utf8Iterator.next, if_pos hend] at hn
    obtain rfl := Except.ok.inj hn
    exact h
  · obtain ⟨hne, rfl⟩ := (next_eq_ok hend).1 hn
    exact placed_pos h.width_pos hne

/-- A step over an ASCII byte. -/
theorem next_pos_ascii (hb : b < 0x80) (h₀ : b ≠ 0) (hr : r ≠ []) :
    (pos w (b :: r)).next = .ok (pos 1 r) := by
  have hend : ¬ (pos w (b :: r)).endP := h₀
  have hw : widthAt w (b :: r) = 1 := widthAt_ascii hb
  rw [next_eq_ok hend, pos, pos, hw]
  exact ⟨hr, rfl⟩

/-- ASCII bytes are seen as such. -/
theorem isAscii_pos (hb : b < 0x80) : (pos w (b :: r)).isAscii := ⟨widthAt_ascii hb, hb⟩

end Utf8Iterator

open Utf8Iterator

/-! ## The buffer grows -/

/-- A buffer into which some bytes have been put. It is the same block as
long as the bytes fit. -/
structure Grown (tb : DicoTokbuf) (str : Bytes) (tb' : DicoTokbuf) : Prop where
  base : tb'.base = tb.base ++ str
  tokv : tb'.tokv = tb.tokv
  keep : tb'.base.length ≤ tb.size → tb'.size = tb.size ∧ tb'.block = tb.block
  move : tb.size < tb'.base.length →
    tb.block < tb'.block ∧ tb'.size = (tb'.base.length + 255) / 256 * 256

section Grown

variable {tb tb₁ tb' : DicoTokbuf} {s t : Bytes}

/-- Nothing put into it. -/
theorem Grown.refl (h : tb.base.length ≤ tb.size) : Grown tb [] tb :=
  ⟨(List.append_nil _).symm, rfl, fun _ => ⟨rfl, rfl⟩, fun hlt => absurd hlt (not_lt.2 h)⟩

/-- The bytes fit in. -/
theorem Grown.fits (h : Grown tb s tb') : tb'.base.length ≤ tb'.size := by
  rcases Nat.lt_or_ge tb.size tb'.base.length with hlt | hle
  · rw [(h.move hlt).2]
    omega
  · rw [(h.keep hle).1]
    exact hle

/-- Some bytes, then more. -/
theorem Grown.trans (h₁ : Grown tb s tb₁) (h₂ : Grown tb₁ t tb') : Grown tb (s ++ t) tb' := by
  have hlen : tb₁.base.length ≤ tb'.base.length := by
    rw [h₂.base, List.length_append]
    omega
  refine ⟨by rw [h₂.base, h₁.base, List.append_assoc], h₂.tokv.trans h₁.tokv, ?_, ?_⟩
  · intro hle
    obtain ⟨hs, hb⟩ := h₁.keep (by omega)
    obtain ⟨hs', hb'⟩ := h₂.keep (by omega)
    exact ⟨hs'.trans hs, hb'.trans hb⟩
  · intro hlt
    rcases Nat.lt_or_ge tb.size tb₁.base.length with hlt₁ | hle₁
    · obtain ⟨hb, hs⟩ := h₁.move hlt₁
      rcases Nat.lt_or_ge tb₁.size tb'.base.length with hlt₂ | hle₂
      · obtain ⟨hb', hs'⟩ := h₂.move hlt₂
        exact ⟨hb.trans hb', hs'⟩
      · obtain ⟨hs', hb'⟩ := h₂.keep hle₂
        exact ⟨by omega, by omega⟩
    · obtain ⟨hs, hb⟩ := h₁.keep hle₁
      obtain ⟨hb', hs'⟩ := h₂.move (by omega)
      exact ⟨by omega, hs'⟩

/-- `_dico_tkn_grow` puts its bytes in. -/
theorem grown_tknGrow (tb : DicoTokbuf) (s : Bytes) : Grown tb s (tb.tknGrow s) := by
  unfold DicoTokbuf.tknGrow
  simp only [gt_iff_lt]
  split_ifs with hlt
  · refine ⟨rfl, rfl, fun hle => ?_, fun _ => ⟨Nat.lt_succ_self _, ?_⟩⟩
    · rw [List.length_append] at hle
      omega
    · rw [List.length_append]
      rfl
  · refine ⟨rfl, rfl, fun _ => ⟨rfl, rfl⟩, fun hlt' => ?_⟩
    rw [List.length_append] at hlt'
    omega

/-- And several of them. -/
theorem grown_foldl (h : tb.base.length ≤ tb.size) (strs : List Bytes) :
    Grown tb strs.flatten (strs.foldl DicoTokbuf.tknGrow tb) := by
  induction strs generalizing tb with
  | nil => exact Grown.refl h
  | cons s strs ih =>
    have hs := grown_tknGrow tb s
    exact hs.trans (ih hs.fits)

end Grown

/-! ## Steps and walks -/

/-- What is stored for a stretch of the string. -/
inductive Taken : Bytes → Bytes → Prop
  /-- The stretch itself. -/
  | copied (r : Bytes) : Taken r r
  /-- One byte for a backslash and an ASCII character. -/
  | escaped (c : UInt8) : c ≠ 0 → Taken [backslash, c] [dicoQuoteChar c]
  /-- A null for a backslash at the end of the string. -/
  | ended : Taken [backslash] [0]

/-- A walk of the iterator over a stretch, and what is stored for it. -/
inductive Walk (quote : UInt8) : Utf8Iterator → Bytes → Bytes → Utf8Iterator → Prop
  | refl (itr : Utf8Iterator) : Walk quote itr [] [] itr
  | step {itr itr₁ itr₂ : Utf8Iterator} {strs : List Bytes} {r R P : Bytes}
      (hstep : tokenStep quote itr = .ok (some strs, itr₁)) (hcur : itr.cur = r ++ itr₁.cur)
      (hne : r ≠ []) (htaken : Taken r strs.flatten) (hwalk : Walk quote itr₁ R P itr₂) :
      Walk quote itr (r ++ R) (strs.flatten ++ P) itr₂

section Walk

variable {quote : UInt8} {itr itr₁ itr₂ nxt : Utf8Iterator} {strs : List Bytes} {R P : Bytes}

/-- The bytes of a symbol that is there. -/
theorem symbol_eq_ok {sym : Bytes} :
    itr.symbol = .ok sym ↔ itr.curwidth ≤ itr.cur.length ∧ sym = itr.cur.take itr.curwidth := by
  unfold symbol
  split_ifs with h
  · constructor
    · intro hs
      exact ⟨h, (Except.ok.inj hs).symm⟩
    · rintro ⟨-, rfl⟩
      rfl
  · exact iff_of_false (fun hc => by cases hc) fun hc => h hc.1

/-- **What one character of a token does**: it is copied; or it is a
backslash, and the one behind it is looked up if it is ASCII, else both
are copied. -/
theorem tokenStep_some (h : tokenStep quote itr = .ok (some strs, nxt)) :
    (¬ itr.endP ∧ ¬ (itr.isAscii ∧ (itr.char = quote ∨ itr.char = backslash)) ∧
      itr.curwidth ≤ itr.cur.length ∧ strs = [itr.cur.take itr.curwidth] ∧
      itr.next = .ok nxt) ∨
    (itr.isAscii ∧ itr.char = backslash ∧ quote ≠ backslash ∧ ∃ mid, itr.next = .ok mid ∧
      mid.next = .ok nxt ∧
      ((mid.isAscii ∧ strs = [[dicoQuoteChar mid.char]]) ∨
        (¬ mid.isAscii ∧ mid.curwidth ≤ mid.cur.length ∧
          strs = [[backslash], mid.cur.take mid.curwidth]))) := by
  unfold tokenStep at h
  split_ifs at h with hstop hquote hslash
  · cases h
  · obtain ⟨mid, -, hc⟩ := bind_eq_ok.1 h
    cases hc
  · obtain ⟨mid, hmid, h⟩ := bind_eq_ok.1 h
    have hq : quote ≠ backslash := fun hq => hquote ⟨hslash.1, hslash.2.trans hq.symm⟩
    refine .inr ⟨hslash.1, hslash.2, hq, mid, hmid, ?_⟩
    split_ifs at h with hascii
    · obtain ⟨nxt', hnxt, hc⟩ := bind_eq_ok.1 h
      obtain ⟨hstrs, rfl⟩ := Prod.mk.inj (Except.ok.inj hc)
      exact ⟨hnxt, .inl ⟨hascii, (Option.some.inj hstrs).symm⟩⟩
    · obtain ⟨sym, hsym, h⟩ := bind_eq_ok.1 h
      obtain ⟨nxt', hnxt, hc⟩ := bind_eq_ok.1 h
      obtain ⟨hstrs, rfl⟩ := Prod.mk.inj (Except.ok.inj hc)
      obtain ⟨hle, rfl⟩ := symbol_eq_ok.1 hsym
      exact ⟨hnxt, .inr ⟨hascii, hle, (Option.some.inj hstrs).symm⟩⟩
  · obtain ⟨sym, hsym, h⟩ := bind_eq_ok.1 h
    obtain ⟨nxt', hnxt, hc⟩ := bind_eq_ok.1 h
    obtain ⟨hstrs, rfl⟩ := Prod.mk.inj (Except.ok.inj hc)
    obtain ⟨hle, rfl⟩ := symbol_eq_ok.1 hsym
    refine .inl ⟨fun hend => hstop (.inl hend), ?_, hle, (Option.some.inj hstrs).symm, hnxt⟩
    rintro ⟨hascii, hq | hs⟩
    · exact hquote ⟨hascii, hq⟩
    · exact hslash ⟨hascii, hs⟩

/-- A step over an ASCII byte leaves what is behind it. -/
theorem cur_of_next_ascii (hp : itr.Placed) (hend : ¬ itr.endP) (ha : itr.isAscii)
    (h : itr.next = .ok nxt) : itr.cur = itr.char :: nxt.cur := by
  obtain ⟨r, hr⟩ := hp.cons
  obtain ⟨-, rfl⟩ := (next_eq_ok hend).1 h
  rw [ha.1, pos]
  change itr.cur = itr.char :: itr.cur.drop 1
  rw [hr]
  rfl

/-- A step over any character. -/
theorem cur_of_next (hend : ¬ itr.endP) (h : itr.next = .ok nxt) :
    itr.cur = itr.cur.take itr.curwidth ++ nxt.cur := by
  obtain ⟨-, rfl⟩ := (next_eq_ok hend).1 h
  exact (List.take_append_drop _ _).symm

/-- **A step takes a stretch of the string.** -/
theorem taken_of_tokenStep (hp : itr.Placed) (h : tokenStep quote itr = .ok (some strs, nxt)) :
    ∃ r, itr.cur = r ++ nxt.cur ∧ r ≠ [] ∧ Taken r strs.flatten ∧ nxt.Placed := by
  have htake : ∀ {i : Utf8Iterator}, i.Placed → i.cur.take i.curwidth ≠ [] := by
    intro i hi hnil
    rcases List.take_eq_nil_iff.1 hnil with h₀ | h₀
    · exact absurd h₀ (Nat.ne_of_gt hi.width_pos)
    · exact hi.1 h₀
  rcases tokenStep_some h with ⟨hend, -, -, rfl, hn⟩ | ⟨ha, hc, -, mid, hmid, hn, hstrs⟩
  · refine ⟨itr.cur.take itr.curwidth, cur_of_next hend hn, htake hp, ?_, hp.next hn⟩
    rw [List.flatten_singleton]
    exact .copied _
  · have hend : ¬ itr.endP := by
      rw [endP, hc]
      decide
    have hpm : mid.Placed := hp.next hmid
    have hcur := cur_of_next_ascii hp hend ha hmid
    rw [hc] at hcur
    rcases hstrs with ⟨hma, rfl⟩ | ⟨hma, -, rfl⟩
    · by_cases hmend : mid.endP
      · rw [Utf8Iterator.next, if_pos hmend] at hn
        obtain rfl := Except.ok.inj hn
        refine ⟨[backslash], hcur, List.cons_ne_nil _ _, ?_, hpm⟩
        rw [show mid.char = 0 from hmend]
        exact .ended
      · refine ⟨[backslash, mid.char], ?_, List.cons_ne_nil _ _, .escaped _ hmend, hpm.next hn⟩
        rw [hcur, cur_of_next_ascii hpm hmend hma hn]
        rfl
    · have hmend : ¬ mid.endP := fun hmend => hma (hpm.isAscii_of_endP hmend)
      refine ⟨backslash :: mid.cur.take mid.curwidth, ?_, List.cons_ne_nil _ _, ?_, hpm.next hn⟩
      · rw [hcur, List.cons_append, ← cur_of_next hmend hn]
      · rw [List.flatten_cons, List.flatten_singleton]
        exact .copied _

/-- A walk goes over its stretch. -/
theorem Walk.cur (h : Walk quote itr R P itr₂) : itr.cur = R ++ itr₂.cur := by
  induction h with
  | refl itr => rfl
  | step _ hcur _ _ _ ih => rw [hcur, ih, List.append_assoc]

/-- The loop over the characters of a token is a walk, up to where it
ends. -/
theorem walk_of_tokenLoop {fuel : ℕ} {tb tb' : DicoTokbuf} (hp : itr.Placed)
    (hfit : tb.base.length ≤ tb.size) (h : tokenLoop quote fuel itr tb = .ok (itr₂, tb')) :
    ∃ R P itr₁, Walk quote itr R P itr₁ ∧ Grown tb P tb' ∧ itr₁.Placed ∧
      tokenStep quote itr₁ = .ok (none, itr₂) := by
  induction fuel generalizing itr tb with
  | zero => cases h
  | succ fuel ih =>
    rw [tokenLoop] at h
    obtain ⟨⟨o, nxt⟩, hstep, h⟩ := bind_eq_ok.1 h
    cases o with
    | none =>
      obtain ⟨rfl, rfl⟩ := Prod.mk.inj (Except.ok.inj h)
      exact ⟨[], [], itr, .refl itr, .refl hfit, hp, hstep⟩
    | some strs =>
      obtain ⟨r, hcur, hne, htaken, hpn⟩ := taken_of_tokenStep hp hstep
      have hgrown := grown_foldl hfit strs
      obtain ⟨R, P, itr₁, hwalk, hgrown', hp₁, hstop⟩ := ih hpn hgrown.fits h
      exact ⟨r ++ R, strs.flatten ++ P, itr₁, .step hstep hcur hne htaken hwalk,
        hgrown.trans hgrown', hp₁, hstop⟩

/-- And a walk up to where the token ends is what the loop does. -/
theorem tokenLoop_of_walk {fuel : ℕ} {tb : DicoTokbuf} (hfit : tb.base.length ≤ tb.size)
    (hwalk : Walk quote itr R P itr₁) (hstop : tokenStep quote itr₁ = .ok (none, itr₂))
    (hfuel : R.length < fuel) :
    ∃ tb', tokenLoop quote fuel itr tb = .ok (itr₂, tb') ∧ Grown tb P tb' := by
  induction hwalk generalizing fuel tb with
  | refl itr =>
    obtain ⟨fuel, rfl⟩ : ∃ k, fuel = k + 1 := ⟨fuel - 1, by omega⟩
    refine ⟨tb, ?_, .refl hfit⟩
    rw [tokenLoop, hstop]
    rfl
  | @step itr itr₁ itr₃ strs r R P hstep _ hne _ _ ih =>
    have hpos := List.length_pos_of_ne_nil hne
    rw [List.length_append] at hfuel
    obtain ⟨fuel, rfl⟩ : ∃ k, fuel = k + 1 := ⟨fuel - 1, by omega⟩
    have hgrown := grown_foldl hfit strs
    obtain ⟨tb', hrun, hgrown'⟩ := ih hgrown.fits hstop (show R.length < fuel by omega)
    refine ⟨tb', ?_, hgrown.trans hgrown'⟩
    rw [tokenLoop, hstep]
    exact hrun

/-! ## A walk judged by its token -/

/-- A byte that is stored as it is, or as a null, behind a backslash. -/
def Kept (d : UInt8) : Prop := d ≠ backslash ∧ (dicoQuoteChar d = d ∨ dicoQuoteChar d = 0)

/-- **What a token says of the walk behind it.** Up to the null that ends
the token, the walk went over at least as many bytes, and over the same
ones if it was as many; every byte that escapes keep is still there; and
if the null is one the walk stored, there was a backslash or a null. -/
theorem Walk.token (h : Walk quote itr R P itr₂) :
    ∃ R' rest, R = R' ++ rest ∧ (P.takeWhile (· ≠ 0)).length ≤ R'.length ∧
      ((P.takeWhile (· ≠ 0)).length = R'.length → P.takeWhile (· ≠ 0) = R') ∧
      (∀ d, Kept d → R'.count d ≤ (P.takeWhile (· ≠ 0)).count d) ∧
      (rest = [] ∧ P.takeWhile (· ≠ 0) = P ∨
        ∃ b, rest.head? = some b ∧ (b = backslash ∨ b = 0)) := by
  induction h with
  | refl itr => exact ⟨[], [], rfl, le_rfl, fun _ => rfl, fun _ _ => le_rfl, .inl ⟨rfl, rfl⟩⟩
  | @step itr itr₁ itr₂ strs r R P _ _ hne htaken _ ih =>
    obtain ⟨R', rest, hR, hle, heq, hcount, hend⟩ := ih
    generalize strs.flatten = p at htaken
    cases htaken with
    | copied =>
      by_cases h₀ : 0 ∈ r
      · -- the character runs over a null, which ends the token inside it
        obtain ⟨r₁, r₂, rfl, hr₁⟩ := List.eq_append_cons_of_mem h₀
        have htake : (r₁ ++ 0 :: r₂ ++ P).takeWhile (· ≠ 0) = r₁ := by
          rw [List.append_assoc]
          exact takeWhile_ne_zero hr₁ _
        rw [htake]
        refine ⟨r₁, 0 :: (r₂ ++ R), ?_, le_rfl, fun _ => rfl, fun _ _ => le_rfl,
          .inr ⟨0, rfl, .inr rfl⟩⟩
        rw [List.append_assoc]
        rfl
      · have htake : (r ++ P).takeWhile (· ≠ 0) = r ++ P.takeWhile (· ≠ 0) :=
          List.takeWhile_append_of_pos fun b hb => decide_eq_true fun hb₀ => h₀ (hb₀ ▸ hb)
        rw [htake]
        refine ⟨r ++ R', rest, by rw [hR, List.append_assoc], ?_, ?_, ?_, ?_⟩
        · rw [List.length_append, List.length_append]
          omega
        · intro hlen
          rw [List.length_append, List.length_append] at hlen
          rw [heq (by omega)]
        · intro d hd
          rw [List.count_append, List.count_append]
          have := hcount d hd
          omega
        · rcases hend with ⟨hrest, hP⟩ | hend
          · exact .inl ⟨hrest, by rw [hP]⟩
          · exact .inr hend
    | escaped c hc =>
      by_cases hq : dicoQuoteChar c = 0
      · rw [hq]
        exact ⟨[], [backslash, c] ++ R, rfl, le_rfl, fun _ => rfl, fun _ _ => Nat.zero_le _,
          .inr ⟨backslash, rfl, .inl rfl⟩⟩
      · have htake : ([dicoQuoteChar c] ++ P).takeWhile (· ≠ 0) =
            dicoQuoteChar c :: P.takeWhile (· ≠ 0) :=
          List.takeWhile_cons_of_pos (decide_eq_true hq)
        rw [htake]
        refine ⟨backslash :: c :: R', rest, by rw [hR]; rfl, ?_, ?_, ?_, ?_⟩
        · simp only [List.length_cons]
          omega
        · intro hlen
          simp only [List.length_cons] at hlen
          omega
        · intro d hd
          have hle := hcount d hd
          rw [List.count_cons_of_ne hd.1.symm]
          by_cases hcd : c = d
          · subst hcd
            rw [hd.2.resolve_right hq, List.count_cons_self, List.count_cons_self]
            omega
          · rw [List.count_cons_of_ne hcd]
            exact le_trans hle List.count_le_count_cons
        · rcases hend with ⟨hrest, hP⟩ | hend
          · exact .inl ⟨hrest, by rw [hP]; rfl⟩
          · exact .inr hend
    | ended =>
      exact ⟨[], [backslash] ++ R, rfl, le_rfl, fun _ => rfl, fun _ _ => Nat.zero_le _,
        .inr ⟨backslash, rfl, .inl rfl⟩⟩

/-- Two splits of one list: the longer beginning has the shorter one, and
what follows it, in front. -/
theorem eq_append_cons_of_lt {α : Type} {a b v t : List α} {d : α} (h : a ++ b = v ++ d :: t)
    (hlt : v.length < a.length) : ∃ c, a = v ++ d :: c := by
  rcases List.append_eq_append_iff.1 h with ⟨c, rfl, -⟩ | ⟨c, rfl, hc⟩
  · rw [List.length_append] at hlt
    omega
  · cases c with
    | nil =>
      rw [List.append_nil] at hlt
      omega
    | cons x c =>
      obtain ⟨rfl, -⟩ := List.cons.inj hc
      exact ⟨c, rfl⟩

/-- **A walk whose token is the text up to a delimiter** went over that
text and stored it as it is. It cannot have gone further: a delimiter that
is gone over stays in the token, or ends it with a null. -/
theorem Walk.exact {v tail : Bytes} {d : UInt8} (h : Walk quote itr R P itr₂)
    (hcur : itr.cur = v ++ d :: tail) (hd : Kept d) (hd₀ : d ≠ 0)
    (htok : P.takeWhile (· ≠ 0) = v) : R = v ∧ P = v := by
  obtain ⟨R', rest, hR, hle, heq, hcount, hend⟩ := h.token
  rw [htok] at hle heq hcount hend
  have hsplit : R' ++ (rest ++ itr₂.cur) = v ++ d :: tail := by
    rw [← hcur, h.cur, hR, List.append_assoc]
  rcases Nat.lt_or_ge v.length R'.length with hlt | hge
  · obtain ⟨c, rfl⟩ := eq_append_cons_of_lt hsplit hlt
    have hc := hcount d hd
    rw [List.count_append, List.count_cons_self] at hc
    omega
  · obtain rfl := heq (by omega)
    rcases hend with ⟨rfl, hP⟩ | ⟨b, hb, hb'⟩
    · exact ⟨by rw [hR, List.append_nil], hP.symm⟩
    · exfalso
      rw [List.append_right_inj] at hsplit
      cases rest with
      | nil => cases hb
      | cons x rest =>
        obtain rfl := Option.some.inj hb
        obtain ⟨rfl, -⟩ := List.cons.inj hsplit
        rcases hb' with hb' | hb'
        · exact hd.1 hb'
        · exact hd₀ hb'

/-- A token is not longer than what is left of the string. -/
theorem Walk.token_length {u tail : Bytes} (h : Walk quote itr R P itr₂)
    (hcur : itr.cur = u ++ 0 :: tail) : (P.takeWhile (· ≠ 0)).length ≤ u.length := by
  obtain ⟨R', rest, hR, hle, -, hcount, -⟩ := h.token
  by_contra hgt
  have hsplit : R' ++ (rest ++ itr₂.cur) = u ++ 0 :: tail := by
    rw [← hcur, h.cur, hR, List.append_assoc]
  obtain ⟨c, rfl⟩ := eq_append_cons_of_lt hsplit (by omega)
  have hc := hcount 0 ⟨by decide, .inr (by decide)⟩
  rw [List.count_append, List.count_cons_self] at hc
  have hzero : (P.takeWhile (· ≠ 0)).count 0 = 0 := by
    rw [List.count_eq_zero]
    intro hmem
    have hne := List.mem_takeWhile_imp hmem
    exact absurd (of_decide_eq_true hne) (not_not.2 rfl)
  omega

end Walk

/-! ## From token to token -/

section Loops

variable {quote b : UInt8} {r text : Bytes} {w fuel argc : ℕ} {tb : DicoTokbuf}

/-- Where a character starts, the width from before does not matter. -/
theorem pos_eq_pos_one {cur : Bytes} (h : utf8CharWidth cur ≠ 0) : pos w cur = pos 1 cur := by
  rw [pos, pos, widthAt, widthAt, if_neg h, if_neg h]

/-- Nor does it before an ASCII byte. -/
theorem pos_ascii (hb : b < 0x80) : pos w (b :: r) = pos 1 (b :: r) := by
  rw [pos, pos, widthAt_ascii hb, widthAt_ascii hb]

/-- A character that is copied. -/
theorem tokenStep_copy (quote : UInt8) (itr : Utf8Iterator) (hend : ¬ itr.endP)
    (hascii : itr.isAscii →
      itr.char ≠ quote ∧ itr.char ≠ backslash ∧ ¬ (quote = 0 ∧ isWs itr.char))
    (hrest : itr.cur.drop itr.curwidth ≠ []) :
    tokenStep quote itr =
      .ok (some [itr.cur.take itr.curwidth],
        pos itr.curwidth (itr.cur.drop itr.curwidth)) := by
  have hlen : itr.curwidth ≤ itr.cur.length := by
    by_contra hlt
    exact hrest (List.drop_eq_nil_of_le (by omega))
  have hnext := (next_eq_ok hend).2 ⟨hrest, rfl⟩
  rw [tokenStep, if_neg, if_neg, if_neg, symbol_eq_ok.2 ⟨hlen, rfl⟩, ok_bind, hnext, ok_bind]
  · exact fun h => (hascii h.1).2.1 h.2
  · exact fun h => (hascii h.1).1 h.2
  · rintro (h | h)
    · exact hend h
    · exact (hascii h.1).2.2 h.2

/-- The backslash is ASCII, and no end. -/
theorem next_backslash (hr : r ≠ []) : (pos w (backslash :: r)).next = .ok (pos 1 r) :=
  next_pos_ascii (by decide) (by decide) hr

/-- A backslash does not end a token. -/
theorem backslash_goes_on (hq : quote ≠ backslash) :
    ¬ ((pos w (backslash :: r)).endP ∨ ((pos w (backslash :: r)).isAscii ∧ quote = 0 ∧
      isWs (pos w (backslash :: r)).char)) ∧
    ¬ ((pos w (backslash :: r)).isAscii ∧ (pos w (backslash :: r)).char = quote) := by
  have hchar : (pos w (backslash :: r)).char = backslash := rfl
  rw [endP, hchar]
  refine ⟨?_, fun h => hq h.2.symm⟩
  rintro (h | h)
  · exact absurd h (by decide)
  · exact absurd h.2.2 (by decide)

/-- A backslash and an ASCII character. -/
theorem tokenStep_escape (w : ℕ) (hq : quote ≠ backslash) (hb : b < 0x80) (h₀ : b ≠ 0)
    (hr : r ≠ []) :
    tokenStep quote (pos w (backslash :: b :: r)) = .ok (some [[dicoQuoteChar b]], pos 1 r) := by
  obtain ⟨hstop, hquote⟩ := backslash_goes_on (w := w) (r := b :: r) hq
  have hslash : (pos w (backslash :: b :: r)).isAscii ∧
      (pos w (backslash :: b :: r)).char = backslash := ⟨isAscii_pos (by decide), rfl⟩
  rw [tokenStep, if_neg hstop, if_neg hquote, if_pos hslash,
    next_backslash (List.cons_ne_nil b r), ok_bind, if_pos (isAscii_pos hb),
    next_pos_ascii hb h₀ hr, ok_bind]
  rfl

/-- A backslash and a character that is not ASCII. -/
theorem tokenStep_wide (hq : quote ≠ backslash) (hr : r ≠ []) (hascii : ¬ (pos 1 r).isAscii)
    (hrest : r.drop (widthAt 1 r) ≠ []) :
    tokenStep quote (pos w (backslash :: r)) =
      .ok (some [[backslash], r.take (widthAt 1 r)],
        pos (widthAt 1 r) (r.drop (widthAt 1 r))) := by
  obtain ⟨hstop, hquote⟩ := backslash_goes_on (w := w) (r := r) hq
  have hslash : (pos w (backslash :: r)).isAscii ∧
      (pos w (backslash :: r)).char = backslash := ⟨isAscii_pos (by decide), rfl⟩
  have hlen : widthAt 1 r ≤ r.length := by
    by_contra hlt
    exact hrest (List.drop_eq_nil_of_le (by omega))
  have hend : ¬ (pos 1 r).endP := fun hend =>
    hascii ((placed_pos Nat.one_pos hr).isAscii_of_endP hend)
  have hsym : (pos 1 r).symbol = .ok (r.take (widthAt 1 r)) := symbol_eq_ok.2 ⟨hlen, rfl⟩
  have hnext : (pos 1 r).next = .ok (pos (widthAt 1 r) (r.drop (widthAt 1 r))) :=
    (next_eq_ok hend).2 ⟨hrest, rfl⟩
  rw [tokenStep, if_neg hstop, if_neg hquote, if_pos hslash, next_backslash hr, ok_bind,
    if_neg hascii, hsym, ok_bind, hnext, ok_bind]

/-- A token ends behind its quote. -/
theorem tokenStep_quote (hq : quote < 0x80) (h₀ : quote ≠ 0) (hr : r ≠ []) :
    tokenStep quote (pos w (quote :: r)) = .ok (none, pos 1 r) := by
  have hchar : (pos w (quote :: r)).char = quote := rfl
  rw [tokenStep, if_neg, if_pos ⟨isAscii_pos hq, hchar⟩, next_pos_ascii hq h₀ hr, ok_bind]
  rintro (h | h)
  · exact h₀ h
  · exact h₀ h.2.1

/-- A token without quotes ends before a blank. -/
theorem tokenStep_ws (hb : isWs b) : tokenStep 0 (pos w (b :: r)) = .ok (none, pos w (b :: r)) := by
  have hascii : b < 0x80 := by
    rcases hb with rfl | rfl
    · decide
    · decide
  rw [tokenStep, if_pos (.inr ⟨isAscii_pos hascii, rfl, hb⟩)]

/-- No blank to skip. -/
theorem skipWs_stop {itr : Utf8Iterator} (h : ¬ isWs itr.char) :
    skipWs (fuel + 1) itr = .ok itr := by
  rw [skipWs, if_neg fun hc => h hc.2.2]

/-- A space to skip. -/
theorem skipWs_space (hr : r ≠ []) :
    skipWs (fuel + 1) (pos w (space :: r)) = skipWs fuel (pos 1 r) := by
  have hcond : ¬ (pos w (space :: r)).endP ∧ (pos w (space :: r)).isAscii ∧
      isWs (pos w (space :: r)).char :=
    ⟨show ¬ space = 0 by decide, isAscii_pos (by decide), .inl rfl⟩
  rw [skipWs, if_pos hcond, next_pos_ascii (by decide) (by decide) hr, ok_bind]

/-- A space, or none, before something that is not blank. -/
theorem skipWs_lead {lead : Bytes} (hlead : lead = [] ∨ lead = [space]) (hb : ¬ isWs b) :
    skipWs ((pos 1 (lead ++ b :: r)).cur.length + 1) (pos 1 (lead ++ b :: r)) =
      .ok (pos 1 (b :: r)) := by
  rcases hlead with rfl | rfl
  · exact skipWs_stop hb
  · rw [List.singleton_append, skipWs_space (List.cons_ne_nil b r)]
    exact skipWs_stop hb

/-- **A token in quotes.** -/
theorem tokensLoop_quoted {lead : Bytes} (hlead : lead = [] ∨ lead = [space])
    (htext : text ≠ []) :
    tokensLoop (fuel + 1) (pos 1 (lead ++ doubleQuote :: text)) tb argc =
      tokenLoop doubleQuote (text.length + 1) (pos 1 text) tb >>= fun x =>
        tokensLoop fuel x.1 (x.2.tknGrow [0]) (argc + 1) := by
  have hopen : openQuote (pos 1 (doubleQuote :: text)) = .ok (doubleQuote, pos 1 text) := by
    have hcond : (pos 1 (doubleQuote :: text)).isAscii ∧
        isQuote (pos 1 (doubleQuote :: text)).char := ⟨isAscii_pos (by decide), .inl rfl⟩
    rw [openQuote, if_pos hcond, next_pos_ascii (by decide) (by decide) htext, ok_bind]
    rfl
  have hend : ¬ (pos 1 (doubleQuote :: text)).endP := by
    change ¬ doubleQuote = 0
    decide
  rw [tokensLoop, skipWs_lead hlead (by decide), ok_bind, if_neg hend, hopen, ok_bind]
  rfl

/-- **A token without quotes.** -/
theorem tokensLoop_bare {lead : Bytes} (hlead : lead = [] ∨ lead = [space]) (hws : ¬ isWs b)
    (hq : ¬ isQuote b) (h₀ : b ≠ 0) :
    tokensLoop (fuel + 1) (pos 1 (lead ++ b :: text)) tb argc =
      tokenLoop 0 ((b :: text).length + 1) (pos 1 (b :: text)) tb >>= fun x =>
        tokensLoop fuel x.1 (x.2.tknGrow [0]) (argc + 1) := by
  have hopen : openQuote (pos 1 (b :: text)) = .ok (0, pos 1 (b :: text)) :=
    if_neg fun h => hq h.2
  have hend : ¬ (pos 1 (b :: text)).endP := h₀
  rw [tokensLoop, skipWs_lead hlead hws, ok_bind, if_neg hend, hopen, ok_bind]
  rfl

/-- A token in quotes that is walked over. -/
theorem tokensLoop_of_walk (fuel argc : ℕ) {lead rest R P : Bytes}
    (hlead : lead = [] ∨ lead = [space]) (hrest : rest ≠ []) (hfit : tb.base.length ≤ tb.size)
    (hwalk : Walk doubleQuote (pos 1 (R ++ doubleQuote :: rest)) R P
      (pos 1 (doubleQuote :: rest))) :
    ∃ tb', tokensLoop (fuel + 1) (pos 1 (lead ++ doubleQuote :: (R ++ doubleQuote :: rest)))
        tb argc = tokensLoop fuel (pos 1 rest) tb' (argc + 1) ∧ Grown tb (P ++ [0]) tb' := by
  have hstop : tokenStep doubleQuote (pos 1 (doubleQuote :: rest)) = .ok (none, pos 1 rest) :=
    tokenStep_quote (by decide) (by decide) hrest
  have hfuel : R.length < (R ++ doubleQuote :: rest).length + 1 := by
    rw [List.length_append]
    omega
  obtain ⟨tb₁, hrun, hgrown⟩ := tokenLoop_of_walk hfit hwalk hstop hfuel
  refine ⟨tb₁.tknGrow [0], ?_, hgrown.trans (grown_tknGrow tb₁ [0])⟩
  rw [tokensLoop_quoted hlead (List.append_ne_nil_of_right_ne_nil _ (List.cons_ne_nil _ _)), hrun,
    ok_bind]

/-- The end of the string. -/
theorem tokensLoop_end {lead : Bytes} (hlead : lead = [] ∨ lead = [space]) :
    tokensLoop (fuel + 1) (pos 1 (lead ++ 0 :: r)) tb argc = .ok (tb, argc) := by
  have hend : (pos 1 (0 :: r)).endP := rfl
  rw [tokensLoop, skipWs_lead hlead (by decide), ok_bind, if_pos hend]

/-- The first of the tokens in the block, and where the next one is. -/
theorem drop_token {t : Bytes} {ts : List Bytes} {more : Bytes} {p : ℕ} (ht : 0 ∉ t)
    (hbase : tb.base.drop p = (t :: ts).flatMap (· ++ [0]) ++ more) :
    (tb.base.drop p).takeWhile (· ≠ 0) = t ∧
      tb.base.drop (p + t.length + 1) = ts.flatMap (· ++ [0]) ++ more := by
  have hsplit : tb.base.drop p = t ++ 0 :: (ts.flatMap (· ++ [0]) ++ more) := by
    rw [hbase, List.flatMap_cons]
    simp only [List.append_assoc, List.cons_append, List.nil_append]
  constructor
  · rw [hsplit]
    exact takeWhile_ne_zero ht _
  · rw [Nat.add_assoc, ← List.drop_drop, hsplit, List.drop_append, Nat.add_sub_cancel_left,
      List.drop_eq_nil_of_le (Nat.le_succ _)]
    rfl

/-- The tokens found again in the block. -/
theorem map_deref_pointers {ts : List Bytes} {more : Bytes} {p : ℕ} (hts : ∀ t ∈ ts, 0 ∉ t)
    (hbase : tb.base.drop p = ts.flatMap (· ++ [0]) ++ more) :
    (tb.pointers ts.length p).map tb.deref = ts.map .ok := by
  induction ts generalizing p with
  | nil => rfl
  | cons t ts ih =>
    obtain ⟨ht, hts⟩ := List.forall_mem_cons.1 hts
    obtain ⟨hstr, hrest⟩ := drop_token ht hbase
    rw [List.length_cons, DicoTokbuf.pointers, hstr, List.map_cons, List.map_cons,
      ih hts hrest, DicoTokbuf.deref, if_pos rfl, hstr]

/-- The pointer to a token behind others that are known. -/
theorem getElem?_pointers {ts : List Bytes} {more : Bytes} {p : ℕ} (hts : ∀ t ∈ ts, 0 ∉ t)
    (hbase : tb.base.drop p = ts.flatMap (· ++ [0]) ++ more) (hargc : ts.length < argc) :
    ∃ off, (tb.pointers argc p)[ts.length]? = some (tb.block, off) ∧ tb.base.drop off = more := by
  induction ts generalizing p argc with
  | nil =>
    obtain ⟨argc, rfl⟩ : ∃ k, argc = k + 1 := ⟨argc - 1, by rw [List.length_nil] at hargc; omega⟩
    exact ⟨p, rfl, hbase⟩
  | cons t ts ih =>
    obtain ⟨ht, hts⟩ := List.forall_mem_cons.1 hts
    rw [List.length_cons] at hargc
    obtain ⟨argc, rfl⟩ : ∃ k, argc = k + 1 := ⟨argc - 1, by omega⟩
    obtain ⟨hstr, hrest⟩ := drop_token ht hbase
    rw [DicoTokbuf.pointers, hstr, List.length_cons, List.getElem?_cons_succ]
    exact ih hts hrest (by omega)

/-- The token it points to. -/
theorem deref_pointers {ts : List Bytes} {more : Bytes} {p : ℕ} (hts : ∀ t ∈ ts, 0 ∉ t)
    (hbase : tb.base.drop p = ts.flatMap (· ++ [0]) ++ more) (hargc : ts.length < argc) :
    ∃ ptr, (tb.pointers argc p)[ts.length]? = some ptr ∧
      tb.deref ptr = .ok (more.takeWhile (· ≠ 0)) := by
  obtain ⟨off, hget, hdrop⟩ := getElem?_pointers hts hbase hargc
  refine ⟨(tb.block, off), hget, ?_⟩
  rw [DicoTokbuf.deref, if_pos rfl, hdrop]

/-- The iterator at the start of a string that starts with ASCII. -/
theorem first_ascii (hb : b < 0x80) : first (b :: r) = .ok (pos 1 (b :: r)) := by
  have hw : utf8CharWidth (b :: r) ≠ 0 := by
    intro h₀
    have := widthAt_ascii (w := 0) (r := r) hb
    rw [widthAt, if_pos h₀] at this
    cases this
  rw [first, if_neg hw, iter0_eq_ok]
  exact ⟨List.cons_ne_nil b r, (pos_ascii hb).symm⟩

/-- `dico_tokenize_string`, once its loop has counted the tokens. -/
theorem dicoTokenizeString_eq {str : Bytes} {itr : Utf8Iterator} {tb' : DicoTokbuf}
    (hfirst : first str = .ok itr)
    (hloop : tokensLoop (str.length + 1) itr tb 0 = .ok (tb', argc)) :
    dicoTokenizeString tb str =
      .ok { tb' with tokv := tb'.tokv ++ tb'.pointers argc tb.base.length } := by
  rw [dicoTokenizeString, hfirst, ok_bind, hloop, ok_bind]

/-- One pointer for each token. -/
theorem length_pointers (argc p : ℕ) : (tb.pointers argc p).length = argc := by
  induction argc generalizing p with
  | zero => rfl
  | succ argc ih => rw [DicoTokbuf.pointers, List.length_cons, ih]

/-- Skipping blanks leads somewhere. -/
theorem Utf8Iterator.Placed.skipWs {itr itr' : Utf8Iterator} (hp : itr.Placed)
    (h : Dico.skipWs fuel itr = .ok itr') : itr'.Placed := by
  induction fuel generalizing itr with
  | zero => cases h
  | succ fuel ih =>
    rw [Dico.skipWs] at h
    split_ifs at h
    · obtain ⟨nxt, hn, h⟩ := bind_eq_ok.1 h
      exact ih (hp.next hn) h
    · obtain rfl := Except.ok.inj h
      exact hp

/-- And so does the quote. -/
theorem Utf8Iterator.Placed.openQuote {itr itr' : Utf8Iterator} (hp : itr.Placed)
    (h : Dico.openQuote itr = .ok (quote, itr')) : itr'.Placed := by
  unfold Dico.openQuote at h
  split_ifs at h
  · obtain ⟨nxt, hn, h⟩ := bind_eq_ok.1 h
    obtain ⟨-, rfl⟩ := Prod.mk.inj (Except.ok.inj h)
    exact hp.next hn
  · obtain ⟨-, rfl⟩ := Prod.mk.inj (Except.ok.inj h)
    exact hp

/-- And so does the end of a token. -/
theorem Utf8Iterator.Placed.tokenStep_none {itr itr' : Utf8Iterator} (hp : itr.Placed)
    (h : tokenStep quote itr = .ok (none, itr')) : itr'.Placed := by
  unfold tokenStep at h
  split_ifs at h with hstop hquote hslash
  · obtain ⟨-, rfl⟩ := Prod.mk.inj (Except.ok.inj h)
    exact hp
  · obtain ⟨nxt, hn, h⟩ := bind_eq_ok.1 h
    obtain ⟨-, rfl⟩ := Prod.mk.inj (Except.ok.inj h)
    exact hp.next hn
  · obtain ⟨mid, -, h⟩ := bind_eq_ok.1 h
    split_ifs at h
    · obtain ⟨nxt, -, h⟩ := bind_eq_ok.1 h
      cases h
    · obtain ⟨sym, -, h⟩ := bind_eq_ok.1 h
      obtain ⟨nxt, -, h⟩ := bind_eq_ok.1 h
      cases h
  · obtain ⟨sym, -, h⟩ := bind_eq_ok.1 h
    obtain ⟨nxt, -, h⟩ := bind_eq_ok.1 h
    cases h

/-- **The tokenizer only adds to the buffer**, and only counts up. -/
theorem tokensLoop_grown {itr : Utf8Iterator} {tb' : DicoTokbuf} {argc' : ℕ} (hp : itr.Placed)
    (hfit : tb.base.length ≤ tb.size) (h : tokensLoop fuel itr tb argc = .ok (tb', argc')) :
    argc ≤ argc' ∧ ∃ Q, Grown tb Q tb' := by
  induction fuel generalizing itr tb argc with
  | zero => cases h
  | succ fuel ih =>
    rw [tokensLoop] at h
    obtain ⟨itr₁, hskip, h⟩ := bind_eq_ok.1 h
    have hp₁ := hp.skipWs hskip
    split_ifs at h
    · obtain ⟨rfl, rfl⟩ := Prod.mk.inj (Except.ok.inj h)
      exact ⟨le_rfl, [], .refl hfit⟩
    · obtain ⟨⟨q, itr₂⟩, hopen, h⟩ := bind_eq_ok.1 h
      obtain ⟨⟨itr₃, tb₁⟩, hloop, h⟩ := bind_eq_ok.1 h
      obtain ⟨R, P, itr₄, hwalk, hgrown, hp₄, hstop⟩ :=
        walk_of_tokenLoop (hp₁.openQuote hopen) hfit hloop
      have hgrown₁ := hgrown.trans (grown_tknGrow tb₁ [0])
      obtain ⟨hle, Q, hgrown'⟩ := ih (hp₄.tokenStep_none hstop) hgrown₁.fits h
      exact ⟨by omega, _, hgrown₁.trans hgrown'⟩

/-- The iterator a string begins with. -/
theorem placed_first {str : Bytes} {itr : Utf8Iterator} (h : first str = .ok itr) :
    itr.Placed := by
  unfold first at h
  split_ifs at h with hw
  obtain ⟨hne, rfl⟩ := iter0_eq_ok.1 h
  rw [pos_eq_pos_one hw]
  exact placed_pos Nat.one_pos hne

/-- **What a token leaves behind**: the walk it was, a null, and more
tokens. -/
theorem walk_of_tokensLoop {n argc' : ℕ} {tb' : DicoTokbuf} (htext : text ≠ [])
    (hfit : tb.base.length ≤ tb.size)
    (h : (tokenLoop quote n (pos 1 text) tb >>= fun x =>
      tokensLoop fuel x.1 (x.2.tknGrow [0]) (argc + 1)) = .ok (tb', argc')) :
    ∃ R P itr₁ itr₂ tb₁ Q, Walk quote (pos 1 text) R P itr₁ ∧ itr₁.Placed ∧
      tokenStep quote itr₁ = .ok (none, itr₂) ∧ Grown tb (P ++ [0]) tb₁ ∧ Grown tb₁ Q tb' ∧
      argc + 1 ≤ argc' ∧ tokensLoop fuel itr₂ tb₁ (argc + 1) = .ok (tb', argc') := by
  obtain ⟨⟨itr₂, tb₁⟩, hloop, hmore⟩ := bind_eq_ok.1 h
  obtain ⟨R, P, itr₁, hwalk, hgrown, hp, hstop⟩ :=
    walk_of_tokenLoop (placed_pos Nat.one_pos htext) hfit hloop
  have hgrown₁ := hgrown.trans (grown_tknGrow tb₁ [0])
  obtain ⟨hle, Q, hgrown'⟩ := tokensLoop_grown (hp.tokenStep_none hstop) hgrown₁.fits hmore
  exact ⟨R, P, itr₁, itr₂, _, Q, hwalk, hp, hstop, hgrown₁, hgrown', hle, hmore⟩

/-- **The tokenizer does the same on every buffer**: it stores the same
bytes and counts the same tokens. -/
theorem tokensLoop_any {itr : Utf8Iterator} {tb' : DicoTokbuf} {argc' : ℕ} (hp : itr.Placed)
    (hfit : tb.base.length ≤ tb.size) (h : tokensLoop fuel itr tb argc = .ok (tb', argc')) :
    ∃ Q k, argc' = argc + k ∧ Grown tb Q tb' ∧
      ∀ (t : DicoTokbuf) (n : ℕ), t.base.length ≤ t.size →
        ∃ t', tokensLoop fuel itr t n = .ok (t', n + k) ∧ Grown t Q t' := by
  induction fuel generalizing itr tb argc with
  | zero => cases h
  | succ fuel ih =>
    rw [tokensLoop] at h
    obtain ⟨itr₁, hskip, h⟩ := bind_eq_ok.1 h
    have hp₁ := hp.skipWs hskip
    split_ifs at h with hend
    · obtain ⟨rfl, rfl⟩ := Prod.mk.inj (Except.ok.inj h)
      refine ⟨[], 0, rfl, .refl hfit, fun t n ht => ⟨t, ?_, .refl ht⟩⟩
      rw [tokensLoop, hskip, ok_bind, if_pos hend]
      rfl
    · obtain ⟨⟨q, itr₂⟩, hopen, h⟩ := bind_eq_ok.1 h
      obtain ⟨⟨itr₃, tb₁⟩, hloop, h⟩ := bind_eq_ok.1 h
      obtain ⟨R, P, itr₄, hwalk, hgrown, hp₄, hstop⟩ :=
        walk_of_tokenLoop (hp₁.openQuote hopen) hfit hloop
      have hgrown₁ := hgrown.trans (grown_tknGrow tb₁ [0])
      obtain ⟨Q, k, rfl, hgrown', hall⟩ := ih (hp₄.tokenStep_none hstop) hgrown₁.fits h
      refine ⟨P ++ [0] ++ Q, k + 1, by omega, hgrown₁.trans hgrown', fun t n ht => ?_⟩
      have hfuel : R.length < itr₂.cur.length + 1 := by
        rw [hwalk.cur, List.length_append]
        omega
      obtain ⟨t₁, hrun, ht₁⟩ := tokenLoop_of_walk ht hwalk hstop hfuel
      have ht₂ := ht₁.trans (grown_tknGrow t₁ [0])
      obtain ⟨t', hmore, ht'⟩ := hall (t₁.tknGrow [0]) (n + 1) ht₂.fits
      refine ⟨t', ?_, ht₂.trans ht'⟩
      rw [tokensLoop, hskip, ok_bind, if_neg hend, hopen, ok_bind]
      dsimp only
      rw [hrun, ok_bind]
      dsimp only
      rw [hmore]
      congr 2
      omega

/-- The tokens of a string, as they are stored in an empty buffer, and how
many there are. -/
def tokenized (str : Bytes) : Except Fault (Bytes × ℕ) := do
  let itr ← first str
  let (tb, argc) ← tokensLoop (str.length + 1) itr .begin 0
  .ok (tb.base, argc)

/-- **Tokens go behind those that are there.** -/
theorem dicoTokenizeString_of_tokenized {str x : Bytes} {n : ℕ} (hfit : tb.base.length ≤ tb.size)
    (h : tokenized str = .ok (x, n)) :
    ∃ tb₁, Grown tb x tb₁ ∧ dicoTokenizeString tb str =
      .ok { tb₁ with tokv := tb₁.tokv ++ tb₁.pointers n tb.base.length } := by
  obtain ⟨itr, hfirst, h⟩ := bind_eq_ok.1 h
  obtain ⟨⟨tb', argc⟩, hloop, h⟩ := bind_eq_ok.1 h
  obtain ⟨rfl, rfl⟩ := Prod.mk.inj (Except.ok.inj h)
  obtain ⟨Q, k, rfl, hgrown, hall⟩ := tokensLoop_any (placed_first hfirst) le_rfl hloop
  obtain ⟨tb₁, hrun, hgrown'⟩ := hall tb 0 hfit
  rw [hgrown.base]
  exact ⟨tb₁, hgrown', dicoTokenizeString_eq hfirst hrun⟩

/-- A string that is tokenized can be. -/
theorem tokenized_of_dicoTokenizeString {str : Bytes} {tb' : DicoTokbuf}
    (hfit : tb.base.length ≤ tb.size) (h : dicoTokenizeString tb str = .ok tb') :
    ∃ x n, tokenized str = .ok (x, n) := by
  rw [dicoTokenizeString] at h
  obtain ⟨itr, hfirst, h⟩ := bind_eq_ok.1 h
  obtain ⟨⟨tb₁, argc⟩, hloop, -⟩ := bind_eq_ok.1 h
  obtain ⟨Q, k, -, -, hall⟩ := tokensLoop_any (placed_first hfirst) hfit hloop
  obtain ⟨t', hrun, -⟩ := hall .begin 0 le_rfl
  refine ⟨t'.base, 0 + k, ?_⟩
  rw [tokenized, hfirst, ok_bind, hrun]
  rfl

end Loops

end Dico
