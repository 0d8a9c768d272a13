import Dico.Common.Source
import Dico.Reply.Client
import Dico.Text.Cstr
/-!
# The CRLF reader

`_crlfstr_read` of `lib/crlfstr.c`, which reads into the block of its
caller and rewrites it in place. A carriage return waits in `cb` until it
is known what follows it. Where it waited in `cb` when a block was read,
the first byte that is neither a carriage return nor a newline finds no
place of its own: the carriage return is written over it. And at the end
of the input it is not written at all. `crlfReader_iff` says when neither
of this happens, and that the input is converted then and only then.
-/

namespace Dico

/-! ## The reader -/

/-- `struct _crlfstr` on the reading side. -/
structure CrlfReader where
  transport : Source
  cb : UInt8

/-- The block of the caller, the bytes of it that are done, and `cb`. -/
structure CrlfScan where
  buf : Bytes
  total : ℕ
  cb : UInt8

namespace CrlfScan

/-- `buf[total++] = c`. -/
def put (s : CrlfScan) (c : UInt8) : Except Fault CrlfScan := do
  let buf ← store s.buf s.total c
  .ok ⟨buf, s.total + 1, s.cb⟩

/-- A byte that waits in `cb` is put into the block. -/
def putPending (s : CrlfScan) : Except Fault CrlfScan := if s.cb ≠ 0 then s.put s.cb else .ok s

/-- The `switch` on the byte at `p`. -/
def byte (s : CrlfScan) (p : ℕ) : Except Fault CrlfScan := do
  let c ← load s.buf p
  if c = carriageReturn then
    let s ← s.putPending
    .ok { s with cb := carriageReturn }
  else if c = newline then put { s with cb := 0 } c
  else
    let s ← s.putPending
    let s := { s with cb := 0 }
    -- the byte may have changed by now
    let c ← load s.buf p
    if s.total = s.buf.length then .ok { s with cb := c } else s.put c

/-- The loop over `sz` bytes from `p` on. -/
def bytes : ℕ → ℕ → CrlfScan → Except Fault CrlfScan
  | 0, _, s => .ok s
  | sz + 1, p, s => do
    let s ← s.byte p
    bytes sz (p + 1) s

/-- The loop of `_crlfstr_read`, entered with `sz` bytes in the block, and
with the number of rounds it may take. -/
def loop : ℕ → Source → CrlfScan → ℕ → Except Fault (Source × CrlfScan)
  | 0, _, _, _ => .error .loop
  | fuel + 1, x, s, sz =>
    if s.total < s.buf.length then
      if sz = 0 then
        let (data, x) := x.read (s.buf.length - s.total)
        if data = [] then .ok (x, s)
        else
          match Memory.poke s.buf s.total data with
          | none => .error .bounds
          | some buf => do
            let s ← bytes data.length s.total { s with buf := buf }
            loop fuel x s 0
      else do
        let s ← bytes sz s.total s
        loop fuel x s 0
    else .ok (x, s)

end CrlfScan

namespace CrlfReader

/-- A new reader. -/
def fresh (content : Bytes) (plan : List ℕ) : CrlfReader := ⟨.new content plan, 0⟩

/-- `_crlfstr_read`, into the block `buf`. -/
def read (r : CrlfReader) (buf : Bytes) : Except Fault (Bytes × CrlfReader) := do
  let (buf, sz) ← if r.cb ≠ 0 then do
      let buf ← store buf 0 r.cb
      .ok (buf, 1)
    else .ok (buf, 0)
  let (x, s) ← CrlfScan.loop (r.transport.rest.length + 2) r.transport ⟨buf, 0, 0⟩ sz
  .ok (s.buf.take s.total, ⟨x, s.cb⟩)

/-- The blocks of successive calls. No call is made without one. -/
abbrev Calls := ℕ → { buf : Bytes // buf ≠ [] }

/-- Calls, from the `k`-th on, up to the one that returns nothing, with
the number of calls that may be made. -/
def drain (calls : Calls) : ℕ → ℕ → CrlfReader → Except Fault (Bytes × CrlfReader)
  | 0, _, _ => .error .loop
  | fuel + 1, k, r => do
    let (out, r) ← r.read (calls k).1
    if out = [] then .ok ([], r)
    else
      let (more, r) ← drain calls fuel (k + 1) r
      .ok (out ++ more, r)

end CrlfReader

/-! ## What it should do -/

/-- The text with every pair of a carriage return and a newline replaced
by the newline. -/
def fromCrlf : Bytes → Bytes
  | [] => []
  | [b] => [b]
  | b :: c :: rest =>
    if b = carriageReturn ∧ c = newline then fromCrlf (c :: rest) else b :: fromCrlf (c :: rest)

/-- Whether a byte is a carriage return. -/
def isCr (b : UInt8) : Bool := b = carriageReturn

/-- Wherever a read ends in a carriage return, a newline is the next byte
of another kind. -/
def Tame (reads : List Bytes) : Prop :=
  ∀ before after, before ++ after = reads → before.flatten.getLast? = some carriageReturn →
    (after.flatten.dropWhile isCr).head? = some newline

/-! ## The conversion, byte by byte -/

/-- The conversion of some bytes, with a carriage return held back before
them or not: the bytes that come out, and whether one is held back behind
them. -/
def cook : Bool → Bytes → Bytes × Bool
  | pend, [] => ([], pend)
  | pend, b :: d =>
    if b = carriageReturn then
      (if pend then b :: (cook true d).1 else (cook true d).1, (cook true d).2)
    else if b = newline then (b :: (cook false d).1, (cook false d).2)
    else
      (if pend then carriageReturn :: b :: (cook false d).1 else b :: (cook false d).1,
        (cook false d).2)

/-- The conversion in place: `gap` bytes of the block are free before the
bytes that are read, and `room` behind them. Where a carriage return is
held back and no byte is free, it goes over the byte that is read, and a
second one over the next. -/
def cookIn : ℕ → Bool → Bytes → ℕ → Bytes × Bool
  | _, pend, [], _ => ([], pend)
  | gap, pend, b :: d, room =>
    if b = carriageReturn then
      let r := cookIn (if pend then gap else gap + 1) true d room
      (if pend then b :: r.1 else r.1, r.2)
    else if b = newline then
      let r := cookIn gap false d room
      (b :: r.1, r.2)
    else if pend then
      if gap = 0 then
        match d with
        | [] =>
          if room = 0 then ([carriageReturn], true) else ([carriageReturn, carriageReturn], false)
        | _ :: d =>
          let r := cookIn 0 true d room
          (carriageReturn :: carriageReturn :: r.1, r.2)
      else
        let r := cookIn (gap - 1) false d room
        (carriageReturn :: b :: r.1, r.2)
    else
      let r := cookIn gap false d room
      (b :: r.1, r.2)

/-- A byte that is read first is not a plain one, once carriage returns
are left out. -/
def Smooth (d : Bytes) : Prop := ∀ x ∈ (d.dropWhile isCr).head?, x = newline

section Cook

theorem isCr_pos {b : UInt8} (h : b = carriageReturn) : isCr b = true := decide_eq_true h

theorem isCr_neg {b : UInt8} (h : b ≠ carriageReturn) : ¬ isCr b = true := by
  rwa [isCr, decide_eq_true_iff]

variable {pend : Bool} {d : Bytes}

/-- A text in two parts. -/
theorem cook_append (pend : Bool) (a c : Bytes) :
    cook pend (a ++ c) =
      ((cook pend a).1 ++ (cook (cook pend a).2 c).1, (cook (cook pend a).2 c).2) := by
  induction a generalizing pend with
  | nil => rfl
  | cons b a ih =>
    rw [List.cons_append, cook, cook, ih, ih]
    split_ifs <;> rfl

/-- A byte other than a carriage return stays as it is. -/
theorem fromCrlf_cons {b : UInt8} (hb : b ≠ carriageReturn) (d : Bytes) :
    fromCrlf (b :: d) = b :: fromCrlf d := by
  cases d with
  | nil => rfl
  | cons c d => rw [fromCrlf, if_neg fun h => hb h.1]

/-- A carriage return before anything but a newline does too. -/
theorem fromCrlf_cr {b : UInt8} (hb : b ≠ newline) (d : Bytes) :
    fromCrlf (carriageReturn :: b :: d) = carriageReturn :: fromCrlf (b :: d) := by
  rw [fromCrlf, if_neg fun h => hb h.2]

/-- What comes out in the end, with the carriage return that is held
back. -/
def render (r : Bytes × Bool) : Bytes := r.1 ++ if r.2 then [carriageReturn] else []

/-- **The conversion byte by byte** is the conversion. -/
theorem fromCrlf_eq (d : Bytes) :
    fromCrlf d = render (cook false d) ∧ fromCrlf (carriageReturn :: d) = render (cook true d) := by
  induction d with
  | nil => exact ⟨rfl, rfl⟩
  | cons b d ih =>
    obtain ⟨hfalse, htrue⟩ := ih
    by_cases hcr : b = carriageReturn
    · subst hcr
      refine ⟨?_, ?_⟩
      · rw [htrue, cook, if_pos rfl]
        rfl
      · rw [fromCrlf_cr (by decide), htrue, cook, if_pos rfl]
        rfl
    · by_cases hnl : b = newline
      · subst hnl
        have hpair : fromCrlf (carriageReturn :: newline :: d) = fromCrlf (newline :: d) := by
          rw [fromCrlf, if_pos ⟨rfl, rfl⟩]
        rw [hpair, fromCrlf_cons hcr, hfalse, cook, if_neg hcr, if_pos rfl, cook, if_neg hcr,
          if_pos rfl]
        exact ⟨rfl, rfl⟩
      · rw [fromCrlf_cr hnl, fromCrlf_cons hcr, hfalse, cook, if_neg hcr, if_neg hnl, cook,
          if_neg hcr, if_neg hnl]
        exact ⟨rfl, rfl⟩

/-- What comes out of a beginning of a text comes out of the text. -/
theorem cook_prefix (u v : Bytes) : (cook false u).1 <+: fromCrlf (u ++ v) := by
  rw [(fromCrlf_eq _).1, cook_append, render, List.append_assoc]
  exact List.prefix_append _ _

/-- A carriage return is held back behind a text that ends in one. -/
theorem cook_snd (d : Bytes) : (cook false d).2 = true ↔ d.getLast? = some carriageReturn := by
  rcases List.eq_nil_or_concat d with rfl | ⟨a, b, rfl⟩
  · exact iff_of_false (by decide) (by decide)
  · rw [List.concat_eq_append, cook_append, List.getLast?_concat, Option.some.injEq, cook]
    by_cases hcr : b = carriageReturn
    · rw [if_pos hcr]
      exact iff_of_true rfl hcr
    · rw [if_neg hcr]
      refine iff_of_false ?_ hcr
      split_ifs <;> exact Bool.false_ne_true

/-- Behind carriage returns alone one is still held back. -/
theorem cook_crs (h : d.dropWhile isCr = []) : (cook true d).2 = true := by
  induction d with
  | nil => rfl
  | cons b d ih =>
    by_cases hcr : b = carriageReturn
    · rw [List.dropWhile_cons_of_pos (isCr_pos hcr)] at h
      rw [cook, if_pos hcr]
      exact ih h
    · rw [List.dropWhile_cons_of_neg (isCr_neg hcr)] at h
      cases h

/-- Carriage returns behind one that is held back come out, but for the
last. -/
theorem cook_run (d : Bytes) (x : UInt8) (hcr : x ≠ carriageReturn) (hnl : x ≠ newline) :
    cook true (d.takeWhile isCr ++ [x]) =
      (d.takeWhile isCr ++ [carriageReturn, x], false) := by
  induction d with
  | nil =>
    rw [List.takeWhile_nil, List.nil_append, List.nil_append, cook, if_neg hcr, if_neg hnl]
    rfl
  | cons b d ih =>
    by_cases hb : b = carriageReturn
    · rw [List.takeWhile_cons_of_pos (isCr_pos hb), List.cons_append, cook, if_pos hb, ih]
      rfl
    · rw [List.takeWhile_cons_of_neg (isCr_neg hb), List.nil_append, List.nil_append, cook,
        if_neg hcr, if_neg hnl]
      rfl

end Cook

section CookIn

variable {gap room : ℕ} {pend : Bool} {d : Bytes}

/-- A carriage return is held back. -/
theorem cookIn_cr (gap : ℕ) (d : Bytes) (room : ℕ) :
    cookIn gap false (carriageReturn :: d) room = cookIn (gap + 1) true d room := by
  conv_lhs => unfold cookIn
  rfl

/-- Behind another one. -/
theorem cookIn_cr_pend (gap : ℕ) (d : Bytes) (room : ℕ) :
    cookIn gap true (carriageReturn :: d) room =
      (carriageReturn :: (cookIn gap true d room).1, (cookIn gap true d room).2) := by
  conv_lhs => unfold cookIn
  rfl

/-- A newline comes out. -/
theorem cookIn_nl (gap : ℕ) (pend : Bool) (d : Bytes) (room : ℕ) :
    cookIn gap pend (newline :: d) room =
      (newline :: (cookIn gap false d room).1, (cookIn gap false d room).2) := by
  conv_lhs => unfold cookIn
  rfl

section Plain

variable {b : UInt8} (hcr : b ≠ carriageReturn) (hnl : b ≠ newline)
include hcr hnl

/-- Any other byte comes out. -/
theorem cookIn_plain (gap : ℕ) (d : Bytes) (room : ℕ) :
    cookIn gap false (b :: d) room =
      (b :: (cookIn gap false d room).1, (cookIn gap false d room).2) := by
  conv_lhs => unfold cookIn
  rw [if_neg hcr, if_neg hnl]
  rfl

/-- Behind a carriage return that is held back it does too, where a byte
is free. -/
theorem cookIn_plain_pend (gap : ℕ) (d : Bytes) (room : ℕ) :
    cookIn (gap + 1) true (b :: d) room =
      (carriageReturn :: b :: (cookIn gap false d room).1, (cookIn gap false d room).2) := by
  conv_lhs => unfold cookIn
  rw [if_neg hcr, if_neg hnl]
  rfl

/-- At the end it is lost. -/
theorem cookIn_lost (room : ℕ) :
    cookIn 0 true [b] room =
      if room = 0 then ([carriageReturn], true) else ([carriageReturn, carriageReturn], false) := by
  unfold cookIn
  rw [if_neg hcr, if_neg hnl]
  rfl

/-- And before the end the next one as well. -/
theorem cookIn_lost_next (y : UInt8) (d : Bytes) (room : ℕ) :
    cookIn 0 true (b :: y :: d) room =
      (carriageReturn :: carriageReturn :: (cookIn 0 true d room).1,
        (cookIn 0 true d room).2) := by
  conv_lhs => unfold cookIn
  rw [if_neg hcr, if_neg hnl]
  rfl

end Plain

/-- Behind a carriage return nothing is different. -/
theorem smooth_cr : Smooth (carriageReturn :: d) ↔ Smooth d := by
  rw [Smooth, List.dropWhile_cons_of_pos (by decide), Smooth]

/-- **In place and not** the conversion is the same, where a byte is free
or none is needed. -/
theorem cookIn_eq_cook (h : pend = true → gap ≠ 0 ∨ Smooth d) (room : ℕ) :
    cookIn gap pend d room = cook pend d := by
  induction d generalizing gap pend with
  | nil => rfl
  | cons b d ih =>
    have hidle : ∀ gap, cookIn gap false d room = cook false d := fun gap => ih fun h => by cases h
    by_cases hcr : b = carriageReturn
    · subst hcr
      rw [cook, if_pos rfl]
      cases pend with
      | false =>
        rw [cookIn_cr, ih fun _ => .inl (Nat.succ_ne_zero gap)]
        rfl
      | true =>
        rw [cookIn_cr_pend, ih fun hp => (h hp).imp_right smooth_cr.1]
        rfl
    · rw [cook, if_neg hcr]
      by_cases hnl : b = newline
      · subst hnl
        rw [cookIn_nl, hidle, if_pos rfl]
      · rw [if_neg hnl]
        cases pend with
        | false =>
          rw [cookIn_plain hcr hnl, hidle]
          rfl
        | true =>
          rcases h rfl with hgap | hsmooth
          · obtain ⟨gap, rfl⟩ := Nat.exists_eq_succ_of_ne_zero hgap
            rw [cookIn_plain_pend hcr hnl, hidle]
            rfl
          · refine absurd (hsmooth b ?_) hnl
            rw [List.dropWhile_cons_of_neg (isCr_neg hcr)]
            rfl

/-- **No byte is free and one is needed**: another carriage return stands
in its place, or is held back for it. -/
theorem cookIn_hazard {x : UInt8} (hx : (d.dropWhile isCr).head? = some x) (hnl : x ≠ newline)
    (room : ℕ) :
    ∃ w pend', cookIn 0 true d room = (d.takeWhile isCr ++ carriageReturn :: w, pend') ∧
      (w = [] → pend' = true) ∧ ∀ c ∈ w.head?, c = carriageReturn := by
  induction d with
  | nil => cases hx
  | cons b d ih =>
    by_cases hcr : b = carriageReturn
    · subst hcr
      rw [List.dropWhile_cons_of_pos (isCr_pos rfl)] at hx
      obtain ⟨w, pend', hrun, hw⟩ := ih hx
      refine ⟨w, pend', ?_, hw⟩
      rw [cookIn_cr_pend, hrun, List.takeWhile_cons_of_pos (isCr_pos rfl), List.cons_append]
    · rw [List.dropWhile_cons_of_neg (isCr_neg hcr), List.head?_cons, Option.some.injEq] at hx
      subst hx
      rw [List.takeWhile_cons_of_neg (isCr_neg hcr)]
      cases d with
      | nil =>
        rw [cookIn_lost hcr hnl]
        by_cases hroom : room = 0
        · exact ⟨[], true, if_pos hroom, fun _ => rfl, nofun⟩
        · refine ⟨[carriageReturn], false, if_neg hroom, nofun, ?_⟩
          rintro c ⟨⟩
          rfl
      | cons y d =>
        refine ⟨carriageReturn :: (cookIn 0 true d room).1, (cookIn 0 true d room).2,
          cookIn_lost_next hcr hnl y d room, nofun, ?_⟩
        rintro c ⟨⟩
        rfl

/-- The first byte that comes out where a carriage return was held back. -/
theorem cookIn_head (hd : d ≠ []) (room : ℕ) :
    ∃ c w, (cookIn 0 true d room).1 = c :: w ∧ (c = carriageReturn ∨ c = newline) := by
  by_cases hsmooth : Smooth d
  · rw [cookIn_eq_cook (fun _ => .inr hsmooth)]
    obtain ⟨b, d, rfl⟩ := List.exists_cons_of_ne_nil hd
    by_cases hcr : b = carriageReturn
    · rw [cook, if_pos hcr]
      exact ⟨b, _, rfl, .inl hcr⟩
    · have hnl : b = newline := hsmooth b (by rw [List.dropWhile_cons_of_neg (isCr_neg hcr)]; rfl)
      rw [cook, if_neg hcr, if_pos hnl]
      exact ⟨b, _, rfl, .inr hnl⟩
  · simp only [Smooth, not_forall] at hsmooth
    obtain ⟨x, hx, hnl⟩ := hsmooth
    obtain ⟨w, pend', hrun, -⟩ := cookIn_hazard hx hnl room
    rw [hrun]
    cases htake : d.takeWhile isCr with
    | nil => exact ⟨_, _, rfl, .inl rfl⟩
    | cons c t =>
      have hc := List.mem_takeWhile_imp (htake ▸ List.mem_cons_self : c ∈ d.takeWhile isCr)
      exact ⟨c, _, rfl, .inl (of_decide_eq_true hc)⟩

/-- No more bytes come out than went in. -/
theorem cookIn_length (gap room : ℕ) (pend : Bool) (d : Bytes) :
    (cookIn gap pend d room).1.length + (cookIn gap pend d room).2.toNat ≤
      pend.toNat + d.length := by
  fun_induction cookIn gap pend d room with
  | case1 gap pend room => exact le_of_eq (Nat.add_comm _ _)
  | case2 gap pend d room r ih =>
    change r.1.length + r.2.toNat ≤ 1 + d.length at ih
    cases pend with
    | false =>
      change r.1.length + r.2.toNat ≤ 0 + (d.length + 1)
      omega
    | true =>
      change r.1.length + 1 + r.2.toNat ≤ 1 + (d.length + 1)
      omega
  | case3 gap pend d room r hne ih =>
    change r.1.length + r.2.toNat ≤ 0 + d.length at ih
    change r.1.length + 1 + r.2.toNat ≤ pend.toNat + (d.length + 1)
    omega
  | case4 => exact le_rfl
  | case5 => exact le_rfl
  | case6 b room hcr hnl y d r ih =>
    change r.1.length + r.2.toNat ≤ 1 + d.length at ih
    change r.1.length + 1 + 1 + r.2.toNat ≤ 1 + (d.length + 1 + 1)
    omega
  | case7 gap b d room hcr hnl hgap r ih =>
    change r.1.length + r.2.toNat ≤ 0 + d.length at ih
    change r.1.length + 1 + 1 + r.2.toNat ≤ 1 + (d.length + 1)
    omega
  | case8 gap pend b d room hcr hnl hpend r ih =>
    change r.1.length + r.2.toNat ≤ 0 + d.length at ih
    change r.1.length + 1 + r.2.toNat ≤ pend.toNat + (d.length + 1)
    omega

end CookIn

end Dico
