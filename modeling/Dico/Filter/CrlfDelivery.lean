import Dico.Filter.CrlfReader
/-!
# What the CRLF reader delivers

The block of a call is the bytes that are done, a gap, the bytes to be
read and some room; `bytes_eq` follows it through the loop of
`_crlfstr_read` and finds the conversion in place. From there on it is
about the bytes alone: `Follows` is kept by every read, and decides at the
end of the input whether it was converted.
-/

namespace Dico

open CrlfScan

/-- What `cb` is when a carriage return is held back or not. -/
def pendByte (pend : Bool) : UInt8 := if pend then carriageReturn else 0

/-! ## One byte -/

section Byte

variable (A G T : Bytes)

/-- Writing the next byte of a block that is not full. -/
theorem put_append (a c cb : UInt8) :
    put ⟨A ++ a :: T, A.length, cb⟩ c = .ok ⟨A ++ [c] ++ T, (A ++ [c]).length, cb⟩ := by
  rw [put, store_append, ok_bind, List.length_append, List.append_assoc]
  rfl

/-- The bytes behind the one that is written next. -/
theorem append_cons_eq (b : UInt8) : ∃ a, G ++ b :: T = a :: ((G ++ [b]).tail ++ T) := by
  cases G with
  | nil => exact ⟨b, rfl⟩
  | cons g G =>
    refine ⟨g, ?_⟩
    rw [List.cons_append, List.cons_append, List.tail_cons, List.append_assoc]
    rfl

/-- Writing a byte while another is read. -/
theorem put_gap (b c cb : UInt8) :
    put ⟨A ++ (G ++ b :: T), A.length, cb⟩ c =
      .ok ⟨A ++ [c] ++ ((G ++ [b]).tail ++ T), (A ++ [c]).length, cb⟩ := by
  obtain ⟨a, ha⟩ := append_cons_eq G T b
  rw [ha, put_append]

/-- The carriage return that is held back is written. -/
theorem putPending_cr (buf : Bytes) (total : ℕ) :
    putPending ⟨buf, total, carriageReturn⟩ = put ⟨buf, total, carriageReturn⟩ carriageReturn :=
  if_pos (show carriageReturn ≠ 0 by decide)

/-- Reading a byte behind the gap. -/
theorem load_gap (b : UInt8) : load (A ++ (G ++ b :: T)) (A.length + G.length) = .ok b := by
  rw [← List.append_assoc, ← List.length_append, load_append]

/-- The block is not full where a byte is read. -/
theorem ne_full (b : UInt8) : A.length ≠ (A ++ (G ++ b :: T)).length := by
  simp only [List.length_append, List.length_cons]
  omega

/-- A carriage return is held back. -/
theorem byte_cr :
    byte ⟨A ++ (G ++ carriageReturn :: T), A.length, 0⟩ (A.length + G.length) =
      .ok ⟨A ++ (G ++ carriageReturn :: T), A.length, carriageReturn⟩ := by
  rw [byte, load_gap, ok_bind, if_pos rfl]
  rfl

/-- Behind another one. -/
theorem byte_cr_pend :
    byte ⟨A ++ (G ++ carriageReturn :: T), A.length, carriageReturn⟩ (A.length + G.length) =
      .ok ⟨A ++ [carriageReturn] ++ ((G ++ [carriageReturn]).tail ++ T),
        (A ++ [carriageReturn]).length, carriageReturn⟩ := by
  rw [byte, load_gap, ok_bind, if_pos rfl, putPending_cr, put_gap, ok_bind]

/-- A newline goes on, and a carriage return before it does not. -/
theorem byte_nl (cb : UInt8) :
    byte ⟨A ++ (G ++ newline :: T), A.length, cb⟩ (A.length + G.length) =
      .ok ⟨A ++ [newline] ++ ((G ++ [newline]).tail ++ T), (A ++ [newline]).length, 0⟩ := by
  rw [byte, load_gap, ok_bind, if_neg (by decide), if_pos rfl, put_gap]

/-- A carriage return that has gone over another byte is held back. -/
theorem byte_over :
    byte ⟨A ++ [carriageReturn] ++ [carriageReturn] ++ T,
        (A ++ [carriageReturn] ++ [carriageReturn]).length, 0⟩ (A.length + 1) =
      .ok ⟨A ++ [carriageReturn] ++ [carriageReturn] ++ T,
        (A ++ [carriageReturn] ++ [carriageReturn]).length, carriageReturn⟩ := by
  have hload : load (A ++ [carriageReturn] ++ [carriageReturn] ++ T) (A.length + 1) =
      .ok carriageReturn := by
    have happ := load_append (A ++ [carriageReturn]) carriageReturn T
    rw [List.length_append, List.length_singleton] at happ
    rwa [List.append_assoc (A ++ [carriageReturn])]
  rw [byte, hload, ok_bind, if_pos rfl]
  rfl

variable {b : UInt8} (hcr : b ≠ carriageReturn) (hnl : b ≠ newline)
include hcr hnl

/-- Any other byte goes on. -/
theorem byte_plain :
    byte ⟨A ++ (G ++ b :: T), A.length, 0⟩ (A.length + G.length) =
      .ok ⟨A ++ [b] ++ ((G ++ [b]).tail ++ T), (A ++ [b]).length, 0⟩ := by
  rw [byte, load_gap, ok_bind, if_neg hcr, if_neg hnl]
  change (load (A ++ (G ++ b :: T)) (A.length + G.length) >>= _) = _
  rw [load_gap, ok_bind, if_neg (ne_full A G T b), put_gap]

/-- Behind a carriage return that is held back it does too, where the
carriage return has a place. -/
theorem byte_plain_pend (g : UInt8) :
    byte ⟨A ++ (g :: G ++ b :: T), A.length, carriageReturn⟩ (A.length + (g :: G).length) =
      .ok ⟨A ++ [carriageReturn] ++ [b] ++ ((G ++ [b]).tail ++ T),
        (A ++ [carriageReturn] ++ [b]).length, 0⟩ := by
  have hput : put ⟨A ++ (g :: G ++ b :: T), A.length, carriageReturn⟩ carriageReturn =
      .ok ⟨A ++ [carriageReturn] ++ (G ++ b :: T), (A ++ [carriageReturn]).length,
        carriageReturn⟩ := put_append A (G ++ b :: T) g carriageReturn carriageReturn
  have hat : A.length + (g :: G).length = (A ++ [carriageReturn]).length + G.length := by
    rw [List.length_append, List.length_cons, List.length_singleton]
    omega
  rw [byte, load_gap, ok_bind, if_neg hcr, if_neg hnl, putPending_cr, hput,
    ok_bind, hat]
  simp only [load_gap, ok_bind, if_neg (ne_full (A ++ [carriageReturn]) G T b), put_gap]

/-- Where it has none it takes the place of the byte, and the byte is gone:
at the end of the block the carriage return is held back for it. -/
theorem byte_lost :
    byte ⟨A ++ [b], A.length, carriageReturn⟩ A.length =
      .ok ⟨A ++ [carriageReturn], (A ++ [carriageReturn]).length, carriageReturn⟩ := by
  have hload : load (A ++ [carriageReturn]) A.length = .ok carriageReturn :=
    load_append A carriageReturn []
  rw [byte, load_append, ok_bind, if_neg hcr, if_neg hnl, putPending_cr,
    put_append, ok_bind]
  simp only [List.append_nil, hload, ok_bind, if_true]

/-- And before the end another carriage return goes over the next byte. -/
theorem byte_lost_next (y : UInt8) :
    byte ⟨A ++ b :: y :: T, A.length, carriageReturn⟩ A.length =
      .ok ⟨A ++ [carriageReturn] ++ [carriageReturn] ++ T,
        (A ++ [carriageReturn] ++ [carriageReturn]).length, 0⟩ := by
  have hload : load (A ++ [carriageReturn] ++ y :: T) A.length = .ok carriageReturn := by
    rw [List.append_assoc]
    exact load_append A carriageReturn (y :: T)
  have hne : (A ++ [carriageReturn]).length ≠ (A ++ [carriageReturn] ++ y :: T).length :=
    ne_full (A ++ [carriageReturn]) [] T y
  rw [byte, load_append, ok_bind, if_neg hcr, if_neg hnl, putPending_cr,
    put_append, ok_bind]
  simp only [hload, ok_bind, if_neg hne, put_append]

end Byte

/-! ## The bytes of a read -/

section Length

variable {s s' : CrlfScan} {c : UInt8} {p sz : ℕ}

theorem length_put (h : s.put c = .ok s') : s'.buf.length = s.buf.length := by
  obtain ⟨buf, hstore, hs'⟩ := bind_eq_ok.1 h
  obtain rfl := Except.ok.inj hs'
  rw [store] at hstore
  split_ifs at hstore
  obtain rfl := Except.ok.inj hstore
  exact List.length_set

theorem length_putPending (h : s.putPending = .ok s') : s'.buf.length = s.buf.length := by
  rw [putPending] at h
  split_ifs at h
  · exact length_put h
  · rw [Except.ok.inj h]

/-- The block keeps its length. -/
theorem length_byte (h : s.byte p = .ok s') : s'.buf.length = s.buf.length := by
  obtain ⟨c, -, h⟩ := bind_eq_ok.1 h
  split_ifs at h
  · obtain ⟨s₁, hput, h⟩ := bind_eq_ok.1 h
    rw [← Except.ok.inj h, ← length_putPending hput]
  · exact (length_put h).trans rfl
  · obtain ⟨s₁, hput, h⟩ := bind_eq_ok.1 h
    obtain ⟨c', -, h⟩ := bind_eq_ok.1 h
    rw [← length_putPending hput]
    split_ifs at h
    · rw [← Except.ok.inj h]
    · exact (length_put h).trans rfl

theorem length_bytes (h : bytes sz p s = .ok s') : s'.buf.length = s.buf.length := by
  induction sz generalizing p s with
  | zero => rw [Except.ok.inj h]
  | succ sz ih =>
    obtain ⟨s₁, hbyte, h⟩ := bind_eq_ok.1 h
    rw [ih h, length_byte hbyte]

end Length

/-- The gap keeps its length when it moves on by a byte. -/
theorem length_gap (G : Bytes) (b : UInt8) : (G ++ [b]).tail.length = G.length := by
  rw [List.length_tail, List.length_append, List.length_singleton, Nat.add_sub_cancel]

/-- The loop over `d` converts it in place, with `A` done before it, the
gap `G` between and the room `R` behind it. -/
def Converts (A G d R : Bytes) (pend : Bool) : Prop :=
  ∃ B, bytes d.length (A.length + G.length) ⟨A ++ (G ++ (d ++ R)), A.length, pendByte pend⟩ =
    .ok ⟨A ++ (cookIn G.length pend d R.length).1 ++ B,
      (A ++ (cookIn G.length pend d R.length).1).length,
      pendByte (cookIn G.length pend d R.length).2⟩

section Converts

variable {A G d R : Bytes} {b : UInt8} {pend : Bool}

/-- A byte that puts `e` into the block and leaves the gap `G'`. -/
theorem Converts.cons (e G' : Bytes) (pend' : Bool) (h : Converts (A ++ e) G' d R pend')
    (hbyte : byte ⟨A ++ (G ++ b :: (d ++ R)), A.length, pendByte pend⟩ (A.length + G.length) =
      .ok ⟨A ++ e ++ (G' ++ (d ++ R)), (A ++ e).length, pendByte pend'⟩)
    (hat : (A ++ e).length + G'.length = A.length + G.length + 1)
    (hcook : cookIn G.length pend (b :: d) R.length =
      (e ++ (cookIn G'.length pend' d R.length).1, (cookIn G'.length pend' d R.length).2)) :
    Converts A G (b :: d) R pend := by
  obtain ⟨B, hB⟩ := h
  refine ⟨B, ?_⟩
  rw [hcook, List.length_cons, bytes, List.cons_append, hbyte, ok_bind, ← hat, hB]
  simp only [List.append_assoc]

/-- A byte that goes out takes the place of one of the gap. -/
theorem length_move (A G : Bytes) (b c : UInt8) :
    (A ++ [c]).length + (G ++ [b]).tail.length = A.length + G.length + 1 := by
  rw [length_gap, List.length_append, List.length_singleton]
  omega

/-- A carriage return. -/
theorem Converts.cr (h : ∀ A G, Converts A G d R true) :
    Converts A G (carriageReturn :: d) R pend := by
  cases pend with
  | false =>
    refine .cons [] (G ++ [carriageReturn]) true (h _ _) ?_ ?_ ?_
    · rw [List.append_nil, List.append_assoc]
      exact byte_cr A G (d ++ R)
    · rw [List.append_nil, List.length_append, List.length_singleton, Nat.add_assoc]
    · rw [cookIn_cr, List.length_append]
      rfl
  | true =>
    refine .cons [carriageReturn] _ true (h _ _) (byte_cr_pend A G (d ++ R))
      (length_move _ _ _ _) ?_
    rw [cookIn_cr_pend, length_gap]
    rfl

/-- A newline. -/
theorem Converts.nl (h : ∀ A G, Converts A G d R false) : Converts A G (newline :: d) R pend := by
  refine .cons [newline] _ false (h _ _) (byte_nl A G (d ++ R) _) (length_move _ _ _ _) ?_
  rw [cookIn_nl, length_gap]
  rfl

section Plain

variable (hcr : b ≠ carriageReturn) (hnl : b ≠ newline)
include hcr hnl

/-- Any other byte. -/
theorem Converts.plain (h : ∀ A G, Converts A G d R false) : Converts A G (b :: d) R false := by
  refine .cons [b] _ false (h _ _) (byte_plain A G (d ++ R) hcr hnl) (length_move _ _ _ _) ?_
  rw [cookIn_plain hcr hnl, length_gap]
  rfl

/-- Behind a carriage return that has its place in the gap. -/
theorem Converts.plain_pend (g : UInt8) (h : ∀ A G, Converts A G d R false) :
    Converts A (g :: G) (b :: d) R true := by
  refine .cons [carriageReturn, b] (G ++ [b]).tail false (h _ _) ?_ ?_ ?_
  · have hbyte := byte_plain_pend A G (d ++ R) hcr hnl g
    rw [List.append_assoc A, List.singleton_append] at hbyte
    exact hbyte
  · rw [length_gap, List.length_append, List.length_cons (a := g)]
    change A.length + 2 + G.length = _
    omega
  · rw [List.length_cons, cookIn_plain_pend hcr hnl, length_gap]
    rfl

/-- Behind one that has not, at the end of the bytes. -/
theorem Converts.lost : Converts A [] [b] R true := by
  rw [Converts, List.length_nil, cookIn_lost hcr hnl]
  cases R with
  | nil =>
    refine ⟨[], ?_⟩
    rw [if_pos List.length_nil]
    change (byte ⟨A ++ [b], A.length, carriageReturn⟩ A.length >>= _) = _
    rw [byte_lost A hcr hnl, ok_bind, List.append_nil]
    rfl
  | cons y R =>
    refine ⟨R, ?_⟩
    rw [if_neg (by rw [List.length_cons]; omega)]
    change (byte ⟨A ++ b :: y :: R, A.length, carriageReturn⟩ A.length >>= _) = _
    rw [byte_lost_next A R hcr hnl, ok_bind, List.append_assoc A]
    rfl

/-- And before the end, where the next byte is lost with it. -/
theorem Converts.lost_next (y : UInt8) (h : ∀ A G, Converts A G d R true) :
    Converts A [] (b :: y :: d) R true := by
  obtain ⟨B, hB⟩ := h (A ++ [carriageReturn] ++ [carriageReturn]) []
  refine ⟨B, ?_⟩
  rw [List.length_nil, cookIn_lost_next hcr hnl]
  change (byte ⟨A ++ b :: y :: (d ++ R), A.length, carriageReturn⟩ A.length >>=
    fun s => byte s (A.length + 1) >>= bytes d.length (A.length + 1 + 1)) = _
  rw [byte_lost_next A (d ++ R) hcr hnl, ok_bind, byte_over, ok_bind]
  have hat : A.length + 1 + 1 =
      (A ++ [carriageReturn] ++ [carriageReturn]).length + ([] : Bytes).length := by
    simp only [List.length_append, List.length_singleton, List.length_nil]
  rw [hat]
  refine hB.trans ?_
  simp only [List.append_assoc]
  rfl

end Plain

end Converts

/-- **The loop converts the bytes in place.** -/
theorem bytes_eq (A G d R : Bytes) (pend : Bool) : Converts A G d R pend := by
  -- a byte that is lost takes the next one with it, so the induction is on the length
  induction hn : d.length using Nat.strong_induction_on generalizing A G d pend with
  | _ n ih =>
    subst hn
    cases d with
    | nil =>
      refine ⟨G ++ R, ?_⟩
      rw [cookIn, List.append_nil]
      rfl
    | cons b d =>
      have htail (pend' : Bool) (A G : Bytes) : Converts A G d R pend' :=
        ih d.length (Nat.lt_succ_self _) A G d pend' rfl
      by_cases hcr : b = carriageReturn
      · rw [hcr]
        exact .cr (htail true)
      by_cases hnl : b = newline
      · rw [hnl]
        exact .nl (htail false)
      cases pend with
      | false => exact .plain hcr hnl (htail false)
      | true =>
        cases G with
        | cons g G => exact .plain_pend hcr hnl g (htail false)
        | nil =>
          cases d with
          | nil => exact .lost hcr hnl
          | cons y d =>
            refine .lost_next hcr hnl y fun A G => ?_
            exact ih d.length (Nat.lt_succ_of_lt (Nat.lt_succ_self _)) A G d true rfl

/-! ## Reads, one after another -/

/-- No read finds a carriage return held back and begins with a plain
byte, once carriage returns are left out. -/
def Steady : Bool → List Bytes → Prop
  | _, [] => True
  | pend, d :: ds => (pend = true → Smooth d) ∧ Steady (cook pend d).2 ds

section Steady

variable {pend : Bool}

/-- One read more. -/
theorem steady_concat (pend : Bool) (ds : List Bytes) (d : Bytes) :
    Steady pend (ds ++ [d]) ↔
      Steady pend ds ∧ ((cook pend ds.flatten).2 = true → Smooth d) := by
  induction ds generalizing pend with
  | nil => exact and_comm
  | cons c ds ih =>
    rw [List.cons_append, Steady, Steady, ih, List.flatten_cons, cook_append, and_assoc]

/-- `Tame`, behind a carriage return that is held back or not. -/
theorem steady_iff (pend : Bool) (ds : List Bytes) :
    (∀ before after, before ++ after = ds → (cook pend before.flatten).2 = true →
        (after.flatten.dropWhile isCr).head? = some newline) ↔
      Steady pend ds ∧ (cook pend ds.flatten).2 = false := by
  induction ds generalizing pend with
  | nil =>
    constructor
    · intro h
      refine ⟨trivial, Bool.eq_false_iff.2 fun hp => ?_⟩
      cases h [] [] rfl hp
    · rintro ⟨-, hpend⟩ before after happ hp
      obtain ⟨rfl, rfl⟩ := List.append_eq_nil_iff.1 happ
      rw [hpend] at hp
      cases hp
  | cons d ds ih =>
    have hhead : ∀ x t, d.dropWhile isCr = x :: t →
        ((d ++ ds.flatten).dropWhile isCr).head? = some x := by
      intro x t hd
      rw [List.dropWhile_append, hd]
      rfl
    have hrest := ih (cook pend d).2
    rw [Steady, List.flatten_cons, cook_append, and_assoc, ← hrest]
    constructor
    · intro h
      refine ⟨fun hp x hx => ?_, fun before after happ hp => ?_⟩
      · cases hd : d.dropWhile isCr with
        | nil =>
          rw [hd] at hx
          cases hx
        | cons y t =>
          have hy := h [] (d :: ds) rfl hp
          rw [List.flatten_cons, hhead y t hd] at hy
          rw [hd] at hx
          exact (Option.some.inj hx).symm.trans (Option.some.inj hy)
      · refine h (d :: before) after (congrArg (d :: ·) happ) ?_
        rw [List.flatten_cons, cook_append]
        exact hp
    · rintro ⟨hsmooth, h⟩ before after happ hp
      cases before with
      | nil =>
        rw [List.nil_append] at happ
        rw [happ, List.flatten_cons]
        have hs := hsmooth hp
        cases hd : d.dropWhile isCr with
        | nil =>
          -- nothing but carriage returns, and one of them is held back
          have hall : (cook pend d).2 = true := by
            rw [show pend = true from hp]
            exact cook_crs hd
          rw [List.dropWhile_append, hd]
          exact h [] ds rfl hall
        | cons y t => rw [hhead y t hd, hs y (by rw [hd]; rfl)]
      | cons c before =>
        rw [List.cons_append, List.cons.injEq] at happ
        obtain ⟨rfl, happ⟩ := happ
        rw [List.flatten_cons, cook_append] at hp
        exact h before after happ hp

/-- **The reads are tame** if none of them breaks off and nothing is held
back behind the last. -/
theorem tame_iff (ds : List Bytes) :
    Tame ds ↔ Steady false ds ∧ (cook false ds.flatten).2 = false := by
  rw [← steady_iff, Tame]
  simp only [cook_snd]

end Steady

/-! ## The run -/

/-- What has come out after some reads. Either the reads were steady and
it is their conversion; or one of them was not, and where the byte `x`
should follow `E`, something else does, or a carriage return is held back
for it. -/
inductive Follows (reads : List Bytes) (out : Bytes) (pend : Bool) : Prop
  | good (hsteady : Steady false reads) (hout : cook false reads.flatten = (out, pend))
  | bad (u E w : Bytes) (x : UInt8) (hsteady : ¬ Steady false reads) (hu : u <+: reads.flatten)
      (hE : (cook false u).1 = E ++ [x]) (hcr : x ≠ carriageReturn) (hnl : x ≠ newline)
      (hout : out = E ++ w) (hpend : w = [] → pend = true)
      (hw : ∀ c ∈ w.head?, c = carriageReturn ∨ c = newline)

section Follows

variable {reads : List Bytes} {out d : Bytes} {pend : Bool}

/-- **One read more.** -/
theorem Follows.read (h : Follows reads out pend) (hd : d ≠ []) (room : ℕ) :
    Follows (reads ++ [d]) (out ++ (cookIn 0 pend d room).1) (cookIn 0 pend d room).2 := by
  have hflat : (reads ++ [d]).flatten = reads.flatten ++ d := by
    rw [List.flatten_append, List.flatten_singleton]
  cases h with
  | good hsteady hout =>
    by_cases hsmooth : pend = true → Smooth d
    · refine .good ((steady_concat _ _ _).2 ⟨hsteady, ?_⟩) ?_
      · rw [hout]
        exact hsmooth
      · rw [cookIn_eq_cook fun hp => .inr (hsmooth hp), hflat, cook_append, hout]
    · have hbreak : ¬ Steady false (reads ++ [d]) := by
        rw [steady_concat, hout]
        exact fun hs => hsmooth hs.2
      obtain ⟨hp, hrough⟩ := Classical.not_imp.1 hsmooth
      subst hp
      simp only [Smooth, not_forall] at hrough
      obtain ⟨x, hx, hnl⟩ := hrough
      obtain ⟨w, pend', hrun, hpend, hw⟩ := cookIn_hazard hx hnl room
      have hcr : x ≠ carriageReturn := by
        have hnot := List.head?_dropWhile_not isCr d
        rw [hx] at hnot
        exact of_decide_eq_false hnot
      obtain ⟨t, ht⟩ : ∃ t, d.dropWhile isCr = x :: t := List.head?_eq_some_iff.1 hx
      refine .bad (reads.flatten ++ (d.takeWhile isCr ++ [x]))
        (out ++ (d.takeWhile isCr ++ [carriageReturn])) w x hbreak ?_ ?_ hcr hnl ?_ ?_ ?_
      · refine ⟨t, ?_⟩
        rw [hflat, List.append_assoc, List.append_assoc, List.singleton_append, ← ht,
          List.takeWhile_append_dropWhile]
      · rw [cook_append, hout, cook_run d x hcr hnl]
        simp only [List.append_assoc, List.cons_append, List.nil_append]
      · rw [hrun]
        simp only [List.append_assoc, List.cons_append, List.nil_append]
      · rw [hrun]
        exact hpend
      · exact fun c hc => .inl (hw c hc)
  | bad u E w x hsteady hu hE hcr hnl hout hpend hw =>
    refine .bad u E (w ++ (cookIn 0 pend d room).1) x ?_ ?_ hE hcr hnl ?_ ?_ ?_
    · rw [steady_concat]
      exact fun hs => hsteady hs.1
    · rw [hflat]
      exact hu.trans (List.prefix_append _ _)
    · rw [hout, List.append_assoc]
    · intro hnil
      obtain ⟨hw₀, hrun⟩ := List.append_eq_nil_iff.1 hnil
      rw [hpend hw₀] at hrun
      obtain ⟨c, t, hct, -⟩ := cookIn_head hd room
      rw [hct] at hrun
      cases hrun
    · cases w with
      | nil =>
        obtain ⟨c, t, hct, hc⟩ := cookIn_head hd room
        rw [hpend rfl, hct]
        rintro c' ⟨⟩
        exact hc
      | cons c w => exact hw

/-- **At the end** the input was converted if and only if the reads are
tame. -/
theorem Follows.out_iff (h : Follows reads out pend) :
    out = fromCrlf reads.flatten ↔ Tame reads := by
  cases h with
  | good hsteady hout =>
    rw [tame_iff, (fromCrlf_eq _).1, hout, render]
    cases pend with
    | false => exact iff_of_true (List.append_nil _).symm ⟨hsteady, rfl⟩
    | true =>
      refine iff_of_false (fun heq => ?_) fun h => by cases h.2
      have hlen := congrArg List.length heq
      rw [List.length_append] at hlen
      change out.length = out.length + 1 at hlen
      omega
  | bad u E w x hsteady hu hE hcr hnl hout hpend hw =>
    refine iff_of_false (fun heq => ?_) fun h => hsteady ((tame_iff _).1 h).1
    obtain ⟨v, hv⟩ := hu
    obtain ⟨t, ht⟩ := cook_prefix u v
    rw [hv, hE, ← heq, hout, List.append_assoc, List.append_cancel_left_eq] at ht
    rcases hw x (by rw [← ht]; rfl) with h | h
    · exact hcr h
    · exact hnl h

end Follows

section Run

variable {x : Source} {acc : Bytes} {pend : Bool}

/-- A read into the room of a block, and its conversion. -/
theorem bytes_read (A U d : Bytes) (pend : Bool) (hd : d.length ≤ U.length) :
    Memory.poke (A ++ U) A.length d = some (A ++ (d ++ U.drop d.length)) ∧
      ∃ B, bytes d.length A.length ⟨A ++ (d ++ U.drop d.length), A.length, pendByte pend⟩ =
        .ok ⟨A ++ (cookIn 0 pend d (U.drop d.length).length).1 ++ B,
          (A ++ (cookIn 0 pend d (U.drop d.length).length).1).length,
          pendByte (cookIn 0 pend d (U.drop d.length).length).2⟩ := by
  refine ⟨?_, bytes_eq A [] d (U.drop d.length) pend⟩
  have hfit : A.length + d.length ≤ (A ++ U).length := by
    rw [List.length_append]
    omega
  rw [Memory.poke_eq_some hfit, List.take_left, List.drop_append, List.append_assoc]
  have hdrop : A.drop (A.length + d.length) = [] := List.drop_eq_nil_of_le (by omega)
  rw [hdrop, List.nil_append, Nat.add_sub_cancel_left]

section Loop

variable (fuel : ℕ) (x : Source) (A U : Bytes) (cb : UInt8)

/-- The room in a block. -/
theorem room_eq (hU : U ≠ []) :
    A.length < (A ++ U).length ∧ (A ++ U).length - A.length = U.length := by
  have hpos := List.length_pos_of_ne_nil hU
  rw [List.length_append]
  omega

/-- The loop of a call, with room in the block, at the end of the input. -/
theorem loop_end (hU : U ≠ []) (hnil : (x.read U.length).1 = []) :
    loop (fuel + 1) x ⟨A ++ U, A.length, cb⟩ 0 =
      .ok ((x.read U.length).2, ⟨A ++ U, A.length, cb⟩) := by
  obtain ⟨hroom, hlen⟩ := room_eq A U hU
  rw [loop, if_pos hroom, if_pos rfl]
  simp only [hlen, if_pos hnil]

/-- Before the end. -/
theorem loop_read (hU : U ≠ []) (hne : (x.read U.length).1 ≠ []) {buf : Bytes}
    (hpoke : Memory.poke (A ++ U) A.length (x.read U.length).1 = some buf) :
    loop (fuel + 1) x ⟨A ++ U, A.length, cb⟩ 0 =
      bytes (x.read U.length).1.length A.length ⟨buf, A.length, cb⟩ >>= fun s =>
        loop fuel (x.read U.length).2 s 0 := by
  obtain ⟨hroom, hlen⟩ := room_eq A U hU
  rw [loop, if_pos hroom, if_pos rfl]
  simp only [hlen, if_neg hne, hpoke]

end Loop

/-- **The loop of a call** ends with the block full or at the end of the
input. -/
theorem loop_follows (fuel : ℕ) (A U : Bytes) (hfuel : x.rest.length < fuel)
    (hblock : A ++ U ≠ []) (h : Follows x.reads (acc ++ A) pend) :
    ∃ x' A' B pend',
      loop fuel x ⟨A ++ U, A.length, pendByte pend⟩ 0 =
        .ok (x', ⟨A' ++ B, A'.length, pendByte pend'⟩) ∧
      Follows x'.reads (acc ++ A') pend' ∧ x'.content = x.content ∧ (A' = [] → x'.rest = []) ∧
      A'.length + pend'.toNat + x'.rest.length ≤ A.length + pend.toNat + x.rest.length := by
  induction fuel generalizing x A U pend with
  | zero => omega
  | succ fuel ih =>
    by_cases hU : U ≠ []
    · have hpos := List.length_pos_of_ne_nil hU
      have hrest := Source.read_append (x := x) (n := U.length)
      by_cases hnil : (x.read U.length).1 = []
      · rw [loop_end fuel x A U _ hU hnil]
        rw [hnil, List.nil_append] at hrest
        have hreads : (x.read U.length).2.reads = x.reads := if_pos hnil
        refine ⟨(x.read U.length).2, A, U, pend, rfl, ?_, Source.content_read, fun _ => ?_, ?_⟩
        · rw [hreads]
          exact h
        · rw [hrest]
          exact (Source.read_eq_nil hpos).1 hnil
        · rw [hrest]
      · obtain ⟨hpoke, B, hbytes⟩ := bytes_read A U (x.read U.length).1 pend
          Source.length_read_le
        have hle := cookIn_length 0 (U.drop (x.read U.length).1.length).length pend
          (x.read U.length).1
        have hread := h.read hnil (U.drop (x.read U.length).1.length).length
        rw [← Source.reads_read hnil, List.append_assoc] at hread
        have hrestlen := congrArg List.length hrest
        have hdata := List.length_pos_of_ne_nil hnil
        rw [List.length_append] at hrestlen
        have hblock' : A ++ (cookIn 0 pend (x.read U.length).1
            (U.drop (x.read U.length).1.length).length).1 ++ B ≠ [] := by
          rw [← List.length_pos_iff, length_bytes hbytes, ← List.append_assoc, List.length_append,
            List.length_append]
          omega
        obtain ⟨x', A', B', pend', hloop, hfollows, hcontent, hnil', hcount⟩ :=
          ih (x := (x.read U.length).2) _ B (by omega)
            hblock' hread
        refine ⟨x', A', B', pend', ?_, hfollows, hcontent.trans Source.content_read, hnil', ?_⟩
        · rw [loop_read fuel x A U _ hU hnil hpoke, hbytes, ok_bind]
          exact hloop
        · rw [List.length_append] at hcount
          omega
    · obtain rfl := not_not.1 hU
      rw [List.append_nil] at hblock ⊢
      refine ⟨x, A, [], pend, ?_, h, rfl, fun hA => absurd hA hblock, le_rfl⟩
      rw [List.append_nil, loop, if_neg (Nat.lt_irrefl _)]

/-- A call takes the carriage return that was held back into its block,
and holds it back again. -/
theorem read_eq_loop {r : CrlfReader} (b : UInt8) (t : Bytes) (hcb : r.cb = pendByte pend) :
    ∃ b' fuel, r.transport.rest.length < fuel ∧ r.read (b :: t) =
      loop fuel r.transport ⟨b' :: t, 0, pendByte pend⟩ 0 >>= fun p =>
        .ok (p.2.buf.take p.2.total, ⟨p.1, p.2.cb⟩) := by
  cases pend with
  | false =>
    refine ⟨b, r.transport.rest.length + 2, by omega, ?_⟩
    rw [CrlfReader.read, hcb, if_neg (by decide)]
    rfl
  | true =>
    refine ⟨carriageReturn, r.transport.rest.length + 1, by omega, ?_⟩
    rw [CrlfReader.read, hcb, if_pos (by decide)]
    rfl

/-- **A call** goes on where the last one ended. -/
theorem read_follows {r : CrlfReader} (buf : Bytes) (hbuf : buf ≠ []) (hcb : r.cb = pendByte pend)
    (h : Follows r.transport.reads acc pend) :
    ∃ out r' pend', r.read buf = .ok (out, r') ∧ r'.cb = pendByte pend' ∧
      Follows r'.transport.reads (acc ++ out) pend' ∧
      r'.transport.content = r.transport.content ∧ (out = [] → r'.transport.rest = []) ∧
      out.length + pend'.toNat + r'.transport.rest.length ≤
        pend.toNat + r.transport.rest.length := by
  obtain ⟨b, t, rfl⟩ := List.exists_cons_of_ne_nil hbuf
  have hacc : Follows r.transport.reads (acc ++ []) pend := by rwa [List.append_nil]
  obtain ⟨b', fuel, hfuel, hread⟩ := read_eq_loop b t hcb
  obtain ⟨x', A', B, pend', hloop, hfollows, hcontent, hnil, hcount⟩ :=
    loop_follows fuel [] (b' :: t) hfuel (List.cons_ne_nil _ _) hacc
  refine ⟨A', ⟨x', pendByte pend'⟩, pend', ?_, rfl, hfollows, hcontent, hnil, ?_⟩
  · rw [hread]
    change (loop fuel r.transport ⟨[] ++ b' :: t, ([] : Bytes).length, pendByte pend⟩ 0 >>= _) = _
    rw [hloop, ok_bind, List.take_left]
  · rw [List.length_nil, Nat.zero_add] at hcount
    exact hcount

/-- **Calls up to the end of the input.** -/
theorem drain_follows {r : CrlfReader} (calls : CrlfReader.Calls) (fuel k : ℕ)
    (hfuel : pend.toNat + r.transport.rest.length < fuel) (hcb : r.cb = pendByte pend)
    (h : Follows r.transport.reads acc pend) :
    ∃ out r' pend', CrlfReader.drain calls fuel k r = .ok (out, r') ∧
      Follows r'.transport.reads (acc ++ out) pend' ∧
      r'.transport.reads.flatten = r.transport.content := by
  induction fuel generalizing r acc pend k with
  | zero => omega
  | succ fuel ih =>
    obtain ⟨out, r', pend', hread, hcb', hfollows, hcontent, hnil, hcount⟩ :=
      read_follows (calls k).1 (calls k).2 hcb h
    rw [CrlfReader.drain, hread, ok_bind]
    by_cases hout : out = []
    · refine ⟨[], r', pend', if_pos hout, hout ▸ hfollows, ?_⟩
      rw [← hcontent, Source.content, hnil hout, List.append_nil]
    · have hpos := List.length_pos_of_ne_nil hout
      obtain ⟨more, r'', pend'', hdrain, hfollows', hend⟩ :=
        ih (k + 1) (by omega) hcb' hfollows
      refine ⟨out ++ more, r'', pend'', ?_, ?_, hend.trans hcontent⟩
      · simp only [if_neg hout, hdrain, ok_bind]
      · rwa [← List.append_assoc]

end Run

/-- **When the input is converted.** Calls with any blocks, of any content
that arrives in any reads, come to its end; and what they return is the
content with its pairs replaced if and only if the reads are tame. -/
theorem crlfReader_iff (content : Bytes) (plan : List ℕ) (calls : CrlfReader.Calls) :
    ∃ out r, CrlfReader.drain calls (content.length + 1) 0 (.fresh content plan) = .ok (out, r) ∧
      r.transport.reads.flatten = content ∧
      (out = fromCrlf content ↔ Tame r.transport.reads) := by
  have hfresh : Follows (CrlfReader.fresh content plan).transport.reads [] false :=
    .good trivial rfl
  obtain ⟨out, r, pend', hdrain, hfollows, hend⟩ :=
    drain_follows calls (content.length + 1) 0
      (show false.toNat + content.length < content.length + 1 by
        rw [Bool.toNat_false]; omega) rfl hfresh
  have hcontent : r.transport.reads.flatten = content := hend
  refine ⟨out, r, hdrain, hcontent, ?_⟩
  rw [← hcontent]
  exact hfollows.out_iff

/-- A carriage return that ends a read, with a plain byte behind it: the
byte does not come out. -/
theorem crlfReader_lone_cr :
    (CrlfReader.drain (fun _ => ⟨List.replicate 8 0, by decide⟩) 4 0
      (.fresh (ascii "a\rb") [1])).map Prod.fst = .ok (ascii "a\r\r") ∧
    ascii "a\r\r" ≠ fromCrlf (ascii "a\rb") := by
  decide +kernel

end Dico
