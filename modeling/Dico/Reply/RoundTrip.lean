import Dico.Reply.Client
/-!
# A text through the server's output stream and the client

The server stuffs a dot per chunk and the client takes one off per line.
Every line starts a chunk, so a line that starts with a dot comes through;
but a chunk may also start inside a line, where the buffer was emptied by
a flush or by filling up, and a dot there is sent twice and read twice.
`Unbroken` says, of the calls alone, that this does not happen, and
`multilineReply_recovers_iff` that the client recovers the text exactly
when it does not and the text has no NUL.
-/

namespace Dico

open DicoStream

/-- Every byte that starts a line starts a chunk; `start` tells whether the
first byte starts a line. -/
def LineMarked : Bool → List (Bool × UInt8) → Prop
  | _, [] => True
  | start, (m, b) :: M => (start = true → m = true) ∧ LineMarked (b == newline) M

/-- No dot that starts a chunk stands inside a line. -/
def UnbrokenMarks : Bool → List (Bool × UInt8) → Prop
  | _, [] => True
  | start, (m, b) :: M =>
    (start = false → ¬ (m = true ∧ b = dot)) ∧ UnbrokenMarks (b == newline) M

instance decidableUnbrokenMarks : (start : Bool) → (M : List (Bool × UInt8)) →
    Decidable (UnbrokenMarks start M)
  | _, [] => isTrue trivial
  | start, (m, b) :: M =>
    haveI := decidableUnbrokenMarks (b == newline) M
    inferInstanceAs (Decidable ((start = false → ¬ (m = true ∧ b = dot)) ∧ _))

/-- **The calls never put a dot inside a line at the front of an empty
buffer** of the given size. -/
def Unbroken (size : ℕ) (ps : List Put) : Prop := UnbrokenMarks true (marks size 0 ps)

instance (size : ℕ) (ps : List Put) : Decidable (Unbroken size ps) :=
  inferInstanceAs (Decidable (UnbrokenMarks _ _))

section Lines

variable {M : List (Bool × UInt8)}

theorem lineMarked_markBytes {size : ℕ} {start : Bool} {f : Fill} (buf : Bytes)
    (hf : start = true → f.tail = 0)
    (hM : ∀ s, (s = true → (buf.foldl (Fill.push size) f).tail = 0) → LineMarked s M) :
    LineMarked start (markBytes size f buf ++ M) := by
  induction buf generalizing start f with
  | nil => exact hM start hf
  | cons b bs ih =>
    refine ⟨fun h => by rw [hf h]; rfl, ih (fun h => ?_) hM⟩
    unfold Fill.push
    split_ifs with h1 h2
    · rfl
    · rfl
    · exact absurd (beq_iff_eq.1 h) h2

/-- **Every line starts a chunk.** -/
theorem lineMarked_marks (size : ℕ) (ps : List Put) {start : Bool} {held : ℕ}
    (h : start = true → held = 0) : LineMarked start (marks size held ps) := by
  induction ps generalizing start held with
  | nil => trivial
  | cons p ps ih =>
    cases p with
    | write buf => exact lineMarked_markBytes buf h fun s hs => ih hs
    | flush => exact ih fun _ => rfl

/-- The marked bytes of some lines, each with the mark of its newline. -/
def joinLines (As : List (List (Bool × UInt8) × Bool)) : List (Bool × UInt8) :=
  As.flatMap fun p => p.1 ++ [(p.2, newline)]

theorem length_le_joinLines (As : List (List (Bool × UInt8) × Bool)) :
    As.length ≤ (joinLines As).length := by
  induction As with
  | nil => exact Nat.le_refl _
  | cons p As ih =>
    rw [joinLines, List.flatMap_cons, List.length_append, List.length_append, List.length_cons,
      List.length_singleton]
    unfold joinLines at ih
    omega

theorem map_snd_joinLines (As : List (List (Bool × UInt8) × Bool)) :
    (joinLines As).map Prod.snd = As.flatMap fun p => p.1.map Prod.snd ++ [newline] := by
  rw [joinLines, List.map_flatMap]
  refine congrArg (List.flatMap · As) (funext fun p => ?_)
  rw [List.map_append, List.map_singleton]

/-- A text is made of its lines. -/
theorem exists_joinLines (h : EndsLine (M.map Prod.snd)) :
    ∃ As, M = joinLines As ∧ ∀ p ∈ As, newline ∉ p.1.map Prod.snd := by
  induction M with
  | nil => exact ⟨[], rfl, fun p hp => by cases hp⟩
  | cons a M ih =>
    have hrest : EndsLine (M.map Prod.snd) := by
      cases M with
      | nil => exact Or.inl rfl
      | cons a' M =>
        refine Or.inr ?_
        rcases h with h | h
        · cases h
        · rwa [List.map_cons, List.map_cons, List.getLast?_cons_cons] at h
    obtain ⟨As, rfl, hAs⟩ := ih hrest
    by_cases ha : a.2 = newline
    · refine ⟨([], a.1) :: As, ?_, ?_⟩
      · simp only [joinLines, List.flatMap_cons, List.nil_append, List.cons_append, ← ha]
      · rintro p hp
        rcases List.mem_cons.1 hp with rfl | hp
        · exact List.not_mem_nil
        · exact hAs p hp
    · cases As with
      | nil =>
        rcases h with h | h
        · cases h
        · exact absurd (Option.some.inj h) ha
      | cons p As =>
        refine ⟨(a :: p.1, p.2) :: As, ?_, ?_⟩
        · simp only [joinLines, List.flatMap_cons, List.cons_append]
        · rintro q hq
          rcases List.mem_cons.1 hq with rfl | hq
          · rw [List.map_cons, List.mem_cons, not_or]
            exact ⟨fun h => ha h.symm, hAs p List.mem_cons_self⟩
          · exact hAs q (List.mem_cons_of_mem _ hq)

/-- Inside a line nothing is asked of the marks. -/
theorem lineMarked_false_append (A : List (Bool × UInt8)) (m : Bool)
    (hA : newline ∉ A.map Prod.snd) :
    LineMarked false (A ++ (m, newline) :: M) ↔ LineMarked true M := by
  induction A with
  | nil => exact ⟨fun h => h.2, fun h => ⟨fun h => (Bool.false_ne_true h).elim, h⟩⟩
  | cons a A ih =>
    rw [List.map_cons, List.mem_cons, not_or] at hA
    have hb : (a.2 == newline) = false := beq_eq_false_iff_ne.2 (Ne.symm hA.1)
    rw [List.cons_append, LineMarked, hb, ih hA.2]
    exact ⟨fun h => h.2, fun h => ⟨fun h => (Bool.false_ne_true h).elim, h⟩⟩

theorem unbrokenMarks_false_append (A : List (Bool × UInt8)) (m : Bool)
    (hA : newline ∉ A.map Prod.snd) :
    UnbrokenMarks false (A ++ (m, newline) :: M) ↔
      (∀ a ∈ A, a ≠ (true, dot)) ∧ UnbrokenMarks true M := by
  induction A with
  | nil =>
    refine ⟨fun h => ⟨fun a ha => (List.not_mem_nil ha).elim, h.2⟩, fun h => ⟨fun _ hm => ?_, h.2⟩⟩
    exact absurd hm.2 (by decide)
  | cons a A ih =>
    rw [List.map_cons, List.mem_cons, not_or] at hA
    have hb : (a.2 == newline) = false := beq_eq_false_iff_ne.2 (Ne.symm hA.1)
    rw [List.cons_append, UnbrokenMarks, hb, ih hA.2, List.forall_mem_cons, and_assoc]
    refine and_congr_left fun _ => ⟨fun h heq => h rfl ?_, fun h _ hm => h (Prod.ext hm.1 hm.2)⟩
    exact ⟨congrArg Prod.fst heq, congrArg Prod.snd heq⟩

/-- A line that starts with its marks in order. -/
theorem lineMarked_joinLines {As : List (List (Bool × UInt8) × Bool)}
    (hAs : ∀ p ∈ As, newline ∉ p.1.map Prod.snd) (h : LineMarked true (joinLines As)) :
    ∀ p ∈ As, ∀ a ∈ p.1.head?, a.1 = true := by
  induction As with
  | nil => exact fun p hp => by cases hp
  | cons p As ih =>
    obtain ⟨A, m⟩ := p
    have hA := hAs (A, m) List.mem_cons_self
    rw [joinLines, List.flatMap_cons, List.append_assoc, List.singleton_append] at h
    have hboth : (∀ a ∈ A.head?, a.1 = true) ∧ LineMarked true (joinLines As) := by
      cases A with
      | nil => exact ⟨fun a ha => (by cases ha), h.2⟩
      | cons a A =>
        have hb : (a.2 == newline) = false := by
          rw [List.map_cons, List.mem_cons, not_or] at hA
          exact beq_eq_false_iff_ne.2 (Ne.symm hA.1)
        rw [List.cons_append, LineMarked, hb, lineMarked_false_append A m
          (fun hm => hA (List.mem_cons_of_mem _ hm))] at h
        refine ⟨fun b hb => ?_, h.2⟩
        obtain rfl := Option.some.inj hb
        exact h.1 rfl
    intro q hq
    rcases List.mem_cons.1 hq with rfl | hq
    · exact hboth.1
    · exact ih (fun r hr => hAs r (List.mem_cons_of_mem _ hr)) hboth.2 q hq

theorem unbrokenMarks_joinLines {As : List (List (Bool × UInt8) × Bool)}
    (hAs : ∀ p ∈ As, newline ∉ p.1.map Prod.snd) :
    UnbrokenMarks true (joinLines As) ↔ ∀ p ∈ As, ∀ a ∈ p.1.tail, a ≠ (true, dot) := by
  induction As with
  | nil => exact ⟨fun _ p hp => (by cases hp), fun _ => trivial⟩
  | cons p As ih =>
    obtain ⟨A, m⟩ := p
    have hA := hAs (A, m) List.mem_cons_self
    rw [joinLines, List.flatMap_cons, List.append_assoc, List.singleton_append,
      List.forall_mem_cons, ← ih fun r hr => hAs r (List.mem_cons_of_mem _ hr)]
    cases A with
    | nil =>
      refine ⟨fun h => ⟨fun a ha => (by cases ha), h.2⟩, fun h => ⟨fun h => (by cases h), h.2⟩⟩
    | cons a A =>
      have hb : (a.2 == newline) = false := by
        rw [List.map_cons, List.mem_cons, not_or] at hA
        exact beq_eq_false_iff_ne.2 (Ne.symm hA.1)
      rw [List.cons_append, UnbrokenMarks, hb, unbrokenMarks_false_append A m
        (fun hm => hA (List.mem_cons_of_mem _ hm)), List.tail_cons]
      exact ⟨fun h => h.2, fun h => ⟨fun h => (by cases h), h⟩⟩

end Lines

/-! ## One line -/

section OneLine

variable {A : List (Bool × UInt8)} {l : Bytes}

theorem cString_eq_self (h : (0 : UInt8) ∉ l) : cString l = l :=
  List.takeWhile_eq_self_iff.2 fun _ hb => decide_eq_true fun h0 => h (h0 ▸ hb)

theorem zero_notMem_cString (l : Bytes) : (0 : UInt8) ∉ cString l := by
  intro h
  have := List.mem_takeWhile_imp h
  simp at this

/-- The client reads a line without line ends in it up to its first NUL. -/
theorem replyLine_eq_cString (hnl : newline ∉ l) (hcr : carriageReturn ∉ l) :
    replyLine l = cString l := by
  have htrim : ∀ s : Bytes, newline ∉ s → carriageReturn ∉ s → trimNl s = s := by
    intro s h1 h2
    refine List.rdropWhile_eq_self_iff.2 fun hs hp => ?_
    rcases of_decide_eq_true hp with h | h
    · exact h2 (h ▸ List.getLast_mem hs)
    · exact h1 (h ▸ List.getLast_mem hs)
  unfold replyLine
  by_cases h0 : (0 : UInt8) ∈ l
  · have hcut : cString (l ++ [newline]) = cString l := by
      unfold cString
      rw [List.takeWhile_append, if_neg]
      intro hlen
      have heq : cString l = l := List.IsPrefix.eq_of_length (List.takeWhile_prefix _) hlen
      exact zero_notMem_cString l (heq.symm ▸ h0)
    have hsub : ∀ b ∈ cString l, b ∈ l := fun b hb => (List.takeWhile_sublist _).subset hb
    rw [hcut]
    exact htrim _ (fun h => hnl (hsub _ h)) (fun h => hcr (hsub _ h))
  · rw [cString_eq_self (l := l ++ [newline])
      (by rw [List.mem_append, not_or]; exact ⟨h0, by decide⟩), cString_eq_self h0]
    unfold trimNl
    rw [List.rdropWhile_concat_pos _ _ _ (by decide)]
    exact htrim l hnl hcr

theorem mem_flatMap_emit {b : UInt8} (hb : b ≠ dot) :
    b ∈ A.flatMap emit ↔ b ∈ A.map Prod.snd := by
  have hone : ∀ a, b ∈ emit a ↔ b = a.2 := by
    intro a
    unfold emit
    split_ifs with h
    · rw [h.2]
      simp only [List.mem_cons, hb, List.not_mem_nil, or_self]
    · exact List.mem_singleton
  simp only [List.mem_flatMap, hone, List.mem_map, eq_comm]

/-- Bytes go over the wire as they are exactly where no dot is marked. -/
theorem flatMap_emit_eq_iff : A.flatMap emit = A.map Prod.snd ↔ ∀ a ∈ A, a ≠ (true, dot) := by
  have hlen : ∀ A : List (Bool × UInt8), A.length ≤ (A.flatMap emit).length := by
    intro A
    induction A with
    | nil => exact Nat.le_refl _
    | cons a A ih =>
      rw [List.flatMap_cons, List.length_append, List.length_cons]
      have : 1 ≤ (emit a).length := by
        unfold emit
        split_ifs
        · exact Nat.le_add_left _ _
        · exact Nat.le_refl _
      omega
  induction A with
  | nil => exact ⟨fun _ a ha => (by cases ha), fun _ => rfl⟩
  | cons a A ih =>
    rw [List.flatMap_cons, List.map_cons, List.forall_mem_cons]
    by_cases ha : a = (true, dot)
    · refine ⟨fun h => ?_, fun h => absurd ha h.1⟩
      have hbig := congrArg List.length h
      rw [ha, List.length_append, List.length_cons, List.length_map] at hbig
      have := hlen A
      have h2 : (emit (true, dot)).length = 2 := rfl
      omega
    · have hone : emit a = [a.2] := if_neg fun h => ha (Prod.ext h.1 h.2)
      rw [hone, List.singleton_append, List.cons.injEq]
      exact ⟨fun h => ⟨ha, ih.1 h.2⟩, fun h => ⟨rfl, ih.2 h.2⟩⟩

/-- A line as the client gets it: the stuffed dot is gone, and everything
from the first NUL on. -/
theorem unstuff_replyLine (hhead : ∀ a ∈ A.head?, a.1 = true)
    (hnl : newline ∉ A.map Prod.snd) (hcr : carriageReturn ∉ A.map Prod.snd) :
    replyLine (A.flatMap emit) ≠ [dot] ∧
      unstuff (replyLine (A.flatMap emit)) =
        cString ((A.map Prod.snd).take 1 ++ A.tail.flatMap emit) := by
  rw [replyLine_eq_cString (fun h => hnl ((mem_flatMap_emit (by decide)).1 h))
    (fun h => hcr ((mem_flatMap_emit (by decide)).1 h))]
  cases A with
  | nil => exact ⟨List.cons_ne_nil _ _ ∘ Eq.symm, rfl⟩
  | cons a A =>
    obtain ⟨m, b⟩ := a
    obtain rfl : m = true := hhead _ rfl
    simp only [List.flatMap_cons, List.map_cons, List.take_succ_cons, List.take_zero,
      List.singleton_append, List.tail_cons]
    by_cases hb : b = dot
    · -- the first dot of a line is always sent twice, and one of the two is taken off
      subst hb
      have hline : cString (emit (true, dot) ++ A.flatMap emit) =
          dot :: dot :: cString (A.flatMap emit) := rfl
      rw [hline]
      exact ⟨fun h => List.cons_ne_nil _ _ (List.cons.inj h).2, rfl⟩
    · have hone : emit (true, b) = [b] := if_neg fun h => hb h.2
      rw [hone, List.singleton_append]
      by_cases h0 : b = 0
      · -- a line that starts with a NUL reads as empty
        subst h0
        exact ⟨List.cons_ne_nil _ _ ∘ Eq.symm, rfl⟩
      · have hline : cString (b :: A.flatMap emit) = b :: cString (A.flatMap emit) :=
          List.takeWhile_cons_of_pos (decide_eq_true h0)
        rw [hline]
        refine ⟨fun h => hb (List.cons.inj h).1, if_neg fun h => hb ?_⟩
        exact (List.cons.inj h).1

/-- **A line comes through exactly if it has no NUL and no chunk of it but
the first starts with a dot.** -/
theorem unstuff_replyLine_eq_iff (hhead : ∀ a ∈ A.head?, a.1 = true)
    (hnl : newline ∉ A.map Prod.snd) (hcr : carriageReturn ∉ A.map Prod.snd) :
    unstuff (replyLine (A.flatMap emit)) = A.map Prod.snd ↔
      (0 : UInt8) ∉ A.map Prod.snd ∧ ∀ a ∈ A.tail, a ≠ (true, dot) := by
  rw [(unstuff_replyLine hhead hnl hcr).2, ← flatMap_emit_eq_iff]
  have hsplit : A.map Prod.snd = (A.map Prod.snd).take 1 ++ A.tail.map Prod.snd := by
    cases A with
    | nil => rfl
    | cons a A => rfl
  refine ⟨fun h => ?_, fun ⟨h0, h⟩ => ?_⟩
  · have h0 : (0 : UInt8) ∉ A.map Prod.snd := h ▸ zero_notMem_cString _
    have hfree : (0 : UInt8) ∉ (A.map Prod.snd).take 1 ++ A.tail.flatMap emit := by
      rw [List.mem_append, mem_flatMap_emit (by decide), ← List.mem_append, ← hsplit]
      exact h0
    rw [cString_eq_self hfree] at h
    exact ⟨h0, List.append_cancel_left (h.trans hsplit)⟩
  · rw [h, ← hsplit, cString_eq_self h0]

end OneLine

/-! ## The whole text -/

/-- Lines can be told apart by their newlines. -/
theorem append_newline_inj {u v y z : Bytes} (hu : newline ∉ u) (hv : newline ∉ v) :
    u ++ newline :: y = v ++ newline :: z ↔ u = v ∧ y = z := by
  refine ⟨fun h => ?_, fun ⟨h1, h2⟩ => by rw [h1, h2]⟩
  induction u generalizing v with
  | nil =>
    cases v with
    | nil => exact ⟨rfl, (List.cons.inj h).2⟩
    | cons b v => exact absurd (List.cons.inj h).1 (fun heq => hv (heq ▸ List.mem_cons_self))
  | cons a u ih =>
    cases v with
    | nil => exact absurd (List.cons.inj h).1.symm (fun heq => hu (heq ▸ List.mem_cons_self))
    | cons b v =>
      obtain ⟨rfl, h'⟩ := List.cons.inj h
      obtain ⟨rfl, rfl⟩ := ih (fun hm => hu (List.mem_cons_of_mem _ hm))
        (fun hm => hv (List.mem_cons_of_mem _ hm)) h'
      exact ⟨rfl, rfl⟩

theorem flatMap_line_inj {α : Type} {f g : α → Bytes} {As : List α}
    (hf : ∀ a ∈ As, newline ∉ f a) (hg : ∀ a ∈ As, newline ∉ g a) :
    As.flatMap (fun a => f a ++ [newline]) = As.flatMap (fun a => g a ++ [newline]) ↔
      ∀ a ∈ As, f a = g a := by
  induction As with
  | nil => exact ⟨fun _ a ha => (by cases ha), fun _ => rfl⟩
  | cons a As ih =>
    rw [List.flatMap_cons, List.flatMap_cons, List.append_assoc, List.append_assoc,
      List.singleton_append, List.singleton_append, List.forall_mem_cons,
      append_newline_inj (hf a List.mem_cons_self) (hg a List.mem_cons_self),
      ih (fun b hb => hf b (List.mem_cons_of_mem _ hb))
        (fun b hb => hg b (List.mem_cons_of_mem _ hb))]

theorem Limits.Holds.mono {L : Limits} {m n : ℕ} (h : L.Holds n) (hmn : m ≤ n) : L.Holds m := by
  obtain ⟨h1, h2, h3⟩ := h
  exact ⟨h1, by omega, by omega⟩

/-- A byte goes over the wire as two at most. -/
theorem length_flatMap_emit_le (A : List (Bool × UInt8)) :
    (A.flatMap emit).length ≤ 2 * A.length := by
  induction A with
  | nil => exact Nat.le_refl _
  | cons a A ih =>
    have : (emit a).length ≤ 2 := by
      unfold emit
      split_ifs
      · exact Nat.le_refl _
      · exact Nat.le_succ _
    rw [List.flatMap_cons, List.length_append, List.length_cons]
    omega

/-- The client, reading what the server sent for the calls `ps` and then
`rest`, recovers the text and stops at the line that ends it. -/
def Recovers {τ : Type} (L L' : Limits) (S : Sink τ) (log : τ → Bytes) (str : τ) (block : Bytes)
    (ps : List Put) (conn : DictConnection Bytes) (rest : Bytes) : Prop :=
  ∃ t, sendText L S str block ps = .ok t ∧
    ∃ conn', dictMultilineReply L' wire ((written ps).length + 1)
        { conn with dev := (log t).drop (log str).length ++ rest } = .ok (0, conn') ∧
      conn'.stk = conn.stk ++ written ps ++ [0] ∧ conn'.dev = rest

section WholeText

variable {τ : Type} {L L' : Limits} {S : Sink τ} {log : τ → Bytes}

/-- What the client makes of a text, line by line. -/
theorem dictMultilineReply_sendText (hS : S.Delivers log) (str : τ) {block : Bytes}
    (hblock : 0 < block.length) {ps : List Put} {As : List (List (Bool × UInt8) × Bool)}
    (hmarks : marks block.length 0 ps = joinLines As)
    (hAs : ∀ p ∈ As, newline ∉ p.1.map Prod.snd) (htext : EndsLine (written ps))
    (hcr : carriageReturn ∉ written ps) (hmem : L'.Holds (2 * (written ps).length + 2))
    {conn : DictConnection Bytes} (hst : Reading conn.str) (rest : Bytes) :
    ∃ t, sendText L S str block ps = .ok t ∧
      ∃ conn', dictMultilineReply L' wire ((written ps).length + 1)
          { conn with dev := (log t).drop (log str).length ++ rest } = .ok (0, conn') ∧
        conn'.dev = rest ∧ conn'.stk = conn.stk ++
          As.flatMap (fun p => unstuff (replyLine (p.1.flatMap emit)) ++ [newline]) ++ [0] := by
  obtain ⟨t, hsend, hlog⟩ := ostream_wire (L := L) hS str hblock htext
  have hwritten : written ps = (joinLines As).map Prod.snd := by rw [← hmarks, map_snd_marks]
  have hhead := lineMarked_joinLines hAs (hmarks ▸ lineMarked_marks block.length ps fun _ => rfl)
  -- a line has no carriage return, and fits in memory, because the text has none and does
  have hline : ∀ p ∈ As, carriageReturn ∉ p.1.map Prod.snd ∧ p.1.length ≤ (written ps).length := by
    intro p hp
    have hsub : List.Sublist (p.1 ++ [(p.2, newline)]) (joinLines As) :=
      List.sublist_flatten_of_mem (List.mem_map_of_mem hp)
    have hsub' : List.Sublist (p.1.map Prod.snd) (written ps) := by
      rw [hwritten]
      exact ((List.sublist_append_left _ _).trans hsub).map _
    refine ⟨fun h => hcr (hsub'.subset h), ?_⟩
    simpa only [List.length_map] using hsub'.length_le
  have hcount : (As.map fun p => p.1.flatMap emit).length < (written ps).length + 1 := by
    have := length_le_joinLines As
    rw [List.length_map, hwritten, List.length_map]
    omega
  have hwire : (log t).drop (log str).length ++ rest =
      (As.map fun p => p.1.flatMap emit).flatMap (· ++ [newline]) ++ dot :: newline :: rest := by
    have hemit : (joinLines As).flatMap emit =
        (As.map fun p => p.1.flatMap emit).flatMap (· ++ [newline]) := by
      rw [joinLines, List.flatMap_assoc, List.flatMap_map]
      refine congrArg (List.flatMap · As) (funext fun p => ?_)
      have hnl : emit (p.2, newline) = [newline] := if_neg fun h =>
        absurd h.2 (show newline ≠ dot by decide)
      rw [List.flatMap_append, List.flatMap_singleton, hnl]
    rw [hlog, hmarks, hemit, List.append_assoc, List.drop_left, List.append_assoc]
    rfl
  obtain ⟨conn', hrun, hdev, hstk⟩ := dictMultilineReply_wire (L := L')
    { conn with dev := (log t).drop (log str).length ++ rest } hst
    (As.map fun p => p.1.flatMap emit) (by
      intro l hl
      obtain ⟨p, hp, rfl⟩ := List.mem_map.1 hl
      refine ⟨fun h => hAs p hp ((mem_flatMap_emit (by decide)).1 h),
        (unstuff_replyLine (hhead p hp) (hAs p hp) (hline p hp).1).1, hmem.mono ?_⟩
      have := length_flatMap_emit_le p.1
      have := (hline p hp).2
      omega) (hmem.mono (by omega)) hwire hcount
  rw [List.flatMap_map] at hstk
  exact ⟨t, hsend, conn', hrun, hdev, hstk⟩

/-- **The client recovers a text exactly if it has no NUL and no dot inside
a line was put at the front of an empty buffer.** The text is made of
lines without carriage returns, written in any pieces with flushes
anywhere between them; the client has memory for its lines. -/
theorem multilineReply_recovers_iff (hS : S.Delivers log) (str : τ) {block : Bytes}
    (hblock : block.length = 1024) {ps : List Put} (htext : EndsLine (written ps))
    (hcr : carriageReturn ∉ written ps) (hmem : L'.Holds (2 * (written ps).length + 2))
    {conn : DictConnection Bytes} (hst : Reading conn.str) (rest : Bytes) :
    Recovers L L' S log str block ps conn rest ↔ 0 ∉ written ps ∧ Unbroken 1024 ps := by
  have hsnd := map_snd_marks block.length 0 ps
  obtain ⟨As, hmarks, hAs⟩ := exists_joinLines (M := marks block.length 0 ps) (hsnd ▸ htext)
  obtain ⟨t, hsend, conn', hrun, hdev, hstk⟩ := dictMultilineReply_sendText (L := L) hS str
    (by omega) hmarks hAs htext hcr hmem hst rest
  have hhead := lineMarked_joinLines hAs (hmarks ▸ lineMarked_marks block.length ps fun _ => rfl)
  have hlines : written ps = As.flatMap fun p => p.1.map Prod.snd ++ [newline] := by
    rw [← hsnd, hmarks, map_snd_joinLines]
  have hcrp : ∀ p ∈ As, carriageReturn ∉ p.1.map Prod.snd := by
    intro p hp h
    rw [hlines] at hcr
    exact hcr (List.mem_flatMap.2 ⟨p, hp, List.mem_append_left _ h⟩)
  have hclean : ∀ p ∈ As, newline ∉ unstuff (replyLine (p.1.flatMap emit)) := by
    intro p hp h
    rw [(unstuff_replyLine (hhead p hp) (hAs p hp) (hcrp p hp)).2] at h
    rcases List.mem_append.1 ((List.takeWhile_sublist _).subset h) with h | h
    · exact hAs p hp (List.mem_of_mem_take h)
    · obtain ⟨a, ha, hb⟩ := List.mem_map.1 ((mem_flatMap_emit (by decide)).1 h)
      exact hAs p hp (List.mem_map.2 ⟨a, List.mem_of_mem_tail ha, hb⟩)
  -- the client has the text exactly if it has each line of it: newlines tell the lines apart
  have hrec : Recovers L L' S log str block ps conn rest ↔
      ∀ p ∈ As, unstuff (replyLine (p.1.flatMap emit)) = p.1.map Prod.snd := by
    rw [← flatMap_line_inj hclean hAs, ← hlines]
    constructor
    · rintro ⟨t', hsend', conn'', hrun', hstk', -⟩
      obtain rfl := Except.ok.inj (hsend.symm.trans hsend')
      obtain rfl := (Prod.mk.inj (Except.ok.inj (hrun.symm.trans hrun'))).2
      exact List.append_cancel_left (List.append_cancel_right (hstk.symm.trans hstk'))
    · intro h
      exact ⟨t, hsend, conn', hrun, by rw [hstk, h], hdev⟩
  have hnul : (0 : UInt8) ∉ written ps ↔ ∀ p ∈ As, (0 : UInt8) ∉ p.1.map Prod.snd := by
    rw [hlines, List.mem_flatMap, not_exists]
    refine forall_congr' fun p => ?_
    rw [not_and, List.mem_append, not_or]
    exact imp_congr_right fun _ => and_iff_left (by decide)
  rw [hrec, hnul, Unbroken, ← hblock, hmarks, unbrokenMarks_joinLines hAs, ← forall₂_and]
  exact forall₂_congr fun p hp => unstuff_replyLine_eq_iff (hhead p hp) (hAs p hp) (hcrp p hp)

end WholeText

/-- A connection just made. -/
def connected : DictConnection Bytes := ⟨create true false false, [], [], 0, []⟩

/-- Lines that start with a dot come through, also where a flush stands
between two lines. -/
theorem multilineReply_recovers_dots :
    Recovers ample ample tape id [] (List.replicate 1024 0)
      [.write [46, 97, 46], .write [10], .flush, .write [46, 46, 98, 10, 46, 10]] connected
      [50, 53, 48] :=
  (multilineReply_recovers_iff tape_delivers [] List.length_replicate (by decide) (by decide)
    (by decide) ⟨rfl, rfl, rfl, rfl⟩ _).2 (by decide)

/-- **A dot behind a flush inside a line is read twice**: for `a`, a flush
and `.b` the client gets `a..b`. -/
theorem multilineReply_broken_line :
    ¬ Recovers ample ample tape id [] (List.replicate 1024 0)
      [.write [97], .flush, .write [46, 98, 10]] connected [] := by
  rintro ⟨t, hsend, conn', hrun, hstk, -⟩
  have hblock : 0 < (List.replicate 1024 (0 : UInt8)).length := by
    rw [List.length_replicate]
    decide
  have hmarks : marks (List.replicate 1024 (0 : UInt8)).length 0
      [.write [97], .flush, .write [46, 98, 10]] =
        joinLines [([(true, 97), (true, 46), (false, 98)], false)] := by
    rw [List.length_replicate]
    decide
  have hst : Reading connected.str := ⟨rfl, rfl, rfl, rfl⟩
  obtain ⟨t', hsend', conn'', hrun', -, hstk'⟩ := dictMultilineReply_sendText (L := ample)
    tape_delivers [] hblock hmarks (by decide) (by decide) (by decide)
    (show ample.Holds 10 by decide) hst []
  obtain rfl := Except.ok.inj (hsend.symm.trans hsend')
  obtain rfl := (Prod.mk.inj (Except.ok.inj (hrun.symm.trans hrun'))).2
  exact absurd (hstk.symm.trans hstk') (by decide)

end Dico
