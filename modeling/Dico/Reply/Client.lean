import Dico.Reply.Ostream
import Dico.Stream.Lines
import Mathlib.Data.List.DropRight
/-!
# The client reads a multi-line reply

`dict_read_reply` and `dict_multiline_reply` of `dico/connect.c`, on an
unbuffered connection. A line is read up to its newline, taken for a C
string and trimmed; a line that starts with two dots loses one; the line
`.` ends the reply. `dictMultilineReply_wire` gives the result for every
list of lines on the wire.
-/

namespace Dico

open DicoStream

/-- The carriage return byte. -/
def carriageReturn : UInt8 := 13

/-- The C string at the start of a buffer that ends in a NUL. -/
def cString (b : Bytes) : Bytes := b.takeWhile (· ≠ 0)

/-- `dico_trim_nl`, as the string it leaves. -/
def trimNl (s : Bytes) : Bytes := s.rdropWhile fun c => c = carriageReturn ∨ c = newline

/-- `struct dict_connection`: its stream and transport, the line buffer and
its size, and the obstack. -/
structure DictConnection (σ : Type) where
  str : DicoStream
  dev : σ
  buf : Bytes
  size : ℕ
  stk : Bytes

section Model

variable {σ : Type} (L : Limits) (T : Transport σ)

/-- `dict_read_reply`. -/
def dictReadReply (conn : DictConnection σ) : Except Fault (ℕ × DictConnection σ) := do
  let (rc, line, size, st, x) ← getline L T conn.str conn.dev conn.size
  let buf := if rc = 0 then trimNl (cString line) else cString line
  .ok (rc, { conn with str := st, dev := x, buf := buf, size := size })

/-- A line without the dot it was stuffed with. -/
def unstuff (b : Bytes) : Bytes := if b.take 2 = [dot, dot] then b.drop 1 else b

/-- `dict_multiline_reply`, with the number of lines it may read. -/
def dictMultilineReply : ℕ → DictConnection σ → Except Fault (ℕ × DictConnection σ)
  | 0, _ => .error .loop
  | fuel + 1, conn => do
    let (rc, conn) ← dictReadReply L T conn
    if rc ≠ 0 ∨ conn.buf = [dot] then .ok (rc, { conn with stk := conn.stk ++ [0] })
    else dictMultilineReply fuel { conn with stk := conn.stk ++ unstuff conn.buf ++ [newline] }

end Model

/-- A transport that hands out the bytes on the wire. -/
def wire : Transport Bytes where
  read := some fun x n => (.ok (x.take n), x.drop n)
  write := none
  flush := none
  seek := none

/-- An unbuffered stream that is read from. -/
structure Reading (st : DicoStream) : Prop where
  buftype : st.buftype = .none
  canRead : st.canRead = true
  err : st.err = false
  eof : st.eof = false

/-- The process has memory for a line of `n` bytes. -/
def Limits.Holds (L : Limits) (n : ℕ) : Prop := 120 ≤ L.mem ∧ 2 * n + 1 ≤ L.mem ∧ n < neededMax

instance (L : Limits) (n : ℕ) : Decidable (L.Holds n) :=
  inferInstanceAs (Decidable (_ ∧ _ ∧ _))

/-- What the client holds of a line that was written: all up to the first
newline, trimmed. -/
def lineHeld (line : Bytes) : Bytes := trimNl (line.takeWhile (· ≠ newline))

/-- Trimming stops at a byte that is not trimmed. -/
theorem trimNl_append {a u : Bytes} {c : UInt8} (hc : ¬ (c = carriageReturn ∨ c = newline)) :
    trimNl (a ++ c :: u) = a ++ c :: trimNl u := by
  induction u using List.reverseRecOn with
  | nil => exact List.rdropWhile_concat_neg _ _ _ (by rw [decide_eq_true_iff]; exact hc)
  | append_singleton u x ih =>
    have hassoc : a ++ c :: (u ++ [x]) = (a ++ c :: u) ++ [x] := by
      rw [List.append_assoc, List.cons_append]
    rw [hassoc, trimNl, trimNl, List.rdropWhile_concat, List.rdropWhile_concat]
    split_ifs
    · exact ih
    · rw [← hassoc]

/-- A trimmed text is a beginning of the text. -/
theorem trimNl_isPrefix (u : Bytes) : trimNl u <+: u := List.rdropWhile_prefix _ _

/-- What is held of a line up to its newline. -/
theorem lineHeld_append {a u x : Bytes} {c : UInt8} (ha : newline ∉ a)
    (hc : ¬ (c = carriageReturn ∨ c = newline)) (hu : newline ∉ u) :
    lineHeld (a ++ c :: (u ++ newline :: x)) = a ++ c :: trimNl u := by
  have htake : (a ++ c :: (u ++ newline :: x)).takeWhile (· ≠ newline) = a ++ c :: u := by
    have hall : ∀ b ∈ a ++ c :: u, decide (b ≠ newline) = true := by
      intro b hb
      refine decide_eq_true fun hn => ?_
      subst hn
      rcases List.mem_append.1 hb with hb | hb
      · exact ha hb
      · rcases List.mem_cons.1 hb with hb | hb
        · exact hc (.inr hb.symm)
        · exact hu hb
    have hsplit : a ++ c :: (u ++ newline :: x) = (a ++ c :: u) ++ newline :: x := by
      rw [List.append_assoc, List.cons_append]
    rw [hsplit, List.takeWhile_append_of_pos hall, List.takeWhile_cons_of_neg (by decide),
      List.append_nil]
  rw [lineHeld, htake, trimNl_append hc]

section Wire

variable {L : Limits} {st : DicoStream} {l rest : Bytes}

/-- Reading one byte off the wire. -/
theorem read_wire (hst : Reading st) (b : UInt8) (rest : Bytes) :
    ∃ st', read wire st (b :: rest) 1 false = .ok ⟨0, [b], none, st', rest⟩ ∧ Reading st' := by
  have hloop : readLoop (fun x n => (.ok (x.take n), x.drop n)) 1 1 [] (b :: rest) =
      .ok (0, [b], false, rest) := rfl
  refine ⟨seterror { st with eof := st.eof || false, bytesIn := st.bytesIn + 1 } 0 false, ?_,
    ⟨hst.buftype, hst.canRead, ?_, ?_⟩⟩
  · unfold DicoStream.read
    rw [if_pos hst.buftype, readUnbuffered]
    simp only [wire, hst.canRead, hst.err, hst.eof, Bool.not_true, Bool.false_eq_true, if_false,
      Bool.or_self, Nat.reduceBEq, hloop, ok_bind, List.length_singleton,
      Nat.lt_irrefl, bne_self_eq_false]
  · exact Bool.or_eq_false_iff.2 ⟨hst.err, rfl⟩
  · exact Bool.or_eq_false_iff.2 ⟨hst.eof, rfl⟩

/-- The next line on the wire. -/
theorem nextLine_wire (hst : Reading st) (hl : newline ∉ l) :
    ∃ st', NextLine wire st (l ++ newline :: rest) (l ++ [newline]) 0 st' rest ∧ Reading st' := by
  induction l generalizing st with
  | nil =>
    obtain ⟨st', hread, hst'⟩ := read_wire hst newline rest
    exact ⟨st', .ends hread rfl rfl, hst'⟩
  | cons b l ih =>
    rw [List.mem_cons, not_or] at hl
    obtain ⟨st₁, hread, hst₁⟩ := read_wire hst b (l ++ newline :: rest)
    obtain ⟨st', hnext, hst'⟩ := ih hst₁ hl.2
    exact ⟨st', .more hread rfl (Ne.symm hl.1) hnext, hst'⟩

/-- **A line read off the wire.** -/
theorem getline_wire (hst : Reading st) (hl : newline ∉ l) (hmem : L.Holds (l.length + 1))
    (size : ℕ) :
    ∃ size' st', getline L wire st (l ++ newline :: rest) size =
        .ok (0, l ++ [newline], size', st', rest) ∧ Reading st' := by
  obtain ⟨hfirst, hroom, hmax⟩ := hmem
  obtain ⟨st', hnext, hst'⟩ := nextLine_wire hst hl
  have hlen : (l ++ [newline]).length = l.length + 1 := List.length_append
  obtain ⟨size', hget, -⟩ := getline_of_nextLine (L := L) (n := size) hnext hfirst
    (by rw [hlen]; exact hroom) (by rw [hlen]; omega)
  exact ⟨size', st', hget, hst'⟩

/-- What the client takes a line on the wire for. -/
def replyLine (l : Bytes) : Bytes := trimNl (cString (l ++ [newline]))

theorem dictReadReply_wire {conn : DictConnection Bytes} (hst : Reading conn.str)
    (hl : newline ∉ l) (hmem : L.Holds (l.length + 1)) (hdev : conn.dev = l ++ newline :: rest) :
    ∃ conn', dictReadReply L wire conn = .ok (0, conn') ∧ Reading conn'.str ∧
      conn'.buf = replyLine l ∧ conn'.dev = rest ∧ conn'.stk = conn.stk := by
  obtain ⟨size', st', hrun, hst'⟩ : ∃ size' st',
      getline L wire conn.str (l ++ newline :: rest) conn.size =
        .ok (0, l ++ [newline], size', st', rest) ∧ Reading st' :=
    getline_wire hst hl hmem conn.size
  refine ⟨⟨st', rest, replyLine l, size', conn.stk⟩, ?_, hst', rfl, rfl, rfl⟩
  rw [dictReadReply, hdev, hrun]
  rfl

/-- **A multi-line reply read off the wire**: every line up to the first
that reads as `.`, which is taken off the wire too. -/
theorem dictMultilineReply_wire (conn : DictConnection Bytes) (hst : Reading conn.str)
    (ls : List Bytes) (hls : ∀ l ∈ ls, newline ∉ l ∧ replyLine l ≠ [dot] ∧ L.Holds (l.length + 1))
    (hend : L.Holds 2) (hdev : conn.dev = ls.flatMap (· ++ [newline]) ++ dot :: newline :: rest)
    {fuel : ℕ} (hfuel : ls.length < fuel) :
    ∃ conn', dictMultilineReply L wire fuel conn = .ok (0, conn') ∧ conn'.dev = rest ∧
      conn'.stk = conn.stk ++ ls.flatMap (fun l => unstuff (replyLine l) ++ [newline]) ++ [0] := by
  induction ls generalizing conn fuel with
  | nil =>
    obtain ⟨k, rfl⟩ : ∃ k, fuel = k + 1 := Nat.exists_eq_succ_of_ne_zero (Nat.ne_of_gt hfuel)
    obtain ⟨conn', hread, -, hbuf, hdev', hstk⟩ :=
      dictReadReply_wire (l := [dot]) hst (by decide) hend hdev
    refine ⟨{ conn' with stk := conn'.stk ++ [0] }, ?_, hdev', ?_⟩
    · have hdot : conn'.buf = [dot] := hbuf.trans (by decide)
      simp only [dictMultilineReply, hread, ok_bind, hdot, or_true, if_true]
    · rw [hstk]
      simp only [List.flatMap_nil, List.append_nil]
  | cons l ls ih =>
    obtain ⟨k, rfl⟩ : ∃ k, fuel = k + 1 := Nat.exists_eq_succ_of_ne_zero (by omega)
    rw [List.length_cons] at hfuel
    obtain ⟨hnl, hne, hmem⟩ := hls l List.mem_cons_self
    rw [List.flatMap_cons, List.append_assoc, List.append_assoc, List.singleton_append] at hdev
    obtain ⟨conn₁, hread, hst₁, hbuf, hdev₁, hstk⟩ := dictReadReply_wire hst hnl hmem hdev
    obtain ⟨conn', hrun, hdev', hstk'⟩ :=
      ih { conn₁ with stk := conn₁.stk ++ unstuff conn₁.buf ++ [newline] } hst₁
        (fun m hm => hls m (List.mem_cons_of_mem _ hm)) hdev₁ (show ls.length < k by omega)
    refine ⟨conn', ?_, hdev', ?_⟩
    · have hcond : ¬ ((0 : ℕ) ≠ 0 ∨ conn₁.buf = [dot]) := by
        rw [hbuf]
        exact fun h => h.elim (fun h => h rfl) hne
      simp only [dictMultilineReply, hread, ok_bind, if_neg hcond, hrun]
    · rw [hstk', hstk, hbuf, List.flatMap_cons]
      simp only [List.append_assoc]

end Wire

end Dico
