import Dico.Common.Run
import Dico.Text.Strings
/-!
# Strings in memory

The string functions of the C library that the clients use, on a block of
memory and offsets into it. A string is there only where a null byte
follows within the block, so that a scan that runs off the block has no
result. `strtok` writes into the block it scans.
-/

namespace Dico

/-- A string that its null ends. -/
structure CText where
  bytes : Bytes
  null_notMem : 0 ∉ bytes

/-- The string at an offset. -/
def strAt (m : Bytes) (p : ℕ) : Except Fault Bytes :=
  if 0 ∈ m.drop p then .ok ((m.drop p).takeWhile (· ≠ 0)) else .error .bounds

/-- `strspn`, on a string. -/
def strspn (accept s : Bytes) : ℕ := (s.takeWhile (· ∈ accept)).length

/-- `strcspn`, on a string. -/
def strcspn (reject s : Bytes) : ℕ := (s.takeWhile (· ∉ reject)).length

/-- `strchr`, on a string. -/
def strchr (c : UInt8) (s : Bytes) : Option ℕ := if c ∈ s then some (strcspn [c] s) else none

/-- `m[p]`. -/
def load (m : Bytes) (p : ℕ) : Except Fault UInt8 :=
  match m[p]? with
  | none => .error .bounds
  | some c => .ok c

/-- `m[p] = c`. -/
def store (m : Bytes) (p : ℕ) (c : UInt8) : Except Fault Bytes :=
  if p < m.length then .ok (m.set p c) else .error .bounds

/-- `memcpy` into a block, from an offset on. -/
def memcpyTo (dst : Bytes) (p : ℕ) (src : Bytes) : Except Fault Bytes :=
  match Memory.poke dst p src with
  | none => .error .bounds
  | some dst => .ok dst

/-- `memcmp (a, b, n) == 0`, on what is left of two blocks. -/
def memeq (a b : Bytes) (n : ℕ) : Except Fault Bool :=
  if n ≤ a.length ∧ n ≤ b.length then .ok (a.take n == b.take n) else .error .bounds

/-- `isspace`, in the C locale. -/
def isSpace (c : UInt8) : Prop := c = 32 ∨ 9 ≤ c ∧ c ≤ 13

instance : DecidablePred isSpace := fun c => inferInstanceAs (Decidable (c = 32 ∨ _))

/-- `strtok`, from where the last call left off: the token, the block
after the call, and where the next call goes on. -/
def strtok (delim m : Bytes) (p : ℕ) : Except Fault (Option ℕ × Bytes × ℕ) := do
  let s ← strAt m p
  let p := p + strspn delim s
  let s := s.drop (strspn delim s)
  if s = [] then .ok (none, m, p)
  else
    let stop := p + strcspn delim s
    if strcspn delim s = s.length then .ok (some p, m, stop)
    else
      let m ← store m stop 0
      .ok (some p, m, stop + 1)

section Lemmas

variable {s t pre : Bytes} {c : UInt8}

/-- The string that begins behind some bytes. -/
theorem strAt_append (pre : Bytes) (hs : 0 ∉ s) (t : Bytes) :
    strAt (pre ++ (s ++ 0 :: t)) pre.length = .ok s := by
  have hmem : 0 ∈ s ++ 0 :: t := List.mem_append_right _ List.mem_cons_self
  rw [strAt, List.drop_left, if_pos hmem, takeWhile_ne_zero hs]

/-- Reading the byte behind some bytes. -/
theorem load_append (pre : Bytes) (b : UInt8) (t : Bytes) :
    load (pre ++ b :: t) pre.length = .ok b := by
  rw [load, getElem?_place]

/-- Writing the byte behind some bytes. -/
theorem store_append (pre : Bytes) (b : UInt8) (t : Bytes) :
    store (pre ++ b :: t) pre.length c = .ok (pre ++ c :: t) := by
  have hlt : pre.length < (pre ++ b :: t).length := by
    rw [List.length_append, List.length_cons]
    omega
  rw [store, if_pos hlt, set_place]

/-- A copy over as many bytes. -/
theorem memcpyTo_append (a b c : Bytes) {src : Bytes} (h : b.length = src.length) :
    memcpyTo (a ++ (b ++ c)) a.length src = .ok (a ++ (src ++ c)) := by
  have hle : a.length + src.length ≤ (a ++ (b ++ c)).length := by
    simp only [List.length_append]
    omega
  have htake : (a ++ (b ++ c)).take a.length = a := List.take_left
  have hdrop : (a ++ (b ++ c)).drop (a.length + src.length) = c := by
    rw [← List.drop_drop, List.drop_left, ← h, List.drop_left]
  rw [memcpyTo, Memory.poke_eq_some hle, htake, hdrop, List.append_assoc]

/-- A span ends at the first byte that is not accepted. -/
theorem strspn_cons {accept : Bytes} (hc : c ∉ accept) : strspn accept (c :: t) = 0 := by
  rw [strspn, List.takeWhile_cons_of_neg (by rwa [decide_eq_true_iff]), List.length_nil]

/-- A complement span goes over what is not rejected. -/
theorem strcspn_append {reject : Bytes} (hs : ∀ b ∈ s, b ∉ reject) (hc : c ∈ reject) :
    strcspn reject (s ++ c :: t) = s.length := by
  have hall : ∀ b ∈ s, decide (b ∉ reject) = true := fun b hb => decide_eq_true (hs b hb)
  rw [strcspn, List.takeWhile_append_of_pos hall,
    List.takeWhile_cons_of_neg (by rw [decide_eq_true_iff, not_not]; exact hc), List.append_nil]

/-- The first of some bytes. -/
theorem strchr_append (hs : c ∉ s) : strchr c (s ++ c :: t) = some s.length := by
  have hmem : c ∈ s ++ c :: t := List.mem_append_right _ List.mem_cons_self
  have hspan : strcspn [c] (s ++ c :: t) = s.length :=
    strcspn_append (fun b hb hbc => hs (List.mem_singleton.1 hbc ▸ hb)) List.mem_cons_self
  rw [strchr, if_pos hmem, hspan]

/-- A token that ends in one of the delimiters. -/
theorem strtok_append {delim : Bytes} {a : UInt8} (pre : Bytes) (hs : ∀ b ∈ a :: s, b ∉ delim)
    (hnull : 0 ∉ a :: s) (hc : c ∈ delim) (hc₀ : c ≠ 0) (ht : 0 ∈ t) :
    strtok delim (pre ++ (a :: s ++ c :: t)) pre.length =
      .ok (some pre.length, pre ++ (a :: s ++ 0 :: t), (pre ++ (a :: s ++ [0])).length) := by
  obtain ⟨u, v, rfl, hu⟩ := List.eq_append_cons_of_mem ht
  have hstr : strAt (pre ++ (a :: s ++ c :: (u ++ 0 :: v))) pre.length =
      .ok (a :: s ++ c :: u) := by
    have hnull' : 0 ∉ a :: s ++ c :: u := by
      intro h
      rcases List.mem_append.1 h with h | h
      · exact hnull h
      · exact hu ((List.mem_cons.1 h).resolve_left hc₀.symm)
    have happ := strAt_append pre hnull' v
    rwa [List.append_assoc, List.cons_append] at happ
  have hspan : strspn delim (a :: s ++ c :: u) = 0 := strspn_cons (hs a List.mem_cons_self)
  have hcspan : strcspn delim (a :: s ++ c :: u) = (a :: s).length := strcspn_append hs hc
  have hne : (a :: s).length ≠ (a :: s).length + (c :: u).length := by
    rw [List.length_cons (a := c)]
    omega
  have hstore : store (pre ++ (a :: s ++ c :: (u ++ 0 :: v))) (pre.length + (a :: s).length) 0 =
      .ok (pre ++ (a :: s ++ 0 :: (u ++ 0 :: v))) := by
    rw [← List.append_assoc, ← List.length_append, store_append, List.append_assoc]
  rw [strtok, hstr, ok_bind]
  simp only [hspan, Nat.add_zero, List.drop_zero, hcspan, List.length_append, if_neg hne,
    if_neg (List.append_ne_nil_of_left_ne_nil (List.cons_ne_nil a s) _), hstore, ok_bind,
    List.length_singleton, Nat.add_assoc]

/-- Where nothing is left there is no token. -/
theorem strtok_end (delim pre t : Bytes) :
    strtok delim (pre ++ 0 :: t) pre.length = .ok (none, pre ++ 0 :: t, pre.length) := by
  have hstr : strAt (pre ++ ([] ++ 0 :: t)) pre.length = .ok [] :=
    strAt_append pre List.not_mem_nil t
  rw [strtok, ← List.nil_append (0 :: t), hstr, ok_bind]
  rfl

end Lemmas

end Dico
