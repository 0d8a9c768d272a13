import Dico.Stream.Bounds
/-!
# Reading a line

`lib/stream.c` has two line readers, `dico_stream_readln` for a block of
fixed size and `dico_stream_getline` for one that grows. Both are loops
over reads of one byte, so they are compared through the line those
reads deliver: `NextLine`. `getline` gives it back whole where memory
and `SSIZE_MAX` allow (`getline_of_nextLine`); `readln` does not count
the newline, and where the line ends in a failed read it has to make
that read to tell. `sameLine_iff` says when the two agree.
-/

namespace Dico

/-- Limits with so much memory. -/
def Limits.withMem (M : ℕ) : Limits := ⟨1, M, Nat.one_pos⟩

namespace DicoStream

variable {σ : Type} {L : Limits} {T : Transport σ} {st st' st₁ : DicoStream} {x x' x₁ : σ}
variable {rc n n' fuel left size : ℕ} {line acc l : Bytes}

/-- The loop of `dico_stream_readln`, with room for `left` more bytes: its
value, the bytes stored and their count. -/
def readlnLoop (T : Transport σ) :
    ℕ → ℕ → Bytes → ℕ → DicoStream → σ → Except Fault (ℕ × Bytes × ℕ × DicoStream × σ)
  | 0, rc, acc, n, st, x => .ok (rc, acc, n, st, x)
  | left + 1, _, acc, n, st, x => do
    let r ← read T st x 1 false
    if r.rc ≠ 0 then .ok (r.rc, acc, n, r.st, r.dev)
    else
      let c := charRead r
      -- `break` leaves the loop before its `n++`
      if c = newline then .ok (0, acc ++ [c], n, r.st, r.dev)
      else readlnLoop T left 0 (acc ++ [c]) (n + 1) r.st r.dev

/-- `dico_stream_readln`: its value, the line, and the count it stored, if
it did. The local `rc` is not initialised; `rc₀` is what it holds. -/
def readln (T : Transport σ) (rc₀ : ℕ) (st : DicoStream) (x : σ) (size : ℕ) :
    Except Fault (ℕ × Bytes × Option ℕ × DicoStream × σ) :=
  if size = 0 then .ok ( EIO.val, [], none, st, x)
  else do
    let (rc, line, n, st, x) ← readlnLoop T (size - 1) rc₀ [] 0 st x
    .ok (rc, line, some n, st, x)

/-- The next line of a stream: what reads of one byte deliver up to a
newline, or up to the first that fails, and the value of the last. -/
inductive NextLine (T : Transport σ) : DicoStream → σ → Bytes → ℕ → DicoStream → σ → Prop
  | ends {st : DicoStream} {x : σ} {r : ReadResult σ} (hread : read T st x 1 false = .ok r)
      (hrc : r.rc = 0) (hc : charRead r = newline) : NextLine T st x [newline] 0 r.st r.dev
  | fails {st : DicoStream} {x : σ} {r : ReadResult σ} (hread : read T st x 1 false = .ok r)
      (hrc : r.rc ≠ 0) : NextLine T st x [] r.rc r.st r.dev
  | more {st st' : DicoStream} {x x' : σ} {r : ReadResult σ} {line : Bytes} {rc : ℕ}
      (hread : read T st x 1 false = .ok r) (hrc : r.rc = 0) (hc : charRead r ≠ newline)
      (hnext : NextLine T r.st r.dev line rc st' x') :
      NextLine T st x (charRead r :: line) rc st' x'

/-! ## The line reader with a block of its own -/

/-- One round of the loop of `dico_stream_getdelim` that read a byte: the
line block has room for it, or is grown, or cannot be. -/
theorem getdelimLoop_round {r : ReadResult σ} (L : Limits) (fuel : ℕ)
    (hread : read T st x 1 false = .ok r) (hrc : r.rc = 0) (hacc : acc.length < n) :
    (∃ rc, rc ≠ 0 ∧ getdelimLoop L T newline (fuel + 1) n acc st x =
        .ok (rc, acc, n, r.st, r.dev) ∧
      (max n neededMax ≤ acc.length + 1 ∨ L.mem < 2 * acc.length + 3)) ∨
    ∃ m, acc.length + 1 < m ∧ max m neededMax = max n neededMax ∧
      getdelimLoop L T newline (fuel + 1) n acc st x =
        if charRead r = newline then .ok (0, acc ++ [charRead r], m, r.st, r.dev)
        else getdelimLoop L T newline fuel m (acc ++ [charRead r]) r.st r.dev := by
  rw [getdelimLoop, hread, ok_bind, if_neg (not_not.2 hrc)]
  simp only
  by_cases hroom : acc.length + 1 < n
  · have hfit : ¬ n ≤ acc.length + 1 := Nat.not_le.2 hroom
    simp only [hfit, false_and, if_false]
    exact .inr ⟨n, hroom, rfl, rfl⟩
  have hfull : n ≤ acc.length + 1 := Nat.not_lt.1 hroom
  simp only [hfull, true_and, if_true]
  by_cases hover : min neededMax (2 * n + 1) ≤ acc.length + 1
  · refine .inl ⟨EOVERFLOW.val, EOVERFLOW.property, if_pos hover, .inl ?_⟩
    omega
  rw [if_neg hover]
  by_cases hmem : L.mem < min neededMax (2 * n + 1)
  · refine .inl ⟨ENOMEM.val, ENOMEM.property, if_pos hmem, .inr ?_⟩
    omega
  rw [if_neg hmem]
  exact .inr ⟨min neededMax (2 * n + 1), by omega, by omega, rfl⟩

/-- With memory for twice the line, the loop gives the next line back. -/
theorem getdelimLoop_of_nextLine (h : NextLine T st x line rc st' x') (hfuel : line.length < fuel)
    (hacc : acc.length < n) (hmem : 2 * (acc.length + line.length) + 1 ≤ L.mem)
    (hmax : acc.length + line.length < max n neededMax) :
    ∃ n', getdelimLoop L T newline fuel n acc st x = .ok (rc, acc ++ line, n', st', x') ∧
      max n' neededMax = max n neededMax := by
  induction h generalizing fuel n acc with
  | @ends st x r hread hrc hc =>
    obtain ⟨fuel, rfl⟩ : ∃ k, fuel = k + 1 := ⟨fuel - 1, by omega⟩
    rw [List.length_singleton] at hmem hmax
    rcases getdelimLoop_round L fuel hread hrc hacc with
      ⟨rc, -, -, hfull⟩ | ⟨m, -, hm, hrun⟩
    · omega
    · rw [hrun, if_pos hc, hc]
      exact ⟨m, rfl, hm⟩
  | @fails st x r hread hrc =>
    obtain ⟨fuel, rfl⟩ : ∃ k, fuel = k + 1 := ⟨fuel - 1, by omega⟩
    rw [getdelimLoop, hread, ok_bind, if_pos hrc, List.append_nil]
    exact ⟨n, rfl, rfl⟩
  | @more st st' x x' r line rc hread hrc hc _ ih =>
    obtain ⟨fuel, rfl⟩ : ∃ k, fuel = k + 1 := ⟨fuel - 1, by omega⟩
    rw [List.length_cons] at hfuel hmem hmax
    rcases getdelimLoop_round L fuel hread hrc hacc with
      ⟨rc, -, -, hfull⟩ | ⟨m, hroom, hm, hrun⟩
    · omega
    have hlen : (acc ++ [charRead r]).length = acc.length + 1 := List.length_append
    obtain ⟨n', hloop, hn'⟩ := @ih m fuel (acc ++ [charRead r]) (by omega) (by omega) (by omega)
      (by omega)
    refine ⟨n', ?_, hn'.trans hm⟩
    rw [hrun, if_neg hc, hloop, List.append_assoc, List.singleton_append]

/-- **`dico_stream_getline` delivers the next line**, where there is memory
for twice its length and it stays below the largest block. -/
theorem getline_of_nextLine (h : NextLine T st x line rc st' x')
    (hfirst : 120 ≤ L.mem) (hmem : 2 * line.length + 1 ≤ L.mem)
    (hmax : line.length < max n neededMax) :
    ∃ n', getline L T st x n = .ok (rc, line, n', st', x') ∧
      max n' neededMax = max n neededMax := by
  have hacc : ([] : Bytes).length = 0 := rfl
  unfold getline getdelim
  by_cases hn : n = 0
  · have h120 : max 120 neededMax = max n neededMax := by
      rw [hn]
      decide
    rw [if_pos hn, if_neg (by omega), ← h120]
    exact getdelimLoop_of_nextLine h (by omega) (by decide) (by omega) (by omega)
  · rw [if_neg hn]
    exact getdelimLoop_of_nextLine h (by omega) (by omega) (by omega) (by omega)

/-- What the loop delivers with success is a line with its newline, and
with success or without it fits the largest block. -/
theorem getdelimLoop_line (h : getdelimLoop L T newline fuel n acc st x = .ok (rc, l, n', st', x'))
    (hacc : acc.length < n) (hnew : newline ∉ acc) :
    l.length < max n neededMax ∧ max n' neededMax = max n neededMax ∧
      (rc = 0 → ∃ body, l = body ++ [newline] ∧ newline ∉ body) := by
  induction fuel generalizing n acc st x with
  | zero => cases h
  | succ fuel ih =>
    obtain ⟨r, hread, hrest⟩ := bind_eq_ok.1 (h : Except.bind _ _ = _)
    by_cases hrc : r.rc = 0
    · have hlen : (acc ++ [charRead r]).length = acc.length + 1 := List.length_append
      rcases getdelimLoop_round L fuel hread hrc hacc with
        ⟨code, hcode, hrun, -⟩ | ⟨m, hroom, hm, hrun⟩
      · rw [hrun] at h
        cases h
        exact ⟨by omega, rfl, fun h0 => absurd h0 hcode⟩
      · rw [hrun] at h
        by_cases hc : charRead r = newline
        · rw [if_pos hc, hc] at h
          cases h
          rw [hc] at hlen
          exact ⟨by omega, hm, fun _ => ⟨acc, rfl, hnew⟩⟩
        · rw [if_neg hc] at h
          have hnew' : newline ∉ acc ++ [charRead r] := by
            rw [List.mem_append, List.mem_singleton, not_or]
            exact ⟨hnew, Ne.symm hc⟩
          rw [← hm]
          exact ih h (by omega) hnew'
    · rw [if_pos hrc] at hrest
      cases hrest
      exact ⟨by omega, rfl, fun h0 => absurd h0 hrc⟩

/-- The same of `dico_stream_getline`. -/
theorem getline_line (h : getline L T st x n = .ok (rc, l, n', st', x')) :
    l.length < max n neededMax ∧ max n' neededMax = max n neededMax ∧
      (rc = 0 → ∃ body, l = body ++ [newline] ∧ newline ∉ body) := by
  have hmax : 0 < max n neededMax := Nat.lt_of_lt_of_le (by decide) (Nat.le_max_right _ _)
  unfold getline getdelim at h
  split_ifs at h with hn hmem
  · cases h
    exact ⟨hmax, by rw [hn], fun h0 => absurd h0 ENOMEM.property⟩
  · have h120 : max 120 neededMax = max n neededMax := by
      rw [hn]
      decide
    rw [← h120]
    exact getdelimLoop_line h (by decide) List.not_mem_nil
  · exact getdelimLoop_line h (Nat.pos_of_ne_zero hn) List.not_mem_nil

/-! ## The line reader with the caller's block -/

/-- A line with its newline is stored, and counted without it. -/
theorem readlnLoop_ends (h : NextLine T st x line rc st' x') (hnew : newline ∈ line)
    (hleft : line.length ≤ left) (rc₀ : ℕ) :
    readlnLoop T left rc₀ acc n st x = .ok (0, acc ++ line, n + (line.length - 1), st', x') := by
  induction h generalizing left rc₀ acc n with
  | @ends st x r hread hrc hc =>
    obtain ⟨left, rfl⟩ : ∃ k, left = k + 1 := ⟨left - 1, by simp at hleft; omega⟩
    rw [readlnLoop, hread, ok_bind, if_neg (not_not.2 hrc)]
    simp only [hc, if_true, List.length_singleton, Nat.sub_self, Nat.add_zero]
  | fails => cases hnew
  | @more st st' x x' r line rc hread hrc hc hnext ih =>
    rw [List.length_cons] at hleft
    obtain ⟨left, rfl⟩ : ∃ k, left = k + 1 := ⟨left - 1, by omega⟩
    have hmem : newline ∈ line := (List.mem_cons.1 hnew).resolve_left (Ne.symm hc)
    have hpos := List.length_pos_of_mem hmem
    have hcount : n + 1 + (line.length - 1) = n + ((charRead r :: line).length - 1) := by
      rw [List.length_cons]
      omega
    rw [readlnLoop, hread, ok_bind, if_neg (not_not.2 hrc)]
    simp only [if_neg hc]
    rw [ih hmem (by omega), List.append_assoc, List.singleton_append, hcount]

/-- A line that ends in a failed read is stored and counted, and the
failure is the value, if there is room for one byte more. -/
theorem readlnLoop_fails (h : NextLine T st x line rc st' x') (hnew : newline ∉ line)
    (hleft : line.length < left) (rc₀ : ℕ) :
    readlnLoop T left rc₀ acc n st x = .ok (rc, acc ++ line, n + line.length, st', x') := by
  induction h generalizing left rc₀ acc n with
  | ends => exact absurd (List.mem_singleton.2 rfl) hnew
  | @fails st x r hread hrc =>
    obtain ⟨left, rfl⟩ : ∃ k, left = k + 1 := ⟨left - 1, by omega⟩
    rw [readlnLoop, hread, ok_bind, if_pos hrc, List.append_nil, List.length_nil, Nat.add_zero]
  | @more st st' x x' r line rc hread hrc hc hnext ih =>
    rw [List.length_cons] at hleft
    obtain ⟨left, rfl⟩ : ∃ k, left = k + 1 := ⟨left - 1, by omega⟩
    rw [readlnLoop, hread, ok_bind, if_neg (not_not.2 hrc)]
    simp only [if_neg hc]
    rw [ih (List.not_mem_of_not_mem_cons hnew) (by omega), List.append_assoc,
      List.singleton_append, List.length_cons, Nat.add_assoc, Nat.add_comm 1]

/-- Where the block is full before that read, the failure is not seen. -/
theorem readlnLoop_full (h : NextLine T st x line rc st' x') (hnew : newline ∉ line) (acc : Bytes)
    (n : ℕ) : ∃ st₁ x₁, readlnLoop T line.length 0 acc n st x =
      .ok (0, acc ++ line, n + line.length, st₁, x₁) := by
  induction h generalizing acc n with
  | ends => exact absurd (List.mem_singleton.2 rfl) hnew
  | fails => exact ⟨_, _, by rw [List.length_nil, readlnLoop, List.append_nil, Nat.add_zero]⟩
  | @more st st' x x' r line rc hread hrc hc hnext ih =>
    obtain ⟨st₁, x₁, hrun⟩ := ih (List.not_mem_of_not_mem_cons hnew) (acc ++ [charRead r]) (n + 1)
    refine ⟨st₁, x₁, ?_⟩
    rw [List.length_cons, readlnLoop, hread, ok_bind, if_neg (not_not.2 hrc)]
    simp only [if_neg hc]
    rw [hrun, List.append_assoc, List.singleton_append, Nat.add_assoc, Nat.add_comm 1]

/-! ## The two of them -/

/-- With enough memory both readers return the same status, the same bytes
and the same count, whatever the uninitialised status was. -/
def SameLine (T : Transport σ) (st : DicoStream) (x : σ) (size n : ℕ) : Prop :=
  ∃ M, ∀ (rc₀ : ℕ) (L : Limits), M ≤ L.mem → ∃ rc line n' st₁ x₁ st₂ x₂,
    readln T rc₀ st x size = .ok (rc, line, some line.length, st₁, x₁) ∧
      getline L T st x n = .ok (rc, line, n', st₂, x₂)

/-- **When the two line readers agree**: with room for the whole line, only
on a line that ends in a failed read, and that leaves room for one byte
more. -/
theorem sameLine_iff (h : NextLine T st x line rc st' x') (hsize : line.length < size) (n : ℕ) :
    SameLine T st x size n ↔
      newline ∉ line ∧ line.length + 1 < size ∧ line.length < max n neededMax := by
  have hpos : ¬ size = 0 := by omega
  constructor
  · rintro ⟨M, hsame⟩
    obtain ⟨code, l, n', st₁, x₁, st₂, x₂, hreadln, hget⟩ :=
      hsame 0 (Limits.withMem M) (Nat.le_refl _)
    rw [readln, if_neg hpos] at hreadln
    have hnew : newline ∉ line := by
      intro hnew
      have hlen := List.length_pos_of_mem hnew
      rw [readlnLoop_ends h hnew (by omega), ok_bind] at hreadln
      simp only [Except.ok.injEq, Prod.mk.injEq, Option.some.injEq, List.nil_append] at hreadln
      obtain ⟨-, rfl, hcount, -⟩ := hreadln
      omega
    have hroom : line.length + 1 < size := by
      by_contra hfull
      obtain ⟨st₃, x₃, hrun⟩ := readlnLoop_full h hnew [] 0
      rw [show size - 1 = line.length by omega, hrun, ok_bind, List.nil_append,
        Nat.zero_add] at hreadln
      cases hreadln
      -- the other reader has no line without a newline to return zero for
      obtain ⟨body, hbody, -⟩ := (getline_line hget).2.2 rfl
      exact hnew (hbody ▸ List.mem_append_right _ (List.mem_singleton.2 rfl))
    rw [readlnLoop_fails h hnew (by omega), ok_bind, List.nil_append, Nat.zero_add] at hreadln
    cases hreadln
    exact ⟨hnew, hroom, (getline_line hget).1⟩
  · rintro ⟨hnew, hroom, hmax⟩
    refine ⟨2 * line.length + 120, fun rc₀ L hmem => ?_⟩
    obtain ⟨n', hget, -⟩ := getline_of_nextLine (L := L) h (by omega) (by omega) hmax
    refine ⟨rc, line, n', st', x', st', x', ?_, hget⟩
    rw [readln, if_neg hpos, readlnLoop_fails h hnew (by omega), ok_bind, List.nil_append,
      Nat.zero_add]

/-- A transport over the bytes that are left. -/
def remaining : Transport Bytes where
  read := some fun x n => (.ok (x.take n), x.drop n)
  write := none
  flush := none
  seek := none

/-- A stream over it that has read so many bytes. -/
def afterReading (bytesIn : ℕ) (eof : Bool) (lastErr : ℕ) : DicoStream :=
  { create true false false with bytesIn := bytesIn, eof := eof, lastErr := lastErr }

/-- A line without newline, and room for more. -/
theorem sameLine_unterminated :
    NextLine remaining (create true false false) [97] [97] EIO.val
        (afterReading 1 true EIO.val) [] ∧
      SameLine remaining (create true false false) [97] 3 0 := by
  have hend : NextLine remaining (afterReading 1 false 0) [] [] EIO.val
      (afterReading 1 true EIO.val) [] :=
    .fails (r := ⟨ EIO.val, [], none, afterReading 1 true EIO.val, []⟩) rfl EIO.property
  have hnext : NextLine remaining (create true false false) [97] [97] EIO.val
      (afterReading 1 true EIO.val) [] :=
    .more (r := ⟨0, [97], none, afterReading 1 false 0, []⟩) rfl rfl (by decide) hend
  exact ⟨hnext, (sameLine_iff hnext (by decide) 0).2 (by decide)⟩

/-- **The line `a` with its newline is two bytes to one reader and one to
the other**, in a block of three. -/
theorem not_sameLine_newline :
    NextLine remaining (create true false false) [97, 10] [97, 10] 0 (afterReading 2 false 0) [] ∧
      ¬ SameLine remaining (create true false false) [97, 10] 3 0 := by
  have hend : NextLine remaining (afterReading 1 false 0) [10] [10] 0
      (afterReading 2 false 0) [] :=
    .ends (r := ⟨0, [10], none, afterReading 2 false 0, []⟩) rfl rfl rfl
  refine ⟨.more (r := ⟨0, [97], none, afterReading 1 false 0, [10]⟩) rfl rfl (by decide) hend, ?_⟩
  rintro ⟨M, hsame⟩
  obtain ⟨rc, line, n', st₁, x₁, st₂, x₂, hreadln, -⟩ :=
    hsame 0 (Limits.withMem M) (Nat.le_refl _)
  have hrun : readln remaining 0 (create true false false) [97, 10] 3 =
      .ok (0, [97, 10], some 1, afterReading 2 false 0, []) := rfl
  rw [hrun] at hreadln
  cases hreadln

end DicoStream

end Dico
