import Dico.Text.Cstr
import Mathlib.Algebra.Ring.Int.Defs
/-!
# Socket addresses as text

`sockaddr_to_str` of `lib/iputil.c` puts an address into a buffer piece by
piece. `mu_stpcpy` appends one piece: what has no room is left out, and
where the buffer is full the null goes over the last byte in it. Whatever
the pieces are and whatever the size of the buffer, it holds as much of all
of them as fits before a null (`muStpcpyAll_appended`).

`sockaddr_to_astr` asks for the length first, with no buffer, so everything
fits.
-/

namespace Dico

/-! ## The model -/

/-- A buffer that is being filled: the block, `*pbuf` as an offset into it,
and `*psize`. -/
structure StpBuffer where
  mem : Bytes
  pos : ℕ
  size : ℕ
  deriving DecidableEq

/-- The part of `mu_stpcpy` for a buffer. -/
def stpcpyInto (b : StpBuffer) (src : Bytes) : Except Fault (ℕ × StpBuffer) := do
  let size := if b.size > src.length then src.length else b.size
  let mem ← memcpyTo b.mem b.pos (src.take size)
  let psize := b.size - size
  let pos := b.pos + size
  if psize ≠ 0 then do
    let mem ← store mem pos 0
    .ok (size, ⟨mem, pos, psize⟩)
  -- the byte before the first is not one of the block
  else if pos = 0 then .error .bounds
  else do
    let mem ← store mem (pos - 1) 0
    .ok (size, ⟨mem, pos, psize⟩)

/-- `mu_stpcpy`; a null pointer is no buffer. -/
def muStpcpy (b : Option StpBuffer) (src : Bytes) : Except Fault (ℕ × Option StpBuffer) :=
  match b with
  | none => .ok (src.length, none)
  | some b => do
    let (size, b) ← stpcpyInto b src
    .ok (size, some b)

/-- Several calls, with `len` the sum of what they return. -/
def muStpcpyAll (len : ℕ) (b : Option StpBuffer) : List Bytes → Except Fault (ℕ × Option StpBuffer)
  | [] => .ok (len, b)
  | src :: srcs => do
    let (n, b) ← muStpcpy b src
    muStpcpyAll (len + n) b srcs

/-- `struct sockaddr`, by its family: the address and the port in host
order, the memory from `sun_path` on, or the number of another family. -/
inductive SocketAddr
  | inet (addr : BitVec 32) (port : BitVec 16)
  | unix (sunPath : Bytes)
  | other (family : BitVec 16)

/-- `inet_ntoa`. -/
def inetNtoa (addr : BitVec 32) : Bytes :=
  decimal (addr.toNat / 2 ^ 24) ++ ascii "." ++ decimal (addr.toNat / 2 ^ 16 % 256) ++ ascii "." ++
    decimal (addr.toNat / 2 ^ 8 % 256) ++ ascii "." ++ decimal (addr.toNat % 256)

/-- `offsetof (struct sockaddr_un, sun_path)`. -/
def sunPathOffset : ℤ := 2

/-- Whether `S_UN_NAME` is the empty string or has a null at its beginning;
`salen` is an `int` that is compared as a `size_t`. -/
def sunNameEmpty (sunPath : Bytes) (salen : ℤ) : Except Fault Bool :=
  if salen % 2 ^ 64 < sunPathOffset then .ok true
  else do
    let c ← load sunPath 0
    .ok (c == 0)

/-- The strings that `sockaddr_to_str` appends. -/
def sockaddrPieces (sa : SocketAddr) (salen : ℤ) : Except Fault (List Bytes) :=
  match sa with
  | .inet addr port => .ok [inetNtoa addr, ascii ":", decimal port.toNat]
  | .unix sunPath => do
    if ← sunNameEmpty sunPath salen then .ok [ascii "anonymous socket"]
    else do
      let path ← strAt sunPath 0
      .ok [ascii "socket ", path]
  | .other family => .ok [ascii "\x7bUnsupported family: ", decimal family.toNat, ascii "\x7d"]

/-- `sockaddr_to_str`: what it stores at `plen`, and the buffer. -/
def sockaddrToStr (sa : SocketAddr) (salen : ℤ) (b : Option StpBuffer) :
    Except Fault (ℕ × Option StpBuffer) := do
  let pieces ← sockaddrPieces sa salen
  let (len, b) ← muStpcpyAll 0 b pieces
  .ok (len + 1, b)

/-- `sockaddr_to_astr`: the block it returns. What a new block holds is up
to the allocator. -/
def sockaddrToAstr (malloc : (n : ℕ) → Vector UInt8 n) (sa : SocketAddr) (salen : ℤ) :
    Except Fault Bytes := do
  let (size, _) ← sockaddrToStr sa salen none
  match ← sockaddrToStr sa salen (some ⟨(malloc size).toList, 0, size⟩) with
  | (_, some b) => .ok b.mem
  | (_, none) => .error .dangling

/-! ## One piece -/

/-- A buffer of `n` bytes to which the bytes `t` were appended so far. -/
structure Appended (n : ℕ) (t : Bytes) (b : StpBuffer) : Prop where
  length_mem : b.mem.length = n
  pos_eq : b.pos = min t.length n
  size_eq : b.size = n - b.pos
  /-- All but the last byte of the block is used for them. -/
  held : t.take (n - 1) <+: b.mem

/-- And that ends what it holds of them with a null. -/
def Ended (n : ℕ) (t : Bytes) (b : StpBuffer) : Prop := t.take (n - 1) ++ [0] <+: b.mem

section Pieces

variable {n : ℕ} {t s : Bytes} {b : StpBuffer}

/-- A new buffer. -/
theorem appended_nil (m : Bytes) : Appended m.length [] ⟨m, 0, m.length⟩ where
  length_mem := rfl
  pos_eq := (Nat.zero_min _).symm
  size_eq := (Nat.sub_zero _).symm
  held := by
    rw [List.take_nil]
    exact List.nil_prefix

/-- A piece for which there is room, and for the null behind it. -/
theorem stpcpyInto_room (h : Appended n t b) (hroom : t.length + s.length < n) :
    ∃ b', stpcpyInto b s = .ok (s.length, b') ∧ Appended n (t ++ s) b' ∧ Ended n (t ++ s) b' := by
  obtain ⟨mem, pos, size⟩ := b
  obtain ⟨hmem, hpos, hsize, hheld⟩ := h
  dsimp only at hmem hpos hsize hheld
  rw [min_eq_left (by omega)] at hpos
  subst hpos hsize
  rw [List.take_of_length_le (by omega)] at hheld
  obtain ⟨rest, rfl⟩ := hheld
  rw [List.length_append] at hmem
  -- the rest of the block: the bytes for the piece, that for the null, and others
  obtain ⟨r, c, q, rfl, hr⟩ : ∃ r c q, rest = r ++ c :: q ∧ r.length = s.length := by
    have hlt : s.length < rest.length := by omega
    refine ⟨rest.take s.length, rest[s.length], rest.drop (s.length + 1), ?_,
      List.length_take_of_le hlt.le⟩
    rw [List.getElem_cons_drop, List.take_append_drop]
  rw [List.length_append, List.length_cons] at hmem
  have hstore : store (t ++ (s ++ c :: q)) (t.length + s.length) 0 =
      .ok (t ++ (s ++ 0 :: q)) := by
    rw [← List.append_assoc, ← List.length_append, store_append, List.append_assoc]
  refine ⟨⟨t ++ (s ++ 0 :: q), t.length + s.length, n - t.length - s.length⟩, ?_, ?_, ?_⟩
  · unfold stpcpyInto
    dsimp only
    rw [if_pos (by omega), List.take_length, memcpyTo_append t r (c :: q) hr, ok_bind,
      if_pos (by omega), hstore, ok_bind]
  · constructor
    · simp only [List.length_append, List.length_cons]
      omega
    · simp only [List.length_append]
      omega
    · simp only
      omega
    · rw [List.take_of_length_le (by rw [List.length_append]; omega)]
      exact ⟨0 :: q, List.append_assoc ..⟩
  · unfold Ended
    rw [List.take_of_length_le (by rw [List.length_append]; omega)]
    exact ⟨q, by simp only [List.append_assoc, List.singleton_append]⟩

/-- A block that has its last byte set to null. -/
theorem store_last {mem : Bytes} (hn : 1 ≤ n) (hlen : mem.length = n) :
    store mem (n - 1) 0 = .ok (mem.take (n - 1) ++ [0]) := by
  obtain ⟨init, c, rfl⟩ : ∃ init c, mem = init ++ [c] := by
    have hne : mem ≠ [] := by
      rintro rfl
      rw [List.length_nil] at hlen
      omega
    exact ⟨mem.dropLast, mem.getLast hne, (List.dropLast_append_getLast hne).symm⟩
  rw [List.length_append, List.length_singleton] at hlen
  have hn : n - 1 = init.length := by omega
  rw [hn, store_append, List.take_left]

/-- A piece that fills the buffer, or finds it full. -/
theorem stpcpyInto_full (hn : 1 ≤ n) (h : Appended n t b) (hfull : n ≤ t.length + s.length) :
    ∃ b', stpcpyInto b s = .ok (b.size, b') ∧ Appended n (t ++ s) b' ∧ Ended n (t ++ s) b' := by
  obtain ⟨mem, pos, size⟩ := b
  obtain ⟨hmem, hpos, hsize, hheld⟩ := h
  dsimp only at hmem hpos hsize hheld ⊢
  have hle : size ≤ s.length := by omega
  have hend : pos + size = n := by omega
  have htake : (s.take size).length = size := List.length_take_of_le hle
  have hcopy : memcpyTo mem pos (s.take size) = .ok (mem.take pos ++ s.take size) := by
    rw [memcpyTo, Memory.poke_eq_some (by omega), htake, List.drop_eq_nil_of_le (by omega),
      List.append_nil]
  have hlen : (mem.take pos ++ s.take size).length = n := by
    rw [List.length_append, htake, List.length_take_of_le (by omega)]
    exact hend
  -- what the block holds but for its last byte
  have hheld' : (mem.take pos ++ s.take size).take (n - 1) = (t ++ s).take (n - 1) := by
    rcases Nat.lt_or_ge t.length n with hlt | hge
    · rw [min_eq_left hlt.le] at hpos
      rw [List.take_of_length_le (by omega)] at hheld
      rw [hpos, ← List.prefix_iff_eq_take.1 hheld, List.take_append, List.take_append,
        List.take_take, min_eq_left (by omega)]
    · rw [min_eq_right hge] at hpos
      have hzero : size = 0 := by omega
      have hprefix := List.prefix_iff_eq_take.1 hheld
      rw [List.length_take_of_le (by omega)] at hprefix
      have hall : mem.take pos = mem := List.take_of_length_le (by omega)
      rw [hzero, List.take_zero, List.append_nil, hall, ← hprefix,
        List.take_append_of_le_length (by omega)]
  refine ⟨⟨(t ++ s).take (n - 1) ++ [0], n, 0⟩, ?_, ?_, ?_⟩
  · unfold stpcpyInto
    dsimp only
    rw [if_neg (by omega), hcopy, ok_bind, Nat.sub_self, if_neg (fun h => h rfl), hend,
      if_neg (by omega), store_last hn hlen, hheld', ok_bind]
  · constructor
    · rw [List.length_append, List.length_take_of_le (by rw [List.length_append]; omega),
        List.length_singleton]
      omega
    · rw [min_eq_right (by rw [List.length_append]; omega)]
    · exact (Nat.sub_self n).symm
    · exact List.prefix_append _ _
  · exact List.prefix_rfl

/-- **A piece**: as much of it as fits is put behind what is there, and a
null behind that. -/
theorem stpcpyInto_spec (hn : 1 ≤ n) (h : Appended n t b) (s : Bytes) :
    ∃ k b', stpcpyInto b s = .ok (k, b') ∧ Appended n (t ++ s) b' ∧ Ended n (t ++ s) b' ∧
      (t.length + s.length < n → k = s.length) := by
  rcases Nat.lt_or_ge (t.length + s.length) n with hroom | hfull
  · obtain ⟨b', hb, happ, hended⟩ := stpcpyInto_room h hroom
    exact ⟨s.length, b', hb, happ, hended, fun _ => rfl⟩
  · obtain ⟨b', hb, happ, hended⟩ := stpcpyInto_full hn h hfull
    exact ⟨b.size, b', hb, happ, hended, fun hlt => absurd hlt (not_lt.2 hfull)⟩

/-- **Several pieces.** -/
theorem muStpcpyAll_appended (hn : 1 ≤ n) (h : Appended n t b) (len : ℕ) (ss : List Bytes) :
    ∃ k b', muStpcpyAll len (some b) ss = .ok (k, some b') ∧ Appended n (t ++ ss.flatten) b' ∧
      (ss ≠ [] → Ended n (t ++ ss.flatten) b') := by
  induction ss generalizing t b len with
  | nil =>
    refine ⟨len, b, rfl, ?_, fun hne => absurd rfl hne⟩
    rwa [List.flatten_nil, List.append_nil]
  | cons s ss ih =>
    obtain ⟨k, b', hb, happ, hended, -⟩ := stpcpyInto_spec hn h s
    obtain ⟨k', b'', hb', happ', hended'⟩ := ih happ (len + k)
    rw [List.append_assoc, ← List.flatten_cons] at happ' hended'
    refine ⟨k', b'', ?_, happ', fun _ => ?_⟩
    · rw [muStpcpyAll, muStpcpy, hb, ok_bind, ok_bind]
      exact hb'
    · cases ss with
      | nil =>
        obtain ⟨-, hsame⟩ := Prod.mk.inj (Except.ok.inj hb')
        obtain rfl := Option.some.inj hsame
        rwa [List.flatten_cons, List.flatten_nil, List.append_nil]
      | cons s' ss => exact hended' (List.cons_ne_nil s' ss)

/-- With no buffer the pieces are only measured. -/
theorem muStpcpyAll_none (len : ℕ) (ss : List Bytes) :
    muStpcpyAll len none ss = .ok (len + ss.flatten.length, none) := by
  induction ss generalizing len with
  | nil => rfl
  | cons s ss ih =>
    rw [muStpcpyAll, muStpcpy, ok_bind, List.flatten_cons, List.length_append, ← Nat.add_assoc]
    exact ih (len + s.length)

/-- An address is made of at least one piece. -/
theorem sockaddrPieces_ne_nil {sa : SocketAddr} {salen : ℤ} {pieces : List Bytes}
    (h : sockaddrPieces sa salen = .ok pieces) : pieces ≠ [] := by
  rintro rfl
  cases sa with
  | inet addr port => cases h
  | other family => cases h
  | unix sunPath =>
    rw [sockaddrPieces] at h
    obtain ⟨empty, -, h⟩ := bind_eq_ok.1 h
    cases empty with
    | true => cases h
    | false =>
      rw [if_neg Bool.false_ne_true] at h
      obtain ⟨path, -, h⟩ := bind_eq_ok.1 h
      cases h

end Pieces

/-- A buffer of one byte more than was appended holds that, and nothing else. -/
theorem mem_of_ended {t : Bytes} {b : StpBuffer} (h : Appended (t.length + 1) t b)
    (hended : Ended (t.length + 1) t b) : b.mem = t ++ [0] := by
  unfold Ended at hended
  rw [Nat.add_sub_cancel, List.take_length] at hended
  refine (hended.eq_of_length ?_).symm
  rw [h.length_mem, List.length_append, List.length_singleton]

/-- **The text of an address** is all of its strings. -/
theorem sockaddrToAstr_eq (malloc : (n : ℕ) → Vector UInt8 n) (sa : SocketAddr) (salen : ℤ) :
    sockaddrToAstr malloc sa salen =
      (sockaddrPieces sa salen).map fun pieces => pieces.flatten ++ [0] := by
  cases h : sockaddrPieces sa salen with
  | error e => rw [sockaddrToAstr, sockaddrToStr, h, error_bind, error_bind, Except.map]
  | ok pieces =>
    have hlen : (malloc (pieces.flatten.length + 1)).toList.length = pieces.flatten.length + 1 :=
      Vector.length_toList ..
    have hnew := appended_nil (malloc (pieces.flatten.length + 1)).toList
    rw [hlen] at hnew
    obtain ⟨k, b, hall, happ, hended⟩ :=
      muStpcpyAll_appended (Nat.le_add_left 1 pieces.flatten.length) hnew 0 pieces
    rw [List.nil_append] at happ hended
    have hmem := mem_of_ended happ (hended (sockaddrPieces_ne_nil h))
    have hfirst : sockaddrToStr sa salen none = .ok (pieces.flatten.length + 1, none) := by
      rw [sockaddrToStr, h, ok_bind, muStpcpyAll_none, ok_bind, Nat.zero_add]
    have hsecond : sockaddrToStr sa salen (some ⟨(malloc (pieces.flatten.length + 1)).toList, 0,
        pieces.flatten.length + 1⟩) = .ok (k + 1, some b) := by
      rw [sockaddrToStr, h, ok_bind, hall, ok_bind]
    rw [sockaddrToAstr, hfirst, ok_bind]
    dsimp only
    rw [hsecond, ok_bind, Except.map]
    exact congrArg Except.ok hmem

/-- **Socket address formatting.** Whatever strings are appended to a buffer
that has a byte or more, no write is outside of it, and it ends up with as
much of all of them as fits before a null, or as it was if there are none;
and the text of an address is all of its strings, whatever the new block for
it held. -/
theorem socketAddress_spec :
    (∀ (c : UInt8) (m : Bytes) (ss : List Bytes), ∃ k b,
      muStpcpyAll 0 (some ⟨c :: m, 0, (c :: m).length⟩) ss = .ok (k, some b) ∧
        b.mem.length = (c :: m).length ∧
        (ss = [] ∧ b.mem = c :: m ∨
          ss.flatten.take (min ss.flatten.length ((c :: m).length - 1)) ++ [0] <+: b.mem)) ∧
      ∀ malloc sa salen, sockaddrToAstr malloc sa salen =
        (sockaddrPieces sa salen).map fun pieces => pieces.flatten ++ [0] := by
  refine ⟨fun c m ss => ?_, sockaddrToAstr_eq⟩
  cases ss with
  | nil => exact ⟨0, ⟨c :: m, 0, (c :: m).length⟩, rfl, rfl, .inl ⟨rfl, rfl⟩⟩
  | cons s ss =>
    have hn : 1 ≤ (c :: m).length := Nat.succ_pos m.length
    obtain ⟨k, b, hall, happ, hended⟩ :=
      muStpcpyAll_appended hn (appended_nil (c :: m)) 0 (s :: ss)
    rw [List.nil_append] at happ hended
    refine ⟨k, b, hall, happ.length_mem, .inr ?_⟩
    rw [min_comm, ← List.take_take, List.take_length]
    exact hended (List.cons_ne_nil s ss)

end Dico
