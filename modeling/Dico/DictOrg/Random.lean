import Dico.DictOrg.Cache
/-!
# Random access

A dictzip file whose chunks can all be loaded, read from anywhere. The
loop of `_dict_read_dzip` goes on until it has all the bytes it was asked
for, so a read that ends inside the file gives them; one that would go
beyond the end asks for a chunk that is not there. A read of nothing does
not set the value it returns.
-/

namespace Dico

namespace DictOrg

open Memory

/-! ## Pieces of one size -/

/-- **A position in pieces of one size**, all but the last of which are full:
which piece it is in, and where. -/
theorem drop_pieces {n : ℕ} (hn : 0 < n) {pieces : List Bytes} {offset : ℕ}
    (hfull : ∀ p ∈ pieces.dropLast, p.length = n) (hle : ∀ p ∈ pieces, p.length ≤ n)
    (hoff : offset ≤ pieces.flatten.length) :
    offset / n ≤ pieces.length ∧ (∀ p, pieces[offset / n]? = some p → offset % n ≤ p.length) ∧
      (pieces.drop (offset / n)).flatten.drop (offset % n) = pieces.flatten.drop offset := by
  induction pieces generalizing offset with
  | nil =>
    rw [List.flatten_nil, List.length_nil, Nat.le_zero] at hoff
    subst hoff
    rw [Nat.zero_div, Nat.zero_mod]
    exact ⟨le_refl _, (fun p hp => by cases hp), rfl⟩
  | cons q ps ih =>
    rw [List.flatten_cons, List.length_append] at hoff
    have hq := hle q List.mem_cons_self
    by_cases hlt : offset < n
    · rw [Nat.div_eq_of_lt hlt, Nat.mod_eq_of_lt hlt]
      refine ⟨Nat.zero_le _, fun p hp => ?_, rfl⟩
      obtain rfl := Option.some.inj hp
      cases ps with
      | nil =>
        rw [List.flatten_nil, List.length_nil] at hoff
        omega
      | cons r ps =>
        have hlen := hfull q (by rw [List.dropLast_cons_cons]; exact List.mem_cons_self)
        omega
    · obtain ⟨m, rfl⟩ : ∃ m, offset = n + m := ⟨offset - n, by omega⟩
      have hdiv : (n + m) / n = m / n + 1 := by
        rw [Nat.add_comm, Nat.add_div_right m hn]
      rw [hdiv, Nat.add_mod_left, List.drop_succ_cons, List.length_cons,
        List.getElem?_cons_succ, List.flatten_cons]
      -- the last piece may be shorter, but only an offset at its end is behind it
      by_cases hnil : ps = []
      · subst hnil
        rw [List.flatten_nil, List.length_nil] at hoff
        obtain rfl : m = 0 := by omega
        rw [Nat.zero_div, Nat.zero_mod]
        refine ⟨by omega, (fun p hp => by cases hp), ?_⟩
        have hend : q.length ≤ n + 0 := hq
        rw [List.drop_nil, List.flatten_nil, List.append_nil, List.drop_nil,
          List.drop_eq_nil_of_le hend]
      · have hlen : q.length = n := by
          refine hfull q ?_
          rw [List.dropLast_cons_of_ne_nil hnil]
          exact List.mem_cons_self
        obtain ⟨hk, ho, hdrop⟩ := @ih m (fun p hp => hfull p (by
            rw [List.dropLast_cons_of_ne_nil hnil]
            exact List.mem_cons_of_mem _ hp))
          (fun p hp => hle p (List.mem_cons_of_mem _ hp)) (by omega)
        refine ⟨by omega, ho, ?_⟩
        have hend : q.length ≤ q.length + m := Nat.le_add_right _ _
        rw [hdrop, ← hlen, List.drop_append, List.drop_eq_nil_of_le hend, List.nil_append,
          Nat.add_sub_cancel_left]

/-- Pieces have no more bytes than there is room for. -/
theorem length_pieces_le {n : ℕ} {pieces : List Bytes} (hle : ∀ p ∈ pieces, p.length ≤ n) :
    pieces.flatten.length ≤ pieces.length * n := by
  induction pieces with
  | nil => exact Nat.zero_le _
  | cons p ps ih =>
    have hp := hle p List.mem_cons_self
    have hps := ih fun q hq => hle q (List.mem_cons_of_mem _ hq)
    rw [List.flatten_cons, List.length_append, List.length_cons, Nat.succ_mul]
    omega

/-! ## A file whose chunks can be loaded -/

section

variable {σ : Type} {Z : Inflate} {T : Transport σ} {content : Bytes} {pos : σ → ℕ}
  {pieces : List Bytes} {init : Bool} {str str' : DictStream σ}

/-- A chunk in the file that decompresses to the piece; there is room for it
in the block for compressed data. -/
structure Chunk.Holds (Z : Inflate) (content : Bytes) (str : DictStream σ) (c : Chunk)
    (p : Bytes) : Prop where
  inside : c.offset + c.length ≤ content.length
  room : c.length ≤ str.buffer.length
  inflates : Z ((content.drop c.offset).take c.length) str.chunkSize = ⟨true, 0, p⟩
  fits : p.length ≤ str.chunkSize

/-- **A dictzip file**: the chunks decompress to the pieces, all but the last
full. The number of chunks and their size are 16-bit numbers. -/
structure Dictzip (Z : Inflate) (content : Bytes) (pieces : List Bytes)
    (str : DictStream σ) : Prop where
  count : str.chunk.length = pieces.length
  holds : ∀ (k : ℕ) c p, str.chunk[k]? = some c → pieces[k]? = some p → c.Holds Z content str p
  full : ∀ p ∈ pieces.dropLast, p.length = str.chunkSize
  size : str.size = pieces.flatten.length
  count_lt : pieces.length < 2 ^ 16
  chunkSize_lt : str.chunkSize < 2 ^ 16

/-- An entry with one of the pieces. -/
structure CacheEntry.Has (pieces : List Bytes) (chunkSize : ℕ) (cp : CacheEntry) (k : ℕ)
    (p : Bytes) : Prop where
  num : cp.num = k
  piece : pieces[k]? = some p
  size : cp.size = p.length
  contents : cp.buffer.take cp.size = p
  block : cp.buffer.length = chunkSize

/-- **A stream ready to be read**: of a dictzip file, over a transport at
which nothing went wrong, with a cache of pieces. -/
structure Ready (Z : Inflate) (content : Bytes) (pos : σ → ℕ) (pieces : List Bytes)
    (init : Bool) (str : DictStream σ) : Prop where
  file : Dictzip Z content pieces str
  plain : DicoStream.Plain content pos str.transport str.dev
  engine : (str.zstrReady || init) = true
  room : 1 ≤ str.cacheSize
  entries : ∀ cp ∈ str.cache, ∃ k p, cp.Has pieces str.chunkSize k p

theorem Dictzip.fits (h : Dictzip Z content pieces str) {p : Bytes} (hp : p ∈ pieces) :
    p.length ≤ str.chunkSize := by
  obtain ⟨k, hk, rfl⟩ := List.getElem_of_mem hp
  have hc : k < str.chunk.length := by
    rw [h.count]
    exact hk
  exact (h.holds k _ _ (List.getElem?_eq_getElem hc) (List.getElem?_eq_getElem hk)).fits

/-- There is an entry to fill. -/
theorem Ready.admits (h : Ready Z content pos pieces init str) :
    str.cache.length < str.cacheSize ∨ str.cache ≠ [] := by
  by_cases hnil : str.cache = []
  · rw [hnil]
    exact Or.inl h.room
  · exact Or.inr hnil

/-- It is the file of any stream with its chunks, whatever is in the block. -/
theorem Dictzip.congr (h : Dictzip Z content pieces str) (hchunk : str'.chunk = str.chunk)
    (hchunkSize : str'.chunkSize = str.chunkSize) (hsize : str'.size = str.size)
    (hbuffer : str'.buffer.length = str.buffer.length) : Dictzip Z content pieces str' where
  count := hchunk ▸ h.count
  holds k c p hc hp := by
    obtain ⟨hin, hroom, hinf, hfits⟩ := h.holds k c p (hchunk ▸ hc) hp
    exact ⟨hin, hbuffer ▸ hroom, hchunkSize ▸ hinf, hchunkSize ▸ hfits⟩
  full := hchunkSize ▸ h.full
  size := hsize ▸ h.size
  count_lt := h.count_lt
  chunkSize_lt := hchunkSize ▸ h.chunkSize_lt

/-- Another place in the same file. -/
theorem Ready.moved (h : Ready Z content pos pieces init str) (offset : ℕ) :
    Ready Z content pos pieces init { str with offset := offset } :=
  ⟨h.file.congr rfl rfl rfl rfl, h.plain, h.engine, h.room, h.entries⟩

/-! ## Asking for a chunk -/

/-- Seeking to a chunk and reading it. -/
theorem Ready.load (L : Limits) (hT : T.FileLike content pos)
    (h : Ready Z content pos pieces init str)
    {c : Chunk} {p : Bytes} (hc : c.Holds Z content str p) :
    ∃ st x st' x', str.transport.seek L T str.dev c.offset .set = .ok ((c.offset : ℤ), st, x) ∧
      st.read T x c.length true = .ok ⟨0, (content.drop c.offset).take c.length,
        some ((content.drop c.offset).take c.length).length, st', x'⟩ ∧
      DicoStream.Plain content pos st' x' := by
  have hin := hc.inside
  have hrange : SeekInRange content (pos str.dev) c.offset .set :=
    ⟨Int.natCast_nonneg _, Int.ofNat_le.2 (by omega)⟩
  have hserved : (DicoStream.FileOp.seek c.offset .set).Served content str.transport 0 :=
    ⟨h.plain.level, fun hend => by cases hend.1⟩
  obtain ⟨x, hseek, hreads, hx⟩ := h.plain.reads.seek L hT hserved hrange
  have hx' : pos x = c.offset := Int.natCast_inj.1 hx
  have hplain : DicoStream.Plain content pos str.transport.moved x :=
    ⟨hreads, h.plain.buftype, rfl, rfl⟩
  have hread : (DicoStream.FileOp.read c.length true).Served content str.transport.moved
      (pos x) := by
    refine ⟨(fun hf => by cases hf), fun hpos => ⟨?_, fun hline => ?_⟩⟩
    · rintro rfl
      rw [List.length_nil] at hin
      omega
    · have hnone : str.transport.moved.buftype = .none := h.plain.buftype
      rw [hnone] at hline
      cases hline
  obtain ⟨st', x', hread, hplain', -⟩ := hplain.read hT hread
  rw [hx', if_pos rfl] at hread
  exact ⟨_, x, st', x', hseek, hread, hplain'⟩

/-- **Filling an entry with a chunk that can be loaded.** -/
theorem Ready.fill (L : Limits) (junk : ℕ) (hT : T.FileLike content pos)
    (h : Ready Z content pos pieces init str) {k : ℕ} {p : Bytes} (hk : pieces[k]? = some p)
    {cp : CacheEntry} {l rest : List CacheEntry}
    (hnum : cp.num = k) (hblock : cp.buffer.length = str.chunkSize)
    (hmem : ∀ e ∈ l ++ rest, e ∈ str.cache) :
    ∃ e str', DictStream.cacheFill Z L T init junk { str with cache := l ++ cp :: rest }
        l.length k = .ok (0, some l.length, str') ∧
      str'.cache[l.length]? = some e ∧ e.Has pieces str.chunkSize k p ∧
      str'.offset = str.offset ∧ str'.chunkSize = str.chunkSize ∧
      Ready Z content pos pieces init str' := by
  have hlt : k < str.chunk.length := by
    rw [h.file.count]
    exact (List.getElem?_eq_some_iff.1 hk).1
  have hchunk : str.chunk[k]? = some str.chunk[k] := List.getElem?_eq_getElem hlt
  have hc := h.file.holds k _ p hchunk hk
  obtain ⟨st, x, st', x', hseek, hread, hplain⟩ := h.load L hT hc
  have hat : DictStream.chunkAt { str with cache := l ++ cp :: rest } k = .ok str.chunk[k] := by
    simp only [DictStream.chunkAt, hchunk]
  have hlen : ((content.drop str.chunk[k].offset).take str.chunk[k].length).length =
      str.chunk[k].length := by
    have hin := hc.inside
    rw [List.length_take, List.length_drop]
    omega
  have hroom : 0 + ((content.drop str.chunk[k].offset).take str.chunk[k].length).length ≤
      str.buffer.length := by
    rw [hlen, Nat.zero_add]
    exact hc.room
  have hfits : 0 + p.length ≤ cp.buffer.length := by
    rw [hblock, Nat.zero_add]
    exact hc.fits
  obtain ⟨block, hpoke⟩ : ∃ block, poke str.buffer 0
      ((content.drop str.chunk[k].offset).take str.chunk[k].length) = some block :=
    ⟨_, poke_eq_some hroom⟩
  obtain ⟨out, hout⟩ : ∃ out, poke cp.buffer 0 p = some out := ⟨_, poke_eq_some hfits⟩
  have hget := getElem?_place l rest cp
  have hset := set_place l rest cp
  have hhas : CacheEntry.Has pieces str.chunkSize
      { cp with buffer := out, size := p.length } k p := by
    refine ⟨hnum, hk, rfl, ?_, (length_of_poke hout).trans hblock⟩
    have hpeek := peek_val (peek_poke hout)
    rwa [List.drop_zero] at hpeek
  refine ⟨{ cp with buffer := out, size := p.length }, { str with
    transport := st', dev := x', buffer := block, zstrReady := true,
    cache := l ++ { cp with buffer := out, size := p.length } :: rest }, ?_,
    getElem?_place _ _ _, hhas, rfl, rfl, h.file.congr rfl rfl rfl (length_of_poke hpoke), hplain,
    rfl, h.room, forall_mem_place (fun e he => h.entries e (hmem e he)) ⟨k, p, hhas⟩⟩
  -- the steps of `cache_fill`, none of which fails
  have hneg : ¬ ((str.chunk[k].offset : ℤ) < 0) := by omega
  have hpeek : peek block 0 str.chunk[k].length =
      some ((content.drop str.chunk[k].offset).take str.chunk[k].length) := by
    have := peek_poke hpoke
    rwa [hlen] at this
  rw [DictStream.cacheFill, hat, ok_bind]
  simp only [hseek, ok_bind, if_neg hneg, DictStream.inflateReady, h.engine, if_true, hread,
    hpoke, Option.getD_some, DictStream.inflateInto, hget, hlen, hpeek, hc.inflates, hout, hset,
    Bool.not_true, Bool.false_or, bne_self_eq_false, Bool.false_eq_true, if_false]

/-- **Asking for a chunk** that is there gives its piece. -/
theorem Ready.get (L : Limits) (junk : ℕ) (hT : T.FileLike content pos)
    (h : Ready Z content pos pieces init str) {k : ℕ} {p : Bytes} (hk : pieces[k]? = some p) :
    ∃ i e str', DictStream.cacheGet Z L T init junk str k = .ok (0, some i, str') ∧
      str'.cache[i]? = some e ∧ e.Has pieces str.chunkSize k p ∧ str'.offset = str.offset ∧
      str'.chunkSize = str.chunkSize ∧ Ready Z content pos pieces init str' := by
  cases hfind : cacheFind str.cache k with
  | some i =>
    obtain ⟨a, b, cp, rest, hcache, hnum, -, hget⟩ :=
      @DictStream.cacheGet_hit σ Z L T str init junk i k hfind
    have hcp : cp ∈ str.cache := by
      rw [hcache]
      exact List.mem_append_right _ List.mem_cons_self
    obtain ⟨j, q, hnum', hq, hsize, hcontents, hblock⟩ := h.entries cp hcp
    obtain rfl : k = j := Int.natCast_inj.1 (hnum.symm.trans hnum')
    obtain rfl := Option.some.inj (hk.symm.trans hq)
    have hhas : cp.bump.Has pieces str.chunkSize k p := ⟨hnum, hk, hsize, hcontents, hblock⟩
    have hold : ∀ e ∈ (a ++ b) ++ rest, ∃ k p, e.Has pieces str.chunkSize k p := fun e he =>
      h.entries e (by rw [hcache]; exact mem_place he)
    refine ⟨a.length, cp.bump, _, hget, getElem?_place _ _ _, hhas, rfl, rfl,
      h.file.congr rfl rfl rfl rfl, h.plain, h.engine, h.room, fun e he => ?_⟩
    exact forall_mem_place hold ⟨k, p, hhas⟩ e ((promoted_perm a b rest cp).mem_iff.1 he)
  | none =>
    obtain ⟨a, b, slot, hslot, -, hadmit⟩ :=
      @cacheAdmit_ok str.cache str.cacheSize str.chunkSize k h.admits
    have hnum : slot.bump.num = k := hslot.num
    have hblock : slot.bump.buffer.length = str.chunkSize := by
      rcases hslot.from_cache with ⟨-, -, hlen⟩ | ⟨e, hcache, hbuf⟩
      · exact hlen
      · obtain ⟨j, q, he⟩ := h.entries e (by
          rw [hcache]
          exact List.mem_append_right _ List.mem_cons_self)
        show slot.buffer.length = str.chunkSize
        rw [hbuf]
        exact he.block
    obtain ⟨e, str', hfill, hget?, hhas, hoff, hsize, hready⟩ :=
      h.fill L junk hT hk hnum hblock fun e he => hslot.mem_rotate he
    refine ⟨a.length, e, str', ?_, hget?, hhas, hoff, hsize, hready⟩
    simp only [DictStream.cacheGet, hfind, hadmit, ok_bind, hfill]

/-- **Asking for a chunk behind the last one** reads outside the table. -/
theorem Ready.get_beyond (L : Limits) (T : Transport σ) (junk : ℕ)
    (h : Ready Z content pos pieces init str) {k : ℕ} (hk : pieces.length ≤ k) :
    DictStream.cacheGet Z L T init junk str k = .error .bounds := by
  have hfind : cacheFind str.cache k = none := by
    refine List.findIdx?_eq_none_iff.2 fun e he => ?_
    obtain ⟨j, p, hhas⟩ := h.entries e he
    have hj := (List.getElem?_eq_some_iff.1 hhas.piece).1
    rw [decide_eq_false_iff_not, hhas.num]
    intro heq
    have := Int.natCast_inj.1 heq
    omega
  obtain ⟨a, b, slot, -, -, hadmit⟩ :=
    @cacheAdmit_ok str.cache str.cacheSize str.chunkSize k h.admits
  have hnone : str.chunk[k]? = none := by
    rw [List.getElem?_eq_none_iff, h.file.count]
    exact hk
  simp only [DictStream.cacheGet, hfind, hadmit, ok_bind, DictStream.cacheFill,
    DictStream.chunkAt, hnone, error_bind]

/-! ## Reading -/

/-- What a chunk has from an offset on, as the loop counts it. -/
theorem sizeSub_eq {m o : ℕ} (ho : o ≤ m) (hm : m < 2 ^ 64) :
    DictStream.sizeSub m o = m - o := by
  unfold DictStream.sizeSub
  omega

/-- The bytes of a piece and then those of the others. -/
theorem take_pieces (a b : Bytes) (size : ℕ) :
    a.take size ++ b.take (size - (a.take size).length) = (a ++ b).take size := by
  rw [List.take_append, List.length_take]
  congr 2
  omega

/-- The pieces from one on, from an offset into it on. -/
theorem drop_piece {k o : ℕ} {p : Bytes} (hk : pieces[k]? = some p) (ho : o ≤ p.length) :
    (pieces.drop k).flatten.drop o = p.drop o ++ (pieces.drop (k + 1)).flatten := by
  obtain ⟨hlt, rfl⟩ := List.getElem?_eq_some_iff.1 hk
  rw [List.drop_eq_getElem_cons hlt, List.flatten_cons, List.drop_append_of_le_length ho]

/-- What is copied out of an entry. -/
theorem CacheEntry.Has.peek {e : CacheEntry} {k o n chunkSize : ℕ} {p : Bytes}
    (h : e.Has pieces chunkSize k p) (hn : o + n ≤ p.length) (hfits : p.length ≤ chunkSize) :
    Memory.peek e.buffer o n = some ((p.drop o).take n) := by
  have hcontents : p = e.buffer.take p.length := by
    rw [← h.size, h.contents]
  rw [peek_eq_some (by rw [h.block]; omega)]
  conv_rhs => rw [hcontents, List.drop_take, List.take_take, Nat.min_eq_left (by omega)]

/-- What the loop of `_dict_read_dzip` leaves behind when it has read `w`. -/
structure DictStream.DzipRead.Got (Z : Inflate) (content : Bytes) (pos : σ → ℕ)
    (pieces : List Bytes) (init : Bool) (s s' : DictStream.DzipRead σ) (w : Bytes) : Prop where
  data : s'.data = s.data ++ w
  offset : s'.str.offset = s.str.offset + w.length
  asked : ∀ j ∈ s'.asked, j ∈ s.asked ∨ j < pieces.length
  ready : Ready Z content pos pieces init s'.str

/-- And how much that is. -/
theorem CacheEntry.Has.copyChunk {e : CacheEntry} {k o chunkSize : ℕ} {p : Bytes}
    (h : e.Has pieces chunkSize k p) (ho : o ≤ p.length) (hfits : p.length ≤ chunkSize)
    (hlt : chunkSize < 2 ^ 16) (size : ℕ) :
    DictStream.copyChunk e o size = some ((p.drop o).take size) := by
  have hm : p.length < 2 ^ 64 := by omega
  have hwrap : DictStream.sizeSub e.size o = p.length - o := by
    rw [h.size]
    exact sizeSub_eq ho hm
  have hin : o + min (p.length - o) size ≤ p.length := by omega
  rw [DictStream.copyChunk, hwrap, h.peek hin hfits]
  by_cases hle : p.length - o ≤ size
  · rw [Nat.min_eq_left hle, List.take_of_length_le (by rw [List.length_drop]),
      List.take_of_length_le (by rw [List.length_drop]; exact hle)]
  · rw [Nat.min_eq_right (by omega)]

theorem copyFrom_eq {s : DictStream.DzipRead σ} {k : ℤ} {o size i : ℕ} {e : CacheEntry}
    {w : Bytes} (he : str.cache[i]? = some e) (hcopy : DictStream.copyChunk e o size = some w) :
    DictStream.copyFrom s k o size 0 (some i) str = .ok (some w.length,
      { rc := some 0, data := s.data ++ w, asked := s.asked ++ [k],
        str := { str with offset := str.offset + w.length } }) := by
  have hzero : ¬ ((0 : ℤ) ≠ 0) := not_not.2 rfl
  rw [DictStream.copyFrom, if_neg hzero, Option.bind_some, he, DictStream.orFault_some, ok_bind,
    hcopy, DictStream.orFault_some, ok_bind]

/-- **One round** of the loop, with a chunk that is there. -/
theorem Ready.readChunk (L : Limits) (junk : ℕ) (hT : T.FileLike content pos)
    {s : DictStream.DzipRead σ} (h : Ready Z content pos pieces init s.str) {k o : ℕ} (size : ℕ)
    {p : Bytes} (hk : pieces[k]? = some p) (ho : o ≤ p.length) :
    ∃ s', DictStream.readChunk Z L T init junk s k o size =
        .ok (some ((p.drop o).take size).length, s') ∧
      s'.rc = some 0 ∧
      DictStream.DzipRead.Got Z content pos pieces init s s' ((p.drop o).take size) := by
  obtain ⟨i, e, str', hget, he, hhas, hoff, hcs, hready⟩ := h.get L junk hT hk
  have hcopy := hhas.copyChunk ho (h.file.fits (List.mem_of_getElem? hk)) h.file.chunkSize_lt size
  refine ⟨{ rc := some 0, data := s.data ++ (p.drop o).take size,
            asked := s.asked ++ [(k : ℤ)],
            str := { str' with offset := str'.offset + ((p.drop o).take size).length } }, ?_, rfl,
    rfl, ?_, fun j hj => ?_, hready.moved _⟩
  · rw [DictStream.readChunk, hget, ok_bind]
    exact copyFrom_eq he hcopy
  · dsimp only
    rw [hoff]
  · rcases List.mem_append.1 hj with hj | hj
    · exact Or.inl hj
    · rw [List.mem_singleton.1 hj]
      exact Or.inr (Int.ofNat_lt.2 (List.getElem?_eq_some_iff.1 hk).1)

/-- **The loop of `_dict_read_dzip`** reads as much as it was asked for, or
asks for a chunk behind the last one. -/
theorem Ready.readLoop (L : Limits) (junk : ℕ) (hT : T.FileLike content pos) (fuel : ℕ)
    {s : DictStream.DzipRead σ} (h : Ready Z content pos pieces init s.str) {k o size : ℕ}
    (hf : pieces.length + 1 ≤ k + fuel) (hk : k ≤ pieces.length)
    (ho : ∀ p, pieces[k]? = some p → o ≤ p.length) :
    (size ≤ ((pieces.drop k).flatten.drop o).length →
      ∃ s', DictStream.readDzipLoop Z L T init junk fuel s k o size = .ok s' ∧
        s'.rc = (if size = 0 then s.rc else some 0) ∧
        DictStream.DzipRead.Got Z content pos pieces init s s'
          (((pieces.drop k).flatten.drop o).take size)) ∧
    (((pieces.drop k).flatten.drop o).length < size →
      DictStream.readDzipLoop Z L T init junk fuel s k o size = .error .bounds) := by
  induction fuel generalizing s k o size with
  | zero => omega
  | succ fuel ih =>
    by_cases hsize : size = 0
    · subst hsize
      refine ⟨fun _ => ⟨s, ?_, (if_pos rfl).symm, ?_, ?_, fun j hj => Or.inl hj, h⟩,
        fun hlt => absurd hlt (Nat.not_lt_zero _)⟩
      · rw [DictStream.readDzipLoop, if_pos rfl]
      · rw [List.take_zero, List.append_nil]
      · rw [List.take_zero, List.length_nil, Nat.add_zero]
    · by_cases hlast : k = pieces.length
      · -- no chunk is left
        have hnil : (pieces.drop k).flatten.drop o = [] := by
          rw [hlast, List.drop_length, List.flatten_nil, List.drop_nil]
        rw [hnil, List.length_nil]
        refine ⟨fun hle => absurd (Nat.le_zero.1 hle) hsize, fun _ => ?_⟩
        rw [DictStream.readDzipLoop, if_neg hsize, DictStream.readChunk,
          h.get_beyond L T junk hlast.ge, error_bind, error_bind]
      · obtain ⟨p, hp⟩ : ∃ p, pieces[k]? = some p :=
          ⟨_, List.getElem?_eq_getElem (Nat.lt_of_le_of_ne hk hlast)⟩
        obtain ⟨s₁, hchunk, hrc, hgot⟩ := h.readChunk L junk hT size hp (ho p hp)
        have hround : DictStream.readDzipLoop Z L T init junk (fuel + 1) s k o size =
            DictStream.readDzipLoop Z L T init junk fuel s₁ (k + 1 : ℕ) 0
              (size - ((p.drop o).take size).length) := by
          rw [DictStream.readDzipLoop, if_neg hsize, hchunk, ok_bind]
          rfl
        obtain ⟨hih, hih'⟩ := @ih s₁ hgot.ready (k + 1) 0 (size - ((p.drop o).take size).length)
          (by omega) (by omega) fun p _ => Nat.zero_le _
        have hlen : ((p.drop o).take size).length = min size (p.drop o).length := List.length_take
        rw [hround, drop_piece hp (ho p hp), List.length_append]
        rw [List.drop_zero] at hih hih'
        constructor
        · intro hle
          obtain ⟨s₂, hs₂, hrc₂, hgot₂⟩ := hih (by omega)
          refine ⟨s₂, hs₂, ?_, ?_, ?_, ?_, hgot₂.ready⟩
          · rw [hrc₂, hrc, ite_self, if_neg hsize]
          · rw [hgot₂.data, hgot.data, List.append_assoc, take_pieces]
          · rw [hgot₂.offset, hgot.offset, Nat.add_assoc, ← List.length_append, take_pieces]
          · intro j hj
            rcases hgot₂.asked j hj with hj | hj
            · exact hgot.asked j hj
            · exact Or.inr hj
        · intro hlt
          exact hih' (by omega)

/-! ## Seeking and reading -/

/-- A chunk number is an `int`. -/
theorem bmod_eq {k : ℕ} (hk : k < 2 ^ 16) : Int.bmod k (2 ^ 32) = k := by
  rw [Int.bmod_def]
  omega

/-- There are rounds enough. -/
theorem Ready.rounds (h : Ready Z content pos pieces init str) (k : ℕ) :
    pieces.length + 1 ≤ k + (str.chunk.length + 2) := by
  have := h.file.count
  omega

/-- Where the read starts. -/
theorem Ready.readDzip_eq (L : Limits) (T : Transport σ) (junk : ℕ)
    (h : Ready Z content pos pieces init str) (hoff : str.offset ≤ str.size)
    (hpos : str.chunkSize ≠ 0) (size : ℕ) :
    str.readDzip Z L T init junk size =
      DictStream.readDzipLoop Z L T init junk (str.chunk.length + 2) ⟨none, [], [], str⟩
        (str.offset / str.chunkSize : ℕ) (str.offset % str.chunkSize) size := by
  have hcount := h.file.count_lt
  have hsize := h.file.chunkSize_lt
  rw [h.file.size] at hoff
  obtain ⟨hk, -, -⟩ := drop_pieces (by omega) h.file.full (fun p => h.file.fits) hoff
  have hdiv := Nat.div_add_mod str.offset str.chunkSize
  have hmul : str.chunkSize * (str.offset / str.chunkSize) < 2 ^ 32 := by
    have := Nat.mul_lt_mul'' hsize (show str.offset / str.chunkSize < 2 ^ 16 by omega)
    omega
  have hnum : Int.bmod (str.offset / str.chunkSize : ℕ) (2 ^ 32) =
      (str.offset / str.chunkSize : ℕ) := bmod_eq (by omega)
  have hmod := Nat.mod_lt str.offset (Nat.pos_of_ne_zero hpos)
  have hback : (((str.offset / str.chunkSize : ℕ) : ℤ) * str.chunkSize % 2 ^ 32).toNat =
      str.chunkSize * (str.offset / str.chunkSize) := by
    rw [← Int.natCast_mul, Nat.mul_comm]
    omega
  have hsub : DictStream.sizeSub str.offset (str.chunkSize * (str.offset / str.chunkSize)) =
      str.offset - str.chunkSize * (str.offset / str.chunkSize) := by
    refine sizeSub_eq ?_ ?_
    · omega
    · omega
  have hrest : str.offset - str.chunkSize * (str.offset / str.chunkSize) =
      str.offset % str.chunkSize := by
    omega
  rw [DictStream.readDzip, if_neg hpos]
  simp only [hnum, hback, hsub, hrest]

/-- **What a read is to give**: the bytes of the pieces from the offset on, as
many as were asked for or as there are, with the offset moved behind them,
and no chunk asked for that is not there. -/
def DictStream.ReadsRange (Z : Inflate) (L : Limits) (T : Transport σ) (init : Bool) (junk : ℕ)
    (pieces : List Bytes) (str : DictStream σ) (size : ℕ) : Prop :=
  ∃ r, str.readDzip Z L T init junk size = .ok r ∧ r.rc = some 0 ∧
    r.data = (pieces.flatten.drop str.offset).take (min size (str.size - str.offset)) ∧
    r.str.offset = str.offset + min size (str.size - str.offset) ∧
    ∀ k ∈ r.asked, k < str.chunk.length

/-- **A read inside the file**, of something, leaves the stream ready for the
next one. -/
theorem Ready.readsRange (L : Limits) (junk : ℕ) (hT : T.FileLike content pos)
    (h : Ready Z content pos pieces init str) {size : ℕ} (hsize : 0 < size)
    (hle : str.offset + size ≤ str.size) :
    str.ReadsRange Z L T init junk pieces size := by
  have hoff : str.offset ≤ pieces.flatten.length := by
    rw [← h.file.size]
    omega
  have hpos : str.chunkSize ≠ 0 := by
    intro hzero
    have := length_pieces_le fun p hp => h.file.fits hp
    rw [hzero, Nat.mul_zero, ← h.file.size] at this
    omega
  obtain ⟨hk, ho, hdrop⟩ := drop_pieces (Nat.pos_of_ne_zero hpos) h.file.full
    (fun p => h.file.fits) hoff
  have hstart : Ready Z content pos pieces init (⟨none, [], [], str⟩ : DictStream.DzipRead σ).str :=
    h
  obtain ⟨r, hr, hrc, hgot⟩ := (hstart.readLoop L junk hT _ (h.rounds _) hk ho).1 (by
    rw [hdrop, List.length_drop, ← h.file.size]
    omega : size ≤ _)
  have hmin : min size (str.size - str.offset) = size := by omega
  rw [hdrop] at hgot
  refine ⟨r, ?_, ?_, ?_, ?_, fun k hk => ?_⟩
  · rw [h.readDzip_eq L T junk (by omega) hpos, hr]
  · rw [hrc, if_neg (by omega)]
  · rw [hgot.data, List.nil_append, hmin]
  · have hlen : ((pieces.flatten.drop str.offset).take size).length = size := by
      rw [List.length_take, List.length_drop, ← h.file.size]
      omega
    rw [hgot.offset, hmin, hlen]
  · rw [h.file.count]
    exact (hgot.asked k hk).resolve_left List.not_mem_nil

/-- **A read of nothing, or beyond the end**, does not give it. -/
theorem Ready.not_readsRange (L : Limits) (junk : ℕ) (hT : T.FileLike content pos)
    (h : Ready Z content pos pieces init str) (hle : str.offset ≤ str.size) {size : ℕ}
    (hnot : ¬ (0 < size ∧ str.offset + size ≤ str.size)) :
    ¬ str.ReadsRange Z L T init junk pieces size := by
  rintro ⟨r, hr, hrc, -⟩
  by_cases hpos : str.chunkSize = 0
  · rw [DictStream.readDzip, if_pos hpos] at hr
    cases hr
  · rw [h.readDzip_eq L T junk hle hpos] at hr
    have hoff : str.offset ≤ pieces.flatten.length := by
      rw [← h.file.size]
      exact hle
    obtain ⟨hk, ho, hdrop⟩ := drop_pieces (Nat.pos_of_ne_zero hpos) h.file.full
      (fun p => h.file.fits) hoff
    have hstart : Ready Z content pos pieces init
        (⟨none, [], [], str⟩ : DictStream.DzipRead σ).str := h
    have hloop := @Ready.readLoop σ Z T content pos pieces init L junk hT _ _ hstart
      (str.offset / str.chunkSize) (str.offset % str.chunkSize) size (h.rounds _) hk ho
    rw [hdrop, List.length_drop, ← h.file.size] at hloop
    by_cases hsize : size = 0
    · subst hsize
      obtain ⟨r', hr', hrc', -⟩ := hloop.1 (Nat.zero_le _)
      rw [hr'] at hr
      obtain rfl := Except.ok.inj hr
      rw [hrc', if_pos rfl] at hrc
      cases hrc
    · rw [hloop.2 (by omega)] at hr
      cases hr

/-- **Random access**: from wherever `_dict_seek_dzip` put the offset,
`_dict_read_dzip` gives the bytes that were asked for exactly if it was
asked for some and for none beyond the end. -/
theorem dzip_readsRange_iff (L : Limits) (junk : ℕ) (hT : T.FileLike content pos)
    (h : Ready Z content pos pieces init str) {needle : ℤ} {whence : Whence}
    (hseek : SeekInRange pieces.flatten str.offset needle whence) (size : ℕ) :
    ∃ str', str.seekDzip needle whence =
        (0, seekTarget pieces.flatten str.offset needle whence, str') ∧
      (str'.offset : ℤ) = seekTarget pieces.flatten str.offset needle whence ∧
      (str'.ReadsRange Z L T init junk pieces size ↔
        0 < size ∧ str'.offset + size ≤ str'.size) := by
  obtain ⟨hnonneg, hle⟩ := hseek
  have htarget : str.seekOffset needle whence =
      seekTarget pieces.flatten str.offset needle whence := by
    cases whence with
    | set => rfl
    | cur => rfl
    | ofEnd => rw [DictStream.seekOffset, h.file.size, seekTarget]
  refine ⟨{ str with offset := (seekTarget pieces.flatten str.offset needle whence).toNat },
    ?_, ?_, ?_⟩
  · rw [DictStream.seekDzip, htarget, if_neg]
    rw [h.file.size]
    omega
  · exact Int.toNat_of_nonneg hnonneg
  · have hready := h.moved (seekTarget pieces.flatten str.offset needle whence).toNat
    constructor
    · intro hreads
      by_contra hnot
      refine hready.not_readsRange L junk hT ?_ hnot hreads
      show (seekTarget pieces.flatten str.offset needle whence).toNat ≤ str.size
      rw [h.file.size]
      omega
    · rintro ⟨hsize, hin⟩
      exact hready.readsRange L junk hT hsize hin

/-- The stream of three chunks is ready. -/
theorem ready_sampleStream :
    Ready sampleInflate sampleChunks.flatten id samplePieces true sampleStream where
  file := {
    count := rfl
    holds := by
      intro k c p hc hp
      match k with
      | 0 =>
        obtain rfl := Option.some.inj hc
        obtain rfl := Option.some.inj hp
        exact ⟨by decide, by decide, by decide +kernel, by decide⟩
      | 1 =>
        obtain rfl := Option.some.inj hc
        obtain rfl := Option.some.inj hp
        exact ⟨by decide, by decide, by decide +kernel, by decide⟩
      | 2 =>
        obtain rfl := Option.some.inj hc
        obtain rfl := Option.some.inj hp
        exact ⟨by decide, by decide, by decide +kernel, by decide⟩
    full := List.forall_mem_cons.2 ⟨rfl, List.forall_mem_cons.2 ⟨rfl, fun p hp => by cases hp⟩⟩
    size := rfl
    count_lt := by decide
    chunkSize_lt := by decide }
  plain := ⟨⟨rfl, rfl, rfl, rfl, Nat.zero_le _, fun h => by cases h⟩, rfl, rfl, rfl⟩
  engine := rfl
  room := by decide
  entries := fun cp h => by cases h

/-- Twenty bytes from the tenth on. -/
theorem dzip_reads_twenty : ∃ str', sampleStream.seekDzip 10 .set = (0, 10, str') ∧
    str'.ReadsRange sampleInflate ⟨1, 0, by decide⟩ (mapfile sampleChunks.flatten) true 0
      samplePieces 20 := by
  obtain ⟨str', hseek, hoff, hiff⟩ := dzip_readsRange_iff ⟨1, 0, by decide⟩ 0
    (mapfile_fileLike sampleChunks.flatten) ready_sampleStream
    (show SeekInRange samplePieces.flatten sampleStream.offset 10 .set by decide) 20
  have hstr : str' = { sampleStream with offset := 10 } :=
    (congrArg (fun r => r.2.2) hseek).symm
  rw [hstr] at hiff hseek
  exact ⟨_, hseek, hiff.2 (by decide)⟩

/-- Ten bytes from the thirtieth on, of thirty-six: six are there. -/
theorem dzip_beyond_end :
    Ready sampleInflate sampleChunks.flatten id samplePieces true sampleStream ∧
    (mapfile sampleChunks.flatten).FileLike sampleChunks.flatten id ∧
    sampleStream.seekDzip 30 .set = (0, 30, { sampleStream with offset := 30 }) ∧
    ¬ DictStream.ReadsRange sampleInflate ⟨1, 0, by decide⟩ (mapfile sampleChunks.flatten) true 0
      samplePieces { sampleStream with offset := 30 } 10 := by
  refine ⟨ready_sampleStream, mapfile_fileLike _, rfl, ?_⟩
  exact (ready_sampleStream.moved 30).not_readsRange _ 0 (mapfile_fileLike _) (by decide)
    (by decide)

end

end DictOrg

end Dico
