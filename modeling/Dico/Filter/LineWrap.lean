import Dico.Filter.Base64
import Dico.Filter.LineTrim
import Dico.Stream.Delivery
/-!
# What the line trimmer makes of a text

`dico_linetrim_stream` puts a line buffer of 1024 bytes in front of
`_linetrimstr_write`, so a text reaches the trimmer in chunks: a line, or
what was pending at a flush, or a full block. The column is kept from one
chunk to the next, and the start of the last word is not. On a chunk of
ASCII characters the trimmer writes all of it and puts newlines in
(`wrapChunk_spec`), unless the chunk starts in the last column with
something else than a newline: there is no word to move to the next line
then. `runPuts_wraps` follows a run of writes and flushes in which no
chunk does, and `linetrim_wraps` is what becomes of the text.
-/

namespace Dico

namespace Linetrim

open DicoStream

/-! ## The stream -/

/-- What the C code leaves open: what the width of an iterator on the stack
holds, and what memory has behind a buffer. -/
structure Surroundings where
  width : Linetrimstr → Bytes → ℕ
  behind : Linetrimstr → Bytes → ℕ → UInt8

/-- The memory from a buffer on. -/
def memory (buf : Bytes) (behind : ℕ → UInt8) (i : ℕ) : UInt8 := buf.getD i (behind i)

/-- Rounds enough for any scan that starts on a character. -/
def scanFuel (size maxlen : ℕ) : ℕ := 2 * passMax size maxlen + 2

/-- `_linetrimstr_write` as a transport's `write`. A scan without end has
no reply; it stands as a failure. -/
def trimWrite (E : Surroundings) (x : Linetrimstr) (buf : Bytes) : WriteReply × Linetrimstr :=
  match linetrimstrWrite (scanFuel buf.length x.maxlen) (E.width x buf) x
      (memory buf (E.behind x buf)) buf.length with
  | some (n, x') => (.ok n, x')
  | none => (.fail EIO, x)

/-- The transport of a line trimmer; `frc` is what a flush of the stream
behind it returns. -/
def trimTransport (E : Surroundings) (frc : ℕ) : Transport Linetrimstr where
  read := none
  write := some (trimWrite E)
  flush := some fun x => (frc, x)
  seek := none

/-- The size of the buffer. -/
def trimBufsize : ℕ := 1024

/-- `dico_linetrim_stream`, given the block `malloc` returned. -/
def dicoLinetrimStream (L : Limits) (E : Surroundings) (frc maxlen : ℕ) (block : Bytes) :
    Except Fault (ℕ × DicoStream × Linetrimstr) :=
  setBuffer L (trimTransport E frc) (create false true false) ⟨[], maxlen, 0⟩ .line (some block)

/-- A call of the user, on the stream and the trimmer. -/
def putStep (L : Limits) (E : Surroundings) (frc : ℕ) (p : Put) :
    DicoStream × Linetrimstr → Except Fault (DicoStream × Linetrimstr) :=
  Op.step L (trimTransport E frc) p.op

/-- All that was written to the transport. -/
def Linetrimstr.output (x : Linetrimstr) : Bytes := x.transport.map Prod.snd

/-- And that without the newlines the trimmer put in. -/
def Linetrimstr.kept (x : Linetrimstr) : Bytes :=
  (x.transport.filter fun b => !b.1).map Prod.snd

variable {E : Surroundings} {L : Limits} {x x' : Linetrimstr} {buf : Bytes} {frc n k : ℕ}

/-! ## A chunk of ASCII characters -/

/-- Neither a null byte nor beyond ASCII. -/
def Plain (c : UInt8) : Prop := c ≠ 0 ∧ c < 0x80

instance : DecidablePred Plain := fun c => inferInstanceAs (Decidable (c ≠ 0 ∧ c < 0x80))

theorem Plain.widthOf {c : UInt8} (h : Plain c) : widthOf c = 1 := by
  have hle : c ≤ 0x7f := by
    have := UInt8.lt_iff_toNat_lt.1 h.2
    exact UInt8.le_iff_toNat_le.2 (Nat.le_of_lt_succ this)
  rw [Linetrim.widthOf, utf8CharWidth, if_pos hle]

theorem memory_of_lt (behind : ℕ → UInt8) (h : k < buf.length) :
    memory buf behind k = buf.get ⟨k, h⟩ := by
  rw [memory, List.getD_eq_getElem?_getD, List.getElem?_eq_getElem h]
  rfl

/-- In plain text a character is a byte. -/
theorem charAt_plain (hplain : ∀ c ∈ buf, Plain c) (behind : ℕ → UInt8) (w₀ : ℕ)
    (hk : k ≤ buf.length) :
    (charAt (memory buf behind) w₀ k).cur = k ∧
      (k < buf.length → (charAt (memory buf behind) w₀ k).curwidth = 1) := by
  have hwidth : ∀ {i : ℕ}, i < buf.length → Plain (memory buf behind i) := by
    intro i hi
    rw [memory_of_lt behind hi]
    exact hplain _ (List.get_mem _ _)
  induction k with
  | zero =>
    refine ⟨rfl, fun hlt => ?_⟩
    have hw := (hwidth hlt).widthOf
    exact (widthAt_eq (by rw [hw]; decide)).trans hw
  | succ k ih =>
    obtain ⟨hcur, hcw⟩ := ih (by omega)
    have hne : ¬ memory buf behind (charAt (memory buf behind) w₀ k).cur = 0 := by
      rw [hcur]
      exact (hwidth (by omega)).1
    rw [charAt_succ, Iter.next, if_neg hne, hcur, hcw (by omega)]
    refine ⟨rfl, fun hlt => ?_⟩
    have hw := (hwidth hlt).widthOf
    exact (widthAt_eq (by rw [hw]; decide)).trans hw

/-- A chunk that starts in front of the last column, or with a newline. -/
def Fits (x : Linetrimstr) (buf : Bytes) : Prop :=
  x.linelen + 1 < x.maxlen ∨ buf.head? = some newline

instance (x : Linetrimstr) (buf : Bytes) : Decidable (Fits x buf) :=
  inferInstanceAs (Decidable (_ ∨ _))

/-- **The columns of the characters passed** are those of the text. -/
theorem colAt_plain (hplain : ∀ c ∈ buf, Plain c) (hfits : Fits x buf) (behind : ℕ → UInt8)
    (w₀ : ℕ) (hpass : ∀ k < n, Passes (memory buf behind) w₀ buf.length x.maxlen x.linelen k) :
    n ≤ buf.length ∧ colAt (memory buf behind) w₀ x.maxlen x.linelen n =
        column x.linelen (buf.take n) ∧ LinesLE x.maxlen x.linelen (buf.take n) := by
  induction n with
  | zero => exact ⟨Nat.zero_le _, rfl, trivial⟩
  | succ n ih =>
    obtain ⟨hle, hcol, hlines⟩ := ih fun k hk => hpass k (Nat.lt_succ_of_lt hk)
    obtain ⟨hlt, hc⟩ := hpass n (Nat.lt_succ_self n)
    rw [(charAt_plain hplain behind w₀ hle).1] at hlt hc
    have hmem := memory_of_lt behind hlt
    have htake : buf.take (n + 1) = buf.take n ++ [buf.get ⟨n, hlt⟩] :=
      List.take_succ_eq_append_getElem hlt
    -- the first character is a newline or in front of the last column, as the chunk fits
    have hc' : buf.get ⟨n, hlt⟩ = newline ∨ column x.linelen (buf.take n) + 1 < x.maxlen := by
      rw [hmem, hcol] at hc
      rcases hc with hc | hc | rfl
      · exact .inl hc
      · exact .inr hc
      · rcases hfits with hfits | hfits
        · exact .inr hfits
        · refine .inl ?_
          cases buf with
          | nil => exact absurd hlt (Nat.not_lt_zero 0)
          | cons b buf => exact Option.some.inj hfits
    rw [colAt, hcol, (charAt_plain hplain behind w₀ hle).1, hmem, htake, column_append,
      linesLE_append, colAfter]
    by_cases hnl : buf.get ⟨n, hlt⟩ = newline
    · rw [if_pos hnl, hnl]
      exact ⟨hlt, rfl, hlines, trivial⟩
    · have hlow := hc'.resolve_left hnl
      have hone : ∀ c, column c [buf.get ⟨n, hlt⟩] = c + 1 := fun c => if_neg hnl
      rw [if_neg hnl, if_neg (by omega), hone, LinesLE, if_neg hnl]
      exact ⟨hlt, rfl, hlines, by omega, trivial⟩

/-- What is written of a chunk is part of it. -/
theorem map_range_memory (behind : ℕ → UInt8) (hn : n ≤ buf.length) :
    (List.range n).map (memory buf behind) = buf.take n := by
  refine List.ext_getElem ?_ fun i hi hi' => ?_
  · rw [List.length_map, List.length_range, List.length_take, Nat.min_eq_left hn]
  · rw [List.length_map, List.length_range] at hi
    rw [List.getElem_map, List.getElem_range, memory_of_lt behind (Nat.lt_of_lt_of_le hi hn),
      List.getElem_take]
    rfl

/-- The trimmer writes some text: it puts newlines in and nothing else, no
line gets too long, and it knows the column. -/
structure Wrote (x : Linetrimstr) (w : Bytes) (x' : Linetrimstr) : Prop where
  maxlen : x'.maxlen = x.maxlen
  kept : x'.kept = x.kept ++ w
  lines : ∃ out, x'.output = x.output ++ out ∧ LinesLE x.maxlen x.linelen out ∧
    x'.linelen = column x.linelen out

theorem Wrote.refl (x : Linetrimstr) : Wrote x [] x :=
  ⟨rfl, (List.append_nil _).symm, [], (List.append_nil _).symm, trivial, rfl⟩

theorem Wrote.trans {u v : Bytes} {x₁ : Linetrimstr} (h : Wrote x u x₁) (h' : Wrote x₁ v x') :
    Wrote x (u ++ v) x' where
  maxlen := h'.maxlen.trans h.maxlen
  kept := by rw [h'.kept, h.kept, List.append_assoc]
  lines := by
    obtain ⟨out, hout, hlines, hcol⟩ := h.lines
    obtain ⟨out', hout', hlines', hcol'⟩ := h'.lines
    refine ⟨out ++ out', by rw [hout', hout, List.append_assoc], linesLE_append.2 ⟨hlines, ?_⟩, ?_⟩
    · rw [← hcol, ← h.maxlen]
      exact hlines'
    · rw [hcol', hcol, column_append]

/-- A part of the chunk goes out, with a newline behind it or without. -/
theorem wrote_found (behind : ℕ → UInt8) {r : Found} (hsize : r.psize ≤ buf.length)
    (hlines : LinesLE x.maxlen x.linelen (buf.take r.psize))
    (hcol : r.linelen = if r.nl then 0 else column x.linelen (buf.take r.psize)) :
    Wrote x (buf.take r.psize)
      ⟨x.transport ++ r.output (memory buf behind), x.maxlen, r.linelen⟩ := by
  have hbytes := map_range_memory behind hsize
  have hfilter : ∀ w : List ℕ, ((w.map fun i => (false, memory buf behind i)).filter
      fun b : Bool × UInt8 => !b.1) = w.map fun i => (false, memory buf behind i) := by
    intro w
    refine List.filter_eq_self.2 fun b hb => ?_
    obtain ⟨i, -, rfl⟩ := List.mem_map.1 hb
    rfl
  have hsnd : ((List.range r.psize).map fun i => (false, memory buf behind i)).map Prod.snd =
      buf.take r.psize := by
    rw [List.map_map, ← hbytes]
    rfl
  refine ⟨rfl, ?_, ?_⟩
  · rw [Linetrimstr.kept, Linetrimstr.kept, Found.output, List.filter_append, List.filter_append,
      hfilter, List.map_append, List.map_append, hsnd]
    cases r.nl with
    | false => exact congrArg _ (List.append_nil _)
    | true => exact congrArg _ (List.append_nil _)
  · refine ⟨buf.take r.psize ++ if r.nl then [newline] else [], ?_, ?_, ?_⟩
    · rw [Linetrimstr.output, Linetrimstr.output, Found.output, List.map_append, List.map_append,
        hsnd]
      cases r.nl with
      | false => rfl
      | true => rfl
    · refine linesLE_append.2 ⟨hlines, ?_⟩
      cases r.nl with
      | false => trivial
      | true => trivial
    · rw [hcol, column_append]
      cases r.nl with
      | false => rfl
      | true => rfl

/-- **One call of the trimmer**: it takes a part of the chunk, and if not
all of it, it has begun a new line. -/
theorem trimWrite_spec (hne : buf ≠ []) (hplain : ∀ c ∈ buf, Plain c) (hfits : Fits x buf) :
    ∃ n x', trimWrite E x buf = (.ok n, x') ∧ 0 < n ∧ n ≤ buf.length ∧
      Wrote x (buf.take n) x' ∧ (n < buf.length → x'.linelen = 0) := by
  set behind := E.behind x buf
  set w₀ := E.width x buf
  have hpos : 0 < buf.length := List.length_pos_of_ne_nil hne
  have hfirst : Plain (memory buf behind 0) := by
    rw [memory_of_lt behind hpos]
    exact hplain _ (List.get_mem _ _)
  have hhead : isWs (memory buf behind 0) →
      memory buf behind 0 = newline ∨ x.linelen + 1 < x.maxlen := by
    intro _
    refine hfits.symm.imp_left fun hfits => ?_
    rw [memory, List.getD_eq_getElem?_getD, ← List.head?_eq_getElem?, hfits]
    rfl
  obtain ⟨n, hn, hpass, hend⟩ := findEnd_spec (by rw [hfirst.widthOf]; decide) hfirst.1 w₀
    buf.length x.maxlen x.linelen hhead
  obtain ⟨hle, hcol, hlines⟩ := colAt_plain hplain hfits behind w₀ hpass
  have hfuel : 2 * n + 2 ≤ scanFuel buf.length x.maxlen := by
    rw [scanFuel]
    omega
  have hwrite : ∀ {r : Found},
      findEnd (scanFuel buf.length x.maxlen) (memory buf behind) w₀ buf.length x.maxlen x.linelen =
        some r → trimWrite E x buf = (.ok r.psize,
          ⟨x.transport ++ r.output (memory buf behind), x.maxlen, r.linelen⟩) := by
    intro r hr
    rw [trimWrite, linetrimstrWrite_eq_some.2 ⟨r, hr, rfl, rfl⟩]
  rw [(charAt_plain hplain behind w₀ hle).1] at hend
  rcases hend with ⟨hbehind, hfound⟩ | ⟨hlt, len, hlen, hlen', hfound⟩
  · obtain rfl : n = buf.length := Nat.le_antisymm hle hbehind
    refine ⟨_, _, hwrite (hfound _ hfuel), hpos, Nat.le_refl _,
      wrote_found behind (Nat.le_refl _) hlines hcol, fun h => absurd h (Nat.lt_irrefl _)⟩
  · have hle' : len ≤ buf.length := by omega
    refine ⟨_, _, hwrite (hfound _ hfuel), hlen, hle', wrote_found behind hle' ?_ rfl,
      fun _ => rfl⟩
    -- what comes before the break is part of what was passed
    rw [← List.take_append_drop len (buf.take n), List.take_take, Nat.min_eq_left hlen',
      linesLE_append] at hlines
    exact hlines.1

/-- **A whole chunk**: the write loop gets it out. -/
theorem writeLoop_trimWrite (hmax : 2 ≤ x.maxlen) (fuel : ℕ) (hfuel : buf.length ≤ fuel)
    (hplain : ∀ c ∈ buf, Plain c) (hfits : buf ≠ [] → Fits x buf) (out : ℕ) :
    ∃ x', writeLoop (trimWrite E) fuel buf out x = .ok (0, out + buf.length, x') ∧
      Wrote x buf x' := by
  induction fuel generalizing buf x out with
  | zero =>
    obtain rfl := List.length_eq_zero_iff.1 (Nat.le_zero.1 hfuel)
    exact ⟨x, rfl, Wrote.refl x⟩
  | succ fuel ih =>
    rw [writeLoop]
    by_cases hlen : buf.length = 0
    · obtain rfl := List.length_eq_zero_iff.1 hlen
      exact ⟨x, if_pos hlen, Wrote.refl x⟩
    have hne : buf ≠ [] := fun h => hlen (List.length_eq_zero_iff.2 h)
    obtain ⟨n, x₁, hwrite, hpos, hle, hwrote, hzero⟩ :=
      trimWrite_spec (E := E) hne hplain (hfits hne)
    -- the rest starts a line, and a line has room for two characters
    have hfits' : buf.drop n ≠ [] → Fits x₁ (buf.drop n) := by
      intro hrest
      have hlt : n < buf.length := by
        by_contra h
        exact hrest (List.drop_eq_nil_of_le (Nat.not_lt.1 h))
      refine .inl ?_
      rw [hzero hlt, hwrote.maxlen]
      omega
    obtain ⟨x', hrun, hwrote'⟩ := ih (by rw [hwrote.maxlen]; exact hmax)
      (by rw [List.length_drop]; omega) (fun c hc => hplain c (List.mem_of_mem_drop hc)) hfits'
      (out + n)
    have hwhole := hwrote.trans hwrote'
    rw [List.take_append_drop] at hwhole
    refine ⟨x', ?_, hwhole⟩
    rw [if_neg hlen, hwrite]
    simp only [if_neg (Nat.ne_of_gt hpos), if_neg (Nat.not_lt.2 hle), hrun, List.length_drop]
    congr 3
    omega

/-! ## Runs -/

/-- The state of the trimmer after a chunk. -/
def wrapChunk (E : Surroundings) (x : Linetrimstr) (buf : Bytes) : Linetrimstr :=
  match writeLoop (trimWrite E) buf.length buf 0 x with
  | .ok (_, _, x') => x'
  | .error _ => x

/-- What is asked of a chunk and of the trimmer it comes to. -/
def Admits (x : Linetrimstr) (buf : Bytes) : Prop :=
  2 ≤ x.maxlen ∧ (∀ c ∈ buf, Plain c) ∧ Fits x buf

theorem wrapChunk_spec (h : Admits x buf) :
    writeLoop (trimWrite E) buf.length buf 0 x = .ok (0, buf.length, wrapChunk E x buf) ∧
      Wrote x buf (wrapChunk E x buf) := by
  obtain ⟨hmax, hplain, hfits⟩ := h
  obtain ⟨x', hrun, hwrote⟩ := writeLoop_trimWrite (E := E) hmax buf.length (Nat.le_refl _) hplain
    (fun _ => hfits) 0
  rw [Nat.zero_add] at hrun
  have hx' : wrapChunk E x buf = x' := by rw [wrapChunk, hrun]
  rw [hx']
  exact ⟨hrun, hwrote⟩

/-- **The transport takes the chunks it admits.** -/
theorem trimTransport_feedsOn (E : Surroundings) (frc : ℕ) :
    (trimTransport E frc).FeedsOn id (wrapChunk E) Admits where
  writes := fun h => nomatch h
  takes := by
    intro st x buf hcan herr hne hadmits
    obtain ⟨hrun, -⟩ := wrapChunk_spec (E := E) hadmits
    obtain ⟨st', hw, hf, herr'⟩ := writeUnbuffered_of_loop (T := trimTransport E frc) rfl hcan herr
      hne hrun
    exact ⟨st', _, hw, hf, herr', rfl⟩
  flushes := by
    intro fl hfl x
    obtain rfl := Option.some.inj hfl
    rfl

/-- Chunks of plain text that fit are admitted, and are all written. -/
theorem admitted_of_fits {cs : List Bytes} (hmax : 2 ≤ x.maxlen)
    (hplain : ∀ c ∈ cs.flatten, Plain c) (h : Admitted Fits (wrapChunk E) x cs) :
    Admitted Admits (wrapChunk E) x cs ∧ Wrote x cs.flatten (cs.foldl (wrapChunk E) x) := by
  induction cs generalizing x with
  | nil => exact ⟨trivial, Wrote.refl x⟩
  | cons c cs ih =>
    rw [List.flatten_cons] at hplain ⊢
    have hadmits : Admits x c :=
      ⟨hmax, fun b hb => hplain b (List.mem_append_left _ hb), h.1⟩
    obtain ⟨-, hwrote⟩ := wrapChunk_spec (E := E) hadmits
    obtain ⟨hrest, hwrote'⟩ := ih (by rw [hwrote.maxlen]; exact hmax)
      (fun b hb => hplain b (List.mem_append_right _ hb)) h.2
    exact ⟨⟨hadmits, hrest⟩, hwrote.trans hwrote'⟩

/-- The call lets no chunk go that starts in the last column with anything
but a newline. -/
def PutFits (E : Surroundings) (p : Put) (s : DicoStream × Linetrimstr) : Prop :=
  Admitted Fits (wrapChunk E) s.2 (p.spills s.1).1

/-- **One call** that fits. -/
theorem putStep_wraps (L : Limits) (frc : ℕ) {st : DicoStream} (hst : Ready st)
    (hmax : 2 ≤ x.maxlen) (p : Put) (hplain : ∀ c ∈ st.window ++ p.bytes, Plain c)
    (hfits : PutFits E p (st, x)) :
    ∃ st' x' w, putStep L E frc p (st, x) = .ok (st', x') ∧ Ready st' ∧ Wrote x w x' ∧
      w ++ st'.window = st.window ++ p.bytes ∧ (p = .flush → st'.window = []) := by
  have hflat := p.flatten_spills hst
  have hpart : ∀ c ∈ (p.spills st).1.flatten, Plain c := by
    intro c hc
    refine hplain c ?_
    rw [← hflat]
    exact List.mem_append_left _ hc
  obtain ⟨hadm, hwrote⟩ := admitted_of_fits hmax hpart hfits
  obtain ⟨st', x', hrun, hst', -, hwin, hobs⟩ :=
    put_admitted (L := L) (trimTransport_feedsOn E frc) hst x p hadm
  have hx' : x' = (p.spills st).1.foldl (wrapChunk E) x := hobs
  refine ⟨st', x', _, hrun, hst', hx' ▸ hwrote, hwin ▸ hflat, ?_⟩
  rintro rfl
  rw [hwin]
  exact spill_all hst.buftype

/-- **Writes and flushes that all fit**: what the trimmer has written and
what is pending is the text, newlines put in apart. -/
theorem runPuts_wraps {st : DicoStream} (hst : Ready st) (hmax : 2 ≤ x.maxlen) (ps : List Put)
    (hplain : ∀ c ∈ st.window ++ written ps, Plain c)
    (hfits : Run.Guarded (putStep L E frc) (PutFits E) ps (st, x)) :
    ∃ st' x' w, Run.run (putStep L E frc) ps (st, x) = .ok (st', x') ∧ Wrote x w x' ∧
      w ++ st'.window = st.window ++ written ps ∧
      (ps.getLast? = some .flush → st'.window = []) := by
  induction ps generalizing st x with
  | nil =>
    refine ⟨st, x, [], rfl, Wrote.refl x, ?_, fun h => nomatch h⟩
    rw [List.nil_append, written, List.flatMap_nil, List.append_nil]
  | cons p ps ih =>
    have hsplit : written (p :: ps) = p.bytes ++ written ps := List.flatMap_cons
    obtain ⟨st₁, x₁, u, hstep, hst₁, hwrote, hsame, hflush⟩ := putStep_wraps L frc hst
      hmax p (fun c hc => hplain c (by
        rw [hsplit, ← List.append_assoc]
        exact List.mem_append_left _ hc)) hfits.1
    have hplain₁ : ∀ c ∈ st₁.window ++ written ps, Plain c := by
      intro c hc
      refine hplain c ?_
      rw [hsplit, ← List.append_assoc, ← hsame, List.append_assoc]
      exact List.mem_append_right _ hc
    obtain ⟨st', x', v, hrun, hwrote', hsame', hlast⟩ :=
      ih hst₁ (by rw [hwrote.maxlen]; exact hmax) hplain₁ (hfits.2 _ hstep)
    refine ⟨st', x', u ++ v, ?_, hwrote.trans hwrote', ?_, fun h => ?_⟩
    · rw [Run.run, hstep, ok_bind, hrun]
    · rw [List.append_assoc, hsame', ← List.append_assoc, hsame, hsplit, List.append_assoc]
    · cases ps with
      | nil =>
        cases hrun
        exact hflush (Option.some.inj h)
      | cons q ps => exact hlast h

/-- The stream as `dico_linetrim_stream` leaves it. -/
theorem dicoLinetrimStream_eq (frc maxlen : ℕ) {block : Bytes}
    (hblock : block.length = trimBufsize) :
    dicoLinetrimStream L E frc maxlen block =
      .ok (0, opened false true .line block, ⟨[], maxlen, 0⟩) :=
  setBuffer_create false true (by decide) (by rw [hblock]; decide) _

/-- It is ready to be written to. -/
theorem ready_trimStream {block : Bytes} (hblock : block.length = trimBufsize) :
    Ready (opened false true .line block) :=
  ⟨⟨rfl, rfl⟩, rfl, BufferType.noConfusion, Nat.lt_of_lt_of_eq (by decide) hblock.symm, rfl,
    Nat.zero_le _, fun h => absurd rfl h⟩

/-- What has become of a text after some writes and flushes, and a last
flush. -/
def linetrimmed (L : Limits) (E : Surroundings) (frc maxlen : ℕ) (block : Bytes) (ps : List Put) :
    Except Fault Linetrimstr := do
  let (_, st, x) ← dicoLinetrimStream L E frc maxlen block
  let (_, x') ← Run.run (putStep L E frc) (ps ++ [.flush]) (st, x)
  .ok x'

/-- **What the line trimmer makes of an ASCII text**: the text with
newlines put in, and no line too long, in every run of writes and
flushes in which no chunk starts in the last column with anything but a
newline, on a text without null bytes. -/
theorem linetrim_wraps {maxlen : ℕ} (hmax : 2 ≤ maxlen) {block : Bytes}
    (hblock : block.length = trimBufsize) (ps : List Put) (hascii : ∀ c ∈ written ps, c < 0x80)
    (hnull : 0 ∉ written ps)
    (hfits : Run.Guarded (putStep L E frc) (PutFits E) (ps ++ [.flush])
      (opened false true .line block, ⟨[], maxlen, 0⟩)) :
    ∃ x', linetrimmed L E frc maxlen block ps = .ok x' ∧ x'.kept = written ps ∧
      LinesLE maxlen 0 x'.output := by
  have hst := ready_trimStream hblock
  have hwritten : written (ps ++ [.flush]) = written ps := by
    rw [written, List.flatMap_append]
    exact List.append_nil _
  obtain ⟨st', x', w, hrun, hwrote, hsame, hlast⟩ := runPuts_wraps hst hmax (ps ++ [.flush])
    (by
      rw [hwritten]
      exact fun c hc => ⟨fun h0 => hnull (h0 ▸ hc), hascii c hc⟩) hfits
  have hnil := hlast List.getLast?_concat
  have hw : w = written ps := by
    rw [hnil, List.append_nil, hwritten] at hsame
    exact hsame
  obtain ⟨out, hout, hlines, -⟩ := hwrote.lines
  refine ⟨x', ?_, ?_, ?_⟩
  · simp only [linetrimmed, dicoLinetrimStream_eq frc maxlen hblock, ok_bind, hrun]
  · rw [hwrote.kept, hw]
    rfl
  · rw [hout]
    exact hlines

/-- Nothing leaves a line buffer before it is full or has a newline. -/
theorem feed_of_short {size : ℕ} {w buf : Bytes} (hnl : newline ∉ w ++ buf)
    (hlen : (w ++ buf).length < size) : feed .line size w buf = ([], w ++ buf) := by
  have hvent : ∀ v : Bytes, newline ∉ v → v.length < size → vent .line size v = ([], v) := by
    intro v hv hlt
    have hripe : ¬ ripe .line size v = true := by
      rw [ripe, Bool.or_eq_true, beq_iff_eq, decide_eq_true_iff, not_or]
      exact ⟨Nat.ne_of_lt hlt, hv⟩
    rw [vent, if_neg hripe]
  rw [List.length_append] at hlen
  have hw := hvent w (fun h => hnl (List.mem_append_left _ h)) (by omega)
  have hn : min (size - w.length) buf.length = buf.length := by omega
  cases buf with
  | nil => rw [feed_nil, hw, List.append_nil]
  | cons b buf =>
    rw [feed_of_pos (by rw [hw, hn, List.length_cons]; omega), hw, hn, List.take_length,
      List.drop_length, feed_nil, hvent _ hnl (by rw [List.length_append]; omega), List.nil_append]

/-- Memory with nothing in it. -/
def emptyMemory : Surroundings := ⟨fun _ _ => 0, fun _ _ _ => 0⟩

/-- A block as large as the buffer. -/
def zeros : Bytes := List.replicate trimBufsize 0

theorem length_zeros : zeros.length = trimBufsize := List.length_replicate

/-- `ab` in lines of three. -/
theorem linetrim_wraps_word :
    ∃ x', linetrimmed ample emptyMemory 0 3 zeros [.write [97, 98]] = .ok x' ∧
      x'.kept = [97, 98] ∧ LinesLE 3 0 x'.output := by
  refine linetrim_wraps (by decide) length_zeros [.write [97, 98]]
    (forall_mem_of_all (by decide)) (by decide) ?_
  generalize hdef : opened false true .line zeros = st
  have hst : Ready st := hdef ▸ ready_trimStream length_zeros
  -- the write lets nothing go
  have hfeed : feed st.buftype st.bufsize st.window [97, 98] = ([], [97, 98]) := by
    have hsize : st.bufsize = trimBufsize := by
      rw [← hdef]
      exact length_zeros
    rw [hsize, ← hdef]
    exact feed_of_short (by decide) (by decide)
  refine ⟨?_, fun s' hs' => ⟨?_, fun _ _ => trivial⟩⟩
  · rw [PutFits, Put.spills, hfeed]
    trivial
  · have hok : Admitted Admits (wrapChunk emptyMemory) (id ⟨[], 3, 0⟩)
        (Put.spills st (.write [97, 98])).1 := by
      rw [Put.spills, hfeed]
      trivial
    obtain ⟨st', x', hrun, -, hshape, hwin, hobs⟩ := put_admitted (L := ample)
      (trimTransport_feedsOn emptyMemory 0) hst ⟨[], 3, 0⟩ (.write [97, 98]) hok
    rw [Put.spills, hfeed] at hwin hobs
    have hx' : x' = ⟨[], 3, 0⟩ := hobs
    have htype : st'.buftype = .line := hshape.buftype.trans (by rw [← hdef]; rfl)
    rw [putStep, hrun] at hs'
    cases hs'
    -- and the flush lets the word go, in the first column
    rw [PutFits, Put.spills, htype, hwin, hx', spill, if_pos (.inl rfl)]
    exact ⟨.inl (show 0 + 1 < 3 by decide), trivial⟩

/-- **A space behind `a` in a line of two**: where the two come in chunks
of their own, the space is lost. -/
theorem not_linetrim_wraps :
    ¬ ∀ (maxlen : ℕ) (block : Bytes) (ps : List Put), 2 ≤ maxlen → block.length = trimBufsize →
      (∀ c ∈ written ps, c < 0x80) →
        ∃ x', linetrimmed ample emptyMemory 0 maxlen block ps = .ok x' ∧ x'.kept = written ps ∧
          LinesLE maxlen 0 x'.output := by
  intro hall
  obtain ⟨x', hrun, hkept, -⟩ := hall 2 zeros [.write [97], .flush, .write [32]]
    (by decide) length_zeros (forall_mem_of_all (by decide))
  have hlost : (linetrimmed ample emptyMemory 0 2 zeros
      [.write [97], .flush, .write [32]]).toOption.map Linetrimstr.kept = some [97] := by
    decide +kernel
  rw [hrun] at hlost
  exact absurd (hkept.symm.trans (Option.some.inj hlost)) (by decide)

end Linetrim

end Dico
