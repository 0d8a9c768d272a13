import Dico.Filter.Model
/-!
# What the base64 filter does

One specification for each function of the filter, under the base64
encoder and over a transport that takes everything: the encoder
(`fltBase64Encode_spec`), the flush in lines (`flush_spec`), one call of
the filter (`write_spec`), one write of the stream (`writeLoop_spec`) and
its flush (`wrFlush_spec`). A write regroups its bytes in threes through
the side buffer as `encodeStep` says.
-/

namespace Dico

open DicoStream

/-! ## The encoder -/

theorem b64char_eq_digit {n : ℕ} (hn : n < 64) : b64char n = Base64.digit n := by
  have h : ∀ k : Fin 64, b64char k = Base64.digit k := by decide
  exact h ⟨n, hn⟩

/-- One round encodes three bytes. -/
theorem b64round_three (a b c : UInt8) :
    b64round a.toNat (b.toNat >>> 4) (b64x b.toNat (c.toNat >>> 6)) (b64char (c.toNat &&& 0x3f)) =
      Base64.digits (Base64.triple a b c) := by
  have ha := a.toNat_lt
  have hb := b.toNat_lt
  have hc := c.toNat_lt
  have h1 : a.toNat >>> 2 = Base64.triple a b c / 2 ^ 18 % 64 := by
    rw [Nat.shiftRight_eq_div_pow, Base64.triple]
    omega
  have h2 : ((a.toNat <<< 4) + (b.toNat >>> 4)) &&& 0x3f =
      Base64.triple a b c / 2 ^ 12 % 64 := by
    rw [Nat.and_two_pow_sub_one_eq_mod _ 6, Nat.shiftLeft_eq, Nat.shiftRight_eq_div_pow,
      Base64.triple]
    omega
  have h3 : ((b.toNat <<< 2) + (c.toNat >>> 6)) &&& 0x3f = Base64.triple a b c / 2 ^ 6 % 64 := by
    rw [Nat.and_two_pow_sub_one_eq_mod _ 6, Nat.shiftLeft_eq, Nat.shiftRight_eq_div_pow,
      Base64.triple]
    omega
  have h4 : c.toNat &&& 0x3f = Base64.triple a b c % 64 := by
    rw [Nat.and_two_pow_sub_one_eq_mod _ 6, Base64.triple]
    omega
  rw [b64round, b64x, h1, h2, h3, h4, Base64.digits]
  simp only [b64char_eq_digit (Nat.mod_lt _ (by decide : 64 > 0))]

theorem b64round_two (a b : UInt8) :
    b64round a.toNat (b.toNat >>> 4) (b64x b.toNat 0) Base64.padding = Base64.encode [a, b] := by
  have h : b64round a.toNat (b.toNat >>> 4) (b64x b.toNat 0) Base64.padding =
      (b64round a.toNat (b.toNat >>> 4) (b64x b.toNat ((0 : UInt8).toNat >>> 6))
        (b64char ((0 : UInt8).toNat &&& 0x3f))).take 3 ++ [Base64.padding] := rfl
  rw [h, b64round_three, Base64.encode]

theorem b64round_one (a : UInt8) :
    b64round a.toNat 0 Base64.padding Base64.padding = Base64.encode [a] := by
  have h : b64round a.toNat 0 Base64.padding Base64.padding =
      (b64round a.toNat ((0 : UInt8).toNat >>> 4)
        (b64x (0 : UInt8).toNat ((0 : UInt8).toNat >>> 6))
        (b64char ((0 : UInt8).toNat &&& 0x3f))).take 2 ++ [Base64.padding, Base64.padding] := rfl
  rw [h, b64round_three, Base64.encode]

/-- The rounds encode a multiple of three bytes, as many as there are and
as there is room for. -/
theorem b64rounds_spec (osize : ℕ) (inp : Bytes) :
    ∃ n, b64rounds osize inp = (n, Base64.encode (inp.take n)) ∧ n ≤ inp.length ∧ n % 3 = 0 ∧
      n / 3 * 4 ≤ osize ∧ (3 ≤ inp.length → 4 ≤ osize → 0 < n) := by
  fun_induction b64rounds osize inp with
  | case1 osize a b c rest hroom r ih =>
    obtain ⟨n, hr, hle, hmod, hlen, -⟩ := ih
    refine ⟨n + 3, ?_, ?_, by omega, by omega, fun _ _ => Nat.succ_pos _⟩
    · have htake : (a :: b :: c :: rest).take (n + 3) = a :: b :: c :: rest.take n := rfl
      rw [b64round_three, htake, Base64.encode]
      simp only [r, hr]
    · simp only [List.length_cons]
      omega
  | case2 osize a b c rest hroom =>
    exact ⟨0, rfl, Nat.zero_le _, rfl, Nat.zero_le _, fun _ h => absurd h hroom⟩
  | case3 inp osize hshort =>
    refine ⟨0, rfl, Nat.zero_le _, rfl, Nat.zero_le _, fun h => ?_⟩
    rcases inp with - | ⟨a, - | ⟨b, - | ⟨c, rest⟩⟩⟩
    · exact absurd h (by decide)
    · exact absurd h (show ¬ 3 ≤ 1 by decide)
    · exact absurd h (show ¬ 3 ≤ 2 by decide)
    · exact absurd rfl (hshort a b c rest)

/-- **What the encoder does with room for four characters**: it encodes
some of the input from its start, all of it if that is at most three
bytes and a multiple of three bytes otherwise. -/
theorem fltBase64Encode_spec {inp : Bytes} {osize : ℕ} (hne : inp ≠ []) (hsize : 4 ≤ osize) :
    ∃ n, fltBase64Encode inp osize = (n, Base64.encode (inp.take n)) ∧ 0 < n ∧ n ≤ inp.length ∧
      (inp.length ≤ 3 → n = inp.length) ∧ (3 < inp.length → n % 3 = 0) ∧
      (Base64.encode (inp.take n)).length ≤ osize := by
  match inp with
  | [] => exact absurd rfl hne
  | [a] =>
    exact ⟨1, Prod.ext rfl (b64round_one a), by decide, Nat.le_refl _, fun _ => rfl,
      fun h => absurd h (show ¬ 3 < 1 by decide), hsize⟩
  | [a, b] =>
    exact ⟨2, Prod.ext rfl (b64round_two a b), by decide, Nat.le_refl _, fun _ => rfl,
      fun h => absurd h (show ¬ 3 < 2 by decide), hsize⟩
  | [a, b, c] =>
    refine ⟨3, Prod.ext rfl (b64round_three a b c), by decide, Nat.le_refl _, fun _ => rfl,
      fun h => absurd h (show ¬ 3 < 3 by decide), hsize⟩
  | a :: b :: c :: d :: rest =>
    have hlong : 3 < (a :: b :: c :: d :: rest).length := by
      simp only [List.length_cons]
      omega
    obtain ⟨n, h, hle, hmod, hroom, hpos⟩ := b64rounds_spec osize (a :: b :: c :: d :: rest)
    refine ⟨n, h, hpos (Nat.le_of_lt hlong) hsize, hle, fun h => absurd hlong (Nat.not_lt.2 h),
      fun _ => hmod, ?_⟩
    rw [Base64.length_encode, List.length_take, Nat.min_eq_left hle]
    omega

/-! ## Lines -/

/-- No line is longer than `m`, where `k` characters of the first one have
gone before. -/
def LinesLE (m : ℕ) : ℕ → Bytes → Prop
  | _, [] => True
  | k, b :: bs => if b = newline then LinesLE m 0 bs else k + 1 ≤ m ∧ LinesLE m (k + 1) bs

/-- The length of the line a text ends in, where `k` characters of the
first one have gone before. -/
def column (k : ℕ) (w : Bytes) : ℕ := w.foldl (fun k b => if b = newline then 0 else k + 1) k

/-- A text without its newlines. -/
def strip (w : Bytes) : Bytes := w.filter (· ≠ newline)

section Lines

variable {m k : ℕ} {u v : Bytes}

theorem linesLE_append : LinesLE m k (u ++ v) ↔ LinesLE m k u ∧ LinesLE m (column k u) v := by
  induction u generalizing k with
  | nil => exact ⟨fun h => ⟨trivial, h⟩, fun h => h.2⟩
  | cons b u ih =>
    rw [List.cons_append, LinesLE, LinesLE, column, List.foldl_cons]
    split_ifs
    · exact ih
    · rw [and_assoc]
      exact and_congr_right fun _ => ih

theorem column_append : column k (u ++ v) = column (column k u) v := List.foldl_append

theorem linesLE_of_notMem (hv : newline ∉ v) (h : k + v.length ≤ m) :
    LinesLE m k v ∧ column k v = k + v.length := by
  induction v generalizing k with
  | nil => exact ⟨trivial, rfl⟩
  | cons b v ih =>
    rw [List.mem_cons, not_or] at hv
    rw [List.length_cons] at h
    obtain ⟨h1, h2⟩ := ih (k := k + 1) hv.2 (by omega)
    have hb : ¬ b = newline := Ne.symm hv.1
    refine ⟨?_, ?_⟩
    · rw [LinesLE, if_neg hb]
      exact ⟨by omega, h1⟩
    · rw [column, List.foldl_cons, if_neg hb]
      rw [column] at h2
      rw [h2, List.length_cons]
      omega

theorem strip_append : strip (u ++ v) = strip u ++ strip v := List.filter_append _ _

theorem strip_eq_self (hv : newline ∉ v) : strip v = v :=
  List.filter_eq_self.2 fun _ hb => decide_eq_true fun h => hv (h ▸ hb)

end Lines

/-! ## The filter -/

namespace FilterStream

variable {τ : Type} {S : Sink τ} {log : τ → Bytes} {fs : FilterStream τ}

/-- Passing a text on piece by piece puts newlines into it and nothing
else, and no line gets too long. -/
theorem flushPieces_spec (hS : S.Delivers log) (fuel : ℕ) (buf : Bytes) (hbuf : newline ∉ buf)
    (hroom : fs.lineLength < fs.maxLineLength) (hfuel : buf.length ≤ fuel) :
    ∃ t w, flushPieces S fuel fs buf =
        (0, { fs with transport := t, lineLength := column fs.lineLength w }) ∧
      log t = log fs.transport ++ w ∧ strip w = buf ∧
      LinesLE fs.maxLineLength fs.lineLength w ∧
      column fs.lineLength w < fs.maxLineLength := by
  induction fuel generalizing fs buf with
  | zero =>
    obtain rfl := List.length_eq_zero_iff.1 (Nat.le_zero.1 hfuel)
    exact ⟨fs.transport, [], rfl, (List.append_nil _).symm, rfl, trivial, hroom⟩
  | succ fuel ih =>
    by_cases hlen : buf.length = 0
    · obtain rfl := List.length_eq_zero_iff.1 hlen
      exact ⟨fs.transport, [], rfl, (List.append_nil _).symm, rfl, trivial, hroom⟩
    set n := min (fs.maxLineLength - fs.lineLength) buf.length with hn
    have hpiece : fs.pieceLength buf = (n, false) := if_neg hbuf
    have htake : newline ∉ buf.take n := fun h => hbuf (List.mem_of_mem_take h)
    have hdrop : newline ∉ buf.drop n := fun h => hbuf (List.mem_of_mem_drop h)
    have hlenn : (buf.take n).length = n := by
      rw [List.length_take]
      omega
    obtain ⟨hle, hcol⟩ := linesLE_of_notMem (m := fs.maxLineLength) (k := fs.lineLength) htake
      (by rw [hlenn]; omega)
    rw [hlenn] at hcol
    rw [flushPieces, if_neg hlen, hpiece]
    simp only [hS.write_ok, ne_eq, not_true_eq_false, if_false, Bool.false_eq_true, breakLine]
    by_cases hfull : fs.lineLength + n = fs.maxLineLength
    · -- the line is full: a newline goes out too, and the next one starts
      have hend : column fs.lineLength (buf.take n ++ [newline]) = 0 := by
        rw [column_append]
        rfl
      obtain ⟨t, w, hrun, hlog, hstrip, hlines, hlast⟩ :=
        @ih { fs with transport := (S.write (S.write fs.transport (buf.take n)).2 [newline]).2,
                      lineLength := 0 }
          (buf.drop n) hdrop (Nat.lt_of_le_of_lt (Nat.zero_le _) hroom)
          (by rw [List.length_drop]; omega)
      refine ⟨t, buf.take n ++ [newline] ++ w, ?_, ?_, ?_, ?_, ?_⟩
      · simp only [if_pos hfull, not_true_eq_false, if_false, hrun]
        rw [column_append, hend]
      · rw [hlog, hS.write_log, hS.write_log]
        simp only [List.append_assoc]
      · rw [strip_append, strip_append, strip_eq_self htake, hstrip]
        exact (congrArg (· ++ buf.drop n) (List.append_nil _)).trans (List.take_append_drop n buf)
      · rw [linesLE_append, hend, linesLE_append]
        exact ⟨⟨hle, trivial⟩, hlines⟩
      · rw [column_append, hend]
        exact hlast
    · obtain ⟨t, w, hrun, hlog, hstrip, hlines, hlast⟩ :=
        @ih { fs with transport := (S.write fs.transport (buf.take n)).2,
                      lineLength := fs.lineLength + n }
          (buf.drop n) hdrop (show fs.lineLength + n < fs.maxLineLength by omega)
          (by rw [List.length_drop]; omega)
      refine ⟨t, buf.take n ++ w, ?_, ?_, ?_, ?_, ?_⟩
      · simp only [if_neg hfull, not_true_eq_false, if_false, hrun]
        rw [column_append, hcol]
      · rw [hlog, hS.write_log, List.append_assoc]
      · rw [strip_append, strip_eq_self htake, hstrip, List.take_append_drop]
      · rw [linesLE_append, hcol]
        exact ⟨hle, hlines⟩
      · rw [column_append, hcol]
        exact hlast

/-- A base64 stream between two calls, over a transport that has taken only
what it passed on. -/
structure Filling (log : τ → Bytes) (fs : FilterStream τ) : Prop where
  minLevel : fs.minLevel = 3
  maxLineLength : fs.maxLineLength = 76
  lineLength : fs.lineLength = column 0 (log fs.transport)
  room : fs.lineLength < 76
  lines : LinesLE 76 0 (log fs.transport)
  noNewline : newline ∉ fs.buf
  groups : fs.buf.length % 4 = 0
  bounds : fs.buf.length ≤ filterBsize

/-- The characters that have come out of the encoder. -/
def chars (log : τ → Bytes) (fs : FilterStream τ) : Bytes := strip (log fs.transport) ++ fs.buf

/-- **A flush passes the buffer on.** -/
theorem flush_spec (hS : S.Delivers log) (h : Filling log fs) :
    ∃ fs', fs.flush S = (0, fs') ∧ Filling log fs' ∧ fs'.buf = [] ∧ fs'.inbuf = fs.inbuf ∧
      fs'.chars log = fs.chars log := by
  unfold flush
  by_cases hbuf : fs.buf.length = 0
  · exact ⟨fs, if_pos hbuf, h, List.length_eq_zero_iff.1 hbuf, rfl, rfl⟩
  obtain ⟨t, w, hrun, hlog, hstrip, hlines, hlast⟩ := flushPieces_spec hS fs.buf.length fs.buf
    h.noNewline (by rw [h.maxLineLength]; exact h.room) (Nat.le_refl _)
  have hmax : ¬ fs.maxLineLength = 0 := by rw [h.maxLineLength]; decide
  rw [h.maxLineLength] at hlines hlast
  rw [if_neg hbuf, if_neg hmax, hrun]
  refine ⟨_, rfl, ⟨h.minLevel, h.maxLineLength, ?_, hlast, ?_, List.not_mem_nil, rfl,
    Nat.zero_le _⟩, rfl, rfl, ?_⟩
  · simp only [if_true]
    rw [hlog, column_append, ← h.lineLength]
  · simp only [if_true]
    rw [hlog, linesLE_append, ← h.lineLength]
    exact ⟨h.lines, hlines⟩
  · simp only [if_true, chars]
    rw [hlog, strip_append, hstrip, List.append_nil]

theorem makeRoom_spec (hS : S.Delivers log) (h : Filling log fs) :
    ∃ fs', fs.makeRoom S = (0, fs') ∧ Filling log fs' ∧ fs'.inbuf = fs.inbuf ∧
      fs'.chars log = fs.chars log ∧ fs'.buf.length + 4 ≤ filterBsize := by
  unfold makeRoom
  by_cases hfull : filterBsize - fs.minLevel ≤ fs.buf.length
  · obtain ⟨fs', hrun, hfs', hbuf, hin, hchars⟩ := flush_spec hS h
    rw [if_pos hfull]
    refine ⟨fs', hrun, hfs', hin, hchars, ?_⟩
    rw [hbuf]
    decide
  · -- the buffer holds groups of four, so that room for three is room for four
    rw [if_neg hfull]
    refine ⟨fs, rfl, h, rfl, rfl, ?_⟩
    have := h.groups
    rw [h.minLevel, filterBsize] at hfull
    rw [filterBsize]
    omega

/-- **What `filter_write0` encodes**: some of the input from its start, all
of it if that is at most three bytes and a multiple of three bytes
otherwise. -/
theorem write0_spec (hS : S.Delivers log) (h : Filling log fs) {inp : Bytes} (hne : inp ≠ []) :
    ∃ n fs', fs.write0 S base64Xcode inp = (0, n, fs') ∧ Filling log fs' ∧
      fs'.inbuf = fs.inbuf ∧ fs'.buf ≠ [] ∧
      fs'.chars log = fs.chars log ++ Base64.encode (inp.take n) ∧
      0 < n ∧ n ≤ inp.length ∧ (inp.length ≤ 3 → n = inp.length) ∧
      (3 < inp.length → n % 3 = 0) := by
  obtain ⟨fs₁, hroom, h₁, hin, hchars, hsize⟩ := makeRoom_spec hS h
  obtain ⟨n, hrun, hpos, hle, hshort, hlong, hfit⟩ := fltBase64Encode_spec hne
    (show 4 ≤ filterBsize - fs₁.buf.length by omega)
  have hlen := Base64.length_encode (inp.take n)
  rw [List.length_take, Nat.min_eq_left hle] at hlen
  refine ⟨n, { fs₁ with buf := fs₁.buf ++ Base64.encode (inp.take n) }, ?_,
    ⟨h₁.minLevel, h₁.maxLineLength, h₁.lineLength, h₁.room, h₁.lines, ?_, ?_, ?_⟩, hin, ?_, ?_,
    hpos, hle, hshort, hlong⟩
  · simp only [write0, hroom, base64Xcode, hrun, ne_eq, not_true_eq_false, if_false,
      if_neg (Nat.ne_of_gt hpos)]
  · rw [List.mem_append, not_or]
    exact ⟨h₁.noNewline, Base64.notMem_encode newline (by decide) (by decide) _⟩
  · have := h₁.groups
    rw [List.length_append]
    omega
  · rw [List.length_append]
    omega
  · intro hnil
    have := congrArg List.length hnil
    rw [List.length_append, List.length_nil] at this
    omega
  · simp only [chars] at hchars ⊢
    rw [← hchars, List.append_assoc]

end FilterStream

/-! ## Regrouping -/

/-- One or two bytes are left behind a side buffer that a write of `s`
bytes has filled from `c`. -/
def PadsEarly (c s : ℕ) : Prop := 0 < c ∧ (c + s = 4 ∨ c + s = 5)

instance (c s : ℕ) : Decidable (PadsEarly c s) := inferInstanceAs (Decidable (_ ∧ _))

/-- A write of `b` with `c` in the side buffer: what is encoded, and what
is in the side buffer then. -/
def encodeStep (c b : Bytes) : Bytes × Bytes :=
  if PadsEarly c.length b.length then (Base64.encode (c ++ b), [])
  else (Base64.encode ((c ++ b).take ((c ++ b).length / 3 * 3)),
    (c ++ b).drop ((c ++ b).length / 3 * 3))

/-- Fewer than three bytes stay in the side buffer. -/
theorem encodeStep_of_lt {c b : Bytes} (h : (c ++ b).length < 3) :
    encodeStep c b = ([], c ++ b) := by
  have hpad : ¬ PadsEarly c.length b.length := by
    rintro ⟨-, h'⟩
    rw [List.length_append] at h
    omega
  have hz : (c ++ b).length / 3 * 3 = 0 := by omega
  rw [encodeStep, if_neg hpad, hz]
  rfl

/-- A write of nothing changes nothing. -/
theorem encodeStep_nil {c : Bytes} (hc : c.length < 3) : encodeStep c [] = ([], c) := by
  rw [encodeStep_of_lt (by rw [List.append_nil]; exact hc), List.append_nil]

/-- What is encoded of bytes in two parts, the first a multiple of three. -/
theorem encodeStep_consumed {c b : Bytes} {n : ℕ} (hpad : ¬ PadsEarly c.length b.length)
    (hn : n ≤ b.length) (hmod : (c.length + n) % 3 = 0) :
    encodeStep c b = (Base64.encode ((c ++ b).take (c.length + n)) ++ (encodeStep [] (b.drop n)).1,
      (encodeStep [] (b.drop n)).2) := by
  have hnot : ¬ PadsEarly ([] : Bytes).length (b.drop n).length := fun h => absurd h.1 (by decide)
  have hdrop : b.drop n = (c ++ b).drop (c.length + n) := by rw [List.drop_length_add_append]
  have hlen : (c ++ b).length = c.length + b.length := List.length_append
  have hk : (c ++ b).length / 3 * 3 =
      (c.length + n) + ((c ++ b).drop (c.length + n)).length / 3 * 3 := by
    rw [List.length_drop, hlen]
    omega
  have htake : ((c ++ b).take (c.length + n)).length % 3 = 0 := by
    rw [List.length_take, hlen, Nat.min_eq_left (by omega)]
    exact hmod
  rw [encodeStep, if_neg hpad, encodeStep, if_neg hnot, List.nil_append, hdrop, hk, List.take_add,
    Base64.encode_append htake, List.drop_drop]

namespace FilterStream

variable {τ : Type} {S : Sink τ} {log : τ → Bytes} {fs : FilterStream τ}

/-- Some of the input is encoded, or none if there is none. -/
theorem writeRest_spec (hS : S.Delivers log) (h : Filling log fs) (ret : ℕ) (buf : Bytes) :
    ∃ n fs', fs.writeRest S base64Xcode ret buf = (.ok (ret + n), fs') ∧ Filling log fs' ∧
      fs'.inbuf = fs.inbuf ∧ (fs.buf ≠ [] ∨ buf ≠ [] → fs'.buf ≠ []) ∧
      fs'.chars log = fs.chars log ++ Base64.encode (buf.take n) ∧
      n ≤ buf.length ∧ (buf ≠ [] → 0 < n) ∧ (buf.length ≤ 3 → n = buf.length) ∧
      (3 < buf.length → n % 3 = 0) := by
  unfold writeRest
  by_cases hnil : buf = []
  · subst hnil
    refine ⟨0, fs, rfl, h, rfl, fun hor => hor.resolve_right (fun h => h rfl),
      (List.append_nil _).symm, Nat.le_refl _, fun h => absurd rfl h, fun _ => rfl, fun _ => rfl⟩
  · obtain ⟨n, fs', hw, hfs', hin, hbuf, hchars, hpos, hle, hshort, hlong⟩ :=
      write0_spec hS h hnil
    have hlen : ¬ buf.length = 0 := fun h => hnil (List.length_eq_zero_iff.1 h)
    refine ⟨n, fs', ?_, hfs', hin, fun _ => hbuf, hchars, hle, fun _ => hpos, hshort, hlong⟩
    simp only [if_neg hlen, hw, dite_true]

/-- A full side buffer goes out, and some of the input behind it. -/
theorem drainSide_spec (hS : S.Delivers log) (h : Filling log fs) (hin : fs.inbuf.length = 3)
    (ret : ℕ) (buf : Bytes) :
    ∃ n fs', fs.drainSide S base64Xcode ret buf = (.ok (ret + n), fs') ∧ Filling log fs' ∧
      fs'.inbuf = [] ∧ fs'.buf ≠ [] ∧
      fs'.chars log = fs.chars log ++ Base64.encode (fs.inbuf ++ buf.take n) ∧
      n ≤ buf.length ∧ (buf.length ≤ 3 → n = buf.length) ∧ (3 < buf.length → n % 3 = 0) := by
  obtain ⟨k, fs₁, hw, h₁, hin₁, hbuf₁, hchars₁, -, -, hk, -⟩ := write0_spec hS h
    (show fs.inbuf ≠ [] from fun hnil => by rw [hnil] at hin; cases hin)
  obtain rfl : k = fs.inbuf.length := hk (by omega)
  have h₂ : Filling log { fs₁ with inbuf := [] } := ⟨h₁.minLevel, h₁.maxLineLength,
    h₁.lineLength, h₁.room, h₁.lines, h₁.noNewline, h₁.groups, h₁.bounds⟩
  obtain ⟨n, fs', hrun, hfs', hin', hbuf', hchars', hle, -, hshort, hlong⟩ :=
    writeRest_spec hS h₂ ret buf
  refine ⟨n, fs', ?_, hfs', hin', hbuf' (Or.inl hbuf₁), ?_, hle, hshort, hlong⟩
  · simp only [drainSide, hw, ne_eq, not_true_eq_false, dite_false, hin₁, if_false, hrun]
  · have hsame : { fs₁ with inbuf := [] }.chars log = fs₁.chars log := rfl
    rw [hchars', hsame, hchars₁, List.take_length, List.append_assoc,
      ← Base64.encode_append (by rw [hin])]

/-- What one call of `filter_write` can do: pad early and take everything;
take everything into the side buffer; or empty the side buffer and encode
a multiple of three bytes. -/
theorem write_spec (hS : S.Delivers log) (h : Filling log fs) (hin : fs.inbuf.length < 3)
    {buf : Bytes} (hne : buf ≠ []) :
    ∃ n fs', fs.write S base64Xcode buf = (.ok n, fs') ∧ Filling log fs' ∧ 0 < n ∧
      n ≤ buf.length ∧
      ((PadsEarly fs.inbuf.length buf.length ∧ n = buf.length ∧ fs'.inbuf = [] ∧ fs'.buf ≠ [] ∧
          fs'.chars log = fs.chars log ++ Base64.encode (fs.inbuf ++ buf)) ∨
        ((fs.inbuf ++ buf).length < 3 ∧ n = buf.length ∧
          fs' = { fs with inbuf := fs.inbuf ++ buf }) ∨
        (¬ PadsEarly fs.inbuf.length buf.length ∧ (fs.inbuf.length + n) % 3 = 0 ∧
          fs'.inbuf = [] ∧ fs'.buf ≠ [] ∧
          fs'.chars log =
            fs.chars log ++ Base64.encode ((fs.inbuf ++ buf).take (fs.inbuf.length + n)))) := by
  have hpos : 0 < buf.length := List.length_pos_iff.2 hne
  have hmin := h.minLevel
  unfold write
  by_cases hside : buf.length < fs.minLevel ∨ (0 < fs.inbuf.length ∧ fs.inbuf.length < fs.minLevel)
  · rw [if_pos hside, writeSide]
    set rest := min (fs.minLevel - fs.inbuf.length) buf.length with hrest
    set fs₀ : FilterStream τ := { fs with inbuf := fs.inbuf ++ buf.take rest } with hfs₀
    have h₀ : Filling log fs₀ := ⟨h.minLevel, h.maxLineLength, h.lineLength, h.room, h.lines,
      h.noNewline, h.groups, h.bounds⟩
    have hlen₀ : fs₀.inbuf.length = fs.inbuf.length + rest := by
      simp only [hfs₀, List.length_append, List.length_take]
      omega
    have hsplit : fs.inbuf ++ buf = fs₀.inbuf ++ buf.drop rest := by
      simp only [hfs₀, List.append_assoc, List.take_append_drop]
    by_cases hshort : fs₀.inbuf.length < fs.minLevel
    · -- still too few bytes to encode
      have hall : rest = buf.length := by omega
      refine ⟨rest, fs₀, if_pos hshort, h₀, by omega, by omega, Or.inr (Or.inl ⟨?_, hall, ?_⟩)⟩
      · rw [List.length_append]
        omega
      · rw [hfs₀, hall, List.take_length]
    · -- the side buffer is full, and what is left of the input goes behind it
      have h3 : fs₀.inbuf.length = 3 := by omega
      obtain ⟨n, fs', hrun, hfs', hin', hbuf', hchars', hle, hnshort, hnlong⟩ :=
        drainSide_spec hS h₀ h3 rest (buf.drop rest)
      rw [List.length_drop] at hle hnshort hnlong
      have hsame : fs₀.chars log = fs.chars log := rfl
      rw [hsame] at hchars'
      refine ⟨rest + n, fs', (if_neg hshort).trans hrun, hfs', by omega, by omega, ?_⟩
      by_cases hpad : PadsEarly fs.inbuf.length buf.length
      · have hn : n = buf.length - rest := hnshort (by have := hpad.2; omega)
        refine Or.inl ⟨hpad, by omega, hin', hbuf', ?_⟩
        rw [hchars', hsplit, List.take_of_length_le (by rw [List.length_drop]; omega)]
      · refine Or.inr (Or.inr ⟨hpad, ?_, hin', hbuf', ?_⟩)
        · unfold PadsEarly at hpad
          by_cases hlong : 3 < buf.length - rest
          · have := hnlong hlong
            omega
          · have := hnshort (by omega)
            omega
        · rw [hchars', hsplit, ← Nat.add_assoc, ← hlen₀, List.take_length_add_append]
  · -- nothing waits, and there are three bytes at least
    rw [if_neg hside]
    obtain ⟨n, fs', hrun, hfs', hin', hbuf', hchars', hle, hnpos, hshort, hlong⟩ :=
      writeRest_spec hS h 0 buf
    have hempty : fs.inbuf = [] := List.length_eq_zero_iff.1 (by omega)
    rw [Nat.zero_add] at hrun
    refine ⟨n, fs', hrun, hfs', hnpos hne, hle, Or.inr (Or.inr ⟨?_, ?_, hin'.trans hempty,
      hbuf' (Or.inr hne), ?_⟩)⟩
    · rintro ⟨h0, -⟩
      rw [hempty] at h0
      cases h0
    · rw [hempty, List.length_nil, Nat.zero_add]
      by_cases h3 : 3 < buf.length
      · exact hlong h3
      · have := hshort (by omega)
        omega
    · rw [hempty, List.length_nil, Nat.zero_add, List.nil_append]
      exact hchars'

/-- Nothing has been passed on as long as the buffer is empty. -/
def Started (log : τ → Bytes) (fs : FilterStream τ) : Prop := fs.buf = [] → log fs.transport = []

/-- **A write of the stream encodes what `encodeStep` says**, however often
the filter is called for it. -/
theorem writeLoop_spec (hS : S.Delivers log) (fuel : ℕ) {buf : Bytes} (hfuel : buf.length ≤ fuel)
    (h : Filling log fs) (hin : fs.inbuf.length < 3) (hstart : fs.Started log) (out : ℕ) :
    ∃ fs', writeLoop (write S base64Xcode) fuel buf out fs = .ok (0, out + buf.length, fs') ∧
      Filling log fs' ∧ fs'.Started log ∧
      fs'.chars log = fs.chars log ++ (encodeStep fs.inbuf buf).1 ∧
      fs'.inbuf = (encodeStep fs.inbuf buf).2 := by
  induction fuel generalizing buf out fs with
  | zero =>
    obtain rfl := List.length_eq_zero_iff.1 (Nat.le_zero.1 hfuel)
    rw [encodeStep_nil hin]
    exact ⟨fs, rfl, h, hstart, (List.append_nil _).symm, rfl⟩
  | succ fuel ih =>
    by_cases hnil : buf = []
    · subst hnil
      rw [encodeStep_nil hin]
      exact ⟨fs, rfl, h, hstart, (List.append_nil _).symm, rfl⟩
    have hlen : ¬ buf.length = 0 := fun h => hnil (List.length_eq_zero_iff.1 h)
    obtain ⟨n, fs₁, hw, h₁, hpos, hle, hcases⟩ := write_spec hS h hin hnil
    have hin₁ : fs₁.inbuf.length < 3 := by
      rcases hcases with ⟨-, -, hi, -⟩ | ⟨hi, -, rfl⟩ | ⟨-, -, hi, -⟩
      · rw [hi]
        decide
      · exact hi
      · rw [hi]
        decide
    have hstart₁ : fs₁.Started log := by
      rcases hcases with ⟨-, -, -, hb, -⟩ | ⟨-, -, rfl⟩ | ⟨-, -, -, hb, -⟩
      · exact fun he => absurd he hb
      · exact hstart
      · exact fun he => absurd he hb
    obtain ⟨fs', hrun, h', hstart', hchars', hin'⟩ :=
      ih (show (buf.drop n).length ≤ fuel by rw [List.length_drop]; omega) h₁ hin₁ hstart₁ (out + n)
    have hout : out + n + (buf.drop n).length = out + buf.length := by
      rw [List.length_drop]
      omega
    refine ⟨fs', ?_, h', hstart', ?_⟩
    · rw [writeLoop, if_neg hlen, hw]
      simp only [if_neg (Nat.ne_of_gt hpos), if_neg (Nat.not_lt.2 hle), hrun, hout]
    rcases hcases with ⟨hpad, rfl, hi, -, hc⟩ | ⟨hshort, rfl, rfl⟩ | ⟨hpad, hmod, hi, -, hc⟩
    · rw [List.drop_length, encodeStep_nil hin₁] at hchars' hin'
      rw [encodeStep, if_pos hpad, hchars', hin', hc, List.append_nil]
      exact ⟨rfl, hi⟩
    · rw [List.drop_length, encodeStep_nil hin₁] at hchars' hin'
      rw [encodeStep_of_lt hshort, hchars', hin']
      exact ⟨rfl, rfl⟩
    · rw [hi] at hchars' hin'
      rw [encodeStep_consumed hpad hle hmod, hchars', hin', hc, List.append_assoc]
      exact ⟨rfl, rfl⟩

/-- **The flush of the stream** passes on what was encoded and encodes what
is left in the side buffer; but it does nothing where nothing was encoded
before. -/
theorem wrFlush_spec (hS : S.Delivers log) (h : Filling log fs) (hin : fs.inbuf.length < 3)
    (hstart : fs.Started log) :
    ∃ rc fs', fs.wrFlush S base64Xcode = (rc, fs') ∧ LinesLE 76 0 (log fs'.transport) ∧
      strip (log fs'.transport) =
        if fs.chars log = [] then [] else fs.chars log ++ Base64.encode fs.inbuf := by
  unfold wrFlush
  by_cases hbuf : fs.buf.length = 0
  · -- `filter_wr_flush` looks at the buffer only, and leaves the side buffer as it is
    have hlog := hstart (List.length_eq_zero_iff.1 hbuf)
    have hnone : fs.chars log = [] := by
      rw [chars, hlog, List.length_eq_zero_iff.1 hbuf]
      rfl
    refine ⟨0, fs, if_pos hbuf, h.lines, ?_⟩
    rw [if_pos hnone, hlog]
    rfl
  have hsome : ¬ fs.chars log = [] := fun hc =>
    hbuf (List.length_eq_zero_iff.2 (List.append_eq_nil_iff.1 hc).2)
  obtain ⟨fs₁, hflush, h₁, hbuf₁, hin₁, hchars₁⟩ := flush_spec hS h
  have hnl : ∀ {u : Bytes}, newline ∉ u → (u.getLast? == some newline) = false := by
    intro u hu
    rw [beq_eq_false_iff_ne]
    exact fun hlast => hu (List.mem_of_getLast? hlast)
  -- the side buffer goes out behind it, if there is anything in it
  have hresidue : ∃ rc fs₂, fs₁.flushResidue S base64Xcode false = (rc, false, fs₂) ∧
      Filling log fs₂ ∧ fs₂.buf = [] ∧
      fs₂.chars log = fs.chars log ++ Base64.encode fs.inbuf := by
    unfold flushResidue
    by_cases hempty : fs₁.inbuf.length = 0
    · rw [hin₁] at hempty
      rw [List.length_eq_zero_iff.1 hempty]
      exact ⟨0, fs₁, by rw [hin₁, if_pos hempty], h₁, hbuf₁, by
        rw [hchars₁]
        exact (List.append_nil _).symm⟩
    · obtain ⟨n, fs₂, hw, h₂, -, -, hchars₂, -, -, hn, -⟩ := write0_spec hS h₁
        (show fs₁.inbuf ≠ [] from fun hnil => hempty (by rw [hnil]; rfl))
      obtain rfl : n = fs₁.inbuf.length := hn (by rw [hin₁]; omega)
      obtain ⟨fs₃, hflush₃, h₃, hbuf₃, -, hchars₃⟩ := flush_spec hS h₂
      refine ⟨0, fs₃, ?_, h₃, hbuf₃, ?_⟩
      · simp only [if_neg hempty, hw, hflush₃, hnl h₂.noNewline]
      · rw [hchars₃, hchars₂, hchars₁, List.take_length, hin₁]
  obtain ⟨rc, fs₂, hres, h₂, hbuf₂, hchars₂⟩ := hresidue
  refine ⟨(S.write fs₂.transport [newline]).1,
    { fs₂ with transport := (S.write fs₂.transport [newline]).2 }, ?_, ?_, ?_⟩
  · simp only [if_neg hbuf, hflush, hnl h.noNewline, ne_eq, not_true_eq_false, if_false, hres,
      Bool.false_eq_true]
  · simp only [hS.write_log]
    rw [linesLE_append]
    exact ⟨h₂.lines, trivial⟩
  · rw [if_neg hsome, ← hchars₂]
    simp only [hS.write_log, strip_append, chars, hbuf₂]
    rfl

end FilterStream

end Dico
