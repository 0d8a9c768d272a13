import Dico.Common.QuotedPrintable
import Dico.Filter.Decode
/-!
# What the decoding streams return

What is decoded rightly whatever the transport does: of base64, the texts
that stand for nothing; of quoted-printable, these texts as well, unless a
line break with a carriage return among them is taken for a null byte, and
up to three copies of one plain character (`codecStream_iff`). Anything
else is lost where the first read brings one byte, or is returned again
and again where a read brings four.
-/

namespace Dico

open DecodeStream

/-- A base64 text: an encoding, with line breaks anywhere. -/
structure Base64Text where
  text : Bytes
  bytes : Bytes
  valid : (text.filter fun b => b ≠ 13 ∧ b ≠ newline) = Base64.encode bytes

/-- A stream over a content that arrives as planned returns the bytes, and
then nothing. -/
def Decodes (junk : Junk) (calls : DecodeCalls) (plan : List ℕ) (encoding content bytes : Bytes) :
    Prop :=
  ∃ ds fuel, codecCreate junk encoding (.new content plan) = some ds ∧
    drain calls fuel 0 ds = .ok bytes

/-- A character that the quoted-printable decoder takes as it is. -/
def IsPlain (a : UInt8) : Prop := ¬ isWs a ∧ a ≠ 61 ∧ a ≠ 13

/-- A quoted-printable text for which the way it arrives does not
matter. -/
def Harmless (items : List Qp.Item) : Prop :=
  (Qp.decode items = [] ∧ ¬ [61, 13, 10] <:+: (Qp.text items).take filterBsize) ∨
    ∃ a n, IsPlain a ∧ n ≤ 3 ∧ Qp.text items = List.replicate n a

/-- The decoder has no output for these bytes. -/
def Silent (X : Decoder) (w : Bytes) : Prop :=
  ∀ obuf : Bytes, 3 < obuf.length → ∃ rc obuf', X w obuf = .ok (rc, obuf', 0)

/-! ## One call -/

namespace DecodeStream

/-- The stream behind a read of its transport. -/
def filled (ds : DecodeStream) : DecodeStream :=
  let r := ds.transport.read (filterBsize - ds.level)
  { ds with
    transport := r.2
    buf := ds.buf.take ds.level ++ r.1 ++ ds.buf.drop (ds.level + r.1.length)
    level := r.1.length }

/-- The next call reads from the transport. -/
structure Low (ds : DecodeStream) : Prop where
  low : ds.level < ds.minLevel
  min : ds.minLevel ≤ filterBsize
  size : ds.buf.length = filterBsize
  going : ds.eof = false

variable {ds : DecodeStream} {obuf obuf' : Bytes} {rc n : ℕ}

theorem Low.fits (h : ds.Low) : ds.level + ds.filled.level ≤ filterBsize := by
  have hle := Source.length_read_le (x := ds.transport) (n := filterBsize - ds.level)
  have hlow := h.low
  have hmin := h.min
  change ds.level + (ds.transport.read (filterBsize - ds.level)).1.length ≤ filterBsize
  omega

/-- Bytes are read behind those that are there. -/
theorem Low.fill (h : ds.Low) : ds.fill = .ok ds.filled := by
  have hfit := h.fits
  rw [← h.size] at hfit
  have hpoke : Memory.poke ds.buf ds.level (ds.transport.read (filterBsize - ds.level)).1 =
      some ds.filled.buf := Memory.poke_eq_some hfit
  rw [DecodeStream.fill, if_pos h.low]
  simp only [hpoke]
  rfl

theorem Low.length_filled (h : ds.Low) : ds.filled.buf.length = filterBsize := by
  have hfit := h.fits
  rw [← h.size] at hfit
  exact (Memory.length_of_poke (Memory.poke_eq_some hfit)).trans h.size

/-- The bytes in use are those at the start of the buffer. -/
theorem take_filled :
    ds.filled.buf.take ds.filled.level =
      (ds.buf.take ds.level ++ (ds.transport.read (filterBsize - ds.level)).1).take
        ds.filled.level := by
  refine List.take_append_of_le_length ?_
  rw [List.length_append]
  exact Nat.le_add_left _ _

/-- The bytes in use are decoded. -/
theorem decodeLevel_eq (hpos : ds.level ≠ 0) (hlevel : ds.level ≤ ds.buf.length)
    (hn : n ≤ obuf'.length) (hrun : ds.xcode (ds.buf.take ds.level) obuf = .ok (rc, obuf', n)) :
    ds.decodeLevel obuf = .ok (obuf'.take n, { ds with
      buf := (ds.buf.take ds.level).drop rc ++ ds.buf.drop ((ds.buf.take ds.level).drop rc).length
      level := rc }) := by
  have hmove : 0 + ((ds.buf.take ds.level).drop rc).length ≤ ds.buf.length := by
    rw [List.length_drop, List.length_take]
    omega
  have hout : Memory.peek obuf' 0 n = some (obuf'.take n) := by
    rw [Memory.peek_eq_some (by omega), List.drop_zero]
  rw [decodeLevel, if_neg hpos, hrun, ok_bind]
  simp only [Memory.poke_eq_some hmove, hout, List.take_zero, List.nil_append, Nat.zero_add]

/-- A call before the end. -/
theorem read_going (hgoing : ds.eof = false) (hobuf : 3 < obuf.length) :
    ds.read obuf = ds.filterRead obuf >>= fun r =>
      .ok (r.1, if r.1 = [] then { r.2 with eof := true } else r.2) := by
  refine if_neg ?_
  rintro (heof | hnil)
  · rw [hgoing] at heof
    cases heof
  · rw [hnil] at hobuf
    exact absurd hobuf (Nat.not_lt_zero _)

/-- A call that reads from the transport. -/
theorem Low.read (h : ds.Low) (hobuf : 3 < obuf.length) :
    ds.read obuf = ds.filled.decodeLevel obuf >>= fun r =>
      .ok (r.1, if r.1 = [] then { r.2 with eof := true } else r.2) := by
  rw [read_going h.going hobuf, filterRead, h.fill, ok_bind]

/-- What the decoder did where bytes were decoded. -/
theorem exists_of_decodeLevel {out : Bytes} {ds' : DecodeStream} (hpos : ds.level ≠ 0)
    (h : ds.decodeLevel obuf = .ok (out, ds')) :
    ∃ rc obuf', ds.xcode (ds.buf.take ds.level) obuf = .ok (rc, obuf', out.length) := by
  rw [decodeLevel, if_neg hpos] at h
  obtain ⟨⟨rc, obuf', n⟩, hrun, h⟩ := bind_eq_ok.1 h
  simp only at h
  split at h
  · next buf out' hmove hout =>
    obtain rfl := congrArg Prod.fst (Except.ok.inj h)
    refine ⟨rc, obuf', ?_⟩
    rw [hrun, Memory.length_of_peek hout]
  · cases h

/-- More calls than are needed do no harm. -/
theorem drain_add {calls : DecodeCalls} {fuel k : ℕ} {ds : DecodeStream} {out : Bytes}
    (h : drain calls fuel k ds = .ok out) (n : ℕ) : drain calls (fuel + n) k ds = .ok out := by
  induction fuel generalizing k ds out with
  | zero => cases h
  | succ fuel ih =>
    rw [drain] at h
    obtain ⟨⟨out', ds'⟩, hread, h⟩ := bind_eq_ok.1 h
    rw [Nat.add_right_comm, drain, hread, ok_bind]
    simp only at h ⊢
    split_ifs at h ⊢
    · exact h
    · obtain ⟨more, hmore, h⟩ := bind_eq_ok.1 h
      rw [ih hmore, ok_bind]
      exact h

/-! ## The first call -/

section First

variable {X : Decoder} {minLevel : ℕ} {junk : Junk} {x : Source} {calls : DecodeCalls}
variable (hpos : 0 < minLevel) (hmin : minLevel ≤ filterBsize)

/-- The bytes in use at the first call are those that were read. -/
theorem take_create :
    (create junk x minLevel X).filled.buf.take (create junk x minLevel X).filled.level =
      (x.read filterBsize).1 := List.take_left

include hpos hmin

theorem low_create : (create junk x minLevel X).Low := ⟨hpos, hmin, junk.2, rfl⟩

/-- **Where the decoder has no output** for what the first read brings,
that is the end. -/
theorem drain_of_silent (h : (x.read filterBsize).1 ≠ [] → Silent X (x.read filterBsize).1) :
    drain calls 1 0 (create junk x minLevel X) = .ok [] := by
  have hlow : (create junk x minLevel X).Low := low_create hpos hmin
  obtain ⟨ds', hread⟩ : ∃ ds', (create junk x minLevel X).read (calls 0).1 = .ok ([], ds') := by
    rw [hlow.read (calls 0).2]
    by_cases hnil : (x.read filterBsize).1 = []
    · have hzero : (create junk x minLevel X).filled.level = 0 := congrArg List.length hnil
      rw [decodeLevel, if_pos hzero]
      exact ⟨_, rfl⟩
    · obtain ⟨rc, obuf', hrun⟩ := h hnil (calls 0).1 (calls 0).2
      have hlevel : (create junk x minLevel X).filled.level ≠ 0 :=
        fun hzero => hnil (List.length_eq_zero_iff.1 hzero)
      rw [decodeLevel_eq hlevel (by rw [hlow.length_filled]; exact Source.length_read_le)
        (Nat.zero_le _) (by rw [take_create]; exact hrun)]
      exact ⟨_, rfl⟩
  rw [drain, hread, ok_bind]
  exact if_pos rfl

/-- So nothing was returned. -/
theorem eq_nil_of_silent (h : (x.read filterBsize).1 ≠ [] → Silent X (x.read filterBsize).1)
    {fuel : ℕ} {out : Bytes} (hdrain : drain calls fuel 0 (create junk x minLevel X) = .ok out) :
    out = [] := by
  have hend : drain calls 1 0 (create junk x minLevel X) = .ok [] := drain_of_silent hpos hmin h
  have hout := drain_add hdrain 1
  rw [Nat.add_comm, drain_add hend fuel] at hout
  exact (Except.ok.inj hout).symm

/-- Where it has some, that is not the end. -/
theorem drain_of_loud {fuel : ℕ} (hne : (x.read filterBsize).1 ≠ [])
    (h : ∀ obuf rc obuf' n, 3 < obuf.length →
      X (x.read filterBsize).1 obuf = .ok (rc, obuf', n) → n ≠ 0) :
    drain calls fuel 0 (create junk x minLevel X) ≠ .ok [] := by
  have hlow : (create junk x minLevel X).Low := low_create hpos hmin
  cases fuel with
  | zero =>
    intro hdrain
    cases hdrain
  | succ fuel =>
    rw [drain, hlow.read (calls 0).2]
    intro hdrain
    obtain ⟨⟨out, ds'⟩, hread, hdrain⟩ := bind_eq_ok.1 hdrain
    obtain ⟨⟨out', ds''⟩, hdecode, hread⟩ := bind_eq_ok.1 hread
    obtain rfl : out' = out := congrArg Prod.fst (Except.ok.inj hread)
    have hlevel : (create junk x minLevel X).filled.level ≠ 0 :=
      fun hzero => hne (List.length_eq_zero_iff.1 hzero)
    obtain ⟨rc, obuf', hrun⟩ := exists_of_decodeLevel hlevel hdecode
    rw [take_create] at hrun
    have hout : out' ≠ [] := fun hnil => h _ _ _ _ (calls 0).2 hrun (by rw [hnil]; rfl)
    simp only [if_neg hout] at hdrain
    obtain ⟨more, -, hmore⟩ := bind_eq_ok.1 hdrain
    exact hout (List.append_eq_nil_iff.1 (Except.ok.inj hmore)).1

end First

end DecodeStream

/-! ## Base64 -/

section Base64

/-- Line breaks are skipped. -/
theorem b64gather_breaks {w : Bytes} (hw : ∀ b ∈ w, b = 13 ∨ b = newline) (pad : ℕ) :
    b64gather w [] pad = .ok ([], [], pad) := by
  induction w with
  | nil => rfl
  | cons b w ih =>
    have htail := ih fun c hc => hw c (List.mem_cons_of_mem _ hc)
    rcases hw b List.mem_cons_self with rfl | rfl
    · exact htail
    · exact htail

/-- A character alone is not a block. -/
theorem b64gather_singleton {b : UInt8} (hb : b.toNat < 128) (pad : ℕ) :
    ∃ data pad', b64gather [b] [] pad = .ok ([], data, pad') ∧ data.length ≤ 1 := by
  have hlen : b.toNat < b64val.length := hb
  rw [b64gather, if_pos (by decide), b64value, List.getElem?_eq_getElem hlen]
  simp only [ok_bind]
  split_ifs
  · exact ⟨_, _, rfl, le_rfl⟩
  · exact ⟨_, _, rfl, le_rfl⟩
  · exact ⟨_, _, rfl, Nat.zero_le _⟩

/-- No output comes of less than a block. -/
theorem silent_of_gather {w : Bytes} {data : List ℕ} {pad : ℕ} (hw : w ≠ [])
    (hgather : b64gather w [] 0 = .ok ([], data, pad)) (hdata : data.length ≤ 1) :
    Silent fltBase64Decode w := by
  intro obuf hobuf
  have hround : w ≠ [] ∧ (0 + 3) % 2 ^ 64 < obuf.length := ⟨hw, hobuf⟩
  have hshort : ¬ data.length = 4 := by omega
  rw [fltBase64Decode, b64blocks, if_pos hround, hgather, ok_bind]
  simp only [if_neg hshort]
  exact ⟨_, _, rfl⟩

/-- Nor of a character alone. -/
theorem silent_char {b : UInt8} (hb : b.toNat < 128) : Silent fltBase64Decode [b] := by
  obtain ⟨data, pad, hgather, hdata⟩ := b64gather_singleton hb 0
  exact silent_of_gather (List.cons_ne_nil _ _) hgather hdata

namespace Base64Text

variable (t : Base64Text)

/-- The characters of a text. -/
theorem lt_of_mem {b : UInt8} (hb : b ∈ t.text) : b.toNat < 128 := by
  by_cases hbreak : b ≠ 13 ∧ b ≠ newline
  · have hmem : b ∈ Base64.encode t.bytes := by
      rw [← t.valid, List.mem_filter]
      exact ⟨hb, decide_eq_true hbreak⟩
    by_contra hlarge
    have hdigit : ∀ k : Fin 64, (Base64.digit k).toNat < 128 := by decide
    refine Base64.notMem_encode b (fun k hk => ?_) (fun hp => ?_) t.bytes hmem
    · exact hlarge (hk ▸ hdigit k)
    · exact hlarge (hp ▸ by decide)
  · rcases not_and_or.1 hbreak with h | h
    · rw [not_not.1 h]
      decide
    · rw [not_not.1 h]
      decide

/-- A text that stands for nothing is line breaks alone. -/
theorem breaks_of_nil (h : t.bytes = []) : ∀ b ∈ t.text, b = 13 ∨ b = newline := by
  intro b hb
  by_contra hbreak
  have hmem : b ∈ t.text.filter fun b => b ≠ 13 ∧ b ≠ newline := by
    rw [List.mem_filter]
    exact ⟨hb, decide_eq_true (not_or.1 hbreak)⟩
  rw [t.valid, h] at hmem
  exact List.not_mem_nil hmem

end Base64Text

end Base64

/-! ## Quoted-printable -/

namespace QpDecode

variable {s s' : QpDecode} {a : UInt8} {w : Bytes}

/-- Where there are no blanks, none are dealt with. -/
theorem settle_nil (h : s.blanks = []) (c : UInt8) : s.settle c = .ok (false, s) := if_pos h

/-- A character goes out. -/
theorem put_eq (hroom : s.nbytes < s.obuf.length) (c : UInt8) (n : ℕ) :
    s.put c n = .ok ⟨s.obuf.set s.nbytes c, s.nbytes + 1, s.consumed + n, s.blanks⟩ := by
  rw [put, store, if_pos hroom, ok_bind]

/-- A round that goes on. -/
theorem loop_of_round {fuel : ℕ} {c : UInt8} {w w' : Bytes} (hroom : s.nbytes < s.obuf.length)
    (h : s.round c w = .ok (some w', s')) : loop (fuel + 1) (c :: w) s = loop fuel w' s' := by
  rw [loop, if_pos hroom, h, ok_bind]

/-- A round that does not. -/
theorem loop_of_break {fuel : ℕ} {c : UInt8} {w : Bytes} (hroom : s.nbytes < s.obuf.length)
    (h : s.round c w = .ok (none, s')) : loop (fuel + 1) (c :: w) s = .ok s' := by
  rw [loop, if_pos hroom, h, ok_bind]

/-- A plain character is taken as it is. -/
theorem round_plain (ha : IsPlain a) (hroom : s.nbytes < s.obuf.length) (hblanks : s.blanks = []) :
    s.round a w =
      .ok (some w, ⟨s.obuf.set s.nbytes a, s.nbytes + 1, s.consumed + 1, s.blanks⟩) := by
  rw [round, if_neg ha.1, settle_nil hblanks, ok_bind]
  simp only [if_neg ha.2.1, if_neg ha.2.2, put_eq hroom, ok_bind]
  rfl

/-- A blank is kept. -/
theorem round_blank (ha : isWs a) :
    s.round a w = .ok (some w, { s with blanks := s.blanks ++ [a], consumed := s.consumed + 1 }) :=
  if_pos ha

/-- A line break that does not count is left out, but not at the end of
the input. -/
theorem round_soft (hblanks : s.blanks = []) (b : UInt8) :
    s.round 61 (10 :: b :: w) =
      .ok (some (b :: w), { s with consumed := s.consumed + 2 }) := by
  rw [round, if_neg (by decide), settle_nil hblanks, ok_bind]
  rfl

/-- With a carriage return it is taken for a byte in hexadecimal. -/
theorem round_soft_cr (hblanks : s.blanks = []) (hroom : s.nbytes < s.obuf.length) :
    s.round 61 (13 :: 10 :: w) =
      .ok (some w, ⟨s.obuf.set s.nbytes 0, s.nbytes + 1, s.consumed + 3, s.blanks⟩) := by
  rw [round, if_neg (by decide), settle_nil hblanks, ok_bind]
  have hnull : UInt8.ofNat (strtoulHex [13, 10]) = 0 := by decide
  simp only [if_neg (show ¬ (13 : UInt8) = newline by decide), hnull, put_eq hroom, ok_bind]
  rfl

/-- Where less than two characters follow it, an `=` waits. -/
theorem round_short (hblanks : s.blanks = []) (hw : w.length < 2) :
    s.round 61 w = .ok (none, s) := by
  rw [round, if_neg (by decide), settle_nil hblanks, ok_bind]
  rcases w with - | ⟨b, - | ⟨c, w⟩⟩
  · rfl
  · rfl
  · simp only [List.length_cons] at hw
    omega

/-- So does a carriage return at the end. -/
theorem round_cr (hblanks : s.blanks = []) : s.round 13 [] = .ok (none, s) := by
  rw [round, if_neg (by decide), settle_nil hblanks, ok_bind]
  rfl

/-- Copies of a plain character go out as they are. -/
theorem loop_replicate (ha : IsPlain a) (n fuel : ℕ) (hfuel : n < fuel) (hblanks : s.blanks = [])
    (hroom : s.nbytes + n ≤ s.obuf.length) :
    ∃ obuf, loop fuel (List.replicate n a) s = .ok ⟨obuf, s.nbytes + n, s.consumed + n, []⟩ ∧
      obuf.length = s.obuf.length ∧
      obuf.take (s.nbytes + n) = s.obuf.take s.nbytes ++ List.replicate n a := by
  induction n generalizing s fuel with
  | zero =>
    obtain ⟨fuel, rfl⟩ : ∃ n, fuel = n + 1 := ⟨fuel - 1, by omega⟩
    refine ⟨s.obuf, ?_, rfl, (List.append_nil _).symm⟩
    rw [← hblanks]
    rfl
  | succ n ih =>
    obtain ⟨fuel, rfl⟩ : ∃ n, fuel = n + 1 := ⟨fuel - 1, by omega⟩
    have hlt : s.nbytes < s.obuf.length := by omega
    have hlen : (s.obuf.set s.nbytes a).length = s.obuf.length := List.length_set
    obtain ⟨obuf, hrun, hobuf, htake⟩ :=
      @ih ⟨s.obuf.set s.nbytes a, s.nbytes + 1, s.consumed + 1, s.blanks⟩ fuel (by omega) hblanks
        (by change s.nbytes + 1 + n ≤ (s.obuf.set s.nbytes a).length; omega)
    refine ⟨obuf, ?_, hobuf.trans hlen, ?_⟩
    · rw [List.replicate_succ, loop_of_round hlt (round_plain ha hlt hblanks), hrun, Nat.add_assoc,
        Nat.add_assoc, Nat.add_comm 1 n]
    · change obuf.take (s.nbytes + 1 + n) =
        (s.obuf.set s.nbytes a).take (s.nbytes + 1) ++ List.replicate n a at htake
      rw [Nat.add_comm n 1, ← Nat.add_assoc, htake, List.take_succ_eq_append_getElem (by omega),
        List.take_set_of_le le_rfl, List.getElem_set_self, List.append_assoc, List.replicate_add]
      rfl

/-- Blanks alone have no output. -/
theorem loop_blanks (hw : ∀ b ∈ w, isWs b) {fuel : ℕ} (hfuel : w.length < fuel) :
    ∃ s', loop fuel w s = .ok s' ∧ s'.nbytes = s.nbytes := by
  induction w generalizing s fuel with
  | nil =>
    obtain ⟨fuel, rfl⟩ : ∃ n, fuel = n + 1 := ⟨fuel - 1, by omega⟩
    exact ⟨s, rfl, rfl⟩
  | cons b w ih =>
    obtain ⟨fuel, rfl⟩ : ∃ n, fuel = n + 1 := ⟨fuel - 1, by omega⟩
    rw [List.length_cons] at hfuel
    by_cases hroom : s.nbytes < s.obuf.length
    · rw [loop_of_round hroom (round_blank (hw b List.mem_cons_self))]
      exact ih (fun c hc => hw c (List.mem_cons_of_mem _ hc)) (by omega)
    · rw [loop, if_neg hroom]
      exact ⟨s, rfl, rfl⟩

/-! Output is never taken back. -/

theorem put_mono {c : UInt8} {n : ℕ} (h : s.put c n = .ok s') : s.nbytes ≤ s'.nbytes := by
  obtain ⟨obuf, -, h⟩ := bind_eq_ok.1 h
  obtain rfl := Except.ok.inj h
  exact Nat.le_succ _

theorem settle_mono {c : UInt8} {stop : Bool} (h : s.settle c = .ok (stop, s')) :
    s.nbytes ≤ s'.nbytes := by
  rw [settle] at h
  split_ifs at h
  · obtain rfl := congrArg Prod.snd (Except.ok.inj h)
    exact le_rfl
  · obtain rfl := congrArg Prod.snd (Except.ok.inj h)
    exact le_rfl
  · simp only at h
    split at h
    · cases h
    · obtain rfl := congrArg Prod.snd (Except.ok.inj h)
      exact Nat.le_add_right _ _

theorem round_mono {c : UInt8} {r : Option Bytes} (h : s.round c w = .ok (r, s')) :
    s.nbytes ≤ s'.nbytes := by
  have hsame {s₀ : QpDecode} {r' : Option Bytes}
      (h : Except.ok (r', s₀) = (.ok (r, s') : Except Fault _)) (hle : s.nbytes ≤ s₀.nbytes) :
      s.nbytes ≤ s'.nbytes := by
    obtain rfl := congrArg Prod.snd (Except.ok.inj h)
    exact hle
  have hput {s₀ : QpDecode} {c : UInt8} {n : ℕ} {r' : Option Bytes}
      (h : (s₀.put c n >>= fun s => Except.ok (r', s)) = .ok (r, s'))
      (hle : s.nbytes ≤ s₀.nbytes) : s.nbytes ≤ s'.nbytes := by
    obtain ⟨s₁, hs₁, h⟩ := bind_eq_ok.1 h
    exact hsame h (hle.trans (put_mono hs₁))
  by_cases hws : isWs c
  · rw [round, if_pos hws] at h
    exact hsame h le_rfl
  · rw [round, if_neg hws] at h
    obtain ⟨⟨stop, s₀⟩, hsettle, h⟩ := bind_eq_ok.1 h
    have hle := settle_mono hsettle
    simp only at h
    split_ifs at h
    · exact hsame h hle
    · split at h
      · split_ifs at h
        · exact hsame h hle
        · exact hput h hle
      · exact hsame h hle
    · split at h
      · exact hput h hle
      · exact hsame h hle
    · exact hput h hle

theorem loop_mono {fuel : ℕ} (h : loop fuel w s = .ok s') : s.nbytes ≤ s'.nbytes := by
  induction fuel generalizing w s with
  | zero => cases h
  | succ fuel ih =>
    cases w with
    | nil =>
      obtain rfl := Except.ok.inj h
      exact le_rfl
    | cons c w =>
      rw [loop] at h
      split_ifs at h
      · obtain ⟨⟨r, s₁⟩, hround, h⟩ := bind_eq_ok.1 h
        have hle := round_mono hround
        cases r with
        | none =>
          obtain rfl := Except.ok.inj h
          exact hle
        | some w' => exact hle.trans (ih h)
      · obtain rfl := Except.ok.inj h
        exact le_rfl

/-- Of an `=` and what follows it, less than three characters wait. -/
theorem loop_short {v : Bytes} (hw : w <+: 61 :: v) (hshort : w.length < 3) {fuel : ℕ}
    (hfuel : w.length < fuel) (hblanks : s.blanks = []) (hroom : s.nbytes < s.obuf.length) :
    loop fuel w s = .ok s := by
  obtain ⟨fuel, rfl⟩ : ∃ n, fuel = n + 1 := ⟨fuel - 1, by omega⟩
  cases w with
  | nil => rfl
  | cons b w =>
    obtain ⟨rfl, -⟩ := List.cons_prefix_cons.1 hw
    rw [List.length_cons] at hshort
    exact loop_of_break hroom (round_short hblanks (by omega))

/-- **The beginning of a text that stands for nothing** has no output,
unless there is a line break with a carriage return in it. -/
theorem loop_soft {items : List Qp.Item} (hnil : Qp.decode items = []) {fuel : ℕ}
    (hw : w <+: Qp.text items) (hfuel : w.length < fuel) (hblanks : s.blanks = [])
    (hroom : s.nbytes < s.obuf.length) :
    (¬ [61, 13, 10] <:+: w → ∃ s', loop fuel w s = .ok s' ∧ s'.nbytes = s.nbytes) ∧
      ([61, 13, 10] <:+: w → ∀ s', loop fuel w s = .ok s' → s.nbytes < s'.nbytes) := by
  induction items generalizing w s fuel with
  | nil =>
    obtain rfl := List.prefix_nil.1 hw
    refine ⟨fun _ => loop_blanks (fun b hb => absurd hb List.not_mem_nil) hfuel, fun hbreak => ?_⟩
    exact absurd hbreak.length_le (by decide)
  | cons x items ih =>
    obtain ⟨htail, ⟨cr, rfl⟩ | hblank⟩ := Qp.decode_eq_nil_cons hnil
    · have hcons : Qp.text (.soft cr :: items) = 61 :: (Qp.lineBreak cr ++ Qp.text items) := rfl
      rw [hcons] at hw
      by_cases hshort : w.length < 3
      · refine ⟨fun _ => ⟨s, loop_short hw hshort hfuel hblanks hroom, rfl⟩, fun hbreak => ?_⟩
        exact absurd hbreak.length_le (Nat.not_le.2 hshort)
      obtain ⟨fuel, rfl⟩ : ∃ n, fuel = n + 1 := ⟨fuel - 1, by omega⟩
      rcases w with - | ⟨b, - | ⟨c, - | ⟨d, w⟩⟩⟩
      · exact absurd (show 0 < 3 by decide) hshort
      · exact absurd (show 1 < 3 by decide) hshort
      · exact absurd (show 2 < 3 by decide) hshort
      obtain ⟨rfl, hw₁⟩ := List.cons_prefix_cons.1 hw
      simp only [List.length_cons] at hfuel
      cases cr with
      | false =>
        obtain ⟨rfl, hw₂⟩ :=
          List.cons_prefix_cons.1 (show c :: d :: w <+: 10 :: Qp.text items from hw₁)
        have hskip : [61, 13, 10] <:+: 61 :: 10 :: d :: w ↔ [61, 13, 10] <:+: d :: w := by
          simp [List.infix_cons_iff]
        have hround := round_soft (w := w) hblanks d
        rw [hskip, loop_of_round hroom hround]
        exact ih htail hw₂ (by simp only [List.length_cons]; omega) hblanks hroom
      | true =>
        obtain ⟨rfl, hw₂⟩ :=
          List.cons_prefix_cons.1 (show c :: d :: w <+: 13 :: 10 :: Qp.text items from hw₁)
        obtain ⟨rfl, -⟩ := List.cons_prefix_cons.1 hw₂
        have hbreak : [61, 13, 10] <:+: 61 :: 13 :: 10 :: w := ⟨[], w, rfl⟩
        refine ⟨fun hno => absurd hbreak hno, fun _ s' h => ?_⟩
        have hround := round_soft_cr (w := w) hblanks hroom
        rw [loop_of_round hroom hround] at h
        exact loop_mono h
    · have hws : ∀ b ∈ w, isWs b := fun b hb => hblank b (hw.subset hb)
      refine ⟨fun _ => loop_blanks hws hfuel, fun hbreak => ?_⟩
      have heq := hws 61 (hbreak.subset List.mem_cons_self)
      exact absurd heq (by decide)

end QpDecode

/-- Copies of a plain character are decoded to themselves. -/
theorem dicoQpDecode_replicate {a : UInt8} (ha : IsPlain a) {n : ℕ} {obuf : Bytes}
    (hn : n ≤ obuf.length) :
    ∃ obuf', dicoQpDecode (List.replicate n a) obuf = .ok (n, obuf', n) ∧
      obuf'.length = obuf.length ∧ obuf'.take n = List.replicate n a := by
  obtain ⟨obuf', hrun, hlen, htake⟩ :=
    @QpDecode.loop_replicate ⟨obuf, 0, 0, []⟩ a ha n ((List.replicate n a).length + 1)
      (by rw [List.length_replicate]; omega) rfl (by rwa [Nat.zero_add])
  simp only [Nat.zero_add, List.take_zero, List.nil_append] at hrun hlen htake
  refine ⟨obuf', ?_, hlen, htake⟩
  rw [dicoQpDecode, hrun, ok_bind]
  rfl

/-- No output comes of a loop that has none. -/
theorem silent_of_loop {w : Bytes} (h : ∀ obuf : Bytes, 3 < obuf.length →
    ∃ s, QpDecode.loop (w.length + 1) w ⟨obuf, 0, 0, []⟩ = .ok s ∧ s.nbytes = 0) :
    Silent dicoQpDecode w := by
  intro obuf hobuf
  obtain ⟨s, hrun, hzero⟩ := h obuf hobuf
  refine ⟨s.consumed - s.blanks.length, s.obuf, ?_⟩
  rw [dicoQpDecode, hrun, ok_bind, hzero]

/-- A character alone has no output, unless it is plain. -/
theorem silent_singleton {b : UInt8} (hb : ¬ IsPlain b) : Silent dicoQpDecode [b] := by
  refine silent_of_loop fun obuf hobuf => ?_
  have hroom : 0 < obuf.length := by omega
  by_cases hws : isWs b
  · exact QpDecode.loop_blanks (fun c hc => by rwa [List.mem_singleton.1 hc])
      (show 1 < 2 by decide)
  · by_cases heq : b = 61
    · rw [heq]
      exact ⟨_, QpDecode.loop_of_break hroom (QpDecode.round_short rfl (by decide)), rfl⟩
    · by_cases hcr : b = 13
      · rw [hcr]
        exact ⟨_, QpDecode.loop_of_break hroom (QpDecode.round_cr rfl), rfl⟩
      · exact absurd ⟨hws, heq, hcr⟩ hb

section Soft

variable {items : List Qp.Item} {w : Bytes} (hnil : Qp.decode items = []) (hw : w <+: Qp.text items)
include hnil hw

/-- The beginning of a text that stands for nothing. -/
theorem silent_soft (hbreak : ¬ [61, 13, 10] <:+: w) : Silent dicoQpDecode w := by
  refine silent_of_loop fun obuf hobuf => ?_
  have hroom : 0 < obuf.length := by omega
  exact (QpDecode.loop_soft (s := ⟨obuf, 0, 0, []⟩) hnil hw (Nat.lt_succ_self _) rfl hroom).1 hbreak

/-- With a carriage return in it. -/
theorem loud_soft (hbreak : [61, 13, 10] <:+: w) {obuf obuf' : Bytes} {rc n : ℕ}
    (hobuf : 3 < obuf.length) (hrun : dicoQpDecode w obuf = .ok (rc, obuf', n)) : n ≠ 0 := by
  have hroom : 0 < obuf.length := by omega
  obtain ⟨s, hloop, h⟩ := bind_eq_ok.1 hrun
  have hpos := (QpDecode.loop_soft (s := ⟨obuf, 0, 0, []⟩) hnil hw (Nat.lt_succ_self _) rfl
    hroom).2 hbreak s hloop
  obtain rfl := congrArg (fun r => r.2.2) (Except.ok.inj h)
  exact Nat.ne_of_gt hpos

end Soft

namespace DecodeStream

/-- A quoted-printable stream between two calls, where the bytes in use
are copies of one character. -/
structure Copies (a : UInt8) (ds : DecodeStream) : Prop where
  xcode : ds.xcode = dicoQpDecode
  minLevel : ds.minLevel = 4
  size : ds.buf.length = filterBsize
  going : ds.eof = false
  level : ds.level ≤ 4
  used : ds.buf.take ds.level = List.replicate ds.level a

section Copies

variable {a : UInt8} {ds : DecodeStream} {obuf : Bytes} {calls : DecodeCalls}

/-- All of them are decoded, and all of them are kept. -/
theorem Copies.decodeLevel (ha : IsPlain a) (h : Copies a ds) (hpos : ds.level ≠ 0)
    (hobuf : 3 < obuf.length) :
    ds.decodeLevel obuf = .ok (List.replicate ds.level a, ds) := by
  have hlevel := h.level
  have hsize : ds.level ≤ ds.buf.length := by
    rw [h.size, filterBsize]
    omega
  obtain ⟨obuf', hrun, hlen, htake⟩ :=
    dicoQpDecode_replicate ha (show ds.level ≤ obuf.length by omega)
  rw [← h.used, ← h.xcode] at hrun
  have hnone : (ds.buf.take ds.level).drop ds.level = [] := by
    rw [List.drop_take, Nat.sub_self, List.take_zero]
  rw [decodeLevel_eq hpos hsize (by omega) hrun, htake, hnone]
  rfl

/-- **Four bytes are returned again and again.** -/
theorem Copies.drain_ne (ha : IsPlain a) (h : Copies a ds) (hfull : ds.level = 4) (fuel k : ℕ)
    (out : Bytes) : drain calls fuel k ds ≠ .ok out := by
  induction fuel generalizing k out with
  | zero =>
    intro hdrain
    cases hdrain
  | succ fuel ih =>
    have hfill : ds.fill = .ok ds := by
      refine if_neg ?_
      rw [hfull, h.minLevel]
      exact Nat.lt_irrefl 4
    have hsome : List.replicate ds.level a ≠ [] := by
      rw [hfull]
      exact List.cons_ne_nil _ _
    have hread : ds.read (calls k).1 = .ok (List.replicate ds.level a, ds) := by
      rw [read_going h.going (calls k).2, filterRead, hfill, ok_bind,
        h.decodeLevel ha (by rw [hfull]; decide) (calls k).2, ok_bind]
      simp only [if_neg hsome]
    rw [drain, hread, ok_bind]
    simp only [if_neg hsome]
    intro hdrain
    obtain ⟨more, hmore, -⟩ := bind_eq_ok.1 hdrain
    exact ih (k + 1) more hmore

/-- What a read brings leaves copies of the character in use. -/
theorem Copies.filled (h : Copies a ds) (hlow : ds.level < 4) (hfew : ds.filled.level ≤ 4)
    (hcopies : (List.replicate ds.level a ++
        (ds.transport.read (filterBsize - ds.level)).1).take ds.filled.level =
      List.replicate ds.filled.level a) :
    ds.Low ∧ Copies a ds.filled := by
  have hds : ds.Low := by
    refine ⟨?_, ?_, h.size, h.going⟩
    · rwa [h.minLevel]
    · rw [h.minLevel]
      decide
  refine ⟨hds, h.xcode, h.minLevel, hds.length_filled, h.going, hfew, ?_⟩
  rw [take_filled, h.used]
  exact hcopies

/-- A call that reads something returns as many copies as it reads. -/
theorem Copies.read (ha : IsPlain a) (h : ds.Low ∧ Copies a ds.filled) (hobuf : 3 < obuf.length)
    (hpos : ds.filled.level ≠ 0) :
    ds.read obuf = .ok (List.replicate ds.filled.level a, ds.filled) := by
  rw [h.1.read hobuf, h.2.decodeLevel ha hpos hobuf, ok_bind, if_neg]
  intro hnil
  exact hpos ((List.replicate_eq_nil_iff a).1 hnil)

/-- What comes leaves copies of the character in use: there is nothing
else to come, and little of it, or the bytes come one by one. -/
def Feeds (a : UInt8) (level : ℕ) (x : Source) : Prop :=
  ((∀ b ∈ x.rest, b = a) ∧ x.rest.length ≤ 3) ∨
    (x.plan = List.replicate x.rest.length 0 ∧ level ≤ 1 ∧
      ∀ b ∈ (List.replicate level a ++ x.rest).head?, b = a)

/-- **One read.** -/
theorem Feeds.read {level : ℕ} {x : Source} (h : Feeds a level x) (hlevel : level < 4) :
    (x.read (filterBsize - level)).1.length ≤ 3 ∧
      (List.replicate level a ++ (x.read (filterBsize - level)).1).take
          (x.read (filterBsize - level)).1.length =
        List.replicate (x.read (filterBsize - level)).1.length a ∧
      Feeds a (x.read (filterBsize - level)).1.length (x.read (filterBsize - level)).2 := by
  have hrest := Source.read_append (x := x) (n := filterBsize - level)
  rcases h with ⟨hall, hfew⟩ | ⟨hplan, hone, hhead⟩
  · have hlen := congrArg List.length hrest
    rw [List.length_append] at hlen
    have hdata : (x.read (filterBsize - level)).1 =
        List.replicate (x.read (filterBsize - level)).1.length a := by
      refine List.eq_replicate_length.2 fun b hb => hall b ?_
      rw [← hrest]
      exact List.mem_append_left _ hb
    refine ⟨by omega, ?_, .inl ⟨fun b hb => hall b ?_, by omega⟩⟩
    · rw [hdata, List.length_replicate, ← List.replicate_add, List.take_replicate,
        Nat.min_eq_left (Nat.le_add_left _ _)]
    · rw [← hrest]
      exact List.mem_append_right _ hb
  · cases hx : x.rest with
    | nil =>
      have hnil : (x.read (filterBsize - level)).1 = [] ∧
          (x.read (filterBsize - level)).2.rest = [] := by
        rwa [hx, List.append_eq_nil_iff] at hrest
      rw [hnil.1]
      refine ⟨Nat.zero_le _, rfl, .inl ?_⟩
      rw [hnil.2]
      exact ⟨fun b hb => absurd hb List.not_mem_nil, Nat.zero_le _⟩
    | cons b t =>
      rw [hx, List.length_cons, List.replicate_succ] at hplan
      have hcount : x.count (filterBsize - level) = 1 := by
        rw [Source.count, hplan]
        change min (filterBsize - level) 1 = 1
        rw [filterBsize]
        omega
      have hdata : (x.read (filterBsize - level)).1 = [b] := by
        rw [Source.read, hcount, hx]
        rfl
      have hafter : (x.read (filterBsize - level)).2.rest = t := by
        rw [Source.read, hcount, hx]
        rfl
      have hplan' : (x.read (filterBsize - level)).2.plan = List.replicate t.length 0 := by
        rw [Source.read, hplan]
        rfl
      rw [hdata]
      refine ⟨show 1 ≤ 3 by decide, ?_, .inr ⟨?_, le_rfl, ?_⟩⟩
      · rw [hx] at hhead
        rcases Nat.le_one_iff_eq_zero_or_eq_one.1 hone with rfl | rfl
        · obtain rfl := hhead b rfl
          rfl
        · rfl
      · rw [hplan', hafter]
      · rintro c ⟨⟩
        rfl

/-- **Calls up to the end** return as many copies as there were bytes. -/
theorem Copies.drain (h : Copies a ds) (calls : DecodeCalls) (ha : IsPlain a) (fuel k : ℕ)
    (hlow : ds.level < 4) (hfeeds : Feeds a ds.level ds.transport)
    (hfuel : ds.transport.rest.length < fuel) :
    drain calls fuel k ds = .ok (List.replicate ds.transport.rest.length a) := by
  induction fuel generalizing ds k with
  | zero => omega
  | succ fuel ih =>
    obtain ⟨hfew, hcopies, hnext⟩ := hfeeds.read hlow
    have hfilled := h.filled hlow (show ds.filled.level ≤ 4 by
      exact Nat.le_succ_of_le hfew) hcopies
    have hrest := Source.read_append (x := ds.transport) (n := filterBsize - ds.level)
    have hlen := congrArg List.length hrest
    rw [List.length_append] at hlen
    by_cases hzero : ds.filled.level = 0
    · have hnil : (ds.transport.read (filterBsize - ds.level)).1 = [] :=
        List.length_eq_zero_iff.1 hzero
      have hend := (Source.read_eq_nil (by rw [filterBsize]; omega)).1 hnil
      rw [DecodeStream.drain, hfilled.1.read (calls k).2, DecodeStream.decodeLevel, if_pos hzero,
        hend]
      rfl
    · rw [DecodeStream.drain, Copies.read ha hfilled (calls k).2 hzero, ok_bind]
      have hsome : List.replicate ds.filled.level a ≠ [] := fun hnil =>
        hzero ((List.replicate_eq_nil_iff a).1 hnil)
      have hpos : 0 < (ds.transport.read (filterBsize - ds.level)).1.length :=
        Nat.pos_of_ne_zero hzero
      have hmore := ih hfilled.2 (k + 1) (show ds.filled.level < 4 from Nat.lt_succ_of_le hfew)
        hnext (show (ds.transport.read (filterBsize - ds.level)).2.rest.length < fuel by omega)
      simp only [if_neg hsome, hmore, ok_bind]
      rw [← List.replicate_add]
      exact congrArg (fun n => Except.ok (List.replicate n a)) hlen

end Copies

end DecodeStream

/-! ## Which texts are decoded -/

section Main

variable {junk : Junk} {calls : DecodeCalls} {plan : List ℕ} {content bytes : Bytes}

/-- What it means for the stream that is created. -/
theorem decodes_iff {encoding : Bytes} {ds : DecodeStream}
    (hds : codecCreate junk encoding (.new content plan) = some ds) :
    Decodes junk calls plan encoding content bytes ↔ ∃ fuel, drain calls fuel 0 ds = .ok bytes := by
  constructor
  · rintro ⟨ds', fuel, hds', hdrain⟩
    rw [hds] at hds'
    obtain rfl := Option.some.inj hds'
    exact ⟨fuel, hdrain⟩
  · rintro ⟨fuel, hdrain⟩
    exact ⟨ds, fuel, hds, hdrain⟩

/-- A base64 stream. -/
theorem decodes_base64 : Decodes junk calls plan (ascii "base64") content bytes ↔
    ∃ fuel, drain calls fuel 0 (create junk (.new content plan) 3 fltBase64Decode) = .ok bytes :=
  decodes_iff rfl

/-- A quoted-printable stream. -/
theorem decodes_qp : Decodes junk calls plan (ascii "quoted-printable") content bytes ↔
    ∃ fuel, drain calls fuel 0 (create junk (.new content plan) 4 dicoQpDecode) = .ok bytes :=
  decodes_iff rfl

/-- A first read of one byte. -/
theorem read_one (b : UInt8) (t : Bytes) (plan : List ℕ) :
    ((Source.new (b :: t) (0 :: plan)).read filterBsize).1 = [b] := rfl

/-- **Base64** is decoded where there is nothing to decode. -/
theorem base64_decodes_iff (t : Base64Text) :
    (∀ plan, Decodes junk calls plan (ascii "base64") t.text t.bytes) ↔ t.bytes = [] := by
  simp only [decodes_base64]
  constructor
  · intro h
    obtain ⟨fuel, hdrain⟩ := h [0]
    refine eq_nil_of_silent (by decide) (by decide) ?_ hdrain
    cases htext : t.text with
    | nil => exact fun hne => absurd rfl hne
    | cons b text =>
      intro _
      rw [read_one]
      exact silent_char (t.lt_of_mem (by rw [htext]; exact List.mem_cons_self))
  · intro h plan
    rw [h]
    refine ⟨1, drain_of_silent (by decide) (by decide) fun hne => ?_⟩
    refine silent_of_gather hne (b64gather_breaks (fun b hb => ?_) 0) (Nat.zero_le _)
    exact t.breaks_of_nil h b (List.mem_of_mem_take hb)

/-- A new quoted-printable stream. -/
theorem copies_create (a : UInt8) (x : Source) : Copies a (create junk x 4 dicoQpDecode) :=
  ⟨rfl, rfl, junk.2, rfl, Nat.zero_le _, rfl⟩

variable {items : List Qp.Item}

/-- A text whose first byte comes alone must be one of plain characters. -/
theorem replicate_of_decodes (hne : Qp.decode items ≠ [])
    (h : ∀ plan, Decodes junk calls plan (ascii "quoted-printable") (Qp.text items)
      (Qp.decode items)) :
    ∃ a, IsPlain a ∧ Qp.text items = List.replicate (Qp.text items).length a := by
  cases htext : Qp.text items with
  | nil =>
    have hle := (Qp.decode_length items).1
    rw [htext] at hle
    exact absurd (List.length_eq_zero_iff.1 (Nat.le_zero.1 hle)) hne
  | cons a t =>
    rw [← htext]
    have ha : IsPlain a := by
      by_contra ha
      obtain ⟨fuel, hdrain⟩ := decodes_qp.1 (h [0])
      refine hne (eq_nil_of_silent (by decide) (by decide) (fun _ => ?_) hdrain)
      rw [htext, read_one]
      exact silent_singleton ha
    -- byte by byte, the first one comes out again and again
    obtain ⟨fuel, hdrain⟩ := decodes_qp.1 (h (List.replicate (Qp.text items).length 0))
    have hfeeds : Feeds a 0 (.new (Qp.text items) (List.replicate (Qp.text items).length 0)) := by
      refine .inr ⟨rfl, Nat.zero_le _, fun b hb => ?_⟩
      rw [Source.new, htext] at hb
      exact (Option.some.inj hb).symm
    have hcopies := (@copies_create junk a (.new (Qp.text items)
        (List.replicate (Qp.text items).length 0))).drain calls ha
      ((Qp.text items).length + 1 + fuel) 0 (show 0 < 4 by decide) hfeeds
      (show (Qp.text items).length < (Qp.text items).length + 1 + fuel by omega)
    have hout := drain_add hdrain ((Qp.text items).length + 1)
    rw [Nat.add_comm fuel, hcopies] at hout
    have hdecode : Qp.decode items = List.replicate (Qp.text items).length a :=
      (Except.ok.inj hout).symm
    refine ⟨a, ha, ?_⟩
    have hsame := (Qp.decode_length items).2 (by rw [hdecode, List.length_replicate])
    rwa [hsame] at hdecode

/-- Four copies that come at once never end. -/
theorem drain_ne_of_four {a : UInt8} (ha : IsPlain a) {n : ℕ} (hn : 4 ≤ n) (fuel : ℕ)
    (out : Bytes) :
    drain calls fuel 0 (create junk (.new (List.replicate n a) [3]) 4 dicoQpDecode) ≠ .ok out := by
  have hdata : ((Source.new (List.replicate n a) [3]).read filterBsize).1 =
      List.replicate 4 a := by
    change (List.replicate n a).take 4 = List.replicate 4 a
    rw [List.take_replicate, Nat.min_eq_left hn]
  have hlevel : (create junk (.new (List.replicate n a) [3]) 4 dicoQpDecode).filled.level = 4 := by
    change ((Source.new (List.replicate n a) [3]).read filterBsize).1.length = 4
    rw [hdata, List.length_replicate]
  have hfilled := (@copies_create junk a (.new (List.replicate n a) [3])).filled
    (show 0 < 4 by decide) (le_of_eq hlevel) (by
      rw [hlevel]
      change ([] ++ ((Source.new (List.replicate n a) [3]).read filterBsize).1).take 4 = _
      rw [hdata]
      rfl)
  cases fuel with
  | zero =>
    intro hdrain
    cases hdrain
  | succ fuel =>
    rw [drain, Copies.read ha hfilled (calls 0).2 (by rw [hlevel]; decide), ok_bind, hlevel]
    intro hdrain
    obtain ⟨more, hmore, -⟩ := bind_eq_ok.1 hdrain
    exact hfilled.2.drain_ne ha hlevel fuel 1 more hmore

/-- **Quoted-printable** is decoded where the text is harmless. -/
theorem qp_decodes_iff :
    (∀ plan, Decodes junk calls plan (ascii "quoted-printable") (Qp.text items)
      (Qp.decode items)) ↔ Harmless items := by
  constructor
  · intro h
    by_cases hnil : Qp.decode items = []
    · refine .inl ⟨hnil, fun hbreak => ?_⟩
      obtain ⟨fuel, hdrain⟩ := decodes_qp.1 (h [])
      rw [hnil] at hdrain
      refine drain_of_loud (by decide) (by decide) ?_ ?_ hdrain
      · intro hempty
        have hlen := hbreak.length_le
        rw [show (Qp.text items).take filterBsize = [] from hempty] at hlen
        exact absurd hlen (by decide)
      · intro obuf rc obuf' n hobuf hrun
        exact loud_soft hnil (List.take_prefix _ _) hbreak hobuf hrun
    · obtain ⟨a, ha, htext⟩ := replicate_of_decodes hnil h
      refine .inr ⟨a, (Qp.text items).length, ha, ?_, htext⟩
      by_contra hlong
      obtain ⟨fuel, hdrain⟩ := decodes_qp.1 (h [3])
      rw [htext] at hdrain
      exact drain_ne_of_four ha (by omega) fuel _ hdrain
  · rintro (⟨hnil, hbreak⟩ | ⟨a, n, ha, hn, htext⟩) plan
    · rw [hnil, decodes_qp]
      refine ⟨1, drain_of_silent (by decide) (by decide) fun _ => ?_⟩
      refine silent_soft hnil (List.take_prefix _ _) fun hsome => hbreak (hsome.trans ?_)
      exact (List.take_prefix_take_left Source.count_le).isInfix
    · have hdecode : Qp.decode items = Qp.text items := by
        refine Qp.decode_eq_text fun b hb => ?_
        rw [htext] at hb
        obtain rfl := List.eq_of_mem_replicate hb
        exact ⟨fun h => ha.1 (.inl h), fun h => ha.1 (.inr h), ha.2⟩
      rw [hdecode, htext, decodes_qp]
      refine ⟨n + 1, ?_⟩
      have hfeeds : Feeds a 0 (.new (List.replicate n a) plan) := by
        refine .inl ⟨fun b hb => List.eq_of_mem_replicate hb, ?_⟩
        change (List.replicate n a).length ≤ 3
        rwa [List.length_replicate]
      have hdrain := (@copies_create junk a (.new (List.replicate n a) plan)).drain calls ha (n + 1)
        0 (show 0 < 4 by decide) hfeeds
        (show (List.replicate n a).length < n + 1 by rw [List.length_replicate]; omega)
      rw [create, Source.new, List.length_replicate] at hdrain
      exact hdrain

end Main

/-- **What is decoded whatever the transport does.** With calls of any
sizes: a base64 text, however it arrives, if and only if it stands for
nothing; a quoted-printable text if and only if it is harmless. -/
theorem codecStream_iff (junk : Junk) (calls : DecodeCalls) :
    (∀ t : Base64Text,
      (∀ plan, Decodes junk calls plan (ascii "base64") t.text t.bytes) ↔ t.bytes = []) ∧
    ∀ items : List Qp.Item,
      (∀ plan, Decodes junk calls plan (ascii "quoted-printable") (Qp.text items)
        (Qp.decode items)) ↔ Harmless items :=
  ⟨base64_decodes_iff, fun _ => qp_decodes_iff⟩

/-- Four characters of base64, the first of which arrives alone: nothing
is returned. -/
theorem codecStream_first_alone :
    Base64.encode (ascii "ABC") = ascii "QUJD" ∧
      ¬ Decodes ⟨List.replicate filterBsize 0, List.length_replicate⟩
        (fun _ => ⟨List.replicate 8 0, by decide⟩) [0] (ascii "base64") (ascii "QUJD")
        (ascii "ABC") := by
  refine ⟨by decide, ?_⟩
  intro h
  obtain ⟨fuel, hdrain⟩ := decodes_base64.1 h
  have hnil := eq_nil_of_silent (by decide) (by decide) (fun _ => silent_char (by decide)) hdrain
  exact absurd hnil (by decide)

end Dico
