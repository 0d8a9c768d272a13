import Dico.DictOrg.Dzip
import Dico.Stream.Faithful
import Mathlib.Data.List.Rotate
/-!
# The cache of chunks

A promotion takes an entry out of its place and puts it before the entries
that were asked for as often as it was until then, and the first of these
into the place that is free. That, and the entry that `cache_alloc` makes
or takes from the end, is all that ever happens to the order of the cache.

An entry gets its number before it is filled. If the chunk cannot be
loaded the entry stays, with the number of the chunk and without its
contents, and the next call for that chunk finds it.
-/

namespace Dico

namespace DictOrg

open Memory

/-! ## Promotion -/

/-- An entry that was asked for once more. -/
def CacheEntry.bump (cp : CacheEntry) : CacheEntry := { cp with refcount := cp.refcount + 1 }

variable {cache l rest : List CacheEntry} {cp e : CacheEntry}

/-- An entry asked for `r` times passes by the entries `b` and stops behind
the entries `a`. -/
structure Passes (a b : List CacheEntry) (r : UInt32) : Prop where
  lt : ∀ e ∈ b, e.refcount < r
  le : ∀ e ∈ a.getLast?, r ≤ e.refcount

/-- Where the loop of `cache_promote` stops. -/
theorem promoteTo_eq (l rest : List CacheEntry) (r : UInt32) :
    ∃ a b, l = a ++ b ∧ promoteTo (l ++ rest) r l.length = a.length ∧ Passes a b r := by
  induction l using List.reverseRecOn generalizing rest with
  | nil =>
    exact ⟨[], [], rfl, rfl, fun e he => absurd he List.not_mem_nil, fun e he => by cases he⟩
  | append_singleton l e ih =>
    rw [List.length_append, List.length_singleton, promoteTo, List.append_assoc,
      List.getElem?_append_right (le_refl _), Nat.sub_self]
    by_cases hle : r ≤ e.refcount
    · refine ⟨l ++ [e], [], (List.append_nil _).symm, ?_,
        fun e he => absurd he List.not_mem_nil, ?_⟩
      · rw [if_pos (by simpa using hle), List.length_append, List.length_singleton]
      · intro d hd
        rw [List.getLast?_concat] at hd
        obtain rfl := Option.some.inj hd
        exact hle
    · obtain ⟨a, b, rfl, hto, hb⟩ := ih ([e] ++ rest)
      refine ⟨a, b ++ [e], by rw [List.append_assoc], ?_, ?_, hb.le⟩
      · rw [if_neg (by simpa using hle), hto]
      · intro d hd
        rcases List.mem_append.1 hd with hd | hd
        · exact hb.lt d hd
        · rw [List.mem_singleton.1 hd]
          exact UInt32.not_le.1 hle

/-- **What a promotion does.** -/
theorem cachePromote_eq (l rest : List CacheEntry) (cp : CacheEntry) :
    ∃ a b, l = a ++ b ∧
      cachePromote (l ++ cp :: rest) l.length =
        .ok (a.length, a ++ cp.bump :: (b.rotate 1 ++ rest)) ∧
      Passes a b (cp.refcount + 1) := by
  obtain ⟨a, b, rfl, hto, hpass⟩ := promoteTo_eq l (cp :: rest) (cp.refcount + 1)
  refine ⟨a, b, rfl, ?_, hpass⟩
  have hget := getElem?_place (a ++ b) rest cp
  have hset := set_place (a ++ b) rest cp
  simp only [cachePromote, hget, hto, hset]
  cases b with
  | nil =>
    rw [List.append_nil] at hget ⊢
    simp only [hget, ne_eq, not_true_eq_false, if_false]
    rfl
  | cons e b =>
    have hother : ((a ++ e :: b) ++ cp :: rest)[a.length]? = some e := by
      rw [List.append_assoc]
      exact getElem?_place a (b ++ cp :: rest) e
    have hne : a.length ≠ (a ++ e :: b).length := by
      rw [List.length_append, List.length_cons]
      omega
    simp only [hother, if_pos hne]
    rw [List.append_assoc, List.set_append_right _ _ (le_refl _), Nat.sub_self,
      List.rotate_cons_succ, List.rotate_zero]
    simp only [List.cons_append, List.set_cons_zero, List.append_assoc, List.nil_append]
    rfl

/-- The entries are what they were, but for the one promoted. -/
theorem promoted_perm (a b rest : List CacheEntry) (cp : CacheEntry) :
    (a ++ cp.bump :: (b.rotate 1 ++ rest)).Perm ((a ++ b) ++ cp.bump :: rest) := by
  rw [List.append_assoc]
  refine List.Perm.append_left a ?_
  refine ((List.Perm.append_right rest (List.rotate_perm b 1)).cons cp.bump).trans ?_
  exact List.perm_middle.symm

/-! ## The order -/

/-- **A cache in order**: no more entries than there may be, each for
another chunk, those asked for more often first. -/
structure CacheOrdered (cacheSize : ℕ) (cache : List CacheEntry) : Prop where
  used_le : cache.length ≤ cacheSize
  distinct : (cache.map CacheEntry.num).Nodup
  sorted : cache.Pairwise fun a b => b.refcount ≤ a.refcount

/-- An entry that was replaced had been asked for least often. -/
def ReplacesLeast (before after : List CacheEntry) : Prop :=
  ∀ e ∈ before, e.num ∉ after.map CacheEntry.num → ∀ d ∈ before, e.refcount ≤ d.refcount

/-- **A promotion keeps the order**: the entries passed by were asked for
exactly as often as the one promoted was before. -/
theorem promoted_sorted {a b rest : List CacheEntry}
    (hs : ((a ++ b) ++ cp :: rest).Pairwise fun a b => b.refcount ≤ a.refcount)
    (hpass : Passes a b (cp.refcount + 1)) (hwrap : cp.refcount.toNat + 1 < 2 ^ 32) :
    (a ++ cp.bump :: (b.rotate 1 ++ rest)).Pairwise fun a b => b.refcount ≤ a.refcount := by
  obtain ⟨hb, ha⟩ := hpass
  simp only [UInt32.le_iff_toNat_le, UInt32.lt_iff_toNat_lt] at hs hb ha ⊢
  have hbump : (cp.refcount + 1).toNat = cp.refcount.toNat + 1 := by
    rw [UInt32.toNat_add]
    exact Nat.mod_eq_of_lt hwrap
  obtain ⟨hab, hcr, hcross⟩ := List.pairwise_append.1 hs
  obtain ⟨hsa, hsb, hsab⟩ := List.pairwise_append.1 hab
  obtain ⟨hcp, hrest⟩ := List.pairwise_cons.1 hcr
  have hmem : ∀ e, e ∈ b.rotate 1 ↔ e ∈ b := fun e => (List.rotate_perm b 1).mem_iff
  have heq : ∀ e ∈ b, e.refcount.toNat = cp.refcount.toNat := by
    intro e he
    have hlt := hb e he
    have hge := hcross e (List.mem_append_right _ he) cp List.mem_cons_self
    omega
  -- the last entry before those passed by bounds all the others before it
  have hage : ∀ e ∈ a, cp.refcount.toNat + 1 ≤ e.refcount.toNat := by
    intro e he
    rcases List.eq_nil_or_concat a with rfl | ⟨a', d, rfl⟩
    · exact absurd he List.not_mem_nil
    · rw [List.concat_eq_append] at ha hsa he
      have hd := ha d (by rw [List.getLast?_concat]; rfl)
      rw [hbump] at hd
      rcases List.mem_append.1 he with he | he
      · have := (List.pairwise_append.1 hsa).2.2 e he d List.mem_cons_self
        omega
      · rw [List.mem_singleton.1 he]
        exact hd
  have hle : ∀ e ∈ b.rotate 1 ++ rest, e.refcount.toNat ≤ cp.refcount.toNat := by
    intro e he
    rcases List.mem_append.1 he with he | he
    · exact (heq e ((hmem e).1 he)).le
    · exact hcp e he
  refine List.pairwise_append.2 ⟨hsa, List.pairwise_cons.2 ⟨?_, List.pairwise_append.2
    ⟨?_, hrest, ?_⟩⟩, ?_⟩
  · intro e he
    have := hle e he
    rw [CacheEntry.bump, hbump]
    omega
  · refine List.Pairwise.imp_of_mem (fun {d e} hd he _ => ?_) (List.pairwise_of_forall
      (R := fun _ _ => True) fun _ _ => trivial)
    rw [heq d ((hmem d).1 hd), heq e ((hmem e).1 he)]
  · intro d hd e he
    rw [heq d ((hmem d).1 hd)]
    exact hcp e he
  · intro d hd e he
    have hdge := hage d hd
    rcases List.mem_cons.1 he with rfl | he
    · rw [CacheEntry.bump, hbump]
      exact hdge
    · have := hle e he
      omega

/-- A promotion in a cache that is in order. -/
theorem CacheOrdered.promoted {n : ℕ} {a b : List CacheEntry}
    (h : CacheOrdered n ((a ++ b) ++ cp :: rest)) (hpass : Passes a b (cp.refcount + 1))
    (hwrap : cp.refcount.toNat + 1 < 2 ^ 32) :
    CacheOrdered n (a ++ cp.bump :: (b.rotate 1 ++ rest)) := by
  have hperm := promoted_perm a b rest cp
  refine ⟨?_, ?_, promoted_sorted h.sorted hpass hwrap⟩
  · have hlen := h.used_le
    rw [hperm.length_eq, List.length_append, List.length_cons]
    rwa [List.length_append, List.length_cons] at hlen
  · rw [(hperm.map _).nodup_iff]
    have hd := h.distinct
    rw [List.map_append, List.map_cons] at hd ⊢
    exact hd

/-- The order does not depend on what the entries hold. -/
theorem CacheOrdered.refilled {n : ℕ} {cp' : CacheEntry} (h : CacheOrdered n (l ++ cp :: rest))
    (hnum : cp'.num = cp.num) (hcount : cp'.refcount = cp.refcount) :
    CacheOrdered n (l ++ cp' :: rest) := by
  obtain ⟨hlen, hdist, hs⟩ := h
  refine ⟨?_, ?_, ?_⟩
  · rw [List.length_append, List.length_cons] at hlen ⊢
    exact hlen
  · rw [List.map_append, List.map_cons] at hdist ⊢
    rw [hnum]
    exact hdist
  · rw [List.pairwise_append, List.pairwise_cons] at hs ⊢
    obtain ⟨hl, ⟨hcp, hrest⟩, hcross⟩ := hs
    refine ⟨hl, ⟨fun e he => by rw [hcount]; exact hcp e he, hrest⟩, fun d hd e he => ?_⟩
    rcases List.mem_cons.1 he with rfl | he
    · rw [hcount]
      exact hcross d hd cp List.mem_cons_self
    · exact hcross d hd e (List.mem_cons_of_mem _ he)

/-! ## Entries for new chunks -/

theorem modify_concat (l : List CacheEntry) (e : CacheEntry) (f : CacheEntry → CacheEntry) :
    (l ++ [e]).modify l.length f = l ++ [f e] := by
  induction l with
  | nil => rfl
  | cons d l ih =>
    rw [List.cons_append, List.length_cons, List.modify_succ_cons, ih, List.cons_append]

/-- An entry to fill, in the cache that is there: a new one behind the
entries `l`, if there is room, or the one that was the last. -/
structure Slot (cacheSize chunkSize : ℕ) (cache l : List CacheEntry) (k : ℤ)
    (slot : CacheEntry) : Prop where
  num : slot.num = k
  refcount : slot.refcount = 0
  from_cache : (cache = l ∧ cache.length < cacheSize ∧ slot.buffer.length = chunkSize) ∨
    ∃ e, cache = l ++ [e] ∧ slot.buffer = e.buffer

/-- **What `cache_alloc` gives**, numbered. -/
theorem cacheAdmit_slot {cacheSize chunkSize : ℕ} (k : ℤ)
    (h : cache.length < cacheSize ∨ cache ≠ []) :
    ∃ l slot, Slot cacheSize chunkSize cache l k slot ∧
      cacheAdmit cacheSize chunkSize cache k = cachePromote (l ++ [slot]) l.length := by
  by_cases hlt : cache.length < cacheSize
  · refine ⟨cache, { cacheCreateChunk chunkSize with num := k },
      ⟨rfl, rfl, Or.inl ⟨rfl, hlt, List.length_replicate⟩⟩, ?_⟩
    rw [cacheAdmit, cacheAlloc, if_pos hlt]
    dsimp only
    rw [modify_concat]
  · obtain ⟨l, e, rfl⟩ := (List.eq_nil_or_concat cache).resolve_left (h.resolve_left hlt)
    rw [List.concat_eq_append] at hlt ⊢
    refine ⟨l, { e with refcount := 0, num := k }, ⟨rfl, rfl, Or.inr ⟨e, rfl, rfl⟩⟩, ?_⟩
    have hlen : (l ++ [e]).length - 1 = l.length := by
      rw [List.length_append, List.length_singleton]
      omega
    rw [cacheAdmit, cacheAlloc, if_neg hlt]
    dsimp only
    rw [hlen, modify_concat, modify_concat]

/-- And promoted. -/
theorem cacheAdmit_ok {cacheSize chunkSize : ℕ} (k : ℤ)
    (h : cache.length < cacheSize ∨ cache ≠ []) :
    ∃ a b slot, Slot cacheSize chunkSize cache (a ++ b) k slot ∧
      Passes a b (slot.refcount + 1) ∧
      cacheAdmit cacheSize chunkSize cache k = .ok (a.length, a ++ slot.bump :: b.rotate 1) := by
  obtain ⟨l, slot, hslot, hadmit⟩ := @cacheAdmit_slot cache cacheSize chunkSize k h
  obtain ⟨a, b, rfl, heq, hpass⟩ := cachePromote_eq l [] slot
  rw [List.append_nil] at heq
  exact ⟨a, b, slot, hslot, hpass, hadmit.trans heq⟩

/-- There is no other way to get an entry. -/
theorem cacheAdmit_eq {cacheSize chunkSize : ℕ} {k : ℤ} {r : ℕ × List CacheEntry}
    (h : cacheAdmit cacheSize chunkSize cache k = .ok r) :
    ∃ a b slot, Slot cacheSize chunkSize cache (a ++ b) k slot ∧
      Passes a b (slot.refcount + 1) ∧ r = (a.length, a ++ slot.bump :: b.rotate 1) := by
  by_cases hroom : cache.length < cacheSize ∨ cache ≠ []
  · obtain ⟨a, b, slot, hslot, hpass, hadmit⟩ := cacheAdmit_ok k hroom
    exact ⟨a, b, slot, hslot, hpass, Except.ok.inj (h.symm.trans hadmit)⟩
  · obtain ⟨hlt, hnil⟩ := not_or.1 hroom
    rw [not_not.1 hnil] at h hlt
    rw [cacheAdmit, cacheAlloc, if_neg hlt] at h
    cases h

namespace Slot

variable {n chunkSize : ℕ} {k : ℤ} {slot : CacheEntry}

/-- The cache has the entries that stay. -/
theorem mem (h : Slot n chunkSize cache l k slot) (he : e ∈ l) : e ∈ cache := by
  rcases h.from_cache with ⟨rfl, -, -⟩ | ⟨d, rfl, -⟩
  · exact he
  · exact List.mem_append_left _ he

/-- Also when some of them are passed by. -/
theorem mem_rotate {a b : List CacheEntry} (h : Slot n chunkSize cache (a ++ b) k slot)
    (he : e ∈ a ++ b.rotate 1) : e ∈ cache := by
  refine h.mem ?_
  rw [List.mem_append] at he ⊢
  exact he.imp_right (List.rotate_perm b 1).mem_iff.1

/-- **A new entry keeps the order.** -/
theorem ordered (h : Slot n chunkSize cache l k slot) (hord : CacheOrdered n cache)
    (hnew : ∀ e ∈ cache, e.num ≠ k) : CacheOrdered n (l ++ [slot]) := by
  have hsub : l.Sublist cache := by
    rcases h.from_cache with ⟨rfl, -, -⟩ | ⟨d, rfl, -⟩
    · exact List.Sublist.refl _
    · exact List.sublist_append_left _ _
  refine ⟨?_, ?_, ?_⟩
  · rw [List.length_append, List.length_singleton]
    rcases h.from_cache with ⟨rfl, hlt, -⟩ | ⟨d, rfl, -⟩
    · exact hlt
    · have hle := hord.used_le
      rwa [List.length_append, List.length_singleton] at hle
  · rw [List.map_append, List.map_singleton, h.num, List.nodup_append]
    refine ⟨hord.distinct.sublist (hsub.map _), List.nodup_singleton k, fun d hd e he => ?_⟩
    obtain ⟨cp, hcp, rfl⟩ := List.mem_map.1 hd
    rw [List.mem_singleton.1 he]
    exact hnew cp (h.mem hcp)
  · refine List.pairwise_append.2 ⟨hord.sorted.sublist hsub, List.pairwise_singleton _ _, ?_⟩
    intro d hd e he
    rw [List.mem_singleton.1 he, h.refcount]
    exact UInt32.zero_le

/-- **The entry replaced is the last one.** -/
theorem replaces (h : Slot n chunkSize cache l k slot) (hord : CacheOrdered n cache)
    {after : List CacheEntry}
    (hafter : ∀ e ∈ l, e.num ∈ after.map CacheEntry.num) : ReplacesLeast cache after := by
  intro e he hgone d hd
  rcases h.from_cache with ⟨rfl, -, -⟩ | ⟨last, rfl, -⟩
  · exact absurd (hafter e he) hgone
  · rcases List.mem_append.1 he with he | he
    · exact absurd (hafter e he) hgone
    · rw [List.mem_singleton.1 he]
      rcases List.mem_append.1 hd with hd | hd
      · exact (List.pairwise_append.1 hord.sorted).2.2 d hd last List.mem_cons_self
      · rw [List.mem_singleton.1 hd]
        exact UInt32.le_refl _

end Slot

namespace DictStream

variable {σ : Type} {Z : Inflate} {L : Limits} {T : Transport σ} {str str' : DictStream σ}
  {init : Bool} {junk i : ℕ} {k rc : ℤ} {oi : Option ℕ}

/-- A stream that is still the stream of the same file. -/
def Reloaded (str str' : DictStream σ) : Prop :=
  ∃ transport dev transportError buffer zstrReady cache, str' =
    { str with transport := transport, dev := dev, transportError := transportError,
               buffer := buffer, zstrReady := zstrReady, cache := cache }

/-- **Decompressing into an entry.** -/
theorem inflateInto_cases {rdbytes : ℕ} (hcache : str.cache = l ++ cp :: rest)
    (h : inflateInto Z str l.length rdbytes = .ok (rc, oi, str')) :
    ∃ input block, peek str.buffer 0 rdbytes = some input ∧
      poke cp.buffer 0 (Z input str.chunkSize).output = some block ∧
      ((rc = DE_INFLATE ∧
          str' = { str with cache := l ++ { cp with buffer := block } :: rest }) ∨
        ∃ out, Z input str.chunkSize = ⟨true, 0, out⟩ ∧ rc = 0 ∧ oi = some l.length ∧
          str' = { str with
            cache := l ++ { cp with buffer := block, size := out.length } :: rest }) := by
  have hget := getElem?_place l rest cp
  have hset := set_place l rest cp
  rw [← hcache] at hget hset
  unfold inflateInto at h
  cases hin : peek str.buffer 0 rdbytes with
  | none =>
    rw [hin] at h
    cases h
  | some input =>
    rw [hin, hget] at h
    dsimp only at h
    cases hblock : poke cp.buffer 0 (Z input str.chunkSize).output with
    | none =>
      rw [hblock] at h
      cases h
    | some block =>
      rw [hblock] at h
      dsimp only at h
      refine ⟨input, block, rfl, hblock, ?_⟩
      split at h
      · obtain ⟨rfl, hrest⟩ := Prod.mk.inj (Except.ok.inj h)
        obtain ⟨-, rfl⟩ := Prod.mk.inj hrest
        exact Or.inl ⟨rfl, by rw [hset]⟩
      case isFalse hok =>
        obtain ⟨rfl, hrest⟩ := Prod.mk.inj (Except.ok.inj h)
        obtain ⟨rfl, rfl⟩ := Prod.mk.inj hrest
        refine Or.inr ⟨(Z input str.chunkSize).output, ?_, rfl, rfl, by rw [hset]⟩
        simp only [Bool.or_eq_true, Bool.not_eq_true', bne_iff_ne, ne_eq, not_or,
          Bool.not_eq_false, not_not] at hok
        cases hz : Z input str.chunkSize with
        | mk ok pending output =>
          rw [hz] at hok
          obtain ⟨rfl, rfl⟩ := hok
          rfl

/-- **Filling an entry**: the seek fails, or `inflateInit2` does, or what
was read is decompressed. -/
theorem cacheFill_cases (h : cacheFill Z L T init junk str i k = .ok (rc, oi, str')) :
    ∃ c pos st x, str.chunkAt k = .ok c ∧
      str.transport.seek L T str.dev c.offset .set = .ok (pos, st, x) ∧
      ((pos < 0 ∧ rc = st.lastErr ∧
          str' = { str with transport := st, dev := x, transportError := st.lastErr }) ∨
        (0 ≤ pos ∧ rc = DE_INFLATE ∧ str' = { str with transport := st, dev := x }) ∨
        (0 ≤ pos ∧ ∃ r block, st.read T x c.length true = .ok r ∧
          poke str.buffer 0 r.data = some block ∧
          inflateInto Z { str with transport := r.st, dev := r.dev, buffer := block,
                                   zstrReady := true } i (r.pread.getD junk) =
            .ok (rc, oi, str'))) := by
  obtain ⟨c, hc, h⟩ := bind_eq_ok.1 h
  obtain ⟨⟨pos, st, x⟩, hseek, h⟩ := bind_eq_ok.1 h
  refine ⟨c, pos, st, x, hc, hseek, ?_⟩
  dsimp only at h
  split at h
  case isTrue hneg =>
    obtain ⟨rfl, hrest⟩ := Prod.mk.inj (Except.ok.inj h)
    obtain ⟨-, rfl⟩ := Prod.mk.inj hrest
    exact Or.inl ⟨hneg, rfl, rfl⟩
  case isFalse hpos =>
    refine Or.inr ?_
    unfold inflateReady at h
    by_cases hready : (str.zstrReady || init) = true
    · rw [if_pos hready] at h
      dsimp only at h
      obtain ⟨r, hr, h⟩ := bind_eq_ok.1 h
      cases hblock : poke str.buffer 0 r.data with
      | none =>
        rw [hblock] at h
        cases h
      | some block =>
        rw [hblock] at h
        exact Or.inr ⟨by omega, r, block, hr, hblock, h⟩
    · rw [if_neg hready] at h
      obtain ⟨rfl, hrest⟩ := Prod.mk.inj (Except.ok.inj h)
      obtain ⟨-, rfl⟩ := Prod.mk.inj hrest
      exact Or.inl ⟨by omega, rfl, rfl⟩

/-- **What filling an entry leaves alone.** -/
theorem cacheFill_frame (hcache : str.cache = l ++ cp :: rest)
    (h : cacheFill Z L T init junk str l.length k = .ok (rc, oi, str')) :
    Reloaded str str' ∧ ∃ cp', str'.cache = l ++ cp' :: rest ∧ cp'.num = cp.num ∧
      cp'.refcount = cp.refcount ∧ cp'.buffer.length = cp.buffer.length := by
  obtain ⟨c, pos, st, x, -, -, ⟨-, -, rfl⟩ | ⟨-, -, rfl⟩ | ⟨-, r, block, -, -, hinf⟩⟩ :=
    cacheFill_cases h
  · exact ⟨⟨_, _, _, _, _, _, rfl⟩, cp, hcache, rfl, rfl, rfl⟩
  · exact ⟨⟨_, _, _, _, _, _, rfl⟩, cp, hcache, rfl, rfl, rfl⟩
  · have hmid : ({ str with transport := r.st, dev := r.dev, buffer := block,
                             zstrReady := true } : DictStream σ).cache = l ++ cp :: rest := hcache
    obtain ⟨input, out, -, hpoke, ⟨-, rfl⟩ | ⟨_, -, -, -, rfl⟩⟩ := inflateInto_cases hmid hinf
    · exact ⟨⟨_, _, _, _, _, _, rfl⟩, _, rfl, rfl, rfl, length_of_poke hpoke⟩
    · exact ⟨⟨_, _, _, _, _, _, rfl⟩, _, rfl, rfl, rfl, length_of_poke hpoke⟩

/-- **A chunk that is in the cache.** -/
theorem cacheGet_hit (hfind : cacheFind str.cache k = some i) :
    ∃ a b cp rest, str.cache = (a ++ b) ++ cp :: rest ∧ cp.num = k ∧
      Passes a b (cp.refcount + 1) ∧
      cacheGet Z L T init junk str k =
        .ok (0, some a.length, { str with cache := a ++ cp.bump :: (b.rotate 1 ++ rest) }) := by
  obtain ⟨hi, hnum, -⟩ := List.findIdx?_eq_some_iff_getElem.1 hfind
  have hsplit : str.cache = str.cache.take i ++ str.cache[i] :: str.cache.drop (i + 1) := by
    rw [← List.drop_eq_getElem_cons hi, List.take_append_drop]
  have hlen : (str.cache.take i).length = i := by
    rw [List.length_take]
    omega
  obtain ⟨a, b, hab, heq, hpass⟩ := cachePromote_eq (str.cache.take i) (str.cache.drop (i + 1))
    str.cache[i]
  rw [← hsplit, hlen] at heq
  refine ⟨a, b, str.cache[i], str.cache.drop (i + 1), by rw [← hab, ← hsplit],
    of_decide_eq_true hnum, hpass, ?_⟩
  simp only [cacheGet, hfind, heq, ok_bind]

/-- A chunk that is not there. -/
theorem not_found (hfind : cacheFind cache k = none) : ∀ e ∈ cache, e.num ≠ k :=
  fun e he => of_decide_eq_false (List.findIdx?_eq_none_iff.1 hfind e he)

/-- **What `cache_get` does**: it promotes the entry of the chunk, or fills
one that has been numbered and promoted. -/
theorem cacheGet_cases (h : cacheGet Z L T init junk str k = .ok (rc, oi, str')) :
    (∃ a b cp rest, str.cache = (a ++ b) ++ cp :: rest ∧ cp.num = k ∧
      Passes a b (cp.refcount + 1) ∧ rc = 0 ∧ oi = some a.length ∧
      str' = { str with cache := a ++ cp.bump :: (b.rotate 1 ++ rest) }) ∨
    ((∀ e ∈ str.cache, e.num ≠ k) ∧ ∃ a b slot,
      Slot str.cacheSize str.chunkSize str.cache (a ++ b) k slot ∧
      Passes a b (slot.refcount + 1) ∧
      cacheFill Z L T init junk { str with cache := a ++ slot.bump :: b.rotate 1 } a.length k =
        .ok (rc, oi, str')) := by
  cases hfind : cacheFind str.cache k with
  | some i =>
    obtain ⟨a, b, cp, rest, hcache, hnum, hpass, hget⟩ :=
      @cacheGet_hit σ Z L T str init junk i k hfind
    rw [hget] at h
    obtain ⟨rfl, hrest⟩ := Prod.mk.inj (Except.ok.inj h)
    obtain ⟨rfl, rfl⟩ := Prod.mk.inj hrest
    exact Or.inl ⟨a, b, cp, rest, hcache, hnum, hpass, rfl, rfl, rfl⟩
  | none =>
    simp only [cacheGet, hfind] at h
    obtain ⟨r, hadmit, hfill⟩ := bind_eq_ok.1 h
    obtain ⟨a, b, slot, hslot, hpass, rfl⟩ := cacheAdmit_eq hadmit
    exact Or.inr ⟨not_found hfind, a, b, slot, hslot, hpass, hfill⟩

/-- **A call keeps the cache in order**, and replaces an entry only if none
was asked for less often. -/
theorem cacheGet_ordered (hord : CacheOrdered str.cacheSize str.cache)
    (hwrap : ∀ cp ∈ str.cache, cp.num = k → cp.refcount.toNat + 1 < 2 ^ 32)
    (h : cacheGet Z L T init junk str k = .ok (rc, oi, str')) :
    str'.cacheSize = str.cacheSize ∧ CacheOrdered str.cacheSize str'.cache ∧
      ReplacesLeast str.cache str'.cache := by
  rcases cacheGet_cases h with ⟨a, b, cp, rest, hcache, hnum, hpass, -, -, rfl⟩ |
    ⟨hnew, a, b, slot, hslot, hpass, hfill⟩
  · have hcp : cp ∈ str.cache := by
      rw [hcache]
      exact List.mem_append_right _ List.mem_cons_self
    have hlt := hwrap cp hcp hnum
    rw [hcache] at hord ⊢
    refine ⟨rfl, hord.promoted hpass hlt, fun e he hgone => absurd ?_ hgone⟩
    rw [((promoted_perm a b rest cp).map _).mem_iff, List.map_append, List.map_cons]
    have hmem := List.mem_map_of_mem (f := CacheEntry.num) he
    rw [List.map_append, List.map_cons] at hmem
    exact hmem
  · obtain ⟨⟨_, _, _, _, _, _, rfl⟩, cp', hcache, hnum, hcount, -⟩ := cacheFill_frame rfl hfill
    dsimp only at hcache
    subst hcache
    have hlt : slot.refcount.toNat + 1 < 2 ^ 32 := by
      rw [hslot.refcount]
      decide
    have hmid := (hslot.ordered hord hnew).promoted hpass hlt
    rw [List.append_nil] at hmid
    refine ⟨rfl, hmid.refilled hnum hcount, hslot.replaces hord fun e he => ?_⟩
    rw [List.map_append, List.map_cons, List.mem_append, List.mem_cons,
      ((List.rotate_perm b 1).map _).mem_iff]
    rcases List.mem_append.1 he with he | he
    · exact Or.inl (List.mem_map_of_mem he)
    · exact Or.inr (Or.inr (List.mem_map_of_mem he))

end DictStream

/-! ## Every sequence of calls -/

/-- A call of `cache_get`: the number of the chunk, whether `inflateInit2`
succeeds, and what `rdbytes` held. -/
structure Request where
  num : ℕ
  init : Bool
  junk : ℕ
  deriving DecidableEq, Repr

/-- A stream after a call of `cache_get`: the cache before the call, the
answer (the number asked for, the value, and the entry returned), and the
chunks for which the last call failed. -/
structure Served (σ : Type) where
  str : DictStream σ
  before : List CacheEntry
  answer : Option (ℕ × ℤ × Option CacheEntry)
  failed : List ℕ

/-- A call. -/
def request {σ : Type} (Z : Inflate) (L : Limits) (T : Transport σ) (q : Request)
    (s : Served σ) : Except Fault (Served σ) := do
  let (rc, i, str) ← s.str.cacheGet Z L T q.init q.junk q.num
  .ok { str := str
        before := s.str.cache
        answer := some (q.num, rc, i.bind (str.cache[·]?))
        failed := if rc = 0 then s.failed.filter (· ≠ q.num) else q.num :: s.failed }

/-- A stream that was just opened. -/
def Served.opened {σ : Type} (str : DictStream σ) : Served σ := ⟨str, [], none, []⟩

/-- Three compressed chunks: sixteen letters `a`, sixteen letters `b` and
four letters `c`. -/
def sampleChunks : List Bytes :=
  [[74, 76, 68, 5, 0, 0, 0, 0, 255, 255], [74, 74, 66, 5, 0, 0, 0, 0, 255, 255],
    [74, 78, 78, 78, 6, 0, 0, 0, 255, 255]]

/-- What they decompress to. -/
def samplePieces : List Bytes :=
  [List.replicate 16 97, List.replicate 16 98, List.replicate 4 99]

/-- What `inflate` does with them. -/
def sampleInflate : Inflate := fun input room =>
  match (sampleChunks.zip samplePieces).lookup input with
  | some out => if out.length ≤ room then ⟨true, 0, out⟩ else ⟨true, 1, out.take room⟩
  | none => ⟨false, input.length, []⟩

/-- A stream of the three chunks, at the beginning of the file. -/
def sampleStream : DictStream ℕ where
  transport := DicoStream.create true false true
  dev := 0
  transportError := 0
  chunkSize := 16
  chunk := [⟨10, 0⟩, ⟨10, 10⟩, ⟨10, 20⟩]
  size := 36
  offset := 0
  buffer := List.replicate 16 0
  zstrReady := false
  cacheSize := 2
  cache := []

section Runs

variable {σ : Type} {Z : Inflate} {L : Limits} {T : Transport σ}

/-- **The cache stays in order over every sequence of calls**, as long as
the counts do not overflow, and every entry replaced had been asked for
least often. -/
theorem cache_run_ordered {str : DictStream σ} (hempty : str.cache = []) (qs : List Request)
    (hcounts : Run.Heeded (request Z L T) (fun q s => ∀ cp ∈ s.str.cache, cp.num = q.num →
      cp.refcount.toNat + 1 < 2 ^ 32) qs (Served.opened str)) :
    Run.Always (request Z L T)
      (fun s => CacheOrdered str.cacheSize s.str.cache ∧ ReplacesLeast s.before s.str.cache) qs
      (Served.opened str) := by
  refine Run.Always.imp (P := fun s => s.str.cacheSize = str.cacheSize ∧
    CacheOrdered str.cacheSize s.str.cache ∧ ReplacesLeast s.before s.str.cache)
    (fun s hs => hs.2) (Run.always_of_heeded (fun q s s' hs hq hstep => ?_) ?_ hcounts)
  · obtain ⟨hsize, hord, -⟩ := hs
    obtain ⟨⟨rc, i, str'⟩, hget, hs'⟩ := bind_eq_ok.1 hstep
    obtain rfl := Except.ok.inj hs'
    rw [← hsize] at hord ⊢
    exact DictStream.cacheGet_ordered hord hq hget
  · refine ⟨rfl, ?_, fun e he => absurd he List.not_mem_nil⟩
    show CacheOrdered str.cacheSize str.cache
    rw [hempty]
    exact ⟨Nat.zero_le _, List.nodup_nil, List.Pairwise.nil⟩

/-- Three chunks in a cache for two. -/
theorem cache_run_ordered_sample :
    Run.Always (request sampleInflate ⟨1, 0, by decide⟩ (mapfile sampleChunks.flatten))
      (fun s => CacheOrdered 2 s.str.cache ∧ ReplacesLeast s.before s.str.cache)
      [⟨0, true, 0⟩, ⟨1, true, 0⟩, ⟨0, true, 0⟩, ⟨2, true, 0⟩] (Served.opened sampleStream) :=
  cache_run_ordered rfl _ (by decide +kernel)

/-! ## What the entries hold -/

/-- **The entry has the decompressed contents of a chunk.** -/
def Loaded (Z : Inflate) (content : Bytes) (chunk : List Chunk) (chunkSize : ℕ)
    (cp : CacheEntry) (k : ℕ) : Prop :=
  ∃ c out, chunk[k]? = some c ∧
    Z ((content.drop c.offset).take c.length) chunkSize = ⟨true, 0, out⟩ ∧
    cp.num = k ∧ cp.size = out.length ∧ cp.buffer.take cp.size = out

/-- A call that returned 0 returned the chunk it was asked for. -/
def Served.Right (Z : Inflate) (content : Bytes) (chunk : List Chunk) (chunkSize : ℕ)
    (s : Served σ) : Prop :=
  ∀ k cp, s.answer = some (k, 0, cp) → ∃ e, cp = some e ∧ Loaded Z content chunk chunkSize e k

/-- Whether the read of a chunk succeeds, if the seek before it does. -/
def DictStream.delivers (L : Limits) (T : Transport σ) (str : DictStream σ) (k : ℤ) : Bool :=
  match str.chunkAt k with
  | .error _ => true
  | .ok c =>
    match str.transport.seek L T str.dev c.offset .set with
    | .error _ => true
    | .ok (pos, st, x) =>
      match st.read T x c.length true with
      | .error _ => true
      | .ok r => pos < 0 || r.rc == 0

/-- **A call that cannot go wrong**: of a chunk that is in the cache, where
the last call for it did not fail; or of one that is not, where the read of
the transport does not fail. -/
def Request.Sound (L : Limits) (T : Transport σ) (q : Request) (s : Served σ) : Prop :=
  if ∃ cp ∈ s.str.cache, cp.num = q.num then q.num ∉ s.failed
  else s.str.delivers L T q.num = true

instance (q : Request) (s : Served σ) : Decidable (q.Sound L T s) :=
  inferInstanceAs (Decidable (ite _ _ _))

variable {content : Bytes} {pos : σ → ℕ} {chunk : List Chunk} {chunkSize : ℕ}

theorem DictStream.read_of_delivers {str : DictStream σ} {k p : ℤ} {c : Chunk} {st : DicoStream}
    {x : σ} {r : DicoStream.ReadResult σ} (h : str.delivers L T k = true)
    (hc : str.chunkAt k = .ok c)
    (hseek : str.transport.seek L T str.dev c.offset .set = .ok (p, st, x)) (hp : 0 ≤ p)
    (hr : st.read T x c.length true = .ok r) : r.rc = 0 := by
  simp only [DictStream.delivers, hc, hseek, hr, Bool.or_eq_true, decide_eq_true_eq,
    beq_iff_eq] at h
  omega

theorem DictStream.chunkAt_eq {str : DictStream σ} {k : ℕ} {c : Chunk}
    (h : str.chunkAt k = .ok c) : str.chunk[k]? = some c := by
  unfold DictStream.chunkAt at h
  dsimp only at h
  cases hk : str.chunk[k]? with
  | none =>
    rw [hk] at h
    cases h
  | some d =>
    rw [hk] at h
    rw [Except.ok.inj h]

/-- **Filling an entry, where the read does not fail**: it has the chunk, or
the call fails. -/
theorem cacheFill_loaded (hT : T.Faithful content pos) {str str' : DictStream σ}
    {l rest : List CacheEntry} {cp : CacheEntry} {k junk : ℕ} {init : Bool} {rc : ℤ} {oi : Option ℕ}
    (hcache : str.cache = l ++ cp :: rest) (hbare : str.transport.Naked)
    (hread : str.delivers L T k = true) (hnum : cp.num = k)
    (h : DictStream.cacheFill Z L T init junk str l.length k = .ok (rc, oi, str')) :
    str'.transport.Naked ∧ (rc = 0 → oi = some l.length ∧
      ∃ e, str'.cache[l.length]? = some e ∧ Loaded Z content str.chunk str.chunkSize e k) := by
  obtain ⟨c, p, st, x, hc, hseek, hcases⟩ := DictStream.cacheFill_cases h
  obtain ⟨hbare', hneg, hpos⟩ := hbare.seek hT hseek
  rcases hcases with ⟨hp, rfl, rfl⟩ | ⟨-, rfl, rfl⟩ | ⟨hp, r, block, hr, hblock, hinf⟩
  · exact ⟨hbare', fun h0 => absurd (Int.natCast_eq_zero.1 h0) (hneg hp)⟩
  · exact ⟨hbare', fun h0 => absurd h0 (by decide)⟩
  · obtain ⟨hx, heof, herr⟩ := hpos hp
    obtain ⟨hbare'', hdata, hpread⟩ := hbare'.read hT heof herr hr
      (DictStream.read_of_delivers hread hc hseek hp hr)
    have hmid : ({ str with transport := r.st, dev := r.dev, buffer := block,
                            zstrReady := true } : DictStream σ).cache = l ++ cp :: rest := hcache
    obtain ⟨input, out, hinput, hout, hcases⟩ := DictStream.inflateInto_cases hmid hinf
    rcases hcases with ⟨rfl, rfl⟩ | ⟨d, hz, rfl, rfl, rfl⟩
    · exact ⟨hbare'', fun h0 => absurd h0 (by decide)⟩
    · refine ⟨hbare'', fun _ => ⟨rfl, { cp with buffer := out, size := d.length }, ?_, c, d,
        DictStream.chunkAt_eq hc, ?_, hnum, rfl, ?_⟩⟩
      · exact getElem?_place _ _ _
      · -- what is decompressed is what was read, and that is the chunk
        rw [hpread, Option.getD_some] at hinput
        dsimp only at hinput
        rw [peek_poke hblock] at hinput
        obtain rfl := Option.some.inj hinput
        rw [hdata, hx] at hz
        exact hz
      · dsimp only at hout ⊢
        rw [hz] at hout
        have hpeek := peek_val (peek_poke hout)
        rwa [List.drop_zero] at hpeek

/-- **What holds between calls**: an entry has the chunk of its number, or
the last call for that chunk failed. -/
structure Filled (Z : Inflate) (content : Bytes) (chunk : List Chunk) (chunkSize : ℕ)
    (s : Served σ) : Prop where
  chunk_eq : s.str.chunk = chunk
  chunkSize_eq : s.str.chunkSize = chunkSize
  naked : s.str.transport.Naked
  entries : ∀ cp ∈ s.str.cache, ∃ k : ℕ, cp.num = k ∧
    (k ∈ s.failed ∨ Loaded Z content chunk chunkSize cp k)
  right : s.Right Z content chunk chunkSize

/-- What an entry has does not depend on how often it was asked for. -/
theorem Loaded.bump {cp : CacheEntry} {k : ℕ} (h : Loaded Z content chunk chunkSize cp k) :
    Loaded Z content chunk chunkSize cp.bump k := h

/-- An entry that is promoted. -/
theorem Filled.promoted {s : Served σ} (h : Filled Z content chunk chunkSize s)
    {a b rest : List CacheEntry} {cp : CacheEntry} (hcache : s.str.cache = (a ++ b) ++ cp :: rest) :
    ∀ e ∈ a ++ cp.bump :: (b.rotate 1 ++ rest), ∃ k : ℕ, e.num = k ∧
      (k ∈ s.failed ∨ Loaded Z content chunk chunkSize e k) := by
  have hall := h.entries
  rw [hcache] at hall
  obtain ⟨k, hk, hload⟩ := hall cp (List.mem_append_right _ List.mem_cons_self)
  intro e he
  exact forall_mem_place (x := cp.bump) (fun e he => hall e (mem_place he))
    ⟨k, hk, hload.imp_right Loaded.bump⟩ e ((promoted_perm a b rest cp).mem_iff.1 he)

/-- An entry that is filled. -/
theorem Filled.filled {s : Served σ} (h : Filled Z content chunk chunkSize s) {num : ℕ} {rc : ℤ}
    {a b : List CacheEntry} {cp : CacheEntry} (hnew : ∀ e ∈ s.str.cache, e.num ≠ num)
    (hmem : ∀ e ∈ a ++ b, e ∈ s.str.cache) (hnum : cp.num = num)
    (hload : rc = 0 → Loaded Z content chunk chunkSize cp num) :
    ∀ e ∈ a ++ cp :: b, ∃ k : ℕ, e.num = k ∧
      (k ∈ (if rc = 0 then s.failed.filter (· ≠ num) else num :: s.failed) ∨
        Loaded Z content chunk chunkSize e k) := by
  refine forall_mem_place (fun e he => ?_) ⟨num, hnum, ?_⟩
  · obtain ⟨k, hk, hload'⟩ := h.entries e (hmem e he)
    refine ⟨k, hk, hload'.imp_left fun hfail => ?_⟩
    have hne : k ≠ num := by
      rintro rfl
      exact hnew e (hmem e he) hk
    split
    · exact List.mem_filter.2 ⟨hfail, by rwa [decide_eq_true_eq]⟩
    · exact List.mem_cons_of_mem _ hfail
  · by_cases hrc : rc = 0
    · exact Or.inr (hload hrc)
    · rw [if_neg hrc]
      exact Or.inl List.mem_cons_self

/-- **A call that cannot go wrong keeps that.** -/
theorem Filled.request (hT : T.Faithful content pos) {q : Request} {s s' : Served σ}
    (h : Filled Z content chunk chunkSize s) (hq : q.Sound L T s)
    (hstep : request Z L T q s = .ok s') : Filled Z content chunk chunkSize s' := by
  obtain ⟨⟨rc, oi, str'⟩, hget, hs'⟩ := bind_eq_ok.1 hstep
  obtain rfl := Except.ok.inj hs'
  rcases DictStream.cacheGet_cases hget with ⟨a, b, cp, rest, hcache, hnum, -, rfl, rfl, rfl⟩ |
    ⟨hnew, a, b, slot, hslot, -, hfill⟩
  · -- the entry was in the cache, and the last call for it did not fail
    have hcp : cp ∈ s.str.cache := by
      rw [hcache]
      exact List.mem_append_right _ List.mem_cons_self
    rw [Request.Sound, if_pos ⟨cp, hcp, hnum⟩] at hq
    have hload : Loaded Z content chunk chunkSize cp.bump q.num := by
      obtain ⟨k, hk, hload⟩ := h.entries cp hcp
      obtain rfl : k = q.num := Int.natCast_inj.1 (hk.symm.trans hnum)
      exact (hload.resolve_left hq).bump
    have hget? := getElem?_place a (b.rotate 1 ++ rest) cp.bump
    refine ⟨h.chunk_eq, h.chunkSize_eq, h.naked, ?_, fun k e hans => ?_⟩
    · dsimp only
      rw [if_pos rfl, List.filter_eq_self.2 fun k hk => by
        rw [decide_eq_true_eq]
        rintro rfl
        exact hq hk]
      exact h.promoted hcache
    · simp only [Option.bind_some, hget?, Option.some.injEq, Prod.mk.injEq, true_and] at hans
      obtain ⟨rfl, rfl⟩ := hans
      exact ⟨cp.bump, rfl, hload⟩
  · rw [Request.Sound, if_neg (by rintro ⟨e, he, heq⟩; exact hnew e he heq)] at hq
    have hmid : ({ s.str with cache := a ++ slot.bump :: b.rotate 1 } : DictStream σ).cache =
      a ++ slot.bump :: b.rotate 1 := rfl
    have hnum : slot.bump.num = q.num := hslot.num
    obtain ⟨hbare, hload⟩ := cacheFill_loaded hT hmid h.naked hq hnum hfill
    obtain ⟨⟨_, _, _, _, _, _, rfl⟩, cp', hcache, hcp', -, -⟩ :=
      DictStream.cacheFill_frame rfl hfill
    dsimp only at hcache hload
    subst hcache
    rw [h.chunk_eq, h.chunkSize_eq] at hload
    refine ⟨h.chunk_eq, h.chunkSize_eq, hbare, ?_, fun k e hans => ?_⟩
    · refine h.filled hnew (fun e he => hslot.mem_rotate he) (hcp'.trans hslot.num) fun hrc => ?_
      obtain ⟨-, d, hd, hdl⟩ := hload hrc
      rw [getElem?_place] at hd
      obtain rfl := Option.some.inj hd
      exact hdl
    · simp only [Option.some.injEq, Prod.mk.injEq] at hans
      obtain ⟨rfl, rfl, rfl⟩ := hans
      obtain ⟨rfl, d, hd, hdl⟩ := hload rfl
      exact ⟨d, hd, hdl⟩

/-- **Every call that returns 0 returns the chunk it was asked for**, over
every sequence of calls in which none is for a chunk that is in the cache
after the last call for it failed, and no read of the transport fails. -/
theorem cache_run_right (hT : T.Faithful content pos) {str : DictStream σ}
    (hempty : str.cache = []) (hbare : str.transport.Naked) (qs : List Request)
    (hsound : Run.Heeded (request Z L T) (fun q s => q.Sound L T s) qs (Served.opened str)) :
    Run.Always (request Z L T) (Served.Right Z content str.chunk str.chunkSize) qs
      (Served.opened str) := by
  refine Run.Always.imp (P := Filled Z content str.chunk str.chunkSize) (fun s hs => hs.right)
    (Run.always_of_heeded (fun q s s' hs hq hstep => hs.request hT hq hstep) ?_ hsound)
  refine ⟨rfl, rfl, hbare, fun cp hcp => ?_, fun k cp h => by cases h⟩
  rw [Served.opened, hempty] at hcp
  exact absurd hcp List.not_mem_nil

/-- A file cut off in the second chunk: the third cannot be loaded, and the
first is asked for again. -/
theorem cache_run_right_sample :
    Run.Always (request sampleInflate ⟨1, 0, by decide⟩ (mapfile (sampleChunks.flatten.take 15)))
      (Served.Right sampleInflate (sampleChunks.flatten.take 15) sampleStream.chunk 16)
      [⟨0, true, 0⟩, ⟨2, true, 0⟩, ⟨0, true, 0⟩] (Served.opened sampleStream) :=
  cache_run_right (mapfile_faithful _) rfl (DicoStream.naked_create _ _ _) _ (by decide +kernel)

/-- The third chunk is asked for again instead: the call returns 0, with an
entry that has nothing. -/
theorem cache_run_not_right :
    (∀ q ∈ [(⟨2, true, 0⟩ : Request), ⟨2, true, 0⟩], q.num < sampleStream.chunk.length) ∧
    (mapfile (sampleChunks.flatten.take 15)).Faithful (sampleChunks.flatten.take 15) id ∧
    ¬ Run.Always (request sampleInflate ⟨1, 0, by decide⟩
        (mapfile (sampleChunks.flatten.take 15)))
      (Served.Right sampleInflate (sampleChunks.flatten.take 15) sampleStream.chunk 16)
      [⟨2, true, 0⟩, ⟨2, true, 0⟩] (Served.opened sampleStream) := by
  refine ⟨by decide, mapfile_faithful _, fun h => ?_⟩
  obtain ⟨e, -, c, out, hc, hz, -⟩ := h _ (List.prefix_refl _) _ rfl 2 _ rfl
  obtain rfl : (⟨10, 20⟩ : Chunk) = c := Option.some.inj hc
  have hok : (sampleInflate (((sampleChunks.flatten.take 15).drop 20).take 10) 16).ok = true :=
    congrArg Inflated.ok hz
  exact absurd hok (by decide +kernel)

end Runs

end DictOrg

end Dico
