import Dico.Hash.Model
import Mathlib.Data.List.Perm.Basic
/-!
# What a hash table holds

A table is `Bucketed` if every entry is in the bucket that the hasher says.
Adding an entry to its bucket keeps that, so moving all entries to a table
of another size does (`transferEntries_spec`), and the entries are the same.

Looking for an entry finds one that compares equal where there is one, but
only if those that compare equal have one bucket: `Agreeable` says so, of
the keys that a table is used with.
-/

namespace Dico

/-! ## Sizes -/

/-- Adding a bit to an even number, or to one that has it. -/
theorem or_one_odd (n : ℕ) : (n ||| 1) % 2 = 1 := by
  rw [Nat.or_mod_two_eq_one]
  exact .inr rfl

/-- The numbers that are tried are odd. -/
theorem nextPrimeLoop_odd {fuel candidate : ℕ} (h : candidate % 2 = 1) :
    nextPrimeLoop fuel candidate % 2 = 1 := by
  induction fuel generalizing candidate with
  | zero => exact h
  | succ fuel ih =>
    rw [nextPrimeLoop]
    split_ifs
    · exact ih (by omega)
    · exact h

/-- **The number of buckets is odd.** -/
theorem computeBucketSize_odd {fl : ℚ → ℚ} {candidate n : ℕ}
    (h : computeBucketSize fl candidate = some n) : n % 2 = 1 := by
  unfold computeBucketSize at h
  dsimp only at h
  split_ifs at h
  obtain rfl := Option.some.inj h
  exact nextPrimeLoop_odd (or_one_odd _)

/-! ## The entries -/

section Tables

variable {α : Type} {table : HashTable α} {i : ℕ} {a : α}

namespace HashTable

/-- All entries. -/
def entries (table : HashTable α) : List α := table.bucket.flatten

/-- An entry is in a bucket. -/
theorem mem_entries_iff : a ∈ table.entries ↔ ∃ i, a ∈ table.chain i := by
  unfold entries chain
  rw [List.mem_flatten]
  constructor
  · rintro ⟨c, hc, ha⟩
    obtain ⟨i, hi⟩ := List.getElem?_of_mem hc
    refine ⟨i, ?_⟩
    rwa [List.getD_eq_getElem?_getD, hi, Option.getD_some]
  · rintro ⟨i, ha⟩
    rw [List.getD_eq_getElem?_getD] at ha
    cases hi : table.bucket[i]? with
    | none =>
      rw [hi] at ha
      cases ha
    | some c =>
      rw [hi, Option.getD_some] at ha
      exact ⟨c, List.mem_of_getElem? hi, ha⟩

/-- There is none in a new table. -/
theorem entries_empty (n : ℕ) : (empty n : HashTable α).entries = [] := by
  unfold entries empty
  rw [List.flatten_eq_nil_iff]
  exact fun c hc => List.eq_of_mem_replicate hc

end HashTable

/-- A chain with one entry more has that, too. -/
theorem chainAdd_perm (a : α) (c : List α) : (chainAdd a c).Perm (a :: c) := by
  cases c with
  | nil => exact List.Perm.refl [a]
  | cons head overflow => exact List.Perm.swap a head overflow

/-- The order of a transfer is another order. -/
theorem transferOrder_perm (c : List α) : (transferOrder c).Perm c := by
  cases c with
  | nil => exact List.Perm.refl []
  | cons head overflow => exact List.perm_append_comm

/-- So is that of all chains. -/
theorem flatMap_transferOrder_perm (bucket : List (List α)) :
    (bucket.flatMap transferOrder).Perm bucket.flatten := by
  induction bucket with
  | nil => exact List.Perm.refl []
  | cons c bucket ih => exact (transferOrder_perm c).append ih

/-- The number of buckets stays. -/
theorem nBuckets_bucketAdd (table : HashTable α) (i : ℕ) (a : α) :
    (bucketAdd table i a).nBuckets = table.nBuckets := List.length_modify ..

/-- What the buckets hold with an entry more in one. -/
theorem mem_chain_bucketAdd {b : α} {j : ℕ} (h : b ∈ (bucketAdd table i a).chain j) :
    b ∈ table.chain j ∨ j = i ∧ b = a := by
  unfold bucketAdd HashTable.chain at h
  dsimp only at h
  rw [List.getD_eq_getElem?_getD, List.getElem?_modify] at h
  unfold HashTable.chain
  rw [List.getD_eq_getElem?_getD]
  cases hj : table.bucket[j]? with
  | none =>
    rw [hj] at h
    cases h
  | some c =>
    rw [hj, Option.map_eq_map, Option.map_some, Option.getD_some] at h
    by_cases hij : i = j
    · rw [if_pos hij] at h
      rcases List.mem_cons.1 ((chainAdd_perm a c).subset h) with rfl | hb
      · exact .inr ⟨hij.symm, rfl⟩
      · exact .inl hb
    · rw [if_neg hij] at h
      exact .inl h

/-- A list of chains with an entry more in one has that entry more. -/
theorem flatten_modify_perm {bucket : List (List α)} (hi : i < bucket.length) (a : α) :
    (bucket.modify i (chainAdd a)).flatten.Perm (a :: bucket.flatten) := by
  induction bucket generalizing i with
  | nil => cases hi
  | cons c bucket ih =>
    cases i with
    | zero =>
      rw [List.modify_zero_cons, List.flatten_cons, List.flatten_cons]
      exact (chainAdd_perm a c).append_right _
    | succ i =>
      rw [List.modify_succ_cons, List.flatten_cons, List.flatten_cons]
      exact ((ih (Nat.lt_of_succ_lt_succ hi)).append_left c).trans List.perm_middle

/-- So does a table. -/
theorem entries_bucketAdd_perm (hi : i < table.nBuckets) (a : α) :
    (bucketAdd table i a).entries.Perm (a :: table.entries) := flatten_modify_perm hi a

end Tables

/-! ## Moving entries -/

section Moves

variable {α : Type} {fs : HashFunctions α} {fl : ℚ → ℚ} {table : HashTable α} {i : ℕ} {a : α}

/-- A hasher that has a bucket for every key, where the number of buckets is
odd. -/
def HasherOk (fs : HashFunctions α) : Prop :=
  ∀ a n, n % 2 = 1 → ∃ i, fs.hasher a n = .ok i ∧ i < n

/-- A table with every entry in its bucket. -/
structure Bucketed (fs : HashFunctions α) (table : HashTable α) : Prop where
  odd : table.nBuckets % 2 = 1
  placed : ∀ i, ∀ a ∈ table.chain i, fs.hasher a table.nBuckets = .ok i

/-- The bucket of a key. -/
theorem Bucketed.safeHasher (h : Bucketed fs table) (hok : HasherOk fs) (a : α) :
    ∃ i, Dico.safeHasher fs table a = .ok i ∧ fs.hasher a table.nBuckets = .ok i ∧
      i < table.nBuckets := by
  obtain ⟨i, hi, hlt⟩ := hok a table.nBuckets h.odd
  refine ⟨i, ?_, hi, hlt⟩
  rw [Dico.safeHasher, hi, ok_bind, if_pos hlt]

/-- **It stays so** when another entry is put into its bucket. -/
theorem Bucketed.bucketAdd (h : Bucketed fs table) (ha : fs.hasher a table.nBuckets = .ok i) :
    Bucketed fs (Dico.bucketAdd table i a) := by
  constructor
  · rw [nBuckets_bucketAdd]
    exact h.odd
  · intro j b hb
    rw [nBuckets_bucketAdd]
    rcases mem_chain_bucketAdd hb with hb | ⟨rfl, rfl⟩
    · exact h.placed j b hb
    · exact ha

/-- So is a new table. -/
theorem bucketed_empty {n : ℕ} (hn : n % 2 = 1) : Bucketed fs (HashTable.empty n) := by
  constructor
  · unfold HashTable.nBuckets HashTable.empty
    rwa [List.length_replicate]
  · intro i a ha
    have hmem := HashTable.mem_entries_iff.2 ⟨i, ha⟩
    rw [HashTable.entries_empty] at hmem
    cases hmem

/-- **All entries of a list are moved.** -/
theorem transferEntries_spec (hok : HasherOk fs) {dst : HashTable α} (h : Bucketed fs dst)
    (l : List α) : ∃ dst', transferEntries fs dst l = .ok dst' ∧ Bucketed fs dst' ∧
      dst'.nBuckets = dst.nBuckets ∧ dst'.entries.Perm (l ++ dst.entries) := by
  induction l generalizing dst with
  | nil => exact ⟨dst, rfl, h, rfl, List.Perm.refl _⟩
  | cons data rest ih =>
    obtain ⟨i, hsafe, hhash, hi⟩ := h.safeHasher hok data
    obtain ⟨dst', hmove, hbuck, hsize, hperm⟩ := ih (h.bucketAdd hhash)
    rw [nBuckets_bucketAdd] at hsize
    refine ⟨dst', ?_, hbuck, hsize, hperm.trans ?_⟩
    · rw [transferEntries, hsafe, ok_bind, hmove]
    · exact ((entries_bucketAdd_perm hi data).append_left rest).trans List.perm_middle

/-- **A table that is made larger** holds the same entries. -/
theorem hashRehash_spec (hok : HasherOk fs) (h : Bucketed fs table) (candidate : ℕ) :
    ∃ r, hashRehash fs fl table candidate = .ok r ∧
      ∀ table' ∈ r, Bucketed fs table' ∧ table'.entries.Perm table.entries := by
  rw [hashRehash]
  cases hsize : computeBucketSize fl candidate with
  | none => exact ⟨none, rfl, fun _ ht => by cases ht⟩
  | some newSize =>
    dsimp only
    split_ifs
    · refine ⟨some table, rfl, ?_⟩
      rintro _ ⟨⟩
      exact ⟨h, List.Perm.refl _⟩
    · obtain ⟨dst, hmove, hbuck, -, hperm⟩ := transferEntries_spec hok
        (bucketed_empty (computeBucketSize_odd hsize))
        (table.bucket.flatMap transferOrder)
      rw [HashTable.entries_empty, List.append_nil] at hperm
      refine ⟨some { dst with nEntries := table.nEntries }, ?_, ?_⟩
      · rw [hmove, ok_bind]
      · rintro _ ⟨⟩
        exact ⟨⟨hbuck.odd, hbuck.placed⟩, hperm.trans (flatMap_transferOrder_perm _)⟩

end Moves

/-! ## Looking for an entry -/

section Keys

variable {α : Type} {fs : HashFunctions α} {P : α → Prop} {table : HashTable α} {x : α}

/-- Keys that the hasher and the comparator agree on: those that compare
equal have one bucket. -/
structure Agreeable (fs : HashFunctions α) (P : α → Prop) : Prop where
  hasherOk : HasherOk fs
  refl : ∀ a, fs.comparator a a = true
  symm : ∀ a b, fs.comparator a b = true → fs.comparator b a = true
  agree : ∀ a b, P a → P b → fs.comparator a b = true →
    ∀ n, n % 2 = 1 → fs.hasher a n = fs.hasher b n

/-- A table of such keys, of which no two compare equal. -/
structure HoldsKeys (fs : HashFunctions α) (P : α → Prop) (table : HashTable α) : Prop
    extends Bucketed fs table where
  keys : ∀ a ∈ table.entries, P a
  distinct : table.entries.Pairwise fun a b => fs.comparator a b = false

/-- A new table holds nothing. -/
theorem holdsKeys_empty {n : ℕ} (hn : n % 2 = 1) : HoldsKeys fs P (HashTable.empty n) where
  toBucketed := bucketed_empty hn
  keys := by
    intro a ha
    rw [HashTable.entries_empty] at ha
    cases ha
  distinct := by
    rw [HashTable.entries_empty]
    exact List.Pairwise.nil

/-- Which entries two tables hold, and not in which order, is what counts. -/
theorem HoldsKeys.of_perm {table' : HashTable α} (hag : Agreeable fs P) (h : HoldsKeys fs P table)
    (hbuck : Bucketed fs table') (hperm : table'.entries.Perm table.entries) :
    HoldsKeys fs P table' where
  toBucketed := hbuck
  keys := fun a ha => h.keys a (hperm.subset ha)
  distinct := by
    refine (hperm.pairwise_iff fun {a b} hab => ?_).2 h.distinct
    by_contra hba
    rw [Bool.not_eq_false] at hba
    rw [hag.symm b a hba] at hab
    cases hab

/-- **One more key** that compares equal to none. -/
theorem HoldsKeys.add {table' : HashTable α} (h : HoldsKeys fs P table) (hx : P x)
    (hnew : ∀ a ∈ table.entries, fs.comparator x a = false) (hag : Agreeable fs P)
    (hbuck : Bucketed fs table') (hperm : table'.entries.Perm (x :: table.entries)) :
    HoldsKeys fs P table' where
  toBucketed := hbuck
  keys := by
    intro a ha
    rcases List.mem_cons.1 (hperm.subset ha) with rfl | ha
    · exact hx
    · exact h.keys a ha
  distinct := by
    refine (hperm.pairwise_iff fun {a b} hab => ?_).2 (List.pairwise_cons.2 ⟨hnew, h.distinct⟩)
    by_contra hba
    rw [Bool.not_eq_false] at hba
    rw [hag.symm b a hba] at hab
    cases hab

variable [DecidableEq α] (fl : ℚ → ℚ)

/-- An entry that is the same compares equal anyway. -/
theorem matchesEntry_eq (hag : Agreeable fs P) (a b : α) :
    matchesEntry fs a b = fs.comparator a b := by
  unfold matchesEntry
  by_cases hab : a = b
  · subst hab
    rw [hag.refl, Bool.or_true]
  · rw [decide_eq_false hab, Bool.false_or]

/-- **What is looked for is found where it is there**: an equal key is in
the bucket that is searched. -/
theorem hashFindEntry_spec (hag : Agreeable fs P) (h : HoldsKeys fs P table) (hx : P x) :
    ∃ r i, hashFindEntry fs table x = .ok (r, i) ∧ hashTableLookup fs table x = .ok r ∧
      fs.hasher x table.nBuckets = .ok i ∧ i < table.nBuckets ∧
      (∀ d, r = some d → d ∈ table.entries ∧ fs.comparator x d = true) ∧
      (r = none → ∀ a ∈ table.entries, fs.comparator x a = false) := by
  obtain ⟨i, hsafe, hhash, hi⟩ := h.toBucketed.safeHasher hag.hasherOk x
  refine ⟨_, i, by rw [hashFindEntry, hsafe, ok_bind], by rw [hashTableLookup, hsafe, ok_bind],
    hhash, hi, fun d hd => ?_, fun hnone a ha => ?_⟩
  · have hmatch := List.find?_some hd
    rw [matchesEntry_eq hag] at hmatch
    exact ⟨HashTable.mem_entries_iff.2 ⟨i, List.mem_of_find?_eq_some hd⟩, hmatch⟩
  · by_contra hcomp
    rw [Bool.not_eq_false] at hcomp
    obtain ⟨j, hj⟩ := HashTable.mem_entries_iff.1 ha
    have hplace := h.placed j a hj
    rw [← hag.agree x a hx (h.keys a ha) hcomp _ h.odd, hhash] at hplace
    obtain rfl := Except.ok.inj hplace
    have hmatch := List.find?_eq_none.1 hnone a hj
    rw [matchesEntry_eq hag] at hmatch
    exact hmatch hcomp

/-- A key that is not there has its bucket in the table that was made large
enough for it. -/
theorem growFor_spec (hag : Agreeable fs P) (h : HoldsKeys fs P table) (hx : P x) {i : ℕ}
    (hhash : fs.hasher x table.nBuckets = .ok i) (hi : i < table.nBuckets)
    (hnew : ∀ a ∈ table.entries, fs.comparator x a = false) :
    ∃ r, growFor fs fl table x i = .ok r ∧ ∀ table' i', r = some (table', i') →
      HoldsKeys fs P table' ∧ table'.entries.Perm table.entries ∧
        fs.hasher x table'.nBuckets = .ok i' ∧ i' < table'.nBuckets := by
  rw [growFor]
  split_ifs
  · cases hcand : growthCandidate fl table.nBuckets with
    | none => exact ⟨none, rfl, fun _ _ ht => by cases ht⟩
    | some candidate =>
      obtain ⟨r, hrehash, hr⟩ := hashRehash_spec hag.hasherOk h.toBucketed candidate
      dsimp only
      rw [hrehash, ok_bind]
      cases r with
      | none => exact ⟨none, rfl, fun _ _ ht => by cases ht⟩
      | some table' =>
        obtain ⟨hbuck, hperm⟩ := hr table' rfl
        have hholds := h.of_perm hag hbuck hperm
        obtain ⟨r', i', hfind, -, hhash', hi', hsome, -⟩ := hashFindEntry_spec hag hholds hx
        -- an equal key would have been found before
        have hnone : r' = none := by
          cases r' with
          | none => rfl
          | some d =>
            obtain ⟨hd, hcomp⟩ := hsome d rfl
            rw [hnew d (hperm.subset hd)] at hcomp
            cases hcomp
        subst hnone
        dsimp only
        rw [hfind, ok_bind]
        refine ⟨some (table', i'), rfl, fun t j ht => ?_⟩
        obtain ⟨rfl, rfl⟩ := Prod.mk.inj (Option.some.inj ht)
        exact ⟨hholds, hperm, hhash', hi'⟩
  · refine ⟨some (table, i), rfl, fun t j ht => ?_⟩
    obtain ⟨rfl, rfl⟩ := Prod.mk.inj (Option.some.inj ht)
    exact ⟨h, List.Perm.refl _, hhash, hi⟩

/-- **Inserting a key**: one that compares equal is returned, and the table
stays as it is; where there is none, the key is in the table. -/
theorem hashInsert_spec (hag : Agreeable fs P) (h : HoldsKeys fs P table) (hx : P x) :
    ∃ r, hashInsert fs fl table x = .ok r ∧ ∀ table' d, r = some (table', d) →
      HoldsKeys fs P table' ∧ fs.comparator x d = true ∧
        (table' = table ∧ d ∈ table.entries ∨
          d = x ∧ (∀ a ∈ table.entries, fs.comparator x a = false) ∧
            table'.entries.Perm (x :: table.entries)) := by
  obtain ⟨r, i, hfind, -, hhash, hi, hsome, hnone⟩ := hashFindEntry_spec hag h hx
  rw [hashInsert, hfind, ok_bind]
  cases r with
  | some data =>
    obtain ⟨hmem, hcomp⟩ := hsome data rfl
    refine ⟨some (table, data), rfl, fun t d ht => ?_⟩
    obtain ⟨rfl, rfl⟩ := Prod.mk.inj (Option.some.inj ht)
    exact ⟨h, hcomp, .inl ⟨rfl, hmem⟩⟩
  | none =>
    have hnew := hnone rfl
    obtain ⟨r, hgrow, hr⟩ := growFor_spec fl hag h hx hhash hi hnew
    dsimp only
    rw [hgrow, ok_bind]
    cases r with
    | none => exact ⟨none, rfl, fun _ _ ht => by cases ht⟩
    | some p =>
      obtain ⟨table', i'⟩ := p
      obtain ⟨hholds, hperm, hhash', hi'⟩ := hr table' i' rfl
      refine ⟨some _, rfl, fun t d ht => ?_⟩
      obtain ⟨rfl, rfl⟩ := Prod.mk.inj (Option.some.inj ht)
      have hbuck := hholds.toBucketed.bucketAdd hhash'
      have hadd : ({ bucketAdd table' i' x with nEntries := table'.nEntries + 1 } :
          HashTable α).entries.Perm (x :: table.entries) :=
        (entries_bucketAdd_perm hi' x).trans (hperm.cons x)
      exact ⟨h.add hx hnew hag ⟨hbuck.odd, hbuck.placed⟩ hadd, hag.refl x,
        .inr ⟨rfl, hnew, hadd⟩⟩

end Keys

end Dico
