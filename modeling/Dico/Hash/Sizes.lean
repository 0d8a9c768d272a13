import Dico.Hash.Content
import Mathlib.Data.Nat.Prime.Basic
import Mathlib.Order.Bounds.Defs
import Mathlib.Tactic.Linarith
/-!
# The sizes of hash tables

`is_prime` of `gnu/hash.c` divides by the odd numbers up to the square root,
and is right as long as the square it keeps does not overflow
(`isPrime_iff`). So the number of buckets is the least prime that is not
below the size that is wanted, in every table that a program makes
(`Made`), and the counters that `hash_table_ok` checks are right there.

A table that is too full grows by more than a fifth, whatever `float` does
to the sizes: each operation is off by one part in `2 ^ 24` at most.
-/

namespace Dico

/-! ## Primes -/

section Primes

variable {candidate : ℕ}

/-- No odd number below is a divisor. -/
def Tried (candidate divisor : ℕ) : Prop :=
  ∀ d, 3 ≤ d → d < divisor → d % 2 = 1 → ¬ d ∣ candidate

/-- **The divisor that the loop stops at**: it is one, or its square is not
below the number, and no odd one before it is. -/
theorem isPrimeLoop_spec (hhi : candidate ≤ (2 ^ 32 - 1) ^ 2) (fuel divisor : ℕ)
    (hfuel : candidate < divisor + fuel) (hodd : divisor % 2 = 1) (hlo : 3 ≤ divisor)
    (htried : Tried candidate divisor) (hbelow : divisor = 3 ∨ (divisor - 2) ^ 2 < candidate) :
    ∃ d, isPrimeLoop candidate fuel divisor (divisor ^ 2) = d ∧ 3 ≤ d ∧ d % 2 = 1 ∧
      Tried candidate d ∧ (d = 3 ∨ (d - 2) ^ 2 < candidate) ∧
      (candidate ≤ d ^ 2 ∨ d ∣ candidate) := by
  induction fuel generalizing divisor with
  | zero =>
    have hsquare : divisor ≤ divisor ^ 2 := Nat.le_self_pow (by omega) divisor
    exact ⟨divisor, rfl, hlo, hodd, htried, hbelow, .inl (by omega)⟩
  | succ fuel ih =>
    unfold isPrimeLoop
    split_ifs with h
    · obtain ⟨hlt, hmod⟩ := h
      have hsmall : divisor < 2 ^ 32 - 1 := lt_of_pow_lt_pow_left₀ 2 (Nat.zero_le _) (by omega)
      have hnext : divisor ^ 2 + 4 * (divisor + 1) = (divisor + 2) ^ 2 := by ring
      -- the next square fits
      have hfits : (divisor + 2) ^ 2 < 2 ^ 64 := by
        have hle : divisor + 2 ≤ 2 ^ 32 - 1 := by omega
        calc (divisor + 2) ^ 2 ≤ (2 ^ 32 - 1) ^ 2 := Nat.pow_le_pow_left hle 2
          _ < 2 ^ 64 := by norm_num
      rw [hnext, Nat.mod_eq_of_lt hfits]
      refine ih (divisor + 2) (by omega) (by omega) (by omega) ?_ (.inr ?_)
      · intro d hd3 hd hdodd hdvd
        rcases Nat.lt_trichotomy d divisor with hd' | rfl | hd'
        · exact htried d hd3 hd' hdodd hdvd
        · exact hmod (Nat.mod_eq_zero_of_dvd hdvd)
        · omega
      · rwa [Nat.add_sub_cancel]
    · rw [not_and_or, not_lt, not_not] at h
      refine ⟨divisor, rfl, hlo, hodd, htried, hbelow, ?_⟩
      exact h.imp id Nat.dvd_of_mod_eq_zero

/-- **`is_prime` is right** for odd numbers whose square root has 32 bits,
but for the smallest. -/
theorem isPrime_iff (hodd : candidate % 2 = 1) (hlo : 9 ≤ candidate)
    (hhi : candidate ≤ (2 ^ 32 - 1) ^ 2) : isPrime candidate = true ↔ candidate.Prime := by
  obtain ⟨d, hd, hd3, hdodd, htried, hbelow, hstop⟩ :=
    isPrimeLoop_spec hhi candidate 3 (by omega) rfl le_rfl (fun d h₁ h₂ => by omega) (.inl rfl)
  change isPrimeLoop candidate candidate 3 9 = d at hd
  have hlt : d < candidate := by
    rcases hbelow with rfl | hbelow
    · omega
    · obtain ⟨e, rfl⟩ : ∃ e, d = e + 2 := ⟨d - 2, by omega⟩
      rw [Nat.add_sub_cancel] at hbelow
      by_contra hle
      have hsmall : e ^ 2 < e + 2 := by omega
      have he : e < 3 := by
        by_contra he
        nlinarith
      omega
  unfold isPrime
  rw [hd, decide_eq_true_iff]
  constructor
  · intro hmod
    have hndvd : ¬ d ∣ candidate := fun hdvd => hmod (Nat.mod_eq_zero_of_dvd hdvd)
    have hsquare : candidate ≤ d ^ 2 := hstop.resolve_right hndvd
    -- a least factor would have been tried
    by_contra hnot
    have hdvd := Nat.minFac_dvd candidate
    have hsq : candidate.minFac ^ 2 ≤ candidate := Nat.minFac_sq_le_self (by omega) hnot
    have hne : candidate ≠ 1 := by omega
    have htwo := (Nat.minFac_prime hne).two_le
    have hfodd : candidate.minFac % 2 = 1 := by
      rcases Nat.mod_two_eq_zero_or_one candidate.minFac with heven | hodd'
      · have := (Nat.dvd_of_mod_eq_zero heven).trans hdvd
        omega
      · exact hodd'
    have hle : candidate.minFac ≤ d := (Nat.pow_le_pow_iff_left two_ne_zero).1 (hsq.trans hsquare)
    rcases hle.lt_or_eq with hfac | hfac
    · exact htried _ (by omega) hfac hfodd hdvd
    · exact hndvd (hfac ▸ hdvd)
  · intro hprime hmod
    rcases (Nat.dvd_prime hprime).1 (Nat.dvd_of_mod_eq_zero hmod) with hone | hself <;> omega

/-- The numbers that `next_prime` goes over. -/
theorem nextPrimeLoop_spec (fuel candidate : ℕ) (hodd : candidate % 2 = 1)
    (hfuel : sizeMax < candidate + 2 * fuel) :
    candidate ≤ nextPrimeLoop fuel candidate ∧
      (nextPrimeLoop fuel candidate < sizeMax →
        isPrime (nextPrimeLoop fuel candidate) = true ∧
        ∀ m, candidate ≤ m → m < nextPrimeLoop fuel candidate → m % 2 = 1 →
          isPrime m = false) := by
  induction fuel generalizing candidate with
  | zero =>
    unfold nextPrimeLoop
    refine ⟨le_rfl, fun hlt => ?_⟩
    omega
  | succ fuel ih =>
    unfold nextPrimeLoop
    split_ifs with h
    · obtain ⟨hle, hrest⟩ := ih (candidate + 2) (by omega) (by omega)
      refine ⟨by omega, fun hlt => ⟨(hrest hlt).1, fun m hm hmlt hmodd => ?_⟩⟩
      rcases Nat.lt_or_ge m (candidate + 2) with hm' | hm'
      · have heq : m = candidate := by omega
        rw [heq]
        exact Bool.eq_false_iff.2 h.2
      · exact (hrest hlt).2 m hm' hmlt hmodd
    · refine ⟨le_rfl, fun hlt => ⟨?_, fun m hm hmlt => by omega⟩⟩
      rw [not_and_or, not_not, not_not] at h
      exact h.resolve_left hlt.ne'

/-- The number that `next_prime` starts with. -/
theorem max_or_one (candidate : ℕ) :
    max candidate 10 ≤ max candidate 10 ||| 1 ∧
      (max candidate 10 ||| 1) ≤ max candidate 10 + 1 := by
  refine ⟨Nat.left_le_or, ?_⟩
  have hdiv : (max candidate 10 ||| 1) / 2 = max candidate 10 / 2 := by
    rw [Nat.or_div_two]
    exact Nat.or_zero _
  have hodd := or_one_odd (max candidate 10)
  omega

/-- **`next_prime` finds the least prime** from 10 on that is not below the
number, where it fits. -/
theorem nextPrime_least (h : nextPrime candidate ≤ (2 ^ 32 - 1) ^ 2) :
    IsLeast {p | p.Prime ∧ max candidate 10 ≤ p} (nextPrime candidate) := by
  obtain ⟨hge, hle⟩ := max_or_one candidate
  have hodd := or_one_odd (max candidate 10)
  have hfuel : sizeMax < (max candidate 10 ||| 1) + 2 * 2 ^ 63 := by
    unfold sizeMax
    omega
  have hodd' : nextPrime candidate % 2 = 1 := nextPrimeLoop_odd hodd
  obtain ⟨hstart, hrest⟩ := nextPrimeLoop_spec (2 ^ 63) _ hodd hfuel
  rw [show nextPrimeLoop (2 ^ 63) (max candidate 10 ||| 1) = nextPrime candidate from rfl]
    at hstart hrest
  obtain ⟨hprime, hbefore⟩ := hrest (by unfold sizeMax; omega)
  refine ⟨⟨(isPrime_iff hodd' (by omega) h).1 hprime, by omega⟩, ?_⟩
  rintro p ⟨hp, hpge⟩
  by_contra hlt
  rcases hp.eq_two_or_odd with rfl | hpodd
  · omega
  · have hfalse := hbefore p (by omega) (by omega) hpodd
    rw [(isPrime_iff hpodd (by omega) (by omega)).2 hp] at hfalse
    cases hfalse

/-- **The number of buckets** is the least prime that is enough. -/
theorem computeBucketSize_least {fl : ℚ → ℚ} {n : ℕ} (h : computeBucketSize fl candidate = some n) :
    IsLeast {p | p.Prime ∧ max ⌊fl (fl candidate / growthThreshold fl)⌋₊ 10 ≤ p} n := by
  unfold computeBucketSize at h
  dsimp only at h
  split_ifs at h with hbig hover
  obtain rfl := Option.some.inj h
  refine nextPrime_least ?_
  unfold sizeMax at hover
  omega

end Primes

/-! ## The counters -/

section Counters

variable {α : Type} {fs : HashFunctions α} {fl : ℚ → ℚ} {table table' : HashTable α} {x r : α}

/-- A bucket of the loop of `hash_table_ok`, with the buckets in use and the
entries before it. -/
def countBucket (counts : ℕ × ℕ) : List α → ℕ × ℕ
  | [] => counts
  | _ :: overflow => (counts.1 + 1, counts.2 + 1 + overflow.length)

/-- `hash_table_ok`. -/
def hashTableOk (table : HashTable α) : Bool :=
  let counts := table.bucket.foldl countBucket (0, 0)
  decide (counts.1 = table.nBucketsUsed ∧ counts.2 = table.nEntries)

/-- The buckets in use. -/
def bucketsUsed (bucket : List (List α)) : ℕ := bucket.countP fun c => !c.isEmpty

/-- The loop counts the buckets in use, and the entries. -/
theorem foldl_countBucket (bucket : List (List α)) (counts : ℕ × ℕ) :
    bucket.foldl countBucket counts =
      (counts.1 + bucketsUsed bucket, counts.2 + bucket.flatten.length) := by
  unfold bucketsUsed
  induction bucket generalizing counts with
  | nil => rfl
  | cons c bucket ih =>
    rw [List.foldl_cons, ih, List.flatten_cons, List.length_append, List.countP_cons]
    cases c with
    | nil => simp [countBucket]
    | cons head overflow =>
      simp only [countBucket, List.isEmpty_cons, Bool.not_false, if_true, List.length_cons]
      refine Prod.ext ?_ ?_ <;> dsimp only <;> omega

/-- What `hash_table_ok` says. -/
theorem hashTableOk_iff : hashTableOk table = true ↔
    bucketsUsed table.bucket = table.nBucketsUsed ∧ table.entries.length = table.nEntries := by
  unfold hashTableOk HashTable.entries
  simp only [foldl_countBucket, Nat.zero_add, decide_eq_true_eq]

/-- One entry more, in a list of buckets. -/
theorem bucketsUsed_modify {bucket : List (List α)} {i : ℕ} (hi : i < bucket.length) (a : α) :
    bucketsUsed (bucket.modify i (chainAdd a)) =
      if bucket.getD i [] = [] then bucketsUsed bucket + 1 else bucketsUsed bucket := by
  unfold bucketsUsed
  induction bucket generalizing i with
  | nil => cases hi
  | cons c bucket ih =>
    cases i with
    | zero =>
      rw [List.modify_zero_cons, List.countP_cons, List.countP_cons]
      cases c <;> simp [chainAdd]
    | succ i =>
      rw [List.modify_succ_cons, List.countP_cons, List.countP_cons,
        ih (Nat.lt_of_succ_lt_succ hi), List.getD_cons_succ]
      split_ifs <;> omega

/-- The counter of buckets in use is right when an entry is put into one. -/
theorem bucketAdd_used {i : ℕ} (hi : i < table.nBuckets) (a : α)
    (h : bucketsUsed table.bucket = table.nBucketsUsed) :
    bucketsUsed (bucketAdd table i a).bucket = (bucketAdd table i a).nBucketsUsed := by
  unfold bucketAdd
  dsimp only
  rw [bucketsUsed_modify hi, h]
  rfl

/-- `safe_hasher` returns a bucket of the table. -/
theorem safeHasher_lt {i : ℕ} (h : safeHasher fs table x = .ok i) : i < table.nBuckets := by
  unfold safeHasher at h
  cases hhash : fs.hasher x table.nBuckets with
  | error e =>
    rw [hhash] at h
    cases h
  | ok n =>
    rw [hhash, ok_bind] at h
    split_ifs at h with hlt
    obtain rfl := Except.ok.inj h
    exact hlt

/-- **A transfer** keeps the number of buckets and counts those in use. -/
theorem transferEntries_counts {l : List α} (h : transferEntries fs table l = .ok table')
    (hused : bucketsUsed table.bucket = table.nBucketsUsed) :
    bucketsUsed table'.bucket = table'.nBucketsUsed ∧ table'.nBuckets = table.nBuckets ∧
      table'.entries.length = l.length + table.entries.length := by
  induction l generalizing table with
  | nil =>
    obtain rfl := Except.ok.inj h
    exact ⟨hused, rfl, (Nat.zero_add _).symm⟩
  | cons data rest ih =>
    unfold transferEntries at h
    cases hsafe : safeHasher fs table data with
    | error e =>
      rw [hsafe] at h
      cases h
    | ok i =>
      rw [hsafe, ok_bind] at h
      have hi := safeHasher_lt hsafe
      obtain ⟨hused', hsize, hlen⟩ := ih h (bucketAdd_used hi data hused)
      rw [nBuckets_bucketAdd] at hsize
      rw [(entries_bucketAdd_perm hi data).length_eq, List.length_cons] at hlen
      refine ⟨hused', hsize, ?_⟩
      rw [hlen, List.length_cons]
      omega

/-- A new table has no bucket in use. -/
theorem bucketsUsed_empty (n : ℕ) : bucketsUsed (HashTable.empty n : HashTable α).bucket = 0 := by
  unfold bucketsUsed HashTable.empty
  rw [List.countP_eq_zero]
  intro c hc
  rw [List.eq_of_mem_replicate hc]
  exact Bool.false_ne_true

/-- **A table of another size**: the counters stay right. -/
theorem hashRehash_ok {candidate : ℕ}
    (h : hashRehash fs fl table candidate = .ok (some table')) (hok : hashTableOk table = true) :
    hashTableOk table' = true ∧ computeBucketSize fl candidate = some table'.nBuckets := by
  unfold hashRehash at h
  cases hsize : computeBucketSize fl candidate with
  | none =>
    rw [hsize] at h
    cases h
  | some newSize =>
    rw [hsize] at h
    dsimp only at h
    split_ifs at h with hsame
    · obtain rfl := Option.some.inj (Except.ok.inj h)
      exact ⟨hok, congrArg some hsame⟩
    · cases hmove : transferEntries fs (HashTable.empty newSize)
          (table.bucket.flatMap transferOrder) with
      | error e =>
        rw [hmove] at h
        cases h
      | ok dst =>
        rw [hmove, ok_bind] at h
        obtain rfl := Option.some.inj (Except.ok.inj h)
        obtain ⟨hused, hbuckets, hlen⟩ := transferEntries_counts hmove (bucketsUsed_empty newSize)
        rw [HashTable.entries_empty, (flatMap_transferOrder_perm _).length_eq] at hlen
        refine ⟨hashTableOk_iff.2 ⟨hused, hlen.trans (hashTableOk_iff.1 hok).2⟩, ?_⟩
        refine congrArg some (Eq.symm ?_)
        rw [show ({ dst with nEntries := table.nEntries } : HashTable α).nBuckets = dst.nBuckets
          from rfl, hbuckets]
        exact List.length_replicate ..

variable [DecidableEq α]

/-- **Room for an entry**: the table as it is, unless it is too full. -/
theorem growFor_ok {i i' : ℕ} (h : growFor fs fl table x i = .ok (some (table', i')))
    (hi : i < table.nBuckets) (hok : hashTableOk table = true) :
    hashTableOk table' = true ∧ i' < table'.nBuckets ∧
      if tooFull fl table.nBucketsUsed table.nBuckets then
        ∃ candidate, growthCandidate fl table.nBuckets = some candidate ∧
          computeBucketSize fl candidate = some table'.nBuckets
      else table'.nBuckets = table.nBuckets := by
  unfold growFor at h
  split_ifs at h ⊢ with hfull
  · cases hcand : growthCandidate fl table.nBuckets with
    | none =>
      rw [hcand] at h
      cases h
    | some candidate =>
      rw [hcand] at h
      dsimp only at h
      cases hrehash : hashRehash fs fl table candidate with
      | error e =>
        rw [hrehash] at h
        cases h
      | ok grown =>
        rw [hrehash, ok_bind] at h
        cases grown with
        | none => cases h
        | some grown =>
          obtain ⟨hok', hsize⟩ := hashRehash_ok hrehash hok
          dsimp only at h
          unfold hashFindEntry at h
          cases hsafe : safeHasher fs grown x with
          | error e =>
            rw [hsafe] at h
            cases h
          | ok j =>
            rw [hsafe, ok_bind, ok_bind] at h
            cases hfind : (grown.chain j).find? (matchesEntry fs x) with
            | some d =>
              rw [hfind] at h
              cases h
            | none =>
              rw [hfind] at h
              obtain ⟨rfl, rfl⟩ := Prod.mk.inj (Option.some.inj (Except.ok.inj h))
              exact ⟨hok', safeHasher_lt hsafe, candidate, rfl, hsize⟩
  · obtain ⟨rfl, rfl⟩ := Prod.mk.inj (Option.some.inj (Except.ok.inj h))
    exact ⟨hok, hi, rfl⟩

/-- **An insertion** keeps the counters right, and changes the number of
buckets only if the entry is new and the table too full. -/
theorem hashInsert_ok (h : hashInsert fs fl table x = .ok (some (table', r)))
    (hok : hashTableOk table = true) :
    hashTableOk table' = true ∧
      if hashTableLookup fs table x = .ok none ∧ tooFull fl table.nBucketsUsed table.nBuckets then
        ∃ candidate, growthCandidate fl table.nBuckets = some candidate ∧
          computeBucketSize fl candidate = some table'.nBuckets
      else table'.nBuckets = table.nBuckets := by
  unfold hashInsert hashFindEntry at h
  unfold hashTableLookup
  cases hsafe : safeHasher fs table x with
  | error e =>
    rw [hsafe] at h
    cases h
  | ok i =>
    rw [hsafe, ok_bind, ok_bind] at h
    rw [ok_bind]
    cases hfind : (table.chain i).find? (matchesEntry fs x) with
    | some data =>
      rw [hfind] at h
      obtain ⟨rfl, rfl⟩ := Prod.mk.inj (Option.some.inj (Except.ok.inj h))
      refine ⟨hok, ?_⟩
      rw [if_neg (by rintro ⟨hnone, -⟩; cases hnone)]
    | none =>
      rw [hfind] at h
      dsimp only at h
      cases hgrow : growFor fs fl table x i with
      | error e =>
        rw [hgrow] at h
        cases h
      | ok grown =>
        rw [hgrow, ok_bind] at h
        cases grown with
        | none => cases h
        | some p =>
          obtain ⟨grown, i'⟩ := p
          obtain ⟨hok', hi', hsize⟩ := growFor_ok hgrow (safeHasher_lt hsafe) hok
          obtain ⟨rfl, rfl⟩ := Prod.mk.inj (Option.some.inj (Except.ok.inj h))
          obtain ⟨hused, hlen⟩ := hashTableOk_iff.1 hok'
          constructor
          · refine hashTableOk_iff.2 ⟨bucketAdd_used hi' x hused, ?_⟩
            refine ((entries_bucketAdd_perm hi' x).length_eq).trans ?_
            rw [List.length_cons, hlen]
          · rw [show ({ bucketAdd grown i' x with nEntries := grown.nEntries + 1 } :
              HashTable α).nBuckets = grown.nBuckets from nBuckets_bucketAdd grown i' x]
            simp only [true_and]
            exact hsize

end Counters

/-! ## Rounding -/

section Rounding

variable {q : ℚ}

/-- **A `float` is near** what it stands for. -/
theorem roundFloat_near (hq : 0 < q) : |roundFloat q - q| ≤ q / 2 ^ 24 := by
  have hlog : (2 : ℚ) ^ Int.log 2 |q| ≤ q := by
    have hself := Int.zpow_log_le_self (b := 2) Nat.one_lt_two hq
    rw [abs_of_pos hq]
    exact_mod_cast hself
  unfold roundFloat
  dsimp only
  set ulp : ℚ := 2 ^ (Int.log 2 |q| - 23) with hulp
  have hpos : 0 < ulp := zpow_pos two_pos _
  have hsmall : ulp / 2 ≤ q / 2 ^ 24 := by
    rw [hulp, zpow_sub₀ two_ne_zero]
    calc (2 : ℚ) ^ Int.log 2 |q| / 2 ^ (23 : ℤ) / 2 = 2 ^ Int.log 2 |q| / 2 ^ 24 := by
          norm_num [div_div]
      _ ≤ q / 2 ^ 24 := by gcongr
  have hunits : q = q / ulp * ulp := (div_mul_cancel₀ q hpos.ne').symm
  have hfloor := Int.floor_le (q / ulp)
  have hceil := Int.lt_floor_add_one (q / ulp)
  -- the number of units is off by half a unit at most
  have hhalf : ∀ n : ℚ, |n - q / ulp| ≤ 1 / 2 → |n * ulp - q| ≤ q / 2 ^ 24 := by
    intro n hn
    calc |n * ulp - q| = |n - q / ulp| * ulp := by
          rw [← abs_of_pos hpos, ← abs_mul, abs_of_pos hpos, sub_mul, ← hunits]
      _ ≤ 1 / 2 * ulp := by gcongr
      _ = ulp / 2 := by ring
      _ ≤ q / 2 ^ 24 := hsmall
  refine hhalf _ ?_
  split_ifs with hdown
  · rw [abs_le]
    rcases hdown with hdown | ⟨hdown, -⟩ <;> constructor <;> linarith
  · rw [not_or, not_lt] at hdown
    rw [Int.cast_add, Int.cast_one, abs_le]
    constructor <;> linarith [hdown.1]

/-- It is positive, and off by less than one part in ten million. -/
theorem roundFloat_bounds (hq : 0 < q) :
    9999999 / 10000000 * q ≤ roundFloat q ∧ roundFloat q ≤ 10000001 / 10000000 * q := by
  have hnear := abs_le.1 (roundFloat_near hq)
  have hsmall : q / 2 ^ 24 ≤ q / 10000000 := by
    gcongr
    norm_num
  constructor <;> linarith [hnear.1, hnear.2]

/-- **The size that is wanted** of a table that is too full is more than 9/8
of the one it has, up to one bucket. -/
theorem growthCandidate_ge {n candidate : ℕ} (hn : 0 < n)
    (h : growthCandidate roundFloat n = some candidate) : (113 / 100 : ℚ) * n - 1 < candidate := by
  unfold growthCandidate at h
  dsimp only at h
  split_ifs at h
  obtain rfl := Option.some.inj h
  have hpos : (0 : ℚ) < n := Nat.cast_pos.2 hn
  have hfactor : (1413 / 1000 + 9 / 10000 : ℚ) ≤ growthFactor roundFloat := by
    have hnear := (roundFloat_bounds (q := 1414 / 1000) (by norm_num)).1
    unfold growthFactor
    linarith
  have hthreshold : (7999 / 10000 + 9 / 100000 : ℚ) ≤ growthThreshold roundFloat := by
    have hnear := (roundFloat_bounds (q := 8 / 10) (by norm_num)).1
    unfold growthThreshold
    linarith
  have hone := (roundFloat_bounds hpos).1
  have hone' : (0 : ℚ) < roundFloat n := by linarith
  -- three products, each rounded
  have htwo : (1413 / 1000 + 8 / 10000 : ℚ) * n ≤ roundFloat n * growthFactor roundFloat := by
    calc (1413 / 1000 + 8 / 10000 : ℚ) * n
        ≤ 9999999 / 10000000 * n * (1413 / 1000 + 9 / 10000) := by linarith
      _ ≤ roundFloat n * growthFactor roundFloat := by gcongr
  have htwo' := (roundFloat_bounds (q := roundFloat n * growthFactor roundFloat) (by linarith)).1
  have hthree : (113 / 100 + 1 / 10000 : ℚ) * n ≤
      roundFloat (roundFloat n * growthFactor roundFloat) * growthThreshold roundFloat := by
    calc (113 / 100 + 1 / 10000 : ℚ) * n
        ≤ (1413 / 1000 + 7 / 10000) * n * (7999 / 10000 + 9 / 100000) := by linarith
      _ ≤ _ := by
        have hleft : (1413 / 1000 + 7 / 10000 : ℚ) * n ≤
            roundFloat (roundFloat n * growthFactor roundFloat) := by linarith
        have hpos' : 0 ≤ roundFloat (roundFloat n * growthFactor roundFloat) := by linarith
        gcongr
  have hthree' := (roundFloat_bounds (q := roundFloat (roundFloat n * growthFactor roundFloat) *
    growthThreshold roundFloat) (by linarith)).1
  have hfloor := Nat.lt_floor_add_one (roundFloat (roundFloat (roundFloat n *
    growthFactor roundFloat) * growthThreshold roundFloat))
  linarith

/-- **A table grows** by more than a fifth. -/
theorem grown_size {n candidate n' : ℕ} (hn : 11 ≤ n)
    (h : growthCandidate roundFloat n = some candidate)
    (h' : computeBucketSize roundFloat candidate = some n') : 6 * n < 5 * n' := by
  have hcand := growthCandidate_ge (by omega) h
  have hn' : (11 : ℚ) ≤ n := by exact_mod_cast hn
  have hpos : (0 : ℚ) < candidate := by linarith
  have hthreshold := roundFloat_bounds (q := 8 / 10) (by norm_num)
  have hcut : (0 : ℚ) < growthThreshold roundFloat := by
    unfold growthThreshold
    linarith [hthreshold.1]
  have hquot : (12499 / 10000 : ℚ) * candidate ≤
      roundFloat candidate / growthThreshold roundFloat := by
    rw [le_div_iff₀ hcut]
    calc (12499 / 10000 : ℚ) * candidate * growthThreshold roundFloat
        ≤ 12499 / 10000 * candidate * (10000001 / 10000000 * (8 / 10)) := by
          gcongr
          exact hthreshold.2
      _ ≤ 9999999 / 10000000 * candidate := by linarith
      _ ≤ roundFloat candidate := (roundFloat_bounds hpos).1
  have hround := (roundFloat_bounds (q := roundFloat candidate / growthThreshold roundFloat)
    (by linarith)).1
  have hfloor := Nat.lt_floor_add_one
    (roundFloat (roundFloat candidate / growthThreshold roundFloat))
  have hleast : (⌊roundFloat (roundFloat candidate / growthThreshold roundFloat)⌋₊ : ℚ) ≤ n' :=
    Nat.cast_le.2 ((le_max_left _ _).trans (computeBucketSize_least h').1.2)
  have hlt : (6 * n : ℚ) < 5 * n' := by linarith
  exact_mod_cast hlt

end Rounding

/-! ## Every table -/

section Runs

variable {α : Type} {fs : HashFunctions α} {fl : ℚ → ℚ} {table : HashTable α}

/-- A table whose counters are right, with a prime number of buckets. -/
structure Sized (table : HashTable α) : Prop where
  ok : hashTableOk table = true
  prime : table.nBuckets.Prime
  least : 11 ≤ table.nBuckets

/-- The least prime from 10 on. -/
theorem eleven_le {n candidate : ℕ} (h : computeBucketSize fl candidate = some n) : 11 ≤ n := by
  obtain ⟨hprime, hge⟩ := (computeBucketSize_least h).1
  have hten : n ≠ 10 := by
    rintro rfl
    rcases (Nat.dvd_prime hprime).1 (show 2 ∣ 10 by decide) with htwo | htwo <;> cases htwo
  omega

/-- A new table. -/
theorem sized_start {candidate : ℕ} (h : hashInitialize fl candidate = some table) :
    Sized table := by
  unfold hashInitialize at h
  obtain ⟨n, hsize, rfl⟩ := Option.map_eq_some_iff.1 h
  have hn : (HashTable.empty n : HashTable α).nBuckets = n := List.length_replicate ..
  constructor
  · refine hashTableOk_iff.2 ⟨bucketsUsed_empty n, ?_⟩
    rw [HashTable.entries_empty]
    rfl
  · rw [hn]
    exact (computeBucketSize_least hsize).1.1
  · rw [hn]
    exact eleven_le hsize

variable [DecidableEq α]

/-- **It stays so** at an insertion. -/
theorem Sized.insert {table' : HashTable α} {x r : α} (h : Sized table)
    (hins : hashInsert fs fl table x = .ok (some (table', r))) : Sized table' := by
  obtain ⟨hok, hsize⟩ := hashInsert_ok hins h.ok
  split_ifs at hsize
  · obtain ⟨candidate, -, hsize⟩ := hsize
    exact ⟨hok, (computeBucketSize_least hsize).1.1, eleven_le hsize⟩
  · exact ⟨hok, hsize ▸ h.prime, hsize ▸ h.least⟩

/-- Insertions into a table, one after the other, or none where one fails. -/
def insertAll (fs : HashFunctions α) (fl : ℚ → ℚ) (table : HashTable α) :
    List α → Except Fault (Option (HashTable α))
  | [] => .ok (some table)
  | entry :: rest => do
    match ← hashInsert fs fl table entry with
    | none => .ok none
    | some (table, _) => insertAll fs fl table rest

/-- After all insertions. -/
theorem Sized.insertAll {table' : HashTable α} {entries : List α} (h : Sized table)
    (hall : Dico.insertAll fs fl table entries = .ok (some table')) : Sized table' := by
  induction entries generalizing table with
  | nil =>
    obtain rfl := Option.some.inj (Except.ok.inj hall)
    exact h
  | cons entry rest ih =>
    unfold Dico.insertAll at hall
    cases hins : hashInsert fs fl table entry with
    | error e =>
      rw [hins] at hall
      cases hall
    | ok p =>
      rw [hins, ok_bind] at hall
      cases p with
      | none => cases hall
      | some p =>
        obtain ⟨next, r⟩ := p
        exact ih (h.insert hins) hall

deriving instance DecidableEq for HashTable

/-- Keys that are their own hash. -/
def remainders : HashFunctions ℕ where
  hasher := fun a n => .ok (a % n)
  comparator := fun a b => a == b

/-- A table of 11 buckets with 9 keys, which is too full. -/
def nineKeys : HashTable ℕ where
  bucket := [[0], [1], [2], [3], [4], [5], [6], [7], [8], [], []]
  nBucketsUsed := 9
  nEntries := 9

/-- **Every table passes its check**, and has a prime number of buckets,
whatever the functions of the table are, and however sizes are rounded. -/
theorem hash_table_sound (fs : HashFunctions α) (fl : ℚ → ℚ) {candidate : ℕ}
    {start table : HashTable α} {entries : List α}
    (hstart : hashInitialize fl candidate = some start)
    (hall : insertAll fs fl start entries = .ok (some table)) :
    hashTableOk table = true ∧ table.nBuckets.Prime ∧ 11 ≤ table.nBuckets :=
  have hsized := (sized_start hstart).insertAll hall
  ⟨hsized.ok, hsized.prime, hsized.least⟩

theorem hash_table_sound_nine : hashTableOk nineKeys = true ∧ nineKeys.nBuckets.Prime ∧
    11 ≤ nineKeys.nBuckets :=
  hash_table_sound remainders roundFloat
    (show hashInitialize roundFloat 0 = some (HashTable.empty 11) by decide +kernel)
    (show insertAll remainders roundFloat (HashTable.empty 11) (List.range 9) =
      .ok (some nineKeys) by decide +kernel)

/-- **A table grows when it has to**, by more than a fifth: exactly if it is
too full and the entry is none that it has. -/
theorem hash_table_grows (fs : HashFunctions α) {candidate : ℕ} {start table table' : HashTable α}
    {entries : List α} {x r : α} (hstart : hashInitialize roundFloat candidate = some start)
    (hall : insertAll fs roundFloat start entries = .ok (some table))
    (hins : hashInsert fs roundFloat table x = .ok (some (table', r))) :
    if hashTableLookup fs table x = .ok none ∧
        tooFull roundFloat table.nBucketsUsed table.nBuckets then
      6 * table.nBuckets < 5 * table'.nBuckets
    else table'.nBuckets = table.nBuckets := by
  have hsized := (sized_start hstart).insertAll hall
  obtain ⟨-, hsize⟩ := hashInsert_ok hins hsized.ok
  split_ifs at hsize ⊢
  · obtain ⟨candidate, hcand, hsize⟩ := hsize
    exact grown_size hsized.least hcand hsize
  · exact hsize

theorem hash_table_grows_tenth : ∃ table' r,
    hashInsert remainders roundFloat nineKeys 9 = .ok (some (table', r)) ∧
      6 * nineKeys.nBuckets < 5 * table'.nBuckets := by
  have hins : hashInsert remainders roundFloat nineKeys 9 = .ok (some (⟨[[0], [1], [2], [3], [4],
      [5], [6], [7], [8], [9], [], [], [], [], [], [], []], 10, 10⟩, 9)) := by
    decide +kernel
  have hgrows := hash_table_grows remainders
    (show hashInitialize roundFloat 0 = some (HashTable.empty 11) by decide +kernel)
    (show insertAll remainders roundFloat (HashTable.empty 11) (List.range 9) =
      .ok (some nineKeys) by decide +kernel) hins
  rw [if_pos (by decide +kernel)] at hgrows
  exact ⟨_, _, hins, hgrows⟩

end Runs

end Dico
