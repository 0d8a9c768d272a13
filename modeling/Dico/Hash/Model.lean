import Dico.Common.Run
import Mathlib.Algebra.Order.Floor.Semiring
import Mathlib.Data.Int.Log
import Mathlib.Data.Rat.Floor
/-!
# Hash tables

The hash tables of `gnu/hash.c`, with the default tuning. A bucket is its
chain: the entry in its head, and then the overflow. An entry that is added
to a bucket in use goes behind the head, and a table that grows is filled
bucket by bucket, from the overflow first.

What is a `float` in the source is a rational number here, and `fl` rounds
it, as `roundFloat` does. Memory that runs out ends the programs that use a table, so an
allocation succeeds here.
-/

namespace Dico

/-! ## Sizes -/

/-- The loop of `is_prime`: the divisor it stops at. A `candidate` that is
odd is its own divisor at the latest. -/
def isPrimeLoop (candidate : ℕ) : ℕ → ℕ → ℕ → ℕ
  | 0, divisor, _ => divisor
  | fuel + 1, divisor, square =>
    if square < candidate ∧ candidate % divisor ≠ 0 then
      isPrimeLoop candidate fuel (divisor + 2) ((square + 4 * (divisor + 1)) % 2 ^ 64)
    else divisor

/-- `is_prime`. -/
def isPrime (candidate : ℕ) : Bool :=
  decide (candidate % isPrimeLoop candidate candidate 3 9 ≠ 0)

/-- `SIZE_MAX`. -/
def sizeMax : ℕ := 2 ^ 64 - 1

/-- The loop of `next_prime`. -/
def nextPrimeLoop : ℕ → ℕ → ℕ
  | 0, candidate => candidate
  | fuel + 1, candidate =>
    if sizeMax ≠ candidate ∧ ¬ isPrime candidate then nextPrimeLoop fuel (candidate + 2)
    else candidate

/-- `next_prime`; there are `2 ^ 63` odd numbers up to `SIZE_MAX`. -/
def nextPrime (candidate : ℕ) : ℕ :=
  nextPrimeLoop (2 ^ 63) (max candidate 10 ||| 1)

/-- How numbers in the range of `float` are rounded where nothing is kept more
exactly: 24 bits, and half way to the even one. -/
def roundFloat (q : ℚ) : ℚ :=
  let ulp : ℚ := 2 ^ (Int.log 2 |q| - 23)
  let units := q / ulp
  let below := ⌊units⌋
  (if units - below < 1 / 2 ∨ units - below = 1 / 2 ∧ below % 2 = 0 then below else below + 1) * ulp

/-- `DEFAULT_GROWTH_THRESHOLD`. -/
def growthThreshold (fl : ℚ → ℚ) : ℚ := fl (8 / 10)

/-- `DEFAULT_GROWTH_FACTOR`. -/
def growthFactor (fl : ℚ → ℚ) : ℚ := fl (1414 / 1000)

/-- `compute_bucket_size`, or none where it returns 0. -/
def computeBucketSize (fl : ℚ → ℚ) (candidate : ℕ) : Option ℕ :=
  let newCandidate := fl (fl candidate / growthThreshold fl)
  if fl sizeMax ≤ newCandidate then none
  else
    let size := nextPrime ⌊newCandidate⌋₊
    -- `xalloc_oversized`, for pointers
    if sizeMax / 8 < size then none else some size

/-- The size that `hash_insert0` wants when a table of `n` buckets is too
full, or none where it is too large. -/
def growthCandidate (fl : ℚ → ℚ) (n : ℕ) : Option ℕ :=
  let candidate := fl (fl (fl n * growthFactor fl) * growthThreshold fl)
  if fl sizeMax ≤ candidate then none else some ⌊candidate⌋₊

/-- Whether it is. -/
def tooFull (fl : ℚ → ℚ) (used n : ℕ) : Prop := fl (growthThreshold fl * fl n) < fl used

instance (fl : ℚ → ℚ) (used n : ℕ) : Decidable (tooFull fl used n) :=
  inferInstanceAs (Decidable (_ < _))

/-! ## Tables -/

/-- `struct hash_table`. -/
structure HashTable (α : Type) where
  bucket : List (List α)
  nBucketsUsed : ℕ
  nEntries : ℕ

/-- The functions that `hash_initialize` is given. -/
structure HashFunctions (α : Type) where
  hasher : α → ℕ → Except Fault ℕ
  comparator : α → α → Bool

section Operations

variable {α : Type} (fs : HashFunctions α) (fl : ℚ → ℚ)

namespace HashTable

/-- A table of `n` empty buckets. -/
def empty (n : ℕ) : HashTable α := ⟨List.replicate n [], 0, 0⟩

variable (table : HashTable α)

/-- `n_buckets`. -/
def nBuckets : ℕ := table.bucket.length

/-- The entries of a bucket. -/
def chain (i : ℕ) : List α := table.bucket.getD i []

end HashTable

/-- `safe_hasher`: the bucket. -/
def safeHasher (table : HashTable α) (key : α) : Except Fault ℕ := do
  let n ← fs.hasher key table.nBuckets
  if n < table.nBuckets then .ok n else .error .abort

/-- A chain with one entry more: the head stays in front. -/
def chainAdd (entry : α) : List α → List α
  | [] => [entry]
  | head :: overflow => head :: entry :: overflow

/-- An entry is put into a bucket. -/
def bucketAdd (table : HashTable α) (i : ℕ) (entry : α) : HashTable α where
  bucket := table.bucket.modify i (chainAdd entry)
  nBucketsUsed := if table.chain i = [] then table.nBucketsUsed + 1 else table.nBucketsUsed
  nEntries := table.nEntries

/-- The entries of a chain as `transfer_entries` moves them: the overflow,
then the head. -/
def transferOrder : List α → List α
  | [] => []
  | head :: overflow => overflow ++ [head]

/-- The loop of `transfer_entries`, over the entries in that order. -/
def transferEntries (dst : HashTable α) : List α → Except Fault (HashTable α)
  | [] => .ok dst
  | data :: rest => do
    let i ← safeHasher fs dst data
    transferEntries (bucketAdd dst i data) rest

/-- `hash_rehash`, or none where it fails. -/
def hashRehash (table : HashTable α) (candidate : ℕ) : Except Fault (Option (HashTable α)) :=
  match computeBucketSize fl candidate with
  | none => .ok none
  | some newSize =>
    if newSize = table.nBuckets then .ok (some table)
    else do
      let new ← transferEntries fs (HashTable.empty newSize) (table.bucket.flatMap transferOrder)
      .ok (some { new with nEntries := table.nEntries })

/-- `hash_initialize` with the default tuning, or none where it fails. -/
def hashInitialize (candidate : ℕ) : Option (HashTable α) :=
  (computeBucketSize fl candidate).map HashTable.empty

variable [DecidableEq α]

/-- Whether an entry is the same as another, or compares so. -/
def matchesEntry (entry data : α) : Bool := decide (entry = data) || fs.comparator entry data

/-- `hash_lookup`. -/
def hashTableLookup (table : HashTable α) (entry : α) : Except Fault (Option α) := do
  let i ← safeHasher fs table entry
  .ok ((table.chain i).find? (matchesEntry fs entry))

/-- `hash_find_entry`, with the bucket. -/
def hashFindEntry (table : HashTable α) (entry : α) : Except Fault (Option α × ℕ) := do
  let i ← safeHasher fs table entry
  .ok ((table.chain i).find? (matchesEntry fs entry), i)

/-- The part of `hash_insert0` that makes a table grow which is too full:
the table, and the bucket of the entry in it, or none where it fails. -/
def growFor (table : HashTable α) (entry : α) (i : ℕ) :
    Except Fault (Option (HashTable α × ℕ)) :=
  if tooFull fl table.nBucketsUsed table.nBuckets then
    match growthCandidate fl table.nBuckets with
    | none => .ok none
    | some candidate => do
      match ← hashRehash fs fl table candidate with
      | none => .ok none
      | some table => do
        match ← hashFindEntry fs table entry with
        | (some _, _) => .error .abort
        | (none, i) => .ok (some (table, i))
  else .ok (some (table, i))

/-- `hash_insert`: the table, and the entry that was there or else the one
that was inserted; or none, where it returns a null pointer. -/
def hashInsert (table : HashTable α) (entry : α) : Except Fault (Option (HashTable α × α)) := do
  match ← hashFindEntry fs table entry with
  | (some data, _) => .ok (some (table, data))
  | (none, i) => do
    match ← growFor fs fl table entry i with
    | none => .ok none
    | some (table, i) =>
      .ok (some ({ bucketAdd table i entry with nEntries := table.nEntries + 1 }, entry))

end Operations

end Dico
