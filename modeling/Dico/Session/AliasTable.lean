import Dico.Session.AclTable
import Dico.Session.Alias
/-!
# The table of command aliases

`alias_install` and `alias_expand` of `dicod/alias.c` with the hash table
between them. The `alias` statements of the configuration are installed in
the order they are written in; one whose keyword is taken is refused, and
told where the other is. After any statements the table serves lookups as
a search of the statements from the first on would (`Stocked`), however
often it has grown, and so an expansion over the table is the expansion
over the statements.
-/

namespace Dico

/-! ## The model -/

/-- A `struct alias` in memory; `addr` is where it is. -/
structure AliasBlock where
  addr : ℕ
  body : Alias
  locus : Locus
  deriving DecidableEq

/-- `alias_hasher`, whose `n_buckets` is `unsigned`. -/
def aliasHasher (ap : AliasBlock) (nBuckets : ℕ) : Except Fault ℕ :=
  -- the remainder of a division by 0
  if nBuckets % 2 ^ 32 = 0 ∧ ap.body.kw ≠ [] then .error .abort
  else .ok (hashString ap.body.kw (nBuckets % 2 ^ 32))

/-- `alias_compare`. -/
def aliasCompare (ap₁ ap₂ : AliasBlock) : Bool := ap₁.body.kw == ap₂.body.kw

/-- The functions that `alias_table` is initialized with. -/
def aliasFunctions : HashFunctions AliasBlock where
  hasher := aliasHasher
  comparator := aliasCompare

/-- `alias_table`. -/
abbrev AliasHashTable : Type := Option (HashTable AliasBlock)

/-- `alias_install`, of the block it has allocated: the table, and the place
of the alias that was there before, where it returns 1. -/
def aliasInstall (fl : ℚ → ℚ) (sample : AliasBlock) (table : AliasHashTable) :
    Except AclStop (AliasHashTable × Option Locus) := do
  let table ← orDie (.ok (table <|> hashInitialize fl 0))
  let (table, ap) ← orDie (hashInsert aliasFunctions fl table sample)
  .ok (some table, if ap = sample then none else some ap.locus)

/-- An `alias` statement, with its place in the configuration. -/
abbrev AliasStatement := Alias × Locus

/-- One statement more, and what `alias_install` returned for those before.
Its block is none of those that are in use. -/
def aliasStep (fl : ℚ → ℚ) (stmt : AliasStatement)
    (s : AliasHashTable × List (Option Locus)) :
    Except AclStop (AliasHashTable × List (Option Locus)) := do
  let (table, ret) ← aliasInstall fl ⟨s.2.length, stmt.1, stmt.2⟩ s.1
  .ok (table, s.2 ++ [ret])

/-- The `sample` of `alias_expand`, which has its keyword and nothing else. -/
def aliasSample (kw : Bytes) : AliasBlock :=
  ⟨0, ⟨kw, [kw], List.cons_ne_nil _ _⟩, ⟨⟨[], 0, 0⟩, ⟨[], 0, 0⟩⟩⟩

/-- `hash_lookup`, of a keyword. -/
def aliasLookup (table : HashTable AliasBlock) (kw : Bytes) : Except Fault (Option Alias) := do
  let ap ← hashTableLookup aliasFunctions table (aliasSample kw)
  .ok (ap.map AliasBlock.body)

/-- `alias_expand` over the table: the new words and their number, or nothing
where it returns 1. -/
def aliasExpandIn (aliasTable : AliasHashTable) (argv : List Bytes) :
    Except Fault (Option (ℤ × ArgBlock)) :=
  match aliasTable with
  | none => .ok none
  | some table => aliasExpandBy (aliasLookup table) table.entries.length argv

/-! ## The table and the statements -/

/-- The first statement for a keyword. -/
def firstStatement (stmts : List AliasStatement) (kw : Bytes) : Option AliasStatement :=
  stmts.find? (·.1.kw = kw)

/-- **The table holds the statements**, the first for each keyword. -/
structure Stocked (stmts : List AliasStatement) (table : AliasHashTable) : Prop where
  holds : ∀ t ∈ table, HoldsKeys aliasFunctions (fun _ => True) t
  stated : ∀ t ∈ table, ∀ ap ∈ t.entries,
    firstStatement stmts ap.body.kw = some (ap.body, ap.locus) ∧ ap.addr < stmts.length
  covers : ∀ stmt ∈ stmts, ∃ t ∈ table, ∃ ap ∈ t.entries, ap.body.kw = stmt.1.kw

section Table

variable {stmts : List AliasStatement} {stmt : AliasStatement} {table : AliasHashTable}
  {t : HashTable AliasBlock} {kw : Bytes}

/-- The bucket of an alias. -/
theorem aliasHasher_ok {n : ℕ} (hn : 0 < n % 2 ^ 32) (ap : AliasBlock) :
    aliasHasher ap n = .ok (numeral ap.body.kw % (n % 2 ^ 32)) := by
  rw [aliasHasher, if_neg fun h => hn.ne' h.1,
    hashString_eq hn (Nat.mod_lt n (by positivity))]

/-- Aliases that compare equal have one bucket. -/
theorem agreeable_alias : Agreeable aliasFunctions fun _ => True where
  hasherOk := by
    intro ap n hn
    have hpos : 0 < n % 2 ^ 32 := by omega
    exact ⟨_, aliasHasher_ok hpos ap, (Nat.mod_lt _ hpos).trans_le (Nat.mod_le n _)⟩
  refl := fun ap => beq_self_eq_true ap.body.kw
  symm := by
    intro a b hab
    exact beq_iff_eq.2 (beq_iff_eq.1 hab).symm
  agree := by
    intro a b _ _ hab n _
    have hkw : a.body.kw = b.body.kw := beq_iff_eq.1 hab
    change aliasHasher a n = aliasHasher b n
    unfold aliasHasher
    rw [hkw]

/-- A statement more does not change which is the first, unless there was
none. -/
theorem firstStatement_concat (stmts : List AliasStatement) (stmt : AliasStatement) (kw : Bytes) :
    firstStatement (stmts ++ [stmt]) kw =
      (firstStatement stmts kw).or (if stmt.1.kw = kw then some stmt else none) := by
  unfold firstStatement
  rw [List.find?_append, List.find?_singleton]
  simp only [decide_eq_true_eq]

/-- No statement for a keyword. -/
theorem firstStatement_eq_none :
    firstStatement stmts kw = none ↔ ∀ stmt ∈ stmts, stmt.1.kw ≠ kw := by
  unfold firstStatement
  rw [List.find?_eq_none]
  simp only [decide_eq_true_eq, ne_eq]

/-- Before the first statement there is no table. -/
theorem stocked_nil : Stocked [] none where
  holds := by
    intro t ht
    cases ht
  stated := by
    intro t ht
    cases ht
  covers := by
    intro stmt hstmt
    cases hstmt

/-- The table that a statement is put into. -/
theorem Stocked.table_or_new (h : Stocked stmts table) (fl : ℚ → ℚ) :
    (table <|> hashInitialize fl 0) = none ∨ ∃ t, (table <|> hashInitialize fl 0) = some t ∧
      Stocked stmts (some t) := by
  cases table with
  | some t => exact .inr ⟨t, rfl, h⟩
  | none =>
    have hnil : stmts = [] := by
      rw [List.eq_nil_iff_forall_not_mem]
      intro stmt hstmt
      obtain ⟨t, ht, -⟩ := h.covers stmt hstmt
      cases ht
    subst hnil
    unfold hashInitialize
    cases hsize : computeBucketSize fl 0 with
    | none => exact .inl rfl
    | some n =>
      refine .inr ⟨_, rfl, ?_, ?_, List.forall_mem_nil _⟩
      · rintro _ ⟨⟩
        exact holdsKeys_empty (computeBucketSize_odd hsize)
      · rintro _ ⟨⟩ ap hap
        rw [HashTable.entries_empty] at hap
        cases hap

/-- What a lookup in the table finds is the first statement. -/
theorem Stocked.lookup (h : Stocked stmts (some t)) (kw : Bytes) :
    ∃ r, hashTableLookup aliasFunctions t (aliasSample kw) = .ok r ∧
      r.map (fun ap => (ap.body, ap.locus)) = firstStatement stmts kw ∧
      ∀ ap ∈ r, ap ∈ t.entries ∧ ap.body.kw = kw := by
  obtain ⟨r, i, -, hlook, -, -, hsome, hnone⟩ :=
    hashFindEntry_spec agreeable_alias (h.holds t rfl) (x := aliasSample kw) trivial
  refine ⟨r, hlook, ?_, ?_⟩
  · cases r with
    | some ap =>
      obtain ⟨hmem, hcomp⟩ := hsome ap rfl
      have hkw : kw = ap.body.kw := beq_iff_eq.1 hcomp
      rw [hkw, (h.stated t rfl ap hmem).1]
      rfl
    | none =>
      refine (firstStatement_eq_none.2 fun stmt hstmt hkw => ?_).symm
      obtain ⟨_, ⟨⟩, ap, hap, hcover⟩ := h.covers stmt hstmt
      have hdiff := hnone rfl ap hap
      rw [show aliasFunctions.comparator (aliasSample kw) ap = (kw == ap.body.kw) from rfl,
        hcover, hkw, beq_self_eq_true] at hdiff
      cases hdiff
  · rintro ap hap
    obtain ⟨hmem, hcomp⟩ := hsome ap hap
    exact ⟨hmem, (beq_iff_eq.1 hcomp).symm⟩

/-- **Installing an alias.** It ends the program, or the table holds one
statement more, and the statement is refused exactly if there was one for
the keyword. -/
theorem aliasInstall_spec (h : Stocked stmts table) (stmt : AliasStatement) (fl : ℚ → ℚ) :
    aliasInstall fl ⟨stmts.length, stmt.1, stmt.2⟩ table = .error .exit ∨
      ∃ table', aliasInstall fl ⟨stmts.length, stmt.1, stmt.2⟩ table =
          .ok (table', (firstStatement stmts stmt.1.kw).map Prod.snd) ∧
        Stocked (stmts ++ [stmt]) table' := by
  unfold aliasInstall
  rcases h.table_or_new fl with hnone | ⟨t, hsome, ht⟩
  · rw [hnone]
    exact .inl rfl
  obtain ⟨r, hins, hr⟩ := hashInsert_spec fl agreeable_alias (ht.holds t rfl)
    (x := ⟨stmts.length, stmt.1, stmt.2⟩) trivial
  rw [hsome, orDie, ok_bind, hins]
  rcases r with - | ⟨t', ret⟩
  · exact .inl rfl
  obtain ⟨hkeys', hcomp, hcases⟩ := hr t' ret rfl
  have hkw : stmt.1.kw = ret.body.kw := beq_iff_eq.1 hcomp
  refine .inr ⟨some t', ?_⟩
  have hfirst : ∀ kw, firstStatement stmts kw ≠ none →
      firstStatement (stmts ++ [stmt]) kw = firstStatement stmts kw := by
    intro kw hne
    rw [firstStatement_concat]
    cases hold : firstStatement stmts kw with
    | none => exact absurd hold hne
    | some old => rfl
  rcases hcases with ⟨rfl, hmem⟩ | ⟨rfl, hnew, hperm⟩
  · -- the keyword is taken: its block is another one
    obtain ⟨hold, haddr⟩ := ht.stated t' rfl ret hmem
    have hne : ret ≠ ⟨stmts.length, stmt.1, stmt.2⟩ := by
      rintro rfl
      exact absurd haddr (Nat.lt_irrefl _)
    refine ⟨?_, ?_, ?_, ?_⟩
    · simp only [orDie, ok_bind, if_neg hne, hkw, hold, Option.map_some]
    · rintro _ ⟨⟩
      exact hkeys'
    · rintro _ ⟨⟩ ap hap
      obtain ⟨hap', hlt⟩ := ht.stated t' rfl ap hap
      rw [hfirst _ (by rw [hap']; exact Option.some_ne_none _), List.length_append]
      exact ⟨hap', by omega⟩
    · intro s hs
      rcases List.mem_append.1 hs with hs | hs
      · exact ht.covers s hs
      · rw [List.mem_singleton.1 hs]
        exact ⟨t', rfl, ret, hmem, hkw.symm⟩
  · -- it is new
    have hnone : firstStatement stmts stmt.1.kw = none := by
      refine firstStatement_eq_none.2 fun s hs hskw => ?_
      obtain ⟨_, ⟨⟩, ap, hap, hcover⟩ := ht.covers s hs
      have hdiff := hnew ap hap
      rw [show aliasFunctions.comparator ⟨stmts.length, stmt.1, stmt.2⟩ ap =
        (stmt.1.kw == ap.body.kw) from rfl, hcover, hskw, beq_self_eq_true] at hdiff
      cases hdiff
    refine ⟨?_, ?_, ?_, ?_⟩
    · simp only [orDie, ok_bind, if_true, hnone, Option.map_none]
    · rintro _ ⟨⟩
      exact hkeys'
    · rintro _ ⟨⟩ ap hap
      rw [List.length_append, List.length_singleton]
      rcases List.mem_cons.1 (hperm.subset hap) with rfl | hap
      · refine ⟨?_, Nat.lt_succ_self _⟩
        rw [firstStatement_concat, hnone, if_pos rfl]
        rfl
      · obtain ⟨hap', hlt⟩ := ht.stated t rfl ap hap
        rw [hfirst _ (by rw [hap']; exact Option.some_ne_none _)]
        exact ⟨hap', by omega⟩
    · intro s hs
      rcases List.mem_append.1 hs with hs | hs
      · obtain ⟨_, ⟨⟩, ap, hap, hcover⟩ := ht.covers s hs
        exact ⟨t', rfl, ap, hperm.symm.subset (List.mem_cons_of_mem _ hap), hcover⟩
      · rw [List.mem_singleton.1 hs]
        exact ⟨t', rfl, _, hperm.symm.subset List.mem_cons_self, rfl⟩

/-- No two entries of the table differ for a keyword, so searching them all
is searching the statements. -/
theorem Stocked.hashLookup_entries (h : Stocked stmts (some t)) (kw : Bytes) :
    hashLookup (t.entries.map AliasBlock.body) kw = hashLookup (stmts.map Prod.fst) kw := by
  have hstmts : hashLookup (stmts.map Prod.fst) kw = (firstStatement stmts kw).map Prod.fst := by
    unfold hashLookup firstStatement
    rw [List.find?_map]
    rfl
  rw [hstmts]
  cases hfind : hashLookup (t.entries.map AliasBlock.body) kw with
  | some ap =>
    obtain ⟨hmem, hkw⟩ := hashLookup_kw hfind
    obtain ⟨block, hblock, rfl⟩ := List.mem_map.1 hmem
    rw [← hkw, (h.stated t rfl block hblock).1]
    rfl
  | none =>
    have hnone : firstStatement stmts kw = none := by
      refine firstStatement_eq_none.2 fun stmt hstmt hskw => ?_
      obtain ⟨_, ⟨⟩, ap, hap, hcover⟩ := h.covers stmt hstmt
      have hdiff := List.find?_eq_none.1 hfind _ (List.mem_map_of_mem hap)
      exact hdiff (decide_eq_true (hcover.trans hskw))
    rw [hnone]
    rfl

/-- **A lookup** in the table is one in the list of its entries. -/
theorem Stocked.aliasLookup_eq (h : Stocked stmts (some t)) :
    aliasLookup t = fun kw => .ok (hashLookup (t.entries.map AliasBlock.body) kw) := by
  funext kw
  obtain ⟨r, hlook, hr, -⟩ := h.lookup kw
  have hfirst : hashLookup (t.entries.map AliasBlock.body) kw = r.map AliasBlock.body := by
    rw [h.hashLookup_entries, hashLookup, List.find?_map]
    change (firstStatement stmts kw).map Prod.fst = r.map AliasBlock.body
    rw [← hr, Option.map_map]
    rfl
  rw [aliasLookup, hlook, ok_bind, hfirst]

end Table

/-- A search from the head word, with more budget than there are aliases. -/
theorem chainLoop_start {table : List Alias} {fuel : ℕ} (word : Bytes)
    (hfuel : table.length < fuel) :
    chainLoop (fun kw => .ok (hashLookup table kw)) fuel word [] = .ok (chain table word) := by
  have hall : table.filter (·.kw ∉ ([] : List Alias).map Alias.kw) = table :=
    List.filter_eq_self.2 fun ap _ => by simp
  rw [chainLoop_eq word [] (by rwa [hall]), hall, List.nil_append]

/-- **Tables that find the same expand the same.** -/
theorem aliasExpand_congr {table₁ table₂ : List Alias}
    (h : ∀ kw, hashLookup table₁ kw = hashLookup table₂ kw) (argv : List Bytes) :
    aliasExpand (some table₁) argv = aliasExpand (some table₂) argv := by
  have hlookup : (fun kw => .ok (hashLookup table₁ kw) : Bytes → Except Fault (Option Alias)) =
      fun kw => .ok (hashLookup table₂ kw) := funext fun kw => congrArg Except.ok (h kw)
  cases argv with
  | nil => rfl
  | cons word args =>
    have hbudget := @chainLoop_start table₁ (table₁.length + table₂.length + 1) word (by omega)
    have hbudget' := @chainLoop_start table₂ (table₁.length + table₂.length + 1) word (by omega)
    rw [hlookup] at hbudget
    unfold aliasExpand aliasExpandBy
    dsimp only
    rw [chainLoop_start word (Nat.lt_succ_self _), chainLoop_start word (Nat.lt_succ_self _),
      ← hbudget, ← hbudget']

/-- An expansion over the table that holds the statements. -/
theorem Stocked.aliasExpandIn_eq {stmts : List AliasStatement} {table : AliasHashTable}
    (h : Stocked stmts table) (word : Bytes) (args : List Bytes) :
    aliasExpandIn table (word :: args) =
      aliasExpand (some (stmts.map Prod.fst)) (word :: args) := by
  cases table with
  | none =>
    have hnil : stmts = [] := by
      rw [List.eq_nil_iff_forall_not_mem]
      intro stmt hstmt
      obtain ⟨t, ht, -⟩ := h.covers stmt hstmt
      cases ht
    subst hnil
    rfl
  | some t =>
    rw [← aliasExpand_congr h.hashLookup_entries, aliasExpandIn, aliasExpand, h.aliasLookup_eq,
      List.length_map]

/-! ## Every configuration -/

/-- What `alias_install` returns for the statements in turn. -/
def aliasReturns (stmts : List AliasStatement) : List (Option Locus) :=
  stmts.zipIdx.map fun (stmt, i) => (firstStatement (stmts.take i) stmt.1.kw).map Prod.snd

/-- One statement more. -/
theorem aliasReturns_concat (stmts : List AliasStatement) (stmt : AliasStatement) :
    aliasReturns (stmts ++ [stmt]) =
      aliasReturns stmts ++ [(firstStatement stmts stmt.1.kw).map Prod.snd] := by
  unfold aliasReturns
  rw [List.zipIdx_append, List.map_append]
  congr 1
  · refine List.map_congr_left fun p hp => ?_
    obtain ⟨s, i⟩ := p
    have hi : i < stmts.length := by
      have hlt := (List.mem_zipIdx hp).2.1
      omega
    dsimp only
    rw [List.take_append_of_le_length hi.le]
  · rw [List.zipIdx_singleton, List.map_singleton]
    dsimp only
    rw [Nat.zero_add, List.take_left]

/-- **The statements of a configuration.** Either one of them ends the
program, or the table holds them all. -/
theorem aliasRun_stocked (fl : ℚ → ℚ) (stmts : List AliasStatement) :
    stmts.foldlM (fun s stmt => aliasStep fl stmt s) (none, []) = .error AclStop.exit ∨
      ∃ table, stmts.foldlM (fun s stmt => aliasStep fl stmt s) (none, []) =
          .ok (table, aliasReturns stmts) ∧ Stocked stmts table := by
  induction stmts using List.reverseRecOn with
  | nil => exact .inr ⟨none, rfl, stocked_nil⟩
  | append_singleton stmts stmt ih =>
    rw [List.foldlM_append]
    rcases ih with hexit | ⟨table, hrun, hstocked⟩
    · rw [hexit]
      exact .inl rfl
    rw [hrun, aliasReturns_concat]
    have hlen : (aliasReturns stmts).length = stmts.length := by
      unfold aliasReturns
      rw [List.length_map, List.length_zipIdx]
    rcases aliasInstall_spec hstocked stmt fl with hexit | ⟨table', hins, hstocked'⟩
    · left
      change aliasStep fl stmt (table, aliasReturns stmts) >>= _ = _
      unfold aliasStep
      rw [hlen, hexit]
      rfl
    · right
      refine ⟨table', ?_, hstocked'⟩
      change aliasStep fl stmt (table, aliasReturns stmts) >>= _ = _
      unfold aliasStep
      rw [hlen, hins]
      rfl

/-- **The aliases of a configuration.** Whatever `alias` statements it has,
unless they end the program, the ones that are refused are those whose
keyword was there before, each with the place of the first for it, and
every command line is expanded as a search of the statements in their order
expands it. -/
theorem alias_table_expands (fl : ℚ → ℚ) (stmts : List AliasStatement) :
    stmts.foldlM (fun s stmt => aliasStep fl stmt s) (none, []) = .error AclStop.exit ∨
      ∃ table, stmts.foldlM (fun s stmt => aliasStep fl stmt s) (none, []) =
          .ok (table, aliasReturns stmts) ∧
        ∀ word args, aliasExpandIn table (word :: args) =
          aliasExpand (some (stmts.map Prod.fst)) (word :: args) := by
  rcases aliasRun_stocked fl stmts with hexit | ⟨table, hrun, hstocked⟩
  · exact .inl hexit
  · exact .inr ⟨table, hrun, hstocked.aliasExpandIn_eq⟩

end Dico
