import Dico.Common.CInt
import Dico.Common.Memory
/-!
# Command aliases

`alias_expand` of `dicod/alias.c`. It follows the aliases of the head word
until there is none, or one it has been at before, and then fills the new
command line from its end: the client's own words, and before them the
words behind the head of each alias, the last one followed in front. The
words are counted in an `int` before that.
-/

namespace Dico

/-! ## The model -/

/-- `struct alias`. Its words are there: `alias_cb` refuses an alias
without any. -/
structure Alias where
  kw : Bytes
  argv : List Bytes
  argv_ne_nil : argv ≠ []
  deriving DecidableEq

/-- An argument vector in memory: pointers to words, and null pointers. -/
abbrev ArgBlock := List (Option Bytes)

/-- `nargv[pos] = word`. -/
def storeArg (nargv : ArgBlock) (pos : ℤ) (word : Option Bytes) : Except Fault ArgBlock :=
  if 0 ≤ pos ∧ pos < nargv.length then .ok (nargv.set pos.toNat word) else .error .bounds

/-- `memcpy(nargv + pos, …)`. -/
def copyArgs (nargv : ArgBlock) (pos : ℤ) (words : ArgBlock) : Except Fault ArgBlock :=
  if 0 ≤ pos ∧ pos + words.length ≤ nargv.length then
    .ok (nargv.take pos.toNat ++ words ++ nargv.drop (pos.toNat + words.length))
  else .error .bounds

/-- The loop over the words of an alias, from the last one down to the one
behind its head. -/
def argLoop (argv : List Bytes) : ℕ → ArgBlock → ℤ → Except Fault (ArgBlock × ℤ)
  | 0, nargv, pos => .ok (nargv, pos)
  | i + 1, nargv, pos => do
    let nargv ← storeArg nargv pos argv[i + 1]?
    argLoop argv i nargv (pos - 1)

/-- The loop over the aliases, with the head of the last one. -/
def fillLoop : List Alias → ArgBlock → ℤ → Option Bytes →
    Except Fault (ArgBlock × ℤ × Option Bytes)
  | [], nargv, pos, kw => .ok (nargv, pos, kw)
  | ap :: aps, nargv, pos, _ => do
    let (nargv, pos) ← argLoop ap.argv (ap.argv.length - 1) nargv pos
    fillLoop aps nargv pos ap.argv[0]?

/-- The aliases. The table hashes and compares keywords as strings, so it
is looked up by the keyword. -/
def hashLookup (table : List Alias) (kw : Bytes) : Option Alias := table.find? (·.kw = kw)

/-- The loop that follows the aliases, which `lookup` finds in the table. -/
def chainLoop (lookup : Bytes → Except Fault (Option Alias)) :
    ℕ → Bytes → List Alias → Except Fault (List Alias)
  | 0, _, _ => .error .loop
  | fuel + 1, kw, alist => do
    match ← lookup kw with
    | none => .ok alist
    | some ap =>
      -- `dico_list_locate`, with `list_alias_cmp`
      if (alist.find? (·.kw = ap.kw)).isSome then .ok alist
      else chainLoop lookup fuel (ap.argv.head ap.argv_ne_nil) (alist ++ [ap])

/-- The loop that counts the words. -/
def countLoop : List Alias → ℤ → Except Fault ℤ
  | [], nargc => .ok nargc
  | ap :: aps, nargc => intOp (nargc + (ap.argv.length - 1)) >>= countLoop aps

/-- `alias_expand` over a table of so many aliases: the new words and their
number, or nothing where it returns 1. The old words have a null pointer
behind them. -/
def aliasExpandBy (lookup : Bytes → Except Fault (Option Alias)) (size : ℕ) (argv : List Bytes) :
    Except Fault (Option (ℤ × ArgBlock)) :=
  match argv with
  | [] => .error .dangling
  | word :: args => do
    let alist ← chainLoop lookup (size + 1) word []
    if alist = [] then .ok none
    else do
      let pos ← countLoop alist 1
      let nargc ← intOp (pos + ((word :: args).length - 1))
      let size ← intOp (nargc + 1)
      let nargv ← copyArgs (List.replicate size.toNat none) pos (args.map some ++ [none])
      let (nargv, pos, kw) ← fillLoop alist nargv (pos - 1) none
      let nargv ← storeArg nargv pos kw
      .ok (some (nargc, nargv))

/-- `alias_expand`, where the table is a list that is searched from its
head. -/
def aliasExpand (aliasTable : Option (List Alias)) (argv : List Bytes) :
    Except Fault (Option (ℤ × ArgBlock)) :=
  match aliasTable with
  | none => .ok none
  | some table => aliasExpandBy (fun kw => .ok (hashLookup table kw)) table.length argv

/-! ## What an expansion is -/

/-- The aliases that are left when one has been used. -/
def unused (table : List Alias) (kw : Bytes) : List Alias := table.filter (·.kw ≠ kw)

section Lookup

variable {table : List Alias} {kw : Bytes} {ap : Alias}

/-- An alias is found by its keyword. -/
theorem hashLookup_kw (h : hashLookup table kw = some ap) : ap ∈ table ∧ ap.kw = kw := by
  unfold hashLookup at h
  have hkw := List.find?_some h
  exact ⟨List.mem_of_find?_eq_some h, of_decide_eq_true hkw⟩

/-- An alias that is used is not left. -/
theorem length_unused_lt (h : hashLookup table kw = some ap) :
    (unused table kw).length < table.length := by
  obtain ⟨hmem, hkw⟩ := hashLookup_kw h
  exact List.length_filter_lt_length_iff_exists.2 ⟨ap, hmem, by simp [hkw]⟩

end Lookup

/-- The head word replaced by the words of its alias, over and over, until
it is no alias, or one that has been used. -/
def headExpansion (table : List Alias) : List Bytes → List Bytes
  | [] => []
  | word :: args =>
    match _h : hashLookup table word with
    | none => word :: args
    | some ap => headExpansion (unused table word) (ap.argv ++ args)
termination_by table.length
decreasing_by exact length_unused_lt _h

/-- The aliases that are used, in order. -/
def chain (table : List Alias) (word : Bytes) : List Alias :=
  match _h : hashLookup table word with
  | none => []
  | some ap => ap :: chain (unused table word) (ap.argv.head ap.argv_ne_nil)
termination_by table.length
decreasing_by exact length_unused_lt _h

/-- A command line with its head replaced by the words of one alias after
another. -/
def replaceHead : List Alias → List Bytes → List Bytes
  | [], words => words
  | ap :: aps, words => replaceHead aps (ap.argv ++ words.tail)

section Chain

variable {table : List Alias} {word kw : Bytes} {ap : Alias}

/-- A head that is an alias. -/
theorem headExpansion_some (h : hashLookup table word = some ap) (args : List Bytes) :
    headExpansion table (word :: args) = headExpansion (unused table word) (ap.argv ++ args) := by
  rw [headExpansion]
  split
  · rename_i hnone
    rw [h] at hnone
    cases hnone
  · rename_i ap' hsome
    rw [h] at hsome
    rw [Option.some.inj hsome]

/-- A head that is none. -/
theorem headExpansion_none (h : hashLookup table word = none) (args : List Bytes) :
    headExpansion table (word :: args) = word :: args := by
  rw [headExpansion]
  split
  · rfl
  · rename_i ap' hsome
    rw [h] at hsome
    cases hsome

/-- A chain goes on at an alias. -/
theorem chain_some (h : hashLookup table word = some ap) :
    chain table word = ap :: chain (unused table word) (ap.argv.head ap.argv_ne_nil) := by
  rw [chain]
  split
  · rename_i hnone
    rw [h] at hnone
    cases hnone
  · rename_i ap' hsome
    rw [h] at hsome
    obtain rfl := Option.some.inj hsome
    rfl

/-- And it ends where there is none. -/
theorem chain_none (h : hashLookup table word = none) : chain table word = [] := by
  rw [chain]
  split
  · rfl
  · rename_i ap' hsome
    rw [h] at hsome
    cases hsome

/-- **The expansion takes the aliases of the chain.** -/
theorem headExpansion_eq (table : List Alias) (word : Bytes) (args : List Bytes) :
    headExpansion table (word :: args) = replaceHead (chain table word) (word :: args) := by
  fun_induction chain table word generalizing args with
  | case1 table word h => exact headExpansion_none h args
  | case2 table word ap h ih =>
    have hwords : ap.argv ++ args = ap.argv.head ap.argv_ne_nil :: (ap.argv.tail ++ args) := by
      rw [← List.cons_append, List.cons_head_tail]
    rw [headExpansion_some h, hwords, ih, replaceHead, List.tail_cons, hwords]

/-- What is found among the aliases that are left. -/
theorem hashLookup_filter (table : List Alias) (kw : Bytes) (used : List Bytes) :
    hashLookup (table.filter (·.kw ∉ used)) kw =
      if kw ∈ used then none else hashLookup table kw := by
  rw [hashLookup, List.find?_filter]
  split_ifs with h
  · rw [List.find?_eq_none]
    intro ap _ hap
    simp only [decide_not, Bool.not_eq_true', decide_eq_false_iff_not, decide_eq_true_eq] at hap
    exact hap.1 (hap.2 ▸ h)
  · refine congrArg (fun p => table.find? p) (funext fun ap => ?_)
    by_cases hkw : ap.kw = kw
    · simp [hkw, h]
    · simp [hkw]

/-- Using one more alias. -/
theorem unused_filter (used : List Bytes) :
    unused (table.filter (·.kw ∉ used)) kw = table.filter (·.kw ∉ used ++ [kw]) := by
  rw [unused, List.filter_filter]
  refine List.filter_congr fun ap _ => ?_
  simp [and_comm]

/-- **The loop follows the chain**, and the number of aliases is enough
budget: each is taken at most once. -/
theorem chainLoop_eq {fuel : ℕ} (word : Bytes) (alist : List Alias)
    (hfuel : (table.filter (·.kw ∉ alist.map Alias.kw)).length < fuel) :
    chainLoop (fun kw => .ok (hashLookup table kw)) fuel word alist =
      .ok (alist ++ chain (table.filter (·.kw ∉ alist.map Alias.kw)) word) := by
  induction fuel generalizing word alist with
  | zero => exact absurd hfuel (Nat.not_lt_zero _)
  | succ fuel ih =>
    have hlook := hashLookup_filter table word (alist.map Alias.kw)
    rw [chainLoop, ok_bind]
    cases hw : hashLookup table word with
    | none =>
      rw [hw, ite_self] at hlook
      rw [chain_none hlook, List.append_nil]
    | some ap =>
      obtain ⟨-, hkw⟩ := hashLookup_kw hw
      have hused : (alist.find? (·.kw = ap.kw)).isSome = true ↔ word ∈ alist.map Alias.kw := by
        rw [List.find?_isSome, hkw]
        simp only [decide_eq_true_eq, List.mem_map]
      rw [hw] at hlook
      -- an alias that was used before ends the chain
      by_cases hmem : word ∈ alist.map Alias.kw
      · rw [if_pos hmem] at hlook
        rw [chain_none hlook, List.append_nil]
        exact if_pos (hused.2 hmem)
      · rw [if_neg hmem] at hlook
        have hlt := length_unused_lt hlook
        have hleft : unused (table.filter (·.kw ∉ alist.map Alias.kw)) word =
            table.filter (·.kw ∉ (alist ++ [ap]).map Alias.kw) := by
          rw [unused_filter, List.map_append, List.map_singleton, hkw]
        rw [hleft] at hlt
        rw [chain_some hlook, hleft, List.append_cons, ← ih _ (alist ++ [ap]) (by omega)]
        exact if_neg fun hsome => hmem (hused.1 hsome)

end Chain

/-! ## The command line is filled from its end -/

section Fill

variable {done : ArgBlock}

/-- A store at the end of what is free. -/
theorem storeArg_free (m : ℕ) (done : ArgBlock) (word : Option Bytes) :
    storeArg (List.replicate (m + 1) none ++ done) m word =
      .ok (List.replicate m none ++ word :: done) := by
  have hin : (0 : ℤ) ≤ m ∧ (m : ℤ) < (List.replicate (m + 1) none ++ done).length := by
    rw [List.length_append, List.length_replicate]
    omega
  rw [storeArg, if_pos hin, Int.toNat_natCast, List.replicate_succ', List.append_assoc,
    List.set_append_right _ _ (by rw [List.length_replicate]), List.length_replicate, Nat.sub_self]
  rfl

/-- The words of an alias behind its head. -/
theorem argLoop_spec (word : Bytes) (args : List Bytes) {i : ℕ} (m : ℕ) (hi : i ≤ args.length)
    (done : ArgBlock) :
    argLoop (word :: args) i (List.replicate (m + 1 + i) none ++ done) (m + i : ℕ) =
      .ok (List.replicate (m + 1) none ++ ((args.take i).map some ++ done), (m : ℤ)) := by
  induction i generalizing done with
  | zero => rfl
  | succ i ih =>
    have hget : (word :: args)[i + 1]? = some args[i] := by
      rw [List.getElem?_cons_succ, List.getElem?_eq_getElem (by omega)]
    have hpos : ((m + (i + 1) : ℕ) : ℤ) - 1 = (m + i : ℕ) := by omega
    rw [argLoop, hget, ← Nat.add_assoc, ← Nat.add_assoc, Nat.add_right_comm m 1 i, storeArg_free,
      ok_bind]
    rw [← Nat.add_assoc] at hpos
    rw [hpos, Nat.add_right_comm, ih (by omega), List.take_add_one, List.map_append,
      List.getElem?_eq_getElem (by omega), List.append_assoc]
    rfl

/-- How many words the aliases add. -/
def added (aps : List Alias) : ℕ := (aps.map fun ap => ap.argv.length - 1).sum

/-- **The count of the new words**, without the client's own. -/
theorem countLoop_eq (aps : List Alias) {n : ℕ} (h : n + added aps < 2 ^ 31) :
    countLoop aps n = .ok ((n + added aps : ℕ) : ℤ) := by
  induction aps generalizing n with
  | nil => rfl
  | cons ap aps ih =>
    have hpos := List.length_pos_of_ne_nil ap.argv_ne_nil
    have hadded : added (ap :: aps) = ap.argv.length - 1 + added aps := by
      rw [added, added, List.map_cons, List.sum_cons]
    have hnext : (n : ℤ) + (ap.argv.length - 1) = (n + (ap.argv.length - 1) : ℕ) := by omega
    rw [hadded] at h ⊢
    rw [countLoop, hnext, intOp_ok (by omega) (by omega), ok_bind, ih (by omega), Nat.add_assoc]

/-- It overflows where they are too many. -/
theorem countLoop_overflow (aps : List Alias) {n : ℕ} (hn : n < 2 ^ 31)
    (h : 2 ^ 31 ≤ n + added aps) : countLoop aps n = .error .overflow := by
  induction aps generalizing n with
  | nil =>
    rw [added, List.map_nil, List.sum_nil] at h
    omega
  | cons ap aps ih =>
    have hpos := List.length_pos_of_ne_nil ap.argv_ne_nil
    have hadded : added (ap :: aps) = ap.argv.length - 1 + added aps := by
      rw [added, added, List.map_cons, List.sum_cons]
    have hnext : (n : ℤ) + (ap.argv.length - 1) = (n + (ap.argv.length - 1) : ℕ) := by omega
    rw [hadded] at h
    rw [countLoop, hnext]
    rcases Nat.lt_or_ge (n + (ap.argv.length - 1)) (2 ^ 31) with hlt | hge
    · rw [intOp_ok (by omega) (by omega), ok_bind, ih hlt (by omega)]
    · rw [intOp_overflow (by omega), error_bind]

/-- **The words go to their places**: what is free is filled from its end,
and at last the head. -/
theorem fillLoop_spec (aps : List Alias) (word : Bytes) (args : List Bytes) :
    ∃ nargv kw, fillLoop aps (List.replicate (added aps + 1) none ++ (args.map some ++ [none]))
        (added aps) (some word) = .ok (nargv, 0, kw) ∧
      storeArg nargv 0 kw = .ok ((replaceHead aps (word :: args)).map some ++ [none]) ∧
      (replaceHead aps (word :: args)).length = added aps + 1 + args.length := by
  induction aps generalizing word args with
  | nil =>
    refine ⟨_, _, rfl, storeArg_free 0 _ _, ?_⟩
    rw [replaceHead, List.length_cons, added, List.map_nil, List.sum_nil]
    omega
  | cons ap aps ih =>
    obtain ⟨head, tail, hargv⟩ := List.exists_cons_of_ne_nil ap.argv_ne_nil
    have hadded : added (ap :: aps) = added aps + tail.length := by
      rw [added, added, List.map_cons, List.sum_cons, hargv, List.length_cons]
      omega
    -- the arguments of the alias go before those that are there, its head is next
    obtain ⟨nargv, kw, hfill, hstore, hlen⟩ := ih head (tail ++ args)
    have hloop := argLoop_spec head tail (added aps) le_rfl (args.map some ++ [none])
    rw [List.take_length, ← List.append_assoc (tail.map some), ← List.map_append] at hloop
    refine ⟨nargv, kw, ?_, ?_, ?_⟩
    · rw [fillLoop, hargv, List.length_cons, Nat.add_sub_cancel, hadded, Nat.add_right_comm, hloop,
        ok_bind]
      exact hfill
    · rw [replaceHead, hargv]
      exact hstore
    · rw [replaceHead, hargv]
      rw [List.length_append] at hlen
      rw [List.tail_cons, List.cons_append, hlen]
      omega

/-- The client's words behind the room for those of the aliases. -/
theorem copyArgs_spec (n : ℕ) (words : ArgBlock) :
    copyArgs (List.replicate (n + words.length) none) n words =
      .ok (List.replicate n none ++ words) := by
  have hin : (0 : ℤ) ≤ n ∧ (n : ℤ) + words.length ≤
      (List.replicate (n + words.length) (none : Option Bytes)).length := by
    rw [List.length_replicate]
    omega
  rw [copyArgs, if_pos hin, Int.toNat_natCast, List.take_replicate, List.drop_replicate,
    Nat.sub_self, List.replicate_zero, List.append_nil, Nat.min_eq_left (Nat.le_add_right _ _)]

end Fill

section Expansion

variable {table : List Alias} {word : Bytes} {args : List Bytes} {ap : Alias}

/-- The aliases that are followed. -/
theorem chainLoop_head (table : List Alias) (word : Bytes) :
    chainLoop (fun kw => .ok (hashLookup table kw)) (table.length + 1) word [] =
      .ok (chain table word) := by
  have hall : table.filter (·.kw ∉ ([] : List Alias).map Alias.kw) = table := by
    refine List.filter_eq_self.2 fun ap _ => ?_
    simp
  have hchain := chainLoop_eq word [] (hall ▸ Nat.lt_succ_self table.length)
  rwa [hall, List.nil_append] at hchain

/-- A head that is no alias. -/
theorem aliasExpand_none (h : hashLookup table word = none) (args : List Bytes) :
    aliasExpand (some table) (word :: args) = .ok none := by
  rw [aliasExpand, aliasExpandBy, chainLoop_head, chain_none h]
  rfl

/-- An expansion has as many words as the aliases add, and the client's. -/
theorem length_headExpansion (table : List Alias) (word : Bytes) (args : List Bytes) :
    (headExpansion table (word :: args)).length = added (chain table word) + 1 + args.length := by
  obtain ⟨-, -, -, -, hlen⟩ := fillLoop_spec (chain table word) word args
  rwa [← headExpansion_eq] at hlen

/-- A head that is one, where the words can be counted. -/
theorem aliasExpand_some (h : hashLookup table word = some ap)
    (hlt : (headExpansion table (word :: args)).length + 1 < 2 ^ 31) :
    aliasExpand (some table) (word :: args) =
      .ok (some (((headExpansion table (word :: args)).length : ℤ),
        (headExpansion table (word :: args)).map some ++ [none])) := by
  obtain ⟨nargv, kw, hfill, hstore, hlen⟩ := fillLoop_spec (chain table word) word args
  rw [← headExpansion_eq] at hstore hlen
  have hne : chain table word ≠ [] := by
    rw [chain_some h]
    exact List.cons_ne_nil _ _
  -- the head of the last alias does not depend on what was there before
  have hkw : ∀ nargv pos kw', fillLoop (chain table word) nargv pos kw' =
      fillLoop (chain table word) nargv pos none := by
    intro nargv pos kw'
    rw [chain_some h]
    rfl
  have hpos : countLoop (chain table word) 1 = .ok ((added (chain table word) + 1 : ℕ) : ℤ) := by
    have hcount := @countLoop_eq (chain table word) 1 (by omega)
    rwa [Nat.cast_one, Nat.add_comm 1] at hcount
  have hnargc : intOp (((added (chain table word) + 1 : ℕ) : ℤ) + ((word :: args).length - 1)) =
      .ok ((headExpansion table (word :: args)).length : ℤ) := by
    rw [show ((added (chain table word) + 1 : ℕ) : ℤ) + ((word :: args).length - 1) =
      ((headExpansion table (word :: args)).length : ℕ) by rw [hlen, List.length_cons]; omega]
    exact intOp_ok (by omega) (by omega)
  have hsize : intOp (((headExpansion table (word :: args)).length : ℤ) + 1) =
      .ok ((headExpansion table (word :: args)).length + 1) := intOp_ok (by omega) (by omega)
  have hlast : ((added (chain table word) + 1 : ℕ) : ℤ) - 1 = added (chain table word) := by
    omega
  have hroom : ((headExpansion table (word :: args)).length + 1 : ℤ).toNat =
      added (chain table word) + 1 + (args.map some ++ [none]).length := by
    rw [hlen, List.length_append, List.length_map, List.length_singleton]
    omega
  rw [hkw] at hfill
  rw [aliasExpand, aliasExpandBy, chainLoop_head, ok_bind]
  rw [if_neg hne, hpos, ok_bind, hnargc, ok_bind, hsize, ok_bind, hroom, copyArgs_spec, ok_bind,
    hlast, hfill, ok_bind]
  dsimp only
  rw [hstore, ok_bind]

/-- And where they cannot. -/
theorem aliasExpand_overflow (h : hashLookup table word = some ap)
    (hge : 2 ^ 31 ≤ (headExpansion table (word :: args)).length + 1) :
    aliasExpand (some table) (word :: args) = .error .overflow := by
  have hlen := length_headExpansion table word args
  have hne : chain table word ≠ [] := by
    rw [chain_some h]
    exact List.cons_ne_nil _ _
  rw [aliasExpand, aliasExpandBy, chainLoop_head, ok_bind]
  simp only [if_neg hne]
  rcases Nat.lt_or_ge (1 + added (chain table word)) (2 ^ 31) with hlt | hmany
  · have hpos := @countLoop_eq (chain table word) 1 hlt
    rw [Nat.cast_one] at hpos
    rw [hpos, ok_bind]
    rcases Nat.lt_or_ge (headExpansion table (word :: args)).length (2 ^ 31) with hin | hout
    · rw [intOp_ok (by omega) (by rw [List.length_cons]; omega), ok_bind,
        intOp_overflow (by rw [List.length_cons]; omega), error_bind]
    · rw [intOp_overflow (by rw [List.length_cons]; omega), error_bind]
  · have hpos := @countLoop_overflow (chain table word) 1 (by decide) hmany
    rw [Nat.cast_one] at hpos
    rw [hpos, error_bind]

end Expansion

/-- What `alias_expand` should do: where the head is an alias it returns the
words of the expansion, their number, and a null pointer behind them, and
else nothing. -/
def AliasExpands (aliasTable : Option (List Alias)) (word : Bytes) (args : List Bytes) : Prop :=
  aliasExpand aliasTable (word :: args) =
    .ok (if (hashLookup (aliasTable.getD []) word).isSome then
      some (((headExpansion (aliasTable.getD []) (word :: args)).length : ℤ),
        (headExpansion (aliasTable.getD []) (word :: args)).map some ++ [none])
      else none)

/-- **When it does**, over a table that is there. -/
theorem aliasExpands_some (table : List Alias) (word : Bytes) (args : List Bytes) :
    AliasExpands (some table) word args ↔ hashLookup table word = none ∨
      (headExpansion table (word :: args)).length + 1 < 2 ^ 31 := by
  rw [AliasExpands, Option.getD_some]
  cases hw : hashLookup table word with
  | none => exact iff_of_true (aliasExpand_none hw args) (.inl rfl)
  | some ap =>
    rw [or_iff_right (Option.some_ne_none ap)]
    rcases Nat.lt_or_ge ((headExpansion table (word :: args)).length + 1) (2 ^ 31) with hlt | hge
    · exact iff_of_true (aliasExpand_some hw hlt) hlt
    · rw [aliasExpand_overflow hw hge]
      exact iff_of_false nofun (not_lt.2 hge)

/-- **Command aliases.** Whatever the aliases are, `alias_expand` returns the
expansion of a line whose head is an alias, and nothing for any other,
exactly where the words of the expansion, and the null pointer, can be
counted in an `int`. -/
theorem aliasExpands_iff (aliasTable : Option (List Alias)) (word : Bytes) (args : List Bytes) :
    AliasExpands aliasTable word args ↔ hashLookup (aliasTable.getD []) word = none ∨
      (headExpansion (aliasTable.getD []) (word :: args)).length + 1 < 2 ^ 31 := by
  cases aliasTable with
  | none => exact iff_of_true rfl (.inl rfl)
  | some table => exact aliasExpands_some table word args

/-- An alias of one word, and a line of as many words as an `int` can
count. -/
theorem not_forall_aliasExpands : ¬∀ (aliasTable : Option (List Alias)) (word : Bytes)
    (args : List Bytes), AliasExpands aliasTable word args := by
  intro h
  have hlook : hashLookup [⟨[120], [[121]], by decide⟩] [120] =
      some ⟨[120], [[121]], by decide⟩ := by decide
  have hleft : hashLookup (unused [⟨[120], [[121]], by decide⟩] [120]) [121] = none := by decide
  have hlen : ∀ args : List Bytes,
      (headExpansion [⟨[120], [[121]], by decide⟩] ([120] :: args)).length = args.length + 1 := by
    intro args
    rw [headExpansion_some hlook, List.singleton_append, headExpansion_none hleft,
      List.length_cons]
  have hargs : (List.replicate (2 ^ 31 - 2) ([] : Bytes)).length = 2 ^ 31 - 2 :=
    List.length_replicate
  generalize List.replicate (2 ^ 31 - 2) ([] : Bytes) = args at hargs
  rcases (aliasExpands_some _ _ _).1 (h (some [⟨[120], [[121]], by decide⟩]) [120] args) with
    hnone | hlt
  · rw [hlook] at hnone
    cases hnone
  · rw [hlen, hargs] at hlt
    exact absurd hlt (by decide)

-- the aliases `m MATCH`, `mfs m "!"` and `mf mfs "."`, and the line `mf test`
example : aliasExpand (some [⟨[109], [[77, 65, 84, 67, 72]], by decide⟩,
      ⟨[109, 102, 115], [[109], [33]], by decide⟩,
      ⟨[109, 102], [[109, 102, 115], [46]], by decide⟩])
    [[109, 102], [116, 101, 115, 116]] =
    .ok (some (4, [some [77, 65, 84, 67, 72], some [33], some [46], some [116, 101, 115, 116],
      none])) := by
  decide

end Dico
