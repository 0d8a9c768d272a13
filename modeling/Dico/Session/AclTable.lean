import Dico.Session.AclHash
/-!
# The table of access control lists

`dicod_acl_install` and `dicod_acl_lookup` of `acl.c`. The names in the
configuration are installed and looked for in the order they are written
in, and the table is made for the first of them that is installed.

If the names that are used and compare equal have the same residues, the
table is what it is taken for (`Answers`); `aclNames_by_case` is how it is
not otherwise.
-/

namespace Dico

/-- How a call ends that does not return. -/
inductive AclStop
  /-- `xalloc_die`. -/
  | exit
  | fault (f : Fault)
  deriving DecidableEq, Repr

/-- `acl_table`. -/
abbrev AclHashTable : Type := Option (HashTable DicodAcl)

/-- A list that has nothing but its name. -/
def bareAcl (addr : ℕ) (name : Bytes) : DicodAcl :=
  ⟨addr, name, ⟨⟨[], 0, 0⟩, ⟨[], 0, 0⟩⟩⟩

/-- A null pointer here is the end of the program. -/
def orDie {α : Type} : Except Fault (Option α) → Except AclStop α
  | .error f => .error (.fault f)
  | .ok none => .error .exit
  | .ok (some a) => .ok a

section Calls

variable (tolower : UInt8 → UInt8) (fl : ℚ → ℚ)

/-- The functions that `acl_table` is initialized with. -/
def aclFunctions : HashFunctions DicodAcl where
  hasher := aclHasher
  comparator := aclCompare tolower

/-- `dicod_acl_install`, with the table. It returns 1 where there is a locus
to store, of the list that was there before. -/
def dicodAclInstall (acl : DicodAcl) (table : AclHashTable) :
    Except AclStop (AclHashTable × Option Locus) := do
  let table ← orDie (.ok (table <|> hashInitialize fl 0))
  let (table, ret) ← orDie (hashInsert (aclFunctions tolower) fl table acl)
  .ok (some table, if ret = acl then none else some ret.locus)

/-- `dicod_acl_lookup`. -/
def dicodAclLookup (name : Bytes) : AclHashTable → Except Fault (Option DicodAcl)
  | none => .ok none
  | some table => hashTableLookup (aclFunctions tolower) table (bareAcl 0 name)

/-- The calls. -/
inductive AclOp
  | install (acl : DicodAcl)
  | lookup (name : Bytes)
  deriving DecidableEq, Repr

/-- The name that a call is about. -/
def AclOp.name : AclOp → Bytes
  | install acl => acl.name
  | lookup name => name

/-- What a call does to the table. -/
def aclStep : AclOp → AclHashTable → Except AclStop AclHashTable
  | .install acl, table => do
    let (table, _) ← dicodAclInstall tolower fl acl table
    .ok table
  | .lookup name, table => do
    let _ ← (dicodAclLookup tolower name table).mapError .fault
    .ok table

/-- The lists that are installed. -/
def aclEntries (table : AclHashTable) : List DicodAcl := table.elim [] HashTable.entries

/-- What the table is for after some calls, to those who use the names that
`P` says: no two lists have equal names, a list is found by a name exactly if
it was installed under an equal one, and it is refused if there is another
under such a name. -/
structure Answers (P : Bytes → Prop) (ops : List AclOp) (table : AclHashTable) : Prop where
  distinct : (aclEntries table).Pairwise fun p q => ¬ SameName tolower p.name q.name
  found : ∀ name, P name → ∃ r, dicodAclLookup tolower name table = .ok r ∧
    (∀ acl ∈ r, .install acl ∈ ops ∧ SameName tolower name acl.name) ∧
    (r.isSome ↔ ∃ acl, .install acl ∈ ops ∧ SameName tolower name acl.name)
  refused : ∀ acl, P acl.name → ∀ table' r, dicodAclInstall tolower fl acl table = .ok (table', r) →
    (r.isSome ↔ ∃ p ∈ aclEntries table, p ≠ acl ∧ SameName tolower acl.name p.name)

end Calls

/-! ## What the calls do -/

section Runs

variable {tolower : UInt8 → UInt8} {P : Bytes → Prop} {ops : List AclOp} {table : AclHashTable}
variable {acl : DicodAcl}

/-- Names, of which those that compare equal have the same residues. -/
def Consistent (tolower : UInt8 → UInt8) (P : Bytes → Prop) : Prop :=
  ∀ a b, P a → P b → SameName tolower a b → SameResidues a b

/-- A table with what was installed in some calls, of such names. -/
structure Installed (tolower : UInt8 → UInt8) (P : Bytes → Prop) (ops : List AclOp)
    (table : AclHashTable) : Prop where
  holds : ∀ t ∈ table, HoldsKeys (aclFunctions tolower) (fun p => P p.name) t
  subset : ∀ p ∈ aclEntries table, .install p ∈ ops
  covers : ∀ acl, .install acl ∈ ops →
    ∃ p ∈ aclEntries table, SameName tolower acl.name p.name

/-- The functions of the table agree on such names. -/
theorem agreeable_acl (hP : Consistent tolower P) :
    Agreeable (aclFunctions tolower) fun p => P p.name where
  hasherOk := by
    intro p n hn
    have hpos : 0 < n % 2 ^ 32 := by omega
    refine ⟨numeral p.name % (n % 2 ^ 32), aclHasher_ok hpos.ne' p, ?_⟩
    exact (Nat.mod_lt _ hpos).trans_le (Nat.mod_le n _)
  refl := fun p => decide_eq_true rfl
  symm := by
    intro p q hpq
    have hname : SameName tolower p.name q.name := of_decide_eq_true hpq
    exact decide_eq_true hname.symm
  agree := by
    intro p q hp hq hpq n _
    have hname : SameName tolower p.name q.name := of_decide_eq_true hpq
    exact (aclHasher_eq_iff hname).2 (hP _ _ hp hq hname) n

/-- Two lists of one table have different names. -/
theorem HoldsKeys.eq_of_sameName {t : HashTable DicodAcl}
    (h : HoldsKeys (aclFunctions tolower) (fun p => P p.name) t) {p q : DicodAcl}
    (hp : p ∈ t.entries) (hq : q ∈ t.entries) (hpq : SameName tolower p.name q.name) : p = q := by
  by_contra hne
  have hsymm : Std.Symm fun p q => (aclFunctions tolower).comparator p q = false := by
    constructor
    intro p q hpq
    refine decide_eq_false fun hqp => ?_
    exact of_decide_eq_false hpq hqp.symm
  exact of_decide_eq_false (h.distinct.forall hp hq hne) hpq

/-- A call more, which may have put its list into the table. -/
theorem Installed.concat (h : Installed tolower P ops table) {op : AclOp} {table' : AclHashTable}
    (holds : ∀ t ∈ table', HoldsKeys (aclFunctions tolower) (fun p => P p.name) t)
    (hsub : ∀ p ∈ aclEntries table', p ∈ aclEntries table ∨ op = .install p)
    (hkept : ∀ p ∈ aclEntries table, p ∈ aclEntries table')
    (hop : ∀ acl, op = .install acl → ∃ p ∈ aclEntries table', SameName tolower acl.name p.name) :
    Installed tolower P (ops ++ [op]) table' where
  holds := holds
  subset := by
    intro p hp
    rcases hsub p hp with hold | rfl
    · exact List.mem_append_left _ (h.subset p hold)
    · exact List.mem_append_right _ List.mem_cons_self
  covers := by
    intro acl hacl
    rcases List.mem_append.1 hacl with hold | hlast
    · obtain ⟨p, hp, hname⟩ := h.covers acl hold
      exact ⟨p, hkept p hp, hname⟩
    · exact hop acl (List.mem_singleton.1 hlast).symm

/-- The table that a list is inserted into. -/
theorem Installed.table_or_new (h : Installed tolower P ops table) (fl : ℚ → ℚ) :
    (table <|> hashInitialize fl 0) = none ∨ ∃ t, (table <|> hashInitialize fl 0) = some t ∧
      HoldsKeys (aclFunctions tolower) (fun p => P p.name) t ∧ t.entries = aclEntries table := by
  cases table with
  | some t => exact .inr ⟨t, rfl, h.holds t rfl, rfl⟩
  | none =>
    unfold hashInitialize
    cases hsize : computeBucketSize fl 0 with
    | none => exact .inl rfl
    | some n =>
      exact .inr ⟨_, rfl, holdsKeys_empty (computeBucketSize_odd hsize),
        HashTable.entries_empty n⟩

/-- **Installing a list.** It ends the program, or the list is in the table
unless there was one of an equal name. -/
theorem dicodAclInstall_spec (hP : Consistent tolower P) (h : Installed tolower P ops table)
    (hacl : P acl.name) (fl : ℚ → ℚ) :
    dicodAclInstall tolower fl acl table = .error .exit ∨
      ∃ table' r, dicodAclInstall tolower fl acl table = .ok (table', r) ∧
        Installed tolower P (ops ++ [.install acl]) table' ∧
        (r.isSome ↔ ∃ p ∈ aclEntries table, p ≠ acl ∧ SameName tolower acl.name p.name) := by
  unfold dicodAclInstall
  rcases h.table_or_new fl with hnone | ⟨t, hsome, hkeys, hentries⟩
  · rw [hnone]
    exact .inl rfl
  obtain ⟨r, hins, hr⟩ := hashInsert_spec fl (agreeable_acl hP) hkeys hacl
  rw [hsome, orDie, ok_bind, hins]
  rcases r with - | ⟨t', ret⟩
  · exact .inl rfl
  obtain ⟨hkeys', hcomp, hcases⟩ := hr t' ret rfl
  have hret : SameName tolower acl.name ret.name := of_decide_eq_true hcomp
  refine .inr ⟨some t', _, rfl, ?_⟩
  rcases hcases with ⟨rfl, hmem⟩ | ⟨rfl, hnew, hperm⟩
  · refine ⟨h.concat ?_ (fun p hp => ?_) (fun p hp => ?_) ?_, ?_⟩
    · rintro _ ⟨⟩
      exact hkeys'
    · exact .inl (hentries ▸ hp)
    · rwa [← hentries] at hp
    · rintro _ ⟨⟩
      exact ⟨ret, hmem, hret⟩
    · rw [← hentries]
      split_ifs with heq
      · refine iff_of_false Bool.false_ne_true ?_
        rintro ⟨p, hp, hne, hname⟩
        subst heq
        exact hne (hkeys.eq_of_sameName hp hmem hname.symm)
      · exact iff_of_true rfl ⟨ret, hmem, heq, hret⟩
  · rw [hentries] at hperm hnew
    refine ⟨h.concat ?_ (fun p hp => ?_) (fun p hp => ?_) ?_, ?_⟩
    · rintro _ ⟨⟩
      exact hkeys'
    · rcases List.mem_cons.1 (hperm.subset hp) with rfl | hold
      · exact .inr rfl
      · exact .inl hold
    · exact hperm.symm.subset (List.mem_cons_of_mem _ hp)
    · rintro _ ⟨⟩
      exact ⟨ret, hperm.symm.subset List.mem_cons_self, rfl⟩
    · rw [if_pos rfl]
      refine iff_of_false Bool.false_ne_true ?_
      rintro ⟨p, hp, -, hname⟩
      exact of_decide_eq_false (hnew p hp) hname

/-- **Looking for a list** finds one that was installed under an equal name,
where there is one. -/
theorem dicodAclLookup_spec (hP : Consistent tolower P) (h : Installed tolower P ops table)
    {name : Bytes} (hname : P name) :
    ∃ r, dicodAclLookup tolower name table = .ok r ∧
      (∀ acl ∈ r, .install acl ∈ ops ∧ SameName tolower name acl.name) ∧
      (r.isSome ↔ ∃ acl, .install acl ∈ ops ∧ SameName tolower name acl.name) := by
  cases table with
  | none =>
    refine ⟨none, rfl, ?_, iff_of_false Bool.false_ne_true ?_⟩
    · intro acl hacl
      cases hacl
    · rintro ⟨acl, hacl, -⟩
      obtain ⟨p, hp, -⟩ := h.covers acl hacl
      cases hp
  | some t =>
    obtain ⟨r, -, -, hfind, -, -, hsome, hnone⟩ := hashFindEntry_spec (agreeable_acl hP)
      (h.holds t rfl) (x := bareAcl 0 name) hname
    have hfound : ∀ acl ∈ r, .install acl ∈ ops ∧ SameName tolower name acl.name := by
      intro acl hacl
      obtain ⟨hmem, hcomp⟩ := hsome acl hacl
      exact ⟨h.subset acl hmem, of_decide_eq_true hcomp⟩
    refine ⟨r, hfind, hfound, ?_⟩
    cases r with
    | some acl => exact iff_of_true rfl ⟨acl, hfound acl rfl⟩
    | none =>
      refine iff_of_false Bool.false_ne_true ?_
      rintro ⟨acl, hacl, hsame⟩
      obtain ⟨p, hp, hcover⟩ := h.covers acl hacl
      exact of_decide_eq_false (hnone rfl p hp) (hsame.trans hcover)

/-- **A table of what was installed is what it is for.** -/
theorem Installed.answers (hP : Consistent tolower P) (h : Installed tolower P ops table)
    (fl : ℚ → ℚ) : Answers tolower fl P ops table where
  distinct := by
    cases table with
    | none => exact List.Pairwise.nil
    | some t => exact (h.holds t rfl).distinct.imp fun hpq => of_decide_eq_false hpq
  found := fun _ hname => dicodAclLookup_spec hP h hname
  refused := by
    intro acl hacl table' r heq
    rcases dicodAclInstall_spec hP h hacl fl with hexit | ⟨_, r', hok, -, hiff⟩
    · rw [hexit] at heq
      cases heq
    · rw [hok] at heq
      obtain ⟨-, rfl⟩ := Prod.mk.inj (Except.ok.inj heq)
      exact hiff

/-- One call. -/
theorem aclStep_spec (hP : Consistent tolower P) (h : Installed tolower P ops table) {op : AclOp}
    (hop : P op.name) (fl : ℚ → ℚ) :
    aclStep tolower fl op table = .error .exit ∨
      ∃ table', aclStep tolower fl op table = .ok table' ∧
        Installed tolower P (ops ++ [op]) table' := by
  cases op with
  | install acl =>
    rw [aclStep]
    rcases dicodAclInstall_spec hP h hop fl with hexit | ⟨table', r, hok, hinst, -⟩
    · rw [hexit]
      exact .inl rfl
    · rw [hok]
      exact .inr ⟨table', rfl, hinst⟩
  | lookup name =>
    have hname : P name := hop
    obtain ⟨r, hlook, -⟩ := dicodAclLookup_spec hP h hname
    refine .inr ⟨table, ?_, h.concat h.holds (fun p hp => .inl hp) (fun p hp => hp) ?_⟩
    · rw [aclStep, hlook]
      rfl
    · intro acl hacl
      cases hacl

/-- **A run of calls**, on names that are consistent. -/
theorem aclRun_spec (hP : Consistent tolower P) (fl : ℚ → ℚ) (ops : List AclOp)
    (hops : ∀ op ∈ ops, P op.name) :
    Run.run (aclStep tolower fl) ops none = .error .exit ∨
      ∃ table, Run.run (aclStep tolower fl) ops none = .ok table ∧
        Installed tolower P ops table := by
  induction ops using List.reverseRecOn with
  | nil =>
    refine .inr ⟨none, rfl, ?_, ?_, ?_⟩
    · intro t ht
      cases ht
    · intro p hp
      cases hp
    · intro acl hacl
      cases hacl
  | append_singleton ops op ih =>
    rw [List.forall_mem_append] at hops
    rw [Run.run_append]
    rcases ih hops.1 with hexit | ⟨table, hok, hinst⟩
    · rw [hexit]
      exact .inl rfl
    · rw [hok, ok_bind, Run.run]
      rcases aclStep_spec hP hinst (hops.2 op List.mem_cons_self) fl with hexit | ⟨table', hs, hi⟩
      · rw [hexit]
        exact .inl rfl
      · rw [hs]
        exact .inr ⟨table', rfl, hi⟩

end Runs

/-- **The names of access control lists.** Names that compare equal have one
bucket in every table exactly if they have the same residues; names of less
than `2 ^ 29` bytes have them exactly if they are the same number, and, where
the case of letters is that of the C locale, if they are spelled the same. If
all names that are used and compare equal have the same residues, the table is
always what it is for. -/
theorem aclNames_consistent (tolower : UInt8 → UInt8) :
    (∀ p q : DicodAcl, aclCompare tolower p q = true →
      ((∀ n, aclHasher p n = aclHasher q n) ↔ SameResidues p.name q.name)) ∧
    (∀ a b, SameName tolower a b → a.length < 2 ^ 29 →
      (SameResidues a b ↔ numeral a = numeral b)) ∧
    (∀ a b, SameName cTolower a b → a.length < 2 ^ 29 → (SameResidues a b ↔ a = b)) ∧
    ∀ (fl : ℚ → ℚ) (P : Bytes → Prop), Consistent tolower P →
      ∀ ops : List AclOp, (∀ op ∈ ops, P op.name) →
        Run.run (aclStep tolower fl) ops none = .error .exit ∨
          ∃ table, Run.run (aclStep tolower fl) ops none = .ok table ∧
            Answers tolower fl P ops table := by
  refine ⟨fun p q hpq => ?_, fun a b hab ha => ?_, fun a b hab ha => ?_, ?_⟩
  · exact aclHasher_eq_iff (of_decide_eq_true hpq)
  · exact sameResidues_iff ha (hab.length_eq ▸ ha)
  · rw [sameResidues_iff ha (hab.length_eq ▸ ha)]
    exact ⟨eq_of_numeral_eq hab, congrArg numeral⟩
  · intro fl P hP ops hops
    rcases aclRun_spec hP fl ops hops with hexit | ⟨table, hok, hinst⟩
    · exact .inl hexit
    · exact .inr ⟨table, hok, hinst.answers hP fl⟩

/-- One name, spelled one way. -/
theorem aclNames_consistent_any :
    ((∀ n, aclHasher (bareAcl 1 (ascii "any")) n = aclHasher (bareAcl 2 (ascii "any")) n) ↔
      SameResidues (ascii "any") (ascii "any")) ∧
    (SameResidues (ascii "Any") (ascii "any") ↔ numeral (ascii "Any") = numeral (ascii "any")) ∧
    (SameResidues (ascii "Any") (ascii "any") ↔ ascii "Any" = ascii "any") ∧
    ∃ table, Run.run (aclStep cTolower roundFloat)
        [.install (bareAcl 1 (ascii "any")), .lookup (ascii "any")] none = .ok table ∧
      Answers cTolower roundFloat (fun name => name = ascii "any")
        [.install (bareAcl 1 (ascii "any")), .lookup (ascii "any")] table := by
  obtain ⟨hhash, hnum, hspell, hrun⟩ := aclNames_consistent cTolower
  have hP : Consistent cTolower fun name => name = ascii "any" := by
    rintro a b rfl rfl - n - -
    rfl
  refine ⟨hhash _ _ rfl, hnum _ _ (by decide) (by decide), hspell _ _ (by decide) (by decide), ?_⟩
  rcases hrun roundFloat _ hP [.install (bareAcl 1 (ascii "any")), .lookup (ascii "any")]
    (by decide) with hexit | h
  · have hok : (Run.run (aclStep cTolower roundFloat)
        [.install (bareAcl 1 (ascii "any")), .lookup (ascii "any")] none).toOption.isSome := by
      decide +kernel
    rw [hexit] at hok
    cases hok
  · exact h

/-- **A list that is not found.** The names `A` and `a` compare equal, and
their buckets differ: a list `A` is not found as `a`, and another list `a` may
be installed beside it. -/
theorem aclNames_by_case :
    aclCompare cTolower (bareAcl 1 (ascii "A")) (bareAcl 2 (ascii "a")) = true ∧
    aclHasher (bareAcl 1 (ascii "A")) 11 ≠ aclHasher (bareAcl 2 (ascii "a")) 11 ∧
    (Run.run (aclStep cTolower roundFloat) [.install (bareAcl 1 (ascii "A"))] none).toOption.map
      (dicodAclLookup cTolower (ascii "a")) = some (.ok none) ∧
    (Run.run (aclStep cTolower roundFloat)
      [.install (bareAcl 1 (ascii "A")), .install (bareAcl 2 (ascii "a"))] none).toOption.map
      aclEntries = some [bareAcl 2 (ascii "a"), bareAcl 1 (ascii "A")] := by
  refine ⟨by decide, by decide, by decide +kernel, by decide +kernel⟩

end Dico
