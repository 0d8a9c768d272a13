import Dico.Options.Permute
/-!
# The databases of WordNet

`wn_init_db` takes its options from the arguments and makes a vector of the
search options that the remaining arguments name. The index into the vector
is not advanced, so that each takes the place of the one before it.
-/

namespace Dico

/-! ## The module -/

/-- What the header of WordNet defines. -/
structure WnHeader where
  allPos : ℤ
  noun : ℤ
  verb : ℤ
  adj : ℤ
  adv : ℤ
  adjsat : ℤ
  hyperptr : ℤ
  overview : ℤ

/-- The functions that print a search result. -/
inductive WnPrinter
  | overview
  | definition
  | hypernym
  deriving DecidableEq

/-- `struct wn_option`. -/
structure WnOption where
  option : Bytes
  search : ℤ
  printer : Option WnPrinter
  deriving DecidableEq

/-- `struct wndb`. -/
structure Wndb where
  dbname : Bytes
  flags : BitVec 32
  pos : ℤ
  optc : ℕ
  optv : List (Option WnOption)

/-- `WNDB_MERGE_DEFS`. -/
def wndbMergeDefs : BitVec 64 := 1

/-- `pos_choice`. -/
def posChoice : List Bytes :=
  [ascii "all", ascii "noun", ascii "verb", ascii "adj", ascii "adjective", ascii "adv",
    ascii "adverb", ascii "satellite", ascii "adjsat"]

/-- `pos_trans`. -/
def posTrans (H : WnHeader) : List ℤ :=
  [H.allPos, H.noun, H.verb, H.adj, H.adj, H.adv, H.adv, H.adjsat, H.adjsat]

/-- `wn_optlist`. -/
def wnOptlist (H : WnHeader) : List WnOption :=
  [⟨ascii "hypernym", H.hyperptr, some .hypernym⟩, ⟨ascii "synonym", 0, none⟩]

/-- `overview`. -/
def wnOverview (H : WnHeader) (merge : Bool) : WnOption :=
  ⟨ascii "overview", H.overview, some (if merge then .definition else .overview)⟩

/-- `init_db_option`: `pos` and `flags` are the variables with these
numbers. -/
def initDbOption : List DicoOption :=
  [⟨ascii "pos", by decide, .enum, 0, 0, posChoice, none⟩,
    ⟨ascii "merge-defs", by decide, .bool, 1, wndbMergeDefs, [], none⟩]

/-- `find_option`. -/
def findOption (H : WnHeader) (text : Bytes) : Option ℕ :=
  (wnOptlist H).findIdx? fun p => p.option == text

/-- An entry of the list without a search stands for the one before it. -/
def stepBack (H : WnHeader) : ℕ → Option WnOption
  | 0 => (wnOptlist H)[0]?
  | i + 1 => do
    let p ← (wnOptlist H)[i + 1]?
    if p.search = 0 then stepBack H i else some p

/-- The loop of `wn_init_db`: it gives up on an unknown argument. -/
def optvLoop (H : WnHeader) (j : ℕ) :
    List Bytes → List (Option WnOption) → Except Fault (Option (List (Option WnOption)))
  | [], optv => .ok (some optv)
  | arg :: argv, optv =>
    match findOption H arg with
    | none => .ok none
    | some i =>
      match stepBack H i with
      | none => .error .bounds
      | some p =>
        if p.printer.isNone then optvLoop H j argv optv
        else if j < optv.length then optvLoop H j argv (optv.set j (some p))
        else .error .bounds

/-- `wn_init_db`. -/
def wnInitDb (H : WnHeader) (dbname : Bytes) (argv : List Bytes) : Except Fault (Option Wndb) := do
  let r ← dicoParseopt initDbOption id false true true argv OptionData.blank
  if r.failed then .ok none
  else
    let argv := r.argv.drop r.index
    let flags := r.data.ints 1
    let optc := argv.length + 1
    let merge := decide (flags &&& wndbMergeDefs.setWidth 32 ≠ 0)
    let optv := some (wnOverview H merge) :: List.replicate (optc - 1) none
    match ← optvLoop H 1 argv optv with
    | none => .ok none
    | some optv =>
      match (posTrans H)[(r.data.ints 0).toNat]? with
      | none => .error .bounds
      | some pos => .ok (some ⟨dbname, flags, pos, optc, optv⟩)

/-! ## What is to be stored -/

/-- The search option that an argument names. -/
def namedOption (H : WnHeader) (arg : Bytes) : Option WnOption :=
  (findOption H arg).bind (stepBack H)

/-- The arguments that are no options of the database. -/
def remainingArgs (args : List Bytes) : List Bytes :=
  args.filter fun a => !isOption initDbOption id a

/-- Behind the overview there are the printable options that the remaining
arguments name, in their order, and no slot is empty. -/
def StoresNamed (H : WnHeader) (db : Wndb) (args : List Bytes) : Prop :=
  (db.optv.take db.optc).drop 1 = (((remainingArgs args).filterMap (namedOption H)).filter
      fun p => p.printer.isSome).map some ∧
    none ∉ db.optv.take db.optc

/-! ## The vector -/

section Vector

variable {H : WnHeader} {arg : Bytes} {args : List Bytes} {optv optv' : List (Option WnOption)}

/-- The one option that there is. -/
def hypernymOption (H : WnHeader) : WnOption := ⟨ascii "hypernym", H.hyperptr, some .hypernym⟩

/-- Whatever an argument names, it is that option. -/
theorem namedOption_eq {i : ℕ} (h : findOption H arg = some i) :
    stepBack H i = some (hypernymOption H) := by
  have hlt : i < 2 := by
    have := (List.findIdx?_eq_some_iff_getElem.1 h).1
    exact this
  rcases Nat.lt_succ_iff_lt_or_eq.1 hlt with hlt | rfl
  · obtain rfl := Nat.lt_one_iff.1 hlt
    rfl
  · simp only [stepBack, wnOptlist]
    rfl

/-- The loop sets one slot, to that option, if it is run at all. -/
theorem optvLoop_eq (h : optvLoop H 1 args optv = .ok (some optv')) :
    (∀ a ∈ args, namedOption H a = some (hypernymOption H)) ∧
      optv' = if args = [] then optv else optv.set 1 (some (hypernymOption H)) := by
  induction args generalizing optv with
  | nil =>
    cases h
    exact ⟨fun a ha => absurd ha List.not_mem_nil, rfl⟩
  | cons a args ih =>
    rw [optvLoop] at h
    rcases hfind : findOption H a with - | i
    · simp only [hfind] at h
      cases h
    · have hback := namedOption_eq hfind
      have hprinter : ¬ (hypernymOption H).printer.isNone = true := Bool.false_ne_true
      simp only [hfind, hback, if_neg hprinter] at h
      split_ifs at h with hlt
      obtain ⟨hnamed, heq⟩ := ih h
      refine ⟨List.forall_mem_cons.2 ⟨?_, hnamed⟩, ?_⟩
      · rw [namedOption, hfind, Option.bind_some, hback]
      · rw [heq, if_neg (List.cons_ne_nil a args), List.set_set]
        split_ifs <;> rfl

/-- What a run of the module that ends well has done. -/
theorem wnInitDb_ok {dbname name : Bytes} {db : Wndb}
    (h : wnInitDb H dbname (name :: args) = .ok (some db)) :
    (∀ a ∈ remainingArgs args, namedOption H a = some (hypernymOption H)) ∧
      db.optc = (remainingArgs args).length + 1 ∧
      ∃ merge, db.optv = some (wnOverview H merge) ::
        ((List.replicate (remainingArgs args).length none).set 0 (some (hypernymOption H))) := by
  rw [wnInitDb] at h
  obtain ⟨r, hparse, h⟩ := bind_eq_ok.1 h
  by_cases hfailed : r.failed = true
  · rw [if_pos hfailed] at h
    cases h
  rw [if_neg hfailed] at h
  obtain ⟨optv, hloop, h⟩ := bind_eq_ok.1 h
  -- what is left in the vector are the remaining arguments in some order
  have hgroups := dicoParseopt_regrouped false (List.cons_ne_nil name args) hparse
  have hdrop : r.argv.drop r.index = Rotation.turned (isOption initDbOption id) [] args := by
    rw [hgroups.1, hgroups.2, ← List.append_assoc, ← List.length_append]
    exact List.drop_left
  have hperm : (r.argv.drop r.index).Perm (remainingArgs args) := by
    rw [hdrop]
    exact Rotation.turned_perm [] args
  have hlen := hperm.length_eq
  cases optv with
  | none => cases h
  | some optv =>
    obtain ⟨hnamed, heq⟩ := optvLoop_eq hloop
    rcases hpos : (posTrans H)[(r.data.ints 0).toNat]? with - | pos
    · simp only [hpos] at h
      cases h
    · simp only [hpos, Except.ok.injEq, Option.some.injEq] at h
      subst h
      refine ⟨fun a ha => hnamed a (hperm.mem_iff.2 ha), by rw [hlen],
        decide (r.data.ints 1 &&& wndbMergeDefs.setWidth 32 ≠ 0), ?_⟩
      rw [heq, ← hlen, Nat.add_sub_cancel]
      split_ifs with hnil
      · rw [hnil]
        rfl
      · rfl

/-- A search option that several arguments name, as often as they do. -/
theorem filterMap_named (h : ∀ a ∈ args, namedOption H a = some (hypernymOption H)) :
    (args.filterMap (namedOption H)).filter (fun p => p.printer.isSome) =
      List.replicate args.length (hypernymOption H) := by
  induction args with
  | nil => rfl
  | cons a args ih =>
    rw [List.forall_mem_cons] at h
    rw [List.filterMap_cons_some h.1, List.filter_cons_of_pos rfl, ih h.2, List.length_cons,
      List.replicate_succ]

end Vector

/-- **Databases of WordNet.** Where the module accepts the arguments, what
it stores is what they name exactly if at most one of them is no option of
the database. -/
theorem storesNamed_iff (H : WnHeader) (dbname name : Bytes) (args : List Bytes) (db : Wndb)
    (h : wnInitDb H dbname (name :: args) = .ok (some db)) :
    StoresNamed H db args ↔ (remainingArgs args).length ≤ 1 := by
  obtain ⟨hnamed, hoptc, merge, hoptv⟩ := wnInitDb_ok h
  have htake : db.optv.take db.optc = db.optv := by
    rw [List.take_of_length_le]
    rw [hoptv, hoptc, List.length_cons, List.length_set, List.length_replicate]
  rw [StoresNamed, htake, filterMap_named hnamed, hoptv]
  generalize (remainingArgs args).length = n
  rcases n with - | - | n
  · refine iff_of_true ⟨rfl, ?_⟩ (Nat.zero_le 1)
    rw [List.mem_cons, not_or]
    exact ⟨Option.some_ne_none _ ∘ Eq.symm, List.not_mem_nil⟩
  · refine iff_of_true ⟨rfl, ?_⟩ le_rfl
    rw [List.replicate_one, List.set_cons_zero, List.mem_cons, List.mem_singleton, not_or]
    exact ⟨Option.some_ne_none _ ∘ Eq.symm, Option.some_ne_none _ ∘ Eq.symm⟩
  · -- the slot behind the one that was set
    refine iff_of_false ?_ (by omega)
    rintro ⟨-, hnone⟩
    rw [List.replicate_succ, List.replicate_succ, List.set_cons_zero] at hnone
    exact hnone (List.mem_cons_of_mem _ (List.mem_cons_of_mem _ List.mem_cons_self))

/-- The header, with the numbers that matter here set. -/
def sampleHeader : WnHeader where
  allPos := 0
  noun := 1
  verb := 2
  adj := 3
  adv := 4
  adjsat := 5
  hyperptr := 2
  overview := 31

/-- One search option, and the part of speech as an option of the database. -/
theorem storesNamed_one : ∃ db,
    wnInitDb sampleHeader (ascii "wn") [ascii "wordnet", ascii "hypernym", ascii "pos=noun"] =
      .ok (some db) ∧
    StoresNamed sampleHeader db [ascii "hypernym", ascii "pos=noun"] := by
  have hstore := storesNamed_iff sampleHeader (ascii "wn") (ascii "wordnet")
    [ascii "hypernym", ascii "pos=noun"] _ rfl
  exact ⟨_, rfl, hstore.2 (by decide)⟩

/-- **Two search options.** The vector has room for both, and the second is
stored in the place of the first. -/
theorem not_storesNamed_two : ∃ db,
    wnInitDb sampleHeader (ascii "wn") [ascii "wordnet", ascii "hypernym", ascii "synonym"] =
      .ok (some db) ∧
    db.optc = 3 ∧ db.optv.getLast? = some none ∧
    ¬ StoresNamed sampleHeader db [ascii "hypernym", ascii "synonym"] := by
  refine ⟨_, rfl, rfl, rfl, ?_⟩
  rintro ⟨-, h⟩
  exact h (by decide)

end Dico
