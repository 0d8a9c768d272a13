import Dico.Common.Rotation
import Dico.Options.Find
import Dico.Text.Number
import Mathlib.Data.List.Sigma
/-!
# Permuting the arguments

`dico_parseopt` brings the options of an argument vector to its front: the
first argument in their way is exchanged with the next option. The other
arguments are so turned by one place for each option behind them, and keep
their order only where the options come in whole rounds.
-/

namespace Dico

open Rotation

/-! ## The parser -/

/-- `find_value`. -/
def findValue (enumstr : List Bytes) (value : Bytes) : Option ℕ := enumstr.findIdx? (· == value)

/-- The `switch` of `dico_parseopt`: the variables with the option set,
unless its value is refused. -/
def setOption (p : DicoOption) (value : Option Bytes) (d : OptionData) :
    Except Fault (Option OptionData) :=
  let v : BitVec 32 := p.value.setWidth 32
  let int := d.ints p.data
  match p.type with
  | .long =>
    match value with
    | none => .error .dangling
    | some value =>
      let (n, s) := strtol0 value
      if s ≠ [] then .ok none
      else .ok (some { d with longs := Function.update d.longs p.data (BitVec.ofInt 64 n) })
  | .const => .ok (some { d with longs := Function.update d.longs p.data p.value })
  | .constString => .ok (some { d with strings := Function.update d.strings p.data value })
  | .string =>
    match value with
    | none => .error .dangling
    | some value =>
      .ok (some { d with strings := Function.update d.strings p.data (some value) })
  | .bool =>
    let int := if p.value ≠ 0 then if value.isSome then int ||| v else int &&& ~~~v
      else if value.isSome then 1 else 0
    .ok (some { d with ints := Function.update d.ints p.data int })
  | .bitmask => .ok (some { d with ints := Function.update d.ints p.data (int ||| v) })
  | .bitmaskRev => .ok (some { d with ints := Function.update d.ints p.data (int &&& ~~~v) })
  | .enum =>
    match value with
    | none => .error .dangling
    | some value =>
      match findValue p.enumstr value with
      | none => .ok none
      | some n => .ok (some { d with ints := Function.update d.ints p.data (BitVec.ofNat 32 n) })
  | .null => .ok (some d)

/-- An option is set and its function called; whether one of them failed. -/
def runOption (f : FoundOption) (d : OptionData) : Except Fault (Bool × OptionData) := do
  match ← setOption f.opt f.value d with
  | none => .ok (true, d)
  | some d =>
    match f.opt.func with
    | none => .ok (false, d)
    | some func => .ok (func f.value d)

section Loop

variable {α : Type} (opts : List DicoOption) (text : α → Bytes)

/-- The next option among some arguments, and how many there are before it. -/
def nextOption : List α → Except Fault (Option (ℕ × FoundOption))
  | [] => .ok none
  | a :: args => do
    match ← findOpt opts (text a) with
    | some f => .ok (some (0, f))
    | none =>
      let r ← nextOption args
      .ok (r.map fun x => (x.1 + 1, x.2))

/-- The option at `argv[i]`, which may have to be brought there first. -/
def optionAt (permute : Bool) (argv : List α) (i : ℕ) :
    Except Fault (Option (List α × FoundOption)) :=
  match argv[i]? with
  | none => .error .bounds
  | some a => do
    match ← findOpt opts (text a) with
    | some f => .ok (some (argv, f))
    | none =>
      if permute then
        match ← nextOption opts text (argv.drop (i + 1)) with
        | none => .ok none
        | some (k, f) =>
          match argv[i + 1 + k]? with
          | none => .error .bounds
          | some b => .ok (some ((argv.set (i + 1 + k) a).set i b, f))
      else .ok none

/-- What `dico_parseopt` leaves behind. -/
structure Parsed (α : Type) where
  argv : List α
  index : ℕ
  failed : Bool
  data : OptionData

/-- The loop of `dico_parseopt`, with so many arguments left. -/
def parseoptLoop (permute pindex : Bool) :
    ℕ → List α → ℕ → Bool → OptionData → Except Fault (Parsed α)
  | 0, argv, i, rc, d => .ok ⟨argv, i, rc, d⟩
  | n + 1, argv, i, rc, d => do
    match ← optionAt opts text (pindex && permute) argv i with
    | some (argv, f) =>
      let (failed, d) ← runOption f d
      parseoptLoop permute pindex n argv (i + 1) (rc || failed) d
    | none =>
      if pindex then .ok ⟨argv, i, rc, d⟩
      else parseoptLoop permute pindex n argv (i + 1) true d

/-- `dico_parseopt`. The arguments are pointers to their text. -/
def dicoParseopt (parseArgv0 permute pindex : Bool) (argv : List α) (d : OptionData) :
    Except Fault (Parsed α) :=
  let i := if parseArgv0 then 0 else 1
  parseoptLoop opts text permute pindex (argv.length - i) argv i false d

end Loop

/-- Whether an argument is an option of the table. -/
def isOption {α : Type} (opts : List DicoOption) (text : α → Bytes) (a : α) : Bool :=
  match findOpt opts (text a) with
  | .ok (some _) => true
  | _ => false

/-! ## One option after another -/

section Steps

variable {α : Type} {opts : List DicoOption} {text : α → Bytes} {a : α} {f : FoundOption}

/-- The argument is known not to be an option. -/
def IsWord (opts : List DicoOption) (text : α → Bytes) (a : α) : Prop :=
  findOpt opts (text a) = .ok none

/-- Such an argument is not taken for one. -/
theorem IsWord.isOption_eq (h : IsWord opts text a) : isOption opts text a = false := by
  rw [isOption, h]

/-- And one that was found is. -/
theorem isOption_of_found (h : findOpt opts (text a) = .ok (some f)) :
    isOption opts text a = true := by
  rw [isOption, h]

/-- Where there is no further option. -/
theorem nextOption_eq_none {args : List α} (h : nextOption opts text args = .ok none) :
    ∀ a ∈ args, IsWord opts text a := by
  induction args with
  | nil => exact fun a ha => absurd ha List.not_mem_nil
  | cons a args ih =>
    rw [nextOption] at h
    obtain ⟨r, hr, h⟩ := bind_eq_ok.1 h
    cases r with
    | some f => cases h
    | none =>
      obtain ⟨r', hr', h⟩ := bind_eq_ok.1 h
      rw [Except.ok.injEq, Option.map_eq_none_iff] at h
      subst h
      exact List.forall_mem_cons.2 ⟨hr, ih hr'⟩

/-- Where there is one. -/
theorem nextOption_eq_some {args : List α} {k : ℕ}
    (h : nextOption opts text args = .ok (some (k, f))) :
    ∃ ws o rest, args = ws ++ o :: rest ∧ ws.length = k ∧ (∀ a ∈ ws, IsWord opts text a) ∧
      findOpt opts (text o) = .ok (some f) := by
  induction args generalizing k with
  | nil => cases h
  | cons a args ih =>
    rw [nextOption] at h
    obtain ⟨r, hr, h⟩ := bind_eq_ok.1 h
    cases r with
    | some f' =>
      cases h
      exact ⟨[], a, args, rfl, rfl, fun a ha => absurd ha List.not_mem_nil, hr⟩
    | none =>
      obtain ⟨r', hr', h⟩ := bind_eq_ok.1 h
      rw [Except.ok.injEq, Option.map_eq_some_iff] at h
      obtain ⟨⟨k', f'⟩, rfl, heq⟩ := h
      cases heq
      obtain ⟨ws, o, rest, rfl, rfl, hws, ho⟩ := ih hr'
      exact ⟨a :: ws, o, rest, rfl, rfl, List.forall_mem_cons.2 ⟨hr, hws⟩, ho⟩

/-- Arguments known not to be options are passed over. -/
theorem nextOption_append {ws : List α} (h : ∀ a ∈ ws, IsWord opts text a) (args : List α) :
    nextOption opts text (ws ++ args) =
      (nextOption opts text args).map (Option.map fun x => (ws.length + x.1, x.2)) := by
  induction ws with
  | nil =>
    have hid : (fun x : ℕ × FoundOption => (0 + x.1, x.2)) = id := by
      funext x
      rw [Nat.zero_add]
      rfl
    rw [List.nil_append, List.length_nil, hid, Option.map_id]
    cases nextOption opts text args <;> rfl
  | cons a ws ih =>
    rw [List.forall_mem_cons] at h
    rw [List.cons_append, nextOption, h.1, ok_bind]
    simp only [ih h.2]
    cases nextOption opts text args with
    | error e => rfl
    | ok r =>
      cases r with
      | none => rfl
      | some x =>
        simp only [Except.map, Option.map_some, ok_bind, List.length_cons, Nat.add_right_comm]

/-- An option that is in its place. -/
theorem optionAt_found (h : findOpt opts (text a) = .ok (some f)) (permute : Bool)
    (done rest : List α) :
    optionAt opts text permute (done ++ a :: rest) done.length =
      .ok (some (done ++ a :: rest, f)) := by
  rw [optionAt, getElem?_place]
  simp only [h, ok_bind]

/-- The next option is exchanged with the first argument in its way. -/
theorem optionAt_word {done qs rest : List α} {q : α} {r : Option (List α × FoundOption)}
    (hq : ∀ a ∈ q :: qs, IsWord opts text a)
    (h : optionAt opts text true (done ++ q :: (qs ++ rest)) done.length = .ok r) :
    (r = none ∧ ∀ a ∈ rest, IsWord opts text a) ∨
      ∃ ws o rest' f, rest = ws ++ o :: rest' ∧ (∀ a ∈ ws, IsWord opts text a) ∧
        findOpt opts (text o) = .ok (some f) ∧
        r = some (done ++ o :: (qs ++ ws ++ q :: rest'), f) := by
  rw [List.forall_mem_cons] at hq
  rw [optionAt, getElem?_place] at h
  simp only [show findOpt opts (text q) = .ok none from hq.1, ok_bind, if_true, drop_place,
    nextOption_append hq.2] at h
  rcases hnext : nextOption opts text rest with e | (- | ⟨k, f⟩)
  · rw [hnext] at h
    cases h
  · rw [hnext] at h
    cases h
    exact .inl ⟨rfl, nextOption_eq_none hnext⟩
  · obtain ⟨ws, o, rest', rfl, rfl, hws, ho⟩ := nextOption_eq_some hnext
    have hsplit : done ++ q :: (qs ++ (ws ++ o :: rest')) =
        (done ++ q :: (qs ++ ws)) ++ o :: rest' := by
      simp only [List.append_assoc, List.cons_append]
    have hplace : done.length + 1 + (qs.length + ws.length) = (done ++ q :: (qs ++ ws)).length := by
      simp only [List.length_append, List.length_cons]
      omega
    have hback : (done ++ q :: (qs ++ ws)) ++ q :: rest' =
        done ++ q :: (qs ++ ws ++ q :: rest') := by
      simp only [List.append_assoc, List.cons_append]
    rw [hnext, hsplit] at h
    simp only [Except.map, Option.map_some, ok_bind, hplace, getElem?_place, set_place] at h
    rw [hback, set_place, Except.ok.injEq] at h
    exact .inr ⟨ws, o, rest', f, rfl, hws, ho, h.symm⟩

/-- The options behind some words. -/
theorem filter_words {ws rest : List α} {o : α} (hws : ∀ a ∈ ws, IsWord opts text a)
    (ho : findOpt opts (text o) = .ok (some f)) :
    (ws ++ o :: rest).filter (isOption opts text) =
      o :: rest.filter (isOption opts text) := by
  have hnone : ws.filter (isOption opts text) = [] := by
    rw [List.filter_eq_nil_iff]
    intro a ha
    rw [(hws a ha).isOption_eq]
    exact Bool.false_ne_true
  rw [List.filter_append, hnone, List.nil_append, List.filter_cons_of_pos (isOption_of_found ho)]

/-- An option is brought to the front. -/
theorem turned_words {qs ws rest : List α} {q o : α} (hws : ∀ a ∈ ws, IsWord opts text a)
    (ho : findOpt opts (text o) = .ok (some f)) :
    turned (isOption opts text) (q :: qs) (ws ++ o :: rest) =
      turned (isOption opts text) (qs ++ ws ++ [q]) rest := by
  rw [turned_append, turned_unmarked (q :: qs) fun a ha => (hws a ha).isOption_eq,
    turned_cons_marked _ (isOption_of_found ho), List.cons_append, List.rotate_cons_succ,
    List.rotate_zero]

/-- What the loop is to leave behind. -/
def Regrouped (opts : List DicoOption) (text : α → Bytes) (done queue rest : List α)
    (res : Parsed α) : Prop :=
  res.argv = done ++ ((rest.filter (isOption opts text)) ++
      turned (isOption opts text) queue rest) ∧
    res.index = done.length + (rest.filter (isOption opts text)).length

/-- Nothing is to be done where no option is left. -/
theorem regrouped_words {done queue rest : List α} {res : Parsed α}
    (h : ∀ a ∈ rest, IsWord opts text a) (hargv : res.argv = done ++ (queue ++ rest))
    (hindex : res.index = done.length) : Regrouped opts text done queue rest res := by
  have hnone : ∀ a ∈ rest, isOption opts text a = false := fun a ha => (h a ha).isOption_eq
  have hfilter : rest.filter (isOption opts text) = [] := by
    rw [List.filter_eq_nil_iff]
    intro a ha
    rw [hnone a ha]
    exact Bool.false_ne_true
  rw [Regrouped, hfilter, turned_unmarked queue hnone]
  exact ⟨hargv, hindex⟩

/-- An option comes to the front, before what follows is regrouped. -/
theorem Regrouped.option {done qs ws rest : List α} {q o : α} {res : Parsed α}
    (hws : ∀ a ∈ ws, IsWord opts text a) (ho : findOpt opts (text o) = .ok (some f))
    (h : Regrouped opts text (done ++ [o]) (qs ++ ws ++ [q]) rest res) :
    Regrouped opts text done (q :: qs) (ws ++ o :: rest) res := by
  rw [Regrouped, filter_words hws ho, turned_words hws ho]
  refine ⟨?_, ?_⟩
  · rw [h.1, List.append_assoc, List.singleton_append, List.cons_append]
  · rw [h.2, List.length_append, List.length_singleton, List.length_cons]
    omega

/-- **The options come to the front** while the other arguments are turned. -/
theorem parseoptLoop_permute {n : ℕ} {done queue rest : List α} {rc : Bool} {d : OptionData}
    {res : Parsed α} (hq : ∀ a ∈ queue, IsWord opts text a) (hn : n = (queue ++ rest).length)
    (h : parseoptLoop opts text true true n (done ++ (queue ++ rest)) done.length rc d = .ok res) :
    Regrouped opts text done queue rest res := by
  induction n generalizing done queue rest rc d with
  | zero =>
    obtain ⟨rfl, rfl⟩ := List.append_eq_nil_iff.1 (List.length_eq_zero_iff.1 hn.symm)
    rw [parseoptLoop, Except.ok.injEq] at h
    subst h
    exact ⟨rfl, rfl⟩
  | succ n ih =>
    have hstep : ∀ {o : α} {queue rest : List α} {f : FoundOption},
        (∀ a ∈ queue, IsWord opts text a) → n = (queue ++ rest).length →
        (runOption f d >>= fun x => parseoptLoop opts text true true n
          (done ++ o :: (queue ++ rest)) (done.length + 1) (rc || x.1) x.2) = .ok res →
        Regrouped opts text (done ++ [o]) queue rest res := by
      intro o queue rest f hq hn h
      obtain ⟨⟨failed, d'⟩, -, h⟩ := bind_eq_ok.1 h
      have hrest : parseoptLoop opts text true true n (done ++ [o] ++ (queue ++ rest))
          (done ++ [o]).length (rc || failed) d' = .ok res := by
        rw [List.append_assoc, List.singleton_append, List.length_append, List.length_singleton]
        exact h
      exact ih hq hn hrest
    -- an argument that is in the way of the next option
    have hway : ∀ {q : α} {qs rest : List α}, (∀ a ∈ q :: qs, IsWord opts text a) →
        n + 1 = (q :: (qs ++ rest)).length →
        parseoptLoop opts text true true (n + 1) (done ++ q :: (qs ++ rest)) done.length rc d =
          .ok res → Regrouped opts text done (q :: qs) rest res := by
      intro q qs rest hq hn h
      rw [parseoptLoop] at h
      obtain ⟨r, hr, h⟩ := bind_eq_ok.1 h
      rcases optionAt_word hq hr with ⟨rfl, hwords⟩ | ⟨ws, o, rest', f, rfl, hws, ho, rfl⟩
      · rw [if_pos rfl, Except.ok.injEq] at h
        subst h
        exact regrouped_words hwords rfl rfl
      · refine Regrouped.option hws ho (hstep (f := f) ?_ ?_ ?_)
        · rw [List.forall_mem_append, List.forall_mem_append, List.forall_mem_singleton]
          rw [List.forall_mem_cons] at hq
          exact ⟨⟨hq.2, hws⟩, hq.1⟩
        · simp only [List.length_append, List.length_cons, List.length_nil] at hn ⊢
          omega
        · simp only [List.append_assoc, List.singleton_append] at h ⊢
          exact h
    rcases queue with - | ⟨q, qs⟩
    · rcases rest with - | ⟨a, rest⟩
      · cases hn
      rw [List.nil_append] at hn h
      have hword := fun hfind : findOpt opts (text a) = .ok none =>
        @hway a [] rest (List.forall_mem_singleton.2 hfind) hn h
      rw [parseoptLoop] at h
      obtain ⟨r, hr, h⟩ := bind_eq_ok.1 h
      rcases hfind : findOpt opts (text a) with e | (- | f)
      · rw [optionAt, getElem?_place] at hr
        simp only [hfind, error_bind] at hr
        cases hr
      · -- the queue begins with the argument
        have hrest := hword hfind
        rw [Regrouped, List.filter_cons_of_neg (by
          rw [IsWord.isOption_eq hfind]
          exact Bool.false_ne_true), turned_cons_unmarked _ (IsWord.isOption_eq hfind)]
        exact hrest
      · rw [optionAt_found hfind] at hr
        cases hr
        have hrest : Regrouped opts text (done ++ [a]) [] rest res :=
          hstep (f := f) hq (Nat.succ.inj hn) h
        rw [Regrouped, List.filter_cons_of_pos (isOption_of_found hfind),
          turned_cons_marked _ (isOption_of_found hfind), List.rotate_nil]
        rw [Regrouped, List.length_append, List.append_assoc] at hrest
        exact ⟨hrest.1, hrest.2.trans (by rw [List.length_singleton, List.length_cons]; omega)⟩
    · exact hway hq hn h

end Steps

/-! ## The argument vector -/

section Vector

variable {α : Type} {opts : List DicoOption} {text : α → Bytes} {d : OptionData} {argv : List α}
  {res : Parsed α}

/-- The index of the first argument that is looked at. -/
def firstArg (parseArgv0 : Bool) : ℕ := if parseArgv0 then 0 else 1

/-- All options come first and all other arguments behind them, both in the
order they had, and the index is that of the first of the others. -/
def Ordered (opts : List DicoOption) (text : α → Bytes) (i : ℕ) (argv : List α)
    (res : Parsed α) : Prop :=
  res.argv = argv.take i ++ ((argv.drop i).filter (isOption opts text) ++
      (argv.drop i).filter fun a => !isOption opts text a) ∧
    res.index = i + ((argv.drop i).filter (isOption opts text)).length

/-- What the parser leaves behind. -/
theorem dicoParseopt_regrouped (parseArgv0 : Bool) (hargv : argv ≠ [])
    (h : dicoParseopt opts text parseArgv0 true true argv d = .ok res) :
    Regrouped opts text (argv.take (firstArg parseArgv0)) []
      (argv.drop (firstArg parseArgv0)) res := by
  have hlen : (argv.take (firstArg parseArgv0)).length = firstArg parseArgv0 := by
    have hpos := List.length_pos_iff.2 hargv
    rw [List.length_take, firstArg]
    split_ifs <;> omega
  have hloop : parseoptLoop opts text true true (argv.length - firstArg parseArgv0)
      (argv.take (firstArg parseArgv0) ++ ([] ++ argv.drop (firstArg parseArgv0)))
      (argv.take (firstArg parseArgv0)).length false d = .ok res := by
    rw [List.nil_append, List.take_append_drop, hlen]
    exact h
  refine parseoptLoop_permute (fun a ha => absurd ha List.not_mem_nil) ?_ hloop
  rw [List.nil_append, List.length_drop]

/-- **The arguments are permuted**, whatever their order. -/
theorem dicoParseopt_perm (parseArgv0 : Bool) (hargv : argv ≠ [])
    (h : dicoParseopt opts text parseArgv0 true true argv d = .ok res) : res.argv.Perm argv := by
  have harr := dicoParseopt_regrouped parseArgv0 hargv h
  rw [harr.1]
  conv_rhs => rw [← List.take_append_drop (firstArg parseArgv0) argv]
  refine List.Perm.append_left _ ?_
  refine (List.Perm.append_left _ (turned_perm [] _)).trans ?_
  exact List.filter_append_perm _ _

/-- Arguments that can be told apart keep their order where the options
come in whole rounds. -/
theorem ordered_iff (parseArgv0 : Bool) (hargv : argv ≠ []) (hnodup : argv.Nodup)
    (h : dicoParseopt opts text parseArgv0 true true argv d = .ok res) :
    Ordered opts text (firstArg parseArgv0) argv res ↔
      InRounds ((argv.drop (firstArg parseArgv0)).map (isOption opts text)) := by
  have harr := dicoParseopt_regrouped parseArgv0 hargv h
  have hlen : (argv.take (firstArg parseArgv0)).length = firstArg parseArgv0 := by
    have hpos := List.length_pos_iff.2 hargv
    rw [List.length_take, firstArg]
    split_ifs <;> omega
  rw [← turned_eq_filter_iff (hnodup.sublist (List.drop_sublist _ _)), Ordered, harr.1, harr.2,
    hlen, and_iff_left rfl, List.append_cancel_left_eq, List.append_cancel_left_eq]

end Vector

/-- **Option permutation.** The arguments are pointers: each is its text and
the place it had. The parser leaves them as it should exactly if, behind
each argument that is no option, the number of the options that follow
before the next such argument is a multiple of the number of such arguments
so far. -/
theorem permutes_iff (opts : List DicoOption) (parseArgv0 : Bool) (name : Bytes)
    (args : List Bytes) (d : OptionData) (res : Parsed (Bytes × ℕ))
    (h : dicoParseopt opts Prod.fst parseArgv0 true true (name :: args).zipIdx d = .ok res) :
    Ordered opts Prod.fst (firstArg parseArgv0) (name :: args).zipIdx res ↔
      InRounds (((name :: args).drop (firstArg parseArgv0)).map (isOption opts id)) := by
  have hargv : (name :: args).zipIdx ≠ [] := List.cons_ne_nil _ _
  have hnodup : (name :: args).zipIdx.Nodup := (List.nodup_zipIdx_map_snd _).of_map
  have hmap : ((name :: args).zipIdx.drop (firstArg parseArgv0)).map (isOption opts Prod.fst) =
      ((name :: args).drop (firstArg parseArgv0)).map (isOption opts id) := by
    have htext : isOption opts Prod.fst = isOption opts id ∘ (Prod.fst : Bytes × ℕ → Bytes) := rfl
    rw [htext, ← List.map_map, List.map_drop, List.zipIdx_map_fst]
  rw [ordered_iff parseArgv0 hargv hnodup h, hmap]

/-- The variables before anything is set. -/
def OptionData.blank : OptionData := ⟨fun _ => 0, fun _ => 0, fun _ => none⟩

/-- A table with the option "x". -/
def crossOpts : List DicoOption := [bitOption (ascii "x") (by decide)]

/-- One argument, and an option behind it. -/
theorem permutes_one : ∃ res,
    dicoParseopt crossOpts Prod.fst false true true [ascii "m", ascii "a", ascii "x"].zipIdx
      OptionData.blank = .ok res ∧
    Ordered crossOpts Prod.fst 1 [ascii "m", ascii "a", ascii "x"].zipIdx res := by
  have hparse := permutes_iff crossOpts false (ascii "m") [ascii "a", ascii "x"] .blank _ rfl
  exact ⟨_, rfl, hparse.2 (by decide)⟩

/-- **Two arguments, and an option behind them.** The second comes first
when the option has been brought to the front. -/
theorem not_ordered_two : ∃ res,
    dicoParseopt crossOpts Prod.fst false true true
      [ascii "m", ascii "a", ascii "b", ascii "x"].zipIdx OptionData.blank = .ok res ∧
    res.failed = false ∧
    res.argv.map Prod.fst = [ascii "m", ascii "x", ascii "b", ascii "a"] ∧
    ¬ Ordered crossOpts Prod.fst 1 [ascii "m", ascii "a", ascii "b", ascii "x"].zipIdx res := by
  refine ⟨_, rfl, rfl, rfl, ?_⟩
  rintro ⟨h, -⟩
  exact absurd h (by decide)

end Dico
