import Dico.Text.Cstr
/-!
# Options of modules

`find_opt` looks an argument up in a table of options. A name that follows
"no" is compared with the length of the whole argument as its bound, and
the options without a value are not asked whether the argument ends behind
the name. `findsFirst_iff` says which options of a table lead it astray.
-/

namespace Dico

/-! ## The lookup -/

/-- `enum dico_opt_type`. -/
inductive DicoOptType
  | null
  | bool
  | bitmask
  | bitmaskRev
  | long
  | string
  | enum
  | const
  | constString
  deriving DecidableEq

/-- The variables that the options of a table point to. -/
structure OptionData where
  ints : ℕ → BitVec 32
  longs : ℕ → BitVec 64
  strings : ℕ → Option Bytes

/-- `struct dico_option`, with `data` the number of a variable and the
members of the union `v` beside each other. -/
structure DicoOption where
  name : Bytes
  null_notMem : 0 ∉ name
  type : DicoOptType
  data : ℕ
  value : BitVec 64
  enumstr : List Bytes
  func : Option (Option Bytes → OptionData → Bool × OptionData)

/-- The length of the name, by `DICO_OPTSTR`. -/
def DicoOption.len (opt : DicoOption) : ℕ := opt.name.length

/-- The types that take a value. -/
def DicoOptType.takesValue : DicoOptType → Bool
  | .long | .string | .constString | .enum => true
  | _ => false

/-- The `switch` of `find_opt`: the value, unless the next option is to be
tried. -/
def optionValue (opt : DicoOption) (str : Bytes) (value : Option Bytes) (eq : Bool) :
    Option (Option Bytes) :=
  match opt.type with
  | .long | .string | .constString | .enum =>
    if eq then some (some (str.drop (opt.len + 1))) else none
  | .null => some (if eq then some (str.drop (opt.len + 1)) else none)
  | _ => if eq then none else some value

/-- One option is tried. -/
def tryOption (isbool : Bool) (len : ℕ) (str : Bytes) (value : Option Bytes) (opt : DicoOption) :
    Except Fault (Option (Option Bytes)) :=
  if len ≥ opt.len then do
    let same ← memeq (opt.name ++ [0]) (str ++ [0]) opt.len
    if same ∧ (!isbool ∨ opt.type = .bool) then
      let c ← load (str ++ [0]) opt.len
      .ok (optionValue opt str value (c = 61))
    else .ok none
  else .ok none

/-- An option that was found, where it is in the table, and the value. -/
structure FoundOption where
  index : ℕ
  opt : DicoOption
  value : Option Bytes

/-- The loop of `find_opt`. -/
def findOptLoop (isbool : Bool) (len : ℕ) (str : Bytes) (value : Option Bytes) :
    ℕ → List DicoOption → Except Fault (Option FoundOption)
  | _, [] => .ok none
  | i, opt :: opts => do
    match ← tryOption isbool len str value opt with
    | some v => .ok (some ⟨i, opt, v⟩)
    | none => findOptLoop isbool len str value (i + 1) opts

/-- Whether "no" stands in front of an argument, and something behind it. -/
def isNegated (str : Bytes) : Bool := decide (str.length > 2 ∧ str.take 2 = ascii "no")

/-- `find_opt`. -/
def findOpt (opts : List DicoOption) (str : Bytes) : Except Fault (Option FoundOption) :=
  if isNegated str then findOptLoop true str.length (str.drop 2) none 0 opts
  else findOptLoop false str.length str (some str) 0 opts

/-! ## What is to be found -/

/-- An argument names an option, and gives a value: the name alone, with a
value behind an equals sign, or behind "no". -/
inductive Recognises (o : DicoOption) (arg : Bytes) : Option Bytes → Prop
  | set (v : Bytes) (ht : o.type.takesValue = false) (hnull : o.type ≠ .null)
      (harg : arg = o.name) : Recognises o arg (some v)
  | bare (ht : o.type = .null) (harg : arg = o.name) : Recognises o arg none
  | assigned (v : Bytes) (ht : o.type.takesValue ∨ o.type = .null)
      (harg : arg = o.name ++ 61 :: v) : Recognises o arg (some v)
  | negated (ht : o.type = .bool) (harg : arg = ascii "no" ++ o.name) : Recognises o arg none

/-- An argument names an option. -/
def Recognised (arg : Bytes) (o : DicoOption) : Prop := ∃ v, Recognises o arg v

/-- The first option that the argument names is found, and none if there is
none. -/
def FindsFirst (opts : List DicoOption) (arg : Bytes) : Prop :=
  ∃ r, findOpt opts arg = .ok r ∧ match r with
    | none => ∀ o ∈ opts, ¬ Recognised arg o
    | some f => opts[f.index]? = some f.opt ∧ Recognises f.opt arg f.value ∧
      ∀ o ∈ opts.take f.index, ¬ Recognised arg o

/-- What is compared with the names. -/
def optionText (arg : Bytes) : Bytes := if isNegated arg then arg.drop 2 else arg

/-- An option that leads astray: its name is as long as the argument, which
has "no" in front of it, or it takes no value and the argument goes on
behind its name. -/
def Misleads (arg : Bytes) (o : DicoOption) : Prop :=
  isNegated arg ∧ o.len = arg.length ∨
    o.type.takesValue = false ∧ (isNegated arg → o.type = .bool) ∧
      ∃ c r, optionText arg = o.name ++ c :: r ∧ c ≠ 61

/-! ## One option -/

section One

variable {arg str : Bytes} {o : DicoOption}

/-- A name is compared with a string that is long enough. -/
theorem memeq_name (h : o.len ≤ str.length + 1) :
    memeq (o.name ++ [0]) (str ++ [0]) o.len = .ok (decide (o.name <+: str)) := by
  have hlong : o.len ≤ (o.name ++ [0]).length ∧ o.len ≤ (str ++ [0]).length := by
    rw [List.length_append, List.length_append, List.length_singleton, DicoOption.len] at *
    omega
  have htake : (o.name ++ [0]).take o.len = o.name := List.take_left
  rw [memeq, if_pos hlong, htake, Except.ok.injEq, beq_eq_decide, decide_eq_decide]
  constructor
  · intro heq
    have hpre : o.name <+: str ++ [0] := heq ▸ List.take_prefix _ _
    -- the null behind the string is not part of the name
    rcases List.prefix_concat_iff.1 hpre with hall | hpre
    · exact absurd (hall ▸ List.mem_append_right str (List.mem_singleton_self 0)) o.null_notMem
    · exact hpre
  · rintro ⟨r, rfl⟩
    rw [List.append_assoc]
    exact List.take_left.symm

/-- The byte behind a name. -/
theorem load_name (r : Bytes) : load (o.name ++ r ++ [0]) o.len = .ok (r.headD 0) := by
  rw [List.append_assoc]
  cases r with
  | nil => exact load_append o.name 0 []
  | cons c r => exact load_append o.name c (r ++ [0])

/-- An argument that begins with a name is tried with what is behind it. -/
theorem tryOption_start {isbool : Bool} {len : ℕ} {value : Option Bytes} (r : Bytes)
    (hlen : o.len ≤ len) (hbool : isbool = false ∨ o.type = .bool) :
    tryOption isbool len (o.name ++ r) value o =
      .ok (optionValue o (o.name ++ r) value (decide (r.headD 0 = 61))) := by
  have hfit : o.len ≤ (o.name ++ r).length + 1 := by
    rw [List.length_append, DicoOption.len]
    omega
  have hsame : memeq (o.name ++ [0]) (o.name ++ r ++ [0]) o.len = .ok true := by
    rw [memeq_name hfit, decide_eq_true (List.prefix_append o.name r)]
  have hcond : (true = true ∧ ((!isbool) = true ∨ o.type = .bool)) := by
    refine ⟨rfl, hbool.imp_left ?_⟩
    rintro rfl
    rfl
  rw [tryOption, if_pos hlen, hsame, ok_bind, if_pos hcond, load_name, ok_bind]

/-- Another argument is passed over. -/
theorem tryOption_skip {isbool : Bool} {len : ℕ} {value : Option Bytes}
    (hfit : o.len ≤ len → o.len ≤ str.length + 1)
    (h : ¬ o.name <+: str ∨ ¬ (isbool = false ∨ o.type = .bool)) :
    tryOption isbool len str value o = .ok none := by
  rw [tryOption]
  split_ifs with hlen
  · have hcond : ¬ (decide (o.name <+: str) = true ∧ ((!isbool) = true ∨ o.type = .bool)) := by
      rw [decide_eq_true_iff, Bool.not_eq_true', not_and_or]
      exact h
    rw [memeq_name (hfit hlen), ok_bind, if_neg hcond]
  · rfl

/-- A name as long as the argument is compared beyond the argument's end. -/
theorem tryOption_beyond {value : Option Bytes} (hneg : isNegated arg) (h : o.len = arg.length) :
    tryOption true arg.length (arg.drop 2) value o = .error .bounds := by
  have hlong : arg.length > 2 := (of_decide_eq_true hneg).1
  have hshort : ¬ (o.len ≤ (o.name ++ [0]).length ∧ o.len ≤ (arg.drop 2 ++ [0]).length) := by
    rintro ⟨-, hle⟩
    rw [List.length_append, List.length_drop, List.length_singleton] at hle
    omega
  rw [tryOption, if_pos h.le, memeq, if_neg hshort, error_bind]

/-- The option is tried as `find_opt` does it. -/
def tryArgument (arg : Bytes) (o : DicoOption) : Except Fault (Option (Option Bytes)) :=
  if isNegated arg then tryOption true arg.length (arg.drop 2) none o
  else tryOption false arg.length arg (some arg) o

/-- It is taken if the argument names it, with the value given, and else
passed over. -/
def Right (arg : Bytes) (o : DicoOption) : Prop :=
  ∃ r, tryArgument arg o = .ok r ∧ r.elim (¬ Recognised arg o) (Recognises o arg)

/-- An argument with "no" in front of it. -/
theorem eq_append_of_isNegated (h : isNegated arg) :
    arg = ascii "no" ++ arg.drop 2 ∧ arg.length > 2 := by
  obtain ⟨hlen, htake⟩ := of_decide_eq_true h
  rw [← htake, List.take_append_drop]
  exact ⟨rfl, hlen⟩

/-- It names an option only as its negation. -/
theorem recognises_of_isNegated {v : Option Bytes} (hno : ¬ ascii "no" <+: o.name)
    (hneg : isNegated arg) (h : Recognises o arg v) :
    o.type = .bool ∧ arg.drop 2 = o.name ∧ v = none := by
  have hpre : ascii "no" <+: arg := ⟨_, (eq_append_of_isNegated hneg).1.symm⟩
  cases h with
  | set v ht hnull harg => exact absurd (harg ▸ hpre) hno
  | bare ht harg => exact absurd (harg ▸ hpre) hno
  | assigned v ht harg =>
    rw [harg] at hpre
    -- the equals sign is none of the two letters, so that they are in the name
    rcases hname : o.name with - | ⟨a, - | ⟨b, t⟩⟩
    · rw [hname] at hpre
      exact absurd (List.cons_prefix_cons.1 hpre).1 (by decide)
    · rw [hname] at hpre
      exact absurd (List.cons_prefix_cons.1 (List.cons_prefix_cons.1 hpre).2).1 (by decide)
    · rw [hname] at hpre hno
      obtain ⟨ha, hb⟩ := List.cons_prefix_cons.1 hpre
      exact absurd (List.cons_prefix_cons.2 ⟨ha, List.cons_prefix_cons.2
        ⟨(List.cons_prefix_cons.1 hb).1, List.nil_prefix⟩⟩) hno
  | negated ht harg => exact ⟨ht, by rw [harg]; rfl, rfl⟩

/-- What `Right` says of an option that was tried. -/
theorem right_iff_of_ok {r : Option (Option Bytes)} (h : tryArgument arg o = .ok r) :
    Right arg o ↔ r.elim (¬ Recognised arg o) (Recognises o arg) := by
  constructor
  · rintro ⟨r', hr', hright⟩
    rw [h, Except.ok.injEq] at hr'
    exact hr' ▸ hright
  · exact fun hright => ⟨r, h, hright⟩

/-- Options that take a value. -/
theorem optionValue_takes {value : Option Bytes} {eq : Bool} (h : o.type.takesValue = true) :
    optionValue o str value eq = if eq then some (some (str.drop (o.len + 1))) else none := by
  unfold optionValue
  cases ht : o.type <;> rw [ht] at h <;> first | rfl | cases h

/-- Options that take none. -/
theorem optionValue_plain {value : Option Bytes} {eq : Bool} (h : o.type.takesValue = false)
    (hnull : o.type ≠ .null) : optionValue o str value eq = if eq then none else some value := by
  unfold optionValue
  cases ht : o.type <;> rw [ht] at h hnull <;> first | rfl | exact absurd rfl hnull | cases h

/-- The argument goes on behind the name. -/
theorem goesOn_iff (r : Bytes) :
    (∃ c r', o.name ++ r = o.name ++ c :: r' ∧ c ≠ 61) ↔ ∃ c r', r = c :: r' ∧ c ≠ 61 := by
  simp only [List.append_cancel_left_eq]

/-- Behind "no". -/
theorem right_iff_of_isNegated (hno : ¬ ascii "no" <+: o.name) (hneg : isNegated arg) :
    Right arg o ↔ ¬ Misleads arg o := by
  obtain ⟨harg, hlong⟩ := eq_append_of_isNegated hneg
  have htext : optionText arg = arg.drop 2 := if_pos hneg
  have htry : tryArgument arg o = tryOption true arg.length (arg.drop 2) none o := if_pos hneg
  by_cases hbeyond : o.len = arg.length
  · refine iff_of_false ?_ (not_not.2 (.inl ⟨hneg, hbeyond⟩))
    rintro ⟨r, hr, -⟩
    rw [htry, tryOption_beyond hneg hbeyond] at hr
    cases hr
  by_cases hcand : o.name <+: arg.drop 2 ∧ o.type = .bool
  · obtain ⟨⟨r, hr⟩, htype⟩ := hcand
    have hplain : o.type.takesValue = false := by rw [htype]; rfl
    have hlen : o.len ≤ arg.length := by
      have hsum := congrArg List.length hr
      rw [List.length_append, List.length_drop] at hsum
      rw [DicoOption.len]
      omega
    have hok := @tryOption_start o true arg.length none r hlen (.inr htype)
    rw [hr, ← htry, optionValue_plain hplain (by rw [htype]; decide)] at hok
    have hmis : Misleads arg o ↔ ∃ c r', r = c :: r' ∧ c ≠ 61 := by
      rw [Misleads, htext, ← hr, goesOn_iff]
      constructor
      · rintro (⟨-, h⟩ | ⟨-, -, h⟩)
        · exact absurd h hbeyond
        · exact h
      · exact fun h => .inr ⟨hplain, fun _ => htype, h⟩
    rw [right_iff_of_ok hok, hmis]
    rcases r with - | ⟨c, r⟩
    · rw [List.append_nil] at hr
      refine iff_of_true (.negated htype (by rw [hr]; exact harg)) ?_
      rintro ⟨c, r, h, -⟩
      cases h
    · have hne : arg.drop 2 ≠ o.name := by
        rw [← hr]
        exact fun h => List.cons_ne_nil c r (List.append_right_eq_self.1 h)
      have hnot : ¬ Recognised arg o := fun ⟨v, hv⟩ =>
        hne (recognises_of_isNegated hno hneg hv).2.1
      by_cases hc : c = 61
      · refine iff_of_true ?_ ?_
        · rw [List.headD_cons, decide_eq_true hc]
          exact hnot
        · rintro ⟨c', r', h, hne⟩
          cases h
          exact hne hc
      · refine iff_of_false ?_ (not_not.2 ⟨c, r, rfl, hc⟩)
        rw [List.headD_cons, decide_eq_false hc]
        exact fun h => hnot ⟨none, h⟩
  · have hskip : tryArgument arg o = .ok none := by
      rw [htry]
      refine tryOption_skip ?_ ?_
      · rw [List.length_drop]
        omega
      · rw [not_and_or] at hcand
        refine hcand.imp_right fun htype => ?_
        rintro (h | h)
        · cases h
        · exact htype h
    rw [right_iff_of_ok hskip]
    refine iff_of_true ?_ ?_
    · rintro ⟨v, hv⟩
      obtain ⟨htype, hname, -⟩ := recognises_of_isNegated hno hneg hv
      exact hcand ⟨hname ▸ List.prefix_rfl, htype⟩
    · rintro (⟨-, h⟩ | ⟨-, htype, c, r, h, -⟩)
      · exact hbeyond h
      · rw [htext] at h
        exact hcand ⟨h ▸ List.prefix_append _ _, htype hneg⟩

/-- What an argument without "no" in front of it names. -/
theorem recognises_plain {v : Option Bytes} (hneg : isNegated arg = false)
    (h : Recognises o arg v) : arg = o.name ∧ o.type.takesValue = false ∧
        (if o.type = .null then v = none else v.isSome) ∨
      (∃ w, arg = o.name ++ 61 :: w ∧ (o.type.takesValue ∨ o.type = .null) ∧ v = some w) ∨
      o.name = [] ∧ arg = ascii "no" ∧ o.type = .bool ∧ v = none := by
  cases h with
  | set v ht hnull harg => exact .inl ⟨harg, ht, by rw [if_neg hnull]; rfl⟩
  | bare ht harg => exact .inl ⟨harg, by rw [ht]; rfl, by rw [if_pos ht]⟩
  | assigned v ht harg => exact .inr (.inl ⟨v, harg, ht, rfl⟩)
  | negated ht harg =>
    have hname : o.name = [] := by
      by_contra hne
      have hpos := List.length_pos_iff.2 hne
      refine (of_decide_eq_false hneg) ⟨?_, by rw [harg]; rfl⟩
      rw [harg, List.length_append]
      exact Nat.add_lt_add_left hpos 2
    exact .inr (.inr ⟨hname, by rw [harg, hname]; rfl, ht, rfl⟩)

/-- What follows the name is nothing, a value, or something else. -/
theorem behind_cases (r : Bytes) :
    r = [] ∨ (∃ w, r = 61 :: w) ∨ ∃ c w, r = c :: w ∧ c ≠ 61 := by
  rcases r with - | ⟨c, w⟩
  · exact .inl rfl
  · by_cases hc : c = 61
    · exact .inr (.inl ⟨w, by rw [hc]⟩)
    · exact .inr (.inr ⟨c, w, rfl, hc⟩)

/-- What `optionValue` says of an argument that begins with the name is
right unless the option takes no value and the argument goes on. -/
theorem optionValue_right_iff (r : Bytes) (hneg : isNegated (o.name ++ r) = false) :
    (optionValue o (o.name ++ r) (some (o.name ++ r)) (decide (r.headD 0 = 61))).elim
        (¬ Recognised (o.name ++ r) o) (Recognises o (o.name ++ r)) ↔
      ¬ (o.type.takesValue = false ∧ ∃ c w, r = c :: w ∧ c ≠ 61) := by
  have hvalue : ∀ w : Bytes, (o.name ++ 61 :: w).drop (o.len + 1) = w := fun w =>
    drop_place o.name w 61
  have hself : ∀ {c : UInt8} {w : Bytes}, o.name ++ c :: w ≠ o.name := fun h =>
    List.cons_ne_nil _ _ (List.append_right_eq_self.1 h)
  rcases behind_cases r with rfl | ⟨w, rfl⟩ | ⟨c, w, rfl, hc⟩
  · -- the name alone
    rw [List.append_nil] at hneg ⊢
    have hmis : ¬ (o.type.takesValue = false ∧
        ∃ (c : UInt8) (w : Bytes), [] = c :: w ∧ c ≠ 61) := by
      rintro ⟨-, c, w, h, -⟩
      cases h
    refine iff_of_true ?_ hmis
    rcases Bool.eq_false_or_eq_true o.type.takesValue with ht | ht
    · rw [optionValue_takes ht]
      rintro ⟨v, hv⟩
      rcases recognises_plain hneg hv with ⟨-, h, -⟩ | ⟨w, h, -⟩ | ⟨hname, h, -⟩
      · exact Bool.false_ne_true (h.symm.trans ht)
      · exact hself h.symm
      · rw [hname] at h
        cases h
    · by_cases hnull : o.type = .null
      · rw [optionValue, hnull]
        exact .bare hnull rfl
      · rw [optionValue_plain ht hnull]
        exact .set _ ht hnull rfl
  · -- a value
    have hmis : ¬ (o.type.takesValue = false ∧ ∃ c w', 61 :: w = c :: w' ∧ c ≠ 61) := by
      rintro ⟨-, c, w', h, hne⟩
      cases h
      exact hne rfl
    refine iff_of_true ?_ hmis
    rcases Bool.eq_false_or_eq_true o.type.takesValue with ht | ht
    · rw [optionValue_takes ht, hvalue]
      exact .assigned w (.inl ht) rfl
    · by_cases hnull : o.type = .null
      · rw [optionValue, hnull]
        simp only [List.headD_cons, decide_true, if_true, hvalue]
        exact .assigned w (.inr hnull) rfl
      · rw [optionValue_plain ht hnull]
        rintro ⟨v, hv⟩
        rcases recognises_plain hneg hv with ⟨h, -⟩ | ⟨w', -, h, -⟩ | ⟨hname, h, -⟩
        · exact hself h
        · rcases h with h | h
          · exact Bool.false_ne_true (ht.symm.trans h)
          · exact hnull h
        · rw [hname] at h
          cases h
  · -- something else: the argument names the option only if this is its negation
    have honly : ∀ v, Recognises o (o.name ++ c :: w) v → o.type = .bool ∧ v = none := by
      intro v hv
      rcases recognises_plain hneg hv with ⟨h, -⟩ | ⟨w', h, -⟩ | ⟨-, -, h⟩
      · exact absurd h hself
      · exact absurd (List.cons.inj (List.append_cancel_left h)).1 hc
      · exact h
    have heq : decide ((c :: w).headD 0 = 61) = false := decide_eq_false hc
    rw [heq]
    rcases Bool.eq_false_or_eq_true o.type.takesValue with ht | ht
    · rw [optionValue_takes ht]
      refine iff_of_true ?_ fun h => Bool.false_ne_true (h.1.symm.trans ht)
      rintro ⟨v, hv⟩
      rw [(honly v hv).1] at ht
      cases ht
    · refine iff_of_false ?_ (not_not.2 ⟨ht, c, w, rfl, hc⟩)
      by_cases hnull : o.type = .null
      · rw [optionValue, hnull]
        intro h
        have hbool := (honly none h).1
        rw [hnull] at hbool
        cases hbool
      · rw [optionValue_plain ht hnull]
        intro h
        cases (honly _ h).2

/-- Without "no". -/
theorem right_iff_of_plain (hneg : isNegated arg = false) : Right arg o ↔ ¬ Misleads arg o := by
  have hnot : ¬ isNegated arg = true := by rw [hneg]; exact Bool.false_ne_true
  have htext : optionText arg = arg := if_neg hnot
  have htry : tryArgument arg o = tryOption false arg.length arg (some arg) o := if_neg hnot
  have hmis : Misleads arg o ↔
      o.type.takesValue = false ∧ ∃ c r, arg = o.name ++ c :: r ∧ c ≠ 61 := by
    rw [Misleads, htext]
    simp only [hneg, Bool.false_eq_true, false_and, false_or, IsEmpty.forall_iff, true_and]
  by_cases hcand : o.name <+: arg
  · obtain ⟨r, rfl⟩ := hcand
    have hlen : o.len ≤ (o.name ++ r).length := by
      rw [List.length_append, DicoOption.len]
      omega
    have hok := @tryOption_start o false _ (some (o.name ++ r)) r hlen (.inl rfl)
    rw [← htry] at hok
    rw [right_iff_of_ok hok, hmis, goesOn_iff]
    exact optionValue_right_iff r hneg
  · have hskip : tryArgument arg o = .ok none := by
      rw [htry]
      exact tryOption_skip (fun h => Nat.le_succ_of_le h) (.inl hcand)
    rw [right_iff_of_ok hskip, hmis]
    refine iff_of_true ?_ ?_
    · rintro ⟨v, hv⟩
      rcases recognises_plain hneg hv with ⟨h, -⟩ | ⟨w, h, -⟩ | ⟨hname, -⟩
      · exact hcand (h ▸ List.prefix_rfl)
      · exact hcand (h ▸ List.prefix_append _ _)
      · exact hcand (hname ▸ List.nil_prefix)
    · rintro ⟨-, c, r, h, -⟩
      exact hcand (h ▸ List.prefix_append _ _)

/-- **An option is tried as it should be unless it leads astray.** -/
theorem right_iff (hno : ¬ ascii "no" <+: o.name) : Right arg o ↔ ¬ Misleads arg o := by
  cases hneg : isNegated arg with
  | true => exact right_iff_of_isNegated hno hneg
  | false => exact right_iff_of_plain hneg

end One

/-! ## The table -/

section Table

variable {arg : Bytes} {i : ℕ} {o : DicoOption} {opts : List DicoOption}

/-- The lookup in what is left of the table. -/
def findOptFrom (arg : Bytes) (i : ℕ) (opts : List DicoOption) :
    Except Fault (Option FoundOption) :=
  if isNegated arg then findOptLoop true arg.length (arg.drop 2) none i opts
  else findOptLoop false arg.length arg (some arg) i opts

/-- An option that is taken ends the lookup. -/
theorem findOptFrom_taken {v : Option Bytes} (h : tryArgument arg o = .ok (some v)) :
    findOptFrom arg i (o :: opts) = .ok (some ⟨i, o, v⟩) := by
  unfold findOptFrom
  unfold tryArgument at h
  split_ifs at h ⊢ <;> rw [findOptLoop, h, ok_bind]

/-- An option that is passed over does not. -/
theorem findOptFrom_passed (h : tryArgument arg o = .ok none) :
    findOptFrom arg i (o :: opts) = findOptFrom arg (i + 1) opts := by
  unfold findOptFrom
  unfold tryArgument at h
  split_ifs at h ⊢ <;> rw [findOptLoop, h, ok_bind]

/-- A fault ends it too. -/
theorem findOptFrom_error {f : Fault} (h : tryArgument arg o = .error f) :
    findOptFrom arg i (o :: opts) = .error f := by
  unfold findOptFrom
  unfold tryArgument at h
  split_ifs at h ⊢ <;> rw [findOptLoop, h, error_bind]

/-- What is found is in the rest of the table. -/
theorem le_of_findOptFrom {f : FoundOption} (h : findOptFrom arg i opts = .ok (some f)) :
    i ≤ f.index := by
  induction opts generalizing i with
  | nil =>
    unfold findOptFrom at h
    split_ifs at h <;> cases h
  | cons o opts ih =>
    rcases htry : tryArgument arg o with e | (- | v)
    · rw [findOptFrom_error htry] at h
      cases h
    · rw [findOptFrom_passed htry] at h
      exact (Nat.le_succ i).trans (ih h)
    · rw [findOptFrom_taken htry] at h
      cases h
      exact le_rfl

/-- The result is the first option that the argument names. -/
def FoundAt (arg : Bytes) (i : ℕ) (opts : List DicoOption) : Option FoundOption → Prop
  | none => ∀ o ∈ opts, ¬ Recognised arg o
  | some f => ∃ k, f.index = i + k ∧ opts[k]? = some f.opt ∧ Recognises f.opt arg f.value ∧
      ∀ o ∈ opts.take k, ¬ Recognised arg o

/-- It is so behind an option that is passed over. -/
theorem foundAt_cons {r : Option FoundOption} (hr : findOptFrom arg (i + 1) opts = .ok r) :
    FoundAt arg i (o :: opts) r ↔ ¬ Recognised arg o ∧ FoundAt arg (i + 1) opts r := by
  cases r with
  | none => exact List.forall_mem_cons
  | some f =>
    constructor
    · rintro ⟨k, hk, hopt, hv, hfirst⟩
      have hle := le_of_findOptFrom hr
      obtain ⟨k, rfl⟩ : ∃ k', k = k' + 1 := ⟨k - 1, by omega⟩
      rw [List.getElem?_cons_succ] at hopt
      rw [List.take_succ_cons, List.forall_mem_cons] at hfirst
      exact ⟨hfirst.1, k, by omega, hopt, hv, hfirst.2⟩
    · rintro ⟨hnot, k, hk, hopt, hv, hfirst⟩
      refine ⟨k + 1, by omega, ?_, hv, ?_⟩
      · rwa [List.getElem?_cons_succ]
      · rw [List.take_succ_cons, List.forall_mem_cons]
        exact ⟨hnot, hfirst⟩

/-- The lookup finds what it should. -/
def FindsFrom (arg : Bytes) (i : ℕ) (opts : List DicoOption) : Prop :=
  ∃ r, findOptFrom arg i opts = .ok r ∧ FoundAt arg i opts r

/-- One step of the lookup. -/
theorem findsFrom_cons :
    FindsFrom arg i (o :: opts) ↔
      Right arg o ∧ (¬ Recognised arg o → FindsFrom arg (i + 1) opts) := by
  rcases htry : tryArgument arg o with e | (- | v)
  · refine iff_of_false ?_ ?_
    · rintro ⟨r, hr, -⟩
      rw [findOptFrom_error htry] at hr
      cases hr
    · rintro ⟨⟨r, hr, -⟩, -⟩
      rw [htry] at hr
      cases hr
  · rw [right_iff_of_ok htry, Option.elim_none]
    constructor
    · rintro ⟨r, hr, hfound⟩
      rw [findOptFrom_passed htry] at hr
      obtain ⟨hnot, hrest⟩ := (foundAt_cons hr).1 hfound
      exact ⟨hnot, fun _ => ⟨r, hr, hrest⟩⟩
    · rintro ⟨hnot, hrest⟩
      obtain ⟨r, hr, hfound⟩ := hrest hnot
      exact ⟨r, (findOptFrom_passed htry).trans hr, (foundAt_cons hr).2 ⟨hnot, hfound⟩⟩
  · rw [right_iff_of_ok htry, Option.elim_some]
    constructor
    · rintro ⟨r, hr, hfound⟩
      rw [findOptFrom_taken htry] at hr
      cases hr
      obtain ⟨k, hk, hopt, hv, -⟩ := hfound
      exact ⟨hv, fun hnot => absurd ⟨v, hv⟩ hnot⟩
    · rintro ⟨hv, -⟩
      exact ⟨_, findOptFrom_taken htry, 0, rfl, rfl, hv, fun o ho => absurd ho List.not_mem_nil⟩

/-- **A lookup goes right** unless it comes to an option that leads astray. -/
theorem findsFrom_iff (hno : ∀ o ∈ opts, ¬ ascii "no" <+: o.name) :
    FindsFrom arg i opts ↔ ∀ pre o post, opts = pre ++ o :: post →
      (∀ o' ∈ pre, ¬ Recognised arg o') → ¬ Misleads arg o := by
  induction opts generalizing i with
  | nil =>
    refine iff_of_true ⟨none, ?_, ?_⟩ ?_
    · unfold findOptFrom
      split_ifs <;> rfl
    · exact fun o ho => absurd ho List.not_mem_nil
    · intro pre o post h
      exact absurd h.symm (List.append_ne_nil_of_right_ne_nil pre (List.cons_ne_nil o post))
  | cons o opts ih =>
    rw [List.forall_mem_cons] at hno
    rw [findsFrom_cons, right_iff hno.1, ih hno.2]
    constructor
    · rintro ⟨hhead, htail⟩ pre o' post h hpre
      rcases pre with - | ⟨o'', pre⟩
      · rw [List.nil_append, List.cons.injEq] at h
        exact h.1 ▸ hhead
      · rw [List.cons_append, List.cons.injEq] at h
        rw [List.forall_mem_cons] at hpre
        exact htail (h.1 ▸ hpre.1) pre o' post h.2 hpre.2
    · intro h
      refine ⟨h [] o opts rfl fun o' ho' => absurd ho' List.not_mem_nil, ?_⟩
      intro hnot pre o' post hopts hpre
      refine h (o :: pre) o' post (by rw [hopts, List.cons_append]) ?_
      exact List.forall_mem_cons.2 ⟨hnot, hpre⟩

end Table

/-- A table of options, none of whose names begins with "no". -/
structure OptionTable where
  opts : List DicoOption
  names : ∀ o ∈ opts, ¬ ascii "no" <+: o.name

/-- **Option recognition.** The lookup finds the first option of the table
that the argument names, without a look beyond its end, exactly if no
option leads astray before one that the argument names is found. -/
theorem findsFirst_iff (table : OptionTable) (arg : Bytes) :
    FindsFirst table.opts arg ↔ ∀ pre o post, table.opts = pre ++ o :: post →
      (∀ o' ∈ pre, ¬ Recognised arg o') → ¬ Misleads arg o := by
  rw [← findsFrom_iff table.names (i := 0)]
  constructor
  · rintro ⟨r, hr, h⟩
    refine ⟨r, hr, ?_⟩
    cases r with
    | none => exact h
    | some f => exact ⟨f.index, (Nat.zero_add _).symm, h⟩
  · rintro ⟨r, hr, h⟩
    refine ⟨r, hr, ?_⟩
    cases r with
    | none => exact h
    | some f =>
      obtain ⟨k, hk, h⟩ := h
      rw [Nat.zero_add] at hk
      rw [← hk] at h
      exact h

/-- An option without a value. -/
def bitOption (name : Bytes) (h : 0 ∉ name) : DicoOption where
  name := name
  null_notMem := h
  type := .bitmask
  data := 0
  value := 1
  enumstr := []
  func := none

/-- A table with one option. -/
def sortTable : OptionTable where
  opts := [bitOption (ascii "sort") (by decide)]
  names := by decide

/-- **Two arguments that go wrong.** "sorted" is taken for the option
"sort", and to see that "noop" is not, a byte behind its end is read. -/
theorem not_findsFirst_sort :
    ¬ FindsFirst sortTable.opts (ascii "sorted") ∧ ¬ FindsFirst sortTable.opts (ascii "noop") := by
  constructor
  · rintro ⟨r, hr, h⟩
    have hfind : findOpt sortTable.opts (ascii "sorted") =
        .ok (some ⟨0, bitOption (ascii "sort") (by decide), some (ascii "sorted")⟩) := rfl
    rw [hfind] at hr
    cases hr
    rcases recognises_plain (by decide) h.2.1 with ⟨harg, -⟩ | ⟨w, harg, -⟩ | ⟨-, harg, -⟩
    · exact absurd harg (by decide)
    · cases harg
    · exact absurd harg (by decide)
  · rintro ⟨r, hr, -⟩
    have hfind : findOpt sortTable.opts (ascii "noop") = .error .bounds := rfl
    rw [hfind] at hr
    cases hr

end Dico
