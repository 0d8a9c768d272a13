import Dico.Text.Cstr
import Mathlib.Algebra.BigOperators.Group.List.Basic
/-!
# The access log format

`compile_access_log` turns `access_log_format` into a program: a literal
run becomes one instruction, a directive another. A directive with a letter
that is not in the table is printed as it stands, but from where the literal
run before it begins, so that this run is printed twice; and a format that
ends inside a directive is read beyond its end. `compileAccessLog_iff` says
that the program covers the format exactly where neither happens.
-/

namespace Dico

/-- The printers of the table. -/
inductive AlogPrinter
  | print | remoteIp | localIp | responseSize | responseSizeClf | client | commandVerbAbbr
  | timeMs | remoteHost | commandVerb | logname | strategy | serverPort | pid | database
  | request | token | status | time | processTime | remoteUser | confHostname | hostname | word
  deriving DecidableEq, Repr

/-- `struct alog_instr`. -/
structure AlogInstr where
  prt : AlogPrinter
  arg : Option Bytes
  deriving DecidableEq, Repr

/-- `struct alog_tab`. -/
structure AlogTab where
  ch : UInt8
  prt : AlogPrinter
  allowFmt : Bool := false
  deriving DecidableEq, Repr

/-- `alog_tab`. -/
def alogTab : List AlogTab :=
  [⟨37, .print, false⟩, ⟨97, .remoteIp, false⟩, ⟨65, .localIp, false⟩,
    ⟨66, .responseSize, false⟩, ⟨98, .responseSizeClf, false⟩, ⟨67, .client, false⟩,
    ⟨100, .commandVerbAbbr, false⟩, ⟨68, .timeMs, false⟩, ⟨104, .remoteHost, false⟩,
    ⟨72, .commandVerb, false⟩, ⟨108, .logname, false⟩, ⟨109, .strategy, false⟩,
    ⟨112, .serverPort, false⟩, ⟨80, .pid, false⟩, ⟨113, .database, false⟩,
    ⟨114, .request, false⟩, ⟨82, .token, true⟩, ⟨115, .status, true⟩, ⟨116, .time, true⟩,
    ⟨84, .processTime, false⟩, ⟨117, .remoteUser, false⟩, ⟨118, .confHostname, false⟩,
    ⟨86, .hostname, false⟩, ⟨87, .word, false⟩]

/-- `find_alog_entry`. -/
def findAlogEntry (c : UInt8) : Option AlogTab := alogTab.find? (·.ch = c)

/-- `add_instr`: no argument and an empty one are the same. -/
def addInstr (prt : AlogPrinter) (fmt : Option Bytes) : AlogInstr := ⟨prt, fmt.filter (· ≠ [])⟩

/-- The instruction of a directive that is in the table. -/
def AlogTab.instr (tptr : AlogTab) (arg : Option Bytes) : AlogInstr :=
  let arg := if tptr.allowFmt then arg else none
  addInstr tptr.prt (if tptr.ch = 37 then some [37] else arg)

/-- The instruction of a literal run, if there is one. -/
def alogLiteral (s : Bytes) : List AlogInstr := if s = [] then [] else [addInstr .print (some s)]

/-- The argument of a directive, from behind its percent sign, and where its
letter is; no result where a brace is not closed. -/
def alogArg (m : Bytes) (p : ℕ) : Except Fault (Option (Option Bytes × ℕ)) := do
  let c ← load m p
  if c = 62 then
    let d ← load m (p + 1)
    if d = 115 then .ok (some (some [49], p + 1)) else .ok (some (none, p))
  else if c = 123 then
    let s ← strAt m (p + 1)
    match strchr 125 s with
    | none => .ok none
    | some q => .ok (some (some (s.take q), p + 1 + q + 1))
  else .ok (some (none, p))

/-- The directive whose percent sign is at an offset from `fmt`: the
instruction, and where the scan stands. -/
def alogDirective (m : Bytes) (len : ℕ) : Except Fault (AlogInstr × ℕ) := do
  match ← alogArg m (len + 1) with
  | none => .ok (addInstr .print (some ((m.drop len).take 2)), len + 1)
  | some (arg, p) =>
    let c ← load m p
    match findAlogEntry c with
    | none => .ok (addInstr .print (some (m.take (p + 1))), p)
    | some tptr => .ok (tptr.instr arg, p)

/-- The loop of `compile_access_log`, on the memory from `fmt` on. -/
def compileLoop (m : Bytes) : Except Fault (List AlogInstr) :=
  if _h : m = [] then .error .bounds
  else do
    let s ← strAt m 0
    match strchr 37 s with
    | none => .ok (alogLiteral s)
    | some len =>
      let (instr, p) ← alogDirective m len
      let prog ← compileLoop (m.drop (p + 1))
      .ok (alogLiteral (s.take len) ++ instr :: prog)
termination_by m.length
decreasing_by
  rw [List.length_drop]
  exact Nat.sub_lt (List.length_pos_iff.2 _h) (Nat.succ_pos p)

/-- `compile_access_log`, on a format in a block of its own. -/
def compileAccessLog (fmt : Bytes) : Except Fault (List AlogInstr) := compileLoop (fmt ++ [0])

example : compileAccessLog (ascii "%h %>s") =
    .ok [⟨.remoteHost, none⟩, ⟨.print, some [32]⟩, ⟨.status, some [49]⟩] := by
  decide +kernel

/-! ## What a format says -/

/-- The pieces of a format. -/
inductive AlogPiece
  /-- A character that stands for itself. -/
  | lit (c : UInt8)
  /-- A directive: what stands between its percent sign and its letter, its
  argument and its letter. -/
  | conv (flags : Bytes) (arg : Option Bytes) (c : UInt8)
  /-- A percent sign and a brace that is not closed. -/
  | unclosed
  /-- A directive in which the format ends. -/
  | cut (flags : Bytes)
  deriving DecidableEq, Repr

/-- The text of a piece. -/
def AlogPiece.text : AlogPiece → Bytes
  | .lit c => [c]
  | .conv flags _ c => 37 :: (flags ++ [c])
  | .unclosed => [37, 123]
  | .cut flags => 37 :: flags

/-- The piece that a percent sign begins, and what follows it. -/
def alogPiece : Bytes → AlogPiece × Bytes
  | [] => (.cut [], [])
  | c :: s =>
    if c = 62 ∧ s.head? = some 115 then (.conv [62] (some [49]) 115, s.tail)
    else if c = 123 then
      match strchr 125 s with
      | none => (.unclosed, s)
      | some q =>
        match s.drop (q + 1) with
        | [] => (.cut (123 :: s), [])
        | x :: r => (.conv (123 :: (s.take q ++ [125])) (some (s.take q)) x, r)
    else (.conv [] none c, s)

/-- How a piece that a percent sign begins can look. -/
inductive BeginsPiece : Bytes → AlogPiece → Bytes → Prop
  | stops : BeginsPiece [] (.cut []) []
  | status (r : Bytes) : BeginsPiece (62 :: 115 :: r) (.conv [62] (some [49]) 115) r
  | arg (t : Bytes) (x : UInt8) (r : Bytes) (ht : 125 ∉ t) :
      BeginsPiece (123 :: (t ++ 125 :: x :: r)) (.conv (123 :: (t ++ [125])) (some t) x) r
  | argStops (t : Bytes) (ht : 125 ∉ t) :
      BeginsPiece (123 :: (t ++ [125])) (.cut (123 :: (t ++ [125]))) []
  | unclosed (r : Bytes) (hr : 125 ∉ r) : BeginsPiece (123 :: r) .unclosed r
  | plain (c : UInt8) (r : Bytes) (hs : ¬ (c = 62 ∧ r.head? = some 115)) (hc : c ≠ 123) :
      BeginsPiece (c :: r) (.conv [] none c) r

/-- And it is one of these. -/
theorem beginsPiece (s : Bytes) : BeginsPiece s (alogPiece s).1 (alogPiece s).2 := by
  rcases s with - | ⟨c, s⟩
  · exact .stops
  · by_cases hs : c = 62 ∧ s.head? = some 115
    · obtain ⟨rfl, hd⟩ := hs
      obtain ⟨r, rfl⟩ := List.head?_eq_some_iff.1 hd
      exact .status r
    · by_cases hc : c = 123
      · subst hc
        by_cases hq : 125 ∈ s
        · obtain ⟨t, u, rfl, ht⟩ := List.eq_append_cons_of_mem hq
          rcases u with - | ⟨x, r⟩
          · simp only [alogPiece, hs, if_false, if_true, strchr_append ht, drop_place]
            exact .argStops t ht
          · simp only [alogPiece, hs, if_false, if_true, strchr_append ht, drop_place,
              List.take_left]
            exact .arg t x r ht
        · have hnone : strchr 125 s = none := if_neg hq
          simp only [alogPiece, hs, if_false, if_true, hnone]
          exact .unclosed s hq
      · simp only [alogPiece, hs, hc, if_false]
        exact .plain c s hs hc

/-- The text of the piece, and what follows it. -/
theorem BeginsPiece.text {s r : Bytes} {piece : AlogPiece} (h : BeginsPiece s piece r) :
    37 :: s = piece.text ++ r := by
  cases h <;> simp [AlogPiece.text]

/-- It is part of the text. -/
theorem notMem_alogPiece {l s : Bytes} {c : UInt8} (h : c ∉ l ++ 37 :: s) :
    c ∉ (alogPiece s).2 := by
  rw [(beginsPiece s).text] at h
  exact fun hc => h (List.mem_append_right _ (List.mem_append_right _ hc))

/-- What follows a piece is shorter than what it began in. -/
theorem length_alogPiece (s : Bytes) : (alogPiece s).2.length ≤ s.length := by
  have h := congrArg List.length (beginsPiece s).text
  rw [List.length_cons, List.length_append] at h
  have hpos : 0 < (alogPiece s).1.text.length := by
    cases (alogPiece s).1 <;> exact Nat.succ_pos _
  omega

/-- The pieces of a format. -/
def alogPieces : Bytes → List AlogPiece
  | [] => []
  | c :: s =>
    if c = 37 then (alogPiece s).1 :: alogPieces (alogPiece s).2 else .lit c :: alogPieces s
termination_by s => s.length
decreasing_by
  · exact Nat.lt_succ_of_le (length_alogPiece s)
  · exact Nat.lt_succ_self _

/-- A directive whose letter is in the table. -/
def AlogPiece.Known : AlogPiece → Prop
  | .conv _ _ c => (findAlogEntry c).isSome
  | _ => True

/-- What a program has to cover: the characters that stand for themselves,
with those of the directives that are not recognised, and the directives
that are. -/
inductive AlogItem
  | char (c : UInt8)
  | directive (tptr : AlogTab) (arg : Option Bytes)

/-- The items of a piece. -/
def AlogPiece.items (p : AlogPiece) : List AlogItem :=
  match p with
  | .conv _ arg c =>
    match findAlogEntry c with
    | some tptr => [.directive tptr arg]
    | none => p.text.map .char
  | _ => p.text.map .char

/-- **A program that covers a list of items**: each of its instructions
prints some of the characters, the next ones, or is that of the directive
that comes next. -/
inductive CoversItems : List AlogInstr → List AlogItem → Prop
  | nil : CoversItems [] []
  | chars {t : Bytes} {prog : List AlogInstr} {items : List AlogItem} (ht : t ≠ [])
      (h : CoversItems prog items) : CoversItems (⟨.print, some t⟩ :: prog) (t.map .char ++ items)
  | directive {tptr : AlogTab} {arg : Option Bytes} {prog : List AlogInstr}
      {items : List AlogItem} (htab : tptr ∈ alogTab) (h : CoversItems prog items) :
      CoversItems (tptr.instr arg :: prog) (.directive tptr arg :: items)

/-- A format is compiled, and covered by its program. -/
def CompilesExactly (fmt : Bytes) : Prop :=
  ∃ prog, compileAccessLog fmt = .ok prog ∧
    CoversItems prog ((alogPieces fmt).flatMap AlogPiece.items)

/-- A literal character is not followed by a directive that is not known. -/
def MayFollow : AlogPiece → AlogPiece → Prop
  | .lit _, p => p.Known
  | _, _ => True

/-- A format that does not end inside a directive, and in which every
directive that is not known stands at the beginning or behind another
directive. -/
def FormatClean (fmt : Bytes) : Prop :=
  (∀ flags, .cut flags ∉ alogPieces fmt) ∧ (alogPieces fmt).IsChain MayFollow

/-! ## Pieces of a format -/

section Pieces

variable {l s r : Bytes} {piece : AlogPiece} {ps : List AlogPiece}

/-- A literal run. -/
theorem alogPieces_append (hl : 37 ∉ l) : alogPieces (l ++ s) = l.map .lit ++ alogPieces s := by
  induction l with
  | nil => rfl
  | cons c l ih =>
    rw [List.mem_cons, not_or] at hl
    rw [List.cons_append, alogPieces, if_neg (Ne.symm hl.1), ih hl.2]
    rfl

/-- What a percent sign begins. -/
theorem alogPieces_percent :
    alogPieces (37 :: s) = (alogPiece s).1 :: alogPieces (alogPiece s).2 := by
  rw [alogPieces, if_pos rfl]

/-- **A format is a literal run, or one with a directive behind it** and a
format behind that. -/
theorem format_induction {P : Bytes → Prop} (hrun : ∀ l, 37 ∉ l → P l)
    (hpiece : ∀ l s, 37 ∉ l → P (alogPiece s).2 → P (l ++ 37 :: s)) (s : Bytes) : P s := by
  induction hn : s.length using Nat.strong_induction_on generalizing s with
  | _ n ih =>
    by_cases hs : 37 ∈ s
    · obtain ⟨l, t, rfl, hl⟩ := List.eq_append_cons_of_mem hs
      refine hpiece l t hl (ih _ ?_ _ rfl)
      have hle := length_alogPiece t
      rw [List.length_append, List.length_cons] at hn
      omega
    · exact hrun s hs

/-- A piece that a percent sign begins is not a literal. -/
theorem BeginsPiece.ne_lit (h : BeginsPiece s piece r) (c : UInt8) : piece ≠ .lit c := by
  cases h <;> exact nofun

/-- The order of the pieces, where a literal run comes first. -/
theorem isChain_follows (hne : ∀ c, piece ≠ .lit c) :
    (l.map AlogPiece.lit ++ piece :: ps).IsChain MayFollow ↔
      (l ≠ [] → piece.Known) ∧ ps.IsChain MayFollow := by
  induction l with
  | nil =>
    have hfollows : ∀ p, MayFollow piece p := by
      intro p
      cases piece with
      | lit c => exact absurd rfl (hne c)
      | conv => trivial
      | unclosed => trivial
      | cut => trivial
    simp only [List.map_nil, List.nil_append, ne_eq, not_true, false_imp_iff, true_and]
    rcases ps with - | ⟨p, ps⟩
    · simp
    · simp [List.isChain_cons_cons, hfollows]
  | cons c l ih =>
    rcases l with - | ⟨d, l⟩
    · simp only [List.map_nil, List.nil_append, ne_eq, not_true, false_imp_iff, true_and] at ih
      simp [List.isChain_cons_cons, MayFollow, ih]
    · simpa [List.isChain_cons_cons, MayFollow, AlogPiece.Known] using ih

/-- Literals alone are in order. -/
theorem isChain_lits (l : Bytes) : (l.map AlogPiece.lit).IsChain MayFollow := by
  induction l with
  | nil => exact .nil
  | cons c l ih =>
    rcases l with - | ⟨d, l⟩
    · exact .singleton _
    · exact List.isChain_cons_cons.2 ⟨trivial, ih⟩

/-- The items of literals. -/
theorem flatMap_lits (l : Bytes) :
    (l.map AlogPiece.lit).flatMap AlogPiece.items = l.map .char := by
  induction l with
  | nil => rfl
  | cons c l ih =>
    rw [List.map_cons, List.flatMap_cons, ih]
    rfl

end Pieces

/-! ## One directive -/

section Directive

variable {l s r : Bytes} {piece : AlogPiece}

/-- The instruction of a directive behind a literal run. -/
def AlogPiece.instr (l : Bytes) (p : AlogPiece) : AlogInstr :=
  match p with
  | .conv _ arg c =>
    match findAlogEntry c with
    | some tptr => tptr.instr arg
    | none => ⟨.print, some (l ++ p.text)⟩
  | _ => ⟨.print, some p.text⟩

/-- Reading behind the percent sign. -/
theorem load_directive (l u : Bytes) (c : UInt8) (t : Bytes) :
    load (l ++ 37 :: (u ++ c :: t)) (l.length + 1 + u.length) = .ok c := by
  have h := load_append (l ++ 37 :: u) c t
  rw [List.append_assoc, List.length_append, List.length_cons] at h
  rw [← h, List.cons_append]
  congr 1
  omega

/-- The string behind the brace. -/
theorem strAt_directive (l : Bytes) (hs : 0 ∉ s) :
    strAt (l ++ 37 :: 123 :: (s ++ [0])) (l.length + 1 + 1) = .ok s := by
  have h := strAt_append (l ++ [37, 123]) hs []
  rw [List.append_assoc, List.length_append] at h
  exact h

/-- An argument, and where the letter behind it is. -/
theorem alogArg_eq (h : BeginsPiece s piece r) (h₀ : 0 ∉ s) (l : Bytes) :
    alogArg (l ++ 37 :: (s ++ [0])) (l.length + 1) =
      match piece with
      | .conv flags arg _ => .ok (some (arg, l.length + 1 + flags.length))
      | .cut [] => .ok (some (none, l.length + 1))
      | .cut (c :: t) => .ok (some (some t.dropLast, l.length + 1 + (c :: t).length))
      | _ => .ok none := by
  have hload : ∀ c t, load (l ++ 37 :: (c :: t)) (l.length + 1) = .ok c := load_directive l []
  cases h with
  | stops => simp [alogArg, hload]
  | status r =>
    have hnext := load_directive l [62] 115 (r ++ [0])
    simp only [List.cons_append, List.nil_append, List.length_singleton] at hnext ⊢
    simp [alogArg, hload, hnext]
  | arg t x r ht =>
    rw [List.cons_append, alogArg, hload, ok_bind, if_neg (by decide), if_pos rfl,
      strAt_directive l (fun h => h₀ (List.mem_cons_of_mem _ h)), ok_bind, strchr_append ht]
    simp only [List.take_left, List.length_cons, List.length_append, List.length_nil]
    rw [show l.length + 1 + 1 + t.length + 1 = l.length + 1 + (t.length + (0 + 1) + 1) by omega]
  | argStops t ht =>
    rw [List.cons_append, alogArg, hload, ok_bind, if_neg (by decide), if_pos rfl,
      strAt_directive l (fun h => h₀ (List.mem_cons_of_mem _ h)), ok_bind, strchr_append ht]
    simp only [List.take_left, List.length_cons, List.length_append, List.length_nil,
      List.dropLast_concat]
    rw [show l.length + 1 + 1 + t.length + 1 = l.length + 1 + (t.length + (0 + 1) + 1) by omega]
  | unclosed r hr =>
    have hnone : strchr 125 r = none := if_neg hr
    rw [List.cons_append, alogArg, hload, ok_bind, if_neg (by decide), if_pos rfl,
      strAt_directive l (fun h => h₀ (List.mem_cons_of_mem _ h)), ok_bind, hnone]
  | plain c r hs hc =>
    rw [List.cons_append, alogArg, hload, ok_bind]
    by_cases h62 : c = 62
    · obtain ⟨d, t, hd⟩ : ∃ d t, r ++ [0] = d :: t :=
        List.exists_cons_of_ne_nil (List.append_ne_nil_of_right_ne_nil _ (List.cons_ne_nil _ _))
      have hne : d ≠ 115 := by
        rintro rfl
        rcases r with - | ⟨e, r⟩
        · cases hd
        · exact hs ⟨h62, by rw [(List.cons.inj hd).1]; rfl⟩
      have hnext := load_directive l [c] d t
      simp only [List.length_singleton, List.cons_append, List.nil_append] at hnext
      rw [if_pos h62, hd, hnext, ok_bind, if_neg hne]
      rfl
    · rw [if_neg h62, if_neg hc]
      rfl

/-- **A directive in the middle of a format** becomes its instruction, and
the scan goes on behind it. -/
theorem alogDirective_eq (h : BeginsPiece s piece r) (h₀ : 0 ∉ s)
    (hcut : ∀ flags, piece ≠ .cut flags) (l : Bytes) :
    alogDirective (l ++ 37 :: (s ++ [0])) l.length =
      .ok (piece.instr l, l.length + piece.text.length - 1) := by
  have htext := h.text
  have harg := alogArg_eq h h₀ l
  rw [alogDirective, harg]
  cases piece with
  | lit c => exact absurd rfl (h.ne_lit c)
  | cut flags => exact absurd rfl (hcut flags)
  | unclosed =>
    rw [AlogPiece.text, List.cons_append, List.cons.injEq, List.cons_append] at htext
    rw [htext.2]
    simp [AlogPiece.instr, AlogPiece.text, addInstr]
  | conv flags arg c =>
    have hs : s = flags ++ c :: r := by
      rw [AlogPiece.text, List.cons_append, List.cons.injEq, List.append_assoc] at htext
      exact htext.2
    have hend : l.length + (AlogPiece.conv flags arg c).text.length - 1 =
        l.length + 1 + flags.length := by
      simp only [AlogPiece.text, List.length_cons, List.length_append, List.length_nil]
      omega
    have htake : (l ++ 37 :: (flags ++ c :: (r ++ [0]))).take (l.length + 1 + flags.length + 1) =
        l ++ (AlogPiece.conv flags arg c).text := by
      have hlen : l.length + 1 + flags.length + 1 =
          (l ++ 37 :: (flags ++ [c])).length := by
        simp only [List.length_append, List.length_cons, List.length_nil]
        omega
      rw [hlen, AlogPiece.text, show l ++ 37 :: (flags ++ c :: (r ++ [0])) =
        (l ++ 37 :: (flags ++ [c])) ++ (r ++ [0]) by simp, List.take_left]
    rw [hend, hs, List.append_assoc, List.cons_append]
    simp only [ok_bind, load_directive, AlogPiece.instr, htake]
    cases findAlogEntry c with
    | some tptr => rfl
    | none =>
      have hne : l ++ (AlogPiece.conv flags arg c).text ≠ [] :=
        List.append_ne_nil_of_right_ne_nil _ (List.cons_ne_nil _ _)
      simp [addInstr, hne]

/-- **A directive in which the format ends** leaves the scan behind the end
of the format. -/
theorem alogDirective_cut {flags : Bytes} (h : BeginsPiece s (.cut flags) r) (h₀ : 0 ∉ s)
    (l : Bytes) :
    ∃ instr, alogDirective (l ++ 37 :: (s ++ [0])) l.length =
      .ok (instr, l.length + 1 + s.length) := by
  have harg := alogArg_eq h h₀ l
  have hload := load_directive l s 0 []
  have hnone : findAlogEntry 0 = none := by decide
  rw [alogDirective, harg]
  cases h with
  | stops =>
    simp only [ok_bind, List.length_nil, Nat.add_zero] at hload ⊢
    rw [hload, ok_bind, hnone]
    exact ⟨_, rfl⟩
  | argStops t ht =>
    simp only [ok_bind]
    rw [hload, ok_bind, hnone]
    exact ⟨_, rfl⟩

end Directive

/-! ## The loop -/

section Loop

variable {l s : Bytes}

/-- A literal run at the end. -/
theorem compileLoop_run (hl : 37 ∉ l) (h₀ : 0 ∉ l) :
    compileLoop (l ++ [0]) = .ok (alogLiteral l) := by
  have hstr : strAt (l ++ [0]) 0 = .ok l := strAt_append [] h₀ []
  have hnone : strchr 37 l = none := if_neg hl
  rw [compileLoop, dif_neg (List.append_ne_nil_of_right_ne_nil _ (List.cons_ne_nil _ _)), hstr,
    ok_bind, hnone]

/-- A literal run with a directive behind it. -/
theorem compileLoop_percent (hl : 37 ∉ l) (h₀ : 0 ∉ l ++ 37 :: s) :
    compileLoop (l ++ 37 :: (s ++ [0])) =
      (alogDirective (l ++ 37 :: (s ++ [0])) l.length >>= fun d =>
        compileLoop ((l ++ 37 :: (s ++ [0])).drop (d.2 + 1)) >>= fun prog =>
          .ok (alogLiteral l ++ d.1 :: prog)) := by
  have hstr : strAt (l ++ 37 :: (s ++ [0])) 0 = .ok (l ++ 37 :: s) := by
    have h := strAt_append [] h₀ []
    rwa [List.nil_append, List.append_assoc] at h
  rw [compileLoop, dif_neg (List.append_ne_nil_of_right_ne_nil _ (List.cons_ne_nil _ _)), hstr,
    ok_bind, strchr_append hl]
  simp only [List.take_left]

/-- A directive in the middle. -/
theorem compileLoop_piece (hl : 37 ∉ l) (h₀ : 0 ∉ l ++ 37 :: s)
    (hcut : ∀ flags, (alogPiece s).1 ≠ .cut flags) :
    compileLoop (l ++ 37 :: (s ++ [0])) =
      (compileLoop ((alogPiece s).2 ++ [0]) >>= fun prog =>
        .ok (alogLiteral l ++ (alogPiece s).1.instr l :: prog)) := by
  have hs : 0 ∉ s := fun h => h₀ (List.mem_append_right _ (List.mem_cons_of_mem _ h))
  have htext : 37 :: (s ++ [0]) = (alogPiece s).1.text ++ ((alogPiece s).2 ++ [0]) := by
    rw [← List.append_assoc, ← (beginsPiece s).text, List.cons_append]
  have hpos : 0 < (alogPiece s).1.text.length := by
    cases (alogPiece s).1 <;> exact Nat.succ_pos _
  have hdrop : (l ++ 37 :: (s ++ [0])).drop (l.length + (alogPiece s).1.text.length - 1 + 1) =
      (alogPiece s).2 ++ [0] := by
    rw [htext, ← List.append_assoc, Nat.sub_add_cancel (by omega), ← List.length_append,
      List.drop_left]
  rw [compileLoop_percent hl h₀, alogDirective_eq (beginsPiece s) hs hcut l, ok_bind]
  simp only [hdrop]

/-- A directive in which the format ends. -/
theorem compileLoop_cut {flags : Bytes} (hl : 37 ∉ l) (h₀ : 0 ∉ l ++ 37 :: s)
    (hcut : (alogPiece s).1 = .cut flags) :
    compileLoop (l ++ 37 :: (s ++ [0])) = .error .bounds := by
  have hs : 0 ∉ s := fun h => h₀ (List.mem_append_right _ (List.mem_cons_of_mem _ h))
  obtain ⟨instr, hd⟩ := alogDirective_cut (hcut ▸ beginsPiece s) hs l
  have hdrop : (l ++ 37 :: (s ++ [0])).drop (l.length + 1 + s.length + 1) = [] := by
    refine List.drop_eq_nil_of_le ?_
    simp only [List.length_append, List.length_cons, List.length_nil]
    omega
  rw [compileLoop_percent hl h₀, hd, ok_bind]
  simp only [hdrop]
  rw [compileLoop, dif_pos rfl]
  rfl

end Loop

/-! ## What is printed -/

section Printed

variable {l : Bytes} {piece : AlogPiece} {prog : List AlogInstr} {items : List AlogItem}

/-- How many items an instruction can stand for. -/
def AlogInstr.weight (i : AlogInstr) : ℕ :=
  if i.prt = .print then (i.arg.getD []).length else 1

/-- The instruction of a directive stands for one. -/
theorem AlogTab.weight_instr {tptr : AlogTab} (htab : tptr ∈ alogTab) (arg : Option Bytes) :
    (tptr.instr arg).weight = 1 := by
  have hprint : ∀ t ∈ alogTab, (t.prt = .print ↔ t.ch = 37) := by
    simp only [alogTab, List.forall_mem_cons]
    decide
  by_cases h : tptr.ch = 37
  · simp only [AlogTab.instr, AlogInstr.weight, addInstr, h, (hprint tptr htab).2 h, if_true]
    rfl
  · simp [AlogTab.instr, AlogInstr.weight, addInstr, mt (hprint tptr htab).1 h]

/-- A program that covers some items has their number. -/
theorem CoversItems.weight (h : CoversItems prog items) :
    (prog.map AlogInstr.weight).sum = items.length := by
  induction h with
  | nil => rfl
  | chars ht h ih => simp [AlogInstr.weight, ih]
  | directive htab h ih => simp [AlogTab.weight_instr htab, ih, Nat.add_comm]

/-- A literal run is covered. -/
theorem CoversItems.literal (h : CoversItems prog items) (l : Bytes) :
    CoversItems (alogLiteral l ++ prog) (l.map .char ++ items) := by
  rw [alogLiteral]
  split_ifs with hl
  · rwa [hl]
  · simp only [addInstr, ne_eq, hl, not_false_eq_true, decide_true, Option.filter_some_pos]
    exact h.chars hl

/-- So is a directive that is known, or that has no literal run before it. -/
theorem CoversItems.cons (h : CoversItems prog items) (hne : ∀ c, piece ≠ .lit c)
    (hl : l ≠ [] → piece.Known) : CoversItems (piece.instr l :: prog) (piece.items ++ items) := by
  have htext : piece.text ≠ [] := by cases piece <;> exact List.cons_ne_nil _ _
  cases piece with
  | lit c => exact absurd rfl (hne c)
  | unclosed => exact h.chars htext
  | cut flags => exact h.chars htext
  | conv flags arg c =>
    rw [AlogPiece.instr, AlogPiece.items]
    cases hc : findAlogEntry c with
    | some tptr => exact h.directive (List.mem_of_find?_eq_some hc)
    | none =>
      have hnil : l = [] := by
        by_contra hne
        have hknown := hl hne
        rw [AlogPiece.Known, hc] at hknown
        cases hknown
      rw [hnil]
      exact h.chars htext

/-- What the instruction of a directive stands for: the literal run before
it is counted again if the directive is not known. -/
theorem AlogPiece.le_weight (piece : AlogPiece) (l : Bytes) :
    piece.items.length ≤ (piece.instr l).weight ∧
      (¬ (l ≠ [] → piece.Known) → piece.items.length < (piece.instr l).weight) := by
  cases piece with
  | lit c => simp [AlogPiece.items, AlogPiece.instr, AlogInstr.weight, AlogPiece.Known]
  | unclosed => simp [AlogPiece.items, AlogPiece.instr, AlogInstr.weight, AlogPiece.Known]
  | cut flags => simp [AlogPiece.items, AlogPiece.instr, AlogInstr.weight, AlogPiece.Known]
  | conv flags arg c =>
    rw [AlogPiece.items, AlogPiece.instr, AlogPiece.Known]
    cases hc : findAlogEntry c with
    | some tptr =>
      simp [AlogTab.weight_instr (List.mem_of_find?_eq_some hc)]
    | none =>
      simp [AlogInstr.weight, ← List.length_pos_iff]

/-- A literal run stands for its characters. -/
theorem weight_literal (l : Bytes) : ((alogLiteral l).map AlogInstr.weight).sum = l.length := by
  have h := (CoversItems.nil.literal l).weight
  simpa using h

end Printed

/-! ## Every format -/

section Formats

variable {fmt : Bytes}

/-- A format that ends inside a directive is read beyond its end. -/
theorem compileAccessLog_cut (h₀ : 0 ∉ fmt) {flags : Bytes} (hcut : .cut flags ∈ alogPieces fmt) :
    compileAccessLog fmt = .error .bounds := by
  unfold compileAccessLog
  induction fmt using format_induction with
  | hrun l hl =>
    rw [← List.append_nil l, alogPieces_append hl, alogPieces] at hcut
    simp at hcut
  | hpiece l s hl ih =>
    rw [List.append_assoc, List.cons_append]
    by_cases hnow : ∃ flags, (alogPiece s).1 = .cut flags
    · obtain ⟨flags, hnow⟩ := hnow
      exact compileLoop_cut hl h₀ hnow
    · rw [not_exists] at hnow
      have hrest : .cut flags ∈ alogPieces (alogPiece s).2 := by
        rw [alogPieces_append hl, alogPieces_percent] at hcut
        rcases List.mem_append.1 hcut with h | h
        · simp at h
        · exact (List.mem_cons.1 h).resolve_left (Ne.symm (hnow flags))
      rw [compileLoop_piece hl h₀ hnow, ih (notMem_alogPiece h₀) hrest]
      rfl

/-- **The program of a format that does not end inside a directive** stands
for every item, and for more where the format is not clean. -/
theorem compileAccessLog_spec (h₀ : 0 ∉ fmt) (hcut : ∀ flags, .cut flags ∉ alogPieces fmt) :
    ∃ prog, compileAccessLog fmt = .ok prog ∧
      ((alogPieces fmt).IsChain MayFollow →
        CoversItems prog ((alogPieces fmt).flatMap AlogPiece.items)) ∧
      ((alogPieces fmt).flatMap AlogPiece.items).length ≤ (prog.map AlogInstr.weight).sum ∧
      (¬ (alogPieces fmt).IsChain MayFollow →
        ((alogPieces fmt).flatMap AlogPiece.items).length < (prog.map AlogInstr.weight).sum) := by
  unfold compileAccessLog
  induction fmt using format_induction with
  | hrun l hl =>
    have hpieces : alogPieces l = l.map .lit := by
      have h := alogPieces_append (s := []) hl
      rwa [List.append_nil, alogPieces, List.append_nil] at h
    have hcovers := CoversItems.nil.literal l
    rw [List.append_nil, List.append_nil] at hcovers
    have hitems : (alogPieces l).flatMap AlogPiece.items = l.map .char := by
      rw [hpieces, flatMap_lits]
    have hchain : (alogPieces l).IsChain MayFollow := by
      rw [hpieces]
      exact isChain_lits l
    rw [hitems]
    exact ⟨alogLiteral l, compileLoop_run hl h₀, fun _ => hcovers, hcovers.weight.ge,
      fun h => absurd hchain h⟩
  | hpiece l s hl ih =>
    rw [alogPieces_append hl, alogPieces_percent] at hcut ⊢
    have hnow : ∀ flags, (alogPiece s).1 ≠ .cut flags := fun flags h =>
      hcut flags (List.mem_append_right _ (h ▸ List.mem_cons_self))
    obtain ⟨prog, hprog, hcovers, hle, hlt⟩ := ih (notMem_alogPiece h₀) fun flags h =>
      hcut flags (List.mem_append_right _ (List.mem_cons_of_mem _ h))
    have hitems : (l.map AlogPiece.lit ++ (alogPiece s).1 :: alogPieces (alogPiece s).2).flatMap
        AlogPiece.items = l.map .char ++ ((alogPiece s).1.items ++
          (alogPieces (alogPiece s).2).flatMap AlogPiece.items) := by
      rw [List.flatMap_append, flatMap_lits, List.flatMap_cons]
    have hweight := (alogPiece s).1.le_weight l
    rw [isChain_follows (beginsPiece s).ne_lit, hitems, List.append_assoc, List.cons_append,
      compileLoop_piece hl h₀ hnow, hprog]
    refine ⟨alogLiteral l ++ (alogPiece s).1.instr l :: prog, rfl, fun hchain => ?_, ?_⟩
    · exact ((hcovers hchain.2).cons (beginsPiece s).ne_lit hchain.1).literal l
    · simp only [List.length_append, List.length_map, List.map_append, List.map_cons,
        List.sum_append, List.sum_cons, weight_literal]
      refine ⟨by omega, fun hchain => ?_⟩
      by_cases hknown : l ≠ [] → (alogPiece s).1.Known
      · have := hlt fun h => hchain ⟨hknown, h⟩
        omega
      · have := hweight.2 hknown
        omega

/-- **The program of a format covers it** exactly where the format does not
end inside a directive, and no directive that is not known stands behind a
literal character. -/
theorem compileAccessLog_iff (fmt : CText) :
    CompilesExactly fmt.bytes ↔ FormatClean fmt.bytes := by
  constructor
  · rintro ⟨prog, hprog, hcovers⟩
    have hcut : ∀ flags, .cut flags ∉ alogPieces fmt.bytes := by
      intro flags h
      rw [compileAccessLog_cut fmt.null_notMem h] at hprog
      cases hprog
    refine ⟨hcut, ?_⟩
    obtain ⟨prog', hprog', -, -, hlt⟩ := compileAccessLog_spec fmt.null_notMem hcut
    rw [hprog] at hprog'
    obtain rfl := Except.ok.inj hprog'
    by_contra hchain
    have := hlt hchain
    rw [hcovers.weight] at this
    exact lt_irrefl _ this
  · rintro ⟨hcut, hchain⟩
    obtain ⟨prog, hprog, hcovers, -⟩ := compileAccessLog_spec fmt.null_notMem hcut
    exact ⟨prog, hprog, hcovers hchain⟩

/-- The text before a directive that is not known is printed twice. -/
theorem compileAccessLog_unknown :
    compileAccessLog (ascii "ab%Z") =
        .ok [⟨.print, some (ascii "ab")⟩, ⟨.print, some (ascii "ab%Z")⟩] ∧
      ¬ CompilesExactly (ascii "ab%Z") := by
  have hprog : compileAccessLog (ascii "ab%Z") =
      .ok [⟨.print, some (ascii "ab")⟩, ⟨.print, some (ascii "ab%Z")⟩] := by
    decide +kernel
  refine ⟨hprog, ?_⟩
  rintro ⟨prog, h, hcovers⟩
  rw [hprog] at h
  obtain rfl := Except.ok.inj h
  have hweight := hcovers.weight
  revert hweight
  have hpieces : alogPieces (ascii "ab%Z") = [.lit 97, .lit 98, .conv [] none 90] := by
    decide +kernel
  rw [hpieces]
  decide

end Formats

end Dico
