import Dico.Gcide.Entities
import Mathlib.Data.List.TakeWhile
/-!
# The scanner of the markup

The rules of `markup.l`. At each place the scanner takes the longest text
that one of them matches; behind a `<` no two of them match, and what none
matches is taken byte by byte. A comment goes on to the end tag that
belongs to its beginning.
-/

namespace Dico

/-- `[a-zA-Z]`. -/
def isLetter (c : UInt8) : Bool := decide (97 ≤ c ∧ c ≤ 122 ∨ 65 ≤ c ∧ c ≤ 90)

/-- `[0-9a-f]`. -/
def isXd (c : UInt8) : Bool := decide (48 ≤ c ∧ c ≤ 57 ∨ 97 ≤ c ∧ c ≤ 102)

/-- `[a-zA-Z0-9]`. -/
def isLetterOrDigit (c : UInt8) : Bool := isLetter c || decide (48 ≤ c ∧ c ≤ 57)

/-- What the scanner takes at once. Of a tag or an entity, the first byte of
its name and the others. -/
inductive MarkupToken
  /-- `<--` or `<!`. -/
  | comment (dashes : Bool)
  | opening (c : UInt8) (s : Bytes)
  | closing (c : UInt8) (s : Bytes)
  | entity (c : UInt8) (s : Bytes)
  /-- A mark of the Greek transliteration. -/
  | accent (c : UInt8)
  /-- `\'` and two digits. -/
  | escape (a b : UInt8)
  | cr
  | char (c : UInt8)
  deriving DecidableEq

namespace MarkupToken

/-- `yyleng`. -/
def leng : MarkupToken → ℕ
  | comment dashes => if dashes = true then 3 else 2
  | opening _ s => s.length + 3
  | closing _ s => s.length + 4
  | entity _ s => s.length + 3
  | escape _ _ => 4
  | _ => 1

theorem leng_pos (t : MarkupToken) : 1 ≤ t.leng := by
  cases t with
  | comment dashes => cases dashes <;> decide
  | opening c s => exact Nat.le_add_left _ _
  | closing c s => exact Nat.le_add_left _ _
  | entity c s => exact Nat.le_add_left _ _
  | accent c => exact le_rfl
  | escape a b => exact Nat.le_add_left 1 3
  | cr => exact le_rfl
  | char c => exact le_rfl

end MarkupToken

/-- The bytes up to the first that stops them, if that is `e`, and what
follows it. -/
def scanUntil (stop : UInt8 → Bool) (e : UInt8) (s : Bytes) : Option (Bytes × Bytes) :=
  match s.dropWhile fun b => !stop b with
  | [] => none
  | b :: r => if b = e then some (s.takeWhile fun b => !stop b, r) else none

/-- The rules for what follows a `<`. -/
def scanTag : Bytes → Option (MarkupToken × Bytes)
  | 45 :: 45 :: r => some (.comment true, r)
  | 33 :: r => some (.comment false, r)
  | 47 :: c :: r =>
    if isLetter c = true then
      (scanUntil (fun b => b == 62) 62 r).map fun p => (.closing c p.1, p.2)
    else none
  | c :: r =>
    if isLetter c = true ∧ (scanUntil (fun b => b == 47 || b == 62) 62 r).isSome = true then
      (scanUntil (fun b => b == 47 || b == 62) 62 r).map fun p => (.opening c p.1, p.2)
    else if isLetter c = true ∨ c = 63 then
      (scanUntil (fun b => !isLetterOrDigit b) 47 r).map fun p => (.entity c p.1, p.2)
    else none
  | [] => none

/-- The rule for what follows a backslash. -/
def scanEscape : Bytes → Option (MarkupToken × Bytes)
  | 39 :: a :: b :: r => if isXd a = true ∧ isXd b = true then some (.escape a b, r) else none
  | _ => none

/-- The token at a place, and what follows it. -/
def nextToken (c : UInt8) (rest : Bytes) : MarkupToken × Bytes :=
  if c = 60 then (scanTag rest).getD (.char c, rest)
  else if c = 34 ∨ c = 42 ∨ c = 96 then (.accent c, rest)
  else if c = 92 then (scanEscape rest).getD (.char c, rest)
  else if c = 13 then (.cr, rest)
  else (.char c, rest)

/-! ## Lengths -/

section Lengths

variable {c : UInt8} {rest : Bytes}

/-- The bytes, the one that stops them, and the rest. -/
theorem scanUntil_length {stop : UInt8 → Bool} {e : UInt8} {s : Bytes} {p : Bytes × Bytes}
    (h : scanUntil stop e s = some p) : p.1.length + p.2.length + 1 = s.length := by
  have hcut := congrArg List.length
    (List.takeWhile_append_dropWhile (p := fun b => !stop b) (l := s))
  rw [scanUntil] at h
  cases hdrop : s.dropWhile fun b => !stop b with
  | nil => rw [hdrop] at h; cases h
  | cons b r =>
    rw [hdrop] at h hcut
    dsimp only at h
    split_ifs at h
    obtain rfl := Option.some.inj h
    rw [List.length_append, List.length_cons] at hcut
    dsimp only
    omega

theorem scanTag_length {r : MarkupToken × Bytes} (h : scanTag rest = some r) :
    r.1.leng + r.2.length = rest.length + 1 := by
  unfold scanTag at h
  split at h
  · obtain rfl := Option.some.inj h
    simp only [MarkupToken.leng, if_true, List.length_cons]
    omega
  · obtain rfl := Option.some.inj h
    simp only [MarkupToken.leng, Bool.false_eq_true, if_false, List.length_cons]
    omega
  · split_ifs at h
    obtain ⟨p, hp, rfl⟩ := Option.map_eq_some_iff.1 h
    have hlen := scanUntil_length hp
    simp only [MarkupToken.leng, List.length_cons]
    omega
  · split_ifs at h
    all_goals
      obtain ⟨p, hp, rfl⟩ := Option.map_eq_some_iff.1 h
      have hlen := scanUntil_length hp
      simp only [MarkupToken.leng, List.length_cons]
      omega
  · cases h

theorem scanEscape_length {r : MarkupToken × Bytes} (h : scanEscape rest = some r) :
    r.1.leng + r.2.length = rest.length + 1 := by
  unfold scanEscape at h
  split at h
  · split_ifs at h
    obtain rfl := Option.some.inj h
    simp only [MarkupToken.leng, List.length_cons]
    omega
  · cases h

/-- **The token and the rest are all there was.** -/
theorem nextToken_length (c : UInt8) (rest : Bytes) :
    (nextToken c rest).1.leng + (nextToken c rest).2.length = rest.length + 1 := by
  have hchar : ∀ r : Option (MarkupToken × Bytes),
      (∀ p, r = some p → p.1.leng + p.2.length = rest.length + 1) →
      (r.getD (.char c, rest)).1.leng + (r.getD (.char c, rest)).2.length = rest.length + 1 := by
    intro r hr
    cases r with
    | none => exact Nat.add_comm 1 _
    | some p => exact hr p rfl
  unfold nextToken
  split_ifs
  · exact hchar _ fun p => scanTag_length
  · exact Nat.add_comm 1 _
  · exact hchar _ fun p => scanEscape_length
  · exact Nat.add_comm 1 _
  · exact Nat.add_comm 1 _

/-- Every token takes something. -/
theorem nextToken_lt (c : UInt8) (rest : Bytes) :
    (nextToken c rest).2.length < rest.length + 1 := by
  have hlen := nextToken_length c rest
  have hpos := (nextToken c rest).1.leng_pos
  omega

end Lengths

/-! ## The tokens of an article -/

/-- The end tag of a comment. -/
def endtag (dashes : Bool) : Bytes := if dashes = true then ascii "-->" else ascii "!>"

/-- The rule of a comment: a word that ends with `>`. -/
def scanWord (c : UInt8) (rest : Bytes) : Option (Bytes × Bytes) :=
  if c = 60 ∨ c = 32 ∨ c = 9 then none
  else (scanUntil (fun b => b == 32 || b == 9 || b == 62) 62 rest).map fun p =>
    (c :: (p.1 ++ [62]), p.2)

theorem scanWord_length {c : UInt8} {rest : Bytes} {p : Bytes × Bytes}
    (h : scanWord c rest = some p) : p.2.length < rest.length + 1 := by
  rw [scanWord] at h
  split_ifs at h
  obtain ⟨q, hq, rfl⟩ := Option.map_eq_some_iff.1 h
  have hlen := scanUntil_length hq
  dsimp only
  omega

/-- What follows a comment. -/
def skipComment (dashes : Bool) : Bytes → Bytes
  | [] => []
  | c :: rest =>
    match _h : scanWord c rest with
    | none => skipComment dashes rest
    | some p =>
      -- `strcmp`: the word may have a null in it.
      if p.1.takeWhile (· ≠ 0) = endtag dashes then p.2 else skipComment dashes p.2
termination_by s => s.length
decreasing_by
  · exact Nat.lt_succ_self _
  · exact scanWord_length _h

theorem skipComment_length (dashes : Bool) (s : Bytes) :
    (skipComment dashes s).length ≤ s.length := by
  fun_induction skipComment dashes s with
  | case1 => exact le_rfl
  | case2 c rest h ih => exact ih.trans (Nat.le_succ _)
  | case3 c rest p h hend => exact (scanWord_length h).le
  | case4 c rest p h hend ih => exact ih.trans (scanWord_length h).le

/-- The tokens that are scanned, but for what is in comments. -/
def markupTokens : Bytes → List MarkupToken
  | [] => []
  | c :: rest =>
    match (nextToken c rest).1 with
    | .comment dashes => .comment dashes :: markupTokens (skipComment dashes (nextToken c rest).2)
    | t => t :: markupTokens (nextToken c rest).2
termination_by s => s.length
decreasing_by
  · exact (skipComment_length _ _).trans_lt (nextToken_lt c rest)
  · exact nextToken_lt c rest

/-- What is taken of an article. -/
def taken (ts : List MarkupToken) : ℕ := (ts.map MarkupToken.leng).sum

/-- **The tokens are no longer than the article.** -/
theorem taken_markupTokens (s : Bytes) : taken (markupTokens s) ≤ s.length := by
  fun_induction markupTokens s with
  | case1 => exact le_rfl
  | case2 c rest dashes htok ih =>
    have hlen := nextToken_length c rest
    have hskip := skipComment_length dashes (nextToken c rest).2
    rw [htok] at hlen
    rw [taken, List.map_cons, List.sum_cons, ← taken, List.length_cons]
    omega
  | case3 c rest htok ih =>
    have hlen := nextToken_length c rest
    rw [taken, List.map_cons, List.sum_cons, ← taken, List.length_cons]
    omega

/-- The first byte of an entity and the others are no slashes. -/
def MarkupToken.Scanned : MarkupToken → Prop
  | .entity c s => 47 ∉ c :: s
  | _ => True

/-- No byte before the one that stops a rule does. -/
theorem scanUntil_stop {stop : UInt8 → Bool} {e : UInt8} {s : Bytes} {p : Bytes × Bytes}
    (h : scanUntil stop e s = some p) : ∀ b ∈ p.1, stop b = false := by
  unfold scanUntil at h
  split at h
  · cases h
  · split_ifs at h
    obtain rfl := Option.some.inj h
    intro b hb
    have hgo := List.mem_takeWhile_imp hb
    rwa [Bool.not_eq_true'] at hgo

theorem scanTag_scanned {rest : Bytes} {r : MarkupToken × Bytes} (h : scanTag rest = some r) :
    r.1.Scanned := by
  unfold scanTag at h
  split at h
  · obtain rfl := Option.some.inj h
    trivial
  · obtain rfl := Option.some.inj h
    trivial
  · split_ifs at h
    obtain ⟨p, hp, rfl⟩ := Option.map_eq_some_iff.1 h
    trivial
  · split_ifs at h with hopen hname
    · obtain ⟨p, hp, rfl⟩ := Option.map_eq_some_iff.1 h
      trivial
    · obtain ⟨p, hp, rfl⟩ := Option.map_eq_some_iff.1 h
      rintro hmem
      rcases List.mem_cons.1 hmem with hfirst | hlater
      · rw [← hfirst] at hname
        exact absurd hname (by decide)
      · exact absurd (scanUntil_stop hp 47 hlater) (by decide)
  · cases h

theorem nextToken_scanned (c : UInt8) (rest : Bytes) : (nextToken c rest).1.Scanned := by
  have hchar : ∀ r : Option (MarkupToken × Bytes), (∀ p, r = some p → p.1.Scanned) →
      (r.getD (.char c, rest)).1.Scanned := by
    intro r hr
    cases r with
    | none => trivial
    | some p => exact hr p rfl
  unfold nextToken
  split_ifs
  · exact hchar _ fun p => scanTag_scanned
  · trivial
  · refine hchar _ fun p hp => ?_
    unfold scanEscape at hp
    split at hp
    · split_ifs at hp
      obtain rfl := Option.some.inj hp
      trivial
    · cases hp
  · trivial
  · trivial

/-- **So it is for every token of an article.** -/
theorem markupTokens_scanned (s : Bytes) : ∀ t ∈ markupTokens s, t.Scanned := by
  fun_induction markupTokens s with
  | case1 => exact fun t ht => absurd ht List.not_mem_nil
  | case2 c rest dashes htok ih => exact List.forall_mem_cons.2 ⟨trivial, ih⟩
  | case3 c rest htok ih => exact List.forall_mem_cons.2 ⟨nextToken_scanned c rest, ih⟩

example : nextToken 60 (ascii "th/x") = (.entity 116 [104], ascii "x") := by decide

end Dico
