import Dico.Gcide.Output
/-!
# Whether the output keeps the text

A text is to be written with all of its bytes, unless it is in a suppressed
`pr` tag. The flags of `print_text` tell the latter by the last `pr` tag
that began or ended, and within the tag `as` a text is written only where
the fourth byte of it is a blank or a punctuation mark.
-/

namespace Dico

/-! ## The visits before a text -/

/-- The beginning or the end of a tag with a name. -/
def TagVisit.boundary {α : Type} : TagVisit α → Option (Bool × Bytes)
  | .opening (name :: _) => some (true, name)
  | .closing (name :: _) => some (false, name)
  | _ => none

section Before

variable {α : Type}

/-- The tags that began or ended. -/
def boundaries (vs : List (TagVisit α)) : List (Bool × Bytes) := vs.filterMap TagVisit.boundary

/-- The `pr` tags among them. -/
def prBoundaries (vs : List (TagVisit α)) : List (Bool × Bytes) :=
  (boundaries vs).filter fun b => b.2 == ascii "pr"

/-- How many `pr` tags are open. -/
def prDepth (vs : List (TagVisit α)) : ℕ :=
  (prBoundaries vs).foldl (fun d b => if b.1 = true then d + 1 else d - 1) 0

/-- **The text that comes next is in a suppressed `pr` tag.** -/
def Suppressed (nopr : Bool) (vs : List (TagVisit α)) : Prop := nopr = true ∧ 0 < prDepth vs

/-- The last `pr` tag that began or ended did begin. -/
def PrBegun (vs : List (TagVisit α)) : Prop :=
  (prBoundaries vs).getLast? = some (true, ascii "pr")

/-- The last tag that began or ended is an `as` that began. -/
def BehindAs (vs : List (TagVisit α)) : Prop :=
  (boundaries vs).getLast? = some (true, ascii "as")

instance (nopr : Bool) (vs : List (TagVisit α)) : Decidable (Suppressed nopr vs) :=
  inferInstanceAs (Decidable (_ ∧ _))

end Before

/-! ## The text that is written -/

/-- The bytes of a text in some chunks. -/
def copied : List Chunk → Bytes
  | [] => []
  | .copy s :: cs => s ++ copied cs
  | _ :: cs => copied cs

/-- What may be written of a text: bytes of it, quotation marks, and tags
for a subscript. -/
def Chunk.OfText : Chunk → Prop
  | .copy _ => True
  | .insert s => s = utf8 "“"
  | .start elem attr => elem = ascii "sub" ∧ attr = []
  | .stop elem => elem = ascii "sub"
  | .empty _ => False

/-- **A text appears**: all of its bytes in order, with marks in between. -/
def Appears (t : TextNode) (cs : List Chunk) : Prop :=
  copied cs = t.text.bytes ∧ ∀ x ∈ cs, x.OfText

/-- What is written at a visit after others. -/
def writtenAt (c : Ctype) (nopr : Bool) (vs : List (TagVisit TextNode)) (v : TagVisit TextNode) :
    List Chunk := (printText c v (printVisits c vs { nopr := nopr }).2).1

/-- **Every text of a tree appears, unless it is in a suppressed `pr` tag:
then nothing of it does.** -/
def KeepsText (c : Ctype) (nopr : Bool) (root : GcideTag TextNode) : Prop :=
  ∀ vs t ws, root.visits = vs ++ .text t :: ws →
    (Suppressed nopr vs → copied (writtenAt c nopr vs (.text t)) = []) ∧
      (¬Suppressed nopr vs → Appears t (writtenAt c nopr vs (.text t)))

/-- The output has what is written at a visit in the place of the visit. -/
theorem outputTree_split {c : Ctype} {nopr : Bool} {root : GcideTag TextNode}
    {vs ws : List (TagVisit TextNode)} {v : TagVisit TextNode} (h : root.visits = vs ++ v :: ws) :
    outputTree c nopr root = (printVisits c vs { nopr := nopr }).1 ++
      (writtenAt c nopr vs v ++
        (printVisits c ws (printVisits c (vs ++ [v]) { nopr := nopr }).2).1) := by
  rw [outputTree_eq, h, printVisits_append, printVisits_cons, writtenAt, printVisits_append,
    printVisits_cons, printVisits]

/-! ## The flags -/

section Flags

variable {c : Ctype} {nopr : Bool} {flags : OutputFlags} {name : Bytes}
  {vs : List (TagVisit TextNode)} {v : TagVisit TextNode} {b : Bool × Bytes}

theorem boundaries_snoc (h : v.boundary = some b) :
    boundaries (vs ++ [v]) = boundaries vs ++ [b] := by
  rw [boundaries, List.filterMap_append, List.filterMap_cons_some h, List.filterMap_nil, boundaries]

theorem boundaries_snoc_of_none (h : v.boundary = none) :
    boundaries (vs ++ [v]) = boundaries vs := by
  rw [boundaries, List.filterMap_append, List.filterMap_cons_none h, List.filterMap_nil,
    List.append_nil, boundaries]

/-- The last tag after one that began or ended. -/
theorem behindAs_snoc (h : v.boundary = some b) :
    BehindAs (vs ++ [v]) ↔ b = (true, ascii "as") := by
  rw [BehindAs, boundaries_snoc h, List.getLast?_append, List.getLast?_singleton]
  simp only [Option.some_or, Option.some.injEq]

/-- And the last `pr` tag. -/
theorem prBegun_snoc (h : v.boundary = some b) :
    PrBegun (vs ++ [v]) ↔ if b.2 = ascii "pr" then b.1 = true else PrBegun vs := by
  rw [PrBegun, prBoundaries, boundaries_snoc h, List.filter_append, List.filter_singleton]
  by_cases hpr : b.2 = ascii "pr"
  · rw [if_pos hpr, beq_iff_eq.2 hpr, cond_true, List.getLast?_append, List.getLast?_singleton]
    simp only [Option.some_or, Option.some.injEq, Prod.ext_iff, hpr, and_true]
  · rw [if_neg hpr, beq_false_of_ne hpr, cond_false, List.append_nil]
    rfl

/-- Where the last `pr` tag did begin, one is open. -/
theorem prDepth_pos (h : PrBegun vs) : 0 < prDepth vs := by
  obtain ⟨bs, hbs⟩ := List.getLast?_eq_some_iff.1 h
  rw [prDepth, hbs, List.foldl_append]
  exact Nat.succ_pos _

/-- The flags after one more visit. -/
theorem flags_snoc : (printVisits c (vs ++ [v]) flags).2 =
    (printText c v (printVisits c vs flags).2).2 := by
  rw [printVisits_append, printVisits_cons, printVisits]

/-- A visit that is not to the beginning or the end of a tag with a name. -/
theorem printText_of_none (h : v.boundary = none) : (printText c v flags).2 = flags := by
  cases v with
  | unspecified parmv => rfl
  | text t => rfl
  | opening parmv =>
    cases parmv with
    | nil => rfl
    | cons name args => cases h
  | closing parmv =>
    cases parmv with
    | nil => rfl
    | cons name args => cases h

/-- A visit that is. -/
theorem printText_of_some (h : v.boundary = some b) : (printText c v flags).2 =
    if b.1 = true then (openTag b.2 flags.plain).2 else (closeTag b.2 flags.plain).2 := by
  cases v with
  | unspecified parmv => cases h
  | text t => cases h
  | opening parmv =>
    cases parmv with
    | nil => cases h
    | cons name args =>
      obtain rfl := Option.some.inj h
      rfl
  | closing parmv =>
    cases parmv with
    | nil => cases h
    | cons name args =>
      obtain rfl := Option.some.inj h
      rfl

/-- `GCIDE_NOPR` stays. -/
theorem nopr_after : (printVisits c vs { nopr := nopr }).2.nopr = nopr := by
  induction vs using List.reverseRecOn with
  | nil => rfl
  | append_singleton vs v ih =>
    rw [flags_snoc]
    cases hv : v.boundary with
    | none => rw [printText_of_none hv, ih]
    | some b =>
      rw [printText_of_some hv]
      split_ifs
      · rw [nopr_openTag]; exact ih
      · rw [nopr_closeTag]; exact ih

/-- **A text is ignored where the last `pr` tag did begin.** -/
theorem ignore_after :
    (printVisits c vs { nopr := nopr }).2.ignore = true ↔ nopr = true ∧ PrBegun vs := by
  induction vs using List.reverseRecOn with
  | nil =>
    exact ⟨fun h => absurd h Bool.false_ne_true, fun h => absurd h.2 (Option.some_ne_none _).symm⟩
  | append_singleton vs v ih =>
    rw [flags_snoc]
    cases hv : v.boundary with
    | none =>
      rw [printText_of_none hv, ih, PrBegun, PrBegun, prBoundaries, prBoundaries,
        boundaries_snoc_of_none hv]
    | some b =>
      have hnopr : (printVisits c vs { nopr := nopr }).2.plain.nopr = nopr := nopr_after
      rw [printText_of_some hv, prBegun_snoc hv]
      by_cases hsup : b.2 = ascii "pr" ∧ nopr = true
      · have hsup' : b.2 = ascii "pr" ∧
            (printVisits c vs { nopr := nopr }).2.plain.nopr = true := by
          rwa [hnopr]
        rw [if_pos hsup.1, openTag, if_pos hsup', closeTag, if_pos hsup']
        split_ifs with hb
        · exact ⟨fun _ => ⟨hsup.2, hb⟩, fun _ => rfl⟩
        · exact ⟨fun h => h.elim, fun h => absurd h.2 hb⟩
      · have hflag : (if b.1 = true then (openTag b.2 (printVisits c vs { nopr := nopr }).2.plain).2
            else (closeTag b.2 (printVisits c vs { nopr := nopr }).2.plain).2).ignore =
            (printVisits c vs { nopr := nopr }).2.ignore := by
          split_ifs
          · exact ignore_openTag (by rwa [hnopr])
          · exact ignore_closeTag (by rwa [hnopr])
        rw [hflag, ih]
        refine and_congr_right fun hn => ?_
        rw [if_neg fun hb => hsup ⟨hb, hn⟩]

/-- **It is quoted behind the beginning of an `as` that is not ignored.** -/
theorem as_after :
    (printVisits c vs { nopr := nopr }).2.as = true ↔
      BehindAs vs ∧ ¬(nopr = true ∧ PrBegun vs) := by
  induction vs using List.reverseRecOn with
  | nil =>
    exact ⟨fun h => absurd h Bool.false_ne_true, fun h => absurd h.1 (Option.some_ne_none _).symm⟩
  | append_singleton vs v ih =>
    cases hv : v.boundary with
    | none =>
      rw [flags_snoc, printText_of_none hv, ih, PrBegun, PrBegun, prBoundaries, prBoundaries,
        BehindAs, BehindAs, boundaries_snoc_of_none hv]
    | some b =>
      have hign := @ignore_after c nopr (vs ++ [v])
      rw [flags_snoc, printText_of_some hv] at hign
      rw [flags_snoc, printText_of_some hv, behindAs_snoc hv, ← hign, Prod.ext_iff]
      by_cases hb : b.1 = true
      · rw [if_pos hb, as_openTag]
        simp only [hb, true_and]
      · rw [if_neg hb, as_closeTag]
        exact ⟨fun h => absurd h Bool.false_ne_true, fun h => absurd h.1.1 hb⟩

end Flags

/-! ## A text -/

section Texts

variable {c : Ctype} {flags : OutputFlags} {t : TextNode} {cs ds : List Chunk}

theorem copied_append : copied (cs ++ ds) = copied cs ++ copied ds := by
  induction cs with
  | nil => rfl
  | cons x cs ih => cases x <;> simp only [List.cons_append, copied, ih, List.append_assoc]

/-- Bytes that are copied one by one. -/
theorem copied_copies (s : Bytes) : copied (s.map fun b => .copy [b]) = s := by
  induction s with
  | nil => rfl
  | cons b s ih => rw [List.map_cons, copied, ih, List.singleton_append]

/-- A chemical formula keeps its text. -/
theorem copied_chemChunks (s : Bytes) : copied (chemChunks s) = s := by
  induction s using chemChunks.induct with
  | case1 => rw [chemChunks, copied]
  | case2 c s hc ih => rw [chemChunks, if_pos hc, copied, ih, List.singleton_append]
  | case3 c s hc ih =>
    have hdigit : isDigit c = true := Bool.not_eq_false _ ▸ hc
    rw [chemChunks, if_neg hc, List.cons_append]
    simp only [copied, copied_append, copied_copies, ih]
    rw [List.takeWhile_cons_of_pos hdigit, List.cons_append, List.takeWhile_append_dropWhile]

/-- Behind an `as` that has the form the code expects, so does a text of
four bytes and more. -/
theorem copied_asChunks (h : t.asForm c = true) :
    copied (asChunks c t) = t.memory.take 3 ++ (t.memory.drop 3).takeWhile (· ≠ 0) := by
  rw [asChunks, if_pos h]
  simp only [List.cons_append, copied, copied_append, copied_copies, List.append_nil,
    List.takeWhile_append_dropWhile]

/-- A text of this form has two bytes, and not three: its fourth byte is not
the null. -/
theorem length_of_asForm (h : t.asForm c = true) :
    2 ≤ t.text.bytes.length ∧ t.text.bytes.length ≠ 3 := by
  rw [TextNode.asForm, Bool.and_eq_true, beq_iff_eq] at h
  refine ⟨?_, fun hlen => ?_⟩
  · have htwo := congrArg List.length h.1
    rw [List.length_take, show (ascii "as").length = 2 from rfl] at htwo
    omega
  · have hnull : t.memory.getD 3 0 = 0 := by
      rw [TextNode.memory, ← hlen, List.getD_eq_getElem?_getD, List.getElem?_append_right le_rfl,
        Nat.sub_self]
      rfl
    rw [hnull, c.isspace_null, c.ispunct_null] at h
    exact absurd h.2 Bool.false_ne_true

/-- At least three bytes are copied. -/
theorem length_copied_asChunks (h : t.asForm c = true) : 3 ≤ (copied (asChunks c t)).length := by
  have hlen := (length_of_asForm h).1
  rw [copied_asChunks h, List.length_append, List.length_take, TextNode.memory, List.length_append,
    List.length_cons]
  omega

/-- They are the text exactly if that has four bytes. -/
theorem copied_asChunks_eq_iff (h : t.asForm c = true) :
    copied (asChunks c t) = t.text.bytes ↔ 4 ≤ t.text.bytes.length := by
  constructor
  · intro heq
    have hthree := length_copied_asChunks h
    have hnot := (length_of_asForm h).2
    rw [heq] at hthree
    omega
  · intro hlen
    rw [copied_asChunks h]
    have hdrop : t.memory.drop 3 = t.text.bytes.drop 3 ++ 0 :: (t.behind.bytes ++ [0]) := by
      rw [TextNode.memory, List.drop_append_of_le_length (by omega)]
    have hnull : ∀ b ∈ t.text.bytes.drop 3, decide (b ≠ 0) = true := fun b hb =>
      decide_eq_true fun h0 => t.text.null_notMem (h0 ▸ List.mem_of_mem_drop hb)
    rw [hdrop, List.takeWhile_append_of_pos hnull, List.takeWhile_cons_of_neg (by decide),
      List.append_nil, TextNode.memory, List.take_append_of_le_length (by omega),
      List.take_append_drop]

/-- A text that has another form is dropped. -/
theorem copied_asChunks_of_not (h : ¬t.asForm c = true) : copied (asChunks c t) = [] := by
  rw [asChunks, if_neg h]
  rfl

/-- What is written of a text. -/
theorem ofText_textChunks : ∀ x ∈ textChunks c flags t, x.OfText := by
  have hcopies : ∀ (s : Bytes), ∀ x ∈ s.map fun b => Chunk.copy [b], x.OfText := by
    intro s x hx
    obtain ⟨b, -, rfl⟩ := List.mem_map.1 hx
    trivial
  have hchem : ∀ s, ∀ x ∈ chemChunks s, x.OfText := by
    intro s
    induction s using chemChunks.induct with
    | case1 =>
      rw [chemChunks]
      exact fun x hx => absurd hx List.not_mem_nil
    | case2 c s hc ih =>
      rw [chemChunks, if_pos hc]
      exact List.forall_mem_cons.2 ⟨trivial, ih⟩
    | case3 c s hc ih =>
      rw [chemChunks, if_neg hc, List.cons_append]
      exact List.forall_mem_cons.2 ⟨⟨rfl, rfl⟩, List.forall_mem_append.2
        ⟨hcopies _, List.forall_mem_cons.2 ⟨rfl, ih⟩⟩⟩
  unfold textChunks asChunks
  split_ifs
  · exact fun x hx => absurd hx List.not_mem_nil
  · rw [List.cons_append]
    exact List.forall_mem_cons.2 ⟨trivial, List.forall_mem_append.2 ⟨hcopies _,
      List.forall_mem_cons.2 ⟨rfl, List.forall_mem_singleton.2 trivial⟩⟩⟩
  · exact List.forall_mem_singleton.2 rfl
  · exact hchem _
  · exact List.forall_mem_singleton.2 trivial

/-- A text that is neither ignored nor quoted is copied. -/
theorem copied_textChunks (hign : ¬flags.ignore = true) (has : ¬flags.as = true) :
    copied (textChunks c flags t) = t.text.bytes := by
  rw [textChunks, if_neg hign, if_neg has]
  split_ifs
  · exact copied_chemChunks _
  · rw [copied, copied, List.append_nil]

end Texts

/-! ## Trees -/

/-- **Where a text is kept.** Within a suppressed `pr` tag it is not written
if no `pr` tag ended since the last one began. A text behind the beginning
of an `as` is written only if it has the form that the code expects. -/
structure TextClear (c : Ctype) (nopr : Bool) (vs : List (TagVisit TextNode)) (t : TextNode) :
    Prop where
  inside : Suppressed nopr vs →
    PrBegun vs ∨ t.text.bytes = [] ∨ BehindAs vs ∧ ¬t.asForm c = true
  outside : ¬Suppressed nopr vs → BehindAs vs →
    t.text.bytes = [] ∨ t.asForm c = true ∧ 4 ≤ t.text.bytes.length

/-- **A text that is suppressed is not written exactly there.** -/
theorem dropped_iff {c : Ctype} {nopr : Bool} {vs : List (TagVisit TextNode)} {t : TextNode}
    (hsup : Suppressed nopr vs) :
    copied (writtenAt c nopr vs (.text t)) = [] ↔
      PrBegun vs ∨ t.text.bytes = [] ∨ BehindAs vs ∧ ¬t.asForm c = true := by
  have hign := @ignore_after c nopr vs
  have has := @as_after c nopr vs
  rw [← hign] at has
  change copied (textChunks c (printVisits c vs { nopr := nopr }).2 t) = [] ↔ _
  by_cases hbegun : PrBegun vs
  · rw [textChunks, if_pos (hign.2 ⟨hsup.1, hbegun⟩)]
    exact iff_of_true rfl (.inl hbegun)
  have hnot : ¬(printVisits c vs { nopr := nopr }).2.ignore = true := fun hi =>
    hbegun (hign.1 hi).2
  by_cases hbehind : BehindAs vs
  · rw [textChunks, if_neg hnot, if_pos (has.2 ⟨hbehind, hnot⟩)]
    by_cases hform : t.asForm c = true
    · have hthree := length_copied_asChunks hform
      have htwo := (length_of_asForm hform).1
      refine iff_of_false (fun hnil => ?_) ?_
      · rw [hnil] at hthree
        exact absurd hthree (by decide)
      · rintro (h | h | h)
        · exact hbegun h
        · rw [h] at htwo
          exact absurd htwo (by decide)
        · exact h.2 hform
    · exact iff_of_true (copied_asChunks_of_not hform) (.inr (.inr ⟨hbehind, hform⟩))
  · rw [copied_textChunks hnot fun ha => hbehind (has.1 ha).1]
    exact ⟨fun h => .inr (.inl h), fun h => h.elim (absurd · hbegun)
      fun h => h.elim id fun h => absurd h.1 hbehind⟩

/-- **And any other appears.** -/
theorem appears_iff {c : Ctype} {nopr : Bool} {vs : List (TagVisit TextNode)} {t : TextNode}
    (hsup : ¬Suppressed nopr vs) :
    Appears t (writtenAt c nopr vs (.text t)) ↔
      (BehindAs vs → t.text.bytes = [] ∨ t.asForm c = true ∧ 4 ≤ t.text.bytes.length) := by
  have hnot : ¬(printVisits c vs { nopr := nopr }).2.ignore = true := fun hi =>
    hsup ⟨(ignore_after.1 hi).1, prDepth_pos (ignore_after.1 hi).2⟩
  have has := @as_after c nopr vs
  rw [← @ignore_after c nopr vs] at has
  have hmarks : ∀ x ∈ writtenAt c nopr vs (.text t), x.OfText := ofText_textChunks
  rw [Appears, and_iff_left hmarks]
  change copied (textChunks c (printVisits c vs { nopr := nopr }).2 t) = _ ↔ _
  by_cases hbehind : BehindAs vs
  · rw [textChunks, if_neg hnot, if_pos (has.2 ⟨hbehind, hnot⟩)]
    by_cases hform : t.asForm c = true
    · have htwo := (length_of_asForm hform).1
      rw [copied_asChunks_eq_iff hform]
      refine ⟨fun hlen _ => .inr ⟨hform, hlen⟩, fun h => (h hbehind).elim (fun hnil => ?_) (·.2)⟩
      rw [hnil] at htwo
      exact absurd htwo (by decide)
    · rw [copied_asChunks_of_not hform]
      exact ⟨fun hnil _ => .inl hnil.symm, fun h => (h hbehind).elim Eq.symm
        fun h => absurd h.1 hform⟩
  · exact iff_of_true (copied_textChunks hnot fun ha => hbehind (has.1 ha).1)
      fun h => absurd h hbehind

/-- **The output keeps the texts exactly where each stands so.** -/
theorem keepsText_iff (c : Ctype) (nopr : Bool) (root : GcideTag TextNode) :
    KeepsText c nopr root ↔
      ∀ vs t ws, root.visits = vs ++ .text t :: ws → TextClear c nopr vs t := by
  constructor
  · intro h vs t ws hvisits
    have hkept := h vs t ws hvisits
    exact ⟨fun hsup => (dropped_iff hsup).1 (hkept.1 hsup),
      fun hsup => (appears_iff hsup).1 (hkept.2 hsup)⟩
  · intro h vs t ws hvisits
    have hclear := h vs t ws hvisits
    exact ⟨fun hsup => (dropped_iff hsup).2 (hclear.inside hsup),
      fun hsup => (appears_iff hsup).2 (hclear.outside hsup)⟩

/-- A text behind the beginning of an `as`, with a blank behind its first
word. -/
def quotedAs : GcideTag TextNode :=
  .taglist [] [.taglist [ascii "as"] [.text ⟨⟨ascii "as foo", by decide⟩, ⟨[], null_notMem_nil⟩⟩]]

/-- Of it the quotation marks are written, and nothing else. -/
theorem outputTree_drops_text :
    outputTree .posix false quotedAs = [.insert (utf8 "“"), .insert (utf8 "”")] ∧
      ¬KeepsText .posix false quotedAs := by
  refine ⟨by decide, fun h => ?_⟩
  have hkept := (h [.opening [], .opening [ascii "as"]]
    ⟨⟨ascii "as foo", by decide⟩, ⟨[], null_notMem_nil⟩⟩
    [.closing [ascii "as"], .closing []] rfl).2 (by decide)
  exact absurd hkept.1 (by decide)

end Dico
