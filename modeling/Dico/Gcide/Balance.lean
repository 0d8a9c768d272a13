import Dico.Gcide.Output
/-!
# Whether the output is well nested

Within a suppressed `pr` tag nothing is written, until the end of another
`pr` tag in it: that clears the flag, and of a tag that encloses the inner
one the end is written and the beginning was not. `balanced_iff` says that
this is all that goes wrong.
-/

namespace Dico

/-- The elements that are open after some chunks, the innermost first; no
result where a closing tag does not match. -/
def nestFrom : List Bytes → List Chunk → Option (List Bytes)
  | st, [] => some st
  | st, .start elem _ :: cs => nestFrom (elem :: st) cs
  | [], .stop _ :: _ => none
  | e :: st, .stop elem :: cs => if e = elem then nestFrom st cs else none
  | st, .copy _ :: cs => nestFrom st cs
  | st, .insert _ :: cs => nestFrom st cs
  | st, .empty _ :: cs => nestFrom st cs

/-- How many elements are opened. -/
def starts : List Chunk → ℕ
  | [] => 0
  | .start _ _ :: cs => starts cs + 1
  | _ :: cs => starts cs

/-- How many are closed. -/
def stops : List Chunk → ℕ
  | [] => 0
  | .stop _ :: cs => stops cs + 1
  | _ :: cs => stops cs

/-- **Well nested chunks**: every tag is closed by its own, and nothing else
is closed. -/
def WellNested (cs : List Chunk) : Prop := nestFrom [] cs = some []

instance : DecidablePred WellNested := fun _ => inferInstanceAs (Decidable (_ = _))

/-- The element a tag is written as, if there is one. -/
def outElem (name : Bytes) : Option Bytes :=
  if name = ascii "as" ∨ isNumberSubscript name = true ∨ name = ascii "p" then none
  else if isVerbatim name = true then some name
  else if isSuperscript name = true then some (ascii "sup")
  else if isSubscript name = true then some (ascii "sub")
  else if isDiv name = true then some (ascii "div")
  else some (ascii "span")

namespace GcideTag

variable {α : Type}

mutual

/-- Whether there is a list of tags under the name `pr` in a tag. -/
def hasPr : GcideTag α → Bool
  | .taglist (name :: _) tags => name == ascii "pr" || anyPr tags
  | .taglist [] tags => anyPr tags
  | _ => false

/-- Or in several. -/
def anyPr : List (GcideTag α) → Bool
  | [] => false
  | t :: ts => hasPr t || anyPr ts

end

mutual

/-- No tag that is written encloses a `pr` tag where it stands itself
between the beginning of a `pr` tag and the first in that. Whether it does
stand there is the argument. -/
def PrClear (within : Bool) : GcideTag α → Prop
  | .taglist (name :: _) tags =>
    if name = ascii "pr" then PrClearAll true tags
    else (within = true → anyPr tags = true → outElem name = none) ∧ PrClearAll within tags
  | .taglist [] tags => PrClearAll within tags
  | _ => True

/-- The same for several. -/
def PrClearAll (within : Bool) : List (GcideTag α) → Prop
  | [] => True
  | t :: ts => PrClear within t ∧ PrClearAll (within && !hasPr t) ts

end

end GcideTag

open GcideTag

/-! ## Chunks -/

section Chunks

variable {c : Ctype} {flags : OutputFlags} {st st' : List Bytes} {cs ds : List Chunk}

/-- Chunks in two parts. -/
theorem nestFrom_append (h : nestFrom st cs = some st') :
    nestFrom st (cs ++ ds) = nestFrom st' ds := by
  induction cs generalizing st with
  | nil =>
    rw [nestFrom] at h
    obtain rfl := Option.some.inj h
    rfl
  | cons x cs ih =>
    rw [List.cons_append]
    cases x with
    | copy s => simp only [nestFrom] at h ⊢; exact ih h
    | insert s => simp only [nestFrom] at h ⊢; exact ih h
    | start elem attr => simp only [nestFrom] at h ⊢; exact ih h
    | empty elem => simp only [nestFrom] at h ⊢; exact ih h
    | stop elem =>
      cases st with
      | nil => cases h
      | cons e st =>
        simp only [nestFrom] at h ⊢
        split_ifs at h ⊢
        exact ih h

/-- Bytes that are copied one by one. -/
theorem nestFrom_copies (s : Bytes) (st : List Bytes) :
    nestFrom st (s.map fun b => .copy [b]) = some st := by
  induction s with
  | nil => rw [List.map_nil, nestFrom]
  | cons b s ih => simpa only [List.map_cons, nestFrom] using ih

/-- A chemical formula is well nested. -/
theorem nestFrom_chemChunks (s : Bytes) (st : List Bytes) :
    nestFrom st (chemChunks s) = some st := by
  induction s using chemChunks.induct with
  | case1 => rw [chemChunks, nestFrom]
  | case2 c s hc ih =>
    rw [chemChunks, if_pos hc]
    simpa only [nestFrom] using ih
  | case3 c s hc ih =>
    rw [chemChunks, if_neg hc, List.cons_append]
    simp only [nestFrom]
    rw [nestFrom_append (nestFrom_copies _ _)]
    simpa only [nestFrom, if_true] using ih

/-- So is any text. -/
theorem nestFrom_textChunks (t : TextNode) (st : List Bytes) :
    nestFrom st (textChunks c flags t) = some st := by
  unfold textChunks asChunks
  split_ifs
  · rw [nestFrom]
  · rw [List.cons_append]
    simp only [nestFrom]
    rw [nestFrom_append (nestFrom_copies _ _)]
    simp only [nestFrom]
  · simp only [nestFrom]
  · exact nestFrom_chemChunks _ st
  · simp only [nestFrom]

/-- What is opened and not closed is open at the end. -/
theorem starts_of_nestFrom (h : nestFrom st cs = some st') :
    st.length + starts cs = st'.length + stops cs := by
  induction cs generalizing st with
  | nil =>
    rw [nestFrom] at h
    obtain rfl := Option.some.inj h
    rfl
  | cons x cs ih =>
    cases x with
    | copy s => simp only [nestFrom] at h; exact ih h
    | insert s => simp only [nestFrom] at h; exact ih h
    | empty elem => simp only [nestFrom] at h; exact ih h
    | start elem attr =>
      simp only [nestFrom] at h
      have hrest := ih h
      simp only [starts, stops, List.length_cons] at hrest ⊢
      omega
    | stop elem =>
      cases st with
      | nil => cases h
      | cons e st =>
        simp only [nestFrom] at h
        split_ifs at h
        have hrest := ih h
        simp only [starts, stops, List.length_cons] at hrest ⊢
        omega

theorem starts_append : starts (cs ++ ds) = starts cs + starts ds := by
  induction cs with
  | nil => rw [List.nil_append, starts, Nat.zero_add]
  | cons x cs ih =>
    cases x <;> simp only [List.cons_append, starts, ih]
    omega

theorem stops_append : stops (cs ++ ds) = stops cs + stops ds := by
  induction cs with
  | nil => rw [List.nil_append, stops, Nat.zero_add]
  | cons x cs ih =>
    cases x <;> simp only [List.cons_append, stops, ih]
    omega

end Chunks

/-! ## The name of a tag -/

/-- No name stands in two lists that have no name in common. -/
theorem isInTags_disjoint {tag : Bytes} {as bs : List String}
    (hdis : (as.all fun a => bs.all fun b => !cStrcaseeq (ascii b) (ascii a)) = true)
    (h : isInTags tag as = true) : isInTags tag bs = false := by
  obtain ⟨a, ha, haeq⟩ := List.any_eq_true.1 h
  rw [isInTags, List.any_eq_false]
  intro b hb hbeq
  have hab : cStrcaseeq (ascii b) (ascii a) = true :=
    beq_iff_eq.2 ((beq_iff_eq.1 hbeq).trans (beq_iff_eq.1 haeq).symm)
  have hnot := List.all_eq_true.1 (List.all_eq_true.1 hdis a ha) b hb
  rw [hab] at hnot
  cases hnot

/-- A verbatim tag is no superscript. -/
theorem isSuperscript_of_isVerbatim {name : Bytes} (h : isVerbatim name = true) :
    isSuperscript name = false := isInTags_disjoint (by decide) h

/-- Nor a subscript. -/
theorem isSubscript_of_isVerbatim {name : Bytes} (h : isVerbatim name = true) :
    isSubscript name = false := isInTags_disjoint (by decide) h

section Tags

variable {flags : OutputFlags} {name : Bytes} {st : List Bytes}

/-- The beginning of a tag opens its element. -/
theorem nestFrom_openTag (hpr : ¬(name = ascii "pr" ∧ flags.nopr = true))
    (hign : ¬flags.ignore = true) :
    nestFrom st (openTag name flags).1 = some ((outElem name).toList ++ st) := by
  rw [openTag, if_neg hpr, if_neg hign, outElem]
  by_cases has : name = ascii "as"
  · simp only [if_pos has, if_pos (Or.inl has), nestFrom, Option.toList, List.nil_append]
  by_cases hnum : isNumberSubscript name = true
  · simp only [if_neg has, if_pos hnum, if_pos (Or.inr (Or.inl hnum)), nestFrom, Option.toList,
      List.nil_append]
  by_cases hp : name = ascii "p"
  · simp only [if_neg has, if_neg hnum, if_pos hp, if_pos (Or.inr (Or.inr hp)), nestFrom,
      Option.toList, List.nil_append]
  have hnone := not_or.2 ⟨has, not_or.2 ⟨hnum, hp⟩⟩
  rw [if_neg has, if_neg hnum, if_neg hp, if_neg hnone]
  by_cases hverb : isVerbatim name = true
  · have hsup : ¬isSuperscript name = true := by
      rw [isSuperscript_of_isVerbatim hverb]; exact Bool.false_ne_true
    have hsub : ¬isSubscript name = true := by
      rw [isSubscript_of_isVerbatim hverb]; exact Bool.false_ne_true
    simp only [if_neg hsup, if_neg hsub, if_pos hverb, nestFrom, Option.toList,
      List.cons_append, List.nil_append]
  · simp only [if_neg hverb]
    split_ifs <;> simp only [nestFrom, Option.toList, List.cons_append, List.nil_append]

/-- And its end closes it. -/
theorem nestFrom_closeTag (hpr : ¬(name = ascii "pr" ∧ flags.nopr = true))
    (hign : ¬flags.ignore = true) :
    nestFrom ((outElem name).toList ++ st) (closeTag name flags).1 = some st := by
  rw [closeTag, if_neg hpr, if_neg hign, outElem]
  by_cases has : name = ascii "as"
  · simp only [if_pos has, if_pos (Or.inl has), nestFrom, Option.toList, List.nil_append]
  by_cases hnum : isNumberSubscript name = true
  · simp only [if_neg has, if_pos hnum, if_pos (Or.inr (Or.inl hnum)), nestFrom, Option.toList,
      List.nil_append]
  by_cases hp : name = ascii "p"
  · simp only [if_neg has, if_neg hnum, if_pos hp, if_pos (Or.inr (Or.inr hp)), nestFrom,
      Option.toList, List.nil_append]
  have hnone := not_or.2 ⟨has, not_or.2 ⟨hnum, hp⟩⟩
  rw [if_neg has, if_neg hnum, if_neg hp, if_neg hnone]
  split_ifs <;> simp only [nestFrom, Option.toList, List.cons_append, List.nil_append, if_true]

/-- Nothing is written of a tag that is ignored. -/
theorem openTag_silent (hpr : ¬(name = ascii "pr" ∧ flags.nopr = true))
    (hign : flags.ignore = true) : (openTag name flags).1 = [] := by
  rw [openTag, if_neg hpr, if_pos hign]

theorem closeTag_silent (hpr : ¬(name = ascii "pr" ∧ flags.nopr = true))
    (hign : flags.ignore = true) : (closeTag name flags).1 = [] := by
  rw [closeTag, if_neg hpr, if_pos hign]

/-- How many elements the beginning of a tag opens. -/
theorem starts_openTag (hpr : ¬(name = ascii "pr" ∧ flags.nopr = true))
    (hign : ¬flags.ignore = true) :
    starts (openTag name flags).1 =
      (outElem name).toList.length + stops (openTag name flags).1 := by
  have hopen : nestFrom [] (openTag name flags).1 = some ((outElem name).toList ++ []) :=
    nestFrom_openTag hpr hign
  have hcount := starts_of_nestFrom hopen
  rwa [List.length_nil, Nat.zero_add, List.append_nil] at hcount

/-- And its end closes. -/
theorem stops_closeTag (hpr : ¬(name = ascii "pr" ∧ flags.nopr = true))
    (hign : ¬flags.ignore = true) :
    stops (closeTag name flags).1 =
      (outElem name).toList.length + starts (closeTag name flags).1 := by
  have hclose : nestFrom ((outElem name).toList ++ []) (closeTag name flags).1 = some [] :=
    nestFrom_closeTag hpr hign
  have hcount := starts_of_nestFrom hclose
  rw [List.append_nil, List.length_nil, Nat.zero_add] at hcount
  exact hcount.symm

end Tags

/-! ## Visits -/

/-- Only a suppressed text is ignored. -/
def Sound (flags : OutputFlags) : Prop := flags.ignore = true → flags.nopr = true

/-- **What some visits write**, where `has` says whether they visit a `pr`
tag, and `clear` whether they are well nested. -/
structure Prints (c : Ctype) (vs : List (TagVisit TextNode)) (has : Bool) (clear : Bool → Prop) :
    Prop where
  nopr : ∀ flags, (printVisits c vs flags).2.nopr = flags.nopr
  ignore : ∀ flags, Sound flags → (printVisits c vs flags).2.ignore = (flags.ignore && !has)
  nested : ∀ flags, Sound flags → (flags.nopr = true → clear flags.ignore) →
    ∀ st, nestFrom st (printVisits c vs flags).1 = some st
  starts_lt : ∀ flags, Sound flags → flags.nopr = true → ¬clear flags.ignore →
    starts (printVisits c vs flags).1 < stops (printVisits c vs flags).1

namespace Prints

variable {c : Ctype} {vs ws : List (TagVisit TextNode)} {has has' : Bool}
  {clear clear' : Bool → Prop} {flags : OutputFlags} {name : Bytes} {args : List Bytes}

theorem sound (h : Prints c vs has clear) (hsound : Sound flags) :
    Sound (printVisits c vs flags).2 := by
  intro hign
  rw [h.ignore flags hsound] at hign
  rw [h.nopr]
  exact hsound (Bool.and_eq_true_iff.1 hign).1

/-- Never more elements are opened than closed. -/
theorem starts_le (h : Prints c vs has clear) (hsound : Sound flags) :
    starts (printVisits c vs flags).1 ≤ stops (printVisits c vs flags).1 := by
  by_cases hclear : flags.nopr = true → clear flags.ignore
  · have hcount := starts_of_nestFrom (h.nested flags hsound hclear [])
    omega
  · obtain ⟨hnopr, hnot⟩ := Classical.not_imp.1 hclear
    exact (h.starts_lt flags hsound hnopr hnot).le

/-- Visits that write the same. -/
theorem congr (h : Prints c vs has clear)
    (heq : ∀ flags, printVisits c ws flags = printVisits c vs flags) :
    Prints c ws has clear := by
  constructor
  · exact fun flags => by rw [heq]; exact h.nopr flags
  · exact fun flags hsound => by rw [heq]; exact h.ignore flags hsound
  · exact fun flags hsound hclear st => by rw [heq]; exact h.nested flags hsound hclear st
  · exact fun flags hsound hnopr hnot => by rw [heq]; exact h.starts_lt flags hsound hnopr hnot

/-- Nothing is written. -/
theorem nil : Prints c [] false fun _ => True where
  nopr _ := rfl
  ignore flags _ := by rw [printVisits, Bool.not_false, Bool.and_true]
  nested flags _ _ st := by rw [printVisits, nestFrom]
  starts_lt _ _ _ hnot := absurd trivial hnot

/-- One visit that is not to a list of tags. -/
theorem single {v : TagVisit TextNode} (hflags : ∀ flags, (printText c v flags).2 = flags)
    (hnest : ∀ flags st, nestFrom st (printText c v flags).1 = some st) :
    Prints c [v] false fun _ => True where
  nopr flags := by rw [printVisits_cons, hflags, printVisits]
  ignore flags _ := by
    rw [printVisits_cons, hflags, printVisits, Bool.not_false, Bool.and_true]
  nested flags _ _ st := by
    rw [printVisits_cons, hflags, printVisits, List.append_nil, hnest]
  starts_lt _ _ _ hnot := absurd trivial hnot

/-- Visits after others. -/
theorem append (h : Prints c vs has clear) (h' : Prints c ws has' clear') :
    Prints c (vs ++ ws) (has || has') fun i => clear i ∧ clear' (i && !has) where
  nopr flags := by rw [printVisits_append, h'.nopr, h.nopr]
  ignore flags hsound := by
    rw [printVisits_append, h'.ignore _ (h.sound hsound), h.ignore flags hsound, Bool.not_or,
      Bool.and_assoc]
  nested flags hsound hclear st := by
    rw [printVisits_append,
      nestFrom_append (h.nested flags hsound (fun hnopr => (hclear hnopr).1) st)]
    refine h'.nested _ (h.sound hsound) (fun hnopr => ?_) st
    rw [h.nopr] at hnopr
    rw [h.ignore flags hsound]
    exact (hclear hnopr).2
  starts_lt flags hsound hnopr hnot := by
    rw [printVisits_append, starts_append, stops_append]
    rcases not_and_or.1 hnot with hfirst | hrest
    · exact Nat.add_lt_add_of_lt_of_le (h.starts_lt flags hsound hnopr hfirst)
        (h'.starts_le (h.sound hsound))
    · refine Nat.add_lt_add_of_le_of_lt (h.starts_le hsound)
        (h'.starts_lt _ (h.sound hsound) ?_ ?_)
      · rw [h.nopr, hnopr]
      · rwa [h.ignore flags hsound]

/-- What a list of tags writes. -/
theorem printVisits_taglist :
    printVisits c (.opening (name :: args) :: (vs ++ [.closing (name :: args)])) flags =
      let o := openTag name flags.plain
      let m := printVisits c vs o.2
      let k := closeTag name m.2.plain
      (o.1 ++ (m.1 ++ k.1), k.2) := by
  rw [printVisits_cons, printVisits_append]
  simp only [printVisits, printText, List.append_nil]

/-- A list of tags without a name. -/
theorem bare (h : Prints c vs has clear) :
    Prints c (.opening [] :: (vs ++ [.closing []])) has clear := by
  refine h.congr fun flags => ?_
  rw [printVisits_cons, printVisits_append]
  simp only [printVisits, printText, List.append_nil, List.nil_append]

/-- A list of tags opens and closes its element, while the text is not
ignored. -/
theorem element (h : Prints c vs has clear) (hpr : ¬(name = ascii "pr" ∧ flags.nopr = true))
    (hign : flags.ignore = false) (hclear : flags.nopr = true → clear false) (st : List Bytes) :
    nestFrom st (printVisits c (.opening (name :: args) :: (vs ++ [.closing (name :: args)]))
      flags).1 = some st ∧
    (printVisits c (.opening (name :: args) :: (vs ++ [.closing (name :: args)]))
      flags).2.ignore = false := by
  have hpr' : ¬(name = ascii "pr" ∧ flags.plain.nopr = true) := hpr
  have hign' : (openTag name flags.plain).2.ignore = false := (ignore_openTag hpr').trans hign
  have hnopr : (openTag name flags.plain).2.nopr = flags.nopr := nopr_openTag
  have hsound : Sound (openTag name flags.plain).2 :=
    fun hi => absurd (hign'.symm.trans hi) Bool.false_ne_true
  have hwithin := h.nested _ hsound (by rwa [hnopr, hign'])
  have hend : (printVisits c vs (openTag name flags.plain).2).2.plain.ignore = false :=
    (h.ignore _ hsound).trans (by rw [hign', Bool.false_and])
  have hprEnd : ¬(name = ascii "pr" ∧
      (printVisits c vs (openTag name flags.plain).2).2.plain.nopr = true) :=
    fun hs => hpr ⟨hs.1, ((h.nopr _).trans hnopr).symm.trans hs.2⟩
  rw [printVisits_taglist]
  refine ⟨?_, (ignore_closeTag hprEnd).trans hend⟩
  dsimp only
  rw [nestFrom_append (nestFrom_openTag hpr' (ne_true_of_eq_false hign)),
    nestFrom_append (hwithin _), nestFrom_closeTag hprEnd (ne_true_of_eq_false hend)]

/-- **A list of tags under another name than `pr`.** -/
theorem tag (h : Prints c vs has clear) (hname : name ≠ ascii "pr") :
    Prints c (.opening (name :: args) :: (vs ++ [.closing (name :: args)])) has
      fun i => (i = true → has = true → outElem name = none) ∧ clear i := by
  have hpr : ∀ flags : OutputFlags, ¬(name = ascii "pr" ∧ flags.nopr = true) :=
    fun flags hsup => hname hsup.1
  have hopened : ∀ flags : OutputFlags, (openTag name flags.plain).2.ignore = flags.ignore :=
    fun flags => ignore_openTag (hpr flags.plain)
  have hsound' : ∀ {flags : OutputFlags}, Sound flags → Sound (openTag name flags.plain).2 := by
    intro flags hsound hign
    rw [hopened] at hign
    rw [nopr_openTag]
    exact hsound hign
  have hwithin : ∀ {flags : OutputFlags}, Sound flags →
      (printVisits c vs (openTag name flags.plain).2).2.plain.ignore = (flags.ignore && !has) := by
    intro flags hsound
    rw [← hopened flags]
    exact h.ignore _ (hsound' hsound)
  constructor
  · intro flags
    rw [printVisits_taglist]
    exact nopr_closeTag.trans ((h.nopr _).trans nopr_openTag)
  · intro flags hsound
    rw [printVisits_taglist]
    exact (ignore_closeTag (hpr _)).trans (hwithin hsound)
  · intro flags hsound hclear st
    cases hign : flags.ignore with
    | false =>
      exact (h.element (hpr flags) hign (fun hnopr => by
        rw [← hign]
        exact (hclear hnopr).2) st).1
    | true =>
      have hnest := h.nested _ (hsound' hsound) (fun hnopr => by
        rw [nopr_openTag] at hnopr
        rw [hopened]
        exact (hclear hnopr).2)
      rw [printVisits_taglist]
      dsimp only
      rw [openTag_silent (hpr flags.plain) hign, List.nil_append, nestFrom_append (hnest st)]
      cases hhas : has with
      | false =>
        rw [closeTag_silent (hpr _) (by rw [hwithin hsound, hign, hhas]; rfl), nestFrom]
      | true =>
        -- The end is written, since a `pr` tag ended within.
        have hend : nestFrom ((outElem name).toList ++ st) (closeTag name
            (printVisits c vs (openTag name flags.plain).2).2.plain).1 = some st :=
          nestFrom_closeTag (hpr _) (by rw [hwithin hsound, hhas, hign]; exact Bool.false_ne_true)
        rwa [(hclear (hsound hign)).1 hign hhas] at hend
  · intro flags hsound hnopr hnot
    have hle := h.starts_le (hsound' hsound)
    have hlt : ¬clear flags.ignore → starts (printVisits c vs (openTag name flags.plain).2).1 <
        stops (printVisits c vs (openTag name flags.plain).2).1 := fun hnot =>
      h.starts_lt _ (hsound' hsound) (nopr_openTag.trans hnopr) (by rwa [hopened])
    rw [printVisits_taglist]
    simp only [starts_append, stops_append]
    cases hign : flags.ignore with
    | false =>
      have hopen := starts_openTag (hpr flags.plain) (ne_true_of_eq_false hign)
      have hclose := stops_closeTag (hpr (printVisits c vs (openTag name flags.plain).2).2.plain)
        (by rw [hwithin hsound, hign]; exact Bool.false_ne_true)
      have hlt' := hlt fun hclear =>
        hnot ⟨fun hi => absurd (hign.symm.trans hi) Bool.false_ne_true, hclear⟩
      omega
    | true =>
      rw [openTag_silent (hpr flags.plain) hign]
      cases hhas : has with
      | false =>
        rw [closeTag_silent (hpr _) (by rw [hwithin hsound, hign, hhas]; rfl)]
        have hlt' := hlt fun hclear =>
          hnot ⟨fun _ ht => absurd (hhas.symm.trans ht) Bool.false_ne_true, hclear⟩
        simp only [starts, stops]
        omega
      | true =>
        have hclose := stops_closeTag (hpr (printVisits c vs (openTag name flags.plain).2).2.plain)
          (by rw [hwithin hsound, hhas, hign]; exact Bool.false_ne_true)
        simp only [starts, stops]
        cases helem : outElem name with
        | none =>
          have hlt' := hlt fun hclear => hnot ⟨fun _ _ => helem, hclear⟩
          rw [helem, Option.toList, List.length_nil] at hclose
          omega
        | some elem =>
          rw [helem, Option.toList, List.length_singleton] at hclose
          omega

/-- **A list of tags under the name `pr`.** -/
theorem pr (h : Prints c vs has clear) :
    Prints c (.opening (ascii "pr" :: args) :: (vs ++ [.closing (ascii "pr" :: args)])) true
      fun _ => clear true := by
  -- It is one to suppress, or a tag like another.
  have hsup : ∀ flags : OutputFlags, flags.nopr = true →
      printVisits c (.opening (ascii "pr" :: args) :: (vs ++ [.closing (ascii "pr" :: args)]))
        flags =
      ((printVisits c vs { flags.plain with ignore := true }).1,
        { (printVisits c vs { flags.plain with ignore := true }).2.plain with
          ignore := false }) := by
    intro flags hnopr
    have hopen : openTag (ascii "pr") flags.plain =
        ([], { flags.plain with ignore := true }) := by
      rw [openTag, if_pos ⟨rfl, hnopr⟩]
    have hclose : closeTag (ascii "pr")
        (printVisits c vs { flags.plain with ignore := true }).2.plain =
        ([], { (printVisits c vs { flags.plain with ignore := true }).2.plain with
          ignore := false }) := by
      rw [closeTag, if_pos ⟨rfl, (h.nopr _).trans hnopr⟩]
    rw [printVisits_taglist]
    dsimp only
    rw [hopen]
    dsimp only
    rw [hclose, List.nil_append, List.append_nil]
  constructor
  · intro flags
    rw [printVisits_taglist]
    exact nopr_closeTag.trans ((h.nopr _).trans nopr_openTag)
  · intro flags hsound
    by_cases hnopr : flags.nopr = true
    · rw [hsup flags hnopr, Bool.not_true, Bool.and_false]
    · rw [Bool.not_true, Bool.and_false]
      exact (h.element (fun hs => hnopr hs.2) (Bool.eq_false_iff.2 (mt hsound hnopr))
        (fun hn => absurd hn hnopr) []).2
  · intro flags hsound hclear st
    by_cases hnopr : flags.nopr = true
    · rw [hsup flags hnopr]
      exact h.nested { flags.plain with ignore := true } (fun _ => hnopr)
        (fun _ => hclear hnopr) st
    · exact (h.element (fun hs => hnopr hs.2) (Bool.eq_false_iff.2 (mt hsound hnopr))
        (fun hn => absurd hn hnopr) st).1
  · intro flags hsound hnopr hnot
    rw [hsup flags hnopr]
    exact h.starts_lt _ (fun _ => hnopr) hnopr hnot

end Prints

/-! ## Trees -/

/-- **What a tag writes.** -/
theorem prints_visits (c : Ctype) (t : GcideTag TextNode) :
    Prints c t.visits t.hasPr (PrClear · t) := by
  induction t using tree_induction with
  | hun parmv =>
    simp only [visits, hasPr, PrClear]
    exact .single (fun _ => rfl) fun _ st => by rw [printText, nestFrom]
  | htext t =>
    simp only [visits, hasPr, PrClear]
    exact .single (fun _ => rfl) fun _ st => nestFrom_textChunks t st
  | hlist parmv tags ih =>
    have hall : Prints c (visitsAll tags) (anyPr tags) (PrClearAll · tags) := by
      induction tags with
      | nil =>
        simp only [visitsAll, anyPr, PrClearAll]
        exact .nil
      | cons t ts ihts =>
        simp only [visitsAll, anyPr, PrClearAll]
        exact (ih t List.mem_cons_self).append
          (ihts fun t ht => ih t (List.mem_cons_of_mem _ ht))
    cases parmv with
    | nil =>
      simp only [visits, hasPr, PrClear]
      exact hall.bare
    | cons name args =>
      by_cases hname : name = ascii "pr"
      · subst hname
        simp only [visits, hasPr, PrClear, beq_self_eq_true, Bool.true_or, if_true]
        exact hall.pr
      · simp only [visits, hasPr, PrClear, if_neg hname, beq_false_of_ne hname, Bool.false_or]
        exact hall.tag hname

/-- **The output is well nested exactly where the pronunciation is not
suppressed, or no tag that is written and stands between the beginning of a
`pr` tag and the first other in that encloses one.** -/
theorem outputTree_wellNested_iff (c : Ctype) (nopr : Bool) (root : GcideTag TextNode) :
    WellNested (outputTree c nopr root) ↔ (nopr = true → root.PrClear false) := by
  have h := prints_visits c root
  have hsound : Sound { nopr := nopr } := fun hign => absurd hign Bool.false_ne_true
  rw [WellNested, outputTree_eq]
  refine ⟨fun hnest hnopr => ?_, fun hclear => h.nested _ hsound hclear []⟩
  by_contra hnot
  have hlt := h.starts_lt _ hsound hnopr hnot
  have hcount := starts_of_nestFrom hnest
  omega

/-- A tag within a suppressed `pr` tag that encloses another. -/
def nestedPr : GcideTag TextNode :=
  .taglist [] [.taglist [ascii "pr"] [.taglist [ascii "ex"]
    [.taglist [ascii "pr"] [.text ⟨⟨ascii "kiss", by decide⟩, ⟨[], null_notMem_nil⟩⟩]]]]

/-- Its end is written, its beginning is not. -/
theorem outputTree_stray_end :
    outputTree .posix true nestedPr = [.stop (ascii "span")] ∧
      ¬WellNested (outputTree .posix true nestedPr) := by
  have hout : outputTree .posix true nestedPr = [.stop (ascii "span")] := by decide
  rw [hout]
  exact ⟨rfl, by decide⟩

end Dico
