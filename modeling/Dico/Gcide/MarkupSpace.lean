import Dico.Gcide.Markup
/-!
# The size of the text space

An addition goes past the end of the text space where it is longer than the
room that is left and the whole space together. The space has twice the
length of the article at least, and all that is ever added at once is
shorter than that, but for the text of the entity `th`: an article is parsed
unless that comes too early in a short one (`gcideMarkupParse_fits_iff`).
-/

namespace Dico

/-! ## One addition -/

/-- What `text_add_str` does where it is in bounds. -/
structure Added (s : Bytes) (sp sp' : TextSpace) : Prop where
  bytes : sp'.bytes = sp.bytes ++ s
  start : sp'.start = sp.start
  fits : sp'.pos ≤ sp'.size
  size_le : sp.size ≤ sp'.size
  same : sp.pos + s.length ≤ sp.size → sp'.size = sp.size

section Spaces

variable {s : Bytes} {sp sp' : TextSpace}

theorem Added.pos (h : Added s sp sp') : sp'.pos = sp.pos + s.length := by
  rw [TextSpace.pos, h.bytes, List.length_append, TextSpace.pos]

theorem added_of_textAddStr (h : textAddStr s sp = .ok sp') : Added s sp sp' := by
  rw [textAddStr] at h
  split_ifs at h with hrest hfits hfits
  all_goals obtain rfl := Except.ok.inj h
  · exact ⟨rfl, rfl, by rwa [TextSpace.pos, List.length_append], by dsimp only; omega,
      fun hroom => by omega⟩
  · exact ⟨rfl, rfl, by rwa [TextSpace.pos, List.length_append], le_rfl, fun _ => rfl⟩

/-- **An addition is in bounds exactly if the space and the room that is
left hold it.** -/
theorem textAddStr_ok_iff (hfits : sp.pos ≤ sp.size) :
    (∃ sp', textAddStr s sp = .ok sp') ↔ sp.pos + s.length ≤ 2 * sp.size := by
  rw [textAddStr]
  split_ifs with hrest hroom hroom
  · exact iff_of_true ⟨_, rfl⟩ hroom
  · refine iff_of_false (fun ⟨sp', h⟩ => ?_) hroom
    cases h
  · exact iff_of_true ⟨_, rfl⟩ (by omega)
  · omega

/-- What is no longer than the space can be added. -/
theorem exists_added (hfits : sp.pos ≤ sp.size) (hs : s.length ≤ sp.size) :
    ∃ sp', textAddStr s sp = .ok sp' ∧ Added s sp sp' := by
  obtain ⟨sp', h⟩ := (@textAddStr_ok_iff s sp hfits).2 (by omega)
  exact ⟨sp', h, added_of_textAddStr h⟩

end Spaces

/-! ## The tokens -/

/-- The entity whose text is longer than any other. -/
def MarkupToken.th : MarkupToken := .entity 116 [104]

/-- The beginnings and the ends of tags. -/
def MarkupToken.isTag : MarkupToken → Bool
  | .opening _ _ => true
  | .closing _ _ => true
  | _ => false

/-- The bytes that are stored for some tokens that are no tags. -/
def stored (inGrk : Bool) (ts : List MarkupToken) : ℕ :=
  (ts.map fun t => (t.text inGrk).length).sum

/-- How many bytes a token stores at most: the end of a tag ends a text. -/
def MarkupToken.bound (t : MarkupToken) : ℕ :=
  if t.isTag = true then 1 else (t.text true).length

/-- And how many some tokens do. -/
def bounded (ts : List MarkupToken) : ℕ := (ts.map MarkupToken.bound).sum

section Tokens

variable {t : MarkupToken} {ts : List MarkupToken} {inGrk : Bool}

theorem text_th : (MarkupToken.th.text inGrk).length = 29 := by
  rw [MarkupToken.th, MarkupToken.text]
  decide +kernel

theorem text_le_bound (t : MarkupToken) : (t.text inGrk).length ≤ t.bound := by
  cases t with
  | accent c =>
    cases inGrk with
    | false => exact Nat.zero_le _
    | true => exact le_rfl
  | opening c s => exact Nat.zero_le _
  | closing c s => exact Nat.zero_le _
  | comment dashes => exact le_rfl
  | entity c s => exact le_rfl
  | escape a b => exact le_rfl
  | cr => exact le_rfl
  | char c => exact le_rfl

theorem leng_of_isTag (h : t.isTag = true) : 3 ≤ t.leng := by
  cases t with
  | opening c s => exact Nat.le_add_left _ _
  | closing c s => exact (Nat.le_add_left 3 _).trans (Nat.add_le_add_left (by decide) _)
  | comment dashes => cases h
  | entity c s => cases h
  | accent c => cases h
  | escape a b => cases h
  | cr => cases h
  | char c => cases h

/-- **A token that is not `th`** is shorter than what it stores by three
bytes at most, and only if it has four itself. -/
theorem bound_le (hscan : t.Scanned) (hth : t ≠ .th) (htag : t.isTag = false) :
    t.bound ≤ t.leng ∨ 4 ≤ t.leng ∧ t.bound ≤ t.leng + 3 := by
  cases t with
  | comment dashes => exact .inl (Nat.zero_le _)
  | opening c s => cases htag
  | closing c s => cases htag
  | accent c => exact .inl le_rfl
  | cr => exact .inl (Nat.zero_le _)
  | char c => exact .inl le_rfl
  | escape a b =>
    refine .inr ⟨le_rfl, ?_⟩
    rw [MarkupToken.bound, htag, MarkupToken.text]
    cases hs : gcideEscapeToUtf8 a b with
    | none => exact Nat.le_add_right 4 3
    | some s => exact gcideEscape_length hs
  | entity c s =>
    rw [MarkupToken.bound, htag, MarkupToken.text]
    cases hs : gcideEntityToUtf8 (60 :: c :: (s ++ [47])) with
    | none => exact .inl (Nat.zero_le _)
    | some u =>
      have hne : c :: s ≠ ascii "th" := fun hname => hth (by
        obtain ⟨rfl, rfl⟩ := List.cons.inj hname
        rfl)
      have hlen := gcideEntity_length_le hscan hne hs
      simp only [Bool.false_eq_true, if_false, Option.getD_some, MarkupToken.leng]
      omega

/-- **What some tokens store**, against what they take: `k` of them are
tags, and `j` have an excess. -/
theorem tally (hscan : ∀ t ∈ ts, t.Scanned) (hth : .th ∉ ts) :
    ∃ k j, bounded ts + 2 * k ≤ taken ts + 3 * j ∧ 4 * j + 3 * k ≤ taken ts ∧
      ((∃ t ∈ ts, t.isTag = true) → 1 ≤ k) := by
  induction ts with
  | nil => exact ⟨0, 0, le_rfl, le_rfl, fun ⟨t, ht, _⟩ => absurd ht List.not_mem_nil⟩
  | cons t ts ih =>
    obtain ⟨k, j, hbound, htaken, htags⟩ := ih (fun t ht => hscan t (List.mem_cons_of_mem _ ht))
      (List.not_mem_of_not_mem_cons hth)
    have hsum : bounded (t :: ts) = t.bound + bounded ts := by
      rw [bounded, List.map_cons, List.sum_cons, bounded]
    have hlen : taken (t :: ts) = t.leng + taken ts := by
      rw [taken, List.map_cons, List.sum_cons, taken]
    rw [hsum, hlen]
    cases htag : t.isTag with
    | true =>
      have hone : t.bound = 1 := by rw [MarkupToken.bound, if_pos htag]
      have hthree := leng_of_isTag htag
      exact ⟨k + 1, j, by omega, by omega, fun _ => Nat.le_add_left 1 k⟩
    | false =>
      have htags' : (∃ u ∈ t :: ts, u.isTag = true) → 1 ≤ k := by
        rintro ⟨u, hu, hutag⟩
        rcases List.mem_cons.1 hu with rfl | hu
        · rw [htag] at hutag
          cases hutag
        · exact htags ⟨u, hu, hutag⟩
      rcases bound_le (hscan t List.mem_cons_self) (Ne.symm (List.ne_of_not_mem_cons hth)) htag
        with hle | ⟨hfour, hle⟩
      · exact ⟨k, j, by omega, by omega, htags'⟩
      · exact ⟨k, j + 1, by omega, by omega, htags'⟩

/-- Seven bytes for four. -/
theorem four_bound_le (hscan : t.Scanned) (hth : t ≠ .th) : 4 * t.bound ≤ 7 * t.leng := by
  cases htag : t.isTag with
  | true =>
    have hthree := leng_of_isTag htag
    rw [MarkupToken.bound, if_pos htag]
    omega
  | false =>
    have hbound := bound_le hscan hth htag
    omega

theorem taken_snoc : taken (ts ++ [t]) = taken ts + t.leng := by
  rw [taken, List.map_append, List.sum_append, List.map_singleton, List.sum_singleton, taken]

theorem bounded_snoc : bounded (ts ++ [t]) = bounded ts + t.bound := by
  rw [bounded, List.map_append, List.sum_append, List.map_singleton, List.sum_singleton, bounded]

theorem stored_snoc : stored inGrk (ts ++ [t]) = stored inGrk ts + (t.text inGrk).length := by
  rw [stored, List.map_append, List.sum_append, List.map_singleton, List.sum_singleton, stored]

/-- A token is no longer than all. -/
theorem leng_le_taken (h : t ∈ ts) : t.leng ≤ taken ts := by
  obtain ⟨a, b, rfl⟩ := List.append_of_mem h
  rw [taken, List.map_append, List.sum_append, List.map_cons, List.sum_cons]
  omega

/-- What is stored is not more than the bound. -/
theorem stored_le_bounded : stored inGrk ts ≤ bounded ts := by
  induction ts with
  | nil => exact le_rfl
  | cons t ts ih =>
    rw [stored, bounded, List.map_cons, List.map_cons, List.sum_cons, List.sum_cons]
    exact Nat.add_le_add (text_le_bound t) ih

end Tokens

/-! ## The tree -/

/-- A string begins where each text of a tag is stored. -/
def TagPlaced (bytes : Bytes) (tag : GcideTag ℕ) : Prop :=
  ∀ n, .text n ∈ tag.visits → 0 ∈ bytes.drop n

/-- The tags the parser holds, but for the open ones. -/
def MarkupParser.tags (p : MarkupParser) : List (GcideTag ℕ) :=
  p.root ++ p.opened.flatMap UnclosedTag.tags

section Trees

variable {bytes bytes' : Bytes} {tag : GcideTag ℕ} {p : MarkupParser} {parmv : List Bytes}

/-- What is added comes behind the strings. -/
theorem TagPlaced.mono (h : TagPlaced bytes tag) (hpre : bytes <+: bytes') :
    TagPlaced bytes' tag := by
  obtain ⟨s, rfl⟩ := hpre
  intro n hn
  rw [List.drop_append]
  exact List.mem_append_left _ (h n hn)

theorem placed_text {n : ℕ} : TagPlaced bytes (.text n) ↔ 0 ∈ bytes.drop n := by
  simp only [TagPlaced, GcideTag.visits, List.mem_singleton, TagVisit.text.injEq, forall_eq]

/-- The visits to several tags are those to each. -/
theorem mem_visitsAll {α : Type} {v : TagVisit α} {ts : List (GcideTag α)} :
    v ∈ GcideTag.visitsAll ts ↔ ∃ t ∈ ts, v ∈ t.visits := by
  induction ts with
  | nil => simp only [GcideTag.visitsAll, List.not_mem_nil, false_and, exists_false]
  | cons t ts ih =>
    simp only [GcideTag.visitsAll, List.mem_append, ih, List.mem_cons, exists_eq_or_imp]

theorem placed_taglist {ts : List (GcideTag ℕ)} :
    TagPlaced bytes (.taglist parmv ts) ↔ ∀ t ∈ ts, TagPlaced bytes t := by
  simp only [TagPlaced, GcideTag.visits, List.mem_cons, List.mem_append, mem_visitsAll,
    reduceCtorEq, false_or, List.not_mem_nil, or_false]
  constructor
  · exact fun h t ht n hn => h n ⟨t, ht, hn⟩
  · rintro h n ⟨t, ht, hn⟩
    exact h t ht n hn

theorem placed_close {t : UnclosedTag} (h : ∀ u ∈ t.tags, TagPlaced bytes u) :
    TagPlaced bytes t.close := by
  rw [UnclosedTag.close]
  split
  · intro n hn
    simp only [GcideTag.visits, List.mem_singleton, reduceCtorEq] at hn
  · exact placed_taglist.2 h

theorem space_appendTag : (appendTag tag p).space = p.space := by
  rw [appendTag]
  split <;> rfl

theorem inGrk_appendTag : (appendTag tag p).inGrk = p.inGrk := by
  rw [appendTag]
  split <;> rfl

/-- `append_tag` adds one tag to those the parser holds. -/
theorem mem_appendTag {u : GcideTag ℕ} : u ∈ (appendTag tag p).tags ↔ u ∈ p.tags ∨ u = tag := by
  unfold appendTag MarkupParser.tags
  split
  · rename_i hopened
    simp only [hopened, List.flatMap_nil, List.append_nil, List.mem_append, List.mem_singleton]
  · rename_i t ts hopened
    simp only [hopened, List.flatMap_cons, List.mem_append, List.mem_singleton]
    tauto

/-- `push_tag` adds none. -/
theorem tags_pushTag : (pushTag parmv p).tags = p.tags := by
  rw [pushTag, MarkupParser.tags, MarkupParser.tags, List.flatMap_cons, List.nil_append]

/-- What `pop_tag` adds is made of what there is. -/
theorem placed_popTag {s : Bytes} (h : ∀ t ∈ p.tags, TagPlaced bytes t) :
    ∀ t ∈ (popTag s p).tags, TagPlaced bytes t := by
  unfold popTag
  split
  · exact h
  · rename_i o os hopened
    have hparts := h
    rw [MarkupParser.tags, hopened, List.flatMap_cons, List.forall_mem_append,
      List.forall_mem_append] at hparts
    dsimp only
    generalize (if s.takeWhile (fun b => b ≠ 32 && b ≠ 9) = ascii "grk" then false
      else p.inGrk) = grk
    split_ifs
    · intro u hu
      rcases mem_appendTag.1 hu with hu | rfl
      · rcases List.mem_append.1 hu with hu | hu
        · exact hparts.1 u hu
        · exact hparts.2.2 u hu
      · exact placed_close hparts.2.1
    · exact h

/-- So is the tree at the end. -/
theorem placed_tree (h : ∀ t ∈ p.tags, TagPlaced bytes t) : TagPlaced bytes p.tree := by
  have hclose : ∀ (opened : List UnclosedTag) (inner : List (GcideTag ℕ)),
      (∀ t ∈ opened.flatMap UnclosedTag.tags, TagPlaced bytes t) →
      (∀ t ∈ inner, TagPlaced bytes t) →
      ∀ t ∈ opened.foldl (fun inner t => [UnclosedTag.close { t with tags := t.tags ++ inner }])
        inner, TagPlaced bytes t := by
    intro opened
    induction opened with
    | nil => exact fun inner _ hinner => hinner
    | cons o opened ih =>
      intro inner hopened hinner
      rw [List.flatMap_cons, List.forall_mem_append] at hopened
      rw [List.foldl_cons]
      refine ih _ hopened.2 (List.forall_mem_singleton.2 (placed_close ?_))
      exact List.forall_mem_append.2 ⟨hopened.1, hinner⟩
  rw [MarkupParser.tags, List.forall_mem_append] at h
  exact placed_close (List.forall_mem_append.2
    ⟨h.1, hclose p.opened [] h.2 fun t ht => absurd ht List.not_mem_nil⟩)

end Trees

/-! ## The parser -/

/-- **What is so between two tokens** of an article of length `len`. A tag
takes three bytes, so the tree of a shorter article has only texts. -/
structure MarkupInv (len : ℕ) (p : MarkupParser) : Prop where
  start_le : p.space.start ≤ p.space.pos
  fits : p.space.pos ≤ p.space.size
  size_ge : 2 * len ≤ p.space.size
  placed : ∀ t ∈ p.tags, TagPlaced p.space.bytes t
  plain : 3 ≤ len ∨ p.opened = [] ∧ ∀ t ∈ p.root, ∃ n, t = .text n

/-- What the end of a text adds. -/
structure Finished (p p' : MarkupParser) : Prop where
  pos_le : p'.space.pos ≤ p.space.pos + 1
  size_le : p.space.size ≤ p'.space.size
  same : p.space.pos + 1 ≤ p.space.size → p'.space.size = p.space.size
  inGrk : p'.inGrk = p.inGrk

section Parser

variable {len : ℕ} {p : MarkupParser} {inGrk : Bool}

/-- The parser begins so. -/
theorem markupInv_start : MarkupInv len (.start len inGrk) where
  start_le := le_rfl
  fits := Nat.zero_le _
  size_ge := le_rfl
  placed := fun _ ht => absurd ht List.not_mem_nil
  plain := .inr ⟨rfl, fun _ ht => absurd ht List.not_mem_nil⟩

/-- Nothing changes but the text space. -/
theorem MarkupInv.add {s : Bytes} {sp : TextSpace} (h : MarkupInv len p)
    (hadd : Added s p.space sp) : MarkupInv len { p with space := sp } where
  start_le := by
    rw [hadd.start, hadd.pos]
    exact h.start_le.trans (Nat.le_add_right _ _)
  fits := hadd.fits
  size_ge := h.size_ge.trans hadd.size_le
  placed := fun t ht => (h.placed t ht).mono ⟨s, hadd.bytes.symm⟩
  plain := h.plain

/-- **A text can always be ended**: where it has a byte, there is space for
another. -/
theorem exists_finishText (h : MarkupInv len p) :
    ∃ p', finishText p = .ok p' ∧ MarkupInv len p' ∧ Finished p p' := by
  rw [finishText]
  split_ifs with hempty
  · exact ⟨p, rfl, h, Nat.le_succ _, le_rfl, fun _ => rfl, rfl⟩
  · have hone : ([0] : Bytes).length ≤ p.space.size := by
      have := h.fits
      rw [List.length_singleton]
      omega
    obtain ⟨sp, hsp, hadd⟩ := exists_added h.fits hone
    have hinv := h.add hadd
    have hpos := hadd.pos
    rw [List.length_singleton] at hpos
    rw [textSegmentFinish, hsp]
    refine ⟨_, rfl, ?_, ?_⟩
    · constructor
      · rw [space_appendTag]
        exact le_rfl
      · rw [space_appendTag]
        exact hadd.fits
      · rw [space_appendTag]
        exact hinv.size_ge
      · intro t ht
        rw [space_appendTag]
        rcases mem_appendTag.1 ht with ht | rfl
        · exact hinv.placed t ht
        · rw [placed_text, hadd.bytes, List.drop_append]
          refine List.mem_append_right _ ?_
          dsimp only
          rw [Nat.sub_eq_zero_of_le (show p.space.start ≤ p.space.bytes.length from h.start_le)]
          exact List.mem_cons_self
      · refine h.plain.imp_right fun ⟨hopened, htexts⟩ => ?_
        rw [appendTag, hopened]
        exact ⟨rfl, List.forall_mem_append.2
          ⟨htexts, List.forall_mem_singleton.2 ⟨_, rfl⟩⟩⟩
    · constructor
      · rw [space_appendTag]
        exact hpos.le
      · rw [space_appendTag]
        exact hadd.size_le
      · rw [space_appendTag]
        exact hadd.same
      · exact inGrk_appendTag

/-- An article that has tags is not too short. -/
theorem MarkupInv.push (h : MarkupInv len p) (hlen : 3 ≤ len) (parmv : List Bytes) :
    MarkupInv len (pushTag parmv p) where
  start_le := h.start_le
  fits := h.fits
  size_ge := h.size_ge
  placed := by
    rw [tags_pushTag]
    exact h.placed
  plain := .inl hlen

theorem space_popTag {s : Bytes} : (popTag s p).space = p.space := by
  unfold popTag
  split
  · rfl
  · dsimp only
    generalize (if s.takeWhile (fun b => b ≠ 32 && b ≠ 9) = ascii "grk" then false
      else p.inGrk) = grk
    split_ifs
    · exact space_appendTag
    · rfl

theorem MarkupInv.pop (h : MarkupInv len p) (hlen : 3 ≤ len) (s : Bytes) :
    MarkupInv len (popTag s p) where
  start_le := by
    rw [space_popTag]
    exact h.start_le
  fits := by
    rw [space_popTag]
    exact h.fits
  size_ge := by
    rw [space_popTag]
    exact h.size_ge
  placed := by
    rw [space_popTag]
    exact placed_popTag h.placed
  plain := .inl hlen

end Parser

/-! ## How far the space is filled -/

/-- After the tokens `pre`, the space has not grown: `th` was read only
before the parser began anew, and until the first tag the space holds the
texts of the tokens. -/
structure Fresh (len : ℕ) (inGrk : Bool) (pre : List MarkupToken) (p : MarkupParser) : Prop where
  size : p.space.size = 2 * len
  pos_le : 4 * p.space.pos ≤ 7 * taken pre
  late : .th ∈ pre → 7 ≤ taken pre
  pos_bounded : .th ∉ pre → p.space.pos ≤ bounded pre
  pos_stored : .th ∉ pre → (∀ t ∈ pre, t.isTag = false) →
    p.space.pos = stored inGrk pre ∧ p.inGrk = inGrk

/-- **How far the parser is**: the space has not grown, or it holds the text
of `th`. -/
def Phase (len : ℕ) (inGrk : Bool) (pre : List MarkupToken) (p : MarkupParser) : Prop :=
  Fresh len inGrk pre p ∨ .th ∈ pre ∧ 29 ≤ p.space.size

section Phases

variable {len : ℕ} {inGrk : Bool} {pre : List MarkupToken} {t : MarkupToken}
  {p p' : MarkupParser}

/-- **When `th` comes too early**, while the space has not grown. -/
theorem Fresh.th_iff (h : Fresh len inGrk pre p) (hscan : ∀ t ∈ pre, t.Scanned)
    (hlen : taken pre + 4 ≤ len) :
    p.space.pos + 29 ≤ 4 * len ↔ (.th ∉ pre → stored inGrk pre + 29 ≤ 4 * len) := by
  have hpos := h.pos_le
  by_cases hth : .th ∈ pre
  · have hlate := h.late hth
    exact iff_of_true (by omega) fun hnot => absurd hth hnot
  rw [imp_iff_right hth]
  by_cases htag : ∃ t ∈ pre, t.isTag = true
  · -- Too little room is left beside a tag for either side to be decided by it.
    obtain ⟨k, j, hbound, htaken, htags⟩ := tally hscan hth
    have hk := htags htag
    have hle := h.pos_bounded hth
    have hstored := @stored_le_bounded pre inGrk
    constructor <;> intro _ <;> omega
  · have hnone : ∀ t ∈ pre, t.isTag = false := fun t ht =>
      Bool.eq_false_iff.2 fun htrue => htag ⟨t, ht, htrue⟩
    rw [(h.pos_stored hth hnone).1]

/-- The parser begins fresh. -/
theorem fresh_start : Fresh len inGrk [] (.start len inGrk) where
  size := rfl
  pos_le := le_rfl
  late := fun h => absurd h List.not_mem_nil
  pos_bounded := fun _ => le_rfl
  pos_stored := fun _ _ => ⟨rfl, rfl⟩

/-- `th` is among the tokens and another one only if it is among the tokens. -/
theorem th_mem_of_snoc (hne : t ≠ .th) (h : .th ∈ pre ++ [t]) : .th ∈ pre := by
  rcases List.mem_append.1 h with h | h
  · exact h
  · exact absurd (List.mem_singleton.1 h).symm hne

/-- And anew, behind a tag. -/
theorem fresh_restart {g : Bool} (htag : t.isTag = true) :
    Fresh len inGrk (pre ++ [t]) (.start len g) where
  size := rfl
  pos_le := Nat.zero_le _
  late := fun h => by
    have hne : t ≠ .th := fun ht => by
      rw [ht] at htag
      cases htag
    have hfour : MarkupToken.leng .th ≤ taken pre := leng_le_taken (th_mem_of_snoc hne h)
    have hthree := leng_of_isTag htag
    rw [taken_snoc]
    exact Nat.add_le_add hfour hthree
  pos_bounded := fun _ => Nat.zero_le _
  pos_stored := fun _ hnone => by
    rw [hnone t (List.mem_append_right _ List.mem_cons_self)] at htag
    cases htag

/-- **A token that stores no more than its bound** leaves the phase. -/
theorem Phase.step (h : Phase len inGrk pre p) (hscan : t.Scanned) (hne : t ≠ .th)
    (hlen : taken (pre ++ [t]) ≤ len) (hpos : p'.space.pos ≤ p.space.pos + t.bound)
    (hsize : p.space.size ≤ p'.space.size)
    (hsame : p.space.pos + t.bound ≤ p.space.size → p'.space.size = p.space.size)
    (hstored : t.isTag = false → p'.space.pos = p.space.pos + (t.text p.inGrk).length ∧
      p'.inGrk = p.inGrk) : Phase len inGrk (pre ++ [t]) p' := by
  have hfour := four_bound_le hscan hne
  rw [taken_snoc] at hlen
  rcases h with h | ⟨hth, hbig⟩
  · have hle := h.pos_le
    left
    constructor
    · rw [hsame (by rw [h.size]; omega), h.size]
    · rw [taken_snoc]
      omega
    · intro hth
      rw [taken_snoc]
      exact (h.late (th_mem_of_snoc hne hth)).trans (Nat.le_add_right _ _)
    · intro hth
      have hold := h.pos_bounded fun hpre => hth (List.mem_append_left _ hpre)
      rw [bounded_snoc]
      omega
    · intro hth hnone
      rw [List.forall_mem_append] at hnone
      obtain ⟨hold, hgrk⟩ :=
        h.pos_stored (fun hpre => hth (List.mem_append_left _ hpre)) hnone.1
      obtain ⟨hnew, hgrk'⟩ := hstored (hnone.2 t List.mem_cons_self)
      rw [hgrk] at hnew hgrk'
      rw [stored_snoc, hnew, hold]
      exact ⟨rfl, hgrk'⟩
  · exact .inr ⟨List.mem_append_left _ hth, hbig.trans hsize⟩

end Phases

/-! ## The actions -/

section Actions

variable {wordsplit : Bytes → Option (List Bytes)} {len : ℕ} {inGrk : Bool}
  {pre : List MarkupToken} {t : MarkupToken} {p : MarkupParser}

/-- The action of a token that is no tag. -/
theorem scanAction_text (htag : t.isTag = false) : scanAction wordsplit len t p =
    (textAddStr (t.text p.inGrk) p.space >>= fun sp => .ok { p with space := sp }) := by
  cases t with
  | opening c s => cases htag
  | closing c s => cases htag
  | comment dashes => rfl
  | entity c s => rfl
  | accent c => rfl
  | escape a b => rfl
  | cr => rfl
  | char c => rfl

/-- **A token that is not `th`** always has its place. -/
theorem scanAction_ok (hinv : MarkupInv len p) (hphase : Phase len inGrk pre p)
    (hlen : taken (pre ++ [t]) ≤ len) (hscan : t.Scanned) (hne : t ≠ .th) :
    ∃ p', scanAction wordsplit len t p = .ok p' ∧ MarkupInv len p' ∧
      Phase len inGrk (pre ++ [t]) p' := by
  have hleng : t.leng ≤ len := by
    rw [taken_snoc] at hlen
    omega
  cases htag : t.isTag with
  | false =>
    have htext := @text_le_bound p.inGrk t
    have hroom : (t.text p.inGrk).length ≤ p.space.size := by
      have hfour := four_bound_le hscan hne
      have hsize := hinv.size_ge
      omega
    obtain ⟨sp, hsp, hadd⟩ := exists_added hinv.fits hroom
    refine ⟨{ p with space := sp }, by rw [scanAction_text htag, hsp, ok_bind], hinv.add hadd,
      hphase.step hscan hne hlen ?_ hadd.size_le (fun hfits => hadd.same ?_)
        fun _ => ⟨hadd.pos, rfl⟩⟩
    · exact hadd.pos.trans_le (Nat.add_le_add_left htext _)
    · exact (Nat.add_le_add_left htext _).trans hfits
  | true =>
    have hthree := (leng_of_isTag htag).trans hleng
    have hone : t.bound = 1 := by rw [MarkupToken.bound, if_pos htag]
    have hnone : t.isTag = false → False := fun hf => by
      rw [htag] at hf
      cases hf
    obtain ⟨q, hq, hqinv, hfin⟩ := exists_finishText hinv
    cases t with
    | comment dashes => cases htag
    | entity c s => cases htag
    | accent c => cases htag
    | escape a b => cases htag
    | cr => cases htag
    | char c => cases htag
    | opening c s =>
      rw [scanAction, hq, ok_bind]
      cases hws : wordsplit (c :: s) with
      | none => exact ⟨_, rfl, markupInv_start, .inl (fresh_restart htag)⟩
      | some parmv =>
        refine ⟨_, rfl, hqinv.push hthree parmv, hphase.step hscan hne hlen ?_ hfin.size_le ?_
          fun hf => (hnone hf).elim⟩
        · rw [hone]
          exact hfin.pos_le
        · rw [hone]
          exact hfin.same
    | closing c s =>
      rw [scanAction, hq, ok_bind]
      refine ⟨_, rfl, hqinv.pop hthree _, hphase.step hscan hne hlen ?_ ?_ ?_
        fun hf => (hnone hf).elim⟩
      · rw [hone, space_popTag]
        exact hfin.pos_le
      · rw [space_popTag]
        exact hfin.size_le
      · rw [hone, space_popTag]
        exact hfin.same

/-- **`th` has its place** exactly if it does not come too early. -/
theorem scanAction_th (hinv : MarkupInv len p) (hphase : Phase len inGrk pre p)
    (hlen : taken (pre ++ [.th]) ≤ len) (hscan : ∀ t ∈ pre, t.Scanned) :
    ((∃ p', scanAction wordsplit len .th p = .ok p') ↔
      (.th ∉ pre → stored inGrk pre + 29 ≤ 4 * len)) ∧
    ∀ p', scanAction wordsplit len .th p = .ok p' →
      MarkupInv len p' ∧ Phase len inGrk (pre ++ [.th]) p' := by
  have hlen' : taken pre + 4 ≤ len := by rwa [taken_snoc] at hlen
  rw [scanAction_text rfl]
  constructor
  · have hbind : (∃ p', (textAddStr (MarkupToken.th.text p.inGrk) p.space >>= fun sp =>
        .ok { p with space := sp }) = .ok p') ↔
        ∃ sp, textAddStr (MarkupToken.th.text p.inGrk) p.space = .ok sp := by
      constructor
      · rintro ⟨p', h⟩
        obtain ⟨sp, hsp, -⟩ := bind_eq_ok.1 h
        exact ⟨sp, hsp⟩
      · rintro ⟨sp, hsp⟩
        exact ⟨_, by rw [hsp, ok_bind]⟩
    rw [hbind, textAddStr_ok_iff hinv.fits, text_th]
    rcases hphase with hfresh | ⟨hth, hbig⟩
    · rw [← hfresh.th_iff hscan hlen', hfresh.size]
      omega
    · have hfits := hinv.fits
      exact iff_of_true (by omega) fun hnot => absurd hth hnot
  · intro p' h
    obtain ⟨sp, hsp, hp⟩ := bind_eq_ok.1 h
    obtain rfl := Except.ok.inj hp
    have hadd := added_of_textAddStr hsp
    have hpos := hadd.pos
    have hfits := hadd.fits
    rw [text_th] at hpos
    refine ⟨hinv.add hadd, .inr ⟨List.mem_append_right _ List.mem_cons_self, ?_⟩⟩
    change 29 ≤ sp.size
    omega

/-- **The first `th` does not come too early**: `pre` are the tokens before
those of the list. -/
def InTime (inGrk : Bool) (len : ℕ) (pre ts : List MarkupToken) : Prop :=
  ∀ a t b, ts = a ++ t :: b → t = .th → .th ∉ pre ++ a → stored inGrk (pre ++ a) + 29 ≤ 4 * len

theorem inTime_cons {ts : List MarkupToken} : InTime inGrk len pre (t :: ts) ↔
    (t = .th → .th ∉ pre → stored inGrk pre + 29 ≤ 4 * len) ∧
      InTime inGrk len (pre ++ [t]) ts := by
  rw [InTime, InTime, forall_split_cons (P := fun (a : List MarkupToken) t => t = .th →
    .th ∉ pre ++ a → stored inGrk (pre ++ a) + 29 ≤ 4 * len), List.append_nil]
  simp only [List.append_assoc, List.singleton_append]

/-- **A run over the tokens of an article** goes through exactly if `th`
does not come too early. -/
theorem run_scanAction_iff {ts : List MarkupToken} (hinv : MarkupInv len p)
    (hphase : Phase len inGrk pre p) (hlen : taken (pre ++ ts) ≤ len)
    (hscan : ∀ t ∈ pre ++ ts, t.Scanned) :
    ((∃ p', Run.run (scanAction wordsplit len) ts p = .ok p') ↔ InTime inGrk len pre ts) ∧
    ∀ p', Run.run (scanAction wordsplit len) ts p = .ok p' → MarkupInv len p' := by
  induction ts generalizing pre p with
  | nil =>
    refine ⟨iff_of_true ⟨p, rfl⟩ fun a t b h => ?_, fun p' h => ?_⟩
    · exact absurd h (List.append_ne_nil_of_right_ne_nil _ (List.cons_ne_nil _ _)).symm
    · obtain rfl := Except.ok.inj h
      exact hinv
  | cons t ts ih =>
    have hsplit : pre ++ t :: ts = pre ++ [t] ++ ts := by
      rw [List.append_assoc, List.singleton_append]
    rw [hsplit] at hlen hscan
    have hone : taken (pre ++ [t]) ≤ len := by
      rw [taken, List.map_append, List.sum_append] at hlen
      exact (Nat.le_add_right _ _).trans hlen
    have hpre : ∀ u ∈ pre ++ [t], u.Scanned := fun u hu => hscan u (List.mem_append_left _ hu)
    have hstep : ((∃ q, scanAction wordsplit len t p = .ok q) ↔
        (t = .th → .th ∉ pre → stored inGrk pre + 29 ≤ 4 * len)) ∧
        ∀ q, scanAction wordsplit len t p = .ok q →
          MarkupInv len q ∧ Phase len inGrk (pre ++ [t]) q := by
      by_cases hth : t = .th
      · subst hth
        rw [imp_iff_right rfl]
        exact scanAction_th hinv hphase hone fun u hu => hpre u (List.mem_append_left _ hu)
      · obtain ⟨q, hq, hqinv, hqphase⟩ := scanAction_ok hinv hphase hone
          (hpre t (List.mem_append_right _ List.mem_cons_self)) hth
        refine ⟨iff_of_true ⟨q, hq⟩ fun h => absurd h hth, fun q' hq' => ?_⟩
        rw [hq] at hq'
        obtain rfl := Except.ok.inj hq'
        exact ⟨hqinv, hqphase⟩
    rw [inTime_cons, ← hstep.1]
    simp only [Run.run, bind_eq_ok]
    constructor
    · constructor
      · rintro ⟨p', q, hq, hrun⟩
        obtain ⟨hqinv, hqphase⟩ := hstep.2 q hq
        exact ⟨⟨q, hq⟩, (ih hqinv hqphase hlen hscan).1.1 ⟨p', hrun⟩⟩
      · rintro ⟨⟨q, hq⟩, htime⟩
        obtain ⟨hqinv, hqphase⟩ := hstep.2 q hq
        obtain ⟨p', hrun⟩ := (ih hqinv hqphase hlen hscan).1.2 htime
        exact ⟨p', q, hq, hrun⟩
    · rintro p' ⟨q, hq, hrun⟩
      obtain ⟨hqinv, hqphase⟩ := hstep.2 q hq
      exact (ih hqinv hqphase hlen hscan).2 p' hrun

end Actions

/-! ## The Greek texts -/

/-- A letter of the table takes five bytes at most. -/
theorem xlit_length : (xlit.all fun p => decide (p.2.length ≤ 5)) = true := by decide +kernel

section Greek

variable {sp : TextSpace}

/-- The letters that are found are letters of the table. -/
theorem grk_length {input greek : Bytes} {rd : ℕ}
    (h : gcideGrkToUtf8 input = some (greek, rd)) : greek.length ≤ 5 := by
  have hloop : ∀ (table : List (Bytes × Bytes)) (foundLen : ℕ) (foundXlit : Option Bytes),
      (table.all fun p => decide (p.2.length ≤ 5)) = true → (∀ s ∈ foundXlit, s.length ≤ 5) →
      ∀ s ∈ (grkLoop input table foundLen foundXlit).2, s.length ≤ 5 := by
    intro table
    induction table with
    | nil => exact fun _ _ _ hfound => hfound
    | cons p table ih =>
      intro foundLen foundXlit hall hfound
      rw [List.all_cons, Bool.and_eq_true, decide_eq_true_eq] at hall
      rw [grkLoop]
      split_ifs
      · exact hfound
      · exact ih _ _ hall.2 hfound
      · refine ih _ _ hall.2 fun s hs => ?_
        rw [← Option.some.inj hs]
        exact hall.1
      · exact ih _ _ hall.2 hfound
  rw [gcideGrkToUtf8] at h
  split_ifs at h
  · obtain ⟨rfl, -⟩ := Prod.mk.inj (Option.some.inj h)
    decide
  · have hfound := hloop xlit 0 none xlit_length fun s hs => absurd hs (by simp)
    generalize grkLoop input xlit 0 none = found at h hfound
    obtain ⟨foundLen, foundXlit⟩ := found
    dsimp only at h hfound
    split_ifs at h
    obtain ⟨s, hs, heq⟩ := Option.map_eq_some_iff.1 h
    obtain ⟨rfl, -⟩ := Prod.mk.inj heq
    exact hfound s hs

/-- What a text space is before and after some letters. -/
structure Extended (sp sp' : TextSpace) : Prop where
  fits : sp'.pos ≤ sp'.size
  size_le : sp.size ≤ sp'.size
  pre : sp.bytes <+: sp'.bytes

theorem Extended.trans {sp' sp'' : TextSpace} (h : Extended sp sp') (h' : Extended sp' sp'') :
    Extended sp sp'' :=
  ⟨h'.fits, h.size_le.trans h'.size_le, h.pre.trans h'.pre⟩

/-- An addition of five bytes at most. -/
theorem exists_extended {s : Bytes} (hs : s.length ≤ 5) (hfive : 5 ≤ sp.size)
    (hfits : sp.pos ≤ sp.size) : ∃ sp', textAddStr s sp = .ok sp' ∧ Extended sp sp' := by
  obtain ⟨sp', h, hadd⟩ := exists_added hfits (hs.trans hfive)
  exact ⟨sp', h, hadd.fits, hadd.size_le, s, hadd.bytes.symm⟩

/-- **A text can be transliterated** where the space has five bytes. -/
theorem exists_greekLoop (s : Bytes) (hfive : 5 ≤ sp.size) (hfits : sp.pos ≤ sp.size) :
    ∃ sp', greekLoop s sp = .ok sp' ∧ Extended sp sp' := by
  induction s, sp using greekLoop.induct with
  | case1 sp => exact ⟨sp, by rw [greekLoop], hfits, le_rfl, List.prefix_rfl⟩
  | case2 c s sp greek rd hgrk ih =>
    obtain ⟨sp', hadd, hext⟩ := exists_extended (grk_length hgrk) hfive hfits
    obtain ⟨sp'', hloop, hext'⟩ := ih sp' (hfive.trans hext.size_le) hext.fits
    rw [greekLoop, hgrk]
    dsimp only
    exact ⟨sp'', by rw [hadd, ok_bind, hloop], hext.trans hext'⟩
  | case3 c s sp hgrk ih =>
    have hone : ([c] : Bytes).length ≤ 5 := Nat.le_add_left 1 4
    obtain ⟨sp', hadd, hext⟩ := exists_extended hone hfive hfits
    obtain ⟨sp'', hloop, hext'⟩ := ih sp' (hfive.trans hext.size_le) hext.fits
    rw [greekLoop, hgrk]
    dsimp only
    exact ⟨sp'', by rw [hadd, ok_bind, hloop], hext.trans hext'⟩

/-- So can a segment. -/
theorem exists_greekTranslit {n : ℕ} (hplaced : 0 ∈ sp.bytes.drop n) (hfive : 5 ≤ sp.size)
    (hfits : sp.pos ≤ sp.size) : ∃ r, greekTranslit n sp = .ok r ∧ Extended sp r.2 := by
  obtain ⟨sp', hloop, hext⟩ :=
    exists_greekLoop ((sp.bytes.drop n).takeWhile (· ≠ 0)) hfive hfits
  have hone : ([0] : Bytes).length ≤ 5 := by decide
  obtain ⟨sp'', hadd, hext'⟩ := exists_extended hone (hfive.trans hext.size_le) hext.fits
  rw [greekTranslit, strAt, if_pos hplaced, ok_bind, hloop, ok_bind, textSegmentFinish, hadd,
    ok_bind]
  exact ⟨_, rfl, hext'.fits, (hext.trans hext').size_le, (hext.trans hext').pre⟩

/-- **And every text of a tree.** -/
theorem exists_earlyFixup (tag : GcideTag ℕ) (translate : Bool) (hplaced : TagPlaced sp.bytes tag)
    (hfive : 5 ≤ sp.size) (hfits : sp.pos ≤ sp.size) :
    ∃ r, earlyFixup translate tag sp = .ok r ∧ Extended sp r.2 := by
  induction tag using GcideTag.tree_induction generalizing translate sp with
  | hun parmv => exact ⟨_, by rw [earlyFixup], hfits, le_rfl, List.prefix_rfl⟩
  | htext n =>
    rw [earlyFixup]
    split_ifs
    · obtain ⟨r, hr, hext⟩ := exists_greekTranslit (placed_text.1 hplaced) hfive hfits
      rw [hr, ok_bind]
      exact ⟨_, rfl, hext⟩
    · exact ⟨_, rfl, hfits, le_rfl, List.prefix_rfl⟩
  | hlist parmv tags ih =>
    have hall : ∃ r, earlyFixupAll (isGrk parmv) tags sp = .ok r ∧ Extended sp r.2 := by
      rw [placed_taglist] at hplaced
      induction tags generalizing sp with
      | nil => exact ⟨_, by rw [earlyFixupAll], hfits, le_rfl, List.prefix_rfl⟩
      | cons t ts ihts =>
        obtain ⟨r, hr, hext⟩ := ih t List.mem_cons_self (isGrk parmv)
          (hplaced t List.mem_cons_self) hfive hfits
        obtain ⟨rs, hrs, hext'⟩ := ihts (fun u hu => ih u (List.mem_cons_of_mem _ hu))
          (fun u hu => (hplaced u (List.mem_cons_of_mem _ hu)).mono hext.pre)
          (hfive.trans hext.size_le) hext.fits
        rw [earlyFixupAll, hr, ok_bind, hrs, ok_bind]
        exact ⟨_, rfl, hext.trans hext'⟩
    obtain ⟨r, hr, hext⟩ := hall
    rw [earlyFixup, hr, ok_bind]
    exact ⟨_, rfl, hext⟩

/-- A tree of texts has none to transliterate. -/
theorem earlyFixup_texts (tags : List (GcideTag ℕ)) (htexts : ∀ t ∈ tags, ∃ n, t = .text n) :
    earlyFixup false (UnclosedTag.close ⟨[], tags⟩) sp =
      .ok (UnclosedTag.close ⟨[], tags⟩, sp) := by
  have hall : ∀ tags : List (GcideTag ℕ), (∀ t ∈ tags, ∃ n, t = .text n) →
      earlyFixupAll false tags sp = .ok (tags, sp) := by
    intro tags
    induction tags with
    | nil => exact fun _ => by rw [earlyFixupAll]
    | cons t ts ih =>
      intro htexts
      obtain ⟨n, rfl⟩ := htexts t List.mem_cons_self
      rw [earlyFixupAll, earlyFixup, if_neg Bool.false_ne_true, ok_bind,
        ih fun u hu => htexts u (List.mem_cons_of_mem _ hu), ok_bind]
  rw [UnclosedTag.close]
  split
  · rw [earlyFixup]
  · rw [earlyFixup, show isGrk [] = false from rfl, hall tags htexts, ok_bind]

end Greek

/-! ## The article -/

/-- The scanner gets no more than the article. -/
theorem yyInputs_length (sizes : List ℕ) (text : Bytes) :
    (yyInputs sizes (markupInput text)).1.length ≤ text.length := by
  have hall : ∀ i : MarkupInput, (yyInputs sizes i).1.length ≤ i.inputLen := by
    induction sizes with
    | nil => exact fun i => Nat.zero_le _
    | cons size sizes ih =>
      intro i
      have hrest := ih (yyInput size i).2
      have hblock : (yyInput size i).1.length + (yyInput size i).2.inputLen ≤ i.inputLen := by
        rw [yyInput]
        simp only [List.length_take]
        split_ifs <;> omega
      rw [yyInputs, List.length_append]
      omega
  exact hall (markupInput text)

section Article

variable (wordsplit : Bytes → Option (List Bytes)) (inGrk : Bool) (sizes : List ℕ) (text : Bytes)

/-- An article is parsed if its tokens are. -/
theorem exists_gcideMarkupParse_iff :
    (∃ r, gcideMarkupParse wordsplit inGrk sizes text = .ok r) ↔
    InTime inGrk text.length [] (markupTokens (yyInputs sizes (markupInput text)).1) := by
  have htaken : taken ([] ++ markupTokens (yyInputs sizes (markupInput text)).1) ≤ text.length :=
    (taken_markupTokens _).trans (yyInputs_length sizes text)
  have hrun := @run_scanAction_iff wordsplit text.length inGrk [] _
    (markupTokens (yyInputs sizes (markupInput text)).1) (@markupInv_start _ inGrk)
    (.inl fresh_start) htaken (markupTokens_scanned _)
  rw [← hrun.1, gcideMarkupParse]
  constructor
  · rintro ⟨r, hr⟩
    obtain ⟨p, hp, -⟩ := bind_eq_ok.1 hr
    exact ⟨p, hp⟩
  · rintro ⟨p, hp⟩
    obtain ⟨q, hq, hinv, -⟩ := exists_finishText (hrun.2 p hp)
    rw [hp, ok_bind, hq, ok_bind]
    rcases hinv.plain with hlen | ⟨hopened, htexts⟩
    · have hsize := hinv.size_ge
      obtain ⟨r, hr, -⟩ := exists_earlyFixup q.tree false (placed_tree hinv.placed)
        (by omega) hinv.fits
      exact ⟨r, hr⟩
    · rw [MarkupParser.tree, hopened]
      exact ⟨_, earlyFixup_texts _ (by rwa [closeTags, List.foldl_nil, List.append_nil])⟩

/-- **An article is parsed within the text space** exactly if no entity
`th` comes too early: the bytes that are stored for the tokens before the
first one, and its own text, are no more than the article four times. -/
theorem gcideMarkupParse_fits_iff :
    (∃ r, gcideMarkupParse wordsplit inGrk sizes text = .ok r) ↔
      ∀ a b, markupTokens (yyInputs sizes (markupInput text)).1 = a ++ .entity 116 [104] :: b →
        .entity 116 [104] ∉ a → stored inGrk a + 29 ≤ 4 * text.length := by
  rw [exists_gcideMarkupParse_iff]
  constructor
  · exact fun h a b hab => h a _ b hab rfl
  · rintro h a t b hab rfl
    exact h a b hab

/-- **A longer article always is.** -/
theorem gcideMarkupParse_ok (hlen : 10 ≤ text.length) :
    ∃ r, gcideMarkupParse wordsplit inGrk sizes text = .ok r := by
  rw [exists_gcideMarkupParse_iff]
  rintro a t b hab rfl hnot
  rw [List.nil_append] at hnot ⊢
  have htaken := (taken_markupTokens _).trans (yyInputs_length sizes text)
  rw [hab, taken, List.map_append, List.sum_append, List.map_cons, List.sum_cons, ← taken,
    show MarkupToken.leng .th = 4 from rfl] at htaken
  obtain ⟨k, j, hbound, hexcess, -⟩ := tally (fun t ht => markupTokens_scanned _ t (by
    rw [hab]
    exact List.mem_append_left _ ht)) hnot
  have hstored := @stored_le_bounded a inGrk
  omega

end Article

/-- An article of the entity and nothing else is not. -/
theorem gcideMarkupParse_th : gcideMarkupParse (fun s => some [s]) false [8192] (ascii "<th/") =
    .error .bounds := by
  have htokens : markupTokens (yyInputs [8192] (markupInput (ascii "<th/"))).1 =
      [.entity 116 [104]] := by
    rw [show (yyInputs [8192] (markupInput (ascii "<th/"))).1 = [60, 116, 104, 47] by decide,
      markupTokens]
    simp only [show nextToken 60 [116, 104, 47] = (.entity 116 [104], []) by decide]
    rw [markupTokens]
  have hfull : textAddStr (MarkupToken.th.text false) ⟨[], 8, 0⟩ = .error .bounds := by
    rw [textAddStr, text_th, if_neg (by decide)]
  have hrun : Run.run (scanAction (fun s => some [s]) (ascii "<th/").length)
      [MarkupToken.entity 116 [104]] (.start (ascii "<th/").length false) = .error .bounds := by
    rw [Run.run, scanAction_text rfl]
    change ((textAddStr (MarkupToken.th.text false) ⟨[], 8, 0⟩ >>= _) >>= _) = _
    rw [hfull, error_bind, error_bind]
  rw [gcideMarkupParse, htokens, hrun, error_bind]

end Dico
