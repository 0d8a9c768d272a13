import Dico.Reply.Banner
/-!
# Any banner

`parse_initial_reply` on whatever line a server greets with. The loop over
the capabilities steps over the byte behind each, also where that is the
end of the line, and it stops at a capability without a name, so that the
message id may be looked for inside the list. `bannerRobust_iff` says on
which lines neither does harm.
-/

namespace Dico

/-! ## The list of capabilities -/

/-- A name that `strcspn` goes over. -/
def IsItem (c : Bytes) : Prop := c ≠ [] ∧ ∀ b ∈ c, b ≠ dot ∧ b ≠ greaterThan

/-- Where the loop stops in a list, and what is left there. -/
inductive CapaStops : Bytes → Bytes → Prop
  /-- At a capability without a name. -/
  | empty {t : Bytes} (h : ∀ b ∈ t.head?, b = dot ∨ b = greaterThan) : CapaStops t t
  /-- Behind the closing bracket. -/
  | closed {c t : Bytes} (hc : IsItem c) : CapaStops (c ++ greaterThan :: t) t
  /-- Behind a capability and its dot. -/
  | item {c s t : Bytes} (hc : IsItem c) (hs : CapaStops s t) : CapaStops (c ++ dot :: s) t

/-- The list goes on to the end of the line. -/
inductive CapaOverruns : Bytes → Prop
  | last {c : Bytes} (hc : IsItem c) : CapaOverruns c
  | item {c s : Bytes} (hc : IsItem c) (hs : CapaOverruns s) : CapaOverruns (c ++ dot :: s)

section Items

variable {s t c u v x y : Bytes}

/-- A list is taken apart behind its first name. -/
theorem exists_item (s : Bytes) : ∃ c r, s = c ++ r ∧ (∀ b ∈ c, b ≠ dot ∧ b ≠ greaterThan) ∧
    ∀ b ∈ r.head?, b = dot ∨ b = greaterThan := by
  induction s with
  | nil => exact ⟨[], [], rfl, by simp, by simp⟩
  | cons a s ih =>
    obtain ⟨c, r, rfl, hc, hr⟩ := ih
    by_cases ha : a = dot ∨ a = greaterThan
    · exact ⟨[], a :: (c ++ r), rfl, by simp, by simpa using ha⟩
    · rw [not_or] at ha
      exact ⟨a :: c, r, rfl, List.forall_mem_cons.2 ⟨ha, hc⟩, hr⟩

/-- The loop stops in a list, or it does not. -/
theorem capaStops_or_overruns (s : Bytes) : (∃ t, CapaStops s t) ∨ CapaOverruns s := by
  induction hn : s.length using Nat.strong_induction_on generalizing s with
  | _ n ih =>
    obtain ⟨c, r, rfl, hc, hr⟩ := exists_item s
    by_cases hne : c = []
    · rw [hne]
      exact .inl ⟨r, .empty hr⟩
    have hitem : IsItem c := ⟨hne, hc⟩
    rcases r with - | ⟨b, r⟩
    · rw [List.append_nil]
      exact .inr (.last hitem)
    rcases hr b rfl with rfl | rfl
    · have hlt : r.length < n := by
        rw [← hn, List.length_append, List.length_cons]
        omega
      rcases ih r.length hlt r rfl with ⟨t, ht⟩ | hover
      · exact .inl ⟨t, .item hitem ht⟩
      · exact .inr (.item hitem hover)
    · exact .inl ⟨r, .closed hitem⟩

/-! ## Capabilities without a name -/

/-- Behind so much of a list a name begins. -/
def ItemBegins (x : Bytes) : Prop := x = [] ∨ x.getLast? = some dot

/-- A name begins that has no letters. -/
def HasEmptyItem (s : Bytes) : Prop :=
  ∃ x y, s = x ++ y ∧ ItemBegins x ∧ ∀ b ∈ y.head?, b = dot

/-- And a bracket opens behind its dot. -/
def OpensBehindEmpty (s : Bytes) : Prop :=
  ∃ x y, s = x ++ dot :: y ∧ ItemBegins x ∧ lessThan ∈ y

/-- A text with a pair of brackets. -/
def Bracketed (s : Bytes) : Prop :=
  ∃ x y z, s = x ++ lessThan :: (y ++ greaterThan :: z)

/-- **A name begins behind an item only behind its dot.** -/
theorem ItemBegins.split (hc : IsItem c) (hx : ItemBegins x) (hsplit : c ++ dot :: s = x ++ y)
    (hy : ∀ b ∈ y.head?, b = dot) : ∃ x', s = x' ++ y ∧ ItemBegins x' := by
  have hdot : dot ∉ c := fun h => (hc.2 dot h).1 rfl
  have hlast : ∀ u, c = x ++ u → x = [] := by
    rintro u rfl
    refine hx.resolve_right fun h => hdot ?_
    exact List.mem_append_left u (List.mem_of_getLast? h)
  rcases List.append_eq_append_iff.1 hsplit with ⟨a, rfl, ha⟩ | ⟨a, ha, rfl⟩
  · rcases a with - | ⟨d, a⟩
    · rw [List.append_nil] at hx
      exact absurd (hx.resolve_left hc.1) fun h => hdot (List.mem_of_getLast? h)
    · obtain ⟨rfl, rfl⟩ := List.cons.inj ha
      refine ⟨a, rfl, ?_⟩
      cases ha' : a.getLast? with
      | none => exact .inl (List.getLast?_eq_none_iff.1 ha')
      | some d =>
        rcases hx with hx | hx
        · exact absurd hx (List.append_ne_nil_of_left_ne_nil hc.1 _)
        · rw [List.getLast?_append, List.getLast?_cons, ha', Option.getD_some,
            Option.some_or] at hx
          exact .inr (ha'.trans hx)
  · obtain rfl := hlast a ha
    obtain ⟨b, c', hb⟩ := List.exists_cons_of_ne_nil hc.1
    rw [List.nil_append] at ha
    rw [← ha, hb] at hy
    exact absurd (hy b rfl) (hc.2 b (hb ▸ List.mem_cons_self)).1

/-- Behind an item and its dot a name begins where it begins behind the
dot. -/
theorem ItemBegins.behind (hx : ItemBegins x) (c : Bytes) : ItemBegins (c ++ dot :: x) := by
  refine .inr ?_
  rw [List.getLast?_append, List.getLast?_cons]
  rcases hx with rfl | hx
  · rfl
  · rw [hx]
    rfl

/-- An item alone has no empty one. -/
theorem not_hasEmptyItem_item (hc : IsItem c) : ¬ HasEmptyItem c := by
  rintro ⟨x, y, rfl, hx, hy⟩
  rcases hx with rfl | hx
  · obtain ⟨b, c', hb⟩ := List.exists_cons_of_ne_nil hc.1
    rw [List.nil_append] at hb
    subst hb
    exact (hc.2 b List.mem_cons_self).1 (hy b rfl)
  · exact (hc.2 dot (List.mem_append_left y (List.mem_of_getLast? hx))).1 rfl

/-- An empty item behind an item. -/
theorem hasEmptyItem_cons (hc : IsItem c) : HasEmptyItem (c ++ dot :: s) ↔ HasEmptyItem s := by
  constructor
  · rintro ⟨x, y, hsplit, hx, hy⟩
    obtain ⟨x', rfl, hx'⟩ := hx.split hc hsplit hy
    exact ⟨x', y, rfl, hx', hy⟩
  · rintro ⟨x, y, rfl, hx, hy⟩
    exact ⟨c ++ dot :: x, y, by rw [List.append_assoc, List.cons_append], hx.behind c, hy⟩

/-- The same for one that a bracket opens behind. -/
theorem opensBehindEmpty_cons (hc : IsItem c) :
    OpensBehindEmpty (c ++ dot :: s) ↔ OpensBehindEmpty s := by
  constructor
  · rintro ⟨x, y, hsplit, hx, hy⟩
    obtain ⟨x', rfl, hx'⟩ := hx.split hc hsplit fun b hb => (Option.some.inj hb).symm
    exact ⟨x', y, rfl, hx', hy⟩
  · rintro ⟨x, y, rfl, hx, hy⟩
    exact ⟨c ++ dot :: x, y, by rw [List.append_assoc, List.cons_append], hx.behind c, hy⟩

/-- **A list overruns the line** if it has no bracket and no empty item. -/
theorem CapaOverruns.spec (h : CapaOverruns s) : greaterThan ∉ s ∧ ¬ HasEmptyItem s := by
  induction h with
  | last hc => exact ⟨fun h => (hc.2 _ h).2 rfl, not_hasEmptyItem_item hc⟩
  | item hc _ ih =>
    rw [hasEmptyItem_cons hc, List.mem_append, List.mem_cons, not_or, not_or]
    exact ⟨⟨fun h => (hc.2 _ h).2 rfl, by decide, ih.1⟩, ih.2⟩

/-- And it stops at an empty one otherwise, if there is no bracket. -/
theorem CapaStops.spec (h : CapaStops s t) (hs : greaterThan ∉ s) :
    HasEmptyItem s ∧ greaterThan ∉ t := by
  induction h with
  | @empty t hhead =>
    refine ⟨⟨[], t, rfl, .inl rfl, fun b hb => (hhead b hb).resolve_right ?_⟩, hs⟩
    rintro rfl
    exact hs (List.mem_of_mem_head? hb)
  | closed hc => exact absurd (List.mem_append_right _ List.mem_cons_self) hs
  | item hc _ ih =>
    rw [List.mem_append, List.mem_cons, not_or, not_or] at hs
    rw [hasEmptyItem_cons hc]
    exact ih hs.2.2

/-- A pair of brackets behind others. -/
theorem Bracketed.append (h : Bracketed v) (u : Bytes) : Bracketed (u ++ v) := by
  obtain ⟨x, y, z, rfl⟩ := h
  exact ⟨u ++ x, y, z, by rw [List.append_assoc]⟩

/-- A pair around the first closing bracket, or one behind it. -/
theorem bracketed_place (hu : greaterThan ∉ u) :
    Bracketed (u ++ greaterThan :: v) ↔ lessThan ∈ u ∨ Bracketed v := by
  constructor
  · rintro ⟨x, y, z, hsplit⟩
    rcases List.append_eq_append_iff.1 hsplit with ⟨a, rfl, ha⟩ | ⟨a, rfl, ha⟩
    · rcases a with - | ⟨b, a⟩
      · cases ha
      · obtain ⟨-, rfl⟩ := List.cons.inj ha
        exact .inr ⟨a, y, z, rfl⟩
    · rcases a with - | ⟨b, a⟩
      · cases ha
      · obtain ⟨rfl, -⟩ := List.cons.inj ha
        exact .inl (List.mem_append_right x List.mem_cons_self)
  · rintro (h | h)
    · obtain ⟨x, y, rfl⟩ := List.append_of_mem h
      exact ⟨x, y, v, by rw [List.append_assoc, List.cons_append]⟩
    · exact (h.append [greaterThan]).append u

/-- **A message id is found** behind an empty item before the first closing
bracket, or behind that. -/
theorem CapaStops.bracketed_iff (h : CapaStops s t) (hs : s = u ++ greaterThan :: v)
    (hu : greaterThan ∉ u) : Bracketed t ↔ OpensBehindEmpty u ∨ Bracketed v := by
  induction h generalizing u with
  | @empty t hhead =>
    rw [hs, bracketed_place hu]
    rcases u with - | ⟨b, u⟩
    · refine or_congr (iff_of_false List.not_mem_nil ?_) Iff.rfl
      rintro ⟨x, y, h, -⟩
      exact List.append_ne_nil_of_right_ne_nil x (List.cons_ne_nil dot y) h.symm
    · rw [hs] at hhead
      obtain rfl : b = dot := (hhead b rfl).resolve_right fun h => hu (h ▸ List.mem_cons_self)
      refine or_congr ?_ Iff.rfl
      constructor
      · intro h
        exact ⟨[], u, rfl, .inl rfl, (List.mem_cons.1 h).resolve_left (by decide)⟩
      · rintro ⟨x, y, hx, -, hy⟩
        rw [hx]
        exact List.mem_append_right x (List.mem_cons_of_mem _ hy)
  | @closed c t hc =>
    obtain ⟨rfl, rfl⟩ := place_unique (fun h => (hc.2 _ h).2 rfl) hu hs
    refine (or_iff_right ?_).symm
    rintro ⟨x, y, rfl, -⟩
    exact (hc.2 dot (List.mem_append_right x List.mem_cons_self)).1 rfl
  | @item c s t hc _ ih =>
    have hgt : greaterThan ∉ c ++ [dot] := by
      rw [List.mem_append, List.mem_singleton, not_or]
      exact ⟨fun h => (hc.2 _ h).2 rfl, by decide⟩
    obtain ⟨u', rfl, rfl⟩ : ∃ u', u = c ++ [dot] ++ u' ∧ s = u' ++ greaterThan :: v := by
      rw [← List.singleton_append, ← List.append_assoc] at hs
      rcases List.append_eq_append_iff.1 hs with ⟨w, hw, hs'⟩ | ⟨w, hw, hs'⟩
      · exact ⟨w, hw, hs'⟩
      · rcases w with - | ⟨b, w⟩
        · exact ⟨[], by rw [hw, List.append_nil, List.append_nil], hs'.symm⟩
        · obtain ⟨rfl, -⟩ := List.cons.inj hs'
          rw [hw] at hgt
          exact absurd (List.mem_append_right u List.mem_cons_self) hgt
    rw [List.append_assoc, List.singleton_append, opensBehindEmpty_cons hc]
    rw [List.mem_append, not_or] at hu
    exact ih rfl hu.2

/-! ## The loop -/

variable {a : CapaArray} {fuel : ℕ}

/-- Nothing is gone over where a name is empty. -/
theorem strcspn_eq_zero (h : ∀ b ∈ t.head?, b = dot ∨ b = greaterThan) :
    strcspn [dot, greaterThan] t = 0 := by
  rcases t with - | ⟨b, t⟩
  · rfl
  · refine List.length_eq_zero_iff.2 (List.takeWhile_cons_of_neg ?_)
    rcases h b rfl with rfl | rfl <;> decide

/-- A name is gone over, and the byte behind it. -/
theorem capaLoop_item {d : UInt8} (pre : Bytes) (ha : a.Fits) (hc : IsItem c)
    (hd : d ∈ [dot, greaterThan]) (h₀ : 0 ∉ c ++ d :: s) :
    ∃ a', a'.Fits ∧ capaLoop (pre ++ (c ++ d :: s ++ [0])) (fuel + 1) pre.length a =
      if d = greaterThan then .ok ((pre ++ (c ++ [d])).length, a')
      else capaLoop (pre ++ (c ++ [d]) ++ (s ++ [0])) fuel (pre ++ (c ++ [d])).length a' := by
  rw [List.mem_append, List.mem_cons, not_or, not_or] at h₀
  have hitem : ∀ b ∈ c, b ≠ 0 ∧ b ≠ dot ∧ b ≠ greaterThan := by
    intro b hb
    refine ⟨?_, hc.2 b hb⟩
    rintro rfl
    exact h₀.1 hb
  obtain ⟨a', ha', -, hrun⟩ := capaLoop_name pre s [] c fuel ha hc.1 hitem hd h₀.2.2
  refine ⟨a', ha', ?_⟩
  have hmem : pre ++ (c ++ [d]) ++ (s ++ [0]) = pre ++ (c ++ d :: (s ++ [0])) := by
    rw [List.append_assoc, List.append_assoc, List.singleton_append]
  rw [hmem, List.append_assoc, List.cons_append]
  exact hrun

/-- **The loop stops where the list has it stop.** -/
theorem capaLoop_stops (h : CapaStops s t) (pre : Bytes) (h₀ : 0 ∉ s) (ha : a.Fits)
    (hfuel : s.length < fuel) :
    ∃ pre' a', pre ++ s = pre' ++ t ∧
      capaLoop (pre ++ (s ++ [0])) fuel pre.length a = .ok (pre'.length, a') := by
  induction h generalizing pre a fuel with
  | @empty t hhead =>
    obtain ⟨fuel, rfl⟩ : ∃ n, fuel = n + 1 := ⟨fuel - 1, by omega⟩
    refine ⟨pre, a, rfl, ?_⟩
    rw [capaLoop, strAt_append pre h₀, ok_bind]
    exact if_pos (strcspn_eq_zero hhead)
  | @closed c t hc =>
    obtain ⟨fuel, rfl⟩ : ∃ n, fuel = n + 1 := ⟨fuel - 1, by omega⟩
    obtain ⟨a', -, hrun⟩ := capaLoop_item pre ha hc (by decide) h₀
    rw [if_pos rfl] at hrun
    refine ⟨pre ++ (c ++ [greaterThan]), a', ?_, hrun⟩
    rw [List.append_assoc, List.append_assoc, List.singleton_append]
  | @item c s t hc _ ih =>
    obtain ⟨fuel, rfl⟩ : ∃ n, fuel = n + 1 := ⟨fuel - 1, by omega⟩
    obtain ⟨a₁, ha₁, hrun⟩ := capaLoop_item pre ha hc (by decide) h₀
    rw [if_neg (by decide)] at hrun
    rw [List.mem_append, List.mem_cons, not_or, not_or] at h₀
    have hlt : s.length < fuel := by
      rw [List.length_append, List.length_cons] at hfuel
      omega
    obtain ⟨pre', a', hpre, hmore⟩ := ih (pre ++ (c ++ [dot])) h₀.2.2 ha₁ hlt
    refine ⟨pre', a', ?_, hrun.trans hmore⟩
    rw [← hpre, List.append_assoc, List.append_assoc, List.singleton_append]

/-- **And goes beyond the line where it does not.** -/
theorem capaLoop_overruns (h : CapaOverruns s) (pre : Bytes) (h₀ : 0 ∉ s) (ha : a.Fits)
    (hfuel : s.length < fuel) :
    capaLoop (pre ++ (s ++ [0])) fuel pre.length a = .error .bounds := by
  induction h generalizing pre a fuel with
  | @last c hc =>
    have hpos := List.length_pos_of_ne_nil hc.1
    obtain ⟨fuel, rfl⟩ : ∃ n, fuel = n + 1 + 1 := ⟨fuel - 2, by omega⟩
    have hspan : strcspn [dot, greaterThan] c = c.length := by
      refine congrArg List.length (List.takeWhile_eq_self_iff.2 fun b hb => decide_eq_true ?_)
      rw [List.mem_cons, List.mem_singleton, not_or]
      exact hc.2 b hb
    obtain ⟨a', hpush, -, -⟩ := ha.push c
    have hbehind : strAt (pre ++ (c ++ [0])) (pre.length + c.length + 1) = .error .bounds := by
      have hdrop : (pre ++ (c ++ [0])).drop (pre.length + c.length + 1) = [] := by
        rw [List.drop_eq_nil_iff]
        simp only [List.length_append, List.length_singleton]
        omega
      rw [strAt, hdrop, if_neg List.not_mem_nil]
    rw [capaLoop, strAt_append pre h₀, ok_bind]
    simp only [hspan, if_neg (Nat.ne_of_gt hpos), List.take_length, hpush, ok_bind,
      List.drop_length, List.head?_nil]
    rw [if_neg (by decide), capaLoop, hbehind, error_bind]
  | @item c s hc _ ih =>
    obtain ⟨fuel, rfl⟩ : ∃ n, fuel = n + 1 := ⟨fuel - 1, by omega⟩
    obtain ⟨a₁, ha₁, hrun⟩ := capaLoop_item pre ha hc (by decide) h₀
    rw [if_neg (by decide)] at hrun
    rw [List.mem_append, List.mem_cons, not_or, not_or] at h₀
    refine hrun.trans (ih (pre ++ (c ++ [dot])) h₀.2.2 ha₁ ?_)
    rw [List.length_append, List.length_cons] at hfuel
    omega

end Items

/-! ## The reply -/

/-- A complete list, and a message id behind it. -/
def HasListAndId (line : Bytes) : Prop :=
  ∃ x y z, line = x ++ lessThan :: (y ++ greaterThan :: z) ∧ Bracketed z

/-- The reply is parsed within its line, and accepted only if it is complete. -/
def BannerRobust (line : Bytes) : Prop :=
  ∃ r, parseInitialReply (line ++ [0]) = .ok r ∧ (r.isSome → HasListAndId line)

/-- What the parser relies on: a list that is not closed has an empty item,
and one that is has no opening bracket behind one, unless brackets follow. -/
def BannerSound (line : Bytes) : Prop :=
  dictStatusP line (ascii "220") → ∀ x s, line = x ++ lessThan :: s → lessThan ∉ x →
    (greaterThan ∉ s → HasEmptyItem s) ∧
      ∀ u v, s = u ++ greaterThan :: v → greaterThan ∉ u → OpensBehindEmpty u → Bracketed v

section Reply

variable {s t u v x line : Bytes}

/-- The first list ends at the first bracket. -/
theorem hasListAndId_place (hx : lessThan ∉ x) (hu : greaterThan ∉ u) :
    HasListAndId (x ++ lessThan :: (u ++ greaterThan :: v)) ↔ Bracketed v := by
  constructor
  · rintro ⟨x', y', z, hsplit, hz⟩
    obtain ⟨w, rfl, hw⟩ := place_behind hx hsplit
    have hu' : greaterThan ∉ lessThan :: u := by
      rw [List.mem_cons, not_or]
      exact ⟨by decide, hu⟩
    rw [← List.cons_append, ← List.cons_append, ← List.append_assoc] at hw
    obtain ⟨w', -, hw'⟩ := place_behind hu' hw
    rcases w' with - | ⟨b, w'⟩
    · rwa [(List.cons.inj hw').2]
    · rw [(List.cons.inj hw').2]
      exact (hz.append [greaterThan]).append w'
  · exact fun hv => ⟨x, u, v, rfl, hv⟩

/-- Nothing ends a span where there is no such byte, and only there. -/
theorem strcspn_eq_length_iff (c : UInt8) (s : Bytes) : strcspn [c] s = s.length ↔ c ∉ s := by
  have hall : s.takeWhile (· ∉ [c]) = s ↔ c ∉ s := by
    rw [List.takeWhile_eq_self_iff]
    simp only [decide_eq_true_eq, List.mem_singleton]
    exact ⟨fun h hc => h c hc rfl, fun h b hb hbc => h (hbc ▸ hb)⟩
  rw [← hall, strcspn]
  exact ⟨(List.takeWhile_prefix _).eq_of_length, congrArg List.length⟩

/-- A message id is found where there is a pair of brackets. -/
def findMsgid (s : Bytes) : Option Bytes :=
  match strchr lessThan s with
  | none => none
  | some i =>
    if strcspn [greaterThan] (s.drop i) = (s.drop i).length then none
    else some ((s.drop i).take (strcspn [greaterThan] (s.drop i) + 1))

/-- It is. -/
theorem findMsgid_isSome (s : Bytes) : (findMsgid s).isSome ↔ Bracketed s := by
  rw [findMsgid]
  by_cases hmem : lessThan ∈ s
  · obtain ⟨x, z, rfl, hx⟩ := List.eq_append_cons_of_mem hmem
    simp only [strchr_append hx, List.drop_left, strcspn_eq_length_iff]
    by_cases hgt : greaterThan ∈ lessThan :: z
    · rw [if_neg (not_not.2 hgt)]
      obtain ⟨y, z', rfl⟩ := List.append_of_mem ((List.mem_cons.1 hgt).resolve_left (by decide))
      exact iff_of_true rfl ⟨x, y, z', rfl⟩
    · rw [if_pos hgt]
      refine iff_of_false Bool.false_ne_true ?_
      rintro ⟨x', y', z', hsplit⟩
      obtain ⟨w, rfl, hw⟩ := place_behind hx hsplit
      rw [hw] at hgt
      exact hgt (List.mem_append_right w (List.mem_cons_of_mem _
        (List.mem_append_right y' List.mem_cons_self)))
  · rw [strchr, if_neg hmem]
    refine iff_of_false Bool.false_ne_true ?_
    rintro ⟨x, y, z, rfl⟩
    exact hmem (List.mem_append_right x List.mem_cons_self)

/-- What the parser does on a line with an opening bracket. -/
theorem parseInitialReply_eq (h₀ : 0 ∉ x ++ lessThan :: s) (hx : lessThan ∉ x)
    (hstatus : dictStatusP (x ++ lessThan :: s) (ascii "220")) :
    ∃ fuel, s.length < fuel ∧ parseInitialReply (x ++ lessThan :: s ++ [0]) = (do
      let (p, a) ← capaLoop (x ++ [lessThan] ++ (s ++ [0])) fuel (x ++ [lessThan]).length .empty
      let t ← strAt (x ++ lessThan :: s ++ [0]) p
      .ok ((findMsgid t).map fun msgid => ⟨a.capav, msgid⟩)) := by
  have hmem : x ++ [lessThan] ++ (s ++ [0]) = x ++ lessThan :: s ++ [0] := by
    simp only [List.append_assoc, List.cons_append, List.nil_append]
  refine ⟨(x ++ lessThan :: s ++ [0]).length + 1, ?_, ?_⟩
  · simp only [List.length_append, List.length_cons]
    omega
  · have hstr : strAt (x ++ lessThan :: s ++ [0]) 0 = .ok (x ++ lessThan :: s) :=
      strAt_append [] h₀ []
    have hlen : (x ++ [lessThan]).length = x.length + 1 := by
      rw [List.length_append, List.length_singleton]
    rw [parseInitialReply, hstr, ok_bind, if_neg (not_not.2 hstatus), strchr_append hx, hmem, hlen]
    simp only [findMsgid]
    refine congrArg _ (funext fun pa => congrArg _ (funext fun t => ?_))
    rcases strchr lessThan t with - | i
    · rfl
    · simp only
      split_ifs <;> rfl

/-- The message id is looked for in what the loop leaves. -/
theorem parseInitialReply_stops (h₀ : 0 ∉ x ++ lessThan :: s) (hx : lessThan ∉ x)
    (hstatus : dictStatusP (x ++ lessThan :: s) (ascii "220")) (h : CapaStops s t) :
    ∃ r, parseInitialReply (x ++ lessThan :: s ++ [0]) = .ok r ∧ (r.isSome ↔ Bracketed t) := by
  obtain ⟨fuel, hfuel, heq⟩ := parseInitialReply_eq h₀ hx hstatus
  have hs₀ : 0 ∉ s := fun h => h₀ (List.mem_append_right x (List.mem_cons_of_mem _ h))
  obtain ⟨pre, a, hpre, hrun⟩ := capaLoop_stops h (x ++ [lessThan]) hs₀
    (show CapaArray.Fits .empty from ⟨le_rfl, rfl⟩) hfuel
  rw [List.append_assoc, List.singleton_append] at hpre
  have ht₀ : 0 ∉ t := fun h => h₀ (by rw [hpre]; exact List.mem_append_right pre h)
  have hstr : strAt (x ++ lessThan :: s ++ [0]) pre.length = .ok t := by
    rw [hpre, List.append_assoc]
    exact strAt_append pre ht₀ []
  refine ⟨(findMsgid t).map fun msgid => ⟨a.capav, msgid⟩, ?_, ?_⟩
  · rw [heq, hrun, ok_bind]
    simp only [hstr, ok_bind]
  · rw [Option.isSome_map, findMsgid_isSome]

/-- And not at all where it goes beyond the line. -/
theorem parseInitialReply_overruns (h₀ : 0 ∉ x ++ lessThan :: s) (hx : lessThan ∉ x)
    (hstatus : dictStatusP (x ++ lessThan :: s) (ascii "220")) (h : CapaOverruns s) :
    parseInitialReply (x ++ lessThan :: s ++ [0]) = .error .bounds := by
  obtain ⟨fuel, hfuel, heq⟩ := parseInitialReply_eq h₀ hx hstatus
  have hs₀ : 0 ∉ s := fun h => h₀ (List.mem_append_right x (List.mem_cons_of_mem _ h))
  have hrun := capaLoop_overruns h (x ++ [lessThan]) hs₀
    (show CapaArray.Fits .empty from ⟨le_rfl, rfl⟩) hfuel
  rw [heq, hrun, error_bind]

/-- **Which greetings are parsed as they should be.** -/
theorem bannerRobust_iff (line : CText) :
    BannerRobust line.bytes ↔ BannerSound line.bytes := by
  obtain ⟨line, h₀⟩ := line
  have hstr : strAt (line ++ [0]) 0 = .ok line := strAt_append [] h₀ []
  by_cases hstatus : dictStatusP line (ascii "220")
  swap
  · refine iff_of_true ⟨none, ?_, fun h => by cases h⟩ fun h => absurd h hstatus
    rw [parseInitialReply, hstr, ok_bind]
    exact if_pos hstatus
  by_cases hmem : lessThan ∈ line
  swap
  · refine iff_of_true ⟨none, ?_, fun h => by cases h⟩ ?_
    · rw [parseInitialReply, hstr, ok_bind]
      simp only [hstatus, not_true, if_false, strchr, if_neg hmem]
    · rintro - x s rfl -
      exact absurd (List.mem_append_right x List.mem_cons_self) hmem
  obtain ⟨x, s, rfl, hx⟩ := List.eq_append_cons_of_mem hmem
  have hsound : BannerSound (x ++ lessThan :: s) ↔ (greaterThan ∉ s → HasEmptyItem s) ∧
      ∀ u v, s = u ++ greaterThan :: v → greaterThan ∉ u → OpensBehindEmpty u → Bracketed v := by
    refine ⟨fun h => h hstatus x s rfl hx, fun h _ x' s' hsplit hx' => ?_⟩
    obtain ⟨-, rfl⟩ := place_unique hx hx' hsplit
    exact h
  rw [hsound]
  rcases capaStops_or_overruns s with ⟨t, ht⟩ | hover
  · obtain ⟨r, hr, hiff⟩ := parseInitialReply_stops h₀ hx hstatus ht
    have hrobust : BannerRobust (x ++ lessThan :: s) ↔
        (Bracketed t → HasListAndId (x ++ lessThan :: s)) := by
      constructor
      · rintro ⟨r', hr', h⟩
        rw [hr] at hr'
        cases hr'
        exact fun hb => h (hiff.2 hb)
      · exact fun h => ⟨r, hr, fun hb => h (hiff.1 hb)⟩
    rw [hrobust]
    by_cases hgt : greaterThan ∈ s
    · obtain ⟨u, v, rfl, hu⟩ := List.eq_append_cons_of_mem hgt
      rw [ht.bracketed_iff rfl hu, hasListAndId_place hx hu]
      constructor
      · refine fun h => ⟨fun hnot => absurd hgt hnot, fun u' v' hsplit hu' hopen => ?_⟩
        obtain ⟨rfl, rfl⟩ := place_unique hu hu' hsplit
        exact h (.inl hopen)
      · rintro ⟨-, h⟩ (hopen | hv)
        · exact h u v rfl hu hopen
        · exact hv
    · obtain ⟨hempty, hnot⟩ := ht.spec hgt
      refine iff_of_true ?_ ⟨fun _ => hempty, ?_⟩
      · rintro ⟨x', y', z, rfl⟩
        exact absurd (List.mem_append_right x' (List.mem_cons_of_mem _
          (List.mem_append_right y' List.mem_cons_self))) hnot
      · rintro u v rfl - -
        exact absurd (List.mem_append_right u List.mem_cons_self) hgt
  · obtain ⟨hgt, hempty⟩ := hover.spec
    refine iff_of_false ?_ fun h => hempty (h.1 hgt)
    rintro ⟨r, hr, -⟩
    rw [parseInitialReply_overruns h₀ hx hstatus hover] at hr
    cases hr

/-- A list without its bracket leads beyond the line, and an id inside a
list is accepted. -/
theorem banner_not_robust :
    parseInitialReply (ascii "220 <auth" ++ [0]) = .error .bounds ∧
      parseInitialReply (ascii "220 <.<x>" ++ [0]) = .ok (some ⟨[], ascii "<x>"⟩) ∧
      ¬ BannerRobust (ascii "220 <auth") ∧ ¬ BannerRobust (ascii "220 <.<x>") := by
  have hover : parseInitialReply (ascii "220 <auth" ++ [0]) = .error .bounds := by decide
  have hinside : parseInitialReply (ascii "220 <.<x>" ++ [0]) =
      .ok (some ⟨[], ascii "<x>"⟩) := by decide
  refine ⟨hover, hinside, ?_, ?_⟩
  · rintro ⟨r, hr, -⟩
    rw [hover] at hr
    cases hr
  · rintro ⟨r, hr, h⟩
    rw [hinside] at hr
    cases hr
    have hplace : ascii "220 <.<x>" = ascii "220 " ++ lessThan :: (ascii ".<x" ++
        greaterThan :: []) := rfl
    have hid := h rfl
    rw [hplace, hasListAndId_place (by decide) (by decide)] at hid
    obtain ⟨x, y, z, hnil⟩ := hid
    exact List.append_ne_nil_of_right_ne_nil x (List.cons_ne_nil _ _) hnil.symm

end Reply

end Dico
