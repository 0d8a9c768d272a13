import Dico.Common.Memory
/-!
# Quoted-printable

A quoted-printable text is a sequence of items: characters that stand for
themselves, blanks, bytes in hexadecimal, and line breaks that count or do
not. A line break is a newline, with a carriage return before it or not.
Blanks at the end of a line are not part of what the text stands for.
-/

namespace Dico

namespace Qp

/-- A character that stands for itself and is no blank. -/
def IsLiteral (b : UInt8) : Prop := 33 ≤ b ∧ b ≤ 126 ∧ b ≠ 61

instance : DecidablePred IsLiteral := fun _ => inferInstanceAs (Decidable (_ ∧ _ ∧ _))

/-- An item of a text. -/
inductive Item
  | char (b : UInt8) (hb : IsLiteral b)
  /-- A space or a tab. -/
  | blank (tab : Bool)
  /-- A byte in hexadecimal. -/
  | hex (b : UInt8)
  /-- A line break that does not count. -/
  | soft (cr : Bool)
  /-- A line break. -/
  | hard (cr : Bool)

/-- The byte of a blank. -/
def blankByte (tab : Bool) : UInt8 := if tab then 9 else 32

/-- A line break. -/
def lineBreak (cr : Bool) : Bytes := if cr then [13, 10] else [10]

/-- A hexadecimal digit. -/
def hexDigit (n : ℕ) : UInt8 := UInt8.ofNat (if n < 10 then 48 + n else 55 + n)

/-- How an item is written. -/
def Item.text : Item → Bytes
  | char b _ => [b]
  | blank tab => [blankByte tab]
  | hex b => [61, hexDigit (b.toNat / 16), hexDigit (b.toNat % 16)]
  | soft cr => 61 :: lineBreak cr
  | hard cr => lineBreak cr

/-- The text of some items. -/
def text (items : List Item) : Bytes := items.flatMap Item.text

/-- Whether the line ends here, blanks left out. -/
def lineEnds : List Item → Bool
  | [] => true
  | .hard _ :: _ => true
  | .blank _ :: items => lineEnds items
  | _ => false

/-- What some items stand for. -/
def decode : List Item → Bytes
  | [] => []
  | .char b _ :: items => b :: decode items
  | .blank tab :: items => if lineEnds items then decode items else blankByte tab :: decode items
  | .hex b :: items => b :: decode items
  | .soft _ :: items => decode items
  | .hard _ :: items => 10 :: decode items

example : decode [.blank false, .hex 61, .soft true, .char 97 (by decide), .blank true,
    .hard false] = [32, 61, 97, 10] := by decide

section Lemmas

variable {items : List Item}

theorem text_cons (x : Item) (items : List Item) : text (x :: items) = x.text ++ text items :=
  List.flatMap_cons

/-- What a text stands for is no longer than the text, and as long only
where it is the text itself. -/
theorem decode_length (items : List Item) :
    (decode items).length ≤ (text items).length ∧
      ((decode items).length = (text items).length → decode items = text items) := by
  induction items with
  | nil => exact ⟨le_rfl, fun _ => rfl⟩
  | cons x items ih =>
    obtain ⟨hle, heq⟩ := ih
    rw [text_cons, List.length_append]
    have hkept (b : UInt8) : (b :: decode items).length ≤ [b].length + (text items).length ∧
        ((b :: decode items).length = [b].length + (text items).length →
          b :: decode items = [b] ++ text items) := by
      rw [List.length_cons, List.length_singleton]
      refine ⟨by omega, fun hlen => ?_⟩
      rw [heq (by omega), List.singleton_append]
    have hless (d : Bytes) (n : ℕ) (hd : d.length ≤ (text items).length + 1) (hn : 1 < n) :
        d.length ≤ n + (text items).length ∧
          (d.length = n + (text items).length → d = x.text ++ text items) :=
      ⟨by omega, fun hlen => by omega⟩
    cases x with
    | char b hb => exact hkept b
    | blank tab =>
      rw [decode]
      split_ifs
      · refine ⟨by omega, fun hlen => ?_⟩
        have hone : (Item.blank tab).text.length = 1 := rfl
        omega
      · exact hkept (blankByte tab)
    | hex b => exact hless (b :: decode items) 3 (by rw [List.length_cons]; omega) (by decide)
    | soft cr =>
      refine hless (decode items) _ (by omega) ?_
      cases cr <;> decide
    | hard cr =>
      cases cr with
      | false => exact hkept 10
      | true => exact hless (10 :: decode items) 2 (by rw [List.length_cons]; omega) (by decide)

/-- A text without blanks, carriage returns and `=` stands for itself. -/
theorem decode_eq_text (h : ∀ b ∈ text items, b ≠ 32 ∧ b ≠ 9 ∧ b ≠ 61 ∧ b ≠ 13) :
    decode items = text items := by
  induction items with
  | nil => rfl
  | cons x items ih =>
    rw [text_cons] at h ⊢
    have htail := ih fun b hb => h b (List.mem_append_right _ hb)
    have hhead (b : UInt8) (hb : b ∈ x.text) := h b (List.mem_append_left _ hb)
    cases x with
    | char b hb =>
      rw [decode, htail]
      rfl
    | blank tab =>
      have hb := hhead (blankByte tab) List.mem_cons_self
      cases tab with
      | false => exact absurd rfl hb.1
      | true => exact absurd rfl hb.2.1
    | hex b => exact absurd rfl (hhead 61 List.mem_cons_self).2.2.1
    | soft cr => exact absurd rfl (hhead 61 List.mem_cons_self).2.2.1
    | hard cr =>
      cases cr with
      | false =>
        rw [decode, htail]
        rfl
      | true => exact absurd rfl (hhead 13 List.mem_cons_self).2.2.2

/-- Where a line ends and nothing is left, there are blanks alone. -/
theorem blanks_of_lineEnds (hend : lineEnds items = true) (hnil : decode items = []) :
    ∀ b ∈ text items, b = 32 ∨ b = 9 := by
  induction items with
  | nil => exact fun b hb => absurd hb List.not_mem_nil
  | cons x items ih =>
    cases x with
    | blank tab =>
      rw [lineEnds] at hend
      rw [decode, if_pos hend] at hnil
      rw [text_cons]
      intro b hb
      rcases List.mem_append.1 hb with hb | hb
      · obtain rfl := List.mem_singleton.1 hb
        cases tab with
        | false => exact .inl rfl
        | true => exact .inr rfl
      · exact ih hend hnil b hb
    | hard cr => cases hnil
    | _ => cases hend

/-- **A text that stands for nothing** is line breaks that do not count,
and blanks behind them. -/
theorem decode_eq_nil_cons {x : Item} (h : decode (x :: items) = []) :
    decode items = [] ∧ ((∃ cr, x = .soft cr) ∨ ∀ b ∈ text (x :: items), b = 32 ∨ b = 9) := by
  cases x with
  | blank tab =>
    have hend : lineEnds items = true := by
      by_contra hend
      rw [decode, if_neg hend] at h
      cases h
    have hnil := h
    rw [decode, if_pos hend] at h
    exact ⟨h, .inr (@blanks_of_lineEnds (.blank tab :: items) hend hnil)⟩
  | soft cr => exact ⟨h, .inl ⟨cr, rfl⟩⟩
  | _ => cases h

end Lemmas

end Qp

end Dico
