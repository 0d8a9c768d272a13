import Dico.Reply.RoundTrip
import Dico.Common.Lines
import Dico.Text.Number
import Dico.Common.Utf8
/-!
# Replies on the wire, as a client takes them apart

A reply is one line; or a line, a text, and a last line; or a line that
announces a number of definitions, as many lines with a text each, and a
last line. Which of these, the code in front of the first line says. A text
ends at the line `.`, and every line of it that starts with two dots loses
one. `Frames w a` says that the bytes `w` are the reply `a` whatever is
behind them, and there is one lemma for each kind of reply.
-/

namespace Dico

open Lines

/-! ## Reading -/

/-- A reply that was taken apart. -/
inductive Answer
  | status (line : Bytes)
  | listing (line : Bytes) (text : List Bytes) (last : Bytes)
  | definitions (line : Bytes) (entries : List (Bytes × List Bytes)) (last : Bytes)
  deriving DecidableEq, Repr

/-- The lines of a text, up to the line that ends it. -/
def readText : List Bytes → Option (List Bytes × List Bytes)
  | [] => none
  | l :: ls =>
    if l = [dot, newline] then some ([], ls)
    else (readText ls).map fun r => (unstuff l :: r.1, r.2)

/-- As many definitions as were announced. -/
def readDefinitions : ℕ → List Bytes → Option (List (Bytes × List Bytes) × List Bytes)
  | 0, ls => some ([], ls)
  | _ + 1, [] => none
  | n + 1, l :: ls =>
    if l.take 3 = ascii "151" then do
      let (text, ls) ← readText ls
      let (entries, ls) ← readDefinitions n ls
      some ((l, text) :: entries, ls)
    else none

/-- The number behind the code of a line. -/
def countIn (line : Bytes) : ℕ := numberOf 10 (digitsOf 10 (line.drop 4))

/-- The codes that announce a text. -/
def textCodes : List Bytes :=
  [ascii "110", ascii "111", ascii "112", ascii "113", ascii "114", ascii "152"]

/-- A word is looked for from the front. -/
theorem any_eq_iff {word : Bytes} {words : List Bytes} :
    (words.any fun w => decide (w = word)) = true ↔ word ∈ words := by
  rw [List.any_eq_true]
  constructor
  · rintro ⟨w, hw, h⟩
    rwa [of_decide_eq_true h] at hw
  · intro h
    exact ⟨word, h, decide_eq_true rfl⟩

instance (code : Bytes) : Decidable (code ∈ textCodes) := decidable_of_iff _ any_eq_iff

/-- The code that announces definitions. -/
def definitionsCode : Bytes := ascii "150"

/-- One reply. Where it is known to be `lone`, the first line is all of it. -/
def readAnswer (lone : Bool) : List Bytes → Option (Answer × List Bytes)
  | [] => none
  | l :: ls =>
    if lone then some (.status l, ls)
    else if l.take 3 = definitionsCode then
      match readDefinitions (countIn l) ls with
      | some (entries, last :: ls) => some (.definitions l entries last, ls)
      | _ => none
    else if l.take 3 ∈ textCodes then
      match readText ls with
      | some (text, last :: ls) => some (.listing l text last, ls)
      | _ => none
    else some (.status l, ls)

/-- **The bytes are one reply**, whatever is behind them. -/
def Frames (lone : Bool) (w : Bytes) (a : Answer) : Prop :=
  ∀ rest, readAnswer lone (lines newline (w ++ rest)) = some (a, lines newline rest)

/-! ## Texts -/

/-- The lines a client gets of marked bytes. -/
def textLines (M : List (Bool × UInt8)) : List Bytes := (lines newline (M.flatMap emit)).map unstuff

/-- Marked bytes that make a text: every line starts a chunk and has its
newline. -/
structure TextMarks (M : List (Bool × UInt8)) : Prop where
  lineMarked : LineMarked true M
  endsLine : EndsLine (M.map Prod.snd)

section Texts

variable {M : List (Bool × UInt8)} {As : List (List (Bool × UInt8) × Bool)}

/-- The lines of marked bytes go over the wire one by one. -/
theorem flatMap_emit_joinLines (As : List (List (Bool × UInt8) × Bool)) :
    (joinLines As).flatMap emit = As.flatMap fun p => p.1.flatMap emit ++ [newline] := by
  have hnl : ∀ m, emit (m, newline) = [newline] := fun m =>
    if_neg fun h => absurd h.2 (show newline ≠ dot by decide)
  rw [joinLines, List.flatMap_assoc]
  refine congrArg (List.flatMap · As) (funext fun p => ?_)
  rw [List.flatMap_append, List.flatMap_singleton, hnl]

/-- The lines of some bodies, each with its newline, and of what is behind
them. -/
theorem lines_flatMap_append {α : Type} {f : α → Bytes} {as : List α}
    (has : ∀ a ∈ as, newline ∉ f a) (rest : Bytes) :
    lines newline ((as.flatMap fun a => f a ++ [newline]) ++ rest) =
      as.map (fun a => f a ++ [newline]) ++ lines newline rest := by
  induction as with
  | nil => rfl
  | cons a as ih =>
    rw [List.forall_mem_cons] at has
    rw [List.flatMap_cons, List.append_assoc, List.append_assoc, List.singleton_append,
      lines_append_cons has.1, ih has.2, List.map_cons, List.cons_append]

/-- Those lines alone. -/
theorem lines_flatMap {α : Type} {f : α → Bytes} {as : List α} (has : ∀ a ∈ as, newline ∉ f a) :
    lines newline (as.flatMap fun a => f a ++ [newline]) = as.map fun a => f a ++ [newline] := by
  have := lines_flatMap_append has []
  rwa [List.append_nil, lines, List.append_nil] at this

/-- A line that starts a chunk is not the end of the text, and loses the
dot it was given. -/
theorem unstuff_emit {A : List (Bool × UInt8)} (hhead : ∀ a ∈ A.head?, a.1 = true) :
    A.flatMap emit ++ [newline] ≠ [dot, newline] ∧
      unstuff (A.flatMap emit ++ [newline]) =
        (A.map Prod.snd).take 1 ++ A.tail.flatMap emit ++ [newline] := by
  cases A with
  | nil => exact ⟨by decide, rfl⟩
  | cons a A =>
    obtain ⟨m, b⟩ := a
    obtain rfl : m = true := hhead _ rfl
    simp only [List.flatMap_cons, List.map_cons, List.take_succ_cons, List.take_zero,
      List.tail_cons]
    by_cases hb : b = dot
    · subst hb
      have hline : emit (true, dot) ++ A.flatMap emit ++ [newline] =
          dot :: dot :: (A.flatMap emit ++ [newline]) := rfl
      rw [hline]
      refine ⟨fun h => ?_, rfl⟩
      exact absurd (List.cons.inj (List.cons.inj h).2).1 (show dot ≠ newline by decide)
    · have hone : emit (true, b) = [b] := if_neg fun h => hb h.2
      rw [hone, List.singleton_append, List.cons_append]
      exact ⟨fun h => hb (List.cons.inj h).1,
        if_neg fun h => hb (List.cons.inj h).1⟩

/-- The lines of a text as a client gets them. -/
theorem textLines_joinLines (hAs : ∀ p ∈ As, newline ∉ p.1.map Prod.snd) :
    textLines (joinLines As) = As.map fun p => unstuff (p.1.flatMap emit ++ [newline]) := by
  have hnl : ∀ p ∈ As, newline ∉ p.1.flatMap emit := fun p hp h =>
    hAs p hp ((mem_flatMap_emit (by decide)).1 h)
  rw [textLines, flatMap_emit_joinLines, lines_flatMap hnl, List.map_map]
  rfl

/-- **A text is read up to the line that ends it.** -/
theorem readText_emit (hM : TextMarks M) (rest : Bytes) :
    readText (lines newline (M.flatMap emit ++ dot :: newline :: rest)) =
      some (textLines M, lines newline rest) := by
  obtain ⟨As, rfl, hAs⟩ := exists_joinLines hM.endsLine
  have hhead := lineMarked_joinLines hAs hM.lineMarked
  have hnl : ∀ p ∈ As, newline ∉ p.1.flatMap emit := fun p hp h =>
    hAs p hp ((mem_flatMap_emit (by decide)).1 h)
  have hdot : newline ∉ [dot] := by decide
  have hend : lines newline (dot :: newline :: rest) = [dot, newline] :: lines newline rest :=
    lines_append_cons hdot rest
  rw [textLines_joinLines hAs, flatMap_emit_joinLines, lines_flatMap_append hnl, hend]
  clear hAs hnl hM
  induction As with
  | nil =>
    rw [List.map_nil, List.nil_append, readText, if_pos rfl]
    rfl
  | cons p As ih =>
    rw [List.forall_mem_cons] at hhead
    rw [List.map_cons, List.cons_append, readText, if_neg (unstuff_emit hhead.1).1, ih hhead.2]
    rfl

/-- **A text comes through as it was written** where no dot inside a line
was put at the front of an empty buffer. -/
theorem textLines_eq (hM : TextMarks M) (hun : UnbrokenMarks true M) :
    textLines M = lines newline (M.map Prod.snd) := by
  obtain ⟨As, rfl, hAs⟩ := exists_joinLines hM.endsLine
  have hhead := lineMarked_joinLines hAs hM.lineMarked
  have hdots := (unbrokenMarks_joinLines hAs).1 hun
  rw [textLines_joinLines hAs, map_snd_joinLines, lines_flatMap hAs]
  refine List.map_congr_left fun p hp => ?_
  have htail : p.1.tail.flatMap emit = p.1.tail.map Prod.snd :=
    flatMap_emit_eq_iff.2 (hdots p hp)
  rw [(unstuff_emit (hhead p hp)).2, htail, List.map_tail]
  cases p.1 with
  | nil => rfl
  | cons a A => rfl

/-- One marked byte more. -/
theorem LineMarked.concat {start : Bool} (h : LineMarked start M) (b : UInt8) :
    LineMarked start (M ++ [(true, b)]) := by
  induction M generalizing start with
  | nil => exact ⟨fun _ => rfl, trivial⟩
  | cons a M ih => exact ⟨h.1, ih h.2⟩

/-- Marks with a newline written behind them. -/
theorem TextMarks.concat (h : LineMarked true M) : TextMarks (M ++ [(true, newline)]) where
  lineMarked := h.concat newline
  endsLine := by
    rw [List.map_append, List.map_singleton]
    exact .inr List.getLast?_concat

end Texts

/-! ## Replies -/

/-- A line with its newline. -/
def IsLine (l : Bytes) : Prop := ∃ body, l = body ++ [newline] ∧ newline ∉ body

section Replies

variable {l last u : Bytes} {M : List (Bool × UInt8)} {lone : Bool} {n : ℕ}

/-- Something in front of a line. -/
theorem IsLine.append (hu : newline ∉ u) (h : IsLine l) : IsLine (u ++ l) := by
  obtain ⟨body, rfl, hbody⟩ := h
  refine ⟨u ++ body, (List.append_assoc _ _ _).symm, ?_⟩
  rw [List.mem_append, not_or]
  exact ⟨hu, hbody⟩

/-- A line in front of what follows it. -/
theorem IsLine.lines_append (h : IsLine l) (rest : Bytes) :
    lines newline (l ++ rest) = l :: lines newline rest := by
  obtain ⟨body, rfl, hbody⟩ := h
  rw [List.append_assoc, List.singleton_append, lines_append_cons hbody]

/-- The code of a line that begins with it. -/
theorem take_code {s : Bytes} (h : 3 ≤ s.length) (t : Bytes) : (s ++ t).take 3 = s.take 3 :=
  List.take_append_of_le_length h

/-- A reply of one line. -/
theorem frames_status (hl : IsLine l)
    (hcode : lone = true ∨ l.take 3 ≠ definitionsCode ∧ l.take 3 ∉ textCodes) :
    Frames lone l (.status l) := by
  intro rest
  rw [hl.lines_append, readAnswer]
  cases lone with
  | true => exact if_pos rfl
  | false =>
    obtain ⟨h150, htext⟩ := hcode.resolve_left Bool.false_ne_true
    rw [if_neg Bool.false_ne_true, if_neg h150, if_neg htext]

/-- A reply with a text. -/
theorem frames_listing (hl : IsLine l) (hcode : l.take 3 ∈ textCodes) (hM : TextMarks M)
    (hlast : IsLine last) :
    Frames false (l ++ (M.flatMap emit ++ dot :: newline :: last))
      (.listing l (textLines M) last) := by
  intro rest
  have h150 : l.take 3 ≠ definitionsCode := by
    intro h
    rw [h] at hcode
    exact absurd hcode (by decide)
  have hassoc : l ++ (M.flatMap emit ++ dot :: newline :: last) ++ rest =
      l ++ (M.flatMap emit ++ dot :: newline :: (last ++ rest)) := by
    simp only [List.append_assoc, List.cons_append]
  rw [hassoc, hl.lines_append, readAnswer, if_neg Bool.false_ne_true, if_neg h150, if_pos hcode,
    readText_emit hM, hlast.lines_append]

/-- A definition on the wire. -/
def entryText (e : Bytes × List (Bool × UInt8)) : Bytes :=
  e.1 ++ (e.2.flatMap emit ++ [dot, newline])

/-- The definitions that were announced. -/
theorem readDefinitions_eq {es : List (Bytes × List (Bool × UInt8))}
    (hes : ∀ e ∈ es, IsLine e.1 ∧ e.1.take 3 = ascii "151" ∧ TextMarks e.2) (rest : Bytes) :
    readDefinitions es.length (lines newline (es.flatMap entryText ++ rest)) =
      some (es.map fun e => (e.1, textLines e.2), lines newline rest) := by
  induction es with
  | nil => rfl
  | cons e es ih =>
    rw [List.forall_mem_cons] at hes
    obtain ⟨⟨hline, hcode, hM⟩, hes⟩ := hes
    have hassoc : (e :: es).flatMap entryText ++ rest =
        e.1 ++ (e.2.flatMap emit ++ dot :: newline :: (es.flatMap entryText ++ rest)) := by
      rw [List.flatMap_cons, entryText]
      simp only [List.append_assoc, List.cons_append, List.nil_append]
    rw [hassoc, hline.lines_append, List.length_cons, readDefinitions, if_pos hcode,
      readText_emit hM]
    simp only [Option.bind_eq_bind, Option.bind_some, ih hes, List.map_cons]

/-- A reply with definitions. -/
theorem frames_definitions {es : List (Bytes × List (Bool × UInt8))} (hl : IsLine l)
    (hcode : l.take 3 = definitionsCode) (hcount : countIn l = es.length)
    (hes : ∀ e ∈ es, IsLine e.1 ∧ e.1.take 3 = ascii "151" ∧ TextMarks e.2)
    (hlast : IsLine last) :
    Frames false (l ++ (es.flatMap entryText ++ last))
      (.definitions l (es.map fun e => (e.1, textLines e.2)) last) := by
  intro rest
  rw [List.append_assoc, hl.lines_append, readAnswer, if_neg Bool.false_ne_true, if_pos hcode,
    hcount, List.append_assoc, readDefinitions_eq hes, hlast.lines_append]

/-- A digit as `%lu` prints it. -/
theorem digitIn_digit {c : Char} (hc : c ∈ Nat.toDigits 10 n) :
    digitIn 10 (UInt8.ofNat c.toNat) = some (c.toNat - 48) := by
  obtain ⟨hlo, hhi⟩ := Char.isDigit_iff_toNat.1 (Nat.isDigit_of_mem_toDigits (by decide)
    (by decide) hc)
  have h48 : '0'.toNat = 48 := rfl
  have h57 : '9'.toNat = 57 := rfl
  rw [h48] at hlo
  rw [h57] at hhi
  have hval := Utf8.toNat_ofNat (lt_of_le_of_lt hhi (show 57 < 256 by decide))
  have hrange : (48 : UInt8) ≤ UInt8.ofNat c.toNat ∧ UInt8.ofNat c.toNat ≤ 57 := by
    rw [UInt8.le_iff_toNat_le, UInt8.le_iff_toNat_le, hval]
    exact ⟨hlo, hhi⟩
  unfold digitIn
  simp only [if_pos hrange, hval]
  exact if_pos (by omega)

/-- A number that was printed is made of digits. -/
theorem digits_decimal (n : ℕ) : ∀ c ∈ decimal n, (digitIn 10 c).isSome := by
  intro c hc
  obtain ⟨d, hd, rfl⟩ := List.mem_map.1 hc
  rw [digitIn_digit (n := n) (by simpa [Nat.repr] using hd)]
  rfl

/-- And is read again. -/
theorem numberOf_decimal (n : ℕ) : numberOf 10 (decimal n) = n := by
  have hfold : ∀ (cs : List Char) (m : ℕ), (∀ c ∈ cs, c ∈ Nat.toDigits 10 n) →
      (ascii (String.ofList cs)).foldl (fun n c => 10 * n + (digitIn 10 c).getD 0) m =
        Nat.ofDigitChars 10 cs m := by
    intro cs m hcs
    rw [ascii, String.toList_ofList]
    induction cs generalizing m with
    | nil => rw [List.map_nil, List.foldl_nil, Nat.ofDigitChars_nil]
    | cons c cs ih =>
      rw [List.forall_mem_cons] at hcs
      rw [List.map_cons, List.foldl_cons, digitIn_digit hcs.1, Nat.ofDigitChars_cons,
        ih _ hcs.2]
      rfl
  have := hfold (Nat.toDigits 10 n) 0 fun c hc => hc
  rwa [Nat.ofDigitChars_ten_toDigits, ← Nat.toString_eq_ofList_toDigits] at this

/-- The number that was announced. -/
theorem countIn_decimal {code : Bytes} (hcode : code.length = 4) (n : ℕ) {r : Bytes}
    (hr : (r.head?.any fun c => (digitIn 10 c).isSome) = false) :
    countIn (code ++ (decimal n ++ r)) = n := by
  have hdigits := digits_decimal n
  have hspan : digitsOf 10 (decimal n ++ r) = decimal n := by
    unfold digitsOf
    rw [List.takeWhile_append_of_pos hdigits]
    cases r with
    | nil => exact List.append_nil _
    | cons c r =>
      have hnot : (digitIn 10 c).isSome = false := hr
      rw [List.takeWhile_cons, if_neg (Bool.eq_false_iff.1 hnot), List.append_nil]
  rw [countIn, ← hcode, List.drop_left, hspan, numberOf_decimal]

end Replies

end Dico
