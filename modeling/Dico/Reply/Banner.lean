import Dico.Reply.Client
import Dico.Text.Cstr
import Dico.Text.Tokenize
/-!
# The banner

`initial_banner` of `dicod/dicod.c` and `parse_initial_reply` of
`dico/connect.c`. The client takes the capabilities from between the first
pair of angle brackets into an array that grows with them, and the message
id with the second pair (`banner_roundTrip`).
-/

namespace Dico

/-- The opening bracket. -/
def lessThan : UInt8 := 60

/-- The closing bracket. -/
def greaterThan : UInt8 := 62

/-! ## The server -/

/-- `struct capa_print`, the stream as what was written to it. -/
structure CapaPrint where
  num : ℕ
  stream : Bytes

/-- `print_capa`. -/
def printCapa (cp : CapaPrint) (capa : Bytes × Bool) : CapaPrint :=
  if capa.2 then
    ⟨cp.num + 1, (if cp.num = 0 then cp.stream else cp.stream ++ [dot]) ++ capa.1⟩
  else cp

/-- `output_capabilities`, where the list of capabilities has for each its
name and whether it is enabled. -/
def outputCapabilities (capaList : List (Bytes × Bool)) : Bytes :=
  (capaList.foldl printCapa ⟨0, [lessThan]⟩).stream ++ [greaterThan]

/-- `program_version`. -/
def programVersion : Bytes := ascii "dicod (GNU dico) 2.2"

/-- `msg_id`. -/
def msgId (hostname : Bytes) (pid time : ℕ) : Bytes :=
  ascii "<" ++ decimal pid ++ ascii "." ++ decimal time ++ ascii "@" ++ hostname ++ ascii ">"

/-- `initial_banner`. -/
def initialBanner (hostname : Bytes) (initialBannerText : Option Bytes)
    (capaList : List (Bytes × Bool)) (pid time : ℕ) : Bytes :=
  ascii "220 " ++ hostname ++ ascii " " ++ initialBannerText.getD programVersion ++ ascii " " ++
    outputCapabilities capaList ++ ascii " " ++ msgId hostname pid time ++ ascii "\n"

/-! ## The client -/

/-- `dict_status_p`, on the line that was read. -/
def dictStatusP (buf status : Bytes) : Prop :=
  3 < buf.length ∧ buf.take 3 = status ∧
    (isSpace (buf.getD 3 0) ∨ buf.length = 5 ∧ buf.drop 3 = ascii "\r\n")

instance (buf status : Bytes) : Decidable (dictStatusP buf status) :=
  inferInstanceAs (Decidable (_ ∧ _ ∧ _))

/-- `x2nrealloc` for an array of pointers: how many the new block has room
for. -/
def x2nrealloc (block : Option ℕ) (n : ℕ) : ℕ :=
  match block with
  | none => if n = 0 then 64 / 8 else n
  | some _ => n + (n + 1) / 2

/-- The capabilities of a connection: those stored, the room in the block
of `capav`, and the variable `n` that follows it. -/
structure CapaArray where
  capav : List Bytes
  block : Option ℕ
  n : ℕ

namespace CapaArray

/-- Before the first capability. -/
def empty : CapaArray := ⟨[], none, 0⟩

/-- The array is enlarged where it is full. -/
def grow (a : CapaArray) : CapaArray :=
  if a.capav.length = a.n then
    let n := x2nrealloc a.block (if a.n = 0 then 2 else a.n)
    { a with block := some n, n := n }
  else a

/-- `conn->capav[conn->capac++] = s`. -/
def push (a : CapaArray) (s : Bytes) : Except Fault CapaArray :=
  if a.capav.length < a.block.getD 0 then .ok { a with capav := a.capav ++ [s] }
  else .error .bounds

/-- The array has room for what it holds. -/
def Fits (a : CapaArray) : Prop := a.capav.length ≤ a.n ∧ a.block.getD 0 = a.n

end CapaArray

/-- The loop of `parse_initial_reply`, with the number of capabilities it
may find: where it stops, and the array. -/
def capaLoop (m : Bytes) : ℕ → ℕ → CapaArray → Except Fault (ℕ × CapaArray)
  | 0, _, _ => .error .loop
  | fuel + 1, p, a => do
    let s ← strAt m p
    let len := strcspn [dot, greaterThan] s
    if len = 0 then .ok (p, a)
    else
      let a ← a.grow.push (s.take len)
      let p := p + len + 1
      if (s.drop len).head? = some greaterThan then .ok (p, a) else capaLoop m fuel p a

/-- The capabilities and the message id of a connection. -/
structure InitialReply where
  capav : List Bytes
  msgid : Bytes
  deriving DecidableEq

/-- `parse_initial_reply`, on the block of `conn->buf`. The `int` counters of
the capabilities are taken not to come to `2 ^ 31`. -/
def parseInitialReply (m : Bytes) : Except Fault (Option InitialReply) := do
  let buf ← strAt m 0
  if ¬ dictStatusP buf (ascii "220") then .ok none
  else
    match strchr lessThan buf with
    | none => .ok none
    | some i =>
      let (p, a) ← capaLoop m (m.length + 1) (i + 1) .empty
      let s ← strAt m p
      match strchr lessThan s with
      | none => .ok none
      | some i =>
        let s := s.drop i
        let len := strcspn [greaterThan] s
        if len = s.length then .ok none else .ok (some ⟨a.capav, s.take (len + 1)⟩)

/-! ## What is on the line -/

/-- A byte that neither ends a string or a line nor is a bracket. -/
def Plain (b : UInt8) : Prop := b ≠ 0 ∧ b ≠ newline ∧ b ≠ lessThan ∧ b ≠ greaterThan

instance : DecidablePred Plain := fun b => inferInstanceAs (Decidable (b ≠ 0 ∧ _))

/-- The names that are enabled. -/
def enabled (capaList : List (Bytes × Bool)) : List Bytes :=
  (capaList.filter fun capa => capa.2).map fun capa => capa.1

/-- The globals of a server that writes its banner. -/
structure Banner where
  hostname : Bytes
  text : Option Bytes
  capaList : List (Bytes × Bool)
  pid : ℕ
  time : ℕ
  hostname_plain : ∀ b ∈ hostname, Plain b
  text_plain : ∀ t ∈ text, ∀ b ∈ t, Plain b
  capa_ne_nil : ∀ c ∈ enabled capaList, c ≠ []
  capa_plain : ∀ c ∈ enabled capaList, ∀ b ∈ c, Plain b ∧ b ≠ dot

namespace Banner

variable (x : Banner)

/-- The line it writes. -/
def line : Bytes := initialBanner x.hostname x.text x.capaList x.pid x.time

/-- The message id it writes. -/
def id : Bytes := msgId x.hostname x.pid x.time

/-- The line up to the capabilities. -/
def head : Bytes :=
  ascii "220 " ++ x.hostname ++ ascii " " ++ x.text.getD programVersion ++ ascii " "

/-- The message id without its brackets. -/
def idText : Bytes :=
  decimal x.pid ++ ascii "." ++ decimal x.time ++ ascii "@" ++ x.hostname

end Banner

section Server

/-- Names behind others, each with a dot before it. -/
def dotted (cs : List Bytes) : Bytes := cs.flatMap fun c => dot :: c

/-- Names as they are listed. -/
def capaText : List Bytes → Bytes
  | [] => []
  | c :: cs => c ++ dotted cs

/-- Behind the first name every name gets a dot. -/
theorem foldl_printCapa_succ (l : List (Bytes × Bool)) (num : ℕ) (out : Bytes) :
    (l.foldl printCapa ⟨num + 1, out⟩).stream = out ++ dotted (enabled l) := by
  induction l generalizing num out with
  | nil => exact (List.append_nil out).symm
  | cons capa l ih =>
    obtain ⟨name, on⟩ := capa
    cases on with
    | false => exact ih num out
    | true =>
      change (l.foldl printCapa ⟨num + 1 + 1, out ++ [dot] ++ name⟩).stream =
        out ++ (dot :: name ++ dotted (enabled l))
      rw [ih]
      simp only [List.append_assoc, List.cons_append, List.nil_append]

/-- The list of capabilities. -/
theorem foldl_printCapa (l : List (Bytes × Bool)) (out : Bytes) :
    (l.foldl printCapa ⟨0, out⟩).stream = out ++ capaText (enabled l) := by
  induction l with
  | nil => exact (List.append_nil out).symm
  | cons capa l ih =>
    obtain ⟨name, on⟩ := capa
    cases on with
    | false => exact ih
    | true =>
      change (l.foldl printCapa ⟨0 + 1, out ++ name⟩).stream = out ++ (name ++ dotted (enabled l))
      rw [foldl_printCapa_succ, List.append_assoc]

/-- The digits of a number. -/
theorem decimal_plain (n : ℕ) : ∀ b ∈ decimal n, Plain b := by
  intro b hb
  obtain ⟨c, hc, rfl⟩ := List.mem_map.1 hb
  have hdigit : c ∈ Nat.toDigits 10 n := by simpa [Nat.repr] using hc
  obtain ⟨hlo, hhi⟩ := Char.isDigit_iff_toNat.1 (Nat.isDigit_of_mem_toDigits (by decide)
    (by decide) hdigit)
  have hval := Utf8.toNat_ofNat (lt_of_le_of_lt hhi (show '9'.toNat < 256 by decide))
  have hne : ∀ d : UInt8, d.toNat < '0'.toNat ∨ '9'.toNat < d.toNat → UInt8.ofNat c.toNat ≠ d := by
    intro d hd h
    rw [← h, hval] at hd
    omega
  exact ⟨hne 0 (by decide), hne newline (by decide), hne lessThan (by decide),
    hne greaterThan (by decide)⟩

/-- The message id between its brackets. -/
theorem idText_plain (x : Banner) : ∀ b ∈ x.idText, Plain b := by
  intro b hb
  simp only [Banner.idText, List.mem_append] at hb
  rcases hb with (((h | h) | h) | h) | h
  · exact decimal_plain x.pid b h
  · exact forall_mem_of_all (by decide) b h
  · exact decimal_plain x.time b h
  · exact forall_mem_of_all (by decide) b h
  · exact x.hostname_plain b h

/-- What is written before the capabilities. -/
theorem head_plain (x : Banner) : ∀ b ∈ x.head, Plain b := by
  intro b hb
  simp only [Banner.head, List.mem_append] at hb
  rcases hb with (((h | h) | h) | h) | h
  · exact forall_mem_of_all (by decide) b h
  · exact x.hostname_plain b h
  · exact forall_mem_of_all (by decide) b h
  · cases htext : x.text with
    | none =>
      rw [htext] at h
      exact forall_mem_of_all (by decide) b h
    | some t =>
      rw [htext] at h
      exact x.text_plain t htext b h
  · exact forall_mem_of_all (by decide) b h

/-- The bytes of the list of capabilities. -/
theorem capaText_mem {cs : List Bytes} {b : UInt8} (h : b ∈ capaText cs) :
    b = dot ∨ ∃ c ∈ cs, b ∈ c := by
  cases cs with
  | nil => cases h
  | cons c cs =>
    rcases List.mem_append.1 h with h | h
    · exact .inr ⟨c, List.mem_cons_self, h⟩
    · obtain ⟨d, hd, hmem⟩ := List.mem_flatMap.1 h
      rcases List.mem_cons.1 hmem with h | h
      · exact .inl h
      · exact .inr ⟨d, List.mem_cons_of_mem _ hd, h⟩

/-- The list of capabilities has nothing in it that ends it. -/
theorem capaText_plain (x : Banner) : ∀ b ∈ capaText (enabled x.capaList), Plain b := by
  intro b hb
  rcases capaText_mem hb with rfl | ⟨c, hc, hmem⟩
  · decide
  · exact (x.capa_plain c hc b hmem).1

/-- The line without its newline, in the parts the client finds. -/
def Banner.held (x : Banner) : Bytes :=
  x.head ++ lessThan :: (capaText (enabled x.capaList) ++ greaterThan :: space :: lessThan ::
    (x.idText ++ [greaterThan]))

/-- The message id with its brackets. -/
theorem id_eq (x : Banner) : x.id = lessThan :: (x.idText ++ [greaterThan]) := by
  rw [Banner.id, msgId, Banner.idText, show ascii "<" = [lessThan] by decide,
    show ascii ">" = [greaterThan] by decide]
  simp only [List.append_assoc, List.cons_append, List.nil_append]

/-- The line as it is written. -/
theorem line_eq_held (x : Banner) : x.line = x.held ++ [newline] := by
  rw [Banner.line, initialBanner, outputCapabilities, foldl_printCapa, ← Banner.id, id_eq,
    Banner.held, Banner.head, show ascii " " = [space] by decide,
    show ascii "\n" = [newline] by decide]
  simp only [List.append_assoc, List.cons_append, List.nil_append]

/-- The bytes of the line. -/
theorem held_mem (x : Banner) : ∀ b ∈ x.held, b ≠ 0 ∧ b ≠ newline := by
  intro b hb
  simp only [Banner.held, List.mem_append, List.mem_cons, List.not_mem_nil, or_false] at hb
  rcases hb with h | rfl | h | rfl | rfl | rfl | h | rfl
  · exact ⟨(head_plain x b h).1, (head_plain x b h).2.1⟩
  · decide
  · exact ⟨(capaText_plain x b h).1, (capaText_plain x b h).2.1⟩
  · decide
  · decide
  · decide
  · exact ⟨(idText_plain x b h).1, (idText_plain x b h).2.1⟩
  · decide

/-- The line as the client holds it. -/
theorem lineHeld_line (x : Banner) : lineHeld x.line = x.held := by
  obtain ⟨a, ha⟩ : ∃ a, x.held = a ++ [greaterThan] :=
    ⟨x.head ++ lessThan :: (capaText (enabled x.capaList) ++ greaterThan :: space :: lessThan ::
      x.idText), by simp only [Banner.held, List.append_assoc, List.cons_append]⟩
  have hmem := held_mem x
  rw [ha] at hmem
  have hheld := lineHeld_append (x := []) (fun h => (hmem newline (List.mem_append_left _ h)).2 rfl)
    (show ¬ (greaterThan = carriageReturn ∨ greaterThan = newline) by decide) List.not_mem_nil
  rw [line_eq_held, ha, List.append_assoc]
  exact hheld

end Server

/-! ## What the client makes of it -/

section Client

variable {a : CapaArray} {pre t : Bytes} {c : Bytes}

/-- An array that was enlarged has room for one more. -/
theorem CapaArray.Fits.grow (h : a.Fits) :
    a.grow.capav = a.capav ∧ a.capav.length < a.grow.n ∧ a.grow.block.getD 0 = a.grow.n := by
  obtain ⟨hle, hblock⟩ := h
  by_cases hfull : a.capav.length = a.n
  · have hlt : a.n < x2nrealloc a.block (if a.n = 0 then 2 else a.n) := by
      cases hb : a.block with
      | none =>
        rw [hb] at hblock
        rw [← hblock]
        decide
      | some k =>
        simp only [x2nrealloc]
        split_ifs <;> omega
    rw [CapaArray.grow, if_pos hfull]
    exact ⟨rfl, hfull ▸ hlt, rfl⟩
  · rw [CapaArray.grow, if_neg hfull]
    exact ⟨rfl, lt_of_le_of_ne hle hfull, hblock⟩

/-- One more capability is stored. -/
theorem CapaArray.Fits.push (h : a.Fits) (s : Bytes) :
    ∃ a', a.grow.push s = .ok a' ∧ a'.Fits ∧ a'.capav = a.capav ++ [s] := by
  obtain ⟨hcapav, hlt, hblock⟩ := h.grow
  refine ⟨{ a.grow with capav := a.capav ++ [s] }, ?_, ⟨?_, hblock⟩, rfl⟩
  · rw [CapaArray.push, hcapav, hblock, if_pos hlt]
  · rw [List.length_append, List.length_singleton]
    exact hlt

/-- One turn of the loop, over a name that ends in `d`. -/
theorem capaLoop_name {d : UInt8} (pre u v c : Bytes) (fuel : ℕ) (ha : a.Fits) (hne : c ≠ [])
    (hitem : ∀ b ∈ c, b ≠ 0 ∧ b ≠ dot ∧ b ≠ greaterThan) (hd : d ∈ [dot, greaterThan])
    (hu : 0 ∉ u) :
    ∃ a', a'.Fits ∧ a'.capav = a.capav ++ [c] ∧
      capaLoop (pre ++ (c ++ d :: (u ++ 0 :: v))) (fuel + 1) pre.length a =
        if d = greaterThan then .ok ((pre ++ (c ++ [d])).length, a')
        else capaLoop (pre ++ (c ++ d :: (u ++ 0 :: v))) fuel (pre ++ (c ++ [d])).length a' := by
  have hd₀ : d ≠ 0 := by
    rintro rfl
    exact absurd hd (by decide)
  have hnull : 0 ∉ c ++ d :: u := by
    intro h
    rcases List.mem_append.1 h with h | h
    · exact (hitem 0 h).1 rfl
    · exact hu ((List.mem_cons.1 h).resolve_left hd₀.symm)
  have hstr : strAt (pre ++ (c ++ d :: (u ++ 0 :: v))) pre.length = .ok (c ++ d :: u) := by
    have happ := strAt_append pre hnull v
    rwa [List.append_assoc, List.cons_append] at happ
  have hspan : strcspn [dot, greaterThan] (c ++ d :: u) = c.length := by
    refine strcspn_append (fun b hb hmem => ?_) hd
    obtain ⟨-, hdot, hgt⟩ := hitem b hb
    rcases List.mem_cons.1 hmem with h | h
    · exact hdot h
    · exact hgt (List.mem_singleton.1 h)
  obtain ⟨a', hpush, hfits, hcapav⟩ := ha.push c
  refine ⟨a', hfits, hcapav, ?_⟩
  rw [capaLoop, hstr, ok_bind]
  simp only [hspan, if_neg (fun h => hne (List.eq_nil_of_length_eq_zero h)), List.take_left,
    List.drop_left, hpush, ok_bind, List.head?_cons, Option.some.injEq, List.length_append,
    List.length_singleton, Nat.add_assoc]

/-- No null comes in with the dots. -/
theorem null_notMem_dotted {cs : List Bytes} (hcs : ∀ c ∈ cs, (0 : UInt8) ∉ c) :
    0 ∉ dotted cs := by
  intro h
  obtain ⟨c, hc, hmem⟩ := List.mem_flatMap.1 h
  exact hcs c hc ((List.mem_cons.1 hmem).resolve_left (by decide))

/-- Each name brings its dot. -/
theorem length_le_dotted (cs : List Bytes) : cs.length ≤ (dotted cs).length := by
  induction cs with
  | nil => exact le_rfl
  | cons c cs ih =>
    rw [dotted, List.flatMap_cons, ← dotted, List.length_append, List.length_cons, List.length_cons]
    omega

/-- **The capabilities** are taken from the list up to its bracket. -/
theorem capaLoop_names (cs : List Bytes) (pre t c : Bytes) (fuel : ℕ) (ha : a.Fits)
    (hne : ∀ c' ∈ c :: cs, c' ≠ []) (hplain : ∀ c' ∈ c :: cs, ∀ b ∈ c', Plain b ∧ b ≠ dot)
    (ht : 0 ∉ t) (junk : Bytes) (hfuel : cs.length < fuel) :
    ∃ a', capaLoop (pre ++ (c ++ dotted cs ++ greaterThan :: (t ++ 0 :: junk))) fuel pre.length a =
        .ok ((pre ++ (c ++ dotted cs ++ [greaterThan])).length, a') ∧
      a'.capav = a.capav ++ c :: cs := by
  have hitem : ∀ c' ∈ c :: cs, ∀ b ∈ c', b ≠ 0 ∧ b ≠ dot ∧ b ≠ greaterThan := by
    intro c' hc' b hb
    obtain ⟨⟨h₀, -, -, hgt⟩, hdot⟩ := hplain c' hc' b hb
    exact ⟨h₀, hdot, hgt⟩
  induction cs generalizing pre c a fuel with
  | nil =>
    obtain ⟨fuel, rfl⟩ := Nat.exists_eq_add_of_lt hfuel
    obtain ⟨a', -, hcapav, hrun⟩ := capaLoop_name pre t junk c (0 + fuel) ha
      (hne c List.mem_cons_self) (hitem c List.mem_cons_self) (d := greaterThan) (by decide) ht
    refine ⟨a', ?_, hcapav⟩
    simp only [dotted, List.flatMap_nil, List.append_nil]
    exact hrun
  | cons c' cs ih =>
    obtain ⟨fuel, rfl⟩ := Nat.exists_eq_add_of_lt hfuel
    have hu : 0 ∉ c' ++ dotted cs ++ greaterThan :: t := by
      intro h
      rcases List.mem_append.1 h with h | h
      · rcases List.mem_append.1 h with h | h
        · exact (hplain c' (List.mem_cons_of_mem _ List.mem_cons_self) 0 h).1.1 rfl
        · exact null_notMem_dotted (fun d hd h₀ => (hplain d (List.mem_cons_of_mem _
            (List.mem_cons_of_mem _ hd)) 0 h₀).1.1 rfl) h
      · exact ht ((List.mem_cons.1 h).resolve_left (by decide))
    obtain ⟨a', hfits, hcapav, hrun⟩ := capaLoop_name pre _ junk c ((c' :: cs).length + fuel) ha
      (hne c List.mem_cons_self) (hitem c List.mem_cons_self) (d := dot) (by decide) hu
    obtain ⟨a'', hmore, hcapav'⟩ := ih (a := a') (pre ++ (c ++ [dot])) c'
      ((c' :: cs).length + fuel) hfits (fun d hd => hne d (List.mem_cons_of_mem _ hd))
      (fun d hd => hplain d (List.mem_cons_of_mem _ hd)) (by rw [List.length_cons]; omega)
      (fun d hd => hitem d (List.mem_cons_of_mem _ hd))
    refine ⟨a'', ?_, ?_⟩
    · rw [if_neg (by decide)] at hrun
      simp only [dotted, List.flatMap_cons, List.append_assoc, List.cons_append,
        List.nil_append] at hrun hmore ⊢
      rw [hrun]
      exact hmore
    · rw [hcapav', hcapav, List.append_assoc, List.singleton_append]

/-- The loop stops before the message id. -/
theorem capaLoop_held (x : Banner) (junk : Bytes) :
    ∃ pre gap a, capaLoop (x.held ++ 0 :: junk) ((x.held ++ 0 :: junk).length + 1)
        (x.head.length + 1) .empty = .ok (pre.length, a) ∧ a.capav = enabled x.capaList ∧
      x.held = pre ++ (gap ++ lessThan :: (x.idText ++ [greaterThan])) ∧ lessThan ∉ gap := by
  have hpre : (x.head ++ [lessThan]).length = x.head.length + 1 := by
    rw [List.length_append, List.length_singleton]
  have hnull : 0 ∉ x.held := fun h => (held_mem x 0 h).1 rfl
  cases hcapa : enabled x.capaList with
  | nil =>
    -- the first byte is the bracket
    have hheld : x.held = (x.head ++ [lessThan]) ++ ([greaterThan, space] ++ lessThan ::
        (x.idText ++ [greaterThan])) := by
      rw [Banner.held, hcapa]
      simp only [capaText, List.append_assoc, List.cons_append, List.nil_append]
    refine ⟨x.head ++ [lessThan], [greaterThan, space], .empty, ?_, rfl, hheld, by decide⟩
    rw [hheld] at hnull
    have hstr := strAt_append (x.head ++ [lessThan])
      (fun h => hnull (List.mem_append_right _ h)) junk
    rw [← List.append_assoc, ← hheld, hpre] at hstr
    rw [capaLoop, hstr, ok_bind, hpre]
    exact if_pos rfl
  | cons c cs =>
    have hheld : x.held = (x.head ++ [lessThan]) ++ (c ++ dotted cs ++ greaterThan ::
        ([space] ++ lessThan :: (x.idText ++ [greaterThan]))) := by
      rw [Banner.held, hcapa]
      simp only [capaText, List.append_assoc, List.cons_append, List.nil_append]
    have htail : 0 ∉ [space] ++ lessThan :: (x.idText ++ [greaterThan]) := fun h => hnull <| by
      rw [hheld]
      exact List.mem_append_right _ (List.mem_append_right _ (List.mem_cons_of_mem _ h))
    have hfuel : cs.length < (x.held ++ 0 :: junk).length + 1 := by
      have hle := length_le_dotted cs
      rw [hheld]
      simp only [List.length_append]
      omega
    obtain ⟨a, hrun, hcapav⟩ := capaLoop_names cs (x.head ++ [lessThan])
      ([space] ++ lessThan :: (x.idText ++ [greaterThan])) c ((x.held ++ 0 :: junk).length + 1)
      (show CapaArray.Fits .empty from ⟨le_rfl, rfl⟩) (hcapa ▸ x.capa_ne_nil)
      (hcapa ▸ x.capa_plain) htail junk hfuel
    refine ⟨x.head ++ [lessThan] ++ (c ++ dotted cs ++ [greaterThan]), [space], a, ?_, hcapav, ?_,
      by decide⟩
    · rw [← hrun, ← hpre]
      congr 1
      rw [hheld]
      simp only [List.append_assoc, List.cons_append]
    · rw [hheld]
      simp only [List.append_assoc, List.cons_append, List.nil_append]

end Client

/-- **The banner comes back**: the client finds the names that are enabled,
in their order, and the message id. -/
theorem banner_roundTrip (x : Banner) (junk : Bytes) :
    parseInitialReply (lineHeld x.line ++ 0 :: junk) =
      .ok (some ⟨enabled x.capaList, x.id⟩) := by
  have hnull : 0 ∉ x.held := fun h => (held_mem x 0 h).1 rfl
  have hstr : strAt (x.held ++ 0 :: junk) 0 = .ok x.held := strAt_append [] hnull junk
  have hstatus : dictStatusP x.held (ascii "220") := by
    obtain ⟨u, hu⟩ : ∃ u, x.held = [50, 50, 48, 32] ++ u := by
      rw [Banner.held, Banner.head, show ascii "220 " = [50, 50, 48, 32] by decide]
      simp only [List.append_assoc]
      exact ⟨_, rfl⟩
    rw [hu]
    refine ⟨?_, show [50, 50, 48] = ascii "220" by decide, .inl (.inl rfl)⟩
    rw [List.length_append]
    exact Nat.lt_add_right _ (by decide)
  have hopen : strchr lessThan x.held = some x.head.length :=
    strchr_append fun h => (head_plain x lessThan h).2.2.1 rfl
  obtain ⟨pre, gap, a, hloop, hcapav, hheld, hgap⟩ := capaLoop_held x junk
  have hrest : strAt (x.held ++ 0 :: junk) pre.length =
      .ok (gap ++ lessThan :: (x.idText ++ [greaterThan])) := by
    have happ := strAt_append pre (fun h => hnull (hheld ▸ List.mem_append_right pre h)) junk
    rwa [hheld, List.append_assoc]
  have hchr : strchr lessThan (gap ++ lessThan :: (x.idText ++ [greaterThan])) =
      some gap.length := strchr_append hgap
  have hspan : strcspn [greaterThan] (lessThan :: (x.idText ++ [greaterThan])) =
      (lessThan :: x.idText).length := by
    refine strcspn_append (s := lessThan :: x.idText) (fun b hb hmem => ?_) List.mem_cons_self
    obtain rfl := List.mem_singleton.1 hmem
    rcases List.mem_cons.1 hb with h | h
    · exact absurd h (by decide)
    · exact (idText_plain x _ h).2.2.2 rfl
  have hne : (lessThan :: x.idText).length ≠ (lessThan :: (x.idText ++ [greaterThan])).length := by
    simp only [List.length_cons, List.length_append, List.length_nil]
    omega
  have hid : (lessThan :: (x.idText ++ [greaterThan])).take ((lessThan :: x.idText).length + 1) =
      x.id := by
    rw [id_eq, List.take_of_length_le]
    simp only [List.length_cons, List.length_append, List.length_nil]
    omega
  rw [lineHeld_line, parseInitialReply, hstr, ok_bind, if_neg (not_not_intro hstatus)]
  simp only [hopen, hloop, hrest, hchr, ok_bind, List.drop_left, hspan, if_neg hne, hid, hcapav]

end Dico
