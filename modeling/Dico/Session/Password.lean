import Dico.Filter.Base64Whole
/-!
# Stored passwords

`dicod_check_password` compares a password with a stored one, which may
begin with the name of a scheme. Of the two schemes with a salt, `chk_ssha`
asks for more bytes than an MD5 digest has, and not than one of SHA-1: it
hashes a salt of a negative length where there are 17 to 19, and takes 20
bytes for a digest with an empty salt. `checkPassword_iff` says that this,
and lengths that an `int` does not hold, is all that goes wrong.

The hash functions, `crypt` and `toupper` are parameters.
-/

namespace Dico

/-! ## Decoding a string -/

/-- The test of `dico_base64_decode` for one group, and its bytes. -/
def base64Group (input : Bytes) : Except Fault (Option Bytes) := do
  let a ← load input 0
  if b64accepts false a = false then .ok none
  else do
    let b ← load input 1
    if b64accepts false b = false then .ok none
    else do
      let c ← load input 2
      if b64accepts true c = false then .ok none
      else do
        let d ← load input 3
        if b64accepts true d = false then .ok none
        else .ok (some (base64Bytes a b c d))

/-- The loop of `dico_base64_decode` over memory that goes on behind the
`input_len` bytes it is given. -/
def base64Scan (olen : ℕ) : ℕ → Bytes → ℕ → Bytes → Except Fault (Option Bytes)
  | 0, _, _, _ => .error .loop
  | fuel + 1, input, inputLen, out => do
    match ← base64Group input with
    | none => .ok none
    | some group =>
      if olen < (out ++ group).length then .error .bounds
      -- The null behind the input is no digit: four bytes are left here.
      else if 0 < inputLen - 4 then
        base64Scan olen fuel (input.drop 4) (inputLen - 4) (out ++ group)
      else .ok (some (out ++ group))

/-- `dico_base64_decode (s, strlen (s), ..)`: its output, if it returns 0. -/
def base64DecodeString (s : Bytes) : Except Fault (Option Bytes) :=
  let olen := (asInt s.length % 2 ^ 64).toNat
  if ¬Grants olen then .ok none else base64Scan olen (s.length + 1) (s ++ [0]) s.length []

/-! ## The schemes -/

/-- The difference of the first bytes that differ. -/
def bytesCmp : Bytes → Bytes → ℤ
  | a :: s, b :: t => if a = b then bytesCmp s t else (a.toNat : ℤ) - b.toNat
  | _, _ => 0

/-- `strcmp`. -/
def strcmp (s t : Bytes) : ℤ := bytesCmp (s ++ [0]) (t ++ [0])

/-- `memcmp`. -/
def memcmp (a b : Bytes) (n : ℕ) : Except Fault ℤ :=
  if n ≤ a.length ∧ n ≤ b.length then .ok (bytesCmp (a.take n) (b.take n)) else .error .bounds

/-- A hash function with digests of `n` bytes. -/
structure Hash (n : ℕ) where
  digest : Bytes → Bytes
  length_digest : ∀ s, (digest s).length = n

/-- The functions that are not part of the server. `crypt` may have no
result. -/
structure Ciphers where
  md5 : Hash 16
  sha1 : Hash 20
  crypt : Bytes → Bytes → Option Bytes

/-- `chk_md5` and `chk_sha`. -/
def chkPlain {n : ℕ} (hash : Hash n) (dbPass pass : Bytes) : Except Fault ℤ := do
  match ← base64DecodeString dbPass with
  | none => .ok (-1)
  | some buf => if buf.length ≠ n then .ok (-1) else memcmp (hash.digest pass) buf n

/-- `chk_smd5` and `chk_ssha`, with the number of bytes there have to be
more of. -/
def chkSalted {n : ℕ} (hash : Hash n) (least : ℕ) (dbPass pass : Bytes) : Except Fault ℤ := do
  match ← base64DecodeString dbPass with
  | none => .ok (-1)
  | some buf =>
    if buf.length ≤ least then .ok (-1)
    else if buf.length < n then .error .bounds
    else memcmp (hash.digest (pass ++ buf.drop n)) buf n

/-- `chk_crypt`. -/
def chkCrypt (ciphers : Ciphers) (dbPass pass : Bytes) : Except Fault ℤ :=
  match ciphers.crypt pass dbPass with
  | none => .error .dangling
  | some c => .ok (strcmp dbPass c)

def chkMd5 (ciphers : Ciphers) : Bytes → Bytes → Except Fault ℤ := chkPlain ciphers.md5
def chkSmd5 (ciphers : Ciphers) : Bytes → Bytes → Except Fault ℤ := chkSalted ciphers.md5 16
def chkSha (ciphers : Ciphers) : Bytes → Bytes → Except Fault ℤ := chkPlain ciphers.sha1
def chkSsha (ciphers : Ciphers) : Bytes → Bytes → Except Fault ℤ := chkSalted ciphers.sha1 16

/-- The schemes. -/
inductive PwCheck
  | crypt | md5 | smd5 | sha | ssha
  deriving DecidableEq, Repr

/-- Their functions. -/
def PwCheck.check (ciphers : Ciphers) : PwCheck → Bytes → Bytes → Except Fault ℤ
  | .crypt => chkCrypt ciphers
  | .md5 => chkMd5 ciphers
  | .smd5 => chkSmd5 ciphers
  | .sha => chkSha ciphers
  | .ssha => chkSsha ciphers

/-- `pwtab`. -/
def pwtab : List (Bytes × PwCheck) :=
  [(ascii "CRYPT", .crypt), (ascii "MD5", .md5), (ascii "SMD5", .smd5), (ascii "SHA", .sha),
    (ascii "SSHA", .ssha)]

/-- `find_pwcheck`, with `my_strncasecmp`. -/
def findPwcheck (toupper : UInt8 → ℤ) (algo : Bytes) : Option PwCheck :=
  (pwtab.find? fun p => p.1.map (fun c => (c.toNat : ℤ)) = algo.map toupper).map Prod.snd

/-- `dicod_check_password`. -/
def dicodCheckPassword (toupper : UInt8 → ℤ) (ciphers : Ciphers) (dbPass pass : Bytes) :
    Except Fault ℤ :=
  if dbPass.head? = some 123 then
    let algo := dbPass.tail
    let len := strcspn [125] algo
    -- An `int` counts up to the brace, or to the end.
    if 2 ^ 31 ≤ len then .error .bounds
    else if algo.drop len = [] then .ok (-1)
    else
      match findPwcheck toupper (algo.take len) with
      | some pwcheck => pwcheck.check ciphers (algo.drop (len + 1)) pass
      | none => .ok (-1)
  else
    match ciphers.crypt pass dbPass with
    | none => .error .dangling
    | some c => if strcmp c dbPass = 0 then .ok 0 else .ok (strcmp pass dbPass)

example : findPwcheck (fun c => c.toNat) (ascii "SSHA") = some .ssha := by decide

/-! ## What is asked of a stored password -/

/-- The bytes that a base64 text stands for. -/
def base64Decoded (s : Bytes) : Option Bytes :=
  if Accepts s ∧ s ≠ [] ∧ s.length % 4 = 0 then some (base64Content s) else none

/-- The scheme of a stored password, and what follows its name. -/
def storedScheme (toupper : UInt8 → ℤ) (dbPass : Bytes) : Option (PwCheck × Bytes) :=
  if dbPass.head? = some 123 then
    let algo := dbPass.tail
    let len := strcspn [125] algo
    if algo.drop len = [] then none
    else (findPwcheck toupper (algo.take len)).map (·, algo.drop (len + 1))
  else none

/-- A text that stands for a digest, and for a salt where the scheme has
one. -/
def PwCheck.Enough (pwcheck : PwCheck) (s : Bytes) : Prop :=
  match pwcheck with
  | .crypt => True
  | .md5 => ∃ d, base64Decoded s = some d ∧ 16 ≤ d.length
  | .smd5 => ∃ d, base64Decoded s = some d ∧ 16 < d.length
  | .sha => ∃ d, base64Decoded s = some d ∧ 20 ≤ d.length
  | .ssha => ∃ d, base64Decoded s = some d ∧ 20 < d.length

/-- A check that stays in range, and fails where a text is not enough. -/
def ChecksSafely (enough : Prop) (rc : Except Fault ℤ) : Prop :=
  rc ≠ .error .bounds ∧ (¬enough → ∃ n, rc = .ok n ∧ n ≠ 0)

/-- **A stored password is checked safely**: nothing is read, written or
counted out of range, and one that is too short is rejected. -/
def PasswordSafe (toupper : UInt8 → ℤ) (ciphers : Ciphers) (dbPass pass : Bytes) : Prop :=
  ChecksSafely (∀ pwcheck s, storedScheme toupper dbPass = some (pwcheck, s) → pwcheck.Enough s)
    (dicodCheckPassword toupper ciphers dbPass pass)

/-- A text whose length an `int` holds, or makes negative, or whose bytes
fit into the block that is left of it. -/
def LengthHeld (s : Bytes) : Prop :=
  2 ^ 31 ≤ s.length % 2 ^ 32 ∨ base64Yield s ≤ s.length % 2 ^ 32

/-- A text that `chk_ssha` does not take for more than it is. -/
def SaltHeld (sha1 : Hash 20) (s pass : Bytes) : Prop :=
  s.length % 2 ^ 32 < 2 ^ 31 → ∀ d, base64Decoded s = some d →
    d.length ∉ [17, 18, 19] ∧ (d.length = 20 → sha1.digest pass ≠ d)

/-- What a scheme asks of the text. -/
def PwCheck.Held (pwcheck : PwCheck) (ciphers : Ciphers) (s pass : Bytes) : Prop :=
  match pwcheck with
  | .crypt => True
  | .ssha => LengthHeld s ∧ SaltHeld ciphers.sha1 s pass
  | _ => LengthHeld s

/-- What is asked of a stored password. -/
def PasswordHeld (toupper : UInt8 → ℤ) (ciphers : Ciphers) (dbPass pass : Bytes) : Prop :=
  (dbPass.head? = some 123 → strcspn [125] dbPass.tail < 2 ^ 31) ∧
    ∀ pwcheck s, storedScheme toupper dbPass = some (pwcheck, s) → pwcheck.Held ciphers s pass

/-! ## Decoding -/

section Decode

variable {a b c d : UInt8} {s t out : Bytes} {olen fuel : ℕ}

/-- A group that is not accepted. -/
theorem base64Group_reject (h : ¬AcceptsFrom 0 (s.take 4)) : base64Group s = .ok none := by
  unfold base64Group
  rcases s with - | ⟨a, - | ⟨b, - | ⟨c, - | ⟨d, s⟩⟩⟩⟩ <;>
    simp only [AcceptsFrom, List.take_succ_cons, List.take_nil, List.take_zero, load_cons_zero,
      load_cons_succ, load_nil, ok_bind, Nat.reduceMod, Nat.reduceAdd, Nat.reduceLeDiff,
      decide_false, decide_true, and_true, not_and_or, Bool.not_eq_true, not_true] at h ⊢
  all_goals grind

/-- And one that is. -/
theorem base64Group_accept (h : AcceptsFrom 0 [a, b, c, d]) :
    base64Group (a :: b :: c :: d :: s) = .ok (some (base64Bytes a b c d)) := by
  simp only [AcceptsFrom, Nat.reduceMod, Nat.reduceAdd, Nat.reduceLeDiff, decide_false,
    decide_true, and_true] at h
  simp only [base64Group, load_cons_zero, load_cons_succ, ok_bind, h, Bool.true_eq_false, if_false]

/-- The null behind a string is not accepted. -/
theorem not_accepts_null (h : s.length < 4) : ¬AcceptsFrom 0 ((s ++ 0 :: t).take 4) := by
  obtain ⟨n, hn⟩ : ∃ n, 4 - s.length = n + 1 := ⟨4 - s.length - 1, by omega⟩
  rw [List.take_append, List.take_of_length_le (by omega), hn, List.take_succ_cons,
    acceptsFrom_append]
  rintro ⟨-, hnull, -⟩
  revert hnull
  cases decide (2 ≤ (0 + s.length) % 4) <;> decide

/-- **The loop of the decoder over a string.** -/
theorem base64Scan_eq (hfuel : s.length < fuel) (hout : out.length ≤ olen) :
    base64Scan olen fuel (s ++ 0 :: t) s.length out =
      if olen < out.length + base64Yield s then .error .bounds
      else .ok ((base64Decoded s).map (out ++ ·)) := by
  induction fuel generalizing s out with
  | zero => omega
  | succ fuel ih =>
    by_cases hshort : s.length < 4
    · have hlast : ¬(Accepts s ∧ s ≠ [] ∧ s.length % 4 = 0) := by
        rintro ⟨-, hne, hmod⟩
        have := List.length_pos_iff.2 hne
        omega
      rw [base64Scan, base64Group_reject (not_accepts_null hshort), base64Yield_of_short hshort,
        if_neg (by omega), base64Decoded, if_neg hlast]
      rfl
    · rcases s with - | ⟨a, - | ⟨b, - | ⟨c, - | ⟨d, s⟩⟩⟩⟩
      iterate 4 exact absurd (by simp) hshort
      simp only [List.length_cons] at hfuel
      by_cases hacc : AcceptsFrom 0 [a, b, c, d]
      · have hiff : Accepts (a :: b :: c :: d :: s) ↔ Accepts s :=
          accepts_group.trans (and_iff_right hacc)
        simp only [List.cons_append, base64Scan, base64Group_accept hacc, ok_bind,
          List.length_cons, List.drop_succ_cons, List.drop_zero]
        have hleft : s.length + 1 + 1 + 1 + 1 - 4 = s.length := by omega
        rw [hleft, base64Yield, if_pos hacc, ← length_base64Bytes a b c d, List.length_append]
        by_cases hover : olen < out.length + (base64Bytes a b c d).length
        · rw [if_pos hover, if_pos (by omega)]
        · rw [if_neg hover]
          by_cases hs : 0 < s.length
          · have hlast := whole_group (a := a) (b := b) (c := c) (d := d) hs
            rw [if_pos hs, ih (by omega) (by rw [List.length_append]; omega), List.length_append,
              Nat.add_assoc]
            refine if_congr Iff.rfl rfl ?_
            rw [base64Decoded, base64Decoded, base64Content]
            simp only [hiff, ← hlast]
            split_ifs
            · simp only [Option.map_some, List.append_assoc]
            · rfl
          · obtain rfl := List.length_eq_zero_iff.1 (Nat.eq_zero_of_not_pos hs)
            have hyes : Accepts [a, b, c, d] := hiff.2 trivial
            have hyield : base64Yield [] = 0 := rfl
            have hcontent : base64Content [] = [] := rfl
            rw [if_neg hs, hyield, if_neg (by omega), base64Decoded,
              if_pos ⟨hyes, List.cons_ne_nil _ _, by simp⟩, base64Content, hcontent,
              List.append_nil]
            rfl
      · have hno : ¬Accepts (a :: b :: c :: d :: s) := fun h => hacc (accepts_group.1 h).1
        rw [base64Scan, base64Group_reject (by simpa using hacc), base64Yield, if_neg hacc,
          if_neg (by omega), base64Decoded, if_neg fun h => hno h.1]
        rfl

/-- **Decoding a string.** -/
theorem base64DecodeString_eq (s : Bytes) :
    base64DecodeString s =
      if 2 ^ 31 ≤ s.length % 2 ^ 32 then .ok none
      else if s.length % 2 ^ 32 < base64Yield s then .error .bounds
      else .ok (base64Decoded s) := by
  unfold base64DecodeString
  by_cases hbig : 2 ^ 31 ≤ s.length % 2 ^ 32
  · rw [if_pos hbig]
    exact if_pos (not_grants_olen hbig)
  · obtain ⟨hgrants, hsize⟩ := grants_olen (not_le.1 hbig)
    rw [if_neg hbig]
    refine (if_neg (not_not.2 hgrants)).trans ?_
    rw [hsize, base64Scan_eq (Nat.lt_succ_self _) (Nat.zero_le _), List.length_nil, Nat.zero_add]
    refine if_congr Iff.rfl rfl ?_
    cases base64Decoded s <;> rfl

end Decode

/-! ## Comparing digests -/

section Check

variable {n least : ℕ} {s pass d : Bytes} {hash : Hash n} {enough : Prop}

/-- Texts of one length are equal exactly when nothing in them differs. -/
theorem bytesCmp_eq_zero {x y : Bytes} (h : x.length = y.length) : bytesCmp x y = 0 ↔ x = y := by
  induction x generalizing y with
  | nil =>
    obtain rfl := List.length_eq_zero_iff.1 h.symm
    exact iff_of_true rfl rfl
  | cons a x ih =>
    rcases y with - | ⟨b, y⟩
    · cases h
    · rw [bytesCmp, List.cons.injEq]
      by_cases hab : a = b
      · rw [if_pos hab, ih (Nat.succ.inj h), and_iff_right hab]
      · have hne : (a.toNat : ℤ) - b.toNat ≠ 0 := by
          intro hsub
          exact hab (UInt8.toNat_inj.1 (by omega))
        rw [if_neg hab]
        exact iff_of_false hne fun h => hab h.1

/-- A digest is as long as what it is compared with. -/
theorem memcmp_digest (hash : Hash n) (x : Bytes) (h : n ≤ d.length) :
    ∃ rc, memcmp (hash.digest x) d n = .ok rc ∧
      (d.length = n → (rc = 0 ↔ hash.digest x = d)) := by
  have hlen := hash.length_digest x
  rw [memcmp, if_pos ⟨hlen.ge, h⟩]
  refine ⟨_, rfl, fun hd => ?_⟩
  rw [List.take_of_length_le hlen.le, List.take_of_length_le hd.le]
  exact bytesCmp_eq_zero (hlen.trans hd.symm)

/-- A check that fails is safe. -/
theorem checksSafely_reject : ChecksSafely enough (.ok (-1)) :=
  ⟨nofun, fun _ => ⟨-1, rfl, by decide⟩⟩

/-- So is one that compares what is enough. -/
theorem checksSafely_ok {rc : ℤ} (h : enough ∨ rc ≠ 0) : ChecksSafely enough (.ok rc) :=
  ⟨nofun, fun hnot => ⟨rc, rfl, h.resolve_left hnot⟩⟩

/-- A fault is not. -/
theorem not_checksSafely_bounds : ¬ChecksSafely enough (.error .bounds) := fun h => h.1 rfl

/-- **A digest without a salt**: nothing is asked but that the text can be
decoded. -/
theorem chkPlain_iff (hash : Hash n) :
    ChecksSafely (∃ d, base64Decoded s = some d ∧ n ≤ d.length) (chkPlain hash s pass) ↔
      LengthHeld s := by
  rw [chkPlain, base64DecodeString_eq, LengthHeld]
  by_cases hbig : 2 ^ 31 ≤ s.length % 2 ^ 32
  · rw [if_pos hbig]
    exact iff_of_true checksSafely_reject (.inl hbig)
  rw [if_neg hbig, or_iff_right hbig]
  by_cases hover : s.length % 2 ^ 32 < base64Yield s
  · rw [if_pos hover]
    exact iff_of_false not_checksSafely_bounds (not_le.2 hover)
  rw [if_neg hover, ok_bind]
  refine iff_of_true ?_ (not_lt.1 hover)
  cases hd : base64Decoded s with
  | none => exact checksSafely_reject
  | some d =>
    by_cases hn : d.length = n
    · obtain ⟨rc, hrc, -⟩ := memcmp_digest hash pass hn.ge
      simp only [if_neg (not_not.2 hn), hrc]
      exact checksSafely_ok (.inl ⟨d, rfl, hn.ge⟩)
    · simp only [if_pos hn]
      exact checksSafely_reject

/-- What a salted check asks of a text. -/
def SaltedHeld (hash : Hash n) (least : ℕ) (s pass : Bytes) : Prop :=
  s.length % 2 ^ 32 < 2 ^ 31 → ∀ d, base64Decoded s = some d → least < d.length →
    n ≤ d.length ∧ (d.length = n → hash.digest pass ≠ d)

/-- **A digest with a salt.** -/
theorem chkSalted_iff (hash : Hash n) :
    ChecksSafely (∃ d, base64Decoded s = some d ∧ n < d.length) (chkSalted hash least s pass) ↔
      LengthHeld s ∧ SaltedHeld hash least s pass := by
  rw [chkSalted, base64DecodeString_eq, LengthHeld, SaltedHeld]
  by_cases hbig : 2 ^ 31 ≤ s.length % 2 ^ 32
  · rw [if_pos hbig]
    exact iff_of_true checksSafely_reject ⟨.inl hbig, fun h => absurd h (not_lt.2 hbig)⟩
  rw [if_neg hbig, or_iff_right hbig, forall_prop_of_true (not_le.1 hbig)]
  by_cases hover : s.length % 2 ^ 32 < base64Yield s
  · rw [if_pos hover]
    exact iff_of_false not_checksSafely_bounds fun h => not_le.2 hover h.1
  rw [if_neg hover, ok_bind, and_iff_right (not_lt.1 hover)]
  cases hd : base64Decoded s with
  | none => exact iff_of_true checksSafely_reject nofun
  | some d =>
    simp only [Option.some.injEq, forall_eq', exists_eq_left']
    by_cases hleast : d.length ≤ least
    · rw [if_pos hleast]
      exact iff_of_true checksSafely_reject fun h => absurd h (not_lt.2 hleast)
    rw [if_neg hleast, forall_prop_of_true (not_le.1 hleast)]
    by_cases hshort : d.length < n
    · rw [if_pos hshort]
      exact iff_of_false not_checksSafely_bounds fun h => not_lt.2 h.1 hshort
    rw [if_neg hshort, and_iff_right (not_lt.1 hshort)]
    obtain ⟨rc, hrc, heq⟩ := memcmp_digest hash (pass ++ d.drop n) (not_lt.1 hshort)
    rw [hrc]
    by_cases hn : d.length = n
    · have hsalt : pass ++ d.drop n = pass := by
        rw [List.drop_of_length_le hn.le, List.append_nil]
      rw [hsalt] at heq
      rw [forall_prop_of_true hn, ne_eq, ← heq hn]
      constructor
      · rintro ⟨-, hrej⟩
        obtain ⟨m, hm, hne⟩ := hrej (by omega)
        rwa [Except.ok.inj hm]
      · exact fun h => checksSafely_ok (.inr h)
    · exact iff_of_true (checksSafely_ok (.inl (by omega))) fun h => absurd h hn

/-- A salted check that asks for more than a digest is safe. -/
theorem saltedHeld_self : SaltedHeld hash n s pass :=
  fun _ _ _ hlt => ⟨hlt.le, fun h => absurd h hlt.ne'⟩

/-- `chk_ssha` asks for too little. -/
theorem saltedHeld_ssha {sha1 : Hash 20} :
    SaltedHeld sha1 16 s pass ↔ SaltHeld sha1 s pass := by
  unfold SaltedHeld SaltHeld
  refine forall_congr' fun _ => forall_congr' fun d => forall_congr' fun _ => ?_
  simp only [List.mem_cons, List.not_mem_nil, or_false, not_or]
  constructor
  · intro h
    by_cases hlt : 16 < d.length
    · exact ⟨by have := (h hlt).1; omega, (h hlt).2⟩
    · exact ⟨by omega, fun h => by omega⟩
  · exact fun h hlt => ⟨by omega, h.2⟩

/-- **A scheme is safe where its text holds what is asked of it.** -/
theorem pwCheck_iff (ciphers : Ciphers) (pwcheck : PwCheck) :
    ChecksSafely (pwcheck.Enough s) (pwcheck.check ciphers s pass) ↔
      pwcheck.Held ciphers s pass := by
  cases pwcheck with
  | crypt =>
    refine iff_of_true ⟨?_, fun h => absurd trivial h⟩ trivial
    simp only [PwCheck.check, chkCrypt]
    cases ciphers.crypt pass s <;> exact nofun
  | md5 => exact chkPlain_iff ciphers.md5
  | smd5 => exact (chkSalted_iff ciphers.md5).trans (and_iff_left saltedHeld_self)
  | sha => exact chkPlain_iff ciphers.sha1
  | ssha => exact (chkSalted_iff ciphers.sha1).trans (and_congr_right fun _ => saltedHeld_ssha)

end Check

/-! ## Every stored password -/

/-- A check of which nothing is asked to fail. -/
theorem ChecksSafely.congr {p q : Prop} {rc : Except Fault ℤ} (h : p ↔ q) :
    ChecksSafely p rc ↔ ChecksSafely q rc := by
  rw [propext h]

/-- **A stored password is checked safely** exactly where the name of its
scheme is not too long for an `int`, its text can be decoded, and, for
SSHA, it does not stand for 17 to 19 bytes, nor for the digest of the
password alone. -/
theorem checkPassword_iff (toupper : UInt8 → ℤ) (ciphers : Ciphers) (dbPass pass : CText) :
    PasswordSafe toupper ciphers dbPass.bytes pass.bytes ↔
      PasswordHeld toupper ciphers dbPass.bytes pass.bytes := by
  unfold PasswordSafe PasswordHeld dicodCheckPassword storedScheme
  by_cases hhead : dbPass.bytes.head? = some 123
  · simp only [hhead, if_true, forall_const]
    by_cases hlen : 2 ^ 31 ≤ strcspn [125] dbPass.bytes.tail
    · rw [if_pos hlen]
      exact iff_of_false not_checksSafely_bounds fun h => absurd h.1 (not_lt.2 hlen)
    rw [if_neg hlen, and_iff_right (not_le.1 hlen)]
    by_cases hend : dbPass.bytes.tail.drop (strcspn [125] dbPass.bytes.tail) = []
    · rw [if_pos hend, if_pos hend]
      exact iff_of_true checksSafely_reject nofun
    rw [if_neg hend, if_neg hend]
    cases findPwcheck toupper (dbPass.bytes.tail.take (strcspn [125] dbPass.bytes.tail)) with
    | none => exact iff_of_true checksSafely_reject nofun
    | some pwcheck =>
      simp only [Option.map_some, Option.some.injEq, Prod.mk.injEq]
      refine (ChecksSafely.congr ?_).trans ((pwCheck_iff ciphers pwcheck).trans ?_)
      · exact ⟨fun h => h _ _ ⟨rfl, rfl⟩, by rintro h _ _ ⟨rfl, rfl⟩; exact h⟩
      · exact ⟨by rintro h _ _ ⟨rfl, rfl⟩; exact h, fun h => h _ _ ⟨rfl, rfl⟩⟩
  · simp only [hhead, if_false, false_imp_iff, true_and, reduceCtorEq, implies_true]
    refine iff_of_true ⟨?_, fun h => absurd trivial h⟩ trivial
    cases ciphers.crypt pass.bytes dbPass.bytes with
    | none => exact nofun
    | some c => dsimp only; split_ifs <;> exact nofun

/-- Hash functions to try the checks with. -/
def sampleCiphers : Ciphers where
  md5 := ⟨fun _ => List.replicate 16 0, fun _ => List.length_replicate⟩
  sha1 := ⟨fun _ => List.replicate 20 0, fun _ => List.length_replicate⟩
  crypt := fun _ _ => some []

/-- With 17 bytes the length of the salt is negative, and with 20 zeros the
password is accepted without one. -/
theorem chkSsha_short :
    dicodCheckPassword (fun c => c.toNat) sampleCiphers
        (ascii "{SSHA}AAAAAAAAAAAAAAAAAAAAAAA=") (ascii "x") = .error .bounds ∧
      ¬PasswordSafe (fun c => c.toNat) sampleCiphers
        (ascii "{SSHA}AAAAAAAAAAAAAAAAAAAAAAA=") (ascii "x") := by
  have hfault : dicodCheckPassword (fun c => c.toNat) sampleCiphers
      (ascii "{SSHA}AAAAAAAAAAAAAAAAAAAAAAA=") (ascii "x") = .error .bounds := by
    decide +kernel
  refine ⟨hfault, fun h => ?_⟩
  rw [PasswordSafe, hfault] at h
  exact not_checksSafely_bounds h

end Dico
