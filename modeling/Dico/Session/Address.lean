import Dico.Session.Acl
import Dico.Text.Number
/-!
# The addresses of an access control list

`_parse_sockaddr` of `dicod/acl.c`: an address, with the length of the
network it stands for or a mask in dotted notation behind a slash. What is
stored is in host order, apart from a dotted mask, which stays as
`inet_aton` left it. The address is stored as it was written, and
`_check_sockaddr` masks only the client's.
-/

namespace Dico

/-! ## Addresses -/

/-- The loop of `inet_aton`: `dots` more dots may follow, and `acc` is made
of the bytes so far. -/
def inetLoop (dots acc : ℕ) (s : Bytes) : Option ℕ :=
  if (s.head?.bind (digitIn 10)).isSome then
    let (val, r) := strtoul0 s
    if r.head? = some 46 then
      match dots with
      | 0 => none
      | dots + 1 => if val ≤ 255 then inetLoop dots (acc * 256 + val) (r.drop 1) else none
    else if (r = [] ∨ ∃ c ∈ r.head?, isSpace c) ∧ val < 256 ^ (dots + 1) then
      some (acc * 256 ^ (dots + 1) + val)
    else none
  else none

/-- The address in a string, in host order. -/
def inetNumber (s : Bytes) : Option (BitVec 32) := (inetLoop 3 0 s).map (BitVec.ofNat 32)

/-- The order of the bytes of a word in memory. -/
inductive ByteOrder
  | little
  | big
  deriving DecidableEq, Repr

/-- The bytes of a word the other way round. -/
def swapBytes (x : BitVec 32) : BitVec 32 :=
  x.extractLsb' 0 8 ++ x.extractLsb' 8 8 ++ x.extractLsb' 16 8 ++ x.extractLsb' 24 8

/-- `ntohl`, which is `htonl` too. -/
def ntohl : ByteOrder → BitVec 32 → BitVec 32
  | .little, x => swapBytes x
  | .big, x => x

/-- `inet_aton`: `s_addr`, in network order. -/
def inetAton (order : ByteOrder) (s : Bytes) : Option (BitVec 32) :=
  (inetNumber s).map (ntohl order)

/-- How reading an address ends. -/
inductive AddressParse
  | accepted (sa : Sockaddr)
  | rejected (text : Bytes)
  /-- A copy past the end of the structure, or a shift by more than the word
  has bits. -/
  | undefined
  deriving DecidableEq, Repr

/-- `0xfffffffful >> (32 - netlen)`, stored in `netmask`, and shifted back
there; `netlen` and the difference are `unsigned`. -/
def shiftMask (netlen : BitVec 32) : Option (BitVec 32) :=
  let k := (32 - netlen).toNat
  if k < 32 then some ((0xffffffff#64 >>> k).setWidth 32 <<< k) else none

/-- The part of `_parse_sockaddr` behind the slash, for an address in host
order. -/
def parseNetmask (order : ByteOrder) (addr : BitVec 32) (p : Bytes) : AddressParse :=
  let (n, q) := strtoul10 p
  let netlen := BitVec.ofNat 32 n
  if q = [] then
    if netlen = 0 then .accepted (.inet addr.toNat 0)
    else
      match shiftMask netlen with
      | some netmask => .accepted (.inet addr.toNat netmask.toNat)
      | none => .undefined
  else if q.head? = some 46 then
    match inetAton order p with
    | some netmask => .accepted (.inet addr.toNat netmask.toNat)
    | none => .rejected (ascii "invalid netmask: `" ++ p ++ ascii "'")
  else .rejected (ascii "invalid netmask: `" ++ p ++ ascii "'")

/-- `sizeof (s_un->sun_path)`. -/
def sunPathSize : ℕ := 108

/-- What `struct dicod_sockaddr` has room for of a path: its `sa` is a
`struct sockaddr`. -/
def saPathSize : ℕ := 14

/-- The part of `_parse_sockaddr` for a string. `gethostbyname` is asked
where `inet_aton` fails, for an address in network order. -/
def parseAddress (order : ByteOrder) (gethostbyname : Bytes → Option (BitVec 32))
    (string : Bytes) : AddressParse :=
  if string.head? = some 47 then
    if sunPathSize ≤ string.length then
      .rejected (ascii "socket name too long: `" ++ string ++ ascii "'")
    else if saPathSize ≤ string.length then .undefined
    else .accepted (.unix string)
  else
    let host := string.take (strcspn [47] string)
    match (inetAton order host).or (gethostbyname host) with
    | none => .rejected (ascii "cannot resolve host name: `" ++ host ++ ascii "'")
    | some sAddr =>
      let addr := ntohl order sAddr
      match strchr 47 string with
      | none => .accepted (.inet addr.toNat (0xffffffff#32).toNat)
      | some p => parseNetmask order addr (string.drop (p + 1))

/-! ## What an address is meant to match -/

/-- A word with so many leading ones. -/
def leadingOnes (n : ℕ) : BitVec 32 := BitVec.allOnes 32 <<< (32 - n)

/-- What is written behind an address. -/
inductive MaskText
  | absent
  | len (ds : Bytes)
  | dotted (m : Bytes)

namespace MaskText

/-- The text, with its slash. -/
def text : MaskText → Bytes
  | absent => []
  | len ds => 47 :: ds
  | dotted m => 47 :: m

/-- The mask that is meant. -/
inductive Means : MaskText → BitVec 32 → Prop
  | absent : Means absent (BitVec.allOnes 32)
  | len {ds : Bytes} (hne : ds ≠ []) (hds : ∀ c ∈ ds, (digitIn 10 c).isSome) :
      Means (len ds) (leadingOnes (numberOf 10 ds))
  | dotted {ds r : Bytes} {bits : BitVec 32} (hne : ds ≠ [])
      (hds : ∀ c ∈ ds, (digitIn 10 c).isSome) (hbits : inetNumber (ds ++ 46 :: r) = some bits) :
      Means (dotted (ds ++ 46 :: r)) bits

/-- Whether the mask is stored as it is meant. -/
def Kept (order : ByteOrder) (bits : BitVec 32) : MaskText → Prop
  | absent => True
  | len ds => numberOf 10 ds ≤ 32
  | dotted _ => ntohl order bits = bits

end MaskText

/-- An address with or without a mask: `a.b.c.d`, `a.b.c.d/len` or
`a.b.c.d/m.m.m.m`. -/
structure AddressSpec where
  host : Bytes
  addr : BitVec 32
  mask : MaskText
  bits : BitVec 32
  inetNumber_host : inetNumber host = some addr
  slash_notMem : 47 ∉ host
  means : mask.Means bits

namespace AddressSpec

/-- The string in the configuration. -/
def string (spec : AddressSpec) : Bytes := spec.host ++ spec.mask.text

/-- The clients that are meant. -/
def Matches (spec : AddressSpec) (clt : BitVec 32) : Prop :=
  clt &&& spec.bits = spec.addr &&& spec.bits

end AddressSpec

/-! ## Reading addresses -/

/-- What `inet_aton` stores of an address. -/
theorem inetAton_of_number (order : ByteOrder) {s : Bytes} {a : BitVec 32}
    (h : inetNumber s = some a) : inetAton order s = some (ntohl order a) := by
  unfold inetAton
  rw [h, Option.map_some]

/-! ## Words -/

/-- Each bit keeps its place in its byte. -/
theorem getLsbD_swapBytes (x : BitVec 32) {i : ℕ} (hi : i < 32) :
    (swapBytes x).getLsbD i = x.getLsbD (8 * (3 - i / 8) + i % 8) := by
  unfold swapBytes
  simp only [BitVec.getLsbD_append, BitVec.getLsbD_extractLsb']
  split_ifs with h₁ h₂ h₃ <;>
    · rw [decide_eq_true (by omega), Bool.true_and]
      congr 1
      omega

/-- The bytes turned round twice. -/
theorem swapBytes_swapBytes (x : BitVec 32) : swapBytes (swapBytes x) = x := by
  apply BitVec.eq_of_getLsbD_eq
  intro i hi
  rw [getLsbD_swapBytes _ hi, getLsbD_swapBytes _ (by omega)]
  congr 1
  omega

/-- An address that goes through network order. -/
theorem ntohl_ntohl (order : ByteOrder) (x : BitVec 32) : ntohl order (ntohl order x) = x := by
  cases order with
  | little => exact swapBytes_swapBytes x
  | big => rfl

/-- The two shifts leave the leading ones. -/
theorem shiftMask_ofNat {n : ℕ} (h₀ : n ≠ 0) (h : n ≤ 32) :
    shiftMask (BitVec.ofNat 32 n) = some (leadingOnes n) := by
  have hall : ∀ k : Fin 33, k.val ≠ 0 →
      shiftMask (BitVec.ofNat 32 k.val) = some (leadingOnes k.val) := by decide
  exact hall ⟨n, by omega⟩ h₀

/-- Where an address and a mask as stored match what is meant, the mask is
the one that is meant, and the address has no other bits. -/
theorem forall_masked_iff {w : ℕ} (a m k : BitVec w) :
    (∀ c : BitVec w, a = c &&& k ↔ c &&& m = a &&& m) ↔ k = m ∧ a &&& m = a := by
  constructor
  · intro h
    have hk : a = a &&& k := (h a).2 rfl
    have hbit (i : ℕ) : a.getLsbD i = (a.getLsbD i && k.getLsbD i) := by
      rw [← BitVec.getLsbD_and, ← hk]
    -- A bit of one mask alone could be flipped in a client.
    have hkm : k = m := by
      apply BitVec.eq_of_getLsbD_eq
      intro i hi
      have h₁ := (h (a ^^^ ~~~k)).1 (by
        apply BitVec.eq_of_getLsbD_eq
        intro j hj
        have := hbit j
        simp only [BitVec.getLsbD_and, BitVec.getLsbD_xor, BitVec.getLsbD_not, hj]
        grind)
      have h₂ := (h (a ^^^ ~~~m)).2 (by
        apply BitVec.eq_of_getLsbD_eq
        intro j hj
        simp only [BitVec.getLsbD_and, BitVec.getLsbD_xor, BitVec.getLsbD_not, hj]
        grind)
      have h₃ := congrArg (BitVec.getLsbD · i) h₁
      have h₄ := congrArg (BitVec.getLsbD · i) h₂
      have h₅ := hbit i
      simp only [BitVec.getLsbD_and, BitVec.getLsbD_xor, BitVec.getLsbD_not, hi] at h₃ h₄
      grind
    exact ⟨hkm, hkm ▸ hk.symm⟩
  · rintro ⟨rfl, ha⟩ c
    rw [ha]
    exact eq_comm

/-! ## Reading an address -/

section Parse

variable {order : ByteOrder} {gethostbyname : Bytes → Option (BitVec 32)} {host : Bytes}
  {addr : BitVec 32}

/-- An address alone. -/
theorem parseAddress_host (hhost : inetNumber host = some addr) (hs : 47 ∉ host) :
    parseAddress order gethostbyname host =
      .accepted (.inet addr.toNat (BitVec.allOnes 32).toNat) := by
  have hhead : host.head? ≠ some 47 := fun h => hs (List.mem_of_head? h)
  have hspan : strcspn [47] host = host.length := by
    have hall : ∀ b ∈ host, decide (b ∉ [47]) = true := fun b hb =>
      decide_eq_true fun h => hs (List.mem_singleton.1 h ▸ hb)
    rw [strcspn, List.takeWhile_eq_self_iff.2 hall]
  have hchr : strchr 47 host = none := if_neg hs
  unfold parseAddress
  rw [if_neg hhead]
  simp only [hspan, List.take_length, inetAton_of_number order hhost, Option.some_or, hchr,
    ntohl_ntohl]
  rfl

/-- An address with something behind a slash. -/
theorem parseAddress_slash (hhost : inetNumber host = some addr) (hs : 47 ∉ host) (p : Bytes) :
    parseAddress order gethostbyname (host ++ 47 :: p) = parseNetmask order addr p := by
  have hne : host ≠ [] := by
    rintro rfl
    have hnil : inetNumber [] = none := by decide
    exact absurd (hnil.symm.trans hhost) (Option.some_ne_none addr).symm
  have hhead : (host ++ 47 :: p).head? ≠ some 47 := by
    rw [List.head?_append_of_ne_nil _ hne]
    exact fun h => hs (List.mem_of_head? h)
  have hspan : strcspn [47] (host ++ 47 :: p) = host.length :=
    strcspn_append (fun b hb h => hs (List.mem_singleton.1 h ▸ hb)) List.mem_cons_self
  have hdrop : (host ++ 47 :: p).drop (host.length + 1) = p := drop_place host p 47
  unfold parseAddress
  rw [if_neg hhead]
  simp only [hspan, List.take_left, inetAton_of_number order hhost, Option.some_or,
    strchr_append hs, ntohl_ntohl, hdrop]

/-- A length the word has room for. -/
theorem parseNetmask_len {ds : Bytes} (hne : ds ≠ []) (hds : ∀ c ∈ ds, (digitIn 10 c).isSome)
    (hlen : numberOf 10 ds ≤ 32) :
    parseNetmask order addr ds =
      .accepted (.inet addr.toNat (leadingOnes (numberOf 10 ds)).toNat) := by
  have hread := strtoul10_digits hne hds
  rw [min_eq_left (by unfold ulongMax; omega)] at hread
  unfold parseNetmask
  simp only [hread]
  rw [if_pos trivial]
  by_cases h₀ : numberOf 10 ds = 0
  · rw [h₀, if_pos (by decide)]
    rfl
  · have hne : BitVec.ofNat 32 (numberOf 10 ds) ≠ 0 := by
      intro h
      have hnat : numberOf 10 ds % 2 ^ 32 = 0 := congrArg BitVec.toNat h
      omega
    rw [if_neg hne]
    simp only [shiftMask_ofNat h₀ hlen]

/-- A length is never rejected. -/
theorem parseNetmask_len_ne {ds : Bytes} (hne : ds ≠ [])
    (hds : ∀ c ∈ ds, (digitIn 10 c).isSome) (text : Bytes) :
    parseNetmask order addr ds ≠ .rejected text := by
  have hread := strtoul10_digits hne hds
  unfold parseNetmask
  simp only [hread]
  rw [if_pos trivial]
  split_ifs
  · exact AddressParse.noConfusion
  · cases shiftMask (BitVec.ofNat 32 (min (numberOf 10 ds) ulongMax)) with
    | none => exact AddressParse.noConfusion
    | some netmask => exact AddressParse.noConfusion

/-- A mask in dotted notation stays in network order. -/
theorem parseNetmask_dotted (order : ByteOrder) (addr : BitVec 32) {ds r : Bytes}
    {bits : BitVec 32} (hne : ds ≠ []) (hds : ∀ c ∈ ds, (digitIn 10 c).isSome)
    (hbits : inetNumber (ds ++ 46 :: r) = some bits) :
    parseNetmask order addr (ds ++ 46 :: r) =
      .accepted (.inet addr.toNat (ntohl order bits).toNat) := by
  have hread := strtoul10_append (r := 46 :: r) hne hds (by
    intro c hc
    obtain rfl : 46 = c := Option.some_inj.1 hc
    decide)
  unfold parseNetmask
  simp only [hread]
  rw [if_neg (List.cons_ne_nil _ _), List.head?_cons, if_pos rfl]
  simp only [inetAton_of_number order hbits]

end Parse

/-- A client against an address as it is stored. -/
theorem checkSockaddr_toNat (c a k : BitVec 32) :
    checkSockaddr (.inet c.toNat) (.inet a.toNat k.toNat) = true ↔ a = c &&& k := by
  unfold checkSockaddr
  rw [beq_iff_eq, ← BitVec.toNat_and, BitVec.toNat_inj]

/-- An address that is stored with some mask matches as it is meant to
where the mask is the one that is meant and the address has no bits outside
of it. -/
theorem AddressSpec.forall_accepted_iff (order : ByteOrder)
    (gethostbyname : Bytes → Option (BitVec 32)) (spec : AddressSpec) {k : BitVec 32}
    (h : parseAddress order gethostbyname spec.string =
      .accepted (.inet spec.addr.toNat k.toNat)) :
    (∀ sa, parseAddress order gethostbyname spec.string = .accepted sa →
        ∀ clt : BitVec 32, checkSockaddr (.inet clt.toNat) sa = true ↔ spec.Matches clt) ↔
      k = spec.bits ∧ spec.addr &&& spec.bits = spec.addr := by
  rw [← forall_masked_iff]
  constructor
  · intro hall clt
    rw [← checkSockaddr_toNat]
    exact hall _ h clt
  · intro hall sa hsa clt
    obtain rfl : Sockaddr.inet spec.addr.toNat k.toNat = sa :=
      AddressParse.accepted.inj (h.symm.trans hsa)
    rw [checkSockaddr_toNat]
    exact hall clt

/-- A mask that is stored as it is meant. -/
theorem AddressSpec.parseAddress_of_kept (order : ByteOrder)
    (gethostbyname : Bytes → Option (BitVec 32)) (spec : AddressSpec)
    (hkept : spec.mask.Kept order spec.bits) :
    parseAddress order gethostbyname spec.string =
      .accepted (.inet spec.addr.toNat spec.bits.toNat) := by
  obtain ⟨host, addr, mask, bits, hhost, hslash, hmeans⟩ := spec
  cases hmeans with
  | absent =>
    unfold AddressSpec.string MaskText.text
    rw [List.append_nil]
    exact parseAddress_host hhost hslash
  | @len ds hne hds =>
    exact (parseAddress_slash hhost hslash ds).trans (parseNetmask_len hne hds hkept)
  | @dotted ds r bits hne hds hbits =>
    have h := parseNetmask_dotted order addr hne hds hbits
    rw [show ntohl order bits = bits from hkept] at h
    exact (parseAddress_slash hhost hslash _).trans h

/-- **The clients an address is for.** With no mask, with a length of at
most 32 or with a dotted mask that reads the same in network order, they are
those whose address under the mask is the address as it was written. -/
theorem checkSockaddr_parseAddress (order : ByteOrder)
    (gethostbyname : Bytes → Option (BitVec 32)) (spec : AddressSpec)
    (hkept : spec.mask.Kept order spec.bits) :
    ∃ sa, parseAddress order gethostbyname spec.string = .accepted sa ∧
      ∀ clt : BitVec 32,
        checkSockaddr (.inet clt.toNat) sa = true ↔ clt &&& spec.bits = spec.addr := by
  refine ⟨_, spec.parseAddress_of_kept order gethostbyname hkept, ?_⟩
  intro clt
  rw [checkSockaddr_toNat]
  exact eq_comm

/-- `192.168.10.0/24`. -/
def localNetwork : AddressSpec where
  host := ascii "192.168.10.0"
  addr := 0xc0a80a00
  mask := .len (ascii "24")
  bits := leadingOnes 24
  inetNumber_host := by decide
  slash_notMem := by decide
  means := @MaskText.Means.len (ascii "24") (by decide) (forall_mem_of_all (by decide))

/-- The clients of that network. -/
theorem checkSockaddr_localNetwork :
    localNetwork.mask.Kept .little localNetwork.bits ∧
      ∃ sa, parseAddress .little (fun _ => none) localNetwork.string = .accepted sa ∧
        ∀ clt : BitVec 32, checkSockaddr (.inet clt.toNat) sa = true ↔
          clt &&& localNetwork.bits = localNetwork.addr := by
  have hkept : localNetwork.mask.Kept .little localNetwork.bits := by
    show numberOf 10 (ascii "24") ≤ 32
    decide
  exact ⟨hkept, checkSockaddr_parseAddress .little (fun _ => none) localNetwork hkept⟩

/-- `10.0.0.1/8`, an address inside the network it stands for. -/
def hostBits : AddressSpec where
  host := ascii "10.0.0.1"
  addr := 0x0a000001
  mask := .len (ascii "8")
  bits := leadingOnes 8
  inetNumber_host := by decide
  slash_notMem := by decide
  means := @MaskText.Means.len (ascii "8") (by decide) (forall_mem_of_all (by decide))

/-- Not even the client with that address is accepted. -/
theorem checkSockaddr_hostBits :
    ¬∀ (order : ByteOrder) (gethostbyname : Bytes → Option (BitVec 32)) (spec : AddressSpec),
      (∀ sa, parseAddress order gethostbyname spec.string = .accepted sa →
          ∀ clt : BitVec 32, checkSockaddr (.inet clt.toNat) sa = true ↔ spec.Matches clt) ∧
        ∀ ds, spec.mask = .len ds → 32 < numberOf 10 ds →
          ∃ text, parseAddress order gethostbyname spec.string = .rejected text := by
  intro hall
  have hstored : parseAddress .little (fun _ => none) hostBits.string =
      .accepted (.inet 0x0a000001 0xff000000) := by decide
  have hclt := ((hall .little (fun _ => none) hostBits).1 _ hstored 0x0a000001).2 rfl
  exact absurd hclt (by decide)


/-- An address matches all clients of the network it is in, and a length
that is too large is rejected, just where the length is at most 32, a dotted mask reads
the same in network order, and the address has no bits outside the mask. -/
theorem checkSockaddr_parseAddress_iff (order : ByteOrder)
    (gethostbyname : Bytes → Option (BitVec 32)) (spec : AddressSpec) :
    ((∀ sa, parseAddress order gethostbyname spec.string = .accepted sa →
        ∀ clt : BitVec 32, checkSockaddr (.inet clt.toNat) sa = true ↔ spec.Matches clt) ∧
      ∀ ds, spec.mask = .len ds → 32 < numberOf 10 ds →
        ∃ text, parseAddress order gethostbyname spec.string = .rejected text) ↔
    spec.mask.Kept order spec.bits ∧ spec.addr &&& spec.bits = spec.addr := by
  obtain ⟨host, addr, mask, bits, hhost, hslash, hmeans⟩ := spec
  cases hmeans with
  | absent =>
    have h := AddressSpec.forall_accepted_iff order gethostbyname
      ⟨host, addr, .absent, _, hhost, hslash, .absent⟩ (k := BitVec.allOnes 32) (by
        unfold AddressSpec.string MaskText.text
        rw [List.append_nil]
        exact parseAddress_host hhost hslash)
    rw [h]
    simp [MaskText.Kept]
  | @len ds hne hds =>
    have hparse : parseAddress order gethostbyname (host ++ 47 :: ds) =
        parseNetmask order addr ds := parseAddress_slash hhost hslash ds
    by_cases hlen : numberOf 10 ds ≤ 32
    · have h := AddressSpec.forall_accepted_iff order gethostbyname
        ⟨host, addr, .len ds, _, hhost, hslash, .len hne hds⟩
        (hparse.trans (parseNetmask_len hne hds hlen))
      rw [h]
      constructor
      · rintro ⟨⟨-, ha⟩, -⟩
        exact ⟨hlen, ha⟩
      · rintro ⟨-, ha⟩
        refine ⟨⟨rfl, ha⟩, ?_⟩
        intro ds' hds' hlt
        obtain rfl : ds = ds' := MaskText.len.inj hds'
        omega
    · constructor
      · rintro ⟨-, hrej⟩
        obtain ⟨text, htext⟩ := hrej ds rfl (by omega)
        exact absurd (hparse.symm.trans htext) (parseNetmask_len_ne hne hds text)
      · rintro ⟨hkept, -⟩
        exact absurd hkept hlen
  | @dotted ds r bits hne hds hbits =>
    have h := AddressSpec.forall_accepted_iff order gethostbyname
      ⟨host, addr, .dotted (ds ++ 46 :: r), bits, hhost, hslash, .dotted hne hds hbits⟩
      ((parseAddress_slash hhost hslash _).trans (parseNetmask_dotted order addr hne hds hbits))
    rw [h]
    constructor
    · rintro ⟨hall, -⟩
      exact hall
    · intro hall
      exact ⟨hall, by rintro ds' ⟨⟩⟩

end Dico
