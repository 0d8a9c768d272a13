import Dico.Common.Chain
import Dico.Common.Run
/-!
# The dico list

The doubly linked list of `lib/list.c`, with the iterators attached to
it. Entries live in a heap; the address `malloc` returns for a new one is
an argument of the functions that allocate, and is any address that is
not in use. Following a pointer to an entry that is not there, or a null
pointer, is a `Fault`.
-/

namespace Dico

open Chain

/-- `struct iterator`. The position is a `size_t`, and wraps. -/
structure Iterator where
  cur : Option ℕ
  advanced : ℕ
  pos : UInt64
  deriving DecidableEq, Repr

/-- `struct dico_list`, with the entries, and with the iterators attached
to it under the names their users know them by. -/
structure DicoList (α : Type) where
  heap : Heap α
  count : ℕ
  head : Option ℕ
  tail : Option ℕ
  flags : ℕ
  comp : Option (α → α → ℤ)
  itr : List (ℕ × Iterator)

/-- `DICO_LIST_COMPARE_HEAD`. -/
def compareHead : ℕ := 1

/-- `DICO_LIST_COMPARE_TAIL`. -/
def compareTail : ℕ := 2

/-- `EEXIST`. -/
def EEXIST : ℕ := 17

/-- `cmp_ptr`. -/
def cmpPtr {α : Type} [DecidableEq α] (a b : α) : ℤ := if a = b then 0 else 1

/-- `_iterator_increase_pos`, for one iterator. -/
def Iterator.increasePos (after : UInt64) (ip : Iterator) : Iterator :=
  if after < ip.pos then { ip with pos := ip.pos + 1 } else ip

/-- `_iterator_advance`, for one iterator: off the entry `e`, to the one
behind it. -/
def Iterator.advance (e : ℕ) (next : Option ℕ) (ip : Iterator) : Iterator :=
  if ip.cur = some e then { ip with cur := next, advanced := ip.advanced + 1 } else ip

/-- Something done to every iterator. -/
def mapItr (f : Iterator → Iterator) (itr : List (ℕ × Iterator)) : List (ℕ × Iterator) :=
  itr.map fun p => (p.1, f p.2)

/-- Another state for the iterator of a name. -/
def setItr (itr : List (ℕ × Iterator)) (k : ℕ) (ip : Iterator) : List (ℕ × Iterator) :=
  itr.map fun p => if p.1 = k then (k, ip) else p

namespace DicoList

variable {α : Type} [DecidableEq α]

/-- The entry a pointer points to. -/
def deref (h : Heap α) (p : Option ℕ) : Except Fault (Node α) :=
  match p.bind h with
  | none => .error .dangling
  | some e => .ok e

/-- `p->next = v`. -/
def storeNext (h : Heap α) (p v : Option ℕ) : Except Fault (Heap α) := do
  let _ ← deref h p
  .ok (putNext h p v)

/-- `p->prev = v`. -/
def storePrev (h : Heap α) (p v : Option ℕ) : Except Fault (Heap α) := do
  let _ ← deref h p
  .ok (putPrev h p v)

/-- `dico_list_create`, `dico_list_set_flags` and
`dico_list_set_comparator`. -/
def create (flags : ℕ) (comp : Option (α → α → ℤ)) : DicoList α where
  heap := fun _ => none
  count := 0
  head := none
  tail := none
  flags := flags
  comp := comp
  itr := []

/-- The comparator of `dico_list_remove` and `dico_list_insert_sorted`. -/
def cmp (list : DicoList α) : α → α → ℤ := list.comp.getD cmpPtr

/-! ## Adding -/

/-- The last entry gets a new one behind it, or a list without one gets its
head. -/
def linkTail (list : DicoList α) (h : Heap α) (a : ℕ) : Except Fault (DicoList α) :=
  match list.tail with
  | some t => do
    let h' ← storeNext h (some t) (some a)
    .ok { list with heap := h' }
  | none => .ok { list with heap := h, head := some a }

/-- `_dico_list_append`. -/
def append₀ (list : DicoList α) (a : ℕ) (data : α) : Except Fault (DicoList α) := do
  let h := Function.update list.heap a (some ⟨none, list.tail, data⟩)
  let list ← list.linkTail h a
  .ok { list with tail := some a, count := list.count + 1 }

/-- `_dico_list_prepend`. -/
def prepend₀ (list : DicoList α) (a : ℕ) (data : α) : DicoList α :=
  { list with
    heap := Function.update list.heap a (some ⟨list.head, none, data⟩)
    head := some a
    tail := if list.tail = none then some a else list.tail
    count := list.count + 1
    itr := mapItr (Iterator.increasePos 0) list.itr }

/-- Whether the entry at one end is to be compared with new data, and
compares equal. -/
def equalAt (list : DicoList α) (flag : ℕ) (p : Option ℕ) (data : α) : Except Fault Bool :=
  match list.comp, p with
  | some cmp, some a =>
    if list.flags &&& flag ≠ 0 then do
      let e ← deref list.heap (some a)
      .ok (cmp e.data data == 0)
    else .ok false
  | _, _ => .ok false

/-- `dico_list_append`. -/
def append (list : DicoList α) (a : ℕ) (data : α) : Except Fault (ℕ × DicoList α) := do
  let dup ← list.equalAt compareTail list.tail data
  if dup then .ok (1, list)
  else do
    let list ← list.append₀ a data
    .ok (0, list)

/-- `dico_list_prepend`. -/
def prepend (list : DicoList α) (a : ℕ) (data : α) : Except Fault (ℕ × DicoList α) := do
  let dup ← list.equalAt compareHead list.head data
  if dup then .ok (1, list) else .ok (0, list.prepend₀ a data)

/-- Where `dico_list_insert_sorted` stops looking: at an entry, `i` entries
behind the head; behind the last one; or at an entry that compares
equal. -/
inductive Spot
  | before (cur i : ℕ)
  | atEnd
  | taken
  deriving DecidableEq, Repr

/-- The loop of `_dico_list_insert_sorted`. -/
def findSpot (list : DicoList α) (data : α) : ℕ → Option ℕ → ℕ → Except Fault Spot
  | 0, _, _ => .error .loop
  | _ + 1, none, _ => .ok .atEnd
  | fuel + 1, some cur, i => do
    let e ← deref list.heap (some cur)
    if 0 < list.cmp e.data data then .ok (.before cur i)
    else if list.cmp e.data data = 0 ∧ list.flags ≠ 0 then .ok .taken
    else findSpot list data fuel e.next (i + 1)

/-- A new entry between two others. -/
def insertBefore (list : DicoList α) (a cur i : ℕ) (data : α) : Except Fault (DicoList α) := do
  let e ← deref list.heap (some cur)
  let h ← storePrev list.heap (some cur) (some a)
  let h ← storeNext h e.prev (some a)
  .ok { list with
    heap := Function.update h a (some ⟨some cur, e.prev, data⟩)
    count := list.count + 1
    itr := mapItr (Iterator.increasePos (UInt64.ofNat i - 1)) list.itr }

/-- `dico_list_insert_sorted`. -/
def insertSorted (list : DicoList α) (a : ℕ) (data : α) : Except Fault (ℕ × DicoList α) := do
  let spot ← list.findSpot data (list.count + 1) list.head 0
  match spot with
  | .taken => .ok (EEXIST, list)
  | .atEnd => do
    let list ← list.append₀ a data
    .ok (0, list)
  | .before cur i => do
    let e ← deref list.heap (some cur)
    if e.prev = none then .ok (0, list.prepend₀ a data)
    else do
      let list ← list.insertBefore a cur i data
      .ok (0, list)

/-! ## Removing -/

/-- The entry before `p` is linked to the one behind, or the head moves
on. -/
def unlinkNext (list : DicoList α) (e : Node α) : Except Fault (DicoList α) :=
  match e.prev with
  | some q => do
    let h ← storeNext list.heap (some q) e.next
    .ok { list with heap := h }
  | none => do
    let first ← deref list.heap list.head
    .ok { list with head := first.next }

/-- The entry behind `p` is linked back to `prev`, or the tail moves
back. -/
def unlinkPrev (list : DicoList α) (p : ℕ) (prev : Option ℕ) : Except Fault (DicoList α) := do
  let e ← deref list.heap (some p)
  match e.next with
  | some r => do
    let h ← storePrev list.heap (some r) prev
    .ok { list with heap := h }
  | none => .ok { list with tail := prev }

/-- `_dico_list_remove_item`: the data of the entry, and the list. The data
are read from the entry just freed, which nothing has reused yet. -/
def removeItem (list : DicoList α) (p : ℕ) : Except Fault (α × DicoList α) := do
  let e ← deref list.heap (some p)
  let list := { list with itr := mapItr (Iterator.advance p e.next) list.itr }
  let list ← list.unlinkNext e
  let list ← list.unlinkPrev p e.prev
  .ok (e.data, { list with heap := Function.update list.heap p none, count := list.count - 1 })

/-- The loop of `_dico_list_remove`. -/
def findEntry (list : DicoList α) (data : α) : ℕ → Option ℕ → Except Fault (Option ℕ)
  | 0, _ => .error .loop
  | _ + 1, none => .ok none
  | fuel + 1, some p => do
    let e ← deref list.heap (some p)
    if list.cmp e.data data = 0 then .ok (some p) else findEntry list data fuel e.next

/-- `dico_list_remove`. -/
def remove (list : DicoList α) (data : α) : Except Fault (ℕ × DicoList α) := do
  let p ← list.findEntry data (list.count + 1) list.head
  match p with
  | none => .ok (1, list)
  | some p => do
    let (_, list) ← list.removeItem p
    .ok (0, list)

/-- `dico_list_pop`. -/
def pop (list : DicoList α) : Except Fault (Option α × DicoList α) :=
  match list.tail with
  | none => .ok (none, list)
  | some t => do
    let (data, list) ← list.removeItem t
    .ok (some data, list)

/-- The loop of `dico_list_clear`. -/
def freeAll : ℕ → Heap α → Option ℕ → Except Fault (Heap α)
  | 0, _, _ => .error .loop
  | _ + 1, h, none => .ok h
  | fuel + 1, h, some p => do
    let e ← deref h (some p)
    freeAll fuel (Function.update h p none) e.next

/-- `dico_list_clear`. The iterators are left alone. -/
def clear (list : DicoList α) : Except Fault (DicoList α) := do
  let h ← freeAll (list.count + 1) list.heap list.head
  .ok { list with heap := h, head := none, tail := none, count := 0 }

/-! ## Iterators -/

/-- The state of the iterator of a name. -/
def iteratorOf (list : DicoList α) (k : ℕ) : Option Iterator := list.itr.lookup k

/-- `dico_iterator_current`: the data of the current entry. -/
def current (list : DicoList α) (ip : Iterator) : Except Fault (Option α) :=
  match ip.cur with
  | none => .ok none
  | some c => do
    let e ← deref list.heap (some c)
    .ok (some e.data)

/-- `dico_list_iterator`, under a name not yet in use. -/
def attach (list : DicoList α) (k : ℕ) : DicoList α :=
  if (list.iteratorOf k).isSome then list
  else { list with itr := (k, ⟨list.head, 0, 0⟩) :: list.itr }

/-- `dico_iterator_destroy`. -/
def detach (list : DicoList α) (k : ℕ) : DicoList α :=
  { list with itr := list.itr.filter fun p => p.1 ≠ k }

/-- An iterator in another state, and its data there. -/
def moveTo (list : DicoList α) (k : ℕ) (ip : Iterator) : Except Fault (Option α × DicoList α) := do
  let data ← list.current ip
  .ok (data, { list with itr := setItr list.itr k ip })

/-- `dico_iterator_first`. -/
def iteratorFirst (list : DicoList α) (k : ℕ) : Except Fault (Option α × DicoList α) :=
  match list.iteratorOf k with
  | none => .ok (none, list)
  | some _ => list.moveTo k ⟨list.head, 0, 0⟩

/-- `dico_iterator_next`. -/
def iteratorNext (list : DicoList α) (k : ℕ) : Except Fault (Option α × DicoList α) :=
  match list.iteratorOf k with
  | none => .ok (none, list)
  | some ip =>
    match ip.cur with
    | none => .ok (none, list)
    | some c =>
      if ip.advanced = 0 then do
        let e ← deref list.heap (some c)
        list.moveTo k ⟨e.next, 0, ip.pos + 1⟩
      else list.moveTo k { ip with advanced := 0 }

/-- `dico_iterator_prev`. -/
def iteratorPrev (list : DicoList α) (k : ℕ) : Except Fault (Option α × DicoList α) :=
  match list.iteratorOf k with
  | none => .ok (none, list)
  | some ip =>
    match ip.cur with
    | none => .ok (none, list)
    | some c => do
      let e ← deref list.heap (some c)
      list.moveTo k ⟨e.prev, 0, if ip.advanced = 0 then ip.pos - 1 else ip.pos⟩

/-- The loop forward of `dico_iterator_item`. -/
def walkNext (h : Heap α) (n : UInt64) : ℕ → Iterator → Except Fault Iterator
  | 0, _ => .error .loop
  | fuel + 1, ip =>
    match ip.cur with
    | none => .ok ip
    | some c =>
      if ip.pos < n then do
        let e ← deref h (some c)
        walkNext h n fuel ⟨e.next, ip.advanced, ip.pos + 1⟩
      else .ok ip

/-- The loop back. -/
def walkPrev (h : Heap α) (n : UInt64) : ℕ → Iterator → Except Fault Iterator
  | 0, _ => .error .loop
  | fuel + 1, ip =>
    match ip.cur with
    | none => .ok ip
    | some c =>
      if n < ip.pos then do
        let e ← deref h (some c)
        walkPrev h n fuel ⟨e.prev, ip.advanced, ip.pos - 1⟩
      else .ok ip

/-- Where `dico_iterator_item` moves an iterator. -/
def seekItem (list : DicoList α) (n : UInt64) (ip : Iterator) : Except Fault Iterator :=
  if ip.pos < n then do
    let ip ← if ip.advanced = 0 then do
        let e ← deref list.heap ip.cur
        .ok ⟨e.next, 0, ip.pos + 1⟩
      else .ok { ip with advanced := 0 }
    walkNext list.heap n (list.count + 1) ip
  else if n < ip.pos then
    walkPrev list.heap n (list.count + 1)
      ⟨ip.cur, 0, if ip.advanced = 0 then ip.pos - 1 else ip.pos⟩
  else .ok ip

/-- `dico_iterator_item`. -/
def iteratorItem (list : DicoList α) (k : ℕ) (n : UInt64) :
    Except Fault (Option α × DicoList α) :=
  match list.iteratorOf k with
  | none => .error .dangling
  | some ip => do
    let ip ← list.seekItem n ip
    list.moveTo k ip

/-- The loop of `dico_list_item`, and the entry it ends at. -/
def itemLoop (h : Heap α) : ℕ → Option ℕ → Except Fault α
  | 0, p => do
    let e ← deref h p
    .ok e.data
  | n + 1, p => do
    let e ← deref h p
    itemLoop h n e.next

/-- `dico_list_item`. -/
def listItem (list : DicoList α) (n : UInt64) : Except Fault (Option α) :=
  if list.count ≤ n.toNat then .ok none
  else do
    let data ← itemLoop list.heap n.toNat list.head
    .ok (some data)

/-- `dico_iterator_remove_current`. -/
def removeCurrent (list : DicoList α) (k : ℕ) : Except Fault (DicoList α) :=
  match list.iteratorOf k with
  | none => .ok list
  | some ip =>
    match ip.cur with
    | none => .error .dangling
    | some c => do
      let (_, list) ← list.removeItem c
      .ok list

end DicoList

end Dico
