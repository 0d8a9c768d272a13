import Dico.List.Model
/-!
# The list without pointers

What the list is for: a sequence of items, each the address of its entry
and its data, with iterators that stand at an item. The operations are
those of the dico list, on the sequence; and `ListOp` names the calls a
user makes, on either.
-/

namespace Dico

open Chain

/-- The items of a list in order, its flags and comparator, and its
iterators. -/
structure PureList (α : Type) where
  items : List (ℕ × α)
  flags : ℕ
  comp : Option (α → α → ℤ)
  itr : List (ℕ × Iterator)

namespace PureList

variable {α : Type} [DecidableEq α]

/-- The address of the item behind the one at `a`. -/
def succ : List (ℕ × α) → ℕ → Option ℕ
  | [], _ => none
  | (b, _) :: l, a => if b = a then first l none else succ l a

/-- The address of the item before the one at `a`, where `p` comes before
them all. -/
def pred : Option ℕ → List (ℕ × α) → ℕ → Option ℕ
  | _, [], _ => none
  | p, (b, _) :: l, a => if b = a then p else pred (some b) l a

/-- The empty list. -/
def create (flags : ℕ) (comp : Option (α → α → ℤ)) : PureList α := ⟨[], flags, comp, []⟩

/-- The comparator. -/
def cmp (p : PureList α) : α → α → ℤ := p.comp.getD cmpPtr

/-- Whether new data are refused because of an item at one end. -/
def refuses (p : PureList α) (flag : ℕ) (i : Option (ℕ × α)) (data : α) : Bool :=
  match p.comp, i with
  | some cmp, some i => decide (p.flags &&& flag ≠ 0) && cmp i.2 data == 0
  | _, _ => false

/-- The data behind all others. -/
def append (p : PureList α) (a : ℕ) (data : α) : PureList α :=
  if p.refuses compareTail p.items.getLast? data then p
  else { p with items := p.items ++ [(a, data)] }

/-- The data before all others. -/
def prepend (p : PureList α) (a : ℕ) (data : α) : PureList α :=
  if p.refuses compareHead p.items.head? data then p
  else { p with items := (a, data) :: p.items, itr := mapItr (Iterator.increasePos 0) p.itr }

/-- The items before the first that is greater, and the others; unless an
item that compares equal comes first and the list has flags. -/
def spot (p : PureList α) (data : α) : List (ℕ × α) → Option (List (ℕ × α) × List (ℕ × α))
  | [] => some ([], [])
  | i :: l =>
    if 0 < p.cmp i.2 data then some ([], i :: l)
    else if p.cmp i.2 data = 0 ∧ p.flags ≠ 0 then none
    else (p.spot data l).map fun s => (i :: s.1, s.2)

/-- The data before the first item that is greater. -/
def insertSorted (p : PureList α) (a : ℕ) (data : α) : PureList α :=
  match p.spot data p.items with
  | none => p
  | some (u, []) => { p with items := u ++ [(a, data)] }
  | some (u, i :: v) =>
    { p with items := u ++ (a, data) :: i :: v,
             itr := mapItr (Iterator.increasePos (UInt64.ofNat u.length - 1)) p.itr }

/-- The item at an address taken out; iterators that stand there move on. -/
def removeAt (p : PureList α) (a : ℕ) : PureList α :=
  { p with items := p.items.eraseP fun i => i.1 = a,
           itr := mapItr (Iterator.advance a (succ p.items a)) p.itr }

/-- The first item with the data taken out. -/
def remove (p : PureList α) (data : α) : PureList α :=
  match p.items.find? fun i => p.cmp i.2 data = 0 with
  | none => p
  | some i => p.removeAt i.1

/-- The last item taken out. -/
def pop (p : PureList α) : PureList α :=
  match p.items.getLast? with
  | none => p
  | some i => p.removeAt i.1

/-- An iterator in another state, if it is there and moves. -/
def moveWith (p : PureList α) (k : ℕ) (f : Iterator → Option Iterator) : PureList α :=
  match (p.itr.lookup k).bind f with
  | none => p
  | some ip => { p with itr := setItr p.itr k ip }

/-- The next item for an iterator that is not at the end. -/
def nextOf (p : PureList α) (ip : Iterator) : Option Iterator :=
  ip.cur.map fun c =>
    if ip.advanced = 0 then ⟨succ p.items c, 0, ip.pos + 1⟩ else { ip with advanced := 0 }

/-- The item before for an iterator that is not at the end. -/
def prevOf (p : PureList α) (ip : Iterator) : Option Iterator :=
  ip.cur.map fun c =>
    ⟨pred none p.items c, 0, if ip.advanced = 0 then ip.pos - 1 else ip.pos⟩

end PureList

/-- A call of the list's user; `a` is the address `malloc` returns, and `k`
names an iterator. -/
inductive ListOp (α : Type)
  | append (a : ℕ) (data : α)
  | prepend (a : ℕ) (data : α)
  | insertSorted (a : ℕ) (data : α)
  | remove (data : α)
  | pop
  | removeCurrent (k : ℕ)
  | clear
  | iterator (k : ℕ)
  | first (k : ℕ)
  | next (k : ℕ)
  | prev (k : ℕ)
  | destroy (k : ℕ)

section Step

variable {α : Type} [DecidableEq α]

/-- What a call does to the list. An address in use is not returned by
`malloc`, and `dico_iterator_remove_current` is not called at the end. -/
def DicoList.step : ListOp α → DicoList α → Except Fault (DicoList α)
  | .append a data, c =>
    if (c.heap a).isSome then .ok c else do
      let (_, c') ← c.append a data
      .ok c'
  | .prepend a data, c =>
    if (c.heap a).isSome then .ok c else do
      let (_, c') ← c.prepend a data
      .ok c'
  | .insertSorted a data, c =>
    if (c.heap a).isSome then .ok c else do
      let (_, c') ← c.insertSorted a data
      .ok c'
  | .remove data, c => do
    let (_, c') ← c.remove data
    .ok c'
  | .pop, c => do
    let (_, c') ← c.pop
    .ok c'
  | .removeCurrent k, c =>
    if (c.iteratorOf k).bind Iterator.cur = none then .ok c else c.removeCurrent k
  | .clear, c => c.clear
  | .iterator k, c => .ok (c.attach k)
  | .first k, c => do
    let (_, c') ← c.iteratorFirst k
    .ok c'
  | .next k, c => do
    let (_, c') ← c.iteratorNext k
    .ok c'
  | .prev k, c => do
    let (_, c') ← c.iteratorPrev k
    .ok c'
  | .destroy k, c => .ok (c.detach k)

/-- What a call does to the sequence. -/
def PureList.step : ListOp α → PureList α → PureList α
  | .append a data, p => if a ∈ addrs p.items then p else p.append a data
  | .prepend a data, p => if a ∈ addrs p.items then p else p.prepend a data
  | .insertSorted a data, p => if a ∈ addrs p.items then p else p.insertSorted a data
  | .remove data, p => p.remove data
  | .pop, p => p.pop
  | .removeCurrent k, p =>
    match (p.itr.lookup k).bind Iterator.cur with
    | none => p
    | some c => p.removeAt c
  | .clear, p => { p with items := [] }
  | .iterator k, p =>
    if (p.itr.lookup k).isSome then p
    else { p with itr := (k, ⟨Chain.first p.items none, 0, 0⟩) :: p.itr }
  | .first k, p => p.moveWith k fun _ => some ⟨Chain.first p.items none, 0, 0⟩
  | .next k, p => p.moveWith k p.nextOf
  | .prev k, p => p.moveWith k p.prevOf
  | .destroy k, p => { p with itr := p.itr.filter fun q => q.1 ≠ k }

/-- A call on both. -/
def stepBoth (op : ListOp α) (s : DicoList α × PureList α) :
    Except Fault (DicoList α × PureList α) := do
  let c' ← s.1.step op
  .ok (c', s.2.step op)

end Step

end Dico
