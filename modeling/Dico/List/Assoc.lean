import Dico.Text.Strings
/-!
# Association lists

`lib/assoc.c`, over the items of the list. A search takes its comparison
with it, and the comparison counts the keys that match until the one that
was asked for.
-/

namespace Dico

/-- `struct find_closure`. -/
structure FindClosure where
  count : ℕ
  str : Bytes

/-- `assoc_key_cmp` and `assoc_key_cmp_ci`: whether the item is the one
that is looked for, and the closure after the comparison. -/
def assocKeyCmp (ci : Bool) (item : Bytes × Bytes) (clos : FindClosure) : Bool × FindClosure :=
  if (if ci then cStrcaseeq item.1 clos.str else item.1 == clos.str) then
    (clos.count - 1 = 0, { clos with count := clos.count - 1 })
  else (false, clos)

/-- The position of the item a search ends at. -/
def assocLocate (ci : Bool) : List (Bytes × Bytes) → FindClosure → Option ℕ
  | [], _ => none
  | item :: l, clos =>
    let r := assocKeyCmp ci item clos
    if r.1 then some 0 else (assocLocate ci l r.2).map (· + 1)

/-- `struct dico_assoc_list`, with its flags `DICO_ASSOC_CI` and
`DICO_ASSOC_MULT`. -/
structure DicoAssocList where
  ci : Bool
  mult : Bool
  list : List (Bytes × Bytes)
  deriving DecidableEq

namespace DicoAssocList

variable (assoc : DicoAssocList)

/-- `dico_assoc_create`. -/
def create (ci mult : Bool) : DicoAssocList := ⟨ci, mult, []⟩

/-- `_dico_assoc_find_n`, as a position. -/
def locateN (key : Bytes) (n : ℕ) : Option ℕ :=
  if n = 0 then none else assocLocate assoc.ci assoc.list ⟨n, key⟩

/-- `dico_assoc_remove_n`. -/
def removeN (key : Bytes) (n : ℕ) : DicoAssocList :=
  match assoc.locateN key n with
  | none => assoc
  | some i => { assoc with list := assoc.list.eraseIdx i }

/-- `dico_assoc_add`, which fails where a key is there already and may
neither be replaced nor come twice. -/
def add (key : Bytes) (value : Option Bytes) (count : ℕ) (replace : Bool) :
    Option DicoAssocList :=
  match value with
  | none => some (assoc.removeN key count)
  | some value =>
    match if assoc.mult then none else assoc.locateN key count with
    | some i =>
      if replace then
        some { assoc with list := assoc.list.modify i fun item => (item.1, value) }
      else none
    | none => some { assoc with list := assoc.list ++ [(key, value)] }

/-- `dico_assoc_append`. -/
def append (key value : Bytes) : Option DicoAssocList := assoc.add key (some value) 1 false

/-- Where keys may come twice, nothing is in the way of one more pair. -/
theorem append_mult (h : assoc.mult = true) (key value : Bytes) :
    assoc.append key value = some { assoc with list := assoc.list ++ [(key, value)] } := by
  simp only [append, add, h, if_true]

end DicoAssocList

end Dico
