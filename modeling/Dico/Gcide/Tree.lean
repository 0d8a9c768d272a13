import Dico.Text.Cstr
/-!
# The parse tree of an article

`struct gcide_tag` and `gcide_parse_tree_inorder`. A function that is
called for the tags of a tree sees a sequence of visits: a tag without
content or with a text once, a tag with others in it before and after
these (`inorder_eq`).
-/

namespace Dico

/-- `struct gcide_tag`, with the words of its tag: a tag has nothing in it,
or a text, or other tags. -/
inductive GcideTag (α : Type)
  | unspecified (parmv : List Bytes)
  | text (t : α)
  | taglist (parmv : List Bytes) (tags : List (GcideTag α))

/-- What the function of `gcide_parse_tree_inorder` is called with: a tag,
and for a list of tags whether it is its end. -/
inductive TagVisit (α : Type)
  | unspecified (parmv : List Bytes)
  | text (t : α)
  | opening (parmv : List Bytes)
  | closing (parmv : List Bytes)
  deriving DecidableEq

namespace GcideTag

variable {α σ : Type}

mutual

/-- `inorder_helper`: whether it stops, and the state of the function. -/
def inorder (fn : TagVisit α → σ → Bool × σ) : GcideTag α → σ → Bool × σ
  | .unspecified parmv, s => fn (.unspecified parmv) s
  | .text t, s => fn (.text t) s
  | .taglist parmv tags, s =>
    let r := fn (.opening parmv) s
    if r.1 then (true, r.2) else fn (.closing parmv) (iterateTags fn tags r.2)

/-- `dico_list_iterate`, with `inorder_helper`. -/
def iterateTags (fn : TagVisit α → σ → Bool × σ) : List (GcideTag α) → σ → σ
  | [], s => s
  | t :: ts, s =>
    let r := inorder fn t s
    if r.1 then r.2 else iterateTags fn ts r.2

end

mutual

/-- The visits to a tag. -/
def visits : GcideTag α → List (TagVisit α)
  | .unspecified parmv => [.unspecified parmv]
  | .text t => [.text t]
  | .taglist parmv tags => .opening parmv :: (visitsAll tags ++ [.closing parmv])

/-- The visits to several. -/
def visitsAll : List (GcideTag α) → List (TagVisit α)
  | [] => []
  | t :: ts => visits t ++ visitsAll ts

end

/-- Induction on a tree. -/
theorem tree_induction {P : GcideTag α → Prop} (hun : ∀ parmv, P (.unspecified parmv))
    (htext : ∀ t, P (.text t))
    (hlist : ∀ parmv tags, (∀ t ∈ tags, P t) → P (.taglist parmv tags)) : ∀ t, P t
  | .unspecified parmv => hun parmv
  | .text t => htext t
  | .taglist parmv tags => hlist parmv tags fun t _ => tree_induction hun htext hlist t

/-- **A function that does not stop the walk is called for every visit.** -/
theorem inorder_eq {fn : TagVisit α → σ → Bool × σ} (hfn : ∀ v s, (fn v s).1 = false)
    (tag : GcideTag α) (s : σ) :
    inorder fn tag s = (false, tag.visits.foldl (fun s v => (fn v s).2) s) := by
  have hpair : ∀ v s, fn v s = (false, (fn v s).2) := fun v s => Prod.ext (hfn v s) rfl
  induction tag using tree_induction generalizing s with
  | hun parmv => exact hpair _ s
  | htext t => exact hpair _ s
  | hlist parmv tags ih =>
    have hall : ∀ s, iterateTags fn tags s =
        (visitsAll tags).foldl (fun s v => (fn v s).2) s := by
      induction tags with
      | nil => exact fun s => rfl
      | cons t ts ihts =>
        intro s
        rw [iterateTags, visitsAll, List.foldl_append, ih t List.mem_cons_self]
        exact ihts (fun t ht => ih t (List.mem_cons_of_mem _ ht)) _
    rw [inorder, visits, List.foldl_cons, List.foldl_append, ← hall]
    simp only [hfn, Bool.false_eq_true, if_false]
    exact hpair _ _

end GcideTag

end Dico
