import Dico.Common.Memory
/-!
# A source of bytes

Something that is read from, such as a socket: it hands out its content
from front to back, at each read as many bytes as it likes, but no more
than it is asked for, and none only at the end. What it likes is a plan
for the reads to come; the reads that were made are kept.
-/

namespace Dico

/-- The bytes to come, the plan, and the reads so far. -/
structure Source where
  rest : Bytes
  plan : List ℕ
  reads : List Bytes

namespace Source

variable (x : Source) (n : ℕ)

/-- A source before its first read. -/
def new (content : Bytes) (plan : List ℕ) : Source := ⟨content, plan, []⟩

/-- How many bytes the next read returns, if there are as many. -/
def count : ℕ :=
  match x.plan with
  | [] => n
  | k :: _ => min n (k + 1)

/-- A read of at most `n` bytes. -/
def read : Bytes × Source :=
  let data := x.rest.take (x.count n)
  (data, ⟨x.rest.drop (x.count n), x.plan.tail, if data = [] then x.reads else x.reads ++ [data]⟩)

/-- All there ever was. -/
def content : Bytes := x.reads.flatten ++ x.rest

variable {x n}

/-- A read asks for no more than it was told to. -/
theorem count_le : x.count n ≤ n := by
  rw [count]
  cases x.plan with
  | nil => exact le_rfl
  | cons k plan => exact Nat.min_le_left n (k + 1)

/-- It asks for something. -/
theorem count_pos (hn : 0 < n) : 0 < x.count n := by
  rw [count]
  cases x.plan with
  | nil => exact hn
  | cons k plan => exact Nat.lt_min.2 ⟨hn, Nat.succ_pos k⟩

/-- It returns no more than it was asked for. -/
theorem length_read_le : (x.read n).1.length ≤ n :=
  le_trans (List.length_take_le _ _) count_le

/-- It returns nothing only at the end. -/
theorem read_eq_nil (hn : 0 < n) : (x.read n).1 = [] ↔ x.rest = [] := by
  have hpos := count_pos (x := x) hn
  rw [read, List.take_eq_nil_iff]
  constructor
  · rintro (h | h)
    · omega
    · exact h
  · exact .inr

/-- The rest is what was not read. -/
theorem read_append : (x.read n).1 ++ (x.read n).2.rest = x.rest :=
  List.take_append_drop _ _

/-- A read is kept. -/
theorem reads_read (h : (x.read n).1 ≠ []) : (x.read n).2.reads = x.reads ++ [(x.read n).1] :=
  if_neg h

/-- Reading does not change what there was. -/
theorem content_read : (x.read n).2.content = x.content := by
  rw [content, content]
  by_cases h : (x.read n).1 = []
  · have hrest := read_append (x := x) (n := n)
    rw [h, List.nil_append] at hrest
    rw [hrest]
    have hreads : (x.read n).2.reads = x.reads := if_pos h
    rw [hreads]
  · rw [reads_read h, List.flatten_append, List.flatten_singleton, List.append_assoc, read_append]

end Source

end Dico
