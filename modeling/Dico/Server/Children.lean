import Dico.Common.Run
import Mathlib.Data.List.Perm.Basic
import Mathlib.Data.List.Nodup
/-!
# The child table of the forking server

`find_pid`, `register_child`, `cleanup_children`, `handle_connection` and
the loop of `server_loop` of `dicod/server.c`, with the processes the
server has forked as part of the state. The loop checks for too many
children once, before it waits for connections, and lets one child more
through than the table has room for; and it then handles every socket
that is ready without another check. `runEvents_safe_iff` says that the
table is in order in every state of a run exactly as long as every child
was forked with room left.
-/

namespace Dico

/-- The state of the server: its variables, how many of the sockets found
ready are still to be handled, and the processes it has forked: those
that run, and those that exited and have not been waited for. -/
structure Server where
  childtab : List ℕ
  numChildren : ℕ
  totalForks : ℕ
  needCleanup : Bool
  pending : ℕ
  running : List ℕ
  exited : List ℕ
  deriving DecidableEq, Repr

/-- What comes of a connection that is accepted. -/
inductive Connection
  /-- `accept` failed. -/
  | failed
  /-- The access control list denies the client. -/
  | denied
  /-- `fork` failed. -/
  | noFork
  /-- `fork` returned a process. -/
  | forked (pid : ℕ)
  deriving DecidableEq, Repr

/-- What happens next: a child exits; the loop starts a round, in which so
many sockets are ready; or the next socket that is ready is handled. -/
inductive Event
  | exits (pid : ℕ)
  | round (ready : ℕ)
  | connection (c : Connection)
  deriving DecidableEq, Repr

namespace Server

/-- The server when `server_loop` starts. -/
def start (maxChildren : ℕ) : Server where
  childtab := List.replicate maxChildren 0
  numChildren := 0
  totalForks := 0
  needCleanup := false
  pending := 0
  running := []
  exited := []

/-- `max_children`: the length of the table. -/
def maxChildren (s : Server) : ℕ := s.childtab.length

/-- The processes that were forked and not waited for. -/
def live (s : Server) : List ℕ := s.running ++ s.exited

/-- `find_pid`. -/
def findPid (tab : List ℕ) (pid : ℕ) : Option ℕ := tab.findIdx? (· == pid)

/-- `register_child`, in a table. -/
def registerIn (tab : List ℕ) (pid : ℕ) : List ℕ :=
  match findPid tab 0 with
  | some i => tab.set i pid
  | none => tab

/-- `register_child`. -/
def registerChild (s : Server) (pid : ℕ) : Server :=
  { s with childtab := registerIn s.childtab pid, numChildren := s.numChildren + 1,
           totalForks := s.totalForks + 1 }

/-- The loop of `cleanup_children` over the processes `waitpid` returns. A
process that is not in the table has index `-1`, and zero is stored
there all the same. -/
def reap : List ℕ → List ℕ → ℕ → Except Fault (List ℕ × ℕ)
  | [], tab, n => .ok (tab, n)
  | pid :: pids, tab, n =>
    match findPid tab pid with
    | none => .error .bounds
    | some i => reap pids (tab.set i 0) (n - 1)

/-- `cleanup_children`. -/
def cleanupChildren (s : Server) : Except Fault Server := do
  let (tab, n) ← reap s.exited s.childtab s.numChildren
  .ok { s with childtab := tab, numChildren := n, exited := [] }

/-- The start of a round of `server_loop`. -/
def cleanup (s : Server) : Except Fault Server :=
  if s.needCleanup then s.cleanupChildren else .ok s

/-- `handle_connection`, for a process that `fork` may return. -/
def handleConnection (s : Server) : Connection → Server
  | .forked pid =>
    if pid = 0 ∨ pid ∈ s.live then s
    else { s.registerChild pid with running := pid :: s.running }
  | _ => s

/-- One step of the server and its processes. What cannot happen in a
state changes nothing. -/
def step : Event → Server → Except Fault Server
  | .exits pid, s =>
    if pid ∈ s.running then
      .ok { s with running := s.running.erase pid, exited := s.exited ++ [pid],
                   needCleanup := true }
    else .ok s
  | .round ready, s =>
    if s.pending ≠ 0 then .ok s
    else do
      let s ← s.cleanup
      -- `pause()`, or `select`: a table that is exactly full is let through
      if s.maxChildren < s.numChildren then .ok s else .ok { s with pending := ready }
  | .connection c, s =>
    if s.pending = 0 then .ok s
    else .ok ({ s with pending := s.pending - 1 }.handleConnection c)

/-- The table is in order: it holds as many processes as are counted, no
more are counted than fit, and every child is in it once. -/
structure InOrder (s : Server) : Prop where
  count : s.numChildren = (s.childtab.filter (· ≠ 0)).length
  le : s.numChildren ≤ s.maxChildren
  once : ∀ pid ∈ s.live, s.childtab.count pid = 1

/-- What the step needs of the state it is taken in: a child is forked only
with room left in the table. -/
def HasRoom : Event → Server → Prop
  | .connection (.forked pid), s =>
    s.pending ≠ 0 → ¬ (pid = 0 ∨ pid ∈ s.live) → s.numChildren < s.maxChildren
  | _, _ => True

/-- What holds between steps: the table holds the live processes and
nothing else. -/
structure Inv (s : Server) : Prop where
  table : (s.childtab.filter (· ≠ 0)).Perm s.live
  count : s.numChildren = s.live.length
  nodup : s.live.Nodup
  zero : 0 ∉ s.live

variable {s s' : Server} {tab pids : List ℕ} {pid i n : ℕ}

/-- What `find_pid` finds. -/
theorem findPid_eq_some (h : findPid tab pid = some i) : tab[i]? = some pid := by
  obtain ⟨hlt, hp, -⟩ := List.findIdx?_eq_some_iff_getElem.1 h
  rw [List.getElem?_eq_getElem hlt, beq_iff_eq.1 hp]

theorem findPid_of_mem (h : pid ∈ tab) : ∃ i, findPid tab pid = some i := by
  rw [← Option.isSome_iff_exists, findPid, List.findIdx?_isSome, List.any_eq_true]
  exact ⟨pid, h, beq_self_eq_true pid⟩

/-- A process put into an empty slot. -/
theorem filter_set_of_zero (h : tab[i]? = some 0) (hpid : pid ≠ 0) :
    ((tab.set i pid).filter (· ≠ 0)).Perm (pid :: tab.filter (· ≠ 0)) := by
  obtain ⟨hlt, h0⟩ := List.getElem?_eq_some_iff.1 h
  have htab : tab = tab.take i ++ 0 :: tab.drop (i + 1) := by
    rw [← h0, List.cons_getElem_drop_succ, List.take_append_drop]
  rw [List.set_eq_take_append_cons_drop, if_pos hlt]
  conv_rhs => rw [htab]
  simp only [List.filter_append, List.filter_cons, ne_eq, hpid, not_false_eq_true, decide_true,
    not_true_eq_false, decide_false, if_true, Bool.false_eq_true, if_false]
  exact List.perm_middle

/-- A slot that is emptied. -/
theorem filter_set_to_zero (h : tab[i]? = some pid) (hpid : pid ≠ 0) :
    (tab.filter (· ≠ 0)).Perm (pid :: (tab.set i 0).filter (· ≠ 0)) := by
  obtain ⟨hlt, h0⟩ := List.getElem?_eq_some_iff.1 h
  have hback : (tab.set i 0).set i pid = tab := by
    rw [List.set_set, ← h0, List.set_getElem_self]
  have hzero : (tab.set i 0)[i]? = some 0 := List.getElem?_set_self hlt
  have := filter_set_of_zero hzero hpid
  rwa [hback] at this

/-- **The table is in order where it holds the live processes.** -/
theorem Inv.inOrder (h : Inv s) : InOrder s where
  count := by rw [h.count, h.table.length_eq]
  le := by
    rw [h.count, ← h.table.length_eq]
    exact List.length_filter_le _ _
  once := by
    intro pid hpid
    have hne : pid ≠ 0 := fun h0 => h.zero (h0 ▸ hpid)
    rw [← List.count_filter (p := (· ≠ 0)) (decide_eq_true hne), h.table.count_eq]
    exact List.count_eq_one_of_mem h.nodup hpid

/-- Registering a process keeps the table in order where there is room. -/
theorem registerIn_perm (h : (tab.filter (· ≠ 0)).length < tab.length) (hpid : pid ≠ 0) :
    ((registerIn tab pid).filter (· ≠ 0)).Perm (pid :: tab.filter (· ≠ 0)) := by
  have hmem : 0 ∈ tab := by
    by_contra hnone
    have hall : tab.filter (· ≠ 0) = tab :=
      List.filter_eq_self.2 fun x hx => decide_eq_true fun h0 => hnone (h0 ▸ hx)
    rw [hall] at h
    exact Nat.lt_irrefl _ h
  obtain ⟨i, hi⟩ := findPid_of_mem hmem
  rw [registerIn, hi]
  exact filter_set_of_zero (findPid_eq_some hi) hpid

/-- **Waiting for children empties their slots**, and touches no other. -/
theorem reap_ok (hperm : (tab.filter (· ≠ 0)).Perm (pids ++ s.running)) (hzero : 0 ∉ pids) :
    ∃ tab', reap pids tab (pids.length + n) = .ok (tab', n) ∧
      (tab'.filter (· ≠ 0)).Perm s.running := by
  induction pids generalizing tab with
  | nil => exact ⟨tab, by rw [reap, List.length_nil, Nat.zero_add], hperm⟩
  | cons pid pids ih =>
    rw [List.mem_cons, not_or] at hzero
    -- every process waited for has its slot, so no index is `-1`
    have hmem : pid ∈ tab :=
      (List.mem_filter.1 (hperm.mem_iff.2 List.mem_cons_self)).1
    obtain ⟨i, hi⟩ := findPid_of_mem hmem
    have hslot := filter_set_to_zero (findPid_eq_some hi) (Ne.symm hzero.1)
    have hrest : ((tab.set i 0).filter (· ≠ 0)).Perm (pids ++ s.running) :=
      (hslot.symm.trans hperm).cons_inv
    obtain ⟨tab', hrun, hperm'⟩ := ih hrest hzero.2
    refine ⟨tab', ?_, hperm'⟩
    rw [reap, hi, List.length_cons, Nat.add_right_comm, Nat.add_sub_cancel]
    exact hrun

theorem cleanupChildren_ok (h : Inv s) : ∃ s', s.cleanupChildren = .ok s' ∧ Inv s' := by
  have hperm : (s.childtab.filter (· ≠ 0)).Perm (s.exited ++ s.running) :=
    h.table.trans List.perm_append_comm
  have hcount : s.numChildren = s.exited.length + s.running.length := by
    rw [h.count, live, List.length_append, Nat.add_comm]
  obtain ⟨tab', hrun, hperm'⟩ := reap_ok (n := s.running.length) hperm
    (fun h0 => h.zero (List.mem_append_right _ h0))
  refine ⟨{ s with childtab := tab', numChildren := s.running.length, exited := [] }, ?_,
    ⟨?_, ?_, ?_, ?_⟩⟩
  · rw [cleanupChildren, hcount, hrun]
    rfl
  · simpa only [live, List.append_nil] using hperm'
  · simp only [live, List.append_nil]
  · simpa only [live, List.append_nil] using (List.nodup_append.1 h.nodup).1
  · simpa only [live, List.append_nil] using fun h0 => h.zero (List.mem_append_left _ h0)

theorem cleanup_ok (h : Inv s) : ∃ s', s.cleanup = .ok s' ∧ Inv s' := by
  unfold cleanup
  split_ifs
  · exact cleanupChildren_ok h
  · exact ⟨s, rfl, h⟩

/-- A child forked with room left. -/
theorem inv_forked (h : Inv s) (hpid : ¬ (pid = 0 ∨ pid ∈ s.live))
    (hroom : s.numChildren < s.maxChildren) :
    Inv { s.registerChild pid with running := pid :: s.running } := by
  rw [not_or] at hpid
  have hlt : (s.childtab.filter (· ≠ 0)).length < s.childtab.length := by
    rw [h.table.length_eq, ← h.count]
    exact hroom
  refine ⟨(registerIn_perm hlt hpid.1).trans (h.table.cons pid), ?_, ?_, ?_⟩
  · simp only [registerChild, live, List.cons_append, List.length_cons, h.count]
  · exact List.nodup_cons.2 ⟨hpid.2, h.nodup⟩
  · exact fun h0 => (List.mem_cons.1 h0).elim (fun h0 => hpid.1 h0.symm) h.zero

/-- **A step with room keeps the table in order.** -/
theorem step_ok (e : Event) (s : Server) (h : Inv s) (hroom : HasRoom e s) :
    ∃ s', step e s = .ok s' ∧ Inv s' := by
  cases e with
  | exits pid =>
    rw [step]
    by_cases hmem : pid ∈ s.running
    · -- the process moves from one list of the live ones to the other
      have hlive : s.live.Perm (s.running.erase pid ++ (s.exited ++ [pid])) := by
        have h1 : s.live.Perm (pid :: (s.running.erase pid ++ s.exited)) :=
          (List.perm_cons_erase hmem).append_right _
        have h2 : (s.running.erase pid ++ (s.exited ++ [pid])).Perm
            (pid :: (s.running.erase pid ++ s.exited)) := by
          rw [← List.append_assoc]
          exact List.perm_append_singleton _ _
        exact h1.trans h2.symm
      rw [if_pos hmem]
      exact ⟨_, rfl, h.table.trans hlive, h.count.trans hlive.length_eq, hlive.nodup_iff.1 h.nodup,
        fun h0 => h.zero (hlive.mem_iff.2 h0)⟩
    · exact ⟨s, if_neg hmem, h⟩
  | round ready =>
    rw [step]
    split_ifs
    · exact ⟨s, rfl, h⟩
    · obtain ⟨s₁, hclean, h₁⟩ := cleanup_ok h
      rw [hclean, ok_bind]
      split_ifs
      · exact ⟨s₁, rfl, h₁⟩
      · exact ⟨_, rfl, h₁.table, h₁.count, h₁.nodup, h₁.zero⟩
  | connection c =>
    rw [step]
    by_cases hpend : s.pending = 0
    · exact ⟨s, if_pos hpend, h⟩
    rw [if_neg hpend]
    have hless : Inv { s with pending := s.pending - 1 } := ⟨h.table, h.count, h.nodup, h.zero⟩
    refine ⟨_, rfl, ?_⟩
    cases c with
    | failed => exact hless
    | denied => exact hless
    | noFork => exact hless
    | forked pid =>
      rw [handleConnection]
      split_ifs with hpid
      · exact hless
      · exact inv_forked hless hpid (hroom hpend hpid)

/-- **A child forked without room leaves the table out of order**: more
children are counted than it has slots. -/
theorem not_inOrder_of_step {e : Event} (hroom : ¬ HasRoom e s)
    (hstep : step e s = .ok s') : ¬ InOrder s' := by
  match e with
  | .exits pid => exact absurd trivial hroom
  | .round ready => exact absurd trivial hroom
  | .connection .failed => exact absurd trivial hroom
  | .connection .denied => exact absurd trivial hroom
  | .connection .noFork => exact absurd trivial hroom
  | .connection (.forked pid) =>
    simp only [HasRoom, Classical.not_imp, Nat.not_lt] at hroom
    obtain ⟨hpend, hpid, hfull⟩ := hroom
    have hs' : s' = { ({ s with pending := s.pending - 1 } : Server).registerChild pid with
        running := pid :: s.running } := by
      rw [step, if_neg hpend, handleConnection] at hstep
      exact (Except.ok.inj hstep).symm.trans (if_neg hpid)
    intro hord
    have hlen : s'.maxChildren = s.maxChildren := by
      rw [hs']
      simp only [maxChildren, registerChild, registerIn]
      split
      · exact List.length_set
      · rfl
    have hle := hord.le
    have hnum : s'.numChildren = s.numChildren + 1 := by rw [hs']; rfl
    omega

theorem inv_start (maxChildren : ℕ) : Inv (start maxChildren) where
  table := by
    simp only [start, live, List.append_nil]
    rw [List.filter_eq_nil_iff.2]
    intro x hx
    rw [List.eq_of_mem_replicate hx]
    decide
  count := rfl
  nodup := List.nodup_nil
  zero := List.not_mem_nil

/-- **The child table is in order in every state of a run, and no access to
it is out of bounds, exactly as long as every child is forked with room
left.** -/
theorem runEvents_safe_iff (maxChildren : ℕ) (es : List Event) :
    Run.Safe step InOrder es (start maxChildren) ↔
      Run.Guarded step HasRoom es (start maxChildren) :=
  Run.safe_iff_guarded Inv (fun _ h => h.inOrder) step_ok
    (fun _ _ _ _ hroom hstep => not_inOrder_of_step hroom hstep) (inv_start maxChildren)

/-- **Two sockets ready at once overrun a table of one**: both connections
are served, and two children are counted. -/
theorem runEvents_overrun :
    ¬ Run.Safe step InOrder [.round 2, .connection (.forked 7), .connection (.forked 8)]
      (start 1) := by
  intro h
  obtain ⟨s', hrun, hord⟩ := h _ (List.prefix_refl _)
  have hfinal : Run.run step [.round 2, .connection (.forked 7), .connection (.forked 8)]
      (start 1) = .ok { start 1 with childtab := [7], numChildren := 2, totalForks := 2,
                                     running := [8, 7] } := by rfl
  obtain rfl := Except.ok.inj (hrun.symm.trans hfinal)
  exact absurd hord.le (by decide)

end Server

end Dico
