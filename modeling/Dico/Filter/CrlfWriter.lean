import Dico.Reply.Client
import Dico.Text.Strings
/-!
# The CRLF writer

`_crlfstr_write` of `lib/crlfstr.c`. The bytes that wait to be passed on
are those between `buf` and `p` of the source; a newline that no carriage
return precedes lets them go, followed by a carriage return and itself.
What is sent is the image of the bytes written under `toCrlf`, however
they are cut into calls (`crlfWriter_sends`).
-/

namespace Dico

/-- `enum crlf_state`. -/
inductive CrlfState
  | init
  | cr
  deriving DecidableEq, Repr

/-- `struct _crlfstr` on the writing side. -/
structure CrlfWriter (τ : Type) where
  transport : τ
  state : CrlfState

/-- A sink that keeps a record of what it is asked to write. -/
def Sink.recording {τ : Type} (S : Sink τ) : Sink (τ × Bytes) where
  write t buf := ((S.write t.1 buf).1, (S.write t.1 buf).2, t.2 ++ buf)
  flush t := ((S.flush t.1).1, (S.flush t.1).2, t.2)
  lastError t := S.lastError t.1

namespace CrlfWriter

section Model

variable {τ : Type} (S : Sink τ)

/-- `dico_stream_write` to the transport, whatever comes of it. -/
def put (s : CrlfWriter τ) (buf : Bytes) : CrlfWriter τ :=
  { s with transport := (S.write s.transport buf).2 }

/-- The bytes that wait are passed on, if there are any. -/
def release (s : CrlfWriter τ) (pending : Bytes) : CrlfWriter τ :=
  if pending = [] then s else s.put S pending

/-- The loop of `_crlfstr_write`. -/
def writeLoop : CrlfWriter τ → Bytes → Bytes → CrlfWriter τ
  | s, pending, [] => s.release S pending
  | s, pending, b :: rest =>
    if b = newline then
      if s.state = .cr then writeLoop { s with state := .init } (pending ++ [b]) rest
      else writeLoop ((s.release S pending).put S [carriageReturn, newline]) [] rest
    else if b = carriageReturn then writeLoop { s with state := .cr } (pending ++ [b]) rest
    else writeLoop { s with state := .init } (pending ++ [b]) rest

/-- `_crlfstr_write`, which always reports the whole size. -/
def write (s : CrlfWriter τ) (buf : Bytes) : WriteReply × CrlfWriter τ :=
  (.ok buf.length, s.writeLoop S [] buf)

/-- Successive calls. -/
def writes (s : CrlfWriter τ) (bufs : List Bytes) : CrlfWriter τ :=
  bufs.foldl (fun s buf => (s.write S buf).2) s

/-- A new writer, over a transport that is recorded. -/
def fresh (t : τ) : CrlfWriter (τ × Bytes) := ⟨(t, []), .init⟩

/-- What a new writer sends to its transport in some calls. -/
def sent (t : τ) (bufs : List Bytes) : Bytes :=
  ((fresh t).writes S.recording bufs).transport.2

end Model

end CrlfWriter

/-- The text with a carriage return before every newline that has none,
behind the byte `prev`. -/
def toCrlf : Option UInt8 → Bytes → Bytes
  | _, [] => []
  | prev, b :: rest =>
    (if b = newline ∧ prev ≠ some carriageReturn then [carriageReturn, newline] else [b]) ++
      toCrlf (some b) rest

/-- The last byte of a text behind the byte `prev`. -/
def lastOf (prev : Option UInt8) (text : Bytes) : Option UInt8 := text.getLast?.or prev

section Text

variable {prev prev' : Option UInt8}

theorem lastOf_nil (prev : Option UInt8) : lastOf prev [] = prev := rfl

theorem lastOf_cons (prev : Option UInt8) (b : UInt8) (text : Bytes) :
    lastOf prev (b :: text) = lastOf (some b) text := by
  rw [lastOf, lastOf, List.getLast?_cons]
  cases text.getLast? <;> rfl

/-- A text in two parts. -/
theorem toCrlf_append (prev : Option UInt8) (a c : Bytes) :
    toCrlf prev (a ++ c) = toCrlf prev a ++ toCrlf (lastOf prev a) c := by
  induction a generalizing prev with
  | nil => rfl
  | cons b a ih =>
    rw [List.cons_append, toCrlf, toCrlf, ih, lastOf_cons, List.append_assoc]

/-- **A text that was converted stays as it is.** -/
theorem toCrlf_toCrlf (h : prev = some carriageReturn ↔ prev' = some carriageReturn)
    (text : Bytes) : toCrlf prev' (toCrlf prev text) = toCrlf prev text := by
  induction text generalizing prev prev' with
  | nil => rfl
  | cons b text ih =>
    by_cases hb : b = newline ∧ prev ≠ some carriageReturn
    · obtain ⟨rfl, -⟩ := id hb
      rw [toCrlf, if_pos hb]
      -- the newline has its carriage return by now
      change carriageReturn :: newline :: toCrlf (some newline) (toCrlf (some newline) text) = _
      rw [ih Iff.rfl]
      rfl
    · have hb' : ¬ (b = newline ∧ prev' ≠ some carriageReturn) := fun h' =>
        hb ⟨h'.1, fun hp => h'.2 (h.1 hp)⟩
      rw [toCrlf, if_neg hb, List.singleton_append, toCrlf, if_neg hb', ih Iff.rfl,
        List.singleton_append]

end Text

namespace CrlfWriter

section Sends

variable {τ : Type} {S : Sink τ} {s : CrlfWriter (τ × Bytes)} {prev : Option UInt8}

/-- The state of a writer that has seen the byte `prev` last. -/
def Knows (s : CrlfWriter (τ × Bytes)) (prev : Option UInt8) : Prop :=
  s.state = .cr ↔ prev = some carriageReturn

/-- Bytes that wait are sent in their turn. -/
theorem release_sends (S : Sink τ) (s : CrlfWriter (τ × Bytes)) (pending : Bytes) :
    (s.release S.recording pending).transport.2 = s.transport.2 ++ pending ∧
      (s.release S.recording pending).state = s.state := by
  rw [release]
  split_ifs with hnil
  · rw [hnil, List.append_nil]
    exact ⟨rfl, rfl⟩
  · exact ⟨rfl, rfl⟩

/-- **One call**, with some bytes that wait. -/
theorem writeLoop_sends (hs : s.Knows prev) (pending rest : Bytes) :
    (s.writeLoop S.recording pending rest).transport.2 =
        s.transport.2 ++ pending ++ toCrlf prev rest ∧
      (s.writeLoop S.recording pending rest).Knows (lastOf prev rest) := by
  induction rest generalizing s prev pending with
  | nil =>
    obtain ⟨hsent, hstate⟩ := release_sends S s pending
    rw [writeLoop, hsent, toCrlf, List.append_nil, lastOf_nil]
    refine ⟨rfl, ?_⟩
    rw [Knows, hstate]
    exact hs
  | cons b rest ih =>
    rw [writeLoop, lastOf_cons, toCrlf]
    -- what a byte does that is passed on as it is
    have hkeep : ∀ state, (state = CrlfState.cr ↔ b = carriageReturn) →
        (({ s with state := state } : CrlfWriter (τ × Bytes)).writeLoop S.recording
            (pending ++ [b]) rest).transport.2 =
          s.transport.2 ++ pending ++ ([b] ++ toCrlf (some b) rest) ∧
        (({ s with state := state } : CrlfWriter (τ × Bytes)).writeLoop S.recording
            (pending ++ [b]) rest).Knows (lastOf (some b) rest) := by
      intro state hstate
      have hknows : ({ s with state := state } : CrlfWriter (τ × Bytes)).Knows (some b) := by
        rw [Knows, Option.some.injEq]
        exact hstate
      obtain ⟨hsent, hlast⟩ := ih hknows (pending ++ [b])
      refine ⟨?_, hlast⟩
      rw [hsent]
      simp only [List.append_assoc]
    by_cases hnl : b = newline
    · rw [if_pos hnl]
      by_cases hcr : s.state = .cr
      · rw [if_pos hcr, if_neg fun h => h.2 (hs.1 hcr)]
        refine hkeep .init (iff_of_false (by decide) ?_)
        rw [hnl]
        decide
      · rw [if_neg hcr, if_pos ⟨hnl, fun h => hcr (hs.2 h)⟩]
        obtain ⟨hrel, hstate⟩ := release_sends S s pending
        have hknows : ((s.release S.recording pending).put S.recording
            [carriageReturn, newline]).Knows (some b) := by
          refine iff_of_false (fun h => hcr (hstate.symm.trans h)) ?_
          rw [hnl]
          decide
        obtain ⟨hsent, hlast⟩ := ih hknows []
        refine ⟨?_, hlast⟩
        rw [hsent, put, List.append_nil]
        change ((s.release S.recording pending).transport.2 ++ _) ++ _ = _
        rw [hrel]
        simp only [List.append_assoc]
    · have hplain : ¬ (b = newline ∧ prev ≠ some carriageReturn) := fun h => hnl h.1
      rw [if_neg hnl, if_neg hplain]
      by_cases hcr : b = carriageReturn
      · rw [if_pos hcr]
        exact hkeep .cr (iff_of_true rfl hcr)
      · rw [if_neg hcr]
        exact hkeep .init (iff_of_false (by decide) hcr)

/-- Calls, one after another. -/
theorem writes_sends (hs : s.Knows prev) (bufs : List Bytes) :
    (s.writes S.recording bufs).transport.2 = s.transport.2 ++ toCrlf prev bufs.flatten := by
  induction bufs generalizing s prev with
  | nil => exact (List.append_nil _).symm
  | cons buf bufs ih =>
    obtain ⟨hsent, hlast⟩ := writeLoop_sends (S := S) hs [] buf
    have hrest := ih hlast
    rw [List.append_nil] at hsent
    rw [hsent] at hrest
    rw [List.flatten_cons, toCrlf_append, ← List.append_assoc]
    exact hrest

/-- A new writer sends the text converted. -/
theorem sent_eq (S : Sink τ) (t : τ) (bufs : List Bytes) :
    sent S t bufs = toCrlf none bufs.flatten := by
  have hfresh : (fresh t).Knows none :=
    iff_of_false (show ¬ CrlfState.init = CrlfState.cr by decide) (by decide)
  exact (writes_sends hfresh bufs).trans (List.nil_append _)

end Sends

end CrlfWriter

open CrlfWriter in
/-- **The writer converts the text**, however it is cut into calls, and
what it sends passes through another writer unchanged. -/
theorem crlfWriter_sends {τ υ : Type} (S : Sink τ) (t : τ) (S' : Sink υ) (u : υ)
    (bufs : List Bytes) :
    sent S t bufs = toCrlf none bufs.flatten ∧
      (∀ bufs' : List Bytes, bufs'.flatten = bufs.flatten → sent S t bufs' = sent S t bufs) ∧
      ∀ again : List Bytes, again.flatten = sent S t bufs → sent S' u again = sent S t bufs := by
  refine ⟨sent_eq S t bufs, fun bufs' h => ?_, fun again h => ?_⟩
  · rw [sent_eq, sent_eq, h]
  · rw [sent_eq, h, sent_eq, toCrlf_toCrlf Iff.rfl]

open CrlfWriter in
/-- A newline in a call of its own, and what was sent for it sent again. -/
theorem crlfWriter_sends_newline :
    sent tape [] [ascii "a\n"] = sent tape [] [ascii "a", ascii "\n"] ∧
      sent tape [] [ascii "a\r", ascii "\n"] = sent tape [] [ascii "a", ascii "\n"] := by
  obtain ⟨-, hsplit, hagain⟩ := crlfWriter_sends tape [] tape [] [ascii "a", ascii "\n"]
  exact ⟨hsplit [ascii "a\n"] (by decide), hagain [ascii "a\r", ascii "\n"] (by decide)⟩

example : toCrlf none (ascii "a\nb\r\nc\r\r\n") = ascii "a\r\nb\r\nc\r\r\n" := by decide

end Dico
