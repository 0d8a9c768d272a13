import Dico.Session.Protocol
import Dico.Text.Cleared
import Dico.Text.Escapes
import Mathlib.Data.Bool.AllAny
/-!
# A session on the wire

`dicod_loop` reads a line, which may have anything behind its null in the
buffer, and `xdico_tokenize_string` cuts it into words in a buffer that is
used again for every line. The words of a line have no newline in them: it
had none, and no escape stands for one. So what a client sends never puts
the server's status lines out of order (`wire_in_step`).
-/

namespace Dico

open DicoStream Lines
open Utf8 (encode)

/-! ## The model -/

/-- The part of the loop of `dicod_loop` before the commands: the lines, as
they are in the buffer, and the words of each. -/
def readInputs : DicoTokbuf → List (Bytes × Env) → Except Fault (List Input)
  | _, [] => .ok []
  | tb, (buf, env) :: rest => do
    let tb ← xdicoTokenizeString tb buf
    let argv ← tb.words
    let inputs ← readInputs tb rest
    .ok (⟨argv, env⟩ :: inputs)

/-- A line that a client sends: text without a newline. -/
structure ClientLine where
  text : Utf8Text
  newline_notMem : newline ∉ text.bytes
  /-- What is in the buffer behind it, from the lines before. -/
  tail : Bytes
  env : Env

/-- The line in the buffer. -/
def ClientLine.block (line : ClientLine) : Bytes × Env :=
  (line.text.bytes ++ 0 :: line.tail, line.env)

/-! ## The words of a line -/

section Words

variable {tb : DicoTokbuf} {b : UInt8}

/-- No escape stands for a newline. -/
theorem dicoQuoteChar_ne_newline (c : UInt8) : dicoQuoteChar c ≠ newline := by
  have htable : ∀ p ∈ quoteTranstab, p.1 ≠ newline := List.all_iff_forall_prop.1 (by decide)
  unfold dicoQuoteChar
  cases hfind : quoteTranstab.find? fun p => p.2 = c with
  | none => decide
  | some p => exact htable p (List.mem_of_find?_eq_some hfind)

/-- What holds of the characters of a line, and of all escapes, holds of the
pieces of its tokens. -/
theorem forall_lexToken {Q : Piece → Prop} (quote : ℕ) {ws : List ℕ}
    (hplain : ∀ wc ∈ ws, Q (.plain wc)) (hescape : ∀ c, Q (.escape c)) (hslash : Q .slash) :
    ∀ p ∈ (lexToken quote ws).1, Q p := by
  fun_induction lexToken quote ws with
  | case1 => exact List.forall_mem_nil _
  | case2 => exact List.forall_mem_nil _
  | case3 => exact List.forall_mem_nil _
  | case4 => exact List.forall_mem_singleton.2 hslash
  | case5 wd ws _ _ ih =>
    obtain ⟨h92, hwd, hws⟩ := (List.forall_mem_cons.1 hplain).imp_right List.forall_mem_cons.1
    refine List.forall_mem_append.2 ⟨?_, ih hws⟩
    split_ifs
    · exact List.forall_mem_singleton.2 (hescape _)
    · exact List.forall_mem_cons.2 ⟨h92, List.forall_mem_singleton.2 hwd⟩
  | case6 wc ws _ _ _ ih =>
    obtain ⟨hwc, hws⟩ := List.forall_mem_cons.1 hplain
    exact List.forall_mem_cons.2 ⟨hwc, ih hws⟩

/-- And of the pieces of the line. -/
theorem forall_lexLine {Q : Piece → Prop} {ws : List ℕ} (hplain : ∀ wc ∈ ws, Q (.plain wc))
    (hescape : ∀ c, Q (.escape c)) (hslash : Q .slash) : ∀ ps ∈ lexLine ws, ∀ p ∈ ps, Q p := by
  fun_induction lexLine ws with
  | case1 => exact List.forall_mem_nil _
  | case2 ws wc ds hdrop _ ih =>
    have hds : ∀ w ∈ ds, Q (.plain w) := fun w hw =>
      hplain w ((hdrop ▸ List.dropWhile_suffix isBlank).subset (List.mem_cons_of_mem _ hw))
    exact List.forall_mem_cons.2 ⟨forall_lexToken wc hds hescape hslash,
      ih fun w hw => hds w ((lexToken_suffix wc ds).subset hw)⟩
  | case3 ws wc ds hdrop _ ih =>
    have hds : ∀ w ∈ wc :: ds, Q (.plain w) := fun w hw =>
      hplain w ((hdrop ▸ List.dropWhile_suffix isBlank).subset hw)
    exact List.forall_mem_cons.2 ⟨forall_lexToken 0 hds hescape hslash,
      ih fun w hw => hds w ((lexToken_suffix 0 _).subset hw)⟩

/-- The tokens are stored without newlines. -/
theorem newline_notMem_stored {ws : List ℕ} (h : newline ∉ ws.flatMap encode) :
    newline ∉ (lexLine ws).flatMap (storedToken · ++ [0]) := by
  have hpieces : ∀ ps ∈ lexLine ws, ∀ p ∈ ps, newline ∉ p.stored := by
    refine forall_lexLine ?_ ?_ ?_
    · intro wc hwc hmem
      exact h (List.mem_flatMap.2 ⟨wc, hwc, hmem⟩)
    · intro c hmem
      exact dicoQuoteChar_ne_newline c (List.mem_singleton.1 hmem).symm
    · decide
  intro hmem
  obtain ⟨ps, hps, hmem⟩ := List.mem_flatMap.1 hmem
  rcases List.mem_append.1 hmem with hmem | hmem
  · obtain ⟨p, hp, hmem⟩ := List.mem_flatMap.1 hmem
    exact hpieces ps hps p hp hmem
  · exact absurd (List.mem_singleton.1 hmem) (by decide)

/-- **The words that the pointers find** are in the block. -/
theorem words_pointers (hb : b ∉ tb.base) (argc p : ℕ) :
    ∃ ws, (tb.pointers argc p).mapM tb.deref = .ok ws ∧ ws.length = argc ∧ ∀ w ∈ ws, b ∉ w := by
  induction argc generalizing p with
  | zero => exact ⟨[], rfl, rfl, List.forall_mem_nil _⟩
  | succ argc ih =>
    obtain ⟨ws, hws, hlen, hmem⟩ := ih (p + ((tb.base.drop p).takeWhile (· ≠ 0)).length + 1)
    refine ⟨(tb.base.drop p).takeWhile (· ≠ 0) :: ws, ?_, congrArg (· + 1) hlen, ?_⟩
    · rw [DicoTokbuf.pointers, List.mapM_cons, hws, DicoTokbuf.deref, if_pos rfl]
      rfl
    · refine List.forall_mem_cons.2 ⟨fun hw => hb ?_, hmem⟩
      exact List.mem_of_mem_drop ((List.takeWhile_sublist _).subset hw)

/-- **A line is cut into its words**, whatever is in the buffer. -/
theorem words_of_line (tb : DicoTokbuf) (line : ClientLine) :
    ∃ tb' argv, xdicoTokenizeString tb line.block.1 = .ok tb' ∧ tb'.words = .ok argv ∧
      argv.length = (lexLine line.text.codes).length ∧ ∀ w ∈ argv, newline ∉ w := by
  have hline : InLine line.text.codes := fun _ hwc => line.text.codes_range hwc
  have hbytes : line.block.1 = lineBytes line.text.codes line.tail := by
    unfold ClientLine.block lineBytes
    rw [line.text.bytes_eq]
  have hfit : ({ tb with base := [], tokv := [] } : DicoTokbuf).base.length ≤ tb.size :=
    Nat.zero_le _
  obtain ⟨tb', hloop, hgrown⟩ := tokensLoop_lineBytes hfit hline
    (Nat.lt_succ_of_lt (length_le_lineBytes line.text.codes line.tail)) line.tail 0
  rw [Nat.zero_add] at hloop
  have hbase : newline ∉ tb'.base := by
    rw [hgrown.base]
    exact newline_notMem_stored (line.text.bytes_eq ▸ line.newline_notMem)
  obtain ⟨argv, hwords, hlen, hclean⟩ :=
    words_pointers hbase (lexLine line.text.codes).length 0
  refine ⟨{ tb' with tokv := tb'.pointers (lexLine line.text.codes).length 0 }, argv, ?_, hwords,
    hlen, hclean⟩
  unfold xdicoTokenizeString
  rw [hbytes, dicoTokenizeString_eq (first_lineBytes hline line.tail) hloop, hgrown.tokv]
  rfl

/-- All lines. -/
theorem readInputs_ok (tb : DicoTokbuf) (ls : List ClientLine) :
    ∃ inputs, readInputs tb (ls.map ClientLine.block) = .ok inputs ∧
      inputs.map (fun i => i.argv.length) = ls.map (fun l => (lexLine l.text.codes).length) ∧
      ∀ i ∈ inputs, ∀ w ∈ i.argv, newline ∉ w := by
  induction ls generalizing tb with
  | nil => exact ⟨[], rfl, rfl, List.forall_mem_nil _⟩
  | cons line ls ih =>
    obtain ⟨tb', argv, htok, hwords, hlen, hclean⟩ := words_of_line tb line
    obtain ⟨inputs, hread, hlens, hcleans⟩ := ih tb'
    refine ⟨⟨argv, line.env⟩ :: inputs, ?_, ?_, List.forall_mem_cons.2 ⟨hclean, hcleans⟩⟩
    · rw [List.map_cons, ClientLine.block, readInputs]
      change (do let tb ← xdicoTokenizeString tb line.block.1; _) = _
      rw [htok, ok_bind, hwords, ok_bind, hread, ok_bind]
    · rw [List.map_cons, List.map_cons, hlen, hlens]

end Words

/-- **A client never gets out of step with the server.** It sends any lines
of text, in a session without MIME output and SASL logins, where no aliases
are defined. They are cut into words, one for each token; and unless the
session fails, whatever the databases find, the bytes that come back are one
reply for each line that is not blank, up to the one that ends the session:
a client that reads them by their codes finds the end of each, and nothing
is left. -/
theorem wire_in_step {L : Limits} {P : Printing} {block : Bytes} (hblock : 0 < block.length)
    {cfg : Config} (hcfg : cfg.Tidy P) {s₀ : Session} (hs : s₀.Tidy P) (conn : Client)
    (ls : List ClientLine) {τ : Type} {S : Sink τ} {log : τ → Bytes} (hS : S.Delivers log)
    (str : τ) :
    ∃ inputs, readInputs .begin (ls.map ClientLine.block) = .ok inputs ∧
      inputs.map (fun i => i.argv.length) = ls.map (fun l => (lexLine l.text.codes).length) ∧
      ∀ s₁, dicodLoop cfg conn inputs s₀ = .ok s₁ →
        ∃ s s' str' w answers, beginSession cfg conn s₀ = .ok s ∧
          Run.run (serveStep L S P block cfg) inputs (s, .plain str) = .ok (s', .plain str') ∧
          initAuthData s' = .ok s₁ ∧ log str' = log str ++ w ∧
          (∀ rest, readSession s₀.commandList inputs (lines newline (w ++ rest)) =
            some (answers, lines newline rest)) ∧
          answers.length =
            ((heard s₀.commandList inputs).filter fun i => !i.argv.isEmpty).length := by
  obtain ⟨inputs, hread, hlens, hclean⟩ := readInputs_ok .begin ls
  exact ⟨inputs, hread, hlens, fun s₁ hloop => session_in_step hblock hcfg hs hclean hloop hS str⟩

/-- Nothing is known of the user, and the idle time is not. -/
def idle : Env := ⟨⟨true, fun _ => none, fun _ => none⟩, .failed, false⟩

/-- A client that looks up a word and asks for the version, with a blank
line in between; the second line lies over the first one. -/
def dottedLines : List ClientLine :=
  [⟨⟨"DEFINE '*' x".toList, by decide⟩, by decide, [], idle⟩,
    ⟨⟨"  ".toList, by decide⟩, by decide, ascii "FINE '*' x", idle⟩,
    ⟨⟨"XVERSION".toList, by decide⟩, by decide, [], idle⟩,
    ⟨⟨"QUIT".toList, by decide⟩, by decide, ascii "ION", idle⟩]

/-- Its words. -/
def dottedVisit : List Input :=
  [⟨[ascii "DEFINE", ascii "*", ascii "x"], idle⟩, ⟨[], idle⟩, ⟨[ascii "XVERSION"], idle⟩,
    ⟨[ascii "QUIT"], idle⟩]

theorem wire_in_step_dotted :
    readInputs .begin (dottedLines.map ClientLine.block) = .ok dottedVisit ∧
      ∃ s s' str' w answers,
        beginSession .plain ⟨.other, none, fun _ => true⟩
          (.start (registered fun c => c ≠ .mime ∧ c ≠ .sasl) [dottedDb]) = .ok s ∧
        Run.run (serveStep ample tape printOnce (List.replicate 1024 0) .plain) dottedVisit
          (s, .plain []) = .ok (s', .plain str') ∧
        id str' = id [] ++ w ∧
        (∀ rest, readSession (registered fun c => c ≠ .mime ∧ c ≠ .sasl) dottedVisit
          (lines newline (w ++ rest)) = some (answers, lines newline rest)) ∧
        answers.length = 3 := by
  have hblock : 0 < (List.replicate 1024 (0 : UInt8)).length := by
    rw [List.length_replicate]
    decide
  have hcfg : Config.plain.Tidy printOnce :=
    ⟨List.not_mem_nil, List.not_mem_nil, List.not_mem_nil, List.not_mem_nil, List.not_mem_nil,
      by decide, (by intro text h; cases h), (by intro text h; cases h)⟩
  have hdb : dottedDb.Tidy printOnce :=
    ⟨by decide, by decide, by decide, (by intro text h; cases h)⟩
  have hs : (Session.start (registered fun c => c ≠ .mime ∧ c ≠ .sasl) [dottedDb]).Tidy
      printOnce :=
    ⟨List.forall_mem_singleton.2 hdb, by decide, by decide, rfl, by decide⟩
  have hvisit : readInputs .begin (dottedLines.map ClientLine.block) = .ok dottedVisit := by rfl
  obtain ⟨inputs, hread, -, hrest⟩ :=
    wire_in_step (L := ample) hblock hcfg hs ⟨.other, none, fun _ => true⟩ dottedLines
      tape_delivers []
  rw [hvisit] at hread
  obtain rfl := Except.ok.inj hread
  obtain ⟨s₁, hloop⟩ : ∃ s₁, dicodLoop .plain ⟨.other, none, fun _ => true⟩ dottedVisit
      (.start (registered fun c => c ≠ .mime ∧ c ≠ .sasl) [dottedDb]) = .ok s₁ := ⟨_, rfl⟩
  obtain ⟨s, s', str', w, answers, hbegin, hserve, -, hlog, hanswers, hlen⟩ := hrest s₁ hloop
  exact ⟨hvisit, s, s', str', w, answers, hbegin, hserve, hlog, hanswers,
    hlen.trans (by decide)⟩

end Dico
