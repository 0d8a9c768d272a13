import Dico.Reply.Robust
/-!
# Definitions, each with its own tokens

`_result_parse_def` has `xdico_tokenize_string` clear the token buffer
before each status line, so a definition does not depend on those before
it: a reply with any number of definitions is read back exactly where each
of its lines stands for itself (`parsed_iff`), and whatever a server sends,
`dict_define` stays inside what it received exactly where as many
definitions came as were announced and each line has four tokens
(`dictDefine_safe_iff`).
-/

namespace Dico

namespace Cleared

/-! ## What is read back -/

section RoundTrip

variable {d : Definition} {ds : List Definition} {tb : DicoTokbuf}

/-- One definition of a reply. -/
theorem defLoop_cons {r : DefineResult} {rs : List DefineResult} :
    defLoop (ds.length + 1) tb (replyBase (d :: ds)) = .ok (r :: rs) ↔
      ∃ ts, lineTokens (d.line ++ 0 :: (d.text ++ 0 :: replyBase ds)) = .ok ts ∧
        ts[1]? = some r.word ∧ ts[2]? = some r.database ∧ ts[3]? = some r.descr ∧
        r.defn = d.text ∧ r.nlines = countLines d.text ∧
        defLoop ds.length tb (replyBase ds) = .ok rs := by
  have hline : strAt (d.line ++ 0 :: (d.text ++ 0 :: replyBase ds)) 0 = .ok d.line :=
    strAt_append [] (null_notMem_line d) _
  have hdrop : (d.line ++ 0 :: (d.text ++ 0 :: replyBase ds)).drop (d.line.length + 1) =
      d.text ++ 0 :: replyBase ds := (cString_append (null_notMem_line d) _).2
  have htext : strAt (d.text ++ 0 :: replyBase ds) 0 = .ok d.text :=
    strAt_append [] d.text_null _
  have hrest : (d.text ++ 0 :: replyBase ds).drop (d.text.length + 1) = replyBase ds :=
    (cString_append d.text_null _).2
  rw [replyBase_cons, defLoop_succ]
  constructor
  · rintro ⟨tb', ts, word, database, descr, line, defn, more, hrun, hts, hword, hdatabase, hdescr,
      hstr, hdefn, hmore, h⟩
    obtain rfl := Except.ok.inj (hline.symm.trans hstr)
    rw [hdrop] at hdefn hmore
    obtain rfl := Except.ok.inj (htext.symm.trans hdefn)
    rw [hrest] at hmore
    obtain ⟨rfl, rfl⟩ := List.cons.inj h
    exact ⟨ts, hts, hword, hdatabase, hdescr, rfl, rfl, defLoop_any tb hmore⟩
  · rintro ⟨ts, hts, hword, hdatabase, hdescr, hdefn, hlines, hmore⟩
    obtain ⟨tb', hrun, -⟩ := (xdico_words_iff tb).2 hts
    refine ⟨tb', ts, r.word, r.database, r.descr, d.line, d.text, rs, hrun, hts, hword, hdatabase,
      hdescr, hline, ?_, ?_, ?_⟩
    · rw [hdrop, htext]
    · rw [hdrop, hrest]
      exact defLoop_any tb' hmore
    · rw [← hlines, ← hdefn]

/-- **A reply is read back exactly where each of its lines is.** The word,
the database and the description of a definition, which the server writes
without quoting them, and its text are what the client has in the end, for
any number of definitions, if and only if the line of each stands for
itself. -/
theorem parsed_iff (ds : List Definition) :
    resultParseDef ds.length (replyBase ds) = .ok (ds.map Definition.result) ↔
      ∀ d ∈ ds, d.Faithful := by
  unfold resultParseDef
  induction ds with
  | nil => exact iff_of_true rfl (List.forall_mem_nil _)
  | cons d ds ih =>
    rw [List.length_cons, List.map_cons, defLoop_cons, List.forall_mem_cons, ← ih,
      ← lineRead_iff .begin d (d.text ++ 0 :: replyBase ds), lineRead_iff_tokens]
    constructor
    · rintro ⟨ts, hts, hword, hdatabase, hdescr, -, -, hmore⟩
      exact ⟨⟨ts, hts, hword, hdatabase, hdescr⟩, hmore⟩
    · rintro ⟨⟨ts, hts, hword, hdatabase, hdescr⟩, hmore⟩
      exact ⟨ts, hts, hword, hdatabase, hdescr, rfl, rfl, hmore⟩

end RoundTrip

/-! ## Every reply -/

/-- **`dict_define` is safe exactly where the definitions came.** Whatever
lines a server sends and wherever the connection breaks off, the client
reads only what it received and reports no more definitions than it
received if and only if the reply is no list of definitions, or as many
came as it announced and the line of each has four tokens. -/
theorem dictDefine_safe_iff (xcalloc : ℕ → Bool) (levdist : ℕ) (capav lines : List Bytes)
    (tail : Bytes) :
    ReplySafe (dictDefine xcalloc (replies lines tail capav levdist)) ↔
      DefinitionsTokenized xcalloc (replies lines tail capav levdist) :=
  replySafe_define xcalloc rfl

end Cleared

end Dico
