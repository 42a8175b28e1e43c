import PointsTo.Proofs.Yaml.Lexing

/-!
# Written texts are values

Each of the four forms that a text is written in is read behind a colon as a scalar with that text:
a plain one, one between quotes, or a literal block.
-/

namespace PointsTo.Yaml

open Lexer

theorem lineEnd_of_getLast? {cs : List Char} {c : Char} (h : cs.getLast? = some c)
    (hc : isAnyBreak c = false) : lineEnd cs = ['\n'] := by
  simp [lineEnd, h, hc]

theorem ne_mark_of_isPrintable {c : Char} (h : isPrintable c = true) : c ≠ '\uFEFF' := by
  rintro rfl
  exact absurd h (by decide)

variable (floor : Nat)

/-! ## Plain -/

theorem reads_plain {c : Char} {cs : List Char} (h : PlainText c cs) :
    Reads floor (c :: cs) .plain (String.ofList (c :: cs)) where
  printable := fun x hx => (h.printable x hx).1
  ne_nil := by simp
  starts := by
    rintro x ⟨⟩
    obtain ⟨hprint, hbreak⟩ := h.printable c List.mem_cons_self
    refine ⟨?_, isBreak_of_isAnyBreak hbreak, ?_, ne_mark_of_isPrintable hprint⟩
    · simp [isBlank_of_isPrintable hprint, h.first]
    · rintro rfl
      exact absurd h.indicator (by decide)
  token := by
    intro lx n tail c' cs' hn htail hfloor hbehind hcs
    obtain ⟨hprint, hbreak⟩ := h.printable c List.mem_cons_self
    obtain ⟨last, hlast⟩ : ∃ last, (c :: cs).getLast? = some last :=
      ⟨_, List.getLast?_eq_some_getLast (List.cons_ne_nil c cs)⟩
    have hend := lineEnd_of_getLast? hlast (h.printable last (List.mem_of_getLast? hlast)).2
    have hpos : 0 < lx.cur.col :=
      Nat.lt_of_lt_of_le (Nat.zero_lt_of_lt hn) (hfloor ▸ hbehind.col)
    have htext : c :: cs ++ '\n' :: (spaces n ++ tail) = c' :: cs' := by rw [← hcs, hend]; simp
    have hscan : scanPlain? lx.inFlow lx.floor lx.cur.rest lx.cur.col {} [] =
        some (c :: cs, true, tail) := by
      rw [hbehind.rest, ← htext, inFlow, hbehind.outerKeys, hfloor]
      exact scanPlain?_text h hpos hn htail
    obtain ⟨rfl, rfl⟩ := List.cons.inj htext
    refine ⟨tail, true, ?_, Or.inl ⟨rfl, rfl⟩⟩
    refine (token?_plain hbehind.outerKeys h.indicator ?_ (isBreak_of_isAnyBreak hbreak)
      (atDocumentEdge_of_pos hpos _) fun hmark => endsWord_append (h.mark hmark) _).trans
        (plain?_eq (saveKey?_of_not_allowed hbehind.keyAllowed) hscan)
    simp [isBlank_of_isPrintable hprint, h.first]

/-- A text that needs no marks around it. -/
def IsWord (s : String) : Prop :=
  s.toList ≠ [] ∧ s.toList.all isWordChar = true

instance (s : String) : Decidable (IsWord s) :=
  inferInstanceAs (Decidable (_ ∧ _))

theorem isWord_toString (n : Nat) : IsWord (toString n) := by
  rw [IsWord, Nat.toString_eq_ofList_toDigits, String.toList_ofList]
  refine ⟨Nat.toDigits_ne_nil, List.all_eq_true.2 fun c hc => ?_⟩
  rw [isWordChar, isDigit_of_mem_toDigits hc]
  rfl

theorem reads_word {s : String} (h : IsWord s) : Reads floor s.toList .plain s := by
  obtain ⟨c, cs, hcs⟩ := List.exists_cons_of_ne_nil h.1
  have hreads : Reads floor (c :: cs) .plain (String.ofList (c :: cs)) :=
    reads_plain floor (plainText_of_word (hcs ▸ List.all_eq_true.1 h.2))
  rwa [← hcs, String.ofList_toList] at hreads

/-! ## Between quotes -/

/-- What holds of both kinds of quotes: `scan` reads what comes after the opening one. -/
theorem reads_quoted {mark : Char} {body text : List Char}
    (scan : List Char → Nat → Option (List Char × List Char)) (hmark : mark = '\'' ∨ mark = '"')
    (hbody : ∀ c ∈ body, isPrintable c = true)
    (htoken : ∀ (lx : Lexer) (cs : List Char),
      lx.token? mark cs = lx.quoted? (scan cs (lx.cur.col + 1)))
    (hscan : ∀ (col : Nat) (after : List Char), 0 < col → after.head? ≠ some '\'' →
      scan (body ++ mark :: after) col = some (text, after)) :
    Reads floor (mark :: body ++ [mark]) .quoted (String.ofList text) where
  printable := by
    have hprint : isPrintable mark = true := by rcases hmark with rfl | rfl <;> decide
    simpa [or_imp, forall_and, hprint] using hbody
  ne_nil := by simp
  starts := by
    rintro x ⟨⟩
    rcases hmark with rfl | rfl <;> decide
  token := by
    intro lx n tail c cs hn htail hfloor hbehind hcs
    have hend : lineEnd (mark :: body ++ [mark]) = ['\n'] :=
      lineEnd_of_getLast? List.getLast?_concat (by rcases hmark with rfl | rfl <;> decide)
    rw [hend] at hcs ⊢
    have htext : mark :: (body ++ mark :: '\n' :: (spaces n ++ tail)) = c :: cs := by
      rw [← hcs]
      simp
    obtain ⟨rfl, rfl⟩ := List.cons.inj htext
    refine ⟨'\n' :: (spaces n ++ tail), false, ?_, Or.inr ⟨rfl, rfl, rfl⟩⟩
    rw [htoken, quoted?, saveKey?_of_not_allowed hbehind.keyAllowed,
      hscan _ _ (Nat.succ_pos _) (by simp)]
    rfl

theorem reads_single {cs : List Char} (h : singleAllowed cs = true) (hline : '\n' ∉ cs)
    {indent : Nat} (hindent : 0 < indent) :
    Reads floor ('\'' :: singleBody indent false cs ++ ['\'']) .quoted (String.ofList cs) := by
  have hprint : ∀ c ∈ cs, isPrintable c = true := by
    simp only [singleAllowed, needsEscape, Bool.and_eq_true, Bool.not_eq_true',
      Bool.or_eq_false_iff, Bool.not_eq_false'] at h
    exact List.all_eq_true.1 h.1.1
  refine reads_quoted floor (fun cs col => scanSingle? cs col {} []) (Or.inl rfl)
    (isPrintable_singleBody hprint false) (fun lx cs => ?_) fun col after hcol hafter =>
      scanSingle?_text h hline hindent hcol hafter
  simp [token?, atMarker]

theorem reads_double (cs : List Char) :
    Reads floor ('"' :: cs.flatMap doubleChar ++ ['"']) .quoted (String.ofList cs) := by
  refine reads_quoted floor (fun cs col => scanDouble? cs.length cs col {} []) (Or.inr rfl)
    (fun c hc => ?_) (fun lx cs => ?_) fun col after hcol hafter => scanDouble?_text cs after hcol
  · obtain ⟨d, -, hd⟩ := List.mem_flatMap.1 hc
    exact isPrintable_of_escaped (escaped_doubleChar d) c hd
  · simp [token?, atMarker]

/-! ## Literal blocks -/

theorem getLast?_literalBody (indent : Nat) (start : Bool) (cs : List Char) :
    (literalBody indent start cs).getLast? = cs.getLast? := by
  induction cs generalizing start with
  | nil => rfl
  | cons c cs ih =>
    rw [literalBody, List.getLast?_cons]
    split
    · rw [List.getLast?_cons, ih]
    · rw [List.getLast?_append, List.getLast?_cons, ih]
      simp

theorem isPrintable_literalMarks (cs : List Char) :
    ∀ c ∈ literalMarks cs, isPrintable c = true := by
  have hmarks : ∀ c ∈ literalMarks cs, c = '2' ∨ c = '-' ∨ c = '+' := by
    intro c hc
    rcases List.mem_append.1 hc with hc | hc
    · split at hc
      · exact Or.inl (List.mem_singleton.1 hc)
      · cases hc
    · split at hc
      · exact Or.inr (Or.inl (List.mem_singleton.1 hc))
      · split at hc
        · exact Or.inr (Or.inl (List.mem_singleton.1 hc))
        · split at hc
          · exact Or.inr (Or.inr (List.mem_singleton.1 hc))
          · cases hc
  intro c hc
  rcases hmarks c hc with rfl | rfl | rfl <;> decide

theorem forgetKey?_of_none {lx : Lexer} (h : lx.key = none) : lx.forgetKey? = some lx := by
  obtain ⟨cur, tokens, indents, key, outerKeys, allowed⟩ := lx
  cases h
  rfl

/-- The first line of a block is its marks, so it ends where the block ends. -/
theorem reads_literal (hfloor : 0 < floor) {cs : List Char} (hne : cs ≠ [])
    (h : literalAllowed cs = true) :
    Reads floor ('|' :: literalMarks cs ++ '\n' :: literalBody (floor + 1) true cs) .literal
      (String.ofList cs) := by
  have hprint : ∀ c ∈ cs, isPrintable c = true := by
    simp only [literalAllowed, needsEscape, Bool.and_eq_true, Bool.not_eq_true',
      Bool.or_eq_false_iff, Bool.not_eq_false'] at h
    exact List.all_eq_true.1 h.1.1
  refine ⟨?_, by simp, ?_, ?_⟩
  · have hmarks := isPrintable_literalMarks cs
    have hbody := isPrintable_literalBody (floor + 1) hprint true
    have hfirst : isPrintable '|' = true ∧ isPrintable '\n' = true := by decide
    simpa [or_imp, forall_and, hfirst] using ⟨hmarks, hbody⟩
  · rintro x ⟨⟩
    decide
  · intro lx n tail c cs' hn htail hfloor' hbehind hcs
    have hend : lineEnd ('|' :: literalMarks cs ++ '\n' :: literalBody (floor + 1) true cs) =
        lineEnd cs := by
      obtain ⟨last, hlast⟩ : ∃ last, cs.getLast? = some last :=
        ⟨_, List.getLast?_eq_some_getLast hne⟩
      simp [lineEnd, List.getLast?_cons, getLast?_literalBody, hlast]
    have htext : '|' :: (literalMarks cs ++ '\n' ::
        (literalBody (floor + 1) true cs ++ lineEnd cs ++ (spaces n ++ tail))) = c :: cs' := by
      rw [← hcs, hend]
      simp
    obtain ⟨rfl, rfl⟩ := List.cons.inj htext
    refine ⟨tail, true, ?_, Or.inl ⟨rfl, rfl⟩⟩
    have htoken : lx.token? '|' (literalMarks cs ++ '\n' ::
        (literalBody (floor + 1) true cs ++ lineEnd cs ++ (spaces n ++ tail))) =
          lx.block? .literal (literalMarks cs ++ '\n' ::
            (literalBody (floor + 1) true cs ++ lineEnd cs ++ (spaces n ++ tail))) := by
      simp [token?, atMarker, inFlow, hbehind.outerKeys]
    have hscan := scanBlock?_text hne hprint hfloor hn htail
    rw [htoken, block?, forgetKey?_of_none hbehind.key]
    simp only [Option.bind_eq_bind, Option.bind_some, hfloor', beq_self_eq_true, hscan]
    rfl

/-! ## Any text -/

/-- How a text in that form is taken. -/
def Form.style : Form → Style
  | .plain => .plain
  | .single | .double => .quoted
  | .literal => .literal

/-- When a text is written in a form. -/
inductive WrittenAs (s : String) : Form → Prop where
  | plain (hother : readsAsOther s = false) (h : plainAllowed s.toList = true) : WrittenAs s .plain
  | single (hline : '\n' ∉ s.toList) (h : singleAllowed s.toList = true) : WrittenAs s .single
  | double : WrittenAs s .double
  | literal (hline : '\n' ∈ s.toList) (h : literalAllowed s.toList = true) : WrittenAs s .literal

theorem writtenAs_form (s : String) : WrittenAs s (form s) := by
  unfold form
  dsimp only
  by_cases hline : '\n' ∈ s.toList
  · rw [if_pos (List.contains_iff_mem.2 hline)]
    split
    · exact .literal hline ‹_›
    · exact .double
  · rw [if_neg (mt List.contains_iff_mem.1 hline)]
    split
    · rename_i h
      rw [Bool.and_eq_true, Bool.not_eq_true'] at h
      exact .plain h.1 h.2
    · split
      · exact .single hline ‹_›
      · exact .double

/-- **Every text is read back** from the form it is written in. -/
theorem reads_writeText (depth : Nat) (s : String) :
    Reads (2 * depth + 1) (writeText depth s).toList (form s).style s := by
  have hs : String.ofList s.toList = s := String.ofList_toList
  have hform := writtenAs_form s
  unfold writeText
  rw [String.toList_ofList]
  generalize form s = f at hform ⊢
  cases hform with
  | plain hother h =>
    obtain ⟨c, cs, hcs⟩ : ∃ c cs, s.toList = c :: cs := by
      refine List.exists_cons_of_ne_nil fun hnil => ?_
      rw [String.toList_eq_nil_iff.1 hnil] at hother
      cases hother
    rw [hcs] at h hs
    have hreads : Reads (2 * depth + 1) (c :: cs) .plain (String.ofList (c :: cs)) :=
      reads_plain _ (plainText_of_plainAllowed h)
    rw [hs] at hreads
    dsimp only
    rwa [hcs]
  | single hline h =>
    have hreads := reads_single (2 * depth + 1) h hline (Nat.succ_pos (2 * depth + 1))
    rwa [hs] at hreads
  | double =>
    have hreads := reads_double (2 * depth + 1) s.toList
    rwa [hs] at hreads
  | literal hline h =>
    have hreads := reads_literal (2 * depth + 1) (Nat.succ_pos _) (List.ne_nil_of_mem hline) h
    rwa [hs] at hreads

end PointsTo.Yaml
