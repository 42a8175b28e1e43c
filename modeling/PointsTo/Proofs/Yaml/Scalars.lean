import Mathlib.Data.List.Basic
import PointsTo.Proofs.Yaml.Digits

/-!
# Scalars within lines read back

A text that is written plain, between single quotes or between double quotes is read back as the
same text. Each scanner is followed along the text with what it has gathered: `acc`, the words so
far, last character first, and the blanks or breaks since. Together these are always the part of the
text that has been read.
-/

namespace PointsTo.Yaml

/-! ## Characters that are written -/

theorem isBreak_of_isAnyBreak {c : Char} (h : isAnyBreak c = false) : isBreak c = false := by
  simp only [isAnyBreak, Bool.or_eq_false_iff] at h
  exact h.1.1

/-- The only breaks that stand for themselves are those that every reader takes for breaks. -/
theorem isAnyBreak_of_isPrintable {c : Char} (h : isPrintable c = true) :
    isAnyBreak c = isBreak c := by
  have hr : (c == '\r') = false := by
    rw [beq_eq_false_iff_ne]
    rintro rfl
    exact absurd h (by decide)
  have hn : (c == '\u0085') = false := by
    rw [beq_eq_false_iff_ne]
    rintro rfl
    exact absurd h (by decide)
  simp [isAnyBreak, hr, hn]

/-- The only blank that stands for itself is the space. -/
theorem isBlank_of_isPrintable {c : Char} (h : isPrintable c = true) : isBlank c = (c == ' ') := by
  have ht : (c == '\t') = false := by
    rw [beq_eq_false_iff_ne]
    rintro rfl
    exact absurd h (by decide)
  simp [isBlank, ht]

theorem atDocumentEdge_of_pos {col : Nat} (h : 0 < col) (cs : List Char) :
    atDocumentEdge col cs = false := by
  have hcol : (col == 0) = false := beq_eq_false_iff_ne.2 (Nat.ne_of_gt h)
  simp [atDocumentEdge, atMarker, hcol]

/-! ## Plain -/

theorem scanPlain?_space (floor col : Nat) (cs blanks acc : List Char) :
    scanPlain? false floor (' ' :: cs) col { blanks } acc =
      scanPlain? false floor cs (col + 1) { blanks := blanks ++ [' '] } acc := by
  rw [scanPlain?]
  rfl

/-- A character of a word brings in the blanks before it. -/
theorem scanPlain?_word {c : Char} {cs blanks : List Char} {col : Nat} (floor : Nat)
    (acc : List Char) (hbreak : isBreak c = false) (hblank : isBlank c = false)
    (hedge : atDocumentEdge col (c :: cs) = false) (hcomment : c = '#' → blanks = [])
    (hcolon : c = ':' → endsWord cs = false) :
    scanPlain? false floor (c :: cs) col { blanks } acc =
      scanPlain? false floor cs (col + 1) {} (c :: (blanks.reverse ++ acc)) := by
  have hcomment' : (c == '#' && !({ blanks } : Gap).isEmpty) = false := by
    rw [Bool.and_eq_false_imp, beq_iff_eq]
    intro hc
    rw [hcomment hc]
    rfl
  have hcolon' : (c == ':' && endsWord cs) = false := by
    rw [Bool.and_eq_false_imp, beq_iff_eq]
    exact hcolon
  rw [scanPlain?]
  simp [hbreak, hblank, hedge, hcomment', hcolon', Gap.broke, Gap.fold]

theorem endsWord_append {cs : List Char} (h : endsAnyWord cs = false) (after : List Char) :
    endsWord (cs ++ after) = false := by
  cases cs with
  | nil => cases h
  | cons c cs =>
    simp only [endsAnyWord, Bool.or_eq_false_iff] at h
    simp [endsWord, h.1, isBreak_of_isAnyBreak h.2]

/-- The rest of a plain text after its first character. -/
theorem scanPlain?_append (floor : Nat) (after cs : List Char) (col : Nat)
    (blanks acc : List Char) (hcol : 0 < col) (hblanks : ∀ c ∈ blanks, c = ' ')
    (hcs : ∀ c ∈ cs, isPrintable c = true ∧ isAnyBreak c = false)
    (hinner : innerIndicator (!blanks.isEmpty) cs = false) :
    ∃ blanks' acc', scanPlain? false floor (cs ++ after) col { blanks } acc =
        scanPlain? false floor after (col + cs.length) { blanks := blanks' } acc' ∧
      (∀ c ∈ blanks', c = ' ') ∧ acc'.reverse ++ blanks' = acc.reverse ++ blanks ++ cs := by
  induction cs generalizing col blanks acc with
  | nil => exact ⟨blanks, acc, by simp, hblanks, by simp⟩
  | cons c cs ih =>
    obtain ⟨⟨hprint, hbreak⟩, hrest⟩ := List.forall_mem_cons.1 hcs
    simp only [innerIndicator, Bool.or_eq_false_iff] at hinner
    obtain ⟨⟨hcolon, hcomment⟩, hinner⟩ := hinner
    have hblank := isBlank_of_isPrintable hprint
    rw [List.cons_append, List.length_cons, ← Nat.add_assoc, Nat.add_right_comm]
    by_cases hc : c = ' '
    · subst hc
      rw [scanPlain?_space]
      have hsome : (blanks ++ [' ']).isEmpty = false := by cases blanks <;> rfl
      obtain ⟨blanks', acc', hscan, hblanks', hread⟩ := ih (col + 1) (blanks ++ [' ']) acc
        (by omega) (by simpa [or_imp, forall_and] using hblanks) hrest
        (by rw [hsome]; exact hinner)
      exact ⟨blanks', acc', hscan, hblanks', by simpa using hread⟩
    · have hword : isBlank c = false := by simp [hblank, hc]
      rw [scanPlain?_word floor acc (isBreak_of_isAnyBreak hbreak) hword
        (atDocumentEdge_of_pos hcol _) (by simpa using hcomment) fun hc => ?_]
      · obtain ⟨blanks', acc', hscan, hblanks', hread⟩ :=
          ih (col + 1) [] (c :: (blanks.reverse ++ acc)) (by omega) (by simp) hrest
            (by simpa [hword, hbreak] using hinner)
        exact ⟨blanks', acc', hscan, hblanks', by simpa using hread⟩
      · rw [Bool.and_eq_false_imp, beq_iff_eq] at hcolon
        exact endsWord_append (hcolon hc) after

/-- What follows the indentation of a line: a token, or the end of the text. -/
def StartsToken (cs : List Char) : Prop :=
  ∀ c, cs.head? = some c → isBlank c = false ∧ isBreak c = false ∧ c ≠ '#' ∧ c ≠ '\uFEFF'

theorem StartsToken.append {cs : List Char} (h : StartsToken cs) (hne : cs ≠ [])
    (after : List Char) : StartsToken (cs ++ after) := by
  obtain ⟨c, cs, rfl⟩ := List.exists_cons_of_ne_nil hne
  exact h

theorem scanPlain?_spaces {floor : Nat} {gap : Gap} (hgap : gap.broke = true) (n : Nat)
    (cs : List Char) (col : Nat) (acc : List Char) :
    scanPlain? false floor (spaces n ++ cs) col gap acc =
      scanPlain? false floor cs (col + n) gap acc := by
  induction n generalizing col with
  | zero => rfl
  | succ n ih =>
    have hstep : scanPlain? false floor (' ' :: (spaces n ++ cs)) col gap acc =
        scanPlain? false floor (spaces n ++ cs) (col + 1) (gap.addBlank ' ') acc := by
      rw [scanPlain?]
      rfl
    have hblank : gap.addBlank ' ' = gap := if_pos hgap
    rw [spaces, List.replicate_succ, List.cons_append, ← spaces, hstep, hblank, ih]
    congr 1
    omega

/-- A plain scalar ends where the next line is indented less. -/
theorem scanPlain?_lineEnd {floor n : Nat} {cs : List Char} (hn : n < floor)
    (hcs : StartsToken cs) (col : Nat) (acc : List Char) :
    scanPlain? false floor ('\n' :: (spaces n ++ cs)) col {} acc =
      some (acc.reverse, true, cs) := by
  have hbreak : scanPlain? false floor ('\n' :: (spaces n ++ cs)) col {} acc =
      scanPlain? false floor (spaces n ++ cs) 0 { first := some ['\n'] } acc := by
    rw [scanPlain?]
    rfl
  rw [hbreak, scanPlain?_spaces rfl, Nat.zero_add]
  cases cs with
  | nil => rfl
  | cons c cs =>
    obtain ⟨hblank, hbreak, -⟩ := hcs c rfl
    rw [scanPlain?]
    simp [hblank, hbreak, hn, Gap.broke]

/-- What makes a text fit to be written plain. -/
structure PlainText (c : Char) (cs : List Char) : Prop where
  indicator : isIndicator c = false
  mark : c = '?' ∨ c = ':' ∨ c = '-' → endsAnyWord cs = false
  inner : innerIndicator false cs = false
  printable : ∀ x ∈ c :: cs, isPrintable x = true ∧ isAnyBreak x = false
  first : c ≠ ' '
  last : (c :: cs).getLast? ≠ some ' '

theorem plainText_of_plainAllowed {c : Char} {cs : List Char} (h : plainAllowed (c :: cs) = true) :
    PlainText c cs := by
  simp only [plainAllowed, Bool.and_eq_true, Bool.not_eq_true', List.drop_one, List.tail_cons] at h
  obtain ⟨⟨⟨⟨hstart, hinner⟩, hescape⟩, hloose⟩, hbreaks⟩ := h
  simp only [startsIndicator, Bool.or_eq_false_iff] at hstart
  simp only [needsEscape, Bool.or_eq_false_iff, Bool.not_eq_false'] at hescape
  simp only [hasLooseEnd, Bool.or_eq_false_iff, List.head?_cons, Option.any_some] at hloose
  refine ⟨hstart.2.1, fun hmark => ?_, hinner, fun x hx => ⟨?_, ?_⟩, ?_, ?_⟩
  · have hends := hstart.2.2
    rw [Bool.and_eq_false_imp] at hends
    exact hends (by simpa [or_assoc] using hmark)
  · exact List.all_eq_true.1 hescape.1 x hx
  · simpa using List.any_eq_false.1 hbreaks x hx
  · simpa using hloose.1.1
  · intro hlast
    have h := hloose.2
    rw [hlast] at h
    cases h

/-- **A text that may be written plain is read back.** -/
theorem scanPlain?_text {c : Char} {cs : List Char} (h : PlainText c cs) {floor n col : Nat}
    {tail : List Char} (hcol : 0 < col) (hn : n < floor) (htail : StartsToken tail) :
    scanPlain? false floor (c :: cs ++ '\n' :: (spaces n ++ tail)) col {} [] =
      some (c :: cs, true, tail) := by
  obtain ⟨⟨hprint, hbreak⟩, hrest⟩ := List.forall_mem_cons.1 h.printable
  have hblank : isBlank c = false := by simp [isBlank_of_isPrintable hprint, h.first]
  rw [List.cons_append, scanPlain?_word floor [] (isBreak_of_isAnyBreak hbreak) hblank
    (atDocumentEdge_of_pos hcol _) (fun _ => rfl) fun hc =>
      endsWord_append (h.mark (Or.inr (Or.inl hc))) _]
  obtain ⟨blanks, acc, hscan, hblanks, hread⟩ :=
    scanPlain?_append floor ('\n' :: (spaces n ++ tail)) cs (col + 1) [] [c] (by omega) (by simp)
      hrest h.inner
  have hread' : acc.reverse ++ blanks = c :: cs := by simpa using hread
  -- A blank that no word follows would be the last character.
  have hnone : blanks = [] := by
    refine List.eq_nil_iff_forall_not_mem.2 fun b hb => h.last ?_
    have hne : blanks ≠ [] := List.ne_nil_of_mem hb
    rw [← hread', List.getLast?_append_of_ne_nil _ hne, List.getLast?_eq_some_getLast hne,
      hblanks _ (List.getLast_mem hne)]
  subst hnone
  refine hscan.trans ?_
  rw [scanPlain?_lineEnd hn htail, ← hread', List.append_nil]

/-! ## Words -/

/-- The characters of words that need no marks around them: keys, names and whole numbers. -/
def isWordChar (c : Char) : Bool :=
  isDigit c || ('a' ≤ c && c ≤ 'z') || c == '_'

theorem beq_of_isWordChar {c x : Char} (hc : isWordChar c = true) (hx : isWordChar x = false) :
    (c == x) = false := by
  rw [beq_eq_false_iff_ne]
  rintro rfl
  rw [hc] at hx
  cases hx

theorem isPrintable_of_isWordChar {c : Char} (hc : isWordChar c = true) :
    isPrintable c = true := by
  have hrange : 0x30 ≤ c.toNat ∧ c.toNat ≤ 0x7A := by
    simp only [isWordChar, isDigit, Bool.or_eq_true, Bool.and_eq_true, decide_eq_true_eq,
      beq_iff_eq, Char.le_def, UInt32.le_iff_toNat_le] at hc
    rcases hc with (⟨hzero, hnine⟩ | ⟨ha, hz⟩) | rfl
    · have hzero' : 0x30 ≤ c.toNat := hzero
      have hnine' : c.toNat ≤ 0x39 := hnine
      omega
    · have ha' : 0x61 ≤ c.toNat := ha
      have hz' : c.toNat ≤ 0x7A := hz
      omega
    · decide
  simp only [isPrintable, Bool.or_eq_true, Bool.and_eq_true, beq_iff_eq, decide_eq_true_eq]
  omega

theorem isBreak_of_isWordChar {c : Char} (hc : isWordChar c = true) : isBreak c = false := by
  simp (disch := decide) [isBreak, beq_of_isWordChar hc]

theorem isBlank_of_isWordChar {c : Char} (hc : isWordChar c = true) : isBlank c = false := by
  simp (disch := decide) [isBlank, beq_of_isWordChar hc]

theorem isIndicator_of_isWordChar {c : Char} (hc : isWordChar c = true) :
    isIndicator c = false := by
  simp (disch := decide) only [isIndicator, isFlowIndicator, List.contains_cons, List.contains_nil,
    beq_of_isWordChar hc, Bool.or_self]

theorem atDocumentEdge_of_isWordChar {c : Char} (hc : isWordChar c = true) (col : Nat)
    (cs : List Char) : atDocumentEdge col (c :: cs) = false := by
  simp (disch := decide) [atDocumentEdge, atMarker, beq_of_isWordChar hc]

/-- A word may be written plain. -/
theorem plainText_of_word {c : Char} {cs : List Char}
    (h : ∀ x ∈ c :: cs, isWordChar x = true) : PlainText c cs := by
  have hnot {x y : Char} (hx : x ∈ c :: cs) (hy : isWordChar y = false) : x ≠ y :=
    beq_eq_false_iff_ne.1 (beq_of_isWordChar (h x hx) hy)
  have hbreak {x : Char} (hx : x ∈ c :: cs) : isAnyBreak x = false := by
    rw [isAnyBreak_of_isPrintable (isPrintable_of_isWordChar (h x hx))]
    exact isBreak_of_isWordChar (h x hx)
  have hinner (ds : List Char) (hds : ∀ x ∈ ds, isWordChar x = true) (blank : Bool) :
      innerIndicator blank ds = false := by
    induction ds generalizing blank with
    | nil => rfl
    | cons d ds ih =>
      obtain ⟨hd, hrest⟩ := List.forall_mem_cons.1 hds
      rw [innerIndicator, ih hrest]
      simp (disch := decide) [beq_of_isWordChar hd]
  have hfirst : c ∈ c :: cs := List.mem_cons_self
  refine ⟨isIndicator_of_isWordChar (h c hfirst), ?_,
    hinner cs (fun x hx => h x (.tail c hx)) false,
    fun x hx => ⟨isPrintable_of_isWordChar (h x hx), hbreak hx⟩, hnot hfirst (by decide), ?_⟩
  · rintro (hc | hc | hc) <;> exact absurd hc (hnot hfirst (by decide))
  · exact fun hlast => hnot (List.mem_of_getLast? hlast) (by decide) rfl

/-! ## Keys -/

/-- Keys are read up to their colon. -/
theorem scanPlain?_key (floor : Nat) {key : List Char} (hkey : ∀ c ∈ key, isWordChar c = true)
    {after : List Char} (hafter : endsWord after = true) (col : Nat) (acc : List Char) :
    scanPlain? false floor (key ++ ':' :: after) col {} acc =
      some (acc.reverse ++ key, false, ':' :: after) := by
  induction key generalizing col acc with
  | nil =>
    rw [List.nil_append, scanPlain?]
    simp [hafter, isBreak, isBlank, Gap.broke, Gap.isEmpty, atDocumentEdge, atMarker]
  | cons c key ih =>
    obtain ⟨hc, hrest⟩ := List.forall_mem_cons.1 hkey
    rw [List.cons_append, scanPlain?_word floor acc (isBreak_of_isWordChar hc)
      (isBlank_of_isWordChar hc) (atDocumentEdge_of_isWordChar hc _ _) (fun _ => rfl), ih hrest]
    · simp
    · rintro rfl
      exact absurd hc (by decide)

/-- Keys are short enough to be found when their colon comes. -/
def IsKey (key : List Char) : Prop :=
  key ≠ [] ∧ key.all isWordChar = true ∧ 4 * key.length ≤ 1024

instance (key : List Char) : Decidable (IsKey key) :=
  inferInstanceAs (Decidable (_ ∧ _))

theorem startsToken_of_isKey {key after : List Char} (h : IsKey key) :
    StartsToken (key ++ after) := by
  obtain ⟨hne, hword, -⟩ := h
  obtain ⟨c, cs, rfl⟩ := List.exists_cons_of_ne_nil hne
  have hc : isWordChar c = true := List.all_eq_true.1 hword c List.mem_cons_self
  rintro x ⟨⟩
  refine ⟨isBlank_of_isWordChar hc, isBreak_of_isWordChar hc, ?_, ?_⟩ <;>
    · rintro rfl
      exact absurd hc (by decide)

theorem isPrintable_of_isKey {key : List Char} (h : IsKey key) :
    ∀ c ∈ key, isPrintable c = true :=
  fun c hc => isPrintable_of_isWordChar (List.all_eq_true.1 h.2.1 c hc)

/-! ## Single quotes -/

theorem hasNeighbours_cons (r : Char → Char → Bool) (c : Char) (cs : List Char) :
    hasNeighbours r (c :: cs) = (cs.head?.any (r c) || hasNeighbours r cs) := by
  cases cs <;> rfl

/-- The gap of a text that is read so far: blanks, or breaks that are kept. -/
inductive KeptGap : Bool → Gap → Prop where
  | blanks (bs : List Char) : KeptGap false { blanks := bs }
  | breaks (b : Char) (more : List Char) (hb : b ≠ '\n') : KeptGap true { first := some [b], more }

theorem KeptGap.broke {broke : Bool} {gap : Gap} (h : KeptGap broke gap) : gap.broke = broke := by
  cases h <;> rfl

theorem KeptGap.blanks_eq_nil {gap : Gap} (h : KeptGap true gap) : gap.blanks = [] := by
  cases h
  rfl

theorem KeptGap.addBreak {broke : Bool} {gap : Gap} {c : Char} (h : KeptGap broke gap)
    (hc : c ≠ '\n') (hblanks : gap.blanks = []) :
    KeptGap true (gap.addBreak c) ∧ (gap.addBreak c).fold = gap.fold ++ [c] := by
  cases h with
  | blanks bs =>
    subst hblanks
    refine ⟨.breaks c [] hc, ?_⟩
    simp [Gap.addBreak, Gap.fold, hc]
  | breaks b more hb =>
    refine ⟨.breaks b (more ++ [c]) hb, ?_⟩
    simp [Gap.addBreak, Gap.fold, hb]

theorem KeptGap.addBlank {gap : Gap} (h : KeptGap false gap) (c : Char) :
    KeptGap false (gap.addBlank c) ∧ (gap.addBlank c).fold = gap.fold ++ [c] := by
  cases h with
  | blanks bs => exact ⟨.blanks (bs ++ [c]), rfl⟩

section steps

variable (cs : List Char) (col : Nat) (gap : Gap) (acc : List Char)

theorem scanSingle?_break {c : Char} (hc : isBreak c = true) :
    scanSingle? (c :: cs) col gap acc = scanSingle? cs 0 (gap.addBreak c) acc := by
  rw [scanSingle?.eq_def]
  simp [hc]

theorem scanSingle?_space :
    scanSingle? (' ' :: cs) col gap acc = scanSingle? cs (col + 1) (gap.addBlank ' ') acc := by
  rw [scanSingle?.eq_def]
  simp [isBreak, isBlank]

variable {col}

theorem scanSingle?_char {c : Char} (hcol : 0 < col) (hbreak : isBreak c = false)
    (hblank : isBlank c = false) (hquote : c ≠ '\'') :
    scanSingle? (c :: cs) col gap acc =
      scanSingle? cs (col + 1) {} (c :: (gap.fold.reverse ++ acc)) := by
  rw [scanSingle?.eq_def]
  simp [hbreak, hblank, hquote, atDocumentEdge_of_pos hcol]

theorem scanSingle?_quote (hcol : 0 < col) :
    scanSingle? ('\'' :: '\'' :: cs) col gap acc =
      scanSingle? cs (col + 2) {} ('\'' :: (gap.fold.reverse ++ acc)) := by
  rw [scanSingle?.eq_def]
  simp [isBreak, isBlank, atDocumentEdge_of_pos hcol]

theorem scanSingle?_end (hcol : 0 < col) (hcs : cs.head? ≠ some '\'') :
    scanSingle? ('\'' :: cs) col gap acc = some ((gap.fold.reverse ++ acc).reverse, cs) := by
  rw [scanSingle?.eq_def]
  cases cs with
  | nil => simp [isBreak, isBlank, atDocumentEdge_of_pos hcol]
  | cons d ds =>
    have hd : d ≠ '\'' := fun h => hcs (by rw [h]; rfl)
    simp [isBreak, isBlank, atDocumentEdge_of_pos hcol, hd]

end steps

theorem scanSingle?_spaces {gap : Gap} (hgap : gap.broke = true) (n : Nat) (cs : List Char)
    (col : Nat) (acc : List Char) :
    scanSingle? (spaces n ++ cs) col gap acc = scanSingle? cs (col + n) gap acc := by
  induction n generalizing col with
  | zero => rfl
  | succ n ih =>
    have hblank : gap.addBlank ' ' = gap := if_pos hgap
    rw [spaces, List.replicate_succ, List.cons_append, ← spaces, scanSingle?_space, hblank, ih]
    congr 1
    omega

/-- The indentation of a line that a break starts brings nothing but a column. -/
theorem scanSingle?_lead {indent : Nat} (hindent : 0 < indent) {broke : Bool} {gap : Gap}
    (hgap : gap.broke = broke) {col : Nat} (hcol : broke = false → 0 < col) (cs acc : List Char) :
    ∃ col', 0 < col' ∧
      scanSingle? ((if broke then spaces indent else []) ++ cs) col gap acc =
        scanSingle? cs col' gap acc := by
  cases broke with
  | false => exact ⟨col, hcol rfl, rfl⟩
  | true => exact ⟨col + indent, by omega, scanSingle?_spaces hgap indent cs col acc⟩

/-- A text between single quotes is read back, from any character on. -/
theorem scanSingle?_body {indent : Nat} (hindent : 0 < indent) {after : List Char}
    (hafter : after.head? ≠ some '\'') (cs : List Char) {broke : Bool} {gap : Gap}
    (hgap : KeptGap broke gap) {col : Nat} (hcol : broke = false → 0 < col) (acc : List Char)
    (hcs : ∀ c ∈ cs, isPrintable c = true ∧ c ≠ '\n')
    (hbefore : hasNeighbours (fun a b => a == ' ' && isAnyBreak b) cs = false)
    (hblanks : gap.blanks ≠ [] → cs.head?.any isAnyBreak = false)
    (hbehind : hasNeighbours (fun a b => isAnyBreak a && b == ' ') cs = false)
    (hspace : broke = true → cs.head? ≠ some ' ') :
    scanSingle? (singleBody indent broke cs ++ '\'' :: after) col gap acc =
      some (acc.reverse ++ gap.fold ++ cs, after) := by
  induction cs generalizing broke gap col acc with
  | nil =>
    obtain ⟨col', hcol', hscan⟩ := scanSingle?_lead hindent hgap.broke hcol ('\'' :: after) acc
    rw [singleBody, hscan, scanSingle?_end after gap acc hcol' hafter]
    simp
  | cons c cs ih =>
    obtain ⟨⟨hprint, hne⟩, hrest⟩ := List.forall_mem_cons.1 hcs
    rw [hasNeighbours_cons, Bool.or_eq_false_iff] at hbefore hbehind
    have hany := isAnyBreak_of_isPrintable hprint
    rw [singleBody]
    cases hb : isAnyBreak c with
    | true =>
      have hnone : gap.blanks = [] := by
        by_contra hsome
        simpa [hb] using hblanks hsome
      obtain ⟨hgap', hfold⟩ := hgap.addBreak hne hnone
      have hnext : cs.head? ≠ some ' ' := by
        intro hhead
        simpa [hhead, hb] using hbehind.1
      rw [if_pos rfl, List.cons_append, scanSingle?_break _ _ _ _ (hany ▸ hb),
        ih hgap' (by simp) acc hrest hbefore.2 (absurd hgap'.blanks_eq_nil) hbehind.2
          (fun _ => hnext), hfold]
      simp
    | false =>
      rw [if_neg (by simp), List.append_assoc, List.append_assoc]
      obtain ⟨col', hcol', hscan⟩ := scanSingle?_lead hindent hgap.broke hcol
        ((if c == '\'' then ['\'', '\''] else [c]) ++
          (singleBody indent false cs ++ '\'' :: after)) acc
      rw [hscan]
      by_cases hspace' : c = ' '
      · subst hspace'
        have hwithin : broke = false := by
          by_contra hb
          exact hspace (by simpa using hb) rfl
        subst hwithin
        obtain ⟨hgap', hfold⟩ := hgap.addBlank ' '
        rw [if_neg (by decide), List.singleton_append, scanSingle?_space,
          ih hgap' (fun _ => by omega) acc hrest hbefore.2 (fun _ => ?_) hbehind.2 (by simp),
          hfold]
        · simp
        · simpa using hbefore.1
      · have hblank : isBlank c = false := by simp [isBlank_of_isPrintable hprint, hspace']
        have hbreak : isBreak c = false := isBreak_of_isAnyBreak hb
        have hnext (col : Nat) (acc : List Char) (hcol : 0 < col) :
            scanSingle? (singleBody indent false cs ++ '\'' :: after) col {} acc =
              some (acc.reverse ++ cs, after) := by
          rw [ih (.blanks []) (fun _ => hcol) acc hrest hbefore.2 (by simp) hbehind.2 (by simp)]
          simp [Gap.fold]
        by_cases hquote : c = '\''
        · subst hquote
          rw [if_pos (by decide), List.cons_append, List.singleton_append,
            scanSingle?_quote _ _ _ hcol', hnext _ _ (by omega)]
          simp
        · rw [if_neg (by simpa using hquote), List.singleton_append,
            scanSingle?_char _ _ _ hcol' hbreak hblank hquote, hnext _ _ (by omega)]
          simp

/-- **A text that may be written between single quotes is read back.** -/
theorem scanSingle?_text {cs : List Char} (h : singleAllowed cs = true) (hline : '\n' ∉ cs)
    {indent col : Nat} (hindent : 0 < indent) (hcol : 0 < col) {after : List Char}
    (hafter : after.head? ≠ some '\'') :
    scanSingle? (singleBody indent false cs ++ '\'' :: after) col {} [] = some (cs, after) := by
  simp only [singleAllowed, needsEscape, Bool.and_eq_true, Bool.not_eq_true', Bool.or_eq_false_iff,
    Bool.not_eq_false'] at h
  obtain ⟨⟨hprint, hbefore⟩, hbehind⟩ := h
  have hcs : ∀ c ∈ cs, isPrintable c = true ∧ c ≠ '\n' := fun c hc =>
    ⟨List.all_eq_true.1 hprint c hc, fun heq => hline (heq ▸ hc)⟩
  exact scanSingle?_body hindent hafter cs (.blanks []) (fun _ => hcol) [] hcs hbefore (by simp)
    hbehind (by simp)

/-! ## Double quotes -/

/-- A character stands for itself, or for what a letter or its code point after a backslash is read
as. -/
inductive Escaped (c : Char) : List Char → Prop where
  | itself (hprint : isPrintable c = true) (hbreak : isAnyBreak c = false) (hquote : c ≠ '"')
    (hmark : c ≠ '\\') : Escaped c [c]
  | letter (e : Char) (he : simpleEscape? e = some c) (hprint : isPrintable e = true)
    (hbreak : isBreak e = false) : Escaped c ['\\', e]
  | code (e : Char) (width : Nat) (he : simpleEscape? e = none)
    (hwidth : escapeDigits? e = some width) (hprint : isPrintable e = true)
    (hbreak : isBreak e = false) (hpos : 0 < width) (hc : c.toNat < 16 ^ width) :
    Escaped c ('\\' :: e :: paddedHex width c.toNat)

theorem escaped_doubleChar (c : Char) : Escaped c (doubleChar c) := by
  unfold doubleChar
  split
  · rename_i h
    simp only [Bool.and_eq_true, Bool.not_eq_true', bne_iff_ne] at h
    exact .itself h.1.1.1 h.1.1.2 h.1.2 h.2
  · split
    any_goals exact .letter _ rfl (by decide) (by decide)
    have hlt : c.toNat < 0x110000 := by
      have hvalid : c.toNat < 0xD800 ∨ 0xDFFF < c.toNat ∧ c.toNat < 0x110000 := c.valid
      omega
    dsimp only
    split
    · exact .code 'x' 2 rfl rfl (by decide) (by decide) (by decide) (by omega)
    · split
      · exact .code 'u' 4 rfl rfl (by decide) (by decide) (by decide) (by omega)
      · exact .code 'U' 8 rfl rfl (by decide) (by decide) (by decide) (by omega)

section steps

variable (n : Nat) (cs : List Char) {col : Nat} (blanks acc : List Char)

theorem scanDouble?_space : scanDouble? (n + 1) (' ' :: cs) col { blanks } acc =
    scanDouble? n cs (col + 1) { blanks := blanks ++ [' '] } acc := by
  rw [scanDouble?]
  rfl

theorem scanDouble?_char {c : Char} (hcol : 0 < col) (hbreak : isBreak c = false)
    (hblank : isBlank c = false) (hquote : c ≠ '"') (hmark : c ≠ '\\') :
    scanDouble? (n + 1) (c :: cs) col { blanks } acc =
      scanDouble? n cs (col + 1) {} (c :: (blanks.reverse ++ acc)) := by
  rw [scanDouble?]
  simp [hbreak, hblank, hquote, hmark, atDocumentEdge_of_pos hcol, Gap.fold]

theorem scanDouble?_end (hcol : 0 < col) : scanDouble? (n + 1) ('"' :: cs) col { blanks } acc =
    some (acc.reverse ++ blanks, cs) := by
  rw [scanDouble?]
  simp [isBreak, isBlank, atDocumentEdge_of_pos hcol, Gap.fold]

theorem scanDouble?_letter {e x : Char} (hcol : 0 < col) (hbreak : isBreak e = false)
    (he : simpleEscape? e = some x) : scanDouble? (n + 1) ('\\' :: e :: cs) col { blanks } acc =
      scanDouble? n cs (col + 2) {} (x :: (blanks.reverse ++ acc)) := by
  rw [scanDouble?, if_neg (by decide), if_neg (by decide),
    if_neg (by simp [atDocumentEdge_of_pos hcol])]
  simp [hbreak, he, Gap.fold]

theorem scanDouble?_code {e x : Char} {width : Nat} {digits : List Char} (hcol : 0 < col)
    (hbreak : isBreak e = false) (he : simpleEscape? e = none)
    (hwidth : escapeDigits? e = some width) (hlen : digits.length = width)
    (hx : hexChar? (digits ++ cs) width = some x) :
    scanDouble? (n + 1) ('\\' :: e :: (digits ++ cs)) col { blanks } acc =
      scanDouble? n cs (col + 2 + width) {} (x :: (blanks.reverse ++ acc)) := by
  have hdrop : (digits ++ cs).drop width = cs := by rw [← hlen, List.drop_left]
  rw [scanDouble?, if_neg (by decide), if_neg (by decide),
    if_neg (by simp [atDocumentEdge_of_pos hcol])]
  simp [hbreak, he, hwidth, hx, hdrop, Gap.fold]

end steps

/-- A text between double quotes is read back, from any character on. -/
theorem scanDouble?_body (after cs : List Char) (n : Nat)
    (hn : (cs.flatMap doubleChar).length < n) {col : Nat} (hcol : 0 < col)
    (blanks acc : List Char) :
    scanDouble? n (cs.flatMap doubleChar ++ '"' :: after) col { blanks } acc =
      some (acc.reverse ++ blanks ++ cs, after) := by
  induction cs generalizing n col blanks acc with
  | nil =>
    obtain ⟨n, rfl⟩ := Nat.exists_eq_add_of_lt hn
    simp [scanDouble?_end _ _ _ _ hcol]
  | cons c cs ih =>
    rw [List.flatMap_cons, List.length_append] at hn
    rw [List.flatMap_cons, List.append_assoc]
    have hesc := escaped_doubleChar c
    generalize doubleChar c = written at hesc hn ⊢
    obtain ⟨n, rfl⟩ : ∃ m, n = m + 1 := ⟨n - 1, by omega⟩
    cases hesc with
    | itself hprint hbreak hquote hmark =>
      rw [List.length_singleton] at hn
      rw [List.singleton_append]
      by_cases hc : c = ' '
      · rw [hc, scanDouble?_space, ih n (by omega) (by omega)]
        simp
      · have hblank : isBlank c = false := by simp [isBlank_of_isPrintable hprint, hc]
        rw [scanDouble?_char _ _ _ _ hcol (isBreak_of_isAnyBreak hbreak) hblank hquote hmark,
          ih n (by omega) (by omega)]
        simp
    | letter e he hprint hbreak =>
      rw [List.length_cons] at hn
      rw [List.cons_append, List.singleton_append, scanDouble?_letter _ _ _ _ hcol hbreak he,
        ih n (by omega) (by omega)]
      simp
    | code e width he hwidth hprint hbreak hpos hc =>
      rw [List.length_cons] at hn
      rw [List.cons_append, List.cons_append, scanDouble?_code _ _ _ _ hcol hbreak he hwidth
        (length_paddedHex hpos hc) (hexChar?_paddedHex hpos hc _), ih n (by omega) (by omega)]
      simp

/-- **Any text is read back from between double quotes.** -/
theorem scanDouble?_text (cs after : List Char) {col : Nat} (hcol : 0 < col) :
    scanDouble? (cs.flatMap doubleChar ++ '"' :: after).length
      (cs.flatMap doubleChar ++ '"' :: after) col {} [] = some (cs, after) :=
  scanDouble?_body after cs _ (by simp) hcol [] []

/-! ## Nothing but printable characters -/

theorem isPrintable_spaces {n : Nat} {c : Char} (h : c ∈ spaces n) : isPrintable c = true := by
  rw [List.eq_of_mem_replicate h]
  decide

theorem isPrintable_singleBody {indent : Nat} {cs : List Char}
    (hcs : ∀ c ∈ cs, isPrintable c = true) (broke : Bool) :
    ∀ c ∈ singleBody indent broke cs, isPrintable c = true := by
  have hlead (broke : Bool) :
      ∀ c ∈ (if broke then spaces indent else []), isPrintable c = true := by
    intro c hc
    cases broke with
    | false => cases hc
    | true => exact isPrintable_spaces hc
  induction cs generalizing broke with
  | nil => exact hlead broke
  | cons c cs ih =>
    obtain ⟨hc, hrest⟩ := List.forall_mem_cons.1 hcs
    rw [singleBody]
    split
    · exact List.forall_mem_cons.2 ⟨hc, ih hrest true⟩
    · intro x hx
      rcases List.mem_append.1 hx with hx | hx
      · rcases List.mem_append.1 hx with hx | hx
        · exact hlead broke x hx
        · split at hx
          · rw [List.mem_pair, or_self] at hx
            rw [hx]
            decide
          · rw [List.mem_singleton.1 hx]
            exact hc
      · exact ih hrest false x hx

theorem isPrintable_of_escaped {c : Char} {written : List Char} (h : Escaped c written) :
    ∀ x ∈ written, isPrintable x = true := by
  cases h with
  | itself hprint => simpa using hprint
  | letter e he hprint => simpa [hprint] using (by decide : isPrintable '\\' = true)
  | code e width he hwidth hprint =>
    refine List.forall_mem_cons.2 ⟨by decide, List.forall_mem_cons.2 ⟨hprint, ?_⟩⟩
    exact fun x hx => isPrintable_paddedHex hx

end PointsTo.Yaml
