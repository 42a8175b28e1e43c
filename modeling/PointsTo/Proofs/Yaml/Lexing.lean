import PointsTo.Proofs.Yaml.Blocks
import PointsTo.Proofs.Yaml.Cursors

/-!
# Keys and values become tokens

A lexer *leads to* another if it reads some tokens and then goes on as the other does. Every token
takes a character, so the steps that are left do not run out before the characters do.

What lies between two tokens is passed without a trace: a lexer is *at* a token when only a gap is
left before it, and *behind a colon* when it is still on the line of the key.
-/

namespace PointsTo.Yaml

namespace Lexer

/-! ## One token after another -/

/-- Reads some tokens and then goes on as the other. -/
def Leads (lx lx' : Lexer) : Prop :=
  ∃ m, m + lx'.cur.rest.length ≤ lx.cur.rest.length ∧ ∀ n, run? (n + m) lx = run? n lx'

theorem Leads.trans {lx lx' lx'' : Lexer} (h : Leads lx lx') (h' : Leads lx' lx'') :
    Leads lx lx'' := by
  obtain ⟨m, hm, hrun⟩ := h
  obtain ⟨m', hm', hrun'⟩ := h'
  refine ⟨m' + m, by omega, fun n => ?_⟩
  rw [← Nat.add_assoc, hrun, hrun']

theorem Leads.single {lx lx₁ lx₂ : Lexer} {c : Char} {cs : List Char}
    (hadvance : lx.advance? = some lx₁) (hrest : lx₁.cur.rest = c :: cs)
    (htoken : lx₁.token? c cs = some lx₂) (hlt : lx₂.cur.rest.length < lx.cur.rest.length) :
    Leads lx lx₂ := by
  refine ⟨1, by omega, fun n => ?_⟩
  rw [run?, hadvance]
  simp only [Option.bind_eq_bind, Option.bind_some, hrest, htoken]

/-- Past a gap that ends no block, while no pending key is too far back. -/
theorem advance?_of_gap {lx : Lexer} {rest : List Char} {allowed : Bool}
    (hgap : skipGap false lx.cur.rest lx.cur.col lx.keyAllowed false = (rest, allowed))
    (houter : lx.outerKeys = [])
    (hfresh : ∀ k, lx.key = some k → k.isStale (lx.cur.moveTo rest) = false)
    (hindent : ∀ n, lx.indents.head? = some n → n ≤ (lx.cur.moveTo rest).col) :
    lx.advance? = some { lx with cur := lx.cur.moveTo rest, keyAllowed := allowed } := by
  have hstale : (lx.key.any fun p => p.isStale (lx.cur.moveTo rest)) = false := by
    cases hkey : lx.key with
    | none => rfl
    | some k => exact hfresh k hkey
  have hclosed : (lx.indents.takeWhile fun n => decide ((lx.cur.moveTo rest).col < n)) = [] ∧
      (lx.indents.dropWhile fun n => decide ((lx.cur.moveTo rest).col < n)) = lx.indents := by
    cases hindents : lx.indents with
    | nil => exact ⟨rfl, rfl⟩
    | cons n ns =>
      have hn : ¬(lx.cur.moveTo rest).col < n := Nat.not_lt.2 (hindent n (by rw [hindents]; rfl))
      simp [hn]
  simp [advance?, hgap, dropStaleKeys?, hstale, houter, closeBlocks, inFlow, hclosed]

/-- Only a gap is left before the token at `rest`, where a key may start. -/
structure At (lx : Lexer) (col : Nat) (rest : List Char) : Prop where
  gap : skipGap false lx.cur.rest lx.cur.col lx.keyAllowed false = (rest, true)
  ahead : ∃ pre, lx.cur.rest = pre ++ rest
  col : (lx.cur.moveTo rest).col = col
  key : lx.key = none
  outerKeys : lx.outerKeys = []

/-- On the line of a key, behind its colon, and so deeper than the block of the key. -/
structure BehindColon (lx : Lexer) (rest : List Char) : Prop where
  rest : lx.cur.rest = rest
  col : lx.floor ≤ lx.cur.col
  keyAllowed : lx.keyAllowed = false
  key : lx.key = none
  outerKeys : lx.outerKeys = []

/-! ## Keys -/

section tokens

variable {lx : Lexer} {c : Char} {cs : List Char}

theorem saveKey?_of_not_allowed (h : lx.keyAllowed = false) : lx.saveKey? = some lx := by
  simp [saveKey?, h]

theorem saveKey?_of_allowed (lx : Lexer) (h : lx.keyAllowed = true) (hkey : lx.key = none) :
    ∃ required, lx.saveKey? = some { lx with
      key := some ⟨required, lx.tokens.size, lx.cur.line, lx.cur.col, lx.cur.width⟩ } := by
  refine ⟨!lx.inFlow && lx.indents.head? == some lx.cur.col, ?_⟩
  simp [saveKey?, forgetKey?, inFlow, h, hkey]

theorem token?_plain (houter : lx.outerKeys = []) (hindicator : isIndicator c = false)
    (hblank : isBlank c = false) (hbreak : isBreak c = false)
    (hedge : atDocumentEdge lx.cur.col (c :: cs) = false)
    (hmark : c = '?' ∨ c = ':' ∨ c = '-' → endsWord cs = false) : lx.token? c cs = lx.plain? := by
  have hflow : lx.inFlow = false := by simp [inFlow, houter]
  have hdash : (c == '-' && endsWord cs) = false := by
    rw [Bool.and_eq_false_imp, beq_iff_eq]
    exact fun h => hmark (Or.inr (Or.inr h))
  have hquestion : (c == '?' && endsWord cs) = false := by
    rw [Bool.and_eq_false_imp, beq_iff_eq]
    exact fun h => hmark (Or.inl h)
  have hcolon : (c == ':' && endsWord cs) = false := by
    rw [Bool.and_eq_false_imp, beq_iff_eq]
    exact fun h => hmark (Or.inr (Or.inl h))
  have hstarts : startsPlain false (c :: cs) = true := by
    simp only [startsPlain]
    split
    · rename_i h
      rw [hmark (Or.inr (Or.inr (by simpa using h)))]
      rfl
    · split
      · rename_i h
        rw [Bool.or_eq_true, beq_iff_eq, beq_iff_eq] at h
        rw [hmark (by tauto)]
        rfl
      · simp [hblank, hbreak, hindicator]
  simp only [atDocumentEdge, Bool.or_eq_false_iff] at hedge
  simp only [isIndicator, isFlowIndicator, List.contains_cons, List.contains_nil, Bool.or_false,
    Bool.or_eq_false_iff, beq_eq_false_iff_ne, ne_eq] at hindicator
  simp [token?, hflow, hedge, hindicator, hdash, hquestion, hcolon, hstarts]

theorem plain?_eq {lx' : Lexer} {text rest : List Char} {broke : Bool}
    (hsave : lx.saveKey? = some lx')
    (hscan : scanPlain? lx'.inFlow lx'.floor lx'.cur.rest lx'.cur.col {} [] =
      some (text, broke, rest)) :
    lx.plain? =
      some { lx'.emit (.scalar .plain (String.ofList text)) rest with keyAllowed := broke } := by
  simp [plain?, hsave, hscan]

end tokens

/-- What is put in at a kept place comes before all that was read since. -/
theorem toList_insertIdx_size (tokens : Array Token) (t : Token) (since : List Token) :
    ((tokens ++ since.toArray).insertIdxIfInBounds tokens.size t).toList =
      tokens.toList ++ t :: since := by
  have hlist (ts : List Token) : (ts ++ since).insertIdx ts.length t = ts ++ t :: since := by
    induction ts with
    | nil => rfl
    | cons u ts ih => exact congrArg (u :: ·) ih
  rw [Array.insertIdxIfInBounds, dif_pos (by simp), Array.toList_insertIdx, Array.toList_append]
  exact hlist tokens.toList

/-- The text of a key becomes a scalar, with its place kept in mind. -/
theorem At.reads_keyText {lx : Lexer} {col : Nat} {key after : List Char}
    (h : lx.At col (key ++ ':' :: after)) (hkey : IsKey key) (hafter : endsWord after = true)
    (hindents : ∀ n, lx.indents.head? = some n → n ≤ col) :
    ∃ cur k, lx.Leads ⟨cur, lx.tokens.push (.scalar .plain (String.ofList key)), lx.indents, some k,
        [], false⟩ ∧ cur.rest = ':' :: after ∧ col ≤ cur.col ∧
      k.position = lx.tokens.size ∧ k.col = col ∧ k.isStale cur = false := by
  obtain ⟨hne, hword, hshort⟩ := hkey
  have hchars := List.all_eq_true.1 hword
  obtain ⟨start, tokens, indents, pending, outerKeys, allowed⟩ := lx
  obtain ⟨hgap, ⟨pre, hpre⟩, hcol, rfl, rfl⟩ := h
  have hadvance := advance?_of_gap hgap rfl (by simp) (by rw [hcol]; exact hindents)
  dsimp only at hpre hcol hadvance
  have hrest := Cursor.rest_moveTo hpre
  have hlength : (key ++ ':' :: after).length ≤ start.rest.length := by simp [hpre]
  generalize start.moveTo (key ++ ':' :: after) = cur at hrest hadvance hcol
  obtain ⟨required, hsave⟩ := saveKey?_of_allowed ⟨cur, tokens, indents, none, [], true⟩ rfl rfl
  -- The key ends on its line and not far from its place, which is therefore still good.
  obtain ⟨hline, hcol', hwidth⟩ :=
    Cursor.skip_line hrest fun x hx => isBreak_of_isWordChar (hchars x hx)
  have hcolon := Cursor.rest_moveTo hrest
  rw [← Cursor.moveTo_of_append hrest] at hline hcol' hwidth
  have hscan :=
    scanPlain?_key (floor ⟨cur, tokens, indents, none, [], true⟩) hchars hafter cur.col []
  rw [← hrest] at hscan
  obtain ⟨c, cs, rfl⟩ := List.exists_cons_of_ne_nil hne
  have hc : isWordChar c = true := hchars c List.mem_cons_self
  have hmark : ¬(c = '?' ∨ c = ':' ∨ c = '-') := by
    rintro (rfl | rfl | rfl) <;> exact absurd hc (by decide)
  refine ⟨cur.moveTo (':' :: after), ⟨required, tokens.size, cur.line, cur.col, cur.width⟩,
    Leads.single hadvance hrest ?_ ?_, hcolon, ?_, rfl, hcol, ?_⟩
  · exact (token?_plain rfl (isIndicator_of_isWordChar hc) (isBlank_of_isWordChar hc)
      (isBreak_of_isWordChar hc) (atDocumentEdge_of_isWordChar hc _ _) (absurd · hmark)).trans
        (plain?_eq hsave hscan)
  · rw [List.length_append, List.length_cons] at hlength
    rw [hcolon]
    exact Nat.lt_of_lt_of_le (by omega) hlength
  · omega
  · simp only [PendingKey.isStale, Bool.or_eq_false_iff, decide_eq_false_iff_not]
    omega

/-- The block that a key in that column opens. -/
def opening (indents : List Nat) (col : Nat) : List Token :=
  if indents.head?.all fun n => decide (n < col) then [.blockMapping] else []

/-- The open blocks once a key stands in that column. -/
def opened (indents : List Nat) (col : Nat) : List Nat :=
  if indents.head?.all fun n => decide (n < col) then col :: indents else indents

theorem le_of_floor_le {lx : Lexer} {col : Nat} (h : lx.floor ≤ col) :
    ∀ n, lx.indents.head? = some n → n ≤ col := by
  unfold floor at h
  cases hindents : lx.indents with
  | nil => simp
  | cons m ms =>
    rw [hindents] at h
    rintro n ⟨⟩
    exact Nat.le_of_succ_le h

theorem floor_of_opened {lx : Lexer} {indents : List Nat} {col : Nat}
    (hopened : lx.indents = opened indents col) (h : ∀ n, indents.head? = some n → n ≤ col) :
    lx.floor = col + 1 := by
  unfold floor
  rw [hopened, opened]
  cases indents with
  | nil => rfl
  | cons n ns =>
    by_cases hn : n < col
    · simp [hn]
    · have hle := h n rfl
      simp only [List.head?_cons, Option.all_some, hn, decide_false, Bool.false_eq_true, if_false]
      omega

theorem token?_colon {lx : Lexer} {after : List Char} (hafter : endsWord after = true) :
    lx.token? ':' after = lx.value? after := by
  simp [token?, atMarker, hafter]

theorem openBlock_behind (lx : Lexer) {tokens : Array Token} {since : List Token}
    (houter : lx.outerKeys = []) (htokens : lx.tokens = tokens ++ since.toArray) (col : Nat) :
    (lx.openBlock .blockMapping col tokens.size).tokens.toList =
        tokens.toList ++ opening lx.indents col ++ since ∧
      (lx.openBlock .blockMapping col tokens.size).indents = opened lx.indents col ∧
      (lx.openBlock .blockMapping col tokens.size).cur = lx.cur ∧
      (lx.openBlock .blockMapping col tokens.size).outerKeys = [] := by
  unfold openBlock opening opened
  have hflow : lx.inFlow = false := by simp [inFlow, houter]
  cases h : lx.indents.head?.all fun n => decide (n < col) with
  | false => simp [hflow, houter, htokens]
  | true =>
    have hinsert := toList_insertIdx_size tokens .blockMapping since
    simp only [hflow, Bool.not_true, Bool.or_self, Bool.false_eq_true, if_false, if_true, htokens,
      houter, and_self, and_true]
    rw [hinsert]
    simp

/-- The colon makes the text before it a key. -/
theorem reads_colon {cur : Cursor} {tokens : Array Token} {t : Token} {indents : List Nat}
    {k : PendingKey} {after : List Char} (hrest : cur.rest = ':' :: after)
    (hafter : endsWord after = true) (hindents : ∀ n, indents.head? = some n → n ≤ k.col)
    (hbehind : k.col ≤ cur.col) (hposition : k.position = tokens.size)
    (hfresh : k.isStale cur = false) :
    ∃ lx', Leads ⟨cur, tokens.push t, indents, some k, [], false⟩ lx' ∧ lx'.BehindColon after ∧
      lx'.indents = opened indents k.col ∧
      lx'.tokens.toList = tokens.toList ++ opening indents k.col ++ [.key, t, .value] := by
  have hself : cur.moveTo (':' :: after) = cur := by rw [← hrest, Cursor.moveTo_self]
  have hgap : skipGap false cur.rest cur.col false false = (':' :: after, false) := by
    rw [hrest]
    simp [skipGap, isBreak]
  have hadvance : advance? ⟨cur, tokens.push t, indents, some k, [], false⟩ =
      some ⟨cur, tokens.push t, indents, some k, [], false⟩ := by
    refine (advance?_of_gap hgap rfl ?_ ?_).trans ?_
    · rintro k' ⟨⟩
      rw [hself]
      exact hfresh
    · rw [hself]
      exact fun n hn => Nat.le_trans (hindents n hn) hbehind
    · rw [hself]
  have hsplit : cur.rest = [':'] ++ after := hrest
  have hafter' := Cursor.rest_moveTo hsplit
  have hcol := Cursor.col_moveTo_char hrest (by decide)
  have hinserted : (tokens.push t).insertIdxIfInBounds tokens.size .key =
      tokens ++ [Token.key, t].toArray := by
    have hinsert := toList_insertIdx_size tokens .key [t]
    exact Array.toList_inj.1 (hinsert.trans (Array.toList_append).symm)
  have hvalue : value? ⟨cur, tokens.push t, indents, some k, [], false⟩ after = some
      { (openBlock ⟨cur, tokens ++ [Token.key, t].toArray, indents, some k, [], false⟩ .blockMapping
          k.col tokens.size).emit .value after with key := none, keyAllowed := false } := by
    rw [← hinserted, ← hposition]
    rfl
  obtain ⟨htokens, hopened, hcur, houter⟩ := openBlock_behind
    ⟨cur, tokens ++ [Token.key, t].toArray, indents, some k, [], false⟩ rfl rfl k.col
  refine ⟨_, Leads.single hadvance hrest ((token?_colon hafter).trans hvalue) ?_,
    ⟨?_, ?_, rfl, rfl, houter⟩, hopened, ?_⟩
  · simp [emit, hcur, hafter', hrest]
  · simp [emit, hcur, hafter']
  · refine Nat.le_trans (Nat.le_of_eq (floor_of_opened hopened hindents)) ?_
    simp [emit, hcur, hcol, hbehind]
  · simp [emit, htokens]

/-- **A key is read**, and opens a block if it is the first one in its column. -/
theorem At.reads_key {lx : Lexer} {col : Nat} {key after : List Char}
    (h : lx.At col (key ++ ':' :: after)) (hkey : IsKey key) (hafter : endsWord after = true)
    (hindents : ∀ n, lx.indents.head? = some n → n ≤ col) :
    ∃ lx', lx.Leads lx' ∧ lx'.BehindColon after ∧ lx'.indents = opened lx.indents col ∧
      lx'.tokens.toList = lx.tokens.toList ++ opening lx.indents col ++
        [.key, .scalar .plain (String.ofList key), .value] := by
  obtain ⟨cur, k, hleads, hrest, hcol, hposition, rfl, hfresh⟩ :=
    h.reads_keyText hkey hafter hindents
  obtain ⟨lx', hleads', hbehind, hopened, htokens⟩ :=
    reads_colon hrest hafter hindents hcol hposition hfresh
  exact ⟨lx', hleads.trans hleads', hbehind, hopened, htokens⟩

/-! ## Values -/

theorem skipGap_token (flow allowed : Bool) {cs : List Char} (h : StartsToken cs) (col : Nat) :
    skipGap flow cs col allowed false = (cs, allowed) := by
  cases cs with
  | nil => rfl
  | cons c cs =>
    obtain ⟨hblank, hbreak, hcomment, hmark⟩ := h c rfl
    simp only [isBlank, Bool.or_eq_false_iff] at hblank
    simp [skipGap, hbreak, hcomment, hmark, hblank]

theorem skipGap_spaces (flow allowed : Bool) (n : Nat) (cs : List Char) (col : Nat) :
    skipGap flow (spaces n ++ cs) col allowed false = skipGap flow cs (col + n) allowed false := by
  induction n generalizing col with
  | zero => rfl
  | succ n ih =>
    have hspace : skipGap flow (' ' :: (spaces n ++ cs)) col allowed false =
        skipGap flow (spaces n ++ cs) (col + 1) allowed false := by
      rw [skipGap]
      simp [isBreak]
    rw [spaces, List.replicate_succ, List.cons_append, ← spaces, hspace, ih, Nat.add_right_comm,
      Nat.add_assoc]

section lineStarts

variable {lx : Lexer} {n : Nat} {tail : List Char}

/-- Before the break of a line. -/
theorem at_of_break (hrest : lx.cur.rest = '\n' :: (spaces n ++ tail)) (htail : StartsToken tail)
    (hkey : lx.key = none) (houter : lx.outerKeys = []) : lx.At n tail where
  gap := by
    have hbreak : skipGap false ('\n' :: (spaces n ++ tail)) lx.cur.col lx.keyAllowed false =
        skipGap false (spaces n ++ tail) 0 true false := by
      rw [skipGap]
      simp [isBreak]
    rw [hrest, hbreak, skipGap_spaces, skipGap_token _ _ htail]
  ahead := ⟨'\n' :: spaces n, hrest⟩
  col := by
    have hsplit : lx.cur.rest = [] ++ '\n' :: (spaces n ++ tail) := hrest
    exact Cursor.col_moveTo_indent (by decide) hsplit
  key := hkey
  outerKeys := houter

/-- Past the break of a line and the spaces after it. -/
theorem at_of_moved {start : Cursor} {pre : List Char} {b : Char} (hb : isBreak b = true)
    (hstart : start.rest = pre ++ b :: (spaces n ++ tail)) (hcur : lx.cur = start.moveTo tail)
    (htail : StartsToken tail) (hallowed : lx.keyAllowed = true) (hkey : lx.key = none)
    (houter : lx.outerKeys = []) : lx.At n tail := by
  have hsplit : start.rest = (pre ++ b :: spaces n) ++ tail := by simp [hstart]
  have hrest : lx.cur.rest = tail := by rw [hcur, Cursor.rest_moveTo hsplit]
  refine ⟨?_, ⟨[], hrest⟩, ?_, hkey, houter⟩
  · rw [hrest, hallowed, skipGap_token _ _ htail]
  · rw [← hrest, Cursor.moveTo_self, hcur]
    exact Cursor.col_moveTo_indent hb hstart

end lineStarts

/-- What is read as a scalar behind a colon, whatever indented less follows on the next line. The
lexer stops at that line or, behind quotes, at the break before it. -/
structure Reads (floor : Nat) (written : List Char) (style : Style) (text : String) : Prop where
  printable : ∀ c ∈ written, isPrintable c = true
  ne_nil : written ≠ []
  starts : StartsToken written
  token : ∀ (lx : Lexer) (n : Nat) (tail : List Char) (c : Char) (cs : List Char), n < floor →
    StartsToken tail → lx.floor = floor → lx.BehindColon (c :: cs) →
    written ++ lineEnd written ++ (spaces n ++ tail) = c :: cs →
    ∃ rest allowed, lx.token? c cs =
        some { lx.emit (.scalar style text) rest with keyAllowed := allowed } ∧
      (rest = tail ∧ allowed = true ∨
        rest = '\n' :: (spaces n ++ tail) ∧ allowed = false ∧ lineEnd written = ['\n'])

theorem exists_lineEnd {cs : List Char} (hcs : ∀ c ∈ cs, isPrintable c = true) :
    ∃ pre b, cs ++ lineEnd cs = pre ++ [b] ∧ isBreak b = true := by
  unfold lineEnd
  split
  · rename_i h
    obtain ⟨init, last, rfl⟩ := (List.eq_nil_or_concat' cs).resolve_left (by rintro rfl; simp at h)
    refine ⟨init, last, List.append_nil _, ?_⟩
    rw [List.getLast?_concat, Option.any_some] at h
    rw [← isAnyBreak_of_isPrintable (hcs last (by simp)), h]
  · exact ⟨cs, '\n', rfl, by decide⟩

/-- Past the space behind a colon. -/
theorem BehindColon.advance?_space {lx : Lexer} {rest : List Char}
    (h : lx.BehindColon (' ' :: rest)) (hrest : StartsToken rest) :
    lx.advance? = some { lx with cur := lx.cur.moveTo rest } ∧
      BehindColon { lx with cur := lx.cur.moveTo rest } rest := by
  obtain ⟨cur, tokens, indents, key, outerKeys, allowed⟩ := lx
  obtain ⟨hspace, hcol, rfl, rfl, rfl⟩ := h
  dsimp only at hspace hcol
  have hsplit : cur.rest = [' '] ++ rest := hspace
  have hgap : skipGap false cur.rest cur.col false false = (rest, false) := by
    rw [hspace]
    exact (skipGap_spaces false false 1 rest cur.col).trans (skipGap_token _ _ hrest _)
  have hdeep : floor ⟨cur, tokens, indents, none, [], false⟩ ≤ (cur.moveTo rest).col := by
    rw [Cursor.col_moveTo_char hspace (by decide)]
    exact Nat.le_succ_of_le hcol
  exact ⟨advance?_of_gap hgap rfl (by simp) (le_of_floor_le hdeep),
    Cursor.rest_moveTo hsplit, hdeep, rfl, rfl, rfl⟩

/-- **A value is read** up to the next line. -/
theorem BehindColon.reads_value {lx : Lexer} {floor n : Nat} {written tail : List Char}
    {style : Style} {text : String} (hreads : Reads floor written style text)
    (h : lx.BehindColon (' ' :: (written ++ lineEnd written ++ (spaces n ++ tail))))
    (hfloor : lx.floor = floor) (hn : n < floor) (htail : StartsToken tail) :
    ∃ lx', lx.Leads lx' ∧ lx'.At n tail ∧ lx'.indents = lx.indents ∧
      lx'.tokens = lx.tokens.push (.scalar style text) := by
  obtain ⟨pre, b, hline, hb⟩ := exists_lineEnd hreads.printable
  have hstarts : StartsToken (written ++ lineEnd written ++ (spaces n ++ tail)) := by
    rw [List.append_assoc]
    exact hreads.starts.append hreads.ne_nil _
  obtain ⟨c, cs, hcs⟩ : ∃ c cs, written ++ lineEnd written ++ (spaces n ++ tail) = c :: cs :=
    List.exists_cons_of_ne_nil (by simp [hreads.ne_nil])
  have hlines : c :: cs = pre ++ b :: (spaces n ++ tail) := by rw [← hcs, hline]; simp
  rw [hcs] at h hstarts
  obtain ⟨hadvance, hbehind⟩ := h.advance?_space hstarts
  obtain ⟨rest, allowed, htoken, hleft⟩ :=
    hreads.token { lx with cur := lx.cur.moveTo (c :: cs) } n tail c cs hn htail hfloor hbehind hcs
  -- What the token takes is the value, with the end of its line unless it stands between quotes.
  obtain ⟨taken, htaken, hne⟩ : ∃ taken, c :: cs = taken ++ rest ∧ taken ≠ [] := by
    rcases hleft with ⟨rfl, -⟩ | ⟨rfl, -, hend⟩
    · exact ⟨pre ++ b :: spaces n, by rw [hlines]; simp, by simp⟩
    · exact ⟨written, by rw [← hcs, hend]; simp, hreads.ne_nil⟩
  have hrest : ((lx.cur.moveTo (c :: cs)).moveTo rest).rest = rest :=
    Cursor.rest_moveTo (hbehind.rest.trans htaken)
  refine ⟨_, Leads.single hadvance hbehind.rest htoken ?_, ?_, rfl, rfl⟩
  · have hpos := List.length_pos_of_ne_nil hne
    have hlength := congrArg List.length htaken
    have hlength' := congrArg List.length h.rest
    simp only [List.length_append, List.length_cons] at hlength hlength'
    simp only [emit, hrest]
    omega
  · rcases hleft with ⟨rfl, rfl⟩ | ⟨rfl, rfl, -⟩
    · exact at_of_moved hb (hbehind.rest.trans hlines) rfl htail rfl hbehind.key hbehind.outerKeys
    · exact at_of_break hrest htail hbehind.key hbehind.outerKeys

end Lexer

end PointsTo.Yaml
