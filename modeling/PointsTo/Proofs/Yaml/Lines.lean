import PointsTo.Proofs.Yaml.Values
import PointsTo.Yaml.Reader

/-!
# Documents of lines

A mapping written one entry a line, of which the last entry may be a mapping one level deeper. The
lines lie between writing and reading: they tell the text that is written, the tokens it is cut into
and the entries that are read from these.
-/

namespace PointsTo.Yaml

open Lexer

/-! ## Lines -/

/-- A key, and what is written behind its colon and taken as a scalar. -/
structure Entry where
  key : String
  written : List Char
  style : Style
  text : String

/-- The lines of a mapping. -/
inductive Lines where
  | last (e : Entry)
  | entry (e : Entry) (more : Lines)
  | heading (key : String) (below : Lines)

namespace Entry

def line (e : Entry) : List Char :=
  e.key.toList ++ ':' :: ' ' :: (e.written ++ lineEnd e.written)

def tokens (e : Entry) : List Token :=
  [.key, .scalar .plain e.key, .value, .scalar e.style e.text]

theorem length_tokens (e : Entry) : e.tokens.length = 4 := rfl

def node (e : Entry) : Node × Node :=
  (.scalar {} .plain e.key, .scalar {} e.style e.text)

/-- What is written can be read at that depth. -/
structure Readable (depth : Nat) (e : Entry) : Prop where
  key : IsKey e.key.toList
  value : Reads (2 * depth + 1) e.written e.style e.text

end Entry

namespace Lines

/-- The text behind the indentation of the first line. -/
def body : Nat → Lines → List Char
  | _, last e => e.line
  | depth, entry e more => e.line ++ (spaces (2 * depth) ++ more.body depth)
  | depth, heading key below =>
    key.toList ++ ':' :: '\n' :: (spaces (2 * (depth + 1)) ++ below.body (depth + 1))

/-- The tokens up to the end of the mapping. -/
def tokens : Lines → List Token
  | last e => e.tokens ++ [.blockEnd]
  | entry e more => e.tokens ++ more.tokens
  | heading key below =>
    [.key, .scalar .plain key, .value, .blockMapping] ++ below.tokens ++ [.blockEnd]

def nodes : Lines → List (Node × Node)
  | last e => [e.node]
  | entry e more => e.node :: more.nodes
  | heading key below => [(.scalar {} .plain key, .mapping {} below.nodes)]

def Readable : Nat → Lines → Prop
  | depth, last e => e.Readable depth
  | depth, entry e more => e.Readable depth ∧ more.Readable depth
  | depth, heading key below => IsKey key.toList ∧ below.Readable (depth + 1)

end Lines

/-! ## As they are written -/

theorem toList_entry (depth : Nat) (key value : String) : (entry depth key value).toList =
    spaces (2 * depth) ++ key.toList ++ ':' :: ' ' :: (value.toList ++ lineEnd value.toList) := by
  have hlast : (String.ofList (spaces (2 * depth)) ++ key ++ ": " ++ value).toList.getLast?.any
      isAnyBreak = value.toList.getLast?.any isAnyBreak := by
    cases h : value.toList.getLast? <;>
      simp [List.getLast?_append, List.getLast?_cons, h, isAnyBreak, isBreak]
  unfold entry lineEnd
  dsimp only
  rw [hlast]
  split <;> simp

theorem toList_heading (depth : Nat) (key : String) :
    (heading depth key).toList = spaces (2 * depth) ++ key.toList ++ [':', '\n'] := by
  simp [heading]

/-- A word as it is. -/
def Entry.word (key text : String) : Entry :=
  ⟨key, text.toList, .plain, text⟩

/-! ## From the text to the tokens -/

/-- The columns of the mappings around a depth, innermost first. -/
def columns : Nat → List Nat
  | 0 => []
  | depth + 1 => 2 * depth :: columns depth

namespace Lexer

section columns

variable {indents : List Nat} {depth : Nat}

theorem opening_columns (depth : Nat) : opening (columns depth) (2 * depth) = [.blockMapping] := by
  cases depth <;> simp [opening, columns]

theorem opening_columns_succ (depth : Nat) : opening (columns (depth + 1)) (2 * depth) = [] := by
  simp [opening, columns]

theorem opened_columns (h : indents = columns depth ∨ indents = columns (depth + 1)) :
    opened indents (2 * depth) = columns (depth + 1) := by
  rcases h with rfl | rfl
  · cases depth <;> simp [opened, columns]
  · simp [opened, columns]

theorem le_of_columns (h : indents = columns depth ∨ indents = columns (depth + 1)) :
    ∀ n, indents.head? = some n → n ≤ 2 * depth := by
  rcases h with rfl | rfl
  · cases depth with
    | zero => simp [columns]
    | succ depth =>
      rintro n ⟨⟩
      omega
  · rintro n ⟨⟩
    exact Nat.le_refl _

end columns

/-- **A line with a value is read.** -/
theorem At.reads_entry {lx : Lexer} {depth n : Nat} {e : Entry} {tail : List Char}
    (h : lx.At (2 * depth) (e.line ++ (spaces n ++ tail))) (he : e.Readable depth)
    (hn : n ≤ 2 * depth) (htail : StartsToken tail)
    (hindents : lx.indents = columns depth ∨ lx.indents = columns (depth + 1)) :
    ∃ lx', lx.Leads lx' ∧ lx'.At n tail ∧ lx'.indents = columns (depth + 1) ∧
      lx'.tokens.toList = lx.tokens.toList ++ opening lx.indents (2 * depth) ++ e.tokens := by
  have hline : e.line ++ (spaces n ++ tail) = e.key.toList ++ ':' :: (' ' ::
      (e.written ++ lineEnd e.written ++ (spaces n ++ tail))) := by
    simp [Entry.line]
  rw [hline] at h
  obtain ⟨mid, hleads, hbehind, hopened, htokens⟩ :=
    h.reads_key he.key rfl (le_of_columns hindents)
  have hfloor := floor_of_opened hopened (le_of_columns hindents)
  obtain ⟨lx', hleads', hat, hindents', htokens'⟩ :=
    hbehind.reads_value he.value hfloor (Nat.lt_succ_of_le hn) htail
  refine ⟨lx', hleads.trans hleads', hat, ?_, ?_⟩
  · rw [hindents', hopened, opened_columns hindents]
  · rw [htokens', Array.toList_push, htokens, String.ofList_toList, List.append_assoc]
    rfl

/-- **A line with a key alone is read.** -/
theorem At.reads_heading {lx : Lexer} {depth n : Nat} {key tail : List Char}
    (h : lx.At (2 * depth) (key ++ ':' :: '\n' :: (spaces n ++ tail))) (hkey : IsKey key)
    (htail : StartsToken tail)
    (hindents : lx.indents = columns depth ∨ lx.indents = columns (depth + 1)) :
    ∃ lx', lx.Leads lx' ∧ lx'.At n tail ∧ lx'.indents = columns (depth + 1) ∧
      lx'.tokens.toList = lx.tokens.toList ++ opening lx.indents (2 * depth) ++
        [.key, .scalar .plain (String.ofList key), .value] := by
  obtain ⟨lx', hleads, hbehind, hopened, htokens⟩ :=
    h.reads_key hkey rfl (le_of_columns hindents)
  exact ⟨lx', hleads, at_of_break hbehind.rest htail hbehind.key hbehind.outerKeys,
    hopened.trans (opened_columns hindents), htokens⟩

theorem Leads.run {lx lx' : Lexer} (h : lx.Leads lx') {n : Nat} (hn : lx.cur.rest.length < n) :
    ∃ n', lx'.cur.rest.length < n' ∧ run? n lx = run? n' lx' := by
  obtain ⟨m, hm, hrun⟩ := h
  refine ⟨n - m, by omega, ?_⟩
  rw [← hrun, Nat.sub_add_cancel (by omega)]

/-- At the end all blocks are closed. -/
theorem At.run?_end {lx : Lexer} (h : lx.At 0 []) (n : Nat) :
    ∃ tokens, run? (n + 1) lx = some tokens ∧
      tokens.toList = lx.tokens.toList ++ lx.indents.map fun _ => Token.blockEnd := by
  obtain ⟨cur, tokens, indents, key, outerKeys, allowed⟩ := lx
  obtain ⟨hgap, ⟨pre, hpre⟩, hcol, rfl, rfl⟩ := h
  dsimp only at hgap hpre hcol
  have hrest := Cursor.rest_moveTo hpre
  have hclosed := List.takeWhile_append_dropWhile (p := fun n => decide (0 < n)) (l := indents)
  have hflow : (indents.dropWhile fun n => decide (0 < n)).takeWhile (fun _ => true) =
      indents.dropWhile fun n => decide (0 < n) := List.takeWhile_eq_self_iff.2 (by simp)
  refine ⟨tokens ++ (indents.takeWhile fun n => decide (0 < n)).map (fun _ => Token.blockEnd) ++
    (indents.dropWhile fun n => decide (0 < n)).map fun _ => Token.blockEnd, ?_, ?_⟩
  · simp [run?, advance?, inFlow, hgap, dropStaleKeys?, closeBlocks, hcol, hrest, forgetKey?, hflow]
  · simp only [Array.toList_appendList, List.append_assoc, ← List.map_append, hclosed]

end Lexer

theorem Lines.startsToken_body {depth : Nat} {ls : Lines} (h : ls.Readable depth) :
    StartsToken (ls.body depth) := by
  cases ls with
  | last e => exact startsToken_of_isKey h.key
  | entry e more =>
    rw [body, Entry.line, List.append_assoc]
    exact startsToken_of_isKey h.1.key
  | heading key below => exact startsToken_of_isKey h.1

/-- **The lines are cut into their tokens**, and then the blocks around them are closed. -/
theorem Lexer.run?_lines {depth : Nat} {ls : Lines} (hls : ls.Readable depth) {lx : Lexer}
    (h : lx.At (2 * depth) (ls.body depth))
    (hindents : lx.indents = columns depth ∨ lx.indents = columns (depth + 1)) {n : Nat}
    (hn : lx.cur.rest.length < n) :
    ∃ tokens, run? n lx = some tokens ∧ tokens.toList = lx.tokens.toList ++
      opening lx.indents (2 * depth) ++ ls.tokens ++ List.replicate depth .blockEnd := by
  have hclosing (depth : Nat) : (columns depth).map (fun _ => Token.blockEnd) =
      List.replicate depth .blockEnd := by
    induction depth with
    | zero => rfl
    | succ depth ih => exact congrArg (_ :: ·) ih
  induction ls generalizing depth lx n with
  | last e =>
    have hline : e.line ++ (spaces 0 ++ []) = e.line := by simp [spaces]
    rw [Lines.body, ← hline] at h
    obtain ⟨lx', hleads, hat, hindents', htokens⟩ :=
      h.reads_entry hls (Nat.zero_le _) (by simp [StartsToken]) hindents
    obtain ⟨n', hn', hrun⟩ := hleads.run hn
    obtain ⟨n', rfl⟩ := Nat.exists_eq_add_of_lt hn'
    obtain ⟨tokens, hend, hread⟩ := hat.run?_end (lx'.cur.rest.length + n')
    refine ⟨tokens, hrun.trans hend, ?_⟩
    rw [hread, htokens, hindents', hclosing, List.replicate_succ]
    simp [Lines.tokens]
  | entry e more ih =>
    obtain ⟨he, hmore⟩ := hls
    obtain ⟨lx', hleads, hat, hindents', htokens⟩ :=
      h.reads_entry he (Nat.le_refl _) (Lines.startsToken_body hmore) hindents
    obtain ⟨n', hn', hrun⟩ := hleads.run hn
    obtain ⟨tokens, hend, hread⟩ := ih hmore hat (Or.inr hindents') hn'
    refine ⟨tokens, hrun.trans hend, ?_⟩
    rw [hread, htokens, hindents', opening_columns_succ]
    simp [Lines.tokens]
  | heading key below ih =>
    obtain ⟨hkey, hbelow⟩ := hls
    obtain ⟨lx', hleads, hat, hindents', htokens⟩ :=
      h.reads_heading hkey (Lines.startsToken_body hbelow) hindents
    obtain ⟨n', hn', hrun⟩ := hleads.run hn
    obtain ⟨tokens, hend, hread⟩ := ih hbelow hat (Or.inl hindents') hn'
    refine ⟨tokens, hrun.trans hend, ?_⟩
    rw [hread, htokens, hindents', opening_columns, List.replicate_succ]
    simp [Lines.tokens]

theorem tokens?_lines {ls : Lines} (hls : ls.Readable 0) :
    tokens? (ls.body 0) = some (.blockMapping :: ls.tokens) := by
  have hat : Lexer.At { cur := { rest := ls.body 0 } } (2 * 0) (ls.body 0) := by
    refine ⟨skipGap_token _ _ (Lines.startsToken_body hls) _, ⟨[], rfl⟩, ?_, rfl, rfl⟩
    exact congrArg Cursor.col (Cursor.moveTo_self { rest := ls.body 0 })
  obtain ⟨tokens, hrun, htokens⟩ := run?_lines hls hat (Or.inl rfl) (Nat.lt_succ_self _)
  rw [tokens?, hrun, Option.map_some, htokens]
  simp [opening]

end PointsTo.Yaml
