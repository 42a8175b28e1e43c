import Mathlib.Data.List.DropRight
import PointsTo.Proofs.Yaml.Scalars
import PointsTo.Yaml.BlockScalar

/-!
# Literal blocks read back

A text of several lines is written as a literal block and read back as the same text. The text is a
core, which ends in a word, and the breaks behind it, of which one is added where there is none.
Line by line the core is gathered; what is left of the breaks is up to the mark in the header, which
the writer has chosen accordingly.
-/

namespace PointsTo.Yaml

/-! ## What is written -/

section literalBody

variable (indent : Nat)

theorem literalBody_breaks {bs : List Char} (hbs : ∀ b ∈ bs, isAnyBreak b = true) (start : Bool)
    (cs : List Char) :
    literalBody indent start (bs ++ cs) =
      bs ++ literalBody indent (start || !bs.isEmpty) cs := by
  induction bs generalizing start with
  | nil => simp
  | cons b bs ih =>
    obtain ⟨hb, hrest⟩ := List.forall_mem_cons.1 hbs
    rw [List.cons_append, literalBody, if_pos hb, ih hrest]
    simp

theorem literalBody_line {line : List Char} (hline : ∀ c ∈ line, isAnyBreak c = false)
    (cs : List Char) :
    literalBody indent false (line ++ cs) = line ++ literalBody indent false cs := by
  induction line with
  | nil => rfl
  | cons c line ih =>
    obtain ⟨hc, hrest⟩ := List.forall_mem_cons.1 hline
    rw [List.cons_append, literalBody, if_neg (by simp [hc]), ih hrest]
    rfl

theorem literalBody_start {c : Char} (hc : isAnyBreak c = false) (cs : List Char) :
    literalBody indent true (c :: cs) = spaces indent ++ literalBody indent false (c :: cs) := by
  simp [literalBody, hc]

theorem literalBody_concat {b : Char} (hb : isAnyBreak b = true) (start : Bool) (cs : List Char) :
    literalBody indent start (cs ++ [b]) = literalBody indent start cs ++ [b] := by
  induction cs generalizing start with
  | nil => simp [literalBody, hb]
  | cons c cs ih =>
    rw [List.cons_append, literalBody, literalBody]
    split
    · rw [ih, List.cons_append]
    · rw [ih, List.append_assoc, List.cons_append]

theorem length_le_literalBody (start : Bool) (cs : List Char) :
    cs.length ≤ (literalBody indent start cs).length := by
  induction cs generalizing start with
  | nil => exact Nat.zero_le _
  | cons c cs ih =>
    rw [literalBody]
    split
    · exact Nat.succ_le_succ (ih true)
    · have h := ih false
      simp only [List.length_append, List.length_cons]
      omega

theorem isPrintable_literalBody {cs : List Char} (hcs : ∀ c ∈ cs, isPrintable c = true)
    (start : Bool) : ∀ c ∈ literalBody indent start cs, isPrintable c = true := by
  induction cs generalizing start with
  | nil => exact fun c hc => absurd hc List.not_mem_nil
  | cons c cs ih =>
    obtain ⟨hc, hrest⟩ := List.forall_mem_cons.1 hcs
    rw [literalBody]
    split
    · exact List.forall_mem_cons.2 ⟨hc, ih hrest true⟩
    · intro x hx
      rcases List.mem_append.1 hx with hx | hx
      · cases start with
        | false => cases hx
        | true => exact isPrintable_spaces hx
      · rcases List.mem_cons.1 hx with rfl | hx
        · exact hc
        · exact ih hrest false x hx

end literalBody

/-! ## Margins -/

theorem skipMargin?_spaces {explicit : Option Nat} (n : Nat) (cs : List Char) (col : Nat)
    (hn : explicit.all (col + n ≤ ·) = true) (widest : Nat) (acc : List Char) :
    skipMargin? explicit (spaces n ++ cs) col widest acc =
      skipMargin? explicit cs (col + n) widest acc := by
  induction n generalizing col with
  | zero => rfl
  | succ n ih =>
    have hinside : explicit.all (fun m => decide (col < m)) = true := by
      cases explicit with
      | none => rfl
      | some m =>
        simp only [Option.all_some, decide_eq_true_eq] at hn ⊢
        omega
    have hcol : col + (n + 1) = col + 1 + n := by omega
    rw [hcol] at hn
    rw [spaces, List.replicate_succ, List.cons_append, ← spaces, skipMargin?,
      if_pos (by simp [hinside]), ih (col + 1) hn, hcol]

/-- Empty lines and the indentation after them are skipped, up to what ends them: a word, or, where
the indentation is known, anything in that column. -/
theorem skipMargin?_margin {explicit : Option Nat} {n : Nat} {bs cs : List Char}
    (hbs : ∀ b ∈ bs, isBreak b = true) (hn : explicit.all (n ≤ ·) = true)
    (hcs : ∀ c, cs.head? = some c →
      isBreak c = false ∧ c ≠ '\t' ∧ (c = ' ' → explicit = some n))
    (widest : Nat) (acc : List Char) :
    skipMargin? explicit (bs ++ (spaces n ++ cs)) 0 widest acc =
      some ⟨acc.reverse ++ bs, max widest n, n, cs⟩ := by
  induction bs generalizing widest acc with
  | nil =>
    rw [List.nil_append, skipMargin?_spaces n cs 0 (by simpa using hn), Nat.zero_add,
      List.append_nil]
    cases cs with
    | nil => rfl
    | cons c cs =>
      obtain ⟨hbreak, htab, hspace⟩ := hcs c rfl
      have hstop : (c == ' ' && explicit.all fun m => decide (n < m)) = false := by
        rw [Bool.and_eq_false_imp, beq_iff_eq]
        intro hc
        simp [hspace hc]
      rw [skipMargin?]
      simp [hstop, htab, hbreak]
  | cons b bs ih =>
    obtain ⟨hb, hrest⟩ := List.forall_mem_cons.1 hbs
    have hspace : (b == ' ') = false := by
      rw [beq_eq_false_iff_ne]
      rintro rfl
      exact absurd hb (by decide)
    have htab : (b == '\t') = false := by
      rw [beq_eq_false_iff_ne]
      rintro rfl
      exact absurd hb (by decide)
    rw [List.cons_append, skipMargin?]
    simp only [hspace, htab, hb, Bool.false_and, Bool.false_eq_true, if_false, if_true]
    rw [ih hrest]
    simp

/-! ## Lines -/

/-- A margin from which the core of a text is ahead: its first breaks are skipped, and what follows
them is written behind the indentation. `after` comes behind the text. -/
structure CoreAhead (indent : Nat) (core ending after : List Char) (margin : Margin) : Prop where
  breaks : ∀ b ∈ margin.breaks, isBreak b = true
  col : margin.col = indent
  words : ∃ c rest, core = margin.breaks ++ c :: rest ∧ isBreak c = false ∧
    margin.rest = literalBody indent false (c :: rest ++ ending) ++ after

section lines

variable {indent : Nat} {ending after : List Char}

theorem exists_split (p : Char → Bool) (cs : List Char) : ∃ xs ys, cs = xs ++ ys ∧
    (∀ x ∈ xs, p x = true) ∧ ∀ y, ys.head? = some y → p y = false := by
  refine ⟨cs.takeWhile p, cs.dropWhile p, List.takeWhile_append_dropWhile.symm,
    fun x hx => List.mem_takeWhile_imp hx, fun y hy => ?_⟩
  have h := List.head?_dropWhile_not p cs
  rw [hy] at h
  simpa using h

theorem isAnyBreak_of_isBreak {c : Char} (h : isBreak c = true) : isAnyBreak c = true := by
  simp [isAnyBreak, h]

theorem ne_tab_of_isPrintable {c : Char} (h : isPrintable c = true) : c ≠ '\t' := by
  rintro rfl
  exact absurd h (by decide)

/-- Where a text that has a word starts, its core is ahead. -/
theorem exists_ahead {core : List Char} (hcore : ∀ c ∈ core, isPrintable c = true)
    {last : Char} (hlast : core.getLast? = some last) (hword : isBreak last = false)
    {explicit : Option Nat} (hexplicit : explicit = some indent ∨ explicit = none ∧
      core.head?.any (fun c => c == ' ' || isAnyBreak c) = false) :
    ∃ margin, skipMargin? explicit (literalBody indent true (core ++ ending) ++ after) 0 0 [] =
        some margin ∧ margin.widest = indent ∧ CoreAhead indent core ending after margin := by
  obtain ⟨bs, words, rfl, hbs, hwords⟩ := exists_split isBreak core
  cases words with
  | nil =>
    rw [List.append_nil] at hlast
    have hbreak := hbs last (List.mem_of_getLast? hlast)
    rw [hword] at hbreak
    cases hbreak
  | cons c rest =>
    have hc : isBreak c = false := hwords c rfl
    have hprint : isPrintable c = true := hcore c (by simp)
    have hany : isAnyBreak c = false := (isAnyBreak_of_isPrintable hprint).trans hc
    refine ⟨⟨bs, max 0 indent, indent, literalBody indent false (c :: rest ++ ending) ++ after⟩, ?_,
      Nat.zero_max indent, ⟨hbs, rfl, c, rest, rfl, hc, rfl⟩⟩
    rw [List.append_assoc, literalBody_breaks indent (fun b hb => isAnyBreak_of_isBreak (hbs b hb)),
      Bool.true_or, List.cons_append, literalBody_start indent hany, List.append_assoc,
      List.append_assoc]
    refine skipMargin?_margin hbs ?_ (fun d hd => ?_) 0 []
    · rcases hexplicit with rfl | ⟨rfl, -⟩ <;> simp
    · have hd' : c = d := by simpa [literalBody, hany] using hd
      subst hd'
      refine ⟨hc, ne_tab_of_isPrintable hprint, fun hspace => ?_⟩
      rcases hexplicit with h | ⟨-, hhead⟩
      · exact h
      · -- Only a text that starts with a word goes without a mark.
        cases bs with
        | nil => simp [hspace] at hhead
        | cons b bs => simp [isAnyBreak_of_isBreak (hbs b (by simp))] at hhead

theorem blockLines?_done {fuel : Nat} {margin : Margin} (h : margin.col ≠ indent)
    (lead : List Char) (wasBlank : Bool) (acc : List Char) :
    blockLines? true indent fuel margin lead wasBlank acc = some (acc, lead, margin) := by
  cases fuel with
  | zero => rfl
  | succ fuel => rw [blockLines?, if_pos (by simp [h])]

/-- Behind a text the margin holds what is left of its breaks. -/
theorem skipMargin?_ending {n : Nat} {bs tail : List Char} (hbs : ∀ x ∈ bs, isBreak x = true)
    (hn : n < indent) (htail : StartsToken tail) :
    skipMargin? (some indent) (literalBody indent true bs ++ (spaces n ++ tail)) 0 0 [] =
      some ⟨bs, n, n, tail⟩ := by
  have hbody := literalBody_breaks indent (fun b hb => isAnyBreak_of_isBreak (hbs b hb)) true []
  rw [List.append_nil, literalBody, List.append_nil] at hbody
  rw [hbody, skipMargin?_margin hbs (by simp; omega) fun c hc => ?_]
  · simp
  · obtain ⟨hblank, hbreak, -⟩ := htail c hc
    simp only [isBlank, Bool.or_eq_false_iff, beq_eq_false_iff_ne] at hblank
    exact ⟨hbreak, hblank.2, fun h => absurd h hblank.1⟩

/-- A line is gathered with what was skipped before it. -/
theorem blockLines?_line {margin : Margin} (hcol : margin.col = indent) {line cs : List Char}
    {b : Char} (hne : line ≠ []) (hline : ∀ c ∈ line, isBreak c = false) (hb : isBreak b = true)
    (hrest : margin.rest = line ++ b :: cs) (fuel : Nat) (lead : List Char) (wasBlank : Bool)
    (acc : List Char) : ∃ blank, blockLines? true indent (fuel + 1) margin lead wasBlank acc =
      (skipMargin? (some indent) cs 0 0 []).bind fun next =>
        blockLines? true indent fuel next [b] blank (acc ++ lead ++ margin.breaks ++ line) := by
  have hline' : ∀ c ∈ line, (!isBreak c) = true := fun c hc => by simp [hline c hc]
  have htake : margin.rest.takeWhile (fun c => !isBreak c) = line := by
    rw [hrest, List.takeWhile_append_of_pos hline']
    simp [hb]
  have hdrop : margin.rest.dropWhile (fun c => !isBreak c) = b :: cs := by
    rw [hrest, List.dropWhile_append_of_pos hline']
    simp [hb]
  have hsome : margin.rest.isEmpty = false := by
    rw [hrest]
    cases line with
    | nil => exact absurd rfl hne
    | cons c line => rfl
  refine ⟨margin.rest.head?.any isBlank, ?_⟩
  rw [blockLines?, if_neg (by simp [hcol, hsome]), htake, hdrop]
  rfl

/-- The lines of the core are gathered. -/
theorem blockLines?_core {b : Char} {bs : List Char} {n : Nat} {tail : List Char}
    (hb : isBreak b = true) (hbs : ∀ x ∈ bs, isBreak x = true) (hn : n < indent)
    (htail : StartsToken tail) {last : Char} (hword : isBreak last = false) (fuel : Nat)
    {core : List Char} (hcore : ∀ c ∈ core, isPrintable c = true)
    (hlast : core.getLast? = some last) (hfuel : core.length ≤ fuel) {margin : Margin}
    (hmargin : CoreAhead indent core (b :: bs) (spaces n ++ tail) margin) (lead : List Char)
    (wasBlank : Bool) (acc : List Char) :
    blockLines? true indent fuel margin lead wasBlank acc =
      some (acc ++ lead ++ core, [b], ⟨bs, n, n, tail⟩) := by
  induction fuel generalizing core margin lead wasBlank acc with
  | zero =>
    rw [List.length_eq_zero_iff.1 (Nat.le_zero.1 hfuel)] at hlast
    cases hlast
  | succ fuel ih =>
    obtain ⟨hbreaks, hcol, c, rest, rfl, hc, hrest⟩ := hmargin
    obtain ⟨line, more, hsplit, hline, hmore⟩ := exists_split (fun c => !isBreak c) (c :: rest)
    have hnotBreak : ∀ x ∈ line, isBreak x = false := fun x hx => by simpa using hline x hx
    have hne : line ≠ [] := by
      rintro rfl
      have hhead := hmore c (by rw [List.nil_append] at hsplit; rw [← hsplit]; rfl)
      simp [hc] at hhead
    -- The line ends at its own break or, as the last one, at the first of those behind the core.
    obtain ⟨b', cs, hb', hcs⟩ : ∃ b' cs, isBreak b' = true ∧ more ++ b :: bs = b' :: cs := by
      cases more with
      | nil => exact ⟨b, bs, hb, rfl⟩
      | cons b' core' => exact ⟨b', core' ++ b :: bs, by simpa using hmore b' rfl, rfl⟩
    have hany : ∀ x ∈ line, isAnyBreak x = false := fun x hx => by
      rw [isAnyBreak_of_isPrintable (hcore x (by rw [hsplit]; simp [hx])), hnotBreak x hx]
    have hwritten : margin.rest =
        line ++ b' :: (literalBody indent true cs ++ (spaces n ++ tail)) := by
      rw [hrest, hsplit, List.append_assoc, hcs, literalBody_line indent hany, literalBody,
        if_pos (isAnyBreak_of_isBreak hb')]
      simp
    obtain ⟨blank, hscan⟩ := blockLines?_line hcol hne hnotBreak hb' hwritten fuel lead wasBlank acc
    rw [hscan]
    cases more with
    | nil =>
      obtain ⟨rfl, rfl⟩ := List.cons.inj hcs
      rw [skipMargin?_ending hbs hn htail, Option.bind_some,
        blockLines?_done (Nat.ne_of_lt hn), hsplit]
      simp
    | cons b'' core' =>
      rw [List.cons_append, List.cons.injEq] at hcs
      obtain ⟨rfl, rfl⟩ := hcs
      rw [hsplit] at hlast hfuel
      have hlast' : core'.getLast? = some last := by
        cases core' with
        | nil =>
          simp only [List.getLast?_append, List.getLast?_singleton, Option.some_or,
            Option.some.injEq] at hlast
          rw [← hlast, hb'] at hword
          cases hword
        | cons d ds => simpa [List.getLast?_append] using hlast
      have hlength : core'.length ≤ fuel := by
        simp only [List.length_append, List.length_cons] at hfuel
        omega
      obtain ⟨next, hnext, -, hahead⟩ :=
        exists_ahead (fun x hx => hcore x (by rw [hsplit]; simp [hx]))
        hlast' hword (Or.inl rfl)
      rw [hnext, Option.bind_some, ih (fun x hx => hcore x (by rw [hsplit]; simp [hx])) hlast'
        hlength hahead, hsplit]
      simp

/-- All lines are gathered: the core, and the breaks behind it, of which the first one ended the
last line of the core. -/
theorem exists_blockLines? {core : List Char} {b : Char} {bs : List Char} {n : Nat}
    {tail : List Char} (hcore : ∀ c ∈ core, isPrintable c = true)
    (hword : ∀ c, core.getLast? = some c → isBreak c = false)
    (hbs : ∀ x ∈ b :: bs, isBreak x = true) (hn : n < indent) (htail : StartsToken tail)
    {explicit : Option Nat} (hexplicit : explicit = some indent ∨ explicit = none ∧
      (core ++ b :: bs).head?.any (fun c => c == ' ' || isAnyBreak c) = false)
    {fuel : Nat} (hfuel : core.length ≤ fuel) :
    ∃ margin lead last, skipMargin? explicit
        (literalBody indent true (core ++ b :: bs) ++ (spaces n ++ tail)) 0 0 [] = some margin ∧
      (explicit = none → margin.widest = indent) ∧
      blockLines? true indent fuel margin [] false [] = some (core, lead, last) ∧
      lead ++ last.breaks = b :: bs ∧ (core ≠ [] → lead = [b]) ∧ last.rest = tail := by
  obtain ⟨hb, hbs'⟩ := List.forall_mem_cons.1 hbs
  cases hlast : core.getLast? with
  | none =>
    have hnil : core = [] := List.getLast?_eq_none_iff.1 hlast
    subst hnil
    have hsome : explicit = some indent := by
      refine hexplicit.resolve_right fun h => ?_
      simp [isAnyBreak_of_isBreak hb] at h
    rw [hsome]
    exact ⟨⟨b :: bs, n, n, tail⟩, [], _, skipMargin?_ending hbs hn htail, by simp,
      blockLines?_done (Nat.ne_of_lt hn) _ _ _, rfl, fun h => absurd rfl h, rfl⟩
  | some last =>
    have hhead : (core ++ b :: bs).head? = core.head? := by
      cases core with
      | nil => cases hlast
      | cons c cs => rfl
    rw [hhead] at hexplicit
    obtain ⟨margin, hmargin, hwidest, hahead⟩ :=
      exists_ahead hcore hlast (hword last hlast) hexplicit
    exact ⟨margin, [b], _, hmargin, fun _ => hwidest,
      blockLines?_core hb hbs' hn htail (hword last hlast) fuel hcore hlast hfuel hahead _ _ _, rfl,
      fun _ => rfl, rfl⟩

end lines

/-! ## Blocks -/

/-- The break that the line of a text needs behind it. -/
def lineEnd (cs : List Char) : List Char :=
  if cs.getLast?.any isAnyBreak then [] else ['\n']

/-- The mark tells what to keep of the breaks behind the text. -/
inductive Chomped : Chomp → List Char → Prop where
  | strip (cs : List Char) (last : Char) (hlast : isAnyBreak last = false) :
    Chomped .strip (cs ++ [last])
  | clip (cs : List Char) (last b : Char) (hlast : isAnyBreak last = false)
    (hb : isAnyBreak b = true) : Chomped .clip (cs ++ [last] ++ [b])
  | keep (cs : List Char) (b : Char) (hb : isAnyBreak b = true) : Chomped .keep (cs ++ [b])

theorem blockMarks?_literalMarks {cs : List Char} (hne : cs ≠ []) (rest : List Char) :
    ∃ chomp, Chomped chomp cs ∧ blockMarks? (literalMarks cs ++ '\n' :: rest) =
      some (chomp, if cs.head?.any (fun c => c == ' ' || isAnyBreak c) then some 2 else none,
        '\n' :: rest) := by
  have hread (loose : Bool) (mark : List Char) (chomp : Chomp)
      (hmark : mark = ['-'] ∧ chomp = .strip ∨ mark = ['+'] ∧ chomp = .keep ∨
        mark = [] ∧ chomp = .clip) :
      blockMarks? ((if loose then ['2'] else []) ++ mark ++ '\n' :: rest) =
        some (chomp, if loose then some 2 else none, '\n' :: rest) := by
    rcases hmark with ⟨rfl, rfl⟩ | ⟨rfl, rfl⟩ | ⟨rfl, rfl⟩ <;> cases loose <;> rfl
  obtain ⟨init, last, rfl⟩ := (List.eq_nil_or_concat' cs).resolve_left hne
  unfold literalMarks
  rw [List.reverse_concat']
  cases hlast : isAnyBreak last with
  | false => exact ⟨.strip, .strip init last hlast, hread _ _ _ (by simp [hlast])⟩
  | true =>
    cases hbefore : init.reverse.isEmpty || init.reverse.head?.any isAnyBreak with
    | true =>
      refine ⟨.keep, .keep init last hlast, hread _ _ _ (Or.inr (Or.inl ⟨?_, rfl⟩))⟩
      dsimp only
      rw [hlast, hbefore]
      rfl
    | false =>
      rw [Bool.or_eq_false_iff, List.isEmpty_reverse] at hbefore
      obtain ⟨pre, word, rfl⟩ := (List.eq_nil_or_concat' init).resolve_left fun h => by
        simp [h] at hbefore
      have hword : isAnyBreak word = false := by simpa using hbefore.2
      refine ⟨.clip, .clip pre word last hword hlast, hread _ _ _ (Or.inr (Or.inr ⟨?_, rfl⟩))⟩
      simp [hlast, hword]

/-- The text as lines, each with its break: what the mark keeps of the breaks behind the core makes
it the text again. -/
theorem exists_core {cs : List Char} {chomp : Chomp} (hchomp : Chomped chomp cs)
    (hcs : ∀ c ∈ cs, isPrintable c = true) :
    ∃ core b bs, cs ++ lineEnd cs = core ++ b :: bs ∧
      (∀ c, core.getLast? = some c → isBreak c = false) ∧ (∀ x ∈ b :: bs, isBreak x = true) ∧
      ∀ lead more : List Char, lead ++ more = b :: bs → (core ≠ [] → lead = [b]) →
        core ++ (match chomp with
          | .strip => []
          | .clip => lead
          | .keep => lead ++ more) = cs := by
  have hbreak (c : Char) (hc : c ∈ cs) := isAnyBreak_of_isPrintable (hcs c hc)
  cases hchomp with
  | strip init last hlast =>
    refine ⟨init ++ [last], '\n', [], by simp [lineEnd, hlast], fun c hc => ?_,
      List.forall_mem_singleton.2 (by decide),
      fun _ _ _ _ => List.append_nil _⟩
    have hc' : last = c := by simpa using hc
    rw [← hc', ← hbreak last (by simp), hlast]
  | clip init last b hlast hb =>
    refine ⟨init ++ [last], b, [], by simp [lineEnd, hb], fun c hc => ?_, ?_,
      fun lead _ _ h => by rw [h (by simp)]⟩
    · have hc' : last = c := by simpa using hc
      rw [← hc', ← hbreak last (by simp), hlast]
    · simpa [hb] using hbreak b (by simp)
  | keep init b hb =>
    obtain ⟨xs, ys, hsplit, hxs, hys⟩ := exists_split isBreak (init ++ [b]).reverse
    have hfull : init ++ [b] = ys.reverse ++ xs.reverse := by
      rw [← List.reverse_append, ← hsplit, List.reverse_reverse]
    have hne : xs ≠ [] := by
      rintro rfl
      have hfirst := hys b (by rw [List.nil_append] at hsplit; rw [← hsplit]; simp)
      rw [← hbreak b (by simp), hb] at hfirst
      cases hfirst
    obtain ⟨b', bs, hbs⟩ := List.exists_cons_of_ne_nil (mt List.reverse_eq_nil_iff.1 hne)
    refine ⟨ys.reverse, b', bs, ?_, fun c hc => hys c (by simpa using hc), fun x hx => hxs x ?_,
      fun lead more h _ => ?_⟩
    · rw [lineEnd, List.getLast?_concat, Option.any_some, if_pos hb, List.append_nil, hfull, hbs]
    · rwa [← hbs, List.mem_reverse] at hx
    · rw [h, hfull, hbs]

/-- **A text of several lines is read back from its block.** -/
theorem scanBlock?_text {cs : List Char} (hne : cs ≠ []) (hcs : ∀ c ∈ cs, isPrintable c = true)
    {floor n : Nat} (hfloor : 0 < floor) (hn : n < floor) {tail : List Char}
    (htail : StartsToken tail) :
    scanBlock? true floor (literalMarks cs ++ '\n' ::
      (literalBody (floor + 1) true cs ++ lineEnd cs ++ (spaces n ++ tail))) = some (cs, tail) := by
  obtain ⟨chomp, hchomp, hmarks⟩ := blockMarks?_literalMarks hne
    (literalBody (floor + 1) true cs ++ lineEnd cs ++ (spaces n ++ tail))
  obtain ⟨core, b, bs, hfull, hword, hbs, hending⟩ := exists_core hchomp hcs
  have hbody : literalBody (floor + 1) true cs ++ lineEnd cs =
      literalBody (floor + 1) true (core ++ b :: bs) := by
    rw [← hfull, lineEnd]
    split
    · rw [List.append_nil, List.append_nil]
    · rw [literalBody_concat _ (by decide)]
  have hcore : ∀ c ∈ core, isPrintable c = true := by
    intro c hc
    have hmem : c ∈ cs ++ lineEnd cs := hfull ▸ List.mem_append_left _ hc
    rcases List.mem_append.1 hmem with hmem | hmem
    · exact hcs c hmem
    · unfold lineEnd at hmem
      split at hmem
      · cases hmem
      · rw [List.mem_singleton.1 hmem]
        decide
  rw [hbody] at hmarks ⊢
  generalize hexplicit : (if cs.head?.any (fun c => c == ' ' || isAnyBreak c) then some 2
    else none : Option Nat).map (floor - 1 + ·) = explicit
  have hknown : explicit = some (floor + 1) ∨ explicit = none ∧
      (core ++ b :: bs).head?.any (fun c => c == ' ' || isAnyBreak c) = false := by
    have hhead : (core ++ b :: bs).head? = cs.head? := by
      rw [← hfull]
      cases cs with
      | nil => exact absurd rfl hne
      | cons c cs => rfl
    rw [hhead, ← hexplicit]
    split
    · refine Or.inl (congrArg some ?_)
      dsimp only
      omega
    · rename_i h
      exact Or.inr ⟨rfl, by simpa using h⟩
  have hfuel : core.length ≤
      (literalBody (floor + 1) true (core ++ b :: bs) ++ (spaces n ++ tail)).length := by
    have h := length_le_literalBody (floor + 1) true (core ++ b :: bs)
    simp only [List.length_append] at h ⊢
    omega
  obtain ⟨margin, lead, last, hmargin, hwidest, hlines, hkept, hlead, hrest⟩ :=
    exists_blockLines? hcore hword hbs (Nat.lt_succ_of_lt hn) htail hknown hfuel
  have hindent : explicit.getD (max (max margin.widest floor) 1) = floor + 1 := by
    rcases hknown with h | ⟨h, -⟩
    · rw [h, Option.getD_some]
    · rw [h, Option.getD_none, hwidest h]
      omega
  have hline : endLine? ('\n' :: (literalBody (floor + 1) true (core ++ b :: bs) ++
      (spaces n ++ tail))) =
        some (literalBody (floor + 1) true (core ++ b :: bs) ++ (spaces n ++ tail)) := rfl
  have htext := hending lead last.breaks hkept hlead
  simp only [scanBlock?, hmarks, hline, hexplicit, hmargin, hindent, hlines, hrest,
    Option.bind_eq_bind, Option.bind_some, Option.pure_def]
  exact congrArg (fun text => some (text, tail)) htext

end PointsTo.Yaml
