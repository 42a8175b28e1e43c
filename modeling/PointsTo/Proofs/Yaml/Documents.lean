import PointsTo.Proofs.Yaml.Lines

/-!
# Nodes are read back from their tokens

The reader is followed along the tokens of lines. It takes a token at least every four calls, so as
many steps as there are tokens are enough for the entries of a mapping.
-/

namespace PointsTo.Yaml

namespace Reading

variable {rest : List Token} {anchors : List (String × Nat)}
  (handles : List (String × List UInt8))

/-! ## One node -/

theorem run_expect (t : Token) :
    (expect t).run ⟨t :: rest, anchors⟩ = some ((), ⟨rest, anchors⟩) := by
  have hnext : (nextIn [t]).run ⟨t :: rest, anchors⟩ =
      some ([t].contains t, ⟨t :: rest, anchors⟩) := rfl
  simp [expect, hnext]
  rfl

theorem run_node_scalar (block sameColumn : Bool) (style : Style) (text : String) (n : Nat) :
    (node handles block sameColumn (n + 1)).run ⟨.scalar style text :: rest, anchors⟩ =
      some (.scalar {} style text, ⟨rest, anchors⟩) := by
  rfl

theorem run_node_mapping (sameColumn : Bool) (n : Nat) :
    (node handles true sameColumn (n + 1)).run ⟨.blockMapping :: rest, anchors⟩ =
      ((blockEntries handles n).run ⟨rest, anchors⟩).map fun r => (.mapping {} r.1, r.2) := by
  rw [node]
  simp [peek, properties, tag, anchor, drop]

theorem run_nodeUnless {ends : List Token} {t : Token} (ht : t ∉ ends)
    (block sameColumn : Bool) (n : Nat) :
    (nodeUnless handles block sameColumn ends (n + 1)).run ⟨t :: rest, anchors⟩ =
      (node handles block sameColumn n).run ⟨t :: rest, anchors⟩ := by
  have hnext : (nextIn ends).run ⟨t :: rest, anchors⟩ =
      some (ends.contains t, ⟨t :: rest, anchors⟩) := rfl
  rw [nodeUnless]
  simp [hnext, ht]

theorem run_entryValue {ends : List Token} {t : Token} (ht : t ∉ ends)
    (block : Bool) (n : Nat) :
    (entryValue handles block ends (n + 2)).run ⟨.value :: t :: rest, anchors⟩ =
      (node handles block block n).run ⟨t :: rest, anchors⟩ := by
  have hnext : (nextIn [.value]).run ⟨.value :: t :: rest, anchors⟩ =
      some (true, ⟨.value :: t :: rest, anchors⟩) := rfl
  rw [entryValue]
  simp [hnext, drop, run_nodeUnless handles ht]

/-! ## Mappings -/

/-- An entry is its key, its value and the entries after it. -/
theorem run_blockEntries_key (key : String) {t : Token} (ht : t ∉ [.key, .value, .blockEnd])
    (n : Nat) :
    (blockEntries handles (n + 3)).run
        ⟨[.key, .scalar .plain key, .value] ++ t :: rest, anchors⟩ =
      ((node handles true true n).run ⟨t :: rest, anchors⟩).bind fun r =>
        ((blockEntries handles (n + 2)).run r.2).map fun r' =>
          ((.scalar {} .plain key, r.1) :: r'.1, r'.2) := by
  have hnext : (nextIn [.blockEnd]).run
      ⟨.key :: .scalar .plain key :: .value :: t :: rest, anchors⟩ =
        some (false, ⟨.key :: .scalar .plain key :: .value :: t :: rest, anchors⟩) := rfl
  have hkey : (nodeUnless handles true true [.key, .value, .blockEnd] (n + 2)).run
      ⟨.scalar .plain key :: .value :: t :: rest, anchors⟩ =
        some (.scalar {} .plain key, ⟨.value :: t :: rest, anchors⟩) :=
    (run_nodeUnless handles (by simp) true true (n + 1)).trans
      (run_node_scalar handles true true .plain key n)
  have hvalue : (entryValue handles true [.key, .value, .blockEnd] (n + 2)).run
      ⟨.value :: t :: rest, anchors⟩ = (node handles true true n).run ⟨t :: rest, anchors⟩ :=
    run_entryValue handles ht true n
  rw [blockEntries]
  simp only [StateT.run_bind, List.cons_append, List.nil_append, hnext, Option.bind_eq_bind,
    Option.bind_some, Bool.false_eq_true, if_false, run_expect, hkey, hvalue, StateT.run_pure]
  simp only [Option.map_eq_bind]
  rfl

theorem run_blockEntries_entry (e : Entry) (n : Nat) :
    (blockEntries handles (n + 4)).run ⟨e.tokens ++ rest, anchors⟩ =
      ((blockEntries handles (n + 3)).run ⟨rest, anchors⟩).map fun r => (e.node :: r.1, r.2) := by
  have hvalue : Token.scalar e.style e.text ∉ [Token.key, .value, .blockEnd] := by simp
  refine (run_blockEntries_key handles e.key hvalue (n + 1)).trans ?_
  rw [run_node_scalar, Option.bind_some]
  rfl

theorem run_blockEntries_heading (key : String) (n : Nat) :
    (blockEntries handles (n + 4)).run
        ⟨[.key, .scalar .plain key, .value, .blockMapping] ++ rest, anchors⟩ =
      ((blockEntries handles n).run ⟨rest, anchors⟩).bind fun r =>
        ((blockEntries handles (n + 3)).run r.2).map fun r' =>
          ((.scalar {} .plain key, .mapping {} r.1) :: r'.1, r'.2) := by
  have hvalue : Token.blockMapping ∉ [Token.key, .value, .blockEnd] := by simp
  refine (run_blockEntries_key handles key hvalue (n + 1)).trans ?_
  rw [run_node_mapping, Option.bind_map]
  rfl

theorem run_blockEntries_end (n : Nat) :
    (blockEntries handles (n + 1)).run ⟨.blockEnd :: rest, anchors⟩ =
      some ([], ⟨rest, anchors⟩) := by
  rw [blockEntries]
  rfl

/-- **The entries of lines are read from their tokens.** -/
theorem run_blockEntries_lines (ls : Lines) {fuel : Nat} (hfuel : ls.tokens.length ≤ fuel) :
    (blockEntries handles fuel).run ⟨ls.tokens ++ rest, anchors⟩ =
      some (ls.nodes, ⟨rest, anchors⟩) := by
  induction ls generalizing fuel rest with
  | last e =>
    rw [Lines.tokens, List.length_append, Entry.length_tokens] at hfuel
    obtain ⟨n, rfl⟩ := Nat.exists_eq_add_of_le' (Nat.le_of_succ_le hfuel)
    rw [Lines.tokens, List.append_assoc, run_blockEntries_entry, List.singleton_append,
      run_blockEntries_end]
    rfl
  | entry e more ih =>
    rw [Lines.tokens, List.length_append, Entry.length_tokens] at hfuel
    obtain ⟨n, rfl⟩ := Nat.exists_eq_add_of_le' (Nat.le_of_add_right_le hfuel)
    rw [Lines.tokens, List.append_assoc, run_blockEntries_entry, ih (by omega)]
    rfl
  | heading key below ih =>
    simp only [Lines.tokens, List.length_append, List.length_cons, List.length_nil] at hfuel
    obtain ⟨n, rfl⟩ : ∃ n, fuel = n + 4 := ⟨fuel - 4, by omega⟩
    rw [Lines.tokens, List.append_assoc, List.append_assoc, run_blockEntries_heading,
      ih (by omega), Option.bind_some, List.singleton_append, run_blockEntries_end]
    rfl

/-! ## The document -/

/-- **The document of a mapping is read from its tokens.** -/
theorem run_onlyDocument_lines (ls : Lines) {fuel : Nat} (hfuel : ls.tokens.length < fuel) :
    (onlyDocument fuel).run ⟨.blockMapping :: ls.tokens, []⟩ =
      some (.mapping {} ls.nodes, ⟨[], []⟩) := by
  obtain ⟨n, rfl⟩ := Nat.exists_eq_add_of_lt hfuel
  have hroot : (document (ls.tokens.length + n + 1)).run ⟨.blockMapping :: ls.tokens, []⟩ =
      some (.mapping {} ls.nodes, ⟨[], []⟩) := by
    have hedge : atEdge.run ⟨.blockMapping :: ls.tokens, []⟩ =
        some (false, ⟨.blockMapping :: ls.tokens, []⟩) := rfl
    have hentries : (blockEntries Tag.standardHandles (ls.tokens.length + n)).run
        ⟨ls.tokens ++ [], []⟩ = some (ls.nodes, ⟨[], []⟩) :=
      run_blockEntries_lines _ ls (Nat.le_add_right _ n)
    rw [List.append_nil] at hentries
    simp [document, hedge, run_node_mapping, hentries]
  have hends : (documentEnds (ls.tokens.length + n + 1)).run ⟨[], []⟩ = some ((), ⟨[], []⟩) := by
    rw [documentEnds]
    rfl
  have hpeek : peek.run ⟨[], []⟩ = some (none, ⟨[], []⟩) := rfl
  simp [onlyDocument, hroot, hends, hpeek]

end Reading

/-! ## The text -/

theorem breaks_of_isPrintable {cs : List Char} (h : ∀ c ∈ cs, isPrintable c = true) :
    breaks cs = cs := by
  induction cs with
  | nil => rfl
  | cons c cs ih =>
    obtain ⟨hc, hrest⟩ := List.forall_mem_cons.1 h
    have hreturn : c ≠ '\r' := by
      rintro rfl
      exact absurd hc (by decide)
    have hnext : c ≠ '\u0085' := by
      rintro rfl
      exact absurd hc (by decide)
    rw [breaks]
    · rw [ih hrest, if_neg (by simp [hreturn, hnext])]
    · intro cs' hcs
      exact absurd hcs hreturn

theorem isAllowed_of_isPrintable {c : Char} (h : isPrintable c = true) : isAllowed c = true := by
  simp only [isPrintable, isAllowed, Bool.or_eq_true, Bool.and_eq_true, beq_iff_eq,
    decide_eq_true_eq, bne_iff_ne] at h ⊢
  omega

theorem isPrintable_lineEnd (cs : List Char) : ∀ c ∈ lineEnd cs, isPrintable c = true := by
  unfold lineEnd
  split
  · exact fun c hc => absurd hc List.not_mem_nil
  · exact List.forall_mem_singleton.2 (by decide)

theorem Entry.isPrintable_line {depth : Nat} {e : Entry} (h : e.Readable depth) :
    ∀ c ∈ e.line, isPrintable c = true := by
  simp only [Entry.line, List.mem_append, List.mem_cons]
  rintro c (hc | rfl | rfl | hc | hc)
  · exact isPrintable_of_isKey h.key c hc
  · decide
  · decide
  · exact h.value.printable c hc
  · exact isPrintable_lineEnd e.written c hc

theorem Lines.isPrintable_body {depth : Nat} {ls : Lines} (h : ls.Readable depth) :
    ∀ c ∈ ls.body depth, isPrintable c = true := by
  induction ls generalizing depth with
  | last e => exact Entry.isPrintable_line h
  | entry e more ih =>
    simp only [body, List.mem_append]
    rintro c (hc | hc | hc)
    · exact Entry.isPrintable_line h.1 c hc
    · exact isPrintable_spaces hc
    · exact ih h.2 c hc
  | heading key below ih =>
    simp only [body, List.mem_append, List.mem_cons]
    rintro c (hc | rfl | rfl | hc | hc)
    · exact isPrintable_of_isKey h.1 c hc
    · decide
    · decide
    · exact isPrintable_spaces hc
    · exact ih h.2 c hc

/-- **The document of a mapping is read from its text.** -/
theorem read?_lines {ls : Lines} (h : ls.Readable 0) {text : String}
    (htext : text.toList = ls.body 0) : read? text = some (.mapping {} ls.nodes) := by
  have hprint := Lines.isPrintable_body h
  have hallowed : (ls.body 0).all isAllowed = true :=
    List.all_eq_true.2 fun c hc => isAllowed_of_isPrintable (hprint c hc)
  have hfuel : ls.tokens.length < 4 * (Token.blockMapping :: ls.tokens).length + 4 := by
    rw [List.length_cons]
    omega
  have hread := Reading.run_onlyDocument_lines ls hfuel
  simp only [read?, htext, hallowed, breaks_of_isPrintable hprint, tokens?_lines h,
    StateT.run'_eq, Bool.not_true, Bool.false_eq_true, if_false, Option.bind_eq_bind,
    Option.bind_some, hread]
  rfl

end PointsTo.Yaml
