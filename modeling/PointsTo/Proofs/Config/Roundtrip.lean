import PointsTo.Config.Document
import PointsTo.Proofs.Yaml.Documents

/-!
# Configurations are read back from their text

A configuration is written with all its settings over its preset, so what is read back has to put
the same settings together again. The directory of reports is the one text in it that may be
anything.
-/

namespace PointsTo

open Yaml

namespace Yaml.Node

theorem optional?_scalar {α : Type} {style : Style} {s : String}
    (h : style = .plain → (s.isEmpty || isNull s) = false) (f : Node → Option α) :
    (Node.scalar {} style s).optional? f = (f (.scalar {} style s)).map some := by
  cases style with
  | plain => rw [Node.optional?, h rfl]; rfl
  | quoted | literal | folded => rfl

theorem optional?_mapping {α : Type} (props : Properties) (es : List (Node × Node))
    (f : Node → Option α) :
    (Node.mapping props es).optional? f = (f (.mapping props es)).map some := rfl

end Yaml.Node

namespace Config

/-! ## The lines of a configuration -/

/-- The directory of reports as it is written. -/
def dirEntry (r : ReportOptions) : Entry :=
  match r.dir with
  | some dir => ⟨"dir", (writeText 2 dir).toList, (form dir).style, dir⟩
  | none => .word "dir" "null"

def reportLines (r : ReportOptions) : Lines :=
  .entry (dirEntry r) <|
  .entry (.word "dot_graphs" (toString r.dotGraphs)) <|
  .last (.word "unhandled_funcs" (toString r.unhandledFuncs))

def settingLines (c : Config) : Lines :=
  .entry (.word "context_type" c.sensitivity.name) <|
  .entry (.word "k_limit" (toString c.kLimit)) <|
  .entry (.word "analysis_scale" c.scale.name) <|
  .entry (.word "pts_backing" c.backing.name) <|
  .heading "dump" (reportLines c.report)

def lines (c : Config) : Lines :=
  .entry (.word "version" "1") <|
  .entry (.word "preset" c.preset.name) <|
  .heading "pta" c.settingLines

theorem toList_toYaml (c : Config) : c.toYaml.toList = c.lines.body 0 := by
  obtain ⟨preset, sensitivity, kLimit, scale, backing, ⟨dir, dotGraphs, unhandledFuncs⟩⟩ := c
  cases dir <;>
    simp [toYaml, String.join, toList_entry, toList_heading, lines, settingLines, reportLines,
      dirEntry, Lines.body, Entry.line, Entry.word, spaces]

theorem readable_dirEntry (r : ReportOptions) : (dirEntry r).Readable 2 := by
  have hkey : IsKey "dir".toList := by decide
  unfold dirEntry
  cases r.dir with
  | some dir => exact ⟨hkey, reads_writeText 2 dir⟩
  | none => exact ⟨hkey, reads_word _ (by decide)⟩

theorem readable_lines (c : Config) : c.lines.Readable 0 := by
  have hpreset : ∀ p : Preset, IsWord p.name := by rintro (_ | _ | _) <;> decide
  have hsensitivity : ∀ s : Sensitivity, IsWord s.name := by rintro (_ | _ | _) <;> decide
  have hscale : ∀ s : Scale, IsWord s.name := by rintro (_ | _) <;> decide
  have hbacking : ∀ b : Backing, IsWord b.name := by rintro (_ | _) <;> decide
  have hbool : ∀ b : Bool, IsWord (toString b) := by rintro (_ | _) <;> decide
  have hkeys : IsKey "version".toList ∧ IsKey "preset".toList ∧ IsKey "pta".toList ∧
      IsKey "context_type".toList ∧ IsKey "k_limit".toList ∧ IsKey "analysis_scale".toList ∧
      IsKey "pts_backing".toList ∧ IsKey "dump".toList ∧ IsKey "dot_graphs".toList ∧
      IsKey "unhandled_funcs".toList := by decide
  obtain ⟨hversion, hpreset', hpta, hcontext, hk, hscale', hbacking', hdump, hgraphs, hfuncs⟩ :=
    hkeys
  exact ⟨⟨hversion, reads_word _ (by decide)⟩, ⟨hpreset', reads_word _ (hpreset _)⟩, hpta,
    ⟨hcontext, reads_word _ (hsensitivity _)⟩, ⟨hk, reads_word _ (isWord_toString _)⟩,
    ⟨hscale', reads_word _ (hscale _)⟩, ⟨hbacking', reads_word _ (hbacking _)⟩, hdump,
    readable_dirEntry _, ⟨hgraphs, reads_word _ (hbool _)⟩, ⟨hfuncs, reads_word _ (hbool _)⟩⟩

/-! ## From the nodes -/

/-- Only a text that stands for itself is written plain. -/
theorem isNull_form {s : String} (h : (form s).style = .plain) :
    (s.isEmpty || isNull s) = false := by
  have hform := writtenAs_form s
  generalize form s = f at h hform
  cases hform with
  | plain hother =>
    simp only [readsAsOther, Bool.or_eq_false_iff] at hother ⊢
    exact hother.1.1.1.1
  | single | double | literal => cases h

theorem ofNode?_report (root : Yaml.Node) (r : ReportOptions) :
    ReportOptions.ofNode? root (.mapping {} (reportLines r).nodes) = some r := by
  obtain ⟨dir, dotGraphs, unhandledFuncs⟩ := r
  have hbool (b : Bool) : Yaml.Node.bool? (.scalar {} .plain (toString b)) = some b := by
    cases b <;> rfl
  have hnull : (Yaml.Node.scalar {} .plain "null").optional? Yaml.Node.text? = some none := rfl
  have hdir (dir : String) := Yaml.Node.optional?_scalar (isNull_form (s := dir)) Yaml.Node.text?
  cases dir <;>
    simp [ReportOptions.ofNode?, reportLines, dirEntry, Lines.nodes, Entry.node, Entry.word,
      Yaml.Node.entries?, Yaml.Node.follow, Yaml.Node.text?, setting?, settingOr?, field?, hbool,
      hnull, hdir]

theorem isNull_toString (n : Nat) : ((toString n).isEmpty || isNull (toString n)) = false := by
  have hread := nat?_toString n
  generalize toString n = s at hread ⊢
  by_contra h
  simp only [isNull, Bool.not_eq_false, Bool.or_eq_true, beq_iff_eq, String.isEmpty_iff] at h
  rcases h with rfl | ((rfl | rfl) | rfl) | rfl <;> cases hread

theorem ofNode?_settings (root : Yaml.Node) (c : Config) (h : c.kLimit < 2 ^ 64) :
    Patch.ofNode? root (.mapping {} c.settingLines.nodes) = some c.toPatch := by
  have hk : Yaml.Node.optional? (Yaml.Node.natBelow? (1 <<< 64))
      (.scalar {} .plain (toString c.kLimit)) = some (some c.kLimit) := by
    have hread : Yaml.Node.natBelow? (1 <<< 64) (.scalar {} .plain (toString c.kLimit)) =
        some c.kLimit := by
      change (nat? (toString c.kLimit)).filter _ = _
      rw [nat?_toString]
      exact if_pos (decide_eq_true h)
    rw [Yaml.Node.optional?_scalar fun _ => isNull_toString _, hread]
    rfl
  have hsensitivity : Yaml.Node.optional? (Yaml.Node.choice? Sensitivity.ofName?)
      (.scalar {} .plain c.sensitivity.name) = some (some c.sensitivity) := by
    cases c.sensitivity <;> rfl
  have hscale : Yaml.Node.optional? (Yaml.Node.choice? Scale.ofName?)
      (.scalar {} .plain c.scale.name) = some (some c.scale) := by
    cases c.scale <;> rfl
  have hbacking : Yaml.Node.optional? (Yaml.Node.choice? Backing.ofName?)
      (.scalar {} .plain c.backing.name) = some (some c.backing) := by
    cases c.backing <;> rfl
  have hreport : Yaml.Node.optional? (ReportOptions.ofNode? root)
      (.mapping {} (reportLines c.report).nodes) = some (some c.report) := by
    rw [Yaml.Node.optional?_mapping, ofNode?_report]
    rfl
  simp [-Nat.reduceShiftLeft, -Nat.toString_eq_repr, Patch.ofNode?, Patch.keys, settingLines,
    Lines.nodes, Entry.node, Entry.word, Yaml.Node.entries?, Yaml.Node.follow, Yaml.Node.text?,
    setting?, field?, hk, hsensitivity, hscale, hbacking, hreport, toPatch]

theorem ofNode?_lines (c : Config) (h : c.kLimit < 2 ^ 64) :
    ConfigDocument.ofNode? (.mapping {} c.lines.nodes) =
      some { version := 1, preset := c.preset.name, patch := some c.toPatch } := by
  have hversion : Yaml.Node.natBelow? (1 <<< 32) (.scalar {} .plain "1") = some 1 := rfl
  have hpatch (root : Yaml.Node) : Yaml.Node.optional? (Patch.ofNode? root)
      (.mapping {} c.settingLines.nodes) = some (some c.toPatch) := by
    rw [Yaml.Node.optional?_mapping, ofNode?_settings root c h]
    rfl
  simp [-Nat.reduceShiftLeft, ConfigDocument.ofNode?, ConfigDocument.keys, lines, Lines.nodes,
    Entry.node, Entry.word, Yaml.Node.entries?, Yaml.Node.follow, Yaml.Node.text?, setting?, field?,
    hversion, hpatch]

/-! ## From the text -/

theorem parse_name (p : Preset) : Preset.parse p.name = .ok p := by
  cases p <;> decide

/-- **A configuration is read back from its text**, preset included, if it is valid; otherwise the
text is refused for what is wrong with the configuration. The limit is a machine word, as every
number in a text is. -/
theorem ofYaml_toYaml (c : Config) (h : c.kLimit < 2 ^ 64) :
    ofYaml c.toYaml = c.build ∧ ∀ hv : c.Valid, ofYaml c.toYaml = .ok ⟨c, hv⟩ := by
  have hread : ofYaml c.toYaml = c.build := by
    rw [ofYaml, read?_lines c.readable_lines c.toList_toYaml, Option.bind_some, ofNode?_lines c h]
    simp only [ConfigDocument.toConfig, parse_name, patch_toPatch]
    rfl
  refine ⟨hread, fun hv => ?_⟩
  rw [hread, build, dif_pos hv]

/-- Reports in a directory that is called like nothing at all, and after a break like a key. -/
def oddDir : Config :=
  { ofPreset .thorough with report := { dir := some "null\n: #", dotGraphs := true } }

theorem ofYaml_toYaml_oddDir : oddDir.kLimit < 2 ^ 64 ∧
    ofYaml oddDir.toYaml = oddDir.build ∧
      ∀ hv : oddDir.Valid, ofYaml oddDir.toYaml = .ok ⟨oddDir, hv⟩ :=
  have hk : oddDir.kLimit < 2 ^ 64 := by decide
  ⟨hk, ofYaml_toYaml oddDir hk⟩

end Config

end PointsTo
