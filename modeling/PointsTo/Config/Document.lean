import PointsTo.Config.Basic
import PointsTo.Yaml.Reader
import PointsTo.Yaml.Writer

/-!
# Configurations as text

A configuration document names its version and its preset, and may override settings under `pta`.
Reading checks in this order: that the text is YAML of this shape, that the version is known, that
the preset exists, and that the result is valid. Keys may come in any order but only once; keys
that mean nothing are refused, except among the report options.
-/

namespace PointsTo

namespace Yaml.Node

/-- The text of a scalar, in whatever form. -/
def text? : Node → Option String
  | scalar _ _ s => some s
  | _ => none

/-- The text of a scalar that can stand for what tag `t` names: a plain scalar, whatever its tag, or
a literal block with just that tag. -/
def valueText? (t : Tag) : Node → Option String
  | scalar _ .plain s => some s
  | scalar props .literal s => if props.tag == some t then some s else none
  | _ => none

def bool? (n : Node) : Option Bool :=
  (n.valueText? Tag.bool).bind Yaml.bool?

/-- A whole number below a bound. -/
def natBelow? (bound : Nat) (n : Node) : Option Nat :=
  (n.valueText? Tag.int).bind (Yaml.natBelow? bound)

/-- Nothing, or something that `f` can read. Only plain scalars stand for nothing; with a tag they
do so only if it is the tag of nothing, and then they have to. -/
def optional? {α : Type} (f : Node → Option α) (n : Node) : Option (Option α) :=
  match n with
  | scalar props .plain s =>
    match props.tag with
    | none => if s.isEmpty || isNull s then some none else (f n).map some
    | some t =>
      if t != Tag.null then (f n).map some
      else if isNull s then some none
      else none
  | _ => (f n).map some

/-- One of several names: a scalar, or the tag of a plain scalar that stands for nothing. -/
def choice? {α : Type} (ofName? : String → Option α) : Node → Option α
  | scalar props style s =>
    match props.tag.bind Tag.localName? with
    | some name => if style == .plain && (s.isEmpty || isNull s) then ofName? name else none
    | none => ofName? s
  | _ => none

/-- The entries of a mapping in `root`, the keys of which are texts. -/
def entries? (root : Node) : Node → Option (List (String × Node))
  | mapping _ es => es.mapM fun (k, v) => (root.follow k).text?.map fun key => (key, root.follow v)
  | scalar _ .plain "" => some []
  | _ => none

end Yaml.Node

/-- The value of a key that may occur once at most; nothing when it is missing. -/
def Yaml.field? (entries : List (String × Node)) (key : String) : Option (Option Node) :=
  match entries.filter fun e => e.1 == key with
  | [] => some none
  | [(_, v)] => some (some v)
  | _ => none

/-- An optional setting: missing, nothing, or something that `f` can read. -/
def Yaml.setting? {α : Type} (entries : List (String × Node)) (key : String)
    (f : Node → Option α) : Option (Option α) :=
  match field? entries key with
  | none => none
  | some none => some none
  | some (some v) => v.optional? f

/-- A setting with a default that has to be readable if it is there. -/
def Yaml.settingOr? {α : Type} (entries : List (String × Node)) (key : String) (default : α)
    (f : Node → Option α) : Option α :=
  match field? entries key with
  | none => none
  | some none => some default
  | some (some v) => f v

namespace ReportOptions

def ofNode? (root n : Yaml.Node) : Option ReportOptions := do
  let es ← root.entries? n
  let dir ← Yaml.setting? es "dir" Yaml.Node.text?
  let dotGraphs ← Yaml.settingOr? es "dot_graphs" false Yaml.Node.bool?
  let unhandledFuncs ← Yaml.settingOr? es "unhandled_funcs" false Yaml.Node.bool?
  return { dir, dotGraphs, unhandledFuncs }

end ReportOptions

namespace Patch

def keys : List String :=
  ["context_type", "k_limit", "analysis_scale", "pts_backing", "dump"]

def ofNode? (root n : Yaml.Node) : Option Patch := do
  let es ← root.entries? n
  if !es.all fun e => keys.contains e.1 then failure
  let sensitivity ← Yaml.setting? es "context_type" (Yaml.Node.choice? Sensitivity.ofName?)
  let kLimit ← Yaml.setting? es "k_limit" (Yaml.Node.natBelow? (1 <<< 64))
  let scale ← Yaml.setting? es "analysis_scale" (Yaml.Node.choice? Scale.ofName?)
  let backing ← Yaml.setting? es "pts_backing" (Yaml.Node.choice? Backing.ofName?)
  let report ← Yaml.setting? es "dump" (ReportOptions.ofNode? root)
  return { sensitivity, kLimit, scale, backing, report }

end Patch

/-- What a configuration document says, before any of it is checked. -/
structure ConfigDocument where
  version : Nat
  preset : String
  patch : Option Patch := none

namespace ConfigDocument

def keys : List String := ["version", "preset", "pta"]

def ofNode? (n : Yaml.Node) : Option ConfigDocument := do
  let es ← n.entries? n
  if !es.all fun e => keys.contains e.1 then failure
  let version ← (← Yaml.field? es "version").bind (Yaml.Node.natBelow? (1 <<< 32))
  let preset ← (← Yaml.field? es "preset").bind Yaml.Node.text?
  let patch ← Yaml.setting? es "pta" (Patch.ofNode? n)
  return { version, preset, patch }

/-- The configuration that the document describes. -/
def toConfig (d : ConfigDocument) : Except ConfigError { c : Config // c.Valid } := do
  if d.version ≠ 1 then throw (.unsupportedVersion d.version)
  let preset ← Preset.parse d.preset
  let config := Config.ofPreset preset
  match d.patch with
  | some p => (config.patch p).build
  | none => config.build

end ConfigDocument

namespace Config

/-- Reads a configuration. -/
def ofYaml (text : String) : Except ConfigError { c : Config // c.Valid } :=
  match (Yaml.read? text).bind ConfigDocument.ofNode? with
  | some d => d.toConfig
  | none => .error .malformed

/-- Reads a configuration from a file, of which the text may be missing. -/
def ofYamlFile (text : Option String) : Except ConfigError { c : Config // c.Valid } :=
  match text with
  | some s => ofYaml s
  | none => .error .unreadable

/-- Writes a configuration with all its settings. -/
def toYaml (c : Config) : String :=
  String.join [
    Yaml.entry 0 "version" "1",
    Yaml.entry 0 "preset" c.preset.name,
    Yaml.heading 0 "pta",
    Yaml.entry 1 "context_type" c.sensitivity.name,
    Yaml.entry 1 "k_limit" (toString c.kLimit),
    Yaml.entry 1 "analysis_scale" c.scale.name,
    Yaml.entry 1 "pts_backing" c.backing.name,
    Yaml.heading 1 "dump",
    Yaml.entry 2 "dir" (match c.report.dir with
      | some dir => Yaml.writeText 2 dir
      | none => "null"),
    Yaml.entry 2 "dot_graphs" (toString c.report.dotGraphs),
    Yaml.entry 2 "unhandled_funcs" (toString c.report.unhandledFuncs)]

end Config

end PointsTo
