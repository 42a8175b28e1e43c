import PointsTo.Context
import PointsTo.Sets.ObjSet
import PointsTo.Text.Blank

/-!
# Configuration

A configuration starts from a preset, of which single settings are then overridden. It is valid when
contexts are not too long and reports that are asked for have a place to go.
-/

namespace PointsTo

/-- How far calls are followed. -/
inductive Scale where
  | wholeProgram
  /-- Calls on objects are resolved in the first round only. -/
  | methodLevel
deriving DecidableEq, Repr

/-- A named starting point. -/
inductive Preset where
  | fast
  | balanced
  | thorough
deriving DecidableEq, Repr

/-- The reports written after an analysis. -/
structure ReportOptions where
  dir : Option String := none
  dotGraphs : Bool := false
  unhandledFuncs : Bool := false
deriving DecidableEq, Repr

/-- Whether a finished analysis writes reports by itself. -/
def ReportOptions.isEnabled (r : ReportOptions) : Bool :=
  r.dir.isSome && (r.dotGraphs || r.unhandledFuncs)

structure Config where
  preset : Preset
  sensitivity : Sensitivity
  /-- The length of contexts. -/
  kLimit : Nat
  scale : Scale
  backing : Backing
  report : ReportOptions := {}
deriving DecidableEq, Repr

/-- What can be wrong with a configuration or its text. -/
inductive ConfigError where
  | kLimitOutOfRange (found : Nat)
  | reportWithoutDir
  | unsupportedVersion (found : Nat)
  | unknownPreset (name : String)
  /-- The text is no YAML or not of the expected shape. -/
  | malformed
  /-- The text could not be had. -/
  | unreadable
deriving DecidableEq, Repr

/-! ## Names -/

namespace Preset

def all : List Preset := [fast, balanced, thorough]

def name : Preset → String
  | fast => "fast"
  | balanced => "balanced"
  | thorough => "thorough"

/-- Blanks around the name and the case of its letters do not matter. -/
def parse (s : String) : Except ConfigError Preset :=
  match all.find? fun p => p.name == Text.lowerAscii (Text.trim s) with
  | some p => .ok p
  | none => .error (.unknownPreset s)

end Preset

def Sensitivity.name : Sensitivity → String
  | callSite => "call_site"
  | object => "object"
  | function => "function"

def Sensitivity.ofName? (s : String) : Option Sensitivity :=
  [callSite, object, function].find? fun x => x.name == s

/-- The name in descriptions. -/
def Sensitivity.title : Sensitivity → String
  | callSite => "CallSite"
  | object => "Object"
  | function => "Function"

def Scale.name : Scale → String
  | wholeProgram => "whole_program"
  | methodLevel => "method_level"

def Scale.ofName? (s : String) : Option Scale :=
  [wholeProgram, methodLevel].find? fun x => x.name == s

/-- The name in descriptions. -/
def Scale.title : Scale → String
  | wholeProgram => "WholeProgram"
  | methodLevel => "MethodLevel"

def Backing.name : Backing → String
  | hash => "hash_set"
  | bits => "bit_vector"

def Backing.ofName? (s : String) : Option Backing :=
  [hash, bits].find? fun x => x.name == s

/-- The name in descriptions. -/
def Backing.title : Backing → String
  | hash => "HashSet"
  | bits => "BitVector"

/-! ## Messages -/

/-- The longest contexts that are accepted. -/
def Config.maxKLimit : Nat := 5

/-- What a user is told. Errors of reading have no text of their own. -/
def ConfigError.message : ConfigError → String
  | kLimitOutOfRange found =>
    "Invalid range for field 'k_limit': " ++ toString found ++ " not in 0..=" ++
      toString Config.maxKLimit ++
      ". Longer contexts explode the PAG; use object sensitivity for more precision"
  | reportWithoutDir =>
    "Conflicting PTA options: dump artifacts requested without an output directory. " ++
      "Fix: set dump.dir or disable dot_graphs/unhandled_funcs"
  | unsupportedVersion found =>
    "Unsupported configuration version " ++ toString found ++ ". Supported versions: 1"
  | unknownPreset name =>
    "Unknown preset '" ++ name ++ "'. Valid presets: fast, balanced, thorough"
  | malformed | unreadable => ""

/-! ## Configurations -/

namespace Config

def ofPreset : Preset → Config
  | .fast => { preset := .fast, sensitivity := .callSite, kLimit := 0, scale := .methodLevel,
               backing := .hash }
  | .balanced => { preset := .balanced, sensitivity := .callSite, kLimit := 1,
                   scale := .wholeProgram, backing := .hash }
  | .thorough => { preset := .thorough, sensitivity := .object, kLimit := 2, scale := .wholeProgram,
                   backing := .bits }

instance : Inhabited Config := ⟨ofPreset .balanced⟩

/-- Contexts are short enough, and reports have a directory. -/
def Valid (c : Config) : Prop :=
  c.kLimit ≤ maxKLimit ∧ (c.report.dotGraphs ∨ c.report.unhandledFuncs → c.report.dir.isSome)

instance (c : Config) : Decidable c.Valid :=
  inferInstanceAs (Decidable (_ ∧ _))

/-- The configuration itself if it is valid. A context that is too long is reported first. -/
def build (c : Config) : Except ConfigError { c : Config // c.Valid } :=
  if h : c.Valid then .ok ⟨c, h⟩
  else if c.kLimit ≤ maxKLimit then .error .reportWithoutDir
  else .error (.kLimitOutOfRange c.kLimit)

/-- One line about a configuration. -/
def describe (c : Config) : String :=
  "preset=" ++ c.preset.name ++ " context=" ++ c.sensitivity.title ++ " k=" ++ toString c.kLimit ++
    " scale=" ++ c.scale.title ++ " pts=" ++ c.backing.title

end Config

/-! ## Overrides -/

/-- The settings to override; what is missing stays as it is. -/
structure Patch where
  sensitivity : Option Sensitivity := none
  kLimit : Option Nat := none
  scale : Option Scale := none
  backing : Option Backing := none
  report : Option ReportOptions := none
deriving DecidableEq, Repr

namespace Config

def patch (c : Config) (p : Patch) : Config :=
  { c with
    sensitivity := p.sensitivity.getD c.sensitivity
    kLimit := p.kLimit.getD c.kLimit
    scale := p.scale.getD c.scale
    backing := p.backing.getD c.backing
    report := p.report.getD c.report }

/-- The override of every setting. -/
def toPatch (c : Config) : Patch :=
  { sensitivity := some c.sensitivity
    kLimit := some c.kLimit
    scale := some c.scale
    backing := some c.backing
    report := some c.report }

theorem patch_toPatch (c : Config) (p : Preset) :
    (ofPreset p).patch c.toPatch = { c with preset := p } := by
  cases p <;> rfl

end Config

end PointsTo
