import Metasyntax.Catalog
import Metasyntax.Settings.Toml

/-!
# Settings

The options of a grammar as they are configured: defaults, over these the layers
of settings files, and over all a number of single settings.
-/

set_option autoImplicit false

namespace Metasyntax

structure Settings where
  firstMatchAlternation : Bool
  prose : ProseMode
  maxSize : Nat
  deriving DecidableEq, Repr

structure Layer where
  text : Option String
  optional : Bool

inductive SettingsError where
  /-- A key is no path. -/
  | path
  /-- A file that is required is missing. -/
  | missing
  /-- A file is malformed. -/
  | malformed
  /-- A value is of the wrong type. -/
  | type
  /-- The settings as a whole make no sense. -/
  | invalid
  deriving DecidableEq, Repr

namespace Settings

def defaults : Setting :=
  .table
    [("grammar", .table [("first_match_alternation", .flag false), ("prose", .text "reject")]),
     ("cache", .table [("max_size", .integer 10000)])]

def truthWord (text : String) : Option Bool :=
  let lowered := lowerText text
  if lowered ∈ ["true", "on", "yes"] then some true
  else if lowered ∈ ["false", "off", "no"] then some false
  else none

def toFlag : Setting → Except SettingsError Bool
  | .flag value => .ok value
  | .integer value => .ok (value ≠ 0)
  | .text text =>
    match truthWord text with
    | some value => .ok value
    | none => if text = "1" then .ok true else if text = "0" then .ok false else .error .type
  | _ => .error .type

def toCount : Setting → Except SettingsError Nat
  | .flag value => .ok (if value then 1 else 0)
  | .integer value => if 0 ≤ value then .ok value.toNat else .error .type
  | .text text =>
    match truthWord text with
    | some value => .ok (if value then 1 else 0)
    | none =>
      match readNumeral 10 (Nat.pow 2 64) text.toList with
      | some count => .ok count
      | none => .error .type
  | _ => .error .type

def proseNamed (name : String) : Except SettingsError ProseMode :=
  let lowered := lowerText name
  if lowered = "reject" then .ok .reject
  else if lowered = "placeholder" then .ok .placeholder
  else .error .invalid

def toProse : Setting → Except SettingsError ProseMode
  | .text text => proseNamed text
  | .table [(key, _)] => proseNamed key
  | _ => .error .invalid

def section? (root : Setting) (key : String) : Except SettingsError Setting :=
  match root.field? key with
  | some (.table fields) => .ok (.table fields)
  | _ => .error .invalid

def entry (table : Setting) (key : String) : Except SettingsError Setting :=
  match table.field? key with
  | some value => .ok value
  | none => .error .invalid

def ofSetting (root : Setting) : Except SettingsError Settings := do
  let grammar ← section? root "grammar"
  let firstMatchAlternation ← toFlag (← entry grammar "first_match_alternation")
  let prose ← toProse (← entry grammar "prose")
  let cache ← section? root "cache"
  let maxSize ← toCount (← entry cache "max_size")
  return { firstMatchAlternation, prose, maxSize }

def layFields (root : Setting) : List (String × Setting) → Setting
  | [] => root
  | (key, value) :: rest => layFields (root.put value ((parsePath key).getD [key])) rest

def layFile (root : Setting) (layer : Layer) : Except SettingsError Setting :=
  match layer.text with
  | none => if layer.optional then .ok root else .error .missing
  | some text =>
    match Toml.parse text with
    | some fields => .ok (layFields root fields)
    | none => .error .malformed

def load (files : List Layer) (overrides : List (String × Setting)) :
    Except SettingsError Settings := do
  let overrides ← overrides.mapM fun (key, value) =>
    match parsePath key with
    | some path => .ok (path, value)
    | none => .error SettingsError.path
  let root ← files.foldlM layFile defaults
  ofSetting (overrides.foldl (fun root (path, value) => root.put value path) root)

inductive OptionsError where
  | emptyCache
  deriving DecidableEq, Repr

def OptionsError.message : OptionsError → String
  | .emptyCache => "cache.max_size must be at least 1"

def toOptions (settings : Settings) : Except OptionsError Options :=
  match Capacity.ofNat? settings.maxSize with
  | some cacheSize => .ok ⟨settings.firstMatchAlternation, settings.prose, cacheSize⟩
  | none => .error .emptyCache

end Settings

end Metasyntax
