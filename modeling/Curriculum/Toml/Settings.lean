import Curriculum.Toml.Reader
import Curriculum.Settings

/-!
# Settings from TOML

The root table of a document may hold the settings under their names, each of its own type. All
else in the document is passed over, so a table can hold what it likes.
-/

namespace Curriculum

namespace Toml

/-- The setting of a key, or its default; a value of another type is refused. -/
def setting? {α : Type} (entries : Entries) (key : String) (default : α)
    (read? : Toml → Option α) : Option α :=
  match get? entries key with
  | none => some default
  | some v => read? v

def toUInt64? : Toml → Option UInt64
  | .integer n => if 0 ≤ n ∧ n < 0x10000000000000000 then some (UInt64.ofNat n.toNat) else none
  | _ => none

def toBool? : Toml → Option Bool
  | .boolean b => some b
  | _ => none

def toString? : Toml → Option String
  | .string s => some s
  | _ => none

end Toml

namespace Settings

def ofToml? (entries : Toml.Entries) : Option Settings := do
  let usual : Settings := {}
  return {
    maxNestingDepth :=
      ← Toml.setting? entries "max_nesting_depth" usual.maxNestingDepth Toml.toUInt64?
    widenCreditDependents :=
      ← Toml.setting? entries "widen_credit_dependents" usual.widenCreditDependents Toml.toBool?
    logFilter := ← Toml.setting? entries "log_filter" usual.logFilter Toml.toString? }

/-- Reads settings from a document, and accepts them within their ranges. -/
def parseToml (text : String) : Except SettingsError Settings :=
  match (Toml.parse? text).bind ofToml? with
  | some settings => settings.validate
  | none => .error .malformed

end Settings

end Curriculum
