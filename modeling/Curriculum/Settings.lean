/-!
# Settings

What a planner may be told: how deep requisite text may nest, whether a change of plan also
recomputes the courses with credit rules over the subjects involved, and which log messages are
wanted. The nesting limit must be positive.
-/

namespace Curriculum

structure Settings where
  maxNestingDepth : UInt64 := 32
  widenCreditDependents : Bool := true
  logFilter : String := "info"
deriving DecidableEq

inductive SettingsError where
  /-- The document is no table of settings. -/
  | malformed
  | nestingDepthZero
deriving DecidableEq

def SettingsError.message : SettingsError → String
  | .malformed => "malformed config"
  | .nestingDepthZero => "invalid max_nesting_depth: must be at least 1"

/-- Accepts settings within their ranges. -/
def Settings.validate (s : Settings) : Except SettingsError Settings :=
  if s.maxNestingDepth = 0 then .error .nestingDepthZero else .ok s

/-- The nesting limit of the requisite reader. -/
def Settings.nestingLimit (s : Settings) : Nat := s.maxNestingDepth.toNat

end Curriculum
