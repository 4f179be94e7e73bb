import Curriculum.Planner

/-!
# Planner actions

The actions of a planner as data, so that a whole history is a list. A history goes on after an
action that fails, from the state it left untouched.
-/

namespace Curriculum

inductive PlannerAction where
  | createPlan (terms : List TermId)
  | deletePlan (plan : PlanId)
  | addCourses (plan : PlanId) (term : TermId) (ids : List CourseId)
  | deleteCourses (plan : PlanId) (ids : List CourseId)
  | moveCourses (plan : PlanId) (ids : List CourseId) (term : TermId)
  | reorderTerms (plan : PlanId) (terms : List TermId)
  | addEquivalence (plan : PlanId) (rule : EquivalenceRule)
  | removeEquivalence (plan : PlanId) (rule : EquivalenceRule)
  | recordTaken (ids : List CourseId)
  | forgetTaken (ids : List CourseId)

/-- What an action answers when it succeeds. -/
inductive PlannerReply where
  | created (plan : PlanId)
  | deleted (state : PlanState)
  | recomputed (affected : CourseSet)
  | done
deriving DecidableEq

namespace Planner

variable {W : Type} [CreditWeight W]

/-- Carries out an action. -/
def perform (p : Planner W) : PlannerAction → Except PlannerError (Planner W × PlannerReply)
  | .createPlan terms =>
    let (next, plan) := p.createPlan terms
    .ok (next, .created plan)
  | .deletePlan plan => (p.deletePlan plan).map fun (next, state) => (next, .deleted state)
  | .addCourses plan term ids =>
    (p.addCourses plan term ids).map fun (next, affected) => (next, .recomputed affected)
  | .deleteCourses plan ids =>
    (p.deleteCourses plan ids).map fun (next, affected) => (next, .recomputed affected)
  | .moveCourses plan ids term =>
    (p.moveCourses plan ids term).map fun (next, affected) => (next, .recomputed affected)
  | .reorderTerms plan terms =>
    (p.reorderTerms plan terms).map fun (next, affected) => (next, .recomputed affected)
  | .addEquivalence plan rule =>
    (p.addEquivalence plan rule).map fun (next, affected) => (next, .recomputed affected)
  | .removeEquivalence plan rule =>
    (p.removeEquivalence plan rule).map fun (next, affected) => (next, .recomputed affected)
  | .recordTaken ids => (p.recordTaken ids).map fun next => (next, .done)
  | .forgetTaken ids => (p.forgetTaken ids).map fun next => (next, .done)

/-- The planner after an action, which is the same one if the action fails. -/
def step (p : Planner W) (action : PlannerAction) : Planner W :=
  match p.perform action with
  | .ok (next, _) => next
  | .error _ => p

/-- The planner after a history of actions. -/
def run (p : Planner W) (actions : List PlannerAction) : Planner W := actions.foldl step p

end Planner

end Curriculum
