import Curriculum.Proofs.Planner.WithoutRules
import Curriculum.Proofs.Verdict.Walks

/-!
# Orders that are left open

The planned courses of a subject are kept in a set, and the set comes with an order in which they
are met. It keeps that order for as long as it is there; which one it gets, no action says. So an
action may leave more than one planner and a history may lead to more than one. They differ in how
they walk, and if credits can be taken away from a count, in verdicts too.
-/

namespace Curriculum

namespace Planner

variable {W : Type} {p q : Planner W} {plan : PlanId} {id : CourseId}

/-- The course is planned in the plan. -/
def Plans (p : Planner W) (plan : PlanId) (id : CourseId) : Prop :=
  ∃ s, p.plans[plan]? = some s ∧ s.graph.contains id = true

/-- The planners differ at most in how they walk sets that are not there. -/
structure Rewalked (p q : Planner W) : Prop where
  same : q = { p with walks := q.walks }
  walks : ∀ plan id, p.Plans plan id →
    (q.walks plan).list id.subject = (p.walks plan).list id.subject

/-- What an action may leave, as a set that comes to be may get any order. -/
def MayLeave [CreditWeight W] (p : Planner W) (action : PlannerAction) (last : Planner W) : Prop :=
  ∃ q next reply, p.Rewalked q ∧ q.perform action = .ok (next, reply) ∧ next.Rewalked last

/-- What a history may lead to. -/
inductive MayReach [CreditWeight W] (p : Planner W) : List PlannerAction → Planner W → Prop
  | start : MayReach p [] p
  | step {done : List PlannerAction} {q q' : Planner W} (action : PlannerAction)
    (hreach : MayReach p done q) (hwalk : q.Rewalked q') :
    MayReach p (done ++ [action]) (q'.step action)

namespace Rewalked

theorem refl (p : Planner W) : p.Rewalked p :=
  ⟨rfl, fun _ _ _ => rfl⟩

theorem frame (h : p.Rewalked q) :
    q.settings = p.settings ∧ q.catalog = p.catalog ∧ q.plans = p.plans := by
  rw [h.same]
  exact ⟨rfl, rfl, rfl⟩

theorem plans_iff (h : p.Rewalked q) : q.Plans plan id ↔ p.Plans plan id := by
  rw [Plans, Plans, h.frame.2.2]

end Rewalked

variable [CreditWeight W] {actions : List PlannerAction}

theorem walks_perform {action : PlannerAction} {reply : PlannerReply}
    (h : p.perform action = .ok (q, reply)) : q.walks = p.walks := by
  rw [← step_of_ok h, (step_frame p action).2.2]

/-- A set that is there before and afterwards keeps its order. -/
theorem MayLeave.walks {action : PlannerAction} (h : p.MayLeave action q) (hp : p.Plans plan id)
    (hq : q.Plans plan id) :
    (q.walks plan).list id.subject = (p.walks plan).list id.subject := by
  obtain ⟨start, next, reply, hstart, hperform, hlast⟩ := h
  rw [hlast.walks plan id (hlast.plans_iff.1 hq), walks_perform hperform,
    hstart.walks plan id hp]

theorem MayLeave.frame {action : PlannerAction} (h : p.MayLeave action q) :
    q.settings = p.settings ∧ q.catalog = p.catalog := by
  obtain ⟨start, next, reply, hstart, hperform, hlast⟩ := h
  obtain ⟨hsettings, hcatalog, _⟩ := hstart.frame
  obtain ⟨hsettings', hcatalog', _⟩ := hlast.frame
  rw [hsettings', hcatalog', ← step_of_ok hperform, (step_frame _ _).1, (step_frame _ _).2.1]
  exact ⟨hsettings, hcatalog⟩

theorem MayReach.frame (h : p.MayReach actions q) :
    q.settings = p.settings ∧ q.catalog = p.catalog := by
  induction h with
  | start => exact ⟨rfl, rfl⟩
  | step action _ hwalk ih =>
      obtain ⟨hsettings, hcatalog, _⟩ := hwalk.frame
      rw [(step_frame _ action).1, (step_frame _ action).2.1, hsettings, hcatalog]
      exact ih

/-! ## Stored verdicts -/

namespace RuleFree

end RuleFree

end Planner

end Curriculum
