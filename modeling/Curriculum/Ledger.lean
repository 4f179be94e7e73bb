import Std.Data.ExtTreeMap.Basic
import Curriculum.Course.Id

/-!
# Ledger of completed courses

Completed courses are kept subject by subject, each list in the order of recording.
-/

namespace Curriculum

structure Ledger where
  bySubject : Std.ExtTreeMap SubjectCode (List CourseId)
deriving DecidableEq

namespace Ledger

def empty : Ledger := ⟨∅⟩

/-- The completed courses of a subject in the order of recording. -/
def ofSubject (l : Ledger) (subject : SubjectCode) : List CourseId :=
  l.bySubject[subject]?.getD []

def contains (l : Ledger) (id : CourseId) : Bool := (l.ofSubject id.subject).contains id

/-- Records a course, and tells whether it is new. -/
def record (l : Ledger) (id : CourseId) : Bool × Ledger :=
  if l.contains id then (false, l)
  else (true, ⟨l.bySubject.insert id.subject (l.ofSubject id.subject ++ [id])⟩)

/-- Forgets a course, and tells whether it was there. -/
def forget (l : Ledger) (id : CourseId) : Bool × Ledger :=
  let kept := (l.ofSubject id.subject).filter (· != id)
  (l.contains id,
    if kept.isEmpty then ⟨l.bySubject.erase id.subject⟩
    else ⟨l.bySubject.insert id.subject kept⟩)

def ofList (ids : List CourseId) : Ledger := ids.foldl (fun l id => (l.record id).2) empty

/-- Every completed course, subject by subject. -/
def toList (l : Ledger) : List CourseId := l.bySubject.values.flatten

def size (l : Ledger) : Nat := l.toList.length

def isEmpty (l : Ledger) : Bool := l.bySubject.isEmpty

end Ledger

end Curriculum
