import Std.Data.ExtTreeMap.Basic

/-!
# Terms and their order

A plan names its terms as it likes. The term order gives terms their positions in time; only
terms with a position can hold courses whose verdicts are wanted.
-/

namespace Curriculum

structure TermId where
  text : String
deriving DecidableEq

namespace TermId

instance : Ord TermId := ⟨compareOn text⟩

instance : Std.TransOrd TermId := inferInstanceAs (Std.TransCmp (compareOn text))

instance : Std.LawfulEqOrd TermId where
  eq_of_compare {a b} h := by
    have htext : a.text = b.text := Std.LawfulEqOrd.eq_of_compare h
    cases a
    cases b
    simpa using htext

end TermId

structure TermOrder where
  positions : Std.ExtTreeMap TermId Int32
deriving DecidableEq

namespace TermOrder

def empty : TermOrder := ⟨∅⟩

/-- Gives a term a position, in place of any it had. -/
def withPosition (o : TermOrder) (term : TermId) (position : Int32) : TermOrder :=
  ⟨o.positions.insert term position⟩

def position? (o : TermOrder) (term : TermId) : Option Int32 := o.positions[term]?

def size (o : TermOrder) : Nat := o.positions.size

def isEmpty (o : TermOrder) : Bool := o.positions.isEmpty

/-- Numbers terms from zero in the order given. A term listed again keeps its position. -/
def ofTerms (terms : List TermId) : TermOrder :=
  terms.foldl
    (fun o term =>
      if (o.position? term).isSome then o else o.withPosition term (Int32.ofNat o.size))
    empty

/-- The terms from the earliest to the latest. -/
def terms (o : TermOrder) : List TermId :=
  (o.positions.toList.mergeSort fun a b => decide (a.2 ≤ b.2)).map Prod.fst

end TermOrder

end Curriculum
