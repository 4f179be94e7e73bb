import Std.Data.ExtTreeMap.Basic
import Curriculum.Text.Quoted
import Curriculum.Requirement

/-!
# Catalog

The catalog knows the credits and the requisites of each course. It is filled from records in
which everything is text; a record whose id is no course id is refused, while a malformed
requisite field only drops out of its record. The last record of a course wins.

Credits are counted in any kind of number that has the operations of `CreditWeight`.
-/

namespace Curriculum

/-- What counting credits asks of the numbers it is done in. -/
class CreditWeight (W : Type) where
  zero : W
  add : W → W → W
  /-- The sum is at least the number of credits required. -/
  reaches : W → UInt32 → Bool

instance : CreditWeight Float where
  zero := 0
  add := (· + ·)
  reaches sum required := Float.ofNat required.toNat ≤ sum

/-- A course as it is delivered. -/
structure CourseRecord (W : Type) where
  id : String
  credits : W
  prerequisites : Option String
  corequisites : Option String
  restrictions : Option String

structure CourseEntry (W : Type) where
  id : CourseId
  credits : W
  requisites : Requisites

inductive CatalogError where
  /-- The document is no list of records. -/
  | malformed
  | invalidId (raw : String) (cause : CourseIdError)
deriving DecidableEq

def CatalogError.message : CatalogError → String
  | .malformed => "malformed catalog"
  | .invalidId raw cause => s!"invalid course id {Text.quoted raw}: {cause.message}"

structure Catalog (W : Type) where
  entries : Std.ExtTreeMap CourseId (CourseEntry W)

namespace Catalog

variable {W : Type}

def empty : Catalog W := ⟨∅⟩

def insert (c : Catalog W) (entry : CourseEntry W) : Catalog W :=
  ⟨c.entries.insert entry.id entry⟩

def get? (c : Catalog W) (id : CourseId) : Option (CourseEntry W) := c.entries[id]?

def requisites? (c : Catalog W) (id : CourseId) : Option Requisites :=
  (c.get? id).map CourseEntry.requisites

/-- Some requisite field of the course names the target. -/
def references (c : Catalog W) (id target : CourseId) : Bool :=
  (c.requisites? id).any (·.references target)

/-- A course that is not in the catalog weighs nothing. -/
def credits [CreditWeight W] (c : Catalog W) (id : CourseId) : W :=
  ((c.get? id).map CourseEntry.credits).getD CreditWeight.zero

/-- The entry of a record, whose texts may nest parentheses `limit` deep. -/
def entryOf (limit : Nat) (record : CourseRecord W) : Except CatalogError (CourseEntry W) :=
  match CourseId.parse record.id with
  | .error cause => .error (.invalidId record.id cause)
  | .ok id =>
    let fields := Requisites.parseFields limit record.prerequisites record.corequisites
      record.restrictions
    .ok ⟨id, record.credits, fields.1⟩

/-- Enters a record, and tells the id that it got. -/
def ingest (c : Catalog W) (limit : Nat) (record : CourseRecord W) :
    Except CatalogError (CourseId × Catalog W) :=
  (entryOf limit record).map fun entry => (entry.id, c.insert entry)

/-- Enters all records, unless the id of one is invalid. -/
def ofRecords (limit : Nat) (records : List (CourseRecord W)) :
    Except CatalogError (Catalog W) :=
  records.foldlM (fun c record => (c.ingest limit record).map Prod.snd) empty

def size (c : Catalog W) : Nat := c.entries.size

def isEmpty (c : Catalog W) : Bool := c.entries.isEmpty

/-- The entries in id order. -/
def toList (c : Catalog W) : List (CourseEntry W) := c.entries.values

end Catalog

end Curriculum
