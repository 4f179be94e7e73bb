import Curriculum.Proofs.Course.WordChar

/-!
# Parts of a multi-term course

The part before and the part after undo each other.
-/

namespace Curriculum

namespace TermSuffix

variable {s t : TermSuffix}

theorem ofParts?_eq_some_iff {letter : Char} {part : Nat} :
    ofParts? letter part = some t ↔ t.letter = letter.toUpper ∧ t.part = part := by
  unfold ofParts?
  split
  next h =>
    rw [Option.some.injEq]
    constructor
    · rintro rfl
      exact ⟨rfl, rfl⟩
    · rintro ⟨hletter, rfl⟩
      cases t
      simp_all
  next h =>
    refine ⟨nofun, ?_⟩
    rintro ⟨hletter, rfl⟩
    exact absurd ⟨hletter ▸ t.letter_isUpper, t.part_pos, t.part_le⟩ h

theorem ofParts?_eq_some {part : Nat} :
    ofParts? s.letter part = some t ↔ t.letter = s.letter ∧ t.part = part := by
  rw [ofParts?_eq_some_iff, IsWordChar.toUpper (Or.inl s.letter_isUpper)]

theorem predecessor?_eq_some : t.predecessor? = some s ↔ s.successor? = some t := by
  have hpos := s.part_pos
  rw [predecessor?, successor?, ofParts?_eq_some, ofParts?_eq_some, eq_comm (a := s.letter)]
  refine and_congr_right fun _ => ?_
  omega

end TermSuffix

theorem CourseId.predecessorPart?_eq_some {id part : CourseId} :
    id.predecessorPart? = some part ↔ part.successorPart? = some id := by
  obtain ⟨subject, number, suffix⟩ := id
  obtain ⟨subject', number', suffix'⟩ := part
  simp only [predecessorPart?, successorPart?, withSuffix, Option.map_eq_some_iff,
    Option.bind_eq_some_iff, CourseId.mk.injEq]
  constructor
  · rintro ⟨s, ⟨t, rfl, hbefore⟩, rfl, rfl, rfl⟩
    exact ⟨t, ⟨s, rfl, TermSuffix.predecessor?_eq_some.1 hbefore⟩, rfl, rfl, rfl⟩
  · rintro ⟨s, ⟨t, rfl, hafter⟩, rfl, rfl, rfl⟩
    exact ⟨t, ⟨s, rfl, TermSuffix.predecessor?_eq_some.2 hafter⟩, rfl, rfl, rfl⟩

end Curriculum
