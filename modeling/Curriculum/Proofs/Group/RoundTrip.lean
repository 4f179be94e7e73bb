import Curriculum.Proofs.Group.Readable

/-!
# Written groups read back

The text of a legible group reads back to the simplified group, under any nesting limit that the
text keeps.
-/

namespace Curriculum

open ParseState (Reads)

theorem Node.exists_unskipped (n : Node) : ∃ c ∈ n.chars, isSkipped c = false := by
  cases n with
  | course id =>
      obtain ⟨a, b, c, d, hchars, ha, _⟩ := id.subject.exists_chars
      refine ⟨a, ?_, IsWordChar.not_isSkipped (Or.inl ha)⟩
      rw [Node.chars, CourseId.chars, hchars]
      exact List.mem_append_left _ List.mem_cons_self
  | group g =>
      refine ⟨'(', ?_, by decide⟩
      by_cases hempty : g = .empty
      · subst hempty
        rw [Node.chars]
        exact List.mem_cons_self
      · rw [Node.chars_group hempty]
        exact List.mem_cons_self

/-- A legible group does not read as a blank text. -/
theorem Group.Legible.exists_unskipped {g : Group} (h : g.Legible) :
    ∃ c ∈ g.chars, isSkipped c = false := by
  cases h with
  | empty =>
      rw [Group.chars]
      exact ⟨'(', List.mem_cons_self, by decide⟩
  | @credit rule _ =>
      refine ⟨'-', ?_, by decide⟩
      rw [Group.chars, CreditRule.chars_eq_chunks, CreditRule.chunks, List.tail_cons,
        List.flatMap_cons]
      exact List.mem_append_right _ (List.mem_append_left _ List.mem_cons_self)
  | @join c nodes hne _ =>
      cases nodes with
      | nil => exact absurd rfl hne
      | cons n rest =>
          obtain ⟨d, hmem, hd⟩ := n.exists_unskipped
          rw [Group.chars]
          split
          · cases n with
            | course id =>
                rw [Node.wrappedAll]
                exact ⟨'(', List.mem_cons_self, by decide⟩
            | group g =>
                rw [Node.wrappedAll]
                exact ⟨d, List.mem_append_left _ hmem, hd⟩
          · refine ⟨d, List.mem_append_left _ ?_, hd⟩
            cases rest with
            | nil =>
                rw [Node.separatedBy]
                exact hmem
            | cons m more =>
                rw [Node.separatedBy_cons_cons, List.append_assoc]
                exact List.mem_append_left _ hmem

theorem Group.parse_text_of_legible {g : Group} (h : g.Legible) {limit : Nat}
    (hdepth : parenDepth g.chars ≤ limit) : parse limit g.text = .ok g.simplify := by
  have hroom : HasRoom limit [] g.chars := by
    unfold HasRoom
    rw [List.length_nil, Int.ofNat_zero, Int.zero_add]
    exact hdepth
  -- The whole text fills the outermost level, which nothing encloses.
  obtain ⟨level, hreads, hends⟩ := Group.Legible.readable g h limit [] hroom
  obtain ⟨done, hflush, hfinish⟩ := hends g.chars.length
  obtain ⟨c, hmem, hc⟩ := h.exists_unskipped
  have hsome : ¬ g.chars.all isSkipped = true := by
    rw [List.all_eq_true]
    intro hall
    rw [hall c hmem] at hc
    cases hc
  have hrun : ParseState.initial.run limit 0 g.chars = .ok ⟨level, []⟩ := by
    have hrun := hreads 0 []
    rw [List.append_nil] at hrun
    exact hrun
  rw [parse, text, String.toList_ofList, if_neg hsome, hrun]
  change (level.flush g.chars.length >>= fun level => level.finish) = _
  rw [hflush]
  exact hfinish

/-- A legible group reads back simplified, and as it was if it had been simplified before. -/
theorem Group.parse_text {g : Group} (h : g.Legible) {limit : Nat}
    (hdepth : parenDepth g.text.toList ≤ limit) :
    parse limit g.text = .ok g.simplify ∧
      ∀ original : Group, g = original.simplify → parse limit g.text = .ok g := by
  rw [text, String.toList_ofList] at hdepth
  have hparse := parse_text_of_legible h hdepth
  refine ⟨hparse, fun original horiginal => ?_⟩
  rw [hparse, horiginal, Group.simplify_simplify]

namespace Sample

def math : CourseId :=
  ⟨⟨['M', 'A', 'T', 'H'], by decide⟩, ⟨240, by decide⟩, none⟩

/-- Children of every shape side by side: a course, a rule under a lone operator, a choice that may
be empty. -/
def sideBySide : Group :=
  .join .single
    [.course math, .group (.join .and [.group (.credit ⟨6, "34", [math.subject]⟩)]),
      .group (.join .or [.course math, .group .empty])]

theorem legible_math : (Node.course math).Legible :=
  .course ⟨by decide, by decide⟩

theorem legible_sideBySide : sideBySide.Legible := by
  have hrule : (Group.join .and [.group (.credit ⟨6, "34", [math.subject]⟩)]).Legible := by
    refine .join (List.cons_ne_nil _ _) ?_
    rw [List.forall_mem_singleton]
    exact .group (.credit ⟨by decide, by decide, by decide, by decide⟩)
  have hchoice : (Group.join .or [.course math, .group .empty]).Legible := by
    refine .join (List.cons_ne_nil _ _) ?_
    rw [List.forall_mem_cons, List.forall_mem_singleton]
    exact ⟨legible_math, .group .empty⟩
  refine .join (List.cons_ne_nil _ _) ?_
  rw [List.forall_mem_cons, List.forall_mem_cons, List.forall_mem_singleton]
  exact ⟨legible_math, .group hrule, .group hchoice⟩

end Sample

open Sample in
theorem Group.parse_text_sideBySide :
    sideBySide.Legible ∧ parenDepth sideBySide.text.toList ≤ 2 ∧
      parse 2 sideBySide.text = .ok sideBySide.simplify := by
  have hdepth : parenDepth sideBySide.text.toList ≤ 2 := by
    rw [Group.text, String.toList_ofList]
    decide +kernel
  exact ⟨legible_sideBySide, hdepth, (Group.parse_text legible_sideBySide hdepth).1⟩

end Curriculum
