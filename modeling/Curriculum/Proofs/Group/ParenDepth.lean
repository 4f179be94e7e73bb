/-!
# Depth of parentheses

How deep parentheses nest in a text, and how the depths of two texts make up that of both.
-/

namespace Curriculum

/-- What a character adds to the number of open parentheses. -/
def parenChange (c : Char) : Int :=
  if c = '(' then 1 else if c = ')' then -1 else 0

/-- How many parentheses are open at the end of a text. -/
def openParens : List Char → Int
  | [] => 0
  | c :: rest => parenChange c + openParens rest

/-- The greatest number of parentheses that are open anywhere in a text. -/
def parenDepth : List Char → Int
  | [] => 0
  | c :: rest => max 0 (parenChange c + parenDepth rest)

variable {cs ds : List Char}

theorem openParens_append : openParens (cs ++ ds) = openParens cs + openParens ds := by
  induction cs with
  | nil => exact (Int.zero_add _).symm
  | cons c rest ih => rw [List.cons_append, openParens, openParens, ih, Int.add_assoc]

theorem parenDepth_nonneg (cs : List Char) : 0 ≤ parenDepth cs := by
  cases cs with
  | nil => exact Int.le_refl 0
  | cons c rest => exact Int.le_max_left 0 _

theorem parenDepth_append :
    parenDepth (cs ++ ds) = max (parenDepth cs) (openParens cs + parenDepth ds) := by
  induction cs with
  | nil =>
      have hpos := parenDepth_nonneg ds
      rw [List.nil_append, parenDepth, openParens]
      omega
  | cons c rest ih =>
      rw [List.cons_append, parenDepth, parenDepth, ih, openParens]
      omega

/-- A text without parentheses. -/
theorem parenDepth_of_plain (h : ∀ c ∈ cs, c ≠ '(' ∧ c ≠ ')') :
    openParens cs = 0 ∧ parenDepth cs = 0 := by
  induction cs with
  | nil => exact ⟨rfl, rfl⟩
  | cons c rest ih =>
      rw [List.forall_mem_cons] at h
      have hc : parenChange c = 0 := by rw [parenChange, if_neg h.1.1, if_neg h.1.2]
      obtain ⟨hopen, hdepth⟩ := ih h.2
      rw [openParens, hopen, parenDepth, hdepth, hc]
      exact ⟨rfl, rfl⟩

theorem openParens_paren : openParens ('(' :: cs ++ [')']) = openParens cs := by
  rw [openParens_append, openParens]
  change 1 + openParens cs + -1 = _
  omega

theorem parenDepth_paren (h : openParens cs = 0) :
    parenDepth ('(' :: cs ++ [')']) = parenDepth cs + 1 := by
  have hpos := parenDepth_nonneg cs
  rw [List.cons_append, parenDepth, parenDepth_append, h]
  change max 0 (1 + max (parenDepth cs) (0 + max 0 (-1 + 0))) = _
  omega

end Curriculum
