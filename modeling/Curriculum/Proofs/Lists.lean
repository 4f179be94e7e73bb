/-!
# Lists

Lists with their repeats taken out, lists joined with separators between them, lists whose elements
are all found, and the last element of a kind.
-/

namespace Curriculum

theorem intercalate_cons {α : Type} (separator first : List α) (more : List (List α)) :
    separator.intercalate (first :: more) = first ++ more.flatMap (separator ++ ·) := by
  induction more generalizing first with
  | nil => simp
  | cons second more ih => simp [List.intercalate_cons_cons, ih]

theorem exists_map_eq_map_iff {α β γ : Type} {f : α → γ} {g : β → γ} {xs : List α} :
    (∃ ys : List β, ys.map g = xs.map f) ↔ ∀ x ∈ xs, ∃ y, g y = f x := by
  induction xs with
  | nil => exact ⟨fun _ => nofun, fun _ => ⟨[], rfl⟩⟩
  | cons x rest ih =>
      rw [List.forall_mem_cons, ← ih]
      constructor
      · rintro ⟨ys, h⟩
        obtain ⟨y, ys, rfl, hy, hys⟩ := List.map_eq_cons_iff.1 h
        exact ⟨⟨y, hy⟩, ys, hys⟩
      · rintro ⟨⟨y, hy⟩, ys, hys⟩
        exact ⟨y :: ys, by rw [List.map_cons, List.map_cons, hy, hys]⟩

theorem getLast?_filter_concat {α : Type} {kept : α → Bool} (l : List α) (a : α) :
    ((l ++ [a]).filter kept).getLast? =
      if kept a = true then some a else (l.filter kept).getLast? := by
  rw [List.filter_append]
  cases ha : kept a <;> simp [ha]

/-! ## Repeats -/

/-- Repeats of the first element are taken out of the others before these are looked at. -/
@[elab_as_elim]
theorem eraseDups_induction {α : Type} [BEq α] {motive : List α → Prop} (nil : motive [])
    (cons : ∀ a rest, motive (rest.filter fun b => !b == a) → motive (a :: rest)) (l : List α) :
    motive l := by
  induction hlen : l.length using Nat.strongRecOn generalizing l with
  | ind n ih =>
      cases l with
      | nil => exact nil
      | cons a rest =>
          subst hlen
          exact cons a rest (ih _ (Nat.lt_succ_of_le (List.length_filter_le _ _)) _ rfl)

theorem nodup_eraseDups {α : Type} [BEq α] [LawfulBEq α] (l : List α) : l.eraseDups.Nodup := by
  induction l using eraseDups_induction with
  | nil => simp
  | cons a rest ih =>
      rw [List.eraseDups_cons, List.nodup_cons, List.mem_eraseDups]
      exact ⟨by simp, ih⟩

theorem eraseDups_of_nodup {α : Type} [BEq α] [LawfulBEq α] {l : List α} (h : l.Nodup) :
    l.eraseDups = l := by
  induction l with
  | nil => simp
  | cons a rest ih =>
      rw [List.nodup_cons] at h
      have hkept : rest.filter (fun b => !b == a) = rest := by
        refine List.filter_eq_self.2 fun b hb => ?_
        have hne : b ≠ a := fun heq => h.1 (heq ▸ hb)
        simpa using hne
      rw [List.eraseDups_cons, hkept, ih h.2]

theorem eraseDups_append_singleton {α : Type} [BEq α] [LawfulBEq α] (l : List α) (a : α) :
    (l ++ [a]).eraseDups = if a ∈ l then l.eraseDups else l.eraseDups ++ [a] := by
  rw [List.eraseDups_append]
  by_cases ha : a ∈ l
  · simp [List.removeAll, ha]
  · simp [List.removeAll, ha, List.eraseDups_cons]

theorem eraseDups_filter {α : Type} [BEq α] [LawfulBEq α] (p : α → Bool) (l : List α) :
    (l.filter p).eraseDups = l.eraseDups.filter p := by
  induction l using eraseDups_induction with
  | nil => simp
  | cons a rest ih =>
      rw [List.eraseDups_cons]
      cases ha : p a with
      | true =>
          rw [List.filter_cons_of_pos ha, List.filter_cons_of_pos ha, List.eraseDups_cons,
            ← ih, List.filter_filter, List.filter_filter]
          simp only [Bool.and_comm]
      | false =>
          have hsame : (rest.filter fun b => !b == a).filter p = rest.filter p := by
            rw [List.filter_filter]
            refine List.filter_congr fun b _ => ?_
            by_cases hb : b = a
            · rw [hb, ha, Bool.false_and]
            · simp [hb]
          rw [List.filter_cons_of_neg (by rw [ha]; decide),
            List.filter_cons_of_neg (by rw [ha]; decide), ← ih, hsame]

/-- A map that keeps elements apart keeps the repeats where they are. -/
theorem map_eraseDups {α β : Type} [BEq α] [LawfulBEq α] [BEq β] [LawfulBEq β] {f : α → β}
    (hf : ∀ a b, f a = f b → a = b) (l : List α) : l.eraseDups.map f = (l.map f).eraseDups := by
  induction l using eraseDups_induction with
  | nil => rfl
  | cons a rest ih =>
      have hsame : (fun b => !b == f a) ∘ f = fun b => !b == a := by
        funext b
        refine congrArg not (Bool.eq_iff_iff.2 ?_)
        rw [beq_iff_eq, beq_iff_eq]
        exact ⟨hf b a, congrArg f⟩
      rw [List.eraseDups_cons, List.map_cons, ih, List.map_cons, List.eraseDups_cons,
        List.filter_map, hsame]

theorem eraseDups_append_eraseDups {α : Type} [BEq α] [LawfulBEq α] (l more : List α) :
    (l.eraseDups ++ more).eraseDups = (l ++ more).eraseDups := by
  have hsame : more.removeAll l.eraseDups = more.removeAll l := by
    unfold List.removeAll
    exact List.filter_congr fun a _ => by simp
  rw [List.eraseDups_append, List.eraseDups_append, hsame, eraseDups_of_nodup (nodup_eraseDups l)]

/-- What is kept of a list and not of another one is what is kept and not in the other one. -/
theorem removeAll_filter {α : Type} [BEq α] [LawfulBEq α] (kept : α → Bool) (l seen : List α) :
    (l.filter kept).removeAll (seen.filter kept) =
      l.filter fun x => kept x && !seen.contains x := by
  rw [List.removeAll, List.filter_filter]
  refine List.filter_congr fun x _ => ?_
  cases hx : kept x <;> simp [hx]

end Curriculum
