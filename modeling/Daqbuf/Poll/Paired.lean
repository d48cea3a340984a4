import Mathlib
/-!
# Openings and Closings

The history of a program that opens something and closes it again.  Nothing is opened a second time before it was
closed, if each opening comes when all that were before are closed.

Main results:

- Theorem {lit}`SeparatelyOpened.append_singleton`: an opening keeps the openings apart, where each is closed before.
- Theorem {lit}`EachClosed.append_pair`: an opening and its closing keep each opening closed.
-/

namespace Poll

variable {α : Type*} {opens : α → Prop} {closes : α → α → Prop} {xs : List α} {x y : α}

/-- Behind each opening is a closing of it. -/
def EachClosed (opens : α → Prop) (closes : α → α → Prop) (xs : List α) : Prop :=
  ∀ before x after, xs = before ++ x :: after → opens x → ∃ y ∈ after, closes x y

/-- Between each two openings is a closing of the first. -/
def SeparatelyOpened (opens : α → Prop) (closes : α → α → Prop) (xs : List α) : Prop :=
  ∀ before x between y after, xs = before ++ x :: (between ++ y :: after) → opens x → opens y →
    ∃ z ∈ between, closes x z

theorem eachClosed_nil : EachClosed opens closes [] :=
  fun _ _ _ h => absurd h.symm (List.append_ne_nil_of_right_ne_nil _ (List.cons_ne_nil _ _))

theorem separatelyOpened_nil : SeparatelyOpened opens closes [] :=
  fun _ _ _ _ _ h => absurd h.symm (List.append_ne_nil_of_right_ne_nil _ (List.cons_ne_nil _ _))

/-- What is split at an element ends with the last one, or is split before it. -/
theorem append_singleton_eq_append_cons {before after : List α} (h : xs ++ [y] = before ++ x :: after) :
    (after = [] ∧ x = y ∧ xs = before) ∨ ∃ rest, after = rest ++ [y] ∧ xs = before ++ x :: rest := by
  rcases List.eq_nil_or_concat after with rfl | ⟨rest, last, rfl⟩
  · obtain ⟨hbefore, hlast⟩ := List.append_inj' h rfl
    exact .inl ⟨rfl, (List.cons.inj hlast).1.symm, hbefore⟩
  · rw [List.concat_eq_append, ← List.cons_append, ← List.append_assoc] at h
    obtain ⟨hrest, hlast⟩ := List.append_inj' h rfl
    rw [List.concat_eq_append, (List.cons.inj hlast).1]
    exact .inr ⟨rest, rfl, hrest⟩

/-- An opening and its closing keep each opening closed. -/
theorem EachClosed.append_pair (h : EachClosed opens closes xs) (hcloses : closes x y) (hy : ¬ opens y) :
    EachClosed opens closes (xs ++ [x] ++ [y]) := by
  intro before z after hsplit hz
  rcases append_singleton_eq_append_cons hsplit with ⟨-, rfl, -⟩ | ⟨rest, rfl, hrest⟩
  · exact absurd hz hy
  · rcases append_singleton_eq_append_cons hrest with ⟨rfl, rfl, -⟩ | ⟨front, rfl, hfront⟩
    · exact ⟨y, List.mem_singleton_self y, hcloses⟩
    · obtain ⟨w, hw, hwz⟩ := h before z front hfront hz
      exact ⟨w, List.mem_append_left _ (List.mem_append_left _ hw), hwz⟩

/-- An opening keeps the openings apart, where each is closed before. -/
theorem SeparatelyOpened.append_singleton (h : SeparatelyOpened opens closes xs)
    (hclosed : opens x → EachClosed opens closes xs) : SeparatelyOpened opens closes (xs ++ [x]) := by
  intro before y between z after hsplit hy hz
  rw [← List.cons_append, ← List.append_assoc] at hsplit
  rcases append_singleton_eq_append_cons hsplit with ⟨-, rfl, hbefore⟩ | ⟨rest, -, hsplit⟩
  · exact hclosed hz before y between hbefore hy
  · rw [List.append_assoc, List.cons_append] at hsplit
    exact h before y between z rest hsplit hy hz

end Poll
