import Mathlib
/-!
# Values in Slots

A program that holds several values of a type, one in each slot, and works on one or two of them at a time.
An operation that faults has no result, and ends the run.

Main results:

- Theorems {lit}`forall_reached_of_along` and {lit}`forall_reached_of_step`: an invariant of the operations, or of those
  that meet a condition, holds in every state of a run.
- Theorem {lit}`forall_reached_iff_along`: where an operation keeps an invariant exactly if it meets a condition,
  the invariant holds in every state of a run exactly if the operations of the run meet it.
- Theorems {lit}`forall_update` and {lit}`forall_update_update`: a property of the values, after an operation.
-/

namespace Slots

/-! ## Runs -/

section Runs

variable {σ ο : Type*} {step : ο → σ → Option σ} {inv : σ → Prop} {ok : ο → σ → Prop} {o : ο} {os os' : List ο}
  {s t u : σ}

/-- The state after a sequence of operations. -/
def run (step : ο → σ → Option σ) : List ο → σ → Option σ
  | [], s => some s
  | o :: os, s => (step o s).bind (run step os)

/-- A state that a run passes through. -/
def Reached (step : ο → σ → Option σ) (os : List ο) (s t : σ) : Prop :=
  ∃ os', os' <+: os ∧ run step os' s = some t

/-- Each operation of the run meets a condition, in the state in which it happens. -/
def Along (step : ο → σ → Option σ) (ok : ο → σ → Prop) : List ο → σ → Prop
  | [], _ => True
  | o :: os, s => ∀ t, step o s = some t → ok o s ∧ Along step ok os t

@[simp]
theorem run_nil : run step [] s = some s := rfl

theorem run_cons : run step (o :: os) s = (step o s).bind (run step os) := rfl

theorem run_cons_of_step (hstep : step o s = some t) : run step (o :: os) s = run step os t := by
  rw [run_cons, hstep, Option.bind_some]

theorem Reached.refl : Reached step os s s := ⟨[], List.nil_prefix, run_nil⟩

/-- Before the first operation is the first state, behind it those of the rest of the run. -/
theorem reached_cons_iff : Reached step (o :: os) s t ↔ t = s ∨ ∃ u, step o s = some u ∧ Reached step os u t := by
  constructor
  · rintro ⟨os', hprefix, hrun⟩
    cases os' with
    | nil => exact Or.inl (Option.some.inj hrun).symm
    | cons o' os' =>
        obtain ⟨rfl, hrest⟩ := List.cons_prefix_cons.mp hprefix
        obtain ⟨u, hstep, hrun⟩ := Option.bind_eq_some_iff.mp hrun
        exact Or.inr ⟨u, hstep, os', hrest, hrun⟩
  · rintro (rfl | ⟨u, hstep, os', hprefix, hrun⟩)
    · exact Reached.refl
    · refine ⟨o :: os', List.cons_prefix_cons.mpr ⟨rfl, hprefix⟩, ?_⟩
      rw [run_cons_of_step hstep, hrun]

theorem along_cons_of_step (hstep : step o s = some t) : Along step ok (o :: os) s ↔ ok o s ∧ Along step ok os t :=
  ⟨fun halong => halong t hstep, fun hok _ ht => Option.some.inj (hstep.symm.trans ht) ▸ hok⟩

theorem Along.and {ok' : ο → σ → Prop} (h : Along step ok os s) (h' : Along step ok' os s) :
    Along step (fun o s => ok o s ∧ ok' o s) os s := by
  induction os generalizing s with
  | nil => trivial
  | cons o os ih => exact fun t ht => ⟨⟨(h t ht).1, (h' t ht).1⟩, ih (h t ht).2 (h' t ht).2⟩

/-- A condition that can be decided for each operation can be decided for the run. -/
instance decidableAlong [∀ o s, Decidable (ok o s)] : ∀ os s, Decidable (Along step ok os s)
  | [], _ => .isTrue trivial
  | o :: os, s =>
      match h : step o s with
      | none => .isTrue fun _ ht => nomatch h.symm.trans ht
      | some t =>
          have := decidableAlong os t
          decidable_of_iff _ (along_cons_of_step h).symm

/-- An invariant that every operation keeps that meets a condition holds in every state of a run whose operations all
meet it. -/
theorem forall_reached_of_along (hstep : ∀ o s t, inv s → ok o s → step o s = some t → inv t) (hs : inv s)
    (halong : Along step ok os s) : ∀ t, Reached step os s t → inv t := by
  induction os generalizing s with
  | nil =>
      rintro t ⟨os', hprefix, hrun⟩
      obtain rfl := List.prefix_nil.mp hprefix
      exact Option.some.inj hrun ▸ hs
  | cons o os ih =>
      intro t ht
      rcases reached_cons_iff.mp ht with rfl | ⟨u, hu, ht⟩
      · exact hs
      · obtain ⟨hok, halong⟩ := halong u hu
        exact ih (hstep o s u hs hok hu) halong t ht

theorem along_true : Along step (fun _ _ => True) os s := by
  induction os generalizing s with
  | nil => trivial
  | cons o os ih => exact fun u _ => ⟨trivial, ih⟩

/-- An invariant of the operations holds in every state of a run. -/
theorem forall_reached_of_step (hstep : ∀ o s t, inv s → step o s = some t → inv t) (hs : inv s) :
    ∀ t, Reached step os s t → inv t :=
  forall_reached_of_along (fun o s t hinv _ h => hstep o s t hinv h) hs along_true

/-- A property that an operation keeps exactly if it meets a condition holds in every state of a run exactly if every
operation of the run meets the condition; an invariant can be used that is kept along with the property. -/
theorem forall_reached_iff_along_of_inv (inv : σ → Prop) {good : σ → Prop}
    (hstep : ∀ o s t, inv s → good s → step o s = some t → (good t → inv t) ∧ (good t ↔ ok o s)) (hs : inv s)
    (hgood : good s) : (∀ t, Reached step os s t → good t) ↔ Along step ok os s := by
  induction os generalizing s with
  | nil =>
      apply iff_of_true _ trivial
      rintro t ⟨os', hprefix, hrun⟩
      obtain rfl := List.prefix_nil.mp hprefix
      exact Option.some.inj hrun ▸ hgood
  | cons o os ih =>
      simp only [reached_cons_iff, Along]
      constructor
      · intro hall u hu
        have hnext := hall u (Or.inr ⟨u, hu, Reached.refl⟩)
        have hkeeps := hstep o s u hs hgood hu
        exact ⟨hkeeps.2.mp hnext, (ih (hkeeps.1 hnext) hnext).mp fun t ht => hall t (Or.inr ⟨u, hu, ht⟩)⟩
      · rintro halong t (rfl | ⟨u, hu, ht⟩)
        · exact hgood
        · obtain ⟨hok, halong⟩ := halong u hu
          have hkeeps := hstep o s u hs hgood hu
          have hnext := hkeeps.2.mpr hok
          exact (ih (hkeeps.1 hnext) hnext).mpr halong t ht

/-- An invariant that an operation keeps exactly if it meets a condition holds in every state of a run exactly
if every operation of the run meets the condition. -/
theorem forall_reached_iff_along (hstep : ∀ o s t, inv s → step o s = some t → (inv t ↔ ok o s)) (hs : inv s) :
    (∀ t, Reached step os s t → inv t) ↔ Along step ok os s :=
  forall_reached_iff_along_of_inv (fun _ => True) (fun o s t _ hinv h => ⟨fun _ => trivial, hstep o s t hinv h⟩) trivial
    hs

end Runs

/-! ## Slots -/

/-- A value in each slot -/
abbrev Pool (α : Type*) := ℕ → α

variable {α : Type*} {s t : Pool α} {i j : ℕ} {P : α → Prop}

/-- Works on the value in a slot. -/
def modify (s : Pool α) (i : ℕ) (f : α → Option α) : Option (Pool α) := (f (s i)).map (Function.update s i)

/-- Works on the values in two slots. -/
def modifyPair (s : Pool α) (i j : ℕ) (f : α → α → Option (α × α)) : Option (Pool α) :=
  (f (s i) (s j)).map fun p => Function.update (Function.update s i p.1) j p.2

theorem modify_eq_some {f : α → Option α} :
    modify s i f = some t ↔ ∃ a, f (s i) = some a ∧ Function.update s i a = t := Option.map_eq_some_iff

theorem modifyPair_eq_some {f : α → α → Option (α × α)} :
    modifyPair s i j f = some t ↔
      ∃ a b, f (s i) (s j) = some (a, b) ∧ Function.update (Function.update s i a) j b = t := by
  simp [modifyPair]

/-- After an operation on one slot, all values have a property that all values had before exactly if the new
one has it. -/
theorem forall_update {a : α} (hs : ∀ k, P (s k)) : (∀ k, P (Function.update s i a k)) ↔ P a := by
  constructor
  · intro h
    simpa using h i
  · intro ha k
    by_cases hk : k = i
    · rwa [hk, Function.update_self]
    · rw [Function.update_of_ne hk]
      exact hs k

/-- After an operation on two slots, all values have a property that all values had before exactly if the two
new ones have it. -/
theorem forall_update_update {a b : α} (hne : i ≠ j) (hs : ∀ k, P (s k)) :
    (∀ k, P (Function.update (Function.update s i a) j b k)) ↔ P a ∧ P b := by
  constructor
  · intro h
    have hi := h i
    have hj := h j
    rw [Function.update_of_ne hne, Function.update_self] at hi
    rw [Function.update_self] at hj
    exact ⟨hi, hj⟩
  · rintro ⟨ha, hb⟩
    exact (forall_update ((forall_update hs).mpr ha)).mpr hb

end Slots
