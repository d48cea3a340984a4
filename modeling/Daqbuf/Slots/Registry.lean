import Mathlib
/-!
# Registries

A registry holds the keys that are in use, so that a new key can be chosen which no one else holds.  It guards the
keys of the live owners as long as each of them is registered.

Main results:

- Theorem {lit}`Guards.acquire` and {lit}`Guards.release`: an owner that comes, and one that goes.
- Theorem {lit}`Guards.erase_iff`: taking a key out of the registry is safe exactly if no live owner has it.
- Theorem {lit}`guards_iff`: the registry guards exactly if no key outside of it is live.
-/

namespace Slots

variable {κ : Type*} {reg : Finset κ} {live : List κ} {k : κ}

/-- Each live owner has a key of its own, and it is registered. -/
structure Guards (reg : Finset κ) (live : List κ) : Prop where
  nodup : live.Nodup
  registered : ∀ k ∈ live, k ∈ reg

theorem Guards.nil (reg : Finset κ) : Guards reg [] where
  nodup := List.nodup_nil
  registered := by simp

/-- A key that is not registered is free. -/
theorem Guards.fresh (h : Guards reg live) (hk : k ∉ reg) : k ∉ live := fun hlive => hk (h.registered k hlive)

theorem guards_iff : Guards reg live ↔ live.Nodup ∧ ∀ k, k ∉ reg → k ∉ live := by
  constructor
  · intro h
    exact ⟨h.nodup, fun k hk => h.fresh hk⟩
  · intro ⟨hnodup, hfresh⟩
    exact ⟨hnodup, fun k hk => by_contra fun hreg => hfresh k hreg hk⟩

variable [DecidableEq κ]

/-- An owner comes with a key that was free. -/
theorem Guards.acquire (h : Guards reg live) (hk : k ∉ reg) : Guards (insert k reg) (k :: live) where
  nodup := List.nodup_cons.mpr ⟨h.fresh hk, h.nodup⟩
  registered := by
    intro x hx
    rcases List.mem_cons.mp hx with heq | hx
    · exact Finset.mem_insert.mpr (Or.inl heq)
    · exact Finset.mem_insert_of_mem (h.registered x hx)

/-- An owner goes, and its key stays registered. -/
theorem Guards.leave (h : Guards reg live) (k : κ) : Guards reg (live.erase k) where
  nodup := h.nodup.erase k
  registered := fun x hx => h.registered x (List.mem_of_mem_erase hx)

/-- A key can be taken out of the registry exactly if no live owner has it. -/
theorem Guards.erase_iff (h : Guards reg live) : Guards (reg.erase k) live ↔ k ∉ live := by
  constructor
  · intro herase hk
    exact Finset.notMem_erase k reg (herase.registered k hk)
  · intro hk
    refine ⟨h.nodup, fun x hx => Finset.mem_erase.mpr ⟨?_, h.registered x hx⟩⟩
    rintro rfl
    exact hk hx

/-- An owner goes, and its key is free again. -/
theorem Guards.release (h : Guards reg live) (k : κ) : Guards (reg.erase k) (live.erase k) :=
  (h.leave k).erase_iff.mpr h.nodup.not_mem_erase

end Slots
