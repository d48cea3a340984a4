import Daqbuf.Slots.Pool
import Daqbuf.Slots.Registry
/-!
# Channel Ids

The numbers of {lit}`CidOwned` and {lit}`SubidOwned` values are drawn at random, until one is found that is not in the
registry of its kind.  The drop of a {lit}`SubidOwned` takes its number out of the registry of the {lit}`CidOwned`.

Main results:

- Theorem {lit}`genNext_spec` and {lit}`genNext_isSome_iff`: what is drawn is not registered, and the drawing ends once
  such a number comes.
- Theorem {lit}`step_liveIdsUnique_iff`: which steps keep the live ids unique.
- Theorem {lit}`guards_subids`: the live ids of {lit}`SubidOwned` values are unique in every run.
- Theorem {lit}`liveIdsUnique_iff`: when the live ids are unique in all of a run.
-/

namespace Daqbuf
namespace Ca

open Slots

/-! ## Numbers -/

/-- A number that {lit}`gen_next` can give out: the top bit is masked off. -/
structure IdNumber where
  val : UInt32
  masked : val &&& 0x7fffffff = val
deriving DecidableEq

namespace IdNumber

/-- {lit}`next_u32() & 0x7fffffff` -/
def ofDraw (draw : UInt32) : IdNumber where
  val := draw &&& 0x7fffffff
  masked := by rw [UInt32.and_assoc, UInt32.and_self]

@[simp]
theorem ofDraw_val (k : IdNumber) : ofDraw k.val = k := by
  obtain ⟨val, masked⟩ := k
  simp only [ofDraw, masked]

end IdNumber

/-- The keys of {lit}`HashMap<u32, u32>`; each is mapped to itself. -/
abbrev Registry := Finset IdNumber

/-- The loop of {lit}`gen_next`, on what the generator draws next.  It has no result where it goes on drawing. -/
def genNext (reg : Registry) : List UInt32 → Option (IdNumber × Registry)
  | [] => none
  | draw :: draws =>
    if IdNumber.ofDraw draw ∈ reg then genNext reg draws
    else some (IdNumber.ofDraw draw, insert (IdNumber.ofDraw draw) reg)

section GenNext

variable {reg reg' : Registry} {draws : List UInt32} {k : IdNumber}

/-- The number that is given out was free, and is registered. -/
theorem genNext_spec (h : genNext reg draws = some (k, reg')) : k ∉ reg ∧ reg' = insert k reg := by
  induction draws with
  | nil => cases h
  | cons draw draws ih =>
      rw [genNext] at h
      split_ifs at h with htaken
      · exact ih h
      · cases h
        exact ⟨htaken, rfl⟩

/-- A free number is given out once it is drawn. -/
theorem genNext_of_notMem (hk : k ∉ reg) : genNext reg [k.val] = some (k, insert k reg) := by
  rw [genNext, IdNumber.ofDraw_val, if_neg hk]

theorem genNext_isSome_iff : (genNext reg draws).isSome ↔ ∃ draw ∈ draws, IdNumber.ofDraw draw ∉ reg := by
  induction draws with
  | nil => simp [genNext]
  | cons draw draws ih =>
      rw [genNext, List.exists_mem_cons_iff]
      split_ifs with htaken
      · rw [ih]
        exact (or_iff_right (not_not_intro htaken)).symm
      · exact iff_of_true rfl (Or.inl htaken)

end GenNext

/-! ## Owners -/

/-- The registries {lit}`CID_REG` and {lit}`SUBID_REG`, and the numbers of the values that are alive -/
structure Ids where
  cidReg : Registry
  subidReg : Registry
  cids : List IdNumber
  subids : List IdNumber
deriving DecidableEq

namespace Ids

/-- When the program starts -/
def init : Ids where
  cidReg := ∅
  subidReg := ∅
  cids := []
  subids := []

variable (s : Ids)

/-- {lit}`CidOwned::new` -/
def newCid (draws : List UInt32) : Option Ids :=
  (genNext s.cidReg draws).map fun (k, reg) => { s with cidReg := reg, cids := k :: s.cids }

/-- {lit}`SubidOwned::new` -/
def newSubid (draws : List UInt32) : Option Ids :=
  (genNext s.subidReg draws).map fun (k, reg) => { s with subidReg := reg, subids := k :: s.subids }

/-- {lit}`CidOwned::drop`, of a value that is alive -/
def dropCid (k : IdNumber) : Option Ids :=
  if k ∈ s.cids then some { s with cidReg := s.cidReg.erase k, cids := s.cids.erase k } else none

/-- {lit}`SubidOwned::drop`, of a value that is alive: it works on {lit}`CID_REG` as well -/
def dropSubid (k : IdNumber) : Option Ids :=
  if k ∈ s.subids then some { s with cidReg := s.cidReg.erase k, subids := s.subids.erase k } else none

end Ids

/-- What can be done with owned ids -/
inductive IdOp where
  | newCid (draws : List UInt32)
  | newSubid (draws : List UInt32)
  | dropCid (k : IdNumber)
  | dropSubid (k : IdNumber)

namespace IdOp

def step : IdOp → Ids → Option Ids
  | newCid draws, s => s.newCid draws
  | newSubid draws, s => s.newSubid draws
  | dropCid k, s => s.dropCid k
  | dropSubid k, s => s.dropSubid k

end IdOp

/-! ## Uniqueness -/

namespace Ids

/-- The ids that are alive are distinct, and the id of the next new value, whatever is drawn for it, is none of
them. -/
structure LiveIdsUnique (s : Ids) : Prop where
  cids : s.cids.Nodup
  subids : s.subids.Nodup
  newCid : ∀ draws k reg, genNext s.cidReg draws = some (k, reg) → k ∉ s.cids
  newSubid : ∀ draws k reg, genNext s.subidReg draws = some (k, reg) → k ∉ s.subids

/-- What a registry has to do, for the ids of one kind. -/
theorem guards_iff_genNext {reg : Registry} {live : List IdNumber} :
    Guards reg live ↔ live.Nodup ∧ ∀ draws k reg', genNext reg draws = some (k, reg') → k ∉ live := by
  rw [guards_iff]
  refine and_congr_right fun _ => ?_
  constructor
  · intro hfresh draws k reg' hgen
    exact hfresh k (genNext_spec hgen).1
  · intro hgen k hk
    exact hgen [k.val] k _ (genNext_of_notMem hk)

theorem liveIdsUnique_iff_guards {s : Ids} :
    s.LiveIdsUnique ↔ Guards s.cidReg s.cids ∧ Guards s.subidReg s.subids := by
  rw [guards_iff_genNext, guards_iff_genNext]
  constructor
  · intro h
    exact ⟨⟨h.cids, h.newCid⟩, h.subids, h.newSubid⟩
  · intro ⟨⟨hcids, hnewCid⟩, hsubids, hnewSubid⟩
    exact ⟨hcids, hsubids, hnewCid, hnewSubid⟩

end Ids

/-- No {lit}`SubidOwned` is dropped while a {lit}`CidOwned` of the same number is alive. -/
def IdOp.KeepsCids : IdOp → Ids → Prop
  | dropSubid k, s => k ∉ s.cids
  | _, _ => True

instance : ∀ (o : IdOp) (s : Ids), Decidable (o.KeepsCids s)
  | .dropSubid k, s => inferInstanceAs (Decidable (k ∉ s.cids))
  | .newCid _, _ | .newSubid _, _ | .dropCid _, _ => isTrue trivial

/-- A step keeps the live ids unique exactly if it does not drop a {lit}`SubidOwned` that has the number of a live
{lit}`CidOwned`. -/
theorem step_liveIdsUnique_iff {o : IdOp} {s t : Ids} (hs : s.LiveIdsUnique) (hstep : o.step s = some t) :
    t.LiveIdsUnique ↔ o.KeepsCids s := by
  obtain ⟨hcid, hsubid⟩ := Ids.liveIdsUnique_iff_guards.mp hs
  rw [Ids.liveIdsUnique_iff_guards]
  cases o with
  | newCid draws =>
      obtain ⟨⟨k, reg⟩, hgen, rfl⟩ := Option.map_eq_some_iff.mp hstep
      obtain ⟨hk, rfl⟩ := genNext_spec hgen
      exact iff_of_true ⟨hcid.acquire hk, hsubid⟩ trivial
  | newSubid draws =>
      obtain ⟨⟨k, reg⟩, hgen, rfl⟩ := Option.map_eq_some_iff.mp hstep
      obtain ⟨hk, rfl⟩ := genNext_spec hgen
      exact iff_of_true ⟨hcid, hsubid.acquire hk⟩ trivial
  | dropCid k =>
      obtain ⟨-, hstep⟩ := Option.ite_none_right_eq_some.mp hstep
      obtain rfl := Option.some.inj hstep
      exact iff_of_true ⟨hcid.release k, hsubid⟩ trivial
  | dropSubid k =>
      obtain ⟨-, hstep⟩ := Option.ite_none_right_eq_some.mp hstep
      obtain rfl := Option.some.inj hstep
      exact (and_iff_left (hsubid.leave k)).trans hcid.erase_iff

theorem liveIdsUnique_init : Ids.init.LiveIdsUnique :=
  Ids.liveIdsUnique_iff_guards.mpr ⟨Guards.nil ∅, Guards.nil ∅⟩

/-- The ids of {lit}`SubidOwned` values stay registered, whatever is dropped. -/
theorem guards_subids (os : List IdOp) : ∀ t, Reached IdOp.step os Ids.init t → Guards t.subidReg t.subids := by
  refine forall_reached_of_step ?_ (Guards.nil ∅)
  intro o s t hs hstep
  cases o with
  | newCid draws =>
      obtain ⟨x, -, rfl⟩ := Option.map_eq_some_iff.mp hstep
      exact hs
  | newSubid draws =>
      obtain ⟨⟨k, reg⟩, hgen, rfl⟩ := Option.map_eq_some_iff.mp hstep
      obtain ⟨hk, rfl⟩ := genNext_spec hgen
      exact hs.acquire hk
  | dropCid k =>
      obtain ⟨-, hstep⟩ := Option.ite_none_right_eq_some.mp hstep
      obtain rfl := Option.some.inj hstep
      exact hs
  | dropSubid k =>
      obtain ⟨-, hstep⟩ := Option.ite_none_right_eq_some.mp hstep
      obtain rfl := Option.some.inj hstep
      exact hs.leave k

/-- The live ids are unique in every state of a run exactly if no step of it drops a {lit}`SubidOwned` that has the
number of a live {lit}`CidOwned`. -/
theorem liveIdsUnique_iff (os : List IdOp) :
    (∀ t, Reached IdOp.step os Ids.init t → t.LiveIdsUnique) ↔ Along IdOp.step IdOp.KeepsCids os Ids.init :=
  forall_reached_iff_along (fun _ _ _ hs hstep => step_liveIdsUnique_iff hs hstep) liveIdsUnique_init

/-- A {lit}`CidOwned` and a {lit}`SubidOwned` of one number, the second is dropped, and the same number is drawn again. -/
def reusedNumber : List IdOp := [.newCid [5], .newSubid [5], .dropSubid (.ofDraw 5), .newCid [5]]

/-- Two live {lit}`CidOwned` with the number 5 -/
theorem not_liveIdsUnique_reusedNumber :
    ¬ ∀ t, Reached IdOp.step reusedNumber Ids.init t → t.LiveIdsUnique := by
  intro hall
  have hnodup := (hall ⟨{.ofDraw 5}, {.ofDraw 5}, [.ofDraw 5, .ofDraw 5], []⟩ ⟨reusedNumber, List.prefix_rfl, rfl⟩).cids
  revert hnodup
  decide

end Ca
end Daqbuf
