import Daqbuf.Ca.ActiveCa
import Daqbuf.Slots.Deque
import Daqbuf.Slots.Pool
/-!
# Buffers between the Parts of a Connection

{lit}`AsynBuf` is a deque that is used up to the capacity of its allocation.  The bound and the report of space are read
off the allocation, which an element that is put back can make larger, and which is gone when the content is taken.

Main results:

- Theorem {lit}`AsynBuf.truthful_iff`: what a buffer reports is true unless it is empty and has no allocation.
- Theorem {lit}`keeps_iff`: in a run all buffers stay within their bounds and report their space truthfully, exactly if
  nothing is taken, and an item is put back only where there is space.
- Theorem {lit}`AsynBuf.pushBack_toBounded`: as long as that is so, a buffer is one of a fixed capacity.
-/

namespace Daqbuf
namespace Asynbuf

open Slots (Deque Growth Pool Reached Along forall_reached_iff_along forall_reached_iff_along_of_inv modify modifyPair
  modify_eq_some modifyPair_eq_some forall_update forall_update_update)

/-! ## The buffer -/

/-- {lit}`PushRes` -/
inductive PushRes (α : Type) where
  | first
  | done
  | full (x : α)
  deriving DecidableEq

/-- {lit}`AsynBuf` -/
structure AsynBuf (α : Type) where
  buf : Deque α
  deriving DecidableEq

namespace AsynBuf

variable {α : Type} (g : Growth)

/-- {lit}`new` -/
def new (cap : ℕ) : AsynBuf α := ⟨Deque.withCapacity cap⟩

/-- {lit}`len` -/
def len (b : AsynBuf α) : ℕ := b.buf.length

/-- {lit}`cap` -/
def cap (b : AsynBuf α) : ℕ := b.buf.capacity

/-- {lit}`is_space` -/
def isSpace (b : AsynBuf α) : Bool := b.len < b.cap

/-- {lit}`push_back` -/
def pushBack (x : α) (b : AsynBuf α) : PushRes α × AsynBuf α :=
  if b.buf.length = 0 then (.first, ⟨b.buf.pushBack g x⟩)
  else if b.buf.length < b.buf.capacity then (.done, ⟨b.buf.pushBack g x⟩)
  else (.full x, b)

/-- {lit}`push_front` -/
def pushFront (x : α) (b : AsynBuf α) : AsynBuf α := ⟨b.buf.pushFront g x⟩

/-- {lit}`pop_front` -/
def popFront (b : AsynBuf α) : Option α × AsynBuf α :=
  match b.buf.popFront with
  | some (x, rest) => (some x, ⟨rest⟩)
  | none => (none, b)

/-- {lit}`take`: what is taken, and what is left -/
def take (b : AsynBuf α) : AsynBuf α × AsynBuf α := (⟨b.buf⟩, ⟨Deque.empty⟩)

/-! ## What a buffer reports -/

/-- An item is handed back exactly where no space is reported, and an empty buffer reports space. -/
def Truthful (b : AsynBuf α) : Prop :=
  (∀ x, (b.pushBack g x).1 = .full x ↔ b.isSpace = false) ∧ (b.len = 0 → b.isSpace = true)

variable {g} {b : AsynBuf α}

theorem isSpace_iff : b.isSpace = true ↔ b.len < b.cap := decide_eq_true_iff

/-- What a buffer reports is true unless it is empty and has no allocation. -/
theorem truthful_iff : b.Truthful g ↔ (b.len = 0 → 0 < b.cap) := by
  constructor
  · intro h hempty
    have hspace := isSpace_iff.mp (h.2 hempty)
    exact Nat.zero_lt_of_lt hspace
  · intro hcap
    have hempty : b.len = 0 → b.isSpace = true := by
      intro hempty
      rw [isSpace_iff, hempty]
      exact hcap hempty
    refine ⟨fun x => ?_, hempty⟩
    rw [← Bool.not_eq_true, isSpace_iff]
    unfold pushBack
    split
    · rename_i hlen
      have hspace := isSpace_iff.mp (hempty hlen)
      simp [hspace]
    · split
      · rename_i hroom
        exact iff_of_false nofun (not_not.mpr hroom)
      · rename_i hroom
        exact iff_of_true rfl hroom

end AsynBuf

/-! ## Buffers at work -/

/-- A buffer, with the capacity that was given at its creation, the items that it has taken in, and those of them that
have left it -/
structure Used (α : Type) where
  buf : AsynBuf α
  created : ℕ
  ins : List α
  outs : List α

/-- What is done with a buffer.  What {lit}`take` gives becomes a buffer of its own. -/
inductive Op (α : Type) where
  | new (i : ℕ) (cap : ℕ+)
  | pushBack (i : ℕ) (x : α)
  | pushFront (i : ℕ) (x : α)
  | popFront (i : ℕ)
  | take (i j : ℕ)

namespace Used

variable {α : Type} (g : Growth)

/-- A new buffer -/
def new (cap : ℕ+) : Used α := ⟨.new cap, cap, [], []⟩

/-- An item is offered to the buffer. -/
def pushBack (x : α) (u : Used α) : Used α :=
  match u.buf.pushBack g x with
  | (.full _, b) => { u with buf := b }
  | (_, b) => { u with buf := b, ins := u.ins ++ [x] }

/-- An item is put back. -/
def pushFront (x : α) (u : Used α) : Used α := { u with buf := u.buf.pushFront g x, outs := u.outs.dropLast }

/-- An item leaves the buffer, if there is one. -/
def popFront (u : Used α) : Used α :=
  match u.buf.popFront with
  | (some x, b) => { u with buf := b, outs := u.outs ++ [x] }
  | (none, b) => { u with buf := b }

/-- What is taken goes on as it was, and what is left begins anew. -/
def take (u : Used α) : Used α × Used α :=
  ({ u with buf := u.buf.take.1 }, ⟨u.buf.take.2, u.created, [], []⟩)

end Used

variable {α : Type} (g : Growth)

/-- One operation on the buffers.  A buffer is made where there is none, and the others work on one that is there. -/
def step (o : Op α) (s : Pool (Option (Used α))) : Option (Pool (Option (Used α))) :=
  match o with
  | .new i cap => modify s i fun u => if u.isSome then none else some (some (Used.new cap))
  | .pushBack i x => modify s i fun u => u.map fun u => some (u.pushBack g x)
  | .pushFront i x => modify s i fun u => u.map fun u => some (u.pushFront g x)
  | .popFront i => modify s i fun u => u.map fun u => some u.popFront
  | .take i j => if (s j).isSome then none else modifyPair s i j fun u _ => u.map fun u => (some u.take.2, some u.take.1)

/-- No buffer -/
def start : Pool (Option (Used α)) := fun _ => none

/-- The items that have left a buffer are, in order, the first ones that it has taken in. -/
def Fifo (s : Pool (Option (Used α))) : Prop := ∀ i, ∀ u ∈ s i, u.ins = u.outs ++ u.buf.buf.items

/-- Each buffer keeps within its capacity and reports its space truthfully. -/
def Keeps (s : Pool (Option (Used α))) : Prop := ∀ i, ∀ u ∈ s i, u.buf.len ≤ u.created ∧ u.buf.Truthful g

/-- What is put back is the item that has left the buffer last. -/
def PutsBack (o : Op α) (s : Pool (Option (Used α))) : Prop :=
  match o with
  | .pushFront i x => ∀ u ∈ s i, u.outs.getLast? = some x
  | _ => True

/-- Nothing is taken, and an item is put back only where there is space. -/
def Spares (o : Op α) (s : Pool (Option (Used α))) : Prop :=
  match o with
  | .pushFront i _ => ∀ u ∈ s i, u.buf.isSpace = true
  | .take _ _ => False
  | _ => True

/-! ## What an operation does to one buffer -/

namespace Used

variable {g} {u : Used α} {x : α}

/-- The buffer has the capacity that was given at its creation. -/
def Exact (u : Used α) : Prop := u.buf.cap = u.created ∧ 0 < u.created

/-- The buffer keeps within its capacity and reports its space truthfully. -/
def Good (g : Growth) (u : Used α) : Prop := u.buf.len ≤ u.created ∧ u.buf.Truthful g

theorem Exact.good (hu : u.Exact) : u.Good g := by
  refine ⟨hu.1 ▸ u.buf.buf.fits, AsynBuf.truthful_iff.mpr fun _ => ?_⟩
  rw [hu.1]
  exact hu.2

theorem exact_new (cap : ℕ+) : (new cap : Used α).Exact := ⟨rfl, cap.pos⟩

/-- A buffer that takes an item in has room for it. -/
theorem Exact.pushBack (hu : u.Exact) : (u.pushBack g x).Exact := by
  have hcap : 0 < u.buf.buf.capacity := by
    rw [show u.buf.buf.capacity = u.created from hu.1]
    exact hu.2
  unfold Used.pushBack AsynBuf.pushBack
  split_ifs with hempty hroom
  · have hspace : u.buf.buf.length < u.buf.buf.capacity := by omega
    exact ⟨(Deque.capacity_push_of_lt hspace).1.trans hu.1, hu.2⟩
  · exact ⟨(Deque.capacity_push_of_lt hroom).1.trans hu.1, hu.2⟩
  · exact hu

theorem Exact.popFront (hu : u.Exact) : u.popFront.Exact := by
  unfold Used.popFront AsynBuf.popFront
  cases hpop : u.buf.buf.popFront with
  | none => exact hu
  | some p =>
      obtain ⟨x, rest⟩ := p
      exact ⟨(Deque.popFront_eq_some.mp hpop).2.trans hu.1, hu.2⟩

/-- An item that is put back leaves the buffer good exactly if there is space for it. -/
theorem Exact.pushFront (hu : u.Exact) :
    ((u.pushFront g x).Good g → (u.pushFront g x).Exact) ∧ ((u.pushFront g x).Good g ↔ u.buf.isSpace = true) := by
  have hexact : u.buf.isSpace = true → (u.pushFront g x).Exact := by
    intro hspace
    exact ⟨(Deque.capacity_push_of_lt (AsynBuf.isSpace_iff.mp hspace)).2.trans hu.1, hu.2⟩
  have hspace : (u.pushFront g x).Good g → u.buf.isSpace = true := by
    rintro ⟨hlen, -⟩
    rw [AsynBuf.isSpace_iff, hu.1]
    exact hlen
  exact ⟨fun h => hexact (hspace h), hspace, fun h => (hexact h).good⟩

/-- What is left is empty and has no allocation. -/
theorem not_good_take : ¬u.take.2.Good g := fun h => absurd (AsynBuf.truthful_iff.mp h.2 rfl) (lt_irrefl 0)

/-- What has left the buffer and what it holds is what it has taken in. -/
def InOrder (u : Used α) : Prop := u.ins = u.outs ++ u.buf.buf.items

theorem InOrder.pushBack (hu : u.InOrder) : (u.pushBack g x).InOrder := by
  have hpushed : u.ins ++ [x] = u.outs ++ (u.buf.buf.items ++ [x]) := by rw [← List.append_assoc, ← hu]
  unfold Used.pushBack AsynBuf.pushBack
  split_ifs
  · exact hpushed
  · exact hpushed
  · exact hu

theorem InOrder.popFront (hu : u.InOrder) : u.popFront.InOrder := by
  unfold Used.popFront AsynBuf.popFront
  cases hpop : u.buf.buf.popFront with
  | none => exact hu
  | some p =>
      obtain ⟨x, rest⟩ := p
      have hitems := (Deque.popFront_eq_some.mp hpop).1
      rw [InOrder, hitems] at hu
      simpa [InOrder] using hu

/-- An item that is put back is in order exactly if it is the last one that has left. -/
theorem InOrder.pushFront (hu : u.InOrder) : (u.pushFront g x).InOrder ↔ u.outs.getLast? = some x := by
  rw [InOrder] at hu
  simp only [InOrder, Used.pushFront, AsynBuf.pushFront, Deque.items_pushFront, hu]
  cases houts : u.outs using List.reverseRecOn with
  | nil => simp
  | append_singleton init y => simp

end Used

/-! ## What an operation does to all buffers -/

section Steps

variable {g} {o : Op α} {s t : Pool (Option (Used α))} {P : Used α → Prop} {i : ℕ} {x : α}

/-- Each buffer has a property. -/
def All (P : Used α → Prop) (s : Pool (Option (Used α))) : Prop := ∀ i, ∀ u ∈ s i, P u

/-- An operation on one buffer leaves all with a property exactly if the new one has it. -/
theorem all_of_modify {f : Used α → Used α} (hs : All P s)
    (hstep : modify s i (fun u => u.map fun u => some (f u)) = some t) :
    ∃ u, s i = some u ∧ P u ∧ (All P t ↔ P (f u)) := by
  obtain ⟨a, ha, rfl⟩ := modify_eq_some.mp hstep
  obtain ⟨u, hu, rfl⟩ := Option.map_eq_some_iff.mp ha
  have hall := forall_update (P := fun o => ∀ u ∈ o, P u) (i := i) (a := some (f u)) hs
  refine ⟨u, hu, hs i u hu, hall.trans ?_⟩
  simp

/-- A new buffer leaves all with a property exactly if it has it. -/
theorem all_of_new {cap : ℕ+} (hs : All P s) (hstep : step g (.new i cap) s = some t) :
    All P t ↔ P (Used.new cap) := by
  simp only [step] at hstep
  obtain ⟨a, ha, rfl⟩ := modify_eq_some.mp hstep
  split_ifs at ha
  cases ha
  have hall := forall_update (P := fun o => ∀ u ∈ o, P u) (i := i) (a := some (Used.new cap)) hs
  refine hall.trans ?_
  simp

/-- After the content of a buffer is taken, all have a property exactly if the two have it. -/
theorem all_of_take {j : ℕ} (hs : All P s) (hstep : step g (.take i j) s = some t) :
    ∃ u, P u ∧ (All P t ↔ P u.take.2 ∧ P u.take.1) := by
  simp only [step] at hstep
  split_ifs at hstep with hj
  obtain ⟨a, b, hab, rfl⟩ := modifyPair_eq_some.mp hstep
  obtain ⟨u, hu, hp⟩ := Option.map_eq_some_iff.mp hab
  cases hp
  have hne : i ≠ j := by
    rintro rfl
    exact hj (by rw [hu]; rfl)
  have hall := forall_update_update (P := fun o => ∀ u ∈ o, P u) (a := some u.take.2) (b := some u.take.1) hne hs
  refine ⟨u, hs i u hu, hall.trans ?_⟩
  simp

/-- An operation keeps the buffers good exactly if it takes nothing and puts an item back only where there is space. -/
theorem keeps_step (hs : All Used.Exact s) (hstep : step g o s = some t) :
    (Keeps g t → All Used.Exact t) ∧ (Keeps g t ↔ Spares o s) := by
  have hgood : All Used.Exact t → Keeps g t := fun ht i u hu => (ht i u hu).good
  have hsgood : All (Used.Good g) s := fun i u hu => (hs i u hu).good
  cases o with
  | new i cap =>
      have ht := (all_of_new hs hstep).mpr (Used.exact_new cap)
      exact ⟨fun _ => ht, iff_of_true (hgood ht) trivial⟩
  | pushBack i x =>
      obtain ⟨u, -, hu, hiff⟩ := all_of_modify hs hstep
      have ht := hiff.mpr hu.pushBack
      exact ⟨fun _ => ht, iff_of_true (hgood ht) trivial⟩
  | popFront i =>
      obtain ⟨u, -, hu, hiff⟩ := all_of_modify hs hstep
      have ht := hiff.mpr hu.popFront
      exact ⟨fun _ => ht, iff_of_true (hgood ht) trivial⟩
  | pushFront i x =>
      obtain ⟨u, hi, hu, hiff⟩ := all_of_modify hs hstep
      obtain ⟨u', hi', -, hiff'⟩ := all_of_modify hsgood hstep
      obtain rfl := Option.some.inj (hi'.symm.trans hi)
      have hpush := hu.pushFront (g := g) (x := x)
      refine ⟨fun ht => hiff.mpr (hpush.1 (hiff'.mp ht)), (hiff'.trans hpush.2).trans ?_⟩
      simp [Spares, hi]
  | take i j =>
      obtain ⟨u, -, hiff⟩ := all_of_take hsgood hstep
      have hnot : ¬Keeps g t := fun ht => Used.not_good_take (hiff.mp ht).1
      exact ⟨fun ht => absurd ht hnot, iff_of_false hnot id⟩

/-- An operation keeps the items in order exactly if it puts back the last one that has left. -/
theorem fifo_step (hs : Fifo s) (hstep : step g o s = some t) : Fifo t ↔ PutsBack o s := by
  cases o with
  | new i cap => exact iff_of_true ((all_of_new hs hstep).mpr rfl) trivial
  | pushBack i x =>
      obtain ⟨u, -, hu, hiff⟩ := all_of_modify (P := Used.InOrder) hs hstep
      exact iff_of_true (hiff.mpr hu.pushBack) trivial
  | popFront i =>
      obtain ⟨u, -, hu, hiff⟩ := all_of_modify (P := Used.InOrder) hs hstep
      exact iff_of_true (hiff.mpr hu.popFront) trivial
  | pushFront i x =>
      obtain ⟨u, hi, hu, hiff⟩ := all_of_modify (P := Used.InOrder) hs hstep
      refine (hiff.trans hu.pushFront).trans ?_
      simp [PutsBack, hi]
  | take i j =>
      obtain ⟨u, hu, hiff⟩ := all_of_take (P := Used.InOrder) hs hstep
      exact iff_of_true (hiff.mpr ⟨rfl, hu⟩) trivial

end Steps

/-! ## Runs -/

/-- In every run, the items of all buffers are in order exactly if each item that is put back is the last one that has
left; and all buffers keep within their capacities and report their space truthfully exactly if nothing is taken, and
an item is put back only where there is space. -/
theorem keeps_iff (os : List (Op α)) :
    ((∀ s, Reached (step g) os start s → Fifo s) ↔ Along (step g) PutsBack os start) ∧
      ((∀ s, Reached (step g) os start s → Keeps g s) ↔ Along (step g) Spares os start) := by
  constructor
  · apply forall_reached_iff_along
    · intro o s t hs hstep
      exact fifo_step hs hstep
    · exact nofun
  · apply forall_reached_iff_along_of_inv (All Used.Exact)
    · intro o s t hs _ hstep
      exact keeps_step hs hstep
    · exact nofun
    · exact nofun

/-- A growth by doubling, to four at least -/
def doubling : Growth where
  grow n := max (2 * n) 4
  lt_grow n := by omega

/-- After the content is taken, an empty buffer reports that there is no space, and takes in an item all the same. -/
theorem not_keeps : ¬ ∀ os : List (Op ℕ), Along (step doubling) PutsBack os start →
    ∀ s, Reached (step doubling) os start s → Fifo s ∧ Keeps doubling s := by
  intro hall
  have hrun : Slots.run (step doubling) [.new 0 1, .take 0 1] (start : Pool (Option (Used ℕ))) =
      some (Function.update (Function.update (Function.update start 0 (some (Used.new 1))) 0
        (some (Used.new 1).take.2)) 1 (some (Used.new 1).take.1)) := rfl
  have halong : Along (step doubling) PutsBack [.new 0 1, .take 0 1] (start : Pool (Option (Used ℕ))) :=
    fun _ _ => ⟨trivial, fun _ _ => ⟨trivial, trivial⟩⟩
  have hkeeps := (hall _ halong _ ⟨_, List.prefix_rfl, hrun⟩).2
  exact Used.not_good_take (hkeeps 0 (Used.new 1).take.2 rfl)

/-! ## Buffers of a fixed capacity -/

namespace AsynBuf

variable {g} {b : AsynBuf α} {x : α}

/-- The buffer as one of a fixed capacity -/
def toBounded (b : AsynBuf α) : Ca.AsynBuf α b.cap := ⟨b.buf.items, b.buf.fits⟩

/-- A buffer with an allocation takes an item in where one of its capacity does, with the same content then. -/
theorem pushBack_toBounded (hcap : 0 < b.cap) :
    (b.toBounded.pushBack x).map Ca.AsynBuf.buf =
      match b.pushBack g x with
      | (.full _, _) => none
      | (_, b') => some b'.buf.items := by
  have hspace : b.toBounded.isSpace = true ↔ b.buf.length < b.buf.capacity := isSpace_iff
  unfold Ca.AsynBuf.pushBack AsynBuf.pushBack
  by_cases hroom : b.buf.length < b.buf.capacity
  · rw [dif_pos (hspace.mpr hroom)]
    split_ifs <;> rfl
  · have hempty : b.buf.length ≠ 0 := fun h => hroom (h ▸ hcap)
    rw [dif_neg (mt hspace.mp hroom), if_neg hempty, if_neg hroom]
    rfl

/-- Both give the same item. -/
theorem popFront_toBounded : b.toBounded.popFront.map Prod.fst = b.popFront.1 := by
  unfold Ca.AsynBuf.popFront AsynBuf.popFront
  cases hpop : b.buf.popFront with
  | none =>
      have hitems : b.toBounded.buf = [] := Deque.popFront_eq_none.mp hpop
      rw [hitems]
      rfl
  | some p =>
      obtain ⟨x, rest⟩ := p
      have hitems : b.toBounded.buf = x :: rest.items := (Deque.popFront_eq_some.mp hpop).1
      rw [hitems]
      rfl

end AsynBuf

end Asynbuf
end Daqbuf
