import Mathlib.Data.List.Basic
/-!
# Bounded Queues with a Past

A bounded queue of bytes that keeps some of those that were taken from it, so that its reader may go back over them.
What such a queue may do is a relation: at a write it may forget what it has kept.

Main results:

- Theorem {lit}`Allows.refused`: what is held and what was taken stay where an action is refused.
- Theorem {lit}`Runs.written_eq`: what was put is what was taken, and then what is held.
- Theorem {lit}`Runs.taken_eq`: where the reader does not go back, it takes the bytes once each, in order.
-/

namespace Bytes

/-- A queue of bytes with room for {lit}`cap` of them: those that are held, and those that were taken and are kept.  The
others that were taken are gone. -/
structure Tape where
  cap : ℕ
  gone : List UInt8
  kept : List UInt8
  held : List UInt8
  fits : kept.length + held.length ≤ cap

namespace Tape

/-- A new queue -/
def new (cap : ℕ) : Tape where
  cap := cap
  gone := []
  kept := []
  held := []
  fits := Nat.zero_le _

/-- The bytes that were taken -/
def past (q : Tape) : List UInt8 := q.gone ++ q.kept

/-- What was kept is forgotten. -/
def slide (q : Tape) : Tape where
  cap := q.cap
  gone := q.gone ++ q.kept
  kept := []
  held := q.held
  fits := by
    have hfits := q.fits
    simp only [List.length_nil]
    omega

/-- Bytes are added behind those that are held. -/
def append (q : Tape) (bs : List UInt8) (hroom : q.kept.length + q.held.length + bs.length ≤ q.cap) : Tape where
  cap := q.cap
  gone := q.gone
  kept := q.kept
  held := q.held ++ bs
  fits := by
    rw [List.length_append]
    omega

/-- The reader moves to where {lit}`p` of the bytes in the queue are in front of it. -/
def moveTo (q : Tape) (p : ℕ) : Tape where
  cap := q.cap
  gone := q.gone
  kept := (q.kept ++ q.held).take p
  held := (q.kept ++ q.held).drop p
  fits := by
    have hfits := q.fits
    rw [← List.length_append, List.take_append_drop, List.length_append]
    exact hfits

/-- The queue is the same, but can have forgotten what it had kept. -/
def MaySlide (q q' : Tape) : Prop := q' = q ∨ q' = q.slide

/-- What can be asked of the queue -/
inductive Action where
  | put (bs : List UInt8)
  | area (n : ℕ)
  | take (n : ℕ)
  | back (n : ℕ)
  | seek (p : ℕ)
  | keep
  | slide
  | clear

/-- The queue answers an action with bytes, or refuses it, and it is another one after that. -/
def Allows (q q' : Tape) : Action → Option (List UInt8) → Prop
  | .put bs, some r => q.held.length + bs.length ≤ q.cap ∧ r = [] ∧
      ∃ t, q.MaySlide t ∧ ∃ hroom : t.kept.length + t.held.length + bs.length ≤ t.cap, q' = t.append bs hroom
  | .put bs, none => q.cap < q.held.length + bs.length ∧ q.MaySlide q'
  | .area n, some r => q.held.length + n ≤ q.cap ∧ r = [] ∧ q.MaySlide q' ∧
      q'.kept.length + q'.held.length + n ≤ q'.cap
  | .area n, none => q.cap < q.held.length + n ∧ q.MaySlide q'
  | .take n, some r => n ≤ q.held.length ∧ r = q.held.take n ∧ q' = q.moveTo (q.kept.length + n)
  | .take n, none => q.held.length < n ∧ q' = q
  | .back n, some r => n ≤ q.kept.length ∧ r = [] ∧ q' = q.moveTo (q.kept.length - n)
  | .back n, none => q.kept.length < n ∧ q' = q
  | .seek p, some r => p ≤ q.kept.length + q.held.length ∧ r = [] ∧ q' = q.moveTo p
  | .seek p, none => q.kept.length + q.held.length < p ∧ q' = q
  | .keep, some r => r = [] ∧ q.MaySlide q'
  | .slide, some r => r = [] ∧ q' = q.slide
  | .clear, some r => r = q.held ∧ q' = (q.moveTo (q.kept.length + q.held.length)).slide
  | .keep, none | .slide, none | .clear, none => False

/-- A sequence of actions with their answers -/
inductive Runs : List (Action × Option (List UInt8)) → Tape → Tape → Prop
  | nil (q : Tape) : Runs [] q q
  | cons {a : Action} {r : Option (List UInt8)} {es : List (Action × Option (List UInt8))} {q q' q'' : Tape}
      (hstep : q.Allows q' a r) (hrest : Runs es q' q'') : Runs ((a, r) :: es) q q''

/-- The bytes that an action puts, if it is not refused -/
def putBy : Action × Option (List UInt8) → List UInt8
  | (.put bs, some _) => bs
  | _ => []

/-- The bytes that an action takes, if it is not refused -/
def takenBy : Action × Option (List UInt8) → List UInt8
  | (.take _, some r) | (.clear, some r) => r
  | _ => []

/-- The reader does not go back. -/
def Forward : Action × Option (List UInt8) → Prop
  | (.back _, some _) | (.seek _, some _) => False
  | _ => True

variable {q q' : Tape} {a : Action} {r : Option (List UInt8)} {es : List (Action × Option (List UInt8))}

@[simp]
theorem past_new (cap : ℕ) : (new cap).past = [] := rfl

@[simp]
theorem past_slide (q : Tape) : q.slide.past = q.past := List.append_nil _

@[simp]
theorem past_append_held_moveTo (q : Tape) (p : ℕ) : (q.moveTo p).past ++ (q.moveTo p).held = q.past ++ q.held := by
  show q.gone ++ (q.kept ++ q.held).take p ++ (q.kept ++ q.held).drop p = q.gone ++ q.kept ++ q.held
  rw [List.append_assoc, List.take_append_drop, List.append_assoc]

/-- The reader takes the bytes over which it moves ahead. -/
theorem past_moveTo_add (q : Tape) (n : ℕ) : (q.moveTo (q.kept.length + n)).past = q.past ++ q.held.take n := by
  show q.gone ++ (q.kept ++ q.held).take (q.kept.length + n) = q.gone ++ q.kept ++ q.held.take n
  rw [List.take_length_add_append, List.append_assoc]

theorem MaySlide.same (h : q.MaySlide q') : q'.cap = q.cap ∧ q'.past = q.past ∧ q'.held = q.held := by
  rcases h with rfl | rfl
  · exact ⟨rfl, rfl, rfl⟩
  · exact ⟨rfl, past_slide q, rfl⟩

/-- What an action does to all bytes, and to those that were taken -/
theorem Allows.effect (h : q.Allows q' a r) :
    q'.cap = q.cap ∧ q'.past ++ q'.held = q.past ++ q.held ++ putBy (a, r) ∧
      (Forward (a, r) → q'.past = q.past ++ takenBy (a, r)) := by
  cases a with
  | put bs =>
      cases r with
      | some r =>
          obtain ⟨-, -, t, hslide, hroom, rfl⟩ := h
          obtain ⟨hcap, hpast, hheld⟩ := hslide.same
          refine ⟨hcap, ?_, fun _ => hpast.trans (List.append_nil _).symm⟩
          show t.past ++ (t.held ++ bs) = q.past ++ q.held ++ bs
          rw [hpast, hheld, List.append_assoc]
      | none =>
          obtain ⟨hcap, hpast, hheld⟩ := h.2.same
          simp [putBy, takenBy, hcap, hpast, hheld]
  | area n =>
      cases r with
      | some r =>
          obtain ⟨hcap, hpast, hheld⟩ := h.2.2.1.same
          simp [putBy, takenBy, hcap, hpast, hheld]
      | none =>
          obtain ⟨hcap, hpast, hheld⟩ := h.2.same
          simp [putBy, takenBy, hcap, hpast, hheld]
  | take n =>
      cases r with
      | some r =>
          obtain ⟨-, rfl, rfl⟩ := h
          exact ⟨rfl, by simp [putBy], fun _ => past_moveTo_add q n⟩
      | none =>
          obtain ⟨-, rfl⟩ := h
          simp [putBy, takenBy]
  | back n =>
      cases r with
      | some r =>
          obtain ⟨-, -, rfl⟩ := h
          exact ⟨rfl, by simp [putBy], False.elim⟩
      | none =>
          obtain ⟨-, rfl⟩ := h
          simp [putBy, takenBy]
  | seek p =>
      cases r with
      | some r =>
          obtain ⟨-, -, rfl⟩ := h
          exact ⟨rfl, by simp [putBy], False.elim⟩
      | none =>
          obtain ⟨-, rfl⟩ := h
          simp [putBy, takenBy]
  | keep =>
      cases r with
      | some r =>
          obtain ⟨hcap, hpast, hheld⟩ := h.2.same
          simp [putBy, takenBy, hcap, hpast, hheld]
      | none => exact False.elim h
  | slide =>
      cases r with
      | some r =>
          obtain ⟨hcap, hpast, hheld⟩ := MaySlide.same (Or.inr h.2)
          simp [putBy, takenBy, hcap, hpast, hheld]
      | none => exact False.elim h
  | clear =>
      cases r with
      | some r =>
          obtain ⟨rfl, rfl⟩ := h
          refine ⟨rfl, ?_, fun _ => ?_⟩
          · show (q.moveTo (q.kept.length + q.held.length)).slide.past ++ (q.moveTo _).held = _
            rw [past_slide, past_append_held_moveTo]
            exact (List.append_nil _).symm
          · rw [past_slide, past_moveTo_add, List.take_length]
            rfl
      | none => exact False.elim h

/-- What is held and what was taken stay where an action is refused. -/
theorem Allows.refused (h : q.Allows q' a none) : q'.past = q.past ∧ q'.held = q.held := by
  obtain ⟨-, hall, hpast⟩ := h.effect
  have hkeeps : Forward (a, none) ∧ takenBy (a, none) = [] ∧ putBy (a, none) = [] := by
    cases a <;> exact ⟨trivial, rfl, rfl⟩
  have hsame : q'.past = q.past := by rw [hpast hkeeps.1, hkeeps.2.1, List.append_nil]
  rw [hkeeps.2.2, List.append_nil, hsame] at hall
  exact ⟨hsame, List.append_cancel_left hall⟩

/-- No more bytes are held than the queue has room for. -/
theorem length_held_le (q : Tape) : q.held.length ≤ q.cap := Nat.le_trans (Nat.le_add_left _ _) q.fits

/-- What was put is what was taken, and then what is held. -/
theorem Runs.written_eq (h : Runs es q q') :
    q'.cap = q.cap ∧ q'.past ++ q'.held = q.past ++ q.held ++ es.flatMap putBy := by
  induction h with
  | nil q => simp
  | cons hstep _ ih =>
      obtain ⟨hcap, hall, -⟩ := hstep.effect
      rw [ih.1, ih.2, hall, List.flatMap_cons, List.append_assoc]
      exact ⟨hcap, rfl⟩

/-- Where the reader does not go back, it takes the bytes once each. -/
theorem Runs.taken_eq (h : Runs es q q') (hes : ∀ e ∈ es, Forward e) : q'.past = q.past ++ es.flatMap takenBy := by
  induction h with
  | nil q => simp
  | cons hstep _ ih =>
      obtain ⟨-, -, hpast⟩ := hstep.effect
      rw [ih fun e he => hes e (List.mem_cons_of_mem _ he), hpast (hes _ List.mem_cons_self), List.flatMap_cons,
        List.append_assoc]

end Tape

end Bytes
