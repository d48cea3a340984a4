import Daqbuf.Poll.Loop
/-!
# Machines

A machine reacts to an event with some outputs and a new state.  Its runs are lists of events, so that
quantifying over them is quantifying over every order in which the events can come.

Main results:

- Theorem {lit}`Machine.inv_run`: an invariant that each step preserves, where the step meets a
  condition, holds after every run whose steps meet it.
- Theorem {lit}`Machine.outputs_run`: a property of the outputs of each step holds for the outputs of
  such a run.
- Theorem {lit}`Machine.follows_of_rank`: an output that follows where a rank can not be lowered follows.
-/

namespace Poll

variable {σ ε ω : Type*}

/-- A machine, given by what it does on an event. -/
structure Machine (σ ε ω : Type*) where
  step : ε → σ → List ω × σ

namespace Machine

variable (m : Machine σ ε ω)

/-- The outputs of a run and the state after it. -/
def run : List ε → σ → List ω × σ
  | [], s => ([], s)
  | e :: es, s => ((m.step e s).1 ++ (run es (m.step e s).2).1, (run es (m.step e s).2).2)

@[simp]
theorem run_nil (s : σ) : m.run [] s = ([], s) := rfl

theorem run_cons (e : ε) (es : List ε) (s : σ) :
    m.run (e :: es) s = ((m.step e s).1 ++ (m.run es (m.step e s).2).1, (m.run es (m.step e s).2).2) :=
  rfl

/-- A run goes on where another one ended. -/
theorem run_append (es es' : List ε) (s : σ) :
    m.run (es ++ es') s = ((m.run es s).1 ++ (m.run es' (m.run es s).2).1, (m.run es' (m.run es s).2).2) := by
  induction es generalizing s with
  | nil => simp
  | cons e es ih => simp only [List.cons_append, run_cons, ih, List.append_assoc]

/-- Each step of the run meets a condition, in the state in which it happens. -/
def Along (ok : ε → σ → Prop) : List ε → σ → Prop
  | [], _ => True
  | e :: es, s => ok e s ∧ Along ok es (m.step e s).2

instance decidableAlong (ok : ε → σ → Prop) [∀ e s, Decidable (ok e s)] :
    ∀ (es : List ε) (s : σ), Decidable (m.Along ok es s)
  | [], _ => isTrue trivial
  | e :: es, s =>
    have := decidableAlong ok es (m.step e s).2
    inferInstanceAs (Decidable (ok e s ∧ m.Along ok es (m.step e s).2))

variable {m} {ok : ε → σ → Prop} {inv : σ → Prop}

theorem along_append {es es' : List ε} {s : σ} :
    m.Along ok (es ++ es') s ↔ m.Along ok es s ∧ m.Along ok es' (m.run es s).2 := by
  induction es generalizing s with
  | nil => simp [Along]
  | cons e es ih => simp only [List.cons_append, Along, ih, run_cons, and_assoc]

/-- A condition that always holds is met along every run. -/
theorem along_of_forall (hok : ∀ e s, ok e s) (es : List ε) (s : σ) : m.Along ok es s := by
  induction es generalizing s with
  | nil => trivial
  | cons e es ih => exact ⟨hok e s, ih _⟩

/-- An invariant of the steps is an invariant of the runs. -/
theorem inv_run (hstep : ∀ e s, ok e s → inv s → inv (m.step e s).2) {es : List ε} {s : σ}
    (halong : m.Along ok es s) (hinv : inv s) : inv (m.run es s).2 := by
  induction es generalizing s with
  | nil => exact hinv
  | cons e es ih => exact ih halong.2 (hstep e s halong.1 hinv)

/-- What holds for the outputs of each step, as long as an invariant does, holds for those of the run. -/
theorem outputs_run {good : ω → Prop} (hstep : ∀ e s, ok e s → inv s → inv (m.step e s).2)
    (hout : ∀ e s, ok e s → inv s → ∀ o ∈ (m.step e s).1, good o) {es : List ε} {s : σ}
    (halong : m.Along ok es s) (hinv : inv s) : ∀ o ∈ (m.run es s).1, good o := by
  induction es generalizing s with
  | nil => simp
  | cons e es ih =>
      intro o ho
      rw [run_cons] at ho
      rcases List.mem_append.mp ho with ho | ho
      · exact hout e s halong.1 hinv o ho
      · exact ih halong.2 (hstep e s halong.1 hinv) o ho

/-! ## Loops under a clock -/

/-- A loop that is polled again and again, while its timers fire and nothing else happens. -/
def clock {ο : Type*} (tick : σ → σ) (poll : σ → Pass σ ο) : Machine σ Unit ο where
  step _ s :=
    match poll (tick s) with
    | .item x t => ([x], t)
    | .again t | .pending t | .done t => ([], t)
    | .panic => ([], s)

/-- The machine goes on to an output of a kind, by itself. -/
def Follows (m : Machine σ Unit ω) (good : ω → Prop) (s : σ) : Prop :=
  ∃ n, ∃ o ∈ (m.run (List.replicate n ()) s).1, good o

section Follows

variable {m : Machine σ Unit ω} {good : ω → Prop} {s : σ}

/-- An output of the next step follows. -/
theorem follows_of_output {o : ω} (ho : o ∈ (m.step () s).1) (hgood : good o) : m.Follows good s := by
  refine ⟨1, o, ?_, hgood⟩
  rw [List.replicate_one, run_cons]
  exact List.mem_append_left _ ho

/-- What follows after the next step follows. -/
theorem follows_of_step (hnext : m.Follows good (m.step () s).2) : m.Follows good s := by
  rcases hnext with ⟨n, o, ho, hgood⟩
  refine ⟨n + 1, o, ?_, hgood⟩
  rw [List.replicate_succ, run_cons]
  exact List.mem_append_right _ ho

/-- An output follows where it does once a rank can not be lowered any more. -/
theorem follows_of_rank {P : σ → Prop} {r : σ → ℕ}
    (hstep : ∀ s, P s → m.Follows good s ∨ (P (m.step () s).2 ∧ r (m.step () s).2 < r s))
    (hs : P s) : m.Follows good s := by
  induction hrank : r s using Nat.strong_induction_on generalizing s with
  | _ n ih =>
      rcases hstep s hs with hfollows | ⟨hnext, hlt⟩
      · exact hfollows
      · exact follows_of_step (ih _ (hrank ▸ hlt) hnext rfl)

end Follows

end Machine

end Poll
