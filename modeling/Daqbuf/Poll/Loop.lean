import Mathlib
/-!
# Poll Loops

This module is about programs that are written as a `poll_next` function: a loop whose body either
goes round again, returns pending, hands one item to the caller, reports the end of the stream, or
fails an assertion.  One execution of the body is a {lit}`Pass`; the caller polls again and again, and
{lit}`Reaches` relates a state to the states such a caller can bring it to, together with the items
that were handed out on the way.

What a loop reads from is a {lit}`Script`: the answers which the polled source will give, in order.
Quantifying over all scripts is quantifying over everything the source can deliver and over every
pattern of pending answers in between.

Main results:

- Theorem {lit}`Reaches.inv`: an invariant on the emitted items and the state that every pass
  preserves holds in every reachable state.
- Theorem {lit}`drains_of_measure`: if in addition every pass lowers a well-founded measure, and no
  pass panics, then the loop reaches its end.
- Theorem {lit}`Reaches.map`: a function of the state that the passes respect maps runs to runs.
- Theorem {lit}`Drains.unique`: the items that are emitted up to the end are determined by the start.
- Theorem {lit}`drive_drains`: running the loop with fuel computes them.
- Theorem {lit}`forall_reaches_of_checkRun`: it checks all states of a finite run.
-/

namespace Poll

/-! ## Polled sources -/

/-- The answer of one poll that is not yet the end of the source. -/
inductive Answer (α : Type*) where
  | pending
  | ready (x : α)
  deriving DecidableEq, Repr

/-- What a source will answer, poll after poll, before it reports its end. -/
abbrev Script (α : Type*) := List (Answer α)

namespace Script

variable {α : Type*}

/-- The items that a script delivers. -/
def items : Script α → List α
  | [] => []
  | .pending :: rest => items rest
  | .ready x :: rest => x :: items rest

@[simp]
theorem items_nil : items ([] : Script α) = [] := rfl

@[simp]
theorem items_pending (rest : Script α) : items (.pending :: rest) = items rest := rfl

@[simp]
theorem items_ready (x : α) (rest : Script α) : items (.ready x :: rest) = x :: items rest := rfl

/-- The script that delivers the given items and is never pending. -/
def ofItems (xs : List α) : Script α := xs.map .ready

@[simp]
theorem items_ofItems (xs : List α) : items (ofItems xs) = xs := by
  induction xs with
  | nil => rfl
  | cons x xs ih => simpa [ofItems] using ih

end Script

/-! ## Passes of a loop -/

/-- The outcome of one pass through the body of a `poll_next` loop. -/
inductive Pass (σ ο : Type*) where
  /-- `continue` -/
  | again (s : σ)
  /-- `break Pending` -/
  | pending (s : σ)
  /-- `break Ready(Some(x))` -/
  | item (x : ο) (s : σ)
  /-- `break Ready(None)` -/
  | done (s : σ)
  /-- an assertion of the body fails -/
  | panic
  deriving DecidableEq, Repr

variable {σ ο : Type*}

/-- Every way a pass can leave the loop running leads from the items {lit}`xs` emitted so far to
items and a state that satisfy {lit}`Q`; the pass does not panic. -/
def Pass.Ensures (p : Pass σ ο) (xs : List ο) (Q : List ο → σ → Prop) : Prop :=
  match p with
  | .again s => Q xs s
  | .pending s => Q xs s
  | .item x s => Q (xs ++ [x]) s
  | .done _ => True
  | .panic => False

section Ensures

variable {xs : List ο} {Q R : List ο → σ → Prop}

@[simp]
theorem ensures_again (s : σ) : (Pass.again s : Pass σ ο).Ensures xs Q ↔ Q xs s := Iff.rfl

@[simp]
theorem ensures_pending (s : σ) : (Pass.pending s : Pass σ ο).Ensures xs Q ↔ Q xs s := Iff.rfl

@[simp]
theorem ensures_item (x : ο) (s : σ) : (Pass.item x s).Ensures xs Q ↔ Q (xs ++ [x]) s := Iff.rfl

@[simp]
theorem ensures_done (s : σ) : (Pass.done s : Pass σ ο).Ensures xs Q := trivial

@[simp]
theorem ensures_panic : ¬ (Pass.panic : Pass σ ο).Ensures xs Q := id

/-- A weaker condition is ensured as well. -/
theorem Pass.Ensures.mono {p : Pass σ ο} (hp : p.Ensures xs Q) (hQR : ∀ ys s, Q ys s → R ys s) :
    p.Ensures xs R := by
  cases p with
  | again s => exact hQR _ _ hp
  | pending s => exact hQR _ _ hp
  | item x s => exact hQR _ _ hp
  | done s => trivial
  | panic => exact hp

end Ensures

/-- Whatever a pass does, it leaves a state that satisfies {lit}`Q`; it does not panic. -/
def Pass.Leaves (p : Pass σ ο) (Q : σ → Prop) : Prop :=
  match p with
  | .again s | .pending s | .item _ s | .done s => Q s
  | .panic => False

section Leaves

variable {Q R : σ → Prop}

@[simp]
theorem leaves_again (s : σ) : (Pass.again s : Pass σ ο).Leaves Q ↔ Q s := Iff.rfl

@[simp]
theorem leaves_pending (s : σ) : (Pass.pending s : Pass σ ο).Leaves Q ↔ Q s := Iff.rfl

@[simp]
theorem leaves_item (x : ο) (s : σ) : (Pass.item x s).Leaves Q ↔ Q s := Iff.rfl

@[simp]
theorem leaves_done (s : σ) : (Pass.done s : Pass σ ο).Leaves Q ↔ Q s := Iff.rfl

@[simp]
theorem leaves_panic : ¬ (Pass.panic : Pass σ ο).Leaves Q := id

/-- A pass that leaves a state with one property leaves one with a weaker property. -/
theorem Pass.Leaves.mono {p : Pass σ ο} (hp : p.Leaves Q) (hQR : ∀ s, Q s → R s) : p.Leaves R := by
  cases p with
  | again s => exact hQR s hp
  | pending s => exact hQR s hp
  | item x s => exact hQR s hp
  | done s => exact hQR s hp
  | panic => exact hp

end Leaves

/-- What a pass gives, with the state that it leaves; it does not panic. -/
def Pass.Yields (p : Pass σ ο) (R : Option ο → σ → Prop) : Prop :=
  match p with
  | .again s | .pending s | .done s => R none s
  | .item x s => R (some x) s
  | .panic => False

/-- A pass with one effect has a weaker one. -/
theorem Pass.Yields.mono {R R' : Option ο → σ → Prop} {p : Pass σ ο} (hp : p.Yields R)
    (hR : ∀ x s, R x s → R' x s) : p.Yields R' := by
  cases p with
  | again s => exact hR _ _ hp
  | pending s => exact hR _ _ hp
  | item x s => exact hR _ _ hp
  | done s => exact hR _ _ hp
  | panic => exact hp

/-- The state behind a pass that leaves the loop running. -/
def Pass.next? : Pass σ ο → Option σ
  | .again s | .pending s | .item _ s => some s
  | .done _ | .panic => none

/-- A pass that leaves the loop running ensures what holds of the state behind it. -/
theorem Pass.Ensures.of_next? {p : Pass σ ο} {t : σ} {Q : σ → Prop} (hnext : p.next? = some t) (ht : Q t)
    (xs : List ο) : p.Ensures xs fun _ => Q := by
  cases p with
  | again s =>
      obtain rfl := Option.some.inj hnext
      exact ht
  | pending s =>
      obtain rfl := Option.some.inj hnext
      exact ht
  | item x s =>
      obtain rfl := Option.some.inj hnext
      exact ht
  | done s => cases hnext
  | panic => cases hnext

/-- A pass, as seen through a function of the state. -/
def Pass.map {τ : Type*} (f : σ → τ) : Pass σ ο → Pass τ ο
  | .again s => .again (f s)
  | .pending s => .pending (f s)
  | .item x s => .item x (f s)
  | .done s => .done (f s)
  | .panic => .panic

/-! ## Going round -/

/-- At most so many passes of a loop, until one leaves it. -/
def spin (step : σ → Pass σ ο) : ℕ → σ → Pass σ ο
  | 0, s => .again s
  | n + 1, s =>
    match step s with
    | .again t => spin step n t
    | r => r

section Spin

variable {step : σ → Pass σ ο}

theorem spin_succ (n : ℕ) (s : σ) :
    spin step (n + 1) s = match step s with | .again t => spin step n t | r => r := rfl

/-- A pass that leaves the loop is the last one. -/
theorem spin_succ_of_ne_again {s : σ} (hpass : ∀ t, step s ≠ .again t) (n : ℕ) : spin step (n + 1) s = step s := by
  rw [spin_succ]
  split
  · exact absurd (by assumption) (hpass _)
  · rfl

/-- What each pass preserves is preserved by going round. -/
theorem leaves_spin {Q : σ → Prop} (hstep : ∀ s, Q s → (step s).Leaves Q) (n : ℕ) {s : σ} (hs : Q s) :
    (spin step n s).Leaves Q := by
  induction n generalizing s with
  | zero => exact hs
  | succ n ih =>
      have hleaves := hstep s hs
      rw [spin_succ]
      cases hpass : step s with
      | again t =>
          rw [hpass] at hleaves
          exact ih hleaves
      | _ => rwa [hpass] at hleaves

/-- The pass that leaves the loop starts from a state with what the others preserve. -/
theorem exists_last_spin {Q : σ → Prop} (hstep : ∀ s t, Q s → step s = .again t → Q t) {n : ℕ} {s : σ}
    (hs : Q s) : (∃ t, spin step n s = .again t) ∨ ∃ t, Q t ∧ step t = spin step n s := by
  induction n generalizing s with
  | zero => exact .inl ⟨s, rfl⟩
  | succ n ih =>
      rw [spin_succ]
      cases hpass : step s with
      | again t => exact ih (hstep s t hs hpass)
      | _ => exact .inr ⟨s, hs, hpass⟩

/-- What passes do that go round again, and the one behind them, is what going round does. -/
theorem yields_spin {Q : σ → Prop} {R : σ → Option ο → σ → Prop} (hstep : ∀ s, Q s → (step s).Yields (R s))
    (hagain : ∀ s t, Q s → step s = .again t → Q t) (hrefl : ∀ s, R s none s)
    (htrans : ∀ s t x u, R s none t → R t x u → R s x u) (n : ℕ) {s : σ} (hs : Q s) :
    (spin step n s).Yields (R s) := by
  induction n generalizing s with
  | zero => exact hrefl s
  | succ n ih =>
      have hyields := hstep s hs
      rw [spin_succ]
      cases hpass : step s with
      | again t =>
          rw [hpass] at hyields
          exact (ih (hagain s t hs hpass)).mono fun x u => htrans s t x u hyields
      | _ => rwa [hpass] at hyields

/-- Enough passes leave the loop, where each pass that goes round again keeps an invariant and lowers a rank. -/
theorem spin_ne_again_of_inv {Q : σ → Prop} (rank : σ → ℕ)
    (hstep : ∀ s t, Q s → step s = .again t → Q t ∧ rank t < rank s) {n : ℕ} {s : σ} (hs : Q s) (hn : rank s < n)
    (t : σ) : spin step n s ≠ .again t := by
  induction n generalizing s with
  | zero => exact absurd hn (Nat.not_lt_zero _)
  | succ n ih =>
      rw [spin_succ]
      cases hpass : step s with
      | again u =>
          have hu := hstep s u hs hpass
          exact ih hu.1 (by omega)
      | _ => exact nofun

/-- Enough passes leave the loop, where each pass that goes round again lowers a rank. -/
theorem spin_ne_again {rank : σ → ℕ} (hrank : ∀ s t, step s = .again t → rank t < rank s) {n : ℕ} {s : σ}
    (hn : rank s < n) (t : σ) : spin step n s ≠ .again t :=
  spin_ne_again_of_inv (Q := fun _ => True) rank (fun s t _ hpass => ⟨trivial, hrank s t hpass⟩) trivial hn t

end Spin

/-! ## Runs -/

/-- Polling from {lit}`s` can hand out exactly {lit}`xs` and leave the loop in the last state. -/
inductive Reaches (step : σ → Pass σ ο) (s : σ) : List ο → σ → Prop
  | refl : Reaches step s [] s
  | again {xs : List ο} {t u : σ} :
      Reaches step s xs t → step t = .again u → Reaches step s xs u
  | pending {xs : List ο} {t u : σ} :
      Reaches step s xs t → step t = .pending u → Reaches step s xs u
  | item {xs : List ο} {t u : σ} {x : ο} :
      Reaches step s xs t → step t = .item x u → Reaches step s (xs ++ [x]) u

/-- Polling from {lit}`s` hands out exactly {lit}`xs` and then reports the end of the stream. -/
def Drains (step : σ → Pass σ ο) (s : σ) (xs : List ο) : Prop :=
  ∃ t u, Reaches step s xs t ∧ step t = .done u

/-- Some pass of the run from {lit}`s` fails an assertion. -/
def Panics (step : σ → Pass σ ο) (s : σ) : Prop :=
  ∃ xs t, Reaches step s xs t ∧ step t = .panic

section Runs

variable {step : σ → Pass σ ο} {s t u : σ} {xs ys : List ο}

/-- Invariant rule: what holds at the start and is preserved by every pass holds of every reachable
state, together with the items emitted before it. -/
theorem Reaches.inv {I : List ο → σ → Prop} (hrun : Reaches step s xs t) (hstart : I [] s)
    (hstep : ∀ ys v, Reaches step s ys v → I ys v → (step v = .panic ∨ (step v).Ensures ys I)) :
    I xs t := by
  induction hrun with
  | refl => exact hstart
  | again hrun hpass ih => simpa [hpass] using hstep _ _ hrun ih
  | pending hrun hpass ih => simpa [hpass] using hstep _ _ hrun ih
  | item hrun hpass ih => simpa [hpass] using hstep _ _ hrun ih

/-- A pass that leaves the loop running is a run. -/
theorem Reaches.of_next? (hnext : (step s).next? = some t) : ∃ xs, Reaches step s xs t := by
  cases hpass : step s with
  | again u =>
      rw [hpass] at hnext
      obtain rfl := Option.some.inj hnext
      exact ⟨_, .again .refl hpass⟩
  | pending u =>
      rw [hpass] at hnext
      obtain rfl := Option.some.inj hnext
      exact ⟨_, .pending .refl hpass⟩
  | item x u =>
      rw [hpass] at hnext
      obtain rfl := Option.some.inj hnext
      exact ⟨_, .item .refl hpass⟩
  | done u =>
      rw [hpass] at hnext
      cases hnext
  | panic =>
      rw [hpass] at hnext
      cases hnext

/-- Runs compose. -/
theorem Reaches.trans (hfst : Reaches step s xs t) (hsnd : Reaches step t ys u) :
    Reaches step s (xs ++ ys) u := by
  induction hsnd with
  | refl => simpa using hfst
  | again _ hpass ih => exact .again ih hpass
  | pending _ hpass ih => exact .pending ih hpass
  | item _ hpass ih => rw [← List.append_assoc]; exact .item ih hpass

/-- A run may begin with a pass that goes round again. -/
theorem Reaches.again_head (hpass : step s = .again t) (hrun : Reaches step t xs u) :
    Reaches step s xs u := by
  simpa using (Reaches.again .refl hpass).trans hrun

/-- A run may begin with a pending pass. -/
theorem Reaches.pending_head (hpass : step s = .pending t) (hrun : Reaches step t xs u) :
    Reaches step s xs u := by
  simpa using (Reaches.pending .refl hpass).trans hrun

/-- A run may begin with a pass that hands out an item. -/
theorem Reaches.item_head {x : ο} (hpass : step s = .item x t) (hrun : Reaches step t xs u) :
    Reaches step s (x :: xs) u := by
  simpa using (Reaches.item .refl hpass).trans hrun

/-- Every run either is empty or begins with the pass of its first state. -/
theorem Reaches.cases_head (hrun : Reaches step s xs u) :
    (xs = [] ∧ u = s) ∨
      (∃ t, (step s = .again t ∨ step s = .pending t) ∧ Reaches step t xs u) ∨
      (∃ x t zs, step s = .item x t ∧ xs = x :: zs ∧ Reaches step t zs u) := by
  induction hrun with
  | refl => exact .inl ⟨rfl, rfl⟩
  | again hrun hpass ih =>
      rcases ih with ⟨rfl, rfl⟩ | ⟨t, hfirst, hrest⟩ | ⟨x, t, zs, hfirst, rfl, hrest⟩
      · exact .inr (.inl ⟨_, .inl hpass, .refl⟩)
      · exact .inr (.inl ⟨t, hfirst, hrest.again hpass⟩)
      · exact .inr (.inr ⟨x, t, zs, hfirst, rfl, hrest.again hpass⟩)
  | pending hrun hpass ih =>
      rcases ih with ⟨rfl, rfl⟩ | ⟨t, hfirst, hrest⟩ | ⟨x, t, zs, hfirst, rfl, hrest⟩
      · exact .inr (.inl ⟨_, .inr hpass, .refl⟩)
      · exact .inr (.inl ⟨t, hfirst, hrest.pending hpass⟩)
      · exact .inr (.inr ⟨x, t, zs, hfirst, rfl, hrest.pending hpass⟩)
  | item hrun hpass ih =>
      rcases ih with ⟨rfl, rfl⟩ | ⟨t, hfirst, hrest⟩ | ⟨x, t, zs, hfirst, rfl, hrest⟩
      · exact .inr (.inr ⟨_, _, [], hpass, rfl, .refl⟩)
      · exact .inr (.inl ⟨t, hfirst, hrest.item hpass⟩)
      · exact .inr (.inr ⟨x, t, zs ++ [_], hfirst, rfl, hrest.item hpass⟩)

/-- A run goes over into a run of another loop by a function that the passes on its way respect. -/
theorem Reaches.map {τ : Type*} {step' : τ → Pass τ ο} {f : σ → τ} (hrun : Reaches step s xs t)
    (hstep : ∀ ys v w, Reaches step s ys v → (step v).next? = some w → (∃ zs, Reaches step w zs t) →
      step' (f v) = (step v).map f) :
    Reaches step' (f s) xs (f t) := by
  induction hrun with
  | refl => exact .refl
  | again hrun hpass ih =>
      have hlast := hstep _ _ _ hrun (by rw [hpass]; rfl) ⟨_, .refl⟩
      rw [hpass] at hlast
      refine .again (ih fun ys v w hv hw hreach => hstep ys v w hv hw ?_) hlast
      exact hreach.imp fun zs hzs => hzs.again hpass
  | pending hrun hpass ih =>
      have hlast := hstep _ _ _ hrun (by rw [hpass]; rfl) ⟨_, .refl⟩
      rw [hpass] at hlast
      refine .pending (ih fun ys v w hv hw hreach => hstep ys v w hv hw ?_) hlast
      exact hreach.imp fun zs hzs => hzs.pending hpass
  | item hrun hpass ih =>
      have hlast := hstep _ _ _ hrun (by rw [hpass]; rfl) ⟨_, .refl⟩
      rw [hpass] at hlast
      refine .item (ih fun ys v w hv hw hreach => hstep ys v w hv hw ?_) hlast
      exact hreach.elim fun zs hzs => ⟨_, hzs.item hpass⟩

/-- A pass that reports the end drains nothing. -/
theorem Drains.of_done (hpass : step s = .done t) : Drains step s [] :=
  ⟨s, t, .refl, hpass⟩

/-- Draining may begin with a pass that goes round again. -/
theorem Drains.of_again (hpass : step s = .again t) (hrest : Drains step t xs) :
    Drains step s xs := by
  rcases hrest with ⟨u, v, hrun, hdone⟩
  exact ⟨u, v, hrun.again_head hpass, hdone⟩

/-- Draining may begin with a pending pass. -/
theorem Drains.of_pending (hpass : step s = .pending t) (hrest : Drains step t xs) :
    Drains step s xs := by
  rcases hrest with ⟨u, v, hrun, hdone⟩
  exact ⟨u, v, hrun.pending_head hpass, hdone⟩

/-- Draining may begin with a pass that hands out an item. -/
theorem Drains.of_item {x : ο} (hpass : step s = .item x t) (hrest : Drains step t xs) :
    Drains step s (x :: xs) := by
  rcases hrest with ⟨u, v, hrun, hdone⟩
  exact ⟨u, v, hrun.item_head hpass, hdone⟩

/-- Draining may begin with any run. -/
theorem Drains.of_reaches (hrun : Reaches step s xs t) (hrest : Drains step t ys) : Drains step s (xs ++ ys) := by
  rcases hrest with ⟨u, v, hrest, hdone⟩
  exact ⟨u, v, hrun.trans hrest, hdone⟩

/-- Termination rule: an invariant that every pass preserves while lowering a well-founded measure,
without a panic, leads to the end of the stream. -/
theorem drains_of_measure {β : Type*} [Preorder β] [WellFoundedLT β] (μ : σ → β)
    {I : List ο → σ → Prop} (hstart : I [] s)
    (hstep : ∀ ys v, Reaches step s ys v → I ys v →
      (step v).Ensures ys fun zs w => I zs w ∧ μ w < μ v) :
    ∃ xs t u, Reaches step s xs t ∧ I xs t ∧ step t = .done u := by
  suffices hgoal : ∀ b : β, ∀ ys v, μ v = b → Reaches step s ys v → I ys v →
      ∃ xs t u, Reaches step s xs t ∧ I xs t ∧ step t = .done u from
    hgoal _ [] s rfl .refl hstart
  intro b
  induction b using WellFoundedLT.induction with
  | ind b ih =>
      intro ys v hb hrun hinv
      subst b
      have hpost := hstep ys v hrun hinv
      cases hpass : step v with
      | again w =>
          rw [hpass] at hpost
          exact ih _ hpost.2 ys w rfl (hrun.again hpass) hpost.1
      | pending w =>
          rw [hpass] at hpost
          exact ih _ hpost.2 ys w rfl (hrun.pending hpass) hpost.1
      | item x w =>
          rw [hpass] at hpost
          exact ih _ hpost.2 _ w rfl (hrun.item hpass) hpost.1
      | done w => exact ⟨ys, v, w, hrun, hinv, hpass⟩
      | panic =>
          rw [hpass] at hpost
          exact hpost.elim

/-! ## Determinism -/

/-- Of two runs from one state, the one that ends in a final pass extends the other. -/
theorem Reaches.prefix_of_final (hrun : Reaches step s xs t) (hother : Reaches step s ys u)
    (hfinal : step u = .panic ∨ ∃ v, step u = .done v) :
    ∃ zs, ys = xs ++ zs ∧ Reaches step t zs u := by
  induction hrun with
  | refl => exact ⟨ys, rfl, hother⟩
  | again _ hpass ih =>
      rcases ih with ⟨zs, rfl, hrest⟩
      rcases hrest.cases_head with ⟨rfl, rfl⟩ | ⟨v, hv, hvrun⟩ | ⟨x, v, ws, hv, rfl, hvrun⟩
      · simp [hpass] at hfinal
      · simp only [hpass, Pass.again.injEq, reduceCtorEq, or_false] at hv
        exact ⟨zs, rfl, hv ▸ hvrun⟩
      · simp [hpass] at hv
  | pending _ hpass ih =>
      rcases ih with ⟨zs, rfl, hrest⟩
      rcases hrest.cases_head with ⟨rfl, rfl⟩ | ⟨v, hv, hvrun⟩ | ⟨x, v, ws, hv, rfl, hvrun⟩
      · simp [hpass] at hfinal
      · simp only [hpass, Pass.pending.injEq, reduceCtorEq, false_or] at hv
        exact ⟨zs, rfl, hv ▸ hvrun⟩
      · simp [hpass] at hv
  | item _ hpass ih =>
      rcases ih with ⟨zs, rfl, hrest⟩
      rcases hrest.cases_head with ⟨rfl, rfl⟩ | ⟨v, hv, hvrun⟩ | ⟨x, v, ws, hv, rfl, hvrun⟩
      · simp [hpass] at hfinal
      · simp [hpass] at hv
      · simp only [hpass, Pass.item.injEq] at hv
        rcases hv with ⟨rfl, rfl⟩
        exact ⟨ws, by simp, hvrun⟩

/-- The emitted items of a run to the end are determined by its start. -/
theorem Drains.unique (hxs : Drains step s xs) (hys : Drains step s ys) : xs = ys := by
  rcases hxs with ⟨t, t', htrun, ht⟩
  rcases hys with ⟨u, u', hurun, hu⟩
  rcases htrun.prefix_of_final hurun (.inr ⟨u', hu⟩) with ⟨zs, rfl, hrest⟩
  rcases hrest.cases_head with ⟨rfl, rfl⟩ | ⟨v, hv, _⟩ | ⟨x, v, ws, hv, _, _⟩
  · simp
  · simp [ht] at hv
  · simp [ht] at hv

/-- A run to the end excludes a panic. -/
theorem Drains.not_panics (hxs : Drains step s xs) : ¬ Panics step s := by
  rintro ⟨ys, u, hurun, hu⟩
  rcases hxs with ⟨t, t', htrun, ht⟩
  rcases htrun.prefix_of_final hurun (.inl hu) with ⟨zs, rfl, hrest⟩
  rcases hrest.cases_head with ⟨rfl, rfl⟩ | ⟨v, hv, _⟩ | ⟨x, v, ws, hv, _, _⟩
  · simp [ht] at hu
  · simp [ht] at hv
  · simp [ht] at hv

end Runs

/-! ## Executable runs -/

/-- Polls at most {lit}`fuel` passes; the items of a run that reported its end. -/
def drive (step : σ → Pass σ ο) : ℕ → σ → Option (List ο)
  | 0, _ => none
  | fuel + 1, s =>
      match step s with
      | .again t => drive step fuel t
      | .pending t => drive step fuel t
      | .item x t => (drive step fuel t).map (x :: ·)
      | .done _ => some []
      | .panic => none

/-- What the fuelled run computes is what polling hands out. -/
theorem drive_drains {step : σ → Pass σ ο} (fuel : ℕ) {s : σ} {xs : List ο}
    (hdrive : drive step fuel s = some xs) : Drains step s xs := by
  induction fuel generalizing s xs with
  | zero => simp [drive] at hdrive
  | succ fuel ih =>
      unfold drive at hdrive
      split at hdrive <;> rename_i hpass
      · exact .of_again hpass (ih hdrive)
      · exact .of_pending hpass (ih hdrive)
      · rcases Option.map_eq_some_iff.mp hdrive with ⟨ys, hys, rfl⟩
        exact .of_item hpass (ih hys)
      · simp only [Option.some.injEq] at hdrive
        subst xs
        exact .of_done hpass
      · simp at hdrive

/-- Runs at most {lit}`fuel` passes and checks {lit}`p` at every state, with the items handed out
before it. -/
def checkRun (step : σ → Pass σ ο) (p : List ο → σ → Bool) : ℕ → List ο → σ → Bool
  | 0, _, _ => false
  | fuel + 1, xs, s =>
      p xs s &&
        match step s with
        | .again t => checkRun step p fuel xs t
        | .pending t => checkRun step p fuel xs t
        | .item x t => checkRun step p fuel (xs ++ [x]) t
        | .done _ => true
        | .panic => true

/-- What was checked along a finite run holds of every state that polling reaches. -/
theorem forall_reaches_of_checkRun {step : σ → Pass σ ο} {p : List ο → σ → Bool} (fuel : ℕ) {s : σ}
    {ys : List ο} (hcheck : checkRun step p fuel ys s = true) {xs : List ο} {t : σ}
    (hrun : Reaches step s xs t) : p (ys ++ xs) t = true := by
  induction fuel generalizing s xs ys with
  | zero => simp [checkRun] at hcheck
  | succ fuel ih =>
      unfold checkRun at hcheck
      rw [Bool.and_eq_true] at hcheck
      rcases hcheck with ⟨hhere, hcheck⟩
      rcases hrun.cases_head with ⟨rfl, rfl⟩ | ⟨u, hpass | hpass, hrest⟩ | ⟨x, u, zs, hpass, rfl, hrest⟩
      · simpa using hhere
      · rw [hpass] at hcheck
        exact ih hcheck hrest
      · rw [hpass] at hcheck
        exact ih hcheck hrest
      · rw [hpass] at hcheck
        simpa using ih hcheck hrest

end Poll
