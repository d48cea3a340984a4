import Daqbuf.Scylla.Sitems
/-!
# Merging Streams with Notes

The streams of the stores carry log entries, statistics and errors beside their batches.  {lit}`LspMerge` passes on
what it finds so while it polls its inputs, and ends with the first error.

Main results:

- Theorem {lit}`Merging.checkInputs_items`: one call hands out what comes first, or an item of an input that is no
  batch.
- Theorem {lit}`LspMerge.mergesItems`: over any inputs whose events are in order, the chunks are their events, merged
  in order, and every log entry and statistics is passed on once, unless an input fails or a loop gives up.
-/

namespace Daqbuf
namespace Scylla

open Netpod Poll Items Search
open Items.ContainerEvents (eventsOf slotEvents)
open LspMerge (Error)

variable {V E : Type*}

/-! ## Any input -/

namespace Inp

/-- The items that an input will still deliver -/
def items (inp : Inp (ContainerEvents V) E) : List (Sitemty2 (ContainerEvents V) E) :=
  Script.items (inp.evs.getD [])

/-- The polls of the input that are left -/
def weight (inp : Inp (ContainerEvents V) E) : ℕ :=
  match inp.evs with
  | none => 0
  | some sc => sc.length + 1

/-- The container in the buffer is not empty. -/
def Held (inp : Inp (ContainerEvents V) E) : Prop := ∀ c, inp.buf = some c → c.evs ≠ []

/-- The input as if it delivered nothing but its batches. -/
def view (inp : Inp (ContainerEvents V) E) : Inp (ContainerEvents V) E :=
  { inp with evs := some (inp.upcoming.map fun c => .ready (sitem2Data c)) }

end Inp

/-- The batches are the data of the items. -/
theorem batches_eq (sc : Script (Sitemty2 (ContainerEvents V) E)) : batches sc = datas2 (Script.items sc) := by
  induction sc with
  | nil => rfl
  | cons answer rest ih =>
      cases answer with
      | pending => exact ih
      | ready x =>
          rw [Script.items_ready, datas2_cons]
          cases x with
          | error e => exact ih
          | ok x =>
              cases x with
              | dataItem d =>
                  cases d with
                  | rangeComplete => exact ih
                  | data c => simp [batches, ih]
              | log l => exact ih
              | stats t => exact ih

namespace Inp

variable {inp : Inp (ContainerEvents V) E}

theorem upcoming_eq (inp : Inp (ContainerEvents V) E) : inp.upcoming = datas2 inp.items := batches_eq _

@[simp]
theorem upcoming_view : inp.view.upcoming = inp.upcoming := by
  have hbatches : ∀ cs : List (ContainerEvents V),
      batches (cs.map fun c => (.ready (sitem2Data c) : Answer (Sitemty2 (ContainerEvents V) E))) = cs := by
    intro cs
    induction cs with
    | nil => rfl
    | cons c cs ih => simp [batches, ih]
  exact hbatches inp.upcoming

@[simp]
theorem rest_view : inp.view.rest = inp.rest := by
  have hup : inp.view.upcoming = inp.upcoming := upcoming_view
  rw [rest, rest, hup]
  rfl

theorem live_view (hheld : inp.Held) : inp.view.Live where
  evs := by
    refine ⟨_, rfl, ?_⟩
    intro x hx
    obtain ⟨c, _, hc⟩ := List.mem_map.mp hx
    exact ⟨c, (Answer.ready.inj hc).symm⟩
  buf := hheld

end Inp

/-- What an input's item becomes that is no batch -/
def passedOn : Sitemty2 (ContainerEvents V) E → Option (Sitemty2 Unit (Error E))
  | .ok (.dataItem (.data _)) => none
  | .ok (.dataItem .rangeComplete) => some (.ok (.dataItem .rangeComplete))
  | .ok (.log l) => some (.ok (.log l))
  | .ok (.stats t) => some (.ok (.stats t))
  | .error e => some (.error (.inputBoxed e))

/-- What is passed on is no batch. -/
theorem data2?_of_passedOn {x : Sitemty2 (ContainerEvents V) E} {y : Sitemty2 Unit (Error E)}
    (hpass : passedOn x = some y) : data2? x = none := by
  cases x with
  | error e => rfl
  | ok x =>
      cases x with
      | dataItem d =>
          cases d with
          | rangeComplete => rfl
          | data c => cases hpass
      | log l => rfl
      | stats t => rfl

variable [EventValueType V]

namespace Merging

/-- What one poll of an input does. -/
inductive InpPolled (inp : Inp (ContainerEvents V) E) (hpp : HaveProgressPending) :
    Inp (ContainerEvents V) E × Option (Sitemty2 Unit (Error E)) × HaveProgressPending → Prop
  /-- there is nothing to poll -/
  | idle (hidle : inp.buf.isSome ∨ retained inp = false) : InpPolled inp hpp (inp, none, hpp)
  | pending {next : Inp (ContainerEvents V) E} (hbuf : next.buf = inp.buf) (hitems : next.items = inp.items)
      (hkept : retained next = true) (hweight : next.weight < inp.weight) :
      InpPolled inp hpp (next, none, hpp.markPending)
  | progress {next : Inp (ContainerEvents V) E} (hheld : next.Held) (hrest : next.rest = inp.rest)
      (hweight : next.weight < inp.weight) (hnotes : notes2 next.items = notes2 inp.items)
      (herrors : errors2 next.items = errors2 inp.items)
      (hanswers : retained next = true → next.answers < inp.answers) (hpos : 0 < inp.answers)
      (hrun : emptyRun next.upcoming ≤ emptyRun inp.upcoming) :
      InpPolled inp hpp (next, none, hpp.markProgress)
  /-- an item that is no batch -/
  | stop {next : Inp (ContainerEvents V) E} {x : Sitemty2 (ContainerEvents V) E} {y : Sitemty2 Unit (Error E)}
      (hheld : next.Held) (hbuf : next.buf = inp.buf) (hweight : next.weight < inp.weight)
      (hitems : inp.items = x :: next.items) (hpass : passedOn x = some y) :
      InpPolled inp hpp (next, some y, hpp.markProgress)

/-- Every poll of an input does one of these. -/
theorem pollInp_polled {inp : Inp (ContainerEvents V) E} (hheld : inp.Held) (hpp : HaveProgressPending) :
    InpPolled inp hpp (pollInp inp hpp) := by
  rcases inp with ⟨evs, buf⟩
  cases buf with
  | some c =>
      have hlen : c.len ≠ 0 := by
        have hne := hheld c rfl
        simpa [ContainerEvents.len] using hne
      have heq : pollInp (⟨evs, some c⟩ : Inp (ContainerEvents V) E) hpp = (⟨evs, some c⟩, none, hpp) := by
        simp [pollInp, hlen]
      rw [heq]
      exact .idle (.inl rfl)
  | none =>
      cases evs with
      | none => exact .idle (.inr rfl)
      | some sc =>
          cases sc with
          | nil =>
              change InpPolled _ hpp (⟨none, none⟩, none, hpp.markProgress)
              refine .progress ?_ rfl ?_ rfl rfl ?_ ?_ le_rfl
              · intro c hc
                cases hc
              · simp [Inp.weight]
              · simp [retained]
              · simp [Inp.answers]
          | cons answer rest =>
              cases answer with
              | pending =>
                  change InpPolled _ hpp (⟨some rest, none⟩, none, hpp.markPending)
                  refine .pending rfl rfl rfl ?_
                  simp [Inp.weight]
              | ready x =>
                  have hnone : Inp.Held (⟨some rest, none⟩ : Inp (ContainerEvents V) E) := by
                    intro c hc
                    cases hc
                  have hweight : Inp.weight (⟨some rest, none⟩ : Inp (ContainerEvents V) E) <
                      Inp.weight (⟨some (.ready x :: rest), none⟩ : Inp (ContainerEvents V) E) := by
                    simp [Inp.weight]
                  cases x with
                  | error e => exact .stop hnone rfl hweight rfl rfl
                  | ok x =>
                      cases x with
                      | log l => exact .stop hnone rfl hweight rfl rfl
                      | stats t => exact .stop hnone rfl hweight rfl rfl
                      | dataItem d =>
                          cases d with
                          | rangeComplete => exact .stop hnone rfl hweight rfl rfl
                          | data c =>
                              by_cases hempty : c.evs = []
                              · have heq : pollInp (⟨some (.ready (sitem2Data c) :: rest), none⟩ :
                                    Inp (ContainerEvents V) E) hpp = (⟨some rest, none⟩, none, hpp.markProgress) := by
                                  simp [pollInp, ContainerEvents.len, hempty]
                                rw [heq]
                                apply InpPolled.progress hnone _ hweight
                                · simp [Inp.items]
                                · simp [Inp.items]
                                · intro _
                                  simp [Inp.answers, Inp.upcoming, batches, nextEmpties, hempty]
                                · simp [Inp.answers]
                                · exact emptyRun_tail_le _ _
                                · simp [Inp.rest, Inp.upcoming, batches, hempty]
                              · have heq : pollInp (⟨some (.ready (sitem2Data c) :: rest), none⟩ :
                                    Inp (ContainerEvents V) E) hpp = (⟨some rest, some c⟩, none, hpp.markProgress) := by
                                  simp [pollInp, ContainerEvents.len, hempty]
                                rw [heq]
                                apply InpPolled.progress
                                · intro d hd
                                  obtain rfl := Option.some.inj hd
                                  exact hempty
                                · simp [Inp.rest, Inp.upcoming, batches]
                                · exact hweight
                                · simp [Inp.items]
                                · simp [Inp.items]
                                · simp [Inp.answers]
                                · simp [Inp.answers]
                                · exact emptyRun_tail_le _ _

/-! ## All inputs -/

/-- The polls of the inputs that are left -/
def weights (inps : List (Inp (ContainerEvents V) E)) : ℕ := (inps.map Inp.weight).sum

/-- The log entries and statistics that the inputs will deliver -/
def leftNotes (inps : List (Inp (ContainerEvents V) E)) : List (LogItem ⊕ StatsItem) :=
  inps.flatMap fun inp => notes2 inp.items

/-- The errors that the inputs will deliver -/
def leftErrors (inps : List (Inp (ContainerEvents V) E)) : List E := inps.flatMap fun inp => errors2 inp.items

section Lists

omit [EventValueType V]

variable (inp : Inp (ContainerEvents V) E) (inps : List (Inp (ContainerEvents V) E))

@[simp]
theorem weights_cons : weights (inp :: inps) = inp.weight + weights inps := by simp [weights]

@[simp]
theorem leftNotes_cons : leftNotes (inp :: inps) = notes2 inp.items ++ leftNotes inps := List.flatMap_cons

@[simp]
theorem leftErrors_cons : leftErrors (inp :: inps) = errors2 inp.items ++ leftErrors inps := List.flatMap_cons

/-- An input that is not retained has ended. -/
theorem ended_of_not_retained {inp : Inp (ContainerEvents V) E} (hended : retained inp = false) :
    inp.evs = none ∧ inp.buf = none := by
  simpa [retained, and_comm] using hended

/-- An input that is not retained could have answered once more. -/
theorem answers_of_not_retained {inp : Inp (ContainerEvents V) E} (hended : retained inp = false) :
    inp.answers = 1 := by
  obtain ⟨hevs, hbuf⟩ := ended_of_not_retained hended
  simp [Inp.answers, hbuf, Inp.upcoming, hevs, batches, nextEmpties]

theorem answers_filter_cons : answers ((inp :: inps).filter retained) =
    (if retained inp then inp.answers else 0) + answers (inps.filter retained) := by
  rw [List.filter_cons]
  split_ifs
  · rw [answers_cons]
  · rw [Nat.zero_add]

/-- What goes out with the inputs that have ended -/
structure SameLeft (before after : List (Inp (ContainerEvents V) E)) : Prop where
  flatten : (after.map Inp.rest).flatten = (before.map Inp.rest).flatten
  sublist : (after.map Inp.rest).Sublist (before.map Inp.rest)
  notes : leftNotes after = leftNotes before
  errors : leftErrors after = leftErrors before
  weights : weights after ≤ weights before
  bound : answersBound after ≤ answersBound before

/-- Dropping the inputs that have ended changes nothing of what is left. -/
theorem sameLeft_filter : SameLeft inps (inps.filter retained) := by
  induction inps with
  | nil => exact ⟨rfl, List.Sublist.refl _, rfl, rfl, le_rfl, le_rfl⟩
  | cons inp inps ih =>
      cases hkept : retained inp with
      | true =>
          rw [List.filter_cons_of_pos hkept]
          refine ⟨by simp [ih.flatten], by simpa using ih.sublist, by simp [ih.notes], by simp [ih.errors], ?_, ?_⟩
          · simpa using ih.weights
          · rw [answersBound_cons, answersBound_cons]
            have hbound := ih.bound
            omega
      | false =>
          obtain ⟨hevs, hbuf⟩ := ended_of_not_retained hkept
          have hrest : inp.rest = [] := by simp [Inp.rest, hbuf, Inp.upcoming, hevs, batches]
          have hitems : inp.items = [] := by simp [Inp.items, hevs]
          rw [List.filter_cons_of_neg (by simp [hkept])]
          refine ⟨by simp [hrest, ih.flatten], ?_, by simp [hitems, ih.notes], by simp [hitems, ih.errors], ?_, ?_⟩
          · rw [List.map_cons]
            exact ih.sublist.cons _
          · rw [weights_cons]
            exact ih.weights.trans (Nat.le_add_left _ _)
          · rw [answersBound_cons]
            exact ih.bound.trans (Nat.le_add_left _ _)

end Lists

/-- What the loop over the inputs does that goes to their end. -/
structure WentOn (inps after : List (Inp (ContainerEvents V) E)) (hpp marks : HaveProgressPending) : Prop where
  notes : leftNotes after = leftNotes inps
  errors : leftErrors after = leftErrors inps
  answers_le : answers (after.filter retained) ≤ answers inps
  keepsMarks : (hpp.progress → marks.progress) ∧ (hpp.pending → marks.pending)
  progress : (marks.progress = true ∨ ¬ ∀ inp ∈ after, retained inp = true) →
    hpp.progress = true ∨ answers (after.filter retained) < answers inps
  pending : marks.pending → hpp.pending = true ∨ weights after < weights inps
  idle : ¬ marks.progress → ¬ marks.pending → ∀ inp ∈ after, inp.buf.isSome ∨ retained inp = false

/-- What the loop over the inputs does that an item ends which is no batch. -/
structure Stopped (inps after : List (Inp (ContainerEvents V) E)) (y : Sitemty2 Unit (Error E)) : Prop where
  weight : weights after < weights inps
  passes : ∃ x : Sitemty2 (ContainerEvents V) E, passedOn x = some y ∧
    (notes2 [x] ++ leftNotes after).Perm (leftNotes inps) ∧ (errors2 [x] ++ leftErrors after).Perm (leftErrors inps)

/-- What the loop over the inputs does. -/
structure PolledItems (inps : List (Inp (ContainerEvents V) E)) (hpp : HaveProgressPending)
    (x : List (Inp (ContainerEvents V) E) × Option (Sitemty2 Unit (Error E)) × HaveProgressPending) : Prop where
  held : ∀ next ∈ x.1, next.Held
  rest : x.1.map Inp.rest = inps.map Inp.rest
  weights_le : weights x.1 ≤ weights inps
  bound_le : answersBound x.1 ≤ answersBound inps
  outcome : (x.2.1 = none ∧ WentOn inps x.1 hpp x.2.2) ∨ ∃ y, x.2.1 = some y ∧ Stopped inps x.1 y

omit [EventValueType V] in
/-- An input that goes on before a loop that an item ends -/
theorem Stopped.cons {inp next : Inp (ContainerEvents V) E} {inps after : List (Inp (ContainerEvents V) E)}
    {y : Sitemty2 Unit (Error E)} (hstop : Stopped inps after y) (hnotes : notes2 next.items = notes2 inp.items)
    (herrors : errors2 next.items = errors2 inp.items) (hweight : next.weight ≤ inp.weight) :
    Stopped (inp :: inps) (next :: after) y where
  weight := by
    have hlt := hstop.weight
    rw [weights_cons, weights_cons]
    omega
  passes := by
    obtain ⟨x, hpass, hperm, hperm'⟩ := hstop.passes
    refine ⟨x, hpass, ?_, ?_⟩
    · rw [leftNotes_cons, leftNotes_cons, hnotes]
      exact (List.perm_append_comm_assoc _ _ _).trans (hperm.append_left _)
    · rw [leftErrors_cons, leftErrors_cons, herrors]
      exact (List.perm_append_comm_assoc _ _ _).trans (hperm'.append_left _)

omit [EventValueType V] in
/-- An input that goes on before the others -/
theorem PolledItems.cons {inp next : Inp (ContainerEvents V) E} {inps : List (Inp (ContainerEvents V) E)}
    {hpp hpp' : HaveProgressPending}
    {x : List (Inp (ContainerEvents V) E) × Option (Sitemty2 Unit (Error E)) × HaveProgressPending}
    (hrec : PolledItems inps hpp' x) (hheld : next.Held) (hrest : next.rest = inp.rest)
    (hweight : next.weight ≤ inp.weight) (hrun : emptyRun next.upcoming ≤ emptyRun inp.upcoming)
    (hwent : WentOn inps x.1 hpp' x.2.2 → WentOn (inp :: inps) (next :: x.1) hpp x.2.2)
    (hstop : ∀ y, Stopped inps x.1 y → Stopped (inp :: inps) (next :: x.1) y) :
    PolledItems (inp :: inps) hpp (next :: x.1, x.2) where
  held := by
    intro other hother
    rcases List.mem_cons.mp hother with rfl | hother
    · exact hheld
    · exact hrec.held other hother
  rest := by rw [List.map_cons, List.map_cons, hrest, hrec.rest]
  weights_le := by
    have hle := hrec.weights_le
    rw [weights_cons, weights_cons]
    omega
  bound_le := by
    have hle := hrec.bound_le
    rw [answersBound_cons, answersBound_cons]
    omega
  outcome := by
    obtain ⟨hnone, hw⟩ | ⟨y, hsome, hs⟩ := hrec.outcome
    · exact .inl ⟨hnone, hwent hw⟩
    · exact .inr ⟨y, hsome, hstop y hs⟩

section Cons

variable {inp next : Inp (ContainerEvents V) E} {inps after : List (Inp (ContainerEvents V) E)}
  {hpp marks : HaveProgressPending}

omit [EventValueType V] in
/-- Where an input is retained and can answer as often as before, the other inputs make the progress. -/
theorem WentOn.progress_of_retained (hwent : WentOn inps after hpp marks) (hkept : retained next = true)
    (hanswers : next.answers = inp.answers)
    (hmark : marks.progress = true ∨ ¬ ∀ other ∈ next :: after, retained other = true) :
    hpp.progress = true ∨ answers ((next :: after).filter retained) < answers (inp :: inps) := by
  have hothers : marks.progress = true ∨ ¬ ∀ other ∈ after, retained other = true := by
    refine hmark.imp_right fun hall hafter => hall fun other hother => ?_
    rcases List.mem_cons.mp hother with rfl | hother
    · exact hkept
    · exact hafter other hother
  rw [answers_filter_cons, answers_cons, if_pos hkept, hanswers]
  exact (hwent.progress hothers).imp_right fun hlt => Nat.add_lt_add_left hlt _

omit [EventValueType V] in
/-- An input that has a container, or has ended, is not polled. -/
theorem WentOn.cons_idle (hwent : WentOn inps after hpp marks) (hidle : inp.buf.isSome ∨ retained inp = false) :
    WentOn (inp :: inps) (inp :: after) hpp marks where
  notes := by simp [hwent.notes]
  errors := by simp [hwent.errors]
  answers_le := by
    have hle := hwent.answers_le
    rw [answers_filter_cons, answers_cons]
    split_ifs <;> omega
  keepsMarks := hwent.keepsMarks
  progress := by
    intro hmark
    cases hkept : retained inp with
    | true => exact hwent.progress_of_retained hkept rfl hmark
    | false =>
        have hone := answers_of_not_retained hkept
        have hle := hwent.answers_le
        right
        rw [answers_filter_cons, answers_cons, hkept]
        simp only [Bool.false_eq_true, if_false]
        omega
  pending := by
    intro hmark
    apply (hwent.pending hmark).imp_right
    intro hlt
    simpa using hlt
  idle := by
    intro hno hno'
    simpa [hidle] using hwent.idle hno hno'

omit [EventValueType V] in
/-- An input that is pending marks so. -/
theorem WentOn.cons_pending (hwent : WentOn inps after hpp.markPending marks) (hbuf : next.buf = inp.buf)
    (hitems : next.items = inp.items) (hkept : retained next = true) (hweight : next.weight < inp.weight)
    (hweights : weights after ≤ weights inps) : WentOn (inp :: inps) (next :: after) hpp marks := by
  have hup : next.upcoming = inp.upcoming := by rw [Inp.upcoming_eq, Inp.upcoming_eq, hitems]
  have hsame : next.answers = inp.answers := by simp [Inp.answers, hbuf, hup]
  have hpend := hwent.keepsMarks.2 rfl
  refine ⟨by simp [hitems, hwent.notes], by simp [hitems, hwent.errors], ?_,
    ⟨hwent.keepsMarks.1, fun _ => hpend⟩, hwent.progress_of_retained hkept hsame, ?_, ?_⟩
  · have hle := hwent.answers_le
    rw [answers_filter_cons, answers_cons, if_pos hkept]
    omega
  · intro _
    right
    rw [weights_cons, weights_cons]
    omega
  · intro _ hno
    exact absurd hpend hno

omit [EventValueType V] in
/-- An input that delivers a batch, or ends, marks progress, and can answer less often after that. -/
theorem WentOn.cons_progress (hwent : WentOn inps after hpp.markProgress marks) (hweight : next.weight < inp.weight)
    (hnotes : notes2 next.items = notes2 inp.items) (herrors : errors2 next.items = errors2 inp.items)
    (hanswers : retained next = true → next.answers < inp.answers) (hpos : 0 < inp.answers)
    (hweights : weights after ≤ weights inps) : WentOn (inp :: inps) (next :: after) hpp marks := by
  have hprog := hwent.keepsMarks.1 rfl
  have hlt : answers ((next :: after).filter retained) < answers (inp :: inps) := by
    have hle := hwent.answers_le
    rw [answers_filter_cons, answers_cons]
    split_ifs with hkept
    · have hdrop := hanswers hkept
      omega
    · omega
  refine ⟨by simp [hnotes, hwent.notes], by simp [herrors, hwent.errors], hlt.le,
    ⟨fun _ => hprog, hwent.keepsMarks.2⟩, fun _ => .inr hlt, ?_, ?_⟩
  · intro _
    right
    rw [weights_cons, weights_cons]
    omega
  · intro hno
    exact absurd hprog hno

omit [EventValueType V] in
/-- An item that is no batch ends the loop, and the other inputs are not polled. -/
theorem PolledItems.stop {x : Sitemty2 (ContainerEvents V) E} {y : Sitemty2 Unit (Error E)} (hheld : next.Held)
    (hothers : ∀ other ∈ inps, other.Held) (hbuf : next.buf = inp.buf) (hweight : next.weight < inp.weight)
    (hitems : inp.items = x :: next.items) (hpass : passedOn x = some y) :
    PolledItems (inp :: inps) hpp (next :: inps, some y, marks) := by
  have hup : next.upcoming = inp.upcoming := by
    rw [Inp.upcoming_eq, Inp.upcoming_eq, hitems, datas2_cons, data2?_of_passedOn hpass]
    rfl
  refine ⟨?_, ?_, ?_, ?_, .inr ⟨y, rfl, ?_, x, hpass, ?_, ?_⟩⟩
  · exact List.forall_mem_cons.mpr ⟨hheld, hothers⟩
  · rw [List.map_cons, List.map_cons, Inp.rest, Inp.rest, hbuf, hup]
  · rw [weights_cons, weights_cons]
    omega
  · rw [answersBound_cons, answersBound_cons, hup]
  · rw [weights_cons, weights_cons]
    omega
  · simp [hitems]
  · simp [hitems]

end Cons

/-- The loop over the inputs changes nothing of the events that are left. -/
theorem pollInps_items {inps : List (Inp (ContainerEvents V) E)} (hheld : ∀ inp ∈ inps, inp.Held)
    (hpp : HaveProgressPending) : PolledItems inps hpp (pollInps inps hpp) := by
  induction inps generalizing hpp with
  | nil =>
      refine ⟨by simp [pollInps], rfl, le_rfl, le_rfl, .inl ⟨rfl, rfl, rfl, le_rfl, ⟨id, id⟩, ?_, .inl, ?_⟩⟩
      · rintro (hmark | hnone)
        · exact .inl hmark
        · exact absurd (by simp [pollInps]) hnone
      · simp [pollInps]
  | cons inp inps ih =>
      obtain ⟨hinp, hothers⟩ := List.forall_mem_cons.mp hheld
      have hinps := ih hothers
      have hpolled := pollInp_polled hinp hpp
      rw [pollInps]
      generalize pollInp inp hpp = result at hpolled
      cases hpolled with
      | idle hidle =>
          refine (hinps hpp).cons hinp rfl le_rfl le_rfl ?_ ?_
          · exact fun hwent => hwent.cons_idle hidle
          · exact fun y hstop => hstop.cons rfl rfl le_rfl
      | @pending next hbuf hitems hkept hweight =>
          have hrec := hinps hpp.markPending
          have hup : next.upcoming = inp.upcoming := by rw [Inp.upcoming_eq, Inp.upcoming_eq, hitems]
          refine hrec.cons ?_ ?_ hweight.le ?_ ?_ ?_
          · rw [Inp.Held, hbuf]
            exact hinp
          · rw [Inp.rest, Inp.rest, hbuf, hup]
          · rw [hup]
          · exact fun hwent => hwent.cons_pending hbuf hitems hkept hweight hrec.weights_le
          · exact fun y hstop => hstop.cons (by rw [hitems]) (by rw [hitems]) hweight.le
      | @progress next hnheld hrest hweight hnotes herrors hanswers hpos hrun =>
          have hrec := hinps hpp.markProgress
          refine hrec.cons hnheld hrest hweight.le hrun ?_ ?_
          · exact fun hwent => hwent.cons_progress hweight hnotes herrors hanswers hpos hrec.weights_le
          · exact fun y hstop => hstop.cons hnotes herrors hweight.le
      | @stop next x y hnheld hbuf hweight hitems hpass =>
          exact .stop hnheld hothers hbuf hweight hitems hpass

/-! ## Polling until all have a container -/

/-- The same notes and errors are left. -/
structure SameItems (before after : List (Inp (ContainerEvents V) E)) : Prop where
  notes : leftNotes after = leftNotes before
  errors : leftErrors after = leftErrors before

/-- How {lit}`poll_all_inp` ends with {lit}`n` rounds. -/
inductive PollEnds (n : ℕ) (before after : List (Inp (ContainerEvents V) E)) :
    Answer (Option (Sitemty2 Unit (Error E))) → Prop
  | pending (hsame : SameItems before after) (hweight : weights after < weights before) :
      PollEnds n before after .pending
  | data (hsame : SameItems before after) (hbufs : ∀ inp ∈ after, inp.buf.isSome) :
      PollEnds n before after (.ready (some (sitem2Data ())))
  | tooMany (hmany : n ≤ answers before) : PollEnds n before after (.ready (some (.error .loopTooMany)))
  | stop {y : Sitemty2 Unit (Error E)} (hstop : Stopped before after y) : PollEnds n before after (.ready (some y))

/-- What {lit}`poll_all_inp` does with {lit}`n` rounds. -/
structure PolledAllItems (n : ℕ) (s : Merging (ContainerEvents V) E)
    (x : Answer (Option (Sitemty2 Unit (Error E))) × Merging (ContainerEvents V) E) : Prop where
  frame : x.2 = { s with inps := x.2.inps }
  held : ∀ inp ∈ x.2.inps, inp.Held
  sublist : (x.2.inps.map Inp.rest).Sublist (s.inps.map Inp.rest)
  flatten : (x.2.inps.map Inp.rest).flatten = (s.inps.map Inp.rest).flatten
  weights_le : weights x.2.inps ≤ weights s.inps
  bound_le : answersBound x.2.inps ≤ answersBound s.inps
  ends : PollEnds n s.inps x.2.inps x.1

/-- Polling the inputs changes nothing of the events that are left. -/
theorem pollAllInp_items (n : ℕ) (s : Merging (ContainerEvents V) E) (hheld : ∀ inp ∈ s.inps, inp.Held) :
    PolledAllItems n s (pollAllInp n s) := by
  induction n generalizing s with
  | zero => exact ⟨rfl, hheld, List.Sublist.refl _, rfl, le_rfl, le_rfl, .tooMany (Nat.zero_le _)⟩
  | succ n ih =>
      have honce := pollInps_items hheld {}
      rcases hx : pollInps s.inps {} with ⟨inps, stop, hpp⟩
      rw [hx] at honce
      obtain ⟨hnone, hwent⟩ | ⟨y, hsome, hstop⟩ := honce.outcome
      · obtain rfl : stop = none := hnone
        have hleft := sameLeft_filter inps
        have hkept : ∀ inp ∈ inps.filter retained, inp.Held := by
          intro inp hinp
          exact honce.held inp (List.mem_filter.mp hinp).1
        have hsub : ((inps.filter retained).map Inp.rest).Sublist (s.inps.map Inp.rest) := by
          rw [← honce.rest]
          exact hleft.sublist
        have hflat : ((inps.filter retained).map Inp.rest).flatten = (s.inps.map Inp.rest).flatten := by
          rw [hleft.flatten, honce.rest]
        have hweights : weights (inps.filter retained) ≤ weights s.inps := hleft.weights.trans honce.weights_le
        have hbound : answersBound (inps.filter retained) ≤ answersBound s.inps := hleft.bound.trans honce.bound_le
        have hsame : SameItems s.inps (inps.filter retained) :=
          ⟨hleft.notes.trans hwent.notes, hleft.errors.trans hwent.errors⟩
        by_cases hprog : hpp.progress = true ∨ ¬ ∀ inp ∈ inps, retained inp = true
        · have hlt := (hwent.progress hprog).resolve_left (by simp)
          have heq : pollAllInp (n + 1) s = pollAllInp n { s with inps := inps.filter retained } := by
            have hmark : (if inps.length ≠ (inps.filter retained).length then hpp.markProgress else hpp).progress =
                true := by
              split_ifs with hlen
              · rfl
              · rcases hprog with hprog | hdropped
                · exact hprog
                · exact absurd (List.length_filter_eq_length_iff.mp (not_not.mp hlen).symm) hdropped
            simp only [pollAllInp, hx, hmark, if_true]
          have hrec := ih { s with inps := inps.filter retained } hkept
          rw [heq]
          refine ⟨hrec.frame, hrec.held, hrec.sublist.trans hsub, hrec.flatten.trans hflat,
            hrec.weights_le.trans hweights, hrec.bound_le.trans hbound, ?_⟩
          have hends := hrec.ends
          generalize pollAllInp n { s with inps := inps.filter retained } = result at hends
          obtain ⟨answer, last⟩ := result
          dsimp only at hends ⊢
          cases hends with
          | pending hsame' hweight =>
              exact .pending ⟨hsame'.notes.trans hsame.notes, hsame'.errors.trans hsame.errors⟩
                (hweight.trans_le hweights)
          | data hsame' hbufs =>
              exact .data ⟨hsame'.notes.trans hsame.notes, hsame'.errors.trans hsame.errors⟩ hbufs
          | tooMany hmany => exact .tooMany (Nat.succ_le_of_lt (hmany.trans_lt hlt))
          | stop hstop =>
              obtain ⟨x, hpass, hperm, hperm'⟩ := hstop.passes
              refine .stop ⟨hstop.weight.trans_le hweights, x, hpass, ?_, ?_⟩
              · rw [← hsame.notes]
                exact hperm
              · rw [← hsame.errors]
                exact hperm'
        · obtain ⟨hno, hall⟩ := not_or.mp hprog
          rw [not_not] at hall
          have hsameList : inps.filter retained = inps := List.filter_eq_self.mpr hall
          by_cases hpend : hpp.pending = true
          · have heq : pollAllInp (n + 1) s = (.pending, { s with inps := inps.filter retained }) := by
              simp only [pollAllInp, hx]
              simp [hsameList, hno, hpend]
            have hlt := (hwent.pending hpend).resolve_left (by simp)
            rw [heq]
            exact ⟨rfl, hkept, hsub, hflat, hweights, hbound, .pending hsame (hleft.weights.trans_lt hlt)⟩
          · have hbufs : ∀ inp ∈ inps, inp.buf.isSome := by
              intro inp hinp
              rcases hwent.idle hno hpend inp hinp with hbuf | hended
              · exact hbuf
              · rw [hall inp hinp] at hended
                cases hended
            have hnil : (inps.filter fun inp => inp.buf.isNone) = [] := by
              rw [List.filter_eq_nil_iff]
              intro inp hinp
              simp [Option.isSome_iff_ne_none.mp (hbufs inp hinp)]
            have heq : pollAllInp (n + 1) s =
                (.ready (some (sitem2Data ())), { s with inps := inps.filter retained }) := by
              simp only [pollAllInp, hx]
              simp [hsameList, hno, hpend, hnil]
            rw [heq]
            refine ⟨rfl, hkept, hsub, hflat, hweights, hbound, .data hsame ?_⟩
            intro inp hinp
            exact hbufs inp (List.mem_filter.mp hinp).1
      · obtain rfl : stop = some y := hsome
        have heq : pollAllInp (n + 1) s = (.ready (some y), { s with inps := inps }) := by
          simp only [pollAllInp, hx]
        rw [heq]
        refine ⟨rfl, honce.held, ?_, ?_, honce.weights_le, honce.bound_le, .stop hstop⟩
        · rw [honce.rest]
        · rw [honce.rest]

/-! ## Draining a view -/

/-- The state as if its inputs delivered nothing but their batches. -/
def view (s : Merging (ContainerEvents V) E) : Merging (ContainerEvents V) E :=
  { s with inps := s.inps.map Inp.view }

section View

omit [EventValueType V]

variable (s : Merging (ContainerEvents V) E)

@[simp] theorem view_inps : s.view.inps = s.inps.map Inp.view := rfl
@[simp] theorem view_evbuf : s.view.evbuf = s.evbuf := rfl
@[simp] theorem view_lspLimit : s.view.lspLimit = s.lspLimit := rfl
@[simp] theorem view_lspMinfill : s.view.lspMinfill = s.lspMinfill := rfl

end View

/-- The end of a round, seen so -/
def Drained.view : Drained (ContainerEvents V) E → Drained (ContainerEvents V) E
  | .item x s => .item x s.view
  | .next s => .next s.view

/-- The state behind a round -/
def Drained.state : Drained (ContainerEvents V) E → Merging (ContainerEvents V) E
  | .item _ s => s
  | .next s => s

omit [EventValueType V] in
theorem setBuf_view (s : Merging (ContainerEvents V) E) (ix : ℕ) (buf : Option (ContainerEvents V)) :
    s.view.setBuf ix buf = (s.setBuf ix buf).view := by
  have hmodify : ∀ (inps : List (Inp (ContainerEvents V) E)) (ix : ℕ),
      (inps.map Inp.view).modify ix (fun inp => { inp with buf := buf }) =
        (inps.modify ix fun inp => { inp with buf := buf }).map Inp.view := by
    intro inps
    induction inps with
    | nil =>
        intro ix
        cases ix <;> rfl
    | cons inp inps ih =>
        intro ix
        cases ix with
        | zero => rfl
        | succ ix => simpa using ih ix
  rw [setBuf, view, hmodify]
  rfl

omit [EventValueType V] in
theorem setBuf_evs (s : Merging (ContainerEvents V) E) (ix : ℕ) (buf : Option (ContainerEvents V)) :
    (s.setBuf ix buf).inps.map Inp.evs = s.inps.map Inp.evs := by
  have hmodify : ∀ (inps : List (Inp (ContainerEvents V) E)) (ix : ℕ),
      (inps.modify ix fun inp => { inp with buf := buf }).map Inp.evs = inps.map Inp.evs := by
    intro inps
    induction inps with
    | nil =>
        intro ix
        cases ix <;> rfl
    | cons inp inps ih =>
        intro ix
        cases ix with
        | zero => rfl
        | succ ix => simpa using ih ix
  exact hmodify s.inps ix

/-- A drain does the same to the view, and takes nothing from the inputs' streams. -/
theorem drain_view (s : Merging (ContainerEvents V) E) (ix : ℕ) (b2 : ContainerEvents V) (i3 : ℕ) :
    s.view.drain ix b2 i3 = (s.drain ix b2 i3).view ∧
      (s.drain ix b2 i3).state.inps.map Inp.evs = s.inps.map Inp.evs := by
  rw [drain, drain, view_evbuf]
  cases s.evbuf with
  | some evbuf =>
      dsimp only
      simp only [drainToBuf, view_lspLimit, setBuf_view, ContainerEvents.mergeable_drainInto,
        ContainerEvents.drain_prefix]
      split_ifs
      · exact ⟨rfl, rfl⟩
      · exact ⟨rfl, setBuf_evs _ _ _⟩
      · exact ⟨rfl, setBuf_evs _ _ _⟩
      · exact ⟨rfl, setBuf_evs _ _ _⟩
      · exact ⟨rfl, setBuf_evs _ _ _⟩
  | none =>
      dsimp only
      simp only [drainToNew, view_lspLimit, view_lspMinfill, setBuf_view, ContainerEvents.mergeable_drainIntoNew,
        ContainerEvents.drainIntoNew_prefix]
      split_ifs
      · exact ⟨rfl, setBuf_evs _ _ _⟩
      · exact ⟨rfl, setBuf_evs _ _ _⟩
      · exact ⟨rfl, setBuf_evs _ _ _⟩
      · exact ⟨rfl, setBuf_evs _ _ _⟩
      · exact ⟨rfl, setBuf_evs _ _ _⟩

/-! ## One call -/

/-- An item of an input, as it is handed on -/
def handOn : Sitemty2 (ContainerEvents V) E → Sitemty2 (ContainerEvents V) (Error E)
  | .ok x => .ok x
  | .error e => .error (.inputBoxed e)

section Same

omit [EventValueType V]

variable {inps inps' : List (Inp (ContainerEvents V) E)}

/-- What is left depends on the streams of the inputs only. -/
theorem same_of_evs (hevs : inps'.map Inp.evs = inps.map Inp.evs) :
    weights inps' = weights inps ∧ leftNotes inps' = leftNotes inps ∧ leftErrors inps' = leftErrors inps ∧
      answersBound inps' = answersBound inps := by
  induction inps generalizing inps' with
  | nil =>
      obtain rfl := List.map_eq_nil_iff.mp hevs
      exact ⟨rfl, rfl, rfl, rfl⟩
  | cons inp inps ih =>
      cases inps' with
      | nil => cases hevs
      | cons inp' inps' =>
          rw [List.map_cons, List.map_cons, List.cons.injEq] at hevs
          obtain ⟨hinp, hrest⟩ := hevs
          obtain ⟨hweights, hnotes, herrors, hbound⟩ := ih hrest
          refine ⟨?_, ?_, ?_, ?_⟩
          · rw [weights_cons, weights_cons, hweights, Inp.weight, Inp.weight, hinp]
          · rw [leftNotes_cons, leftNotes_cons, hnotes, Inp.items, Inp.items, hinp]
          · rw [leftErrors_cons, leftErrors_cons, herrors, Inp.items, Inp.items, hinp]
          · rw [answersBound_cons, answersBound_cons, hbound, Inp.upcoming, Inp.upcoming, hinp]

theorem rests_view (inps : List (Inp (ContainerEvents V) E)) :
    (inps.map Inp.view).map Inp.rest = inps.map Inp.rest := by
  rw [List.map_map]
  apply List.map_congr_left
  intro inp _
  exact Inp.rest_view

/-- The buffers are not empty. -/
theorem Inv.held {all out : List (EventSingle V)} {s : Merging (ContainerEvents V) E} (hinv : Inv all s.view out) :
    ∀ inp ∈ s.inps, inp.Held := by
  intro inp hinp
  exact (hinv.live inp.view (List.mem_map_of_mem hinp)).buf

/-- Polling the inputs keeps what holds between two calls. -/
theorem PolledAllItems.inv {n : ℕ} {all out : List (EventSingle V)} {s : Merging (ContainerEvents V) E}
    {x : Answer (Option (Sitemty2 Unit (Error E))) × Merging (ContainerEvents V) E}
    (hpoll : PolledAllItems n s x) (hinv : Inv all s.view out) : Inv all x.2.view out := by
  have hleft := hinv.left
  rw [view_inps, rests_view] at hleft
  have hframe := hpoll.frame
  refine ⟨?_, ?_, ?_, ?_, ?_⟩
  · have hnext := hleft.drop_nil hpoll.sublist hpoll.flatten
    rw [view_inps, rests_view, hframe]
    exact hnext
  · intro inp hinp
    obtain ⟨inp', hinp', rfl⟩ := List.mem_map.mp hinp
    exact Inp.live_view (hpoll.held inp' hinp')
  · rw [hframe]
    exact hinv.evbuf
  · rw [hframe]
    exact hinv.limit
  · rw [hframe]
    exact hinv.minfill

end Same

/-- The lowest timestamps are those of the buffers. -/
theorem findNextTs_view (s : Merging (ContainerEvents V) E) : s.view.findNextTs = s.findNextTs := by
  have hfrom : ∀ (inps : List (Inp (ContainerEvents V) E)) (ix : ℕ) (acc : Merger.Tslows),
      findNextTsFrom (inps.map Inp.view) ix acc = findNextTsFrom inps ix acc := by
    intro inps
    induction inps with
    | nil =>
        intro ix acc
        rfl
    | cons inp inps ih =>
        intro ix acc
        rw [List.map_cons, findNextTsFrom, findNextTsFrom]
        have hbuf : inp.view.buf = inp.buf := rfl
        rw [hbuf]
        cases inp.buf with
        | none => rfl
        | some buf =>
            dsimp only
            cases MergeableTy.tsMin buf with
            | none => rfl
            | some ts => exact ih _ _
  exact hfrom s.inps 0 (none, none)

/-- What one call of {lit}`check_inputs` with {lit}`n` rounds leads to. -/
inductive CallItems (all out : List (EventSingle V)) (s : Merging (ContainerEvents V) E) (n : ℕ) :
    Pass (Merging (ContainerEvents V) E) (Sitemty2 (ContainerEvents V) (Error E)) → Prop
  | pending {next : Merging (ContainerEvents V) E} (hinv : Inv all next.view out)
      (hlimit : next.lspLimit = s.lspLimit) (hweight : weights next.inps < weights s.inps)
      (hbound : answersBound next.inps ≤ answersBound s.inps) (hsame : SameItems s.inps next.inps) :
      CallItems all out s n (.pending next)
  | chunk {c : ContainerEvents V} {next : Merging (ContainerEvents V) E} (hinv : Inv all next.view (out ++ c.evs))
      (hne : c.evs ≠ []) (hlen : c.len ≤ s.lspLimit) (hlimit : next.lspLimit = s.lspLimit)
      (hweight : weights next.inps ≤ weights s.inps) (hbound : answersBound next.inps ≤ answersBound s.inps)
      (hsame : SameItems s.inps next.inps) : CallItems all out s n (.item (sitem2Data c) next)
  | passed {x : Sitemty2 (ContainerEvents V) E} {next : Merging (ContainerEvents V) E}
      (hinv : Inv all next.view out) (hlimit : next.lspLimit = s.lspLimit) (hdata : data2? x = none)
      (hweight : weights next.inps < weights s.inps) (hbound : answersBound next.inps ≤ answersBound s.inps)
      (hnotes : (notes2 [x] ++ leftNotes next.inps).Perm (leftNotes s.inps))
      (herrors : (errors2 [x] ++ leftErrors next.inps).Perm (leftErrors s.inps)) :
      CallItems all out s n (.item (handOn x) next)
  | tooMany {next : Merging (ContainerEvents V) E}
      (hmany : n + (slotEvents s.evbuf).length < s.lspLimit ∨ 200 ≤ answersBound s.inps) :
      CallItems all out s n (.item (.error .loopTooMany) next)
  | done {next : Merging (ContainerEvents V) E} (hperm : out.Perm all) (hnotes : leftNotes s.inps = []) :
      CallItems all out s n (.done next)

section Call

variable {all out : List (EventSingle V)} {s mid : Merging (ContainerEvents V) E}

omit [EventValueType V] in
theorem SameItems.trans {a b c : List (Inp (ContainerEvents V) E)} (hab : SameItems a b) (hbc : SameItems b c) :
    SameItems a c := ⟨hbc.notes.trans hab.notes, hbc.errors.trans hab.errors⟩

omit [EventValueType V] in
/-- What holds after a round of the call holds after the call. -/
theorem CallItems.of_round {n : ℕ}
    {x : Pass (Merging (ContainerEvents V) E) (Sitemty2 (ContainerEvents V) (Error E))}
    (hcall : CallItems all out mid n x) (hlimit : mid.lspLimit = s.lspLimit)
    (hmore : (slotEvents s.evbuf).length < (slotEvents mid.evbuf).length)
    (hweight : weights mid.inps ≤ weights s.inps) (hbound : answersBound mid.inps ≤ answersBound s.inps)
    (hsame : SameItems s.inps mid.inps) : CallItems all out s (n + 1) x := by
  cases hcall with
  | pending hinv hlim hw hbd hs =>
      exact .pending hinv (hlim.trans hlimit) (hw.trans_le hweight) (hbd.trans hbound) (hsame.trans hs)
  | chunk hinv hne hlen hlim hw hbd hs =>
      exact .chunk hinv hne (hlimit ▸ hlen) (hlim.trans hlimit) (hw.trans hweight) (hbd.trans hbound)
        (hsame.trans hs)
  | passed hinv hlim hdata hw hbd hnotes herrors =>
      exact .passed hinv (hlim.trans hlimit) hdata (hw.trans_le hweight) (hbd.trans hbound)
        (hsame.notes ▸ hnotes) (hsame.errors ▸ herrors)
  | tooMany hmany =>
      apply CallItems.tooMany
      rcases hmany with hrounds | hanswers
      · left
        omega
      · exact .inr (hanswers.trans hbound)
  | done hperm hnotes => exact .done hperm (hsame.notes ▸ hnotes)

/-- An item that ended the polls is handed on. -/
theorem checkInputs_stop {n : ℕ} {x : Sitemty2 (ContainerEvents V) E} {y : Sitemty2 Unit (Error E)}
    (hpass : passedOn x = some y) (hpoll : pollAllInp 200 s = (.ready (some y), mid)) :
    checkInputs (n + 1) s = .item (handOn x) mid := by
  cases x with
  | error e =>
      obtain rfl := Option.some.inj hpass
      simp only [checkInputs, hpoll]
      rfl
  | ok x =>
      cases x with
      | dataItem d =>
          cases d with
          | rangeComplete =>
              obtain rfl := Option.some.inj hpass
              simp only [checkInputs, hpoll]
              rfl
          | data c => cases hpass
      | log l =>
          obtain rfl := Option.some.inj hpass
          simp only [checkInputs, hpoll]
          rfl
      | stats t =>
          obtain rfl := Option.some.inj hpass
          simp only [checkInputs, hpoll]
          rfl

/-- One call hands out what comes first of what is left, or an item of an input that is no batch. -/
theorem checkInputs_items (n : ℕ) {s : Merging (ContainerEvents V) E} (hinv : Inv all s.view out) :
    CallItems all out s n (checkInputs n s) := by
  induction n generalizing s with
  | zero =>
      apply CallItems.tooMany
      left
      simpa using hinv.length_slotEvents
  | succ n ih =>
      have hpoll := pollAllInp_items 200 s hinv.held
      rcases hx : pollAllInp 200 s with ⟨answer, mid⟩
      rw [hx] at hpoll
      have hmid : Inv all mid.view out := hpoll.inv hinv
      have hframe : mid = { s with inps := mid.inps } := hpoll.frame
      have hslot : mid.evbuf = s.evbuf := by rw [hframe]
      have hlim : mid.lspLimit = s.lspLimit := by rw [hframe]
      have hends := hpoll.ends
      dsimp only at hends
      cases hends with
      | pending hsame hweight =>
          simp only [checkInputs, hx]
          exact .pending hmid hlim hweight hpoll.bound_le hsame
      | tooMany hmany =>
          simp only [checkInputs, hx]
          exact .tooMany (.inr (hmany.trans (answers_le_answersBound _)))
      | stop hstop =>
          obtain ⟨x, hpass, hnotes, herrors⟩ := hstop.passes
          rw [checkInputs_stop hpass hx]
          exact .passed hmid hlim (data2?_of_passedOn hpass) hstop.weight hpoll.bound_le hnotes herrors
      | data hsame hbufs =>
          have hviewBufs : ∀ inp ∈ mid.view.inps, inp.buf.isSome := by
            intro inp hinp
            obtain ⟨inp', hinp', rfl⟩ := List.mem_map.mp hinp
            exact hbufs inp' hinp'
          have hsorted : ∀ inp ∈ mid.view.inps, TsSorted inp.rest := fun inp hinp =>
            hmid.left.rest_sorted _ (List.mem_map_of_mem hinp)
          rcases findNextTs_cases hmid.live hviewBufs hsorted with ⟨hnil, hfind⟩ |
            ⟨pre, inp, post, b2, t, second, hinps, hbuf, hfind, hlow⟩
          · -- all inputs have ended
            rw [findNextTs_view] at hfind
            have hempty : mid.inps = [] := List.map_eq_nil_iff.mp hnil
            have hzero : mid.inps.length = 0 := by simp [hempty]
            cases hevbuf : mid.evbuf with
            | some evbuf =>
                have hbuf := hmid.evbuf evbuf hevbuf
                have heq : checkInputs (n + 1) s =
                    .item (sitem2Data evbuf) { mid with evbuf := none } := by
                  simp only [checkInputs, hx, hfind, hzero, hevbuf, if_true]
                rw [heq]
                refine .chunk ⟨?_, hmid.live, by simp [view], hmid.limit, hmid.minfill⟩ hbuf.1 ?_ hlim
                  hpoll.weights_le hpoll.bound_le hsame
                · have hleft := hmid.left
                  rw [view_evbuf, hevbuf, ContainerEvents.slotEvents_some] at hleft
                  simpa using hleft
                · exact hlim ▸ hbuf.2.le
            | none =>
                have heq : checkInputs (n + 1) s = .done mid := by
                  simp only [checkInputs, hx, hfind, hzero, hevbuf, if_true]
                rw [heq]
                have hperm := hmid.left.perm
                rw [view_evbuf, hevbuf, hnil] at hperm
                apply CallItems.done
                · simpa using hperm
                · rw [← hsame.notes, hempty]
                  rfl
          · -- the lowest input is drained
            rw [findNextTs_view] at hfind
            have hget : mid.inps[pre.length]?.bind Inp.buf = some b2 := by
              have hview : mid.view.inps[pre.length]?.bind Inp.buf = some b2 := by
                rw [hinps]
                simp [hbuf]
              rw [view_inps, List.getElem?_map] at hview
              cases hat : mid.inps[pre.length]? with
              | none =>
                  rw [hat] at hview
                  cases hview
              | some inp' =>
                  rw [hat] at hview
                  exact hview
            obtain ⟨hview, hevs⟩ := drain_view mid pre.length b2 (takable second b2)
            have hdrain := drain_spec hmid hinps hbuf hlow
            rw [hview] at hdrain
            have heq : checkInputs (n + 1) s =
                match mid.drain pre.length b2 (takable second b2) with
                | .item x s => .item x s
                | .next s => checkInputs n s := by
              simp only [checkInputs, hx, hfind, hget]
              cases mid.drain pre.length b2 (takable second b2) <;> rfl
            rw [heq]
            generalize mid.drain pre.length b2 (takable second b2) = result at hdrain hevs
            cases result with
            | item x next =>
                obtain ⟨hw, hn, he, hbd⟩ := same_of_evs hevs
                cases hdrain with
                | chunk hnext hne hlen hlimit _ _ =>
                    exact .chunk hnext hne (hlim ▸ hlen) (hlimit.trans hlim) (hw.trans_le hpoll.weights_le)
                      (hbd.trans_le hpoll.bound_le) (hsame.trans ⟨hn, he⟩)
            | next next =>
                obtain ⟨hw, hn, he, hbd⟩ := same_of_evs hevs
                cases hdrain with
                | more hnext hmore hlimit _ _ =>
                    exact (ih hnext).of_round (hlimit.trans hlim) (hslot ▸ hmore) (hw.trans_le hpoll.weights_le)
                      (hbd.trans_le hpoll.bound_le) (hsame.trans ⟨hn, he⟩)

end Call

end Merging

/-! ## Runs -/

namespace LspMerge

open Merging (leftNotes leftErrors weights answersBound handOn view)

variable {all : List (EventSingle V)} {notes : List (LogItem ⊕ StatsItem)} {errs : List E} {limit bound : ℕ}
  {ys : List (Sitemty2 (ContainerEvents V) (Error E))}

/-- What has been handed out is in order, and some of what the inputs have. -/
structure Handed (all : List (EventSingle V)) (notes : List (LogItem ⊕ StatsItem)) (limit : ℕ)
    (ys : List (Sitemty2 (ContainerEvents V) (Error E))) : Prop where
  noError : errors2 ys = []
  sorted : TsSorted (eventsOf (datas2 ys))
  events : ∃ rest, (eventsOf (datas2 ys) ++ rest).Perm all
  notes : ∃ rest, (notes2 ys ++ rest).Perm notes
  chunks : ∀ c ∈ datas2 ys, c.evs ≠ [] ∧ c.len ≤ limit

/-- Why a merge can fail: a loop gave up, or an input failed. -/
inductive Fails (errs : List E) (limit bound : ℕ) : Error E → Prop
  | tooMany (hmany : 140000 < limit ∨ 200 ≤ bound) : Fails errs limit bound .loopTooMany
  | input {e : E} (hmem : e ∈ errs) : Fails errs limit bound (.inputBoxed e)

/-- What holds in a run that has handed out {lit}`ys`. -/
def RunItems (all : List (EventSingle V)) (notes : List (LogItem ⊕ StatsItem)) (errs : List E) (limit bound : ℕ)
    (ys : List (Sitemty2 (ContainerEvents V) (Error E))) : LspMerge (ContainerEvents V) E → Prop
  | .merging s =>
      Merging.Inv all s.view (eventsOf (datas2 ys)) ∧ errors2 ys = [] ∧
        (∀ c ∈ datas2 ys, c.evs ≠ [] ∧ c.len ≤ limit) ∧ (notes2 ys ++ leftNotes s.inps).Perm notes ∧
        (∀ e ∈ leftErrors s.inps, e ∈ errs) ∧ s.lspLimit = limit ∧ answersBound s.inps ≤ bound
  | .done => ∃ zs e, ys = zs ++ [.error e] ∧ Handed all notes limit zs ∧ Fails errs limit bound e

/-- What is left to do in a run -/
def workItems : LspMerge (ContainerEvents V) E → ℕ
  | .merging s =>
      1 + weights s.inps + ((slotEvents s.evbuf).length + ((s.inps.map Inp.rest).flatten).length)
  | .done => 0

omit [EventValueType V] in
/-- What has been handed out between two calls -/
theorem RunItems.handed {s : Merging (ContainerEvents V) E}
    (hrun : RunItems all notes errs limit bound ys (.merging s)) : Handed all notes limit ys := by
  obtain ⟨hinv, hnoError, hchunks, hnotes, _⟩ := hrun
  refine ⟨hnoError, (sortedBy_append.mp hinv.left.sorted).1, ?_, ⟨_, hnotes⟩, hchunks⟩
  refine ⟨slotEvents s.evbuf ++ (s.view.inps.map Inp.rest).flatten, ?_⟩
  rw [← List.append_assoc]
  exact hinv.left.perm

omit [EventValueType V] in
/-- The events that are handed out, in the buffer, and left -/
theorem length_view {s : Merging (ContainerEvents V) E} {out : List (EventSingle V)}
    (hinv : Merging.Inv all s.view out) :
    out.length + (slotEvents s.evbuf).length + ((s.inps.map Inp.rest).flatten).length = all.length := by
  have hlen := hinv.length_all
  rwa [Merging.view_evbuf, Merging.view_inps, Merging.rests_view] at hlen

/-- Every call keeps what holds in a run and leaves less to do. -/
theorem pollNext_items {st : LspMerge (ContainerEvents V) E} (hrun : RunItems all notes errs limit bound ys st) :
    st.pollNext.Ensures ys fun zs next =>
      RunItems all notes errs limit bound zs next ∧ workItems next < workItems st := by
  cases st with
  | done => trivial
  | merging s =>
      have hhanded := hrun.handed
      obtain ⟨hinv, hnoError, hchunks, hnotes, herrs, rfl, hbound⟩ := hrun
      have hcall := Merging.checkInputs_items 140000 hinv
      have hall := length_view hinv
      simp only [pollNext]
      generalize s.checkInputs 140000 = result at hcall
      cases hcall with
      | pending hnext hlimit hweight hbd hsame =>
          have hall' := length_view hnext
          refine ⟨⟨hnext, hnoError, hchunks, ?_, ?_, hlimit, hbd.trans hbound⟩, ?_⟩
          · rw [hsame.notes]
            exact hnotes
          · rw [hsame.errors]
            exact herrs
          · simp only [workItems]
            omega
      | @chunk c next hnext hne hlen hlimit hweight hbd hsame =>
          have hall' := length_view hnext
          have hpos := List.length_pos_iff.mpr hne
          refine ⟨⟨by simpa using hnext, by simpa using hnoError, ?_, ?_, ?_, hlimit, hbd.trans hbound⟩, ?_⟩
          · intro d hd
            rw [datas2_append] at hd
            rcases List.mem_append.mp hd with hd | hd
            · exact hchunks d hd
            · obtain rfl : d = c := by simpa using hd
              exact ⟨hne, hlen⟩
          · rw [hsame.notes]
            simpa using hnotes
          · rw [hsame.errors]
            exact herrs
          · simp only [workItems, List.length_append] at hall' ⊢
            omega
      | @passed x next hnext hlimit hdata hweight hbd hpassed herrors =>
          cases x with
          | error e =>
              refine ⟨⟨ys, _, rfl, hhanded, .input (herrs e ?_)⟩, by simp [workItems]⟩
              exact (herrors.mem_iff).mp (by simp)
          | ok x =>
              have hall' := length_view hnext
              have hkeep : datas2 (ys ++ [(.ok x : Sitemty2 (ContainerEvents V) (Error E))]) = datas2 ys := by
                have hnone : data2? (.ok x : Sitemty2 (ContainerEvents V) (Error E)) = none := by
                  cases x with
                  | dataItem d =>
                      cases d with
                      | rangeComplete => rfl
                      | data c => cases hdata
                  | log l => rfl
                  | stats t => rfl
                simp [hnone]
              have hnote : notes2 [(.ok x : Sitemty2 (ContainerEvents V) (Error E))] =
                  notes2 [(.ok x : Sitemty2 (ContainerEvents V) E)] := by
                cases x with
                | dataItem d => rfl
                | log l => rfl
                | stats t => rfl
              refine ⟨⟨?_, by simpa using hnoError, ?_, ?_, ?_, hlimit, hbd.trans hbound⟩, ?_⟩
              · rw [hkeep]
                exact hnext
              · rw [hkeep]
                exact hchunks
              · rw [notes2_append, hnote, List.append_assoc]
                exact (hpassed.append_left _).trans hnotes
              · intro e he
                exact herrs e ((herrors.mem_iff).mp (List.mem_append_right _ he))
              · simp only [workItems]
                omega
      | tooMany hmany =>
          refine ⟨⟨ys, _, rfl, hhanded, .tooMany ?_⟩, by simp [workItems]⟩
          rcases hmany with hrounds | hanswers
          · left
            omega
          · exact .inr (hanswers.trans hbound)
      | done hperm => trivial

omit [EventValueType V] in
/-- Before the first call everything is left. -/
theorem runItems_new {inps : List (Script (Sitemty2 (ContainerEvents V) E))} {limit : ℕ} (hlimit : 0 < limit)
    (hsorted : ∀ inp ∈ inps, TsSorted (eventsOf (datas2 (Script.items inp)))) :
    RunItems (inps.flatMap fun inp => eventsOf (datas2 (Script.items inp)))
      (inps.flatMap fun inp => notes2 (Script.items inp)) (inps.flatMap fun inp => errors2 (Script.items inp)) limit
      (inps.map fun inp => emptyRun (datas2 (Script.items inp)) + 1).sum [] (new inps limit) := by
  refine ⟨⟨?_, ?_, by simp, hlimit, Nat.div_le_self _ _⟩, rfl, by simp, ?_, ?_, rfl, ?_⟩
  · have hrests : (((inps.map fun x => ({ evs := some x, buf := none } : Inp (ContainerEvents V) E)).map
        Inp.view).map Inp.rest) = inps.map fun inp => eventsOf (datas2 (Script.items inp)) := by
      rw [Merging.rests_view, List.map_map]
      apply List.map_congr_left
      intro sc _
      simp [Inp.rest, Inp.upcoming_eq, Inp.items]
    simp only [Merging.view_inps]
    rw [hrests, List.flatMap_def]
    apply Interleaved.start
    intro rest hrest
    obtain ⟨inp, hinp, rfl⟩ := List.mem_map.mp hrest
    exact hsorted inp hinp
  · intro inp hinp
    simp only [Merging.view_inps, List.mem_map, exists_exists_and_eq_and] at hinp
    obtain ⟨sc, _, rfl⟩ := hinp
    apply Inp.live_view
    intro c hc
    cases hc
  · simp [leftNotes, Inp.items, List.flatMap_map]
  · intro e he
    simpa [leftErrors, Inp.items, List.flatMap_map] using he
  · simp [answersBound, Inp.upcoming_eq, Inp.items, Function.comp_def]

/-- What has been handed out at the end, and why the merge failed, if it did. -/
def MergesItems (all : List (EventSingle V)) (notes : List (LogItem ⊕ StatsItem)) (errs : List E)
    (limit bound : ℕ) (ys : List (Sitemty2 (ContainerEvents V) (Error E))) : Prop :=
  (errors2 ys = [] ∧ TsSorted (eventsOf (datas2 ys)) ∧ (∀ c ∈ datas2 ys, c.evs ≠ [] ∧ c.len ≤ limit) ∧
      (eventsOf (datas2 ys)).Perm all ∧ (notes2 ys).Perm notes) ∨
    ∃ zs e, ys = zs ++ [.error e] ∧ Handed all notes limit zs ∧ Fails errs limit bound e

/-- At the end of a run -/
theorem RunItems.mergesItems_of_done {st next : LspMerge (ContainerEvents V) E}
    (hrun : RunItems all notes errs limit bound ys st) (hdone : st.pollNext = .done next) :
    MergesItems all notes errs limit bound ys := by
  cases st with
  | done => exact .inr hrun
  | merging s =>
      have hhanded := hrun.handed
      obtain ⟨hinv, _, hchunks, hnotes, _⟩ := hrun
      have hcall := Merging.checkInputs_items 140000 hinv
      simp only [pollNext] at hdone
      generalize s.checkInputs 140000 = result at hcall hdone
      cases hcall with
      | pending => cases hdone
      | chunk => cases hdone
      | @passed x _ => cases x <;> cases hdone
      | tooMany => cases hdone
      | done hperm hnil =>
          refine .inl ⟨hhanded.noError, hhanded.sorted, hchunks, hperm, ?_⟩
          rw [hnil, List.append_nil] at hnotes
          exact hnotes

/-- A run to the end -/
theorem drains_of_runItems {st : LspMerge (ContainerEvents V) E}
    (hrun : RunItems all notes errs limit bound [] st) :
    ∃ ys, Drains pollNext st ys ∧ MergesItems all notes errs limit bound ys := by
  obtain ⟨ys, t, u, hreach, hinv, hdone⟩ := drains_of_measure workItems hrun
    fun ys st _ hinv => pollNext_items hinv
  exact ⟨ys, ⟨t, u, hreach, hdone⟩, hinv.mergesItems_of_done hdone⟩

/-- {lit}`LspMerge` over any inputs whose events are in order: the chunks are the events of the inputs, merged in
order, and the log entries and statistics of the inputs are passed on, each once, unless the merge fails. -/
theorem mergesItems (inps : List (Script (Sitemty2 (ContainerEvents V) E))) {limit : ℕ} (hlimit : 0 < limit)
    (hsorted : ∀ inp ∈ inps, TsSorted (eventsOf (datas2 (Script.items inp)))) :
    ∃ ys, Drains pollNext (new inps limit) ys ∧
      MergesItems (inps.flatMap fun inp => eventsOf (datas2 (Script.items inp)))
        (inps.flatMap fun inp => notes2 (Script.items inp)) (inps.flatMap fun inp => errors2 (Script.items inp)) limit
        (inps.map fun inp => emptyRun (datas2 (Script.items inp)) + 1).sum ys :=
  drains_of_runItems (runItems_new hlimit hsorted)

/-- A store that logs something, and one that fails. -/
theorem mergesItems_failing :
    ∃ ys, Drains pollNext (new [[.ready (sitem2Data { evs := [⟨1, 5⟩, ⟨3, 6⟩] }), .ready (.ok (.stats .warnings))],
        [.pending, .ready (sitem2Data { evs := [⟨2, 7⟩] }), .ready (.error "lost")]] 2) ys ∧
      MergesItems (V := UInt64) [⟨1, 5⟩, ⟨3, 6⟩, ⟨2, 7⟩] [.inr .warnings] ["lost"] 2 2 ys :=
  mergesItems (V := UInt64) [[.ready (sitem2Data { evs := [⟨1, 5⟩, ⟨3, 6⟩] }), .ready (.ok (.stats .warnings))],
    [.pending, .ready (sitem2Data { evs := [⟨2, 7⟩] }), .ready (.error "lost")]] (by decide) (by simp [SortedBy])

end LspMerge

end Scylla
end Daqbuf
