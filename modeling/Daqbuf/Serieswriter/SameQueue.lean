import Daqbuf.Serieswriter.RtWriter
import Daqbuf.Slots.Pool
/-!
# The Queue of the Short Term Store

With {lit}`do_st_rf1`, closing and housekeeping push the entries of the short term store to the queue without
replication, while a write pushes its values, and the entries before them, to the other queue.

Main results:

- Theorem {lit}`RtRun.step_standing`: once the short term store has a partition, its queue is not empty.
- Theorem {lit}`RtRun.step_stRf1Qu`: which calls push nothing to the queue without replication.
- Theorem {lit}`RtRun.sameQueue_iff`: when everything for the short term store goes to one queue, in all of a run.
-/

namespace Daqbuf
namespace Serieswriter

open Slots (Reached Along forall_reached_of_step forall_reached_iff_along)

/-! ## What is pushed -/

/-- A split leaves a current partition. -/
theorem MspSplitDyn.last_split (s : MspSplitDyn) (ts itemBytes : ℕ) : (s.split ts itemBytes).2.last ≠ none := by
  rcases s.split_cases ts itemBytes with ⟨-, heq⟩ | ⟨hlast, -, heq⟩ | ⟨m, hlast, -, heq⟩
  · rw [heq]
    exact Option.some_ne_none _
  · rw [heq, hlast]
    exact Option.some_ne_none _
  · rw [heq]
    exact fun hnone => Option.some_ne_none m (hlast.symm.trans hnone)

namespace SeriesWriter

variable {D : Type} (w : SeriesWriter) (tsnow : ℕ) (deque : List (QueryItem D))

/-- {lit}`housekeeping` pushes the entry of the current partition again. -/
def Reputs : Prop :=
  reputCheckIvl ≤ tsnow - w.tsCheckTsMspReputLast ∧
    (∃ putLast ∈ w.tsTsMspPutLast, reputIvl ≤ tsnow - putLast) ∧
    w.evtsLatest ≠ w.evtsOnMspWrite ∧ w.mspSplit.last ≠ none

theorem onClose_eq_nil_iff : (w.onClose tsnow deque).2.2 = [] ↔ deque = [] ∧ w.mspSplit.last = none := by
  rw [onClose, MspSplitDyn.tsMspCurrent]
  cases w.mspSplit.last with
  | none => simp
  | some msp => simp

theorem housekeeping_eq_nil_iff :
    (w.housekeeping tsnow deque).2.2 = [] ↔ deque = [] ∧ ¬ w.Reputs tsnow := by
  rw [housekeeping, Reputs]
  by_cases hcheck : reputCheckIvl ≤ tsnow - w.tsCheckTsMspReputLast
  · rw [if_pos hcheck]
    dsimp only [MspSplitDyn.tsMspCurrent]
    cases w.tsTsMspPutLast with
    | none => simp
    | some putLast =>
        cases w.mspSplit.last with
        | none => simp
        | some msp =>
            by_cases hput : reputIvl ≤ tsnow - putLast ∧ w.evtsLatest ≠ w.evtsOnMspWrite
            · simp [hcheck, hput.1, hput.2]
            · simp only [if_neg hput]
              refine (and_iff_left ?_).symm
              rintro ⟨-, ⟨x, hx, hivl⟩, hevts, -⟩
              obtain rfl : putLast = x := Option.some.inj hx
              exact hput ⟨hivl, hevts⟩
  · simp [hcheck]

end SeriesWriter

namespace RtWriter

variable {ET S D : Type} [EmittableType ET S D]

/-- A tick does not write to the short term store. -/
theorem checkQuietReput_short (w : RtWriter ET S) (iqdqs : InsertDeques (QueryItem D)) (tsnow now : ℕ) :
    (w.checkQuietReput iqdqs tsnow now).1.stateSt = w.stateSt ∧
      (w.checkQuietReput iqdqs tsnow now).2.stRf1Qu = iqdqs.stRf1Qu ∧
      (w.checkQuietReput iqdqs tsnow now).2.stRf3Qu = iqdqs.stRf3Qu := by
  rw [checkQuietReput]
  split
  · split
    · exact ⟨rfl, rfl, rfl⟩
    split <;> exact ⟨rfl, rfl, rfl⟩
  · split <;> exact ⟨rfl, rfl, rfl⟩
  · exact ⟨rfl, rfl, rfl⟩

end RtWriter

/-! ## Runs -/

namespace RtRun

variable {ET S D : Type} [EmittableType ET S D] {r : RtRun ET S D}

/-- Everything for the short term store went to one queue. -/
def SameQueue (r : RtRun ET S D) : Prop := r.iqdqs.stRf1Qu = [] ∨ r.iqdqs.stRf3Qu = []

/-- The call pushes nothing for the short term store, apart from a write. -/
def KeepsQueue : RtCall ET → RtRun ET S D → Prop
  | .onClose _, r => r.writer.stateSt.writer.mspSplit.last = none
  | .housekeeping now, r => ¬ r.writer.stateSt.writer.Reputs now
  | .write _ _ _ _, _ | .tick _ _, _ => True

/-- The writer uses two queues, and the one of the values is in use once there is a partition. -/
structure Standing (r : RtRun ET S D) : Prop where
  rf1 : r.writer.doStRf1 = true
  partition : r.writer.stateSt.writer.mspSplit.last = none ↔ r.iqdqs.stRf3Qu = []
  entries : r.iqdqs.stRf1Qu ≠ [] → r.iqdqs.stRf3Qu ≠ []

omit [EmittableType ET S D] in
theorem Standing.sameQueue_iff_stRf1Qu (h : r.Standing) : r.SameQueue ↔ r.iqdqs.stRf1Qu = [] := by
  constructor
  · rintro (hrf1 | hrf3)
    · exact hrf1
    · exact not_not.mp fun hrf1 => h.entries hrf1 hrf3
  · exact Or.inl

omit [EmittableType ET S D] in
/-- Entries can be pushed to the other queue once there is a partition. -/
theorem Standing.push {k : RtRun ET S D} (h : r.Standing) (hrf1 : k.writer.doStRf1 = r.writer.doStRf1)
    (hlast : k.writer.stateSt.writer.mspSplit.last = r.writer.stateSt.writer.mspSplit.last)
    (hdeque : k.iqdqs.stRf3Qu = r.iqdqs.stRf3Qu)
    (hpush : k.iqdqs.stRf1Qu ≠ [] → r.iqdqs.stRf1Qu ≠ [] ∨ r.writer.stateSt.writer.mspSplit.last ≠ none) :
    k.Standing where
  rf1 := hrf1.trans h.rf1
  partition := by
    rw [hlast, hdeque]
    exact h.partition
  entries := by
    intro hne
    rw [hdeque]
    rcases hpush hne with hother | hlast
    · exact h.entries hother
    · exact mt h.partition.mpr hlast

omit [EmittableType ET S D] in
theorem standing_new (series : ℕ) (minQuiets : MinQuiets) (isPolled : Bool) (emitStateNew : S) (now : ℕ) :
    (new series minQuiets isPolled true emitStateNew now : RtRun ET S D).Standing where
  rf1 := rfl
  partition := iff_of_true rfl rfl
  entries := fun hne => absurd rfl hne

/-- What a write does for the short term store. -/
theorem step_write_short (r : RtRun ET S D) (item : ET) (tsNet tsev now : ℕ) :
    (r.step (.write item tsNet tsev now)).iqdqs.stRf1Qu = r.iqdqs.stRf1Qu ∧
    (((r.step (.write item tsNet tsev now)).writer.stateSt = r.writer.stateSt ∧
        (r.step (.write item tsNet tsev now)).iqdqs.stRf3Qu = r.iqdqs.stRf3Qu) ∨
      ((r.step (.write item tsNet tsev now)).writer.stateSt.writer.mspSplit.last ≠ none ∧
        (r.step (.write item tsNet tsev now)).iqdqs.stRf3Qu ≠ [])) := by
  rcases r.writer.write_cases item tsNet tsev now r.iqdqs with
    ⟨-, hsame⟩ | ⟨res, k, kqdqs, heq, -, -, -, -, hother, hstores, -⟩
  · rw [step]
    dsimp only
    rw [hsame]
    exact ⟨rfl, Or.inl ⟨rfl, rfl⟩⟩
  · rw [step]
    dsimp only
    rw [heq]
    refine ⟨hother, ?_⟩
    rcases hstores .short with hsame | hput
    · exact Or.inl (Prod.mk.inj hsame)
    · obtain ⟨hstore, hdeque⟩ := Prod.mk.inj hput
      refine Or.inr ⟨?_, ?_⟩
      · show k.stateSt.writer.mspSplit.last ≠ none
        rw [show k.stateSt = _ from hstore]
        exact MspSplitDyn.last_split _ _ _
      · show kqdqs.stRf3Qu ≠ []
        rw [show kqdqs.stRf3Qu = _ from hdeque]
        exact List.concat_ne_nil _ _

/-- What is pushed to the queue without replication. -/
theorem step_stRf1Qu (h : r.Standing) (call : RtCall ET) :
    (r.step call).iqdqs.stRf1Qu = [] ↔ r.iqdqs.stRf1Qu = [] ∧ KeepsQueue call r := by
  cases call with
  | write item tsNet tsev now =>
      rw [(step_write_short r item tsNet tsev now).1]
      exact (and_iff_left trivial).symm
  | tick tsnow now =>
      rw [step, tick_eq]
      dsimp only
      rw [(r.writer.checkQuietReput_short r.iqdqs tsnow now).2.1]
      exact (and_iff_left trivial).symm
  | onClose now =>
      rw [step, RtWriter.onClose]
      simp only [h.rf1, if_true]
      exact SeriesWriter.onClose_eq_nil_iff _ _ _
  | housekeeping now =>
      rw [step, RtWriter.housekeeping]
      simp only [h.rf1, if_true]
      exact SeriesWriter.housekeeping_eq_nil_iff _ _ _

omit [EmittableType ET S D] in
/-- A call that pushes to the other queue does so for a partition. -/
theorem last_of_not_keepsQueue {call : RtCall ET} (hcall : ¬ KeepsQueue call r) :
    r.writer.stateSt.writer.mspSplit.last ≠ none := by
  cases call with
  | write item tsNet tsev now => exact absurd trivial hcall
  | tick tsnow now => exact absurd trivial hcall
  | onClose now => exact hcall
  | housekeeping now => exact (not_not.mp hcall).2.2.2

theorem step_standing (h : r.Standing) (call : RtCall ET) : (r.step call).Standing := by
  have hrf1 := (step_settings r call).2
  have hpush : (r.step call).iqdqs.stRf1Qu ≠ [] →
      r.iqdqs.stRf1Qu ≠ [] ∨ r.writer.stateSt.writer.mspSplit.last ≠ none := by
    intro hne
    rw [Ne, step_stRf1Qu h, not_and_or] at hne
    exact hne.imp_right last_of_not_keepsQueue
  cases call with
  | write item tsNet tsev now =>
      rcases (step_write_short r item tsNet tsev now).2 with ⟨hstore, hdeque⟩ | ⟨hlast, hdeque⟩
      · exact h.push hrf1 (by rw [hstore]) hdeque hpush
      · exact ⟨hrf1.trans h.rf1, iff_of_false hlast hdeque, fun _ => hdeque⟩
  | tick tsnow now =>
      rw [step, tick_eq] at hrf1 hpush ⊢
      obtain ⟨hstore, -, hdeque⟩ := r.writer.checkQuietReput_short r.iqdqs tsnow now
      exact h.push hrf1 (congrArg (·.writer.mspSplit.last) hstore) hdeque hpush
  | onClose now =>
      refine h.push hrf1 ?_ ?_ hpush
      · exact congrArg (·.writer.mspSplit.last) (r.writer.stateSt.onClose_spec now _).1
      · exact if_pos h.rf1
  | housekeeping now =>
      refine h.push hrf1 ?_ ?_ hpush
      · exact congrArg MspSplitDyn.last (housekeeping_kept r.writer.stateSt now _).2.2
      · exact if_pos h.rf1

/-- A call, as an operation that always has a result. -/
def callOn (call : RtCall ET) (r : RtRun ET S D) : Option (RtRun ET S D) := some (r.step call)

theorem Standing.sameQueue_iff_along (h : r.Standing) (hrf1 : r.iqdqs.stRf1Qu = []) (calls : List (RtCall ET)) :
    (∀ k, Reached callOn calls r k → k.SameQueue) ↔ Along callOn KeepsQueue calls r := by
  have hstanding : ∀ k, Reached callOn calls r k → k.Standing :=
    forall_reached_of_step (fun call _ _ h hcall => Option.some.inj hcall ▸ step_standing h call) h
  have hsame : ∀ k, Reached callOn calls r k → (k.SameQueue ↔ (k.Standing ∧ k.iqdqs.stRf1Qu = [])) := by
    intro k hk
    rw [(hstanding k hk).sameQueue_iff_stRf1Qu]
    exact (and_iff_right (hstanding k hk)).symm
  rw [forall₂_congr hsame]
  refine forall_reached_iff_along ?_ ⟨h, hrf1⟩
  intro call r k ⟨h, hrf1⟩ hcall
  obtain rfl := Option.some.inj hcall
  rw [and_iff_right (step_standing h call), step_stRf1Qu h, and_iff_right hrf1]

/-- With {lit}`do_st_rf1`, everything that a run pushes for the short term store goes to one queue exactly if no
close and no housekeeping of the run pushes an entry of the current partition. -/
theorem sameQueue_iff (series : ℕ) (minQuiets : MinQuiets) (isPolled : Bool) (emitStateNew : S) (now : ℕ)
    (calls : List (RtCall ET)) :
    (∀ k : RtRun ET S D, Reached callOn calls (new series minQuiets isPolled true emitStateNew now) k →
      k.SameQueue) ↔
    Along callOn KeepsQueue calls (new series minQuiets isPolled true emitStateNew now : RtRun ET S D) :=
  (standing_new series minQuiets isPolled emitStateNew now).sameQueue_iff_along rfl calls

/-- An event is written, and the writer is closed. -/
def writeAndClose : List (RtCall WritableBytes) := [.write ⟨1000000000, 4⟩ 0 1000000000 0, .onClose 0]

/-- The value and the entry before it go to one queue, and the entry of the close to the other. -/
theorem not_sameQueue_writeAndClose :
    ¬ ∀ k : RtRun WritableBytes Unit ℕ,
      Reached callOn writeAndClose (new 7 ⟨0, 1000000000, 10000000000⟩ false true () 0) k → k.SameQueue := by
  intro hall
  have hsame := hall _ ⟨writeAndClose, List.prefix_rfl, rfl⟩
  revert hsame
  rw [SameQueue]
  decide +kernel

end RtRun

end Serieswriter
end Daqbuf
