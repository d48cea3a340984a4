import Daqbuf.Items.Merger
/-!
# Runs of the Merger

What the poll loop of the merger does around {lit}`process`, for any kind of container: it refills the
lanes, hands out what was emitted, and ends when no lane holds anything.  The containers that were
handed on, those that the lanes still hold, and the output are the view of the merger; only
{lit}`process` and the emission of the output change it.

Main results:

- Theorem {lit}`refillLanes_refills`: a refill does not change the view.
- Theorem {lit}`pollNext_ensures`: what {lit}`process` and the emission keep, every pass keeps; every
  pass lowers the work.
- Theorem {lit}`Rules.inv`: it holds of every state that the poll loop reaches.
- Theorem {lit}`Rules.drains`: the poll loop reaches its end, where no lane holds anything.
-/

namespace Daqbuf
namespace Items

open Netpod Poll

variable {T : Type*}

/-! ## What a lane holds -/

namespace Lane

/-- What the input of a lane still delivers; an input that ended delivers nothing more. -/
def script (lane : Lane T) : Script (Sitemty T) := lane.inp.getD []

/-- The containers of a lane that were not taken yet. -/
def held (lane : Lane T) : List T := lane.item.toList ++ datas lane.script.items

/-- The lane holds an item, or its input has ended. -/
abbrev Loaded (lane : Lane T) : Prop := lane.item ≠ none ∨ lane.inp = none

/-- A loaded lane without an item holds nothing. -/
theorem held_eq_nil {lane : Lane T} (hloaded : lane.Loaded) (hnone : lane.item = none) :
    lane.held = [] := by
  have hinp := hloaded.resolve_left (not_not.mpr hnone)
  simp [held, script, hnone, hinp]

/-- The first container that a loaded lane holds is its item. -/
theorem head?_held {lane : Lane T} (hloaded : lane.Loaded) : lane.held.head? = lane.item := by
  cases hitem : lane.item with
  | none => simp [held_eq_nil hloaded hitem]
  | some item => simp [held, hitem]

end Lane

namespace Merger

/-! ## The view -/

/-- The containers of a merger: those handed on, those that the lanes hold, and the output, with the
bound on what was merged. -/
structure View (T : Type*) where
  given : List T
  held : List (List T)
  out : Option T
  dim0ixMax : ℕ

/-- The view of a merger that has handed out {lit}`xs`. -/
def view (xs : List (Sitemty T)) (s : Merger T) : View T where
  given := datas (xs ++ s.outbuf)
  held := s.lanes.map Lane.held
  out := s.out
  dim0ixMax := s.dim0ixMax

/-- Nothing but the items of the lanes, the output and some counters changes. -/
structure SameStream (s s' : Merger T) : Prop where
  inps : s'.lanes.map Lane.inp = s.lanes.map Lane.inp
  outbuf : s'.outbuf = s.outbuf
  log_queue : s'.logQueue = s.logQueue
  done_inp : s'.doneInp = s.doneInp
  done_range_complete : s'.doneRangeComplete = s.doneRangeComplete
  complete : s'.complete = s.complete

/-! ## The work -/

/-- What polling the input of a lane can still cost. -/
def pollWeight (lane : Lane T) : ℕ :=
  4 * lane.script.length + 3 * lane.item.isSome.toNat + lane.inp.isSome.toNat

/-- The work that a lane stands for, where {lit}`size` measures a container. -/
def laneWeight (size : T → ℕ) (lane : Lane T) : ℕ :=
  pollWeight lane + 4 * (lane.held.map size).sum

/-- The work that the lanes stand for. -/
def lanesWeight (size : T → ℕ) (lanes : List (Lane T)) : ℕ := (lanes.map (laneWeight size)).sum

/-- The work that a merger stands for. -/
def weight (size : T → ℕ) (s : Merger T) : ℕ :=
  lanesWeight size s.lanes + s.outbuf.length + 2 * s.out.isSome.toNat + (!s.doneInp).toNat +
    2 * (!s.doneRangeComplete).toNat

/-- The weight of lanes, one of them apart. -/
theorem lanesWeight_middle (size : T → ℕ) (pre post : List (Lane T)) (lane : Lane T) :
    lanesWeight size (pre ++ lane :: post) =
      lanesWeight size pre + laneWeight size lane + lanesWeight size post := by
  simp [lanesWeight]
  omega

/-! ## Refilling -/

variable [MergeableTy T]

/-- Items that carry neither data nor errors nor a range-complete marker. -/
structure Quiet {T : Type*} (xs : List (Sitemty T)) : Prop where
  datas_nil : datas xs = []
  errors_nil : errors xs = []
  completes_zero : completes xs = 0

theorem Quiet.append {T : Type*} {xs ys : List (Sitemty T)} (hxs : Quiet xs) (hys : Quiet ys) :
    Quiet (xs ++ ys) :=
  ⟨by simp [hxs.1, hys.1], by simp [hxs.2, hys.2], by simp [hxs.3, hys.3]⟩

theorem quiet_nil {T : Type*} : Quiet ([] : List (Sitemty T)) := ⟨rfl, rfl, rfl⟩

/-- A refill keeps what a lane holds, without an error; it makes progress, or the lane was loaded. -/
structure Refills {T : Type*} (lane lane' : Lane T) (extra : List (Sitemty T)) (res : Refilled) :
    Prop where
  held_eq : lane'.held = lane.held
  errors_nil : errors lane'.script.items = []
  quiet : Quiet extra
  weight_le : pollWeight lane' + extra.length ≤ pollWeight lane
  result : (res = .ready ∧ lane'.Loaded) ∨
    (res = .pending ∧ pollWeight lane' + extra.length < pollWeight lane)

/-- An item of the input that is not data is skipped. -/
theorem Refills.skip {T : Type*} {lane lane1 lane' : Lane T} {pre extra : List (Sitemty T)}
    {res : Refilled} (hrefills : Refills lane1 lane' extra res) (hheld : lane1.held = lane.held)
    (hquiet : Quiet pre) (hweight : pollWeight lane1 + pre.length < pollWeight lane) :
    Refills lane lane' (pre ++ extra) res := by
  rcases hrefills with ⟨hheld', herr, hquiet', hle, hres⟩
  refine ⟨hheld'.trans hheld, herr, hquiet.append hquiet', ?_, ?_⟩
  · rw [List.length_append]
    omega
  · rcases hres with hready | ⟨hpending, _⟩
    · exact .inl hready
    · refine .inr ⟨hpending, ?_⟩
      rw [List.length_append]
      omega

/-- Polling the input of an empty lane refills it. -/
theorem pollInp_refills (script : Script (Sitemty T)) (lane : Lane T) (outbuf : List (Sitemty T))
    (hinp : lane.inp = some script) (hitem : lane.item = none) (herr : errors script.items = [])
    (hmono : ∀ c ∈ datas script.items, MergeableTy.isMonotonic c = true) :
    ∃ lane' extra res, pollInp lane outbuf script = (lane', outbuf ++ extra, res) ∧
      Refills lane lane' extra res := by
  induction script generalizing lane outbuf with
  | nil =>
      refine ⟨{ lane with inp := none }, [], .ready, by simp [pollInp], ?_, ?_, quiet_nil, ?_, ?_⟩
      · simp [Lane.held, Lane.script, hinp]
      · simp [Lane.script]
      · simp [pollWeight, Lane.script, hinp, hitem]
      · exact .inl ⟨rfl, .inr rfl⟩
  | cons answer rest ih =>
      rcases answer with _ | ⟨e | ⟨⟨⟩ | item⟩ | x | x⟩
      · refine ⟨{ lane with inp := some rest }, [], .pending, by simp [pollInp], ?_, ?_, quiet_nil,
          ?_, .inr ⟨rfl, ?_⟩⟩
        · simp [Lane.held, Lane.script, hinp]
        · simpa [Lane.script] using herr
        · simp [pollWeight, Lane.script, hinp, hitem]
        · simp [pollWeight, Lane.script, hinp, hitem]
      · simp at herr
      · rcases ih { lane with inp := some rest, rangeComplete := true } outbuf rfl hitem
          (by simpa using herr) (by simpa using hmono) with ⟨lane', extra, res, hpoll, hrefills⟩
        refine ⟨lane', extra, res, hpoll, hrefills.skip ?_ quiet_nil ?_⟩
        · simp [Lane.held, Lane.script, hinp]
        · simp [pollWeight, Lane.script, hinp, hitem]
      · have hitemMono : MergeableTy.isMonotonic item = true := hmono item (by simp)
        refine ⟨{ lane with inp := some rest, item := some item }, [], .ready,
          by simp [pollInp, hitemMono], ?_, ?_, quiet_nil, ?_, .inl ⟨rfl, .inl (by simp)⟩⟩
        · simp [Lane.held, Lane.script, hinp, hitem]
        · simpa [Lane.script] using herr
        · simp [pollWeight, Lane.script, hinp, hitem]
          omega
      · rcases ih { lane with inp := some rest } (outbuf ++ [.ok (.log x)]) rfl hitem
          (by simpa using herr) (by simpa using hmono) with ⟨lane', extra, res, hpoll, hrefills⟩
        refine ⟨lane', [.ok (.log x)] ++ extra, res, by simpa [pollInp] using hpoll,
          hrefills.skip ?_ ⟨by simp, by simp, by simp⟩ ?_⟩
        · simp [Lane.held, Lane.script, hinp]
        · simp [pollWeight, Lane.script, hinp, hitem]
          omega
      · rcases ih { lane with inp := some rest } (outbuf ++ [.ok (.stats x)]) rfl hitem
          (by simpa using herr) (by simpa using hmono) with ⟨lane', extra, res, hpoll, hrefills⟩
        refine ⟨lane', [.ok (.stats x)] ++ extra, res, by simpa [pollInp] using hpoll,
          hrefills.skip ?_ ⟨by simp, by simp, by simp⟩ ?_⟩
        · simp [Lane.held, Lane.script, hinp]
        · simp [pollWeight, Lane.script, hinp, hitem]
          omega

/-- The body of the loop over the lanes refills a lane. -/
theorem refillLane_refills (lane : Lane T) (outbuf : List (Sitemty T))
    (herr : errors lane.script.items = [])
    (hmono : ∀ c ∈ lane.held, MergeableTy.isMonotonic c = true) :
    ∃ lane' extra res, refillLane lane outbuf = (lane', outbuf ++ extra, res) ∧
      Refills lane lane' extra res := by
  have hsame : lane.Loaded → Refills lane lane [] .ready := fun hloaded =>
    ⟨rfl, herr, quiet_nil, by simp, .inl ⟨rfl, hloaded⟩⟩
  unfold refillLane
  split
  · rename_i inp hitem hinp
    have hscript : lane.script = inp := by simp [Lane.script, hinp]
    refine pollInp_refills inp lane outbuf hinp hitem (hscript ▸ herr) fun c hc => hmono c ?_
    simp [Lane.held, hscript, hc]
  · rename_i hnot
    refine ⟨lane, [], .ready, by simp, hsame ?_⟩
    by_contra hunloaded
    push Not at hunloaded
    rcases Option.ne_none_iff_exists'.mp hunloaded.2 with ⟨inp, hinp⟩
    exact hnot inp hunloaded.1 hinp

/-- The loop over the lanes refills them. -/
theorem refillLanes_refills (size : T → ℕ) (lanes : List (Lane T)) (outbuf : List (Sitemty T))
    (herr : ∀ lane ∈ lanes, errors lane.script.items = [])
    (hmono : ∀ lane ∈ lanes, ∀ c ∈ lane.held, MergeableTy.isMonotonic c = true) :
    ∃ lanes' extra res, refillLanes lanes outbuf = (lanes', outbuf ++ extra, res) ∧
      lanes'.map Lane.held = lanes.map Lane.held ∧
      (∀ lane ∈ lanes', errors lane.script.items = []) ∧ Quiet extra ∧
      lanesWeight size lanes' + extra.length ≤ lanesWeight size lanes ∧
      ((res = .ready ∧ ∀ lane ∈ lanes', lane.Loaded) ∨
        (res = .pending ∧ lanesWeight size lanes' + extra.length < lanesWeight size lanes)) := by
  induction lanes generalizing outbuf with
  | nil => exact ⟨[], [], .ready, by simp [refillLanes], rfl, by simp, quiet_nil, by simp, by simp⟩
  | cons lane lanes ih =>
      rcases refillLane_refills lane outbuf (herr lane (by simp)) (hmono lane (by simp)) with
        ⟨lane', extra, res, hlane, hrefills⟩
      rcases ih (outbuf ++ extra) (fun other hother => herr other (by simp [hother]))
        (fun other hother => hmono other (by simp [hother])) with
        ⟨lanes', extra', res', hlanes, hheld, herr', hquiet, hle, hres⟩
      have hweight : lanesWeight size (lane' :: lanes') + (extra ++ extra').length =
          (pollWeight lane' + extra.length) + 4 * (lane.held.map size).sum +
            (lanesWeight size lanes' + extra'.length) := by
        simp [lanesWeight, laneWeight, hrefills.held_eq]
        omega
      have hweight' : lanesWeight size (lane :: lanes) =
          pollWeight lane + 4 * (lane.held.map size).sum + lanesWeight size lanes := by
        simp [lanesWeight, laneWeight]
      have hlane' := hrefills.weight_le
      refine ⟨lane' :: lanes', extra ++ extra', if res = .pending ∧ res' = .ready then .pending else res',
        ?_, ?_, ?_, hrefills.quiet.append hquiet, ?_, ?_⟩
      · rcases hrefills.result with ⟨rfl, _⟩ | ⟨rfl, _⟩
        · simp [refillLanes, hlane, hlanes]
        · simp [refillLanes, hlane, hlanes]
      · simp [hrefills.held_eq, hheld]
      · intro other hother
        rcases List.mem_cons.mp hother with rfl | hother
        · exact hrefills.errors_nil
        · exact herr' other hother
      · omega
      · rcases hres with ⟨rfl, hloaded⟩ | ⟨rfl, hlt⟩
        · rcases hrefills.result with ⟨rfl, hloaded'⟩ | ⟨rfl, hlt⟩
          · refine .inl ⟨by simp, fun other hother => ?_⟩
            rcases List.mem_cons.mp hother with rfl | hother
            · exact hloaded'
            · exact hloaded other hother
          · exact .inr ⟨by simp, by omega⟩
        · exact .inr ⟨by simp, by omega⟩

/-! ## Emitting -/

/-- Emitting hands the output on as a whole, or keeps it; computing its byte estimate may fill a
cache. -/
theorem emit_some (s : Merger T) (lastEmit : Bool) {out : T} (hout : s.out = some out) :
    ∃ n, ∃ out', out' = (fun o => (MergeableTy.byteEstimate o).2)^[n] out ∧
      (s.emit lastEmit = .next { s with
          doClearOut := false, out := none, outbuf := s.outbuf ++ [sitemData out'] } ∨
        (lastEmit = false ∧ s.doClearOut = false ∧
          s.emit lastEmit = .next { s with out := some out' })) := by
  simp only [emit, hout]
  by_cases hlong : MergeableTy.len out ≥ s.outMaxLen
  · exact ⟨1, _, rfl, .inl (by simp [hlong])⟩
  · by_cases hemit : outMaxBytes ≤ (MergeableTy.byteEstimate out).1 ∨ s.doClearOut = true ∨
        lastEmit = true
    · refine ⟨2, _, rfl, .inl ?_⟩
      have hcond : (decide (outMaxBytes ≤ (MergeableTy.byteEstimate out).1) || s.doClearOut ||
          lastEmit) = true := by
        simpa [or_assoc] using hemit
      simp [hlong, hcond]
    · refine ⟨1, _, rfl, .inr ?_⟩
      push Not at hemit
      rcases hemit with ⟨hlight, hclear, hlast⟩
      simp only [ne_eq, Bool.not_eq_true] at hclear hlast
      simp [hlong, hlight, hclear, hlast]

/-! ## The rules -/

/-- What a merge of a kind of containers keeps: a property {lit}`I` of views, under a condition
{lit}`C` on the views from which {lit}`process` is called. -/
structure Rules (C I : View T → Prop) (size : T → ℕ) : Prop where
  /-- the containers of the inputs are ordered -/
  mono : ∀ v, I v → ∀ held ∈ v.held, ∀ c ∈ held, MergeableTy.isMonotonic c = true
  /-- the cache of the byte estimate does not matter -/
  cache : ∀ v out, v.out = some out → I v → I { v with out := some (MergeableTy.byteEstimate out).2 }
  emit : ∀ v out, v.out = some out → I v → I { v with given := v.given ++ [out], out := none }
  /-- {lit}`process` lowers the work, or else asks for the output to be emitted -/
  process : ∀ xs s, I (view xs s) → C (view xs s) → (∀ lane ∈ s.lanes, lane.Loaded) →
    (∃ lane ∈ s.lanes, lane.item ≠ none) →
    ∃ t, s.process = .ok t ∧ SameStream s t ∧ I (view xs t) ∧
      (weight size t < weight size s ∨
        (t.doClearOut = true ∧ t.out ≠ none ∧ weight size t ≤ weight size s))

/-- The state of a run that has handed out {lit}`xs`. -/
structure Merging (I : View T → Prop) (xs : List (Sitemty T)) (s : Merger T) : Prop where
  inv : I (view xs s)
  lane_errors : ∀ lane ∈ s.lanes, errors lane.script.items = []
  completes_zero : completes xs = 0
  outbuf_completes : s.doneRangeComplete = false → completes s.outbuf = 0
  log_nil : s.logQueue = []
  not_complete : s.complete = false
  done_inp : s.doneInp = true → s.out = none ∧ ∀ lane ∈ s.lanes, lane.held = []
  done_raco : s.doneRangeComplete = true → s.doneInp = true ∧ datas s.outbuf = []

/-- A pass that keeps the state of a run and lowers the work. -/
abbrev Progress (I : View T → Prop) (size : T → ℕ) (s : Merger T) (ys : List (Sitemty T))
    (t : Merger T) : Prop :=
  Merging I ys t ∧ weight size t < weight size s

section Run

variable {C I : View T → Prop} {size : T → ℕ} {xs : List (Sitemty T)} {s : Merger T}

omit [MergeableTy T] in
/-- Processing keeps the state of a run when it keeps the invariant. -/
theorem Merging.process {t : Merger T} (hmerging : Merging I xs s) (hsame : SameStream s t)
    (hdoneInp : s.doneInp = false) (hinv : I (view xs t)) : Merging I xs t := by
  refine ⟨hinv, ?_, hmerging.completes_zero, ?_, ?_, ?_, ?_, ?_⟩
  · intro lane hlane
    have hinp : lane.inp ∈ s.lanes.map Lane.inp := hsame.inps ▸ List.mem_map_of_mem hlane
    rcases List.mem_map.mp hinp with ⟨lane', hlane', hinp'⟩
    have herr := hmerging.lane_errors lane' hlane'
    rwa [Lane.script, hinp'] at herr
  · rw [hsame.outbuf, hsame.done_range_complete]
    exact hmerging.outbuf_completes
  · rw [hsame.log_queue]
    exact hmerging.log_nil
  · rw [hsame.complete]
    exact hmerging.not_complete
  · intro hdone
    rw [hsame.done_inp, hdoneInp] at hdone
    simp at hdone
  · rw [hsame.done_range_complete, hsame.done_inp, hsame.outbuf]
    exact hmerging.done_raco

/-- The rules hold for an output whose byte estimate was computed any number of times. -/
theorem Rules.cache_iterate (hrules : Rules C I size) {v : View T} {out : T} (hout : v.out = some out)
    (hinv : I v) (n : ℕ) :
    I { v with out := some ((fun o => (MergeableTy.byteEstimate o).2)^[n] out) } := by
  induction n with
  | zero => simpa [← hout] using hinv
  | succ n ih =>
      rw [Function.iterate_succ_apply']
      exact hrules.cache { v with out := some _ } _ rfl ih

/-- Emitting keeps the state of a run and does not add to the work. -/
theorem Rules.emit_progress (hrules : Rules C I size) (hmerging : Merging I xs s)
    (hdoneRaco : s.doneRangeComplete = false) (hdoneInp : s.doneInp = false) (lastEmit : Bool)
    (hsome : s.out ≠ none) :
    ∃ t, s.emit lastEmit = .next t ∧ Merging I xs t ∧ weight size t ≤ weight size s ∧
      (lastEmit = true ∨ s.doClearOut = true → weight size t < weight size s) := by
  rcases Option.ne_none_iff_exists'.mp hsome with ⟨out, hout⟩
  have hcompl := hmerging.outbuf_completes hdoneRaco
  rcases emit_some s lastEmit hout with ⟨n, out', hout', hemit | ⟨hlast, hclear, hemit⟩⟩
  · have hless : weight size { s with
        doClearOut := false, out := none, outbuf := s.outbuf ++ [sitemData out'] } < weight size s := by
      simp [weight, hout]
      omega
    refine ⟨_, hemit, ⟨?_, hmerging.lane_errors, hmerging.completes_zero, ?_, hmerging.log_nil,
      hmerging.not_complete, ?_, ?_⟩, hless.le, fun _ => hless⟩
    · have hinv := hrules.emit _ _ rfl (hrules.cache_iterate hout hmerging.inv n)
      simpa [view, ← hout'] using hinv
    · intro _
      simpa using hcompl
    · intro hdone
      simp [hdoneInp] at hdone
    · intro hdone
      simp [hdoneRaco] at hdone
  · refine ⟨_, hemit, ⟨?_, hmerging.lane_errors, hmerging.completes_zero, fun _ => hcompl,
      hmerging.log_nil, hmerging.not_complete, ?_, ?_⟩, ?_, ?_⟩
    · have hinv := hrules.cache_iterate hout hmerging.inv n
      simpa [view, ← hout'] using hinv
    · intro hdone
      simp [hdoneInp] at hdone
    · intro hdone
      simp [hdoneRaco] at hdone
    · simp [weight, hout]
    · simp [hlast, hclear]

/-- While the inputs are not done, polling them keeps the state of a run and lowers the work. -/
theorem Rules.poll2_progress (hrules : Rules C I size) (hmerging : Merging I xs s)
    (hcond : C (view xs s)) (houtbuf : s.outbuf = []) (hdoneInp : s.doneInp = false)
    (hdoneRaco : s.doneRangeComplete = false) :
    (∃ t, s.poll2 = .next t ∧ Progress I size s xs t) ∨
      (∃ t, s.poll2 = .pending t ∧ Progress I size s xs t) ∨
      ∃ t, s.poll2 = .finished t ∧ t.out = none ∧
        Progress I size s xs { t with doneInp := true } := by
  rcases refillLanes_refills size s.lanes s.outbuf hmerging.lane_errors
    (fun lane hlane => hrules.mono _ hmerging.inv _ (List.mem_map_of_mem hlane)) with
    ⟨lanes, extra, res, hrefill, hheld, herr, hquiet, hle, hres⟩
  rw [houtbuf, List.nil_append] at hrefill
  have hview : view xs { s with lanes := lanes, outbuf := extra } = view xs s := by
    simp [view, hheld, houtbuf, hquiet.datas_nil]
  have hmerging1 : Merging I xs { s with lanes := lanes, outbuf := extra } := by
    refine ⟨hview ▸ hmerging.inv, herr, hmerging.completes_zero, fun _ => hquiet.completes_zero,
      hmerging.log_nil, hmerging.not_complete, fun hdone => ?_, fun hdone => ?_⟩
    · simp [hdoneInp] at hdone
    · simp [hdoneRaco] at hdone
  rw [← hview] at hcond
  have hweight1 : weight size { s with lanes := lanes, outbuf := extra } ≤ weight size s := by
    simp only [weight, houtbuf, List.length_nil]
    omega
  have hrefill' : s.refill = ({ s with lanes := lanes, outbuf := extra }, res) := by
    simp [refill, houtbuf, hrefill]
  rcases hres with ⟨rfl, hloaded⟩ | ⟨rfl, hlt⟩
  · have hpoll2 : s.poll2 = Merger.poll3 { s with lanes := lanes, outbuf := extra } := by
      simp [poll2, hrefill']
    rw [hpoll2]
    generalize hs1 : ({ s with lanes := lanes, outbuf := extra } : Merger T) = s1
      at hmerging1 hweight1 hcond
    have hlanes1 : s1.lanes = lanes := by rw [← hs1]
    have hinp1 : s1.doneInp = false := by rw [← hs1, hdoneInp]
    have hraco1 : s1.doneRangeComplete = false := by rw [← hs1, hdoneRaco]
    rw [← hlanes1] at hloaded
    have hmissing : s1.lanes.any (fun lane => lane.inp.isSome && lane.item.isNone) = false := by
      rw [List.any_eq_false]
      intro lane hlane
      rcases hloaded lane hlane with hitem | hinp
      · simp [Option.isSome_iff_ne_none, hitem]
      · simp [hinp]
    unfold poll3
    rw [hmissing, if_neg (by simp)]
    by_cases hany : s1.lanes.any (fun lane => lane.item.isSome) = true
    · rw [if_pos hany]
      have hsome : ∃ lane ∈ s1.lanes, lane.item ≠ none := by
        simpa [List.any_eq_true, Option.isSome_iff_ne_none] using hany
      rcases hrules.process xs s1 hmerging1.inv hcond hloaded hsome with
        ⟨s2, hprocess, hsame, hinv2, hweight2⟩
      have hmerging2 := hmerging1.process hsame hinp1 hinv2
      left
      simp only [hprocess]
      by_cases hout : s2.out = none
      · refine ⟨s2, by simp [Merger.emit, hout], hmerging2, ?_⟩
        rcases hweight2 with hlt | ⟨_, hne, _⟩
        · omega
        · exact (hne hout).elim
      · rcases hrules.emit_progress hmerging2 (hsame.done_range_complete.trans hraco1)
          (hsame.done_inp.trans hinp1) false hout with ⟨t, hemit, hmergingt, hweightt, hless⟩
        refine ⟨t, hemit, hmergingt, ?_⟩
        rcases hweight2 with hlt | ⟨hclear, _, hle2⟩
        · omega
        · have hlt := hless (.inr hclear)
          omega
    · rw [if_neg hany]
      by_cases hout : s1.out = none
      · -- nothing is left anywhere
        refine .inr (.inr ⟨s1, by simp [Merger.emit, hout], hout, ⟨hmerging1.inv, hmerging1.lane_errors,
          hmerging1.completes_zero, hmerging1.outbuf_completes, hmerging1.log_nil,
          hmerging1.not_complete, fun _ => ⟨hout, fun lane hlane => ?_⟩, fun hdone => ?_⟩, ?_⟩)
        · refine Lane.held_eq_nil (hloaded lane hlane) ?_
          by_contra hitem
          refine hany (List.any_eq_true.mpr ⟨lane, hlane, ?_⟩)
          simpa [Option.isSome_iff_ne_none] using hitem
        · simp [hraco1] at hdone
        · have hless : weight size { s1 with doneInp := true } < weight size s1 := by
            simp [weight, hinp1]
          omega
      · rcases hrules.emit_progress hmerging1 hraco1 hinp1 true hout with
          ⟨t, hemit, hmergingt, _, hweightt⟩
        exact .inl ⟨t, hemit, hmergingt, (hweightt (.inl rfl)).trans_le hweight1⟩
  · refine .inr (.inl ⟨{ s with lanes := lanes, outbuf := extra }, by simp [poll2, hrefill'],
      hmerging1, ?_⟩)
    simp only [weight, houtbuf, List.length_nil]
    omega

/-- Every pass keeps the state of a run and lowers the work. -/
theorem Rules.pollNext_ensures (hrules : Rules C I size) (hmerging : Merging I xs s)
    (hcond : C (view xs s)) : (pollNext s).Ensures xs (Progress I size s) := by
  unfold pollNext
  rw [if_neg (by simp [hmerging.not_complete])]
  by_cases hraco : s.doneRangeComplete = true
  · rw [if_pos hraco]
    trivial
  rw [if_neg hraco, hmerging.log_nil]
  rw [Bool.not_eq_true] at hraco
  cases houtbuf : s.outbuf with
  | cons item outbuf =>
      have hcompl := hmerging.outbuf_completes hraco
      rw [houtbuf, completes_cons] at hcompl
      refine ⟨⟨?_, hmerging.lane_errors, ?_, fun _ => by simpa using (by omega : completes outbuf = 0),
        rfl, hmerging.not_complete, hmerging.done_inp, fun hdone => ?_⟩, ?_⟩
      · have hinv := hmerging.inv
        simpa [view, houtbuf] using hinv
      · have hxs := hmerging.completes_zero
        simp only [completes_append, completes_cons, completes_nil]
        omega
      · simp [hraco] at hdone
      · simp [weight, houtbuf]
  | nil =>
      simp only
      cases hdoneInp : s.doneInp with
      | false =>
          rw [if_pos rfl]
          rcases hrules.poll2_progress hmerging hcond houtbuf hdoneInp hraco with
            ⟨t, hpoll, hprog⟩ | ⟨t, hpoll, hprog⟩ | ⟨t, hpoll, hout, hprog⟩
          · simpa [hpoll] using hprog
          · simpa [hpoll] using hprog
          · simpa [hpoll, hout] using hprog
      | true =>
          rw [if_neg (by simp)]
          have hdone := hmerging.done_inp hdoneInp
          have hinv := hmerging.inv
          split
          · refine ⟨⟨?_, hmerging.lane_errors, hmerging.completes_zero, fun hnot => ?_, rfl,
              hmerging.not_complete, fun _ => hdone, fun _ => ⟨rfl, by simp⟩⟩, ?_⟩
            · simpa [view, houtbuf] using hinv
            · simp at hnot
            · simp [weight, hraco, houtbuf, hdoneInp]
              omega
          · refine ⟨⟨?_, hmerging.lane_errors, hmerging.completes_zero, fun hnot => ?_, rfl,
              hmerging.not_complete, fun _ => hdone, fun _ => ⟨rfl, by simp⟩⟩, ?_⟩
            · simpa [view, houtbuf] using hinv
            · simp at hnot
            · simp [weight, hraco, houtbuf, hdoneInp]

/-! ## Whole runs -/

/-- The view of a merger before the first poll. -/
def View.start (scripts : List (Script (Sitemty T))) : View T where
  given := []
  held := scripts.map fun script => datas script.items
  out := none
  dim0ixMax := 0

variable {scripts : List (Script (Sitemty T))} {outMaxLen : Option ℕ}

omit [MergeableTy T] in
/-- Before the first poll, the merger is in the state of a run. -/
theorem merging_new (hstart : I (View.start scripts))
    (herr : ∀ script ∈ scripts, errors (Script.items script) = []) :
    Merging I [] (new scripts outMaxLen) := by
  have hview : view [] (new scripts outMaxLen) = View.start scripts := by
    simp [view, new, View.start, Lane.held, Lane.script, Function.comp_def]
  refine ⟨hview ▸ hstart, ?_, rfl, fun _ => rfl, rfl, rfl, fun hdone => ?_, fun hdone => ?_⟩
  · intro lane hlane
    rcases List.mem_map.mp hlane with ⟨script, hscript, rfl⟩
    exact herr script hscript
  · simp [new] at hdone
  · simp [new] at hdone

/-- Only after the range-complete markers were looked at does the merger report its end. -/
theorem doneRangeComplete_of_done {t : Merger T} (hcomplete : s.complete = false)
    (hdone : pollNext s = .done t) : s.doneRangeComplete = true := by
  by_contra hnot
  unfold pollNext at hdone
  rw [if_neg (by simp [hcomplete]), if_neg hnot] at hdone
  split at hdone
  · simp at hdone
  · simp at hdone
  · split at hdone
    · split at hdone <;> simp at hdone
    · simp only at hdone
      split at hdone <;> simp at hdone

/-- What the rules keep holds of every state that the poll loop reaches. -/
theorem Rules.inv (hrules : Rules C I size) (hstart : I (View.start scripts))
    (herr : ∀ script ∈ scripts, errors (Script.items script) = [])
    (hcond : ∀ ys t, Reaches pollNext (new scripts outMaxLen) ys t → C (view ys t))
    (hrun : Reaches pollNext (new scripts outMaxLen) xs s) : Merging I xs s := by
  refine hrun.inv (merging_new hstart herr) fun ys t hreach hmerging => .inr ?_
  exact (hrules.pollNext_ensures hmerging (hcond ys t hreach)).mono fun _ _ hprog => hprog.1

/-- The poll loop reaches its end, without the range-complete marker; no lane holds anything then. -/
theorem Rules.drains (hrules : Rules C I size) (hstart : I (View.start scripts))
    (herr : ∀ script ∈ scripts, errors (Script.items script) = [])
    (hcond : ∀ ys t, Reaches pollNext (new scripts outMaxLen) ys t → C (view ys t)) :
    ∃ output held dim0ixMax, Drains pollNext (new scripts outMaxLen) output ∧
      completes output = 0 ∧ I ⟨datas output, held, none, dim0ixMax⟩ ∧ ∀ cs ∈ held, cs = [] := by
  rcases drains_of_measure (weight size) (merging_new hstart herr)
    (fun ys t hreach hmerging => hrules.pollNext_ensures hmerging (hcond ys t hreach))
    with ⟨output, t, u, hrun, hmerging, hdone⟩
  have hraco := doneRangeComplete_of_done hmerging.not_complete hdone
  rcases hmerging.done_raco hraco with ⟨hdoneInp, hdatas⟩
  rcases hmerging.done_inp hdoneInp with ⟨hout, hheld⟩
  have hinv := hmerging.inv
  simp only [view, datas_append, hdatas, List.append_nil, hout] at hinv
  refine ⟨output, _, _, ⟨t, u, hrun, hdone⟩, hmerging.completes_zero, hinv, ?_⟩
  simpa [List.forall_mem_map] using hheld

end Run

end Merger

end Items
end Daqbuf
