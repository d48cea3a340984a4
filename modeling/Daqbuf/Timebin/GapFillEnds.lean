import Daqbuf.Timebin.GapFill
/-!
# The End of Filling Gaps

A bin that is held back is looked at again when the finer source has ended.  If the source has brought nothing, the
same gap is there again, and the same range is asked for.

Main results:

- Theorem {lit}`Steady.step`: a pass that proceeds lowers the rank.
- Theorem {lit}`settles_of_proceeds`: if all passes proceed, the stream ends and does not ask twice for a range.
- Theorem {lit}`Stuck.not_drains`: behind an overlap the stream does not end.
- Theorem {lit}`proceeds_of_settles`: with bins that do not end before their begin, all passes proceed in a run that
  ends without asking twice.
- Theorem {lit}`settles_iff`: the two together.
-/

namespace Daqbuf
namespace Timebin
namespace GapFill

open Items Netpod Poll

variable {β : Type} {provider : FinerProvider β}

/-! ## Progress -/

/-- What a state has to meet for the next pass to make progress.  Where a finer source that was to fill a gap has
ended, the bins have come nearer to the end of the gap.  Bins from the cache do not end before their begin, and a gap
between them is not inverted.  What is asked for does not panic. -/
structure Proceeds (s : GapFill β) : Prop where
  fills : s.inpFiner = some [] → s.inpFinerFillsGap = true →
    s.expFinerRange.beg < s.front ∧ s.front ≤ s.expFinerRange.fin
  inOrder : s.inpFiner = none → ∀ bins, s.inpBuf = some bins → (∀ bin ∈ bins, bin.ts1 ≤ bin.ts2) ∧
    ∀ range, gapIn s.range.nanoBeg s.front bins = some range →
      s.subRequest range ≠ none ∧ ((∃ req, s.subRequest range = some (.ok req)) → range.beg < range.fin)
  rest : s.inpFiner = none → s.inpBuf = none → s.inp = some [] →
    ∀ range, s.restRange = some range → s.subRequest range ≠ none

/-- The stream ends, and when it has handed out an error it does not ask again for a range that it asked for before. -/
structure Settles (provider : FinerProvider β) (s : GapFill β) : Prop where
  ends : ∃ xs, Drains (pollNext provider) s xs
  asks_once : ∀ xs u e v ys w, Reaches (pollNext provider) s xs u → pollNext provider u = .item (.error e) v →
    Reaches (pollNext provider) v ys w → ∀ r ∈ w.requests.drop v.requests.length, r ∉ v.requests

/-- What holds between the passes: no batch without bins is held back, and what is waited for is either the gap in
front of the bin that is held back, or the rest. -/
structure Steady (s : GapFill β) : Prop where
  buf_ne_nil : s.inpBuf ≠ some []
  fills : ∀ finer, s.inpFiner = some finer → s.inpFinerFillsGap = true →
    ∃ bin rest, s.inpBuf = some (bin :: rest) ∧ bin.ts1 = s.expFinerRange.fin
  atEnd : ∀ finer, s.inpFiner = some finer → s.inpFinerFillsGap = false → s.inp = none ∧ s.inpBuf = none

/-- The ranges that were asked for begin one behind the other, and the next one will begin behind them. -/
structure Fresh (s : GapFill β) : Prop where
  increasing : s.requests.Pairwise fun a b => a.beg < b.beg
  behind : s.inpFiner = none → (s.inp = none ∧ s.inpBuf = none) ∨ ∀ r ∈ s.requests, r.beg < s.front
  asked : ∀ finer, s.inpFiner = some finer → s.inpFinerFillsGap = true → ∀ r ∈ s.requests, r.beg ≤ s.expFinerRange.beg

/-! ## A rank -/

/-- What is left of the cache -/
def left (s : GapFill β) : ℕ := (s.inp.elim 0 fun inp => inp.length + 1) + if s.done then 0 else 1

/-- How many bins are held back -/
def held (s : GapFill β) : ℕ := s.inpBuf.elim 0 fun bins => bins.length + 1

/-- How far it is to the end of the gap -/
def gap (s : GapFill β) : ℕ :=
  match s.inpFiner with
  | some _ => if s.inpFinerFillsGap then s.expFinerRange.fin - s.expFinerRange.beg else 1
  | none =>
      match s.inpBuf with
      | some (bin :: _) => bin.ts1 - s.front
      | _ => 0

/-- The bins that are held back are looked at before the finer source is polled. -/
def phase (s : GapFill β) : ℕ := if s.inpFiner.isSome then 0 else 1

/-- What is left of the finer source -/
def finerLeft (s : GapFill β) : ℕ := s.inpFiner.elim 0 List.length

/-- It is lowered by each pass that makes progress. -/
def rank (s : GapFill β) : ℕ ×ₗ ℕ ×ₗ ℕ ×ₗ ℕ ×ₗ ℕ :=
  toLex (s.left, toLex (s.held, toLex (s.gap, toLex (s.phase, s.finerLeft))))

section Rank

variable {s t : GapFill β}

theorem rank_lt_of_left (h : t.left < s.left) : t.rank < s.rank := by
  simp [rank, Prod.Lex.toLex_lt_toLex, h]

theorem rank_lt_of_held (hleft : t.left = s.left) (h : t.held < s.held) : t.rank < s.rank := by
  simp [rank, Prod.Lex.toLex_lt_toLex, hleft, h]

theorem rank_lt_of_gap (hleft : t.left = s.left) (hheld : t.held = s.held) (h : t.gap < s.gap) : t.rank < s.rank := by
  simp [rank, Prod.Lex.toLex_lt_toLex, hleft, hheld, h]

theorem rank_lt_of_phase (hleft : t.left = s.left) (hheld : t.held = s.held) (hgap : t.gap = s.gap)
    (h : t.phase < s.phase) : t.rank < s.rank := by
  simp [rank, Prod.Lex.toLex_lt_toLex, hleft, hheld, hgap, h]

theorem rank_lt_of_finerLeft (hleft : t.left = s.left) (hheld : t.held = s.held) (hgap : t.gap = s.gap)
    (hphase : t.phase = s.phase) (h : t.finerLeft < s.finerLeft) : t.rank < s.rank := by
  simp [rank, Prod.Lex.toLex_lt_toLex, hleft, hheld, hgap, hphase, h]

end Rank

/-! ## Passes that proceed -/

section Steps

variable {s t : GapFill β} {bins taken : List (Bin β)} {range : NanoRange}

/-- Bins that do not end before their begin lead on. -/
theorem le_endOf {t : ℕ} (hforward : ∀ bin ∈ taken, bin.ts1 ≤ bin.ts2) (hchain : Chain t taken) :
    t ≤ endOf t taken := by
  induction taken generalizing t with
  | nil => exact le_rfl
  | cons bin taken ih =>
      obtain ⟨hts, hchain⟩ := hchain
      have hbin := hforward bin List.mem_cons_self
      have hrest := ih (fun b hb => hforward b (List.mem_cons_of_mem _ hb)) hchain
      exact (hts ▸ hbin).trans hrest

/-- The rest begins at the front. -/
theorem beg_of_restRange (hrest : s.restRange = some range) : range.beg = s.front := by
  rw [restRange] at hrest
  cases hlast : s.lastBinTs2 with
  | none =>
      rw [hlast] at hrest
      rw [← Option.some.inj hrest, front_of_none hlast]
      rfl
  | some j =>
      rw [hlast] at hrest
      simp only at hrest
      split_ifs at hrest
      rw [← Option.some.inj hrest, front_of_some hlast]

/-- With one more range behind the others -/
theorem increasing_concat {requests : List NanoRange} (hincreasing : requests.Pairwise fun a b => a.beg < b.beg)
    (hlt : ∀ r ∈ requests, r.beg < range.beg) : (requests ++ [range]).Pairwise fun a b => a.beg < b.beg := by
  refine List.pairwise_append.mpr ⟨hincreasing, List.pairwise_singleton _ _, fun a ha b hb => ?_⟩
  obtain rfl := List.mem_singleton.mp hb
  exact hlt a ha

/-- What a pass keeps, and what it lowers -/
structure Advances (s t : GapFill β) : Prop where
  steady : t.Steady
  fresh : t.Fresh
  requests : s.requests <+: t.requests
  rank : t.rank < s.rank

theorem advances_finer {answer : Answer (Sitemty (List (Bin β)))} {rest : BinsInput β} (hs : s.Steady) (hf : s.Fresh)
    (hdone : s.done = false) (hfiner : s.inpFiner = some (answer :: rest)) :
    ∃ t, (pollNext provider s).next? = some t ∧ s.Advances t := by
  obtain ⟨taken, final, cnt, -, -, hnext⟩ := pollNext_finer provider hdone hfiner
  refine ⟨_, hnext, ⟨?_, ?_, ?_⟩, ⟨?_, ?_, ?_⟩, ?_, ?_⟩
  · simpa using hs.buf_ne_nil
  · intro finer _ hfills
    simpa using hs.fills _ hfiner (by simpa using hfills)
  · intro finer _ hfills
    simpa using hs.atEnd _ hfiner (by simpa using hfills)
  · simpa using hf.increasing
  · simp
  · intro finer _ hfills
    simpa using hf.asked _ hfiner (by simpa using hfills)
  · simp
  · refine rank_lt_of_finerLeft ?_ ?_ ?_ ?_ ?_
    · simp [left]
    · simp [held]
    · simp [gap, hfiner]
    · simp [phase, hfiner]
    · simp [finerLeft, hfiner]

theorem advances_finerEnded (hproceeds : s.Proceeds) (hs : s.Steady) (hf : s.Fresh) (hdone : s.done = false)
    (hfiner : s.inpFiner = some []) : ∃ t, (pollNext provider s).next? = some t ∧ s.Advances t := by
  refine ⟨_, pollNext_finerEnded provider hdone hfiner, ?_⟩
  rcases Bool.eq_false_or_eq_true s.inpFinerFillsGap with hfills | hfills
  · obtain ⟨hbeg, hfin⟩ := hproceeds.fills hfiner hfills
    obtain ⟨bin, rest, hbuf, hts⟩ := hs.fills _ hfiner hfills
    refine ⟨⟨hs.buf_ne_nil, nofun, nofun⟩, ⟨hf.increasing, fun _ => Or.inr fun r hr => ?_, nofun⟩, List.prefix_rfl, ?_⟩
    · have hasked := hf.asked _ hfiner hfills r hr
      change r.beg < s.front
      omega
    · have hgap : s.gap = s.expFinerRange.fin - s.expFinerRange.beg := by simp [gap, hfiner, hfills]
      refine rank_lt_of_gap rfl rfl ?_
      rw [hgap, gap, hbuf]
      change bin.ts1 - s.front < _
      omega
  · obtain ⟨hinp, hbuf⟩ := hs.atEnd _ hfiner hfills
    refine ⟨⟨hs.buf_ne_nil, nofun, nofun⟩, ⟨hf.increasing, fun _ => Or.inl ⟨hinp, hbuf⟩, nofun⟩, List.prefix_rfl, ?_⟩
    refine rank_lt_of_gap rfl rfl ?_
    simp [gap, hfiner, hfills, hbuf]

theorem advances_inpBuf (hproceeds : s.Proceeds) (hf : s.Fresh) (hdone : s.done = false) (hfiner : s.inpFiner = none)
    (hbuf : s.inpBuf = some bins) : ∃ t, (pollNext provider s).next? = some t ∧ s.Advances t := by
  obtain ⟨hforward, hgaps⟩ := hproceeds.inOrder hfiner bins hbuf
  have hbehind : ∀ r ∈ s.requests, r.beg < s.front := by
    refine (hf.behind hfiner).resolve_left fun h => ?_
    rw [hbuf] at h
    cases h.2
  -- where bins were passed on and nothing is held back, there is less left
  have hdropped : ∀ taken : List (Bin β), Chain s.front taken → (∀ bin ∈ taken, bin ∈ bins) → ∀ t : GapFill β,
      t = ({ s with inpBuf := none } : GapFill β).passed taken → s.Advances t := by
    rintro taken hchain hmem t rfl
    refine ⟨⟨by simp, by simp [hfiner], by simp [hfiner]⟩,
      ⟨by simpa using hf.increasing, fun _ => Or.inr ?_, by simp [hfiner]⟩, by simp,
      rank_lt_of_held (by simp [left]) (by simp [held, hbuf])⟩
    intro r hr
    rw [front_passed]
    exact (hbehind r (by simpa using hr)).trans_le (le_endOf (fun bin hbin => hforward bin (hmem bin hbin)) hchain)
  cases pollNext_inpBuf provider hdone hfiner hbuf with
  | all hchain _ hnext => exact ⟨_, hnext, hdropped bins hchain (fun _ => id) _ rfl⟩
  | before taken bin rest hbins hchain _ _ hnext =>
      exact ⟨_, hnext, hdropped taken hchain (fun b hb => hbins ▸ List.mem_append_left _ hb) _ rfl⟩
  | gap taken bin rest hbins hchain hle hne hgap hp =>
      have hmem : ∀ b ∈ taken, b ∈ bins := fun b hb => hbins ▸ List.mem_append_left _ hb
      have hfront := le_endOf (fun b hb => hforward b (hmem b hb)) hchain
      rcases hp with ⟨hsub, -⟩ | ⟨e, -, hnext⟩ | ⟨req, -, hnext⟩
      · exact absurd hsub (hgaps _ hgap).1
      · obtain ⟨hsteady, hfresh, hrequests, -⟩ := hdropped taken hchain hmem _ rfl
        refine ⟨_, hnext, ⟨hsteady.buf_ne_nil, ?_, ?_⟩, ⟨hfresh.increasing, hfresh.behind, ?_⟩, hrequests, ?_⟩
        · simp [setUp, hfiner]
        · simp [setUp, hfiner]
        · simp [setUp, hfiner]
        · exact rank_lt_of_held (by simp [left, setUp]) (by simp [held, setUp, hbuf])
      · have hlt : ∀ r ∈ s.requests, r.beg < endOf s.front taken := fun r hr => (hbehind r hr).trans_le hfront
        refine ⟨_, hnext, ⟨?_, ?_, ?_⟩, ⟨?_, ?_, ?_⟩, ?_, ?_⟩
        · simp [asking, setUp]
        · intro _ _ _
          exact ⟨bin, rest, by simp [asking, setUp], rfl⟩
        · intro _ _ hfills
          cases hfills
        · simpa [asking, setUp] using increasing_concat hf.increasing hlt
        · simp [asking]
        · intro _ _ _ r hr
          have hr : r ∈ s.requests ∨ r = ⟨endOf s.front taken, bin.ts1⟩ := by simpa [asking, setUp] using hr
          rcases hr with hr | hr
          · exact (hlt r hr).le
          · exact hr ▸ le_rfl
        · simp [asking, setUp]
        · by_cases hnil : taken = []
          · subst hnil
            rw [List.nil_append] at hbins
            refine rank_lt_of_phase ?_ ?_ ?_ ?_
            · simp [left, asking, setUp]
            · simp [held, asking, setUp, hbuf, hbins]
            · simp [gap, asking, setUp, hfiner, hbuf, hbins, endOf]
            · simp [phase, asking, hfiner]
          · have hlen : rest.length + 1 < bins.length := by
              have hpos := List.length_pos_iff.mpr hnil
              rw [hbins, List.length_append, List.length_cons]
              omega
            refine rank_lt_of_held ?_ ?_
            · simp [left, asking, setUp]
            · simpa [held, asking, setUp, hbuf] using hlen

theorem advances_inp {answer : Answer (Sitemty (List (Bin β)))} {rest : BinsInput β} (hf : s.Fresh)
    (hdone : s.done = false) (hfiner : s.inpFiner = none) (hbuf : s.inpBuf = none)
    (hinp : s.inp = some (answer :: rest)) :
    ∃ t, (pollNext provider s).next? = some t ∧ s.Advances t := by
  obtain ⟨final, buf, hfilled, hnext⟩ := pollNext_inp provider hdone hfiner hbuf hinp
  have hbehind : ∀ r ∈ s.requests, r.beg < s.front := by
    refine (hf.behind hfiner).resolve_left fun h => ?_
    rw [hinp] at h
    cases h.1
  refine ⟨_, hnext, ⟨?_, ?_, ?_⟩, ⟨hf.increasing, fun _ => Or.inr hbehind, ?_⟩, List.prefix_rfl, rank_lt_of_left ?_⟩
  · intro hnil
    exact (hfilled [] hnil).1 rfl
  · simp [hfiner]
  · simp [hfiner]
  · simp [hfiner]
  · simp [left, hinp]

theorem advances_inpEnded (hproceeds : s.Proceeds) (hf : s.Fresh) (hdone : s.done = false) (hfiner : s.inpFiner = none)
    (hbuf : s.inpBuf = none) (hinp : s.inp = some []) :
    (∃ t, pollNext provider s = .done t) ∨ ∃ t, (pollNext provider s).next? = some t ∧ s.Advances t := by
  have hbehind : ∀ r ∈ s.requests, r.beg < s.front := by
    refine (hf.behind hfiner).resolve_left fun h => ?_
    rw [hinp] at h
    cases h.1
  rcases pollNext_inpEnded provider hdone hfiner hbuf hinp with ⟨-, hpass⟩ | ⟨range, hrest, hp⟩
  · exact Or.inl ⟨_, hpass⟩
  · right
    have hbeg := beg_of_restRange hrest
    rcases hp with ⟨hsub, -⟩ | ⟨e, -, hnext⟩ | ⟨req, -, hnext⟩
    · exact absurd hsub (hproceeds.rest hfiner hbuf hinp range hrest)
    · refine ⟨_, hnext, ⟨?_, ?_, ?_⟩, ⟨hf.increasing, fun _ => Or.inl ⟨rfl, hbuf⟩, ?_⟩, List.prefix_rfl,
        rank_lt_of_left ?_⟩
      · simp [setUp, hbuf]
      · simp [setUp, hfiner]
      · simp [setUp, hfiner]
      · simp [setUp, hfiner]
      · simp [left, setUp, hinp, hdone]
    · refine ⟨_, hnext, ⟨?_, ?_, ?_⟩, ⟨?_, ?_, ?_⟩, List.prefix_append _ _, rank_lt_of_left ?_⟩
      · simp [asking, setUp, hbuf]
      · intro _ _ hfills
        cases hfills
      · intro _ _ _
        exact ⟨rfl, hbuf⟩
      · exact increasing_concat hf.increasing fun r hr => hbeg ▸ hbehind r hr
      · simp [asking]
      · intro _ _ hfills
        cases hfills
      · simp [left, asking, setUp, hinp]

theorem advances_last (hf : s.Fresh) (hdone : s.done = false) (hfiner : s.inpFiner = none) (hbuf : s.inpBuf = none)
    (hinp : s.inp = none) : ∃ t, (pollNext provider s).next? = some t ∧ s.Advances t := by
  refine ⟨_, pollNext_last provider hdone hfiner hbuf hinp, ⟨?_, ?_, ?_⟩,
    ⟨hf.increasing, fun _ => Or.inl ⟨hinp, hbuf⟩, ?_⟩, List.prefix_rfl, rank_lt_of_left ?_⟩
  · simp [hbuf]
  · simp [hfiner]
  · simp [hfiner]
  · simp [hfiner]
  · simp [left, hdone]

/-- A pass that proceeds lowers the rank. -/
theorem Steady.step (hproceeds : s.Proceeds) (hs : s.Steady) (hf : s.Fresh) (xs : List (Sitemty (List (Bin β)))) :
    (pollNext provider s).Ensures xs fun _ t => s.Advances t := by
  have hnext : (∃ t, pollNext provider s = .done t) ∨ ∃ t, (pollNext provider s).next? = some t ∧ s.Advances t := by
    cases hdone : s.done with
    | true => exact Or.inl ⟨s, by rw [pollNext, if_pos hdone]⟩
    | false =>
        rcases hfiner : s.inpFiner with _ | _ | ⟨answer, rest⟩
        · rcases hbuf : s.inpBuf with _ | bins
          · rcases hinp : s.inp with _ | _ | ⟨answer, rest⟩
            · exact Or.inr (advances_last hf hdone hfiner hbuf hinp)
            · exact advances_inpEnded hproceeds hf hdone hfiner hbuf hinp
            · exact Or.inr (advances_inp hf hdone hfiner hbuf hinp)
          · exact Or.inr (advances_inpBuf hproceeds hf hdone hfiner hbuf)
        · exact Or.inr (advances_finerEnded hproceeds hs hf hdone hfiner)
        · exact Or.inr (advances_finer hs hf hdone hfiner)
  rcases hnext with ⟨t, hpass⟩ | ⟨t, hpass, ht⟩
  · rw [hpass]
    exact ensures_done t
  · exact .of_next? hpass ht xs

/-- A run in which all passes proceed -/
theorem reaches_fresh {s₀ v w : GapFill β} {xs ys : List (Sitemty (List (Bin β)))}
    (hproceeds : ∀ xs v, Reaches (pollNext provider) s₀ xs v → v.Proceeds) (hv : Reaches (pollNext provider) s₀ xs v)
    (hs : v.Steady) (hf : v.Fresh) (hw : Reaches (pollNext provider) v ys w) :
    w.Steady ∧ w.Fresh ∧ v.requests <+: w.requests := by
  refine hw.inv (I := fun _ w => w.Steady ∧ w.Fresh ∧ v.requests <+: w.requests) ⟨hs, hf, List.prefix_rfl⟩ ?_
  intro zs u hu ⟨hsteady, hfresh, hrequests⟩
  refine Or.inr ((Steady.step (hproceeds _ u (hv.trans hu)) hsteady hfresh zs).mono fun _ t ht => ?_)
  exact ⟨ht.steady, ht.fresh, hrequests.trans ht.requests⟩

/-- If all passes proceed, the stream ends and does not ask twice for a range. -/
theorem settles_of_proceeds {s₀ : GapFill β} (hs : s₀.Steady) (hf : s₀.Fresh)
    (hproceeds : ∀ xs v, Reaches (pollNext provider) s₀ xs v → v.Proceeds) : Settles provider s₀ := by
  constructor
  · have hends : ∃ xs t u, Reaches (pollNext provider) s₀ xs t ∧ (t.Steady ∧ t.Fresh) ∧
        pollNext provider t = .done u := by
      refine drains_of_measure rank (I := fun _ t => t.Steady ∧ t.Fresh) ⟨hs, hf⟩ fun ys v hv hinv => ?_
      exact (Steady.step (hproceeds ys v hv) hinv.1 hinv.2 ys).mono fun _ t ht => ⟨⟨ht.steady, ht.fresh⟩, ht.rank⟩
    obtain ⟨xs, t, u, hrun, -, hdone⟩ := hends
    exact ⟨xs, t, u, hrun, hdone⟩
  · intro xs u e v ys w hu hpass hw r hr hmem
    have hv := hu.item hpass
    obtain ⟨hvsteady, hvfresh, -⟩ := reaches_fresh hproceeds .refl hs hf hv
    obtain ⟨-, hwfresh, hrequests⟩ := reaches_fresh hproceeds hv hvsteady hvfresh hw
    obtain ⟨more, hmore⟩ := hrequests
    have hincreasing := hwfresh.increasing
    rw [← hmore, List.drop_left] at hr
    rw [← hmore] at hincreasing
    exact lt_irrefl _ ((List.pairwise_append.mp hincreasing).2.2 r hmem r hr)

end Steps

/-! ## Runs that settle -/

/-- The bins of the source do not end before their begin. -/
def Ordered (src : BinsInput β) : Prop := ∀ answer ∈ src, ∀ bin, Delivers answer bin → bin.ts1 ≤ bin.ts2

/-- A bin is held back that begins before the end of what was passed on.  Asking for more cannot change that. -/
structure Stuck (s : GapFill β) : Prop where
  done : s.done = false
  granted : ∀ range e, s.subRequest range ≠ some (.error e)
  held : ∃ bin rest, s.inpBuf = some (bin :: rest) ∧ s.range.nanoBeg ≤ bin.ts1 ∧ bin.ts1 < s.front
  finer : ∀ finer, s.inpFiner = some finer → Ordered finer

/-- A finer source was asked to fill a gap. -/
structure Filling (s : GapFill β) : Prop where
  ahead : s.expFinerRange.beg ≤ s.front
  lt : s.expFinerRange.beg < s.expFinerRange.fin
  held : ∃ bin rest, s.inpBuf = some (bin :: rest) ∧ bin.ts1 = s.expFinerRange.fin
  begins : s.range.nanoBeg ≤ s.expFinerRange.fin
  asked : s.expFinerRange ∈ s.requests
  granted : ∃ req, s.subRequest s.expFinerRange = some (.ok req)

/-- What holds as long as all passes proceed, when the bins of all sources are ordered -/
structure Filled (s : GapFill β) : Prop where
  stopped : s.done = true → s.inpFiner = none ∧ s.inpBuf = none ∧ s.inp = none
  filling : ∀ finer, s.inpFiner = some finer → s.inpFinerFillsGap = true → s.Filling
  inp : ∀ inp, s.inp = some inp → Ordered inp
  buf : ∀ bins, s.inpBuf = some bins → ∀ bin ∈ bins, bin.ts1 ≤ bin.ts2
  finer : ∀ finer, s.inpFiner = some finer → Ordered finer

section Settled

variable {s t : GapFill β} {bins taken : List (Bin β)} {range : NanoRange}

theorem Ordered.tail {answer : Answer (Sitemty (List (Bin β)))} {rest : BinsInput β} (h : Ordered (answer :: rest)) :
    Ordered rest := fun a ha => h a (List.mem_cons_of_mem _ ha)

/-- What a finer source is asked for may have no bins at all. -/
theorem ordered_asked (hprovider : ∀ asked req, Ordered (provider asked req)) (asked : List NanoRange)
    (req : SubRequest) : Ordered (if req = .nothing then [] else provider asked req) := by
  split_ifs
  · exact nofun
  · exact hprovider asked req

/-- Sub-requests are refused where events are read and the bins are not weighted by time. -/
theorem of_refused {e : Error} (hrefused : s.subRequest range = some (.error e)) :
    findNextFinerBinLen (tsMs s.range.binLen) s.binLenLayers = none ∧ s.allowFromEvents = true ∧
      s.doTimeWeight = false := by
  unfold subRequest at hrefused
  cases hfind : findNextFinerBinLen (tsMs s.range.binLen) s.binLenLayers with
  | some binLenFiner =>
      simp only [hfind, Option.bind_eq_bind, Option.bind_eq_some_iff] at hrefused
      obtain ⟨_, -, _, -, _, -, _, -, _, -, hlast⟩ := hrefused
      split_ifs at hlast
      cases hlast
  | none =>
      rw [hfind] at hrefused
      cases hevents : s.allowFromEvents with
      | true =>
          simp only [hevents, if_true, Option.bind_eq_bind, Option.bind_eq_some_iff] at hrefused
          obtain ⟨_, -, hlast⟩ := hrefused
          split_ifs at hlast with hweight
          · cases hlast
          · exact ⟨rfl, rfl, Bool.eq_false_iff.mpr hweight⟩
      | false => simp [hevents] at hrefused

/-- Whether sub-requests are refused does not depend on the range. -/
theorem subRequest_ne_error {req : SubRequest} (hreq : s.subRequest range = some (.ok req)) (range' : NanoRange)
    (e : Error) : s.subRequest range' ≠ some (.error e) := by
  intro hrefused
  obtain ⟨hfind, hevents, hweight⟩ := of_refused hrefused
  simp only [subRequest, hfind, hevents, hweight, if_true, Option.bind_eq_bind, Option.bind_eq_some_iff] at hreq
  obtain ⟨_, -, hlast⟩ := hreq
  cases hlast

/-- A stuck stream stays so. -/
theorem Stuck.step (hprovider : ∀ asked req, Ordered (provider asked req)) (hs : s.Stuck) :
    pollNext provider s = .panic ∨ ∃ t, (pollNext provider s).next? = some t ∧ t.Stuck := by
  obtain ⟨bin, rest, hbuf, hle, hlt⟩ := hs.held
  rcases hfiner : s.inpFiner with _ | _ | ⟨answer, finer⟩
  · rcases pollNext_held provider hs.done hfiner hbuf hle hlt.ne with ⟨-, hpanic⟩ | ⟨e, hrefused, -⟩ | ⟨req, -, hnext⟩
    · exact Or.inl hpanic
    · exact absurd hrefused (hs.granted _ e)
    · refine Or.inr ⟨_, hnext, hs.done, hs.granted, ⟨bin, rest, hbuf, hle, hlt⟩, ?_⟩
      intro finer hfiner'
      obtain rfl := Option.some.inj hfiner'
      exact ordered_asked hprovider _ _
  · have hnext := pollNext_finerEnded provider hs.done hfiner
    exact Or.inr ⟨_, hnext, hs.done, hs.granted, ⟨bin, rest, hbuf, hle, hlt⟩, nofun⟩
  · obtain ⟨taken, final, cnt, hchain, hmem, hnext⟩ := pollNext_finer provider hs.done hfiner
    have hordered := hs.finer _ hfiner
    have hahead := le_endOf (fun b hb => hordered answer List.mem_cons_self b (hmem b hb)) hchain
    refine Or.inr ⟨_, hnext, ?_, ?_, ⟨bin, rest, ?_, ?_, ?_⟩, ?_⟩
    · simpa using hs.done
    · intro range e
      rw [subRequest_passed]
      exact hs.granted range e
    · simpa using hbuf
    · simpa using hle
    · rw [front_passed]
      exact hlt.trans_le hahead
    · intro finer' hfiner'
      obtain rfl : finer = finer' := by simpa using hfiner'
      exact hordered.tail

/-- A stuck stream does not end. -/
theorem Stuck.not_drains (hprovider : ∀ asked req, Ordered (provider asked req)) (hs : s.Stuck)
    (xs : List (Sitemty (List (Bin β)))) : ¬ Drains (pollNext provider) s xs := by
  rintro ⟨t, u, hrun, hdone⟩
  have ht : t.Stuck := by
    refine hrun.inv (I := fun _ t => t.Stuck) hs fun ys v _ hv => ?_
    exact (hv.step hprovider).imp_right fun ⟨w, hnext, hw⟩ => .of_next? hnext hw ys
  rcases ht.step hprovider with hpanic | ⟨v, hnext, -⟩
  · rw [hdone] at hpanic
    cases hpanic
  · rw [hdone] at hnext
    cases hnext

/-- In a run that settles, a state from which the stream does not end is not reached. -/
theorem Settles.drains {s₀ v : GapFill β} {xs : List (Sitemty (List (Bin β)))} (hsettles : Settles provider s₀)
    (hv : Reaches (pollNext provider) s₀ xs v) : ∃ ys, Drains (pollNext provider) v ys := by
  obtain ⟨zs, t, u, hrun, hdone⟩ := hsettles.ends
  obtain ⟨ys, -, hrest⟩ := hv.prefix_of_final hrun (Or.inr ⟨u, hdone⟩)
  exact ⟨ys, t, u, hrest, hdone⟩

/-- Nor is one where the next pass panics. -/
theorem Settles.ne_panic {s₀ v : GapFill β} {xs : List (Sitemty (List (Bin β)))} (hsettles : Settles provider s₀)
    (hv : Reaches (pollNext provider) s₀ xs v) : pollNext provider v ≠ .panic := by
  intro hpanic
  obtain ⟨ys, hdrains⟩ := hsettles.drains hv
  exact hdrains.not_panics ⟨[], v, .refl, hpanic⟩

/-- A finer source that brings nothing is asked again, behind an error. -/
theorem Filling.asks_again (provider : FinerProvider β) (hs : s.Filling) (hdone : s.done = false)
    (hfiner : s.inpFiner = some []) (hfills : s.inpFinerFillsGap = true) (hnothing : s.front = s.expFinerRange.beg) :
    ∃ e t u xs, pollNext provider s = .item (.error e) t ∧ Reaches (pollNext provider) t xs u ∧
      t.requests = s.requests ∧ u.requests = s.requests ++ [s.expFinerRange] := by
  obtain ⟨bin, rest, hbuf, hts⟩ := hs.held
  obtain ⟨req, hreq⟩ := hs.granted
  have hpass : pollNext provider s = s.finerEnded := by rw [pollNext, if_neg (Bool.eq_false_iff.mp hdone), hfiner]
  have herror : ∃ e, s.finerEnded = .item (.error e) { s with expFinerRange := ⟨0, 0⟩, inpFiner := none } := by
    rw [finerEnded]
    cases hlast : s.lastBinTs2 with
    | none => exact ⟨_, if_pos hfills⟩
    | some j =>
        have hshort : j < s.expFinerRange.fin := by
          rw [← front_of_some hlast, hnothing]
          exact hs.lt
        simp only
        rw [if_pos hshort, if_pos hfills]
        exact ⟨_, rfl⟩
  obtain ⟨e, herror⟩ := herror
  rw [hpass]
  let t : GapFill β := { s with expFinerRange := ⟨0, 0⟩, inpFiner := none }
  have hrange : (⟨t.front, bin.ts1⟩ : NanoRange) = s.expFinerRange := by
    rw [hts]
    exact congrArg (NanoRange.mk · _) hnothing
  have hle : t.range.nanoBeg ≤ bin.ts1 := hts ▸ hs.begins
  have hne : bin.ts1 ≠ t.front := by
    rw [hts]
    exact hnothing ▸ hs.lt.ne'
  have hheld := pollNext_held provider (s := t) hdone rfl hbuf hle hne
  have hreq : t.subRequest s.expFinerRange = some (.ok req) := hreq
  rw [hrange, hreq] at hheld
  rcases hheld with ⟨hnone, -⟩ | ⟨_, hrefused, -⟩ | ⟨_, -, hnext⟩
  · cases hnone
  · cases hrefused
  · obtain ⟨xs, hrun⟩ := Reaches.of_next? hnext
    exact ⟨e, t, _, xs, herror, hrun, rfl, rfl⟩

/-- In a run that settles, all passes proceed as long as those before have. -/
theorem Filled.proceeds {s₀ v : GapFill β} {xs : List (Sitemty (List (Bin β)))} (hsettles : Settles provider s₀)
    (hprovider : ∀ asked req, Ordered (provider asked req)) (hrun : Reaches (pollNext provider) s₀ xs v)
    (hv : v.Filled) : v.Proceeds := by
  have hdone : (∃ finer, v.inpFiner = some finer) ∨ (∃ bins, v.inpBuf = some bins) ∨ (∃ inp, v.inp = some inp) →
      v.done = false := by
    intro hleft
    by_contra hdone
    obtain ⟨hfiner, hbuf, hinp⟩ := hv.stopped (by simpa using hdone)
    simp [hfiner, hbuf, hinp] at hleft
  refine ⟨?_, ?_, ?_⟩
  · intro hfiner hfills
    have hd := hdone (Or.inl ⟨_, hfiner⟩)
    have hfilling := hv.filling _ hfiner hfills
    constructor
    · refine lt_of_le_of_ne hfilling.ahead fun hnothing => ?_
      obtain ⟨e, t, u, ys, hpass, hrest, ht, hu⟩ := hfilling.asks_again provider hd hfiner hfills hnothing.symm
      have honce := hsettles.asks_once xs v e t ys u hrun hpass hrest v.expFinerRange
      rw [ht, hu, List.drop_left] at honce
      exact honce List.mem_cons_self hfilling.asked
    · by_contra hpast
      obtain ⟨bin, rest, hbuf, hts⟩ := hfilling.held
      obtain ⟨req, hreq⟩ := hfilling.granted
      obtain ⟨ys, hdrains⟩ := hsettles.drains hrun
      have hstuck : v.Stuck := by
        refine ⟨hd, subRequest_ne_error hreq, ⟨bin, rest, hbuf, ?_, ?_⟩, hv.finer⟩
        · exact hts ▸ hfilling.begins
        · exact hts ▸ not_le.mp hpast
      exact hstuck.not_drains hprovider ys hdrains
  · intro hfiner bins hbuf
    have hd := hdone (Or.inr (Or.inl ⟨_, hbuf⟩))
    refine ⟨hv.buf bins hbuf, fun range hrange => ?_⟩
    cases pollNext_inpBuf provider hd hfiner hbuf with
    | all _ hgap _ =>
        rw [hgap] at hrange
        cases hrange
    | before _ _ _ _ _ _ hgap _ =>
        rw [hgap] at hrange
        cases hrange
    | gap taken bin rest hbins hchain hle hne hgap hp =>
        rw [hgap] at hrange
        obtain rfl := Option.some.inj hrange
        rcases hp with ⟨-, hpanic⟩ | ⟨e, hrefused, -⟩ | ⟨req, hreq, hnext⟩
        · exact absurd hpanic (hsettles.ne_panic hrun)
        · exact ⟨by simp [hrefused], fun ⟨req, hreq⟩ => absurd hrefused (subRequest_ne_error hreq _ _)⟩
        · refine ⟨by simp [hreq], fun _ => ?_⟩
          by_contra hinverted
          obtain ⟨ys, hnext⟩ := Reaches.of_next? hnext
          obtain ⟨zs, hdrains⟩ := hsettles.drains (hrun.trans hnext)
          refine Stuck.not_drains hprovider ⟨?_, ?_, ⟨bin, rest, ?_, ?_, ?_⟩, ?_⟩ zs hdrains
          · simpa [asking, setUp] using hd
          · intro range e
            have hsame : (({ v with inpBuf := some (bin :: rest) } : GapFill β).passed taken).subRequest range =
              v.subRequest range := subRequest_passed
            exact fun h => subRequest_ne_error hreq range e (hsame ▸ h)
          · simp [asking, setUp]
          · simpa [asking, setUp] using hle
          · have hfront := front_passed { v with inpBuf := some (bin :: rest) } taken
            change bin.ts1 < (({ v with inpBuf := some (bin :: rest) } : GapFill β).passed taken).front
            rw [hfront]
            exact lt_of_le_of_ne (not_lt.mp hinverted) hne
          · intro finer hfiner'
            obtain rfl := Option.some.inj hfiner'
            exact ordered_asked hprovider _ _
  · intro hfiner hbuf hinp range hrange hpanics
    have hd := hdone (Or.inr (Or.inr ⟨_, hinp⟩))
    rcases pollNext_inpEnded provider hd hfiner hbuf hinp with ⟨hnone, -⟩ | ⟨range', hsome, hp⟩
    · rw [hrange] at hnone
      cases hnone
    · rw [hrange] at hsome
      obtain rfl := Option.some.inj hsome
      rcases hp with ⟨-, hpanic⟩ | ⟨e, hrefused, -⟩ | ⟨req, hreq, -⟩
      · exact hsettles.ne_panic hrun hpanic
      · rw [hpanics] at hrefused
        cases hrefused
      · rw [hpanics] at hreq
        cases hreq

/-- Where a finer source is asked to fill a gap, it begins at the front and ends at the bin that is held back. -/
theorem filled_asking {fillsGap : Bool} {req : SubRequest} (hprovider : ∀ asked req, Ordered (provider asked req))
    (hdone : s.done = false) (hinp : ∀ inp, s.inp = some inp → Ordered inp)
    (hbuf : ∀ bins, s.inpBuf = some bins → ∀ bin ∈ bins, bin.ts1 ≤ bin.ts2)
    (hreq : s.subRequest range = some (.ok req))
    (hgap : fillsGap = true → s.front = range.beg ∧ range.beg < range.fin ∧ s.range.nanoBeg ≤ range.fin ∧
      ∃ bin rest, s.inpBuf = some (bin :: rest) ∧ bin.ts1 = range.fin) :
    (s.asking provider range fillsGap req).Filled := by
  refine ⟨?_, ?_, hinp, hbuf, ?_⟩
  · intro hdone'
    have hnot : false = true := hdone.symm.trans hdone'
    cases hnot
  · intro _ _ hfills
    obtain ⟨hfront, hlt, hbegins, hheld⟩ := hgap hfills
    exact ⟨hfront.ge, hlt, hheld, hbegins, List.mem_append_right _ List.mem_cons_self, req, hreq⟩
  · intro finer hfiner
    obtain rfl := Option.some.inj hfiner
    exact ordered_asked hprovider _ _

/-- Looking at bins from the cache -/
theorem filled_inpBuf (hprovider : ∀ asked req, Ordered (provider asked req)) (hproceeds : s.Proceeds) (hs : s.Filled)
    (hdone : s.done = false) (hfiner : s.inpFiner = none) (hbuf : s.inpBuf = some bins)
    (hnext : (pollNext provider s).next? = some t) : t.Filled := by
  have hdropped : ∀ taken : List (Bin β), (({ s with inpBuf := none } : GapFill β).passed taken).Filled := fun taken =>
    ⟨by simp [hdone], by simp [hfiner], by simpa using hs.inp, by simp, by simp [hfiner]⟩
  cases pollNext_inpBuf provider hdone hfiner hbuf with
  | all _ _ hnext' =>
      obtain rfl := Option.some.inj (hnext.symm.trans hnext')
      exact hdropped bins
  | before taken _ _ _ _ _ _ hnext' =>
      obtain rfl := Option.some.inj (hnext.symm.trans hnext')
      exact hdropped taken
  | gap taken bin rest hbins hchain hle hne hgap hp =>
      rcases hp with ⟨-, hpass⟩ | ⟨e, -, hnext'⟩ | ⟨req, hreq, hnext'⟩
      · rw [hpass] at hnext
        cases hnext
      · obtain rfl := Option.some.inj (hnext.symm.trans hnext')
        exact ⟨by simp [setUp, hdone], by simp [setUp, hfiner], (hdropped taken).inp, by simp [setUp],
          by simp [setUp, hfiner]⟩
      · obtain rfl := Option.some.inj (hnext.symm.trans hnext')
        have hlt := ((hproceeds.inOrder hfiner bins hbuf).2 _ hgap).2 ⟨req, hreq⟩
        refine filled_asking hprovider (by simpa using hdone) (by simpa using hs.inp) ?_ ?_ fun _ => ⟨?_, hlt, ?_, ?_⟩
        · intro bins' hbins' b hb
          obtain rfl : bin :: rest = bins' := by simpa using hbins'
          exact hs.buf bins hbuf b (hbins ▸ List.mem_append_right _ hb)
        · rw [subRequest_passed]
          exact hreq
        · rw [front_passed]
          rfl
        · simpa using hle
        · exact ⟨bin, rest, by simp, rfl⟩

/-- The end of the cache -/
theorem filled_inpEnded (hprovider : ∀ asked req, Ordered (provider asked req)) (hs : s.Filled)
    (hdone : s.done = false) (hfiner : s.inpFiner = none) (hbuf : s.inpBuf = none) (hinp : s.inp = some [])
    (hnext : (pollNext provider s).next? = some t) : t.Filled := by
  rcases pollNext_inpEnded provider hdone hfiner hbuf hinp with ⟨-, hpass⟩ | ⟨range, -, hp⟩
  · rw [hpass] at hnext
    cases hnext
  · rcases hp with ⟨-, hpass⟩ | ⟨e, -, hnext'⟩ | ⟨req, hreq, hnext'⟩
    · rw [hpass] at hnext
      cases hnext
    · obtain rfl := Option.some.inj (hnext.symm.trans hnext')
      exact ⟨by simp [setUp, hdone], by simp [setUp, hfiner], nofun, hs.buf, hs.finer⟩
    · obtain rfl := Option.some.inj (hnext.symm.trans hnext')
      exact filled_asking hprovider hdone nofun hs.buf hreq nofun

/-- An answer of the finer source -/
theorem filled_finer {answer : Answer (Sitemty (List (Bin β)))} {finer : BinsInput β} (hs : s.Filled)
    (hdone : s.done = false) (hfiner : s.inpFiner = some (answer :: finer))
    (hnext : (pollNext provider s).next? = some t) : t.Filled := by
  obtain ⟨taken, final, cnt, hchain, hmem, hnext'⟩ := pollNext_finer provider hdone hfiner
  obtain rfl := Option.some.inj (hnext.symm.trans hnext')
  have hordered := hs.finer _ hfiner
  have hahead := le_endOf (fun b hb => hordered answer List.mem_cons_self b (hmem b hb)) hchain
  refine ⟨by simp [hdone], ?_, by simpa using hs.inp, by simpa using hs.buf, ?_⟩
  · intro _ _ hfills
    have hfilling := hs.filling _ hfiner (by simpa using hfills)
    refine ⟨?_, by simpa using hfilling.lt, by simpa using hfilling.held, by simpa using hfilling.begins,
      by simpa using hfilling.asked, ?_⟩
    · rw [front_passed, passed_expFinerRange]
      exact hfilling.ahead.trans hahead
    · rw [subRequest_passed, passed_expFinerRange]
      exact hfilling.granted
  · intro finer' hfiner'
    obtain rfl : finer = finer' := by simpa using hfiner'
    exact hordered.tail

/-- Passes that proceed leave ordered bins to fill the gaps. -/
theorem Filled.step (hprovider : ∀ asked req, Ordered (provider asked req)) (hproceeds : s.Proceeds) (hs : s.Filled)
    (hnext : (pollNext provider s).next? = some t) : t.Filled := by
  cases hdone : s.done with
  | true =>
      rw [pollNext, if_pos hdone] at hnext
      cases hnext
  | false =>
      rcases hfiner : s.inpFiner with _ | _ | ⟨answer, finer⟩
      · rcases hbuf : s.inpBuf with _ | bins
        · rcases hinp : s.inp with _ | _ | ⟨answer, rest⟩
          · rw [pollNext_last provider hdone hfiner hbuf hinp] at hnext
            obtain rfl := Option.some.inj hnext
            exact ⟨fun _ => ⟨hfiner, hbuf, hinp⟩, by simp [hfiner], hs.inp, hs.buf, hs.finer⟩
          · exact filled_inpEnded hprovider hs hdone hfiner hbuf hinp hnext
          · obtain ⟨final, buf, hfilled, hnext'⟩ := pollNext_inp provider hdone hfiner hbuf hinp
            obtain rfl := Option.some.inj (hnext.symm.trans hnext')
            have hordered := hs.inp _ hinp
            refine ⟨by simp [hdone], by simp [hfiner], ?_, ?_, hs.finer⟩
            · intro inp hinp'
              obtain rfl := Option.some.inj hinp'
              exact hordered.tail
            · exact fun bins hbins bin hbin => hordered answer List.mem_cons_self bin ((hfilled bins hbins).2 bin hbin)
        · exact filled_inpBuf hprovider hproceeds hs hdone hfiner hbuf hnext
      · rw [pollNext_finerEnded provider hdone hfiner] at hnext
        obtain rfl := Option.some.inj hnext
        exact ⟨by simp [hdone], by simp, hs.inp, hs.buf, by simp⟩
      · exact filled_finer hs hdone hfiner hnext

/-- With bins that do not end before their begin, all passes proceed in a run that settles. -/
theorem proceeds_of_settles {s₀ v : GapFill β} {xs : List (Sitemty (List (Bin β)))}
    (hprovider : ∀ asked req, Ordered (provider asked req)) (hs₀ : s₀.Filled) (hsettles : Settles provider s₀)
    (hrun : Reaches (pollNext provider) s₀ xs v) : v.Proceeds := by
  have hv : v.Filled := by
    induction hrun with
    | refl => exact hs₀
    | again hrun hpass ih =>
        exact ih.step hprovider (ih.proceeds hsettles hprovider hrun) (by rw [hpass]; rfl)
    | pending hrun hpass ih =>
        exact ih.step hprovider (ih.proceeds hsettles hprovider hrun) (by rw [hpass]; rfl)
    | item hrun hpass ih =>
        exact ih.step hprovider (ih.proceeds hsettles hprovider hrun) (by rw [hpass]; rfl)
  exact hv.proceeds hsettles hprovider hrun

end Settled

section New

variable {s : GapFill β} {allowFromEvents doTimeWeight : Bool} {range : BinnedRange} {binLenLayers : List ℕ}
  {inp : BinsInput β}

/-- A new stream has asked for nothing. -/
theorem new_eq_some (hnew : new allowFromEvents range doTimeWeight binLenLayers inp = some s) :
    s = { allowFromEvents, range, doTimeWeight, binLenLayers, inp := some inp } := by
  obtain ⟨_, -, hs⟩ := Option.bind_eq_some_iff.mp hnew
  exact (Option.some.inj hs).symm

/-- The stream settles if all passes proceed, and only then if no bin ends before its begin. -/
theorem settles_iff (provider : FinerProvider β)
    (hnew : new allowFromEvents range doTimeWeight binLenLayers inp = some s) :
    ((∀ xs v, Reaches (pollNext provider) s xs v → v.Proceeds) → Settles provider s) ∧
      (Ordered inp → (∀ asked req, Ordered (provider asked req)) → Settles provider s →
        ∀ xs v, Reaches (pollNext provider) s xs v → v.Proceeds) := by
  obtain rfl := new_eq_some hnew
  constructor
  · exact settles_of_proceeds ⟨nofun, nofun, nofun⟩ ⟨List.Pairwise.nil, fun _ => Or.inr nofun, nofun⟩
  · intro hinp hprovider hsettles xs v hrun
    refine proceeds_of_settles hprovider ⟨by simp, by simp, ?_, by simp, by simp⟩ hsettles hrun
    intro inp' hinp'
    obtain rfl := Option.some.inj hinp'
    exact hinp

end New

/-- Computes whether a pass makes progress -/
def checkProceeds (s : GapFill β) : Bool :=
  (match s.inpFiner with
    | some [] => !s.inpFinerFillsGap || decide (s.expFinerRange.beg < s.front ∧ s.front ≤ s.expFinerRange.fin)
    | _ => true) &&
  (match s.inpFiner, s.inpBuf with
    | none, some bins =>
        bins.all (fun bin => decide (bin.ts1 ≤ bin.ts2)) &&
          match gapIn s.range.nanoBeg s.front bins with
          | some range => (s.subRequest range).isSome && decide (range.beg < range.fin)
          | none => true
    | _, _ => true) &&
  match s.inpFiner, s.inpBuf, s.inp with
  | none, none, some [] =>
      match s.restRange with
      | some range => (s.subRequest range).isSome
      | none => true
  | _, _, _ => true

theorem proceeds_of_check {s : GapFill β} (h : s.checkProceeds = true) : s.Proceeds := by
  unfold checkProceeds at h
  rw [Bool.and_eq_true, Bool.and_eq_true] at h
  obtain ⟨⟨hfills, horder⟩, hrest⟩ := h
  constructor
  · intro hfiner hgap
    simp only [hfiner, hgap, Bool.not_true, Bool.false_or, decide_eq_true_eq] at hfills
    exact hfills
  · intro hfiner bins hbins
    simp only [hfiner, hbins, Bool.and_eq_true, List.all_eq_true, decide_eq_true_eq] at horder
    refine ⟨horder.1, fun range hrange => ?_⟩
    have hreq := horder.2
    simp only [hrange, Bool.and_eq_true, decide_eq_true_eq] at hreq
    exact ⟨Option.isSome_iff_ne_none.mp hreq.1, fun _ => hreq.2⟩
  · intro hfiner hbuf hinp range hrange
    simp only [hfiner, hbuf, hinp, hrange] at hrest
    exact Option.isSome_iff_ne_none.mp hrest

/-- The cache has the second of two bins, and the finer ones have the first one. -/
def secondCached : GapFill Unit where
  allowFromEvents := false
  range := ⟨10000000000, 1, 2⟩
  doTimeWeight := true
  binLenLayers := [1000]
  inp := some [.ready (sitemData [⟨20000000000, 30000000000, ()⟩])]

/-- A source of finer bins, which delivers the first bin when it is asked for the first time -/
def firstFiner : FinerProvider Unit := fun asked _ =>
  if asked = [] then [.pending, .ready (sitemData [⟨10000000000, 20000000000, ()⟩])] else []

/-- A stream of which the gap is filled settles. -/
theorem settles_iff_filled :
    new false ⟨10000000000, 1, 2⟩ true [1000] [.ready (sitemData [⟨20000000000, 30000000000, ()⟩])] =
        some secondCached ∧
      Settles firstFiner secondCached := by
  have hnew : new false ⟨10000000000, 1, 2⟩ true [1000] [.ready (sitemData [⟨20000000000, 30000000000, ()⟩])] =
    some secondCached := rfl
  have hcheck : checkRun (pollNext firstFiner) (fun _ v => v.checkProceeds) 10 [] secondCached = true := by decide
  refine ⟨hnew, (settles_iff firstFiner hnew).1 fun xs v hrun => ?_⟩
  exact proceeds_of_check (forall_reaches_of_checkRun 10 hcheck hrun)

/-- The cache has the second of two bins, and the first one is not to be had. -/
def secondOnly : GapFill Unit where
  allowFromEvents := true
  range := ⟨10000000000, 1, 2⟩
  doTimeWeight := true
  binLenLayers := []
  inp := some [.ready (sitemData [⟨20000000000, 30000000000, ()⟩])]

/-- The second bin is held back. -/
def secondHeld : GapFill Unit :=
  { secondOnly with inp := some [], inpBuf := some [⟨20000000000, 30000000000, ()⟩] }

/-- A gap at the begin of the range, for which there are no events, is asked for again behind the error. -/
theorem not_settles_secondOnly :
    new true ⟨10000000000, 1, 2⟩ true [] [.ready (sitemData [⟨20000000000, 30000000000, ()⟩])] = some secondOnly ∧
      ¬ Settles (fun _ _ => []) secondOnly := by
  refine ⟨rfl, fun hsettles => ?_⟩
  have hpolled : Reaches (pollNext fun _ _ => []) secondOnly [] secondHeld := .again .refl rfl
  have hasked := hpolled.item rfl
  have honce := hsettles.asks_once _ _ _ _ _ _ hasked rfl (.item .refl rfl) ⟨10000000000, 20000000000⟩
  exact honce List.mem_cons_self List.mem_cons_self

end GapFill
end Timebin
end Daqbuf
