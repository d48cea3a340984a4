import Daqbuf.Scylla.LspFwdMspMulti
/-!
# What Comes of Reading Partitions Forwards

One call of {lit}`LspFwdMspMulti` reads ahead until there is nothing left to be read, and then returns an item.  If the
options leave the loop of a call enough rounds for this, no call gives up, and what comes out is the merge of the
partitions.

Main results:

- Theorem {lit}`Merging.pollState_none`: one call.
- Theorem {lit}`drains_merge`: a whole read.
-/

namespace Daqbuf
namespace Scylla
namespace LspFwdMspMulti

open Items Poll

variable {V : Type}

/-! ## One call -/

/-- The loop of {lit}`poll_state` has enough rounds to read ahead, and it reads ahead at all. -/
structure Opts.ReadsAhead (o : Opts) : Prop where
  reserve : 0 < o.mspReserveMin
  preopen : 0 < o.mspPreopenMin
  buf : 0 < o.lspSingleBufMax
  rounds : o.mspReserveMin + (o.lspSingleBufMax + 1) / 2 + 3 < 2000

namespace Single

variable {o : Opts} {k : ℕ}

theorem room_le (s : Single V) : s.room o ≤ (o.lspSingleBufMax + 1) / 2 := by
  unfold room
  split_ifs <;> omega

/-- A stream after it has read a page, if it had room for one -/
theorem getD_pollToBuffer {s : Single V} (hpaged : Paged o.lspLimit s.rest s.outbuf) :
    ((s.pollToBuffer o).getD s).events = s.events ∧
      Paged o.lspLimit ((s.pollToBuffer o).getD s).rest ((s.pollToBuffer o).getD s).outbuf ∧
      ((s.pollToBuffer o).getD s).weight ≤ s.weight ∧ ((s.pollToBuffer o).getD s).room o ≤ s.room o - 1 := by
  cases hpoll : s.pollToBuffer o with
  | none => exact ⟨rfl, hpaged, le_rfl, (room_of_none hpoll).trans_le (Nat.zero_le _)⟩
  | some s' =>
      obtain ⟨hevents, hpaged', hweight, hroom⟩ := pollToBuffer_spec hpaged hpoll
      exact ⟨hevents, hpaged', hweight, Nat.le_sub_one_of_lt hroom⟩

end Single

namespace Merging

open PartMerge.Merging (merge)

variable {o : Opts} {limit k n : ℕ} {part : ℕ → List (EventSingle V)} {s s₀ s₁ s' : Merging V}

/-- A state that the merge of the partitions takes for the other one, and from which no more items come -/
structure Further (limit : ℕ) (part : ℕ → List (EventSingle V)) (s s' : Merging V) : Prop where
  merge : merge limit (s'.toMerge part) = merge limit (s.toMerge part)
  weight : s'.weight part ≤ s.weight part
  good : s'.Good limit

theorem Further.trans (h : Further limit part s s₁) (h' : Further limit part s₁ s') : Further limit part s s' :=
  ⟨h'.merge.trans h.merge, h'.weight.trans h.weight, h'.good⟩

/-- How often the stream for the times may still be polled -/
def ahead (o : Opts) (s : Merging V) : ℕ :=
  match s.msps with
  | none => 0
  | some none => 1
  | some (some _) => o.mspReserveMin - s.mspbufRe.length + 2

theorem ahead_le (s : Merging V) : s.ahead o ≤ o.mspReserveMin + 2 := by
  unfold ahead
  split <;> omega

theorem mspPageLen_pos (l : ℕ) : 0 < mspPageLen l := by
  unfold mspPageLen
  omega

/-- Filling the reserve only moves times of partitions.  If the reserve is empty then, there are no further ones. -/
structure Reserves (o : Opts) (s : Merging V) (read : Bool) (s' : Merging V) : Prop where
  unopened : s'.unopened = s.unopened
  po : s'.mspbufPo = s.mspbufPo
  inps : s'.inps = s.inps
  ahead : s'.ahead o ≤ s.ahead o - read.toNat
  pos : read = true → 0 < s.ahead o
  empty : s'.mspbufRe = [] → s'.unopened = [] ∧ (s'.msps.isSome = true → read = true)

theorem reserve_spec (hreserve : 0 < o.mspReserveMin) (s : Merging V) :
    Reserves o s (s.reserve o).1 (s.reserve o).2 := by
  obtain ⟨msps, re, po, inps⟩ := s
  unfold reserve
  simp only
  split_ifs with hlt
  · rcases msps with _ | _ | left
    · exact ⟨rfl, rfl, rfl, le_rfl, nofun, fun hre => ⟨by rw [unopened, hre]; rfl, nofun⟩⟩
    · exact ⟨rfl, rfl, rfl, le_rfl, fun _ => Nat.one_pos, fun hre => ⟨by rw [unopened, hre]; rfl, fun _ => rfl⟩⟩
    · -- A page that is not full is the last one.
      have hpos := mspPageLen_pos o.mspLimit
      simp only [pollMsps]
      split_ifs with hlast
      · have htake : left.take (mspPageLen o.mspLimit) = left := by
          rw [List.length_take] at hlast
          exact List.take_of_length_le (by omega)
        rw [htake]
        refine ⟨?_, rfl, rfl, ?_, fun _ => Nat.succ_pos _, fun hre => ⟨?_, fun _ => rfl⟩⟩
        · exact List.append_nil _
        · change 1 ≤ o.mspReserveMin - re.length + 2 - 1
          omega
        · exact (List.append_nil _).trans hre
      · rw [List.length_take] at hlast
        refine ⟨?_, rfl, rfl, ?_, fun _ => Nat.succ_pos _, fun hre => absurd hre ?_⟩
        · change (re ++ left.take (mspPageLen o.mspLimit)) ++ left.drop (mspPageLen o.mspLimit) = re ++ left
          rw [List.append_assoc, List.take_append_drop]
        · change o.mspReserveMin - (re ++ left.take (mspPageLen o.mspLimit)).length + 2 ≤
            o.mspReserveMin - re.length + 2 - 1
          rw [List.length_append, List.length_take]
          omega
        · change re ++ left.take (mspPageLen o.mspLimit) ≠ []
          rw [Ne, ← List.length_eq_zero_iff, List.length_append, List.length_take]
          omega
  · refine ⟨rfl, rfl, rfl, le_rfl, nofun, fun hre => absurd ?_ hlt⟩
    change re = [] at hre
    rw [hre]
    exact hreserve

theorem further_of_eq (hgood : s.Good limit) (hunopened : s'.unopened = s.unopened) (hpo : s'.mspbufPo = s.mspbufPo)
    (hinps : s'.inps = s.inps) : Further limit part s s' where
  merge := by rw [toMerge, toMerge, hunopened, hpo, hinps]
  weight := by rw [weight, weight, hunopened, hpo, hinps]
  good := ⟨hpo ▸ hgood.po, hinps ▸ hgood.inps⟩

/-- To open a stream moves the first of the times. -/
theorem preopen_eq_some (hgood : s.Good limit) (hopen : s.preopen o part = some s') :
    Further limit part s s' ∧ s'.weight part < s.weight part := by
  obtain ⟨msps, re, po, inps⟩ := s
  unfold preopen at hopen
  simp only at hopen
  split_ifs at hopen with hlt
  cases re with
  | nil => cases hopen
  | cons msp re =>
      obtain rfl := Option.some.inj hopen
      have hmerge : toMerge part ⟨msps, re, po ++ [(msp, ⟨[], part msp⟩)], inps⟩ =
          toMerge part ⟨msps, msp :: re, po, inps⟩ := by
        simp only [toMerge, unopened, List.map_append, List.map_cons, List.map_nil, List.append_assoc, List.cons_append,
          List.nil_append]
        rfl
      have hweight : weight part ⟨msps, re, po ++ [(msp, ⟨[], part msp⟩)], inps⟩ + 1 =
          weight part ⟨msps, msp :: re, po, inps⟩ := by
        simp only [weight, unopened, List.map_append, List.map_cons, List.map_nil, List.cons_append, List.sum_append,
          List.sum_cons, List.sum_nil, Single.weight, weightOf]
        omega
      refine ⟨⟨congrArg _ hmerge, by omega, ?_, hgood.inps⟩, by omega⟩
      intro m hm
      obtain hm | hm := List.mem_append.mp hm
      · exact hgood.po m hm
      · rw [List.mem_singleton.mp hm]
        trivial

/-- No stream is opened where enough are, or there is no time in reserve. -/
theorem preopen_eq_none : s.preopen o part = none ↔ o.mspPreopenMin ≤ s.mspbufPo.length ∨ s.mspbufRe = [] := by
  unfold preopen
  split_ifs with hlt
  · cases hre : s.mspbufRe with
    | nil => exact iff_of_true rfl (.inr rfl)
    | cons msp re =>
        refine iff_of_false nofun ?_
        rintro (hle | hnil)
        · omega
        · cases hnil
  · exact iff_of_true rfl (.inl (not_lt.mp hlt))

/-- Streams that read a page each -/
structure Fills (o : Opts) (s : Merging V) (filled : Bool) (s' : Merging V) : Prop where
  msps : s'.msps = s.msps
  re : s'.mspbufRe = s.mspbufRe
  length : s'.mspbufPo.length = s.mspbufPo.length
  room : ∀ k, (∀ m ∈ s.mspbufPo, m.2.room o ≤ k) → (∀ m ∈ s'.mspbufPo, m.2.room o ≤ k - 1) ∧ (filled = true → 0 < k)

theorem fill_spec (part : ℕ → List (EventSingle V)) (hgood : s.Good o.lspLimit) :
    Fills o s (s.fill o).1 (s.fill o).2 ∧ Further o.lspLimit part s (s.fill o).2 := by
  obtain ⟨msps, re, po, inps⟩ := s
  refine ⟨⟨rfl, rfl, List.length_map _, fun k hk => ⟨?_, ?_⟩⟩, ?_, ?_, ?_⟩
  · intro m hm
    obtain ⟨x, hx, rfl⟩ := List.mem_map.mp hm
    exact (Single.getD_pollToBuffer (hgood.po x hx)).2.2.2.trans (Nat.sub_le_sub_right (hk x hx) 1)
  · intro hfilled
    obtain ⟨x, hx, hsome⟩ := List.any_eq_true.mp hfilled
    obtain ⟨y, hy⟩ := Option.isSome_iff_exists.mp hsome
    have hlt := (Single.pollToBuffer_spec (hgood.po x hx) hy).2.2.2
    have hle := hk x hx
    omega
  · refine congrArg _ ?_
    unfold fill toMerge
    congr 1
    · congr 1
      rw [List.map_map]
      apply List.map_congr_left
      intro m hm
      change (m.1, _) = (m.1, _)
      rw [(Single.getD_pollToBuffer (hgood.po m hm)).1]
    · rw [List.map_map]
      apply List.map_congr_left
      rintro ⟨evs, buf⟩ hinp
      cases evs with
      | none => rfl
      | some x =>
          change (⟨_, _⟩ : PartMerge.Inp V) = ⟨_, _⟩
          congr 1
          exact (Single.getD_pollToBuffer (hgood.inps _ hinp x rfl)).1
  · unfold fill weight
    refine Nat.add_le_add (Nat.add_le_add le_rfl ?_) ?_
    · rw [List.map_map]
      apply List.sum_le_sum
      intro m hm
      exact Nat.add_le_add_left (Single.getD_pollToBuffer (hgood.po m hm)).2.2.1 1
    · rw [List.map_map]
      apply List.sum_le_sum
      rintro ⟨evs, buf⟩ hinp
      cases evs with
      | none => exact le_rfl
      | some x => exact Nat.add_le_add_left (Single.getD_pollToBuffer (hgood.inps _ hinp x rfl)).2.2.1 _
  · constructor
    · intro m hm
      obtain ⟨x, hx, rfl⟩ := List.mem_map.mp hm
      exact (Single.getD_pollToBuffer (hgood.po x hx)).2.1
    · intro inp hinp
      obtain ⟨⟨evs, buf⟩, hx, rfl⟩ := List.mem_map.mp hinp
      cases evs with
      | none => exact nofun
      | some x =>
          rintro _ ⟨⟩
          exact (Single.getD_pollToBuffer (hgood.inps _ hx x rfl)).2.1

/-- What an item and the state behind it come to: of the merge of the partitions no more is left than before, or it hands
out the events of the item, or it is done. -/
inductive Follows (limit : ℕ) (part : ℕ → List (EventSingle V)) (s : Merging V) :
    Option (Except Error (Item V)) × Merging V → Prop
  | log {s' : Merging V} (hfurther : Further limit part s s') (hweight : s'.weight part < s.weight part) :
      Follows limit part s (some (.ok .log), s')
  | data {s' : Merging V} {evs : List (EventSingle V)} (hmerge : merge limit (s.toMerge part) =
        (evs ++ (merge limit (s'.toMerge part)).1, (merge limit (s'.toMerge part)).2))
      (hweight : s'.weight part < s.weight part) (hgood : s'.Good limit) :
      Follows limit part s (some (.ok (.data evs)), s')
  | ended {s' : Merging V} (hmerge : merge limit (s.toMerge part) = ([], none)) : Follows limit part s (none, s')

theorem Follows.of_further {x : Option (Except Error (Item V)) × Merging V} (hfurther : Further limit part s s₁)
    (h : Follows limit part s₁ x) : Follows limit part s x := by
  cases h with
  | log hfurther' hweight => exact .log (hfurther.trans hfurther') (hweight.trans_le hfurther.weight)
  | data hmerge hweight hgood => exact .data (hfurther.merge ▸ hmerge) (hweight.trans_le hfurther.weight) hgood
  | ended hmerge => exact .ended (hfurther.merge ▸ hmerge)

theorem Follows.further {x : Item V} (h : Follows limit part s (some (.ok x), s₁)) (hfurther : Further limit part s₁ s') :
    Follows limit part s (some (.ok x), s') := by
  cases h with
  | log hfurther' hweight => exact .log (hfurther'.trans hfurther) (hfurther.weight.trans_lt hweight)
  | data hmerge hweight hgood =>
      refine .data ?_ (hfurther.weight.trans_lt hweight) hfurther.good
      rw [hfurther.merge]
      exact hmerge

/-- The streams that are read ahead, but for the first ones of those that are opened -/
structure Keeps (s s' : Merging V) : Prop where
  msps : s'.msps = s.msps
  re : s'.mspbufRe = s.mspbufRe
  po : s'.mspbufPo.Sublist s.mspbufPo

/-- What comes of {lit}`poll_state_2`: further streams are waited for, or the merge of the partitions is done, or an item
follows. -/
inductive Polls2 (o : Opts) (part : ℕ → List (EventSingle V)) (s : Merging V) :
    Option (Except Error (Item V)) × Merging V → Prop
  | waits (hpo : s.mspbufPo = []) (hmore : s.msps.isSome = true ∨ s.mspbufRe ≠ []) : Polls2 o part s (none, s)
  | ended {s' : Merging V} (hmerge : merge o.lspLimit (s.toMerge part) = ([], none)) (hkeeps : Keeps s s')
      (hfurther : Further o.lspLimit part s s') : Polls2 o part s (none, s')
  | item {s' : Merging V} {x : Item V} (hfollows : Follows o.lspLimit part s (some (.ok x), s')) (hkeeps : Keeps s s')
      (hpo : x ≠ .log → s'.mspbufPo = s.mspbufPo) : Polls2 o part s (some (.ok x), s')

theorem mspNext_eq_none (hnext : s.mspNext = none) : s.mspbufPo = [] ∧ (s.msps.isSome = true ∨ s.mspbufRe ≠ []) := by
  unfold mspNext at hnext
  cases hpo : s.mspbufPo with
  | cons m po =>
      rw [hpo] at hnext
      cases hnext
  | nil =>
      simp only [hpo] at hnext
      split_ifs at hnext with hmsps hre
      · exact ⟨rfl, .inl hmsps⟩
      · exact ⟨rfl, .inr (List.length_eq_zero_iff.not.mp hre)⟩

/-- The next partition is the one that the merge of the partitions has. -/
theorem mspNext_eq_some {mspNext : Option ℕ} (hnext : s.mspNext = some mspNext) :
    (∃ m po, s.mspbufPo = m :: po ∧ mspNext = some m.1) ∨
      (s.mspbufPo = [] ∧ s.unopened = [] ∧ mspNext = none) := by
  unfold Merging.mspNext at hnext
  cases hpo : s.mspbufPo with
  | cons m po =>
      rw [hpo] at hnext
      exact .inl ⟨m, po, rfl, (Option.some.inj hnext).symm⟩
  | nil =>
      simp only [hpo] at hnext
      split_ifs at hnext with hmsps hre
      obtain rfl := Option.some.inj hnext
      refine .inr ⟨rfl, ?_, rfl⟩
      rw [unopened, List.length_eq_zero_iff.mp (not_not.mp hre), Option.not_isSome_iff_eq_none.mp hmsps]
      rfl

theorem opens_iff {mspNext : Option ℕ} (hnext : s.mspNext = some mspNext) (ts : ℕ) :
    PartMerge.Opens (s.toMerge part).msps ts ↔ opensNext mspNext ts = true := by
  unfold toMerge
  obtain ⟨m, po, hpo, rfl⟩ | ⟨hpo, hunopened, rfl⟩ := mspNext_eq_some hnext
  · rw [hpo, List.map_cons, List.cons_append, PartMerge.opens_cons, opensNext_some]
  · rw [hpo, hunopened, List.map_nil, List.map_nil, opensNext_none]
    exact iff_of_false (PartMerge.opens_nil ts) Bool.false_ne_true

theorem pollState2_spec (hmax : 0 < o.lspSingleBufMax) (hgood : s.Good o.lspLimit) :
    Polls2 o part s (s.pollState2 o) := by
  unfold pollState2
  cases hnext : s.mspNext with
  | none => exact .waits (mspNext_eq_none hnext).1 (mspNext_eq_none hnext).2
  | some mspNext =>
      have hchecks : Checks o mspNext s.inps (checkInputs o mspNext (199 + 1) s.inps) :=
        checkInputs_spec hmax 199 hgood.inps
      simp only
      generalize checkInputs o mspNext (199 + 1) s.inps = x at hchecks ⊢
      cases hchecks with
      | log hsame hweight =>
          rename_i inps'
          refine .item (.log ⟨?_, Nat.add_le_add_left hsame.weight _, hgood.po, hsame.good⟩
            (Nat.add_lt_add_left hweight _)) ⟨rfl, rfl, .refl _⟩ fun h => absurd rfl h
          exact PartMerge.Merging.merge_congr (PartMerge.Merging.round_congr hsame.taken)
      | item hgood' hchoose hopens hne hweight =>
          rename_i inps' ts evs
          have hnext' : ¬ PartMerge.Opens (s.toMerge part).msps _ :=
            (opens_iff hnext _).not.mpr (Bool.eq_false_iff.mp hopens)
          have hround := PartMerge.Merging.round_eq_next hchoose hnext' hne
          have hpos := List.length_pos_iff.mpr hne
          refine .item (.data (PartMerge.Merging.merge_next hround) ?_ ⟨hgood.po, hgood'⟩) ⟨rfl, rfl, .refl _⟩ fun _ => rfl
          exact Nat.add_lt_add_left (show (inps'.map Inp.weight).sum < (s.inps.map Inp.weight).sum by omega) _
      | opens hsame htaken hchoose =>
          rename_i inps'
          -- The next round of the merge opens a partition too, if there is one.
          have hround : PartMerge.Merging.round o.lspLimit (s.toMerge part) =
              PartMerge.Merging.openNext ⟨(s.toMerge part).msps, taken o.lspLimit s.inps⟩ := by
            apply PartMerge.Merging.round_eq_openNext
            obtain ⟨-, hnone⟩ | ⟨ts, evs, m, hsome, hopens⟩ := hchoose
            · exact .inl hnone
            · exact .inr ⟨ts, evs, m, hsome, (opens_iff hnext ts).mpr hopens⟩
          obtain ⟨m, po, hpo, -⟩ | ⟨hpo, hunopened, rfl⟩ := mspNext_eq_some hnext
          · have hmerge : s.toMerge part =
                ⟨(m.1, m.2.events) :: (po.map (fun m => (m.1, m.2.events)) ++ s.unopened.map fun msp => (msp, part msp)),
                  s.inps.map Inp.toMerge⟩ := by
              rw [toMerge, hpo]
              rfl
            obtain ⟨hgoodm, hgoodpo⟩ := List.forall_mem_cons.mp (hpo ▸ hgood.po)
            have hweight : weight part { s with mspbufPo := po, inps := inps' ++ [⟨some m.2, none⟩] } < s.weight part := by
              have hle := hsame.weight
              simp only [weight, hpo, List.map_append, List.map_cons, List.map_nil, List.sum_append, List.sum_cons,
                List.sum_nil, Inp.weight, Option.getD_none, List.length_nil, Option.map_some, Option.getD_some]
              change _ + _ + _ < (s.unopened.map fun msp => 2 + 2 * (part msp).length).sum + _ + _
              change (s.unopened.map fun msp => 2 + 2 * (part msp).length).sum + _ + _ < _
              omega
            simp only [hpo]
            refine .item (.log ⟨?_, hweight.le, hgoodpo, ?_⟩ hweight) ⟨rfl, rfl, ?_⟩ fun h => absurd rfl h
            · rw [hmerge] at hround
              have hopen := PartMerge.Merging.merge_open hround
              rw [← hmerge, show PartMerge.pollAllInp o.lspLimit (s.inps.map Inp.toMerge) = _ from htaken] at hopen
              rw [hopen, toMerge, List.map_append]
              rfl
            · intro inp hinp
              obtain hinp | hinp := List.mem_append.mp hinp
              · exact hsame.good inp hinp
              · rw [List.mem_singleton.mp hinp]
                rintro _ ⟨⟩
                exact hgoodm
            · rw [hpo]
              exact List.sublist_cons_self _ _
          · obtain ⟨rfl, -⟩ | ⟨ts, evs, m, -, hopens⟩ := hchoose
            · have hmsps : (s.toMerge part).msps = [] := by
                rw [toMerge, hpo, hunopened]
                rfl
              have hmerge : merge o.lspLimit (s.toMerge part) = ([], none) := by
                apply PartMerge.Merging.merge_done
                rw [hround, hmsps]
                rfl
              have hdone : merge o.lspLimit (toMerge part { s with inps := [] }) = ([], none) := by
                apply PartMerge.Merging.merge_done
                change PartMerge.Merging.round o.lspLimit ⟨(s.toMerge part).msps, []⟩ = .done
                rw [hmsps]
                rfl
              have hended : Polls2 o part s (none, { s with inps := [] }) :=
                .ended hmerge ⟨rfl, rfl, .refl _⟩
                  ⟨hdone.trans hmerge.symm, Nat.add_le_add_left hsame.weight _, hgood.po,
                    fun _ hinp => absurd hinp List.not_mem_nil⟩
              simpa only [hpo] using hended
            · cases hopens

theorem ahead_congr (hmsps : s'.msps = s.msps) (hre : s'.mspbufRe = s.mspbufRe) : s'.ahead o = s.ahead o := by
  unfold ahead
  rw [hmsps, hre]

theorem unopened_congr (hmsps : s'.msps = s.msps) (hre : s'.mspbufRe = s.mspbufRe) : s'.unopened = s.unopened := by
  unfold unopened
  rw [hmsps, hre]

/-- A round of the loop of {lit}`poll_state` that opens a stream, and in which what was to be returned is lost -/
structure Opens (o : Opts) (part : ℕ → List (EventSingle V)) (s s' : Merging V) : Prop where
  further : Further o.lspLimit part s s'
  weight : s'.weight part < s.weight part
  few : s.mspbufPo.length < o.mspPreopenMin ∧ s.unopened ≠ []
  pollState : ∀ n x, s.pollState o part (n + 1) x = (some (.ok .log), s')

/-- A round that reads ahead, with room for so many pages in each stream -/
structure Advances (o : Opts) (part : ℕ → List (EventSingle V)) (k : ℕ) (s : Merging V) (progress : Bool)
    (s' : Merging V) : Prop where
  further : Further o.lspLimit part s s'
  room : ∀ m ∈ s'.mspbufPo, m.2.room o ≤ k - 1
  ahead : s'.ahead o ≤ s.ahead o
  lower : progress = true → s'.ahead o + (k - 1) < s.ahead o + k
  length : s'.mspbufPo.length = s.mspbufPo.length
  unopened : s'.unopened = s.unopened
  few : o.mspPreopenMin ≤ s'.mspbufPo.length ∨ s'.mspbufRe = []
  empty : s'.mspbufRe = [] → s'.unopened = [] ∧ (s'.msps.isSome = true → progress = true)
  pollSome : ∀ n x, s.pollState o part (n + 1) (some x) =
    if progress then s'.pollState o part n (some x) else (some (.ok x), s')
  pollItem : ∀ n x t, s'.pollState2 o = (some (.ok x), t) →
    s.pollState o part (n + 1) none = t.pollState o part n (some x)
  pollNone : ∀ n t, s'.pollState2 o = (none, t) →
    s.pollState o part (n + 1) none = if progress then t.pollState o part n none else (none, t)

theorem pollState_cases (part : ℕ → List (EventSingle V)) (hreserve : 0 < o.mspReserveMin) (hgood : s.Good o.lspLimit)
    (hroom : ∀ m ∈ s.mspbufPo, m.2.room o ≤ k) :
    (∃ s', Opens o part s s') ∨ ∃ progress s', Advances o part k s progress s' := by
  have hres := reserve_spec hreserve s
  rcases hr : s.reserve o with ⟨read, s₁⟩
  rw [hr] at hres
  obtain ⟨hunopened, hpo, hinps, hahead, hpos, hempty⟩ := hres
  simp only at hunopened hpo hinps hahead hpos hempty
  have hfurther : Further o.lspLimit part s s₁ := further_of_eq hgood hunopened hpo hinps
  cases hopen : s₁.preopen o part with
  | some s₂ =>
      left
      obtain ⟨hopened, hweight⟩ := preopen_eq_some hfurther.good hopen
      refine ⟨s₂, hfurther.trans hopened, hweight.trans_le hfurther.weight, ?_, fun n x => ?_⟩
      · rw [← hpo, ← hunopened]
        constructor
        · by_contra hle
          rw [preopen_eq_none.mpr (.inl (not_lt.mp hle))] at hopen
          cases hopen
        · intro hnil
          rw [preopen_eq_none.mpr (.inr (List.append_eq_nil_iff.mp hnil).1)] at hopen
          cases hopen
      · rw [pollState, hr]
        simp only [hopen]
  | none =>
      right
      obtain ⟨hfills, hfilled⟩ := fill_spec part hfurther.good
      rcases hf : s₁.fill o with ⟨filled, s₃⟩
      rw [hf] at hfills hfilled
      obtain ⟨hmsps, hre, hlength, hrooms⟩ := hfills
      simp only at hmsps hre hlength hrooms hfilled
      obtain ⟨hroom₃, hposk⟩ := hrooms k (hpo ▸ hroom)
      have hahead₃ : s₃.ahead o = s₁.ahead o := ahead_congr hmsps hre
      have hunopened₃ : s₃.unopened = s₁.unopened := unopened_congr hmsps hre
      refine ⟨read || filled, s₃, hfurther.trans hfilled, hroom₃, ?_, fun hprogress => ?_, ?_, ?_, ?_, fun hnil => ?_,
        fun n x => ?_, fun n x t hpoll => ?_, fun n t hpoll => ?_⟩
      · rw [hahead₃]
        exact hahead.trans (Nat.sub_le _ _)
      · rw [hahead₃]
        rw [Bool.or_eq_true] at hprogress
        obtain rfl | hfill := hprogress
        · have hposa := hpos rfl
          rw [Bool.toNat_true] at hahead
          omega
        · have hposk := hposk hfill
          omega
      · rw [hlength, hpo]
      · rw [hunopened₃, hunopened]
      · rw [hlength, hre]
        exact preopen_eq_none.mp hopen
      · obtain ⟨hnone, hread⟩ := hempty (hre ▸ hnil)
        refine ⟨hunopened₃.trans hnone, fun hsome => ?_⟩
        rw [hread (hmsps ▸ hsome), Bool.true_or]
      · rw [pollState, hr]
        simp only [hopen, hf]
      · rw [pollState, hr]
        simp only [hopen, hf, hpoll]
      · rw [pollState, hr]
        simp only [hopen, hf, hpoll]

/-- The loop of {lit}`poll_state` when there is an item to be returned; one with events is not lost. -/
theorem pollState_some {x : Item V} (hreserve : 0 < o.mspReserveMin)
    (hfollows : Follows o.lspLimit part s₀ (some (.ok x), s)) (hgood : s.Good o.lspLimit)
    (hkept : x ≠ .log → o.mspPreopenMin ≤ s.mspbufPo.length ∨ s.unopened = [])
    (hroom : ∀ m ∈ s.mspbufPo, m.2.room o ≤ k) (hn : s.ahead o + k < n) :
    Follows o.lspLimit part s₀ (s.pollState o part n (some x)) := by
  induction n generalizing s k with
  | zero => exact absurd hn (Nat.not_lt_zero _)
  | succ n ih =>
      obtain ⟨s', hopens⟩ | ⟨progress, s', hadvances⟩ := pollState_cases part hreserve hgood hroom
      · rw [hopens.pollState]
        cases hfollows with
        | log hfurther hweight =>
            exact .log (hfurther.trans hopens.further) (hopens.further.weight.trans_lt hweight)
        | data =>
            obtain hle | hnil := hkept nofun
            · exact absurd hopens.few.1 (not_lt.mpr hle)
            · exact absurd hnil hopens.few.2
      · rw [hadvances.pollSome]
        split_ifs with hprogress
        · have hlower := hadvances.lower hprogress
          apply ih (hfollows.further hadvances.further) hadvances.further.good _ hadvances.room (by omega)
          rw [hadvances.length, hadvances.unopened]
          exact hkept
        · exact hfollows.further hadvances.further

/-- The loop of {lit}`poll_state`, if it has enough rounds to read ahead -/
theorem pollState_none (hread : o.ReadsAhead) (hgood : s.Good o.lspLimit) (hroom : ∀ m ∈ s.mspbufPo, m.2.room o ≤ k)
    (hn : s.ahead o + k + 1 < n) : Follows o.lspLimit part s (s.pollState o part n none) := by
  induction n generalizing s k with
  | zero => exact absurd hn (Nat.not_lt_zero _)
  | succ n ih =>
      obtain ⟨s', hopens⟩ | ⟨progress, s', hadvances⟩ := pollState_cases part hread.reserve hgood hroom
      · rw [hopens.pollState]
        exact .log hopens.further hopens.weight
      · have hpolls : Polls2 o part s' (s'.pollState2 o) := pollState2_spec hread.buf hadvances.further.good
        have hahead := hadvances.ahead
        apply Follows.of_further hadvances.further
        rcases hx : s'.pollState2 o with ⟨x, t⟩
        rw [hx] at hpolls
        cases hpolls with
        | waits hpo hmore =>
            -- More is read only where there is no time in reserve.
            have hpreopen := hread.preopen
            have hre : s'.mspbufRe = [] := by
              apply hadvances.few.resolve_left
              rw [hpo, List.length_nil]
              omega
            obtain rfl := (hadvances.empty hre).2 (hmore.resolve_right fun hne => hne hre)
            have hlower := hadvances.lower rfl
            rw [hadvances.pollNone _ _ hx]
            exact ih hadvances.further.good hadvances.room (by omega)
        | ended hmerge hkeeps hfurther =>
            have hroom' := fun m hm => hadvances.room m (hkeeps.po.subset hm)
            have hahead' := ahead_congr hkeeps.msps hkeeps.re (o := o)
            rw [hadvances.pollNone _ _ hx]
            split_ifs with hprogress
            · have hlower := hadvances.lower hprogress
              exact (ih hfurther.good hroom' (by omega)).of_further hfurther
            · exact .ended hmerge
        | item hfollows hkeeps hpo =>
            have hroom' := fun m hm => hadvances.room m (hkeeps.po.subset hm)
            have hahead' := ahead_congr hkeeps.msps hkeeps.re (o := o)
            rw [hadvances.pollItem _ _ _ hx]
            apply pollState_some hread.reserve hfollows _ _ hroom' (by omega)
            · cases hfollows with
              | log hfurther => exact hfurther.good
              | data _ _ hgood => exact hgood
            · intro hx
              rw [hpo hx, unopened_congr hkeeps.msps hkeeps.re]
              exact hadvances.few.imp_right fun hre => (hadvances.empty hre).1

end Merging

/-! ## A whole read -/

section Read

open PartMerge.Merging (merge)

variable {o : Opts} {part : ℕ → List (EventSingle V)} {s : Merging V}

/-- One call: an item follows, or the merge of the partitions is done. -/
theorem pollNext_spec (part : ℕ → List (EventSingle V)) (hread : o.ReadsAhead) (hgood : s.Good o.lspLimit) :
    ∃ x, s.Follows o.lspLimit part x ∧ pollNext o part (.merging s) =
      match x with
      | (some (.ok x), s') => .item (.ok x) (.merging s')
      | (some (.error e), _) => .item (.error e) .done
      | (none, _) => .done .done := by
  refine ⟨s.pollState o part 2000 none, ?_, rfl⟩
  have hahead := s.ahead_le (o := o)
  have hrounds := hread.rounds
  exact s.pollState_none hread hgood (fun m _ => m.2.room_le) (by omega)

/-- From any state the stream ends, and the merge of the partitions comes out. -/
theorem drains_merging (hread : o.ReadsAhead) (hgood : s.Good o.lspLimit) :
    ∃ items, Drains (pollNext o part) (.merging s) (items.map .ok) ∧
      merge o.lspLimit (s.toMerge part) = (pages items, none) := by
  induction hn : s.weight part using Nat.strong_induction_on generalizing s with
  | _ n ih =>
      obtain ⟨x, hfollows, hpoll⟩ := pollNext_spec part hread hgood
      cases hfollows with
      | log hfurther hweight =>
          obtain ⟨items, hdrains, hmerge⟩ := ih _ (hn ▸ hweight) hfurther.good rfl
          refine ⟨.log :: items, .of_item hpoll hdrains, ?_⟩
          rw [← hfurther.merge]
          exact hmerge
      | data hmerge hweight hgood =>
          rename_i evs
          obtain ⟨items, hdrains, hrest⟩ := ih _ (hn ▸ hweight) hgood rfl
          refine ⟨.data evs :: items, .of_item hpoll hdrains, ?_⟩
          rw [hmerge, hrest]
          rfl
      | ended hmerge => exact ⟨[], .of_done hpoll, hmerge⟩

/-- The stream ends, without an error, and the merge of the partitions comes out. -/
theorem drains_merge (hread : o.ReadsAhead) (inp : MspStream) (msps : List ℕ) :
    ∃ items, Drains (pollNext o part) (new inp msps) (items.map .ok) ∧
      merge o.lspLimit ⟨(msps ++ inp.getD []).map fun msp => (msp, part msp), []⟩ = (pages items, none) :=
  drains_merging hread ⟨nofun, nofun⟩

end Read

end LspFwdMspMulti
end Scylla
end Daqbuf
