import Daqbuf.Channelheap.Fetchmpx
import Daqbuf.Netpod.Types
/-!
# Creating a Channel

A channel is created on the server: the request is sent, the reply is waited for, and then the series of the channel is
looked up.  Each of these can take too long, and the reply can be one that the channel does not accept.

Main results:

- Theorem {lit}`Creating.pollNext_ne_again`: a poll leaves its loop.
- Theorem {lit}`Creating.refuses_pollNext_iff`: when a poll fails because of what the channel has received.
-/

namespace Daqbuf

namespace Netpod

/-- {lit}`ScalarType::from_ca_id` -/
def ScalarType.fromCaId (k : UInt16) : Option ScalarType :=
  if k = 0 then some .string
  else if k = 1 then some .i16
  else if k = 2 then some .f32
  else if k = 3 then some .enum
  else if k = 4 then some .i8
  else if k = 5 then some .i32
  else if k = 6 then some .f64
  else none

end Netpod

namespace Channelheap

open Poll
open Ca (CaMsgTy)
open Netpod (ScalarType Shape)

/-! ## The state -/

namespace Creating

/-- {lit}`Error` -/
inductive Error where
  | createMonitorUnexpectedMessage
  | recvChannelInfoResult
  | timeoutCreateChanSend
  | timeoutCreateChanRecv
  | timeoutSeriesIdRecv
  | logic
  | register
  deriving DecidableEq, Repr

/-- What the lookup of the series answers; it is dropped where nobody is there to answer. -/
inductive Lookup where
  | found (series : ℕ)
  | failed
  | dropped
  deriving DecidableEq, Repr

/-- {lit}`State`; with the lookup of the series is kept what it answers, once it does. -/
inductive State where
  | createChanSend (msgs : List CaMsgTy) (timer : Sleep)
  | createChanRecv (timer : Sleep)
  | seriesIdRecv (fut : Option Lookup) (sid : UInt32) (scalarType : ScalarType) (shape : Shape)
      (caDbrTy : UInt16) (timer : Sleep)
  | done
  deriving DecidableEq

end Creating

/-- {lit}`CreatingItem` -/
inductive CreatingItem where
  | caMsgOut (msg : CaMsgTy)
  | channelInfoQuery (backend channel : String) (scalarType : ScalarType) (shape : Shape)
  | done (sid : UInt32) (scalarType : ScalarType) (shape : Shape) (caDbrTy : UInt16) (series : ℕ)
  deriving DecidableEq

/-- {lit}`Creating` -/
structure Creating where
  cid : UInt32
  name : String
  backend : String
  state : Creating.State
  inpBuf : List CaMsgTy
  inpDone : Bool
  deriving DecidableEq

namespace Creating

/-- {lit}`Creating::new` -/
def new (cid : UInt32) (name backend : String) : Creating :=
  ⟨cid, name, backend, .createChanSend [.createChan cid name] (sleep (.millis 8000)), [], false⟩

/-- {lit}`poll_inp_push`; {lit}`none` where the message comes back. -/
def pollInpPush (m : CaMsgTy) (s : Creating) : Option Creating :=
  if s.inpBuf.length < 16 then some { s with inpBuf := s.inpBuf ++ [m] } else none

/-- {lit}`inp_done` -/
def endInp (s : Creating) : Creating := { s with inpDone := true }

/-- A message that comes while the reply is waited for.  After a refusal the state is what it was. -/
def handleReply (timer : Sleep) (m : CaMsgTy) (s : Creating) : Pass Creating (Except Error CreatingItem) :=
  match m with
  | .createChanRes dataType dataCount _ sid =>
    if 6 < dataType then .item (.error .createMonitorUnexpectedMessage) s
    else
      match ScalarType.fromCaId dataType, Shape.fromCaCount dataCount with
      | some scalarType, some shape =>
        .item (.ok (.channelInfoQuery s.backend s.name scalarType shape))
          { s with state := .seriesIdRecv none sid scalarType shape (dataType + 14) timer }
      | _, _ => .item (.error .createMonitorUnexpectedMessage) s
  | .accessRightsRes _ _ => .again s
  -- among them `CreateChanFail`, which should cause a new search of the channel
  | _ => .item (.error .createMonitorUnexpectedMessage) s

/-- One pass of the loop of {lit}`poll_next` -/
def pass (s : Creating) : Pass Creating (Except Error CreatingItem) :=
  match s.state with
  | .createChanSend msgs timer =>
    if timer.elapsed then .item (.error .timeoutCreateChanSend) { s with state := .done }
    else
      match msgs with
      | m :: rest => .item (.ok (.caMsgOut m)) { s with state := .createChanSend rest timer }
      | [] => .again { s with state := .createChanRecv timer }
  | .createChanRecv timer =>
    if timer.elapsed then .item (.error .timeoutCreateChanRecv) { s with state := .done }
    else
      match s.inpBuf with
      | m :: rest => handleReply timer m { s with inpBuf := rest }
      | [] => if s.inpDone then .again { s with state := .done } else .pending s
  | .seriesIdRecv fut sid scalarType shape caDbrTy timer =>
    if timer.elapsed then .item (.error .timeoutSeriesIdRecv) { s with state := .done }
    else
      match fut with
      | some (.found series) => .item (.ok (.done sid scalarType shape caDbrTy series)) { s with state := .done }
      | some .failed => .item (.error .register) { s with state := .done }
      | some .dropped => .item (.error .recvChannelInfoResult) { s with state := .done }
      | none => .pending s
  | .done => .item (.error .logic) s

/-- {lit}`poll_next`, which needs at most a pass for each message and three more. -/
def pollNext (s : Creating) : Pass Creating (Except Error CreatingItem) :=
  spin pass (s.inpBuf.length + 3) s

/-- The timer elapses. -/
def elapse (s : Creating) : Creating :=
  match s.state with
  | .createChanSend msgs timer => { s with state := .createChanSend msgs timer.elapse }
  | .createChanRecv timer => { s with state := .createChanRecv timer.elapse }
  | .seriesIdRecv fut sid scalarType shape caDbrTy timer =>
    { s with state := .seriesIdRecv fut sid scalarType shape caDbrTy timer.elapse }
  | .done => s

/-- The lookup of the series answers. -/
def lookup (answer : Lookup) (s : Creating) : Creating :=
  match s.state with
  | .seriesIdRecv _ sid scalarType shape caDbrTy timer =>
    { s with state := .seriesIdRecv (some answer) sid scalarType shape caDbrTy timer }
  | _ => s

/-! ## The loop ends -/

/-- How many passes a loop makes at most. -/
def rank (s : Creating) : ℕ :=
  match s.state with
  | .createChanSend _ _ => s.inpBuf.length + 2
  | .createChanRecv _ => s.inpBuf.length + 1
  | .seriesIdRecv _ _ _ _ _ _ | .done => 0

/-- Only a change of the access rights is passed over. -/
theorem handleReply_again {timer : Sleep} {m : CaMsgTy} {s t : Creating} (hreply : handleReply timer m s = .again t) :
    t = s := by
  unfold handleReply at hreply
  split at hreply
  · split at hreply
    · cases hreply
    · split at hreply <;> cases hreply
  · cases hreply
    rfl
  · cases hreply

/-- A pass that goes round again lowers the rank. -/
theorem rank_pass {s t : Creating} (hpass : s.pass = .again t) : t.rank < s.rank := by
  unfold pass at hpass
  cases hstate : s.state with
  | createChanSend msgs timer =>
      simp only [hstate] at hpass
      split at hpass
      · cases hpass
      · split at hpass
        · cases hpass
        · cases hpass
          simp [rank, hstate]
  | createChanRecv timer =>
      simp only [hstate] at hpass
      split at hpass
      · cases hpass
      · split at hpass
        · rename_i m rest hbuf
          have ht := handleReply_again hpass
          simp [ht, rank, hstate, hbuf]
        · split at hpass
          · cases hpass
            simp [rank, hstate]
          · cases hpass
  | seriesIdRecv fut sid scalarType shape caDbrTy timer =>
      simp only [hstate] at hpass
      split at hpass
      · cases hpass
      · split at hpass <;> cases hpass
  | done => simp [hstate] at hpass

/-- A poll leaves its loop. -/
theorem pollNext_ne_again (s t : Creating) : s.pollNext ≠ .again t := by
  apply spin_ne_again (fun _ _ => rank_pass)
  unfold rank
  split <;> omega

/-- A poll does not panic. -/
theorem leaves_pollNext (s : Creating) : s.pollNext.Leaves fun _ => True := by
  refine leaves_spin (fun t _ => ?_) _ trivial
  unfold pass handleReply
  (repeat' split) <;> trivial

/-! ## What is refused -/

/-- The errors that come from what the channel has received. -/
def Error.ofInput : Error → Bool
  | .createMonitorUnexpectedMessage | .logic => true
  | _ => false

/-- The poll fails because of what the channel has received. -/
def Refuses : Pass Creating (Except Error CreatingItem) → Prop
  | .item (.error e) _ => e.ofInput = true
  | _ => False

/-- The first message that is not about access rights accepts the request, with a type and a number of elements that
the channel supports.  If there is no such message, the input goes on. -/
def AcceptsReply (inpDone : Bool) : List CaMsgTy → Prop
  | [] => inpDone = false
  | .accessRightsRes _ _ :: rest => AcceptsReply inpDone rest
  | .createChanRes dataType dataCount _ _ :: _ => dataType ≤ 6 ∧ (Shape.fromCaCount dataCount).isSome
  | _ :: _ => False

/-- While the reply is waited for, and in time, it is acceptable. -/
def Accepts (s : Creating) : Prop :=
  match s.state with
  | .createChanSend [] timer | .createChanRecv timer =>
    timer.elapsed = false → AcceptsReply s.inpDone s.inpBuf
  | .createChanSend (_ :: _) _ | .seriesIdRecv _ _ _ _ _ _ => True
  | .done => False

/-- The types up to 6 are known. -/
theorem isSome_fromCaId_iff {k : UInt16} : (ScalarType.fromCaId k).isSome ↔ k ≤ 6 := by
  constructor
  · intro h
    unfold ScalarType.fromCaId at h
    split at h
    all_goals first | (subst k; decide) | skip
    (repeat' split at h)
    all_goals first | (subst k; decide) | cases h
  · intro h
    have hlt : k.toNat < 7 := Nat.lt_succ_of_le (UInt16.le_iff_toNat_le.mp h)
    have hk : k = UInt16.ofNat k.toNat := (UInt16.ofNat_toNat).symm
    generalize k.toNat = n at hlt hk
    subst hk
    interval_cases n <;> rfl

/-- A reply that accepts the request is refused exactly if its type or its number of elements is not supported. -/
theorem refuses_createChanRes_iff {timer : Sleep} {dataType : UInt16} {dataCount cid sid : UInt32} {s : Creating} :
    Refuses (handleReply timer (.createChanRes dataType dataCount cid sid) s) ↔
      ¬(dataType ≤ 6 ∧ (Shape.fromCaCount dataCount).isSome) := by
  unfold handleReply
  by_cases htype : dataType ≤ 6
  · have hsome := isSome_fromCaId_iff.mpr htype
    obtain ⟨scalarType, hscalar⟩ := Option.isSome_iff_exists.mp hsome
    have hnot : ¬6 < dataType := UInt16.not_lt.mpr htype
    cases hshape : Shape.fromCaCount dataCount with
    | none => simp [hnot, hscalar, hshape, htype, Refuses, Error.ofInput]
    | some shape => simp [hnot, hscalar, hshape, htype, Refuses]
  · have hlt : 6 < dataType := UInt16.not_le.mp htype
    simp [hlt, htype, Refuses, Error.ofInput]

/-- A poll at the end refuses. -/
theorem refuses_spin_done {n : ℕ} {s : Creating} (hstate : s.state = .done) (hn : 0 < n) :
    Refuses (spin pass n s) := by
  obtain ⟨n, rfl⟩ := Nat.exists_eq_add_one_of_ne_zero hn.ne'
  have hpass : s.pass = .item (.error .logic) s := by simp only [pass, hstate]
  rw [spin_succ, hpass]
  rfl

/-- While the reply is waited for, the messages decide. -/
theorem refuses_spin_iff {timer : Sleep} (htime : timer.elapsed = false) {n : ℕ} {s : Creating}
    (hstate : s.state = .createChanRecv timer) (hn : s.inpBuf.length + 2 ≤ n) :
    Refuses (spin pass n s) ↔ ¬AcceptsReply s.inpDone s.inpBuf := by
  induction hbuf : s.inpBuf generalizing n s with
  | nil =>
      obtain ⟨n, rfl⟩ := Nat.exists_eq_add_one_of_ne_zero (show n ≠ 0 by omega)
      have hpos : 0 < n := by omega
      have hpass : s.pass = if s.inpDone then .again { s with state := .done } else .pending s := by
        simp [pass, hstate, htime, hbuf]
      rw [spin_succ, hpass, AcceptsReply]
      cases hdone : s.inpDone with
      | false => simp [Refuses]
      | true => simpa [hdone] using refuses_spin_done (s := { s with state := .done }) rfl hpos
  | cons m rest ih =>
      obtain ⟨n, rfl⟩ := Nat.exists_eq_add_one_of_ne_zero (show n ≠ 0 by omega)
      rw [hbuf, List.length_cons] at hn
      have hpass : s.pass = handleReply timer m { s with inpBuf := rest } := by simp [pass, hstate, htime, hbuf]
      cases m with
      | accessRightsRes cid rights =>
          rw [spin_succ, hpass]
          exact ih (s := { s with inpBuf := rest }) hstate (by dsimp only; omega) rfl
      | createChanRes dataType dataCount cid sid =>
          have hne : ∀ t, s.pass ≠ .again t := by
            intro t ht
            rw [hpass, handleReply] at ht
            split at ht
            · cases ht
            · split at ht <;> cases ht
          rw [spin_succ_of_ne_again hne, hpass]
          exact refuses_createChanRes_iff
      | _ =>
          rw [spin_succ, hpass]
          exact iff_of_true rfl id

/-- A poll fails because of what the channel has received exactly if it finds no acceptable reply where it looks for
one. -/
theorem refuses_pollNext_iff (s : Creating) : Refuses s.pollNext ↔ ¬s.Accepts := by
  unfold pollNext Accepts
  cases hstate : s.state with
  | createChanSend msgs timer =>
      cases htime : timer.elapsed with
      | true =>
          have hpass : s.pass = .item (.error .timeoutCreateChanSend) { s with state := .done } := by
            simp [pass, hstate, htime]
          rw [spin_succ, hpass]
          cases msgs <;> simp [Refuses, Error.ofInput, htime]
      | false =>
          cases msgs with
          | nil =>
              have hpass : s.pass = .again { s with state := .createChanRecv timer } := by
                simp [pass, hstate, htime]
              rw [spin_succ, hpass]
              simpa [htime] using refuses_spin_iff htime (s := { s with state := .createChanRecv timer }) rfl le_rfl
          | cons m rest =>
              have hpass : s.pass = .item (.ok (.caMsgOut m)) { s with state := .createChanSend rest timer } := by
                simp [pass, hstate, htime]
              rw [spin_succ, hpass]
              simp [Refuses]
  | createChanRecv timer =>
      cases htime : timer.elapsed with
      | true =>
          have hpass : s.pass = .item (.error .timeoutCreateChanRecv) { s with state := .done } := by
            simp [pass, hstate, htime]
          rw [spin_succ, hpass]
          simp [Refuses, Error.ofInput, htime]
      | false => simpa [htime] using refuses_spin_iff htime hstate (Nat.le_succ _)
  | seriesIdRecv fut sid scalarType shape caDbrTy timer =>
      have hne : ∀ t, s.pass ≠ .again t := by
        intro t ht
        have hrank := rank_pass ht
        simp [rank, hstate] at hrank
      rw [spin_succ_of_ne_again hne]
      cases htime : timer.elapsed with
      | true => simp [pass, hstate, htime, Refuses, Error.ofInput]
      | false =>
          cases fut with
          | none => simp [pass, hstate, htime, Refuses]
          | some answer => cases answer <;> simp [pass, hstate, htime, Refuses, Error.ofInput]
  | done => simpa using refuses_spin_done hstate (Nat.succ_pos _)

end Creating

end Channelheap
end Daqbuf
