import Daqbuf.Bytes.Endian
import Daqbuf.Ca.Msg
import Daqbuf.Connset.Channel
import Daqbuf.Slots.Pool
/-!
# Searches for Addresses

{lit}`FindIocStream` takes search requests in batches, sends each batch to its targets, and hands out a result for a
request when a response comes or the request times out.  A request keeps its place in the table for good, only its
sender is taken.  After the input is closed there is one more tick of the timer.

Main results:

- Theorem {lit}`consistent_step`: what each pass preserves, whatever comes.
- Theorem {lit}`answersEach_iff`: in every run each request is answered at most once, and the rest is as expected as
  long as no request is answered and the timer does not end before.
-/

namespace Daqbuf
namespace Ca

open Bytes Poll
open Connset (HaveProgressPending)
open Slots (Reached Along forall_reached_of_step forall_reached_iff_along)

/-! ## The stream -/

/-- {lit}`Error` of the stream, as far as it is told apart -/
inductive FindIocError where
  | sendFailure
  | readFailure
  | readEmpty
  | proto (e : Error)
  | slidebuf
  | io
  deriving DecidableEq

/-- {lit}`FindIocRes` -/
structure FindIocRes where
  channel : String
  responseAddr : Option SocketAddrV4
  addr : Option SocketAddrV4
  dt : ℕ
  deriving DecidableEq

/-- {lit}`SearchBatch`; the targets are named by their indices. -/
structure SearchBatch where
  tgts : List ℕ
  channels : List String
  sids : List UInt32
  deriving DecidableEq

/-- {lit}`ChannelSearchRequest` -/
structure ChannelSearchRequest (Tx : Type) where
  chn : String
  sid : UInt32
  beg : ℕ
  tx : Option Tx
  deriving DecidableEq

/-- {lit}`FindIocStream`.  Of the timers it is noted whether they are there.  The next search id is kept with it. -/
structure FindIocStream (Tx : Type) where
  tgts : List SocketAddrV4
  channelsInput : Option (Script (String × Tx))
  batchCur : Option SearchBatch := none
  batchLenMax : ℕ
  searchTimeout : ℕ
  sendJob : Option (SocketAddrV4 × List UInt8) := none
  sendIdle : Option (List UInt8) := some []
  outQueue : List (FindIocRes × Tx) := []
  ping : Bool := true
  chnReqs : List (ChannelSearchRequest Tx) := []
  batchIvl : Bool := false
  searchId : ℕ
  deriving DecidableEq

/-- What {lit}`poll_write_ready` and {lit}`try_send` answer. -/
inductive WriteAnswer where
  | notReady
  | readyErr
  | sent
  | sendErr
  | sendPending
  deriving DecidableEq

/-- What {lit}`poll_read_ready` and {lit}`try_read` answer. -/
inductive ReadAnswer where
  | notReady
  | readyErr
  | found (now : ℕ) (src : SocketAddrV4) (res : List (UInt32 × SocketAddrV4))
  | readErr (e : FindIocError)
  | readPending
  deriving DecidableEq

/-- What comes in one pass of the loop: the time at which the timer fires, whether the time between batches is over,
the time of the refill, and the answers of the socket. -/
structure FindIocPolls where
  ping : Option ℕ
  batchIvl : Bool
  now : ℕ
  write : WriteAnswer
  read : ReadAnswer
  deriving DecidableEq

/-- What is handed out -/
abbrev FindIocItem (Tx : Type) := Except FindIocError (List (FindIocRes × Tx))

/-- {lit}`serialize_batch` -/
def serializeBatch (batch : SearchBatch) : List UInt8 :=
  [0, 0, 0, 0] ++ [0, 0, 0, 13] ++ [0, 0, 0, 0] ++ [0, 0, 0, 0] ++
    (batch.sids.zip batch.channels).flatMap fun (sid, ch) =>
      let chb := asBytes ch
      let npadded := (chb.length + 1 + 7) / 8 * 8
      let npad := npadded - chb.length
      beBytes 2 0x06 ++ beBytes 2 npadded ++ beBytes 2 0 ++ beBytes 2 13 ++ beBytes 4 sid.toNat ++
        beBytes 4 sid.toNat ++ chb ++ List.replicate npad 0

/-- The loop of {lit}`refill_some`: what is read, whether the input is pending, and what is left of it. -/
def readInput {α : Type} : ℕ → Script α → List α × Bool × Option (Script α)
  | 0, inp => ([], false, some inp)
  | _ + 1, [] => ([], false, none)
  | _ + 1, .pending :: inp => ([], true, some inp)
  | room + 1, .ready x :: inp =>
      let (ret, pending, rest) := readInput room inp
      (x :: ret, pending, rest)

namespace FindIocStream

variable {Tx : Type}

/-- {lit}`new` -/
def new (tgts : List SocketAddrV4) (channelsInput : Script (String × Tx)) (searchTimeout batchLenMax searchId : ℕ) :
    FindIocStream Tx where
  tgts := tgts
  channelsInput := some channelsInput
  batchLenMax := batchLenMax
  searchTimeout := searchTimeout
  searchId := searchId

/-- Takes the senders of some requests, and queues a result for each of these. -/
def takeTx (s : FindIocStream Tx) (p : ChannelSearchRequest Tx → Bool) (res : ChannelSearchRequest Tx → FindIocRes) :
    FindIocStream Tx :=
  { s with
    chnReqs := s.chnReqs.map fun x => if p x then { x with tx := none } else x
    outQueue := s.outQueue ++ (s.chnReqs.filter p).filterMap fun x => x.tx.map fun tx => (res x, tx) }

/-- {lit}`handle_result` -/
def handleResult (s : FindIocStream Tx) (now : ℕ) (src : SocketAddrV4) (res : List (UInt32 × SocketAddrV4)) :
    FindIocStream Tx :=
  res.foldl (fun s (sid, addr) =>
    s.takeTx (fun x => sid = x.sid) fun x => ⟨x.chn, some src, some addr, now - x.beg⟩) s

/-- {lit}`clear_timed_out` -/
def clearTimedOut (s : FindIocStream Tx) (now : ℕ) : FindIocStream Tx :=
  s.takeTx (fun x => s.searchTimeout < now - x.beg) fun x => ⟨x.chn, none, none, now - x.beg⟩

/-- The batch that is made of some requests; its ids are the next ones. -/
def startBatch (s : FindIocStream Tx) (now : ℕ) (ret : List (String × Tx)) : FindIocStream Tx :=
  let sids := (List.range ret.length).map fun i => UInt32.ofNat (s.searchId + i)
  { s with
    searchId := s.searchId + ret.length
    chnReqs := s.chnReqs ++ (ret.zip sids).map fun (x, sid) => ⟨x.1, sid, now, some x.2⟩
    batchCur := some ⟨List.range s.tgts.length, ret.map Prod.fst, sids⟩ }

/-- {lit}`refill_some`, with the marks of its caller -/
def refillSome (s : FindIocStream Tx) (now : ℕ) (inp : Script (String × Tx)) : HaveProgressPending × FindIocStream Tx :=
  let (ret, pending, rest) := readInput s.batchLenMax inp
  let s := { s with channelsInput := rest }
  if ret ≠ [] then (⟨true, false⟩, s.startBatch now ret) else (⟨false, pending⟩, s)

/-- The part of a pass at the timer -/
def pollPing (p : FindIocPolls) (s : FindIocStream Tx) : HaveProgressPending × FindIocStream Tx :=
  if s.ping then
    match p.ping with
    | some now => (⟨true, false⟩, { s.clearTimedOut now with ping := s.channelsInput.isSome })
    | none => (⟨false, true⟩, s)
  else (⟨false, false⟩, s)

/-- The part of a pass at a message that is to be sent -/
def pollJob (p : FindIocPolls) (s : FindIocStream Tx) (buf : List UInt8) :
    Except (FindIocStream Tx) (HaveProgressPending × FindIocStream Tx) :=
  if s.batchIvl then
    if p.batchIvl then .ok (⟨true, false⟩, { s with batchIvl := false }) else .ok (⟨false, true⟩, s)
  else
    match p.write with
    | .sent => .ok (⟨true, false⟩, { s with sendIdle := some buf, sendJob := none, batchIvl := true })
    | .sendErr | .readyErr => .error { s with sendIdle := some buf, sendJob := none }
    | .sendPending | .notReady => .ok (⟨false, true⟩, s)

/-- The part of a pass at a batch -/
def pollBatch (s : FindIocStream Tx) (batch : SearchBatch) :
    Except (FindIocStream Tx) (HaveProgressPending × FindIocStream Tx) :=
  match s.sendIdle with
  | none => .error s
  | some buf =>
    match batch.tgts with
    | ix :: rest =>
      match s.tgts[ix]? with
      | some tgt =>
          .ok (⟨true, false⟩, { s with
            batchCur := some { batch with tgts := rest }
            sendIdle := none
            sendJob := some (tgt, serializeBatch { batch with tgts := rest }) })
      | none =>
          .ok (⟨true, false⟩, { s with batchCur := some { batch with tgts := rest }, sendIdle := some buf })
    | [] => .ok (⟨true, false⟩, { s with sendIdle := some buf, batchCur := none })

/-- The part of a pass that sends or refills; a failure to send leaves the pass. -/
def pollSend (p : FindIocPolls) (s : FindIocStream Tx) :
    Except (FindIocStream Tx) (HaveProgressPending × FindIocStream Tx) :=
  match s.sendJob, s.batchCur, s.channelsInput with
  | some (_, buf), _, _ => s.pollJob p buf
  | none, some batch, _ => s.pollBatch batch
  | none, none, some inp => .ok (s.refillSome p.now inp)
  | none, none, none => .ok (⟨false, false⟩, s)

/-- The end of a pass: it reads, unless the input is closed. -/
def pollRead (p : FindIocPolls) (hpp : HaveProgressPending) (s : FindIocStream Tx) :
    Pass (FindIocStream Tx) (FindIocItem Tx) :=
  if s.channelsInput.isSome then
    match p.read with
    | .found now src res => { hpp with progress := true }.finish (s.handleResult now src res)
    | .readErr e => .item (.error e) s
    | .readyErr => .item (.error .io) s
    | .readPending | .notReady => { hpp with pending := true }.finish s
  else hpp.finish s

/-- The marks of two parts of a pass -/
def joinMarks (a b : HaveProgressPending) : HaveProgressPending := ⟨a.progress || b.progress, a.pending || b.pending⟩

/-- One pass of {lit}`poll_next` -/
def pollNext (p : FindIocPolls) (s : FindIocStream Tx) : Pass (FindIocStream Tx) (FindIocItem Tx) :=
  if s.outQueue ≠ [] then .item (.ok s.outQueue) { s with outQueue := [] }
  else
    let ping := pollPing p s
    match pollSend p ping.2 with
    | .error t => .item (.error .sendFailure) t
    | .ok (hpp, t) => pollRead p (joinMarks ping.1 hpp) t

/-- A pass of a run, with the items so far -/
def step (p : FindIocPolls) (x : List (FindIocItem Tx) × FindIocStream Tx) :
    Option (List (FindIocItem Tx) × FindIocStream Tx) :=
  match pollNext p x.2 with
  | .again t | .pending t | .done t => some (x.1, t)
  | .item item t => some (x.1 ++ [item], t)
  | .panic => none

/-! ## What a pass keeps -/

/-- The request that a result is for -/
def request (x : FindIocRes × Tx) : String × Tx := (x.1.channel, x.2)

/-- The results that were handed out -/
def answered (items : List (FindIocItem Tx)) : List (FindIocRes × Tx) :=
  items.flatMap fun item => item.toOption.getD []

/-- The state that a part of a pass leaves, also where it leaves the pass -/
def stateOf : Except (FindIocStream Tx) (HaveProgressPending × FindIocStream Tx) → FindIocStream Tx
  | .error t => t
  | .ok (_, t) => t

/-- The requests in the table that have no result -/
def outstanding (s : FindIocStream Tx) : List (String × Tx) :=
  s.chnReqs.filterMap fun x => x.tx.map fun tx => (x.chn, tx)

/-- The requests in the input -/
def unread (s : FindIocStream Tx) : List (String × Tx) := (s.channelsInput.getD []).items

/-- The requests of which no result was handed out -/
def holds (s : FindIocStream Tx) : List (String × Tx) := s.outQueue.map request ++ s.outstanding ++ s.unread

/-- The batch is one of requests in the table. -/
def Listed (s : FindIocStream Tx) : Prop := ∀ b ∈ s.batchCur, ∀ sid ∈ b.sids, sid ∈ s.chnReqs.map (·.sid)

/-- As long as the input is open there is a timer. -/
def Timed (s : FindIocStream Tx) : Prop := s.channelsInput.isSome → s.ping = true

/-- No part of a pass loses or doubles a request, or takes back a result. -/
structure Keeps (s t : FindIocStream Tx) : Prop where
  holds : t.holds.Perm s.holds
  places : t.chnReqs.length + t.unread.length = s.chnReqs.length + s.unread.length
  queue : s.outQueue <+: t.outQueue
  listed : s.Listed → t.Listed
  timed : s.Timed → t.Timed

section Keeps

variable {s t u : FindIocStream Tx} {p : FindIocPolls} {hpp : HaveProgressPending}

theorem Keeps.trans (hst : Keeps s t) (htu : Keeps t u) : Keeps s u where
  holds := htu.holds.trans hst.holds
  places := htu.places.trans hst.places
  queue := hst.queue.trans htu.queue
  listed := htu.listed ∘ hst.listed
  timed := htu.timed ∘ hst.timed

/-- A part of the state that the requests do not depend on -/
theorem Keeps.frame (hqueue : t.outQueue = s.outQueue) (hreqs : t.chnReqs = s.chnReqs)
    (hinput : t.channelsInput = s.channelsInput) (hping : t.ping = s.ping) (hlisted : s.Listed → t.Listed) :
    Keeps s t where
  holds := by
    rw [FindIocStream.holds, FindIocStream.holds, outstanding, outstanding, unread, unread, hqueue, hreqs, hinput]
  places := by rw [unread, unread, hreqs, hinput]
  queue := hqueue ▸ List.prefix_rfl
  listed := hlisted
  timed := by
    intro h
    rwa [Timed, hinput, hping]

theorem Keeps.refl : Keeps s s := .frame rfl rfl rfl rfl id

theorem sid_takeTx (q : ChannelSearchRequest Tx → Bool) (res : ChannelSearchRequest Tx → FindIocRes) :
    (s.takeTx q res).chnReqs.map (·.sid) = s.chnReqs.map (·.sid) := by
  rw [takeTx, List.map_map]
  apply List.map_congr_left
  intro x _
  simp only [Function.comp_apply]
  split
  · rfl
  · rfl

/-- A sender that is taken comes with a result for its request. -/
theorem keeps_takeTx (q : ChannelSearchRequest Tx → Bool) (res : ChannelSearchRequest Tx → FindIocRes)
    (hres : ∀ x, (res x).channel = x.chn) : Keeps s (s.takeTx q res) where
  holds := by
    have hout : (s.takeTx q res).outQueue.map request = s.outQueue.map request ++
        (s.chnReqs.filter q).filterMap fun x => x.tx.map fun tx => (x.chn, tx) := by
      rw [takeTx, List.map_append, List.map_filterMap]
      congr 2
      funext x
      cases x.tx with
      | none => rfl
      | some tx => exact congrArg (fun c => some (c, tx)) (hres x)
    have hleft : (s.takeTx q res).outstanding =
        (s.chnReqs.filter fun x => !q x).filterMap fun x => x.tx.map fun tx => (x.chn, tx) := by
      rw [outstanding, takeTx, List.filterMap_map, List.filterMap_filter]
      apply List.filterMap_congr
      intro x _
      cases hq : q x with
      | true => simp [hq]
      | false => simp [hq]
    have hperm := (List.filter_append_perm q s.chnReqs).filterMap fun x => x.tx.map fun tx => (x.chn, tx)
    rw [List.filterMap_append] at hperm
    rw [FindIocStream.holds, hout, hleft, List.append_assoc (s.outQueue.map request)]
    exact (hperm.append_left _).append_right _
  places := by rw [takeTx, List.length_map, unread, unread]
  queue := List.prefix_append _ _
  listed := by
    intro h b hb sid hsid
    rw [sid_takeTx]
    exact h b hb sid hsid
  timed := id

theorem keeps_handleResult (now : ℕ) (src : SocketAddrV4) (res : List (UInt32 × SocketAddrV4)) :
    Keeps s (s.handleResult now src res) := by
  induction res generalizing s with
  | nil => exact .refl
  | cons r res ih => exact (keeps_takeTx _ _ fun _ => rfl).trans ih

theorem keeps_clearTimedOut (now : ℕ) : Keeps s (s.clearTimedOut now) := keeps_takeTx _ _ fun _ => rfl

theorem keeps_pollPing : Keeps s (pollPing p s).2 := by
  unfold pollPing
  split
  · cases p.ping with
    | some now =>
        have h : Keeps s (s.clearTimedOut now) := keeps_clearTimedOut now
        exact ⟨h.holds, h.places, h.queue, h.listed, fun _ hopen => hopen⟩
    | none => exact .refl
  · exact .refl

/-- What is read from the input, and what is left of it -/
theorem items_readInput {α : Type} (room : ℕ) (inp : Script α) :
    (readInput room inp).1 ++ Script.items ((readInput room inp).2.2.getD []) = inp.items := by
  fun_induction readInput room inp with
  | case1 inp => rfl
  | case2 n => rfl
  | case3 n inp => rfl
  | case4 room x inp ret pending rest hread ih =>
      rw [hread] at ih
      exact congrArg (x :: ·) ih

/-- The requests that a batch adds to the table are outstanding. -/
theorem outstanding_startBatch (now : ℕ) (ret : List (String × Tx)) :
    (s.startBatch now ret).outstanding = s.outstanding ++ ret := by
  have hzip : (ret.zip ((List.range ret.length).map fun i => UInt32.ofNat (s.searchId + i))).map Prod.fst = ret :=
    List.map_fst_zip (by simp)
  rw [outstanding, startBatch, List.filterMap_append, List.filterMap_map, ← outstanding]
  congr 1
  conv_rhs => rw [← hzip]
  exact congrFun (List.filterMap_eq_map (f := Prod.fst)) _

/-- The ids of a batch are those that the table gets. -/
theorem sid_startBatch (now : ℕ) (ret : List (String × Tx)) :
    (s.startBatch now ret).chnReqs.map (·.sid) = s.chnReqs.map (·.sid) ++
      (List.range ret.length).map fun i => UInt32.ofNat (s.searchId + i) := by
  rw [startBatch, List.map_append, List.map_map]
  congr 1
  exact List.map_snd_zip (by simp)

theorem keeps_refillSome {now : ℕ} {inp : Script (String × Tx)} (hinput : s.channelsInput = some inp) :
    Keeps s (s.refillSome now inp).2 := by
  have hitems := items_readInput s.batchLenMax inp
  have hunread : s.unread = inp.items := by rw [unread, hinput, Option.getD_some]
  unfold refillSome
  generalize readInput s.batchLenMax inp = x at hitems
  obtain ⟨ret, pending, rest⟩ := x
  simp only at hitems ⊢
  have htimed : s.Timed → rest.isSome → s.ping = true := fun h _ => h (by rw [hinput, Option.isSome_some])
  split
  · rename_i hne
    constructor
    · rw [FindIocStream.holds, outstanding_startBatch, FindIocStream.holds, hunread, ← hitems]
      apply List.Perm.of_eq
      simp [outstanding, unread, startBatch]
    · rw [unread, startBatch, hunread, ← hitems]
      simp
      omega
    · exact List.prefix_rfl
    · intro _ b hb sid hsid
      rw [sid_startBatch]
      obtain rfl := Option.some.inj hb
      exact List.mem_append_right _ hsid
    · exact htimed
  · rename_i hempty
    obtain rfl : ret = [] := not_not.mp hempty
    constructor
    · rw [FindIocStream.holds, FindIocStream.holds, hunread, ← hitems]
      exact List.Perm.of_eq rfl
    · rw [hunread, ← hitems]
      rfl
    · exact List.prefix_rfl
    · exact id
    · exact htimed

theorem keeps_pollJob (buf : List UInt8) : Keeps s (stateOf (s.pollJob p buf)) := by
  unfold pollJob
  split
  · split
    · exact .frame rfl rfl rfl rfl id
    · exact .refl
  · cases p.write with
    | sent => exact .frame rfl rfl rfl rfl id
    | sendErr => exact .frame rfl rfl rfl rfl id
    | readyErr => exact .frame rfl rfl rfl rfl id
    | sendPending => exact .refl
    | notReady => exact .refl

theorem keeps_pollBatch {batch : SearchBatch} (hbatch : s.batchCur = some batch) :
    Keeps s (stateOf (s.pollBatch batch)) := by
  have hlisted : s.Listed → ∀ sid ∈ batch.sids, sid ∈ s.chnReqs.map (·.sid) := fun h => h batch hbatch
  unfold pollBatch
  cases s.sendIdle with
  | none => exact .refl
  | some buf =>
      cases batch.tgts with
      | nil => exact .frame rfl rfl rfl rfl fun _ _ hb => absurd hb nofun
      | cons ix rest =>
          simp only
          cases s.tgts[ix]? with
          | none =>
              refine .frame rfl rfl rfl rfl fun h b hb => ?_
              obtain rfl := Option.some.inj hb
              exact hlisted h
          | some tgt =>
              refine .frame rfl rfl rfl rfl fun h b hb => ?_
              obtain rfl := Option.some.inj hb
              exact hlisted h

theorem keeps_pollSend : Keeps s (stateOf (pollSend p s)) := by
  unfold pollSend
  split
  · exact keeps_pollJob _
  · rename_i hbatch
    exact keeps_pollBatch hbatch
  · rename_i hinput
    exact keeps_refillSome hinput
  · exact .refl

/-- The state behind the responses that a pass reads -/
def readResponse (p : FindIocPolls) (s : FindIocStream Tx) : FindIocStream Tx :=
  if s.channelsInput.isSome then
    match p.read with
    | .found now src res => s.handleResult now src res
    | _ => s
  else s

theorem keeps_readResponse : Keeps s (readResponse p s) := by
  unfold readResponse
  split
  · split
    · exact keeps_handleResult _ _ _
    · exact .refl
  · exact .refl

/-- The end of a pass hands out no results. -/
theorem pollRead_cases : (∃ e, pollRead p hpp s = .item (.error e) (readResponse p s)) ∨
    pollRead p hpp s = .again (readResponse p s) ∨ pollRead p hpp s = .pending (readResponse p s) ∨
      pollRead p hpp s = .done (readResponse p s) := by
  have hfinish : ∀ (marks : HaveProgressPending) (t : FindIocStream Tx),
      (marks.finish t : Pass _ (FindIocItem Tx)) = .again t ∨ (marks.finish t : Pass _ (FindIocItem Tx)) = .pending t ∨
        (marks.finish t : Pass _ (FindIocItem Tx)) = .done t := by
    intro marks t
    unfold HaveProgressPending.finish
    split_ifs
    · exact .inl rfl
    · exact .inr (.inl rfl)
    · exact .inr (.inr rfl)
  unfold pollRead readResponse
  split_ifs
  · cases p.read with
    | found now src res => exact .inr (hfinish _ _)
    | readErr e => exact .inl ⟨_, rfl⟩
    | readyErr => exact .inl ⟨_, rfl⟩
    | readPending => exact .inr (hfinish _ _)
    | notReady => exact .inr (hfinish _ _)
  · exact .inr (hfinish _ _)

variable {x y : List (FindIocItem Tx) × FindIocStream Tx}

/-- A pass hands out what is queued, or it goes through its parts. -/
theorem step_cases (h : step p x = some y) :
    (x.2.outQueue ≠ [] ∧ y = (x.1 ++ [.ok x.2.outQueue], { x.2 with outQueue := [] })) ∨
      (x.2.outQueue = [] ∧ answered y.1 = answered x.1 ∧
        (pollSend p (pollPing p x.2).2 = .error y.2 ∨
          ∃ hpp t, pollSend p (pollPing p x.2).2 = .ok (hpp, t) ∧ y.2 = readResponse p t)) := by
  have herr : ∀ e : FindIocError, answered (x.1 ++ [(.error e : FindIocItem Tx)]) = answered x.1 := fun e =>
    List.flatMap_append.trans (List.append_nil _)
  unfold step pollNext at h
  by_cases hqueue : x.2.outQueue ≠ []
  · rw [if_pos hqueue] at h
    exact .inl ⟨hqueue, (Option.some.inj h).symm⟩
  · right
    rw [if_neg hqueue] at h
    refine ⟨not_not.mp hqueue, ?_⟩
    simp only at h
    cases hsend : pollSend p (pollPing p x.2).2 with
    | error t =>
        rw [hsend] at h
        obtain rfl := Option.some.inj h
        exact ⟨herr _, .inl rfl⟩
    | ok z =>
        obtain ⟨hpp, t⟩ := z
        rw [hsend] at h
        simp only at h
        obtain ⟨e, hread⟩ | hread | hread | hread := @pollRead_cases _ t p (joinMarks (pollPing p x.2).1 hpp)
        · rw [hread] at h
          obtain rfl := Option.some.inj h
          exact ⟨herr e, .inr ⟨hpp, t, rfl, rfl⟩⟩
        · rw [hread] at h
          obtain rfl := Option.some.inj h
          exact ⟨rfl, .inr ⟨hpp, t, rfl, rfl⟩⟩
        · rw [hread] at h
          obtain rfl := Option.some.inj h
          exact ⟨rfl, .inr ⟨hpp, t, rfl, rfl⟩⟩
        · rw [hread] at h
          obtain rfl := Option.some.inj h
          exact ⟨rfl, .inr ⟨hpp, t, rfl, rfl⟩⟩

/-- A pass that does not hand out what is queued keeps the requests. -/
theorem keeps_step (h : step p x = some y) (hqueue : x.2.outQueue = []) : Keeps (pollPing p x.2).2 y.2 := by
  have hsend : Keeps (pollPing p x.2).2 (stateOf (pollSend p (pollPing p x.2).2)) := keeps_pollSend
  obtain ⟨hne, -⟩ | ⟨-, -, heq | ⟨hpp, t, heq, hy⟩⟩ := step_cases h
  · exact absurd hqueue hne
  · rwa [heq] at hsend
  · rw [heq] at hsend
    rw [hy]
    exact hsend.trans keeps_readResponse

end Keeps

/-! ## One result for each request -/

variable {given : List (String × Tx)} {x y : List (FindIocItem Tx) × FindIocStream Tx} {p : FindIocPolls}

/-- Responses that are late or repeated give nothing. -/
def IgnoresLate (s : FindIocStream Tx) : Prop :=
  ∀ now src res, (∀ r ∈ res, ∀ q ∈ s.chnReqs, r.1 = q.sid → q.tx = none) → s.handleResult now src res = s

/-- A tick of the timer gives a result for each request that is timed out. -/
def TimesOut (s : FindIocStream Tx) : Prop :=
  ∀ items p now y, s.outQueue = [] → p.ping = some now → step p (items, s) = some y →
    ∀ q ∈ s.chnReqs, ∀ tx, q.tx = some tx → s.searchTimeout < now - q.beg →
      (⟨q.chn, none, none, now - q.beg⟩, tx) ∈ y.2.outQueue

/-- The table and the batch are of requests that are outstanding. -/
def TablesOutstanding (s : FindIocStream Tx) : Prop :=
  (∀ q ∈ s.chnReqs, q.tx.isSome) ∧
    ∀ b ∈ s.batchCur, ∀ sid ∈ b.sids, ∃ q ∈ s.chnReqs, q.sid = sid ∧ q.tx.isSome

/-- Each request is in the input, or outstanding, or it has one result, which is for its own channel. -/
structure AnswersOnce (given : List (String × Tx)) (x : List (FindIocItem Tx) × FindIocStream Tx) : Prop where
  once : ((answered x.1).map request ++ x.2.holds).Perm given
  late : x.2.IgnoresLate
  timesOut : x.2.channelsInput.isSome → x.2.TimesOut

/-- Each request gets one result, and the tables hold only those that are outstanding. -/
structure AnswersEach (given : List (String × Tx)) (x : List (FindIocItem Tx) × FindIocStream Tx) : Prop where
  once : ((answered x.1).map request ++ x.2.holds).Perm given
  late : x.2.IgnoresLate
  timesOut : x.2.TimesOut
  tables : x.2.TablesOutstanding

/-- What holds in every run -/
structure Consistent (given : List (String × Tx)) (x : List (FindIocItem Tx) × FindIocStream Tx) : Prop where
  once : ((answered x.1).map request ++ x.2.holds).Perm given
  places : x.2.chnReqs.length + x.2.unread.length = given.length
  listed : x.2.Listed
  timed : x.2.Timed

/-- A pass keeps what holds in every run. -/
theorem consistent_step (hx : Consistent given x) (h : step p x = some y) : Consistent given y := by
  obtain ⟨-, rfl⟩ | ⟨hqueue, hanswered, -⟩ := step_cases h
  · refine ⟨?_, hx.places, hx.listed, hx.timed⟩
    have honce := hx.once
    rw [holds] at honce ⊢
    have hsplit : answered (x.1 ++ [.ok x.2.outQueue]) = answered x.1 ++ x.2.outQueue := by
      simp [answered, Except.toOption]
    rw [hsplit]
    simpa [outstanding, unread] using honce
  · have hkeeps : Keeps x.2 y.2 := keeps_pollPing.trans (keeps_step h hqueue)
    refine ⟨?_, hkeeps.places.trans hx.places, hkeeps.listed hx.listed, hkeeps.timed hx.timed⟩
    rw [hanswered]
    exact (hkeeps.holds.append_left _).trans hx.once

/-- Taking the senders of requests that have none changes nothing. -/
theorem takeTx_of_none {s : FindIocStream Tx} {q : ChannelSearchRequest Tx → Bool}
    {res : ChannelSearchRequest Tx → FindIocRes} (h : ∀ x ∈ s.chnReqs, q x = true → x.tx = none) :
    s.takeTx q res = s := by
  have hreqs : (s.chnReqs.map fun x => if q x then { x with tx := none } else x) = s.chnReqs := by
    conv_rhs => rw [← List.map_id s.chnReqs]
    apply List.map_congr_left
    intro x hx
    split
    · rename_i hq
      rw [← h x hx hq]
      rfl
    · rfl
  have hout : (s.chnReqs.filter q).filterMap (fun x => x.tx.map fun tx => (res x, tx)) = [] := by
    rw [List.filterMap_eq_nil_iff]
    intro x hx
    obtain ⟨hmem, hq⟩ := List.mem_filter.mp hx
    rw [h x hmem hq, Option.map_none]
  rw [takeTx, hreqs, hout, List.append_nil]

theorem ignoresLate (s : FindIocStream Tx) : s.IgnoresLate := by
  intro now src res h
  induction res with
  | nil => rfl
  | cons r res ih =>
      have hfst : (s.takeTx (fun x => r.1 = x.sid) fun x => ⟨x.chn, some src, some r.2, now - x.beg⟩) = s :=
        takeTx_of_none fun x hx hq => h r List.mem_cons_self x hx (of_decide_eq_true hq)
      have hcons : s.handleResult now src (r :: res) = handleResult
          (s.takeTx (fun x => r.1 = x.sid) fun x => ⟨x.chn, some src, some r.2, now - x.beg⟩) now src res := rfl
      rw [hcons, hfst]
      exact ih fun r' hr' => h r' (List.mem_cons_of_mem _ hr')

/-- While there is a timer, its tick gives the results for what is timed out. -/
theorem timesOut_of_ping {s : FindIocStream Tx} (hping : s.ping = true) : s.TimesOut := by
  intro items p now y hqueue hp hstep q hq tx htx hlt
  have hkeeps := (keeps_step hstep hqueue).queue
  apply hkeeps.subset
  rw [pollPing, if_pos hping, hp]
  apply List.mem_append_right
  rw [List.mem_filterMap]
  refine ⟨q, List.mem_filter.mpr ⟨hq, decide_eq_true hlt⟩, ?_⟩
  rw [htx, Option.map_some]

/-- What holds in every run gives at most one result for each request. -/
theorem Consistent.answersOnce (hx : Consistent given x) : AnswersOnce given x where
  once := hx.once
  late := ignoresLate x.2
  timesOut hinput := timesOut_of_ping (hx.timed hinput)

/-! ## Waiting for results -/

/-- All requests in the table are outstanding, and a timer is there for them. -/
structure Waiting (s : FindIocStream Tx) : Prop where
  outstanding : ∀ q ∈ s.chnReqs, q.tx.isSome
  ping : s.chnReqs ≠ [] → s.ping = true

/-- A pass in which no request is answered, and after which the timer is still there if it is needed: no tick comes
when a request is timed out, nor after the end of the input while there are requests, and no response is read for a
request in the table. -/
structure Awaits (p : FindIocPolls) (x : List (FindIocItem Tx) × FindIocStream Tx) : Prop where
  tick : ∀ now, p.ping = some now → x.2.ping = true → ∀ q ∈ x.2.chnReqs, now - q.beg ≤ x.2.searchTimeout
  last : p.ping.isSome → x.2.ping = true → x.2.channelsInput = none → x.2.chnReqs = []
  response : ∀ hpp t, pollSend p (pollPing p x.2).2 = .ok (hpp, t) → t.channelsInput.isSome →
    ∀ now src res, p.read = .found now src res → ∀ r ∈ res, ∀ q ∈ t.chnReqs, r.1 ≠ q.sid

section Waiting

variable {s t : FindIocStream Tx} {hpp : HaveProgressPending}

theorem outstanding_takeTx {q : ChannelSearchRequest Tx → Bool} {res : ChannelSearchRequest Tx → FindIocRes} :
    (∀ x ∈ (s.takeTx q res).chnReqs, x.tx.isSome) ↔ ∀ x ∈ s.chnReqs, x.tx.isSome ∧ q x = false := by
  rw [takeTx, List.forall_mem_map]
  apply forall₂_congr
  intro x _
  cases hq : q x with
  | true => simp
  | false => simp

/-- Responses leave all requests outstanding exactly if they are for none of them. -/
theorem outstanding_handleResult {now : ℕ} {src : SocketAddrV4} {res : List (UInt32 × SocketAddrV4)} :
    (∀ x ∈ (s.handleResult now src res).chnReqs, x.tx.isSome) ↔
      (∀ x ∈ s.chnReqs, x.tx.isSome) ∧ ∀ r ∈ res, ∀ x ∈ s.chnReqs, r.1 ≠ x.sid := by
  induction res generalizing s with
  | nil => simp [handleResult]
  | cons r res ih =>
      have hsids : ∀ a, (∀ x ∈ (s.takeTx (fun x => r.1 = x.sid) fun x =>
          ⟨x.chn, some src, some r.2, now - x.beg⟩).chnReqs, a ≠ x.sid) ↔ ∀ x ∈ s.chnReqs, a ≠ x.sid := by
        intro a
        have hmem := congrArg (fun l => a ∈ l) (sid_takeTx (s := s) (fun x => r.1 = x.sid)
          fun x => ⟨x.chn, some src, some r.2, now - x.beg⟩)
        simp only [List.mem_map, eq_iff_iff] at hmem
        simpa [eq_comm] using not_congr hmem
      rw [handleResult, List.foldl_cons, ← handleResult, ih, outstanding_takeTx, List.forall_mem_cons]
      simp only [hsids, decide_eq_false_iff_not]
      constructor
      · rintro ⟨hfst, hrest⟩
        exact ⟨fun x hx => (hfst x hx).1, fun x hx => (hfst x hx).2, hrest⟩
      · rintro ⟨hall, hfst, hrest⟩
        exact ⟨fun x hx => ⟨hall x hx, hfst x hx⟩, hrest⟩

/-- The timer leaves the stream waiting exactly if it does not find a request that is timed out, and is not the last
one with requests left. -/
theorem waiting_pollPing {p : FindIocPolls} (hs : s.Waiting) :
    (pollPing p s).2.Waiting ↔
      (∀ now, p.ping = some now → s.ping = true → ∀ q ∈ s.chnReqs, now - q.beg ≤ s.searchTimeout) ∧
        (p.ping.isSome → s.ping = true → s.channelsInput = none → s.chnReqs = []) := by
  unfold pollPing
  by_cases hping : s.ping = true
  · rw [if_pos hping]
    cases hp : p.ping with
    | none =>
        apply iff_of_true hs
        exact ⟨fun _ h => absurd h nofun, fun h => absurd h nofun⟩
    | some now =>
        have hreqs : (s.clearTimedOut now).chnReqs = [] ↔ s.chnReqs = [] := List.map_eq_nil_iff
        have hclear : (∀ q ∈ (s.clearTimedOut now).chnReqs, q.tx.isSome) ↔
            ∀ q ∈ s.chnReqs, q.tx.isSome ∧ decide (s.searchTimeout < now - q.beg) = false := outstanding_takeTx
        constructor
        · rintro ⟨hout, hlast⟩
          constructor
          · rintro now' heq - q hq
            obtain rfl := Option.some.inj heq
            exact not_lt.mp (of_decide_eq_false (hclear.mp hout q hq).2)
          · intro _ _ hinput
            by_contra hne
            have hsome := hlast fun h => hne (hreqs.mp h)
            simp [hinput] at hsome
        · rintro ⟨htick, hlast⟩
          constructor
          · apply hclear.mpr
            intro q hq
            exact ⟨hs.outstanding q hq, decide_eq_false (not_lt.mpr (htick now rfl hping q hq))⟩
          · intro hne
            by_contra hclosed
            refine hne (hreqs.mpr (hlast rfl hping ?_))
            simpa using hclosed
  · rw [if_neg hping]
    exact iff_of_true hs ⟨fun _ _ h => absurd h hping, fun _ h => absurd h hping⟩

/-- Sending and refilling adds outstanding requests, as long as the input is open. -/
theorem pollSend_frame {p : FindIocPolls} :
    ∃ new, (stateOf (pollSend p s)).chnReqs = s.chnReqs ++ new ∧ (∀ q ∈ new, q.tx.isSome) ∧
      (s.channelsInput = none → new = [] ∧ (stateOf (pollSend p s)).channelsInput = none) ∧
      (stateOf (pollSend p s)).ping = s.ping ∧ (stateOf (pollSend p s)).outQueue = s.outQueue := by
  have hsame : ∀ t : FindIocStream Tx, t.chnReqs = s.chnReqs → t.channelsInput = s.channelsInput →
      t.ping = s.ping → t.outQueue = s.outQueue → ∃ new, t.chnReqs = s.chnReqs ++ new ∧ (∀ q ∈ new, q.tx.isSome) ∧
        (s.channelsInput = none → new = [] ∧ t.channelsInput = none) ∧ t.ping = s.ping ∧ t.outQueue = s.outQueue := by
    intro t hreqs hinput hping hqueue
    exact ⟨[], by rw [hreqs, List.append_nil], nofun, fun h => ⟨rfl, hinput.trans h⟩, hping, hqueue⟩
  unfold pollSend
  split
  · unfold pollJob
    split_ifs
    · exact hsame _ rfl rfl rfl rfl
    · exact hsame _ rfl rfl rfl rfl
    · cases p.write with
      | _ => exact hsame _ rfl rfl rfl rfl
  · unfold pollBatch
    split
    · exact hsame _ rfl rfl rfl rfl
    · split
      · split
        · exact hsame _ rfl rfl rfl rfl
        · exact hsame _ rfl rfl rfl rfl
      · exact hsame _ rfl rfl rfl rfl
  · rename_i inp hinput
    unfold refillSome
    simp only
    split_ifs with hne
    · refine ⟨_, rfl, ?_, fun h => absurd (hinput.symm.trans h) nofun, rfl, rfl⟩
      intro q hq
      obtain ⟨z, -, rfl⟩ := List.mem_map.mp hq
      rfl
    · exact ⟨[], (List.append_nil _).symm, nofun, fun h => absurd (hinput.symm.trans h) nofun, rfl, rfl⟩
  · exact hsame _ rfl rfl rfl rfl

theorem waiting_pollSend {p : FindIocPolls} (htimed : s.Timed) : (stateOf (pollSend p s)).Waiting ↔ s.Waiting := by
  obtain ⟨new, hreqs, hnew, hclosed, hping, -⟩ := @pollSend_frame _ s p
  constructor
  · intro h
    constructor
    · intro q hq
      exact h.outstanding q (hreqs ▸ List.mem_append_left _ hq)
    · intro hne
      rw [← hping]
      exact h.ping (by simp [hreqs, hne])
  · intro h
    constructor
    · rw [hreqs]
      intro q hq
      exact (List.mem_append.mp hq).elim (h.outstanding q) (hnew q)
    · intro hne
      rw [hping]
      cases hinput : s.channelsInput with
      | none =>
          rw [hreqs, (hclosed hinput).1, List.append_nil] at hne
          exact h.ping hne
      | some inp => exact htimed (by rw [hinput, Option.isSome_some])

/-- Responses leave the timer and the places in the table. -/
theorem handleResult_frame (s : FindIocStream Tx) (now : ℕ) (src : SocketAddrV4) (res : List (UInt32 × SocketAddrV4)) :
    (s.handleResult now src res).ping = s.ping ∧ ((s.handleResult now src res).chnReqs = [] ↔ s.chnReqs = []) := by
  induction res generalizing s with
  | nil => exact ⟨rfl, Iff.rfl⟩
  | cons r res ih =>
      obtain ⟨hping, hempty⟩ := ih (s.takeTx (fun x => r.1 = x.sid) fun x => ⟨x.chn, some src, some r.2, now - x.beg⟩)
      exact ⟨hping, hempty.trans List.map_eq_nil_iff⟩

/-- Responses leave the stream waiting exactly if none is for a request in the table. -/
theorem waiting_readResponse {p : FindIocPolls} :
    (readResponse p s).Waiting ↔ s.Waiting ∧ (s.channelsInput.isSome → ∀ now src res, p.read = .found now src res →
      ∀ r ∈ res, ∀ q ∈ s.chnReqs, r.1 ≠ q.sid) := by
  unfold readResponse
  by_cases hinput : s.channelsInput.isSome
  · rw [if_pos hinput]
    cases hread : p.read with
    | found now src res =>
        simp only
        obtain ⟨hping, hempty⟩ := handleResult_frame s now src res
        constructor
        · intro h
          obtain ⟨hout, hother⟩ := outstanding_handleResult.mp h.outstanding
          refine ⟨⟨hout, fun hne => ?_⟩, ?_⟩
          · rw [← hping]
            exact h.ping fun hnil => hne (hempty.mp hnil)
          · rintro - now' src' res' heq
            cases heq
            exact hother
        · rintro ⟨h, hother⟩
          refine ⟨outstanding_handleResult.mpr ⟨h.outstanding, hother hinput now src res rfl⟩, fun hne => ?_⟩
          rw [hping]
          exact h.ping fun hnil => hne (hempty.mpr hnil)
    | _ => exact (and_iff_left fun _ _ _ _ h => absurd h nofun).symm
  · rw [if_neg hinput]
    exact (and_iff_left fun h => absurd h hinput).symm

end Waiting

/-- A run does not end. -/
theorem exists_step (p : FindIocPolls) (x : List (FindIocItem Tx) × FindIocStream Tx) : ∃ y, step p x = some y := by
  unfold step pollNext
  split_ifs
  · exact ⟨_, rfl⟩
  · simp only
    cases pollSend p (pollPing p x.2).2 with
    | error t => exact ⟨_, rfl⟩
    | ok z =>
        obtain ⟨hpp, t⟩ := z
        obtain ⟨e, hread⟩ | hread | hread | hread := @pollRead_cases _ t p (joinMarks (pollPing p x.2).1 hpp)
        all_goals
          simp only [hread]
          exact ⟨_, rfl⟩

/-- As long as all requests in the table are outstanding, none was answered. -/
theorem outQueue_of_outstanding (hx : Consistent given x) (hout : ∀ q ∈ x.2.chnReqs, q.tx.isSome) :
    x.2.outQueue = [] := by
  have hall : x.2.outstanding.length = x.2.chnReqs.length := by
    rw [outstanding, List.length_filterMap_eq_countP, List.countP_eq_length]
    intro q hq
    rw [Option.isSome_map]
    exact hout q hq
  have hlen := hx.once.length_eq
  have hplaces := hx.places
  rw [holds, List.length_append, List.length_append, List.length_append, List.length_map, List.length_map, hall] at hlen
  exact List.length_eq_zero_iff.mp (by omega)

/-- Without a timer, and with the input closed, nothing is answered. -/
theorem outQueue_of_closed {p : FindIocPolls} (hqueue : x.2.outQueue = []) (hping : x.2.ping = false)
    (hinput : x.2.channelsInput = none) (h : step p x = some y) : y.2.outQueue = [] := by
  have hsame : (pollPing p x.2).2 = x.2 := by rw [pollPing, hping, if_neg nofun]
  obtain ⟨new, -, -, hclosed, -, hout⟩ := @pollSend_frame _ x.2 p
  obtain ⟨hne, -⟩ | ⟨-, -, heq | ⟨hpp, t, heq, hy⟩⟩ := step_cases h
  · exact absurd hqueue hne
  · rw [hsame] at heq
    rw [heq, hqueue] at hout
    exact hout
  · rw [hsame] at heq
    rw [heq, hqueue] at hout
    have ht : t.channelsInput = none := by
      have h := (hclosed hinput).2
      rwa [heq] at h
    rw [hy, readResponse, ht, if_neg nofun]
    exact hout

/-- In a state of a run, it is as expected exactly if all requests in the table are outstanding, and a timer is there
for them. -/
theorem answersEach_iff_waiting (hx : Consistent given x) : AnswersEach given x ↔ x.2.Waiting := by
  constructor
  · intro h
    refine ⟨h.tables.1, fun hne => ?_⟩
    by_contra hping
    rw [Bool.not_eq_true] at hping
    have hinput : x.2.channelsInput = none := by
      by_contra hopen
      rw [hx.timed (Option.isSome_iff_ne_none.mpr hopen)] at hping
      cases hping
    obtain ⟨q, hq⟩ := List.exists_mem_of_ne_nil _ hne
    obtain ⟨tx, htx⟩ := Option.isSome_iff_exists.mp (h.tables.1 q hq)
    have hqueue : x.2.outQueue = [] := outQueue_of_outstanding hx h.tables.1
    obtain ⟨y, hy⟩ := exists_step ⟨some (q.beg + x.2.searchTimeout + 1), false, 0, .notReady, .notReady⟩ x
    have hmem := h.timesOut x.1 _ _ y hqueue rfl hy q hq tx htx (by omega)
    rw [outQueue_of_closed hqueue hping hinput hy] at hmem
    cases hmem
  · intro hw
    refine ⟨hx.once, ignoresLate x.2, ?_, hw.outstanding, ?_⟩
    · intro items p now y hqueue hp hstep q hq
      have hne : x.2.chnReqs ≠ [] := List.ne_nil_of_mem hq
      exact timesOut_of_ping (hw.ping hne) items p now y hqueue hp hstep q hq
    · intro b hb sid hsid
      obtain ⟨q, hq, rfl⟩ := List.mem_map.mp (hx.listed b hb sid hsid)
      exact ⟨q, hq, rfl, hw.outstanding q hq⟩

theorem waiting_step (hx : Consistent given x) (hw : x.2.Waiting) (h : step p x = some y) :
    y.2.Waiting ↔ Awaits p x := by
  have htimed : (pollPing p x.2).2.Timed := keeps_pollPing.timed hx.timed
  have hping := waiting_pollPing (p := p) hw
  have hsend := waiting_pollSend (p := p) htimed
  obtain ⟨hne, -⟩ | ⟨-, -, heq | ⟨hpp, t, heq, hy⟩⟩ := step_cases h
  · exact absurd (outQueue_of_outstanding hx hw.outstanding) hne
  · rw [heq] at hsend
    refine (hsend.trans hping).trans ⟨fun ⟨htick, hlast⟩ => ⟨htick, hlast, ?_⟩, fun h => ⟨h.tick, h.last⟩⟩
    intro hpp t hok
    rw [heq] at hok
    cases hok
  · rw [heq] at hsend
    rw [hy, waiting_readResponse]
    constructor
    · rintro ⟨ht, hresponse⟩
      obtain ⟨htick, hlast⟩ := hping.mp (hsend.mp ht)
      refine ⟨htick, hlast, ?_⟩
      intro hpp' t' hok
      rw [heq] at hok
      cases hok
      exact hresponse
    · intro h
      exact ⟨hsend.mpr (hping.mpr ⟨h.tick, h.last⟩), h.response hpp t heq⟩

/-- In every run, whatever comes in what order, each request is answered at most once and for its own channel, late
responses give nothing, and as long as the input is open the next tick answers what is timed out.  That each request is
answered and that the tables are of outstanding requests only holds in all of a run exactly if no request is
answered, and no tick after the end of the input finds requests. -/
theorem answersEach_iff (tgts : List SocketAddrV4) (inp : Script (String × Tx)) (searchTimeout batchLenMax searchId : ℕ)
    (ps : List FindIocPolls) :
    (∀ x, Reached step ps ([], new tgts inp searchTimeout batchLenMax searchId) x → AnswersOnce inp.items x) ∧
      ((∀ x, Reached step ps ([], new tgts inp searchTimeout batchLenMax searchId) x → AnswersEach inp.items x) ↔
        Along step Awaits ps ([], new tgts inp searchTimeout batchLenMax searchId)) := by
  have hstart : Consistent inp.items ([], new tgts inp searchTimeout batchLenMax searchId) :=
    ⟨List.Perm.of_eq rfl, Nat.zero_add _, nofun, fun _ => rfl⟩
  have hall : ∀ x, Reached step ps ([], new tgts inp searchTimeout batchLenMax searchId) x →
      Consistent inp.items x := forall_reached_of_step (fun _ _ _ hx h => consistent_step hx h) hstart
  refine ⟨fun x hx => (hall x hx).answersOnce, ?_⟩
  have hwaiting : (∀ x, Reached step ps ([], new tgts inp searchTimeout batchLenMax searchId) x →
      Consistent inp.items x ∧ x.2.Waiting) ↔
        Along step Awaits ps ([], new tgts inp searchTimeout batchLenMax searchId) := by
    apply forall_reached_iff_along
    · intro p x y hx h
      rw [← waiting_step hx.1 hx.2 h, and_iff_right (consistent_step hx.1 h)]
    · exact ⟨hstart, nofun, fun h => absurd rfl h⟩
  rw [← hwaiting]
  apply forall₂_congr
  intro x hx
  rw [answersEach_iff_waiting (hall x hx), and_iff_right (hall x hx)]

/-- A server that answers -/
def someServer : SocketAddrV4 := ⟨0x0a000001, 5064⟩

/-- A request is read from the input, and the response to it comes. -/
def responsePass : FindIocPolls := ⟨none, false, 0, .notReady, .found 1 someServer [(0, someServer)]⟩

/-- The stream behind the response: the request has its result, and still has its place in the table. -/
def answeredStream : FindIocStream Unit :=
  { new [someServer] [] 1000 8 1 with
    batchCur := some ⟨[0], ["CHAN"], [0]⟩
    outQueue := [(⟨"CHAN", some someServer, some someServer, 1⟩, ())]
    chnReqs := [⟨"CHAN", 0, 0, none⟩] }

/-- A request that is answered stays in the table. -/
theorem not_answersEach :
    ¬ ∀ (tgts : List SocketAddrV4) (inp : Script (String × Unit)) (searchTimeout batchLenMax searchId : ℕ)
      (ps : List FindIocPolls) (x : List (FindIocItem Unit) × FindIocStream Unit),
      Reached step ps ([], new tgts inp searchTimeout batchLenMax searchId) x → AnswersEach inp.items x := by
  intro h
  have hstep : step responsePass ([], new [someServer] [.ready ("CHAN", ()), .pending] 1000 8 0) =
      some ([], answeredStream) := by decide +kernel
  have hrun : Reached step [responsePass] ([], new [someServer] [.ready ("CHAN", ()), .pending] 1000 8 0)
      ([], answeredStream) := ⟨[responsePass], List.prefix_rfl, hstep⟩
  have hout := (h _ _ _ _ _ _ _ hrun).tables.1 ⟨"CHAN", 0, 0, none⟩ List.mem_cons_self
  cases hout

end FindIocStream

end Ca
end Daqbuf
