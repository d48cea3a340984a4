import Daqbuf.Connset.Channel
/-!
# The Connection Set

The connection set owns the channels and the connections to their servers.  It polls both: a channel
that has found its address is added to the connection to that address, which is made when there is none,
and a connection that ends takes its channels back to their beginning.  A connection without channels is
told to shut down.

Main results:

- Theorem {lit}`ConnSet.consistent_run`: the connection set does not panic and every observing channel
  has a registered connection, in every run in which no channel finds the address of a connection that
  is shutting down.
- Theorem {lit}`ConnSet.not_consistent_run`: a run in which one does.
-/

namespace Daqbuf
namespace Connset

open Ca (SocketAddrV4)
open Poll

/-! ## Maps ordered by their keys -/

section Map

variable {κ ν : Type} [DecidableEq κ]

/-- Puts an entry where its key belongs. -/
def insertAt (before : κ → κ → Bool) (k : κ) (v : ν) : List (κ × ν) → List (κ × ν)
  | [] => [(k, v)]
  | e :: es =>
    if e.1 = k then (k, v) :: es
    else if before k e.1 then (k, v) :: e :: es
    else e :: insertAt before k v es

/-- The new entry is in the map, and every other one was. -/
theorem mem_insertAt {before : κ → κ → Bool} {k : κ} {v : ν} {es : List (κ × ν)} {e : κ × ν}
    (he : e ∈ insertAt before k v es) : e = (k, v) ∨ e ∈ es := by
  induction es with
  | nil => simpa [insertAt] using he
  | cons e' es ih =>
      rw [insertAt] at he
      split at he
      · rcases List.mem_cons.mp he with he | he
        · exact .inl he
        · exact .inr (List.mem_cons_of_mem _ he)
      · split at he
        · rcases List.mem_cons.mp he with he | he
          · exact .inl he
          · exact .inr he
        · rcases List.mem_cons.mp he with rfl | he
          · exact .inr List.mem_cons_self
          · exact (ih he).imp_right (List.mem_cons_of_mem _)

/-- The keys of a map with a new entry. -/
theorem mem_keys_insertAt {before : κ → κ → Bool} {k k' : κ} {v : ν} {es : List (κ × ν)} :
    k' ∈ (insertAt before k v es).map Prod.fst ↔ k' = k ∨ k' ∈ es.map Prod.fst := by
  induction es with
  | nil => simp [insertAt]
  | cons e es ih =>
      rw [insertAt]
      split
      case isTrue heq => simp [heq]
      case isFalse hne =>
        split
        · simp
        · rw [List.map_cons, List.mem_cons, ih, List.map_cons, List.mem_cons]
          exact or_left_comm

/-- What is looked up has a key. -/
theorem mem_keys_of_lookup {k : κ} {v : ν} {es : List (κ × ν)} (hlookup : es.lookup k = some v) :
    k ∈ es.map Prod.fst := by
  rcases List.lookup_eq_some_iff.mp hlookup with ⟨before, after, rfl, -⟩
  simp

end Map

/-! ## The state -/

/-- {lit}`ChannelCat` -/
structure ChannelCat where
  channel : Channel
  removeOnShutdownSent : Bool
  deriving DecidableEq, Repr

/-- {lit}`CaConnReg`, the registration of a connection -/
structure CaConnReg where
  shuttingDown : Bool
  deriving DecidableEq, Repr

/-- {lit}`State` of the connection set -/
inductive SetState where
  | running
  | shutdown
  | shutdown2
  | done
  deriving DecidableEq, Repr

/-- The future that {lit}`poll_channels` hands out: a command to a connection, or nothing to do. -/
inductive ChannelFut where
  | channelAdd (name : String) (addr : SocketAddrV4)
  | channelRemove (name : String) (addr : SocketAddrV4)
  | ready
  deriving DecidableEq, Repr

/-- {lit}`ConnSet`.  Of the other futures it matters only whether there are any. -/
structure ConnSet where
  state : SetState
  channels : List (String × ChannelCat)
  caConns : List (SocketAddrV4 × CaConnReg)
  cmderCmdFut : Bool
  cmdFutChannel : Option ChannelFut
  cmdFutComm : Bool
  shutdownFut : Bool
  connIdleDisconnectFuts : List SocketAddrV4
  outBuf : ℕ
  deriving DecidableEq, Repr

/-- {lit}`ConnSetCmdKind`; the commands that ask for information are one. -/
inductive ConnSetCmd where
  | channelAdd (name : String)
  | channelRemove (name : String)
  | shutdown
  | info
  deriving DecidableEq, Repr

/-- {lit}`CaConnItem` -/
inductive CaConnItem where
  | statusInfo
  | channelInfoQuery
  | testValue
  | localLog
  | channelEventValue
  deriving DecidableEq, Repr

/-- What a connection gives when it is polled. -/
inductive ConnPoll where
  | pending
  | items (xs : List CaConnItem)
  | error
  | done
  deriving DecidableEq

/-- What the connection set finds in one round of {lit}`poll_conn_comm`: the future, which can fail, and
its connections. -/
structure CommPolls where
  fut : Option (Except Unit Unit)
  conn : SocketAddrV4 → ConnPoll

/-- What the connection set finds in one pass of its loop. -/
structure SetPolls where
  cmd : Option (Option ConnSetCmd)
  cmderFut : Option (Except Unit Unit)
  channelFut : Option (Except Unit Unit)
  channel : String → Polls
  comm : List CommPolls
  idleFut : Bool
  shutdownFut : Option (Except Unit Unit)

/-- Addresses are ordered by the host and then the port. -/
def addrBefore (a b : SocketAddrV4) : Bool := a.ip < b.ip ∨ a.ip = b.ip ∧ a.port < b.port

namespace Channel

/-- {lit}`poll`: a pass that goes round again has put something into the local log, which the next pass
hands out. -/
def poll (s : Channel) (p : Polls) : Pass Channel ChannelActionItem :=
  match s.pass p with
  | .again t => t.pass p
  | r => r

end Channel

namespace ConnSet

/-- {lit}`ConnSet::new` -/
def new : ConnSet := ⟨.running, [], [], false, none, false, false, [], 0⟩

/-! ## The channels -/

/-- What the loop over the channels leaves: the channels, the names of those that are done, the
connections, whether a channel gave anything, and the future that ended the loop. -/
structure Polled where
  channels : List (String × ChannelCat)
  removeNames : List String
  caConns : List (SocketAddrV4 × CaConnReg)
  progress : Bool
  item : Option ChannelFut

/-- A channel was polled before the others. -/
def Polled.cons (e : String × ChannelCat) (progress : Bool) (r : Polled) : Polled :=
  { r with channels := e :: r.channels, progress := progress || r.progress }

/-- The loop over the channels in {lit}`poll_channels`; {lit}`none` where it panics. -/
def pollChannelsLoop (polls : String → Polls) :
    List (String × ChannelCat) → List (SocketAddrV4 × CaConnReg) → Option Polled
  | [], conns => some ⟨[], [], conns, false, none⟩
  | (name, cat) :: rest, conns =>
    match cat.channel.poll (polls name) with
    | .item (.addToCaConn conf addr) ch =>
      match conns.lookup addr with
      | some reg =>
        -- a `todo!()` for the case that the connection is shutting down
        if reg.shuttingDown then none
        else some ⟨(name, { cat with channel := ch }) :: rest, [], conns, true,
          some (.channelAdd conf addr)⟩
      | none =>
        some ⟨(name, { cat with channel := ch }) :: rest, [], insertAt addrBefore addr ⟨false⟩ conns,
          true, some (.channelAdd conf addr)⟩
    | .item (.removeFromCaConn conf reminfo) ch =>
      match reminfo.addr.filter fun addr => (conns.lookup addr).isSome with
      | some addr =>
        some ⟨(name, { cat with channel := ch }) :: rest, [], conns, true,
          some (.channelRemove conf addr)⟩
      | none => (pollChannelsLoop polls rest conns).map (.cons (name, { cat with channel := ch }) true)
    | .item .localLog ch =>
      (pollChannelsLoop polls rest conns).map (.cons (name, { cat with channel := ch }) true)
    | .done ch =>
      (pollChannelsLoop polls rest conns).map fun r =>
        { r.cons (name, { cat with channel := ch }) false with removeNames := name :: r.removeNames }
    | .pending ch | .again ch =>
      (pollChannelsLoop polls rest conns).map (.cons (name, { cat with channel := ch }) false)
    | .panic => none

/-- {lit}`poll_channels`, and its future in {lit}`cmd_fut_channel` -/
def pollChannels (polls : String → Polls) (s : ConnSet) : Option ConnSet :=
  (pollChannelsLoop polls s.channels s.caConns).map fun r =>
    { s with
      channels := r.channels.filter fun e => e.1 ∉ r.removeNames
      caConns := r.caConns
      cmdFutChannel := r.item.or (if r.progress then some .ready else none) }

/-- {lit}`poll_channels_outer`; a future that fails ends the connection set. -/
def pollChannelsOuter (polls : SetPolls) (s : ConnSet) : Option ConnSet :=
  match s.cmdFutChannel with
  | some _ =>
    match polls.channelFut with
    | some (.ok _) => some { s with cmdFutChannel := none }
    | some (.error _) => some { s with state := .done }
    | none => some s
  | none => pollChannels polls.channel s

/-! ## The connections -/

/-- What a connection's item adds to the output. -/
def outputs : CaConnItem → ℕ
  | .testValue | .channelEventValue => 1
  | .statusInfo | .channelInfoQuery | .localLog => 0

/-- What the loop over the connections finds. -/
structure Comm where
  ended : List SocketAddrV4
  failed : List SocketAddrV4
  fut : Bool
  out : ℕ

/-- The loop over the connections in {lit}`poll_conn_comm`, which ends at the first that is done. -/
def pollConns (conn : SocketAddrV4 → ConnPoll) : List (SocketAddrV4 × CaConnReg) → Comm
  | [] => ⟨[], [], false, 0⟩
  | (addr, _) :: rest =>
    match conn addr with
    | .pending => pollConns conn rest
    | .items xs =>
      let r := pollConns conn rest
      { r with fut := r.fut || xs.contains .channelInfoQuery, out := (xs.map outputs).sum + r.out }
    | .error =>
      let r := pollConns conn rest
      { r with failed := addr :: r.failed }
    | .done => ⟨[addr], [], true, 0⟩

/-- The channels that a connection which went down is signalled to. -/
def signalDown (addr : SocketAddrV4) (e : String × ChannelCat) : String × ChannelCat :=
  if e.2.channel.currentAddr = some addr then
    (e.1, { e.2 with channel := e.2.channel.signalCaConnDown })
  else e

/-- Connections are taken out of the registry, and then their channels are told that they went down. -/
def dropConns (addrs : List SocketAddrV4) (s : ConnSet) : ConnSet :=
  { s with
    caConns := addrs.foldl (fun conns addr => conns.filter fun e => e.1 ≠ addr) s.caConns
    channels := addrs.foldl (fun channels addr => channels.map (signalDown addr)) s.channels }

/-- One round of the loop of {lit}`poll_conn_comm`, with whether it fails. -/
def pollConnCommRound (polls : CommPolls) (s : ConnSet) : Bool × ConnSet :=
  if s.cmdFutComm then
    match polls.fut with
    | some (.ok _) => (false, { s with cmdFutComm := false })
    | some (.error _) => (true, { s with cmdFutComm := false })
    | none => (false, s)
  else
    let r := pollConns polls.conn s.caConns
    (false, { s with cmdFutComm := r.fut, outBuf := s.outBuf + r.out }.dropConns (r.ended ++ r.failed))

/-- {lit}`poll_conn_comm`, with whether it fails -/
def pollConnComm : List CommPolls → ConnSet → Bool × ConnSet
  | [], s => (false, s)
  | polls :: rest, s =>
    if (pollConnCommRound polls s).1 then pollConnCommRound polls s
    else pollConnComm rest (pollConnCommRound polls s).2

/-- The number of channels with the address. -/
def channelsAt (s : ConnSet) (addr : SocketAddrV4) : ℕ :=
  s.channels.countP fun e => e.2.channel.currentAddr = some addr

/-- {lit}`check_idle_caconn`: one connection without channels is told to shut down. -/
def checkIdleCaconn (s : ConnSet) : ConnSet :=
  if 1 ≤ s.connIdleDisconnectFuts.length then s
  else
    match s.caConns.find? fun e => s.channelsAt e.1 = 0 ∧ ¬ e.2.shuttingDown with
    | none => s
    | some e =>
      { s with
        caConns := s.caConns.map fun e' => if e'.1 = e.1 then (e'.1, ⟨true⟩) else e'
        connIdleDisconnectFuts := s.connIdleDisconnectFuts ++ [e.1] }

/-- {lit}`poll_conn_idle_disconnect_futs` -/
def pollConnIdleDisconnectFuts (ready : Bool) (s : ConnSet) : ConnSet :=
  if ready then { s with connIdleDisconnectFuts := s.connIdleDisconnectFuts.tail } else s

/-! ## Commands -/

/-- {lit}`handle_channel_add` -/
def handleChannelAdd (name : String) (s : ConnSet) : ConnSet :=
  if name ∈ s.channels.map Prod.fst then s
  else { s with channels := insertAt (· < ·) name ⟨Channel.new name, false⟩ s.channels }

/-- {lit}`handle_cmder_cmd` -/
def handleCmderCmd (cmd : ConnSetCmd) (s : ConnSet) : ConnSet :=
  match cmd with
  | .channelAdd name => s.handleChannelAdd name
  -- the future sends the remove to the channel, whose passes find it
  | .channelRemove _ => { s with cmderCmdFut := true }
  | .shutdown => if s.state = .running then { s with state := .shutdown } else s
  | .info => { s with cmderCmdFut := true }

/-- {lit}`poll_cmder`, with whether it fails -/
def pollCmder (polls : SetPolls) (s : ConnSet) : Bool × ConnSet :=
  if s.cmderCmdFut then
    match polls.cmderFut with
    | some (.ok _) => (false, { s with cmderCmdFut := false })
    | some (.error _) => (true, { s with cmderCmdFut := false })
    | none => (false, s)
  else if s.state = .running then
    match polls.cmd with
    | some (some cmd) => (false, s.handleCmderCmd cmd)
    | _ => (false, s)
  else (false, s)

/-! ## The loop -/

/-- {lit}`poll_common` after the commands, with whether it fails; {lit}`none` where it panics. -/
def pollRest (polls : SetPolls) (s : ConnSet) : Option (Bool × ConnSet) :=
  (s.pollChannelsOuter polls).map fun t =>
    if t.state = .done then (true, t)
    else if (t.pollConnComm polls.comm).1 then t.pollConnComm polls.comm
    else (false, (t.pollConnComm polls.comm).2.checkIdleCaconn.pollConnIdleDisconnectFuts polls.idleFut)

/-- {lit}`poll_common` -/
def pollCommon (polls : SetPolls) (s : ConnSet) : Option (Bool × ConnSet) :=
  if s.state = .running ∨ s.state = .shutdown then
    if (s.pollCmder polls).1 then some (s.pollCmder polls) else (s.pollCmder polls).2.pollRest polls
  else s.pollRest polls

/-- {lit}`poll_shutdown_issue_all_removes`: each channel is sent a remove, one after the other, and then
the shutdown goes on. -/
def pollShutdownIssueAllRemoves (polls : SetPolls) (s : ConnSet) : ConnSet :=
  if s.shutdownFut then
    match polls.shutdownFut with
    | some (.ok _) => { s with shutdownFut := false }
    | some (.error _) => { s with shutdownFut := false, state := .done }
    | none => s
  else if s.channels.all fun e => e.2.removeOnShutdownSent then { s with state := .shutdown2 }
  else
    let i := s.channels.findIdx fun e => !e.2.removeOnShutdownSent
    { s with
      channels := s.channels.modify i fun e => (e.1, { e.2 with removeOnShutdownSent := true })
      shutdownFut := true }

/-- One pass of the loop of {lit}`poll_next`; {lit}`none` where it panics. -/
def pass (polls : SetPolls) (s : ConnSet) : Option ConnSet :=
  if s.outBuf ≠ 0 then some { s with outBuf := 0 }
  else
    match s.state with
    | .running | .shutdown2 => (s.pollCommon polls).map Prod.snd
    | .shutdown => (s.pollCommon polls).map fun r =>
        if r.1 then r.2 else r.2.pollShutdownIssueAllRemoves polls
    | .done => some s

/-- The connection set as a machine, of which a panic is seen. -/
def machine : Machine ConnSet SetPolls Unit where
  step polls s :=
    match s.pass polls with
    | some t => ([], t)
    | none => ([()], s)

end ConnSet

/-! ## Channels that find their address -/

namespace Channel

/-- The address that the channel finds in this pass. -/
def found (p : Polls) (s : Channel) : Option SocketAddrV4 :=
  match s.state, p.addr with
  | .addrSearch _ _, some (.ok addr) => if s.llog = 0 ∧ ¬ Accepts p s then some addr else none
  | _, _ => none

/-- A channel that finds an address has searched it. -/
theorem state_of_found {p : Polls} {s : Channel} {addr : SocketAddrV4} (hfound : found p s = some addr) :
    ∃ cssid chi, s.state = .addrSearch cssid chi := by
  unfold found at hfound
  split at hfound
  · exact ⟨_, _, by assumption⟩
  · cases hfound

/-- What a poll leads to: only a channel that finds its address is added to a connection, and no other
one begins to observe. -/
def Honest (p : Polls) (s : Channel) : Pass Channel ChannelActionItem → Prop
  | .item (.addToCaConn _ addr) t => found p s = some addr ∧ ∃ cssid, t.state = .observing cssid addr
  | .item (.removeFromCaConn _ _) t | .item .localLog t | .again t | .pending t | .done t =>
      ∀ cssid addr, t.state = .observing cssid addr → s.state = .observing cssid addr
  | .panic => False

/-- A pass is honest. -/
theorem honest_pass (p : Polls) (s : Channel) : Honest p s (s.pass p) := by
  by_cases hlog : 0 < s.llog
  · simp [pass, hlog, Honest]
  by_cases haccepts : Accepts p s
  · rw [pass_of_accepts haccepts]
    simp [Honest, transition]
  have hsame := pollCmd_of_not_accepts (by omega) haccepts
  rw [pass, if_neg hlog, hsame]
  generalize (pollCmd p s).1 = hpp
  have hzero : s.llog = 0 := by omega
  cases hstate : s.state <;> simp only [pollState, hstate]
  case addrSearch cssid chi =>
    rcases haddr : p.addr with _ | _ | addr
    · simp only [HaveProgressPending.finish]
      (repeat' split) <;> simp_all [Honest, transition, backoffToUntil]
    · rename_i e
      cases e <;> simp_all [Honest, transition, backoffToUntil]
    · exact ⟨by simp [found, hstate, haddr, hzero, haccepts], cssid, rfl⟩
  all_goals
    simp only [HaveProgressPending.finish, makeState, transition, backoffToUntil]
    (repeat' split) <;> simp_all [Honest]

/-- A pass that goes round again has put something into the local log. -/
theorem llog_of_again {p : Polls} {s t : Channel} (hpass : s.pass p = .again t) : 0 < t.llog := by
  by_cases hlog : 0 < s.llog
  · simp [pass, hlog] at hpass
  by_cases haccepts : Accepts p s
  · rw [pass_of_accepts haccepts, Pass.again.injEq] at hpass
    simp [← hpass, transition]
  have hsame := pollCmd_of_not_accepts (by omega) haccepts
  rw [pass, if_neg hlog, hsame] at hpass
  have hidle : (pollCmd p s).1.progress = false := by
    unfold pollCmd
    split
    · rfl
    · rcases hcmd : p.cmd with _ | _ | _
      · rfl
      · rfl
      · exact absurd ⟨by omega, by assumption, hcmd⟩ haccepts
  cases hstate : s.state <;>
    simp only [pollState, hstate, HaveProgressPending.finish, hidle, transition, backoffToUntil] at hpass <;>
    (repeat' split at hpass) <;> simp_all
  all_goals
    rw [← hpass]
    exact Nat.succ_pos _

/-- A poll is honest. -/
theorem honest_poll (p : Polls) (s : Channel) : Honest p s (s.poll p) := by
  have hpass := honest_pass p s
  unfold poll
  cases hres : s.pass p with
  | again t =>
      have hlog := llog_of_again hres
      rw [hres] at hpass
      simpa [pass, hlog, Honest] using hpass
  | pending t => rwa [hres] at hpass
  | item x t => rwa [hres] at hpass
  | done t => rwa [hres] at hpass
  | panic => rwa [hres] at hpass

end Channel

namespace ConnSet

/-! ## Consistency -/

/-- The registration of the connection whose address the channel finds. -/
def clashing (polls : SetPolls) (s : ConnSet) (e : String × ChannelCat) : Option CaConnReg :=
  (Channel.found (polls.channel e.1) e.2.channel).bind fun addr => s.caConns.lookup addr

/-- No channel that is polled finds the address of a connection that is shutting down. -/
def NoClash (polls : SetPolls) (s : ConnSet) : Prop :=
  s.cmdFutChannel = none → ∀ e ∈ s.channels, clashing polls s e ≠ some ⟨true⟩

instance (polls : SetPolls) (s : ConnSet) : Decidable (NoClash polls s) :=
  inferInstanceAs (Decidable (_ → _))

/-- Channels whose observed addresses are among some addresses. -/
def ObservedIn (channels : List (String × ChannelCat)) (addrs : List SocketAddrV4) : Prop :=
  ∀ e ∈ channels, ∀ cssid addr, e.2.channel.state = .observing cssid addr → addr ∈ addrs

/-- Every observing channel names an address of a registered connection. -/
def Consistent (s : ConnSet) : Prop := ObservedIn s.channels (s.caConns.map Prod.fst)

theorem ObservedIn.mono {channels channels' : List (String × ChannelCat)} {addrs addrs' : List SocketAddrV4}
    (h : ObservedIn channels addrs) (hchannels : ∀ e ∈ channels', e ∈ channels)
    (haddrs : ∀ addr ∈ addrs, addr ∈ addrs') : ObservedIn channels' addrs' :=
  fun e he cssid addr hstate => haddrs addr (h e (hchannels e he) cssid addr hstate)

theorem ObservedIn.cons {e : String × ChannelCat} {channels : List (String × ChannelCat)}
    {addrs : List SocketAddrV4}
    (hhead : ∀ cssid addr, e.2.channel.state = .observing cssid addr → addr ∈ addrs)
    (htail : ObservedIn channels addrs) : ObservedIn (e :: channels) addrs := by
  intro e' he'
  rcases List.mem_cons.mp he' with rfl | he'
  · exact hhead
  · exact htail e' he'

/-- The loop over the channels does not panic, registers what it assigns and drops no connection. -/
theorem pollChannelsLoop_spec {polls : String → Polls} {channels : List (String × ChannelCat)}
    {conns : List (SocketAddrV4 × CaConnReg)}
    (hclash : ∀ e ∈ channels, ((Channel.found (polls e.1) e.2.channel).bind fun addr =>
      conns.lookup addr) ≠ some ⟨true⟩)
    (hobserved : ObservedIn channels (conns.map Prod.fst)) :
    ∃ r, pollChannelsLoop polls channels conns = some r ∧
      (∀ addr ∈ conns.map Prod.fst, addr ∈ r.caConns.map Prod.fst) ∧
      ObservedIn r.channels (r.caConns.map Prod.fst) := by
  induction channels with
  | nil => exact ⟨_, rfl, fun _ h => h, hobserved⟩
  | cons e channels ih =>
      rcases e with ⟨name, cat⟩
      have htail : ObservedIn channels (conns.map Prod.fst) :=
        hobserved.mono (fun e he => List.mem_cons_of_mem _ he) fun _ h => h
      rcases ih (fun e he => hclash e (List.mem_cons_of_mem _ he)) htail with ⟨r, hr, hkeys, hrest⟩
      have hhead := hobserved (name, cat) List.mem_cons_self
      have hhonest := Channel.honest_poll (polls name) cat.channel
      -- a channel that begins no observation goes before the others
      have hplain : ∀ (ch : Channel) (progress : Bool),
          (∀ cssid addr, ch.state = .observing cssid addr →
            cat.channel.state = .observing cssid addr) →
          ObservedIn ((r.cons (name, { cat with channel := ch }) progress).channels)
            (r.caConns.map Prod.fst) := by
        intro ch progress hsame
        exact .cons (fun cssid addr hstate => hkeys addr (hhead cssid addr (hsame cssid addr hstate)))
          hrest
      rw [pollChannelsLoop]
      cases hpoll : cat.channel.poll (polls name) with
      | panic =>
          rw [hpoll] at hhonest
          exact hhonest.elim
      | again ch =>
          rw [hpoll] at hhonest
          exact ⟨r.cons (name, { cat with channel := ch }) false, by rw [hr]; rfl, hkeys,
            hplain ch false hhonest⟩
      | pending ch =>
          rw [hpoll] at hhonest
          exact ⟨r.cons (name, { cat with channel := ch }) false, by rw [hr]; rfl, hkeys,
            hplain ch false hhonest⟩
      | done ch =>
          rw [hpoll] at hhonest
          exact ⟨{ r.cons (name, { cat with channel := ch }) false with
            removeNames := name :: r.removeNames }, by rw [hr]; rfl, hkeys, hplain ch false hhonest⟩
      | item x ch =>
          rw [hpoll] at hhonest
          cases x with
          | localLog =>
              exact ⟨r.cons (name, { cat with channel := ch }) true, by rw [hr]; rfl, hkeys,
                hplain ch true hhonest⟩
          | removeFromCaConn conf reminfo =>
              have hsame : ∀ cssid addr, ch.state = .observing cssid addr →
                  addr ∈ conns.map Prod.fst :=
                fun cssid addr hstate => hhead cssid addr (hhonest cssid addr hstate)
              dsimp only
              split
              · exact ⟨_, rfl, fun _ h => h, .cons hsame htail⟩
              · exact ⟨r.cons (name, { cat with channel := ch }) true, by rw [hr]; rfl, hkeys,
                  hplain ch true hhonest⟩
          | addToCaConn conf addr =>
              rcases hhonest with ⟨hfound, cssid, hstate⟩
              have hassigned : ∀ cssid' addr', ch.state = .observing cssid' addr' → addr' = addr := by
                intro cssid' addr' hstate'
                rw [hstate, State.observing.injEq] at hstate'
                exact hstate'.2.symm
              dsimp only
              split
              · rename_i reg hreg
                have hup : ¬ reg.shuttingDown = true := by
                  intro hdown
                  apply hclash (name, cat) List.mem_cons_self
                  rw [hfound, Option.bind_some, hreg, ← hdown]
                rw [if_neg hup]
                refine ⟨_, rfl, fun _ h => h, .cons (fun cssid' addr' hstate' => ?_) htail⟩
                rw [hassigned cssid' addr' hstate']
                exact mem_keys_of_lookup hreg
              · refine ⟨_, rfl, fun addr' h => mem_keys_insertAt.mpr (.inr h),
                  .cons (fun cssid' addr' hstate' => ?_) ?_⟩
                · rw [hassigned cssid' addr' hstate']
                  exact mem_keys_insertAt.mpr (.inl rfl)
                · exact htail.mono (fun _ h => h) fun addr' h => mem_keys_insertAt.mpr (.inr h)

/-- The futures of the channels keep the connection set consistent. -/
theorem pollChannelsOuter_spec {polls : SetPolls} {s : ConnSet} (hclash : NoClash polls s)
    (hs : s.Consistent) : ∃ t, s.pollChannelsOuter polls = some t ∧ t.Consistent := by
  unfold pollChannelsOuter
  cases hidle : s.cmdFutChannel with
  | some fut =>
      rcases polls.channelFut with _ | e | u
      · exact ⟨_, rfl, hs⟩
      · exact ⟨_, rfl, hs⟩
      · exact ⟨_, rfl, hs⟩
  | none =>
      rcases pollChannelsLoop_spec (hclash hidle) hs with ⟨r, hr, hkeys, hobserved⟩
      refine ⟨_, by rw [pollChannels, hr]; rfl, ?_⟩
      exact hobserved.mono (fun e he => List.mem_of_mem_filter he) fun _ h => h

/-- A channel that observes after a signal did so before, and at another address. -/
theorem signalDown_observing {addr addr' : SocketAddrV4} {cssid : ℕ} {e : String × ChannelCat}
    (hstate : (signalDown addr e).2.channel.state = .observing cssid addr') :
    e.2.channel.state = .observing cssid addr' ∧ addr' ≠ addr := by
  unfold signalDown at hstate
  by_cases hcur : e.2.channel.currentAddr = some addr
  · simp [hcur, Channel.signalCaConnDown] at hstate
  · rw [if_neg hcur] at hstate
    refine ⟨hstate, ?_⟩
    rintro rfl
    simp [Channel.currentAddr, hstate] at hcur

/-- Channels that observe after some signals did so before, and at other addresses. -/
theorem observedIn_signals {addrs known : List SocketAddrV4} {channels : List (String × ChannelCat)}
    (hobserved : ObservedIn channels known) :
    ObservedIn (addrs.foldl (fun channels addr => channels.map (signalDown addr)) channels)
      (known.filter fun addr => addr ∉ addrs) := by
  induction addrs generalizing channels known with
  | nil => simpa using hobserved
  | cons addr addrs ih =>
      have hnext : ObservedIn (channels.map (signalDown addr)) (known.filter fun a => a ≠ addr) := by
        intro e he cssid addr' hstate
        rcases List.mem_map.mp he with ⟨e', he', hsame⟩
        rw [← hsame] at hstate
        rcases signalDown_observing hstate with ⟨hbefore, hne⟩
        exact List.mem_filter.mpr ⟨hobserved e' he' cssid addr' hbefore, by simpa using hne⟩
      refine (ih hnext).mono (fun _ h => h) fun a ha => ?_
      simp only [List.mem_filter, decide_eq_true_eq, List.mem_cons, not_or] at ha ⊢
      exact ⟨ha.1.1, ha.1.2, ha.2⟩

/-- The addresses of the connections that are left. -/
theorem mem_keys_dropped {addrs : List SocketAddrV4} {conns : List (SocketAddrV4 × CaConnReg)}
    {addr : SocketAddrV4} (hmem : addr ∈ conns.map Prod.fst) (hnot : addr ∉ addrs) :
    addr ∈ (addrs.foldl (fun conns addr => conns.filter fun e => e.1 ≠ addr) conns).map Prod.fst := by
  induction addrs generalizing conns with
  | nil => exact hmem
  | cons addr' addrs ih =>
      rw [List.mem_cons, not_or] at hnot
      apply ih ?_ hnot.2
      rcases List.mem_map.mp hmem with ⟨e, he, rfl⟩
      exact List.mem_map_of_mem (List.mem_filter.mpr ⟨he, by simpa using hnot.1⟩)

/-- Connections that go down take their channels with them. -/
theorem consistent_dropConns (addrs : List SocketAddrV4) {s : ConnSet} (hs : s.Consistent) :
    (s.dropConns addrs).Consistent := by
  refine (observedIn_signals hs).mono (fun _ h => h) fun addr haddr => ?_
  simp only [List.mem_filter, decide_eq_true_eq] at haddr
  exact mem_keys_dropped haddr.1 haddr.2

theorem consistent_pollConnCommRound (polls : CommPolls) {s : ConnSet} (hs : s.Consistent) :
    (s.pollConnCommRound polls).2.Consistent := by
  unfold pollConnCommRound
  split
  · rcases polls.fut with _ | e | u <;> exact hs
  · exact consistent_dropConns _ hs

theorem consistent_pollConnComm (polls : List CommPolls) {s : ConnSet} (hs : s.Consistent) :
    (s.pollConnComm polls).2.Consistent := by
  induction polls generalizing s with
  | nil => exact hs
  | cons p polls ih =>
      unfold pollConnComm
      split
      · exact consistent_pollConnCommRound p hs
      · exact ih (consistent_pollConnCommRound p hs)

/-- A connection that is told to shut down stays registered. -/
theorem consistent_checkIdleCaconn {s : ConnSet} (hs : s.Consistent) : s.checkIdleCaconn.Consistent := by
  unfold checkIdleCaconn
  split
  · exact hs
  · split
    · exact hs
    · refine hs.mono (fun _ h => h) fun addr haddr => ?_
      rcases List.mem_map.mp haddr with ⟨e, he, rfl⟩
      rw [List.map_map]
      refine List.mem_map.mpr ⟨e, he, ?_⟩
      simp only [Function.comp]
      split <;> rfl

theorem consistent_pollConnIdleDisconnectFuts (ready : Bool) {s : ConnSet} (hs : s.Consistent) :
    (s.pollConnIdleDisconnectFuts ready).Consistent := by
  unfold pollConnIdleDisconnectFuts
  split <;> exact hs

/-- A new channel observes nothing. -/
theorem mem_channels_pollCmder {polls : SetPolls} {s : ConnSet} {e : String × ChannelCat}
    (he : e ∈ (s.pollCmder polls).2.channels) : e ∈ s.channels ∨ e.2.channel.state = .init := by
  unfold pollCmder at he
  split at he
  · left
    rcases hfut : polls.cmderFut with _ | err | u <;> simpa [hfut] using he
  · split at he
    · rcases hcmd : polls.cmd with _ | _ | cmd
      · left
        simpa [hcmd] using he
      · left
        simpa [hcmd] using he
      · rw [hcmd] at he
        cases cmd with
        | channelAdd name =>
            simp only [handleCmderCmd, handleChannelAdd] at he
            split at he
            · exact .inl he
            · rcases mem_insertAt he with rfl | he
              · exact .inr rfl
              · exact .inl he
        | channelRemove name => exact .inl he
        | shutdown =>
            left
            simp only [handleCmderCmd] at he
            split at he <;> exact he
        | info => exact .inl he
    · exact .inl he

theorem caConns_pollCmder (polls : SetPolls) (s : ConnSet) : (s.pollCmder polls).2.caConns = s.caConns := by
  unfold pollCmder handleCmderCmd handleChannelAdd
  (repeat' split) <;> rfl

theorem cmdFutChannel_pollCmder (polls : SetPolls) (s : ConnSet) :
    (s.pollCmder polls).2.cmdFutChannel = s.cmdFutChannel := by
  unfold pollCmder handleCmderCmd handleChannelAdd
  (repeat' split) <;> rfl

theorem consistent_pollCmder (polls : SetPolls) {s : ConnSet} (hs : s.Consistent) :
    (s.pollCmder polls).2.Consistent := by
  intro e he cssid addr hstate
  rw [caConns_pollCmder]
  rcases mem_channels_pollCmder he with he | hinit
  · exact hs e he cssid addr hstate
  · rw [hinit] at hstate
    cases hstate

/-- Commands bring no channel that finds its address. -/
theorem noClash_pollCmder {polls : SetPolls} {s : ConnSet} (hclash : NoClash polls s) :
    NoClash polls (s.pollCmder polls).2 := by
  intro hidle e he hreg
  rw [cmdFutChannel_pollCmder] at hidle
  rw [clashing, caConns_pollCmder] at hreg
  rcases mem_channels_pollCmder he with he | hinit
  · exact hclash hidle e he hreg
  · rcases Option.bind_eq_some_iff.mp hreg with ⟨addr, hfound, -⟩
    rcases Channel.state_of_found hfound with ⟨cssid, chi, hstate⟩
    rw [hinit] at hstate
    cases hstate

theorem pollRest_spec {polls : SetPolls} {s : ConnSet} (hclash : NoClash polls s) (hs : s.Consistent) :
    ∃ r, s.pollRest polls = some r ∧ r.2.Consistent := by
  rcases pollChannelsOuter_spec hclash hs with ⟨t, ht, hcons⟩
  refine ⟨_, by rw [pollRest, ht]; rfl, ?_⟩
  dsimp only
  split
  · exact hcons
  · split
    · exact consistent_pollConnComm _ hcons
    · exact consistent_pollConnIdleDisconnectFuts _
        (consistent_checkIdleCaconn (consistent_pollConnComm _ hcons))

theorem pollCommon_spec {polls : SetPolls} {s : ConnSet} (hclash : NoClash polls s) (hs : s.Consistent) :
    ∃ r, s.pollCommon polls = some r ∧ r.2.Consistent := by
  unfold pollCommon
  split
  · split
    · exact ⟨_, rfl, consistent_pollCmder polls hs⟩
    · exact pollRest_spec (noClash_pollCmder hclash) (consistent_pollCmder polls hs)
  · exact pollRest_spec hclash hs

/-- The removes of a shutdown change no channel's state. -/
theorem consistent_pollShutdownIssueAllRemoves (polls : SetPolls) {s : ConnSet} (hs : s.Consistent) :
    (s.pollShutdownIssueAllRemoves polls).Consistent := by
  unfold pollShutdownIssueAllRemoves
  split
  · rcases polls.shutdownFut with _ | e | u <;> exact hs
  · split
    · exact hs
    · intro e he cssid addr hstate
      rcases List.mem_iff_getElem?.mp he with ⟨i, hi⟩
      dsimp only at hi
      rw [List.getElem?_modify] at hi
      rcases Option.map_eq_some_iff.mp hi with ⟨e', he', hsame⟩
      have hstate' : e'.2.channel.state = .observing cssid addr := by
        rw [← hstate, ← hsame]
        split <;> rfl
      exact hs e' (List.mem_of_getElem? he') cssid addr hstate'

/-- A pass in which no channel finds the address of a connection that is shutting down does not panic
and keeps the connection set consistent. -/
theorem pass_spec {polls : SetPolls} {s : ConnSet} (hclash : NoClash polls s) (hs : s.Consistent) :
    ∃ t, s.pass polls = some t ∧ t.Consistent := by
  rcases pollCommon_spec hclash hs with ⟨r, hr, hcons⟩
  unfold pass
  split
  · exact ⟨_, rfl, hs⟩
  · cases hstate : s.state with
    | running => exact ⟨_, by rw [hr]; rfl, hcons⟩
    | shutdown2 => exact ⟨_, by rw [hr]; rfl, hcons⟩
    | done => exact ⟨_, rfl, hs⟩
    | shutdown =>
        refine ⟨_, by rw [hr]; rfl, ?_⟩
        dsimp only
        split
        · exact hcons
        · exact consistent_pollShutdownIssueAllRemoves polls hcons

/-- In every run in which no channel finds the address of a connection that is shutting down, the
connection set does not panic and stays consistent. -/
theorem consistent_run (es : List SetPolls) (halong : machine.Along NoClash es new) :
    (machine.run es new).1 = [] ∧ (machine.run es new).2.Consistent := by
  have hnew : new.Consistent := fun e he => absurd he List.not_mem_nil
  have hstep : ∀ polls s, NoClash polls s → s.Consistent → (machine.step polls s).2.Consistent := by
    intro polls s hclash hs
    rcases pass_spec hclash hs with ⟨t, ht, hcons⟩
    simpa only [machine, ht] using hcons
  have hsilent : ∀ polls s, NoClash polls s → s.Consistent → ∀ o ∈ (machine.step polls s).1, False := by
    intro polls s hclash hs o ho
    rcases pass_spec hclash hs with ⟨t, ht, -⟩
    simp only [machine, ht, List.not_mem_nil] at ho
  exact ⟨List.eq_nil_iff_forall_not_mem.mpr fun o ho =>
    Machine.outputs_run hstep hsilent halong hnew o ho, Machine.inv_run hstep halong hnew⟩

/-- A pass that finds nothing. -/
def idlePass : SetPolls :=
  ⟨none, none, none, fun _ => .idle, [⟨none, fun _ => .pending⟩], false, none⟩

/-- A pass in which the channels find something, and the one that takes their future. -/
def channelPass (p : Polls) : List SetPolls :=
  [{ idlePass with channel := fun _ => p }, { idlePass with channelFut := some (.ok ()) }]

/-- A channel is added, its series is found and then its address. -/
def findsAddr (name : String) (addr : SocketAddrV4) : List SetPolls :=
  { idlePass with cmd := some (some (.channelAdd name)) } :: (channelPass .idle ++
    channelPass { Polls.idle with cssid := some (.ok 7) } ++
    channelPass { Polls.idle with addr := some (.ok addr) })

/-- The channels are removed. -/
def removesAll : List SetPolls :=
  channelPass .idle ++ channelPass { Polls.idle with cmd := some (some .remove) } ++
    channelPass .idle ++ channelPass .idle ++ channelPass .idle ++
    channelPass { Polls.idle with removed := true } ++ channelPass .idle ++ channelPass .idle

/-- Another channel finds another address, while the first connection is shutting down. -/
theorem consistent_run_of_other_addr :
    let es := findsAddr "x" ⟨1, 5064⟩ ++ removesAll ++ findsAddr "y" ⟨2, 5064⟩
    (machine.run es new).1 = [] ∧ (machine.run es new).2.Consistent :=
  consistent_run _ (by decide)

/-- When the only channel of a connection was removed, the connection is told to shut down.  A channel
that finds its address before it has ended makes the connection set panic. -/
theorem not_consistent_run : ¬ ∀ es : List SetPolls,
    (machine.run es new).1 = [] ∧ (machine.run es new).2.Consistent := by
  intro hall
  have hsilent := (hall (findsAddr "x" ⟨1, 5064⟩ ++ removesAll ++ findsAddr "y" ⟨1, 5064⟩)).1
  exact absurd hsilent (by decide)

end ConnSet

end Connset
end Daqbuf
