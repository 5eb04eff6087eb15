import PeerProtocol.Peer.Host

/-!
# peer — the host's log

What the host has stamped and sent is final: the mutual queue below
`queueIndex` is a log that only grows. Above it are messages that the host's
application has queued since the last tick, whose time is not set yet, and
which no packet has carried.

This is the one place where the order of all messages is decided. A result
about what clients see therefore has two halves: that everything a host sends
is a piece of its log, at its index, which is shown here; and that clients
store nothing else, which needs the packets to come from the host
(`World.Agreement`).

To say that a packet carries an entry, the entry has to survive the header:
its time and its actor id must fit their fields, and its index must be a
64-bit number. `WireLog` collects that, and `HostMay` is what it asks of the
host's application: messages of at most 355 bytes, and no more messages or
slots than can be counted.

## Results

* `Peer.log` — the log of a host; `log_prefix` — every action keeps or extends
  it.
* `HostChunk` — the chunks that go out of a host: heartbeats, session
  responses, and entries of its log at their index. `HostInv.hostPackets_act`
  — packets of such chunks are all that goes out.
* `WireHost.act` — the step lemma of a host whose log can be sent. The modules
  about a host and its clients start from it.
-/

namespace PeerProtocol

open Lib

/-- What a message says, whether or not it is ready: in a host's mutual queue all
are. -/
def PeerMessage.content (m : PeerMessage) : Entry where
  time := m.time
  actor := m.actor
  data := m.data

/-- A ready message is determined by what it says. -/
theorem message_content {m : PeerMessage} (h : m.isReady = true) : m.content.message = m := by
  obtain ⟨isReady, time, actor, data⟩ := m
  cases h
  rfl

/-- The final part of the mutual queue: the messages below the index up to which it
is stamped. What is behind has no time yet, and is not sent before the next tick. -/
def Peer.log (peer : Peer) : List Entry := (peer.queue.take peer.queueIndex).map (·.content)

/-- The log has an entry for each of them. -/
theorem HostInv.length_log {peer : Peer} (h : HostInv peer) : peer.log.length = peer.queueIndex := by
  have := h.queueIndex
  rw [Peer.log, List.length_map, List.length_take]
  omega

/-- An entry of the log is the message of the mutual queue at its index. -/
theorem HostInv.getElem?_of_log {peer : Peer} (h : HostInv peer) {k : Nat} {e : Entry}
    (hEntry : peer.log[k]? = some e) : peer.queue[k]? = some e.message := by
  have hk : k < peer.queueIndex := by
    rw [← h.length_log]
    exact (List.getElem?_eq_some_iff.mp hEntry).1
  rw [Peer.log, List.getElem?_map, List.getElem?_take_of_lt hk] at hEntry
  obtain ⟨m, hm, rfl⟩ := Option.map_eq_some_iff.mp hEntry
  rw [hm, message_content (h.entry m (List.mem_of_getElem? hm)).ready]

-- ---------------------------------------------------------------------------
-- The log grows
-- ---------------------------------------------------------------------------

/-- After a tick everything in the mutual queue is final: it was stamped or merged
just now. -/
theorem log_of_ticked {peer peer' : Peer} {e : Int} (hTicked : HostTicked peer e peer') :
    peer'.log = peer'.queue.map (·.content) := by
  rw [Peer.log, hTicked.queueIndex, List.take_length]

/-- A tick stamps and appends behind the log. -/
theorem log_prefix_tick {peer peer' : Peer} {e : Int} (h : HostInv peer)
    (hTicked : HostTicked peer e peer') : peer.log <+: peer'.log := by
  have hTake : peer.queue.take peer.queueIndex = peer'.queue.take peer.queueIndex := by
    refine List.ext_getElem? fun k => ?_
    have hLen := h.queueIndex
    rcases Nat.lt_or_ge k peer.queueIndex with hk | hk
    · rw [List.getElem?_take_of_lt hk, List.getElem?_take_of_lt hk, hTicked.queue,
        getElem?_merged_queue (by omega)]
      simp [hk]
    · rw [List.getElem?_eq_none (by rw [List.length_take]; omega),
        List.getElem?_eq_none (by rw [List.length_take]; omega)]
  rw [log_of_ticked hTicked, Peer.log, hTake]
  exact (List.take_prefix _ _).map _

/-- **The log only grows**, whatever a host is asked to do, and whatever comes in:
entries are appended by a tick, and an entry that is stamped is not touched again. -/
theorem log_prefix {peer peer' : Peer} {a : PeerAction} {s : Status} {ps : List PeerPacket}
    (h : HostInv peer) (hAct : peer.act a = .ok (s, ps, peer')) :
    peer.log <+: peer'.log := by
  have hCase := Peer.act_cases hAct
  cases a with
  | openSlots ids =>
    obtain ⟨_, rfl⟩ := hCase
    rw [peerOpen_reliable h.alloc]
    exact List.prefix_rfl
  | queue messageData =>
    obtain ⟨_, rfl⟩ := hCase
    cases messageData with
    | none => exact List.prefix_rfl
    | some data =>
      rw [peerQueue_host h.mode h.alloc]
      unfold Peer.log
      -- a new message is behind what was merged
      rw [List.take_append_of_le_length h.queueIndex]
  | input packets =>
    obtain ⟨hQueue, hIndex, _⟩ := peerInput_host_queue h.mode hCase.2
    rw [Peer.log, Peer.log, hQueue, hIndex]
  | tick e =>
    by_cases hValid : ValidElapsed peer e
    · exact log_prefix_tick h (h.ticked hValid hCase)
    · obtain ⟨_, _, rfl⟩ := eq_of_peerTick_invalid hValid hCase
      exact List.prefix_rfl
  | connect serverId =>
    obtain ⟨_, rfl⟩ := hCase
    obtain ⟨i, hConnect⟩ := peerConnect_modifies peer serverId
    rw [hConnect]
    exact List.prefix_rfl
  | setAddress j size data =>
    obtain ⟨_, rfl⟩ := hCase
    exact List.prefix_rfl
  | resolve j id =>
    obtain ⟨_, rfl⟩ := hCase
    exact List.prefix_rfl

-- ---------------------------------------------------------------------------
-- What goes out
-- ---------------------------------------------------------------------------

/-- An entry that survives the header fields of a message, and whose data fits a
packet: what is read from its chunk is the entry. -/
structure WireEntry (e : Entry) : Prop where
  time : IsInt64 e.time
  actor : ActorFits e.actor
  small : e.data.length ≤ peerMaxMessageSize

/-- A log whose entries do, and whose indices do. -/
structure WireLog (log : List Entry) : Prop where
  length_le : (log.length : Int) ≤ int64Max
  entry : ∀ e ∈ log, WireEntry e

/-- The chunks that a host with this log sends. Any of the three may come from any
tick, so an old packet is of this kind as well, by `HostChunk.mono`. -/
inductive HostChunk (log : List Entry) : Chunk → Prop where
  | heartbeat {time actor : Int} (hTime : IsInt64 time) : HostChunk log (heartbeatChunk time actor)
  | response {time : Int} {slot : PeerSlot} (hTime : IsInt64 time)
      (hAddress : slot.localEnd.AddressFits) : HostChunk log (sessionResponseChunk time slot)
  | entry {k : Nat} {e : Entry} (hEntry : log[k]? = some e) : HostChunk log (e.message.chunk k)

/-- A packet that carries such chunks, and nothing else behind its header. -/
def HostPacket (log : List Entry) (p : PeerPacket) : Prop :=
  ∃ src dst cs, Sealed src dst p cs ∧ ∀ c ∈ cs, HostChunk log c

/-- What was a chunk of the log stays one when the log grows. -/
theorem HostChunk.mono {log log' : List Entry} (hPrefix : log <+: log') {c : Chunk}
    (h : HostChunk log c) : HostChunk log' c := by
  cases h with
  | heartbeat hTime => exact .heartbeat hTime
  | response hTime hAddress => exact .response hTime hAddress
  | entry hEntry => exact .entry (getElem?_of_isPrefix hPrefix hEntry)

/-- The same for a packet, however long it is under way. -/
theorem HostPacket.mono {log log' : List Entry} (hPrefix : log <+: log') {p : PeerPacket}
    (h : HostPacket log p) : HostPacket log' p := by
  obtain ⟨src, dst, cs, hSealed, hChunks⟩ := h
  exact ⟨src, dst, cs, hSealed, fun c hc => (hChunks c hc).mono hPrefix⟩

/-- The log of a host whose messages fit packets, and whose queue's size fits its type. -/
theorem HostInv.wireLog {peer : Peer} (h : HostInv peer) (hActors : ActorsFit peer)
    (hSmall : ∀ m ∈ peer.queue, m.Small) (hQueue : (peer.queue.length : Int) ≤ int64Max) :
    WireLog peer.log where
  length_le := by
    have := h.queueIndex
    rw [h.length_log]
    omega
  entry := by
    intro e he
    obtain ⟨m, hm, rfl⟩ := List.mem_map.mp he
    have hMem := List.mem_of_mem_take hm
    have hTime := (h.entry m hMem).time
    refine ⟨?_, hActors.entry m hMem, hSmall m hMem⟩
    simp only [IsInt64, PeerMessage.content]
    omega

/-- The chunks of a queue whose entries are the log are chunks of the log. -/
theorem hostChunk_of_mem_chunksAt {peer : Peer} (h : HostInv peer)
    (hFinal : peer.log = peer.queue.map (·.content)) {ks : List Nat} {c : Chunk}
    (hc : c ∈ chunksAt peer.queue ks) : HostChunk peer.log c := by
  obtain ⟨k, m, _, hm, rfl⟩ := mem_chunksAt.mp hc
  rw [← message_content (h.entry m (List.mem_of_getElem? hm)).ready]
  refine .entry ?_
  rw [hFinal, List.getElem?_map, hm]
  rfl

/-- **What a host sends**: a tick sends packets of such chunks only, each with
entries of the log as it is after the tick. -/
theorem peerTick_hostPackets {peer peer' : Peer} {e : Int} {s : Status} {ps : List PeerPacket}
    (h : HostInv peer) (hSmall : ∀ m ∈ peer.queue, m.Small)
    (hTick : peerTick peer e = .ok (s, ps, peer')) : ∀ p ∈ ps, HostPacket peer'.log p := by
  by_cases hValid : ValidElapsed peer e
  · have hSends := (h.toHostSendInv.sends hSmall hValid hTick).2
    have hInv := h.tick hTick
    have hFinal := log_of_ticked (h.ticked hValid hTick)
    have hTime := h.isInt64_time hValid hTick
    intro p hp
    obtain ⟨j, slot, slot', ps, _, hSlot, hMem, hSend⟩ := hSends.ofSlot p hp
    -- chunk by chunk: a response, entries of the log, or a heartbeat with some of them
    cases hSend with
    | idle => cases hMem
    | response _ hCarried =>
      obtain ⟨cs, hSealed, hSub⟩ := hCarried.of_mem hMem
      refine ⟨_, _, cs, hSealed, fun c hc => ?_⟩
      rw [List.mem_singleton.mp (hSub c hc)]
      refine .response hTime ?_
      simpa using (h.slot slot (List.mem_of_getElem? hSlot)).address
    | messages rng _ _ hCarried =>
      obtain ⟨cs, hSealed, hSub⟩ := hCarried.of_mem hMem
      exact ⟨_, _, cs, hSealed, fun c hc => hostChunk_of_mem_chunksAt hInv hFinal (hSub c hc)⟩
    | heartbeat rng _ _ _ hCarried =>
      obtain ⟨cs, hSealed, hSub⟩ := hCarried.of_mem hMem
      refine ⟨_, _, cs, hSealed, fun c hc => ?_⟩
      rcases List.mem_cons.mp (hSub c hc) with rfl | hTrail
      · exact .heartbeat hTime
      · exact hostChunk_of_mem_chunksAt hInv hFinal hTrail
  · obtain ⟨_, rfl, _⟩ := eq_of_peerTick_invalid hValid hTick
    simp

/-- Only a tick sends, and what it sends are chunks of the log after the tick. -/
theorem HostInv.hostPackets_act {peer peer' : Peer} {a : PeerAction} {s : Status}
    {ps : List PeerPacket} (h : HostInv peer) (hSmall : ∀ m ∈ peer.queue, m.Small)
    (hAct : peer.act a = .ok (s, ps, peer')) : ∀ p ∈ ps, HostPacket peer'.log p := by
  have hCase := Peer.act_cases hAct
  cases a with
  | tick e => exact peerTick_hostPackets h hSmall hCase
  | _ =>
    obtain ⟨rfl, _⟩ := hCase
    simp

-- ---------------------------------------------------------------------------
-- Messages that fit
-- What is asked of the application, and what a tick makes of it.
-- ---------------------------------------------------------------------------

/-- The data given to `peer_queue` fits a packet. The code does not check it: a
larger message is accepted, and found out when it is packed. -/
def PeerAction.QueuesSmall : PeerAction → Prop
  | .queue (some messageData) => messageData.length ≤ peerMaxMessageSize
  | _ => True

instance : (a : PeerAction) → Decidable a.QueuesSmall
  | .queue (some messageData) =>
    inferInstanceAs (Decidable (messageData.length ≤ peerMaxMessageSize))
  | .queue none | .openSlots _ | .connect _ | .input _ | .tick _ | .setAddress _ _ _
  | .resolve _ _ => .isTrue trivial

/-- What the merge appends has come in a packet, so it fits one. -/
theorem HostInv.small_tick {peer peer' : Peer} {e : Int} {s : Status} {ps : List PeerPacket}
    (h : HostInv peer) (hSmall : ∀ m ∈ peer.queue, m.Small)
    (hTick : peerTick peer e = .ok (s, ps, peer')) : ∀ m ∈ peer'.queue, m.Small := by
  by_cases hValid : ValidElapsed peer e
  · rw [(h.ticked hValid hTick).queue]
    exact h.toHostSendInv.small_merged.mpr hSmall
  · obtain ⟨_, _, rfl⟩ := eq_of_peerTick_invalid hValid hTick
    exact hSmall

/-- The mutual queue of a host keeps messages that fit: its own application is asked
for them, and what is merged has come in packets. -/
theorem HostInv.small_act {peer peer' : Peer} {a : PeerAction} {s : Status} {ps : List PeerPacket}
    (h : HostInv peer) (hQueues : a.QueuesSmall) (hSmall : ∀ m ∈ peer.queue, m.Small)
    (hAct : peer.act a = .ok (s, ps, peer')) : ∀ m ∈ peer'.queue, m.Small := by
  have hCase := Peer.act_cases hAct
  cases a with
  | openSlots ids =>
    obtain ⟨_, rfl⟩ := hCase
    rw [peerOpen_reliable h.alloc]
    exact hSmall
  | queue messageData =>
    obtain ⟨_, rfl⟩ := hCase
    cases messageData with
    | none => exact hSmall
    | some data =>
      rw [peerQueue_host h.mode h.alloc]
      intro m hm
      rcases List.mem_append.mp hm with hOld | hNew
      · exact hSmall m hOld
      · rw [List.mem_singleton.mp hNew]
        exact hQueues
  | input packets =>
    -- the input of a host goes to its slots
    rw [(peerInput_host_queue h.mode hCase.2).1]
    exact hSmall
  | tick e => exact h.small_tick hSmall hCase
  | connect serverId =>
    obtain ⟨_, rfl⟩ := hCase
    obtain ⟨i, hConnect⟩ := peerConnect_modifies peer serverId
    rw [hConnect]
    exact hSmall
  | setAddress j size data =>
    obtain ⟨_, rfl⟩ := hCase
    exact hSmall
  | resolve j id =>
    obtain ⟨_, rfl⟩ := hCase
    exact hSmall

-- ---------------------------------------------------------------------------
-- A host that speaks
-- ---------------------------------------------------------------------------

/-- A step of a host after which its log can still be sent: messages fit
packets, the queue has a size that `ptrdiff_t` has, and packets come from
sources with an id, or there are no more slots than actor ids. -/
structure HostMay (a : PeerAction) (host' : Peer) : Prop where
  queues : a.QueuesSmall
  size : (host'.queue.length : Int) ≤ int64Max
  actors : a.IsHostStep ∨ host'.slots.length ≤ 0x100000000

instance (a : PeerAction) (host' : Peer) : Decidable (HostMay a host') :=
  decidable_of_iff (a.QueuesSmall ∧ (host'.queue.length : Int) ≤ int64Max ∧
    (a.IsHostStep ∨ host'.slots.length ≤ 0x100000000))
    ⟨fun h => ⟨h.1, h.2.1, h.2.2⟩, fun h => ⟨h.queues, h.size, h.actors⟩⟩

/-- A host whose log can be sent: the invariant of a host, with what the wire needs.
The second field is about slots, too, since the next entries get their actor ids
from these. -/
structure WireHost (peer : Peer) : Prop extends HostInv peer where
  actors : ActorsFit peer
  small : ∀ m ∈ peer.queue, m.Small
  wire : WireLog peer.log

/-- A new host has an empty log. -/
theorem wireHost_peerInit (rng : Mt64) : WireHost (peerInit .host .reliable rng) where
  toHostInv := hostInv_peerInit rng
  actors := actorsFit_peerInit ..
  small := by simp [peerInit]
  wire := ⟨by simp [peerInit, Peer.log, int64Max], by simp [peerInit, Peer.log]⟩

/-- **Step lemma of a host's log**: what the host may do keeps it one whose log can
be sent. -/
theorem WireHost.act {peer peer' : Peer} {a : PeerAction} {s : Status} {ps : List PeerPacket}
    (h : WireHost peer) (hMay : HostMay a peer') (hAct : peer.act a = .ok (s, ps, peer')) :
    WireHost peer' := by
  have hInv := h.toHostInv.act hAct
  have hActors := h.actors.act h.toHostInv hMay.actors hAct
  have hSmall := h.toHostInv.small_act hMay.queues h.small hAct
  exact ⟨hInv, hActors, hSmall, hInv.wireLog hActors hSmall hMay.size⟩

end PeerProtocol
