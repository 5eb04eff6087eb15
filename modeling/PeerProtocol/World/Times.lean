import PeerProtocol.Peer.Clocks
import PeerProtocol.Peer.Delivery
import PeerProtocol.Peer.Emission
import PeerProtocol.World.Agreement

/-!
# peer — time stamps

A message is stamped with the time of the host when the host sends it for the
first time, and the stamp goes with it to every client. Time is what the
application says: the host adds up the elapsed times of its ticks, and a
client takes over the greatest time that it finds in a message.

Beside a world we keep the sum of the elapsed times of all ticks of the host
that did not fail. In these terms, for a host that is given any packets and
clients that are given packets of the host:

* `HostTimes` — the host's time is the sum, and its log is in the order of
  time, none later than the sum. What a tick adds has the time of the tick
  (`log_tick`);
* `PacketTimes` — no chunk that the host sends carries a later time;
* `ClientTimes` — a client is not ahead of the host, and not behind any entry
  that it holds;
* `Timed.step` keeps all of this in every move, and says that no time goes
  back (`Onward`);
* `times_of_reaches` puts it into words about queues: entries are stamped in
  order and once and for all, only entries with their final stamp are sent,
  and each entry of a client has the host's stamp for it.

The last but one is not obvious. Messages of the host's own application are in
the mutual queue before they have a stamp, and a tick stamps them before it
packs anything; `SendsFinal` says this of every packet that was ever sent.
-/

namespace PeerProtocol

open Lib

-- ---------------------------------------------------------------------------
-- The sum of the elapsed times
-- ---------------------------------------------------------------------------

/-- The elapsed time of a tick of the host that does not fail, and nothing for other
moves. A tick that `peer_tick` refuses leaves all clocks as they were. -/
def elapsedBy (w : World) : WorldAction → Int
  | .host (.tick e) =>
    match peerTick w.host e with
    | .ok (s, _, _) => if s = kitOk then e else 0
    | .error _ => 0
  | _ => 0

/-- A world, and the sum of the elapsed times so far. -/
abbrev TimedWorld := World × Int

/-- One move, and what it adds to the sum. -/
def timedStep (t : TimedWorld) (a : WorldAction) : Except Fault TimedWorld := do
  let w ← t.1.step a
  return (w, t.2 + elapsedBy t.1 a)

/-- A timed move is a move. -/
theorem timedStep_eq_ok {t t' : TimedWorld} {a : WorldAction} (h : timedStep t a = .ok t') :
    t.1.step a = .ok t'.1 ∧ t'.2 = t.2 + elapsedBy t.1 a := by
  obtain ⟨w, hStep, hEq⟩ := bind_eq_ok.mp h
  obtain rfl : (w, t.2 + elapsedBy t.1 a) = t' := Except.ok.inj hEq
  exact ⟨hStep, rfl⟩

-- ---------------------------------------------------------------------------
-- The host
-- ---------------------------------------------------------------------------

/-- The host's two times are the sum, and those of its log are in order and not
later than it. `sorted` is the order of the log, `bound` lets the next tick add to
it. -/
structure HostTimes (host : Peer) (total : Int) : Prop where
  time : host.time = total
  timeLocal : host.timeLocal = total
  sorted : host.log.Pairwise fun a b => a.time ≤ b.time
  bound : ∀ entry ∈ host.log, entry.time ≤ total

/-- A new host's log is empty. -/
theorem hostTimes_peerInit (rng : Mt64) : HostTimes (peerInit .host .reliable rng) 0 where
  time := rfl
  timeLocal := rfl
  sorted := by simp [Peer.log, peerInit]
  bound := by simp [Peer.log, peerInit]

/-- What a tick adds to the log has the time of the tick. -/
theorem log_tick {peer peer' : Peer} {e : Int} (hTicked : HostTicked peer e peer') :
    ∃ new, peer'.log = peer.log ++ new ∧ ∀ entry ∈ new, entry.time = peer.timeLocal + e := by
  refine ⟨((peer.queue.drop peer.queueIndex).map fun m => { m with time := peer.timeLocal + e }).map
      (·.content) ++ (peer.slots.tail.flatMap (·.contribution (peer.timeLocal + e))).map (·.content),
    ?_, fun entry hEntry => ?_⟩
  · rw [log_of_ticked hTicked, hTicked.queue, merged_queue, stampQueue, Peer.log, List.map_append,
      List.map_append, List.append_assoc]
  · rcases List.mem_append.mp hEntry with hOwn | hMerged
    · obtain ⟨stamped, hStamped, rfl⟩ := List.mem_map.mp hOwn
      obtain ⟨m, _, rfl⟩ := List.mem_map.mp hStamped
      rfl
    · obtain ⟨merged, hMem, rfl⟩ := List.mem_map.mp hMerged
      obtain ⟨slot, _, hMem⟩ := List.mem_flatMap.mp hMem
      obtain ⟨m, _, rfl⟩ := List.mem_map.mp hMem
      rfl

/-- **A tick** whose elapsed time is not negative keeps the order: what it adds has
the new time, which is not earlier than that of any entry. -/
theorem HostTimes.tick {peer peer' : Peer} {total e : Int} (h : HostTimes peer total)
    (he : 0 ≤ e) (hTicked : HostTicked peer e peer') : HostTimes peer' (total + e) := by
  obtain ⟨new, hLog, hNew⟩ := log_tick hTicked
  rw [h.timeLocal] at hNew
  have hTime : peer'.time = total + e := by rw [hTicked.time, h.timeLocal]
  refine ⟨hTime, by rw [hTicked.timeLocal, h.timeLocal], ?_, ?_⟩
  -- The new entries have one time, and no old entry is later than that.
  · rw [hLog, List.pairwise_append]
    refine ⟨h.sorted, ?_, fun a ha b hb => ?_⟩
    · refine List.pairwise_iff_forall_sublist.mpr fun hSub => ?_
      rw [hNew _ (hSub.subset (by simp)), hNew _ (hSub.subset (by simp))]
    · rw [hNew b hb]
      have := h.bound a ha
      omega
  · intro entry hEntry
    rw [hLog] at hEntry
    rcases List.mem_append.mp hEntry with hOld | hLater
    · have := h.bound entry hOld
      omega
    · exact Int.le_of_eq (hNew entry hLater)

/-- An action that leaves the times and the log. -/
theorem HostTimes.of_eq {peer peer' : Peer} {total : Int} (h : HostTimes peer total)
    (hTime : peer'.time = peer.time) (hLocal : peer'.timeLocal = peer.timeLocal)
    (hLog : peer'.log = peer.log) : HostTimes peer' total :=
  ⟨hTime.trans h.time, hLocal.trans h.timeLocal, hLog ▸ h.sorted, hLog ▸ h.bound⟩

/-- An input leaves the times of a host: only a client takes times over from what it
receives, and a message with a time is refused by a host. -/
theorem peerInput_host_time {peer peer' : Peer} {packets : List PeerPacket} {s : Status}
    (hMode : peer.mode = .host) (h : peerInput peer packets = .ok (s, peer')) :
    peer'.time = peer.time ∧ peer'.timeLocal = peer.timeLocal := by
  have hAll : peer'.mode = .host ∧ peer'.time = peer.time ∧ peer'.timeLocal = peer.timeLocal := by
    -- The mode is in the invariant, since a client's chunk would move its time.
    refine peerInput_invariant
      (I := fun p => p.mode = .host ∧ p.time = peer.time ∧ p.timeLocal = peer.timeLocal) ?_ ?_ ?_ h
      ⟨hMode, rfl, rfl⟩
    · intro p packet s cs al _ hp _
      exact hp
    · intro start p p' packet j s cs al chunk _ _ _ _ hp _ hStep
      cases hStep.onHost hp.1 with
      | skip => exact hp
      | store => exact hp
    · intro p packet _ hp _ _
      rcases assignSlot_cases p packet with hSame | ⟨_, _, _, _, _, _, _, _, _, _, hSet⟩
      · rw [hSame]
        exact hp
      · rw [hSet]
        exact hp
  exact hAll.2

/-- A tick of a host whose messages fit packets fails only if its time is refused. -/
theorem WireHost.tick_cases {host host' : Peer} (h : WireHost host) {e : Int} {s : Status}
    {ps : List PeerPacket} (hTick : peerTick host e = .ok (s, ps, host')) :
    (ValidElapsed host e ∧ s = kitOk) ∨ (s ≠ kitOk ∧ ps = [] ∧ host' = host) := by
  by_cases hValid : ValidElapsed host e
  · exact Or.inl ⟨hValid, (h.toHostSendInv.sends h.small hValid hTick).1⟩
  · obtain ⟨hBad, rfl, rfl⟩ := eq_of_peerTick_invalid hValid hTick
    exact Or.inr ⟨hBad, rfl, rfl⟩

/-- **One action of the host**, with what it adds to the sum. Ticks that are refused
add nothing, and inputs never touch a host's time. -/
theorem HostTimes.act {w : World} {total : Int} (h : HostTimes w.host total) (hWire : WireHost w.host)
    {a : PeerAction} {s : Status} {ps : List PeerPacket} {host : Peer}
    (hAct : w.host.act a = .ok (s, ps, host)) :
    HostTimes host (total + elapsedBy w (.host a)) ∧ 0 ≤ elapsedBy w (.host a) := by
  have hCase := Peer.act_cases hAct
  -- an action that is no tick adds nothing
  have hNone (hZero : elapsedBy w (.host a) = 0) (hSame : HostTimes host total) :
      HostTimes host (total + elapsedBy w (.host a)) ∧ 0 ≤ elapsedBy w (.host a) := by
    rw [hZero, Int.add_zero]
    exact ⟨hSame, Int.le_refl 0⟩
  cases a with
  | openSlots ids =>
    obtain ⟨_, rfl⟩ := hCase
    refine hNone rfl ?_
    rw [peerOpen_reliable hWire.alloc]
    exact h.of_eq rfl rfl rfl
  | connect serverId =>
    obtain ⟨_, rfl⟩ := hCase
    refine hNone rfl ?_
    obtain ⟨i, hConnect⟩ := peerConnect_modifies w.host serverId
    rw [hConnect]
    exact h.of_eq rfl rfl rfl
  | queue messageData =>
    obtain ⟨_, rfl⟩ := hCase
    refine hNone rfl ?_
    cases messageData with
    | none => exact h
    | some data =>
      rw [peerQueue_host hWire.mode hWire.alloc]
      refine h.of_eq rfl rfl ?_
      unfold Peer.log
      -- the new message is behind the mutual log
      rw [List.take_append_of_le_length hWire.queueIndex]
  | input packets =>
    obtain ⟨hTime, hLocal⟩ := peerInput_host_time hWire.mode hCase.2
    obtain ⟨hQueue, hIndex, _⟩ := peerInput_host_queue hWire.mode hCase.2
    exact hNone rfl (h.of_eq hTime hLocal (by rw [Peer.log, Peer.log, hQueue, hIndex]))
  | tick e =>
    have hElapsed : elapsedBy w (.host (.tick e)) = if s = kitOk then e else 0 := by
      have hTick : peerTick w.host e = .ok (s, ps, host) := hCase
      simp only [elapsedBy, hTick]
    rcases hWire.tick_cases hCase with ⟨hValid, rfl⟩ | ⟨hBad, _, rfl⟩
    · rw [hElapsed, if_pos rfl]
      exact ⟨h.tick hValid.1 (hWire.ticked hValid hCase), hValid.1⟩
    · exact hNone (by rw [hElapsed, if_neg hBad]) h
  | setAddress j size data =>
    obtain ⟨_, rfl⟩ := hCase
    exact hNone rfl (h.of_eq rfl rfl rfl)
  | resolve j id =>
    obtain ⟨_, rfl⟩ := hCase
    exact hNone rfl (h.of_eq rfl rfl rfl)

-- ---------------------------------------------------------------------------
-- What the host sends
-- ---------------------------------------------------------------------------

/-- No time in the packet is later than `total`. It is said of all chunks that the
packet carries, service messages included, since a client takes the time of any of
them over. -/
def PacketTimes (total : Int) (p : PeerPacket) : Prop :=
  ∀ c ∈ packetChunks p, ∀ header, readHeader c = .ok header → header.time ≤ total

theorem PacketTimes.mono {total total' : Int} {p : PeerPacket} (h : PacketTimes total p)
    (hLe : total ≤ total') : PacketTimes total' p :=
  fun c hc header hHeader => Int.le_trans (h c hc header hHeader) hLe

/-- A packet whose chunks are from some that carry no later time. -/
theorem packetTimes_of_carried {src dst total : Int} {ps : List PeerPacket} {cs : List Chunk}
    (h : Carried src dst ps cs)
    (hcs : ∀ c ∈ cs, ∀ header, readHeader c = .ok header → header.time ≤ total) :
    ∀ p ∈ ps, PacketTimes total p := by
  intro p hp c hc
  obtain ⟨some, hSealed, hSub⟩ := h.of_mem hp
  rw [hSealed.yields.packetChunks_eq] at hc
  exact hcs c (hSub c hc)

/-- The time of a service message of the host is the one it was written with. -/
theorem time_of_service {index time actor : Int} {data : List UInt8} (hIndex : IsInt64 index)
    (hTime : IsInt64 time) (hData : data.length ≤ 993) {header : MessageHeader}
    (h : readHeader (encode peerMessageModeService index time actor data) = .ok header) :
    header.time = time := by
  rw [readHeader_encode (by decide) hIndex hTime hData, Except.ok.injEq] at h
  rw [← h]

/-- **What a tick sends**: the new entries, the trail, heartbeats and session
responses carry times up to that of the tick. -/
theorem HostTimes.packets {peer peer' : Peer} {total e : Int} (h : HostTimes peer' total)
    (hOld : HostInv peer) (hWire : WireHost peer') (hSmall : ∀ m ∈ peer.queue, m.Small)
    (hValid : ValidElapsed peer e) {s : Status} {ps : List PeerPacket}
    (hTick : peerTick peer e = .ok (s, ps, peer')) : ∀ p ∈ ps, PacketTimes total p := by
  have hSends := (hOld.toHostSendInv.sends hSmall hValid hTick).2
  have hTime := hOld.isInt64_time hValid hTick
  have hFinal := log_of_ticked (hOld.ticked hValid hTick)
  -- the messages of the queue are entries of the log
  have hEntries (ks : List Nat) : ∀ c ∈ chunksAt peer'.queue ks, ∀ header,
      readHeader c = .ok header → header.time ≤ total := by
    intro c hc header hHeader
    obtain ⟨k, m, _, hm, rfl⟩ := mem_chunksAt.mp hc
    have hEntry : peer'.log[k]? = some m.content := by
      rw [hFinal, List.getElem?_map, hm]
      rfl
    have hReady := (hWire.entry m (List.mem_of_getElem? hm)).ready
    rw [← message_content hReady, readHeader_entry hWire.wire hEntry, Except.ok.injEq] at hHeader
    rw [← hHeader]
    exact h.bound _ (List.mem_of_getElem? hEntry)
  have hBeat {actor : Int} : ∀ header, readHeader (heartbeatChunk peer'.time actor) = .ok header →
      header.time ≤ total := by
    intro header hHeader
    rw [time_of_service isInt64_peerUndefined hTime (by simp) hHeader, h.time]
  intro p hp
  obtain ⟨j, slot, slot', ps, _, hSlot, hMem, hSend⟩ := hSends.ofSlot p hp
  -- a response and a heartbeat carry the time of the host, the other messages their own
  cases hSend with
  | idle => cases hMem
  | response _ hCarried =>
    refine packetTimes_of_carried hCarried (fun c hc header hHeader => ?_) p hMem
    have hAddress : ((slot.tickClock e).merged.localEnd).AddressFits := by
      simpa using (hOld.slot slot (List.mem_of_getElem? hSlot)).address
    have hLen := hAddress.length_address
    have hHi := hAddress.2
    rw [peerAddressSize] at hHi
    rw [List.mem_singleton.mp hc] at hHeader
    rw [time_of_service isInt64_peerUndefined hTime (by rw [List.length_cons]; omega) hHeader, h.time]
  | messages rng _ _ hCarried => exact packetTimes_of_carried hCarried (hEntries _) p hMem
  | heartbeat rng _ _ _ hCarried =>
    refine packetTimes_of_carried hCarried (fun c hc => ?_) p hMem
    rcases List.mem_cons.mp hc with rfl | hTrail
    · exact hBeat
    · exact hEntries _ c hTrail

-- ---------------------------------------------------------------------------
-- The clients
-- ---------------------------------------------------------------------------

/-- A client's time is not later than the sum, and not earlier than an entry that it
holds: whatever entry it has, it has taken over the time of the chunk that brought
it. -/
structure ClientTimes (total : Int) (client : Peer) : Prop where
  behind : client.time ≤ total
  entry : ∀ m ∈ client.queue, m.isReady = true → m.time ≤ client.time

theorem ClientTimes.mono {total total' : Int} {client : Peer} (h : ClientTimes total client)
    (hLe : total ≤ total') : ClientTimes total' client :=
  ⟨Int.le_trans h.behind hLe, h.entry⟩

/-- One chunk with a time that is not too late: the client stores the entry, if it
is one, and takes the time over. -/
theorem ClientTimes.chunk {total : Int} {client client' : Peer} {j : Nat} {c : Chunk}
    (h : ClientTimes total client) (hMode : client.mode = .client)
    (hc : ∀ header, readHeader c = .ok header → header.time ≤ total)
    (hStep : ChunkStep j c client client') :
    ClientTimes total client' ∧ client.time ≤ client'.time := by
  -- the time goes up to that of the chunk
  have hMax {header : MessageHeader} (hHeader : readHeader c = .ok header) :
      max client.time header.time ≤ total := max_le h.behind (hc header hHeader)
  have hKeep (t : Int) : ∀ m ∈ client.queue, m.isReady = true → m.time ≤ max client.time t :=
    fun m hm hReady => Int.le_trans (h.entry m hm hReady) (le_max_left _ _)
  cases hStep with
  | hostSkip hHost => exact absurd hHost (by rw [hMode]; decide)
  | hostStore hHost => exact absurd hHost (by rw [hMode]; decide)
  | clientSkip _ hHeader => exact ⟨⟨hMax hHeader, hKeep _⟩, le_max_left _ _⟩
  | clientRespond _ _ hHeader => exact ⟨⟨hMax hHeader, hKeep _⟩, le_max_left _ _⟩
  | clientLearn _ hHeader _ _ hInsert =>
    refine ⟨⟨hMax hHeader, fun m hm hReady => ?_⟩, le_max_left _ _⟩
    dsimp only at hm ⊢
    rcases (queueInsert_cases hInsert).2 with rfl | ⟨i, _, _, rfl | rfl⟩
    · exact hKeep _ m hm hReady
    · rcases mem_grown hm with hOld | rfl
      · exact hKeep _ m hOld hReady
      · cases hReady
    · rcases mem_stored hm with hOld | rfl | rfl
      · exact hKeep _ m hOld hReady
      · cases hReady
      · exact le_max_right _ _

/-- **The input of packets** that carry no later time than the host's, by induction
on the chunks: the client's time moves to the largest that it has seen, and so never
past the host's and never back. -/
theorem ClientTimes.input {total : Int} {client client' : Peer} {packets : List PeerPacket}
    {s : Status} (h : ClientTimes total client) (hMode : client.mode = .client)
    (hAlloc : client.alloc = .reliable) (hPackets : ∀ p ∈ packets, PacketTimes total p)
    (hInput : peerInput client packets = .ok (s, client')) :
    ClientTimes total client' ∧ client.time ≤ client'.time := by
  have hAll : client'.mode = .client ∧ client'.alloc = .reliable ∧ ClientTimes total client' ∧
      client.time ≤ client'.time := by
    refine peerInput_invariant (I := fun p => p.mode = .client ∧ p.alloc = .reliable ∧
      ClientTimes total p ∧ client.time ≤ p.time) ?_ ?_ ?_ hInput
      ⟨hMode, hAlloc, h, Int.le_refl _⟩
    · rintro p packet s cs al _ ⟨hClient, hReliable, hp, hLe⟩ hCs
      exact ⟨hClient, (unpackPacket_keeps hCs).2 hReliable, ⟨hp.behind, hp.entry⟩, hLe⟩
    · rintro start p p' packet j s cs al c hPacket ⟨_, hStart, _⟩ hCs hMem
        ⟨hClient, hReliable, hp, hLe⟩ _ hStep
      -- the allocator is reliable, so the chunks are all that the packet carries
      have hChunks : packetChunks packet = cs := by
        rw [hStart] at hCs
        rw [packetChunks, hCs]
      obtain ⟨hp', hLater⟩ := hp.chunk hClient (hPackets packet hPacket c (hChunks ▸ hMem)) hStep
      refine ⟨?_, ?_, hp', Int.le_trans hLe hLater⟩
      · cases hStep <;> exact hClient
      · cases hStep with
        | hostSkip => exact hReliable
        | hostStore _ _ _ _ _ _ _ hInsert => exact (queueInsert_cases hInsert).1 hReliable
        | clientSkip => exact hReliable
        | clientRespond => exact hReliable
        | clientLearn _ _ _ _ hInsert => exact (queueInsert_cases hInsert).1 hReliable
    · rintro p packet _ ⟨hClient, hReliable, hp, hLe⟩ _ _
      have hSame : assignSlot p packet = (kitOk, p) := by
        rw [assignSlot, if_pos (Or.inl (by rw [hClient]; decide))]
      rw [hSame]
      exact ⟨hClient, hReliable, hp, hLe⟩
  exact hAll.2.2

/-- No call of a client's application touches its time or its mutual queue: its tick
moves the local time and the clocks, and both of the others are written by input
alone. -/
theorem clientCall_keeps {log : List Entry} {client client' : Peer} (h : Follows log client)
    {a : PeerAction} {s : Status} {ps : List PeerPacket} (hCall : a.isClientCall = true)
    (hAct : client.act a = .ok (s, ps, client')) :
    client'.time = client.time ∧ client'.queue = client.queue := by
  have hCase := Peer.act_cases hAct
  cases a with
  | openSlots ids =>
    obtain ⟨_, rfl⟩ := hCase
    rw [peerOpen_reliable h.alloc]
    exact ⟨rfl, rfl⟩
  | connect serverId =>
    obtain ⟨_, rfl⟩ := hCase
    obtain ⟨i, hConnect⟩ := peerConnect_modifies client serverId
    rw [hConnect]
    exact ⟨rfl, rfl⟩
  | queue messageData =>
    obtain ⟨_, rfl⟩ := hCase
    obtain ⟨data, hQueued⟩ := peerQueue_queued client messageData
    generalize (peerQueue client messageData).2 = client' at hQueued
    cases hQueued with
    | refused => exact ⟨rfl, rfl⟩
    | host hHost => exact absurd hHost (by rw [h.mode]; decide)
    | client => exact ⟨rfl, rfl⟩
  -- a client learns time and queue from packets only
  | input packets => cases hCall
  | tick e =>
    by_cases hValid : ValidElapsed client e
    · have hTicked := peerTick_client_ticked h.mode h.alloc hValid hCase
      exact ⟨hTicked.time, hTicked.queue⟩
    · obtain ⟨_, _, rfl⟩ := eq_of_peerTick_invalid hValid hCase
      exact ⟨rfl, rfl⟩
  | setAddress j size data =>
    obtain ⟨_, rfl⟩ := hCase
    exact ⟨rfl, rfl⟩
  | resolve j id =>
    obtain ⟨_, rfl⟩ := hCase
    exact ⟨rfl, rfl⟩

-- ---------------------------------------------------------------------------
-- The invariant
-- ---------------------------------------------------------------------------

/-- Every time in the world is at most the sum, and no clock is out of range. The
clocks are needed for elapsed times: a tick is accepted only if the local time does
not overflow. -/
structure Timed (t : TimedWorld) : Prop extends Agreement t.1 where
  hostTimes : HostTimes t.1.host t.2
  packetTimes : ∀ p ∈ t.1.hostSent, PacketTimes t.2 p
  clientTimes : ∀ client ∈ t.1.clients, ClientTimes t.2 client
  hostClocks : ClocksInv t.1.host
  clientClocks : ∀ client ∈ t.1.clients, ClocksInv client

/-- At the beginning all times are zero, and no queue has an entry. -/
theorem timed_of_initialized {w : World} (h : ReliablyInitialized w) : Timed (w, 0) := by
  have hAgreement := agreement_of_initialized h
  obtain ⟨rng, clients, rfl, hClients⟩ := h
  refine ⟨hAgreement, hostTimes_peerInit rng, by simp [World.start], ?_, clocksInv_peerInit ..,
    fun client hClient => ?_⟩
  · intro client hClient
    obtain ⟨r, rfl⟩ := hClients client hClient
    exact ⟨Int.le_refl 0, by simp [peerInit]⟩
  · obtain ⟨r, rfl⟩ := hClients client hClient
    exact clocksInv_peerInit ..

/-- No client's time is earlier than it was. -/
def ClientsLater (clients clients' : List Peer) : Prop :=
  ∀ (c : Nat) (client : Peer), clients[c]? = some client →
    ∃ client', clients'[c]? = some client' ∧ client.time ≤ client'.time

theorem clientsLater_refl (clients : List Peer) : ClientsLater clients clients :=
  fun _ client hClient => ⟨client, hClient, Int.le_refl _⟩

theorem ClientsLater.trans {clients clients' clients'' : List Peer}
    (h : ClientsLater clients clients') (h' : ClientsLater clients' clients'') :
    ClientsLater clients clients'' := by
  intro c client hClient
  obtain ⟨client', hClient', hLe⟩ := h c client hClient
  obtain ⟨client'', hClient'', hLe'⟩ := h' c client' hClient'
  exact ⟨client'', hClient'', Int.le_trans hLe hLe'⟩

theorem clientsLater_set {clients : List Peer} {c : Nat} {client client' : Peer}
    (hClient : clients[c]? = some client) (hLe : client.time ≤ client'.time) :
    ClientsLater clients (clients.set c client') := by
  intro d other hOther
  by_cases hd : c = d
  · subst hd
    rw [hClient, Option.some.injEq] at hOther
    subst hOther
    exact ⟨client', List.getElem?_set_self (List.getElem?_eq_some_iff.mp hClient).1, hLe⟩
  · exact ⟨other, (List.getElem?_set_ne hd).trans hOther, Int.le_refl _⟩

/-- What a move keeps: the log, and that time does not go back. -/
structure Onward (w w' : World) : Prop where
  log : w.host.log <+: w'.host.log
  clients : ClientsLater w.clients w'.clients

/-- Nothing goes back by doing nothing. -/
theorem onward_refl (w : World) : Onward w w := ⟨List.prefix_rfl, clientsLater_refl _⟩

theorem Onward.trans {w w' w'' : World} (h : Onward w w') (h' : Onward w' w'') : Onward w w'' :=
  ⟨h.log.trans h'.log, h.clients.trans h'.clients⟩

theorem Timed.hostAct {t : TimedWorld} (h : Timed t) {a : PeerAction} {s : Status}
    {ps : List PeerPacket} {host : Peer} (hAct : t.1.host.act a = .ok (s, ps, host))
    (hMay : HostMay a host) :
    Timed ({ t.1 with host := host, hostSent := t.1.hostSent ++ ps },
      t.2 + elapsedBy t.1 (.host a)) := by
  obtain ⟨hTimes, hNonneg⟩ := h.hostTimes.act h.host hAct
  have hLater : t.2 ≤ t.2 + elapsedBy t.1 (.host a) := by omega
  refine ⟨h.toAgreement.hostAct hAct hMay, hTimes, ?_,
    fun client hClient => (h.clientTimes client hClient).mono hLater, h.hostClocks.act hAct,
    h.clientClocks⟩
  intro p hp
  rcases List.mem_append.mp hp with hOld | hNew
  · exact (h.packetTimes p hOld).mono hLater
  · -- only a tick sends
    cases a with
    | tick e =>
      rcases h.host.tick_cases hAct with ⟨hValid, rfl⟩ | ⟨_, rfl, _⟩
      · exact hTimes.packets h.host.toHostInv (h.host.act hMay hAct) h.host.small hValid hAct p hNew
      · cases hNew
    | _ =>
      obtain ⟨rfl, _⟩ := Peer.act_cases hAct
      cases hNew

theorem Timed.setClient {t : TimedWorld} (h : Timed t) {c : Nat} {client client' : Peer}
    (hClient : t.1.clients[c]? = some client) (hFollows : Follows t.1.host.log client')
    (hTimes : ClientTimes t.2 client') (hClocks : ClocksInv client')
    (hLe : client.time ≤ client'.time) (sent : List PeerPacket) :
    Timed ({ t.1 with clients := t.1.clients.set c client', clientSent := sent }, t.2) ∧
      Onward t.1 { t.1 with clients := t.1.clients.set c client', clientSent := sent } := by
  refine ⟨⟨h.toAgreement.setClient hFollows c sent, h.hostTimes, h.packetTimes, ?_, h.hostClocks, ?_⟩,
    List.prefix_rfl, clientsLater_set hClient hLe⟩
  · intro other hOther
    rcases List.mem_or_eq_of_mem_set hOther with hOld | rfl
    · exact h.clientTimes other hOld
    · exact hTimes
  · intro other hOther
    rcases List.mem_or_eq_of_mem_set hOther with hOld | rfl
    · exact h.clientClocks other hOld
    · exact hClocks

/-- **Step lemma**, with a case for each kind of move. It also says that no time and
no log goes back, which the run lemma puts together. -/
theorem Timed.step {t t' : TimedWorld} {a : WorldAction} (h : Timed t)
    (hStep : timedStep t a = .ok t') (hMove : AgreementMove t.1 a t'.1) :
    Timed t' ∧ Onward t.1 t'.1 := by
  obtain ⟨w', total'⟩ := t'
  obtain ⟨hWorld, rfl⟩ : t.1.step a = .ok w' ∧ total' = t.2 + elapsedBy t.1 a := timedStep_eq_ok hStep
  dsimp only at hMove ⊢
  clear hStep
  cases worldStep_of_step hWorld with
  | host hAct => exact ⟨h.hostAct hAct hMove, log_prefix h.host.toHostInv hAct, clientsLater_refl _⟩
  | @client c a client client' s ps hClient hAct =>
    have hMem := List.mem_of_getElem? hClient
    have hOld := h.clients client hMem
    obtain ⟨hTime, hQueue⟩ := clientCall_keeps hOld hMove hAct
    have hTimes : ClientTimes t.2 client' := by
      obtain ⟨hBehind, hEntry⟩ := h.clientTimes client hMem
      exact ⟨hTime ▸ hBehind, by rw [hTime, hQueue]; exact hEntry⟩
    rw [show elapsedBy t.1 (.client c a) = 0 from rfl, Int.add_zero]
    exact h.setClient hClient (hOld.act hMove hAct) hTimes ((h.clientClocks client hMem).act hAct)
      (Int.le_of_eq hTime.symm) _
  | toHost hInput =>
    have hAct := Peer.act_input hInput
    have hNew := h.hostAct hAct hMove
    rw [List.append_nil] at hNew
    exact ⟨hNew, log_prefix h.host.toHostInv hAct, clientsLater_refl _⟩
  -- packets to a client were sent by the host, at times that it has shown since
  | @toClient c positions client client' s hClient hInput =>
    have hMem := List.mem_of_getElem? hClient
    have hOld := h.clients client hMem
    have hDelivered : ∀ p ∈ delivered t.1.hostSent positions, p ∈ t.1.hostSent :=
      fun p hp => mem_of_mem_delivered hp
    obtain ⟨client1, hOk, hNew, _⟩ := hOld.input h.host.wire fun p hp => h.sent p (hDelivered p hp)
    obtain ⟨hTimes, hLe⟩ := (h.clientTimes client hMem).input hOld.mode hOld.alloc
      (fun p hp => h.packetTimes p (hDelivered p hp)) hInput
    have hClocks := (h.clientClocks client hMem).input hInput
    rw [hOk, Except.ok.injEq, Prod.mk.injEq] at hInput
    obtain ⟨_, rfl⟩ := hInput
    rw [show elapsedBy t.1 (.toClient c positions) = 0 from rfl, Int.add_zero]
    exact h.setClient hClient hNew hTimes hClocks hLe t.1.clientSent

-- ---------------------------------------------------------------------------
-- Runs
-- ---------------------------------------------------------------------------

/-- A run with the sum of the elapsed times of the host's ticks. -/
abbrev TimedReaches : TimedWorld → TimedWorld → Prop :=
  Reaches timedStep (fun t a t' => AgreementMove t.1 a t'.1)

/-- **Run lemma**: what holds of each state, and what holds between an earlier and a
later one. -/
theorem Timed.run {t t' : TimedWorld} (h : Timed t) (hReach : TimedReaches t t') :
    Timed t' ∧ Onward t.1 t'.1 := by
  refine hReach.invariant (I := fun s => Timed s ∧ Onward t.1 s.1) ?_ ⟨h, onward_refl t.1⟩
  rintro s a s' ⟨hs, hOnward⟩ hStep hMove
  obtain ⟨hs', hNext⟩ := hs.step hStep hMove
  exact ⟨hs', hOnward.trans hNext⟩

/-- The entries of the mutual queue below `queueIndex` are in the order of
time, and none is ahead of the host. -/
structure StampedInOrder (host : Peer) : Prop where
  sorted : ∀ (i k : Nat) (m n : PeerMessage), i ≤ k → k < host.queueIndex → host.queue[i]? = some m →
    host.queue[k]? = some n → m.time ≤ n.time
  bound : ∀ (k : Nat) (m : PeerMessage), k < host.queueIndex → host.queue[k]? = some m →
    m.time ≤ host.time

/-- Every message in the packet is an entry below `queueIndex`, as it is there: the
bytes of the chunk are those of the entry, stamp included. -/
def SendsFinal (host : Peer) (p : PeerPacket) : Prop :=
  ∀ c ∈ packetChunks p, ∀ header, readHeader c = .ok header →
    header.mode ≠ peerMessageModeService →
    ∃ (k : Nat) (m : PeerMessage), header.index = k ∧ k < host.queueIndex ∧
      host.queue[k]? = some m ∧ c = m.chunk k

/-- Below `queueIndex` the mutual queue stays as it is: no entry is changed, moved
or taken away once it has been stamped. -/
def FinalBelow (host host' : Peer) : Prop :=
  ∀ k : Nat, k < host.queueIndex → host'.queue[k]? = host.queue[k]?

/-- An entry below `queueIndex` is one of the log. -/
theorem HostInv.exists_entry {host : Peer} (h : HostInv host) {k : Nat} (hk : k < host.queueIndex) :
    ∃ entry, host.log[k]? = some entry ∧ host.queue[k]? = some entry.message := by
  rw [← h.length_log] at hk
  have hEntry : host.log[k]? = some host.log[k] := List.getElem?_eq_getElem hk
  exact ⟨_, hEntry, h.getElem?_of_log hEntry⟩

/-- The log only grows at its end, so what is below stays. -/
theorem finalBelow_of_isPrefix {host host' : Peer} (h : HostInv host) (h' : HostInv host')
    (hPrefix : host.log <+: host'.log) : FinalBelow host host' := by
  intro k hk
  obtain ⟨entry, hEntry, hQueue⟩ := h.exists_entry hk
  rw [hQueue, h'.getElem?_of_log (getElem?_of_isPrefix hPrefix hEntry)]

/-- The order of the log, as one of the mutual queue: what is final has the times of
earlier ticks in order, and what is not yet final is behind it and will be stamped
later. -/
theorem HostTimes.inOrder {host : Peer} {total : Int} (h : HostTimes host total)
    (hInv : HostInv host) : StampedInOrder host where
  sorted := by
    intro i k m n hik hk hm hn
    -- The queue's entries below its size are those of the log, at the same positions.
    obtain ⟨a, ha, hQueueA⟩ := hInv.exists_entry (Nat.lt_of_le_of_lt hik hk)
    obtain ⟨b, hb, hQueueB⟩ := hInv.exists_entry hk
    rw [hm, Option.some.injEq] at hQueueA
    rw [hn, Option.some.injEq] at hQueueB
    subst hQueueA hQueueB
    rcases Nat.lt_or_eq_of_le hik with hLt | rfl
    · obtain ⟨hi', rfl⟩ := List.getElem?_eq_some_iff.mp ha
      obtain ⟨hk', rfl⟩ := List.getElem?_eq_some_iff.mp hb
      exact List.pairwise_iff_getElem.mp h.sorted i k hi' hk' hLt
    · rw [ha, Option.some.injEq] at hb
      rw [hb]
  bound := by
    intro k m hk hm
    obtain ⟨a, ha, hQueue⟩ := hInv.exists_entry hk
    rw [hm, Option.some.injEq] at hQueue
    rw [hQueue, h.time]
    exact h.bound a (List.mem_of_getElem? ha)

/-- Every packet of the host carries entries of the log, which are stamped: an entry
is sent by a tick at the earliest, and a tick stamps before it sends. -/
theorem Agreement.sendsFinal {w : World} (h : Agreement w) {p : PeerPacket} (hp : p ∈ w.hostSent) :
    SendsFinal w.host p := by
  intro c hc header hHeader hMode
  obtain ⟨src, dst, cs, hSealed, hcs⟩ := h.sent p hp
  rw [hSealed.yields.packetChunks_eq] at hc
  -- the mode of a service message, whatever else it says
  have hService {index time actor : Int} {data : List UInt8}
      (hEq : c = encode peerMessageModeService index time actor data) (hIndex : IsInt64 index)
      (hTime : IsInt64 time) (hData : data.length ≤ 993) : False := by
    rw [hEq, readHeader_encode (by decide) hIndex hTime hData, Except.ok.injEq] at hHeader
    rw [← hHeader] at hMode
    exact hMode rfl
  cases hcs c hc with
  | heartbeat hTime => exact (hService rfl isInt64_peerUndefined hTime (by simp)).elim
  | response hTime hAddress =>
    have hLen := hAddress.length_address
    have hHi := hAddress.2
    rw [peerAddressSize] at hHi
    exact (hService rfl isInt64_peerUndefined hTime (by rw [List.length_cons]; omega)).elim
  | @entry k e hEntry =>
    rw [readHeader_entry h.host.wire hEntry, Except.ok.injEq] at hHeader
    refine ⟨k, e.message, by rw [← hHeader], ?_, h.host.getElem?_of_log hEntry, rfl⟩
    rw [← h.host.toHostInv.length_log]
    exact (List.getElem?_eq_some_iff.mp hEntry).1

/-- **Time stamps are final, ordered, and never ahead of the host.** In every
state of every run: the host's time is the sum of the elapsed times of its
ticks that did not fail; no tick overflows, of the host or of a client; what is
below `queueIndex` is in the order of time, and nothing else was ever sent; and
a client is behind the host and ahead of all that it holds. What is below
`queueIndex` never changes, and no client's time goes back. -/
theorem times_of_reaches {w : World} {t : TimedWorld} (hStart : ReliablyInitialized w)
    (hReach : TimedReaches (w, 0) t) :
    t.1.host.time = t.2 ∧
    (∀ e, IsInt64 e → TickFits t.1.host e ∧ ∀ client ∈ t.1.clients, TickFits client e) ∧
    StampedInOrder t.1.host ∧ (∀ p ∈ t.1.hostSent, SendsFinal t.1.host p) ∧
    (∀ client ∈ t.1.clients, client.time ≤ t.1.host.time ∧
      ∀ m ∈ client.queue, m.isReady = true → m.time ≤ client.time) ∧
    ∀ t', TimedReaches t t' →
      FinalBelow t.1.host t'.1.host ∧ ClientsLater t.1.clients t'.1.clients := by
  have h := ((timed_of_initialized hStart).run hReach).1
  have hHost := h.host.toHostInv
  refine ⟨h.hostTimes.time, fun e he => ⟨h.hostClocks.tickFits he,
    fun client hClient => (h.clientClocks client hClient).tickFits he⟩, h.hostTimes.inOrder hHost,
    fun p hp => h.toAgreement.sendsFinal hp, fun client hClient => ?_, fun t' hReach' => ?_⟩
  · obtain ⟨hBehind, hEntry⟩ := h.clientTimes client hClient
    exact ⟨h.hostTimes.time.symm ▸ hBehind, hEntry⟩
  · obtain ⟨h', hOnward⟩ := h.run hReach'
    exact ⟨finalBelow_of_isPrefix hHost h'.host.toHostInv hOnward.log, hOnward.clients⟩

/-- Two sessions at time 0, and a message of each side that the host stamps at 5.
The first client gets both; a tick of the host is refused; a third message is
stamped at 8, and nobody gets that one. -/
def stampedRun : List WorldAction :=
  twoSessions ++ [.client 0 (.resolve 0 3), .client 0 (.queue (some [97])), .client 0 (.tick 4),
    .toHost [2], .host (.queue (some [72])), .host (.tick 5), .toClient 0 [3],
    .host (.queue (some [73])), .host (.tick (-1)), .host (.tick 3)]

/-- The host is at 8, the first client at 5 with two entries of that time, and the
second one, which heard nothing, at 0. -/
theorem times_of_reaches_stamped : ∃ t : TimedWorld, TimedReaches (twoStart, 0) t ∧
    t.1.host.queue.map (fun m => (m.data, m.time)) = [([72], 5), ([97], 5), ([73], 8)] ∧
    t.1.clients.map (fun client => (client.time, client.queue.map (·.time))) =
      [(5, [5, 5]), (0, [])] ∧
    t.2 = 8 ∧ t.1.host.time = t.2 ∧ StampedInOrder t.1.host ∧
    (∀ p ∈ t.1.hostSent, SendsFinal t.1.host p) ∧
    ∀ client ∈ t.1.clients, client.time ≤ t.1.host.time ∧
      ∀ m ∈ client.queue, m.isReady = true → m.time ≤ client.time := by
  obtain ⟨t, hReach, hQueue, hClients, hTotal⟩ :=
    exists_reaches_where timedStep (fun t a t' => AgreementMove t.1 a t'.1)
      (fun t a t' => decide (AgreementMove t.1 a t'.1)) (fun _ _ _ h => of_decide_eq_true h)
      stampedRun (twoStart, 0)
      (fun t => t.1.host.queue.map (fun m => (m.data, m.time)) = [([72], 5), ([97], 5), ([73], 8)] ∧
        t.1.clients.map (fun client => (client.time, client.queue.map (·.time))) =
          [(5, [5, 5]), (0, [])] ∧ t.2 = 8) (by decide +kernel)
  obtain ⟨hTime, _, hOrder, hFinal, hBehind, _⟩ := times_of_reaches reliablyInitialized_twoStart hReach
  exact ⟨t, hReach, hQueue, hClients, hTotal, hTime, hOrder, hFinal, hBehind⟩

end PeerProtocol
