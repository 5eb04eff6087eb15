import PeerProtocol.Peer.Cursor

/-!
# peer — what can be transmitted

`peer_queue` takes data of any size; a packet has room for 355 bytes of it. A
larger message is found out when it is packed. Depending on its size, the copy
overruns the packet, or the size field is wrong and the call ends with an
error; then the cursor stays, and the next tick fails in the same way.

The module says for the next tick of any peer exactly when it sends
everything. Messages below the cursor have been sent, so they fit; messages
that came in a packet fit; what is left is what the application has queued
since. For that the peer has to be one that a run without refused requests
reaches, and the two invariants say what such a peer is.

## Plan

* `HostSendInv`, `ClientSendInv` — without allocation failures, what was
  received and what was sent fits a packet, in every peer that a run reaches.
  The step lemmas go through the actions one by one.
* `SlotSends.covers` — the entries that go out to a slot in a tick: all from
  five behind its cursor on, and below index 105 all of them.
* `transmits_host_iff`, `transmits_client_iff` — the two modes. A client that
  has nothing new to send also needs its heartbeat's trail to exist
  (`Peer.Cursor`).

## Result

* `transmits_iff` — after any sequence of `peer_queue` calls, the next tick
  sends everything exactly when everything that is queued fits, too.
-/

namespace PeerProtocol

open Lib

-- ---------------------------------------------------------------------------
-- Small messages
-- ---------------------------------------------------------------------------

/-- The first `n` messages of a queue fit a packet: those that a cursor has passed. -/
def SmallBelow (q : PeerQueue) (n : Nat) : Prop := ∀ k m, k < n → q[k]? = some m → m.Small

/-- With the rest they are all messages. -/
theorem SmallBelow.all {q : PeerQueue} {n : Nat} (h : SmallBelow q n)
    (hRest : ∀ k m, n ≤ k → q[k]? = some m → m.Small) : ∀ m ∈ q, m.Small := by
  intro m hm
  obtain ⟨k, hk⟩ := List.mem_iff_getElem?.mp hm
  rcases Nat.lt_or_ge k n with hLt | hGe
  · exact h k m hLt hk
  · exact hRest k m hGe hk

/-- All messages are in particular the first ones. -/
theorem smallBelow_of_all {q : PeerQueue} (h : ∀ m ∈ q, m.Small) (n : Nat) : SmallBelow q n :=
  fun _ m _ hm => h m (List.mem_of_getElem? hm)

/-- Only the data matters, and only below the bound. -/
theorem SmallBelow.of_data {q q' : PeerQueue} {n : Nat} (h : SmallBelow q n)
    (hData : ∀ k m', k < n → q'[k]? = some m' → ∃ m, q[k]? = some m ∧ m'.data = m.data) :
    SmallBelow q' n := by
  intro k m' hk hm'
  obtain ⟨m, hm, hEq⟩ := hData k m' hk hm'
  rw [PeerMessage.Small, hEq]
  exact h k m hk hm

theorem small_zero : PeerMessage.zero.Small := Nat.zero_le _

/-- What `queue_insert` stores comes from a chunk, which fits a packet. -/
theorem small_queueInsert {q q' : PeerQueue} {index time actor : Int} {data : List UInt8}
    {s : Status} {al al' : Allocator} (hq : ∀ m ∈ q, m.Small) (hData : data.length ≤ 355)
    (h : queueInsert q index time actor data al = .ok (s, q', al')) : ∀ m ∈ q', m.Small := by
  intro m hm
  rcases (queueInsert_cases h).2 with rfl | ⟨i, _, _, rfl | rfl⟩
  · exact hq m hm
  · rcases mem_grown hm with hOld | rfl
    · exact hq m hOld
    · exact small_zero
  · rcases mem_stored hm with hOld | rfl | rfl
    · exact hq m hOld
    · exact small_zero
    · exact hData

-- ---------------------------------------------------------------------------
-- What a host keeps
-- ---------------------------------------------------------------------------

/-- A slot of a host with mutual queue `q`: its address is in range, its
messages fit, and so does what was sent to it. -/
structure SlotSendInv (q : PeerQueue) (slot : PeerSlot) : Prop where
  cursor : slot.outIndex ≤ q.length
  address : slot.localEnd.AddressFits
  received : ∀ m ∈ slot.queue, m.Small
  sent : SmallBelow q slot.outIndex

/-- A host of which no request was refused, with slots whose messages fit as far as
they came in a packet or went out in one. -/
structure HostSendInv (peer : Peer) : Prop where
  mode : peer.mode = .host
  alloc : peer.alloc = .reliable
  slot : ∀ slot ∈ peer.slots, SlotSendInv peer.queue slot

/-- An address that is written fits its array, by its type. -/
theorem addressFits_setAddress (slot : PeerSlot) (size : Fin (peerAddressSize + 1))
    (data : Buffer UInt8 peerAddressSize) : (slot.setAddress size data).localEnd.AddressFits := by
  have := size.isLt
  simp only [PeerSlot.setAddress, PeerEndpoint.AddressFits]
  omega

/-- A new slot has received and sent nothing. -/
theorem slotSendInv_openSlot (q : PeerQueue) (mode : PeerMode) (i : Nat) (id : Int) :
    SlotSendInv q (openSlot mode i id) where
  cursor := Nat.zero_le _
  address := by simp [openSlot, PeerEndpoint.ofId, PeerEndpoint.AddressFits]
  received := by simp [openSlot]
  sent := fun k _ hk => absurd hk (Nat.not_lt_zero k)

/-- The mutual queue may grow at its end, behind every cursor. -/
theorem SlotSendInv.append {q : PeerQueue} {slot : PeerSlot} (h : SlotSendInv q slot)
    (m : PeerMessage) : SlotSendInv (q ++ [m]) slot where
  cursor := by
    have := h.cursor
    rw [List.length_append]
    omega
  address := h.address
  received := h.received
  sent := by
    refine h.sent.of_data fun k m' hk hm' => ⟨m', ?_, rfl⟩
    rw [List.getElem?_append_left (Nat.lt_of_lt_of_le hk h.cursor)] at hm'
    exact hm'

/-- One slot changes, and satisfies the same. -/
theorem HostSendInv.set {peer peer' : Peer} (h : HostSendInv peer) (hMode : peer'.mode = peer.mode)
    (hAlloc : peer'.alloc = .reliable) (hQueue : peer'.queue = peer.queue) {j : Nat}
    {slot' : PeerSlot} (hSlots : peer'.slots = peer.slots.set j slot')
    (hSlot : SlotSendInv peer.queue slot') : HostSendInv peer' where
  mode := hMode.trans h.mode
  alloc := hAlloc
  slot := by
    intro t ht
    rw [hQueue]
    rw [hSlots] at ht
    rcases List.mem_or_eq_of_mem_set ht with hOld | rfl
    · exact h.slot t hOld
    · exact hSlot

/-- The same for a change of the slot's ends. -/
theorem HostSendInv.modify {peer : Peer} (h : HostSendInv peer) (j : Nat) {f : PeerSlot → PeerSlot}
    (hf : ∀ slot, SlotSendInv peer.queue slot → SlotSendInv peer.queue (f slot)) :
    HostSendInv { peer with slots := peer.slots.modify j f } where
  mode := h.mode
  alloc := h.alloc
  slot := by
    intro t ht
    obtain ⟨i, hi⟩ := List.mem_iff_getElem?.mp ht
    obtain ⟨slot, hSlot, rfl | rfl⟩ := exists_of_getElem?_modify hi
    · exact h.slot t (List.mem_of_getElem? hSlot)
    · exact hf slot (h.slot slot (List.mem_of_getElem? hSlot))

/-- The data of a message is shorter than its chunk, and a chunk than a packet. -/
theorem length_data_le {chunk : Chunk} {size : Int} {data : List UInt8} (hChunk : chunk.length ≤ 385)
    (hData : chunkData chunk peerNMessageData size = .ok data) : data.length ≤ 355 := by
  have hInside := (length_of_chunkData hData).2
  rw [peerNMessageData] at hInside
  omega

/-- A chunk of a packet is stored with data that fits. -/
theorem HostSendInv.chunk {peer peer' : Peer} {j : Nat} {chunk : Chunk} (h : HostSendInv peer)
    (hChunk : chunk.length ≤ 385) (hStep : ChunkStep j chunk peer peer') : HostSendInv peer' := by
  cases hStep.onHost h.mode with
  | skip => exact h
  | store hSlot _ _ _ _ hData hInsert =>
    have hOld := h.slot _ (List.mem_of_getElem? hSlot)
    have hKeep := (queueInsert_cases hInsert).1
    rw [h.alloc] at hKeep
    exact h.set rfl (hKeep rfl) rfl rfl ⟨hOld.cursor, hOld.address,
      small_queueInsert hOld.received (length_data_le hChunk hData) hInsert, hOld.sent⟩

/-- A slot that is assigned keeps its queue and its cursor. -/
theorem HostSendInv.assign {peer : Peer} (h : HostSendInv peer) (packet : PeerPacket) :
    HostSendInv (assignSlot peer packet).2 := by
  rcases assignSlot_cases peer packet with hSame | ⟨j, first, slot, _, _, _, _, _, hSlot, _, hSet⟩
  · rw [hSame]
    exact h
  · rw [hSet]
    have hOld := h.slot slot (List.mem_of_getElem? hSlot)
    exact h.set rfl h.alloc rfl rfl ⟨hOld.cursor, hOld.address, hOld.received, hOld.sent⟩

theorem HostSendInv.input {peer peer' : Peer} {packets : List PeerPacket} {s : Status}
    (h : HostSendInv peer) (hInput : peerInput peer packets = .ok (s, peer')) :
    HostSendInv peer' := by
  refine peerInput_invariant ?_ ?_ ?_ hInput h
  · intro p packet s cs al _ hp hCs
    exact ⟨hp.mode, (unpackPacket_keeps hCs).2 hp.alloc, hp.slot⟩
  · intro start p p' packet j s cs al chunk _ _ hCs hMem hp _ hStep
    exact hp.chunk ((unpackPacket_keeps hCs).1 chunk hMem) hStep
  · intro p packet _ hp _ _
    exact hp.assign packet

/-- A tick, also one that fails: a cursor only moves when everything up to it went
out. -/
theorem HostSendInv.tick {peer peer' : Peer} {e : Int} {s : Status} {ps : List PeerPacket}
    (h : HostSendInv peer) (hTick : peerTick peer e = .ok (s, ps, peer')) : HostSendInv peer' := by
  by_cases hValid : ValidElapsed peer e
  · have hTicked := peerTick_host_ticked h.mode h.alloc hValid
      (fun slot hSlot => (h.slot slot hSlot).cursor) hTick
    refine ⟨hTicked.mode, hTicked.alloc, ?_⟩
    intro slot' hSlot'
    obtain ⟨j, hj⟩ := List.mem_iff_getElem?.mp hSlot'
    have hLen : peer.queue.length ≤ peer'.queue.length := by
      rw [hTicked.queue]
      exact length_le_merged peer e
    -- the merge keeps the data of what was sent
    have hSent {slot : PeerSlot} (hOld : SlotSendInv peer.queue slot) :
        SmallBelow peer'.queue slot.outIndex := by
      refine hOld.sent.of_data fun k m' hk hm' => ?_
      rw [hTicked.queue, getElem?_merged_queue (Nat.lt_of_lt_of_le hk hOld.cursor)] at hm'
      obtain ⟨m, hm, rfl⟩ := Option.map_eq_some_iff.mp hm'
      refine ⟨m, hm, ?_⟩
      split <;> rfl
    -- the first slot only listens: neither merge nor send reaches it
    rcases Nat.eq_zero_or_pos j with rfl | hPos
    · rw [hTicked.first] at hj
      obtain ⟨slot, hSlot, rfl⟩ := Option.map_eq_some_iff.mp hj
      have hOld := h.slot slot (List.mem_of_getElem? hSlot)
      refine ⟨?_, by simpa using hOld.address, by simpa using hOld.received, ?_⟩
      · simpa using Nat.le_trans hOld.cursor hLen
      · simpa using hSent hOld
    · obtain ⟨slot, hSlot⟩ := exists_getElem?_of_length_eq hTicked.length hj
      have hOld := h.slot slot (List.mem_of_getElem? hSlot)
      obtain ⟨hSame, hMoved⟩ := hTicked.slot j _ slot' hPos hSlot hj
      have hOut := hSame.outIndex
      simp only [merged_outIndex, tickClock_outIndex] at hOut
      refine ⟨?_, ?_, ?_, ?_⟩
      · have := hOld.cursor
        omega
      · rw [hSame.localEnd]
        simpa using hOld.address
      · rw [hSame.queue]
        simpa using hOld.received
      -- a cursor that moved has passed everything, so everything was sent
      · by_cases hEq : slot'.outIndex = slot.outIndex
        · rw [hEq]
          exact hSent hOld
        · exact smallBelow_of_all ((hSent hOld).all (hMoved hEq)) _
  · obtain ⟨_, _, rfl⟩ := eq_of_peerTick_invalid hValid hTick
    exact h

/-- **Step lemma of a host**: nothing is asked of the packets nor of the sizes. A
message that was sent did fit, or else its tick would have failed and left the
cursor. -/
theorem HostSendInv.step {peer peer' : Peer} {a : PeerAction} (h : HostSendInv peer)
    (hStep : peer.step a = .ok peer') : HostSendInv peer' := by
  obtain ⟨s, ps, hAct⟩ := Peer.step_eq_ok.mp hStep
  have hCase := Peer.act_cases hAct
  cases a with
  | openSlots ids =>
    obtain ⟨_, rfl⟩ := hCase
    rw [peerOpen_reliable h.alloc]
    refine ⟨h.mode, h.alloc, ?_⟩
    intro t ht
    rcases List.mem_append.mp ht with hOld | hNew
    · exact h.slot t hOld
    -- nothing was sent from a new slot
    · obtain ⟨i, id, _, rfl⟩ := List.mem_mapIdx.mp hNew
      exact slotSendInv_openSlot _ _ _ _
  | connect serverId =>
    obtain ⟨_, rfl⟩ := hCase
    obtain ⟨i, hConnect⟩ := peerConnect_modifies peer serverId
    rw [hConnect]
    exact h.modify _ fun slot hSlot => ⟨hSlot.cursor, hSlot.address, hSlot.received, hSlot.sent⟩
  | queue messageData =>
    obtain ⟨_, rfl⟩ := hCase
    cases messageData with
    | none => exact h
    | some data =>
      rw [peerQueue_host h.mode h.alloc]
      exact ⟨h.mode, h.alloc, fun slot hSlot => (h.slot slot hSlot).append _⟩
  | input packets =>
    exact h.input hCase.2
  | tick e => exact h.tick hCase
  | setAddress j size data =>
    obtain ⟨_, rfl⟩ := hCase
    exact h.modify _ fun slot hSlot =>
      ⟨hSlot.cursor, addressFits_setAddress slot size data, hSlot.received, hSlot.sent⟩
  | resolve j id =>
    obtain ⟨_, rfl⟩ := hCase
    exact h.modify _ fun slot hSlot => ⟨hSlot.cursor, hSlot.address, hSlot.received, hSlot.sent⟩

-- ---------------------------------------------------------------------------
-- What a client keeps
-- ---------------------------------------------------------------------------

/-- The same of a client: what it has received fits, and what it has sent from its
own queue. About what it has queued and not sent, nothing is known. -/
structure ClientSendInv (peer : Peer) : Prop where
  mode : peer.mode = .client
  alloc : peer.alloc = .reliable
  received : ∀ m ∈ peer.queue, m.Small
  slot : ∀ slot ∈ peer.slots, slot.outIndex ≤ slot.queue.length ∧
    SmallBelow slot.queue slot.outIndex

/-- A change of a slot's ends. -/
theorem ClientSendInv.modify {peer : Peer} (h : ClientSendInv peer) (j : Nat)
    {f : PeerSlot → PeerSlot} (hOut : ∀ slot, (f slot).outIndex = slot.outIndex)
    (hQueue : ∀ slot, (f slot).queue = slot.queue) :
    ClientSendInv { peer with slots := peer.slots.modify j f } where
  mode := h.mode
  alloc := h.alloc
  received := h.received
  slot := by
    intro t ht
    obtain ⟨i, hi⟩ := List.mem_iff_getElem?.mp ht
    obtain ⟨slot, hSlot, rfl | rfl⟩ := exists_of_getElem?_modify hi
    · exact h.slot t (List.mem_of_getElem? hSlot)
    · rw [hOut, hQueue]
      exact h.slot slot (List.mem_of_getElem? hSlot)

/-- Any packets, session responses included, which change the actor ids of queued
messages. Neither the number of those messages nor their sizes change, and what is
added to the mutual queue has come in a packet, so it fits one. -/
theorem ClientSendInv.input {peer peer' : Peer} {packets : List PeerPacket} {s : Status}
    (h : ClientSendInv peer) (hInput : peerInput peer packets = .ok (s, peer')) :
    ClientSendInv peer' := by
  refine peerInput_invariant ?_ ?_ ?_ hInput h
  · intro p packet s cs al _ hp hCs
    exact ⟨hp.mode, (unpackPacket_keeps hCs).2 hp.alloc, hp.received, hp.slot⟩
  · intro start p p' packet j s cs al chunk _ _ hCs hMem hp _ hStep
    cases hStep with
    | hostSkip => exact hp
    | hostStore hMode => exact absurd hMode (by rw [hp.mode]; decide)
    | clientSkip => exact ⟨hp.mode, hp.alloc, hp.received, hp.slot⟩
    | clientRespond _ hSlot =>
      refine ⟨hp.mode, hp.alloc, hp.received, ?_⟩
      intro t ht
      rcases List.mem_or_eq_of_mem_set ht with hOld | rfl
      · exact hp.slot t hOld
      · -- the queue is relabelled, and keeps its data
        obtain ⟨hCursor, hSent⟩ := hp.slot _ (List.mem_of_getElem? hSlot)
        refine ⟨by simpa [PeerSlot.respond] using hCursor, hSent.of_data fun k m' _ hm' => ?_⟩
        rw [PeerSlot.respond, List.getElem?_map] at hm'
        obtain ⟨m, hm, rfl⟩ := Option.map_eq_some_iff.mp hm'
        exact ⟨m, hm, rfl⟩
    -- a message for the mutual queue, no larger than the packet that it came in
    | clientLearn _ _ _ hData hInsert =>
      have hKeep := (queueInsert_cases hInsert).1
      rw [hp.alloc] at hKeep
      exact ⟨hp.mode, hKeep rfl,
        small_queueInsert hp.received
          (length_data_le ((unpackPacket_keeps hCs).1 chunk hMem) hData) hInsert, hp.slot⟩
  · intro p packet _ hp _ _
    rcases assignSlot_cases p packet with hSame | ⟨_, _, _, hMode, _⟩
    · rw [hSame]
      exact hp
    · exact absurd hMode (by rw [hp.mode]; decide)

/-- A tick, also one that fails: the cursor is moved behind a call of `queue_pack`
without an error, and such a call has packed only messages that fit. -/
theorem ClientSendInv.tick {peer peer' : Peer} {e : Int} {s : Status} {ps : List PeerPacket}
    (h : ClientSendInv peer) (hTick : peerTick peer e = .ok (s, ps, peer')) :
    ClientSendInv peer' := by
  by_cases hValid : ValidElapsed peer e
  · have hTicked := peerTick_client_ticked h.mode h.alloc hValid hTick
    refine ⟨hTicked.mode, hTicked.alloc, by rw [hTicked.queue]; exact h.received, ?_⟩
    rcases hTicked.slots with ⟨_, hNil⟩ | ⟨slot, slot', slots, hSlots, hSlots', hSent, hMoved⟩
    · simp [hNil]
    · intro t ht
      rw [hSlots'] at ht
      rcases List.mem_cons.mp ht with rfl | hRest
      · obtain ⟨hCursor, hSmall⟩ := h.slot slot (by rw [hSlots]; exact List.mem_cons_self ..)
        have hOut := hSent.outIndex
        rw [hSent.queue]
        simp only [tickClock_outIndex, tickClock_queue] at hOut ⊢
        refine ⟨by omega, ?_⟩
        -- a cursor that moved has passed everything, so everything was sent
        by_cases hEq : t.outIndex = slot.outIndex
        · rw [hEq]
          exact hSmall
        · exact smallBelow_of_all (hSmall.all (hMoved hEq)) _
      · obtain ⟨old, hOld, rfl⟩ := List.mem_map.mp hRest
        have hInv := h.slot old (by rw [hSlots]; exact List.mem_cons_of_mem _ hOld)
        simpa using hInv
  · obtain ⟨_, _, rfl⟩ := eq_of_peerTick_invalid hValid hTick
    exact h

/-- Queueing a message of any size: it is behind the cursor, and the invariant says
nothing of what has not been sent. -/
theorem ClientSendInv.queue {peer : Peer} (h : ClientSendInv peer) (data : List UInt8) :
    ClientSendInv (peerQueue peer (some data)).2 := by
  cases hSlots : peer.slots with
  | nil =>
    simp only [peerQueue, h.mode, hSlots]
    exact h
  | cons slot slots =>
    rw [peerQueue_client h.mode h.alloc hSlots]
    refine ⟨h.mode, h.alloc, h.received, ?_⟩
    intro t ht
    rcases List.mem_cons.mp ht with rfl | hRest
    · obtain ⟨hCursor, hSmall⟩ := h.slot slot (by rw [hSlots]; exact List.mem_cons_self ..)
      refine ⟨by rw [List.length_append]; exact Nat.le_add_right_of_le hCursor, ?_⟩
      refine hSmall.of_data fun k m' hk hm' => ⟨m', ?_, rfl⟩
      rw [List.getElem?_append_left (Nat.lt_of_lt_of_le hk hCursor)] at hm'
      exact hm'
    · exact h.slot t (by rw [hSlots]; exact List.mem_cons_of_mem _ hRest)

/-- **Step lemma of a client**: nothing is asked of the packets nor of the sizes,
since the invariant only speaks of messages that have come in packets, or that the
cursor has passed. -/
theorem ClientSendInv.step {peer peer' : Peer} {a : PeerAction} (h : ClientSendInv peer)
    (hStep : peer.step a = .ok peer') : ClientSendInv peer' := by
  obtain ⟨s, ps, hAct⟩ := Peer.step_eq_ok.mp hStep
  have hCase := Peer.act_cases hAct
  cases a with
  | openSlots ids =>
    obtain ⟨_, rfl⟩ := hCase
    rw [peerOpen_reliable h.alloc]
    refine ⟨h.mode, h.alloc, h.received, ?_⟩
    intro t ht
    rcases List.mem_append.mp ht with hOld | hNew
    · exact h.slot t hOld
    -- nothing was sent from a new slot
    · obtain ⟨i, id, _, rfl⟩ := List.mem_mapIdx.mp hNew
      exact ⟨Nat.le_refl _, fun k _ hk => absurd hk (Nat.not_lt_zero k)⟩
  | connect serverId =>
    obtain ⟨_, rfl⟩ := hCase
    obtain ⟨i, hConnect⟩ := peerConnect_modifies peer serverId
    rw [hConnect]
    exact h.modify _ (fun _ => rfl) (fun _ => rfl)
  | queue messageData =>
    obtain ⟨_, rfl⟩ := hCase
    cases messageData with
    | none => exact h
    | some data => exact h.queue data
  | input packets => exact h.input hCase.2
  | tick e => exact h.tick hCase
  | setAddress j size data =>
    obtain ⟨_, rfl⟩ := hCase
    exact h.modify _ (fun _ => rfl) (fun _ => rfl)
  | resolve j id =>
    obtain ⟨_, rfl⟩ := hCase
    exact h.modify _ (fun _ => rfl) (fun _ => rfl)

-- ---------------------------------------------------------------------------
-- The next tick
-- ---------------------------------------------------------------------------

/-- The queue that a slot is sent: the mutual one of a host, its own of a client. -/
def Peer.outQueue (peer : Peer) (slot : PeerSlot) : PeerQueue :=
  match peer.mode with
  | .host => peer.queue
  | .client => slot.queue

/-- The slot at position `j` is one that queued messages go out from: a ready
slot above the listening slot on a host, the first slot on a client. -/
def IsSending (peer : Peer) (j : Nat) : Prop :=
  ∃ slot, peer.slots[j]? = some slot ∧
    match peer.mode with
    | .host => 1 ≤ j ∧ slot.state = .ready
    | .client => j = 0

/-- The next tick succeeds, copies every message that the slot at position `j`
was not sent yet into the data array of a packet, and takes note of that. -/
def Transmits (peer : Peer) (j : Nat) (e : Int) : Prop :=
  ∃ packets peer' slot slot', peerTick peer e = .ok (kitOk, packets, peer') ∧
    peer.slots[j]? = some slot ∧ peer'.slots[j]? = some slot' ∧
    slot'.outIndex = (peer'.outQueue slot').length ∧
    ∀ k m, slot.outIndex ≤ k → (peer'.outQueue slot')[k]? = some m →
      ∃ p ∈ packets, m.chunk k <:+: p.data.elems

/-- The elapsed time is accepted, every queued message fits a packet, and, on a
client with nothing new to send, a due heartbeat finds its trail. -/
def TransmitsWhen (peer : Peer) (j : Nat) (e : Int) : Prop :=
  ValidElapsed peer e ∧ ∃ slot, peer.slots[j]? = some slot ∧
    (∀ m ∈ peer.outQueue slot, m.Small) ∧
    (peer.mode = .client → TrailInside peer (slot.tickClock e))

/-- The merge appends messages that fit, so it makes no difference whether the queue
is looked at before or after it. -/
theorem HostSendInv.small_merged {peer : Peer} (h : HostSendInv peer) {e : Int} :
    (∀ m ∈ (peer.tickClock e).merged.queue, m.Small) ↔ ∀ m ∈ peer.queue, m.Small := by
  constructor
  · intro hMerged m hm
    obtain ⟨k, hk⟩ := List.mem_iff_getElem?.mp hm
    have hNew := getElem?_merged_queue (e := e) (List.getElem?_eq_some_iff.mp hk).1
    rw [hk, Option.map_some] at hNew
    have hSmall := hMerged _ (List.mem_of_getElem? hNew)
    split at hSmall <;> exact hSmall
  · intro hOld m' hm'
    rcases mem_merged_queue hm' with ⟨m, hm, rfl | rfl⟩ | ⟨slot, hSlot, m, hm, _, rfl⟩
    · exact hOld m' hm
    · exact hOld m hm
    · exact (h.slot slot (List.mem_of_mem_tail hSlot)).received m hm

/-- A ready slot whose turn it is: there are new messages, or its heartbeat is due. -/
def Due (queue : PeerQueue) (slot : PeerSlot) : Prop :=
  slot.outIndex < queue.length ∨ slot.clockHeartbeat ≤ 0

/-- Every entry from `PEER_TRAIL_SERIAL_SIZE` behind the cursor on goes out, and
all of them do while the cursor is low. -/
theorem SlotSends.covers {listenId time actor : Int} {queue : PeerQueue} {slot slot' : PeerSlot}
    {ps : List PeerPacket} (h : SlotSends listenId time actor queue slot slot' ps)
    (hReady : slot.state = .ready) (hDue : Due queue slot) {k : Nat} {m : PeerMessage}
    (hm : queue[k]? = some m)
    (hk : slot.outIndex ≤ k + peerTrailSerialSize ∨
      slot.outIndex < peerTrailSerialSize + peerTrailScatterDistance) :
    ∃ p ∈ ps, ∃ cs, Sealed slot.localEnd.id slot.remoteEnd.id p cs ∧ m.chunk k ∈ cs := by
  have hLt := (List.getElem?_eq_some_iff.mp hm).1
  cases h with
  | idle hIdle =>
    rcases hIdle with hEmpty | ⟨_, hNone, hClock⟩
    · rw [hReady] at hEmpty
      cases hEmpty
    · rcases hDue with hNew | hHeartbeat <;> omega
  | response hState =>
    rw [hReady] at hState
    cases hState
  | messages rng _ _ hCarried =>
    exact hCarried.exists_packet (mem_chunksAt.mpr ⟨k, m, mem_packIndices hLt hk rng, hm, rfl⟩)
  | heartbeat rng _ hCursor _ hCarried =>
    -- nothing is new, so the entry is behind the cursor
    refine hCarried.exists_packet (List.mem_cons_of_mem _ (mem_chunksAt.mpr ⟨k, m, ?_, hm, rfl⟩))
    exact mem_trailIndices_covered (by omega) hk rng

/-- What a tick sends, when every queued message fits a packet. -/
theorem HostSendInv.exists_sends {peer : Peer} (h : HostSendInv peer)
    (hSmall : ∀ m ∈ peer.queue, m.Small) {e : Int} (hValid : ValidElapsed peer e) :
    ∃ packets peer', peerTick peer e = .ok (kitOk, packets, peer') ∧ HostSends peer e packets peer' :=
  peerTick_host_sends h.mode h.alloc hValid (fun slot hSlot => (h.slot slot hSlot).cursor)
    (fun slot hSlot => (h.slot slot hSlot).address) (h.small_merged.mpr hSmall)

/-- And every tick of it is of that kind. -/
theorem HostSendInv.sends {peer peer' : Peer} (h : HostSendInv peer)
    (hSmall : ∀ m ∈ peer.queue, m.Small) {e : Int} (hValid : ValidElapsed peer e) {s : Status}
    {ps : List PeerPacket} (hTick : peerTick peer e = .ok (s, ps, peer')) :
    s = kitOk ∧ HostSends peer e ps peer' := by
  obtain ⟨packets, host, hTick', hSends⟩ := h.exists_sends hSmall hValid
  rw [hTick, Except.ok.injEq, Prod.mk.injEq, Prod.mk.injEq] at hTick'
  obtain ⟨rfl, rfl, rfl⟩ := hTick'
  exact ⟨rfl, hSends⟩

/-- The next tick of a host, for one of its ready slots. The whole mutual queue has
to fit: what the cursor has passed went out, so it fits already, and what it has not
passed has to go out in this tick. -/
theorem transmits_host_iff {peer : Peer} (h : HostSendInv peer) {j : Nat} {slot : PeerSlot}
    (hj : 1 ≤ j) (hSlot : peer.slots[j]? = some slot) (hReady : slot.state = .ready) (e : Int) :
    Transmits peer j e ↔ ValidElapsed peer e ∧ ∀ m ∈ peer.queue, m.Small := by
  have hCursor : ∀ slot ∈ peer.slots, slot.outIndex ≤ peer.queue.length :=
    fun slot hSlot => (h.slot slot hSlot).cursor
  constructor
  · rintro ⟨packets, peer', slot1, slot', hTick, hSlot1, hSlot', hAll, _⟩
    obtain rfl : slot = slot1 := by
      rw [hSlot] at hSlot1
      exact Option.some.inj hSlot1
    have hValid := validElapsed_of_kitOk hTick
    refine ⟨hValid, (h.small_merged (e := e)).mp ?_⟩
    -- what the cursor has passed, before the tick and in it, is all there is
    have hTicked := peerTick_host_ticked h.mode h.alloc hValid hCursor hTick
    have hInv := (h.tick hTick).slot slot' (List.mem_of_getElem? hSlot')
    simp only [Peer.outQueue, hTicked.mode] at hAll
    rw [← hTicked.queue]
    refine hInv.sent.all fun k m hk hm => ?_
    have := (List.getElem?_eq_some_iff.mp hm).1
    omega
  · rintro ⟨hValid, hSmall⟩
    obtain ⟨packets, peer', hTick, hSends⟩ := h.exists_sends hSmall hValid
    have hTicked := peerTick_host_ticked h.mode h.alloc hValid hCursor hTick
    obtain ⟨slot', ps, hSlot', hMem, hSend⟩ := hSends.toSlot j slot hj hSlot
    have hLen : slot.outIndex ≤ peer'.queue.length := by
      rw [hTicked.queue]
      exact Nat.le_trans (hCursor slot (List.mem_of_getElem? hSlot)) (length_le_merged peer e)
    -- the cursor is at the end, and what it has passed was packed
    refine ⟨packets, peer', slot, slot', hTick, hSlot, hSlot', ?_, ?_⟩
    · simp only [Peer.outQueue, hTicked.mode]
      exact hSend.caughtUp (by simpa using hReady) (by simpa using hLen)
    · simp only [Peer.outQueue, hTicked.mode]
      intro k m hk hm
      have hLt := (List.getElem?_eq_some_iff.mp hm).1
      obtain ⟨p, hp, some, hSealed, hc⟩ := hSend.covers (by simpa using hReady)
        (Or.inl (by simp only [merged_outIndex, tickClock_outIndex]; omega)) hm
        (Or.inl (by simp only [merged_outIndex, tickClock_outIndex]; omega))
      exact ⟨p, hMem p hp, hSealed.infix hc⟩

/-- The next tick of a client, for its first slot: the messages of the slot's queue
have to fit, and where a heartbeat is due its trail has to lie inside the mutual
queue. -/
theorem transmits_client_iff {peer : Peer} (h : ClientSendInv peer) {slot : PeerSlot}
    (hSlot : peer.slots[0]? = some slot) (e : Int) :
    Transmits peer 0 e ↔ ValidElapsed peer e ∧ (∀ m ∈ slot.queue, m.Small) ∧
      TrailInside peer (slot.tickClock e) := by
  obtain ⟨slots, hSlots⟩ : ∃ slots, peer.slots = slot :: slots := by
    rw [← List.head?_eq_getElem?] at hSlot
    exact List.head?_eq_some_iff.mp hSlot
  constructor
  · rintro ⟨packets, peer', slot1, slot', hTick, hSlot1, hSlot', hAll, _⟩
    obtain rfl : slot = slot1 := by
      rw [hSlot] at hSlot1
      exact Option.some.inj hSlot1
    have hValid := validElapsed_of_kitOk hTick
    refine ⟨hValid, ?_, trailInside_of_peerTick h.mode hSlots h.alloc hValid hTick⟩
    have hTicked := peerTick_client_ticked h.mode h.alloc hValid hTick
    have hInv := ((h.tick hTick).slot slot' (List.mem_of_getElem? hSlot')).2
    simp only [Peer.outQueue, hTicked.mode] at hAll
    -- the queue of the slot is what it was
    have hQueue : slot'.queue = slot.queue := by
      obtain ⟨slot2, hSlots', hSent, _⟩ := hTicked.cons hSlots
      rw [hSlots'] at hSlot'
      obtain rfl := Option.some.inj hSlot'
      simpa using hSent.queue
    rw [hQueue] at hInv hAll
    -- the cursor is at the end of the queue, so all of it was packed
    refine hInv.all fun k m hk hm => ?_
    have := (List.getElem?_eq_some_iff.mp hm).1
    omega
  · rintro ⟨hValid, hSmall, hTrail⟩
    obtain ⟨slot', ps, rng, hTick, hSends⟩ := peerTick_client h.mode hSlots h.alloc hValid hSmall
      h.received hTrail
    have hCursor := (h.slot slot (List.mem_of_getElem? hSlot)).1
    refine ⟨ps, _, slot, slot', hTick, hSlot, rfl, ?_, ?_⟩
    · simp only [Peer.outQueue, Peer.tickClock, h.mode]
      exact hSends.caughtUp (by simpa using hCursor)
    · simp only [Peer.outQueue, Peer.tickClock, h.mode]
      intro k m hk hm
      rw [hSends.queue_eq] at hm
      have hLt := (List.getElem?_eq_some_iff.mp hm).1
      obtain ⟨p, hp, some, hSealed, hc⟩ := hSends.covers
        (by rw [tickClock_queue, tickClock_outIndex] at *; omega) hm
        (Or.inl (by rw [tickClock_outIndex]; omega))
      exact ⟨p, hp, hSealed.infix hc⟩

/-- A sequence of `peer_queue` calls with data that is not null. -/
def queueAll (peer : Peer) (messages : List (List UInt8)) : Peer :=
  messages.foldl (fun p data => (peerQueue p (some data)).2) peer

/-- Queueing is a part of the run. -/
theorem reaches_queueAll {guard : Peer → PeerAction → Peer → Prop}
    (hGuard : ∀ p data p', guard p (.queue data) p') {start peer : Peer}
    (h : Reaches Peer.step guard start peer) (messages : List (List UInt8)) :
    Reaches Peer.step guard start (queueAll peer messages) := by
  induction messages generalizing peer with
  | nil => exact h
  | cons data messages ih =>
    exact ih (h.tail ⟨.queue (some data), rfl, hGuard _ _ _⟩)

/-- Queueing does not change which slots send: it changes the queues, and neither
the mode nor the state of a slot. -/
theorem isSending_queueAll {peer : Peer} {j : Nat} (h : IsSending peer j)
    (messages : List (List UInt8)) : IsSending (queueAll peer messages) j := by
  induction messages generalizing peer with
  | nil => exact h
  | cons data messages ih =>
    refine ih ?_
    obtain ⟨slot, hSlot, hMode⟩ := h
    unfold peerQueue
    cases hM : peer.mode with
    | host =>
      simp only [hM] at hMode ⊢
      exact ⟨slot, hSlot, hMode⟩
    | client =>
      simp only [hM] at hMode ⊢
      subst hMode
      split
      · exact ⟨slot, hSlot, by rw [hM]⟩
      · exact ⟨_, rfl, rfl⟩

/-- **Every queued message can be transmitted** exactly when it fits a packet,
for every peer that a run without allocation failures reaches, and every
sequence of messages queued there. -/
theorem transmits_iff {mode : PeerMode} {rng : Mt64} {peer : Peer}
    (hReach : Reaches Peer.step (fun _ _ _ => True) (peerInit mode .reliable rng) peer)
    {j : Nat} (hSending : IsSending peer j) (messages : List (List UInt8)) (e : Int) :
    Transmits (queueAll peer messages) j e ↔ TransmitsWhen (queueAll peer messages) j e := by
  have hReach' := reaches_queueAll (fun _ _ _ => trivial) hReach messages
  obtain ⟨slot, hSlot, hMode⟩ := isSending_queueAll hSending messages
  -- the condition at the one slot that the position names
  have hOnly : TransmitsWhen (queueAll peer messages) j e ↔ ValidElapsed (queueAll peer messages) e ∧
      (∀ m ∈ (queueAll peer messages).outQueue slot, m.Small) ∧
      ((queueAll peer messages).mode = .client →
        TrailInside (queueAll peer messages) (slot.tickClock e)) := by
    unfold TransmitsWhen
    rw [hSlot]
    simp
  rw [hOnly]
  cases mode with
  | host =>
    have hInv : HostSendInv (queueAll peer messages) :=
      hReach'.invariant (fun _ _ _ hInv hOk _ => hInv.step hOk)
        ⟨rfl, rfl, fun slot hSlot => by simp [peerInit] at hSlot⟩
    simp only [hInv.mode] at hMode
    rw [transmits_host_iff hInv hMode.1 hSlot hMode.2 e, Peer.outQueue, hInv.mode]
    simp
  | client =>
    have hInv : ClientSendInv (queueAll peer messages) :=
      hReach'.invariant (fun _ _ _ hInv hOk _ => hInv.step hOk)
        ⟨rfl, rfl, by simp [peerInit], fun slot hSlot => by simp [peerInit] at hSlot⟩
    simp only [hInv.mode] at hMode
    subst hMode
    rw [transmits_client_iff hInv hSlot e, Peer.outQueue, hInv.mode]
    simp

/-- A client with one slot that has not been answered yet: clients send at once. -/
def openedClient : Peer := (peerOpen (peerInit .client .reliable ⟨fun _ => 0⟩) (some [3])).2

/-- It is reached from a new client. -/
theorem reaches_openedClient :
    Reaches Peer.step (fun _ _ _ => True) (peerInit .client .reliable ⟨fun _ => 0⟩) openedClient :=
  Relation.ReflTransGen.single ⟨.openSlots (some [3]), rfl, trivial⟩

/-- Two short messages of such a client. -/
theorem transmits_iff_client :
    Transmits (queueAll openedClient [[7], [8, 9]]) 0 0 ↔
      TransmitsWhen (queueAll openedClient [[7], [8, 9]]) 0 0 :=
  transmits_iff reaches_openedClient ⟨_, rfl, rfl⟩ [[7], [8, 9]] 0

/-- One byte more than a packet has room for, and the client's tick writes past
the end of the packet. -/
theorem not_transmits :
    ¬ ∀ (mode : PeerMode) (rng : Mt64) (peer : Peer),
      Reaches Peer.step (fun _ _ _ => True) (peerInit mode .reliable rng) peer →
      ∀ j, IsSending peer j → ∀ messages e, ValidElapsed (queueAll peer messages) e →
        Transmits (queueAll peer messages) j e := by
  intro hAll
  obtain ⟨packets, peer', _, _, hTick, _⟩ := hAll _ _ _ reaches_openedClient 0 ⟨_, rfl, rfl⟩
    [List.replicate 356 0] 0 (by decide +kernel)
  have hFault : (peerTick (queueAll openedClient [List.replicate 356 0]) 0).isOk = false := by
    decide +kernel
  rw [hTick] at hFault
  cases hFault

end PeerProtocol
