import PeerProtocol.Peer.Emission
import PeerProtocol.Peer.Learn

/-!
# peer — the handshake

A client asks a host for a session, and the host answers: three calls, from
one tick of the client to the input of what the host's next tick sends it. The
client's first packet need not say anything; that it comes from an id which
the host has no slot for is enough, and the host does not look at what is in
it.

The result is about every client with one slot that any calls have led to, and
every host with a free slot for it: afterwards the client has the position of
that slot as actor id, and so have all messages it has queued; it has the
address of the slot, with a remote id that is to be resolved again; and its
mutual time is the later of its own and the host's.

## Plan

The proof has two halves that meet at the packets of the answer, which carry
one chunk.

* `OwnQueue` — the outgoing queue of a client with one slot, in every state
  that a run reaches: all entries are ready, without a time, under the
  client's actor id.
* `Listening` — a host that listens at its first slot; `peerInput_request` —
  what it does with one packet of a client that it does not know;
  `peerTick_answer` — and then in a tick: the packets for that client are
  those of one response.
* `peerInput_response` — what a client does with the packets of the answer,
  one of which carries the chunk while the others are empty.
* `Listening.exchange` — the two halves, one after the other.

## Result

* `handshake` — for all clients and hosts that runs reach.
-/

namespace PeerProtocol

open Lib

-- ---------------------------------------------------------------------------
-- The outgoing queue of a client
-- ---------------------------------------------------------------------------

/-- An entry of an outgoing queue: it waits to be sent, and has the client's actor
id. The session response relabels what was queued before it came. -/
structure OwnEntry (actor : Int) (m : PeerMessage) : Prop where
  ready : m.isReady = true
  time : m.time = 0
  actor : m.actor = actor

/-- A client whose outgoing queue, if it has no more than one slot, has its
messages only. Slots are never closed, so a client with one slot had no more
than that before. -/
structure OwnQueue (client : Peer) : Prop where
  mode : client.mode = .client
  entry : client.slots.length ≤ 1 → ∀ slot ∈ client.slots, ∀ m ∈ slot.queue,
    OwnEntry client.actor m

/-- A new client has no slots. -/
theorem ownQueue_peerInit (alloc : Allocator) (rng : Mt64) : OwnQueue (peerInit .client alloc rng) where
  mode := rfl
  entry := by simp [peerInit]

/-- A change of a slot that leaves its queue. -/
theorem OwnQueue.modify {client : Peer} (h : OwnQueue client) (j : Nat) {f : PeerSlot → PeerSlot}
    (hQueue : ∀ slot, (f slot).queue = slot.queue) :
    OwnQueue { client with slots := client.slots.modify j f } where
  mode := h.mode
  entry := by
    intro hLen slot' hSlot'
    dsimp only at hLen hSlot'
    rw [List.length_modify] at hLen
    obtain ⟨i, hi⟩ := List.mem_iff_getElem?.mp hSlot'
    obtain ⟨slot, hSlot, rfl | rfl⟩ := exists_of_getElem?_modify hi
    · exact h.entry hLen slot' (List.mem_of_getElem? hSlot)
    · rw [hQueue]
      exact h.entry hLen slot (List.mem_of_getElem? hSlot)

theorem OwnQueue.open {client : Peer} (h : OwnQueue client) (ids : Option (List Int)) :
    OwnQueue (peerOpen client ids).2 := by
  obtain ⟨opened, al, hOpen⟩ := peerOpen_opens client ids
  rw [hOpen]
  refine ⟨h.mode, fun hLen slot hSlot => ?_⟩
  rw [List.length_append] at hLen
  rcases List.mem_append.mp hSlot with hOld | hNew
  · exact h.entry (by omega) slot hOld
  · obtain ⟨i, _, rfl⟩ := List.mem_mapIdx.mp hNew
    simp [openSlot]

/-- A message is queued under the client's actor id, or refused. The id is whatever
the client has at the time, also if it is still undefined: a session response will
write it again. -/
theorem OwnQueue.queue {client : Peer} (h : OwnQueue client) (messageData : Option (List UInt8)) :
    OwnQueue (peerQueue client messageData).2 := by
  cases messageData with
  | none => exact h
  | some data =>
    cases hSlots : client.slots with
    | nil =>
      simp only [peerQueue, h.mode, hSlots]
      exact h
    | cons slot slots =>
      have hEntry := h.entry
      rw [hSlots] at hEntry
      -- with or without an allocation failure, the queue has its entries and perhaps one more
      have hAppend : ∀ m ∈ (queueAppend slot.queue 0 client.actor data client.alloc).2.1,
          m ∈ slot.queue ∨ OwnEntry client.actor m := by
        unfold queueAppend
        split
        · exact fun m hm => Or.inl hm
        split
        · exact fun m hm => Or.inl hm
        · intro m hm
          rcases List.mem_append.mp hm with hOld | hNew
          · exact Or.inl hOld
          · rw [List.mem_singleton.mp hNew]
            exact Or.inr ⟨rfl, rfl, rfl⟩
      simp only [peerQueue, h.mode, hSlots]
      refine ⟨rfl, fun hLen slot' hSlot' m hm => ?_⟩
      rcases List.mem_cons.mp hSlot' with rfl | hLater
      · rcases hAppend m hm with hOld | hNew
        · exact hEntry hLen slot (List.mem_cons_self ..) m hOld
        · exact hNew
      · exact hEntry hLen slot' (List.mem_cons_of_mem _ hLater) m hm

/-- A session response changes the actor id of the client and of what is queued,
together. With one slot that is all there is to change; with more of them the queues
of the others would keep the old id. -/
theorem OwnQueue.input {client client' : Peer} {packets : List PeerPacket} {s : Status}
    (h : OwnQueue client) (hInput : peerInput client packets = .ok (s, client')) :
    OwnQueue client' := by
  refine peerInput_invariant ?_ ?_ ?_ hInput h
  · intro p packet s cs al _ hp _
    exact ⟨hp.mode, hp.entry⟩
  · intro start p p' packet j s cs al chunk _ _ _ _ hp _ hStep
    cases hStep with
    | hostSkip => exact hp
    | hostStore hMode => exact absurd hMode (by rw [hp.mode]; decide)
    | clientSkip => exact ⟨hp.mode, hp.entry⟩
    | @clientRespond slot header address _ hSlot =>
      -- the one slot there is gets the new actor id, and all its messages with it
      refine ⟨hp.mode, fun hLen slot' hSlot' m hm => ?_⟩
      dsimp only at hLen hSlot' ⊢
      rw [List.length_set] at hLen
      obtain ⟨hj, _⟩ := List.getElem?_eq_some_iff.mp hSlot
      obtain ⟨i, hi⟩ := List.mem_iff_getElem?.mp hSlot'
      rcases getElem?_set_cases hi with ⟨_, rfl⟩ | ⟨hNe, hOld⟩
      · obtain ⟨m, hMem, rfl⟩ := List.mem_map.mp hm
        have hEntry := hp.entry hLen slot (List.mem_of_getElem? hSlot) m hMem
        exact ⟨hEntry.ready, hEntry.time, rfl⟩
      · have := (List.getElem?_eq_some_iff.mp hOld).1
        omega
    | clientLearn => exact ⟨hp.mode, hp.entry⟩
  · intro p packet _ hp _ _
    rw [assignSlot, if_pos (Or.inl (by rw [hp.mode]; decide))]
    exact hp

/-- A tick takes nothing from the queue and writes none of its entries: what is sent
is counted by the cursor, and the messages stay for the trails to come. -/
theorem OwnQueue.tick {client client' : Peer} {e : Int} {s : Status} {ps : List PeerPacket}
    (h : OwnQueue client) (hTick : peerTick client e = .ok (s, ps, client')) : OwnQueue client' := by
  by_cases hValid : ValidElapsed client e
  swap
  · obtain ⟨_, _, rfl⟩ := eq_of_peerTick_invalid hValid hTick
    exact h
  rcases peerTick_client_sent h.mode hValid hTick with
    ⟨hNil, rfl⟩ | ⟨slot, slot', slots, rng, al, hSlots, hSent, rfl⟩
  · refine ⟨h.mode, fun _ slot hSlot => ?_⟩
    rw [tickClock_slots, hNil] at hSlot
    cases hSlot
  · have hEntry := h.entry
    rw [hSlots] at hEntry
    refine ⟨h.mode, fun hLen t ht m hm => ?_⟩
    dsimp only at hLen ht
    rw [List.length_cons, List.length_map] at hLen
    -- The slot that was sent to keeps its queue, and so do those whose clocks alone were moved.
    rcases List.mem_cons.mp ht with rfl | hLater
    · rw [hSent.queue, tickClock_queue] at hm
      exact hEntry hLen slot (List.mem_cons_self ..) m hm
    · obtain ⟨old, hOld, rfl⟩ := List.mem_map.mp hLater
      rw [tickClock_queue] at hm
      exact hEntry hLen old (List.mem_cons_of_mem _ hOld) m hm

/-- **Step lemma of the outgoing queue**, for every action of a client. Queueing
labels with the actor id at hand, and the one place that changes the id relabels the
queue. -/
theorem OwnQueue.act {client client' : Peer} {a : PeerAction} {s : Status} {ps : List PeerPacket}
    (h : OwnQueue client) (hAct : client.act a = .ok (s, ps, client')) : OwnQueue client' := by
  have hCase := Peer.act_cases hAct
  cases a with
  | openSlots ids =>
    obtain ⟨_, rfl⟩ := hCase
    exact h.open ids
  | connect serverId =>
    obtain ⟨_, rfl⟩ := hCase
    -- It writes the remote end of one slot.
    obtain ⟨i, hConnect⟩ := peerConnect_modifies client serverId
    rw [hConnect]
    exact h.modify _ fun _ => rfl
  | queue messageData =>
    obtain ⟨_, rfl⟩ := hCase
    exact h.queue messageData
  | input packets => exact h.input hCase.2
  | tick e => exact h.tick hCase
  | setAddress j size data =>
    obtain ⟨_, rfl⟩ := hCase
    exact h.modify _ fun _ => rfl
  | resolve j id =>
    obtain ⟨_, rfl⟩ := hCase
    exact h.modify _ fun _ => rfl

-- ---------------------------------------------------------------------------
-- The host's half
-- ---------------------------------------------------------------------------

/-- What is asked of a host: the calls of its application, and the input of any packets. -/
def PeerAction.isHostUse : PeerAction → Bool
  | .input _ => true
  | a => a.isHostCall

/-- A host that listens at its first slot, and whose messages fit packets. That it
listens means that its first slot is not bound, which no call of a host's
application changes. -/
structure Listening (host : Peer) : Prop extends HostInv host where
  small : ∀ m ∈ host.queue, m.Small
  first : ∀ slot, host.slots[0]? = some slot → slot.remoteEnd.id = peerUndefined

/-- A new host has no slot, and so none that is taken. -/
theorem listening_peerInit (rng : Mt64) : Listening (peerInit .host .reliable rng) where
  toHostInv := hostInv_peerInit rng
  small := by simp [peerInit]
  first := by simp [peerInit]

/-- No input binds the first slot: the search for a free one begins behind it. So a
host that listens once goes on listening, whatever packets come in. -/
theorem peerInput_host_first {host host' : Peer} {packets : List PeerPacket} {s : Status}
    (hMode : host.mode = .host) (h : peerInput host packets = .ok (s, host'))
    (hFirst : ∀ slot, host.slots[0]? = some slot → slot.remoteEnd.id = peerUndefined) :
    ∀ slot, host'.slots[0]? = some slot → slot.remoteEnd.id = peerUndefined := by
  have hBoth : host'.mode = .host ∧
      ∀ slot, host'.slots[0]? = some slot → slot.remoteEnd.id = peerUndefined := by
    refine peerInput_invariant (I := fun p => p.mode = .host ∧
      ∀ slot, p.slots[0]? = some slot → slot.remoteEnd.id = peerUndefined) ?_ ?_ ?_ h ⟨hMode, hFirst⟩
    · intro p packet s cs al _ hp _
      exact hp
    · rintro start p p' packet j s cs al chunk _ _ _ _ ⟨hHost, hp⟩ _ hStep
      cases hStep.onHost hHost with
      | skip => exact ⟨hHost, hp⟩
      | store hSlot =>
        refine ⟨hHost, fun slot hZero => ?_⟩
        rcases getElem?_set_cases hZero with ⟨rfl, rfl⟩ | ⟨_, hOld⟩
        · have hUnbound := hp _ hSlot
          exact hUnbound
        · exact hp slot hOld
    · rintro p packet _ ⟨hHost, hp⟩ _ _
      rcases assignSlot_cases p packet with hSame | ⟨j, _, _, _, _, _, hj, _, _, _, hSet⟩
      · rw [hSame]
        exact ⟨hHost, hp⟩
      · rw [hSet]
        -- a slot that is assigned is above the first
        refine ⟨hHost, fun slot hZero => hp slot ?_⟩
        rw [← hZero]
        exact (List.getElem?_set_ne (by omega)).symm
  exact hBoth.2

/-- **Step lemma of a listening host**, for the calls of its application and for any
input: the first slot stays unbound, and all messages of the mutual queue, the
application's own and the merged ones, fit a packet. -/
theorem Listening.act {host host' : Peer} {a : PeerAction} {s : Status} {ps : List PeerPacket}
    (h : Listening host) (hUse : a.isHostUse = true) (hQueues : a.QueuesSmall)
    (hAct : host.act a = .ok (s, ps, host')) : Listening host' := by
  refine ⟨h.toHostInv.act hAct, h.toHostInv.small_act hQueues h.small hAct, ?_⟩
  have hCase := Peer.act_cases hAct
  -- the listening slot as a statement about all slots, which the slot lemmas keep
  have hAll : ∀ (j : Nat) (slot : PeerSlot), host.slots[j]? = some slot →
      (j = 0 → slot.remoteEnd.id = peerUndefined) := by
    rintro j slot hSlot rfl
    exact h.first slot hSlot
  cases a with
  | openSlots ids =>
    obtain ⟨_, rfl⟩ := hCase
    rw [peerOpen_reliable h.alloc]
    exact fun slot hSlot => slots_open hAll (fun _ _ _ _ _ _ => rfl) 0 slot hSlot rfl
  | queue messageData =>
    obtain ⟨_, rfl⟩ := hCase
    cases messageData with
    | none => exact h.first
    | some data =>
      rw [peerQueue_host h.mode h.alloc]
      exact h.first
  | input packets => exact peerInput_host_first h.mode hCase.2 h.first
  | tick e =>
    by_cases hValid : ValidElapsed host e
    · intro slot' hSlot'
      rw [(h.ticked hValid hCase).first] at hSlot'
      obtain ⟨slot, hSlot, rfl⟩ := Option.map_eq_some_iff.mp hSlot'
      rw [tickClock_remoteEnd]
      exact h.first slot hSlot
    · obtain ⟨_, _, rfl⟩ := eq_of_peerTick_invalid hValid hCase
      exact h.first
  | setAddress j size data =>
    obtain ⟨_, rfl⟩ := hCase
    exact fun slot hSlot => slots_modify (f := (·.setAddress size data)) hAll j
      (fun _ _ hOld => hOld) 0 slot hSlot rfl
  | connect serverId => cases hUse
  | resolve j id => cases hUse

section Answer

variable {host : Peer} {first free : PeerSlot} {j : Nat}

/-- **The request**: a packet for the listening slot from an id that no slot is
bound to gets the lowest free slot. -/
theorem peerInput_request (hMode : host.mode = .host) (hFirst : host.slots[0]? = some first)
    (hListen : first.remoteEnd.id = peerUndefined) (hFree : freeSlot host.slots = some j)
    (hSlot : host.slots[j]? = some free) {p : PeerPacket} (hTo : p.destinationId = first.localEnd.id)
    (hUnseen : ∀ slot ∈ host.slots, slot.remoteEnd.id ≠ p.sourceId) :
    peerInput host [p] =
      .ok (kitOk, { host with slots := host.slots.set j (free.assign j p.sourceId) }) := by
  have hAddressed : host.slots.any (fun slot => slot.localEnd.id == p.destinationId) = true :=
    List.any_eq_true.mpr ⟨first, List.mem_of_getElem? hFirst, beq_iff_eq.mpr hTo.symm⟩
  -- the sender is new to the host
  have hNone : host.slots.findIdx? (·.matchesPacket p) = none := by
    rw [List.findIdx?_eq_none_iff]
    intro slot hMem
    rw [PeerSlot.matchesPacket, Bool.and_eq_false_iff]
    exact Or.inr (beq_eq_false_iff_ne.mpr (hUnseen slot hMem))
  have hHead : (host.slots.head?).any (fun slot => slot.remoteEnd.id == peerUndefined) = true := by
    rw [List.head?_eq_getElem?, hFirst]
    exact beq_iff_eq.mpr hListen
  rw [peerInput, inputPacket, if_pos hAddressed, hNone]
  dsimp only
  rw [assignSlot, if_neg (by rw [hMode, hHead]; simp), hFree]
  dsimp only
  rw [ok_bind, modify_eq_set_of_getElem? hSlot]
  dsimp only
  rw [peerInput, ok_bind]
  simp only [pure_eq_ok, kitOk, UInt32.or_zero]

/-- What a tick sends from the listening id to one remote id is what it sends to
the slot there, if no other slot is bound to that id. -/
theorem filter_of_posts {listenId time actor id e : Int} {queue : PeerQueue} {slots : List PeerSlot}
    {sent : List (PeerSlot × List PeerPacket)}
    (hAll : List.Forall₂ (fun slot r => SlotPosts listenId time actor queue slot r.1 r.2)
      (slots.map fun slot => (slot.tickClock e).merged) sent)
    {i : Nat} {r : PeerSlot × List PeerPacket} (hr : sent[i]? = some r) (hOwn : Between listenId id r.2)
    (hOther : ∀ (k : Nat) (slot : PeerSlot), slots[k]? = some slot → slot.remoteEnd.id = id → k = i) :
    ((sent.map Prod.snd).flatten.filter fun p => p.destinationId == id && p.sourceId == listenId) =
      r.2 := by
  rw [← List.flatMap_def]
  refine filter_flatMap_of_getElem? hr fun k t ht p hp => ?_
  obtain ⟨slot', hSlot', hPosts⟩ := getElem?_of_forall₂_right hAll ht
  rw [List.getElem?_map, Option.map_eq_some_iff] at hSlot'
  obtain ⟨slot, hk, rfl⟩ := hSlot'
  -- packets go to the remote end of their slot, and only one slot has that id
  have hDestination := (hPosts.destinationId p hp).2
  rw [merged_remoteEnd, tickClock_remoteEnd] at hDestination
  rw [Bool.and_eq_true, beq_iff_eq, beq_iff_eq]
  constructor
  · rintro ⟨hTo, _⟩
    exact hOther k slot hk (hDestination.symm.trans hTo)
  · rintro rfl
    rw [hr, Option.some.injEq] at ht
    subst ht
    obtain ⟨hFrom, hTo⟩ := hOwn p hp
    exact ⟨hTo, hFrom⟩

/-- **The answer**: the tick of a host whose slot has a session request, from an
id that no other slot is bound to, ends well, and what goes there from the
listening id carries the session response. -/
theorem peerTick_answer (h : Listening host) {asked : PeerSlot} {id : Int}
    (hFirst : host.slots[0]? = some first) (hj : 1 ≤ j) (hSlot : host.slots[j]? = some asked)
    (hState : asked.state = .sessionRequest) (hRemote : asked.remoteEnd.id = id)
    (hOther : ∀ (k : Nat) (slot : PeerSlot), host.slots[k]? = some slot → slot.remoteEnd.id = id → k = j)
    {e : Int} (hValid : ValidElapsed host e) :
    ∃ packets host', peerTick host e = .ok (kitOk, packets, host') ∧ IsInt64 host'.time ∧
      ∃ sender : PeerSlot, sender.actor = asked.actor ∧ sender.localEnd = asked.localEnd ∧
        Carried first.localEnd.id id
          (packets.filter fun p => p.destinationId == id && p.sourceId == first.localEnd.id)
          [sessionResponseChunk host'.time sender] := by
  obtain ⟨packets, host', hTick, _⟩ := h.toHostSendInv.exists_sends h.small hValid
  refine ⟨packets, host', hTick, h.toHostInv.isInt64_time hValid hTick, (asked.tickClock e).merged,
    ?_, ?_, ?_⟩
  · rw [merged_actor, tickClock_actor]
  · rw [merged_localEnd, tickClock_localEnd]
  obtain ⟨sent, _, rfl, hAll⟩ := peerTick_host_posts h.mode h.alloc hValid
    (fun slot hMem => (h.slot slot hMem).cursor) hTick
  have hListen : host.listenId = first.localEnd.id := by
    rw [Peer.listenId, List.head?_eq_getElem?, hFirst]
    rfl
  rw [hListen] at hAll
  -- position `i` of what was sent belongs to the slot above it
  obtain ⟨i, rfl⟩ : ∃ i, j = i + 1 := ⟨j - 1, by omega⟩
  rw [← List.getElem?_tail] at hSlot
  have hMerged : (host.slots.tail.map fun slot => (slot.tickClock e).merged)[i]? =
      some (asked.tickClock e).merged := by
    rw [List.getElem?_map, hSlot]
    rfl
  obtain ⟨⟨sentSlot, answer⟩, hr, hPosts⟩ := getElem?_of_forall₂ hAll hMerged
  have hResponse := hPosts.answer (by rw [merged_state, tickClock_state, hState])
  rw [merged_remoteEnd, tickClock_remoteEnd, hRemote] at hResponse
  rw [filter_of_posts hAll hr hResponse.between]
  · exact hResponse
  -- no other slot is bound to the client
  · intro k slot hk hSame
    rw [List.getElem?_tail] at hk
    have := hOther (k + 1) slot hk hSame
    omega

end Answer

-- ---------------------------------------------------------------------------
-- The client's half
-- ---------------------------------------------------------------------------

section Response

variable {client : Peer} {i : Nat} {src dst : Int}

/-- Packets with these ids go to the slot at position `i`. -/
def ListensAt (client : Peer) (i : Nat) (src dst : Int) : Prop :=
  client.slots.findIdx? (fun slot => slot.localEnd.id == dst && slot.remoteEnd.id == src) = some i

/-- A slot that keeps its ids keeps its packets, and as the other slots are not
touched they cannot take them away from it either. -/
theorem ListensAt.set {slot slot' : PeerSlot} (h : ListensAt client i src dst)
    (hSlot : client.slots[i]? = some slot) (hLocal : slot'.localEnd.id = slot.localEnd.id)
    (hRemote : slot'.remoteEnd.id = slot.remoteEnd.id) {client' : Peer}
    (hSlots : client'.slots = client.slots.set i slot') : ListensAt client' i src dst := by
  -- Only the pairs of ids are searched, and they are the same list before and after.
  have hAll : (client.slots.set i slot').map (fun slot => (slot.localEnd.id, slot.remoteEnd.id)) =
      client.slots.map (fun slot => (slot.localEnd.id, slot.remoteEnd.id)) := by
    obtain ⟨hi, rfl⟩ := List.getElem?_eq_some_iff.mp hSlot
    rw [List.map_set, hLocal, hRemote]
    refine List.ext_getElem (by simp) fun k _ _ => ?_
    by_cases hk : i = k
    · subst hk
      simp
    · simp [List.getElem_set_ne hk]
  have hIds : ∀ slots : List PeerSlot,
      slots.findIdx? (fun slot => slot.localEnd.id == dst && slot.remoteEnd.id == src) =
        (slots.map fun slot => (slot.localEnd.id, slot.remoteEnd.id)).findIdx?
          (fun ids => ids.1 == dst && ids.2 == src) := by
    intro slots
    rw [List.findIdx?_map]
    rfl
  rw [ListensAt, hIds] at h ⊢
  rw [hSlots, hAll]
  exact h

/-- A packet for one of the client's slots: its chunks are input there, in order. -/
theorem inputPacket_sealed (hAlloc : client.alloc = .reliable) (hListens : ListensAt client i src dst)
    {p : PeerPacket} {cs : List Chunk} (hp : Sealed src dst p cs) :
    inputPacket client p = inputChunks i cs client := by
  have hFind : client.slots.findIdx? (·.matchesPacket p) = some i := by
    rw [← hListens]
    simp only [PeerSlot.matchesPacket, hp.sourceId, hp.destinationId]
  have hUnpack := hp.yields []
  rw [List.nil_append, ← hAlloc] at hUnpack
  rw [inputPacket_of_findIdx? hFind hUnpack]
  cases inputChunks i cs client with
  | error fault => rfl
  | ok r =>
    rw [ok_bind]
    simp only [pure_eq_ok, kitOk, UInt32.zero_or]

/-- Packets without chunks change nothing, and are no error. -/
theorem peerInput_nothing (hAlloc : client.alloc = .reliable) (hListens : ListensAt client i src dst)
    {ps : List PeerPacket} {css : List (List Chunk)} (hps : List.Forall₂ (Sealed src dst) ps css)
    (hNone : css.flatten = []) : peerInput client ps = .ok (kitOk, client) := by
  induction hps with
  | nil => rfl
  | cons hp _ ih =>
    rw [List.flatten_cons, List.append_eq_nil_iff] at hNone
    obtain ⟨rfl, hRest⟩ := hNone
    exact peerInput_of_cons (inputPacket_sealed hAlloc hListens hp) (ih hRest)

/-- **The answer reaches the client**: from the packets that carry a session
response it gets its actor id, and the slot they are for the address, and the
slot's messages the actor id. -/
theorem peerInput_response (hMode : client.mode = .client) (hAlloc : client.alloc = .reliable)
    {slot : PeerSlot} (hSlot : client.slots[i]? = some slot) (hListens : ListensAt client i src dst)
    {time : Int} (hTime : IsInt64 time) {sender : PeerSlot} (hAddress : sender.localEnd.AddressFits)
    {ps : List PeerPacket} (hps : Carried src dst ps [sessionResponseChunk time sender]) :
    ∃ hRoom, peerInput client ps = .ok (kitOk, { client with
      actor := toU32 sender.actor
      slots := client.slots.set i
        (slot.respond (toU32 sender.actor) sender.localEnd.address hRoom)
      time := max client.time time }) := by
  obtain ⟨hRoom, hRespond⟩ := inputChunkClient_response hSlot hTime hAddress
  refine ⟨hRoom, ?_⟩
  obtain ⟨client', hClient'⟩ : ∃ client' : Peer, client' = { client with
      actor := toU32 sender.actor
      slots := client.slots.set i
        (slot.respond (toU32 sender.actor) sender.localEnd.address hRoom)
      time := max client.time time } := ⟨_, rfl⟩
  have hAlloc' : client'.alloc = .reliable := by
    rw [hClient']
    exact hAlloc
  have hSlots' : client'.slots = client.slots.set i
      (slot.respond (toU32 sender.actor) sender.localEnd.address hRoom) := by
    rw [hClient']
  have hListens' : ListensAt client' i src dst := by
    refine hListens.set hSlot ?_ ?_ hSlots' <;> rfl
  rw [← hClient'] at hRespond ⊢
  obtain ⟨css, hSealed, hFlat⟩ := hps
  induction hSealed with
  | nil => cases hFlat
  | @cons p cs _ _ hp hRest ih =>
    rw [peerInput, inputPacket_sealed hAlloc hListens hp]
    rw [List.flatten_cons] at hFlat
    rcases List.append_eq_singleton_iff.mp hFlat with ⟨rfl, hLater⟩ | ⟨rfl, hNone⟩
    · -- the chunk is in a later packet
      rw [inputChunks, ok_bind]
      dsimp only
      rw [ih hLater, ok_bind]
      simp only [pure_eq_ok, kitOk, UInt32.or_zero]
    · -- the chunk is in this packet, and the slot after it still listens to the same ids
      rw [inputChunks, inputChunk, hMode]
      dsimp only
      rw [hRespond, ok_bind, inputChunks, ok_bind]
      dsimp only
      rw [pure_eq_ok, ok_bind]
      dsimp only
      rw [peerInput_nothing hAlloc' hListens' hRest hNone, ok_bind]
      simp only [pure_eq_ok, kitOk, UInt32.or_zero]

/-- The address that a response leaves in the slot is the one that it carried. -/
theorem respond_address (slot : PeerSlot) (actor : Nat) {address : List UInt8}
    (hRoom : 0 + address.length ≤ peerAddressSize) :
    (slot.respond actor address hRoom).remoteEnd.address = address := by
  have hElems : (slot.respond actor address hRoom).remoteEnd.addressData.elems =
      address ++ slot.remoteEnd.addressData.elems.drop address.length := by
    simp [PeerSlot.respond, overwrite]
  rw [PeerEndpoint.address, hElems]
  exact List.take_left' (by simp [PeerSlot.respond])

end Response

-- ---------------------------------------------------------------------------
-- Both halves
-- ---------------------------------------------------------------------------

/-- The client after the handshake with the slot at position `j` of a host, of
which it knows the address of its local end and the time. -/
structure Handshaken (j : Nat) (hostEnd : PeerEndpoint) (hostTime : Int) (client client' : Peer) :
    Prop where
  actor : client'.actor = j
  slot : ∃ slot, client'.slots = [slot] ∧ slot.remoteEnd.addressSize = hostEnd.addressSize ∧
    slot.remoteEnd.address = hostEnd.address ∧ slot.remoteEnd.isIdResolved = false ∧
    ∀ m ∈ slot.queue, m.actor = j
  time : client'.time = max client.time hostTime

/-- A host that its application uses as a host is listening. -/
theorem listening_of_reaches {rng : Mt64} {host : Peer}
    (h : Reaches Peer.step (fun _ a _ => a.isHostUse = true ∧ a.QueuesSmall)
      (peerInit .host .reliable rng) host) : Listening host := by
  refine h.invariant (I := Listening) ?_ (listening_peerInit rng)
  rintro t a t' ht hStep ⟨hUse, hQueues⟩
  obtain ⟨s, ps, hAct⟩ := Peer.step_eq_ok.mp hStep
  exact ht.act hUse hQueues hAct

section Halves

variable {host client client' : Peer} {first free slot : PeerSlot} {j : Nat}

/-- The host assigns its lowest free slot to the request, which is then the only
slot with the client's id. -/
theorem Listening.assigned (h : Listening host) (hFirst : host.slots[0]? = some first)
    (hFree : freeSlot host.slots = some j) (hSlot : host.slots[j]? = some free) {p : PeerPacket}
    (hTo : p.destinationId = first.localEnd.id)
    (hUnseen : ∀ other ∈ host.slots, other.remoteEnd.id ≠ p.sourceId) :
    ∃ host1, peerInput host [p] = .ok (kitOk, host1) ∧ Listening host1 ∧ 1 ≤ j ∧
      host1.timeLocal = host.timeLocal ∧ host1.slots[0]? = some first ∧ host1.slots[j]? = some (free.assign j p.sourceId) ∧
      ∀ (k : Nat) (other : PeerSlot), host1.slots[k]? = some other →
        other.remoteEnd.id = p.sourceId → k = j := by
  obtain ⟨_, hj, _, _⟩ := freeSlot_eq_some hFree
  have hInput := peerInput_request h.mode hFirst (h.first first hFirst) hFree hSlot hTo hUnseen
  refine ⟨_, hInput, ?_, hj, rfl, ?_, List.getElem?_set_self (List.getElem?_eq_some_iff.mp hSlot).1, ?_⟩
  · exact h.act (a := .input [p]) rfl trivial (show (peerInput host [p] >>= _) = _ by rw [hInput]; rfl)
  · rw [← hFirst]
    exact List.getElem?_set_ne (by omega)
  · intro k other hOther hSame
    rcases getElem?_set_cases hOther with ⟨rfl, _⟩ | ⟨_, hOld⟩
    · rfl
    · exact absurd hSame (hUnseen other (List.mem_of_getElem? hOld))

/-- What the tick leaves of a client with one slot still listens to the server,
under the ids that every packet of the tick has. -/
theorem listensAt_ticked (hMode : client.mode = .client) (hAlloc : client.alloc = .reliable)
    (hSlots : client.slots = [slot]) {e : Int} {s : Status} {ps : List PeerPacket} {p : PeerPacket}
    (hTick : peerTick client e = .ok (s, ps, client')) (hp : p ∈ ps) :
    p.sourceId = slot.localEnd.id ∧ p.destinationId = slot.remoteEnd.id ∧
      client'.mode = .client ∧ client'.alloc = .reliable ∧ client'.time = client.time ∧
      ListensAt client' 0 slot.remoteEnd.id slot.localEnd.id ∧ ∃ slot', client'.slots = [slot'] := by
  rcases peerTick_client_between hMode hTick with rfl | ⟨slot1, hHead, hValid, _, hBetween⟩
  · cases hp
  rw [hSlots, List.head?_cons, Option.some.injEq] at hHead
  subst hHead
  have hTicked := peerTick_client_ticked hMode hAlloc hValid hTick
  obtain ⟨slot', hSlots', hSent, _⟩ := hTicked.cons hSlots
  refine ⟨(hBetween p hp).1, (hBetween p hp).2, hTicked.mode, hTicked.alloc, hTicked.time, ?_, slot', hSlots'⟩
  rw [ListensAt, hSlots', List.findIdx?_cons, hSent.localEnd, hSent.remoteEnd, tickClock_localEnd,
    tickClock_remoteEnd]
  simp

/-- **The handshake of one client**, from a packet of its tick on: the host's input,
its tick, and the client's input of what the tick has sent it. -/
theorem Listening.exchange (h : Listening host) (hFirst : host.slots[0]? = some first)
    (hFree : freeSlot host.slots = some j) (hSlot : host.slots[j]? = some free)
    (hCount : host.slots.length < 2 ^ 32 - 1) (hMode : client.mode = .client)
    (hAlloc : client.alloc = .reliable) (hSlots : client.slots = [slot])
    (hConnected : slot.remoteEnd.id = first.localEnd.id)
    (hUnseen : ∀ other ∈ host.slots, other.remoteEnd.id ≠ slot.localEnd.id)
    {e e' : Int} {s : Status} {ps : List PeerPacket} {p : PeerPacket}
    (hTick : peerTick client e = .ok (s, ps, client')) (hp : p ∈ ps) (hValid : ValidElapsed host e') :
    ∃ host1 packets host2 client2, peerInput host [p] = .ok (kitOk, host1) ∧
      peerTick host1 e' = .ok (kitOk, packets, host2) ∧
      peerInput client' (packets.filter fun q =>
        q.destinationId == slot.localEnd.id && q.sourceId == first.localEnd.id) =
          .ok (kitOk, client2) ∧
      Handshaken j free.localEnd host2.time client client2 := by
  -- the packet is for the listening slot, from the client's id
  obtain ⟨hFrom, hTo, hMode', hAlloc', hTime', hListens, slot', hSlots'⟩ :=
    listensAt_ticked hMode hAlloc hSlots hTick hp
  -- the host assigns the free slot
  rw [← hFrom] at hUnseen
  obtain ⟨host1, hInput, h1, hj, hTime1, hFirst1, hSlot1, hOnly⟩ :=
    h.assigned hFirst hFree hSlot (hTo.trans hConnected) hUnseen
  -- and answers
  obtain ⟨packets, host2, hTick2, hTime2, sender, hActor, hEnd, hCarried⟩ :=
    peerTick_answer h1 hFirst1 hj hSlot1 rfl rfl hOnly (show ValidElapsed host1 e' by
      rw [ValidElapsed, hTime1]
      exact hValid)
  have hAddress : sender.localEnd.AddressFits := by
    rw [hEnd]
    exact (h.slot free (List.mem_of_getElem? hSlot)).address
  -- and the client takes the answer
  rw [hConnected] at hListens
  rw [hFrom] at hCarried
  obtain ⟨hRoom, hClient2⟩ := peerInput_response hMode' hAlloc'
    (show client'.slots[0]? = some slot' by rw [hSlots']; rfl) hListens hTime2 hAddress hCarried
  rw [hSlots', List.set_cons_zero] at hClient2
  have hActorId : ((toU32 sender.actor : Nat) : Int) = j := by
    -- a position that a slot has fits the 32-bit field
    have hLt : j < host.slots.length := (List.getElem?_eq_some_iff.mp hSlot).1
    rw [hActor]
    simp only [PeerSlot.assign, toU32]
    omega
  refine ⟨_, packets, host2, _, hInput, hTick2, hClient2, hActorId, ⟨_, rfl, ?_, ?_, rfl, ?_⟩, ?_⟩
  · show (sender.localEnd.address.length : Int) = free.localEnd.addressSize
    rw [hAddress.length_address, Int.toNat_of_nonneg hAddress.1, hEnd]
    rfl
  · rw [respond_address, hEnd]
    rfl
  · intro m hm
    obtain ⟨m, _, rfl⟩ := List.mem_map.mp hm
    exact hActorId
  · dsimp only
    rw [hTime']

end Halves

/-- **The handshake**, for every reachable client with one slot: its outgoing
queue is its own, and from any host that listens and has a free slot, any one
packet of a tick brings it a session. -/
theorem handshake {alloc : Allocator} {rng : Mt64} {client : Peer} {slot : PeerSlot}
    (hClient : Reaches Peer.step (fun _ _ _ => True) (peerInit .client alloc rng) client)
    (hSlots : client.slots = [slot]) :
    (∀ m ∈ slot.queue, OwnEntry client.actor m) ∧
    (alloc = .reliable → ∀ (rng' : Mt64) (host : Peer) (first free : PeerSlot) (j : Nat),
      Reaches Peer.step (fun _ a _ => a.isHostUse = true ∧ a.QueuesSmall)
        (peerInit .host .reliable rng') host →
      host.slots[0]? = some first → freeSlot host.slots = some j → host.slots[j]? = some free →
      host.slots.length < 2 ^ 32 - 1 → slot.remoteEnd.id = first.localEnd.id →
      (∀ other ∈ host.slots, other.remoteEnd.id ≠ slot.localEnd.id) →
      ∀ (e e' : Int) (s : Status) (ps : List PeerPacket) (client' : Peer) (p : PeerPacket),
        peerTick client e = .ok (s, ps, client') → p ∈ ps → ValidElapsed host e' →
        ∃ host1 packets host2 client2, peerInput host [p] = .ok (kitOk, host1) ∧
          peerTick host1 e' = .ok (kitOk, packets, host2) ∧
          peerInput client' (packets.filter fun q =>
            q.destinationId == slot.localEnd.id && q.sourceId == first.localEnd.id) =
              .ok (kitOk, client2) ∧
          Handshaken j free.localEnd host2.time client client2) := by
  -- both invariants of the client hold on every run, whatever the application does
  have hOwn : OwnQueue client := by
    refine hClient.invariant (I := OwnQueue) ?_ (ownQueue_peerInit alloc rng)
    rintro t a t' ht hStep _
    obtain ⟨s, ps, hAct⟩ := Peer.step_eq_ok.mp hStep
    exact ht.act hAct
  constructor
  · refine hOwn.entry ?_ slot ?_ <;> simp [hSlots]
  · rintro rfl rng' host first free j hHost hFirst hFree hSlot hCount hConnected hUnseen e e' s ps client' p
      hTick hp hValid
    have hSend : ClientSendInv client :=
      hClient.invariant (fun _ _ _ hInv hOk _ => hInv.step hOk)
        ⟨rfl, rfl, by simp [peerInit], by simp [peerInit]⟩
    exact (listening_of_reaches hHost).exchange hFirst hFree hSlot hCount hOwn.mode hSend.alloc hSlots
      hConnected hUnseen hTick hp hValid

/-- A client with a message queued before it has a session. -/
def askingClient : Peer :=
  (peerQueue (connectedClient 3 1 .reliable ⟨fun _ => 0⟩) (some [65])).2

/-- An address of two bytes. -/
def openAddress : Buffer UInt8 peerAddressSize :=
  (Buffer.fill peerAddressSize 0).blit 0 [7, 8] (by decide)

/-- A host with one slot for a client, at that address. -/
def openHost : Peer :=
  let host := (peerOpen (peerInit .host .reliable ⟨fun _ => 0⟩) (some [1, 2])).2
  { host with slots := host.slots.modify 1 (·.setAddress twoBytes openAddress) }

/-- It is reached by three calls. -/
theorem reaches_askingClient :
    Reaches Peer.step (fun _ _ _ => True) (peerInit .client .reliable ⟨fun _ => 0⟩) askingClient :=
  ((Relation.ReflTransGen.single ⟨.openSlots (some [3]), rfl, trivial⟩).tail
    ⟨.connect 1, rfl, trivial⟩).tail ⟨.queue (some [65]), rfl, trivial⟩

theorem reaches_openHost :
    Reaches Peer.step (fun _ a _ => a.isHostUse = true ∧ a.QueuesSmall)
      (peerInit .host .reliable ⟨fun _ => 0⟩) openHost :=
  (Relation.ReflTransGen.single ⟨.openSlots (some [1, 2]), rfl, rfl, trivial⟩).tail
    ⟨.setAddress 1 twoBytes openAddress, rfl, rfl, trivial⟩

/-- The first packet of the client, and what comes of it: one packet asks for a
session, the host's next tick answers it, and the client that is given the answer
holds its actor id and the two bytes of the address. -/
theorem handshake_asking : ∃ slot free client' p host1 packets host2 client2,
    askingClient.slots = [slot] ∧ (∀ m ∈ slot.queue, OwnEntry (-1) m) ∧
    openHost.slots[1]? = some free ∧ free.localEnd.address = [7, 8] ∧
    peerTick askingClient 0 = .ok (kitOk, [p], client') ∧
    peerInput openHost [p] = .ok (kitOk, host1) ∧ peerTick host1 5 = .ok (kitOk, packets, host2) ∧
    peerInput client' (packets.filter fun q => q.destinationId == 3 && q.sourceId == 1) =
      .ok (kitOk, client2) ∧
    Handshaken 1 free.localEnd host2.time askingClient client2 := by
  obtain ⟨hOwn, hAll⟩ := handshake reaches_askingClient (show askingClient.slots = [_] from rfl)
  -- The client's tick is run once, for the one packet it sends; the rest is the theorem.
  have hRun : (peerTick askingClient 0).map (fun r => (r.1, r.2.1.length)) = .ok (kitOk, 1) := by
    decide +kernel
  obtain ⟨p, client', hTick⟩ : ∃ p client', peerTick askingClient 0 = .ok (kitOk, [p], client') := by
    rcases hTick : peerTick askingClient 0 with fault | ⟨s, ps, client'⟩
    · rw [hTick] at hRun
      cases hRun
    · rw [hTick] at hRun
      obtain ⟨rfl, hOne⟩ := Prod.mk.inj (Except.ok.inj hRun)
      obtain ⟨p, rfl⟩ := List.length_eq_one_iff.mp hOne
      exact ⟨p, client', rfl⟩
  obtain ⟨host1, packets, host2, client2, hRequest, hAnswer, hResponse, hDone⟩ :=
    hAll rfl _ openHost _ _ 1 reaches_openHost rfl (by decide) rfl (by decide) rfl (by decide) 0 5 _ _ _ p
      hTick (List.mem_singleton.mpr rfl) (by decide)
  exact ⟨_, _, client', p, host1, packets, host2, client2, rfl, hOwn, rfl, by decide, hTick, hRequest,
    hAnswer, hResponse, hDone⟩

end PeerProtocol
