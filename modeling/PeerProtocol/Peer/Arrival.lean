import PeerProtocol.Peer.Learn
import PeerProtocol.Peer.Uplink

/-!
# peer — what arrives at the host

A message of a client in a packet that the host is given: if it is labelled as
the slot that the packet is for, it is ready there afterwards. Together with
what a client sends (`Peer.Uplink`) this is the progress half of the uplink:
that nothing wrong is stored is said elsewhere, here it is that the right
thing is.

The label is the actor id. A client learns its own from the session response,
and a message that it queued before carries none until then. A host stores a
message only under the actor id of the slot; so what a client sent before it
had its answer is refused, and only what it sends again afterwards arrives.

The packet may come with others in one call, before or after it. What they do
to the slot is limited: its ids and its actor id stay, and what is ready stays
ready (`ChunkStep.slot_host`), so once the message is there, it is there at
the end.

## Results

* `inputChunkHost_message` — the chunk of such a message, in closed form.
* `ChunkStep.slot_host` — what any chunk leaves of a slot.
* `peerInput_arrives` — the message in one of many packets is ready after the
  call.
* `actor_act` — a client is labelled by the host, or not at all: its actor id
  only changes to one that a packet of the host gives it.
-/

namespace PeerProtocol

open Lib

-- ---------------------------------------------------------------------------
-- One chunk
-- ---------------------------------------------------------------------------

/-- The time of a client's message fits its field. -/
theorem isInt64_zero : IsInt64 0 := ⟨by decide, by decide⟩

/-- The header of a message, for any time and index that fit. -/
theorem readHeader_message {k : Nat} {m : PeerMessage} (hIndex : IsInt64 k) (hTime : IsInt64 m.time)
    (hSmall : m.Small) :
    readHeader (m.chunk k) = .ok
      { dataSize := m.data.length, mode := peerMessageModeApplication, index := k, time := m.time,
        actor := toU32 m.actor } :=
  readHeader_encode (by decide) hIndex hTime (Nat.le_trans hSmall (by decide))

/-- A message that the slot with the actor id takes at the index: every test on the
way is passed. -/
structure Fitting (actor : Int) (k : Nat) (m : PeerMessage) : Prop where
  index : (k : Int) < int64Max
  small : m.Small
  time : m.time = 0
  actor : ((toU32 m.actor : Nat) : Int) = actor

/-- It is inserted into the slot's queue at its index, since it is of the slot's own
actor and has time zero, which are the two things that a host tests before it
inserts. -/
theorem inputChunkHost_message {slot : PeerSlot} {k : Nat} {m : PeerMessage}
    (h : Fitting slot.actor k m) :
    inputChunkHost slot (m.chunk k) .reliable = .ok (kitOk,
      { slot with queue := inserted slot.queue k { time := 0, actor := slot.actor, data := m.data } },
      .reliable) := by
  have hIndex : IsInt64 k := by
    have := h.index
    unfold IsInt64
    omega
  have hApplication : peerMessageModeApplication ≠ peerMessageModeService := by decide
  have hData : chunkData (m.chunk k) peerNMessageData m.data.length = .ok m.data := chunkData_encode ..
  rw [inputChunkHost, readHeader_message hIndex (h.time ▸ isInt64_zero) h.small, ok_bind]
  dsimp only
  rw [if_neg (by rw [h.time]; decide), if_neg (by rw [h.actor]; exact fun hNe => hNe rfl),
    readServiceId, if_neg (fun hService => hApplication hService.1), ok_bind, if_neg hApplication,
    hData, ok_bind, h.actor, h.time,
    queueInsert_reliable slot.queue h.index { time := 0, actor := slot.actor, data := m.data }, ok_bind]
  rfl

/-- After that, a message is ready at the index, this one or an earlier. -/
theorem any_isReady_inserted (q : PeerQueue) (i : Nat) (e : Entry) :
    ((inserted q i e)[i]?).any (·.isReady) = true := by
  rw [← filled_entries_iff, entries_inserted]
  exact GapLog.filled_put_self _ _ _

/-- What any chunk leaves of a host and a slot of it, also a chunk for another slot:
the mode, the allocator, the actor id of the slot and every message that was ready
in it. -/
theorem ChunkStep.slot_host {host host' : Peer} {i j : Nat} {c : Chunk} {slot : PeerSlot}
    (hStep : ChunkStep i c host host') (hMode : host.mode = .host) (hAlloc : host.alloc = .reliable)
    (hSlot : host.slots[j]? = some slot) :
    host'.mode = .host ∧ host'.alloc = .reliable ∧ ∃ slot', host'.slots[j]? = some slot' ∧
      slot'.actor = slot.actor ∧ KeepsReady slot.queue slot'.queue := by
  cases hStep.onHost hMode with
  | skip => exact ⟨hMode, hAlloc, slot, hSlot, rfl, keepsReady_refl _⟩
  | store hAt _ _ _ _ _ hInsert =>
    refine ⟨hMode, (queueInsert_cases hInsert).1 hAlloc, ?_⟩
    by_cases hij : i = j
    · subst hij
      rw [hSlot, Option.some.injEq] at hAt
      subst hAt
      exact ⟨_, List.getElem?_set_self (List.getElem?_eq_some_iff.mp hSlot).1, rfl,
        keepsReady_queueInsert hInsert⟩
    · exact ⟨slot, (List.getElem?_set_ne hij).trans hSlot, rfl, keepsReady_refl _⟩

-- ---------------------------------------------------------------------------
-- The chunks of a packet
-- ---------------------------------------------------------------------------

theorem any_isReady_of_keeps {q q' : PeerQueue} {k : Nat} (h : KeepsReady q q')
    (hReady : (q[k]?).any (·.isReady) = true) : (q'[k]?).any (·.isReady) = true := by
  obtain ⟨m, hm, hmReady⟩ := (Option.any_eq_true _ _).mp hReady
  rw [h k m hm hmReady]
  exact hmReady

/-- At a position of the host there is a slot that has a message at the index,
whatever the message says: the first to come for an index stays. -/
def ReadyIn (host : Peer) (j k : Nat) : Prop :=
  ∃ slot, host.slots[j]? = some slot ∧ (slot.queue[k]?).any (·.isReady) = true

/-- In a later state of the host as well. -/
theorem ReadyIn.kept {host host' : Peer} {j k : Nat} (h : ReadyIn host j k)
    (hReady : SlotsReady host host') : ReadyIn host' j k := by
  obtain ⟨slot, hSlot, hAt⟩ := h
  obtain ⟨slot', hSlot', hKeeps⟩ := hReady j slot hSlot
  exact ⟨slot', hSlot', any_isReady_of_keeps hKeeps hAt⟩

theorem slotsReady_refl (host : Peer) : SlotsReady host host :=
  fun _ slot hSlot => ⟨slot, hSlot, keepsReady_refl _⟩

/-- The chunks of a packet take nothing away. -/
theorem slotsReady_inputChunks {host host' : Peer} {j : Nat} {cs : List Chunk} {s : Status}
    (hMode : host.mode = .host) (hInput : inputChunks j cs host = .ok (s, host')) :
    SlotsReady host host' := by
  refine (inputChunks_invariant (I := fun p => p.mode = .host ∧ SlotsReady host p) ?_ hInput
    ⟨hMode, slotsReady_refl host⟩).2
  rintro p p' c _ ⟨hHost, hp⟩ hStep
  refine ⟨?_, hp.chunk hHost hStep⟩
  cases hStep <;> exact hHost

/-- The chunks of a packet, with a message that fits among them: those before it
leave the slot as it has to be, those behind it leave the message. -/
theorem inputChunks_arrives {host host' : Peer} {j k : Nat} {slot : PeerSlot} {m : PeerMessage}
    {cs : List Chunk} {s : Status} (hMode : host.mode = .host) (hAlloc : host.alloc = .reliable)
    (hSlot : host.slots[j]? = some slot) (hFits : Fitting slot.actor k m) (hc : m.chunk k ∈ cs)
    (hInput : inputChunks j cs host = .ok (s, host')) : ReadyIn host' j k := by
  induction cs generalizing host slot s with
  | nil => cases hc
  | cons c cs ih =>
    obtain ⟨⟨s1, host1⟩, hOne, hInput⟩ := bind_eq_ok.mp hInput
    obtain ⟨⟨s2, host2⟩, hRest, hInput⟩ := bind_eq_ok.mp hInput
    obtain ⟨_, rfl⟩ : _ ∧ host2 = host' := by simpa using hInput
    obtain ⟨hMode1, hAlloc1, slot1, hSlot1, hActor1, _⟩ :=
      (inputChunk_cases hOne).slot_host hMode hAlloc hSlot
    rcases List.mem_cons.mp hc with rfl | hLater
    · -- the message is taken here, and what follows leaves it
      refine ReadyIn.kept ?_ (slotsReady_inputChunks hMode1 hRest)
      rw [inputChunk, hMode] at hOne
      dsimp only at hOne
      rw [readAt_eq_ok.mpr hSlot, ok_bind, hAlloc, inputChunkHost_message hFits, ok_bind] at hOne
      obtain ⟨_, rfl⟩ := Prod.mk.inj (Except.ok.inj hOne)
      exact ⟨_, List.getElem?_set_self (List.getElem?_eq_some_iff.mp hSlot).1,
        any_isReady_inserted _ _ _⟩
    · exact ih hMode1 hAlloc1 hSlot1 (hActor1 ▸ hFits) hLater hRest

-- ---------------------------------------------------------------------------
-- Any packets
-- ---------------------------------------------------------------------------

/-- Nor do any packets take anything away: whatever they carry, and whichever slots
they bind, a message that was ready in a slot before is ready in it after. -/
theorem slotsReady_peerInput {host host' : Peer} {packets : List PeerPacket} {s : Status}
    (hMode : host.mode = .host) (hInput : peerInput host packets = .ok (s, host')) :
    SlotsReady host host' := by
  refine (peerInput_invariant (I := fun p => p.mode = .host ∧ SlotsReady host p) ?_ ?_ ?_ hInput
    ⟨hMode, slotsReady_refl host⟩).2
  · intro p packet s cs al _ hp _
    exact hp
  · rintro start p p' packet j s cs al c _ _ _ _ ⟨hHost, hp⟩ _ hStep
    refine ⟨?_, hp.chunk hHost hStep⟩
    cases hStep <;> exact hHost
  · rintro p packet _ ⟨hHost, hp⟩ _ _
    refine ⟨?_, hp.assign packet⟩
    rcases assignSlot_cases p packet with hSame | ⟨_, _, _, _, _, _, _, _, _, _, hSet⟩
    · rw [hSame]
      exact hHost
    · rw [hSet]
      exact hHost

/-- No other slot than the one at the position has the local id, so packets for that
id are for this slot or for none. -/
def OnlySlot (host : Peer) (j : Nat) (id : Int) : Prop :=
  ∀ (i : Nat) (slot : PeerSlot), host.slots[i]? = some slot → slot.localEnd.id = id → i = j

theorem OnlySlot.taken {host host' : Peer} {j : Nat} {id : Int} (h : OnlySlot host j id)
    (hTaken : SlotsTaken host host') (hLen : host'.slots.length = host.slots.length) :
    OnlySlot host' j id := by
  intro i slot' hSlot' hId
  obtain ⟨slot, hSlot⟩ := exists_getElem?_of_length_eq hLen hSlot'
  obtain ⟨again, hAgain, hSlotTaken⟩ := hTaken i _ hSlot
  rw [hSlot', Option.some.injEq] at hAgain
  subst hAgain
  exact h i _ hSlot (hSlotTaken.localId.symm.trans hId)

/-- A packet for the slot at position `j`, with a message at index `k` that fits
there. Its arrival at the host makes the slot ready at the index, whatever else it
carries. -/
def Addresses (slot : PeerSlot) (j k : Nat) (p : PeerPacket) : Prop :=
  ∃ cs m, Sealed slot.remoteEnd.id slot.localEnd.id p cs ∧ Fitting j k m ∧ m.chunk k ∈ cs

/-- The packet itself, in a state where its slot may have been bound just before: it
comes to the slot it addresses and to no other, and the message it carries is ready
there behind it. -/
theorem inputPacket_arrives {host host' : Peer} (hInv : SessionInv host) {j k : Nat}
    {slot : PeerSlot} {p : PeerPacket} (hSource : p.sourceId ≠ peerUndefined)
    (hSlot : host.slots[j]? = some slot) (hOnly : OnlySlot host j slot.localEnd.id)
    (hp : Addresses slot j k p) {s : Status} (hInput : inputPacket host p = .ok (s, host')) :
    ReadyIn host' j k := by
  obtain ⟨cs, m, hSealed, hFits, hc⟩ := hp
  have hIds : slot.matchesPacket p = true := by
    rw [PeerSlot.matchesPacket, hSealed.sourceId, hSealed.destinationId]
    simp
  have hActor := ((hInv.session j slot hSlot).bound (bound_of_matchesPacket hSource hIds)).2
  rcases inputPacket_cases hInput with ⟨hOther, _⟩ | ⟨i, s1, s2, cs', al, hMatch, hCs, hChunks⟩ |
    ⟨_, hNone, _⟩
  · refine absurd (List.any_eq_true.mpr ⟨slot, List.mem_of_getElem? hSlot, ?_⟩) hOther
    rw [hSealed.destinationId]
    simp
  · -- it is for this slot, since no other one has the id
    obtain rfl : i = j := by
      obtain ⟨t, ht, hMatches⟩ := hMatch
      simp only [PeerSlot.matchesPacket, Bool.and_eq_true, beq_iff_eq] at hMatches
      exact hOnly i t ht (hMatches.1.trans hSealed.destinationId)
    have hYields := hSealed.yields []
    rw [← hInv.alloc, hCs, Except.ok.injEq, Prod.mk.injEq, Prod.mk.injEq] at hYields
    obtain ⟨_, rfl, rfl⟩ := hYields
    exact inputChunks_arrives hInv.mode hInv.alloc hSlot
      (hActor ▸ hFits) hc hChunks
  · exact absurd ⟨slot, hSlot, hIds⟩ (hNone j)

/-- **Arrival**: a message that fits a slot, in one of the packets of an input,
is ready in that slot after the input. -/
theorem peerInput_arrives {packets : List PeerPacket} {host host' : Peer} (hInv : SessionInv host)
    (hSource : ∀ p ∈ packets, p.sourceId ≠ peerUndefined) {j k : Nat} {slot : PeerSlot}
    (hSlot : host.slots[j]? = some slot) (hOnly : OnlySlot host j slot.localEnd.id) {p : PeerPacket}
    (hMem : p ∈ packets) (hp : Addresses slot j k p) {s : Status}
    (hInput : peerInput host packets = .ok (s, host')) : ReadyIn host' j k := by
  induction packets generalizing host slot s with
  | nil => cases hMem
  | cons q packets ih =>
    obtain ⟨s1, s2, host1, hFirst, hRest⟩ := peerInput_cons hInput
    have hOne := peerInput_singleton hFirst
    obtain ⟨hInv1, hTaken⟩ := hInv.input
      (fun r hr => hSource r (List.mem_singleton.mp hr ▸ List.mem_cons_self ..)) hOne
    rcases List.mem_cons.mp hMem with rfl | hLater
    · exact (inputPacket_arrives hInv (hSource p (List.mem_cons_self ..)) hSlot hOnly hp hFirst).kept
        (slotsReady_peerInput hInv1.mode hRest)
    · -- the slot that a later packet is for is bound, so it keeps its ids
      obtain ⟨cs, m, hSealed, hFits, hc⟩ := hp
      have hBound : slot.remoteEnd.id ≠ peerUndefined := by
        rw [← hSealed.sourceId]
        exact hSource p hMem
      obtain ⟨slot1, hSlot1, hMoved⟩ := hTaken.moved hInv j slot hSlot
      have hOnly1 := hOnly.taken hTaken (peerInput_host_queue hInv.mode hOne).2.2
      rw [← hMoved.localId] at hOnly1
      refine ih hInv1 (fun r hr => hSource r (List.mem_cons_of_mem _ hr)) hSlot1 hOnly1 hLater
        ⟨cs, m, ?_, hFits, hc⟩ hRest
      rw [hMoved.localId, hMoved.remoteId hBound]
      exact hSealed

-- ---------------------------------------------------------------------------
-- The label of a client's messages
-- ---------------------------------------------------------------------------

/-- **A client's actor id** is the one that it had, or one that a chunk carried. A
chunk has 32 bits for it, so an id that fits the field is never replaced by one that
does not. -/
theorem actor_act {client client' : Peer} {a : PeerAction} {s : Status} {ps : List PeerPacket}
    (hMode : client.mode = .client) (hAct : client.act a = .ok (s, ps, client')) :
    client'.actor = client.actor ∨ ActorFits client'.actor := by
  have hCase := Peer.act_cases hAct
  cases a with
  | openSlots ids =>
    obtain ⟨_, rfl⟩ := hCase
    obtain ⟨opened, al, hOpen⟩ := peerOpen_opens client ids
    rw [hOpen]
    exact Or.inl rfl
  | connect serverId =>
    obtain ⟨_, rfl⟩ := hCase
    obtain ⟨i, hConnect⟩ := peerConnect_modifies client serverId
    rw [hConnect]
    exact Or.inl rfl
  | queue messageData =>
    obtain ⟨_, rfl⟩ := hCase
    obtain ⟨data, hQueued⟩ := peerQueue_queued client messageData
    generalize (peerQueue client messageData).2 = client2 at hQueued
    cases hQueued <;> exact Or.inl rfl
  | input packets =>
    have hBoth : client'.mode = .client ∧
        (client'.actor = client.actor ∨ ActorFits client'.actor) := by
      refine peerInput_invariant (I := fun p => p.mode = .client ∧
        (p.actor = client.actor ∨ ActorFits p.actor)) ?_ ?_ ?_ hCase.2 ⟨hMode, Or.inl rfl⟩
      · intro p packet s cs al _ hp _
        exact hp
      · rintro start p p' packet j s cs al c _ _ _ _ ⟨hClient, hp⟩ _ hStep
        cases hStep with
        | hostSkip => exact ⟨hClient, hp⟩
        | hostStore hHost => exact absurd hHost (by rw [hClient]; decide)
        | clientSkip => exact ⟨hClient, hp⟩
        | clientRespond _ _ hHeader =>
          -- the response names the actor in the four bytes of its header
          have hLt := actor_lt_of_readHeader hHeader
          exact ⟨hClient, Or.inr ⟨Int.natCast_nonneg _, by dsimp only; omega⟩⟩
        | clientLearn => exact ⟨hClient, hp⟩
      · -- only a host assigns slots
        rintro p packet _ ⟨hClient, hp⟩ _ _
        rw [assignSlot, if_pos (Or.inl (by rw [hClient]; decide))]
        exact ⟨hClient, hp⟩
    exact hBoth.2
  | tick e =>
    by_cases hValid : ValidElapsed client e
    · rcases peerTick_client_sent hMode hValid hCase with ⟨_, rfl⟩ | ⟨_, _, _, _, _, _, _, rfl⟩
      · exact Or.inl rfl
      · exact Or.inl rfl
    · obtain ⟨_, _, rfl⟩ := eq_of_peerTick_invalid hValid hCase
      exact Or.inl rfl
  | setAddress j size data =>
    obtain ⟨_, rfl⟩ := hCase
    exact Or.inl rfl
  | resolve j id =>
    obtain ⟨_, rfl⟩ := hCase
    exact Or.inl rfl

end PeerProtocol
