import PeerProtocol.Peer.OneSlot
import PeerProtocol.Wire.Unpacking

/-!
# peer — the address in a session response

A session response carries the host's address, which the client copies into
the 64 bytes of its slot without looking at its size. The unpacking lets
through up to 355 bytes of data, so a response can carry an address of up to
354 bytes, and the copy then writes past the array.

The module says exactly when that happens: when one of the chunks of the
packet is a service message with the id of a session response, and more than
64 bytes behind it (`LongResponse`). Nothing else that a packet can contain
makes the client access anything outside, once its chunks are complete
messages; what remains is the overflow of an index, which is another matter
(`Peer.Indices`).

The allocator may refuse anything. A chunk that could not be allocated is
empty and is no complete message; the statement is about packets whose chunks
all are.

## Plan

* `sizeMatches_of_unpacked` — what is unpacked has its size field right.
* `inputChunk_long` — a long response faults; `inputChunk_error`,
  `inputChunks_error` — and no other chunk accesses anything outside.
* `AddressesKept` — every size of an address that lies in its array still does
  afterwards.

## Result

* `ResponsesSafe` — what should hold of a client and a packet, whatever it
  contains.
* `responsesSafe_iff` — it does exactly when no response in the packet is
  long.
-/

namespace PeerProtocol

open Lib

-- ---------------------------------------------------------------------------
-- The chunks of a packet, whatever the allocator does
-- ---------------------------------------------------------------------------

/-- A chunk that is long enough has its length as size field, also where
allocations fail. -/
theorem sizeMatches_of_unpacked {packet : PeerPacket} {al al' : Allocator} {s : Status}
    {cs : List Chunk} (h : unpackPacket packet [] al = .ok (s, cs, al')) {c : Chunk} (hMem : c ∈ cs)
    (hMin : 30 ≤ c.length) : SizeMatches c := by
  obtain ⟨s', cs', al'', hUnpack, hLeft⟩ := unpackPacket_outcomes packet [] al
  rw [h, List.nil_append, Except.ok.injEq, Prod.mk.injEq, Prod.mk.injEq] at hUnpack
  obtain ⟨_, rfl, _⟩ := hUnpack
  have hMessage : c ∈ messagesOf packet := by
    cases hAfter : outcomesAfter (messagesOf packet).length al.outcomes with
    | some rest => exact (hLeft.filled rest hAfter).1.subset hMem
    | none =>
      obtain ⟨some, hPrefix, rfl⟩ := hLeft.unfilled hAfter
      rcases List.mem_append.mp hMem with hSome | hEmpty
      · exact hPrefix.subset hSome
      · -- the empty chunk is too short
        rw [List.mem_singleton.mp hEmpty] at hMin
        exact absurd hMin (by decide)
  obtain ⟨_, hWalk⟩ := walk_messagesOf packet
  exact hWalk.sizeMatches c hMessage hMin

-- ---------------------------------------------------------------------------
-- One chunk
-- ---------------------------------------------------------------------------

/-- A session response with more bytes of address than a slot has room for. -/
def LongResponse (c : Chunk) : Prop :=
  ∃ header, readHeader c = .ok header ∧
    readServiceId c header = .ok (some peerMSessionResponse) ∧
    (peerAddressSize : Int) < header.dataSize - 1

/-- A service id is read from service messages only, from their first byte. -/
theorem service_of_readServiceId {c : Chunk} {header : MessageHeader} {id : UInt8}
    (h : readServiceId c header = .ok (some id)) :
    header.mode = peerMessageModeService ∧ 1 ≤ header.dataSize := by
  unfold readServiceId at h
  split at h
  · next hService => exact hService
  · cases h

/-- **A long response is copied past the end** of the slot's address, in any state
of a client. The assert in front of the copy is not there in a release build. -/
theorem inputChunk_long {client : Peer} (hMode : client.mode = .client) {j : Nat}
    (hj : j < client.slots.length) {c : Chunk} (hLong : LongResponse c) :
    inputChunk client j c = .error .access := by
  obtain ⟨header, hHeader, hId, hTooLong⟩ := hLong
  have hSlot : readAt client.slots j = .ok client.slots[j] :=
    readAt_eq_ok.mpr (List.getElem?_eq_getElem hj)
  have hResponse : sessionResponse client j client.slots[j] c header = .error .access := by
    unfold sessionResponse
    cases hAddress : chunkData c (peerNMessageData + 1) (header.dataSize - 1) with
    | error e =>
      -- the data may even end behind the chunk
      unfold chunkData at hAddress
      split at hAddress
      · cases hAddress
      · rw [← Except.error.inj hAddress]
        rfl
    | ok address =>
      have hSize := (length_of_chunkData hAddress).1
      rw [ok_bind, dif_neg (by rw [peerAddressSize] at *; omega)]
      rfl
  unfold inputChunk
  rw [hMode]
  dsimp only
  rw [inputChunkClient, hHeader, ok_bind, hId, ok_bind, if_pos (service_of_readServiceId hId).1,
    if_neg (by decide), if_pos rfl, hSlot, ok_bind, hResponse]
  rfl

/-- An insertion faults only where its index overflows. -/
theorem queueInsert_error {q : PeerQueue} {index time actor : Int} {data : List UInt8}
    {al : Allocator} {e : Fault} (h : queueInsert q index time actor data al = .error e) :
    e = .overflow := by
  unfold queueInsert at h
  split at h
  · cases h
  split at h
  · cases h
  split at h
  · cases h
  split at h
  · cases h
  split at h
  · exact (Except.error.inj h).symm
  · split at h <;> cases h

theorem ChunkStep.mode_eq {j : Nat} {c : Chunk} {peer peer' : Peer} (h : ChunkStep j c peer peer') :
    peer'.mode = peer.mode := by
  cases h <;> rfl

/-- No chunk adds or removes a slot. -/
theorem ChunkStep.length_slots {j : Nat} {c : Chunk} {peer peer' : Peer}
    (h : ChunkStep j c peer peer') : peer'.slots.length = peer.slots.length := by
  cases h with
  | hostSkip => rfl
  | hostStore => exact List.length_set ..
  | clientSkip => rfl
  | clientRespond => exact List.length_set ..
  | clientLearn => rfl

/-- No other chunk makes the client access anything outside: each read of the turn
lies in the chunk, and each write in its array. -/
theorem inputChunk_error {client : Peer} (hMode : client.mode = .client) {j : Nat}
    (hj : j < client.slots.length) {c : Chunk} (hMin : 30 ≤ c.length) (hSize : SizeMatches c)
    (hShort : ¬ LongResponse c) {e : Fault} (h : inputChunk client j c = .error e) :
    e = .overflow := by
  obtain ⟨header, id, hHeader, hId, hDataSize, hData⟩ := readers_of_sizeMatches hMin hSize
  have hSlot : readAt client.slots j = .ok client.slots[j] :=
    readAt_eq_ok.mpr (List.getElem?_eq_getElem hj)
  unfold inputChunk at h
  rw [hMode] at h
  dsimp only at h
  rw [inputChunkClient, hHeader, ok_bind, hId, ok_bind] at h
  by_cases hService : header.mode = peerMessageModeService
  · rw [if_pos hService] at h
    by_cases hBeat : id = some peerMHeartbeat
    · rw [if_pos hBeat] at h
      cases h
    rw [if_neg hBeat] at h
    by_cases hResponse : id = some peerMSessionResponse
    · -- a response whose address has room
      subst hResponse
      have hOne := (service_of_readServiceId hId).2
      have hFits : header.dataSize - 1 ≤ (peerAddressSize : Int) :=
        Int.not_lt.mp fun hLong => hShort ⟨header, hHeader, hId, hLong⟩
      obtain ⟨address, hAddress⟩ : ∃ address,
          chunkData c (peerNMessageData + 1) (header.dataSize - 1) = .ok address := by
        refine ⟨_, if_pos ⟨by omega, ?_⟩⟩
        rw [peerNMessageData]
        omega
      have hLength := (length_of_chunkData hAddress).1
      have hRoom : 0 + address.length ≤ peerAddressSize := by omega
      rw [if_pos rfl, hSlot, ok_bind, sessionResponse, hAddress, ok_bind, dif_pos hRoom] at h
      cases h
    · rw [if_neg hResponse] at h
      cases h
  -- a message for the queue, where only the index can overflow
  · rw [if_neg hService, hData, ok_bind] at h
    cases hInsert : queueInsert client.queue header.index header.time header.actor
      (c.drop peerNMessageData) client.alloc with
    | error e' =>
      rw [hInsert] at h
      rw [← Except.error.inj h]
      exact queueInsert_error hInsert
    | ok r =>
      rw [hInsert] at h
      cases h

theorem inputChunks_error {client : Peer} (hMode : client.mode = .client) {j : Nat}
    (hj : j < client.slots.length) {cs : List Chunk} (hMin : ∀ c ∈ cs, 30 ≤ c.length)
    (hSize : ∀ c ∈ cs, SizeMatches c) (hShort : ∀ c ∈ cs, ¬ LongResponse c) {e : Fault}
    (h : inputChunks j cs client = .error e) : e = .overflow := by
  induction cs generalizing client with
  | nil => cases h
  | cons c cs ih =>
    obtain ⟨hHeadMin, hTailMin⟩ := List.forall_mem_cons.mp hMin
    obtain ⟨hHeadSize, hTailSize⟩ := List.forall_mem_cons.mp hSize
    obtain ⟨hHeadShort, hTailShort⟩ := List.forall_mem_cons.mp hShort
    cases hFirst : inputChunk client j c with
    | error e' =>
      rw [inputChunks, hFirst] at h
      rw [← Except.error.inj h]
      exact inputChunk_error hMode hj hHeadMin hHeadSize hHeadShort hFirst
    | ok r =>
      obtain ⟨s1, client1⟩ := r
      -- the turn keeps the mode and the slots' positions
      have hStep := inputChunk_cases hFirst
      rw [inputChunks, hFirst, ok_bind] at h
      dsimp only at h
      cases hRest : inputChunks j cs client1 with
      | error e' =>
        rw [hRest] at h
        obtain rfl : e' = e := Except.error.inj h
        exact ih (hStep.mode_eq.trans hMode) (hStep.length_slots ▸ hj) hTailMin hTailSize hTailShort
          hRest
      | ok r =>
        rw [hRest] at h
        cases h

-- ---------------------------------------------------------------------------
-- The sizes
-- ---------------------------------------------------------------------------

/-- The size of the address lies in the array. -/
def AddressInside (slot : PeerSlot) : Prop :=
  0 ≤ slot.remoteEnd.addressSize ∧ slot.remoteEnd.addressSize ≤ (peerAddressSize : Int)

/-- Slots whose address lies in the array still have one that does. -/
def AddressesKept (client client' : Peer) : Prop :=
  ∀ (k : Nat) (slot slot' : PeerSlot), client.slots[k]? = some slot → client'.slots[k]? = some slot' →
    AddressInside slot → AddressInside slot'

theorem addressesKept_refl (client : Peer) : AddressesKept client client := by
  intro k slot slot' hSlot hSlot' hInside
  obtain rfl : slot = slot' := Option.some.inj (hSlot.symm.trans hSlot')
  exact hInside

/-- One slot changes, and its address still lies in the array. -/
theorem AddressesKept.set {start client : Peer} (h : AddressesKept start client) {j : Nat}
    {slot new : PeerSlot} (hSlot : client.slots[j]? = some slot) {client' : Peer}
    (hSlots : client'.slots = client.slots.set j new)
    (hNew : AddressInside slot → AddressInside new) : AddressesKept start client' := by
  intro k old slot' hOld hSlot' hInside
  rw [hSlots] at hSlot'
  rcases getElem?_set_cases hSlot' with ⟨rfl, rfl⟩ | ⟨_, hSame⟩
  · exact hNew (h j old slot hOld hSlot hInside)
  · exact h k old slot' hOld hSame hInside

/-- One chunk: an address is written with the size that was copied. -/
theorem AddressesKept.chunk {start client client' : Peer} {j : Nat} {c : Chunk}
    (h : AddressesKept start client) (hStep : ChunkStep j c client client') :
    AddressesKept start client' := by
  cases hStep with
  | hostSkip => exact h
  | hostStore _ hSlot => exact h.set hSlot rfl id
  | clientSkip => exact h
  | clientRespond _ hSlot _ _ _ _ hRoom =>
    refine h.set hSlot rfl fun _ => ⟨Int.natCast_nonneg _, ?_⟩
    rw [Nat.zero_add] at hRoom
    exact Int.ofNat_le.mpr hRoom
  | clientLearn => exact h

/-- A slot that is assigned keeps its address. -/
theorem AddressesKept.assign {start client : Peer} (h : AddressesKept start client)
    (packet : PeerPacket) : AddressesKept start (assignSlot client packet).2 := by
  rcases assignSlot_cases client packet with hSame | ⟨j, _, slot, _, _, _, _, _, hSlot, _, hEq⟩
  · rw [hSame]
    exact h
  · rw [hEq]
    exact h.set hSlot rfl id

theorem addressesKept_peerInput {client client' : Peer} {packets : List PeerPacket} {s : Status}
    (h : peerInput client packets = .ok (s, client')) : AddressesKept client client' :=
  peerInput_invariant (I := AddressesKept client) (fun _ _ _ _ _ _ hKept _ => hKept)
    (fun _ _ _ _ _ _ _ _ _ _ _ _ _ hKept _ hStep => hKept.chunk hStep)
    (fun _ packet _ hKept _ _ => hKept.assign packet) h (addressesKept_refl client)

-- ---------------------------------------------------------------------------
-- One packet
-- ---------------------------------------------------------------------------

/-- What should hold of a client and a packet for its slot at position `j`, with
these chunks: nothing is accessed outside an array, no address outgrows its
array, and a response that is too long is refused with an error, in any state of
a client in which its turn may come, and changes neither the actor id nor a slot. -/
structure ResponsesSafe (client : Peer) (packet : PeerPacket) (j : Nat) (chunks : List Chunk) :
    Prop where
  inside : faultOf (peerInput client [packet]) ≠ some .access
  sizes : ∀ s client', peerInput client [packet] = .ok (s, client') → AddressesKept client client'
  refused : ∀ c ∈ chunks, LongResponse c → ∀ p : Peer, p.mode = .client → j < p.slots.length →
    ∃ s p', inputChunk p j c = .ok (s, p') ∧ s ≠ kitOk ∧ p'.actor = p.actor ∧ p'.slots = p.slots

/-- **Session responses against the address array.** For every client state,
every allocator and every packet that matches a slot of the client, with chunks
that have room for a header: the responses are safe exactly when none of them
has an address longer than the array. -/
theorem responsesSafe_iff (client : Peer) (packet : PeerPacket) (hMode : client.mode = .client)
    (j : Nat) (slot : PeerSlot) (hMatch : FirstMatch client.slots packet j slot)
    (s : Status) (chunks : List Chunk) (al : Allocator)
    (hUnpack : peerUnpack [packet] [] client.alloc = .ok (s, chunks, al))
    (hSizes : ∀ c ∈ chunks, peerNMessageData ≤ c.length) :
    ResponsesSafe client packet j chunks ↔ ∀ c ∈ chunks, ¬ LongResponse c := by
  have hj : j < client.slots.length := (List.getElem?_eq_some_iff.mp hMatch.1).1
  rw [peerUnpack_singleton] at hUnpack
  constructor
  · intro hSafe c hc hLong
    obtain ⟨s', client', hInput, _⟩ := hSafe.refused c hc hLong client hMode hj
    rw [inputChunk_long hMode hj hLong] at hInput
    cases hInput
  · intro hShort
    refine ⟨?_, fun s' client' hInput => addressesKept_peerInput hInput,
      fun c hc hLong => absurd hLong (hShort c hc)⟩
    intro hAccess
    -- no chunk is too long, so the loop cannot end with an access
    have hInput := inputPacket_of_findIdx? (slotOf_eq_some_iff.mpr ⟨slot, hMatch⟩) hUnpack
    cases hRun : inputChunks j chunks { client with alloc := al } with
    | ok r =>
      obtain ⟨s', client'⟩ := r
      rw [hRun, ok_bind] at hInput
      rw [peerInput_singleton hInput] at hAccess
      cases hAccess
    | error e =>
      have hOverflow : e = .overflow := inputChunks_error
        (show ({ client with alloc := al } : Peer).mode = .client from hMode) hj hSizes
        (fun c hc => sizeMatches_of_unpacked hUnpack hc (hSizes c hc)) hShort hRun
      rw [hRun, error_bind] at hInput
      rw [peerInput, hInput, hOverflow] at hAccess
      cases hAccess

/-- A client of id 2 that is connected to id 1. -/
def overrunClient : Peer := connectedClient 2 1 .reliable ⟨fun _ => 0⟩

/-- A packet from id 1 with a session response that has an address of these bytes. -/
def responsePacket (address : List UInt8) : PeerPacket :=
  ((PeerPacket.blank 1 2).copyChunk 15
    (encode peerMessageModeService peerUndefined 0 1 (peerMSessionResponse :: address))).toOption.getD
      (PeerPacket.blank 1 2) |>.writeHeader (46 + address.length)

/-- Packets between the two are for the only slot of the client. -/
theorem exists_firstMatch_overrunClient {packet : PeerPacket} (hSource : packet.sourceId = 1)
    (hDestination : packet.destinationId = 2) :
    ∃ slot, FirstMatch overrunClient.slots packet 0 slot := by
  refine ⟨_, rfl, ⟨hDestination ▸ rfl, hSource ▸ rfl⟩, fun i hi => absurd hi (Nat.not_lt_zero i)⟩

/-- A response with an address of two bytes. -/
theorem responsesSafe_short :
    ResponsesSafe overrunClient (responsePacket [7, 8]) 0 (packetChunks (responsePacket [7, 8])) ↔
      ∀ c ∈ packetChunks (responsePacket [7, 8]), ¬ LongResponse c := by
  obtain ⟨slot, hMatch⟩ := exists_firstMatch_overrunClient
    (show (responsePacket [7, 8]).sourceId = 1 by decide +kernel) (by decide +kernel)
  obtain ⟨s, hUnpack⟩ := unpackPacket_packetChunks (responsePacket [7, 8])
  rw [← peerUnpack_singleton] at hUnpack
  exact responsesSafe_iff overrunClient (responsePacket [7, 8]) rfl 0 slot hMatch s _ .reliable
    hUnpack (by decide +kernel)

/-- A packet for the client whose only chunk is a response with an address of 65
bytes: it is copied past the end of the array. -/
theorem not_responsesSafe_long :
    (∃ slot, FirstMatch overrunClient.slots (responsePacket (List.replicate 65 7)) 0 slot) ∧
      (∀ c ∈ packetChunks (responsePacket (List.replicate 65 7)), peerNMessageData ≤ c.length) ∧
      ¬ ResponsesSafe overrunClient (responsePacket (List.replicate 65 7)) 0
        (packetChunks (responsePacket (List.replicate 65 7))) := by
  refine ⟨exists_firstMatch_overrunClient (by decide +kernel) (by decide +kernel), by decide +kernel,
    fun hSafe => hSafe.inside ?_⟩
  decide +kernel

end PeerProtocol
