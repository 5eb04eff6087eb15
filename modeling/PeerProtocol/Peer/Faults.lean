import PeerProtocol.Peer.Indices
import PeerProtocol.Peer.Log
import PeerProtocol.Peer.Overrun
import PeerProtocol.Peer.Provenance
import PeerProtocol.Peer.Resend

/-!
# peer — where a peer faults

All that a peer does, with any bytes from the network and any outcomes of its
allocations: which calls access something outside an array or overflow. The
answer is complete: for each call a condition on its arguments and on the
state before it, under which it faults, and with which fault; no other call
does.

There are few such places. A chunk that is shorter than a header faults where
it is read; one comes about when its bytes could not be allocated, or when a
size field says so. The largest index overflows where `queue_insert` adds one.
A session response whose address is longer than the array faults at the copy.
And a client's heartbeat may ask for a trail past the end of its queue, once
its chunk list was allocated. A host's tick does not fault at all.

The application is asked for one thing, that the messages it queues fit a
packet.

## Plan

* `exists_peerPack` — chunks that fit a packet are packed without a fault,
  whatever the allocator does; `exists_queuePack`, `faultOf_sendHeartbeat`,
  `exists_sendSlots` — so sending does not fault, but for the trail.
* `Sized` — the sizes that every call can rely on, and keeps: messages that
  fit packets, addresses that lie in their arrays, queues whose sizes can be
  counted. `Sized.step` is the step lemma.
* `hostChunkFault`, `clientChunkFault`, `tickFault` — the fault of a chunk,
  read off the chunk and the actor id of its slot, and the fault of a tick.
  They are functions, so that which fault it is when there could be several is
  part of the answer.
* `Sized.faultOf_inputChunks`, `Sized.faultOf_peerInput`,
  `Sized.faultOf_peerTick` — the model faults as they say; the loop over the
  chunks ends at the first that does.

## Result

* `faults_of_reaches` — in every state that a peer reaches these are the
  faults of its calls, and there are no others.
-/

namespace PeerProtocol

open Lib

-- ---------------------------------------------------------------------------
-- Packing, whatever the allocator does
-- ---------------------------------------------------------------------------

/-- A chunk with room for the size field that fits an empty packet. Its size field
may be wrong, which is an error and no fault. -/
def Packable (c : Chunk) : Prop := 10 ≤ c.length ∧ c.length ≤ 385

/-- A chunk that fits what is left of a packet does not fault. -/
theorem addChunk_outcomes {c : Chunk} (hc : Packable c) {out : List PeerPacket} (hOut : out ≠ [])
    {offset : Nat} (hFits : offset + c.length ≤ peerPacketSize) :
    ∃ s out', addChunk c out offset = .ok (s, out') ∧ out'.length = out.length := by
  obtain ⟨n, hRead, _⟩ := peerReadMessageSize_isOk hc.1
  have hPos := List.length_pos_iff.mpr hOut
  have hLast : readAt out (out.length - 1) = .ok out[out.length - 1] :=
    readAt_eq_ok.mpr (List.getElem?_eq_getElem (by omega))
  rw [addChunk, hRead, ok_bind]
  split
  · exact ⟨_, _, rfl, rfl⟩
  · rw [hLast, ok_bind, PeerPacket.copyChunk, dif_pos hFits, ok_bind]
    exact ⟨_, _, rfl, List.length_set ..⟩

/-- Where a new packet was granted there is one, with room behind its header. -/
theorem length_startPacket {src dst : Int} {n : Nat} {out : List PeerPacket} {offset : Nat}
    {al : Allocator} :
    (startPacket src dst n out offset al).1 = kitOk →
      (startPacket src dst n out offset al).2.1 ≠ [] ∧
        (startPacket src dst n out offset al).2.2.1 = peerNPacketMessages := by
  unfold startPacket
  dsimp only
  split
  · exact fun _ => ⟨by simp, rfl⟩
  · exact fun h => absurd h (show ¬ peerErrorBadAlloc = kitOk by decide)

/-- The loop over the chunks: before the first packet the offset is the size of
a packet, so the first chunk starts one. -/
theorem exists_packLoop (src dst : Int) (n : Nat) {chunks : List Chunk}
    (hChunks : ∀ c ∈ chunks, Packable c) {out : List PeerPacket} {offset : Nat}
    (hOut : offset = peerPacketSize ∨ out ≠ []) (al : Allocator) :
    ∃ r, packLoop src dst n chunks out offset al = .ok r := by
  induction chunks generalizing out offset al with
  | nil => exact ⟨_, rfl⟩
  | cons c chunks ih =>
    obtain ⟨hc, hRest⟩ := List.forall_mem_cons.mp hChunks
    -- after a packet is started, the chunk goes behind its header
    have hAdd : ∀ {out : List PeerPacket} {offset : Nat} (al : Allocator), out ≠ [] →
        offset + c.length ≤ peerPacketSize → ∃ r, (addChunk c out offset >>= fun added =>
          if added.1 ≠ kitOk then .ok (added.1, added.2, offset, al)
          else packLoop src dst n chunks added.2 (offset + c.length) al) = .ok r := by
      intro out offset al hSome hFits
      obtain ⟨s, out', hAdded, hLen⟩ := addChunk_outcomes hc hSome hFits
      rw [hAdded, ok_bind]
      dsimp only
      split
      · exact ⟨_, rfl⟩
      · refine ih hRest (Or.inr fun hNil => ?_) al
        rw [hNil] at hLen
        exact absurd (List.length_eq_zero_iff.mp hLen.symm) hSome
    obtain ⟨hMin, hMax⟩ := hc
    rw [packLoop]
    dsimp only
    by_cases hFull : offset + c.length > peerPacketSize
    · rw [if_pos hFull]
      by_cases hStart : (startPacket src dst n out offset al).1 = kitOk
      · obtain ⟨hSome, hOffset⟩ := length_startPacket hStart
        rw [if_neg (not_not.mpr hStart)]
        refine hAdd _ hSome ?_
        rw [hOffset, peerNPacketMessages, peerPacketSize]
        omega
      · rw [if_pos hStart]
        exact ⟨_, rfl⟩
    · rw [if_neg hFull]
      dsimp only
      rw [if_neg (not_not.mpr rfl)]
      refine hAdd al (hOut.resolve_left fun hEnd => hFull ?_) (Nat.le_of_not_lt hFull)
      omega

/-- **Packing does not fault** where each chunk fits a packet, whatever the outcomes
of the allocations: a chunk is copied into room that was made for it. -/
theorem exists_peerPack (src dst : Int) {chunks : List Chunk} (hChunks : ∀ c ∈ chunks, Packable c)
    (out : List PeerPacket) (al : Allocator) : ∃ r, peerPack src dst chunks out al = .ok r := by
  obtain ⟨⟨s, out', offset, al'⟩, hLoop⟩ := exists_packLoop src dst out.length hChunks (Or.inl rfl) al
  rw [peerPack, hLoop, ok_bind]
  dsimp only
  split
  · exact ⟨_, rfl⟩
  split
  · cases al'.request with
    | mk b al1 => cases b <;> exact ⟨_, rfl⟩
  · exact ⟨_, rfl⟩

-- ---------------------------------------------------------------------------
-- The tick
-- From the inside out, for a host and a client alike.
-- ---------------------------------------------------------------------------

/-- The chunks of messages that fit. -/
theorem packable_chunksAt {q : PeerQueue} (hSmall : ∀ m ∈ q, m.Small) (ks : List Nat) :
    ∀ c ∈ chunksAt q ks, Packable c := by
  intro c hc
  obtain ⟨k, m, _, hm, rfl⟩ := mem_chunksAt.mp hc
  have hData := small_iff.mp (hSmall m (List.mem_of_getElem? hm))
  rw [Packable, length_chunk]
  omega

theorem faultOf_eq_none {α : Type} {x : Except Fault α} : faultOf x = none ↔ ∃ a, x = .ok a := by
  cases x <;> simp [faultOf]

/-- The trail's chunks fit packets, too, if those before them do. -/
theorem packable_trail {q : PeerQueue} (hSmall : ∀ m ∈ q, m.Small) {index : Nat}
    (hCursor : index ≤ q.length) {chunks : List Chunk} (hChunks : ∀ c ∈ chunks, Packable c)
    (rng : Mt64) (al : Allocator) :
    ∃ s chunks' rng' al', chunksAppendTrail rng q index chunks al = .ok (s, chunks', rng', al') ∧
      ∀ c ∈ chunks', Packable c := by
  obtain ⟨s, added, rng', al', hTrail, hAdded, _⟩ := trail_outcomes hCursor rng chunks al
  refine ⟨s, chunks ++ added, rng', al', hTrail, fun c hc => ?_⟩
  rcases List.mem_append.mp hc with hOld | hNew
  · exact hChunks c hOld
  · rcases hAdded with ⟨_, rfl⟩ | ⟨_, rfl | rfl⟩
    · exact packable_chunksAt hSmall _ c hNew
    · cases hNew
    · exact packable_chunksAt hSmall _ c hNew

/-- The references to chunks that fit packets, or none. -/
theorem packable_chunksWrap {chunks : List Chunk} (hChunks : ∀ c ∈ chunks, Packable c)
    (al : Allocator) : ∀ c ∈ (chunksWrap chunks al).2.1, Packable c := by
  unfold chunksWrap
  split
  · exact fun c hc => absurd hc List.not_mem_nil
  · exact hChunks

/-- `queue_pack` does not fault with a cursor inside its queue: the messages it
packs fit their chunks, and the trail it takes is behind an index that is not past
the end. -/
theorem exists_queuePack {q : PeerQueue} (hSmall : ∀ m ∈ q, m.Small) {index : Nat}
    (hCursor : index ≤ q.length) (src dst : Int) (out : TickOutput) :
    ∃ r, queuePack q index src dst out = .ok r := by
  unfold queuePack
  rw [if_neg (by omega)]
  split
  · exact ⟨_, rfl⟩
  rcases out.alloc.request with ⟨granted, al⟩
  cases granted with
  | false => exact ⟨_, rfl⟩
  | true =>
    obtain ⟨r, al1, hSerial, hAll⟩ :=
      serialChunks_outcomes (show index + (q.length - index) ≤ q.length by omega) al
    dsimp only
    rw [hSerial, ok_bind]
    -- the new messages, unless an allocation is refused
    rcases hAll.cases with rfl | rfl
    · exact ⟨_, rfl⟩
    obtain ⟨s, chunks, rng, al2, hTrail, hChunks⟩ :=
      packable_trail hSmall hCursor (packable_chunksAt hSmall _) out.mt64 al1
    dsimp only
    rw [hTrail, ok_bind]
    dsimp only
    split
    · exact ⟨_, rfl⟩
    · obtain ⟨r, hPack⟩ := exists_peerPack src dst
        (packable_chunksWrap hChunks al2) out.packets (chunksWrap chunks al2).2.2
      rw [hPack, ok_bind]
      exact ⟨_, rfl⟩

/-- The chunks of a heartbeat: none at all if the first allocation is refused.
Otherwise there is the heartbeat's own chunk, which can be packed, or an empty list
where the second request is refused. -/
theorem heartbeatChunks_outcomes (time actor : Int) (al : Allocator) :
    ∃ s chunks al', heartbeatChunks time actor al = .ok (s, chunks, al') ∧
      (chunks = none ↔ al.outcomes 0 = false) ∧ ∀ cs, chunks = some cs → ∀ c ∈ cs, Packable c := by
  unfold heartbeatChunks Allocator.request
  cases al.outcomes 0 with
  | false => exact ⟨_, none, _, rfl, by simp, by simp⟩
  | true =>
    dsimp only
    cases al.outcomes (0 + 1) with
    | false => exact ⟨_, some [], _, rfl, by simp, by simp⟩
    | true =>
      dsimp only
      rw [peerWriteMessage_eq (by simp [peerNMessageData]), ok_bind]
      refine ⟨_, _, _, rfl, by simp, fun cs hcs c hc => ?_⟩
      obtain rfl := Option.some.inj hcs
      rw [List.mem_singleton.mp hc, Packable]
      simp [length_encode, peerNMessageData]

/-- **A heartbeat faults** exactly if its trail starts behind the queue, and the
list of its chunks can be allocated. -/
theorem faultOf_sendHeartbeat {q : PeerQueue} (hSmall : ∀ m ∈ q, m.Small) (index : Nat)
    (time actor src dst : Int) (out : TickOutput) :
    faultOf (sendHeartbeat q index time actor src dst out) =
      if out.alloc.outcomes 0 = true ∧ q.length < index then some (.trail index q.length)
      else none := by
  obtain ⟨s0, chunks, al, hBeat, hNone, hChunks⟩ := heartbeatChunks_outcomes time actor out.alloc
  rw [sendHeartbeat, hBeat, ok_bind]
  cases chunks with
  | none =>
    -- Without its first chunk the heartbeat is given up before the trail is asked for.
    rw [if_neg (fun h => absurd (hNone.mp rfl) (by rw [h.1]; decide))]
    rfl
  | some chunks =>
    have hGranted : out.alloc.outcomes 0 = true :=
      Bool.of_not_eq_false fun h => absurd (hNone.mpr h) (by simp)
    dsimp only
    by_cases hPast : q.length < index
    · rw [if_pos ⟨hGranted, hPast⟩, chunksAppendTrail, if_pos hPast]
      rfl
    · rw [if_neg fun h => hPast h.2]
      -- Inside the queue the trail has chunks that fit, and packing those cannot fault.
      obtain ⟨s1, chunks', rng, al1, hTrail, hPackable⟩ :=
        packable_trail hSmall (Nat.le_of_not_lt hPast) (hChunks chunks rfl) out.mt64 al
      obtain ⟨r, hPack⟩ := exists_peerPack src dst
        (packable_chunksWrap hPackable al1) out.packets (chunksWrap chunks' al1).2.2
      rw [hTrail, ok_bind]
      dsimp only
      rw [hPack, ok_bind]
      rfl

/-- Nor does a session response, whose address lies in its array: the address is
read from the slot's own 64 bytes, and the size that is stored beside it never
exceeds them. -/
theorem exists_sendSessionResponse {slot : PeerSlot} (hAddress : slot.localEnd.AddressFits)
    (listenId time : Int) (out : TickOutput) :
    ∃ r, sendSessionResponse listenId time slot out = .ok r := by
  obtain ⟨hLo, hHi⟩ := hAddress
  rw [peerAddressSize] at hHi
  obtain ⟨address, hRead⟩ : ∃ address,
      chunkData slot.localEnd.addressData.elems 0 slot.localEnd.addressSize = .ok address := by
    refine ⟨_, if_pos ⟨hLo, ?_⟩⟩
    rw [slot.localEnd.addressData.length_eq, peerAddressSize]
    omega
  have hLength := (length_of_chunkData hRead).1
  have hRoom : 30 + (peerMSessionResponse :: address).length ≤
      (List.replicate (peerNMessageData + 1 + peerAddressSize) (0 : UInt8)).length := by
    rw [List.length_cons, List.length_replicate, peerNMessageData, peerAddressSize]
    omega
  obtain ⟨message, hWrite, hMessage⟩ : ∃ message, peerWriteMessage
      (List.replicate (peerNMessageData + 1 + peerAddressSize) 0) peerMessageModeService peerUndefined
        time slot.actor (peerMSessionResponse :: address) = .ok message ∧ message.length = 95 := by
    refine ⟨_, peerWriteMessage_eq hRoom, ?_⟩
    simp only [List.length_append, length_encode, List.length_drop, List.length_replicate,
      List.length_cons, peerNMessageData, peerAddressSize]
    omega
  -- the one chunk is cut out of the buffer
  have hChunk : ∀ c ∈ [message.take (peerNMessageData + 1 + address.length)], Packable c := by
    intro c hc
    rw [List.mem_singleton.mp hc, Packable, List.length_take, peerNMessageData]
    omega
  obtain ⟨r, hPack⟩ := exists_peerPack listenId slot.remoteEnd.id hChunk out.packets out.alloc
  rw [sendSessionResponse, hRead, ok_bind, hWrite, ok_bind, hPack, ok_bind]
  exact ⟨_, rfl⟩

/-- Sending to one slot of a host, whatever its state is: with a cursor inside the
queue and an address inside its array nothing is read or written out of bounds, and
no sum overflows. -/
theorem exists_sendSlot {q : PeerQueue} (hSmall : ∀ m ∈ q, m.Small) {slot : PeerSlot}
    (hCursor : slot.outIndex ≤ q.length) (hAddress : slot.localEnd.AddressFits)
    (listenId time actor : Int) (out : TickOutput) :
    ∃ r, sendSlot listenId time actor q slot out = .ok r := by
  unfold sendSlot
  cases slot.state with
  | empty => exact ⟨_, rfl⟩
  | sessionRequest =>
    obtain ⟨r, hSend⟩ := exists_sendSessionResponse hAddress listenId time out
    dsimp only
    rw [hSend, ok_bind]
    exact ⟨_, rfl⟩
  | ready =>
    dsimp only
    by_cases hNew : slot.outIndex < q.length
    -- New messages come before a heartbeat, as in the source.
    · obtain ⟨r, hPack⟩ := exists_queuePack hSmall hCursor slot.localEnd.id slot.remoteEnd.id out
      rw [if_pos hNew, hPack, ok_bind]
      exact ⟨_, rfl⟩
    rw [if_neg hNew]
    split
    -- The cursor is inside the queue, so the only fault of a heartbeat is excluded.
    · have hFault := faultOf_sendHeartbeat hSmall slot.outIndex time actor slot.localEnd.id
        slot.remoteEnd.id out
      rw [if_neg fun h => absurd h.2 (Nat.not_lt.mpr hCursor)] at hFault
      obtain ⟨r, hBeat⟩ := faultOf_eq_none.mp hFault
      rw [hBeat, ok_bind]
      exact ⟨_, rfl⟩
    · exact ⟨_, rfl⟩

theorem exists_sendSlots {q : PeerQueue} (hSmall : ∀ m ∈ q, m.Small) {slots : List PeerSlot}
    (hSlots : ∀ slot ∈ slots, slot.outIndex ≤ q.length ∧ slot.localEnd.AddressFits)
    (listenId time actor : Int) (out : TickOutput) :
    ∃ r, sendSlots listenId time actor q slots out = .ok r := by
  induction slots generalizing out with
  | nil => exact ⟨_, rfl⟩
  | cons slot slots ih =>
    obtain ⟨⟨hCursor, hAddress⟩, hRest⟩ := List.forall_mem_cons.mp hSlots
    obtain ⟨r, hSend⟩ := exists_sendSlot hSmall hCursor hAddress listenId time actor out
    rw [sendSlots, hSend, ok_bind]
    obtain ⟨rest, hSlots⟩ := ih hRest r.2
    dsimp only
    rw [hSlots, ok_bind]
    exact ⟨_, rfl⟩

-- ---------------------------------------------------------------------------
-- Sizes
-- What is asked of the application is `QueuesSmall`; the rest follows from
-- the code.
-- ---------------------------------------------------------------------------

/-- A slot whose address lies in its array and whose messages fit packets. The
queue of a host's slot, which packets grow, has a size that `ptrdiff_t` has. -/
structure SizedSlot (mode : PeerMode) (slot : PeerSlot) : Prop where
  address : slot.localEnd.AddressFits
  small : ∀ m ∈ slot.queue, m.Small
  bounded : mode = .host → (slot.queue.length : Int) ≤ int64Max

/-- The same for all slots and the mutual queue, which packets grow in a client. A
host's mutual queue is grown by its own application and by the merge, one entry at a
time. -/
structure Sized (peer : Peer) : Prop where
  slot : ∀ slot ∈ peer.slots, SizedSlot peer.mode slot
  small : ∀ m ∈ peer.queue, m.Small
  bounded : peer.mode = .client → (peer.queue.length : Int) ≤ int64Max

/-- A new peer has nothing of any size. -/
theorem sized_peerInit (mode : PeerMode) (alloc : Allocator) (rng : Mt64) :
    Sized (peerInit mode alloc rng) where
  slot := by simp [peerInit]
  small := by simp [peerInit]
  bounded _ := show (0 : Int) ≤ int64Max by decide

/-- Only the mode, the slots and the mutual queue matter. -/
theorem Sized.of_eq {peer peer' : Peer} (h : Sized peer) (hMode : peer'.mode = peer.mode)
    (hQueue : peer'.queue = peer.queue) (hSlots : ∀ slot ∈ peer'.slots, SizedSlot peer.mode slot) :
    Sized peer' where
  slot slot hSlot := hMode ▸ hSlots slot hSlot
  small := hQueue ▸ h.small
  bounded hClient := hQueue ▸ h.bounded (hMode ▸ hClient)

theorem Sized.set {peer peer' : Peer} (h : Sized peer) (hMode : peer'.mode = peer.mode)
    (hQueue : peer'.queue = peer.queue) {j : Nat} {slot' : PeerSlot}
    (hSlots : peer'.slots = peer.slots.set j slot') (hSlot : SizedSlot peer.mode slot') :
    Sized peer' := by
  refine h.of_eq hMode hQueue fun t ht => ?_
  rw [hSlots] at ht
  rcases List.mem_or_eq_of_mem_set ht with hOld | rfl
  · exact h.slot t hOld
  · exact hSlot

theorem Sized.modify {peer : Peer} (h : Sized peer) (j : Nat) {f : PeerSlot → PeerSlot}
    (hf : ∀ slot, SizedSlot peer.mode slot → SizedSlot peer.mode (f slot)) :
    Sized { peer with slots := peer.slots.modify j f } := by
  refine h.of_eq rfl rfl fun t ht => ?_
  obtain ⟨i, hi⟩ := List.mem_iff_getElem?.mp ht
  obtain ⟨slot, hSlot, rfl | rfl⟩ := exists_of_getElem?_modify hi
  · exact h.slot t (List.mem_of_getElem? hSlot)
  · exact hf slot (h.slot slot (List.mem_of_getElem? hSlot))

/-- An insertion faults exactly at the largest index, where index + 1 overflows. A
queue that can be counted ends before it, so the index cannot be that of an entry
which is there. -/
theorem faultOf_queueInsert {q : PeerQueue} (hq : (q.length : Int) ≤ int64Max) (index time actor : Int)
    (data : List UInt8) (al : Allocator) :
    faultOf (queueInsert q index time actor data al) =
      if index = int64Max then some .overflow else none := by
  by_cases hIndex : index = int64Max
  · rw [queueInsert_of_past (hIndex ▸ hq), if_pos hIndex, if_pos hIndex]
    rfl
  -- Every other index ends in one of the branches, in the order of the source.
  rw [if_neg hIndex]
  unfold queueInsert
  split
  · rfl
  split
  · rfl
  split
  · rfl
  split
  · rfl
  cases al.request with
  | mk b al1 => cases b <;> rfl

/-- A queue grows up to the index, which then is not the largest. -/
theorem length_queueInsert_le {q q' : PeerQueue} (hq : (q.length : Int) ≤ int64Max)
    {index time actor : Int} (hIndex : index ≤ int64Max) {data : List UInt8} {s : Status}
    {al al' : Allocator} (h : queueInsert q index time actor data al = .ok (s, q', al')) :
    (q'.length : Int) ≤ int64Max := by
  -- At the largest index the call would have faulted.
  have hNotLast : index ≠ int64Max := by
    intro hLast
    rw [queueInsert_of_past (hLast ▸ hq), if_pos hLast] at h
    cases h
  have hGrown : ∀ i : Nat, index = i → ((grown q i).length : Int) ≤ int64Max := by
    intro i hi
    unfold grown
    split
    · exact hq
    · rw [queueGrow, List.length_append, List.length_replicate]
      omega
  rcases (queueInsert_cases h).2 with rfl | ⟨i, hi, _, rfl | rfl⟩
  · exact hq
  · exact hGrown i hi
  · rw [stored, List.length_set]
    exact hGrown i hi

/-- An index that was read is a 64-bit number. -/
theorem index_le_of_readHeader {c : Chunk} {header : MessageHeader} (h : readHeader c = .ok header) :
    header.index ≤ int64Max :=
  (isInt64_of_peerReadMessageIndex (index_of_readHeader h)).2

/-- What `queue_append` adds, if it does. -/
theorem mem_queueAppend {q : PeerQueue} {time actor : Int} {data : List UInt8} {al : Allocator}
    {m : PeerMessage} (h : m ∈ (queueAppend q time actor data al).2.1) : m ∈ q ∨ m.data = data := by
  unfold queueAppend at h
  split at h
  · exact Or.inl h
  split at h
  · exact Or.inl h
  · rcases List.mem_append.mp h with hOld | hNew
    · exact Or.inl hOld
    · rw [List.mem_singleton.mp hNew]
      exact Or.inr rfl

/-- So the queue keeps messages that fit. -/
theorem small_queueAppend {q : PeerQueue} (hq : ∀ m ∈ q, m.Small) {data : List UInt8}
    (hData : data.length ≤ peerMaxMessageSize) (time actor : Int) (al : Allocator) :
    ∀ m ∈ (queueAppend q time actor data al).2.1, m.Small := by
  intro m hm
  rcases mem_queueAppend hm with hOld | hNew
  · exact hq m hOld
  · rw [PeerMessage.Small, hNew]
    exact hData

/-- The application queues a message that fits: into the mutual queue of a host, or
into the first slot's of a client; all other sizes are as they were. -/
theorem Sized.queue {peer : Peer} (h : Sized peer) {messageData : Option (List UInt8)}
    (hSmall : (PeerAction.queue messageData).QueuesSmall) : Sized (peerQueue peer messageData).2 := by
  cases messageData with
  | none => exact h
  | some data =>
    have hQueued := peerQueue_some peer data
    generalize (peerQueue peer (some data)).2 = peer' at hQueued
    cases hQueued with
    | refused => exact h
    | host hMode =>
      -- The bound is on what packets grow, which in a host is not the mutual queue.
      refine ⟨h.slot, small_queueAppend h.small hSmall _ _ _, fun hClient => ?_⟩
      rw [show peer.mode = .client from hClient] at hMode
      cases hMode
    | client hMode hSlot =>
      have hOld := h.slot _ (List.mem_of_getElem? hSlot)
      refine h.set rfl rfl rfl
        ⟨hOld.address, small_queueAppend hOld.small hSmall _ _ _, fun hHost => ?_⟩
      rw [hMode] at hHost
      cases hHost

theorem Sized.chunk {peer peer' : Peer} {j : Nat} {c : Chunk} (h : Sized peer)
    (hc : c.length ≤ 385) (hStep : ChunkStep j c peer peer') : Sized peer' := by
  cases hStep with
  | hostSkip => exact h
  | hostStore hMode hSlot hHeader _ _ _ hData hInsert =>
    -- A client's message is stored in its slot: it came in a packet, at an index below the
    -- largest.
    have hOld := h.slot _ (List.mem_of_getElem? hSlot)
    exact h.set rfl rfl rfl ⟨hOld.address,
      small_queueInsert hOld.small (length_data_le hc hData) hInsert,
      fun hHost => length_queueInsert_le (hOld.bounded hHost) (index_le_of_readHeader hHeader) hInsert⟩
  | clientSkip => exact ⟨h.slot, h.small, h.bounded⟩
  | clientRespond hMode hSlot =>
    have hOld := h.slot _ (List.mem_of_getElem? hSlot)
    refine h.set rfl rfl rfl ⟨hOld.address, fun m hm => ?_, fun hHost => ?_⟩
    -- A response writes actor ids, and leaves the data as it is.
    · obtain ⟨m, hMem, rfl⟩ := List.mem_map.mp hm
      exact hOld.small m hMem
    · rw [hMode] at hHost
      cases hHost
  | clientLearn hMode hHeader _ hData hInsert =>
    refine ⟨h.slot, small_queueInsert h.small (length_data_le hc hData) hInsert, fun hClient => ?_⟩
    exact length_queueInsert_le (h.bounded hClient) (index_le_of_readHeader hHeader) hInsert

theorem Sized.input {peer peer' : Peer} {packets : List PeerPacket} {s : Status} (h : Sized peer)
    (hInput : peerInput peer packets = .ok (s, peer')) : Sized peer' := by
  refine peerInput_invariant (fun _ _ _ _ _ _ hp _ => ⟨hp.slot, hp.small, hp.bounded⟩) ?_ ?_ hInput h
  · intro start p p' packet j s cs al c _ _ hCs hMem hp _ hStep
    exact hp.chunk ((unpackPacket_keeps hCs).1 c hMem) hStep
  · intro p packet _ hp _ _
    rcases assignSlot_cases p packet with hSame | ⟨j, _, slot, _, _, _, _, _, hSlot, _, hSet⟩
    · rw [hSame]
      exact hp
    · rw [hSet]
      have hOld := hp.slot slot (List.mem_of_getElem? hSlot)
      exact hp.set rfl rfl rfl ⟨hOld.address, hOld.small, hOld.bounded⟩

/-- The mutual queue behind the merge of a tick: what is appended came in packets,
and what came in one packet fits one again. -/
theorem Sized.small_merge {host : Peer} (h : Sized host) (e : Int) :
    ∀ m ∈ (hostMerge (host.tickClock e)).2.queue, m.Small := by
  obtain ⟨parts, hParts, _, hMerged⟩ := hostMerge_added host e
  rw [hMerged.queue]
  intro m hm
  rcases List.mem_append.mp hm with hOld | hNew
  · obtain ⟨m0, hm0, _, hData⟩ := mem_stampQueue hOld
    rw [PeerMessage.Small, hData]
    exact h.small m0 hm0
  -- a message of a slot
  · obtain ⟨added, hAdded, hIn⟩ := List.mem_flatten.mp hNew
    obtain ⟨slot, hSlot, hSlotAdded⟩ := exists_of_forall₂_right hParts hAdded
    obtain ⟨stored, hStored, hData⟩ :=
      List.mem_map.mp (hSlotAdded.data.subset (List.mem_map_of_mem hIn))
    rw [PeerMessage.Small, ← hData]
    exact (h.slot slot (List.mem_of_mem_tail hSlot)).small stored (mem_pending hStored).1

theorem Sized.tick {peer peer' : Peer} {e : Int} {s : Status} {ps : List PeerPacket} (h : Sized peer)
    (hTick : peerTick peer e = .ok (s, ps, peer')) : Sized peer' := by
  by_cases hValid : ValidElapsed peer e
  swap
  · obtain ⟨_, _, rfl⟩ := eq_of_peerTick_invalid hValid hTick
    exact h
  obtain ⟨hMode, _, hSlots⟩ := peerTick_frame hTick
  have hSlot : ∀ slot' ∈ peer'.slots, SizedSlot peer.mode slot' := by
    intro slot' hSlot'
    obtain ⟨slot, hSlot, hTicked⟩ := exists_of_forall₂_right hSlots hSlot'
    obtain ⟨hAddress, hSmall, hBounded⟩ := h.slot slot hSlot
    exact ⟨hTicked.localEnd ▸ hAddress, hTicked.queue ▸ hSmall, hTicked.queue ▸ hBounded⟩
  cases hKind : peer.mode with
  | host =>
    obtain ⟨parts, _, _, hMerged⟩ := hostMerge_added peer e
    have hTo := hMerged.of_mergesTo hKind hValid (Or.inr ⟨s, ps, hTick⟩)
    have hSmall := h.small_merge e
    rw [hMerged.queue, ← hTo.queue] at hSmall
    refine ⟨hMode ▸ hSlot, hSmall, fun hClient => ?_⟩
    rw [hMode, hKind] at hClient
    cases hClient
  | client =>
    -- a client's tick leaves its mutual queue
    refine h.of_eq hMode ?_ hSlot
    rcases peerTick_client_sent hKind hValid hTick with
      ⟨_, rfl⟩ | ⟨_, _, _, _, _, _, _, rfl⟩ <;> rfl

/-- **Step lemma**, for a host and a client, whatever the allocator does. What it
asks of the application is that messages fit a packet; a larger one faults later, in
a tick. -/
theorem Sized.step {peer peer' : Peer} {a : PeerAction} (h : Sized peer) (hSmall : a.QueuesSmall)
    (hStep : peer.step a = .ok peer') : Sized peer' := by
  obtain ⟨s, ps, hAct⟩ := Peer.step_eq_ok.mp hStep
  have hCase := Peer.act_cases hAct
  cases a with
  | openSlots ids =>
    obtain ⟨_, rfl⟩ := hCase
    obtain ⟨opened, al, hOpen⟩ := peerOpen_opens peer ids
    rw [hOpen]
    -- The slots there were keep their sizes, and a new one starts with an address that fits.
    refine h.of_eq rfl rfl fun t ht => ?_
    rcases List.mem_append.mp ht with hOld | hNew
    · exact h.slot t hOld
    · obtain ⟨i, _, rfl⟩ := List.mem_mapIdx.mp hNew
      have hNew := slotSendInv_openSlot [] peer.mode i opened[i]
      exact ⟨hNew.address, hNew.received, fun _ => show (0 : Int) ≤ int64Max by decide⟩
  | connect serverId =>
    obtain ⟨_, rfl⟩ := hCase
    obtain ⟨i, hConnect⟩ := peerConnect_modifies peer serverId
    rw [hConnect]
    exact h.modify _ fun _ hSlot => ⟨hSlot.address, hSlot.small, hSlot.bounded⟩
  | queue messageData =>
    obtain ⟨_, rfl⟩ := hCase
    exact h.queue hSmall
  | input packets => exact h.input hCase.2
  | tick e => exact h.tick hCase
  | setAddress j size data =>
    obtain ⟨_, rfl⟩ := hCase
    exact h.modify _ fun slot hSlot =>
      ⟨addressFits_setAddress slot size data, hSlot.small, hSlot.bounded⟩
  | resolve j id =>
    obtain ⟨_, rfl⟩ := hCase
    exact h.modify _ fun _ hSlot => ⟨hSlot.address, hSlot.small, hSlot.bounded⟩

-- ---------------------------------------------------------------------------
-- Chunks
-- The faults of one chunk, as a function of it.
-- ---------------------------------------------------------------------------

/-- The computation faults with an access only. -/
def OnlyAccess {α : Type} (x : Except Fault α) : Prop := ∀ fault, x = .error fault → fault = .access

theorem onlyAccess_readAt {α : Type} (l : List α) (i : Nat) : OnlyAccess (readAt l i) := by
  intro fault h
  unfold readAt at h
  split at h
  · cases h
  · exact (Except.error.inj h).symm

theorem OnlyAccess.bind {α β : Type} {x : Except Fault α} {f : α → Except Fault β}
    (hx : OnlyAccess x) (hf : ∀ a, OnlyAccess (f a)) : OnlyAccess (x >>= f) := by
  intro fault h
  cases x with
  | ok a => exact hf a fault h
  | error fault' => exact hx fault (congrArg _ (Except.error.inj h))

theorem onlyAccess_ok {α : Type} (a : α) : OnlyAccess (.ok a : Except Fault α) := nofun

theorem onlyAccess_peerReadU32 (l : List UInt8) : OnlyAccess (peerReadU32 l) := by
  unfold peerReadU32
  iterate 4 refine (onlyAccess_readAt _ _).bind fun _ => ?_
  exact onlyAccess_ok _

theorem onlyAccess_peerReadU64 (l : List UInt8) : OnlyAccess (peerReadU64 l) := by
  unfold peerReadU64
  iterate 8 refine (onlyAccess_readAt _ _).bind fun _ => ?_
  exact onlyAccess_ok _

/-- The readers of the header run past the end of a shorter chunk. -/
theorem readHeader_short {c : Chunk} (h : c.length < 30) : readHeader c = .error .access := by
  have hOnly : OnlyAccess (readHeader c) := by
    refine OnlyAccess.bind ?_ fun _ => OnlyAccess.bind ?_ fun _ => OnlyAccess.bind ?_ fun _ =>
      OnlyAccess.bind ?_ fun _ => OnlyAccess.bind ?_ fun _ => onlyAccess_ok _
    -- size, mode, index, time and actor
    · refine OnlyAccess.bind ?_ fun _ => onlyAccess_ok _
      exact (onlyAccess_readAt _ _).bind fun _ => (onlyAccess_readAt _ _).bind fun _ => onlyAccess_ok _
    · exact (onlyAccess_readAt _ _).bind fun _ => onlyAccess_ok _
    · exact (onlyAccess_peerReadU64 _).bind fun _ => onlyAccess_ok _
    · exact (onlyAccess_peerReadU64 _).bind fun _ => onlyAccess_ok _
    · exact (onlyAccess_peerReadU32 _).bind fun _ => onlyAccess_ok _
  cases hRead : readHeader c with
  | ok header => exact absurd (length_of_readHeader hRead) (by omega)
  | error fault => rw [hOnly fault hRead]

/-- The fault of a chunk in host mode, in a slot with this actor id: its header
is read past its end, or the size for its index overflows. -/
def hostChunkFault (actor : Int) (c : Chunk) : Option Fault :=
  if c.length < peerNMessageData then some .access
  else
    match readHeader c with
    | .error _ => none
    | .ok header =>
      if header.time = 0 ∧ (header.actor : Int) = actor ∧ header.mode ≠ peerMessageModeService ∧
          header.index = int64Max then
        some .overflow
      else none

/-- The same in client mode, where the address of a session response may be
longer than its array, too. -/
def clientChunkFault (chunk : Chunk) : Option Fault :=
  if chunk.length < peerNMessageData then some .access
  else
    match readHeader chunk with
    | .error _ => none
    | .ok header =>
      if header.mode = peerMessageModeService then
        if chunk[peerNMessageData]? = some peerMSessionResponse ∧
            (peerAddressSize : Int) < header.dataSize - 1 then
          some .access
        else none
      else if header.index = int64Max then some .overflow
      else none

/-- The fault of a chunk, in either mode. -/
def chunkFault (mode : PeerMode) (actor : Int) (c : Chunk) : Option Fault :=
  match mode with
  | .host => hostChunkFault actor c
  | .client => clientChunkFault c

/-- What follows without a fault does not change the fault. -/
theorem faultOf_bind {α β : Type} {x : Except Fault α} {f : α → Except Fault β}
    (hf : ∀ a, faultOf (f a) = none) : faultOf (x >>= f) = faultOf x := by
  cases x with
  | error fault => rfl
  | ok a => exact hf a

/-- In particular nothing that only rearranges a result. -/
theorem faultOf_bind_ok {α β : Type} (x : Except Fault α) (f : α → β) :
    faultOf (x >>= fun a => pure (f a)) = faultOf x := faultOf_bind fun _ => rfl

/-- The turn on a host. What the host refuses is not read further, so it does not
fault. -/
theorem faultOf_inputChunkHost {slot : PeerSlot} (hSlot : SizedSlot .host slot) {c : Chunk}
    (hSize : 30 ≤ c.length → SizeMatches c) (al : Allocator) :
    faultOf (inputChunkHost slot c al) = hostChunkFault slot.actor c := by
  by_cases hMin : 30 ≤ c.length
  swap
  · rw [hostChunkFault, if_pos (Nat.lt_of_not_le hMin), inputChunkHost,
      readHeader_short (Nat.lt_of_not_le hMin)]
    rfl
  obtain ⟨header, id, hHeader, hId, _, hData⟩ := readers_of_sizeMatches hMin (hSize hMin)
  rw [hostChunkFault, if_neg (Nat.not_lt.mpr hMin), inputChunkHost, hHeader, ok_bind]
  dsimp only
  by_cases hTime : header.time = 0
  swap
  · rw [if_pos hTime, if_neg fun h => hTime h.1]
    rfl
  rw [if_neg (not_not.mpr hTime)]
  by_cases hActor : (header.actor : Int) = slot.actor
  swap
  · rw [if_pos hActor, if_neg fun h => hActor h.2.1]
    rfl
  rw [if_neg (not_not.mpr hActor), hId, ok_bind]
  by_cases hService : header.mode = peerMessageModeService
  · have hNone : ¬ (header.time = 0 ∧ (header.actor : Int) = slot.actor ∧
        header.mode ≠ peerMessageModeService ∧ header.index = int64Max) := fun h => h.2.2.1 hService
    rw [if_pos hService, if_neg hNone]
    split <;> rfl
  -- a message to insert
  · rw [if_neg hService, hData, ok_bind, faultOf_bind_ok, faultOf_queueInsert (hSlot.bounded rfl)]
    by_cases hIndex : header.index = int64Max
    · rw [if_pos hIndex, if_pos ⟨hTime, hActor, hService, hIndex⟩]
    · rw [if_neg hIndex, if_neg fun h => hIndex h.2.2.2]

/-- The first byte of a service message is its id, if it has one. -/
theorem readServiceId_eq {chunk : Chunk} {header : MessageHeader} {id : Option UInt8}
    (hId : readServiceId chunk header = .ok id) (hService : header.mode = peerMessageModeService)
    (hSize : header.dataSize = (chunk.length : Int) - 30) : id = chunk[peerNMessageData]? := by
  unfold readServiceId at hId
  rw [peerNMessageData]
  by_cases hSome : header.dataSize ≥ 1
  · rw [if_pos ⟨hService, hSome⟩] at hId
    obtain ⟨b, hRead, hEq⟩ := bind_eq_ok.mp hId
    rw [← Except.ok.inj hEq]
    exact (readAt_eq_ok.mp hRead).symm
  · rw [if_neg fun h => hSome h.2] at hId
    rw [← Except.ok.inj hId, List.getElem?_eq_none (by omega)]

theorem faultOf_inputChunkClient {client : Peer} (hBound : (client.queue.length : Int) ≤ int64Max)
    {j : Nat} {slot : PeerSlot} (hSlot : client.slots[j]? = some slot) {c : Chunk}
    (hSize : 30 ≤ c.length → SizeMatches c) :
    faultOf (inputChunkClient client j c) = clientChunkFault c := by
  by_cases hMin : 30 ≤ c.length
  swap
  · rw [clientChunkFault, if_pos (Nat.lt_of_not_le hMin), inputChunkClient,
      readHeader_short (Nat.lt_of_not_le hMin)]
    rfl
  obtain ⟨header, id, hHeader, hId, hDataSize, hData⟩ := readers_of_sizeMatches hMin (hSize hMin)
  rw [clientChunkFault, if_neg (Nat.not_lt.mpr hMin), inputChunkClient, hHeader, ok_bind, hId, ok_bind]
  dsimp only
  by_cases hService : header.mode = peerMessageModeService
  swap
  -- a message for the mutual queue
  · rw [if_neg hService, if_neg hService, hData, ok_bind]
    have hInsert := faultOf_queueInsert hBound header.index header.time header.actor
      (c.drop peerNMessageData) client.alloc
    cases hQueue : queueInsert client.queue header.index header.time header.actor
        (c.drop peerNMessageData) client.alloc <;> rw [hQueue] at hInsert <;> exact hInsert
  rw [if_pos hService, if_pos hService, ← readServiceId_eq hId hService hDataSize]
  by_cases hBeat : id = some peerMHeartbeat
  · rw [if_pos hBeat, if_neg fun h => absurd (hBeat.symm.trans h.1) (by decide)]
    rfl
  rw [if_neg hBeat]
  by_cases hResponse : id = some peerMSessionResponse
  swap
  · rw [if_neg hResponse, if_neg fun h => hResponse h.1]
    rfl
  -- a session response: its address is copied to the slot
  rw [if_pos hResponse, readAt_eq_ok.mpr hSlot, ok_bind, sessionResponse]
  have hOne : 1 ≤ header.dataSize := (service_of_readServiceId (hResponse ▸ hId)).2
  obtain ⟨address, hAddress⟩ : ∃ address,
      chunkData c (peerNMessageData + 1) (header.dataSize - 1) = .ok address := by
    refine ⟨_, if_pos ⟨by omega, ?_⟩⟩
    rw [peerNMessageData]
    omega
  have hLength := (length_of_chunkData hAddress).1
  rw [hAddress, ok_bind]
  by_cases hLong : (peerAddressSize : Int) < header.dataSize - 1
  · rw [dif_neg (by omega), if_pos ⟨hResponse, hLong⟩]
    rfl
  · rw [dif_pos (by omega), if_neg fun h => hLong h.2]
    rfl

theorem Sized.faultOf_inputChunk {peer : Peer} (h : Sized peer) {j : Nat} {slot : PeerSlot}
    (hSlot : peer.slots[j]? = some slot) {c : Chunk} (hSize : 30 ≤ c.length → SizeMatches c) :
    faultOf (inputChunk peer j c) = chunkFault peer.mode slot.actor c := by
  unfold inputChunk
  cases hMode : peer.mode with
  | host =>
    have hSized := h.slot slot (List.mem_of_getElem? hSlot)
    rw [hMode] at hSized
    dsimp only
    rw [readAt_eq_ok.mpr hSlot, ok_bind, faultOf_bind_ok, faultOf_inputChunkHost hSized hSize]
    rfl
  | client => exact faultOf_inputChunkClient (h.bounded hMode) hSlot hSize

/-- The next chunk finds the same slot, with what decides on its fault: the mode and
the slot's actor id, which no chunk changes in a host, and which in a client do not
matter. -/
theorem ChunkStep.slot_kept {j : Nat} {c : Chunk} {peer peer' : Peer} (h : ChunkStep j c peer peer')
    {slot : PeerSlot} (hSlot : peer.slots[j]? = some slot) :
    ∃ slot', peer'.slots[j]? = some slot' ∧
      chunkFault peer'.mode slot'.actor = chunkFault peer.mode slot.actor := by
  have hj := (List.getElem?_eq_some_iff.mp hSlot).1
  cases h with
  | hostSkip => exact ⟨slot, hSlot, rfl⟩
  | hostStore _ hSame =>
    rw [hSlot, Option.some.injEq] at hSame
    exact ⟨_, List.getElem?_set_self hj, by rw [← hSame]⟩
  | clientSkip => exact ⟨slot, hSlot, rfl⟩
  | clientRespond hMode =>
    refine ⟨_, List.getElem?_set_self hj, ?_⟩
    dsimp only
    rw [hMode]
    rfl
  | clientLearn => exact ⟨slot, hSlot, rfl⟩

/-- The loop over the chunks ends at the first that faults. Whether a chunk faults
is decided by its bytes and the actor id of its slot, so the chunks before it do not
enter. -/
theorem Sized.faultOf_inputChunks {peer : Peer} (h : Sized peer) {j : Nat} {slot : PeerSlot}
    (hSlot : peer.slots[j]? = some slot) {cs : List Chunk}
    (hChunks : ∀ c ∈ cs, c.length ≤ 385 ∧ (30 ≤ c.length → SizeMatches c)) :
    faultOf (inputChunks j cs peer) = cs.findSome? (chunkFault peer.mode slot.actor) := by
  induction cs generalizing peer slot with
  | nil => rfl
  | cons c cs ih =>
    obtain ⟨⟨hMax, hSize⟩, hRest⟩ := List.forall_mem_cons.mp hChunks
    have hFault := h.faultOf_inputChunk hSlot hSize
    rw [List.findSome?_cons, inputChunks]
    cases hFirst : inputChunk peer j c with
    | error fault =>
      rw [hFirst] at hFault
      -- The first chunk faults: that is the fault of the list, whatever comes behind.
      rw [← hFault]
      rfl
    | ok r =>
      obtain ⟨s, peer'⟩ := r
      rw [hFirst] at hFault
      rw [← hFault, ok_bind]
      -- The first chunk goes through, and leaves the slot's actor as it was.
      have hStep := inputChunk_cases hFirst
      obtain ⟨slot', hSlot', hSame⟩ := hStep.slot_kept hSlot
      dsimp only [faultOf]
      rw [← hSame, ← ih (h.chunk hMax hStep) hSlot' hRest]
      exact faultOf_bind_ok _ _

-- ---------------------------------------------------------------------------
-- Packets
-- ---------------------------------------------------------------------------

/-- What `peer_unpack` extracts from a packet with this allocator. -/
def unpackedChunks (packet : PeerPacket) (al : Allocator) : List Chunk :=
  match unpackPacket packet [] al with
  | .ok (_, chunks, _) => chunks
  | .error _ => []

/-- The fault of a packet: the first fault among its chunks, if a slot takes it. -/
def packetFault (peer : Peer) (packet : PeerPacket) : Option Fault :=
  (slotOf peer packet).bind fun j => (peer.slots[j]?).bind fun slot =>
    (unpackedChunks packet peer.alloc).findSome? (chunkFault peer.mode slot.actor)

theorem Sized.faultOf_inputPacket {peer : Peer} (h : Sized peer) (packet : PeerPacket) :
    faultOf (inputPacket peer packet) = packetFault peer packet := by
  cases hFind : slotOf peer packet with
  | none =>
    rw [packetFault, hFind]
    -- No slot matches: the packet binds one or is dropped, without a fault.
    unfold inputPacket
    split
    · rw [show peer.slots.findIdx? (·.matchesPacket packet) = none from hFind]
      rfl
    · rfl
  | some j =>
    obtain ⟨slot, hSlot, _⟩ := slotOf_eq_some_iff.mp hFind
    obtain ⟨s, cs, al, hUnpack, _⟩ := unpackPacket_outcomes packet [] peer.alloc
    rw [List.nil_append] at hUnpack
    have hSized : Sized { peer with alloc := al } := ⟨h.slot, h.small, h.bounded⟩
    have hSame : ({ peer with alloc := al } : Peer).slots[j]? = some slot := hSlot
    -- Unpacking never faults, so the chunks decide, with the allocator that it has left.
    have hChunks := hSized.faultOf_inputChunks hSame fun c (hc : c ∈ cs) =>
      ⟨(unpackPacket_keeps hUnpack).1 c hc, sizeMatches_of_unpacked hUnpack hc⟩
    rw [inputPacket_of_findIdx? hFind hUnpack, packetFault, hFind, unpackedChunks, hUnpack]
    dsimp only [Option.bind_some]
    rw [hSlot, Option.bind_some, ← hChunks]
    exact faultOf_bind_ok _ _

/-- A packet of the list faults where those before it have brought the peer. The
packets before it have been taken, and no packet behind it is looked at. -/
def InputFaults (peer : Peer) (packets : List PeerPacket) (fault : Fault) : Prop :=
  ∃ before packet after s peer', packets = before ++ packet :: after ∧
    peerInput peer before = .ok (s, peer') ∧ packetFault peer' packet = some fault

/-- Any packets: the first that faults, in the state that those before have left.
Those before matter because they may bind the slot that a later one comes to. -/
theorem Sized.faultOf_peerInput {peer : Peer} (h : Sized peer) {packets : List PeerPacket}
    {fault : Fault} :
    faultOf (peerInput peer packets) = some fault ↔ InputFaults peer packets fault := by
  induction packets generalizing peer with
  | nil => exact iff_of_false nofun fun ⟨before, _, _, _, _, hEq, _⟩ => by simp at hEq
  | cons packet packets ih =>
    have hFault := h.faultOf_inputPacket packet
    cases hFirst : inputPacket peer packet with
    | error first =>
      rw [hFirst] at hFault
      -- The first packet faults, so the packets taken before the faulting one are none.
      rw [peerInput, hFirst, error_bind]
      constructor
      · intro hEq
        exact ⟨[], packet, packets, kitOk, peer, rfl, rfl, hFault.symm.trans hEq⟩
      · rintro ⟨before, p, after, s, peer', hEq, hBefore, hLast⟩
        cases before with
        | nil =>
          obtain ⟨rfl, _⟩ := List.cons.inj hEq
          obtain ⟨_, rfl⟩ := Prod.mk.inj (Except.ok.inj hBefore)
          exact hFault.trans hLast
        | cons q before =>
          obtain ⟨rfl, _⟩ := List.cons.inj hEq
          -- A longer front would have taken the packet that faults.
          obtain ⟨_, _, _, hOk, _⟩ := peerInput_cons hBefore
          rw [hFirst] at hOk
          cases hOk
    | ok r =>
      obtain ⟨s1, p1⟩ := r
      rw [hFirst] at hFault
      -- The first packet is taken, and what is left decides.
      have hRest : faultOf (peerInput peer (packet :: packets)) = faultOf (peerInput p1 packets) := by
        rw [peerInput, hFirst, ok_bind]
        exact faultOf_bind_ok _ _
      rw [hRest, ih (h.input (peerInput_singleton hFirst))]
      constructor
      · rintro ⟨before, p, after, s, peer', rfl, hBefore, hLast⟩
        exact ⟨packet :: before, p, after, s1 ||| s, peer', rfl,
          peerInput_of_cons hFirst hBefore, hLast⟩
      · rintro ⟨before, p, after, s, peer', hEq, hBefore, hLast⟩
        cases before with
        | nil =>
          obtain ⟨rfl, _⟩ := List.cons.inj hEq
          obtain ⟨_, rfl⟩ := Prod.mk.inj (Except.ok.inj hBefore)
          -- The faulting packet cannot be the one that has just been taken.
          rw [← hFault] at hLast
          cases hLast
        | cons q before =>
          obtain ⟨rfl, rfl⟩ := List.cons.inj hEq
          obtain ⟨s1', s2, p1', hOk, hOnward⟩ := peerInput_cons hBefore
          rw [hFirst, Except.ok.injEq, Prod.mk.injEq] at hOk
          obtain ⟨_, rfl⟩ := hOk
          exact ⟨before, p, after, s2, peer', rfl, hOnward, hLast⟩

-- ---------------------------------------------------------------------------
-- Ticks
-- ---------------------------------------------------------------------------

/-- The fault of a tick: the heartbeat of a client that has sent more messages
than its mutual queue holds. -/
def tickFault (peer : Peer) (e : Int) : Option Fault :=
  match peer.mode, peer.slots with
  | .client, slot :: _ =>
    if ValidElapsed peer e ∧ slot.queue.length ≤ slot.outIndex ∧ (slot.tickClock e).clockHeartbeat ≤ 0 ∧
        peer.alloc.outcomes 0 = true ∧ peer.queue.length < slot.outIndex then
      some (.trail slot.outIndex peer.queue.length)
    else none
  | _, _ => none

/-- **A host's tick does not fault**, whatever the outcomes of its allocations. The
two chunks that it builds itself have a fixed size or that of an address, and the
others are messages that fit. -/
theorem Sized.exists_peerTick {host : Peer} (h : Sized host) (hCursor : CursorInv host)
    (hMode : host.mode = .host) (e : Int) : ∃ r, peerTick host e = .ok r := by
  by_cases hValid : ValidElapsed host e
  swap
  · obtain ⟨s, _, hTick⟩ := peerTick_invalid hValid
    exact ⟨_, hTick⟩
  have hFrame := hostMerge_frame (host.tickClock e)
  have hSlots : ∀ slot ∈ (hostMerge (host.tickClock e)).2.slots.tail,
      slot.outIndex ≤ (hostMerge (host.tickClock e)).2.queue.length ∧ slot.localEnd.AddressFits := by
    intro slot' hSlot'
    -- The merge before the sending moves neither cursors nor addresses, and the queue only
    -- grows.
    obtain ⟨middle, hMiddle, i, rfl⟩ := exists_of_forall₂_right hFrame.2.2 hSlot'
    rw [tickClock_slots] at hMiddle
    obtain ⟨slot, hSlot, rfl⟩ := List.mem_map.mp (List.mem_of_mem_tail hMiddle)
    have hOut := hCursor slot hSlot
    rw [hMode] at hOut
    refine ⟨?_, ?_⟩
    · rw [tickClock_outIndex]
      exact Nat.le_trans hOut hFrame.1
    · rw [tickClock_localEnd]
      exact (h.slot slot hSlot).address
  obtain ⟨r, hSend⟩ := exists_sendSlots (h.small_merge e) hSlots
    (((hostMerge (host.tickClock e)).2.slots.head?.map (·.localEnd.id)).getD 0)
    (hostMerge (host.tickClock e)).2.time (hostMerge (host.tickClock e)).2.actor
    { status := (hostMerge (host.tickClock e)).1, packets := []
      mt64 := (hostMerge (host.tickClock e)).2.mt64, alloc := (hostMerge (host.tickClock e)).2.alloc }
  rw [peerTick_host_eq hValid hMode, hostSend_eq, hSend, ok_bind, ok_bind]
  exact ⟨_, rfl⟩

/-- A client's faults where its heartbeat's trail does, and a host's never. This is
where the invariant on cursors is needed: it covers the mutual queue of a host and
the slot's queue of a client, but not the mutual queue of a client. -/
theorem Sized.faultOf_peerTick {peer : Peer} (h : Sized peer) (hCursor : CursorInv peer) (e : Int) :
    faultOf (peerTick peer e) = tickFault peer e := by
  cases hMode : peer.mode with
  | host =>
    -- A host's cursors never pass its queue, so a host never faults here.
    rw [faultOf_eq_none.mpr (h.exists_peerTick hCursor hMode e), tickFault, hMode]
  | client =>
    by_cases hValid : ValidElapsed peer e
    swap
    · obtain ⟨s, _, hTick⟩ := peerTick_invalid hValid
      -- A refused time leaves before anything is sent, and the condition asks for an accepted
      -- one.
      rw [hTick, tickFault, hMode]
      cases peer.slots with
      | nil => rfl
      | cons slot slots => exact (if_neg fun hAll => hValid hAll.1).symm
    rw [peerTick_client_eq hValid hMode]
    refine (faultOf_bind fun _ => rfl).trans ?_
    rw [clientSend, tickFault, hMode, tickClock_slots]
    cases hSlots : peer.slots with
    | nil => rfl
    | cons slot slots =>
      have hHead : slot ∈ peer.slots := by rw [hSlots]; exact List.mem_cons_self ..
      have hOut := hCursor slot hHead
      rw [hMode] at hOut
      rw [List.map_cons]
      dsimp only
      rw [tickClock_outIndex, tickClock_queue]
      -- A client packs its new messages, or sends a heartbeat when one is due, or does nothing;
      -- of the three only the heartbeat can fault.
      by_cases hNew : slot.outIndex < slot.queue.length
      · rw [if_pos hNew, if_neg fun hAll => absurd hAll.2.1 (Nat.not_le.mpr hNew)]
        refine (faultOf_bind fun _ => rfl).trans (faultOf_eq_none.mpr ?_)
        exact exists_queuePack (h.slot slot hHead).small hOut ..
      have hSent : slot.queue.length ≤ slot.outIndex := Nat.le_of_not_lt hNew
      rw [if_neg hNew]
      by_cases hDue : (slot.tickClock e).clockHeartbeat ≤ 0
      · rw [if_pos hDue]
        refine (faultOf_bind fun _ => rfl).trans ((faultOf_sendHeartbeat h.small ..).trans ?_)
        exact if_congr ⟨fun hTrail => ⟨hValid, hSent, hDue, hTrail⟩, fun hAll => hAll.2.2.2⟩ rfl rfl
      · rw [if_neg hDue, if_neg fun hAll => hDue hAll.2.2.1]
        rfl

-- ---------------------------------------------------------------------------
-- Runs
-- ---------------------------------------------------------------------------

/-- What faults with what, read off the state and the call. The other calls never
fault. -/
def Peer.Faults (peer : Peer) (fault : Fault) : PeerAction → Prop
  | .input packets => InputFaults peer packets fault
  | .tick e => tickFault peer e = some fault
  | .openSlots _ | .connect _ | .queue _ | .setAddress _ _ _ | .resolve _ _ => False

/-- **Every fault.** In every state that a peer of either mode reaches, with any
packets as input and any outcomes of its allocations, as long as its application
queues messages that fit: a call faults with an access, an overflow or a trail
exactly where a chunk, or the heartbeat of a client, says so. -/
theorem faults_of_reaches {mode : PeerMode} {alloc : Allocator} {rng : Mt64} {peer : Peer}
    (hReach : Reaches Peer.step (fun _ a _ => a.QueuesSmall) (peerInit mode alloc rng) peer)
    (a : PeerAction) (fault : Fault) : faultOf (peer.act a) = some fault ↔ peer.Faults fault a := by
  have hSized : Sized peer := hReach.invariant (I := Sized)
    (fun _ _ _ hInv hStep hSmall => hInv.step hSmall hStep) (sized_peerInit mode alloc rng)
  have hCursor : CursorInv peer := cursorInv_of_reaches (hReach.weaken fun _ _ _ _ => trivial)
  cases a with
  | input packets =>
    have hFault : faultOf (peer.act (.input packets)) = faultOf (peerInput peer packets) :=
      faultOf_bind_ok _ _
    rw [hFault]
    exact hSized.faultOf_peerInput
  | tick e =>
    rw [Peer.act, hSized.faultOf_peerTick hCursor]
    rfl
  -- the other calls return a status, whatever they are given
  | openSlots ids => exact iff_of_false (fun h => Option.some_ne_none fault h.symm) id
  | connect serverId => exact iff_of_false (fun h => Option.some_ne_none fault h.symm) id
  | queue messageData => exact iff_of_false (fun h => Option.some_ne_none fault h.symm) id
  | setAddress j size data => exact iff_of_false (fun h => Option.some_ne_none fault h.symm) id
  | resolve j _ => exact iff_of_false (fun h => Option.some_ne_none fault h.symm) id

/-- A host with a session, and a packet for it whose only size field is 5: its
header is read past the end of the chunk. -/
theorem faults_of_reaches_short : ∃ host : Peer,
    faultOf (host.act (.input [{ shortFieldPacket with sourceId := 5 }])) = some .access ∧
      host.Faults .access (.input [{ shortFieldPacket with sourceId := 5 }]) := by
  obtain ⟨host, hReach, hTest⟩ : ∃ host, Reaches Peer.step (fun _ a _ => a.QueuesSmall)
      (peerInit .host .reliable ⟨fun _ => 0⟩) host ∧
        decide (faultOf (host.act (.input [{ shortFieldPacket with sourceId := 5 }])) =
          some .access) = true :=
    exists_reaches_of_runGuarded (fun _ a _ => decide a.QueuesSmall)
      (fun _ _ _ h => of_decide_eq_true h)
      (storingRun.take 3) _ (fun host : Peer =>
        decide (faultOf (host.act (.input [{ shortFieldPacket with sourceId := 5 }])) =
          some .access)) (by decide +kernel)
  have hFault := of_decide_eq_true hTest
  exact ⟨host, hFault, (faults_of_reaches hReach _ _).mp hFault⟩

end PeerProtocol
