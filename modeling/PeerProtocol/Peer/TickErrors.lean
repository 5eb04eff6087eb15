import PeerProtocol.Peer.Errors
import PeerProtocol.Peer.HostTick
import PeerProtocol.Peer.Resend

/-!
# peer — the errors behind the status of a tick

`peer_tick` combines the codes of the calls that it makes for every slot: to
append a message, to pack chunks into packets, and to put the chunks together
before. Each of these ends with one code. As in `Peer.Errors`, what goes wrong
is said first, in the order of the source, and the status is then compared
with it.

A tick differs from an input in two ways. Its loops pass on more than a peer:
the status so far, the packets, the generator and the allocator. The lemmas of
the emitting functions therefore say that the status behind a turn reports the
errors before it and those of the turn. And a tick can be refused as a whole,
for its elapsed time, in which case nothing else is looked at.

The functions that return one code are not taken apart: that the code is one
of those of a tick is enough (`CodeOf`), since what goes wrong in them is what
their status says. This is what makes the predicates a description of the tick
and not a copy of it.

## Results

* `queueAppend_code`, `chunksAppendTrail_code`, `peerPack_code`, … — which
  codes these are.
* `MergeMessagesError`, `MergeSlotsError` — what goes wrong in the merge.
* `QueuePackError`, `HeartbeatError`, `SessionResponseError` — and when
  messages, a heartbeat or a response are sent; `SendSlotError`,
  `SendSlotsError` — to one slot, and to all.
* `TickError` — in the whole of a tick.
* `statusOf_peerTick` — the status has the bits of these errors, and no other.
-/

namespace PeerProtocol

open Lib

/-- The codes of the errors of a tick. Every status that a tick returns is made of
these. -/
def tickCodes : List Status :=
  [peerErrorBadAlloc, peerErrorInvalidMessageSize, peerErrorInvalidOutIndex,
    peerErrorInvalidTimeElapsed, peerErrorTimeOverflow]

-- ---------------------------------------------------------------------------
-- The codes of the calls
-- Each returns `KIT_OK` or one of the codes, for every allocator.
-- ---------------------------------------------------------------------------

theorem queueAppend_code (q : PeerQueue) (time actor : Int) (data : List UInt8) (al : Allocator) :
    (queueAppend q time actor data al).1 = kitOk ∨ (queueAppend q time actor data al).1 ∈ tickCodes := by
  unfold queueAppend
  split
  · exact Or.inr (List.mem_cons_self ..)
  split
  · exact Or.inr (List.mem_cons_self ..)
  · exact Or.inl rfl

theorem chunksWrap_code (chunks : List Chunk) (al : Allocator) :
    (chunksWrap chunks al).1 = kitOk ∨ (chunksWrap chunks al).1 ∈ tickCodes := by
  unfold chunksWrap
  split
  · exact Or.inr (List.mem_cons_self ..)
  · exact Or.inl rfl

theorem heartbeatChunks_code {time actor : Int} {al al' : Allocator} {s : Status}
    {chunks : Option (List Chunk)} (h : heartbeatChunks time actor al = .ok (s, chunks, al')) :
    s = kitOk ∨ s ∈ tickCodes := by
  unfold heartbeatChunks at h
  split at h
  · obtain ⟨rfl, _⟩ := Prod.mk.inj (Except.ok.inj h)
    exact Or.inr (List.mem_cons_self ..)
  split at h
  · obtain ⟨rfl, _⟩ := Prod.mk.inj (Except.ok.inj h)
    exact Or.inr (List.mem_cons_self ..)
  · obtain ⟨chunk, _, h⟩ := bind_eq_ok.mp h
    obtain ⟨rfl, _⟩ := Prod.mk.inj (Except.ok.inj h)
    exact Or.inl rfl

theorem chunksAppendTrail_code {rng rng' : Mt64} {q : PeerQueue} {index : Nat}
    {chunks chunks' : List Chunk} {al al' : Allocator} {s : Status}
    (h : chunksAppendTrail rng q index chunks al = .ok (s, chunks', rng', al')) :
    s = kitOk ∨ s ∈ tickCodes := by
  by_cases hIndex : index ≤ q.length
  · obtain ⟨s1, added, rng1, al1, hTrail, hCases, _⟩ := trail_outcomes hIndex rng chunks al
    rw [hTrail] at h
    obtain ⟨rfl, _⟩ := Prod.mk.inj (Except.ok.inj h)
    rcases hCases with ⟨rfl, _⟩ | ⟨rfl, _⟩
    · exact Or.inl rfl
    · exact Or.inr (List.mem_cons_self ..)
  · rw [chunksAppendTrail, if_pos (by omega)] at h
    cases h

theorem startPacket_code {src dst : Int} {previousSize offset offset' : Nat}
    {out out' : List PeerPacket} {al al' : Allocator} {s : Status}
    (h : startPacket src dst previousSize out offset al = (s, out', offset', al')) :
    s = kitOk ∨ s ∈ tickCodes := by
  unfold startPacket at h
  dsimp only at h
  split at h
  · obtain ⟨rfl, _⟩ := Prod.mk.inj h
    exact Or.inl rfl
  · obtain ⟨rfl, _⟩ := Prod.mk.inj h
    exact Or.inr (List.mem_cons_self ..)

theorem packLoop_code {src dst : Int} {previousSize : Nat} {chunks : List Chunk}
    {out out' : List PeerPacket} {offset offset' : Nat} {al al' : Allocator} {s : Status}
    (h : packLoop src dst previousSize chunks out offset al = .ok (s, out', offset', al')) :
    s = kitOk ∨ s ∈ tickCodes := by
  induction chunks generalizing out offset al with
  | nil =>
    obtain ⟨rfl, _⟩ := Prod.mk.inj (Except.ok.inj h)
    exact Or.inl rfl
  | cons chunk chunks ih =>
    obtain ⟨s1, out1, offset1, al1, hRoom, hTurn⟩ := packLoop_cons_cases h
    -- The turn ends without room, or with a bad chunk, or the loop goes on.
    rcases hTurn with ⟨_, hEnd⟩ | ⟨_, s2, out2, hAdd, ⟨hBad, hEnd⟩ | ⟨_, hRest⟩⟩
    · obtain ⟨rfl, _⟩ := Prod.mk.inj hEnd
      split at hRoom
      · exact startPacket_code hRoom
      · exact Or.inl (Prod.mk.inj hRoom).1.symm
    · obtain ⟨rfl, _⟩ := Prod.mk.inj hEnd
      rcases addChunk_cases hAdd with ⟨rfl, _⟩ | ⟨rfl, _⟩
      · exact Or.inr (by decide)
      · exact Or.inl rfl
    · exact ih hRest

theorem peerPack_code {src dst : Int} {chunks : List Chunk} {out out' : List PeerPacket}
    {al al' : Allocator} {s : Status} (h : peerPack src dst chunks out al = .ok (s, out', al')) :
    s = kitOk ∨ s ∈ tickCodes := by
  obtain ⟨⟨s1, out1, offset1, al1⟩, hLoop, h⟩ := bind_eq_ok.mp h
  dsimp only at h
  split at h
  · obtain ⟨rfl, _⟩ := Prod.mk.inj (Except.ok.inj h)
    exact packLoop_code hLoop
  split at h
  · split at h
    · obtain ⟨rfl, _⟩ := Prod.mk.inj (Except.ok.inj h)
      exact Or.inr (List.mem_cons_self ..)
    · obtain ⟨rfl, _⟩ := Prod.mk.inj (Except.ok.inj h)
      exact Or.inl rfl
  · obtain ⟨rfl, _⟩ := Prod.mk.inj (Except.ok.inj h)
    exact Or.inl rfl

-- ---------------------------------------------------------------------------
-- Merging
-- ---------------------------------------------------------------------------

/-- What goes wrong when the messages of a slot are appended that are ready. -/
def MergeMessagesError (time actor : Int) : List PeerMessage → PeerQueue → Allocator → Status → Prop
  | [], _, _, _ => False
  | message :: messages, queue, al, e =>
    message.isReady = true ∧
      (CodeOf (queueAppend queue time actor message.data al).1 e ∨
        MergeMessagesError time actor messages (queueAppend queue time actor message.data al).2.1
          (queueAppend queue time actor message.data al).2.2 e)

/-- The inner loop goes on after an error. -/
theorem statusOf_mergeMessages (time actor : Int) (messages : List PeerMessage) (i : Nat)
    (queue : PeerQueue) (al : Allocator) :
    StatusOf tickCodes (mergeMessages time actor messages i queue al).1
      (MergeMessagesError time actor messages queue al) := by
  induction messages generalizing i queue al with
  | nil => exact .ok fun _ hError => hError
  | cons message messages ih =>
    rw [mergeMessages]
    split
    · next hReady =>
      refine (StatusOf.or (.code (queueAppend_code ..)) (ih ..)).congr fun e => ?_
      rw [MergeMessagesError, and_iff_right hReady]
    · next hNot => exact .ok fun e hError => hNot hError.1

/-- What goes wrong in the loop over the slots, with the mutual queue and the
allocator that the slots before have left. -/
def MergeSlotsError (time : Int) : List PeerSlot → PeerQueue → Allocator → Status → Prop
  | [], _, _, _ => False
  | slot :: slots, queue, al, e =>
    MergeMessagesError time slot.actor (slot.queue.drop slot.inIndex) queue al e ∨
      MergeSlotsError time slots
        (mergeMessages time slot.actor (slot.queue.drop slot.inIndex) slot.inIndex queue al).2.2.1
        (mergeMessages time slot.actor (slot.queue.drop slot.inIndex) slot.inIndex queue al).2.2.2 e

theorem statusOf_mergeSlots (time : Int) (slots : List PeerSlot) (queue : PeerQueue) (al : Allocator) :
    StatusOf tickCodes (mergeSlots time slots queue al).1 (MergeSlotsError time slots queue al) := by
  induction slots generalizing queue al with
  | nil => exact .ok fun _ hError => hError
  | cons slot slots ih => exact StatusOf.or (statusOf_mergeMessages ..) (ih ..)

-- ---------------------------------------------------------------------------
-- Sending messages
-- ---------------------------------------------------------------------------

/-- What goes wrong when chunks are packed: references to them are made, and
then they are packed, unless that has failed. -/
def WrapPackError (src dst : Int) (chunks : List Chunk) (packets : List PeerPacket) (al : Allocator)
    (e : Status) : Prop :=
  CodeOf (chunksWrap chunks al).1 e ∨
    (chunksWrap chunks al).1 = kitOk ∧
      EndsWith (peerPack src dst (chunksWrap chunks al).2.1 packets (chunksWrap chunks al).2.2)
        fun (s, _, _) => CodeOf s e

/-- What goes wrong behind the messages' own chunks, which may be refused: with
the trail, and when all of them are packed. -/
def PackTrailError (q : PeerQueue) (index : Nat) (src dst : Int) (out : TickOutput) :
    Option (List Chunk) → Allocator → Status → Prop
  | none, _, e => e = peerErrorBadAlloc
  | some messages, al, e =>
    EndsWith (chunksAppendTrail out.mt64 q index messages al) fun (s, chunks, _, al) =>
      CodeOf s e ∨ WrapPackError src dst chunks out.packets al e

/-- What goes wrong when the messages of a queue from `index` on are sent: the
index is behind the queue, or there is no list for the chunks, or something goes
wrong with these. -/
def QueuePackError (q : PeerQueue) (index : Nat) (src dst : Int) (out : TickOutput) :
    Status → Prop :=
  Checked (index > q.length) peerErrorInvalidOutIndex fun e =>
    index < q.length ∧
      Checked (out.alloc.request.1 = false) peerErrorBadAlloc
        (fun e => EndsWith (serialChunks q index (q.length - index) out.alloc.request.2)
          fun (r, al) => PackTrailError q index src dst out r al e) e

section

variable {src dst : Int} {chunks : List Chunk} {packets packets' : List PeerPacket} {al al' : Allocator}

/-- The references could not be allocated, and nothing is packed. -/
theorem statusOf_wrapFailed (hFailed : (chunksWrap chunks al).1 ≠ kitOk) :
    StatusOf tickCodes (chunksWrap chunks al).1 (WrapPackError src dst chunks packets al) := by
  refine (StatusOf.code (chunksWrap_code chunks al)).congr fun e => ?_
  exact or_iff_left fun hPacked => hFailed hPacked.1

/-- The references and the packets, once the chunks are there. -/
theorem statusOf_wrapPack {s : Status} (hWrap : (chunksWrap chunks al).1 = kitOk)
    (h : peerPack src dst (chunksWrap chunks al).2.1 packets (chunksWrap chunks al).2.2 =
      .ok (s, packets', al')) : StatusOf tickCodes s (WrapPackError src dst chunks packets al) := by
  refine (StatusOf.code (peerPack_code h)).congr fun e => ?_
  rw [WrapPackError, h, endsWith_ok, hWrap]
  exact ⟨fun hError => hError.elim (fun hNone => absurd rfl hNone.1) And.right,
    fun hError => Or.inr ⟨rfl, hError⟩⟩

end

/-- `queue_pack`, branch by branch: each return of the source is one of the cases,
and the errors of the trail, of the wrapping and of the packing are united where the
source unites them. -/
theorem statusOf_queuePack {q : PeerQueue} {index : Nat} {src dst : Int} {out out' : TickOutput}
    {s : Status} (h : queuePack q index src dst out = .ok (s, out')) :
    StatusOf tickCodes s (QueuePackError q index src dst out) := by
  unfold queuePack at h
  split at h
  · next hBehind =>
    obtain ⟨rfl, _⟩ := Prod.mk.inj (Except.ok.inj h)
    exact .bad hBehind (by decide)
  next hNotBehind =>
  refine .good hNotBehind ?_
  split at h
  · next hEnd =>
    obtain ⟨rfl, _⟩ := Prod.mk.inj (Except.ok.inj h)
    exact StatusOf.ok fun e hError => absurd hError.1 (by omega)
  -- there are messages: a list for their chunks is requested
  next hNotEnd =>
  refine .when (by omega) ?_
  rcases hRequest : out.alloc.request with ⟨granted, al⟩
  rw [hRequest] at h
  cases granted with
  | false =>
    obtain ⟨rfl, _⟩ := Prod.mk.inj (Except.ok.inj h)
    exact .bad rfl (by decide)
  | true =>
  refine .good (fun hRefused => Bool.noConfusion hRefused) ?_
  obtain ⟨⟨r, al1⟩, hChunks, h⟩ := bind_eq_ok.mp h
  -- the list is there, so only what comes behind it can go wrong
  have hLater (e : Status) : EndsWith (serialChunks q index (q.length - index) al)
      (fun (r, al) => PackTrailError q index src dst out r al e) ↔
        PackTrailError q index src dst out r al1 e := by
    rw [hChunks, endsWith_ok]
  refine Reports.congr ?_ hLater
  cases r with
  | none =>
    obtain ⟨rfl, _⟩ := Prod.mk.inj (Except.ok.inj h)
    exact .single (by decide) fun e => Iff.rfl
  | some messages =>
    obtain ⟨⟨s1, chunks, rng, al2⟩, hTrail, h⟩ := bind_eq_ok.mp h
    have hFirst : StatusOf tickCodes s1 (CodeOf s1) := .code (chunksAppendTrail_code hTrail)
    have hBoth (e : Status) : PackTrailError q index src dst out (some messages) al1 e ↔
        CodeOf s1 e ∨ WrapPackError src dst chunks out.packets al2 e := by
      rw [PackTrailError, hTrail, endsWith_ok]
    dsimp only at h
    split at h
    · next hFailed =>
      obtain ⟨rfl, _⟩ := Prod.mk.inj (Except.ok.inj h)
      exact (hFirst.or (statusOf_wrapFailed hFailed)).congr hBoth
    · next hWrapped =>
      obtain ⟨⟨s2, packets, al3⟩, hPack, h⟩ := bind_eq_ok.mp h
      obtain ⟨rfl, _⟩ := Prod.mk.inj (Except.ok.inj h)
      exact (hFirst.or (statusOf_wrapPack (not_not.mp hWrapped) hPack)).congr hBoth

/-- `queue_pack` returns its status, and leaves the one so far: the caller unites
the two, so the errors of a slot cannot be lost behind those of the next. -/
theorem queuePack_keeps_status {q : PeerQueue} {index : Nat} {src dst : Int} {out out' : TickOutput}
    {s : Status} (h : queuePack q index src dst out = .ok (s, out')) : out'.status = out.status := by
  unfold queuePack at h
  split at h
  · rw [← (Prod.mk.inj (Except.ok.inj h)).2]
  split at h
  · rw [← (Prod.mk.inj (Except.ok.inj h)).2]
  split at h
  · rw [← (Prod.mk.inj (Except.ok.inj h)).2]
  obtain ⟨⟨r, al1⟩, _, h⟩ := bind_eq_ok.mp h
  -- Behind the first chunks every return is made of the same output.
  cases r with
  | none => rw [← (Prod.mk.inj (Except.ok.inj h)).2]
  | some messages =>
    obtain ⟨⟨s1, chunks, rng, al2⟩, _, h⟩ := bind_eq_ok.mp h
    dsimp only at h
    split at h
    · rw [← (Prod.mk.inj (Except.ok.inj h)).2]
    · obtain ⟨⟨s2, packets, al3⟩, _, h⟩ := bind_eq_ok.mp h
      rw [← (Prod.mk.inj (Except.ok.inj h)).2]

-- ---------------------------------------------------------------------------
-- Sending a heartbeat
-- ---------------------------------------------------------------------------

/-- What goes wrong when a heartbeat is sent: its chunk is refused, or something
goes wrong with the trail, or when all of them are packed. -/
def HeartbeatError (q : PeerQueue) (index : Nat) (time actor src dst : Int) (out : TickOutput)
    (e : Status) : Prop :=
  EndsWith (heartbeatChunks time actor out.alloc) fun (s, chunks, al) =>
    CodeOf s e ∨ ∃ heartbeat, chunks = some heartbeat ∧
      EndsWith (chunksAppendTrail out.mt64 q index heartbeat al) fun (s, chunks, _, al) =>
        CodeOf s e ∨ CodeOf (chunksWrap chunks al).1 e ∨
          EndsWith (peerPack src dst (chunksWrap chunks al).2.1 out.packets (chunksWrap chunks al).2.2)
            fun (s, _, _) => CodeOf s e

/-- A heartbeat: up to four codes are united with the status so far, one for the
heartbeat's own chunk, one for the trail, one for the wrapping and one for the
packing. -/
theorem statusOf_sendHeartbeat {q : PeerQueue} {index : Nat} {time actor src dst : Int}
    {out out' : TickOutput} {started : Bool} {occurred : Status → Prop}
    (h : sendHeartbeat q index time actor src dst out = .ok (started, out'))
    (hBefore : StatusOf tickCodes out.status occurred) :
    StatusOf tickCodes out'.status
      fun e => occurred e ∨ HeartbeatError q index time actor src dst out e := by
  obtain ⟨⟨s0, chunks, al⟩, hHeartbeat, h⟩ := bind_eq_ok.mp h
  have hFirst : StatusOf tickCodes s0 (CodeOf s0) := .code (heartbeatChunks_code hHeartbeat)
  -- without its chunk nothing is sent
  cases chunks with
  | none =>
    obtain ⟨_, rfl⟩ := Prod.mk.inj (Except.ok.inj h)
    refine (hBefore.or hFirst).congr fun e => ?_
    rw [HeartbeatError, hHeartbeat, endsWith_ok]
    simp
  | some heartbeat =>
    obtain ⟨⟨s1, chunks, rng, al1⟩, hTrail, h⟩ := bind_eq_ok.mp h
    obtain ⟨⟨s3, packets, al3⟩, hPacked, h⟩ := bind_eq_ok.mp h
    obtain ⟨_, rfl⟩ := Prod.mk.inj (Except.ok.inj h)
    -- a refused trail or list of references does not stop the packing
    have hPack : peerPack src dst (chunksWrap chunks al1).2.1 out.packets (chunksWrap chunks al1).2.2 =
      .ok (s3, packets, al3) := hPacked
    refine ((((hBefore.or hFirst).or (.code (chunksAppendTrail_code hTrail))).or
      (.code (chunksWrap_code chunks al1))).or (.code (peerPack_code hPack))).congr fun e => ?_
    rw [HeartbeatError, hHeartbeat, endsWith_ok]
    simp only [Option.some.injEq, exists_eq_left', hTrail, endsWith_ok]
    rw [hPack, endsWith_ok]
    simp only [or_assoc]

-- ---------------------------------------------------------------------------
-- Sending to the slots
-- ---------------------------------------------------------------------------

/-- What goes wrong when a session response is sent: only its packing has a code. -/
def SessionResponseError (listenId time : Int) (slot : PeerSlot) (out : TickOutput) (e : Status) :
    Prop :=
  EndsWith (chunkData slot.localEnd.addressData.elems 0 slot.localEnd.addressSize) fun address =>
    EndsWith (peerWriteMessage (List.replicate (peerNMessageData + 1 + peerAddressSize) 0)
      peerMessageModeService peerUndefined time slot.actor (peerMSessionResponse :: address))
      fun message =>
        EndsWith (peerPack listenId slot.remoteEnd.id
          [message.take (peerNMessageData + 1 + address.length)] out.packets out.alloc)
          fun (s, _, _) => CodeOf s e

/-- What goes wrong when something is sent to a slot, by its state. -/
def SendSlotError (listenId time actor : Int) (queue : PeerQueue) (slot : PeerSlot)
    (out : TickOutput) (e : Status) : Prop :=
  match slot.state with
  | .empty => False
  | .sessionRequest => SessionResponseError listenId time slot out e
  | .ready =>
    if slot.outIndex < queue.length then
      QueuePackError queue slot.outIndex slot.localEnd.id slot.remoteEnd.id out e
    else if slot.clockHeartbeat ≤ 0 then
      HeartbeatError queue slot.outIndex time actor slot.localEnd.id slot.remoteEnd.id out e
    else False

section

variable {listenId time actor : Int} {queue : PeerQueue} {out out' : TickOutput}
  {occurred : Status → Prop}

theorem statusOf_sendSessionResponse {slot : PeerSlot}
    (h : sendSessionResponse listenId time slot out = .ok out')
    (hBefore : StatusOf tickCodes out.status occurred) :
    StatusOf tickCodes out'.status
      fun e => occurred e ∨ SessionResponseError listenId time slot out e := by
  obtain ⟨address, hAddress, h⟩ := bind_eq_ok.mp h
  obtain ⟨message, hMessage, h⟩ := bind_eq_ok.mp h
  obtain ⟨⟨s, packets, al⟩, hPack, h⟩ := bind_eq_ok.mp h
  obtain rfl := Except.ok.inj h
  refine (hBefore.or (.code (peerPack_code hPack))).congr fun e => ?_
  rw [SessionResponseError, hAddress, endsWith_ok, hMessage, endsWith_ok, hPack, endsWith_ok]

theorem statusOf_sendSlot {slot slot' : PeerSlot}
    (h : sendSlot listenId time actor queue slot out = .ok (slot', out'))
    (hBefore : StatusOf tickCodes out.status occurred) :
    StatusOf tickCodes out'.status
      fun e => occurred e ∨ SendSlotError listenId time actor queue slot out e := by
  unfold sendSlot at h
  split at h
  · next hState =>
    obtain ⟨_, rfl⟩ := Prod.mk.inj (Except.ok.inj h)
    exact hBefore.congr fun e => by rw [SendSlotError, hState, or_false]
  · next hState =>
    obtain ⟨out1, hSend, h⟩ := bind_eq_ok.mp h
    obtain ⟨_, rfl⟩ := Prod.mk.inj (Except.ok.inj h)
    exact (statusOf_sendSessionResponse hSend hBefore).congr fun e => by rw [SendSlotError, hState]
  -- a ready slot is sent new messages, or else a heartbeat when it is due
  next hState =>
  split at h
  · next hNew =>
    obtain ⟨⟨s, out1⟩, hSend, h⟩ := bind_eq_ok.mp h
    obtain ⟨_, rfl⟩ := Prod.mk.inj (Except.ok.inj h)
    rw [← queuePack_keeps_status hSend] at hBefore
    refine (hBefore.or (statusOf_queuePack hSend)).congr fun e => ?_
    rw [SendSlotError, hState]
    dsimp only
    rw [if_pos hNew]
  next hNoNew =>
  split at h
  · next hDue =>
    obtain ⟨⟨started, out1⟩, hSend, h⟩ := bind_eq_ok.mp h
    obtain ⟨_, rfl⟩ := Prod.mk.inj (Except.ok.inj h)
    refine (statusOf_sendHeartbeat hSend hBefore).congr fun e => ?_
    rw [SendSlotError, hState]
    dsimp only
    rw [if_neg hNoNew, if_pos hDue]
  · next hNotDue =>
    obtain ⟨_, rfl⟩ := Prod.mk.inj (Except.ok.inj h)
    refine hBefore.congr fun e => ?_
    rw [SendSlotError, hState]
    dsimp only
    rw [if_neg hNoNew, if_neg hNotDue, or_false]

/-- What goes wrong in the loop over the slots, each with the output of those
before. -/
def SendSlotsError (listenId time actor : Int) (queue : PeerQueue) :
    List PeerSlot → TickOutput → Status → Prop
  | [], _, _ => False
  | slot :: slots, out, e =>
    SendSlotError listenId time actor queue slot out e ∨
      EndsWith (sendSlot listenId time actor queue slot out) fun (_, out) =>
        SendSlotsError listenId time actor queue slots out e

theorem statusOf_sendSlots {slots slots' : List PeerSlot}
    (h : sendSlots listenId time actor queue slots out = .ok (slots', out'))
    (hBefore : StatusOf tickCodes out.status occurred) :
    StatusOf tickCodes out'.status
      fun e => occurred e ∨ SendSlotsError listenId time actor queue slots out e := by
  induction slots generalizing out slots' occurred with
  | nil =>
    obtain ⟨_, rfl⟩ := Prod.mk.inj (Except.ok.inj h)
    exact hBefore.congr fun e => by rw [SendSlotsError, or_false]
  | cons slot slots ih =>
    obtain ⟨⟨slot1, out1⟩, hFirst, h⟩ := bind_eq_ok.mp h
    obtain ⟨⟨slots1, out2⟩, hRest, h⟩ := bind_eq_ok.mp h
    obtain ⟨_, rfl⟩ := Prod.mk.inj (Except.ok.inj h)
    refine (ih hRest (statusOf_sendSlot hFirst hBefore)).congr fun e => ?_
    rw [SendSlotsError, hFirst, endsWith_ok, or_assoc]

end

-- ---------------------------------------------------------------------------
-- The tick
-- ---------------------------------------------------------------------------

/-- What goes wrong when a host sends. -/
def HostSendError (status : Status) (peer : Peer) (e : Status) : Prop :=
  match peer.slots with
  | [] => False
  | first :: slots =>
    SendSlotsError first.localEnd.id peer.time peer.actor peer.queue slots
      { status := status, packets := [], mt64 := peer.mt64, alloc := peer.alloc } e

/-- A host's second phase, on top of the status of the first. -/
theorem statusOf_hostSend {status : Status} {peer peer' : Peer} {out : TickOutput}
    {occurred : Status → Prop} (h : hostSend status peer = .ok (out, peer'))
    (hBefore : StatusOf tickCodes status occurred) :
    StatusOf tickCodes out.status fun e => occurred e ∨ HostSendError status peer e := by
  unfold hostSend at h
  split at h
  · next hNil =>
    obtain ⟨rfl, _⟩ := Prod.mk.inj (Except.ok.inj h)
    exact hBefore.congr fun e => by rw [HostSendError, hNil, or_false]
  · next first slots hSlots =>
    obtain ⟨⟨slots', out'⟩, hSend, h⟩ := bind_eq_ok.mp h
    obtain ⟨rfl, _⟩ := Prod.mk.inj (Except.ok.inj h)
    exact (statusOf_sendSlots hSend hBefore).congr fun e => by rw [HostSendError, hSlots]

/-- What goes wrong when a client sends from its first slot. -/
def ClientSendError (peer : Peer) (e : Status) : Prop :=
  match peer.slots with
  | [] => False
  | slot :: _ =>
    if slot.outIndex < slot.queue.length then
      QueuePackError slot.queue slot.outIndex slot.localEnd.id slot.remoteEnd.id
        { status := kitOk, packets := [], mt64 := peer.mt64, alloc := peer.alloc } e
    else if slot.clockHeartbeat ≤ 0 then
      HeartbeatError peer.queue slot.outIndex 0 peer.actor slot.localEnd.id slot.remoteEnd.id
        { status := kitOk, packets := [], mt64 := peer.mt64, alloc := peer.alloc } e
    else False

theorem statusOf_clientSend {peer peer' : Peer} {out : TickOutput}
    (h : clientSend peer = .ok (out, peer')) :
    StatusOf tickCodes out.status (ClientSendError peer) := by
  have hStart : StatusOf tickCodes kitOk fun _ => False := .ok fun _ hError => hError
  unfold clientSend at h
  dsimp only at h
  split at h
  · next hNil =>
    obtain ⟨rfl, _⟩ := Prod.mk.inj (Except.ok.inj h)
    exact hStart.congr fun e => by rw [ClientSendError, hNil]
  -- a client sends from its first slot
  next slot slots hSlots =>
  split at h
  · next hNew =>
    obtain ⟨⟨s, out1⟩, hSend, h⟩ := bind_eq_ok.mp h
    obtain ⟨rfl, _⟩ := Prod.mk.inj (Except.ok.inj h)
    have hBefore : StatusOf tickCodes out1.status fun _ => False := by
      rwa [queuePack_keeps_status hSend]
    refine (hBefore.or (statusOf_queuePack hSend)).congr fun e => ?_
    rw [ClientSendError, hSlots]
    dsimp only
    rw [if_pos hNew, false_or]
  next hNoNew =>
  split at h
  · next hDue =>
    obtain ⟨⟨started, out1⟩, hSend, h⟩ := bind_eq_ok.mp h
    obtain ⟨rfl, _⟩ := Prod.mk.inj (Except.ok.inj h)
    refine (statusOf_sendHeartbeat hSend hStart).congr fun e => ?_
    rw [ClientSendError, hSlots]
    dsimp only
    rw [if_neg hNoNew, if_pos hDue, false_or]
  · next hNotDue =>
    obtain ⟨rfl, _⟩ := Prod.mk.inj (Except.ok.inj h)
    refine hStart.congr fun e => ?_
    rw [ClientSendError, hSlots]
    dsimp only
    rw [if_neg hNoNew, if_neg hNotDue]

/-- What goes wrong in a tick: its elapsed time is tested first, and then both
phases of a host, or a client's sending, have their errors. -/
def TickError (peer : Peer) (timeElapsed : Int) : Status → Prop :=
  Checked (timeElapsed < 0) peerErrorInvalidTimeElapsed
    (Checked (peer.timeLocal > int64Max - timeElapsed) peerErrorTimeOverflow fun e =>
      match peer.mode with
      | .host =>
        MergeSlotsError (peer.tickClock timeElapsed).timeLocal
          (peer.tickClock timeElapsed).slots.tail
          (stampQueue peer.queueIndex (peer.tickClock timeElapsed).timeLocal peer.queue) peer.alloc e ∨
        HostSendError (hostMerge (peer.tickClock timeElapsed)).1
          (hostMerge (peer.tickClock timeElapsed)).2 e
      | .client => ClientSendError (peer.tickClock timeElapsed) e)

/-- **The status of a tick** has the bits of the errors that occurred for its
slots and messages, and no other. -/
theorem statusOf_peerTick {peer peer' : Peer} {e : Int} {ps : List PeerPacket} {s : Status}
    (h : peerTick peer e = .ok (s, ps, peer')) : StatusOf tickCodes s (TickError peer e) := by
  by_cases hValid : ValidElapsed peer e
  · obtain ⟨hNonneg, hRoom⟩ := id hValid
    refine .good (by omega) (.good (by omega) ?_)
    -- a host merges before it sends
    cases hMode : peer.mode with
    | host =>
      rw [peerTick_host_eq hValid hMode] at h
      obtain ⟨⟨out, peer1⟩, hSend, h⟩ := bind_eq_ok.mp h
      obtain ⟨rfl, _⟩ := Prod.mk.inj (Except.ok.inj h)
      exact statusOf_hostSend hSend (statusOf_mergeSlots ..)
    | client =>
      rw [peerTick_client_eq hValid hMode] at h
      obtain ⟨⟨out, peer1⟩, hSend, h⟩ := bind_eq_ok.mp h
      obtain ⟨rfl, _⟩ := Prod.mk.inj (Except.ok.inj h)
      exact statusOf_clientSend hSend
  · unfold peerTick at h
    split at h
    · next hNeg =>
      obtain ⟨rfl, _⟩ := Prod.mk.inj (Except.ok.inj h)
      exact .bad hNeg (by decide)
    next hNonneg =>
    refine .good hNonneg ?_
    split at h
    · next hOver =>
      obtain ⟨rfl, _⟩ := Prod.mk.inj (Except.ok.inj h)
      exact .bad hOver (by decide)
    · next hRoom => exact absurd ⟨by omega, by omega⟩ hValid

end PeerProtocol
