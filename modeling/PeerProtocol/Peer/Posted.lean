import PeerProtocol.Peer.Delivery
import PeerProtocol.Peer.HostSession
import PeerProtocol.Peer.Learn

/-!
# peer — what the cursor of a slot says

The host moves the cursor of a slot to the end of its mutual queue when it has
sent the slot what is new. What lies behind the cursor goes out again as a
trail, but not for ever: below index 105 a trail is everything, and from there
on it only reaches a hundred entries back.

Both sides of that are needed to say what a client can still learn.
`PostedSlot` is the good side: every entry behind the cursor went out at least
once, in a packet between the ids of the slot. `Repeatable` is the other: an
entry that lies too far behind the cursor is sent no more, and as cursors only
move on, it never will be. A client that has lost all packets with such an
entry waits for it in vain.

Packets are looked at through what they convey, `Conveys p k`: an application
message labelled with index `k`. Heartbeats and session responses convey
nothing, and a message of the mutual queue conveys its own index, because it
survives the header.

## Results

* `PostedSlot`, `postedSlots_act` — what is behind the cursors went out, for
  every action of a host.
* `Repeatable`, `repeatable_act` — the entries that a slot with the cursor may
  still be sent, and that it is sent no others.
* `cursor_act` — the cursor only moves on, so what is not repeatable stays so.
-/

namespace PeerProtocol

open Lib

-- ---------------------------------------------------------------------------
-- Packets that carry an entry
-- ---------------------------------------------------------------------------

/-- The packet has an application message for index `k`, for whoever reads it. -/
def Conveys (p : PeerPacket) (k : Nat) : Prop :=
  ∃ c ∈ packetChunks p, ∃ header, readHeader c = .ok header ∧
    header.mode ≠ peerMessageModeService ∧ header.index = k

instance (p : PeerPacket) (k : Nat) : Decidable (Conveys p k) :=
  decidable_of_iff ((packetChunks p).any fun c =>
    match readHeader c with
    | .ok header => decide (header.mode ≠ peerMessageModeService ∧ header.index = k)
    | .error _ => false) <| by
    rw [List.any_eq_true, Conveys]
    refine exists_congr fun c => and_congr_right fun _ => ?_
    cases readHeader c with
    | ok header => simp
    | error _ => simp

/-- In a sealed packet it is one of the chunks. -/
theorem Conveys.mem {src dst : Int} {p : PeerPacket} {cs : List Chunk} {k : Nat} (h : Conveys p k)
    (hSealed : Sealed src dst p cs) :
    ∃ c ∈ cs, ∃ header, readHeader c = .ok header ∧ header.mode ≠ peerMessageModeService ∧
      header.index = k := by
  rw [Conveys, hSealed.yields.packetChunks_eq] at h
  exact h

/-- A packet with an entry of the log conveys it. -/
theorem conveys_of_entry {log : List Entry} (hLog : WireLog log) {k : Nat} {e : Entry}
    (hEntry : log[k]? = some e) {src dst : Int} {p : PeerPacket} {cs : List Chunk}
    (hSealed : Sealed src dst p cs) (hc : e.message.chunk k ∈ cs) : Conveys p k := by
  rw [Conveys, hSealed.yields.packetChunks_eq]
  exact ⟨_, hc, _, readHeader_entry hLog hEntry, show peerMessageModeApplication ≠ _ by decide, rfl⟩

/-- The entry of the log behind an entry of a queue that is final. -/
theorem HostInv.exists_logEntry {host : Peer} (h : HostInv host)
    (hFinal : host.log = host.queue.map (·.content)) {k : Nat} {m : PeerMessage}
    (hm : host.queue[k]? = some m) : ∃ e, host.log[k]? = some e ∧ m = e.message := by
  refine ⟨m.content, ?_, (message_content (h.entry m (List.mem_of_getElem? hm)).ready).symm⟩
  rw [hFinal, List.getElem?_map, hm]
  rfl

/-- The index that a chunk of the mutual queue is labelled with is that of its
entry. -/
theorem WireHost.index_of_mem_chunksAt {host : Peer} (h : WireHost host)
    (hFinal : host.log = host.queue.map (·.content)) {ks : List Nat} {c : Chunk}
    (hc : c ∈ chunksAt host.queue ks) {header : MessageHeader} (hHeader : readHeader c = .ok header)
    {k : Nat} (hIndex : header.index = k) : k ∈ ks := by
  obtain ⟨i, m, hi, hm, rfl⟩ := mem_chunksAt.mp hc
  obtain ⟨e, hEntry, rfl⟩ := h.toHostInv.exists_logEntry hFinal hm
  rw [readHeader_entry h.wire hEntry, Except.ok.injEq] at hHeader
  subst hHeader
  obtain rfl : i = k := Int.ofNat.inj hIndex
  exact hi

/-- A service message of the host is one for a reader, so it conveys nothing. -/
theorem mode_of_service {time actor : Int} {data : List UInt8} (hTime : IsInt64 time)
    (hData : data.length ≤ 993) {header : MessageHeader}
    (h : readHeader (encode peerMessageModeService peerUndefined time actor data) = .ok header) :
    header.mode = peerMessageModeService := by
  rw [readHeader_encode (by decide) isInt64_peerUndefined hTime hData, Except.ok.injEq] at h
  rw [← h]

-- ---------------------------------------------------------------------------
-- Behind the cursor
-- ---------------------------------------------------------------------------

/-- A slot that is bound once its cursor has moved, and whose entries behind the
cursor went out between its ids. -/
structure PostedSlot (sent : List PeerPacket) (slot : PeerSlot) : Prop where
  fresh : slot.remoteEnd.id = peerUndefined → slot.outIndex = 0
  posted : ∀ k, k < slot.outIndex → ∃ p ∈ sent, p.sourceId = slot.localEnd.id ∧
    p.destinationId = slot.remoteEnd.id ∧ Conveys p k

/-- A new slot has been sent nothing, and its cursor is at zero. -/
theorem postedSlot_openSlot (sent : List PeerPacket) (mode : PeerMode) (i : Nat) (id : Int) :
    PostedSlot sent (openSlot mode i id) where
  fresh _ := rfl
  posted := by simp [openSlot]

/-- Neither the state, nor the queue, nor the address matter. -/
theorem PostedSlot.mono {sent sent' : List PeerPacket} {slot slot' : PeerSlot}
    (h : PostedSlot sent slot) (hSent : sent ⊆ sent')
    (hLocal : slot'.localEnd.id = slot.localEnd.id) (hRemote : slot'.remoteEnd.id = slot.remoteEnd.id)
    (hOut : slot'.outIndex = slot.outIndex) : PostedSlot sent' slot' where
  fresh := by
    rw [hRemote, hOut]
    exact h.fresh
  posted := by
    rw [hLocal, hRemote, hOut]
    intro k hk
    obtain ⟨p, hp, hPacket⟩ := h.posted k hk
    exact ⟨p, hSent hp, hPacket⟩

/-- A slot that is assigned has been sent nothing, so its new remote id makes no
difference. -/
theorem PostedSlot.assign {sent : List PeerPacket} {slot : PeerSlot} (h : PostedSlot sent slot)
    (hFree : slot.isFree = true) (j : Nat) (sourceId : Int) :
    PostedSlot sent (slot.assign j sourceId) := by
  simp only [PeerSlot.isFree, Bool.and_eq_true, beq_iff_eq] at hFree
  have hZero : (slot.assign j sourceId).outIndex = 0 := h.fresh hFree.1
  refine ⟨fun _ => hZero, fun k hk => ?_⟩
  rw [hZero] at hk
  exact absurd hk (Nat.not_lt_zero k)

/-- What a tick moves the cursor over goes out in the packets of that tick, between
the ids of the slot. Only new messages move it: an answer and a heartbeat leave the
cursor where it is. -/
theorem SlotSends.posted {host : Peer} (h : WireHost host)
    (hFinal : host.log = host.queue.map (·.content)) {listenId time actor : Int}
    {slot slot' : PeerSlot} {ps : List PeerPacket}
    (hSend : SlotSends listenId time actor host.queue slot slot' ps) {k : Nat}
    (hNew : slot.outIndex ≤ k) (hk : k < slot'.outIndex) :
    ∃ p ∈ ps, p.sourceId = slot.localEnd.id ∧ p.destinationId = slot.remoteEnd.id ∧ Conveys p k := by
  cases hSend with
  | idle => omega
  | response =>
    dsimp only at hk
    omega
  | messages rng _ _ hCarried =>
    dsimp only at hk
    obtain ⟨m, hm⟩ : ∃ m, host.queue[k]? = some m := ⟨_, List.getElem?_eq_getElem hk⟩
    obtain ⟨e, hEntry, rfl⟩ := h.toHostInv.exists_logEntry hFinal hm
    -- The new messages are among the chunks, in front of the trail.
    have hPacked := mem_packIndices hk (Or.inl (Nat.le_add_right_of_le hNew)) rng
    obtain ⟨p, hp, cs, hSealed, hChunk⟩ :=
      hCarried.exists_packet (mem_chunksAt.mpr ⟨k, _, hPacked, hm, rfl⟩)
    exact ⟨p, hp, hSealed.sourceId, hSealed.destinationId, conveys_of_entry h.wire hEntry hSealed hChunk⟩
  | heartbeat =>
    dsimp only at hk
    omega

/-- **A tick** sends what it moves cursors over. What earlier ticks have sent stays
in the history, so below each cursor everything has been sent at some time, to the
id that the slot is bound to. -/
theorem postedSlots_tick {host host' : Peer} {sent ps : List PeerPacket} {e : Int} {s : Status}
    (h : WireHost host) (h' : WireHost host') (hSession : SessionInv host')
    (hSlots : ∀ (j : Nat) (slot : PeerSlot), host.slots[j]? = some slot → PostedSlot sent slot)
    (hTick : peerTick host e = .ok (s, ps, host')) :
    ∀ (j : Nat) (slot : PeerSlot), host'.slots[j]? = some slot → PostedSlot (sent ++ ps) slot := by
  by_cases hValid : ValidElapsed host e
  swap
  · obtain ⟨_, rfl, rfl⟩ := eq_of_peerTick_invalid hValid hTick
    rw [List.append_nil]
    exact hSlots
  have hTicked := h.toHostInv.ticked hValid hTick
  have hSends := (h.toHostSendInv.sends h.small hValid hTick).2
  intro j slot' hSlot'
  obtain ⟨slot, hSlot⟩ := exists_getElem?_of_length_eq hTicked.length hSlot'
  have hOld := hSlots j slot hSlot
  -- the listening slot is not sent to
  rcases Nat.eq_zero_or_pos j with rfl | hj
  · rw [hTicked.first, hSlot, Option.map_some, Option.some.injEq] at hSlot'
    subst hSlot'
    exact hOld.mono (List.subset_append_left _ _) (by simp) (by simp) (by simp)
  obtain ⟨slot'', packets, hSlot'', hMem, hSend⟩ := hSends.toSlot j slot hj hSlot
  rw [hSlot', Option.some.injEq] at hSlot''
  subst hSlot''
  have hSent := (hTicked.slot j slot slot' hj hSlot hSlot').1
  have hLocal : slot'.localEnd.id = slot.localEnd.id := by rw [hSent.localEnd]; simp
  have hRemote : slot'.remoteEnd.id = slot.remoteEnd.id := by rw [hSent.remoteEnd]; simp
  refine ⟨(hSession.session j slot' hSlot').fresh, fun k hk => ?_⟩
  rcases Nat.lt_or_ge k slot.outIndex with hBehind | hNew
  · obtain ⟨p, hp, hSource, hDestination, hConveys⟩ := hOld.posted k hBehind
    exact ⟨p, List.mem_append_left _ hp, hSource.trans hLocal.symm, hDestination.trans hRemote.symm,
      hConveys⟩
  · obtain ⟨p, hp, hSource, hDestination, hConveys⟩ :=
      hSend.posted h' (log_of_ticked hTicked) (by simpa using hNew) hk
    refine ⟨p, List.mem_append_right _ (hMem p hp), ?_, ?_, hConveys⟩
    · rw [hSource, hLocal]
      simp
    · rw [hDestination, hRemote]
      simp

/-- **Step lemma.** Whatever a host does, what is behind the cursors went out: a
cursor moves in a tick only, and over entries that the tick sends. -/
theorem postedSlots_act {host host' : Peer} {a : PeerAction} {s : Status} {sent ps : List PeerPacket}
    (h : WireHost host) (h' : WireHost host') (hSession : SessionInv host') (hMay : a.IsHostStep)
    (hSlots : ∀ (j : Nat) (slot : PeerSlot), host.slots[j]? = some slot → PostedSlot sent slot)
    (hAct : host.act a = .ok (s, ps, host')) :
    ∀ (j : Nat) (slot : PeerSlot), host'.slots[j]? = some slot → PostedSlot (sent ++ ps) slot := by
  have hCase := Peer.act_cases hAct
  cases a with
  | openSlots ids =>
    obtain ⟨rfl, rfl⟩ := hCase
    rw [peerOpen_reliable h.alloc, List.append_nil]
    exact slots_open hSlots fun _ i id _ _ => postedSlot_openSlot sent _ i id
  | queue messageData =>
    obtain ⟨rfl, rfl⟩ := hCase
    rw [List.append_nil]
    cases messageData with
    | none => exact hSlots
    | some data =>
      rw [peerQueue_host h.mode h.alloc]
      exact hSlots
  | input packets =>
    obtain ⟨rfl, hInput⟩ := hCase
    rw [List.append_nil]
    -- A slot keeps its cursors under input, and a free one that is bound has sent nothing yet.
    refine slots_input hSlots h.mode ?_ ?_ hInput
    · exact fun _ _ _ _ _ _ hOld => hOld.mono (List.Subset.refl _) rfl rfl rfl
    · exact fun j _ packet _ _ hFree hOld => hOld.assign hFree j packet.sourceId
  | tick e => exact postedSlots_tick h h' hSession hSlots hCase
  | setAddress j size data =>
    obtain ⟨rfl, rfl⟩ := hCase
    rw [List.append_nil]
    exact slots_modify hSlots j fun _ _ hOld => hOld.mono (List.Subset.refl _) rfl rfl rfl
  -- Neither is a call of a host.
  | connect serverId => cases hMay
  | resolve j id => cases hMay

-- ---------------------------------------------------------------------------
-- Far behind the cursor
-- ---------------------------------------------------------------------------

/-- A slot with this cursor may still be sent the entry: there are fewer than 105
entries, or it is one of the last hundred. -/
def Repeatable (outIndex k : Nat) : Prop :=
  outIndex < peerTrailSerialSize + peerTrailScatterDistance ∨
    outIndex ≤ k + peerTrailScatterDistance

/-- A cursor that is further on reaches less far back. -/
theorem Repeatable.mono {outIndex outIndex' k : Nat} (h : Repeatable outIndex' k)
    (hLe : outIndex ≤ outIndex') : Repeatable outIndex k :=
  h.imp (Nat.lt_of_le_of_lt hLe) (Nat.le_trans hLe)

/-- New entries and trails are of that kind. -/
theorem repeatable_of_mem_packIndices {rng : Mt64} {size index k : Nat}
    (h : k ∈ packIndices rng size index) : Repeatable index k := by
  rcases List.mem_append.mp h with hNew | hTrail
  · rw [List.mem_range'_1] at hNew
    exact Or.inr (by omega)
  · exact (mem_trailIndices hTrail).2

/-- **A slot is sent no other entries**, from its own id, than those at its cursor
or later and the ones that a trail behind the cursor can reach. A response and the
heartbeat's own chunk carry no entry at all. -/
theorem SlotSends.repeatable {host : Peer} (h : WireHost host)
    (hFinal : host.log = host.queue.map (·.content)) {listenId time actor : Int} (hTime : IsInt64 time)
    {slot slot' : PeerSlot} {ps : List PeerPacket} (hAddress : slot.localEnd.AddressFits)
    (hSend : SlotSends listenId time actor host.queue slot slot' ps) {p : PeerPacket} (hp : p ∈ ps)
    {k : Nat} (hConveys : Conveys p k) :
    p.sourceId = slot.localEnd.id ∧ Repeatable slot.outIndex k := by
  cases hSend with
  | idle => cases hp
  | response _ hCarried =>
    -- A response is one service message, and a service message conveys no index.
    obtain ⟨cs, hSealed, hSub⟩ := hCarried.of_mem hp
    obtain ⟨c, hc, header, hHeader, hMode, _⟩ := hConveys.mem hSealed
    rw [List.mem_singleton.mp (hSub c hc)] at hHeader
    have hData : (peerMSessionResponse :: slot.localEnd.address).length ≤ 993 := by
      have hLen := hAddress.length_address
      have hRoom := hAddress.2
      rw [peerAddressSize] at hRoom
      rw [List.length_cons]
      omega
    exact absurd (mode_of_service hTime hData hHeader) hMode
  | messages rng _ _ hCarried =>
    obtain ⟨cs, hSealed, hSub⟩ := hCarried.of_mem hp
    obtain ⟨c, hc, header, hHeader, _, hIndex⟩ := hConveys.mem hSealed
    exact ⟨hSealed.sourceId,
      repeatable_of_mem_packIndices (h.index_of_mem_chunksAt hFinal (hSub c hc) hHeader hIndex)⟩
  | heartbeat rng _ _ _ hCarried =>
    obtain ⟨cs, hSealed, hSub⟩ := hCarried.of_mem hp
    obtain ⟨c, hc, header, hHeader, hMode, hIndex⟩ := hConveys.mem hSealed
    -- The heartbeat's own chunk is a service message too; the others are its trail.
    rcases List.mem_cons.mp (hSub c hc) with rfl | hTrail
    · exact absurd (mode_of_service hTime (by simp) hHeader) hMode
    · exact ⟨hSealed.sourceId, (mem_trailIndices (h.index_of_mem_chunksAt hFinal hTrail hHeader hIndex)).2⟩

/-- **What a host sends** of its mutual queue, it sends from a slot that may still
be sent it: new entries, or a trail, which reaches as far back as the scatter
distance. -/
theorem repeatable_act {host host' : Peer} {a : PeerAction} {s : Status} {ps : List PeerPacket}
    (h : WireHost host) (h' : WireHost host') (hAct : host.act a = .ok (s, ps, host'))
    {p : PeerPacket} (hp : p ∈ ps) {k : Nat} (hConveys : Conveys p k) :
    ∃ (i : Nat) (slot : PeerSlot), host.slots[i]? = some slot ∧ p.sourceId = slot.localEnd.id ∧
      Repeatable slot.outIndex k := by
  have hCase := Peer.act_cases hAct
  cases a with
  | tick e =>
    by_cases hValid : ValidElapsed host e
    · have hSends := (h.toHostSendInv.sends h.small hValid hCase).2
      obtain ⟨i, slot, slot', packets, _, hSlot, hMem, hSend⟩ := hSends.ofSlot p hp
      have hAddress : (slot.tickClock e).merged.localEnd.AddressFits := by
        simpa using (h.slot slot (List.mem_of_getElem? hSlot)).address
      have hFound := hSend.repeatable h' (log_of_ticked (h.toHostInv.ticked hValid hCase))
        (h.toHostInv.isInt64_time hValid hCase) hAddress hMem hConveys
      exact ⟨i, slot, hSlot, by simpa using hFound⟩
    · obtain ⟨_, rfl, _⟩ := eq_of_peerTick_invalid hValid hCase
      cases hp
  | _ =>
    -- No other action emits a packet.
    obtain ⟨rfl, _⟩ := hCase
    cases hp

/-- **The cursor of a slot** only moves on, and the slot keeps its own id. Binding a
slot leaves the cursor where it is, which is at zero, and no action frees a slot. -/
theorem cursor_act {host host' : Peer} {a : PeerAction} {s : Status} {ps : List PeerPacket}
    (h : WireHost host) (hSession : SessionInv host) (hMay : a.IsHostStep)
    (hAct : host.act a = .ok (s, ps, host')) {j : Nat} {slot : PeerSlot}
    (hSlot : host.slots[j]? = some slot) :
    ∃ slot', host'.slots[j]? = some slot' ∧ slot'.localEnd.id = slot.localEnd.id ∧
      slot.outIndex ≤ slot'.outIndex := by
  obtain ⟨slot', hSlot', hMoved⟩ := (hSession.act hMay hAct).2 j slot hSlot
  refine ⟨slot', hSlot', hMoved.localId, ?_⟩
  have hOld : ∀ (i : Nat) (before : PeerSlot), host.slots[i]? = some before → i = j →
      slot.outIndex ≤ before.outIndex := by
    rintro i before hBefore rfl
    rw [hSlot, Option.some.injEq] at hBefore
    rw [hBefore]
  have hCase := Peer.act_cases hAct
  cases a with
  | openSlots ids =>
    obtain ⟨_, rfl⟩ := hCase
    rw [peerOpen_reliable h.alloc] at hSlot'
    -- the slots that are opened lie behind
    refine slots_open hOld (fun i _ _ hi _ hij => ?_) j slot' hSlot' rfl
    have := (List.getElem?_eq_some_iff.mp hSlot).1
    omega
  | queue messageData =>
    obtain ⟨_, rfl⟩ := hCase
    cases messageData with
    | none => exact hOld j slot' hSlot' rfl
    | some data =>
      rw [peerQueue_host h.mode h.alloc] at hSlot'
      exact hOld j slot' hSlot' rfl
  | input packets =>
    refine slots_input hOld h.mode ?_ ?_ hCase.2 j slot' hSlot' rfl
    · exact fun _ _ _ _ _ _ hKept => hKept
    · exact fun _ _ _ _ _ _ hKept => hKept
  | tick e =>
    by_cases hValid : ValidElapsed host e
    · have hTicked := h.toHostInv.ticked hValid hCase
      rcases Nat.eq_zero_or_pos j with rfl | hj
      · rw [hTicked.first, hSlot, Option.map_some, Option.some.injEq] at hSlot'
        rw [← hSlot', tickClock_outIndex]
      · have hOut := (hTicked.slot j slot slot' hj hSlot hSlot').1.outIndex
        simp only [merged_outIndex, tickClock_outIndex] at hOut
        omega
    · obtain ⟨_, _, rfl⟩ := eq_of_peerTick_invalid hValid hCase
      exact hOld j slot' hSlot' rfl
  | setAddress i size data =>
    obtain ⟨_, rfl⟩ := hCase
    exact slots_modify hOld i (f := (·.setAddress size data)) (fun _ _ hKept => hKept) j slot' hSlot' rfl
  | connect serverId => cases hMay
  | resolve i id => cases hMay

end PeerProtocol
