import PeerProtocol.Lib.Lists
import PeerProtocol.Lib.Run
import PeerProtocol.Model.World
import PeerProtocol.Peer.Input
import PeerProtocol.Peer.ClientTick
import PeerProtocol.Peer.Resend

/-!
# peer — cursors and trails

Does `chunks_append_trail` stay inside its queue? It asserts that the index it
is given does not pass the queue's size, and its loops look back from that
index; nothing else bounds what they read. The question is about its callers,
and so about every run: which queue a cursor counts, and which queue the trail
is taken from.

The cursor of a slot counts the mutual queue on a host, and the slot's own
queue on a client. `queue_pack` checks the cursor before it takes the trail
from the queue that it packs, and a host's heartbeat takes it from the mutual
queue. But a client's heartbeat takes its trail from the mutual queue behind
the cursor of its own: a client that has sent more than it has received asks
for entries that are not there.

## Plan

* `peerTick_frame` — what a tick keeps of a peer: its slots and queues, and
  cursors that stay or jump to the end of their queue.
* `CursorInv` — the cursor of a slot never passes the queue it counts.
  `CursorInv.step` is the step lemma, for every allocator and every packet,
  `cursorInv_of_reaches` the run.
* `NoTrail` — the computations that never ask for a trail past its queue. One
  lemma for each function from the inside out, up to a whole tick
  (`noTrail_peerTick`).
* `TrailCall` — the queue and the index of every call of `chunks_append_trail`
  that a tick makes, and `TrailCallInside` — what such a call must satisfy,
  down to the last entry that it reads.

## Result

* `trail_inside_iff` — in every run, the calls of the next tick all stay
  inside unless the peer is a client whose heartbeat is due with a mutual
  queue shorter than what it has sent (`TrailOverruns`). `not_trail_inside` is
  such a client.
-/

namespace PeerProtocol

open Lib

-- ---------------------------------------------------------------------------
-- What a tick keeps
-- ---------------------------------------------------------------------------

/-- What a tick may change in a slot: its clock, its state and its cursors,
where the cursor for sending can only move to `size`. -/
structure SlotTicked (size : Nat) (slot slot' : PeerSlot) : Prop where
  localEnd : slot'.localEnd = slot.localEnd
  remoteEnd : slot'.remoteEnd = slot.remoteEnd
  queue : slot'.queue = slot.queue
  actor : slot'.actor = slot.actor
  outIndex : slot'.outIndex = slot.outIndex ∨ slot'.outIndex = size

/-- The size of the queue that a slot's cursor counts: what it has sent from. -/
def PeerSlot.sentSize (slot : PeerSlot) (mode : PeerMode) (mutualSize : Nat) : Nat :=
  match mode with
  | .host => mutualSize
  | .client => slot.queue.length

theorem slotTicked_tickClock (slot : PeerSlot) (e : Int) (size : Nat) :
    SlotTicked size slot (slot.tickClock e) := by
  rw [PeerSlot.tickClock_eq]
  exact ⟨rfl, rfl, rfl, rfl, Or.inl rfl⟩

/-- The clocks, then the merge, then sending: what the three leave of a slot
together. Each writes fields of its own, so their descriptions can be put side by
side. -/
theorem slotTicked_of_sent {q : PeerQueue} {e : Int} {slots merged slots' : List PeerSlot}
    (hMerged : List.Forall₂ (fun slot slot' => ∃ i, slot' = { slot with inIndex := i })
      (slots.map (·.tickClock e)) merged)
    (hSent : List.Forall₂ (SlotSent q) merged slots') :
    List.Forall₂ (SlotTicked q.length) slots slots' := by
  induction slots generalizing merged slots' with
  | nil =>
    cases hMerged
    cases hSent
    exact .nil
  | cons slot slots ih =>
    obtain ⟨_, rest, ⟨i, rfl⟩, hRest, rfl⟩ := List.forall₂_cons_left_iff.mp hMerged
    obtain ⟨slot', rest', hSlot, hRest', rfl⟩ := List.forall₂_cons_left_iff.mp hSent
    refine .cons ?_ (ih hRest hRest')
    dsimp only at hSlot
    rw [PeerSlot.tickClock_eq] at hSlot
    exact ⟨hSlot.localEnd, hSlot.remoteEnd, hSlot.queue, hSlot.actor, hSlot.outIndex.imp id And.right⟩

/-- What a tick keeps of a peer, whatever the allocator does: the mode, what is
queued, and the slots one by one. -/
structure Ticked (peer peer' : Peer) : Prop where
  mode : peer'.mode = peer.mode
  length_le : peer.queue.length ≤ peer'.queue.length
  slots : List.Forall₂ (fun slot slot' =>
    SlotTicked (slot.sentSize peer.mode peer'.queue.length) slot slot') peer.slots peer'.slots

theorem ticked_host {peer peer' : Peer} {e : Int} {s : Status} {ps : List PeerPacket}
    (hMode : peer.mode = .host) (hValid : ValidElapsed peer e)
    (h : peerTick peer e = .ok (s, ps, peer')) : Ticked peer peer' := by
  rw [peerTick_host_eq hValid hMode, hostSend_eq] at h
  obtain ⟨⟨out, peer1⟩, hSend, h⟩ := bind_eq_ok.mp h
  obtain ⟨⟨slots', out1⟩, hSlots, hSend⟩ := bind_eq_ok.mp hSend
  obtain ⟨rfl, rfl⟩ := Prod.mk.inj (Except.ok.inj hSend)
  obtain ⟨_, hPeer⟩ := Prod.mk.inj (Except.ok.inj h)
  obtain ⟨_, rfl⟩ := Prod.mk.inj hPeer
  -- Three descriptions of the slots: after the clocks, after the merge, after sending.
  have hSent := sendSlots_sent hSlots
  obtain ⟨hLen, hFirst, hMerged⟩ := hostMerge_frame (peer.tickClock e)
  refine ⟨rfl, hLen, ?_⟩
  simp only [PeerSlot.sentSize, hMode, hFirst, tickClock_slots] at hMerged ⊢
  cases hOld : peer.slots with
  | nil =>
    rw [hOld] at hMerged
    exact slotTicked_of_sent (e := e) hMerged hSent
  | cons first slots =>
    rw [hOld] at hMerged
    simp only [List.map_cons, List.take_succ_cons, List.take_zero, List.tail_cons,
      List.singleton_append] at hMerged ⊢
    -- The listening slot is neither merged nor sent to.
    exact .cons (slotTicked_tickClock first e _) (slotTicked_of_sent hMerged hSent)

/-- The tick of a client, which only sends from its first slot. -/
theorem ticked_client {peer peer' : Peer} {e : Int} {s : Status} {ps : List PeerPacket}
    (hMode : peer.mode = .client) (hValid : ValidElapsed peer e)
    (h : peerTick peer e = .ok (s, ps, peer')) : Ticked peer peer' := by
  rcases peerTick_client_sent hMode hValid h with
    ⟨hNil, rfl⟩ | ⟨slot, slot', slots, rng, al, hSlots, hSent, rfl⟩
  · exact ⟨rfl, Nat.le_refl _, forall₂_map_same _ fun slot => slotTicked_tickClock slot e _⟩
  · refine ⟨rfl, Nat.le_refl _, ?_⟩
    rw [hSlots]
    simp only [PeerSlot.sentSize, hMode]
    refine .cons ?_ (forall₂_map_same _ fun slot => slotTicked_tickClock slot e _)
    rw [PeerSlot.tickClock_eq] at hSent
    exact ⟨hSent.localEnd, hSent.remoteEnd, hSent.queue, hSent.actor, hSent.outIndex.imp id And.right⟩

/-- **What a tick keeps**, in either mode, and when it is refused. It says nothing
about what is sent, so that it holds for all outcomes of the allocations. -/
theorem peerTick_frame {peer peer' : Peer} {e : Int} {s : Status} {ps : List PeerPacket}
    (h : peerTick peer e = .ok (s, ps, peer')) : Ticked peer peer' := by
  by_cases hValid : ValidElapsed peer e
  · cases hMode : peer.mode with
    | host => exact ticked_host hMode hValid h
    | client => exact ticked_client hMode hValid h
  · obtain ⟨_, _, rfl⟩ := eq_of_peerTick_invalid hValid h
    refine ⟨rfl, Nat.le_refl _, List.forall₂_same.mpr fun slot _ => ?_⟩
    exact ⟨rfl, rfl, rfl, rfl, Or.inl rfl⟩

theorem Peer.mode_of_step {peer peer' : Peer} {a : PeerAction} (h : peer.step a = .ok peer') :
    peer'.mode = peer.mode := by
  obtain ⟨s, ps, hAct⟩ := Peer.step_eq_ok.mp h
  have hCase := Peer.act_cases hAct
  cases a with
  | openSlots ids =>
    obtain ⟨_, rfl⟩ := hCase
    obtain ⟨opened, al, hOpen⟩ := peerOpen_opens peer ids
    rw [hOpen]
  | connect serverId =>
    obtain ⟨_, rfl⟩ := hCase
    obtain ⟨i, hConnect⟩ := peerConnect_modifies peer serverId
    rw [hConnect]
  | queue messageData =>
    obtain ⟨_, rfl⟩ := hCase
    obtain ⟨data, hQueued⟩ := peerQueue_queued peer messageData
    generalize (peerQueue peer messageData).2 = peer2 at hQueued
    cases hQueued <;> rfl
  | input packets =>
    -- neither a chunk nor an assignment touches the mode
    refine peerInput_invariant (I := fun p => p.mode = peer.mode) ?_ ?_ ?_ hCase.2 rfl
    · intro p packet s cs al _ hp _
      exact hp
    · intro start p p' packet j s cs al chunk _ _ _ _ hp _ hChunk
      cases hChunk <;> exact hp
    · intro p packet _ hp _ _
      rcases assignSlot_cases p packet with hSame | ⟨_, _, _, _, _, _, _, _, _, _, hSet⟩
      · rw [hSame]
        exact hp
      · rw [hSet]
        exact hp
  | tick e => exact (peerTick_frame hCase).mode
  | setAddress j size data =>
    obtain ⟨_, rfl⟩ := hCase
    rfl
  | resolve j id =>
    obtain ⟨_, rfl⟩ := hCase
    rfl

-- ---------------------------------------------------------------------------
-- The cursors
-- ---------------------------------------------------------------------------

/-- The cursor of no slot passes the queue that it counts: the mutual queue for a
host, the slot's own for a client. The client's heartbeat is asked for with this
cursor all the same, and takes its trail from the other queue. -/
def CursorInv (peer : Peer) : Prop :=
  ∀ slot ∈ peer.slots, slot.outIndex ≤ slot.sentSize peer.mode peer.queue.length

/-- Queues only grow, and new slots start at zero: the general step, to which each
action is reduced. -/
theorem CursorInv.mono {peer peer' : Peer} (h : CursorInv peer) (hMode : peer'.mode = peer.mode)
    (hQueue : peer.queue.length ≤ peer'.queue.length)
    (hSlots : ∀ slot' ∈ peer'.slots, slot'.outIndex = 0 ∨
      ∃ slot ∈ peer.slots, slot'.outIndex = slot.outIndex ∧
        slot.queue.length ≤ slot'.queue.length) : CursorInv peer' := by
  intro slot' hSlot'
  rcases hSlots slot' hSlot' with hZero | ⟨slot, hSlot, hOut, hLen⟩
  · omega
  · have hOld := h slot hSlot
    rw [hOut, hMode]
    cases hM : peer.mode with
    | host =>
      rw [hM] at hOld
      exact Nat.le_trans hOld hQueue
    | client =>
      rw [hM] at hOld
      exact Nat.le_trans hOld hLen

/-- Changing one slot, but not the cursor nor the length of its queue. -/
theorem CursorInv.set {peer peer' : Peer} (h : CursorInv peer) (hMode : peer'.mode = peer.mode)
    (hQueue : peer.queue.length ≤ peer'.queue.length) {j : Nat} {slot slot' : PeerSlot}
    (hSlot : peer.slots[j]? = some slot) (hSlots : peer'.slots = peer.slots.set j slot')
    (hOut : slot'.outIndex = slot.outIndex) (hLen : slot.queue.length ≤ slot'.queue.length) :
    CursorInv peer' := by
  refine h.mono hMode hQueue ?_
  intro t ht
  rw [hSlots] at ht
  rcases List.mem_or_eq_of_mem_set ht with hOld | rfl
  · exact Or.inr ⟨t, hOld, rfl, Nat.le_refl _⟩
  · exact Or.inr ⟨slot, List.mem_of_getElem? hSlot, hOut, hLen⟩

/-- The same for a change of the slot's ends. -/
theorem CursorInv.modify {peer : Peer} (h : CursorInv peer) (j : Nat) {f : PeerSlot → PeerSlot}
    (hOut : ∀ slot, (f slot).outIndex = slot.outIndex) (hQueue : ∀ slot, (f slot).queue = slot.queue) :
    CursorInv { peer with slots := peer.slots.modify j f } := by
  refine h.mono rfl (Nat.le_refl _) ?_
  intro t ht
  obtain ⟨i, hi⟩ := List.mem_iff_getElem?.mp ht
  rw [List.getElem?_modify] at hi
  obtain ⟨slot, hSlot, rfl⟩ := Option.map_eq_some_iff.mp hi
  refine Or.inr ⟨slot, List.mem_of_getElem? hSlot, ?_, ?_⟩
  · split
    · exact hOut slot
    · rfl
  · split
    · rw [hQueue slot]
    · exact Nat.le_refl _

/-- A chunk may lengthen a queue, and never shortens one. -/
theorem cursorInv_chunk {peer peer' : Peer} {j : Nat} {chunk : Chunk} (h : CursorInv peer)
    (hStep : ChunkStep j chunk peer peer') : CursorInv peer' := by
  cases hStep with
  | hostSkip => exact h
  | hostStore _ hSlot _ _ _ _ _ hInsert =>
    exact h.set rfl (Nat.le_refl _) hSlot rfl rfl (length_le_queueInsert hInsert)
  | clientSkip => exact h
  | clientRespond _ hSlot =>
    refine h.set rfl (Nat.le_refl _) hSlot rfl rfl ?_
    rw [PeerSlot.respond, List.length_map]
  | clientLearn _ _ _ _ hInsert =>
    exact h.mono rfl (length_le_queueInsert hInsert) fun t ht => Or.inr ⟨t, ht, rfl, Nat.le_refl _⟩

/-- Appending never shortens a queue, with whatever status it ends. -/
theorem length_le_queueAppend (q : PeerQueue) (time actor : Int) (data : List UInt8)
    (al : Allocator) : q.length ≤ (queueAppend q time actor data al).2.1.length := by
  unfold queueAppend
  split
  · exact Nat.le_refl _
  · split
    · exact Nat.le_refl _
    · rw [List.length_append]
      omega

theorem cursorInv_queue {peer : Peer} (h : CursorInv peer) (messageData : Option (List UInt8)) :
    CursorInv (peerQueue peer messageData).2 := by
  obtain ⟨data, hQueued⟩ := peerQueue_queued peer messageData
  generalize (peerQueue peer messageData).2 = peer' at hQueued
  cases hQueued with
  | refused => exact h
  | host => exact h.mono rfl (length_le_queueAppend ..) fun t ht => Or.inr ⟨t, ht, rfl, Nat.le_refl _⟩
  | @client slot _ hSlot =>
    exact h.set rfl (Nat.le_refl _) hSlot rfl rfl
      (length_le_queueAppend slot.queue 0 peer.actor data peer.alloc)

theorem cursorInv_open {peer : Peer} (h : CursorInv peer) (ids : Option (List Int)) :
    CursorInv (peerOpen peer ids).2 := by
  obtain ⟨opened, al, hOpen⟩ := peerOpen_opens peer ids
  rw [hOpen]
  refine h.mono rfl (Nat.le_refl _) fun t ht => ?_
  rcases List.mem_append.mp ht with hOld | hNew
  · exact Or.inr ⟨t, hOld, rfl, Nat.le_refl _⟩
  · -- the cursors of a new slot are 0
    obtain ⟨i, id, _, rfl⟩ := List.mem_mapIdx.mp hNew
    exact Or.inl rfl

/-- **Step lemma**: every action of a peer keeps its cursors inside. Only a tick
moves them, and it moves them to the end of the queue. -/
theorem CursorInv.step {peer peer' : Peer} {a : PeerAction} (h : CursorInv peer)
    (hStep : peer.step a = .ok peer') : CursorInv peer' := by
  obtain ⟨s, ps, hAct⟩ := Peer.step_eq_ok.mp hStep
  have hCase := Peer.act_cases hAct
  cases a with
  | openSlots ids =>
    obtain ⟨_, rfl⟩ := hCase
    exact cursorInv_open h ids
  | connect serverId =>
    obtain ⟨_, rfl⟩ := hCase
    obtain ⟨i, hConnect⟩ := peerConnect_modifies peer serverId
    rw [hConnect]
    exact h.modify _ (fun _ => rfl) (fun _ => rfl)
  | queue messageData =>
    obtain ⟨_, rfl⟩ := hCase
    exact cursorInv_queue h messageData
  | input packets =>
    refine peerInput_invariant ?_ ?_ ?_ hCase.2 h
    · intro p packet s cs al _ hp _
      exact hp
    · intro start p p' packet j s cs al chunk _ _ _ _ hp _ hChunk
      exact cursorInv_chunk hp hChunk
    · intro p packet _ hp _ _
      rcases assignSlot_cases p packet with hSame | ⟨j, first, slot, _, _, _, _, _, hSlot, _, hSet⟩
      · rw [hSame]
        exact hp
      · rw [hSet]
        exact hp.set rfl (Nat.le_refl _) hSlot rfl rfl (Nat.le_refl _)
  | tick e =>
    obtain ⟨hMode, hLen, hSlots⟩ := peerTick_frame hCase
    intro slot' hSlot'
    obtain ⟨slot, hSlot, hTicked⟩ := exists_of_forall₂_right hSlots hSlot'
    have hOld := h slot hSlot
    -- a tick leaves the queue that the slot sends from, in either mode
    have hSize : slot.sentSize peer.mode peer'.queue.length =
        slot'.sentSize peer'.mode peer'.queue.length := by
      unfold PeerSlot.sentSize
      rw [hMode, hTicked.queue]
    rw [← hSize]
    -- a cursor stays, or moves to the end of the queue
    rcases hTicked.outIndex with hSame | hMoved
    · rw [hSame]
      refine Nat.le_trans hOld ?_
      unfold PeerSlot.sentSize
      split
      · exact hLen
      · exact Nat.le_refl _
    · exact Nat.le_of_eq hMoved
  | setAddress j size data =>
    obtain ⟨_, rfl⟩ := hCase
    exact h.modify _ (fun _ => rfl) (fun _ => rfl)
  | resolve j id =>
    obtain ⟨_, rfl⟩ := hCase
    exact h.modify _ (fun _ => rfl) (fun _ => rfl)

/-- **Run lemma**: in every peer that any calls have led to, the cursors are inside. -/
theorem cursorInv_of_reaches {mode : PeerMode} {alloc : Allocator} {rng : Mt64} {peer : Peer}
    (h : Reaches Peer.step (fun _ _ _ => True) (peerInit mode alloc rng) peer) : CursorInv peer :=
  h.invariant (fun _ _ _ hInv hOk _ => hInv.step hOk) fun slot hSlot => by simp [peerInit] at hSlot

-- ---------------------------------------------------------------------------
-- Trails
-- The fault is followed through all that a tick calls. Only
-- `chunks_append_trail` raises it.
-- ---------------------------------------------------------------------------

/-- The computation does not ask for a trail past the end of its queue. -/
structure NoTrail {α : Type} (x : Except Fault α) : Prop where
  ne : ∀ index size, x ≠ .error (.trail index size)

section NoTrail

variable {α β : Type}

/-- A computation that has ended well. -/
theorem noTrail_ok (a : α) : NoTrail (.ok a : Except Fault α) := ⟨fun _ _ h => by simp at h⟩

/-- Another fault is none of this kind. -/
theorem noTrail_access : NoTrail (.error .access : Except Fault α) := ⟨fun _ _ h => by simp at h⟩

theorem NoTrail.bind {x : Except Fault α} {f : α → Except Fault β} (hx : NoTrail x)
    (hf : ∀ a, NoTrail (f a)) : NoTrail (x >>= f) := by
  cases x with
  | ok a => exact hf a
  | error fault =>
    refine ⟨fun index size h => hx.ne index size ?_⟩
    rw [error_bind, Except.error.injEq] at h
    rw [h]

end NoTrail

theorem noTrail_readAt {α : Type} (l : List α) (i : Nat) : NoTrail (readAt l i) := by
  unfold readAt
  split
  · exact noTrail_ok _
  · exact noTrail_access

theorem noTrail_writeMessage (d : List UInt8) (mode : UInt8) (index time actor : Int)
    (data : List UInt8) : NoTrail (peerWriteMessage d mode index time actor data) := by
  unfold peerWriteMessage
  split
  · exact noTrail_ok _
  · exact noTrail_access

theorem noTrail_packLoop (src dst : Int) (previousSize : Nat) (chunks : List Chunk)
    (out : List PeerPacket) (offset : Nat) (al : Allocator) :
    NoTrail (packLoop src dst previousSize chunks out offset al) := by
  -- adding a chunk can only fail by an access
  have hAdd (chunk : Chunk) (out : List PeerPacket) (offset : Nat) :
      NoTrail (addChunk chunk out offset) := by
    refine NoTrail.bind ((noTrail_readAt _ _).bind fun _ =>
      (noTrail_readAt _ _).bind fun _ => noTrail_ok _) fun _ => ?_
    split
    · exact noTrail_ok _
    · refine (noTrail_readAt _ _).bind fun last => NoTrail.bind ?_ fun _ => noTrail_ok _
      unfold PeerPacket.copyChunk
      split
      · exact noTrail_ok _
      · exact noTrail_access
  induction chunks generalizing out offset al with
  | nil => exact noTrail_ok _
  | cons chunk chunks ih =>
    rw [packLoop]
    generalize (if offset + chunk.length > peerPacketSize then
      startPacket src dst previousSize out offset al else (kitOk, out, offset, al)) = room
    obtain ⟨s1, out1, offset1, al1⟩ := room
    dsimp only
    split
    · exact noTrail_ok _
    · refine (hAdd _ _ _).bind fun r => ?_
      split
      · exact noTrail_ok _
      · exact ih _ _ _

theorem noTrail_peerPack (src dst : Int) (chunks : List Chunk) (out : List PeerPacket)
    (al : Allocator) : NoTrail (peerPack src dst chunks out al) := by
  refine (noTrail_packLoop ..).bind fun r => ?_
  dsimp only
  split
  · exact noTrail_ok _
  · split
    · split
      · exact noTrail_ok _
      · exact noTrail_ok _
    · exact noTrail_ok _

theorem noTrail_messageChunk (q : PeerQueue) (k : Nat) (al : Allocator) :
    NoTrail (messageChunk q k al) := by
  refine (noTrail_readAt _ _).bind fun message => ?_
  dsimp only
  split
  · exact noTrail_ok _
  · exact (noTrail_writeMessage ..).bind fun _ => noTrail_ok _

theorem noTrail_serialChunks (q : PeerQueue) (start count : Nat) (al : Allocator) :
    NoTrail (serialChunks q start count al) := by
  induction count generalizing start al with
  | zero => exact noTrail_ok _
  | succ count ih =>
    refine (noTrail_messageChunk ..).bind fun r => ?_
    split
    · exact noTrail_ok _
    · refine (ih _ _).bind fun r => ?_
      split
      · exact noTrail_ok _
      · exact noTrail_ok _

theorem noTrail_scatterChunks (q : PeerQueue) (start distance count : Nat) (rng : Mt64)
    (al : Allocator) : NoTrail (scatterChunks q start distance count rng al) := by
  induction count generalizing rng al with
  | zero => exact noTrail_ok _
  | succ count ih =>
    refine (noTrail_messageChunk ..).bind fun r => ?_
    split
    · exact noTrail_ok _
    · refine (ih _ _).bind fun r => ?_
      split
      · exact noTrail_ok _
      · exact noTrail_ok _

/-- A trail behind an index inside the queue, where the assertion is true. The
positions it reads lie before the index, so every one of them is an entry. -/
theorem noTrail_chunksAppendTrail {q : PeerQueue} {index : Nat} (hIndex : index ≤ q.length)
    (rng : Mt64) (chunks : List Chunk) (al : Allocator) :
    NoTrail (chunksAppendTrail rng q index chunks al) := by
  rw [chunksAppendTrail, if_neg (by omega)]
  -- the index is inside the queue, so both parts take messages that are there
  refine NoTrail.bind ?_ fun r => ?_
  · unfold appendSerialTrail
    split
    · exact noTrail_ok _
    · split
      · exact noTrail_ok _
      · refine (noTrail_serialChunks ..).bind fun r => ?_
        split
        · exact noTrail_ok _
        · exact noTrail_ok _
  · dsimp only
    split
    · exact noTrail_ok _
    · unfold appendScatterTrail
      split
      · exact noTrail_ok _
      · split
        · exact noTrail_ok _
        · refine (noTrail_scatterChunks ..).bind fun r => ?_
          split
          · exact noTrail_ok _
          · exact noTrail_ok _

/-- `queue_pack` takes its trail behind an index that it has checked: it returns
before that when the index is not inside the queue. -/
theorem noTrail_queuePack (q : PeerQueue) (index : Nat) (src dst : Int) (out : TickOutput) :
    NoTrail (queuePack q index src dst out) := by
  unfold queuePack
  split
  · exact noTrail_ok _
  next hIndex =>
  split
  · exact noTrail_ok _
  · split
    · exact noTrail_ok _
    · refine (noTrail_serialChunks ..).bind fun r => ?_
      split
      · exact noTrail_ok _
      · refine (noTrail_chunksAppendTrail (by omega) ..).bind fun r => ?_
        dsimp only
        split
        · exact noTrail_ok _
        · exact (noTrail_peerPack ..).bind fun _ => noTrail_ok _

/-- A heartbeat with a cursor inside the queue of its trail. -/
theorem noTrail_sendHeartbeat {q : PeerQueue} {index : Nat} (hIndex : index ≤ q.length)
    (time actor src dst : Int) (out : TickOutput) :
    NoTrail (sendHeartbeat q index time actor src dst out) := by
  refine NoTrail.bind ?_ fun r => ?_
  · unfold heartbeatChunks
    split
    · exact noTrail_ok _
    · split
      · exact noTrail_ok _
      · exact (noTrail_writeMessage ..).bind fun _ => noTrail_ok _
  · dsimp only
    split
    · exact noTrail_ok _
    · refine (noTrail_chunksAppendTrail hIndex ..).bind fun r => ?_
      exact (noTrail_peerPack ..).bind fun _ => noTrail_ok _

/-- One slot of a host, whose cursor counts that queue. Both places that take a
trail, behind new messages and behind a heartbeat, are handed the cursor and the
queue it counts. -/
theorem noTrail_sendSlot {queue : PeerQueue} {slot : PeerSlot}
    (hCursor : slot.outIndex ≤ queue.length) (listenId time actor : Int) (out : TickOutput) :
    NoTrail (sendSlot listenId time actor queue slot out) := by
  unfold sendSlot
  split
  · exact noTrail_ok _
  · refine NoTrail.bind (NoTrail.bind ?_ fun _ => (noTrail_writeMessage ..).bind fun _ =>
      (noTrail_peerPack ..).bind fun _ => noTrail_ok _) fun _ => noTrail_ok _
    unfold chunkData
    split
    · exact noTrail_ok _
    · exact noTrail_access
  · split
    · exact (noTrail_queuePack ..).bind fun _ => noTrail_ok _
    · split
      · exact (noTrail_sendHeartbeat hCursor ..).bind fun _ => noTrail_ok _
      · exact noTrail_ok _

theorem noTrail_sendSlots {queue : PeerQueue} {slots : List PeerSlot}
    (hCursor : ∀ slot ∈ slots, slot.outIndex ≤ queue.length) (listenId time actor : Int)
    (out : TickOutput) : NoTrail (sendSlots listenId time actor queue slots out) := by
  induction slots generalizing out with
  | nil => exact noTrail_ok _
  | cons slot slots ih =>
    refine (noTrail_sendSlot (hCursor slot (List.mem_cons_self ..)) ..).bind fun r => ?_
    exact (ih (fun s hs => hCursor s (List.mem_cons_of_mem _ hs)) _).bind fun _ => noTrail_ok _

/-- After the merge of a host, every cursor lies inside the mutual queue, which has
only grown. -/
theorem CursorInv.merged {peer : Peer} (hInv : CursorInv peer) (hMode : peer.mode = .host) {e : Int}
    {slot' : PeerSlot} (hSlot' : slot' ∈ (hostMerge (peer.tickClock e)).2.slots.tail) :
    slot'.outIndex ≤ (hostMerge (peer.tickClock e)).2.queue.length := by
  obtain ⟨hLen, _, hMerged⟩ := hostMerge_frame (peer.tickClock e)
  -- a slot after the merge has the cursor of a slot before it
  obtain ⟨clocked, hClocked, i, rfl⟩ := exists_of_forall₂_right hMerged hSlot'
  rw [tickClock_slots, ← List.map_tail] at hClocked
  obtain ⟨slot, hSlot, rfl⟩ := List.mem_map.mp hClocked
  have hOld := hInv slot (List.mem_of_mem_tail hSlot)
  rw [hMode] at hOld
  rw [PeerSlot.tickClock_eq]
  exact Nat.le_trans hOld hLen

/-- No tick of a host asks for a trail past the mutual queue, in any state that is
reached. -/
theorem noTrail_peerTick_host {peer : Peer} (hInv : CursorInv peer) (hMode : peer.mode = .host)
    (e : Int) : NoTrail (peerTick peer e) := by
  by_cases hValid : ValidElapsed peer e
  · rw [peerTick_host_eq hValid hMode, hostSend_eq]
    exact NoTrail.bind (NoTrail.bind (noTrail_sendSlots (fun _ hSlot => hInv.merged hMode hSlot) ..)
      fun _ => noTrail_ok _) fun _ => noTrail_ok _
  · obtain ⟨s, _, hInvalid⟩ := peerTick_invalid hValid
    rw [hInvalid]
    exact noTrail_ok _

/-- The ticks of a client whose heartbeat asks for a trail that its mutual
queue does not have. -/
def TrailOverruns (peer : Peer) (e : Int) : Prop :=
  peer.mode = .client ∧ ValidElapsed peer e ∧ peer.alloc.outcomes 0 = true ∧
    ∃ slot, peer.slots.head? = some slot ∧ ¬ TrailInside peer (slot.tickClock e)

-- ---------------------------------------------------------------------------
-- The calls of chunks_append_trail
-- The calls themselves, listed beside the execution: a call may be made and
-- fail before it reads, so what it reads is said of its arguments.
-- ---------------------------------------------------------------------------

/-- The queue and the index with which a tick calls `chunks_append_trail`: for
every ready slot that a host sends to, whether `queue_pack` makes the call or the
heartbeat, the mutual queue after the merge; for a client with new messages, through
`queue_pack`, the queue of its slot; and for its heartbeat the mutual queue, once the
list of chunks is there. The calls of `queue_pack` are listed also where it runs out
of memory before it comes to them. -/
inductive TrailCall (peer : Peer) (e : Int) : PeerQueue → Nat → Prop where
  | host {slot : PeerSlot} (hMode : peer.mode = .host) (hValid : ValidElapsed peer e)
      (hSlot : slot ∈ (hostMerge (peer.tickClock e)).2.slots.tail) (hReady : slot.state = .ready)
      (hSends : slot.outIndex < (hostMerge (peer.tickClock e)).2.queue.length ∨
        slot.clockHeartbeat ≤ 0) :
      TrailCall peer e (hostMerge (peer.tickClock e)).2.queue slot.outIndex
  | clientMessages {slot : PeerSlot} (hMode : peer.mode = .client) (hValid : ValidElapsed peer e)
      (hSlot : peer.slots.head? = some slot) (hNew : slot.outIndex < slot.queue.length) :
      TrailCall peer e slot.queue slot.outIndex
  | clientHeartbeat {slot : PeerSlot} (hMode : peer.mode = .client) (hValid : ValidElapsed peer e)
      (hSlot : peer.slots.head? = some slot) (hNone : slot.queue.length ≤ slot.outIndex)
      (hClock : (slot.tickClock e).clockHeartbeat ≤ 0) (hAlloc : peer.alloc.outcomes 0 = true) :
      TrailCall peer e peer.queue slot.outIndex

/-- What makes a call safe: the assertion at its head is true, every index that
either part of the trail picks, whatever the generator's state, is that of an entry,
and the call comes to its end without a fault, whatever the allocator does. -/
structure TrailCallInside (q : PeerQueue) (index : Nat) : Prop where
  head : index ≤ q.length
  reads : ∀ (rng : Mt64), ∀ k ∈ (trailIndices rng index).1, ∃ m, q[k]? = some m
  ends : ∀ (rng : Mt64) (chunks : List Chunk) (al : Allocator),
    ∃ r, chunksAppendTrail rng q index chunks al = .ok r

/-- The assertion is enough: the trail only looks back, so every entry it reads is
there. -/
theorem trailCallInside_of_le {q : PeerQueue} {index : Nat} (h : index ≤ q.length) :
    TrailCallInside q index where
  head := h
  reads := by
    intro rng k hk
    have hLt : k < q.length := Nat.lt_of_lt_of_le (mem_trailIndices hk).1 h
    exact ⟨q[k], List.getElem?_eq_getElem hLt⟩
  ends := by
    intro rng chunks al
    obtain ⟨s, added, rng', al', hTrail, _⟩ := trail_outcomes h rng chunks al
    exact ⟨_, hTrail⟩

/-- A tick reads no trail past the end of a queue: it does not stop at one, and
every call that it makes stays inside. -/
structure TrailsInside (peer : Peer) (e : Int) : Prop where
  noFault : ∀ index size, peerTick peer e ≠ .error (.trail index size)
  calls : ∀ q index, TrailCall peer e q index → TrailCallInside q index

/-- A tick that does not overrun stops at no trail, in either mode. For a host
nothing is asked, as its cursors never pass the mutual queue; for a client the
condition is about its heartbeat alone. -/
theorem noTrail_peerTick {peer : Peer} (hInv : CursorInv peer) {e : Int}
    (hSafe : ¬ TrailOverruns peer e) : NoTrail (peerTick peer e) := by
  cases hMode : peer.mode with
  | host => exact noTrail_peerTick_host hInv hMode e
  | client =>
    by_cases hValid : ValidElapsed peer e
    · rw [peerTick_client_eq hValid hMode]
      refine NoTrail.bind ?_ fun _ => noTrail_ok _
      unfold clientSend
      cases hSlots : peer.slots with
      | nil =>
        simp only [tickClock_slots, hSlots, List.map_nil]
        exact noTrail_ok _
      | cons slot slots =>
        simp only [tickClock_slots, hSlots, List.map_cons]
        split
        · exact (noTrail_queuePack ..).bind fun _ => noTrail_ok _
        next hNew =>
        split
        · next hClock =>
          by_cases hAlloc : peer.alloc.outcomes 0 = true
          · -- the heartbeat is sent, so its trail must be there
            have hInside : TrailInside peer (slot.tickClock e) := by
              by_contra hTrail
              exact hSafe ⟨hMode, hValid, hAlloc, slot, by rw [hSlots]; rfl, hTrail⟩
            have hIndex := hInside (by omega) hClock
            exact (noTrail_sendHeartbeat hIndex ..).bind fun _ => noTrail_ok _
          · -- not even its list of chunks could be allocated
            rw [Bool.not_eq_true] at hAlloc
            obtain ⟨al, hRequest⟩ : ∃ al, (peer.tickClock e).alloc.request = (false, al) :=
              ⟨_, Prod.ext hAlloc rfl⟩
            simp only [sendHeartbeat, heartbeatChunks, hRequest, ok_bind]
            exact noTrail_ok _
        · exact noTrail_ok _
    · obtain ⟨s, _, hInvalid⟩ := peerTick_invalid hValid
      rw [hInvalid]
      exact noTrail_ok _

/-- A tick that does not overrun only makes calls that stay inside, in either mode. -/
theorem trailCallInside_of_call {peer : Peer} (hInv : CursorInv peer) {e : Int}
    (hSafe : ¬ TrailOverruns peer e) {q : PeerQueue} {index : Nat} (hCall : TrailCall peer e q index) :
    TrailCallInside q index := by
  cases hCall with
  | host hMode _ hSlot _ _ => exact trailCallInside_of_le (hInv.merged hMode hSlot)
  | clientMessages _ _ _ hNew => exact trailCallInside_of_le (Nat.le_of_lt hNew)
  | @clientHeartbeat slot hMode hValid hSlot hNone hClock hAlloc =>
    refine trailCallInside_of_le ?_
    by_contra hPast
    -- the cursor is past the mutual queue: that is the overrun
    refine hSafe ⟨hMode, hValid, hAlloc, slot, hSlot, fun hInside => hPast ?_⟩
    rw [PeerSlot.tickClock_eq] at hInside hClock
    exact hInside hNone hClock

/-- **Trail reads stay inside the queue**, for every peer that any run reaches
and every tick from there, exactly where no heartbeat of a client overruns: then no
call of `chunks_append_trail` starts past the end of its queue, every entry that its
serial and its scatter part pick is there, and every call comes to its end. -/
theorem trail_inside_iff {mode : PeerMode} {alloc : Allocator} {rng : Mt64} {peer : Peer}
    (hReach : Reaches Peer.step (fun _ _ _ => True) (peerInit mode alloc rng) peer) (e : Int) :
    TrailsInside peer e ↔ ¬ TrailOverruns peer e := by
  have hInv := cursorInv_of_reaches hReach
  constructor
  · -- an overrun is reported as such
    rintro hTrails ⟨hMode, hValid, hAlloc, slot, hHead, hTrail⟩
    obtain ⟨slots, hSlots⟩ := List.head?_eq_some_iff.mp hHead
    have hSlots' : (peer.tickClock e).slots = slot.tickClock e :: slots.map (·.tickClock e) := by
      rw [tickClock_slots, hSlots, List.map_cons]
    refine hTrails.noFault slot.outIndex peer.queue.length ?_
    rw [peerTick_client_eq hValid hMode, clientSend_trail hSlots' hAlloc hTrail, error_bind,
      PeerSlot.tickClock_eq]
    rfl
  · exact fun hSafe => ⟨(noTrail_peerTick hInv hSafe).ne,
      fun _ _ hCall => trailCallInside_of_call hInv hSafe hCall⟩

/-- A client that sends one message and gets it back from the host, in the place
that the host has given it. -/
def echoedActions : List PeerAction :=
  [.openSlots (some [3]), .connect 1, .queue (some [7]), .tick 0,
   .input [packed 1 3 [encode peerMessageModeApplication 0 5 1 [7]]]]

/-- A client that has sent the one message of its slot, has a heartbeat due at a
tick, and a mutual queue of the given size. -/
def isDue (size : Nat) (e : Int) (peer : Peer) : Bool :=
  match peer.slots.head? with
  | some slot => decide (peer.mode = .client ∧ peer.queue.length = size ∧ slot.outIndex = 1 ∧
      slot.queue.length = 1 ∧ (slot.tickClock e).clockHeartbeat ≤ 0 ∧ ValidElapsed peer e ∧
      peer.alloc.outcomes 0 = true)
  | none => false

/-- The call of that heartbeat: its queue, and the index that it looks back from. -/
theorem trailCall_of_isDue {size : Nat} {e : Int} {peer : Peer} (h : isDue size e peer = true) :
    peer.queue.length = size ∧ TrailCall peer e peer.queue 1 ∧
      ∀ slot, peer.slots.head? = some slot → slot.outIndex = 1 := by
  unfold isDue at h
  split at h
  swap
  · cases h
  next slot hHead =>
  obtain ⟨hMode, hQueue, hOut, hOwn, hClock, hValid, hAlloc⟩ := of_decide_eq_true h
  have hCall : TrailCall peer e peer.queue slot.outIndex :=
    .clientHeartbeat hMode hValid hHead (by omega) hClock hAlloc
  rw [hOut] at hCall
  refine ⟨hQueue, hCall, fun other hOther => ?_⟩
  rw [hHead, Option.some.injEq] at hOther
  rwa [← hOther]

/-- Its next heartbeat asks for the trail of one entry, which is there by now. -/
theorem trail_inside_iff_echoed :
    ∃ peer, Reaches Peer.step (fun _ _ _ => True) (peerInit .client .reliable ⟨fun _ => 0⟩) peer ∧
      peer.queue.length = 1 ∧ TrailCall peer 10 peer.queue 1 ∧ TrailsInside peer 10 := by
  obtain ⟨peer, hReach, hTest⟩ : ∃ peer,
      Reaches Peer.step (fun _ _ _ => True) (peerInit .client .reliable ⟨fun _ => 0⟩) peer ∧
        isDue 1 10 peer = true :=
    exists_reaches_of_runGuarded (fun _ _ _ => true) (fun _ _ _ _ => trivial) echoedActions _
      (isDue 1 10) (by decide +kernel)
  obtain ⟨hQueue, hCall, hOut⟩ := trailCall_of_isDue hTest
  refine ⟨peer, hReach, hQueue, hCall, (trail_inside_iff hReach 10).mpr ?_⟩
  -- the cursor and the mutual queue are both at 1
  rintro ⟨_, _, _, slot, hHead, hTrail⟩
  refine hTrail fun _ _ => ?_
  rw [PeerSlot.tickClock_eq]
  exact Nat.le_of_eq ((hOut slot hHead).trans hQueue.symm)

/-- A client that sends one message, and then has nothing new to send nor anything
received. -/
def overrunActions : List PeerAction :=
  [.openSlots (some [3]), .connect 1, .queue (some [7]), .tick 0]

/-- Its next heartbeat asks for a trail of one entry, and the mutual queue is empty. -/
theorem not_trail_inside :
    ¬ ∀ (mode : PeerMode) (alloc : Allocator) (rng : Mt64) (peer : Peer),
      Reaches Peer.step (fun _ _ _ => True) (peerInit mode alloc rng) peer →
      ∀ e q index, TrailCall peer e q index → index ≤ q.length := by
  intro hAll
  obtain ⟨peer, hReach, hTest⟩ : ∃ peer,
      Reaches Peer.step (fun _ _ _ => True) (peerInit .client .reliable ⟨fun _ => 0⟩) peer ∧
        isDue 0 0 peer = true :=
    exists_reaches_of_runGuarded (fun _ _ _ => true) (fun _ _ _ _ => trivial) overrunActions _
      (isDue 0 0) (by decide +kernel)
  obtain ⟨hQueue, hCall, _⟩ := trailCall_of_isDue hTest
  have hPast := hAll _ _ _ peer hReach 0 _ _ hCall
  rw [hQueue] at hPast
  exact absurd hPast (by decide)

end PeerProtocol
