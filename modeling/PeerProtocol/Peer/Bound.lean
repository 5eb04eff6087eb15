import PeerProtocol.Peer.Host

/-!
# peer — bound slots

What a host keeps when its packets come from sources with an id, and only
`peer_input` binds its slots: a slot is empty until a client is bound to it,
and from then on its position is its actor id.

The actor id of a slot has two writers. `peer_open` gives it the position
among the slots of the same call, and `peer_input`, when it binds the slot,
the position among all slots. Until it is bound a slot has received nothing,
so no message has gone under the first id: by the time that anything is
merged, actor ids are positions. That is why the mutual queue tells the
clients apart, although `peer_open` may give two slots one id.

The condition on the packets is needed. A packet from `PEER_UNDEFINED` matches
a slot that is not bound, because the slot's remote id is `PEER_UNDEFINED` as
well, and its messages are stored there; `bound_of_matchesPacket` is where the
condition is used.

## Results

* `BoundSlot` — the slot at a position, with its merge cursor: what lies below
  the cursor is ready, and there is nothing in the queue before the slot is
  bound.
* `BoundInv` — a host whose slots are such, and where every entry of the
  mutual queue comes from.
* `BoundSlot.store`, `BoundSlot.assign`, `BoundSlot.merged`, `BoundSlot.sent`
  — the slot under everything that can happen to it.
* `BoundInv.act` — the step lemma. `Peer.Merge` and the modules about
  identities and times are built on it.
-/

namespace PeerProtocol

open Lib

/-- The slot at position `j` of a host: it is empty until it is bound, then its
position is its actor id, and its messages below the merge cursor are ready. -/
structure BoundSlot (j : Nat) (slot : PeerSlot) : Prop where
  unbound : slot.remoteEnd.id = peerUndefined → slot.queue = []
  bound : slot.remoteEnd.id ≠ peerUndefined → 1 ≤ j ∧ slot.actor = j
  inIndex : slot.inIndex ≤ slot.queue.length
  taken : ∀ m ∈ slot.queue.take slot.inIndex, m.isReady = true

/-- A new slot is not bound, and has no messages. -/
theorem boundSlot_openSlot (mode : PeerMode) (j i : Nat) (id : Int) :
    BoundSlot j (openSlot mode i id) where
  unbound := fun _ => rfl
  bound := fun h => absurd rfl h
  inIndex := Nat.le_refl _
  taken := by simp [openSlot]

/-- A slot that a packet from a source with an id matches is bound. -/
theorem bound_of_matchesPacket {slot : PeerSlot} {packet : PeerPacket}
    (hSource : packet.sourceId ≠ peerUndefined) (hMatch : slot.matchesPacket packet = true) :
    slot.remoteEnd.id ≠ peerUndefined := by
  simp only [PeerSlot.matchesPacket, Bool.and_eq_true, beq_iff_eq] at hMatch
  rw [hMatch.2]
  exact hSource

/-- The messages below the merge cursor are ready, so `queue_insert` leaves them: it
only ever fills holes. -/
theorem take_queueInsert {q q' : PeerQueue} {n : Nat} {index time actor : Int} {data : List UInt8}
    {al al' : Allocator} {s : Status} (hn : n ≤ q.length)
    (hReady : ∀ m ∈ q.take n, m.isReady = true)
    (h : queueInsert q index time actor data al = .ok (s, q', al')) : q'.take n = q.take n := by
  have hGrown (i : Nat) : (grown q i).take n = q.take n := by
    unfold grown
    split
    · rfl
    · exact List.take_append_of_le_length hn
  rcases (queueInsert_cases h).2 with rfl | ⟨i, _, hFree, rfl | rfl⟩
  · rfl
  · exact hGrown i
  · -- the index is free, so it is not below the cursor
    have hi : n ≤ i := by
      by_contra hLt
      have hm : q[i]? = some q[i] := List.getElem?_eq_getElem (by omega)
      have hTaken : q[i] ∈ q.take n := by
        refine List.mem_of_getElem? (i := i) ?_
        rw [List.getElem?_take_of_lt (by omega), hm]
      rw [hm, Option.any_some, hReady _ hTaken] at hFree
      cases hFree
    rw [stored, List.take_set_of_le hi, hGrown]

/-- A message is stored in a bound slot, above the cursor. -/
theorem BoundSlot.store {j : Nat} {slot : PeerSlot} (h : BoundSlot j slot)
    (hBound : slot.remoteEnd.id ≠ peerUndefined) {q : PeerQueue} {index time actor : Int}
    {data : List UInt8} {al al' : Allocator} {s : Status}
    (hInsert : queueInsert slot.queue index time actor data al = .ok (s, q, al')) :
    BoundSlot j { slot with queue := q } where
  unbound := fun hNone => absurd hNone hBound
  bound := h.bound
  inIndex := Nat.le_trans h.inIndex (length_le_queueInsert hInsert)
  taken := by
    dsimp only
    rw [take_queueInsert h.inIndex h.taken hInsert]
    exact h.taken

/-- A free slot is assigned, and is still empty: its position is its actor id from
now on. -/
theorem BoundSlot.assign {j : Nat} {slot : PeerSlot} (h : BoundSlot j slot) (hj : 1 ≤ j)
    (hFree : slot.isFree = true) (sourceId : Int) : BoundSlot j (slot.assign j sourceId) where
  unbound := fun _ => h.unbound (by
    simp only [PeerSlot.isFree, Bool.and_eq_true, beq_iff_eq] at hFree
    exact hFree.1)
  bound := fun _ => ⟨hj, rfl⟩
  inIndex := h.inIndex
  taken := h.taken

/-- The merge moves the cursor past ready messages, which are those pending. -/
theorem take_merged (slot : PeerSlot) :
    slot.queue.take slot.merged.inIndex = slot.queue.take slot.inIndex ++ slot.pending := by
  have hPrefix : slot.pending <+: slot.queue.drop slot.inIndex := List.takeWhile_prefix _
  rw [merged_inIndex, List.take_add, List.prefix_iff_eq_take.mp hPrefix]
  simp

/-- So a merged slot has ready messages below its cursor: the merge moves the cursor
forward over ready messages only, and stops at the first that is not. -/
theorem BoundSlot.merged {j : Nat} {slot : PeerSlot} (h : BoundSlot j slot) :
    BoundSlot j slot.merged where
  unbound := h.unbound
  bound := h.bound
  inIndex := by
    have hPrefix : slot.pending <+: slot.queue.drop slot.inIndex := List.takeWhile_prefix _
    have hLen := hPrefix.length_le
    rw [List.length_drop] at hLen
    have := h.inIndex
    simp only [merged_inIndex, merged_slot_queue]
    omega
  taken := by
    intro m hm
    rw [merged_slot_queue, take_merged] at hm
    rcases List.mem_append.mp hm with hOld | hNew
    · exact h.taken m hOld
    · exact (mem_pending hNew).2

/-- The clock is of no account. -/
theorem BoundSlot.tickClock {j : Nat} {slot : PeerSlot} (h : BoundSlot j slot) (e : Int) :
    BoundSlot j (slot.tickClock e) := by
  rw [PeerSlot.tickClock_eq]
  exact ⟨h.unbound, h.bound, h.inIndex, h.taken⟩

/-- Nor is anything that sending changes. -/
theorem BoundSlot.sent {j : Nat} {slot slot' : PeerSlot} {q : PeerQueue} (h : BoundSlot j slot)
    (hSent : SlotSent q slot slot') : BoundSlot j slot' where
  unbound := by
    rw [hSent.remoteEnd, hSent.queue]
    exact h.unbound
  bound := by
    rw [hSent.remoteEnd, hSent.actor]
    exact h.bound
  inIndex := by
    rw [hSent.inIndex, hSent.queue]
    exact h.inIndex
  taken := by
    rw [hSent.inIndex, hSent.queue]
    exact h.taken

/-- A host whose slots are, and whose entries come from it or from a slot: the actor
id of an entry is 0, or the position of a slot that there is. -/
structure BoundInv (peer : Peer) : Prop extends HostInv peer where
  origin : ∀ m ∈ peer.queue, m.actor = 0 ∨ (1 ≤ m.actor ∧ m.actor < peer.slots.length)
  slots : ∀ j slot, peer.slots[j]? = some slot → BoundSlot j slot

/-- A new host has no slots. -/
theorem boundInv_peerInit (rng : Mt64) : BoundInv (peerInit .host .reliable rng) where
  toHostInv := hostInv_peerInit rng
  origin := by simp [peerInit]
  slots := by simp [peerInit]

/-- A message that waits to be merged is in a bound slot, under the actor id of its
position. -/
theorem BoundInv.actor_of_mem {peer : Peer} (h : BoundInv peer) {slot : PeerSlot} {j : Nat}
    (hSlot : peer.slots[j]? = some slot) {m : PeerMessage} (hm : m ∈ slot.queue) :
    1 ≤ j ∧ slot.actor = j := by
  have hInv := h.slots j slot hSlot
  refine hInv.bound fun hNone => ?_
  rw [hInv.unbound hNone] at hm
  cases hm

/-- New slots, behind those there are. -/
theorem BoundInv.openSlots {peer : Peer} (h : BoundInv peer) (ids : Option (List Int)) :
    BoundInv (peerOpen peer ids).2 := by
  have hInv : HostInv (peerOpen peer ids).2 := h.toHostInv.act (a := .openSlots ids) rfl
  rw [peerOpen_reliable h.alloc] at hInv ⊢
  refine ⟨hInv, ?_, slots_open h.slots fun j i id _ _ => boundSlot_openSlot _ j i id⟩
  intro m hm
  rw [List.length_append]
  rcases h.origin m hm with hZero | hSlot <;> omega

/-- A message of the host's own application has the host's actor id. -/
theorem BoundInv.queue {peer : Peer} (h : BoundInv peer) (data : List UInt8) :
    BoundInv (peerQueue peer (some data)).2 := by
  have hInv : HostInv (peerQueue peer (some data)).2 := h.toHostInv.act (a := .queue (some data)) rfl
  rw [peerQueue_host h.mode h.alloc] at hInv ⊢
  refine ⟨hInv, ?_, h.slots⟩
  intro m hm
  rcases List.mem_append.mp hm with hOld | hNew
  · exact h.origin m hOld
  · rw [List.mem_singleton.mp hNew]
    exact Or.inl h.actor

/-- A chunk of a packet for the slot, which is bound because its source has an id. -/
theorem BoundInv.chunk {peer peer' : Peer} {packet : PeerPacket} {j : Nat} {chunk : Chunk}
    (h : BoundInv peer) (hChunk : chunk.length ≤ 385) (hSource : packet.sourceId ≠ peerUndefined)
    (hMatch : Matches peer j packet) (hStep : ChunkStep j chunk peer peer') : BoundInv peer' := by
  have hInv := h.toHostInv.chunk hChunk hStep
  cases hStep.onHost h.mode with
  | skip => exact h
  | store hSlot _ _ _ _ _ hInsert =>
    obtain ⟨slot, hSlot', hMatch⟩ := hMatch
    rw [hSlot, Option.some.injEq] at hSlot'
    subst hSlot'
    have hStored := (h.slots j _ hSlot).store (bound_of_matchesPacket hSource hMatch) hInsert
    exact ⟨hInv, by simpa using h.origin, slots_set h.slots hStored⟩

/-- Unpacking uses the allocator, and nothing else. -/
theorem BoundInv.unpack {peer : Peer} {packet : PeerPacket} {cs : List Chunk} {s : Status}
    {al : Allocator} (h : BoundInv peer)
    (hCs : unpackPacket packet [] peer.alloc = .ok (s, cs, al)) : BoundInv { peer with alloc := al } :=
  ⟨h.toHostInv.unpack hCs, h.origin, h.slots⟩

/-- A new client is bound to a free slot. -/
theorem BoundInv.assign {peer : Peer} (h : BoundInv peer) (packet : PeerPacket) :
    BoundInv (assignSlot peer packet).2 := by
  have hInv := h.toHostInv.assign packet
  rcases assignSlot_cases peer packet with hSame | ⟨j, _, slot, _, _, _, hj, _, hSlot, hFree, hSet⟩
  · rw [hSame]
    exact h
  · rw [hSet] at hInv ⊢
    have hAssigned := (h.slots j slot hSlot).assign hj hFree packet.sourceId
    exact ⟨hInv, by simpa using h.origin, slots_set h.slots hAssigned⟩

theorem BoundInv.input {peer peer' : Peer} {packets : List PeerPacket} {s : Status}
    (h : BoundInv peer) (hSource : ∀ p ∈ packets, p.sourceId ≠ peerUndefined)
    (hInput : peerInput peer packets = .ok (s, peer')) : BoundInv peer' := by
  refine peerInput_invariant ?_ ?_ ?_ hInput h
  · intro p packet s cs al _ hp hCs
    exact hp.unpack hCs
  · intro start p p' packet j s cs al chunk hPacket _ hCs hMem hp hMatch hStep
    exact hp.chunk ((unpackPacket_keeps hCs).1 chunk hMem) (hSource packet hPacket) hMatch hStep
  · intro p packet _ hp _ _
    exact hp.assign packet

/-- The merge appends messages of bound slots, under their positions. An entry that
was there already is stamped or left, and its actor id is not written again. -/
theorem BoundInv.tick {peer peer' : Peer} {e : Int} {s : Status} {ps : List PeerPacket}
    (h : BoundInv peer) (hTick : peerTick peer e = .ok (s, ps, peer')) : BoundInv peer' := by
  by_cases hValid : ValidElapsed peer e
  · have hTicked := h.ticked hValid hTick
    refine ⟨h.toHostInv.tick hTick, ?_, hTicked.slots h.slots (fun _ _ hSlot => hSlot.tickClock e)
      fun _ _ _ _ hSlot hSent => hSlot.merged.sent hSent⟩
    intro m' hm'
    rw [hTicked.queue] at hm'
    rw [hTicked.length]
    rcases mem_merged_queue hm' with ⟨m, hm, rfl | rfl⟩ | ⟨slot, hSlot, m, hm, _, rfl⟩
    · exact h.origin m' hm
    · exact h.origin m hm
    · -- merged from the slot at position `i + 1`
      obtain ⟨i, hi⟩ := List.mem_iff_getElem?.mp hSlot
      rw [List.getElem?_tail] at hi
      obtain ⟨_, hActor⟩ := h.actor_of_mem hi hm
      have hLt := (List.getElem?_eq_some_iff.mp hi).1
      right
      simp only [Entry.message, hActor]
      omega
  · obtain ⟨_, _, rfl⟩ := eq_of_peerTick_invalid hValid hTick
    exact h

/-- **Step lemma of the bound slots**, for every action that a host may be asked to
do. Packets must have a source: one without would start a session in a slot that
counts as free all the same. -/
theorem BoundInv.act {peer peer' : Peer} {a : PeerAction} {s : Status} {ps : List PeerPacket}
    (h : BoundInv peer) (hMay : a.IsHostStep) (hAct : peer.act a = .ok (s, ps, peer')) :
    BoundInv peer' := by
  have hInv := h.toHostInv.act hAct
  have hCase := Peer.act_cases hAct
  cases a with
  | openSlots ids =>
    obtain ⟨_, rfl⟩ := hCase
    exact h.openSlots ids
  | queue messageData =>
    obtain ⟨_, rfl⟩ := hCase
    cases messageData with
    | none => exact h
    | some data => exact h.queue data
  | input packets => exact h.input hMay hCase.2
  | tick e => exact h.tick hCase
  | setAddress j size data =>
    obtain ⟨_, rfl⟩ := hCase
    -- A local address is written: nothing of a bound slot is read from it.
    refine ⟨hInv, by simpa using h.origin, slots_modify h.slots _ fun _ _ hSlot => ?_⟩
    exact ⟨hSlot.unbound, hSlot.bound, hSlot.inIndex, hSlot.taken⟩
  | connect serverId => cases hMay
  | resolve j id => cases hMay

end PeerProtocol
