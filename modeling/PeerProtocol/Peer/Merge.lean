import PeerProtocol.Peer.Bound

/-!
# peer — the merge, exactly once and in order

The host appends the messages of its slots to the mutual queue, each under the
actor id of its slot. Messages come to a slot in any order, several times, or
never: the slot's queue has holes, and the merge stops at the first of them.
What has come behind a hole waits there until the hole is filled.

That the merge loses nothing, doubles nothing and keeps the order is a
statement about all the ticks of a run together, since each of them takes only
what is ready. It is put as an equation: the entries of an actor in the mutual
queue are, in order, what the merge cursor of the actor's slot has passed. The
cursor only moves over ready messages, which no packet can change any more, so
both sides grow by the same messages.

The host's own messages have no slot. A run of the host carries, beside the
peer, the data that `peer_queue` accepted so far, in call order, and these are
the entries of the host's own actor id.

## Results

* `Merged` — the two equations, as an invariant over the invariant of bound
  slots.
* `Merged.openSlots`, `Merged.queue`, `Merged.input`, `Merged.tick` — what
  each action does to them; `Merged.step` — every action keeps them.
* `merged_of_reaches` — so does every run. The slots' actor ids are their
  positions, so no two slots share one, and none has the host's.
-/

namespace PeerProtocol

open Lib

/-- The data of the entries of an actor, in queue order. -/
def dataOfActor (q : PeerQueue) (actor : Int) : List (List UInt8) :=
  (q.filter (·.actor == actor)).map (·.data)

theorem dataOfActor_append (q r : PeerQueue) (actor : Int) :
    dataOfActor (q ++ r) actor = dataOfActor q actor ++ dataOfActor r actor := by
  rw [dataOfActor, List.filter_append, List.map_append]
  rfl

/-- A queue without entries of the actor has no data of it. -/
theorem dataOfActor_eq_nil {q : PeerQueue} {actor : Int} (h : ∀ m ∈ q, m.actor ≠ actor) :
    dataOfActor q actor = [] := by
  rw [dataOfActor, List.filter_eq_nil_iff.mpr (by simpa using h), List.map_nil]

/-- The time of an entry is not looked at, so stamping changes nothing here. -/
theorem dataOfActor_stampQueue (n : Nat) (time : Int) (q : PeerQueue) (actor : Int) :
    dataOfActor (stampQueue n time q) actor = dataOfActor q actor := by
  have hStamped (r : PeerQueue) :
      dataOfActor (r.map fun m => { m with time := time }) actor = dataOfActor r actor := by
    simp only [dataOfActor, List.filter_map, List.map_map]
    rfl
  rw [stampQueue, dataOfActor_append, hStamped, ← dataOfActor_append, List.take_append_drop]

/-- The messages of a slot that the merge has taken: those below its cursor. -/
def PeerSlot.taken (slot : PeerSlot) : List (List UInt8) :=
  (slot.queue.take slot.inIndex).map (·.data)

/-- A merge takes what is pending: the ready messages from the cursor on, up to a
hole. -/
theorem taken_merged (slot : PeerSlot) :
    slot.merged.taken = slot.taken ++ slot.pending.map (·.data) := by
  rw [PeerSlot.taken, merged_slot_queue, take_merged, List.map_append]
  rfl

/-- What a slot contributes has the data of what is pending there, whatever else it
gets. -/
theorem data_contribution (slot : PeerSlot) (time : Int) :
    (slot.contribution time).map (·.data) = slot.pending.map (·.data) := by
  rw [PeerSlot.contribution, List.map_map]
  rfl

-- ---------------------------------------------------------------------------
-- What the slots contribute
-- The loop over the slots, sorted by actor id: each slot's messages are those
-- of its position.
-- ---------------------------------------------------------------------------

/-- Each slot contributes under its position as actor id, if it contributes
anything: a slot that was never bound has no messages. -/
theorem BoundInv.actor_of_mem_contribution {peer : Peer} (h : BoundInv peer) {i : Nat}
    {slot : PeerSlot} {time : Int} (hSlot : peer.slots.tail[i]? = some slot) {m : PeerMessage}
    (hm : m ∈ slot.contribution time) : m.actor = (i + 1 : Nat) := by
  obtain ⟨m0, hm0, rfl⟩ := List.mem_map.mp hm
  rw [List.getElem?_tail] at hSlot
  exact (h.actor_of_mem hSlot (mem_pending hm0).1).2

/-- The merge appends, for the actor of a slot, what was pending there, and nothing
else. -/
theorem BoundInv.dataOfActor_merged {peer : Peer} (h : BoundInv peer) {j : Nat} (hj : 1 ≤ j)
    {slot : PeerSlot} (hSlot : peer.slots[j]? = some slot) (e : Int) :
    dataOfActor (peer.tickClock e).merged.queue j =
      dataOfActor peer.queue j ++ slot.pending.map (·.data) := by
  obtain ⟨i, rfl⟩ : ∃ i, j = i + 1 := ⟨j - 1, by omega⟩
  rw [← List.getElem?_tail] at hSlot
  rw [merged_queue, dataOfActor_append, dataOfActor_stampQueue]
  congr 1
  rw [dataOfActor, filter_flatMap_of_getElem? hSlot, data_contribution]
  intro k other hk m hm
  rw [beq_iff_eq, h.actor_of_mem_contribution hk hm]
  omega

/-- The merge appends nothing under the host's own actor id. -/
theorem BoundInv.dataOfActor_merged_zero {peer : Peer} (h : BoundInv peer) (e : Int) :
    dataOfActor (peer.tickClock e).merged.queue 0 = dataOfActor peer.queue 0 := by
  rw [merged_queue, dataOfActor_append, dataOfActor_stampQueue, dataOfActor_eq_nil (q := List.flatMap ..),
    List.append_nil]
  intro m hm
  obtain ⟨slot, hMem, hm⟩ := List.mem_flatMap.mp hm
  obtain ⟨i, hi⟩ := List.mem_iff_getElem?.mp hMem
  rw [h.actor_of_mem_contribution hi hm]
  omega

-- ---------------------------------------------------------------------------
-- The invariant
-- One lemma for each kind of action.
-- ---------------------------------------------------------------------------

/-- The mutual queue holds, under the actor id of each slot, what the slot's
merge cursor has passed, and under the host's what `peer_queue` accepted. -/
structure Merged (peer : Peer) (accepted : List (List UInt8)) : Prop where
  host : BoundInv peer
  slots : ∀ (j : Nat) (slot : PeerSlot), 1 ≤ j → peer.slots[j]? = some slot →
    dataOfActor peer.queue j = slot.taken
  own : dataOfActor peer.queue 0 = accepted

/-- A new host has merged nothing and accepted nothing. -/
theorem merged_peerInit (rng : Mt64) : Merged (peerInit .host .reliable rng) [] where
  host := boundInv_peerInit rng
  slots := by simp [peerInit]
  own := rfl

/-- A slot may be replaced by one with the same messages below its cursor, since
those are all that the statement reads of it besides the invariant on bound slots;
its clocks and its other messages do not enter. -/
theorem Merged.set {peer peer' : Peer} {accepted : List (List UInt8)} (h : Merged peer accepted)
    (hInv : BoundInv peer') (hQueue : peer'.queue = peer.queue) {i : Nat} {slot slot' : PeerSlot}
    (hSlot : peer.slots[i]? = some slot) (hSlots : peer'.slots = peer.slots.set i slot')
    (hTaken : slot'.taken = slot.taken) : Merged peer' accepted where
  host := hInv
  slots := by
    intro j t hj ht
    rw [hQueue]
    rw [hSlots] at ht
    rcases getElem?_set_cases ht with ⟨rfl, rfl⟩ | ⟨_, hOld⟩
    · rw [hTaken]
      exact h.slots i slot hj hSlot
    · exact h.slots j t hj hOld
  own := by
    rw [hQueue]
    exact h.own

/-- New slots have empty queues and cursors at zero. -/
theorem Merged.openSlots {peer : Peer} {accepted : List (List UInt8)} (h : Merged peer accepted)
    (ids : Option (List Int)) : Merged (peerOpen peer ids).2 accepted := by
  have hInv := h.host.openSlots ids
  rw [peerOpen_reliable h.host.alloc] at hInv ⊢
  refine ⟨hInv, ?_, h.own⟩
  intro j slot hj hSlot
  dsimp only at hSlot ⊢
  by_cases hOld : j < peer.slots.length
  · rw [List.getElem?_append_left hOld] at hSlot
    exact h.slots j slot hj hSlot
  · -- no entry has the actor id of a slot that did not exist
    rw [List.getElem?_append_right (by omega)] at hSlot
    obtain ⟨i, id, _, rfl⟩ := List.mem_mapIdx.mp (List.mem_of_getElem? hSlot)
    refine dataOfActor_eq_nil fun m hm => ?_
    rcases h.host.origin m hm with hZero | ⟨_, hLt⟩ <;> omega

/-- A message that is queued is the next of those accepted: it comes last in the
mutual queue, under the host's own actor id, and last in the history. -/
theorem Merged.queue {peer : Peer} {accepted : List (List UInt8)} (h : Merged peer accepted)
    (data : List UInt8) : Merged (peerQueue peer (some data)).2 (accepted ++ [data]) := by
  have hInv := h.host.queue data
  rw [peerQueue_host h.host.mode h.host.alloc] at hInv ⊢
  have hActor := h.host.actor
  refine ⟨hInv, ?_, ?_⟩
  · intro j slot hj hSlot
    dsimp only at hSlot ⊢
    rw [dataOfActor_append, h.slots j slot hj hSlot, dataOfActor_eq_nil (q := [_]), List.append_nil]
    intro m hm
    rw [List.mem_singleton.mp hm]
    simp only [Entry.message, hActor]
    omega
  · dsimp only
    rw [dataOfActor_append, h.own]
    simp [dataOfActor, Entry.message, hActor]

/-- A packet changes one slot, and no message below its cursor: those are ready, and
an insertion never writes over a ready message. The mutual queue is not touched at
all. -/
theorem Merged.input {peer peer' : Peer} {accepted : List (List UInt8)} {packets : List PeerPacket}
    {s : Status} (h : Merged peer accepted) (hSource : ∀ p ∈ packets, p.sourceId ≠ peerUndefined)
    (hInput : peerInput peer packets = .ok (s, peer')) : Merged peer' accepted := by
  refine peerInput_invariant (I := (Merged · accepted)) ?_ ?_ ?_ hInput h
  · intro p packet s cs al _ hp hCs
    exact ⟨hp.host.unpack hCs, hp.slots, hp.own⟩
  · intro start p p' packet j s cs al chunk hPacket _ hCs hMem hp hMatch hStep
    have hInv := hp.host.chunk ((unpackPacket_keeps hCs).1 chunk hMem) (hSource packet hPacket) hMatch
      hStep
    cases hStep.onHost hp.host.mode with
    | skip => exact hp
    | store hSlot _ _ _ _ _ hInsert =>
      -- inserting leaves what is below the merge cursor
      have hOld := hp.host.slots j _ hSlot
      refine hp.set hInv rfl hSlot rfl ?_
      rw [PeerSlot.taken, take_queueInsert hOld.inIndex hOld.taken hInsert]
      rfl
  · intro p packet _ hp _ _
    have hInv := hp.host.assign packet
    rcases assignSlot_cases p packet with hSame | ⟨j, _, slot, _, _, _, _, _, hSlot, _, hSet⟩
    · rw [hSame]
      exact hp
    · rw [hSet] at hInv ⊢
      exact hp.set hInv rfl hSlot rfl rfl

/-- The tick moves the cursors, and appends what they have passed, each message
under the actor id of its slot; so for every actor the two sides get longer by the
same messages. -/
theorem Merged.tick {peer peer' : Peer} {accepted : List (List UInt8)} {e : Int} {s : Status}
    {ps : List PeerPacket} (h : Merged peer accepted)
    (hTick : peerTick peer e = .ok (s, ps, peer')) : Merged peer' accepted := by
  have hInv := h.host.tick hTick
  by_cases hValid : ValidElapsed peer e
  · have hTicked := h.host.ticked hValid hTick
    refine ⟨hInv, ?_, ?_⟩
    · intro j slot' hj hSlot'
      obtain ⟨slot, hSlot⟩ := exists_getElem?_of_length_eq hTicked.length hSlot'
      have hSent := (hTicked.slot j _ slot' hj hSlot hSlot').1
      have hTaken : slot'.taken = (slot.tickClock e).merged.taken := by
        rw [PeerSlot.taken, hSent.queue, hSent.inIndex]
        rfl
      -- both sides grow by what was pending
      rw [hTicked.queue, h.host.dataOfActor_merged hj hSlot, hTaken, taken_merged,
        h.slots j _ hj hSlot, tickClock_pending]
      congr 1
      rw [PeerSlot.taken, PeerSlot.taken, tickClock_queue, tickClock_inIndex]
    · rw [hTicked.queue, h.host.dataOfActor_merged_zero]
      exact h.own
  · obtain ⟨_, _, rfl⟩ := eq_of_peerTick_invalid hValid hTick
    exact h

-- ---------------------------------------------------------------------------
-- Runs
-- ---------------------------------------------------------------------------

/-- The data that `peer_queue` has accepted, after one more action: its status
tells. -/
def acceptedAfter (accepted : List (List UInt8)) (s : Status) : PeerAction → List (List UInt8)
  | .queue (some data) => if s = kitOk then accepted ++ [data] else accepted
  | _ => accepted

/-- One action of a host, with the data that `peer_queue` accepted so far. The
record is only looked at by statements. -/
def recordedStep (r : Peer × List (List UInt8)) (a : PeerAction) :
    Except Fault (Peer × List (List UInt8)) := do
  let (s, _, peer) ← r.1.act a
  return (peer, acceptedAfter r.2 s a)

/-- **Step lemma**: every action of a host keeps what is merged. A tick appends, for
each slot, the messages from its cursor up to the first gap, which is what its
cursor moves over. -/
theorem Merged.step {peer : Peer} {accepted : List (List UInt8)} {a : PeerAction}
    {r : Peer × List (List UInt8)} (h : Merged peer accepted) (hMay : a.IsHostStep)
    (hStep : recordedStep (peer, accepted) a = .ok r) : Merged r.1 r.2 := by
  obtain ⟨⟨s, ps, peer'⟩, hAct, hEq⟩ := bind_eq_ok.mp hStep
  obtain rfl : (peer', acceptedAfter accepted s a) = r := by simpa using hEq
  have hCase := Peer.act_cases hAct
  cases a with
  | openSlots ids =>
    obtain ⟨_, rfl⟩ := hCase
    exact h.openSlots ids
  | queue messageData =>
    obtain ⟨_, rfl⟩ := hCase
    cases messageData with
    | none => exact h
    | some data =>
      -- without failures the host accepts every message
      have hOk : s = kitOk := by
        rw [Peer.act, peerQueue_host h.host.mode h.host.alloc] at hAct
        exact (congrArg Prod.fst (Except.ok.inj hAct)).symm
      rw [acceptedAfter, if_pos hOk]
      exact h.queue data
  | input packets => exact h.input hMay hCase.2
  | tick e => exact h.tick hCase
  | setAddress j size data =>
    have hInv := h.host.act hMay hAct
    obtain ⟨_, rfl⟩ := hCase
    refine ⟨hInv, ?_, h.own⟩
    intro k slot' hk hSlot'
    obtain ⟨slot, hSlot, rfl | rfl⟩ := exists_of_getElem?_modify hSlot'
    · exact h.slots k slot' hk hSlot
    · exact h.slots k slot hk hSlot
  | connect serverId => cases hMay
  | resolve j id => cases hMay

/-- **Exactly once, in order.** In every state of every run of a host, the
entries of a slot's actor are what its merge cursor has passed, which is all
ready, and the host's own entries are what `peer_queue` accepted. -/
theorem merged_of_reaches {rng : Mt64} {peer : Peer} {accepted : List (List UInt8)}
    (hReach : Reaches recordedStep (fun _ a _ => a.IsHostStep) (peerInit .host .reliable rng, [])
      (peer, accepted)) :
    (∀ (j : Nat) (slot : PeerSlot), 1 ≤ j → peer.slots[j]? = some slot →
      dataOfActor peer.queue j = (slot.queue.take slot.inIndex).map (·.data) ∧
      slot.inIndex ≤ slot.queue.length ∧ ∀ m ∈ slot.queue.take slot.inIndex, m.isReady = true) ∧
    dataOfActor peer.queue 0 = accepted := by
  have h : Merged peer accepted := hReach.invariant (I := fun r => Merged r.1 r.2)
    (fun _ _ _ hInv hOk hMay => hInv.step hMay hOk) (merged_peerInit rng)
  exact ⟨fun j slot hj hSlot => ⟨h.slots j slot hj hSlot, (h.host.slots j slot hSlot).inIndex,
    (h.host.slots j slot hSlot).taken⟩, h.own⟩

/-- Two slots, each bound to a client, and a message of the host. The first client's
second message comes before its first one, which then comes twice, with the second
one again; the host ticks in between, so that its merge runs into the gap first. -/
def gapRun : List PeerAction :=
  [.openSlots (some [1, 2, 4]),
   .setAddress 1 oneByte (byteAddress 2), .setAddress 2 oneByte (byteAddress 4),
   .input [PeerPacket.blank 5 1], .input [PeerPacket.blank 6 1], .queue (some [72]),
   .input [packed 5 2 [encode peerMessageModeApplication 1 0 1 [98]]],
   .input [packed 6 4 [encode peerMessageModeApplication 0 0 2 [99]]], .tick 0,
   .input [packed 5 2 [encode peerMessageModeApplication 0 0 1 [97]],
     packed 5 2 [encode peerMessageModeApplication 0 0 1 [97]],
     packed 5 2 [encode peerMessageModeApplication 1 0 1 [98]]],
   .queue (some [73]), .tick 0]

/-- The first merge takes only the second client's message, because the first
client's has a gap before it; the second merge takes both of the first client's. -/
theorem merged_of_reaches_gap : ∃ (peer : Peer) (accepted : List (List UInt8)),
    peer.queue.map (fun m => (m.actor, m.data)) =
      [(0, [72]), (2, [99]), (0, [73]), (1, [97]), (1, [98])] ∧
    peer.slots.map (·.inIndex) = [0, 2, 1] ∧ accepted = [[72], [73]] ∧
    (∀ (j : Nat) (slot : PeerSlot), 1 ≤ j → peer.slots[j]? = some slot →
      dataOfActor peer.queue j = (slot.queue.take slot.inIndex).map (·.data) ∧
      slot.inIndex ≤ slot.queue.length ∧ ∀ m ∈ slot.queue.take slot.inIndex, m.isReady = true) ∧
    dataOfActor peer.queue 0 = accepted := by
  obtain ⟨⟨peer, accepted⟩, hReach, hQueue, hIndex, hAccepted⟩ :=
    exists_reaches_where recordedStep (fun _ a _ => a.IsHostStep)
      (fun _ a _ => decide a.IsHostStep) (fun _ _ _ h => of_decide_eq_true h) gapRun
      (peerInit .host .reliable ⟨fun _ => 0⟩, [])
      (fun r => r.1.queue.map (fun m => (m.actor, m.data)) =
          [(0, [72]), (2, [99]), (0, [73]), (1, [97]), (1, [98])] ∧
        r.1.slots.map (·.inIndex) = [0, 2, 1] ∧ r.2 = [[72], [73]]) (by decide +kernel)
  exact ⟨peer, accepted, hQueue, hIndex, hAccepted, merged_of_reaches hReach⟩

end PeerProtocol
