import PeerProtocol.Peer.Learn

/-!
# peer — catching up after losses

One tick of a host sends a client, with what is new, a trail of what it was
sent before. Whether that closes every gap depends on where the gaps are: the
trail reaches back five entries for certain, or, with fewer than 105 behind
the cursor, to the beginning.

So a client that holds everything further back has the whole of the host's
mutual queue once it has input the packets of the tick, whatever it had lost
behind the cursor. What it holds must be what the host has: a client never
replaces an entry that is ready, so one that holds an entry the host has not
stamped yet would keep the old time for ever. That is why the statement asks
that what the client holds is stamped (`Stamped`), which it is when it came
from the host's packets; `not_catchesUp` is a client that holds the entry of a
message before the host's tick has set its time.

## Plan

Nothing is known of how the client came to hold what it does; the hypotheses
describe its queue. They are turned into the two facts that the delivery of
packets rests on: its queue agrees with the host's log, and every position is
either filled or carried by one of the packets (`Behind.follows`).

## Results

* `Behind` — the gaps of a client that the next tick of the host closes.
* `catchesUp` — with the entries before those, the client has all of the
  host's mutual queue once it has input the packets of the tick.
* `catchesUp_hole` — a session in which the client has lost an entry behind
  the cursor, of messages so long that the tick takes several packets.
-/

namespace PeerProtocol

open Lib

-- ---------------------------------------------------------------------------
-- The client's side
-- ---------------------------------------------------------------------------

/-- A slot `t` of the client and a ready slot of the host are the ends of a
session, and what the client holds is the host's, with gaps that the next tick
closes. -/
structure Behind (host : Peer) (j : Nat) (slot : PeerSlot) (client : Peer) (t : PeerSlot) : Prop where
  hostSlot : host.slots[j]? = some slot
  ready : slot.state = .ready
  mode : client.mode = .client
  alloc : client.alloc = .reliable
  mem : t ∈ client.slots
  remote : t.remoteEnd.id = slot.localEnd.id
  localEnd : t.localEnd.id = slot.remoteEnd.id
  length_le : client.queue.length ≤ host.queue.length
  entry : ∀ (i : Nat) (m : PeerMessage), client.queue[i]? = some m → m.isReady = true →
    host.queue[i]? = some m
  gaps : (∃ n, slot.outIndex ≤ n + peerTrailSerialSize ∧
      ∀ i, i < n → (client.queue[i]?).any (·.isReady) = true) ∨
    slot.outIndex < peerTrailSerialSize + peerTrailScatterDistance

/-- Every entry the client holds was stamped, or has the time that the tick stamps. -/
def Stamped (host client : Peer) (e : Int) : Prop :=
  ∀ (i : Nat) (m : PeerMessage), client.queue[i]? = some m → m.isReady = true →
    i < host.queueIndex ∨ m.time = host.timeLocal + e

/-- Once the client has input the packets that are for its slot `t`, in any
order, its mutual queue is the host's, and all of it is ready. -/
def CatchesUp (host' client : Peer) (t : PeerSlot) (packets : List PeerPacket) : Prop :=
  ∀ given : List PeerPacket, (∀ p ∈ given, p ∈ packets) →
    (∀ p ∈ packets, p.destinationId = t.localEnd.id → p ∈ given) →
    ∃ client', peerInput client given = .ok (kitOk, client') ∧ client'.queue = host'.queue ∧
      ∀ m ∈ client'.queue, m.isReady = true

/-- A client that agrees with the host before the tick follows its log after it. The
tick stamps the entries that were not final yet, so the client's copies of those
have to carry the time of the tick already. -/
theorem Behind.follows {host host' client : Peer} {j : Nat} {slot t : PeerSlot} {e : Int}
    (h : Behind host j slot client t) (hStamped : Stamped host client e)
    (hTicked : HostTicked host e host') : Follows host'.log client where
  mode := h.mode
  alloc := h.alloc
  agrees := by
    have hLog := log_of_ticked hTicked
    have hLen : host.queue.length ≤ host'.queue.length := by
      rw [hTicked.queue]
      exact length_le_merged host e
    refine ⟨?_, ?_⟩
    · rw [length_entries, hLog, List.length_map]
      exact Nat.le_trans h.length_le hLen
    · intro i a hHolds
      rw [holds_entries_iff] at hHolds
      have hHost := h.entry i a.message hHolds rfl
      have hLt := (List.getElem?_eq_some_iff.mp hHost).1
      -- the tick leaves the entry as it is
      have hKept : host'.queue[i]? = some a.message := by
        rw [hTicked.queue, getElem?_merged_queue hLt, hHost, Option.map_some, Option.some.injEq]
        split
        · rfl
        · next hNew =>
          have hTime := (hStamped i a.message hHolds rfl).resolve_left hNew
          rw [← hTime]
      rw [hLog, List.getElem?_map, hKept]
      rfl

/-- A replica that is the whole log is the host's mutual queue, message for message. -/
theorem queue_eq_of_entries {host : Peer} (h : HostInv host)
    (hFinal : host.log = host.queue.map (·.content)) {q : PeerQueue}
    (hq : entries q = host.log.map some) : q = host.queue := by
  refine List.ext_getElem? fun i => ?_
  have hEntry : (entries q)[i]? = (host.log.map some)[i]? := by rw [hq]
  rw [hFinal, List.map_map, List.getElem?_map] at hEntry
  cases hm : host.queue[i]? with
  | none =>
    rw [hm, entries, List.getElem?_map, Option.map_none, Option.map_eq_none_iff] at hEntry
    exact hEntry
  | some m =>
    rw [hm] at hEntry
    rw [holds_entries_iff.mp hEntry, message_content (h.entry m (List.mem_of_getElem? hm)).ready]

/-- **Catching up.** For every host that a run reaches, every tick of it that
succeeds, and every client that is behind it at a slot whose turn it is. -/
theorem catchesUp {rng : Mt64} {host host' client : Peer}
    (hReach : Reaches Peer.step (fun _ a host' => HostMay a host') (peerInit .host .reliable rng) host)
    {j : Nat} {slot t : PeerSlot} (h : Behind host j slot client t) {e : Int}
    (hStamped : Stamped host client e) {packets : List PeerPacket}
    (hTick : peerTick host e = .ok (kitOk, packets, host'))
    (hSize : (host'.queue.length : Int) ≤ int64Max)
    (hDue : Due host'.queue (slot.tickClock e)) : CatchesUp host' client t packets := by
  have hWire : WireHost host := hReach.invariant
    (fun _ _ _ hInv hOk hMay => by
      obtain ⟨s, ps, hAct⟩ := Peer.step_eq_ok.mp hOk
      exact hInv.act hMay hAct) (wireHost_peerInit rng)
  have hWire' : WireHost host' := hWire.act (a := .tick e) ⟨trivial, hSize, Or.inl rfl⟩ hTick
  have hValid := validElapsed_of_kitOk hTick
  have hTicked := hWire.toHostInv.ticked hValid hTick
  have hFinal := log_of_ticked hTicked
  have hPackets := peerTick_hostPackets hWire.toHostInv hWire.small hTick
  -- a ready slot is not the listening slot
  have hj : 1 ≤ j := by
    by_contra hZero
    obtain rfl : j = 0 := by omega
    have hEmpty := hWire.listening slot h.hostSlot
    rw [h.ready] at hEmpty
    cases hEmpty
  have hSends := (hWire.toHostSendInv.sends hWire.small hValid hTick).2
  obtain ⟨slot', ps, _, hMem, hSend⟩ := hSends.toSlot j slot hj h.hostSlot
  intro given hGiven hAll
  obtain ⟨client', hInput, hFollows, hLearns, hTaken⟩ :=
    (h.follows hStamped hTicked).input hWire'.wire fun p hp => hPackets p (hGiven p hp)
  -- the entries that go out fill their indices
  have hCovered (k : Nat) (hk : k < host'.log.length)
      (hRange : slot.outIndex ≤ k + peerTrailSerialSize ∨
        slot.outIndex < peerTrailSerialSize + peerTrailScatterDistance) :
      GapLog.Filled (entries client'.queue) k := by
    obtain ⟨a, ha⟩ : ∃ a, host'.log[k]? = some a := ⟨_, List.getElem?_eq_getElem hk⟩
    have hm := hWire'.toHostInv.getElem?_of_log ha
    obtain ⟨p, hp, cs, hSealed, hChunk⟩ := hSend.covers (by simpa using h.ready)
      (by simpa [Due] using hDue) hm (by simpa using hRange)
    simp only [merged_localEnd, tickClock_localEnd, merged_remoteEnd, tickClock_remoteEnd] at hSealed
    have hForClient : p ∈ given := hAll p (hMem p hp) (by rw [hSealed.destinationId, h.localEnd])
    obtain ⟨i, hi⟩ := List.mem_iff_getElem?.mp h.mem
    have hMatch : Matches client i p := by
      refine ⟨t, hi, ?_⟩
      simp [PeerSlot.matchesPacket, hSealed.destinationId, hSealed.sourceId, h.localEnd, h.remote]
    exact hTaken p hForClient i cs hMatch hSealed.yields _ hChunk _ k
      (readHeader_entry hWire'.wire ha) (show peerMessageModeApplication ≠ _ by decide) rfl
  have hFull : ∀ k, k < host'.log.length → GapLog.Filled (entries client'.queue) k := by
    intro k hk
    rcases h.gaps with ⟨n, hn, hHeld⟩ | hLow
    · rcases Nat.lt_or_ge k n with hLt | hGe
      · exact hLearns.filled k (filled_entries_iff.mpr (hHeld k hLt))
      · exact hCovered k hk (Or.inl (by omega))
    · exact hCovered k hk (Or.inr hLow)
  have hQueue : client'.queue = host'.queue :=
    queue_eq_of_entries hWire'.toHostInv hFinal (hFollows.agrees.eq_of_full hFull)
  refine ⟨client', hInput, hQueue, ?_⟩
  rw [hQueue]
  exact fun m hm => (hWire'.entry m hm).ready

-- ---------------------------------------------------------------------------
-- Two runs
-- ---------------------------------------------------------------------------

/-- A host that listens at id 1, with a session of the client of id 3 at id 2. -/
def sessionActions : List PeerAction :=
  [.openSlots (some [1, 2]),
   .setAddress 1 oneByte (byteAddress 2),
   .input [PeerPacket.blank 3 1], .tick 0]

/-- The client of id 3 in that session, with the given mutual queue: what it has
received is left to each run. -/
def sessionClient (queue : PeerQueue) : Peer :=
  { connectedClient 3 2 .reliable ⟨fun _ => 0⟩ with queue := queue }

/-- The client's slot, with its own id and that of the host's slot. -/
def sessionEnd : PeerSlot :=
  { openSlot .client 0 3 with
    remoteEnd := { PeerEndpoint.ofId peerUndefined false with id := 2, isIdResolved := true } }

/-- What a run leaves: the session, how many entries were sent in it, and the queue. -/
def inSession (sent : Nat) (queue : PeerQueue) (host : Peer) : Bool :=
  match host.slots[1]? with
  | some slot => decide (slot.state = .ready ∧ slot.localEnd.id = 2 ∧ slot.remoteEnd.id = 3 ∧
      slot.outIndex = sent ∧ host.queue = queue)
  | none => false

/-- A client that holds some of the entries is behind the host in that session,
whichever of them it holds and wherever its gaps are; nothing about the packets that
brought them matters. -/
theorem behind_of_inSession {sent : Nat} {queue held : PeerQueue} {host : Peer}
    (h : inSession sent queue host = true) (hSent : sent < 105) (hLen : held.length ≤ queue.length)
    (hHeld : ∀ (i : Nat) (m : PeerMessage), held[i]? = some m → m.isReady = true →
      queue[i]? = some m) :
    ∃ slot, Behind host 1 slot (sessionClient held) sessionEnd ∧ slot.outIndex = sent := by
  unfold inSession at h
  cases hSlot : host.slots[1]? with
  | none => simp [hSlot] at h
  | some slot =>
    rw [hSlot] at h
    obtain ⟨hReady, hLocal, hRemote, hOut, hHost⟩ := of_decide_eq_true h
    subst hHost
    refine ⟨slot, ⟨hSlot, hReady, rfl, rfl, List.mem_singleton.mpr rfl, ?_, ?_, hLen, hHeld, ?_⟩, hOut⟩
    · rw [hLocal]
      rfl
    · rw [hRemote]
      rfl
    · exact Or.inr (hOut ▸ hSent)

/-- The host's tick of 5 sends, and leaves that many messages. -/
def sendsUpTo (size : Nat) (host : Peer) : Bool :=
  match peerTick host 5 with
  | .ok (s, _, host') => decide (s = kitOk ∧ host'.queue.length = size)
  | .error _ => false

/-- A client that is given what the tick sends has another mutual queue than the host. -/
def differsAfter (host client : Peer) : Bool :=
  match peerTick host 5 with
  | .ok (_, packets, host') =>
    match peerInput client packets with
    | .ok (_, client') => decide (client'.queue ≠ host'.queue)
    | .error _ => false
  | .error _ => false

/-- Such a tick as a result, for the theorem. -/
theorem tick_of_sendsUpTo {size : Nat} {host : Peer} (h : sendsUpTo size host = true) :
    ∃ packets host', peerTick host 5 = .ok (kitOk, packets, host') ∧ host'.queue.length = size := by
  unfold sendsUpTo at h
  split at h
  · next s packets host' hTick =>
    obtain ⟨rfl, hLen⟩ := of_decide_eq_true h
    exact ⟨packets, host', hTick, hLen⟩
  · cases h

/-- With a message that was not sent yet, it is the slot's turn, whatever its clock
says. -/
theorem due_of_lt {queue : PeerQueue} {slot : PeerSlot} (hNew : slot.outIndex < queue.length)
    (e : Int) : Due queue (slot.tickClock e) := by
  left
  rwa [tickClock_outIndex]

/-- The message of 200 bytes, so that each one takes a packet of its own. -/
def longEntry (b : UInt8) : PeerMessage := ⟨true, 0, 0, List.replicate 200 b⟩

/-- Three such messages, of which the first two were sent in a tick each. -/
def longActions : List PeerAction :=
  sessionActions ++ [.queue (some (List.replicate 200 7)), .tick 0,
    .queue (some (List.replicate 200 8)), .tick 0, .queue (some (List.replicate 200 9))]

/-- The first tick's packet was lost, and of the second one's two the one with its
trail: the client holds the second message behind a hole. The trail of the next tick
brings the first one, with the third, and the mutual queue is whole. -/
theorem catchesUp_hole :
    ∃ host host' packets slot, host.slots[1]? = some slot ∧ slot.outIndex = 2 ∧
      peerTick host 5 = .ok (kitOk, packets, host') ∧ host'.queue.length = 3 ∧
      CatchesUp host' (sessionClient [PeerMessage.zero, longEntry 8]) sessionEnd packets := by
  obtain ⟨host, hReach, hTest⟩ : ∃ host, Reaches Peer.step (fun _ a host' => HostMay a host')
      (peerInit .host .reliable ⟨fun _ => 0⟩) host ∧
        (inSession 2 [longEntry 7, longEntry 8, longEntry 9] host && (sendsUpTo 3 host &&
          decide (host.queueIndex = 2))) = true :=
    exists_reaches_of_runGuarded (fun _ a host' => decide (HostMay a host'))
      (fun _ _ _ h => of_decide_eq_true h) longActions _
      (fun host => inSession 2 [longEntry 7, longEntry 8, longEntry 9] host && (sendsUpTo 3 host &&
        decide (host.queueIndex = 2))) (by decide +kernel)
  rw [Bool.and_eq_true, Bool.and_eq_true, decide_eq_true_eq] at hTest
  obtain ⟨hSession, hSends, hStampedTo⟩ := hTest
  obtain ⟨packets, host', hTick, hLen⟩ := tick_of_sendsUpTo hSends
  -- of the two places the client has, the first is the hole
  have hHeld : ∀ (i : Nat) (m : PeerMessage), [PeerMessage.zero, longEntry 8][i]? = some m →
      m.isReady = true → [longEntry 7, longEntry 8, longEntry 9][i]? = some m := by
    rintro (_ | _ | i) m hm hReady
    · rw [← Option.some.inj hm] at hReady
      cases hReady
    · exact hm
    · simp at hm
  obtain ⟨slot, hBehind, hOut⟩ := behind_of_inSession hSession (by decide) (by decide) hHeld
  refine ⟨host, host', packets, slot, hBehind.hostSlot, hOut, hTick, hLen,
    catchesUp hReach hBehind (fun i m hm _ => Or.inl ?_) hTick (by rw [hLen]; decide)
      (due_of_lt (by omega) 5)⟩
  have hLt : i < 2 := (List.getElem?_eq_some_iff.mp hm).1
  omega

/-- The session, and a message that the host has queued and not stamped yet. -/
def unstampedActions : List PeerAction := sessionActions ++ [.queue (some [7])]

/-- A client that holds the message as it was before the tick stamped it keeps that:
the host's tick sends the stamped one at the same index, and the client's entry is
ready already, so the insertion leaves it. -/
theorem not_catchesUp :
    ¬ ∀ (rng : Mt64) (host host' client : Peer) (j : Nat) (slot t : PeerSlot) (e : Int)
      (packets : List PeerPacket),
      Reaches Peer.step (fun _ a host' => HostMay a host') (peerInit .host .reliable rng) host →
      Behind host j slot client t → peerTick host e = .ok (kitOk, packets, host') →
      (host'.queue.length : Int) ≤ int64Max → Due host'.queue (slot.tickClock e) →
      CatchesUp host' client t packets := by
  intro hAll
  obtain ⟨host, hReach, hTest⟩ : ∃ host, Reaches Peer.step (fun _ a host' => HostMay a host')
      (peerInit .host .reliable ⟨fun _ => 0⟩) host ∧ (inSession 0 [⟨true, 0, 0, [7]⟩] host &&
        (sendsUpTo 1 host && differsAfter host (sessionClient [⟨true, 0, 0, [7]⟩]))) = true :=
    exists_reaches_of_runGuarded (fun _ a host' => decide (HostMay a host'))
      (fun _ _ _ h => of_decide_eq_true h) unstampedActions _
      (fun host => inSession 0 [⟨true, 0, 0, [7]⟩] host && (sendsUpTo 1 host &&
        differsAfter host (sessionClient [⟨true, 0, 0, [7]⟩]))) (by decide +kernel)
  rw [Bool.and_eq_true, Bool.and_eq_true] at hTest
  obtain ⟨packets, host', hTick, hLen⟩ := tick_of_sendsUpTo hTest.2.1
  obtain ⟨slot, hBehind, hOut⟩ := behind_of_inSession hTest.1 (by decide)
    (Nat.le_refl _) fun _ _ hm _ => hm
  obtain ⟨client', hInput, hQueue, _⟩ := hAll _ host host' _ 1 slot sessionEnd 5 packets hReach
    hBehind hTick (by rw [hLen]; decide) (due_of_lt (by omega) 5) packets (fun _ hp => hp)
    (fun _ hp _ => hp)
  -- the client has got all packets, and its queue differs
  have hDiffers := hTest.2.2
  simp only [differsAfter, hTick, hInput, hQueue] at hDiffers
  simp at hDiffers

end PeerProtocol
