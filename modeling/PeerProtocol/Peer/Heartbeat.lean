import PeerProtocol.Peer.Emission
import PeerProtocol.Peer.Log

/-!
# peer — the heartbeat of a host

A host sends to a ready slot in every tick that has new messages for it, and
otherwise once `peerTimeoutHeartbeat` has passed since it last sent it
anything. The source counts that time down in a clock of the slot, which stops
where it is not positive any more and is started again in three branches of
the tick: after a session response, after new messages, and after a heartbeat.

To say what the clock is for, a run carries the time itself: `Watched` is a
host with, for each slot, the sum of the elapsed times since its last turn
that had packets, or nothing while there was none. The source has no such
counter. The invariant `Paced` relates the two: between ticks the clock of a
ready slot runs, and shows what is left of the timeout. A tick takes the
elapsed time off it, and where it is not positive after that, the slot has its
turn in the same tick.

What goes out in the turn of a slot is told apart from the rest of the tick by
running the loop up to the slot, and one slot further (`Peer.turn`).

## Results

* `Peer.turn`, `sendSlots_turn`, `HostSendInv.turn` — the packets that a tick
  sends in the turn of one slot, and their place among all packets of the
  tick.
* `SlotSends.clock`, `SlotSends.ne_nil_iff` — what a turn does to the clock,
  and when it has packets.
* `WatchedInv.step` — every action keeps the slots paced.
* `heartbeat_iff` — when a tick sends to a ready slot, in any run.
-/

namespace PeerProtocol

open Lib

-- ---------------------------------------------------------------------------
-- Turns
-- ---------------------------------------------------------------------------

/-- The packets that there are after the loop over some slots. -/
def sentPackets (listenId time actor : Int) (queue : PeerQueue) (slots : List PeerSlot)
    (out : TickOutput) : Except Fault (List PeerPacket) := do
  let (_, out) ← sendSlots listenId time actor queue slots out
  return out.packets

/-- The packets of a host's tick when the loop over its slots comes to the slot
at position `j`. -/
def Peer.packetsBefore (peer : Peer) (e : Int) (j : Nat) : Except Fault (List PeerPacket) :=
  let (status, host) := hostMerge (peer.tickClock e)
  sentPackets host.listenId host.time host.actor host.queue (host.slots.tail.take (j - 1))
    { status, packets := [], mt64 := host.mt64, alloc := host.alloc }

/-- What a host's tick sends from the slot at position `j`: the packets that are
there after its turn, without those that were there before. -/
def Peer.turn (peer : Peer) (e : Int) (j : Nat) : Except Fault (List PeerPacket) := do
  let before ← peer.packetsBefore e j
  let after ← peer.packetsBefore e (j + 1)
  return after.drop before.length

theorem sentPackets_nil (listenId time actor : Int) (queue : PeerQueue) (out : TickOutput) :
    sentPackets listenId time actor queue [] out = .ok out.packets := rfl

/-- The first slot sends, then the others. -/
theorem sentPackets_cons {listenId time actor : Int} {queue : PeerQueue} {slot slot' : PeerSlot}
    {out out' : TickOutput}
    (h : sendSlot listenId time actor queue slot out = .ok (slot', out')) (slots : List PeerSlot) :
    sentPackets listenId time actor queue (slot :: slots) out =
      sentPackets listenId time actor queue slots out' := by
  unfold sentPackets
  rw [sendSlots, h, ok_bind]
  dsimp only
  cases sendSlots listenId time actor queue slots out' <;> rfl

/-- The loop over the slots, seen from one of them: packets before its turn, in it,
and after. What goes out in the turn is the difference of two prefixes of the loop,
which is how the statement about turns is phrased. -/
theorem sendSlots_turn {queue : PeerQueue} {slots : List PeerSlot} {i : Nat} {slot : PeerSlot}
    (hSlot : slots[i]? = some slot) (hCursor : ∀ slot ∈ slots, slot.outIndex ≤ queue.length)
    (hAddress : ∀ slot ∈ slots, slot.localEnd.AddressFits) (hSmall : ∀ m ∈ queue, m.Small)
    (listenId time actor : Int) {out : TickOutput} (hAlloc : out.alloc = .reliable) :
    ∃ before ps after slots' slot' rng,
      sentPackets listenId time actor queue (slots.take i) out = .ok (out.packets ++ before) ∧
      sentPackets listenId time actor queue (slots.take (i + 1)) out =
        .ok (out.packets ++ before ++ ps) ∧
      sendSlots listenId time actor queue slots out =
        .ok (slots', { out with packets := out.packets ++ before ++ ps ++ after, mt64 := rng }) ∧
      slots'[i]? = some slot' ∧ slots'.length = slots.length ∧
      SlotSends listenId time actor queue slot slot' ps := by
  induction slots generalizing i out with
  | nil => cases hSlot
  | cons first rest ih =>
    obtain ⟨first', ps, rng, hFirst, hSends⟩ := sendSlot_sends (hCursor first (List.mem_cons_self ..))
      (hAddress first (List.mem_cons_self ..)) hSmall listenId time actor hAlloc
    have hCursor' := fun s hs => hCursor s (List.mem_cons_of_mem _ hs)
    have hAddress' := fun s hs => hAddress s (List.mem_cons_of_mem _ hs)
    cases i with
    | zero =>
      obtain rfl : first = slot := by simpa using hSlot
      -- its turn is the first one, and the others only append
      obtain ⟨sent, rng', hRest, hAll⟩ := sendSlots_sends hCursor' hAddress' hSmall listenId time actor
        { out with packets := out.packets ++ ps, mt64 := rng } hAlloc
      refine ⟨[], ps, (sent.map Prod.snd).flatten, first' :: sent.map Prod.fst, first', rng', ?_, ?_, ?_,
        rfl, ?_, hSends⟩
      · rw [List.take_zero, sentPackets_nil, List.append_nil]
      · rw [List.take_succ_cons, List.take_zero, sentPackets_cons hFirst, sentPackets_nil,
          List.append_nil]
      · rw [sendSlots, hFirst, ok_bind]
        dsimp only
        rw [hRest, List.append_nil]
        rfl
      · rw [List.length_cons, List.length_map, ← hAll.length_eq, List.length_cons]
    | succ i =>
      -- the first slot's packets come before those of the slots that precede it in the rest
      obtain ⟨before, ps', after, slots', slot', rng', hTake, hTake', hRest, hSlot', hLen, hSends'⟩ :=
        ih (by simpa using hSlot) hCursor' hAddress'
          (show ({ out with packets := out.packets ++ ps, mt64 := rng } : TickOutput).alloc = _
            from hAlloc)
      refine ⟨ps ++ before, ps', after, first' :: slots', slot', rng', ?_, ?_, ?_, hSlot', ?_, hSends'⟩
      · rw [List.take_succ_cons, sentPackets_cons hFirst, hTake, List.append_assoc]
      · rw [List.take_succ_cons, sentPackets_cons hFirst, hTake', List.append_assoc out.packets ps]
      · rw [sendSlots, hFirst, ok_bind]
        dsimp only
        rw [hRest, List.append_assoc out.packets ps]
        rfl
      · rw [List.length_cons, hLen, List.length_cons]

/-- What sending to a merged slot asks of its cursor and its address. -/
theorem HostSendInv.mergedSlot {peer : Peer} (h : HostSendInv peer) {e : Int} {slot' : PeerSlot}
    (hSlot' : slot' ∈ (peer.tickClock e).merged.slots.tail) :
    slot'.outIndex ≤ (peer.tickClock e).merged.queue.length ∧ slot'.localEnd.AddressFits := by
  obtain ⟨slot, hSlot, hOut, hLocal⟩ := exists_slot_of_mem_merged hSlot'
  rw [hOut, hLocal]
  exact ⟨Nat.le_trans (h.slot slot hSlot).cursor (length_le_merged peer e), (h.slot slot hSlot).address⟩

/-- **The turn of a slot** in a tick: its packets stand in a row among those of
the tick, and are what `SlotSends` says. -/
theorem HostSendInv.turn {peer : Peer} (h : HostSendInv peer) (hSmall : ∀ m ∈ peer.queue, m.Small)
    {e : Int} (hValid : ValidElapsed peer e) {j : Nat} (hj : 1 ≤ j) {slot : PeerSlot}
    (hSlot : peer.slots[j]? = some slot) :
    ∃ before ps after peer' slot',
      peerTick peer e = .ok (kitOk, before ++ ps ++ after, peer') ∧ peer.turn e j = .ok ps ∧
      peer'.slots[j]? = some slot' ∧
      SlotSends peer.listenId peer'.time peer'.actor peer'.queue (slot.tickClock e).merged slot' ps := by
  have hMerged := merged_slots_getElem? peer e hj
  rw [hSlot, Option.map_some] at hMerged
  obtain ⟨before, ps, after, slots', slot', rng, hTake, hTake', hSend, hSlot', hLen, hSends⟩ :=
    sendSlots_turn hMerged (fun s hs => (h.mergedSlot hs).1) (fun s hs => (h.mergedSlot hs).2)
      (h.small_merged.mpr hSmall) peer.listenId (peer.tickClock e).merged.time peer.actor
      (show ({ status := kitOk, packets := [], mt64 := peer.mt64, alloc := peer.alloc } :
        TickOutput).alloc = _ from h.alloc)
  -- clock and merge leave what the sending reads of the listening slot
  have hListen : (peer.tickClock e).merged.listenId = peer.listenId := listenId_merged peer e
  have hMerge : hostMerge (peer.tickClock e) = (kitOk, (peer.tickClock e).merged) :=
    hostMerge_reliable (show (peer.tickClock e).alloc = _ from h.alloc)
  refine ⟨before, ps, after, { (peer.tickClock e).merged with
    slots := (peer.tickClock e).merged.slots.take 1 ++ slots', mt64 := rng }, slot', ?_, ?_, ?_, hSends⟩
  · rw [peerTick_host_eq hValid h.mode, hMerge, hostSend_eq, listenId_merged]
    have hArgs : (peer.tickClock e).merged.actor = peer.actor ∧
        (peer.tickClock e).merged.mt64 = peer.mt64 ∧
        (peer.tickClock e).merged.alloc = peer.alloc := ⟨rfl, rfl, rfl⟩
    rw [hArgs.1, hArgs.2.1, hArgs.2.2, hSend, ok_bind, ok_bind]
    rfl
  · have hStart (k : Nat) : peer.packetsBefore e k = sentPackets peer.listenId
        (peer.tickClock e).merged.time peer.actor (peer.tickClock e).merged.queue
        ((peer.tickClock e).merged.slots.tail.take (k - 1))
        { status := kitOk, packets := [], mt64 := peer.mt64, alloc := peer.alloc } := by
      unfold Peer.packetsBefore
      rw [hMerge]
      dsimp only
      rw [hListen]
      rfl
    -- the packets of a turn are those sent before the next slot, without those before this one
    have hNext : j + 1 - 1 = j - 1 + 1 := by omega
    rw [Peer.turn, hStart, hTake, ok_bind, hStart, hNext, hTake', ok_bind, List.nil_append,
      List.drop_left]
    rfl
  · dsimp only
    rw [getElem?_head_append hLen hj, hSlot']

-- ---------------------------------------------------------------------------
-- The clock of a slot
-- ---------------------------------------------------------------------------

theorem Carried.ne_nil {src dst : Int} {ps : List PeerPacket} {cs : List Chunk}
    (h : Carried src dst ps cs) (hNe : cs ≠ []) : ps ≠ [] := by
  obtain ⟨c, hc⟩ := List.exists_mem_of_ne_nil cs hNe
  obtain ⟨p, hp, _⟩ := h.exists_packet hc
  exact List.ne_nil_of_mem hp

section

variable {listenId time actor : Int} {queue : PeerQueue} {slot slot' : PeerSlot}
  {ps : List PeerPacket}

/-- A turn with packets starts the clock, and one without leaves the slot as it is. -/
theorem SlotSends.clock (h : SlotSends listenId time actor queue slot slot' ps) :
    (ps ≠ [] ∧ slot'.clockHeartbeat = peerTimeoutHeartbeat) ∨
      (ps = [] ∧ slot' = slot ∧ (slot.state = .ready → 0 < slot.clockHeartbeat)) := by
  cases h with
  | idle hIdle =>
    refine Or.inr ⟨rfl, rfl, fun hReady => ?_⟩
    rcases hIdle with hEmpty | ⟨_, _, hRuns⟩
    · rw [hReady] at hEmpty
      cases hEmpty
    · exact hRuns
  | response _ hCarried => exact Or.inl ⟨hCarried.ne_nil (List.cons_ne_nil _ _), rfl⟩
  | messages rng _ hNew hCarried => exact Or.inl ⟨hCarried.ne_nil (packIndices_ne_nil hNew rng), rfl⟩
  | heartbeat _ _ _ _ hCarried => exact Or.inl ⟨hCarried.ne_nil (List.cons_ne_nil _ _), rfl⟩

/-- A ready slot is sent something exactly if there are new messages or its
clock has run down. -/
theorem SlotSends.ne_nil_iff (h : SlotSends listenId time actor queue slot slot' ps)
    (hReady : slot.state = .ready) :
    ps ≠ [] ↔ slot.outIndex < queue.length ∨ slot.clockHeartbeat ≤ 0 := by
  cases h with
  | idle hIdle =>
    rw [hReady] at hIdle
    obtain ⟨_, hNone, hRuns⟩ := hIdle.resolve_left (by decide)
    exact ⟨fun hNe => absurd rfl hNe, fun hDue => by omega⟩
  | response hState => rw [hReady] at hState; cases hState
  | messages rng _ hNew hCarried =>
    exact ⟨fun _ => Or.inl hNew, fun _ => hCarried.ne_nil (packIndices_ne_nil hNew rng)⟩
  | heartbeat _ _ _ hClock hCarried =>
    exact ⟨fun _ => Or.inr hClock, fun _ => hCarried.ne_nil (List.cons_ne_nil _ _)⟩

/-- What a ready slot is sent comes from its local id, and goes to its remote id. -/
theorem SlotSends.between (h : SlotSends listenId time actor queue slot slot' ps)
    (hReady : slot.state = .ready) : Between slot.localEnd.id slot.remoteEnd.id ps := by
  cases h with
  | idle => exact between_nil
  | response hState => rw [hReady] at hState; cases hState
  | messages _ _ _ hCarried => exact hCarried.between
  | heartbeat _ _ _ _ hCarried => exact hCarried.between

/-- A clock that runs goes down by the time that elapses, also below zero. -/
theorem clockHeartbeat_tickClock (hRuns : 0 < slot.clockHeartbeat) (e : Int) :
    (slot.tickClock e).clockHeartbeat = slot.clockHeartbeat - e := by
  rw [PeerSlot.tickClock, if_pos hRuns]

end

-- ---------------------------------------------------------------------------
-- Watching the turns
-- ---------------------------------------------------------------------------

/-- A host, and for each position of a slot the time that has elapsed since the
tick that last sent something in that slot's turn, if there was one. -/
structure Watched where
  peer : Peer
  since : Nat → Option Int

/-- A new host has had no turns. -/
def Watched.start (rng : Mt64) : Watched where
  peer := peerInit .host .reliable rng
  since := fun _ => none

/-- The time since the last turn with packets, after an action: such a turn sets it
to zero, and any other tick adds to it. -/
def Watched.sinceAfter (w : Watched) : PeerAction → Nat → Option Int
  | .tick e, j =>
    match w.peer.turn e j with
    | .ok (_ :: _) => some 0
    | _ => (w.since j).map (· + e)
  | _, j => w.since j

/-- One action of the host, and the sums behind it. -/
def Watched.step (w : Watched) (a : PeerAction) : Except Fault Watched := do
  let peer ← w.peer.step a
  return { peer, since := w.sinceAfter a }

/-- Messages fit packets, and ticks are for times that `peer_tick` accepts. -/
def HeartbeatMove (w : Watched) (a : PeerAction) (_ : Watched) : Prop :=
  a.QueuesSmall ∧ ∀ e, a = .tick e → ValidElapsed w.peer e

/-- The clock of a ready slot runs, and shows what is left of the timeout since its
last turn with packets. Every ready slot has had one: the session response is its
first. -/
def Paced (since : Option Int) (slot : PeerSlot) : Prop :=
  slot.state = .ready → ∃ total, since = some total ∧
    slot.clockHeartbeat = peerTimeoutHeartbeat - total ∧ 0 < slot.clockHeartbeat

/-- A host whose messages fit packets, with slots that are all paced. Without the
first a tick could stop before it sends what is due, and its clock would say
otherwise. -/
structure WatchedInv (w : Watched) : Prop extends HostInv w.peer where
  small : ∀ m ∈ w.peer.queue, m.Small
  paced : ∀ j slot, w.peer.slots[j]? = some slot → Paced (w.since j) slot

theorem watchedInv_start (rng : Mt64) : WatchedInv (Watched.start rng) where
  toHostInv := hostInv_peerInit rng
  small := by simp [Watched.start, peerInit]
  paced := by simp [Watched.start, peerInit]

/-- The tick of a host keeps its slots paced: a turn with packets starts the clock
and the sum together, and any other takes the same elapsed time off the one and adds
it to the other. -/
theorem WatchedInv.paced_tick {w : Watched} {peer' : Peer} {e : Int} {s : Status}
    {packets : List PeerPacket} (h : WatchedInv w) (hValid : ValidElapsed w.peer e)
    (hTick : peerTick w.peer e = .ok (s, packets, peer')) :
    ∀ j slot, peer'.slots[j]? = some slot → Paced (w.sinceAfter (.tick e) j) slot := by
  intro j slot' hSlot' hReady
  have hTicked := h.ticked hValid hTick
  have hInv := h.toHostInv.tick hTick
  rcases Nat.eq_zero_or_pos j with rfl | hj
  · -- the listening slot is never ready
    rw [hInv.listening slot' hSlot'] at hReady
    cases hReady
  obtain ⟨slot, hSlot⟩ : ∃ slot, w.peer.slots[j]? = some slot :=
    ⟨_, List.getElem?_eq_getElem (by
      rw [← hTicked.length]
      exact (List.getElem?_eq_some_iff.mp hSlot').1)⟩
  obtain ⟨before, ps, after, peer1, slot1, hTick1, hTurn, hSlot1, hSends⟩ :=
    h.toHostSendInv.turn h.small hValid hj hSlot
  obtain ⟨_, _, rfl⟩ : _ ∧ _ ∧ peer1 = peer' := by simpa [hTick1] using hTick
  obtain rfl : slot1 = slot' := by
    rw [hSlot1] at hSlot'
    exact Option.some.inj hSlot'
  simp only [Watched.sinceAfter, hTurn]
  rcases hSends.clock with ⟨hNe, hClock⟩ | ⟨rfl, rfl, hRuns⟩
  · obtain ⟨p, ps, rfl⟩ := List.exists_cons_of_ne_nil hNe
    exact ⟨0, rfl, hClock, by rw [hClock]; decide⟩
  · -- an idle turn: the clock has gone on, and is still positive
    rw [merged_state, tickClock_state] at hReady
    obtain ⟨total, hSince, hClock, hOld⟩ := h.paced j slot hSlot hReady
    refine ⟨total + e, ?_, ?_, hRuns (by rw [merged_state, tickClock_state, hReady])⟩
    · rw [hSince]
      rfl
    · rw [merged_clock, clockHeartbeat_tickClock hOld, hClock]
      omega

/-- **Step lemma**: every action keeps the slots paced. Only a tick moves clocks,
and for each slot it does so by the elapsed time, or by starting the clock again. -/
theorem WatchedInv.step {w w' : Watched} {a : PeerAction} (h : WatchedInv w)
    (hMove : HeartbeatMove w a w') (hStep : w.step a = .ok w') : WatchedInv w' := by
  obtain ⟨peer', hAct, hw'⟩ := bind_eq_ok.mp hStep
  obtain rfl := Except.ok.inj hw'
  obtain ⟨s, ps, hAct⟩ := Peer.step_eq_ok.mp hAct
  have hCase := Peer.act_cases hAct
  refine ⟨h.toHostInv.act hAct, h.toHostInv.small_act hMove.1 h.small hAct, ?_⟩
  cases a with
  | openSlots ids =>
    obtain ⟨_, rfl⟩ := hCase
    rw [peerOpen_reliable h.alloc]
    exact slots_open h.paced fun _ _ _ _ _ hReady => by cases hReady
  | queue messageData =>
    obtain ⟨_, rfl⟩ := hCase
    cases messageData with
    | none => exact h.paced
    | some data =>
      rw [peerQueue_host h.mode h.alloc]
      exact h.paced
  | input packets =>
    -- input leaves the clocks of the ready slots, and makes no slot ready
    exact slots_input h.paced h.mode (fun _ _ _ _ _ _ hPaced => hPaced)
      (fun _ _ _ _ _ _ _ hReady => by cases hReady) hCase.2
  | tick e => exact h.paced_tick (hMove.2 e rfl) hCase
  | connect serverId =>
    obtain ⟨_, rfl⟩ := hCase
    obtain ⟨i, hConnect⟩ := peerConnect_modifies w.peer serverId
    rw [hConnect]
    exact slots_modify h.paced _ fun _ _ hPaced => hPaced
  | setAddress j size data =>
    obtain ⟨_, rfl⟩ := hCase
    exact slots_modify h.paced j fun _ _ hPaced => hPaced
  | resolve j id =>
    obtain ⟨_, rfl⟩ := hCase
    exact slots_modify h.paced j fun _ _ hPaced => hPaced

/-- **The heartbeat schedule of a host.** In every state that a run without
allocation failures reaches, whatever it receives and whenever it ticks, the
next tick sends something in the turn of a ready slot, from its local id to its
remote id, exactly if the merged queue has messages that are new to the slot, or
the timeout has elapsed since the tick that last sent it anything. -/
theorem heartbeat_iff {rng : Mt64} {w : Watched}
    (hReach : Reaches Watched.step HeartbeatMove (Watched.start rng) w)
    {j : Nat} {slot : PeerSlot} (hSlot : w.peer.slots[j]? = some slot) (hReady : slot.state = .ready)
    {e : Int} (hValid : ValidElapsed w.peer e) :
    ∃ before ps after peer' total,
      peerTick w.peer e = .ok (kitOk, before ++ ps ++ after, peer') ∧
      w.peer.turn e j = .ok ps ∧
      (∀ p ∈ ps, p.sourceId = slot.localEnd.id ∧ p.destinationId = slot.remoteEnd.id) ∧
      w.since j = some total ∧
      (ps ≠ [] ↔ slot.outIndex < (hostMerge (w.peer.tickClock e)).2.queue.length ∨
        peerTimeoutHeartbeat ≤ total + e) := by
  have h : WatchedInv w :=
    hReach.invariant (fun _ _ _ hInv hStep hMove => hInv.step hMove hStep) (watchedInv_start rng)
  -- the listening slot is never ready
  have hj : 1 ≤ j := by
    rcases Nat.eq_zero_or_pos j with rfl | hj
    · rw [h.listening slot hSlot] at hReady
      cases hReady
    · exact hj
  obtain ⟨total, hSince, hClock, hRuns⟩ := h.paced j slot hSlot hReady
  obtain ⟨before, ps, after, peer', slot', hTick, hTurn, _, hSends⟩ :=
    h.toHostSendInv.turn h.small hValid hj hSlot
  have hState : (slot.tickClock e).merged.state = .ready := by
    rw [merged_state, tickClock_state, hReady]
  refine ⟨before, ps, after, peer', total, hTick, hTurn, ?_, hSince, ?_⟩
  · have hBetween := hSends.between hState
    rwa [merged_localEnd, tickClock_localEnd, merged_remoteEnd, tickClock_remoteEnd] at hBetween
  · have hMerge : hostMerge (w.peer.tickClock e) = (kitOk, (w.peer.tickClock e).merged) :=
      hostMerge_reliable (show (w.peer.tickClock e).alloc = _ from h.alloc)
    have hIff := hSends.ne_nil_iff hState
    rw [(h.ticked hValid hTick).queue, merged_outIndex, tickClock_outIndex, merged_clock,
      clockHeartbeat_tickClock hRuns, hClock] at hIff
    rw [hIff, hMerge]
    -- the clock has run down exactly if the timeout has elapsed
    exact or_congr Iff.rfl (by omega)

/-- The same conditions as a test, for a concrete run. -/
def isHeartbeatMove (w : Watched) (a : PeerAction) (_ : Watched) : Bool :=
  match a with
  | .tick e => decide (ValidElapsed w.peer e)
  | a => decide a.QueuesSmall

theorem heartbeatMove_of_isHeartbeatMove (w : Watched) (a : PeerAction) (w' : Watched)
    (h : isHeartbeatMove w a w' = true) : HeartbeatMove w a w' := by
  cases a with
  | tick e =>
    have hValid : ValidElapsed w.peer e := of_decide_eq_true h
    refine ⟨trivial, fun e' hTick => ?_⟩
    obtain rfl := PeerAction.tick.inj hTick
    exact hValid
  | _ => exact ⟨of_decide_eq_true h, fun _ hTick => by cases hTick⟩

/-- A host that answers a session request, and then ticks for four milliseconds. -/
def quietRun : List PeerAction :=
  [.openSlots (some [1, 2]), .setAddress 1 oneByte (byteAddress 2), .input [PeerPacket.blank 3 1],
   .tick 0, .tick 4]

/-- Six milliseconds later its client gets a heartbeat: the sum stands at four, and
with the six it reaches the timeout of ten. -/
theorem heartbeat_iff_quiet :
    ∃ w before ps after peer',
      Reaches Watched.step HeartbeatMove (Watched.start ⟨fun _ => 0⟩) w ∧ w.since 1 = some 4 ∧
      peerTick w.peer 6 = .ok (kitOk, before ++ ps ++ after, peer') ∧ w.peer.turn 6 1 = .ok ps ∧
      ps ≠ [] := by
  obtain ⟨w, hReach, hTest⟩ :
      ∃ w, Reaches Watched.step HeartbeatMove (Watched.start ⟨fun _ => 0⟩) w ∧
        decide (w.peer.slots.map (·.state) = [.empty, .ready] ∧ w.since 1 = some 4 ∧
          w.peer.timeLocal = 4) = true :=
    exists_reaches_of_runGuarded isHeartbeatMove heartbeatMove_of_isHeartbeatMove quietRun _
      (fun w : Watched => decide (w.peer.slots.map (·.state) = [.empty, .ready] ∧
        w.since 1 = some 4 ∧ w.peer.timeLocal = 4)) (by decide +kernel)
  obtain ⟨hStates, hFour, hLocal⟩ := of_decide_eq_true hTest
  have hReady : (w.peer.slots.map (·.state))[1]? = some .ready := by rw [hStates]; rfl
  rw [List.getElem?_map, Option.map_eq_some_iff] at hReady
  obtain ⟨slot, hSlot, hReady⟩ := hReady
  have hValid : ValidElapsed w.peer 6 := ⟨by decide, by rw [hLocal]; decide⟩
  -- The theorem gives the turn and its condition, of which the run has the second half.
  obtain ⟨before, ps, after, peer', total, hTick, hTurn, _, hSince, hIff⟩ :=
    heartbeat_iff hReach hSlot hReady hValid
  obtain rfl : total = 4 := by
    rw [hSince] at hFour
    exact Option.some.inj hFour
  exact ⟨w, before, ps, after, peer', hReach, hFour, hTick, hTurn, hIff.mpr (Or.inr (by decide))⟩

end PeerProtocol
