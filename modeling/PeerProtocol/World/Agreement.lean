import PeerProtocol.Peer.Learn
import PeerProtocol.World.Session

/-!
# peer — agreement on the host's order

The purpose of the whole protocol is that all peers see one list of messages:
the mutual queue of the host, of which every client has a copy with gaps. This
module shows it for a host, any number of clients, and a network between them
that loses, repeats and reorders packets.

The setting is `World` of `Model/World.lean`. The host may be given any
packets whatever, forged ones included; its application queues messages that
fit a packet. A client is given packets that the host has sent to anyone, any
of them, any number of times and in any order, and its application makes the
calls that a client makes. None of them runs out of memory.

* `WireHost` and `Follows` are from `Wire/`: the log of a host can be sent,
  and a client has written into its queue entries of the log only, each at its
  index;
* `Agreement` says the first of the host, the second of each client, and of
  every packet that the host has sent that its chunks carry entries of the
  log. The last is what makes an old packet as good as a new one, since the
  log only grows at its end;
* `Agreement.step` is the step lemma, with a case for each kind of move;
* `agreement_of_reaches` is the run lemma: a client's mutual queue is no
  longer than the host's, each ready entry in it is the host's at the same
  index with the same actor id, time and data, and so any two clients agree.

Modules that need more of a world extend `Agreement`: `World/Downlink.lean` by
what each client was given, `World/Uplink.lean` by what the clients queue.
-/

namespace PeerProtocol

open Lib

-- ---------------------------------------------------------------------------
-- Clients
-- ---------------------------------------------------------------------------

/-- No call of a client's application changes its mutual queue: it opens, connects,
queues into a slot, and ticks. What it sends may repeat entries of the mutual queue,
and takes none of them away. -/
theorem Follows.act {log : List Entry} {client client' : Peer} {a : PeerAction} {s : Status}
    {ps : List PeerPacket} (h : Follows log client) (hCall : a.isClientCall = true)
    (hAct : client.act a = .ok (s, ps, client')) : Follows log client' := by
  have hCase := Peer.act_cases hAct
  cases a with
  | openSlots ids =>
    obtain ⟨_, rfl⟩ := hCase
    rw [peerOpen_reliable h.alloc]
    exact ⟨h.mode, h.alloc, h.agrees⟩
  | connect serverId =>
    obtain ⟨_, rfl⟩ := hCase
    obtain ⟨i, hConnect⟩ := peerConnect_modifies client serverId
    rw [hConnect]
    exact ⟨h.mode, h.alloc, h.agrees⟩
  | queue messageData =>
    obtain ⟨_, rfl⟩ := hCase
    cases messageData with
    | none => exact h
    | some data =>
      cases hSlots : client.slots with
      | nil =>
        simp only [peerQueue, h.mode, hSlots]
        exact h
      | cons slot slots =>
        rw [peerQueue_client h.mode h.alloc hSlots]
        exact ⟨h.mode, h.alloc, h.agrees⟩
  | input packets => cases hCall
  | tick e =>
    -- a client sends from its slot, and never touches the mutual queue
    by_cases hValid : ValidElapsed client e
    · have hTicked := peerTick_client_ticked h.mode h.alloc hValid hCase
      exact ⟨hTicked.mode, hTicked.alloc, by rw [hTicked.queue]; exact h.agrees⟩
    · obtain ⟨_, _, rfl⟩ := eq_of_peerTick_invalid hValid hCase
      exact h
  | setAddress j size data =>
    obtain ⟨_, rfl⟩ := hCase
    exact ⟨h.mode, h.alloc, h.agrees⟩
  | resolve j id =>
    obtain ⟨_, rfl⟩ := hCase
    exact ⟨h.mode, h.alloc, h.agrees⟩

/-- A client that follows a log follows every longer one. -/
theorem Follows.mono {log log' : List Entry} {client : Peer} (h : Follows log client)
    (hPrefix : log <+: log') : Follows log' client :=
  ⟨h.mode, h.alloc, h.agrees.mono hPrefix⟩

-- ---------------------------------------------------------------------------
-- Runs
-- ---------------------------------------------------------------------------

/-- A host and clients that never run out of memory, just after `peer_init`: no
slots, no messages, nothing in flight. Every run of this module and of those that
build on it begins here. -/
def ReliablyInitialized (w : World) : Prop :=
  ∃ rng clients, w = World.start (peerInit .host .reliable rng) clients ∧
    ∀ client ∈ clients, ∃ r, client = peerInit .client .reliable r

/-- The host is given any packets, and messages that fit; the clients are given
packets that the host sent. `HostMay` also bounds what a header field must hold: the
size of the queue, and the actor ids where packets come without a source. -/
def AgreementMove (w : World) (a : WorldAction) (w' : World) : Prop :=
  match a with
  | .host a => HostMay a w'.host
  | .client _ a => a.isClientCall = true
  | .toHost positions => HostMay (.input (delivered w.clientSent positions)) w'.host
  | .toClient _ _ => True

instance (w : World) (a : WorldAction) (w' : World) : Decidable (AgreementMove w a w') :=
  match a with
  | .host a => inferInstanceAs (Decidable (HostMay a w'.host))
  | .client _ a => inferInstanceAs (Decidable (a.isClientCall = true))
  | .toHost positions =>
    inferInstanceAs (Decidable (HostMay (.input (delivered w.clientSent positions)) w'.host))
  | .toClient _ _ => .isTrue trivial

/-- What the host has sent, and what the clients hold, is the host's log. The second
field is about all packets ever sent and not only those still to be delivered: the
network may bring any of them again. -/
structure Agreement (w : World) : Prop where
  host : WireHost w.host
  sent : ∀ p ∈ w.hostSent, HostPacket w.host.log p
  clients : ∀ client ∈ w.clients, Follows w.host.log client

/-- At the beginning the log is empty and nothing is in flight. -/
theorem agreement_of_initialized {w : World} (h : ReliablyInitialized w) : Agreement w := by
  obtain ⟨rng, clients, rfl, hClients⟩ := h
  refine ⟨wireHost_peerInit rng, by simp [World.start], ?_⟩
  intro client hClient
  obtain ⟨r, rfl⟩ := hClients client hClient
  exact ⟨rfl, rfl, GapLog.agrees_nil _⟩

/-- A call of the host: its log grows at the end, so that packets in flight and
clients need not be looked at again. -/
theorem Agreement.hostAct {w : World} (h : Agreement w) {a : PeerAction} {s : Status}
    {ps : List PeerPacket} {host : Peer} (hAct : w.host.act a = .ok (s, ps, host))
    (hMay : HostMay a host) : Agreement { w with host := host, hostSent := w.hostSent ++ ps } := by
  have hPrefix := log_prefix h.host.toHostInv hAct
  refine ⟨h.host.act hMay hAct, ?_, fun client hClient => (h.clients client hClient).mono hPrefix⟩
  intro p hp
  rcases List.mem_append.mp hp with hOld | hNew
  · exact (h.sent p hOld).mono hPrefix
  · exact h.host.hostPackets_act h.host.small hAct p hNew

/-- A move of one client, which leaves it with what it has of the log. -/
theorem Agreement.setClient {w : World} (h : Agreement w) {client : Peer}
    (hClient : Follows w.host.log client) (c : Nat) (sent : List PeerPacket) :
    Agreement { w with clients := w.clients.set c client, clientSent := sent } where
  host := h.host
  sent := h.sent
  clients := by
    intro other hOther
    rcases List.mem_or_eq_of_mem_set hOther with hOld | rfl
    · exact h.clients other hOld
    · exact hClient

/-- **Step lemma**: what the host does, what a client does, and what the network
brings either. Only the first changes the log, and it lets the log grow at its end,
so that the other fields follow by monotonicity. -/
theorem Agreement.step {w w' : World} {a : WorldAction} (h : Agreement w)
    (hStep : w.step a = .ok w') (hMove : AgreementMove w a w') : Agreement w' := by
  cases worldStep_of_step hStep with
  | host hAct => exact h.hostAct hAct hMove
  | client hClient hAct =>
    have hOld := h.clients _ (List.mem_of_getElem? hClient)
    exact h.setClient (hOld.act hMove hAct) _ _
  | toHost hInput =>
    have hNew := h.hostAct (Peer.act_input hInput) hMove
    rw [List.append_nil] at hNew
    exact hNew
  | toClient hClient hInput =>
    have hOld := h.clients _ (List.mem_of_getElem? hClient)
    obtain ⟨client1, hOk, hNew, _⟩ := hOld.input h.host.wire fun p hp =>
      h.sent p (mem_of_mem_delivered hp)
    rw [hOk, Except.ok.injEq, Prod.mk.injEq] at hInput
    obtain ⟨_, rfl⟩ := hInput
    exact h.setClient hNew _ _

/-- A client that follows a host's log agrees with its mutual queue, which is the
log with its positions for indices. -/
theorem Follows.getElem?_host {host client : Peer} (hHost : HostInv host)
    (h : Follows host.log client) {i : Nat} {m : PeerMessage} (hm : client.queue[i]? = some m)
    (hReady : m.isReady = true) : host.queue[i]? = some m := by
  have hHolds : GapLog.Holds (entries client.queue) i m.content := by
    rw [holds_entries_iff, message_content hReady]
    exact hm
  rw [hHost.getElem?_of_log (h.agrees.entry i _ hHolds), message_content hReady]

/-- **Agreement on the host's order.** In every state of every run, a client's
mutual queue is no longer than the host's, every entry ready there is the
host's, and any two clients agree where both have one ready. -/
theorem agreement_of_reaches {w w' : World} (hStart : ReliablyInitialized w)
    (hReach : Reaches World.step AgreementMove w w') :
    (∀ client ∈ w'.clients, client.queue.length ≤ w'.host.queue.length ∧
      ∀ (i : Nat) (m : PeerMessage), client.queue[i]? = some m → m.isReady = true →
        w'.host.queue[i]? = some m) ∧
    (∀ client ∈ w'.clients, ∀ other ∈ w'.clients, ∀ (i : Nat) (m n : PeerMessage),
      client.queue[i]? = some m → other.queue[i]? = some n → m.isReady = true →
        n.isReady = true → m = n) := by
  have h : Agreement w' := hReach.invariant (fun _ _ _ hInv hOk hMove => hInv.step hOk hMove)
    (agreement_of_initialized hStart)
  -- an entry of a client is one of the log, and the log is what the host has stamped
  have hEntry {client : Peer} (hClient : client ∈ w'.clients) {i : Nat} {m : PeerMessage}
      (hm : client.queue[i]? = some m) (hReady : m.isReady = true) : w'.host.queue[i]? = some m :=
    (h.clients client hClient).getElem?_host h.host.toHostInv hm hReady
  refine ⟨?_, ?_⟩
  · intro client hClient
    refine ⟨?_, fun i m hm hReady => hEntry hClient hm hReady⟩
    have hLen := (h.clients client hClient).agrees.length_le
    rw [length_entries, h.host.toHostInv.length_log] at hLen
    exact Nat.le_trans hLen h.host.queueIndex
  · intro client hClient other hOther i m n hm hn hReadyM hReadyN
    have hEq := hEntry hClient hm hReadyM
    rw [hEntry hOther hn hReadyN, Option.some.injEq] at hEq
    exact hEq.symm

/-- A host and one client, as the runs below begin. -/
theorem reliablyInitialized_pairStart : ReliablyInitialized pairStart :=
  ⟨_, _, rfl, fun _ h => ⟨_, List.mem_singleton.mp h⟩⟩

theorem reliablyInitialized_twoStart : ReliablyInitialized twoStart := by
  refine ⟨_, _, rfl, fun client hClient => ?_⟩
  rcases List.mem_cons.mp hClient with rfl | hSecond
  · exact ⟨_, rfl⟩
  · exact ⟨_, List.mem_singleton.mp hSecond⟩

/-- Two sessions; then the host queues a message and merges one of the first
client, each so long that it fills a packet. Each client is given one of the two
packets that the host sends it in the tick, and the first one is given it twice. -/
def lossyRun : List WorldAction :=
  twoSessions ++ [.client 0 (.resolve 0 3), .client 1 (.resolve 0 2),
    .client 0 (.queue (some (List.replicate 200 97))), .client 0 (.tick 0),
    .host (.queue (some (List.replicate 200 72))), .toHost [2], .host (.tick 0),
    .toClient 0 [4, 4], .toClient 1 [3]]

/-- Whether an entry is ready, its actor id, and the first byte of its data. -/
def PeerMessage.brief (m : PeerMessage) : Bool × Int × Option UInt8 := (m.isReady, m.actor, m.data.head?)

/-- The clients hold different parts of the host's two entries: the first has
only its first one, and the second only the second, behind a gap. -/
theorem agreement_of_reaches_lossy : ∃ w : World,
    w.clients.map (fun client => client.queue.map (·.brief)) =
      [[(true, 0, some 72)], [(false, 0, none), (true, 2, some 97)]] ∧
    (∀ client ∈ w.clients, client.queue.length ≤ w.host.queue.length ∧
      ∀ (i : Nat) (m : PeerMessage), client.queue[i]? = some m → m.isReady = true →
        w.host.queue[i]? = some m) ∧
    (∀ client ∈ w.clients, ∀ other ∈ w.clients, ∀ (i : Nat) (m n : PeerMessage),
      client.queue[i]? = some m → other.queue[i]? = some n → m.isReady = true →
        n.isReady = true → m = n) := by
  obtain ⟨w, hReach, hHeld⟩ :=
    exists_reaches_where World.step AgreementMove (fun w a w' => decide (AgreementMove w a w'))
      (fun _ _ _ h => of_decide_eq_true h) lossyRun twoStart
      (fun w => w.clients.map (fun client => client.queue.map (·.brief)) =
        [[(true, 0, some 72)], [(false, 0, none), (true, 2, some 97)]]) (by decide +kernel)
  exact ⟨w, hHeld, agreement_of_reaches reliablyInitialized_twoStart hReach⟩

end PeerProtocol
