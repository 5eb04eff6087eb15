import PeerProtocol.Peer.TickErrors
import PeerProtocol.Pool.SessionAddress
import PeerProtocol.Wire.Repacking

/-!
# peer — the errors behind the status of a pool's tick

Every function of the source returns a status, and a caller that goes through
a loop unites the statuses of the turns with `|`. In the end `peer_pool_tick`
has united those of `resolve_address_and_id`, of receiving, of `peer_input`,
of `peer_tick` and of sending. Can the application tell from the word what
went wrong?

To say what went wrong without reference to the word, each function has a
predicate of its errors, written after its branches: `FindNodeError`,
`ResolveSlotError`, `ReceiveError`, `SendError` and others, and
`PoolTickError` for all of a tick. Where a function continues after an error,
errors of later parts are errors in the state that the earlier ones have left
(`EndsWith`).

For each function there is one lemma `statusOf_…`, in the form of
`Lib/Flags.lean`: the status is the union of the codes of the errors that
occurred. From such a union a code can be read back by its bits if no other
code has one of them. That holds for all codes but two, since the code of a
message with a wrong actor id, `0x1040`, contains the bit of an invalid id
(`apartBut_poolCodes`).

`status_exact_iff` draws the conclusion. The status of an input tells which
errors occurred exactly if no message was refused for its actor id. In a
pool's tick, an invalid id can occur as well, so there the two must occur
together or not at all.
-/

namespace PeerProtocol

open Lib

/-- The codes of the errors of a pool's tick: those of an input, and those that the
tick adds. -/
def poolCodes : List Status :=
  inputCodes ++ [peerErrorInvalidId, peerErrorUnknownProtocol, peerErrorInvalidOutIndex,
    peerErrorInvalidTimeElapsed, peerErrorTimeOverflow, peerErrorSocketReceiveFailed,
    peerErrorInvalidSocket, peerErrorGetSocketNameFailed, peerErrorSocketSendFailed]

/-- A code has bits of its own, but the code of a wrong actor id has the one of
an invalid id. -/
theorem apartBut_poolCodes :
    ApartBut statusFlags {e | e ∈ poolCodes} peerErrorInvalidMessageActor peerErrorInvalidId := by
  -- `all` looks at the codes of the list only, where a bounded quantifier could
  -- be decided over all words
  have hCodes : (poolCodes.all fun e => poolCodes.all fun e' =>
      decide (e &&& e' ≠ 0 ↔ e = e' ∨ e = peerErrorInvalidMessageActor ∧ e' = peerErrorInvalidId ∨
        e = peerErrorInvalidId ∧ e' = peerErrorInvalidMessageActor)) = true := by
    decide +kernel
  intro e he e' he'
  rw [meets_statusFlags_iff]
  exact of_decide_eq_true (List.all_eq_true.mp (List.all_eq_true.mp hCodes e he) e' he')

-- ---------------------------------------------------------------------------
-- find_pool_node
-- ---------------------------------------------------------------------------

/-- What goes wrong when an endpoint is looked up: its protocol is another, or it
is new and there is no place for its node. -/
def FindNodeError (pool : PeerSocketPool) (protocol : Int) (port : UInt16) (address : List UInt8) :
    Status → Prop :=
  Checked (protocol ≠ peerUdpIPv4) peerErrorUnknownProtocol fun e =>
    (∀ node ∈ pool.nodes, node.isEndpoint protocol port address = false) ∧
      Checked (pool.grow.1 = false) peerErrorBadAlloc (fun _ => False) e

/-- The status of a lookup: a protocol that is not implemented, or no memory for a
node. Where the endpoint has a node already, it needs neither. -/
theorem statusOf_findPoolNode {pool pool' : PeerSocketPool} {protocol id : Int} {port : UInt16}
    {address : List UInt8} {inPool : Bool} {s : Status}
    (h : findPoolNode pool protocol port address inPool = .ok (s, id, pool')) :
    StatusOf poolCodes s (FindNodeError pool protocol port address) := by
  unfold findPoolNode at h
  split at h
  · next hOther =>
    obtain ⟨rfl, _⟩ := Prod.mk.inj (Except.ok.inj h)
    exact .bad hOther (by decide)
  next hProtocol =>
  refine .good hProtocol ?_
  split at h
  · next i hFind =>
    obtain ⟨rfl, _⟩ := Prod.mk.inj (Except.ok.inj h)
    refine StatusOf.ok fun e hError => ?_
    rw [List.findIdx?_eq_none_iff.mpr hError.1] at hFind
    cases hFind
  -- the endpoint is new, so the nodes have to grow
  next hNone =>
  refine .when (List.findIdx?_eq_none_iff.mp hNone) ?_
  split at h
  · next hGrow =>
    obtain ⟨rfl, _⟩ := Prod.mk.inj (Except.ok.inj h)
    exact .bad (congrArg Prod.fst hGrow) (by decide)
  next hGrow =>
  refine .good (fun hRefused => Bool.noConfusion ((congrArg Prod.fst hGrow).symm.trans hRefused)) ?_
  split at h
  · cases h
  split at h
  · obtain ⟨rfl, _⟩ := Prod.mk.inj (Except.ok.inj h)
    exact StatusOf.nothing
  · cases h

-- ---------------------------------------------------------------------------
-- resolve_address_and_id
-- ---------------------------------------------------------------------------

/-- The address of an end is to be resolved, and its id is that of no node. -/
structure InvalidEnd (nodes : List PeerNode) (endpoint : PeerEndpoint) : Prop where
  unresolved : endpoint.isAddressResolved = false
  defined : endpoint.id ≠ peerUndefined
  none : nodeAt nodes endpoint.id = none

/-- What goes wrong when the address of an end is resolved: its id is not that of a
node. -/
def AddressError (nodes : List PeerNode) (endpoint : PeerEndpoint) : Status → Prop :=
  Checked (InvalidEnd nodes endpoint) peerErrorInvalidId fun _ => False

/-- The first part of a turn. -/
theorem statusOf_resolveLocalAddress (slot : PeerSlot) (nodes : List PeerNode) :
    StatusOf poolCodes (slot.resolveLocalAddress nodes).1 (AddressError nodes slot.localEnd) := by
  unfold PeerSlot.resolveLocalAddress
  split
  · next hDue =>
    split
    · next hNone =>
      show StatusOf poolCodes peerErrorInvalidId _
      exact .bad ⟨hDue.1, hDue.2, hNone⟩ (by decide)
    · next node hNode =>
      exact .good (fun hInvalid => by simp [hInvalid.none] at hNode) StatusOf.nothing
  · next hNotDue =>
    exact .good (fun hInvalid => hNotDue ⟨hInvalid.unresolved, hInvalid.defined⟩) StatusOf.nothing

/-- The second part, where it ends: the only error is that the slot's remote id is
of no node. An address that is too long for the slot is a fault, and is not
reported. -/
theorem statusOf_resolveRemoteAddress {slot slot' : PeerSlot} {nodes : List PeerNode} {s : Status}
    (h : slot.resolveRemoteAddress nodes = .ok (s, slot')) :
    StatusOf poolCodes s (AddressError nodes slot.remoteEnd) := by
  unfold PeerSlot.resolveRemoteAddress at h
  split at h
  · next hDue =>
    split at h
    · next hNone =>
      obtain ⟨rfl, _⟩ := Prod.mk.inj (Except.ok.inj h)
      exact .bad ⟨hDue.1, hDue.2, hNone⟩ (by decide)
    · next node hNode =>
      split at h
      · obtain ⟨rfl, _⟩ := Prod.mk.inj (Except.ok.inj h)
        exact .good (fun hInvalid => by simp [hInvalid.none] at hNode) StatusOf.nothing
      · cases h
  · next hNotDue =>
    obtain ⟨rfl, _⟩ := Prod.mk.inj (Except.ok.inj h)
    exact .good (fun hInvalid => hNotDue ⟨hInvalid.unresolved, hInvalid.defined⟩) StatusOf.nothing

/-- What goes wrong when the remote id is resolved from a port and the previous id. -/
def IdByPortError (pool : PeerSocketPool) (slot : PeerSlot) (e : Status) : Prop :=
  (slot.remoteEnd.isIdResolved = false ∧ slot.remoteEnd.addressSize = 3 ∧
      slot.remoteEnd.id ≠ peerUndefined) ∧
    Checked (nodeAt pool.nodes slot.remoteEnd.id = none) peerErrorInvalidId
      (fun e => ∃ node, nodeAt pool.nodes slot.remoteEnd.id = some node ∧
        FindNodeError pool slot.remoteEnd.addressProtocol slot.remoteEnd.addressPort
          node.remoteAddress e) e

/-- The third part: an invalid id, or an error of the lookup. It is skipped where
the id is resolved already or the address is not of three bytes, and then reports
nothing. -/
theorem statusOf_resolveIdByPort {pool pool' : PeerSocketPool} {slot slot' : PeerSlot} {s : Status}
    (h : resolveIdByPort pool slot = .ok (s, pool', slot')) :
    StatusOf poolCodes s (IdByPortError pool slot) := by
  unfold resolveIdByPort at h
  split at h
  swap
  · next hNotDue =>
    obtain ⟨rfl, _⟩ := Prod.mk.inj (Except.ok.inj h)
    exact .ok fun e hError => hNotDue hError.1
  -- The lookup is due: the address names a port alone, and the node of the old id the rest.
  next hDue =>
  refine .when hDue ?_
  split at h
  · next hNone =>
    obtain ⟨rfl, _⟩ := Prod.mk.inj (Except.ok.inj h)
    exact .bad hNone (by decide)
  · next node hNode =>
    obtain ⟨⟨s1, id, pool1⟩, hFind, h⟩ := bind_eq_ok.mp h
    obtain ⟨rfl, _⟩ := Prod.mk.inj (Except.ok.inj h)
    refine .good (fun hNone => by simp [hNone] at hNode) ?_
    refine (statusOf_findPoolNode hFind).congr fun e => ?_
    rw [hNode]
    simp only [Option.some.injEq, exists_eq_left']

/-- What goes wrong when the remote id is resolved from an address and a port. -/
def IdByAddressError (pool : PeerSocketPool) (slot : PeerSlot) (e : Status) : Prop :=
  (slot.remoteEnd.isIdResolved = false ∧ slot.remoteEnd.addressSize > 3) ∧
    EndsWith (chunkData slot.remoteEnd.addressData.elems 3 (slot.remoteEnd.addressSize - 3))
      fun address => FindNodeError pool slot.remoteEnd.addressProtocol slot.remoteEnd.addressPort address e

/-- The fourth part: an error of the lookup. -/
theorem statusOf_resolveIdByAddress {pool pool' : PeerSocketPool} {slot slot' : PeerSlot} {s : Status}
    (h : resolveIdByAddress pool slot = .ok (s, pool', slot')) :
    StatusOf poolCodes s (IdByAddressError pool slot) := by
  unfold resolveIdByAddress at h
  split at h
  · next hDue =>
    obtain ⟨address, hAddress, h⟩ := bind_eq_ok.mp h
    obtain ⟨⟨s1, id, pool1⟩, hFind, h⟩ := bind_eq_ok.mp h
    obtain ⟨rfl, _⟩ := Prod.mk.inj (Except.ok.inj h)
    refine (statusOf_findPoolNode hFind).congr fun e => ?_
    rw [IdByAddressError, and_iff_right hDue, hAddress, endsWith_ok]
  · next hNotDue =>
    obtain ⟨rfl, _⟩ := Prod.mk.inj (Except.ok.inj h)
    exact .ok fun e hError => hNotDue hError.1

/-- What goes wrong when the ids and addresses of a slot are resolved. The last two
parts find the slot, and the last one the pool, that the parts before have left. -/
def ResolveSlotError (pool : PeerSocketPool) (slot : PeerSlot) (e : Status) : Prop :=
  (AddressError pool.nodes slot.localEnd e ∨ AddressError pool.nodes slot.remoteEnd e) ∨
  EndsWith ((slot.resolveLocalAddress pool.nodes).2.resolveRemoteAddress pool.nodes) fun (_, slot) =>
    IdByPortError pool slot e ∨
      EndsWith (resolveIdByPort pool slot) fun (_, pool, slot) => IdByAddressError pool slot e

/-- The status of a turn unites those of the four parts, each on the slot and the
pool that the parts before have left. An error of one part does not keep the next
from being made. -/
theorem statusOf_resolveSlot {pool pool' : PeerSocketPool} {slot slot' : PeerSlot} {s : Status}
    (h : resolveSlot pool slot = .ok (s, pool', slot')) :
    StatusOf poolCodes s (ResolveSlotError pool slot) := by
  have hLocal := statusOf_resolveLocalAddress slot pool.nodes
  have hEnd := resolveLocalAddress_remoteEnd slot pool.nodes
  unfold resolveSlot at h
  unfold ResolveSlotError
  generalize slot.resolveLocalAddress pool.nodes = r at h hLocal hEnd
  obtain ⟨s1, slot1⟩ := r
  obtain ⟨⟨s2, slot2⟩, hRemote, h⟩ := bind_eq_ok.mp h
  obtain ⟨⟨s3, pool3, slot3⟩, hPort, h⟩ := bind_eq_ok.mp h
  obtain ⟨⟨s4, pool4, slot4⟩, hAddress, h⟩ := bind_eq_ok.mp h
  obtain ⟨rfl, _⟩ := Prod.mk.inj (Except.ok.inj h)
  refine (((hLocal.or (statusOf_resolveRemoteAddress hRemote)).or (statusOf_resolveIdByPort hPort)).or
    (statusOf_resolveIdByAddress hAddress)).congr fun e => ?_
  -- Each part is stated over what the part before it left; these are the values here.
  rw [hRemote, endsWith_ok]
  dsimp only at hEnd ⊢
  rw [hPort, endsWith_ok, hEnd]
  simp only [or_assoc]

/-- What goes wrong in the loop over the slots, each with the pool that it finds. -/
def ResolveSlotsError : PeerSocketPool → List PeerSlot → Status → Prop
  | _, [], _ => False
  | pool, slot :: slots, e =>
    ResolveSlotError pool slot e ∨
      EndsWith (resolveSlot pool slot) fun (_, pool, _) => ResolveSlotsError pool slots e

/-- The status of the loop, by induction on the slots. -/
theorem statusOf_resolveSlots {pool pool' : PeerSocketPool} {slots slots' : List PeerSlot} {s : Status}
    (h : resolveSlots pool slots = .ok (s, pool', slots')) :
    StatusOf poolCodes s (ResolveSlotsError pool slots) := by
  induction slots generalizing pool slots' s with
  | nil =>
    obtain ⟨rfl, _⟩ := Prod.mk.inj (Except.ok.inj h)
    exact .ok fun _ hError => hError
  | cons slot slots ih =>
    obtain ⟨⟨s1, pool1, slot1⟩, hFirst, h⟩ := bind_eq_ok.mp h
    obtain ⟨⟨s2, pool2, slots2⟩, hRest, h⟩ := bind_eq_ok.mp h
    obtain ⟨rfl, hEq⟩ := Prod.mk.inj (Except.ok.inj h)
    obtain ⟨rfl, _⟩ := Prod.mk.inj hEq
    refine ((statusOf_resolveSlot hFirst).or (ih hRest)).congr fun e => ?_
    rw [ResolveSlotsError, hFirst, endsWith_ok]

-- ---------------------------------------------------------------------------
-- Receiving
-- ---------------------------------------------------------------------------

/-- What goes wrong when a node receives, where it has a socket: `recvfrom` fails,
or the sender's node or the packet is refused. -/
def ReceiveError (pool : PeerSocketPool) (node : PeerNode) (received : ReceiveCall) (e : Status) :
    Prop :=
  ¬ (node.socket = invalidSocket ∨ node.protocol ≠ peerUdpIPv4) ∧
    match received with
    | .again => False
    | .failed => e = peerErrorSocketReceiveFailed
    | .datagram data _ address port =>
      data ≠ [] ∧
        (FindNodeError pool node.protocol port address e ∨
          EndsWith (findPoolNode pool node.protocol port address false) fun (s, _, pool) =>
            s = kitOk ∧ Checked (pool.alloc.request.1 = false) peerErrorBadAlloc (fun _ => False) e)

/-- The status of a turn of the receiving loop. No datagram is not an error, nor is
an empty one; a failed call is, and so are a sender that cannot be given a node and
a packet without memory. -/
theorem statusOf_receiveNode {received : ReceiveCall} {pool pool' : PeerSocketPool} {i : Nat}
    {node : PeerNode} {packets packets' : List PeerPacket} {s : Status}
    (h : receiveNode received pool i node packets = .ok (s, pool', packets')) :
    StatusOf poolCodes s (ReceiveError pool node received) := by
  unfold receiveNode at h
  split at h
  · next hClosed =>
    obtain ⟨rfl, _⟩ := Prod.mk.inj (Except.ok.inj h)
    exact .ok fun e hError => hError.1 hClosed
  next hOpen =>
  refine .when hOpen ?_
  cases received with
  | again =>
    obtain ⟨rfl, _⟩ := Prod.mk.inj (Except.ok.inj h)
    exact StatusOf.nothing
  | failed =>
    obtain ⟨rfl, _⟩ := Prod.mk.inj (Except.ok.inj h)
    exact .single (by decide) fun e => Iff.rfl
  | datagram data data_le address port =>
  dsimp only at h
  split at h
  · next hNil =>
    obtain ⟨rfl, _⟩ := Prod.mk.inj (Except.ok.inj h)
    exact StatusOf.ok fun e hError => hError.1 hNil
  next hSome =>
  refine .when hSome ?_
  obtain ⟨⟨s1, id, pool1⟩, hFind, h⟩ := bind_eq_ok.mp h
  have hSender := statusOf_findPoolNode hFind
  rw [hFind]
  simp only [endsWith_ok]
  dsimp only at h
  split at h
  · next hFailed =>
    obtain ⟨rfl, _⟩ := Prod.mk.inj (Except.ok.inj h)
    exact hSender.congr fun e => or_iff_left fun hError => hFailed hError.1
  next hFound =>
  obtain rfl : s1 = kitOk := not_not.mp hFound
  -- the sender's node is there, and a place for the packet is requested
  have hBoth {s2 : Status} (hPlace : StatusOf poolCodes s2
      (Checked (pool1.alloc.request.1 = false) peerErrorBadAlloc fun _ => False)) :
      StatusOf poolCodes s2 fun e => FindNodeError pool node.protocol port address e ∨
        kitOk = kitOk ∧ Checked (pool1.alloc.request.1 = false) peerErrorBadAlloc (fun _ => False) e := by
    rw [← UInt32.zero_or (a := s2)]
    exact hSender.or (.when rfl hPlace)
  rcases hRequest : pool1.alloc.request with ⟨granted, al⟩
  rw [hRequest] at h
  rw [hRequest] at hBoth
  cases granted with
  | false =>
    obtain ⟨rfl, _⟩ := Prod.mk.inj (Except.ok.inj h)
    exact hBoth (.bad rfl (by decide))
  | true =>
    obtain ⟨rfl, _⟩ := Prod.mk.inj (Except.ok.inj h)
    exact hBoth (.good (fun hRefused => Bool.noConfusion hRefused) StatusOf.nothing)

/-- What goes wrong in the loop over the nodes, each with the pool and the packets
that it finds. -/
def ReceiveNodesError (received : Nat → ReceiveCall) :
    Nat → List PeerNode → PeerSocketPool → List PeerPacket → Status → Prop
  | _, [], _, _, _ => False
  | i, node :: nodes, pool, packets, e =>
    ReceiveError pool node (received i) e ∨
      EndsWith (receiveNode (received i) pool i node packets) fun (_, pool, packets) =>
        ReceiveNodesError received (i + 1) nodes pool packets e

/-- The status of the loop, by induction on the nodes. -/
theorem statusOf_receiveNodes {received : Nat → ReceiveCall} {i : Nat} {nodes : List PeerNode}
    {pool pool' : PeerSocketPool} {packets packets' : List PeerPacket} {s : Status}
    (h : receiveNodes received i nodes pool packets = .ok (s, pool', packets')) :
    StatusOf poolCodes s (ReceiveNodesError received i nodes pool packets) := by
  induction nodes generalizing i pool packets s with
  | nil =>
    obtain ⟨rfl, _⟩ := Prod.mk.inj (Except.ok.inj h)
    exact .ok fun _ hError => hError
  | cons node nodes ih =>
    obtain ⟨⟨s1, pool1, packets1⟩, hFirst, h⟩ := bind_eq_ok.mp h
    obtain ⟨⟨s2, pool2, packets2⟩, hRest, h⟩ := bind_eq_ok.mp h
    obtain ⟨rfl, hEq⟩ := Prod.mk.inj (Except.ok.inj h)
    obtain ⟨rfl, rfl⟩ := Prod.mk.inj hEq
    refine ((statusOf_receiveNode hFirst).or (ih hRest)).congr fun e => ?_
    rw [ReceiveNodesError, hFirst, endsWith_ok]

-- ---------------------------------------------------------------------------
-- Sending
-- ---------------------------------------------------------------------------

/-- What goes wrong when a packet is sent from one node to another, in the order of
the tests: only the first of these occurs. -/
def SendCallError (calls : SendCalls) (src dst : PeerNode) : Status → Prop :=
  Checked (src.socket = invalidSocket) peerErrorInvalidSocket
    (Checked (src.protocol ≠ dst.protocol ∨ src.protocol ≠ peerUdpIPv4) peerErrorUnknownProtocol
      (Checked (calls.address = false) peerErrorGetSocketNameFailed
        (Checked (calls.sent = false) peerErrorSocketSendFailed fun _ => False)))

/-- What goes wrong when a packet is sent: an id of it is that of no node, or it
cannot be sent from the one node to the other. -/
def SendError (calls : SendCalls) (nodes : List PeerNode) (packet : PeerPacket) : Status → Prop :=
  Checked (nodeAt nodes packet.sourceId = none ∨ nodeAt nodes packet.destinationId = none)
    peerErrorInvalidId fun e =>
      ∃ src dst, nodeAt nodes packet.sourceId = some src ∧
        nodeAt nodes packet.destinationId = some dst ∧ SendCallError calls src dst e

/-- The status of one packet. The ids are tested before the nodes are read, so a
packet with an id of no node is refused and never leads outside the array. -/
theorem statusOf_sendNode (calls : SendCalls) (nodes : List PeerNode) (packet : PeerPacket) :
    StatusOf poolCodes (sendNode calls nodes packet) (SendError calls nodes packet) := by
  unfold sendNode
  split
  swap
  · next hNotBoth =>
    refine .bad ?_ (by decide)
    rcases hSrc : nodeAt nodes packet.sourceId with _ | src
    · exact Or.inl rfl
    · exact Or.inr (Option.eq_none_iff_forall_ne_some.mpr fun dst hDst => hNotBoth src dst hSrc hDst)
  next src dst hSrc hDst =>
  -- both nodes are there, so what goes wrong is between them
  refine .good (by simp [hSrc, hDst]) ?_
  have hBetween (e : Status) : (∃ src dst, nodeAt nodes packet.sourceId = some src ∧
      nodeAt nodes packet.destinationId = some dst ∧ SendCallError calls src dst e) ↔
        SendCallError calls src dst e := by
    simp only [hSrc, hDst, Option.some.injEq, exists_and_left, exists_eq_left']
  refine Reports.congr ?_ hBetween
  split
  · next hNone => exact .bad hNone (by decide)
  next hSocket =>
  refine .good hSocket ?_
  split
  · next hOther => exact .bad hOther (by decide)
  next hProtocol =>
  refine .good hProtocol ?_
  split
  · next hFailed => exact .bad hFailed (by decide)
  next hAddress =>
  refine .good hAddress ?_
  split
  · next hFailed => exact .bad hFailed (by decide)
  · next hSent => exact .good hSent StatusOf.nothing

/-- What goes wrong in the loop over the packets of the tick. -/
def SendNodesError (calls : Nat → SendCalls) (nodes : List PeerNode) :
    Nat → List PeerPacket → Status → Prop
  | _, [], _ => False
  | k, packet :: packets, e =>
    SendError (calls k) nodes packet e ∨ SendNodesError calls nodes (k + 1) packets e

/-- The status of the loop, by induction on the packets. -/
theorem statusOf_sendNodes (calls : Nat → SendCalls) (nodes : List PeerNode) (k : Nat)
    (packets : List PeerPacket) :
    StatusOf poolCodes (sendNodes calls nodes k packets) (SendNodesError calls nodes k packets) := by
  induction packets generalizing k with
  | nil => exact .ok fun _ hError => hError
  | cons packet packets ih => exact (statusOf_sendNode (calls k) nodes packet).or (ih (k + 1))

-- ---------------------------------------------------------------------------
-- peer_pool_tick
-- ---------------------------------------------------------------------------

/-- What goes wrong in a pool's tick: when ids and addresses are resolved, when
the nodes receive, in `peer_input` and in `peer_tick`, and when the packets of
the tick are sent. -/
def PoolTickError (pool : PeerSocketPool) (peer : Peer) (timeElapsed : Int)
    (received : Nat → ReceiveCall) (calls : Nat → SendCalls) : Status → Prop :=
  Checked (timeElapsed < 0) peerErrorInvalidTimeElapsed fun e =>
    ResolveSlotsError pool peer.slots e ∨
      EndsWith (resolveAddressAndId pool peer) fun (_, pool, peer) =>
        ReceiveNodesError received 0 pool.nodes pool [] e ∨
          EndsWith (receiveNodes received 0 pool.nodes pool []) fun (_, pool, packets) =>
            InputError peer packets e ∨
              EndsWith (peerInput peer packets) fun (_, peer) =>
                EndsWith (peerTick peer timeElapsed) (fun (_, packets, _) =>
                  SendNodesError calls pool.nodes 0 packets e) ∨
                TickError peer timeElapsed e

/-- **The status of a pool's tick** has the bits of the errors that occurred in
it, and no other. -/
theorem statusOf_peerPoolTick {pool pool' : PeerSocketPool} {peer peer' : Peer} {timeElapsed : Int}
    {received : Nat → ReceiveCall} {calls : Nat → SendCalls} {s : Status} {packets : List PeerPacket}
    (h : peerPoolTick pool peer timeElapsed received calls = .ok (s, packets, pool', peer')) :
    StatusOf poolCodes s (PoolTickError pool peer timeElapsed received calls) := by
  unfold peerPoolTick at h
  split at h
  · next hNeg =>
    obtain ⟨rfl, _⟩ := Prod.mk.inj (Except.ok.inj h)
    exact .bad hNeg (by decide)
  next hNonneg =>
  refine .good hNonneg ?_
  obtain ⟨⟨s1, pool1, peer1⟩, hResolve, h⟩ := bind_eq_ok.mp h
  obtain ⟨⟨s2, pool2, packets2⟩, hReceive, h⟩ := bind_eq_ok.mp h
  obtain ⟨⟨s3, peer2⟩, hInput, h⟩ := bind_eq_ok.mp h
  obtain ⟨⟨s4, packets4, peer4⟩, hTick, h⟩ := bind_eq_ok.mp h
  obtain ⟨rfl, _⟩ := Prod.mk.inj (Except.ok.inj h)
  obtain ⟨⟨s0, pool0, slots⟩, hSlots, hOk⟩ := bind_eq_ok.mp hResolve
  obtain ⟨rfl, _⟩ := Prod.mk.inj (Except.ok.inj hOk)
  -- the codes of the two calls to the peer are among those of the pool
  have hInputCodes : inputCodes ⊆ poolCodes := List.subset_append_left ..
  have hInputStatus : StatusOf poolCodes s3 (InputError peer1 packets2) :=
    (statusOf_peerInput hInput).mono fun e he => hInputCodes he
  have hTickCodes : tickCodes ⊆ poolCodes := by decide
  have hTickStatus : StatusOf poolCodes s4 (TickError peer2 timeElapsed) :=
    (statusOf_peerTick hTick).mono fun e he => hTickCodes he
  refine (((((statusOf_resolveSlots hSlots).or (statusOf_receiveNodes hReceive)).or
    hInputStatus).or (statusOf_sendNodes calls pool2.nodes 0 packets4)).or hTickStatus).congr
      fun e => ?_
  rw [hResolve, endsWith_ok]
  dsimp only
  rw [hReceive, endsWith_ok]
  dsimp only
  rw [hInput, endsWith_ok, hTick, endsWith_ok]
  simp only [or_assoc]

-- ---------------------------------------------------------------------------
-- What the status tells
-- ---------------------------------------------------------------------------

/-- The codes of the errors of an input, and of `resolve_address_and_id`. -/
def errorCodes : List Status := inputCodes ++ [peerErrorInvalidId, peerErrorUnknownProtocol]

/-- **What a status tells.** The status of an input tells which errors occurred
exactly if no message was refused for its actor id: this would look like an
invalid id. In a pool's tick, either both must occur, or neither. -/
theorem status_exact_iff (peer : Peer) :
    (∀ (peer' : Peer) (packets : List PeerPacket) (s : Status),
      peerInput peer packets = .ok (s, peer') →
        ((∀ e ∈ errorCodes, (s &&& e ≠ 0 ↔ InputError peer packets e)) ↔
          ¬ InputError peer packets peerErrorInvalidMessageActor)) ∧
    ∀ (pool pool' : PeerSocketPool) (peer' : Peer) (timeElapsed : Int)
      (received : Nat → ReceiveCall) (calls : Nat → SendCalls) (s : Status)
      (packets : List PeerPacket),
      peerPoolTick pool peer timeElapsed received calls = .ok (s, packets, pool', peer') →
        ((∀ e ∈ errorCodes,
            (s &&& e ≠ 0 ↔ PoolTickError pool peer timeElapsed received calls e)) ↔
          (PoolTickError pool peer timeElapsed received calls peerErrorInvalidMessageActor ↔
            PoolTickError pool peer timeElapsed received calls peerErrorInvalidId)) := by
  have hAsked : errorCodes ⊆ poolCodes := by decide
  have hActor : peerErrorInvalidMessageActor ∈ errorCodes := by decide
  have hId : peerErrorInvalidId ∈ errorCodes := by decide
  have hInput : inputCodes ⊆ poolCodes := List.subset_append_left ..
  simp only [← meets_statusFlags_iff]
  constructor
  · intro peer' packets s h
    have hStatus := statusOf_peerInput h
    -- nothing in `peer_input` raises the code of an invalid id
    have hNever : ¬ InputError peer packets peerErrorInvalidId := fun hError =>
      absurd (hStatus.known _ hError) (by decide)
    rw [← iff_false_right hNever]
    have hPool := hStatus.mono fun e he => hInput he
    exact hPool.exact_iff apartBut_poolCodes (fun e he => hAsked he) hActor hId
  · intro pool pool' peer' timeElapsed received calls s packets h
    exact (statusOf_peerPoolTick h).exact_iff apartBut_poolCodes (fun e he => hAsked he) hActor hId

/-- A host with one slot, for actor 0, bound to id 2. -/
def actorHost : Peer :=
  { peerInit .host .reliable ⟨fun _ => 0⟩ with slots := [(openSlot .host 0 1).assign 0 2] }

/-- A call that ends with a status ends with what else it returns. -/
theorem exists_of_map_fst {α : Type} {x : Except Fault (Status × α)} {s : Status}
    (h : x.map Prod.fst = .ok s) : ∃ a, x = .ok (s, a) := by
  cases x with
  | error fault => cases h
  | ok r => exact ⟨r.2, congrArg Except.ok (Prod.ext (Except.ok.inj h) rfl)⟩

/-- A packet that `peer_pack` did not make: one message without data, and other
bytes than zero around it. -/
def foreignPacket : PeerPacket where
  sourceId := 2
  destinationId := 1
  size := 45
  data := (Buffer.fill peerPacketSize 0xff).blit 15 (encode peerMessageModeApplication 7 0 1 [])
    (by rw [length_encode]; decide)

/-- The host refuses a message of actor 1 that comes from there. -/
theorem peerInput_otherActor :
    ∃ peer', peerInput actorHost [foreignPacket] = .ok (peerErrorInvalidMessageActor, peer') := by
  have hStatus : (peerInput actorHost [foreignPacket]).map Prod.fst =
      .ok peerErrorInvalidMessageActor := by
    decide +kernel
  exact exists_of_map_fst hStatus

/-- In a tick with a pool that has no nodes, its ids are invalid. -/
theorem peerPoolTick_noNodes :
    ∃ packets pool' peer', peerPoolTick (peerPoolInit .reliable fun _ => true) actorHost 0
      (fun _ => .again) (fun _ => ⟨true, true⟩) = .ok (peerErrorInvalidId, packets, pool', peer') := by
  have hStatus : (peerPoolTick (peerPoolInit .reliable fun _ => true) actorHost 0
      (fun _ => .again) (fun _ => ⟨true, true⟩)).map Prod.fst = .ok peerErrorInvalidId := by
    decide +kernel
  obtain ⟨⟨packets, pool', peer'⟩, hTick⟩ := exists_of_map_fst hStatus
  exact ⟨packets, pool', peer', hTick⟩

/-- The host after that packet, and in a tick in which nothing arrives. In the first
both sides of the equivalence are false, and in the second both are true. -/
theorem status_exact_iff_otherActor :
    (∃ s peer', peerInput actorHost [foreignPacket] = .ok (s, peer') ∧
      ((∀ e ∈ errorCodes, (s &&& e ≠ 0 ↔ InputError actorHost [foreignPacket] e)) ↔
        ¬ InputError actorHost [foreignPacket] peerErrorInvalidMessageActor)) ∧
    ∃ s packets pool' peer', peerPoolTick (peerPoolInit .reliable fun _ => true) actorHost 0
        (fun _ => .again) (fun _ => ⟨true, true⟩) = .ok (s, packets, pool', peer') ∧
      ((∀ e ∈ errorCodes, (s &&& e ≠ 0 ↔
          PoolTickError (peerPoolInit .reliable fun _ => true) actorHost 0
            (fun _ => .again) (fun _ => ⟨true, true⟩) e)) ↔
        (PoolTickError (peerPoolInit .reliable fun _ => true) actorHost 0
            (fun _ => .again) (fun _ => ⟨true, true⟩) peerErrorInvalidMessageActor ↔
          PoolTickError (peerPoolInit .reliable fun _ => true) actorHost 0
            (fun _ => .again) (fun _ => ⟨true, true⟩) peerErrorInvalidId)) := by
  obtain ⟨peer1, hInput⟩ := peerInput_otherActor
  obtain ⟨packets, pool2, peer2, hTick⟩ := peerPoolTick_noNodes
  exact ⟨⟨_, peer1, hInput, (status_exact_iff actorHost).1 _ _ _ hInput⟩,
    ⟨_, packets, pool2, peer2, hTick, (status_exact_iff actorHost).2 _ _ _ _ _ _ _ _ hTick⟩⟩

/-- The status of that input has the bit of an invalid id, and no id was invalid. -/
theorem not_status_exact_otherActor :
    ∃ s peer', peerInput actorHost [foreignPacket] = .ok (s, peer') ∧
      s &&& peerErrorInvalidId ≠ 0 ∧ ¬ InputError actorHost [foreignPacket] peerErrorInvalidId := by
  obtain ⟨peer', hInput⟩ := peerInput_otherActor
  refine ⟨_, peer', hInput, by decide, fun hError => ?_⟩
  exact absurd ((statusOf_peerInput hInput).known _ hError) (by decide)

end PeerProtocol
