import PeerProtocol.Peer.Faults
import PeerProtocol.Pool.Addresses
import PeerProtocol.Pool.Speakers

/-!
# peer — where a peer with sockets faults

`Peer/Faults.lean` says for `peer.c` which calls access something outside an
array, and which overflow. Here the pool is added: all that a peer does
through the four calls of its application, with any datagrams, any results of
the sockets, any outcomes of the allocations, and other peers over the same
pool.

The pool adds three faults:

* `TooLong` — the address of a node, behind its prefix, is longer than the
  array of the endpoint that it is copied to;
* `Dangles` — the address of a node is given to `find_pool_node` by a pointer,
  and the call moves the nodes before it reads it;
* `SumOverflows` — `peer_pool_open` is asked for more nodes than a size can
  count.

Everything else that the pool does is in bounds, since it tests each id
against the size of its array. This rests on sizes that no call checks:
`SizedEnds` collects them, and every call keeps them.

Each function then has a lemma `faultOf_…` that says with an equivalence when
it faults and how; for a loop the fault is that of the first turn that has
one, in the state that the turns before have left. `partyFaults_of_reaches`
puts them together for every state that a peer of either mode reaches, as long
as its application queues messages that fit.

For a host more can be said (`hostFaults_of_reaches`). A slot of a host is
bound to the source of a datagram, and the text of an IP address has room
behind the prefix; and a host looks ids up for no slot that is in use. So its
lookups never fault, and a tick faults exactly where the chunks say so that it
has received.
-/

namespace PeerProtocol

open Lib

-- ---------------------------------------------------------------------------
-- Lookups
-- ---------------------------------------------------------------------------

/-- The second part of a turn runs, and the address behind the prefix does not fit
the array of the endpoint. -/
def TooLong (nodes : List PeerNode) (slot : PeerSlot) : Prop :=
  slot.remoteEnd.isAddressResolved = false ∧
    ∃ node, nodeAt nodes slot.remoteEnd.id = some node ∧ peerAddressSize < 3 + node.remoteAddress.length

/-- Nothing is found for the port and the address of the node that the slot has
the id of, and `DA_RESIZE` frees the array with that address. -/
def Dangles (pool : PeerSocketPool) (slot : PeerSlot) : Prop :=
  slot.remoteEnd.isIdResolved = false ∧ slot.remoteEnd.addressSize = 3 ∧
    slot.remoteEnd.addressProtocol = peerUdpIPv4 ∧
    ∃ node, nodeAt pool.nodes slot.remoteEnd.id = some node ∧
      (∀ other ∈ pool.nodes,
        other.isEndpoint peerUdpIPv4 slot.remoteEnd.addressPort node.remoteAddress = false) ∧
      pool.alloc.outcomes 0 = true ∧ pool.inPlace 0 = false

/-- What follows a result that there is without a fault does not change the fault. -/
theorem faultOf_bind_of_ok {α β : Type} {x : Except Fault α} {f : α → Except Fault β}
    (hf : ∀ a, x = .ok a → faultOf (f a) = none) : faultOf (x >>= f) = faultOf x := by
  cases x with
  | error fault => rfl
  | ok a => exact hf a rfl

/-- The fault of `find_pool_node`: it appends a node, its address is given by a
pointer into the array, and `DA_RESIZE` moves this. -/
theorem faultOf_findPoolNode {pool : PeerSocketPool} {protocol : Int} {port : UInt16}
    {address : List UInt8} (hFits : address.length ≤ peerAddressSize - 2) (inPool : Bool) (fault : Fault) :
    faultOf (findPoolNode pool protocol port address inPool) = some fault ↔
      fault = .access ∧ protocol = peerUdpIPv4 ∧
        (∀ node ∈ pool.nodes, node.isEndpoint protocol port address = false) ∧
        pool.alloc.outcomes 0 = true ∧ inPool = true ∧ pool.inPlace 0 = false := by
  unfold findPoolNode
  by_cases hProtocol : protocol = peerUdpIPv4
  swap
  -- another protocol is refused with a status
  · rw [if_pos hProtocol]
    exact iff_of_false nofun fun h => hProtocol h.2.1
  rw [if_neg (not_not.mpr hProtocol)]
  cases hFind : pool.nodes.findIdx? (·.isEndpoint protocol port address) with
  | some i =>
    -- there is such a node
    refine iff_of_false nofun fun h => ?_
    obtain ⟨node, hNode, hIs⟩ : ∃ node ∈ pool.nodes, node.isEndpoint protocol port address = true := by
      rw [List.findIdx?_eq_some_iff_getElem] at hFind
      obtain ⟨hi, hIs, _⟩ := hFind
      exact ⟨_, List.getElem_mem hi, hIs⟩
    rw [h.2.2.1 node hNode] at hIs
    cases hIs
  | none =>
    have hNone : ∀ node ∈ pool.nodes, node.isEndpoint protocol port address = false :=
      fun node hNode => List.findIdx?_eq_none_iff.mp hFind node hNode
    dsimp only [PeerSocketPool.grow, Allocator.request]
    -- a node is added; its address is read after the nodes have moved, or not
    cases hGranted : pool.alloc.outcomes 0 with
    | false => exact iff_of_false nofun nofun
    | true =>
      dsimp only
      rw [dif_pos hFits]
      cases inPool with
      | false => exact iff_of_false nofun nofun
      | true =>
        cases hPlace : pool.inPlace 0 with
        | true => exact iff_of_false nofun nofun
        | false =>
          refine ⟨fun h => ⟨(Option.some.inj h).symm, hProtocol, hNone, rfl, rfl, rfl⟩, ?_⟩
          rintro ⟨rfl, _⟩
          rfl

/-- The fault of the second part: the address of a node of at most 62 bytes is
written behind a prefix of three, into an array of 64. -/
theorem faultOf_resolveRemoteAddress (slot : PeerSlot) (nodes : List PeerNode) (fault : Fault) :
    faultOf (slot.resolveRemoteAddress nodes) = some fault ↔ fault = .access ∧ TooLong nodes slot := by
  unfold PeerSlot.resolveRemoteAddress
  by_cases hDue : slot.remoteEnd.isAddressResolved = false ∧ slot.remoteEnd.id ≠ peerUndefined
  swap
  · rw [if_neg hDue]
    refine iff_of_false nofun ?_
    rintro ⟨_, hFlag, node, hNode, _⟩
    refine hDue ⟨hFlag, fun hNone => ?_⟩
    rw [hNone] at hNode
    cases hNode
  rw [if_pos hDue]
  cases hNode : nodeAt nodes slot.remoteEnd.id with
  -- an id that no node has is reported
  | none =>
    refine iff_of_false nofun ?_
    rintro ⟨_, _, node, hSome, _⟩
    rw [hNode] at hSome
    cases hSome
  | some node =>
    dsimp only
    have hLength : (addressPrefix node.protocol node.remotePort ++ node.remoteAddress).length =
        3 + node.remoteAddress.length := by rw [List.length_append, length_addressPrefix]
    by_cases hFits : 0 + (addressPrefix node.protocol node.remotePort ++ node.remoteAddress).length ≤
        peerAddressSize
    · rw [dif_pos hFits]
      refine iff_of_false nofun ?_
      rintro ⟨_, _, other, hOther, hLong⟩
      rw [hNode, Option.some.injEq] at hOther
      rw [← hOther] at hLong
      omega
    · rw [dif_neg hFits]
      refine ⟨fun h => ⟨(Option.some.inj h).symm, hDue.1, node, hNode, by omega⟩, ?_⟩
      rintro ⟨rfl, _⟩
      rfl

/-- The fault of the third part, which looks up a port at the address of a node. It
is there where the lookup adds a node and the array is moved, as the address is then
read from the old one. -/
theorem faultOf_resolveIdByPort (pool : PeerSocketPool) (slot : PeerSlot) (fault : Fault) :
    faultOf (resolveIdByPort pool slot) = some fault ↔ fault = .access ∧ Dangles pool slot := by
  unfold resolveIdByPort
  by_cases hDue : slot.remoteEnd.isIdResolved = false ∧ slot.remoteEnd.addressSize = 3 ∧
      slot.remoteEnd.id ≠ peerUndefined
  swap
  -- The part is skipped: the id is resolved, or the address has another size, or there is no
  -- id.
  · rw [if_neg hDue]
    refine iff_of_false nofun ?_
    rintro ⟨_, hFlag, hSize, _, node, hNode, _⟩
    refine hDue ⟨hFlag, hSize, fun hNone => ?_⟩
    rw [hNone] at hNode
    cases hNode
  rw [if_pos hDue]
  cases hNode : nodeAt pool.nodes slot.remoteEnd.id with
  | none =>
    -- An id of no node is answered by an error, before any lookup.
    refine iff_of_false nofun ?_
    rintro ⟨_, _, _, _, node, hSome, _⟩
    rw [hNode] at hSome
    cases hSome
  | some node =>
    dsimp only
    -- What is left of the part is one lookup, and it faults where the lookup does.
    rw [faultOf_bind fun _ => rfl, faultOf_findPoolNode node.address_le]
    constructor
    · rintro ⟨hFault, hProtocol, hNone, hGranted, _, hMoved⟩
      exact ⟨hFault, hDue.1, hDue.2.1, hProtocol, node, hNode, hProtocol ▸ hNone, hGranted, hMoved⟩
    · rintro ⟨hFault, _, _, hProtocol, other, hOther, hNone, hGranted, hMoved⟩
      rw [hNode, Option.some.injEq] at hOther
      exact ⟨hFault, hProtocol, by rw [hProtocol, hOther]; exact hNone, hGranted, rfl, hMoved⟩

/-- The fourth part ends: it copies the address out of the slot, so it does not
matter to it whether the node array is moved, and the size of the address lies
inside the slot's array. -/
theorem exists_resolveIdByAddress (pool : PeerSocketPool) {slot : PeerSlot}
    (hSize : slot.remoteEnd.addressSize ≤ (peerAddressSize : Int)) :
    ∃ r, resolveIdByAddress pool slot = .ok r := by
  unfold resolveIdByAddress
  split
  swap
  · exact ⟨_, rfl⟩
  next hDue =>
  -- what is behind the prefix of the address is in its array
  have hData : chunkData slot.remoteEnd.addressData.elems 3 (slot.remoteEnd.addressSize - 3) =
      .ok ((slot.remoteEnd.addressData.elems.drop 3).take (slot.remoteEnd.addressSize - 3).toNat) :=
    if_pos ⟨by omega, by rw [slot.remoteEnd.addressData.length_eq]; omega⟩
  rw [hData, ok_bind]
  have hFits : ((slot.remoteEnd.addressData.elems.drop 3).take
      (slot.remoteEnd.addressSize - 3).toNat).length ≤ peerAddressSize - 2 := by
    refine Nat.le_trans (List.length_take_le _ _) ?_
    rw [peerAddressSize] at hSize ⊢
    omega
  obtain ⟨⟨s, id, pool'⟩, hFind⟩ := findPoolNode_isOk hFits pool slot.remoteEnd.addressProtocol
    slot.remoteEnd.addressPort
  rw [hFind]
  exact ⟨_, rfl⟩

/-- What the turn for a slot faults with: the address of its node, or the lookup
of the port that it was told, in the slot that the addresses are written into. -/
def TurnFaults (pool : PeerSocketPool) (slot : PeerSlot) : Prop :=
  TooLong pool.nodes slot ∨ ∃ s slot',
    (slot.resolveLocalAddress pool.nodes).2.resolveRemoteAddress pool.nodes = .ok (s, slot') ∧
      Dangles pool slot'

/-- Writing an address leaves the size of the remote address inside its array: it is
written together with the bytes, and where those would not fit the part has faulted. -/
theorem remoteSize_resolveRemoteAddress {slot slot' : PeerSlot} {nodes : List PeerNode} {s : Status}
    (hSize : slot.remoteEnd.addressSize ≤ (peerAddressSize : Int))
    (h : slot.resolveRemoteAddress nodes = .ok (s, slot')) :
    slot'.remoteEnd.addressSize ≤ (peerAddressSize : Int) := by
  unfold PeerSlot.resolveRemoteAddress at h
  split at h
  swap
  · obtain ⟨_, rfl⟩ := Prod.mk.inj (Except.ok.inj h)
    exact hSize
  split at h
  · obtain ⟨_, rfl⟩ := Prod.mk.inj (Except.ok.inj h)
    exact hSize
  split at h
  -- The address is written only where its prefix and bytes fit the array.
  · next hFits =>
    obtain ⟨_, rfl⟩ := Prod.mk.inj (Except.ok.inj h)
    rw [List.length_append, length_addressPrefix] at hFits
    dsimp only
    omega
  · cases h

/-- A lookup of an id leaves that size as it is. -/
theorem IdLookup.remoteSize {pool pool' : PeerSocketPool} {slot slot' : PeerSlot}
    (h : IdLookup pool slot pool' slot') : slot'.remoteEnd.addressSize = slot.remoteEnd.addressSize := by
  cases h with
  | skip => rfl
  | found =>
    unfold PeerSlot.found
    split <;> rfl

/-- So the sizes that a turn relies on are there for the next tick's. -/
theorem remoteSize_resolveSlot {pool pool' : PeerSocketPool} {slot slot' : PeerSlot} {s : Status}
    (hSize : slot.remoteEnd.addressSize ≤ (peerAddressSize : Int))
    (h : resolveSlot pool slot = .ok (s, pool', slot')) :
    slot'.remoteEnd.addressSize ≤ (peerAddressSize : Int) := by
  obtain ⟨_, slot2, _, _, hRemote, hPort, hAddress⟩ := resolveSlot_cases h
  rw [hAddress.remoteSize, hPort.remoteSize]
  refine remoteSize_resolveRemoteAddress ?_ hRemote
  rwa [resolveLocalAddress_remoteEnd]

/-- **The fault of a turn**: at most one of the two parts that can fault is the
first to do so. -/
theorem faultOf_resolveSlot (pool : PeerSocketPool) {slot : PeerSlot}
    (hSize : slot.remoteEnd.addressSize ≤ (peerAddressSize : Int)) (fault : Fault) :
    faultOf (resolveSlot pool slot) = some fault ↔ fault = .access ∧ TurnFaults pool slot := by
  have hEnd := resolveLocalAddress_remoteEnd slot pool.nodes
  have hLong : TooLong pool.nodes (slot.resolveLocalAddress pool.nodes).2 ↔ TooLong pool.nodes slot := by
    rw [TooLong, hEnd, TooLong]
  have hSize1 : (slot.resolveLocalAddress pool.nodes).2.remoteEnd.addressSize ≤ (peerAddressSize : Int) :=
    hEnd.symm ▸ hSize
  unfold resolveSlot TurnFaults
  generalize slot.resolveLocalAddress pool.nodes = first at hLong hSize1 ⊢
  obtain ⟨s1, slot1⟩ := first
  dsimp only at hLong hSize1 ⊢
  rw [← hLong]
  have hWrite := faultOf_resolveRemoteAddress slot1 pool.nodes
  cases hRemote : slot1.resolveRemoteAddress pool.nodes with
  | error first =>
    rw [hRemote] at hWrite
    refine Iff.trans (hWrite fault) (and_congr_right fun _ => (or_iff_left ?_).symm)
    rintro ⟨_, _, hOk, _⟩
    cases hOk
  | ok r =>
    obtain ⟨s2, slot2⟩ := r
    rw [hRemote] at hWrite
    have hNotLong : ¬ TooLong pool.nodes slot1 := fun hTooLong =>
      Option.some_ne_none _ ((hWrite .access).mpr ⟨rfl, hTooLong⟩).symm
    rw [ok_bind]
    dsimp only
    have hPort := faultOf_resolveIdByPort pool slot2
    refine Iff.trans (Eq.congr_left (faultOf_bind_of_ok ?_)) ((hPort fault).trans ?_)
    · -- behind the lookup of a port nothing faults
      rintro ⟨s3, pool3, slot3⟩ hLooked
      have hSize3 : slot3.remoteEnd.addressSize ≤ (peerAddressSize : Int) := by
        rw [(resolveIdByPort_lookup hLooked).remoteSize]
        exact remoteSize_resolveRemoteAddress hSize1 hRemote
      obtain ⟨r, hAddress⟩ := exists_resolveIdByAddress pool3 hSize3
      dsimp only
      rw [hAddress]
      rfl
    · refine and_congr_right fun _ => ?_
      constructor
      · exact fun hDangles => Or.inr ⟨s2, slot2, rfl, hDangles⟩
      · rintro (hTooLong | ⟨s, slot', hOk, hDangles⟩)
        · exact absurd hTooLong hNotLong
        · obtain ⟨_, rfl⟩ := Prod.mk.inj (Except.ok.inj hOk)
          exact hDangles

/-- The turn for a slot faults where those before it have brought the pool: the
turns in front of it may have appended nodes and used up allocations. -/
def LookupFaults (pool : PeerSocketPool) (slots : List PeerSlot) : Prop :=
  ∃ before slot after s pool' looked, slots = before ++ slot :: after ∧
    resolveSlots pool before = .ok (s, pool', looked) ∧ TurnFaults pool' slot

/-- **The fault of the loop**, by induction on the slots: that of the first turn
that has one, with the pool it finds. -/
theorem faultOf_resolveSlots (pool : PeerSocketPool) {slots : List PeerSlot}
    (hSizes : ∀ slot ∈ slots, slot.remoteEnd.addressSize ≤ (peerAddressSize : Int)) (fault : Fault) :
    faultOf (resolveSlots pool slots) = some fault ↔ fault = .access ∧ LookupFaults pool slots := by
  -- each turn starts with the pool that the one before has left
  induction slots generalizing pool with
  | nil =>
    refine iff_of_false nofun ?_
    rintro ⟨_, before, _, _, _, _, _, hEq, _⟩
    simp at hEq
  | cons slot slots ih =>
    have hTurn := faultOf_resolveSlot pool (hSizes slot (List.mem_cons_self ..))
    have hLater (pool : PeerSocketPool) :=
      ih pool fun later hMem => hSizes later (List.mem_cons_of_mem _ hMem)
    cases hFirst : resolveSlot pool slot with
    | error first =>
      rw [hFirst] at hTurn
      rw [resolveSlots, hFirst, error_bind]
      refine Iff.trans (hTurn fault) (and_congr_right fun _ => ?_)
      constructor
      · exact fun h => ⟨[], slot, slots, kitOk, pool, [], rfl, rfl, h⟩
      · rintro ⟨before, other, after, s, pool', looked, hEq, hBefore, hFaults⟩
        cases before with
        | nil =>
          obtain ⟨rfl, _⟩ := List.cons.inj hEq
          obtain ⟨_, hSame⟩ := Prod.mk.inj (Except.ok.inj hBefore)
          obtain ⟨rfl, _⟩ := Prod.mk.inj hSame
          exact hFaults
        -- the turn before would have ended
        | cons other before =>
          obtain ⟨rfl, _⟩ := List.cons.inj hEq
          obtain ⟨_, hOk, _⟩ := bind_eq_ok.mp hBefore
          rw [hFirst] at hOk
          cases hOk
    | ok r =>
      obtain ⟨s1, pool1, slot1⟩ := r
      rw [hFirst] at hTurn
      have hEnds : ¬ TurnFaults pool slot := fun h =>
        Option.some_ne_none _ ((hTurn .access).mpr ⟨rfl, h⟩).symm
      rw [resolveSlots, hFirst, ok_bind]
      refine Iff.trans (Eq.congr_left (faultOf_bind_ok (resolveSlots pool1 slots) _))
        ((hLater pool1).trans (and_congr_right fun _ => ?_))
      constructor
      · rintro ⟨before, other, after, s, pool', looked, rfl, hBefore, hFaults⟩
        refine ⟨slot :: before, other, after, s1 ||| s, pool', slot1 :: looked, rfl, ?_, hFaults⟩
        rw [resolveSlots, hFirst, ok_bind]
        dsimp only
        rw [hBefore, ok_bind]
        rfl
      · rintro ⟨before, other, after, s, pool', looked, hEq, hBefore, hFaults⟩
        cases before with
        | nil =>
          obtain ⟨rfl, _⟩ := List.cons.inj hEq
          obtain ⟨_, hSame⟩ := Prod.mk.inj (Except.ok.inj hBefore)
          obtain ⟨rfl, _⟩ := Prod.mk.inj hSame
          -- the first turn has ended
          exact absurd hFaults hEnds
        | cons first before =>
          obtain ⟨rfl, rfl⟩ := List.cons.inj hEq
          obtain ⟨⟨s1', pool1', slot1'⟩, hOk, hOnward⟩ := bind_eq_ok.mp hBefore
          rw [hFirst, Except.ok.injEq, Prod.mk.injEq, Prod.mk.injEq] at hOk
          obtain ⟨_, rfl, _⟩ := hOk
          obtain ⟨⟨s2, pool2, looked2⟩, hRest, hSame⟩ := bind_eq_ok.mp hOnward
          obtain ⟨_, hSame⟩ := Prod.mk.inj (Except.ok.inj hSame)
          obtain ⟨rfl, _⟩ := Prod.mk.inj hSame
          exact ⟨before, other, after, s2, pool2, looked2, rfl, hRest, hFaults⟩

-- ---------------------------------------------------------------------------
-- Datagrams
-- ---------------------------------------------------------------------------

/-- The address that `inet_ntop` writes has room in a node, and in an endpoint:
for UDP over IPv4 it has at most 15 bytes. -/
def ReceiveCall.AddressFits : ReceiveCall → Prop
  | .datagram _ _ address _ => address.length ≤ peerAddressSize - 3
  | .again | .failed => True

/-- A turn of the receiving loop ends: the sender's address fits a node, and the
packet its array. No result of `recvfrom` that is of such a kind can make it fault. -/
theorem exists_receiveNode {received : ReceiveCall} (hFits : received.AddressFits)
    (pool : PeerSocketPool) (i : Nat) (node : PeerNode) (packets : List PeerPacket) :
    ∃ r, receiveNode received pool i node packets = .ok r := by
  unfold receiveNode
  split
  · exact ⟨_, rfl⟩
  cases received with
  | again => exact ⟨_, rfl⟩
  | failed => exact ⟨_, rfl⟩
  | datagram data data_le address port =>
    dsimp only
    split
    · exact ⟨_, rfl⟩
    -- a node has room for one byte more than an endpoint
    have hNode : address.length ≤ peerAddressSize - 2 := Nat.le_trans hFits (by decide)
    obtain ⟨⟨s, id, pool'⟩, hFind⟩ := findPoolNode_isOk hNode pool node.protocol port
    rw [hFind, ok_bind]
    dsimp only
    split
    · exact ⟨_, rfl⟩
    split <;> exact ⟨_, rfl⟩

/-- **Receiving does not fault**, whatever arrives: a datagram is no longer than the
buffer that `recvfrom` was given, and the sender's address has room in a node. -/
theorem exists_receiveNodes {received : Nat → ReceiveCall} (hFits : ∀ i, (received i).AddressFits)
    (i : Nat) (nodes : List PeerNode) (pool : PeerSocketPool) (packets : List PeerPacket) :
    ∃ r, receiveNodes received i nodes pool packets = .ok r := by
  induction nodes generalizing i pool packets with
  | nil => exact ⟨_, rfl⟩
  | cons node nodes ih =>
    obtain ⟨⟨s1, pool1, packets1⟩, hFirst⟩ := exists_receiveNode (hFits i) pool i node packets
    obtain ⟨⟨s2, pool2, packets2⟩, hRest⟩ := ih (i + 1) pool1 packets1
    rw [receiveNodes, hFirst, ok_bind]
    dsimp only
    rw [hRest]
    exact ⟨_, rfl⟩

-- ---------------------------------------------------------------------------
-- Sizes
-- The invariant that lookups rely on, through each call.
-- ---------------------------------------------------------------------------

/-- The sizes that every call can rely on: those of `Sized`, cursors inside the
queues, and remote addresses inside their arrays. The last is what a session
response may break, in a call that has faulted then. -/
structure SizedEnds (peer : Peer) : Prop extends Sized peer where
  cursor : CursorInv peer
  remote : ∀ slot ∈ peer.slots, slot.remoteEnd.addressSize ≤ (peerAddressSize : Int)

/-- A new peer has no slots. -/
theorem sizedEnds_peerInit (mode : PeerMode) (alloc : Allocator) (rng : Mt64) :
    SizedEnds (peerInit mode alloc rng) where
  toSized := sized_peerInit mode alloc rng
  cursor slot hSlot := by simp [peerInit] at hSlot
  remote slot hSlot := by simp [peerInit] at hSlot

/-- A packet leaves the remote addresses inside: a response that would not was a
fault. In a host no packet writes them at all. -/
theorem remoteSize_input {peer peer' : Peer} {packets : List PeerPacket} {s : Status}
    (h : ∀ slot ∈ peer.slots, slot.remoteEnd.addressSize ≤ (peerAddressSize : Int))
    (hInput : peerInput peer packets = .ok (s, peer')) :
    ∀ slot ∈ peer'.slots, slot.remoteEnd.addressSize ≤ (peerAddressSize : Int) := by
  have hSet {slots : List PeerSlot} {j : Nat} {slot' : PeerSlot}
      (hSlots : ∀ slot ∈ slots, slot.remoteEnd.addressSize ≤ (peerAddressSize : Int))
      (hSlot' : slot'.remoteEnd.addressSize ≤ (peerAddressSize : Int)) :
      ∀ slot ∈ slots.set j slot', slot.remoteEnd.addressSize ≤ (peerAddressSize : Int) := by
    intro slot hSlot
    rcases List.mem_or_eq_of_mem_set hSlot with hOld | rfl
    · exact hSlots slot hOld
    · exact hSlot'
  refine peerInput_invariant (I := fun p =>
    ∀ slot ∈ p.slots, slot.remoteEnd.addressSize ≤ (peerAddressSize : Int)) ?_ ?_ ?_ hInput h
  · intro p packet s cs al _ hp _
    exact hp
  · intro start p p' packet j s cs al c _ _ _ _ hp _ hStep
    cases hStep with
    | hostSkip => exact hp
    | hostStore _ hSlot =>
      have hOld := hp _ (List.mem_of_getElem? hSlot)
      exact hSet hp hOld
    | clientSkip => exact hp
    -- the address that was copied had room in its array
    | clientRespond _ _ _ _ _ _ hRoom =>
      refine hSet hp ?_
      rw [PeerSlot.respond]
      dsimp only
      omega
    | clientLearn => exact hp
  · intro p packet _ hp _ _
    rcases assignSlot_cases p packet with hSame | ⟨j, _, slot, _, _, _, _, _, hSlot, _, hEq⟩
    · rw [hSame]
      exact hp
    · rw [hEq]
      exact hSet hp (hp slot (List.mem_of_getElem? hSlot))

/-- **A call of the peer**, whatever its allocator does: the sizes are kept by each
of its calls, the cursors by the invariant on them, and the remote addresses are
only written by input. -/
theorem SizedEnds.act {peer peer' : Peer} {a : PeerAction} {s : Status} {ps : List PeerPacket}
    (h : SizedEnds peer) (hSmall : a.QueuesSmall) (hAct : peer.act a = .ok (s, ps, peer')) :
    SizedEnds peer' := by
  have hStep : peer.step a = .ok peer' := Peer.step_eq_ok.mpr ⟨s, ps, hAct⟩
  refine ⟨h.toSized.step hSmall hStep, h.cursor.step hStep, ?_⟩
  have hModify (j : Nat) (f : PeerSlot → PeerSlot)
      (hf : ∀ slot, slot.remoteEnd.addressSize ≤ (peerAddressSize : Int) →
        (f slot).remoteEnd.addressSize ≤ (peerAddressSize : Int)) :
      ∀ slot ∈ peer.slots.modify j f, slot.remoteEnd.addressSize ≤ (peerAddressSize : Int) := by
    intro slot' hSlot'
    obtain ⟨i, hi⟩ := List.mem_iff_getElem?.mp hSlot'
    obtain ⟨slot, hSlot, rfl | rfl⟩ := exists_of_getElem?_modify hi
    · exact h.remote slot' (List.mem_of_getElem? hSlot)
    · exact hf slot (h.remote slot (List.mem_of_getElem? hSlot))
  have hCase := Peer.act_cases hAct
  cases a with
  | openSlots ids =>
    obtain ⟨_, rfl⟩ := hCase
    obtain ⟨opened, al, hOpen⟩ := peerOpen_opens peer ids
    rw [hOpen]
    intro slot hSlot
    rcases List.mem_append.mp hSlot with hOld | hNew
    · exact h.remote slot hOld
    -- a new slot has no remote address
    · obtain ⟨i, _, rfl⟩ := List.mem_mapIdx.mp hNew
      exact show (0 : Int) ≤ 64 by decide
  | connect serverId =>
    obtain ⟨_, rfl⟩ := hCase
    unfold peerConnect
    split
    · exact h.remote
    · exact hModify _ _ fun _ _ => show (0 : Int) ≤ 64 by decide
  | queue messageData =>
    obtain ⟨_, rfl⟩ := hCase
    obtain ⟨data, hQueued⟩ := peerQueue_queued peer messageData
    generalize (peerQueue peer messageData).2 = peer' at hQueued
    cases hQueued with
    | refused => exact h.remote
    | host => exact h.remote
    | client _ hSlot =>
      intro slot' hSlot'
      have hSent := h.remote _ (List.mem_of_getElem? hSlot)
      rcases List.mem_or_eq_of_mem_set hSlot' with hOld | rfl
      · exact h.remote slot' hOld
      · exact hSent
  | input packets => exact remoteSize_input h.remote hCase.2
  | tick e =>
    intro slot' hSlot'
    obtain ⟨slot, hSlot, hTicked⟩ := exists_of_forall₂_right (peerTick_frame hCase).slots hSlot'
    rw [hTicked.remoteEnd]
    exact h.remote slot hSlot
  | setAddress j size data =>
    obtain ⟨_, rfl⟩ := hCase
    exact hModify j _ fun _ hOld => hOld
  | resolve j id =>
    obtain ⟨_, rfl⟩ := hCase
    exact hModify j _ fun _ hOld => hOld

/-- **A lookup**: the size of the remote address is that of a node's, with its
prefix. No queue, cursor or local address that the other sizes speak of gets longer
than its array. -/
theorem SizedEnds.resolve {pool pool' : PeerSocketPool} {peer peer' : Peer} {s : Status}
    (h : SizedEnds peer) (hResolve : resolveAddressAndId pool peer = .ok (s, pool', peer')) :
    SizedEnds peer' := by
  obtain ⟨slots, rfl, hSlots⟩ := resolveSlots_of_resolve hResolve
  -- a turn writes into the ends, and leaves the remote address inside
  have hTurns : List.Forall₂ (fun slot slot' => EndsWritten slot slot' ∧
      slot'.remoteEnd.addressSize ≤ (peerAddressSize : Int)) peer.slots slots :=
    resolveSlots_forall₂ (fun slot hSlot _ _ _ _ hTurn =>
      ⟨endsWritten_resolveSlot hTurn, remoteSize_resolveSlot (h.remote slot hSlot) hTurn⟩) hSlots
  refine ⟨h.toSized.of_eq rfl rfl fun slot' hSlot' => ?_, fun slot' hSlot' => ?_, fun slot' hSlot' => ?_⟩
  · obtain ⟨slot, hSlot, hEnds, _⟩ := exists_of_forall₂_right hTurns hSlot'
    have hOld := h.slot slot hSlot
    exact ⟨hEnds.address hOld.address, hEnds.queue ▸ hOld.small, hEnds.queue ▸ hOld.bounded⟩
  · obtain ⟨slot, hSlot, hEnds, _⟩ := exists_of_forall₂_right hTurns hSlot'
    have hOld := h.cursor slot hSlot
    rw [hEnds.outIndex]
    unfold PeerSlot.sentSize at hOld ⊢
    rwa [hEnds.queue]
  · obtain ⟨slot, _, _, hSize⟩ := exists_of_forall₂_right hTurns hSlot'
    exact hSize

/-- **A call with the pool**, made of the two: opening and connecting are calls of
the peer on ids of nodes, and a tick is a lookup, an input and a tick of the peer. -/
theorem SizedEnds.use {pool pool' : PeerSocketPool} {peer peer' : Peer} {a : PartyAction}
    {sent : List SendTo} (h : SizedEnds peer) (hSmall : a.UsesSmall)
    (hUse : peer.use pool a = .ok (sent, pool', peer')) : SizedEnds peer' := by
  have hOpen (peer : Peer) (ids : List Int) (hPeer : SizedEnds peer) :
      SizedEnds (peerOpen peer (some ids)).2 := hPeer.act (a := .openSlots (some ids)) trivial rfl
  have hCase := Peer.use_cases hUse
  cases a with
  | openSockets protocol count calls =>
    obtain ⟨_, _, rfl⟩ := hCase
    exact peerPoolOpen_invariant hOpen h pool protocol count calls
  | connect protocol address port calls =>
    obtain ⟨_, s, closed, hConnect⟩ := hCase
    exact peerPoolConnect_invariant hOpen
      (fun peer id hPeer => hPeer.act (a := .connect id) trivial rfl) hConnect h
  | queue messageData =>
    obtain ⟨_, _, rfl⟩ := hCase
    exact h.act (a := .queue messageData) hSmall rfl
  | tick e received calls =>
    obtain ⟨s, packets, hTick, _⟩ := hCase
    -- A tick that is not refused is a lookup, an input and a tick of the peer, in this order.
    rcases peerPoolTick_cases hTick with ⟨_, _, _, rfl⟩ | ⟨s1, s2, s3, s4, pool2, peer2, peer3,
      incoming, _, hResolve, _, hInput, hPeerTick⟩
    · exact h
    · have hLooked := (h.resolve hResolve).act (a := .input incoming) trivial (Peer.act_input hInput)
      exact hLooked.act (a := .tick e) trivial hPeerTick

-- ---------------------------------------------------------------------------
-- Calls with a pool
-- ---------------------------------------------------------------------------

/-- The addresses that `recvfrom` gives are texts of IP addresses, which leave room
for the prefix. -/
def PartyAction.AddressesFit : PartyAction → Prop
  | .tick _ received _ => ∀ i, (received i).AddressFits
  | _ => True

/-- What a peer faults with that is given the packets, and then ticks. -/
def GivenFaults (peer : Peer) (packets : List PeerPacket) (e : Int) (fault : Fault) : Prop :=
  InputFaults peer packets fault ∨
    ∃ s peer', peerInput peer packets = .ok (s, peer') ∧ tickFault peer' e = some fault

/-- What a tick with the pool faults with: its lookups, or the peer, given what is
received. Its parts follow one another, so for the second the first has ended. -/
def Party.TickFaults (p : Party) (e : Int) (received : Nat → ReceiveCall) (fault : Fault) : Prop :=
  (fault = .access ∧ LookupFaults p.pool p.peer.slots) ∨
    ∃ s1 s2 pool1 pool2 peer packets, resolveAddressAndId p.pool p.peer = .ok (s1, pool1, peer) ∧
      receiveNodes received 0 pool1.nodes pool1 [] = .ok (s2, pool2, packets) ∧
      GivenFaults peer packets e fault

/-- What a call faults with: a tick with what its lookups or the peer say, and an
open with the sum of the sizes, if that overflows. A connect adds one node and
cannot overflow, and `peer_queue` only appends. -/
def Party.Faults (p : Party) (fault : Fault) : PartyAction → Prop
  | .tick e received _ => 0 ≤ e ∧ p.TickFaults e received fault
  | .openSockets protocol count _ => fault = .overflow ∧ p.pool.SumOverflows protocol count
  | .connect .. | .queue .. => False

/-- A connect ends: it opens one node at most, and its lookup is given an address
that fits and is not in the array. -/
theorem exists_peerPoolConnect (pool : PeerSocketPool) (peer : Peer) (protocol : Int)
    (address : List UInt8) (port : UInt16) (calls : Nat → SocketCalls) :
    ∃ r, peerPoolConnect pool peer protocol address port calls = .ok r := by
  unfold peerPoolConnect
  split
  · exact ⟨_, rfl⟩
  next hAddress =>
  split
  · exact ⟨_, rfl⟩
  -- an address that was accepted has room in a node
  have hRoom : address.length ≤ peerAddressSize - 2 := by omega
  obtain ⟨⟨s, id, pool1⟩, hFind⟩ := findPoolNode_isOk hRoom pool protocol port
  rw [hFind, ok_bind]
  dsimp only
  split
  · exact ⟨_, rfl⟩
  split
  · exact ⟨_, rfl⟩
  split <;> exact ⟨_, rfl⟩

/-- The fault of what a peer does with the packets that it is given: that of the
first packet that faults or, where all of them are taken, that of the tick behind
them. -/
theorem SizedEnds.faultOf_given {peer : Peer} (h : SizedEnds peer) (packets : List PeerPacket) (e : Int)
    (fault : Fault) :
    faultOf (do let (_, peer) ← peerInput peer packets; peerTick peer e) = some fault ↔
      GivenFaults peer packets e fault := by
  have hInputs : faultOf (peerInput peer packets) = some fault ↔ InputFaults peer packets fault :=
    h.toSized.faultOf_peerInput
  unfold GivenFaults
  cases hInput : peerInput peer packets with
  | error first =>
    rw [hInput] at hInputs
    -- the tick is not reached
    refine Iff.trans hInputs (or_iff_left ?_).symm
    rintro ⟨_, _, hOk, _⟩
    cases hOk
  | ok r =>
    obtain ⟨s, peer1⟩ := r
    rw [hInput] at hInputs
    have hGiven := h.act (a := .input packets) trivial (Peer.act_input hInput)
    rw [ok_bind]
    dsimp only
    rw [hGiven.toSized.faultOf_peerTick hGiven.cursor]
    constructor
    · exact fun hTick => Or.inr ⟨s, peer1, rfl, hTick⟩
    · rintro (hFaults | ⟨_, _, hOk, hTick⟩)
      · cases hInputs.mpr hFaults
      · obtain ⟨_, rfl⟩ := Prod.mk.inj (Except.ok.inj hOk)
        exact hTick

/-- **The fault of a tick with the pool**: that of its lookups, or else that of the
peer, given what is received after them. Sending does not fault. -/
theorem SizedEnds.faultOf_peerPoolTick {p : Party} (h : SizedEnds p.peer) {received : Nat → ReceiveCall}
    (hFits : ∀ i, (received i).AddressFits) {e : Int} (hTime : 0 ≤ e) (calls : Nat → SendCalls)
    (fault : Fault) :
    faultOf (peerPoolTick p.pool p.peer e received calls) = some fault ↔
      p.TickFaults e received fault := by
  have hLookup := faultOf_resolveSlots p.pool h.remote fault
  have hSame : faultOf (resolveAddressAndId p.pool p.peer) =
      faultOf (resolveSlots p.pool p.peer.slots) := faultOf_bind_ok _ _
  rw [← hSame] at hLookup
  unfold peerPoolTick Party.TickFaults
  rw [if_neg (Int.not_lt.mpr hTime)]
  cases hResolve : resolveAddressAndId p.pool p.peer with
  | error first =>
    rw [hResolve] at hLookup
    -- nothing is received, and the peer is given nothing
    refine Iff.trans hLookup (or_iff_left ?_).symm
    rintro ⟨_, _, _, _, _, _, hOk, _⟩
    cases hOk
  | ok r =>
    obtain ⟨s1, pool1, peer1⟩ := r
    rw [hResolve] at hLookup
    obtain ⟨⟨s2, pool2, packets⟩, hReceive⟩ := exists_receiveNodes hFits 0 pool1.nodes pool1 []
    rw [ok_bind]
    dsimp only
    rw [hReceive, ok_bind]
    dsimp only
    have hGiven := (h.resolve hResolve).faultOf_given packets e fault
    refine Iff.trans (Eq.congr_left ?_) (hGiven.trans ?_)
    · -- the status behind the tick does not matter
      cases peerInput peer1 packets with
      | error first => rfl
      | ok r => exact faultOf_bind_ok _ _
    · constructor
      · exact fun hFaults => Or.inr ⟨s1, s2, pool1, pool2, peer1, packets, rfl, hReceive, hFaults⟩
      · rintro (hFaults | ⟨_, _, _, _, _, _, hOk, hReceived, hFaults⟩)
        · cases hLookup.mpr hFaults
        · obtain ⟨_, hRest⟩ := Prod.mk.inj (Except.ok.inj hOk)
          obtain ⟨rfl, rfl⟩ := Prod.mk.inj hRest
          rw [hReceive] at hReceived
          obtain ⟨_, hRest⟩ := Prod.mk.inj (Except.ok.inj hReceived)
          obtain ⟨_, rfl⟩ := Prod.mk.inj hRest
          exact hFaults

/-- **The fault of a call**, from sizes alone: for each call its fault is the one
that is listed, and every access that is not listed is inside its array. -/
theorem SizedEnds.faultOf_use {p : Party} (h : SizedEnds p.peer) {a : PartyAction}
    (hFits : a.AddressesFit) (fault : Fault) :
    faultOf (p.peer.use p.pool a) = some fault ↔ p.Faults fault a := by
  have hNone {α : Type} {x : Except Fault α} (hOk : ∃ r, x = .ok r) : ¬ faultOf x = some fault := by
    obtain ⟨r, rfl⟩ := hOk
    exact nofun
  cases a with
  | openSockets protocol count calls =>
    rw [Peer.use, faultOf_bind fun _ => rfl, peerPoolOpenCall]
    by_cases hOverflows : p.pool.SumOverflows protocol count
    · rw [if_pos hOverflows]
      refine Iff.trans ?_ (and_iff_left hOverflows).symm
      rw [faultOf, Option.some.injEq]
      exact eq_comm
    · rw [if_neg hOverflows]
      exact iff_of_false (hNone ⟨_, rfl⟩) fun hFaults => hOverflows hFaults.2
  | queue messageData => exact iff_of_false (hNone ⟨_, rfl⟩) id
  | connect protocol address port calls =>
    obtain ⟨r, hConnect⟩ := exists_peerPoolConnect p.pool p.peer protocol address port calls
    rw [Peer.use, hConnect]
    exact iff_of_false (hNone ⟨_, rfl⟩) id
  | tick e received calls =>
    rw [Peer.use, faultOf_bind fun _ => rfl]
    by_cases hTime : 0 ≤ e
    · exact (h.faultOf_peerPoolTick hFits hTime calls fault).trans (and_iff_right hTime).symm
    -- a negative time is refused before anything is looked up
    · rw [peerPoolTick, if_pos (Int.not_le.mp hTime)]
      exact iff_of_false (hNone ⟨_, rfl⟩) fun hFaults => hTime hFaults.1

-- ---------------------------------------------------------------------------
-- Runs
-- ---------------------------------------------------------------------------

/-- The application queues messages that fit; other peers over the pool do anything. -/
def PartyMove (_ : Party) (a : PartyAction ⊕ PoolAction) (_ : Party) : Prop :=
  match a with
  | .inl a => a.UsesSmall
  | .inr _ => True

instance (p p' : Party) : (a : PartyAction ⊕ PoolAction) → Decidable (PartyMove p a p')
  | .inl a => inferInstanceAs (Decidable a.UsesSmall)
  | .inr _ => .isTrue trivial

/-- **Step lemma**: a call of this peer, or of another one. -/
theorem SizedEnds.step {p p' : Party} {a : PartyAction ⊕ PoolAction} (h : SizedEnds p.peer)
    (hStep : p.step a = .ok p') (hMove : PartyMove p a p') : SizedEnds p'.peer := by
  cases a with
  | inl a =>
    obtain ⟨⟨sent, pool, peer⟩, hUse, hEq⟩ := bind_eq_ok.mp hStep
    obtain rfl := Except.ok.inj hEq
    exact h.use hMove hUse
  | inr a =>
    obtain ⟨pool, _, hEq⟩ := bind_eq_ok.mp hStep
    obtain rfl := Except.ok.inj hEq
    exact h

/-- A new peer of either mode, with a new pool. The two have allocators of their
own. -/
def Party.start (mode : PeerMode) (alloc poolAlloc : Allocator) (inPlace : Nat → Bool) (rng : Mt64) :
    Party where
  pool := peerPoolInit poolAlloc inPlace
  peer := peerInit mode alloc rng

/-- **Every fault of a peer with sockets.** In every state that a peer of either
mode reaches with a pool that other peers may use, too, with any datagrams and
any outcomes of the allocations, as long as its application queues messages that
fit: a call faults exactly where a lookup, a chunk that it is given, or the
heartbeat of a client says so. -/
theorem partyFaults_of_reaches {mode : PeerMode} {alloc poolAlloc : Allocator} {inPlace : Nat → Bool}
    {rng : Mt64} {p : Party}
    (hReach : Reaches Party.step PartyMove (Party.start mode alloc poolAlloc inPlace rng) p)
    (a : PartyAction) (hFits : a.AddressesFit) (fault : Fault) :
    faultOf (p.peer.use p.pool a) = some fault ↔ p.Faults fault a := by
  have h : SizedEnds p.peer := hReach.invariant (I := fun p => SizedEnds p.peer)
    (fun _ _ _ hInv hStep hMove => hInv.step hStep hMove) (sizedEnds_peerInit mode alloc rng)
  exact h.faultOf_use hFits fault

/-- The results for two sockets, with two ports. -/
def portCalls (i : Nat) : SocketCalls := { hostCalls i with name := some (7 + UInt16.ofNat i) }

/-- What a host with two ports answers on the first: that its slot has the second. -/
def answerBytes : List UInt8 :=
  ((runGuarded Deployment.step (fun _ _ _ => true) deploymentStart
    [.host 0 (.openSockets peerUdpIPv4 2 portCalls), .host 0 (.tick 0 (arrivesAt 0 [1] 9) sendsAll)]).bind
    (·.sent[0]?)).elim [] (·.data)

/-- A client connects to the first port, and is told the second. -/
def toldRun : List (PartyAction ⊕ PoolAction) :=
  [.inl (.connect peerUdpIPv4 [49] 7 hostCalls), .inl (.tick 0 (arrivesAt 1 answerBytes 7) sendsAll)]

/-- Its next tick looks for a node with the second port, adds one, and reads the
address for it from the array that it has just moved. -/
theorem partyFaults_of_reaches_dangling : ∃ p : Party,
    faultOf (p.peer.use p.pool (.tick 0 (fun _ => .again) sendsAll)) = some .access ∧
      p.Faults .access (.tick 0 (fun _ => .again) sendsAll) := by
  obtain ⟨p, hReach, hTest⟩ : ∃ p, Reaches Party.step PartyMove
      (Party.start .client .reliable .reliable (fun _ => false) ⟨fun _ => 0⟩) p ∧
        decide (faultOf (p.peer.use p.pool (.tick 0 (fun _ => .again) sendsAll)) = some .access) = true :=
    exists_reaches_of_runGuarded (fun p a p' => decide (PartyMove p a p'))
      (fun _ _ _ h => of_decide_eq_true h) toldRun _
      (fun p : Party => decide (faultOf (p.peer.use p.pool (.tick 0 (fun _ => .again) sendsAll)) =
        some .access)) (by decide +kernel)
  have hFault := of_decide_eq_true hTest
  have hFits : (PartyAction.tick 0 (fun _ => .again) sendsAll).AddressesFit := fun _ => trivial
  exact ⟨p, hFault, (partyFaults_of_reaches hReach _ hFits _).mp hFault⟩

-- ---------------------------------------------------------------------------
-- Hosts
-- ---------------------------------------------------------------------------

/-- The id of a node whose address has room behind the prefix. -/
def HasRoom (nodes : List PeerNode) (id : Int) : Prop :=
  ∃ node, nodeAt nodes id = some node ∧ node.remoteAddress.length ≤ peerAddressSize - 3

/-- Nodes keep their ids and their addresses. -/
theorem HasRoom.mono {nodes nodes' : List PeerNode} (hNodes : nodes <+: nodes') (id : Int)
    (h : HasRoom nodes id) : HasRoom nodes' id := by
  obtain ⟨node, hNode, hRoom⟩ := h
  exact ⟨node, nodeAt_of_isPrefix hNodes hNode, hRoom⟩

/-- The senders of datagrams have such addresses, if the results of `recvfrom` have.
Nodes that are not asked, or have nothing, contribute no datagram. -/
theorem address_of_datagramsOf {received : Nat → ReceiveCall} (hFits : ∀ i, (received i).AddressFits)
    {i : Nat} {nodes : List PeerNode} {d : Datagram} (h : d ∈ datagramsOf received i nodes) :
    d.address.length ≤ peerAddressSize - 3 := by
  induction nodes generalizing i with
  | nil => cases h
  | cons node nodes ih =>
    rw [datagramsOf] at h
    rcases List.mem_append.mp h with hFirst | hRest
    · have hAddress := hFits i
      -- Only a call that returned bytes on a node with a socket contributes a datagram.
      cases hCall : received i with
      | again =>
        rw [hCall] at hFirst
        cases hFirst
      | failed =>
        rw [hCall] at hFirst
        cases hFirst
      | datagram data data_le address port =>
        rw [hCall] at hFirst hAddress
        dsimp only at hFirst
        split at hFirst
        · cases hFirst
        · rw [List.mem_singleton.mp hFirst]
          exact hAddress
    · exact ih hRest

/-- **No turn faults** for a slot whose remote id is known to have room: it is
resolved, or there is none to look up. -/
theorem RemoteFixed.not_turnFaults {pool : PeerSocketPool} {slot : PeerSlot}
    (h : RemoteFixed (HasRoom pool.nodes) slot) : ¬ TurnFaults pool slot := by
  have hUnbound {id : Int} {node : PeerNode} (hNone : id = peerUndefined) :
      nodeAt pool.nodes id ≠ some node := by
    rw [hNone]
    exact nofun
  rintro (⟨_, node, hNode, hLong⟩ | ⟨s, slot', hWrite, hUnresolved, _, _, node, hNode, _⟩)
  · rcases h with ⟨_, found, hFound, hRoom⟩ | ⟨hNone, _⟩
    · rw [hNode, Option.some.injEq] at hFound
      rw [hFound, peerAddressSize] at hLong
      rw [peerAddressSize] at hRoom
      omega
    · exact hUnbound hNone hNode
  · rcases h with ⟨hResolved, _⟩ | ⟨hNone, _⟩
    -- writing the addresses leaves the remote id
    · have hLooked := (slotLooked_localAddress slot pool.nodes).trans (slotLooked_remoteAddress hWrite)
      rw [(hLooked.resolved hResolved).1] at hUnresolved
      cases hUnresolved
    · have hEnd := resolveLocalAddress_remoteEnd slot pool.nodes
      rw [PeerSlot.resolveRemoteAddress, if_neg (by rw [hEnd]; exact fun hDue => hDue.2 hNone)] at hWrite
      obtain ⟨_, rfl⟩ := Prod.mk.inj (Except.ok.inj hWrite)
      exact hUnbound (by rw [hEnd]; exact hNone) hNode

/-- A host whose slots are bound to nodes that have room, if to any. -/
structure HostParty (p : Party) : Prop extends SizedEnds p.peer where
  mode : p.peer.mode = .host
  bound : RemotesFixed (HasRoom p.pool.nodes) p.peer

/-- **A lookup of a host ends**: for a slot in use the address has room and the id
is resolved, for another one there is nothing to look up. -/
theorem HostParty.exists_resolve {p : Party} (h : HostParty p) :
    ∃ r, resolveAddressAndId p.pool p.peer = .ok r := by
  cases hSlots : resolveSlots p.pool p.peer.slots with
  | ok r => exact ⟨_, by rw [resolveAddressAndId, hSlots]; rfl⟩
  | error fault =>
    have hFault : faultOf (resolveSlots p.pool p.peer.slots) = some fault := by rw [hSlots]; rfl
    obtain ⟨_, before, slot, after, s, pool, looked, hEq, hBefore, hTurn⟩ :=
      (faultOf_resolveSlots p.pool h.remote fault).mp hFault
    have hMem : slot ∈ p.peer.slots := by
      rw [hEq]
      exact List.mem_append_right _ (List.mem_cons_self ..)
    -- the nodes before the turns are there in it
    have hGrows := (resolveSlots_grows hBefore).isPrefix
    have hBound := (h.bound slot hMem).imp (And.imp id (HasRoom.mono hGrows _)) id
    exact absurd hTurn (RemoteFixed.not_turnFaults hBound)

/-- It binds no slot to anything else. -/
theorem HostParty.resolve {p : Party} {pool : PeerSocketPool} {host : Peer} {s : Status}
    (h : HostParty p) (hResolve : resolveAddressAndId p.pool p.peer = .ok (s, pool, host)) :
    HostParty ⟨pool, host⟩ where
  toSizedEnds := h.toSizedEnds.resolve hResolve
  mode := by
    obtain ⟨slots, rfl, _⟩ := resolveSlots_of_resolve hResolve
    exact h.mode
  bound := (h.bound.resolve hResolve).mono (HasRoom.mono (resolveAddressAndId_grows hResolve).isPrefix)

/-- **A call of the peer**, given packets from nodes that have room: a slot that is
bound by it is bound to one of these. -/
theorem HostParty.act {p : Party} {host : Peer} {a : PeerAction} {s : Status} {ps : List PeerPacket}
    (h : HostParty p) (hSmall : a.QueuesSmall) (hMay : a.IsHostStep)
    (hRoom : ∀ q ∈ inputsOf [a], HasRoom p.pool.nodes q.sourceId)
    (hAct : p.peer.act a = .ok (s, ps, host)) : HostParty ⟨p.pool, host⟩ where
  toSizedEnds := h.toSizedEnds.act hSmall hAct
  mode := (Peer.mode_of_step (Peer.step_eq_ok.mpr ⟨s, ps, hAct⟩)).trans h.mode
  bound := h.bound.act h.mode hMay hRoom hAct

/-- What others do with the pool appends nodes. -/
theorem HostParty.mono {p : Party} {pool : PeerSocketPool} (h : HostParty p)
    (hNodes : p.pool.nodes <+: pool.nodes) : HostParty ⟨pool, p.peer⟩ where
  toSizedEnds := h.toSizedEnds
  mode := h.mode
  bound := h.bound.mono (HasRoom.mono hNodes)

/-- What is received comes from nodes that have room. -/
theorem hasRoom_of_receiveNodes {received : Nat → ReceiveCall} (hFits : ∀ i, (received i).AddressFits)
    {nodes : List PeerNode} {pool pool' : PeerSocketPool} {packets : List PeerPacket} {s : Status}
    (h : receiveNodes received 0 nodes pool [] = .ok (s, pool', packets)) :
    ∀ q ∈ packets, q.sourceId ≠ peerUndefined ∧ HasRoom pool'.nodes q.sourceId := by
  intro q hq
  obtain ⟨d, hd, hPacket⟩ := (receiveNodes_datagrams h q hq).resolve_left List.not_mem_nil
  obtain ⟨node, hNode, hAddress, _⟩ := hPacket.source
  exact ⟨hPacket.sourceId_ne, node, hNode, hAddress ▸ address_of_datagramsOf hFits hd⟩

/-- The host does not connect anywhere, queues messages that fit, and receives from
addresses that have room. -/
def HostPartyMove (_ : Party) (a : PartyAction ⊕ PoolAction) (_ : Party) : Prop :=
  match a with
  | .inl a => a.isHostUse = true ∧ a.UsesSmall ∧ a.AddressesFit
  | .inr _ => True

/-- **A call with the pool** keeps what a host's lookups need: every slot in use is
bound to a node whose address has room, because it was heard from an address that
has. -/
theorem HostParty.use {p : Party} {pool : PeerSocketPool} {host : Peer} {a : PartyAction}
    {sent : List SendTo} (h : HostParty p) (hIsHost : a.isHostUse = true) (hSmall : a.UsesSmall)
    (hFits : a.AddressesFit) (hUse : p.peer.use p.pool a = .ok (sent, pool, host)) :
    HostParty ⟨pool, host⟩ := by
  have hCase := Peer.use_cases hUse
  cases a with
  | openSockets protocol count calls =>
    obtain ⟨_, rfl, rfl⟩ := hCase
    -- The new nodes come behind the old, so the addresses known before are known still.
    have hMore := h.mono (peerPoolOpen_grows p.pool p.peer protocol count calls).isPrefix
    rcases peerPoolOpen_host p.pool p.peer protocol count calls with hSame | ⟨ids, hIds⟩
    · rwa [hSame]
    · rw [hIds]
      exact hMore.act (a := .openSlots (some ids)) trivial rfl (by simp [inputsOf]) rfl
  | connect => cases hIsHost
  | queue messageData =>
    obtain ⟨_, rfl, rfl⟩ := hCase
    exact h.act (a := .queue messageData) hSmall rfl (by simp [inputsOf]) rfl
  | tick e received calls =>
    obtain ⟨s, packets, hTick, _⟩ := hCase
    rcases peerPoolTick_cases hTick with ⟨_, _, rfl, rfl⟩ | ⟨s1, s2, s3, s4, pool2, host2, host3,
      incoming, _, hResolve, hReceive, hInput, hPeerTick⟩
    · exact h
    -- The lookup first, then the datagrams received, then the tick of the peer itself.
    have hLooked := h.resolve hResolve
    have hRoom := hasRoom_of_receiveNodes hFits hReceive
    have hGiven : HostParty ⟨pool, host3⟩ :=
      (hLooked.mono (receiveNodes_grows hReceive).isPrefix).act (a := .input incoming) trivial
        (fun q hq => (hRoom q hq).1) (fun q hq => (hRoom q (by simpa [inputsOf] using hq)).2)
        (Peer.act_input hInput)
    exact hGiven.act (a := .tick e) trivial rfl (by simp [inputsOf]) hPeerTick

/-- **Step lemma**: a call of this host, or of another peer. -/
theorem HostParty.step {p p' : Party} {a : PartyAction ⊕ PoolAction} (h : HostParty p)
    (hStep : p.step a = .ok p') (hMove : HostPartyMove p a p') : HostParty p' := by
  cases a with
  | inl a =>
    obtain ⟨⟨sent, pool, host⟩, hUse, hEq⟩ := bind_eq_ok.mp hStep
    obtain rfl := Except.ok.inj hEq
    obtain ⟨hIsHost, hSmall, hFits⟩ := hMove
    exact h.use hIsHost hSmall hFits hUse
  | inr a =>
    obtain ⟨pool, hPool, hEq⟩ := bind_eq_ok.mp hStep
    obtain rfl := Except.ok.inj hEq
    exact h.mono (PeerSocketPool.step_grows hPool).isPrefix

/-- **Every fault of a host with sockets.** In every state that a host reaches
with a pool, its lookups and its receiving end, and its tick faults exactly where
the chunks say so that it is then given. -/
theorem hostFaults_of_reaches {alloc poolAlloc : Allocator} {inPlace : Nat → Bool} {rng : Mt64}
    {p : Party} (hReach : Reaches Party.step HostPartyMove (Party.start .host alloc poolAlloc inPlace rng) p)
    {received : Nat → ReceiveCall} (hFits : ∀ i, (received i).AddressFits) {e : Int} (hTime : 0 ≤ e)
    (calls : Nat → SendCalls) : ∃ s1 s2 pool1 pool2 host packets,
      resolveAddressAndId p.pool p.peer = .ok (s1, pool1, host) ∧
      receiveNodes received 0 pool1.nodes pool1 [] = .ok (s2, pool2, packets) ∧
      ∀ fault, faultOf (p.peer.use p.pool (.tick e received calls)) = some fault ↔
        InputFaults host packets fault := by
  have h : HostParty p := by
    refine hReach.invariant (I := HostParty) (fun _ _ _ hInv hStep hMove => hInv.step hStep hMove) ?_
    exact ⟨sizedEnds_peerInit .host alloc rng, rfl, by simp [RemotesFixed, Party.start, peerInit]⟩
  obtain ⟨⟨s1, pool1, host⟩, hResolve⟩ := h.exists_resolve
  have hLooked := h.resolve hResolve
  obtain ⟨⟨s2, pool2, packets⟩, hReceive⟩ := exists_receiveNodes hFits 0 pool1.nodes pool1 []
  refine ⟨s1, s2, pool1, pool2, host, packets, hResolve, hReceive, fun fault => ?_⟩
  refine (h.toSizedEnds.faultOf_use (a := .tick e received calls) hFits fault).trans ?_
  constructor
  · rintro ⟨_, ⟨rfl, hLookup⟩ | ⟨_, _, _, _, _, _, hOk, hReceived, hGiven⟩⟩
    -- the lookup has ended
    · have hFault := (faultOf_resolveSlots p.pool h.remote .access).mpr ⟨rfl, hLookup⟩
      have hOk : faultOf (resolveAddressAndId p.pool p.peer) = some .access :=
        (faultOf_bind_ok _ _).trans hFault
      rw [hResolve] at hOk
      cases hOk
    · rw [hResolve, Except.ok.injEq, Prod.mk.injEq, Prod.mk.injEq] at hOk
      obtain ⟨_, rfl, rfl⟩ := hOk
      rw [hReceive, Except.ok.injEq, Prod.mk.injEq, Prod.mk.injEq] at hReceived
      obtain ⟨_, _, rfl⟩ := hReceived
      rcases hGiven with hInputs | ⟨s3, host3, hInput, hTick⟩
      · exact hInputs
      -- a tick of a host does not fault
      · have hMode : host3.mode = .host :=
          (Peer.mode_of_step (Peer.step_eq_ok.mpr ⟨s3, [], Peer.act_input hInput⟩)).trans hLooked.mode
        rw [tickFault, hMode] at hTick
        cases hTick
  · exact fun hInputs => ⟨hTime, Or.inr ⟨s1, s2, pool1, pool2, host, packets, hResolve, hReceive,
      Or.inl hInputs⟩⟩

/-- An address of one byte has room. -/
theorem addressFits_arrivesAt (k : Nat) (data : List UInt8) (port : UInt16) (i : Nat) :
    (arrivesAt k data port i).AddressFits := by
  unfold arrivesAt
  split
  · exact show [49].length ≤ peerAddressSize - 3 by decide
  · trivial

/-- A host opens two sockets, and lends the second slot to the endpoint with port 9. -/
def bindingRun : List (PartyAction ⊕ PoolAction) :=
  [.inl (.openSockets peerUdpIPv4 2 hostCalls), .inl (.tick 0 (arrivesAt 0 [1] 9) sendsAll)]

/-- All its moves are of the kind that the theorem is about. -/
theorem hostPartyMove_bindingRun : ∀ a ∈ bindingRun, ∀ p p', HostPartyMove p a p' := by
  intro a ha p p'
  rw [bindingRun, List.mem_cons, List.mem_singleton] at ha
  rcases ha with rfl | rfl
  · exact ⟨rfl, trivial, trivial⟩
  · exact ⟨rfl, trivial, addressFits_arrivesAt 0 [1] 9⟩

/-- 45 bytes whose only size field is 5, from that endpoint: a header is longer. -/
def shortArrival : Nat → ReceiveCall :=
  arrivesAt 1 (shortFieldPacket.data.elems.take shortFieldPacket.size.toNat) 9

/-- They make the host read the header of a message past the end of a chunk. -/
theorem hostFaults_of_reaches_short : ∃ p : Party,
    faultOf (p.peer.use p.pool (.tick 0 shortArrival sendsAll)) = some .access ∧
    ∃ s1 s2 pool1 pool2 host packets,
      resolveAddressAndId p.pool p.peer = .ok (s1, pool1, host) ∧
      receiveNodes shortArrival 0 pool1.nodes pool1 [] = .ok (s2, pool2, packets) ∧
      ∀ fault, faultOf (p.peer.use p.pool (.tick 0 shortArrival sendsAll)) = some fault ↔
        InputFaults host packets fault := by
  obtain ⟨p, hReach, hTest⟩ : ∃ p, Reaches Party.step HostPartyMove
      (Party.start .host .reliable .reliable (fun _ => true) ⟨fun _ => 0⟩) p ∧
        decide (faultOf (p.peer.use p.pool (.tick 0 shortArrival sendsAll)) = some .access) = true :=
    exists_reaches_of_mem bindingRun hostPartyMove_bindingRun _ (fun p : Party =>
      decide (faultOf (p.peer.use p.pool (.tick 0 shortArrival sendsAll)) = some .access))
      (by decide +kernel)
  exact ⟨p, of_decide_eq_true hTest, hostFaults_of_reaches hReach (addressFits_arrivesAt 1 _ 9)
    (Int.le_refl 0) sendsAll⟩

end PeerProtocol
