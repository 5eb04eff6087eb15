import PeerProtocol.Lib.Flags
import PeerProtocol.Peer.Input

/-!
# peer — the errors behind the status of an input

`peer_input` combines the codes of all that goes wrong with the packets it is
given, and with the messages in them. Which errors occur is said here without
looking at any status, and the status is compared with that: it has the bits
of these errors, and no other.

An error predicate is defined for each function that can fail, by what the
function tests and in the order in which it tests it. Where a function makes
several tests and ends with the first that fails, the predicate is a chain of
`Checked` (`Lib.Flags`). Where a loop goes on after an error, it is a
disjunction, over the states that the loop passes through; these are given by
the model, but their statuses are not used. `EndsWith` says that a computation
ends, and something of its result.

The comparison follows the same structure. For each function there is one
lemma, named `statusOf_` and the function, which says that the status reports
the errors of its predicate; it uses those of the functions it calls, and the
three rules for uniting words of flags.

## Results

* `UnpackError`, `PacketError` — what goes wrong in a packet; `InsertError` —
  in a queue.
* `HostMessageError`, `ClientMessageError`, `MessageError` — with a message.
* `MessagesError`, `InputPacketError`, `InputError` — in the loops over the
  chunks and the packets.
* `statusOf_peerInput` — the status has the bits of these errors, and no
  other.
-/

namespace PeerProtocol

open Lib

-- ---------------------------------------------------------------------------
-- The bits of a status
-- The words of `Lib.Flags` are statuses, and their flags are the bits that
-- are set.
-- ---------------------------------------------------------------------------

/-- The bits that are set. -/
def statusFlags (s : Status) : Set Nat := {i | s.toBitVec.getLsbD i = true}

theorem mem_statusFlags {s : Status} {i : Nat} :
    i ∈ statusFlags s ↔ s.toBitVec.getLsbD i = true := Iff.rfl

theorem statusFlags_kitOk : statusFlags kitOk = ∅ := by
  ext i
  simp [mem_statusFlags]

/-- Statuses combined by `|` have the bits of both. -/
theorem statusFlags_or (s s' : Status) :
    statusFlags (s ||| s') = statusFlags s ∪ statusFlags s' := by
  ext i
  simp [mem_statusFlags]

/-- Two statuses have a bit in common: what a caller tests with `&`. -/
theorem meets_statusFlags_iff {s s' : Status} : Meets statusFlags s s' ↔ s &&& s' ≠ 0 := by
  have hZero : s &&& s' = 0 ↔ ∀ i, ¬ (i ∈ statusFlags s ∧ i ∈ statusFlags s') := by
    rw [← UInt32.toBitVec_inj]
    constructor
    · intro h i
      have hBit := congrArg (fun x : BitVec 32 => x.getLsbD i) h
      simpa [mem_statusFlags] using hBit
    · intro h
      refine BitVec.eq_of_getLsbD_eq fun i _ => ?_
      have hBit := h i
      simp only [mem_statusFlags] at hBit
      simpa using hBit
  rw [ne_eq, hZero, not_forall]
  exact exists_congr fun i => not_not.symm

/-- The codes of the errors of an input. Every status that an input returns is made
of these. -/
def inputCodes : List Status :=
  [peerErrorBadAlloc, peerErrorInvalidMessageSize, peerErrorInvalidPacketSize,
    peerErrorInvalidMessageIndex, peerErrorInvalidMessageTime, peerErrorInvalidMessageActor,
    peerErrorNoFreeSlots, peerErrorUnknownServiceId]

/-- The bits of the status are those of the errors that occurred. -/
abbrev StatusOf (codes : List Status) (s : Status) (occurred : Status → Prop) : Prop :=
  Reports statusFlags {e | e ∈ codes} s occurred

section

variable {codes : List Status} {s s' : Status} {occurred occurred' : Status → Prop}

theorem StatusOf.ok (h : ∀ e, ¬ occurred e) : StatusOf codes kitOk occurred :=
  .none statusFlags_kitOk h

theorem StatusOf.nothing : StatusOf codes kitOk fun _ => False := .ok fun _ hError => hError

/-- The status of a call that ends with one code is that code. -/
def CodeOf (s e : Status) : Prop := s ≠ kitOk ∧ e = s

/-- Such a status reports itself, if it is one of the codes. -/
theorem StatusOf.code (h : s = kitOk ∨ s ∈ codes) : StatusOf codes s (CodeOf s) := by
  by_cases hOk : s = kitOk
  · rw [hOk]
    exact .ok fun _ hError => hError.1 rfl
  · exact .single (h.resolve_left hOk) fun e => and_iff_right hOk

/-- Two parts of a computation, whose statuses are united. -/
theorem StatusOf.or (h : StatusOf codes s occurred) (h' : StatusOf codes s' occurred') :
    StatusOf codes (s ||| s') fun e => occurred e ∨ occurred' e :=
  Reports.or (statusFlags_or s s') h h'

end

/-- A computation ends well, with a result that has the property. Errors of a later
part are errors in the state that the earlier parts have left, if they have left
one. -/
def EndsWith {α : Type} (x : Except Fault α) (P : α → Prop) : Prop := ∃ a, x = .ok a ∧ P a

/-- Of a computation that has ended it is the property of its result. -/
@[simp] theorem endsWith_ok {α : Type} {a : α} {P : α → Prop} : EndsWith (.ok a) P ↔ P a := by
  simp [EndsWith]

-- ---------------------------------------------------------------------------
-- peer_unpack
-- The loop ends at the first error, so it has at most one.
-- ---------------------------------------------------------------------------

/-- A message begins at `offset`, and its size field is `n`: the loop gets to its
tests. -/
structure MessageAt (data : Buffer UInt8 peerPacketSize) (size : Int) (offset n : Nat) : Prop where
  more : (offset : Int) + peerNMessageData ≤ size
  read : peerReadMessageSize (data.elems.drop offset) = .ok n
  ne : n ≠ 0

/-- The size field of a message is what it is. -/
theorem MessageAt.unique {data : Buffer UInt8 peerPacketSize} {size : Int} {offset n m : Nat}
    (h : MessageAt data size offset n) (h' : MessageAt data size offset m) : n = m :=
  Except.ok.inj (h.read.symm.trans h'.read)

/-- The requests for one more chunk: its place in the list, and room for its bytes. -/
def Allocator.forChunk (al : Allocator) (n : Nat) : Bool × Allocator :=
  match al.request with
  | (false, al) => (false, al)
  | (true, al) => al.daInit n

/-- What goes wrong in the loop over the messages of a packet, from `offset` on. -/
inductive UnpackError (data : Buffer UInt8 peerPacketSize) (size : Int) :
    Nat → Allocator → Status → Prop where
  /-- the message reaches out of the packet -/
  | tooLong {offset n : Nat} {al : Allocator} (hAt : MessageAt data size offset n)
      (hLong : offset + n > peerPacketSize) :
      UnpackError data size offset al peerErrorInvalidMessageSize
  /-- its chunk is refused -/
  | refused {offset n : Nat} {al : Allocator} (hAt : MessageAt data size offset n)
      (hFits : ¬ offset + n > peerPacketSize) (hRefused : (al.forChunk n).1 = false) :
      UnpackError data size offset al peerErrorBadAlloc
  /-- the message is unpacked, and something goes wrong behind it -/
  | later {offset n : Nat} {al : Allocator} {e : Status} (hAt : MessageAt data size offset n)
      (hFits : ¬ offset + n > peerPacketSize) (hGranted : (al.forChunk n).1 = true)
      (h : UnpackError data size (offset + n) (al.forChunk n).2 e) :
      UnpackError data size offset al e

/-- An error has a message that it is about, or that is on the way to it. -/
theorem UnpackError.exists_message {data : Buffer UInt8 peerPacketSize} {size : Int} {offset : Nat}
    {al : Allocator} {e : Status} (h : UnpackError data size offset al e) :
    ∃ n, MessageAt data size offset n := by
  cases h with
  | tooLong hAt => exact ⟨_, hAt⟩
  | refused hAt => exact ⟨_, hAt⟩
  | later hAt => exact ⟨_, hAt⟩

/-- The tests of one turn in their order, and then the rest of the packet: a size
that leads past the packet ends the loop with its error, and a refused request with
another, so at most one of them is reported for a packet. -/
theorem unpackError_iff {data : Buffer UInt8 peerPacketSize} {size : Int} {offset n : Nat}
    {al : Allocator} {e : Status} (hAt : MessageAt data size offset n) :
    UnpackError data size offset al e ↔
      Checked (offset + n > peerPacketSize) peerErrorInvalidMessageSize
        (Checked ((al.forChunk n).1 = false) peerErrorBadAlloc
          (UnpackError data size (offset + n) (al.forChunk n).2)) e := by
  constructor
  · intro h
    -- Each way to an error is at the same size field, which the offset determines.
    cases h with
    | tooLong hAt' hLong =>
      obtain rfl := hAt.unique hAt'
      exact Or.inl ⟨hLong, rfl⟩
    | refused hAt' hFits hRefused =>
      obtain rfl := hAt.unique hAt'
      exact Or.inr ⟨hFits, Or.inl ⟨hRefused, rfl⟩⟩
    | later hAt' hFits hGranted hLater =>
      obtain rfl := hAt.unique hAt'
      exact Or.inr ⟨hFits, Or.inr ⟨Bool.not_eq_false _ ▸ hGranted, hLater⟩⟩
  · rintro (⟨hLong, rfl⟩ | ⟨hFits, ⟨hRefused, rfl⟩ | ⟨hGranted, hLater⟩⟩)
    · exact .tooLong hAt hLong
    · exact .refused hAt hFits hRefused
    · exact .later hAt hFits (Bool.eq_true_of_not_eq_false hGranted) hLater

/-- The loop over the messages, with turns for as many bytes as are left. Its status
is that of the test that ends it, or none where it comes to the end of the packet. -/
theorem statusOf_unpackMessages {data : Buffer UInt8 peerPacketSize} {size : Int}
    (hSize : size ≤ peerPacketSize) {fuel offset : Nat} (hFuel : peerPacketSize ≤ offset + fuel)
    {chunks chunks' : List Chunk} {al al' : Allocator} {s : Status}
    (h : unpackMessages data size fuel offset chunks al = .ok (s, chunks', al')) :
    StatusOf inputCodes s (UnpackError data size offset al) := by
  induction fuel generalizing offset chunks al with
  | zero =>
    obtain ⟨rfl, _⟩ := Prod.mk.inj (Except.ok.inj h)
    refine .ok fun e hError => ?_
    -- there are turns for all bytes, and no message begins behind the packet
    obtain ⟨n, hAt⟩ := hError.exists_message
    have hMore := hAt.more
    simp only [peerPacketSize, peerNMessageData] at hSize hFuel hMore
    omega
  | succ fuel ih =>
    rw [unpackMessages] at h
    split at h
    swap
    · next hEnd =>
      obtain ⟨rfl, _⟩ := Prod.mk.inj (Except.ok.inj h)
      refine .ok fun e hError => ?_
      obtain ⟨n, hAt⟩ := hError.exists_message
      exact hEnd hAt.more
    next hMore =>
    obtain ⟨n, hRead, h⟩ := bind_eq_ok.mp h
    split at h
    · next hZero =>
      obtain ⟨rfl, _⟩ := Prod.mk.inj (Except.ok.inj h)
      refine .ok fun e hError => ?_
      obtain ⟨m, hAt⟩ := hError.exists_message
      exact hAt.ne ((Except.ok.inj (hAt.read.symm.trans hRead)).trans hZero)
    next hNe =>
    have hAt : MessageAt data size offset n := ⟨hMore, hRead, hNe⟩
    -- a message begins here: the checks on it, in the order of the source
    refine Reports.congr ?_ fun e => unpackError_iff hAt
    split at h
    · next hLong =>
      obtain ⟨rfl, _⟩ := Prod.mk.inj (Except.ok.inj h)
      exact .bad hLong (by decide)
    next hFits =>
    refine .good hFits ?_
    rcases hRequest : al.request with ⟨place, al1⟩
    rw [hRequest] at h
    cases place with
    | false =>
      obtain ⟨rfl, _⟩ := Prod.mk.inj (Except.ok.inj h)
      exact .bad (by rw [Allocator.forChunk, hRequest]) (by decide)
    | true =>
    dsimp only at h
    rcases hInit : al1.daInit n with ⟨room, al2⟩
    have hBoth : al.forChunk n = (room, al2) := by rw [Allocator.forChunk, hRequest, ← hInit]
    rw [hBoth]
    rw [hInit] at h
    cases room with
    | false =>
      obtain ⟨rfl, _⟩ := Prod.mk.inj (Except.ok.inj h)
      exact .bad rfl (by decide)
    | true => exact .good (fun hRefused => Bool.noConfusion hRefused) (ih (by omega) h)

/-- What goes wrong with a packet that is unpacked: its size is none that a
packet can have, or something goes wrong with its messages. -/
def PacketError (packet : PeerPacket) (al : Allocator) (e : Status) : Prop :=
  packet.size ≠ 0 ∧
    Checked (packet.size < peerNPacketMessages ∨ packet.size > peerPacketSize)
      peerErrorInvalidPacketSize (UnpackError packet.data packet.size peerNPacketMessages al) e

/-- A packet: its size is tested first, and only one of an accepted size comes to
the loop. The error of a packet does not keep the packets behind it from being read. -/
theorem statusOf_unpackPacket {packet : PeerPacket} {chunks chunks' : List Chunk}
    {al al' : Allocator} {s : Status} (h : unpackPacket packet chunks al = .ok (s, chunks', al')) :
    StatusOf inputCodes s (PacketError packet al) := by
  unfold unpackPacket at h
  split at h
  · next hZero =>
    obtain ⟨rfl, _⟩ := Prod.mk.inj (Except.ok.inj h)
    exact .ok fun e hError => hError.1 hZero
  next hNe =>
  refine .when hNe ?_
  split at h
  · next hBad =>
    obtain ⟨rfl, _⟩ := Prod.mk.inj (Except.ok.inj h)
    exact .bad hBad (by decide)
  · next hGood =>
    have hSize : packet.size ≤ peerPacketSize := not_lt.mp fun hBig => hGood (Or.inr hBig)
    exact .good hGood (statusOf_unpackMessages hSize (by simp) h)

-- ---------------------------------------------------------------------------
-- queue_insert
-- ---------------------------------------------------------------------------

/-- The requests of `queue_insert` at index `i` are granted: for the queue up to
the index, where it ends before, and for the data. -/
def insertGranted (q : PeerQueue) (i : Nat) (data : List UInt8) (al : Allocator) : Bool :=
  if i < q.length then (al.daInit data.length).1
  else al.request.1 && (al.request.2.daInit data.length).1

/-- What goes wrong with a message that is inserted into a queue: its index is
negative, and not the one of an unindexed message, or it is new and a request is
refused. -/
def InsertError (q : PeerQueue) (index : Int) (data : List UInt8) (al : Allocator) (e : Status) :
    Prop :=
  index ≠ peerUndefined ∧
    Checked (index < 0) peerErrorInvalidMessageIndex
      (fun e => (q[index.toNat]?).any (·.isReady) = false ∧
        Checked (insertGranted q index.toNat data al = false) peerErrorBadAlloc (fun _ => False) e) e

/-- The last request is that for the data. -/
theorem statusOf_queueStore (q : PeerQueue) (i : Nat) (time actor : Int) (data : List UInt8)
    (al : Allocator) :
    StatusOf inputCodes (queueStore q i time actor data al).1
      (Checked ((al.daInit data.length).1 = false) peerErrorBadAlloc fun _ => False) := by
  unfold queueStore
  rcases al.daInit data.length with ⟨room, al1⟩
  cases room with
  | false =>
    show StatusOf inputCodes peerErrorBadAlloc _
    exact .bad rfl (by decide)
  | true => exact .good (fun hRefused => Bool.noConfusion hRefused) StatusOf.nothing

/-- Each branch ends with one code, and the errors are told from the arguments: a
negative index, a request that is refused when the queue has to grow, and one that
is refused for the data. -/
theorem statusOf_queueInsert {q q' : PeerQueue} {index time actor : Int} {data : List UInt8}
    {al al' : Allocator} {s : Status} (h : queueInsert q index time actor data al = .ok (s, q', al')) :
    StatusOf inputCodes s (InsertError q index data al) := by
  unfold queueInsert at h
  split at h
  · next hUndefined =>
    obtain ⟨rfl, _⟩ := Prod.mk.inj (Except.ok.inj h)
    exact .ok fun e hError => hError.1 hUndefined
  next hIndexed =>
  refine .when hIndexed ?_
  split at h
  · next hNeg =>
    obtain ⟨rfl, _⟩ := Prod.mk.inj (Except.ok.inj h)
    exact .bad hNeg (by decide)
  next hNonneg =>
  refine .good hNonneg ?_
  split at h
  · next hReady =>
    obtain ⟨rfl, _⟩ := Prod.mk.inj (Except.ok.inj h)
    exact StatusOf.ok fun e hError => absurd hReady (by simp [hError.1])
  next hNew =>
  refine .when (Bool.eq_false_of_not_eq_true hNew) ?_
  split at h
  · next hInside =>
    have hGranted : insertGranted q index.toNat data al = (al.daInit data.length).1 := if_pos hInside
    have hs : (queueStore q index.toNat time actor data al).1 = s :=
      congrArg Prod.fst (Except.ok.inj h)
    rw [hGranted, ← hs]
    exact statusOf_queueStore ..
  -- the queue ends before the index, so it has to grow first
  next hBehind =>
  split at h
  · cases h
  have hGranted : insertGranted q index.toNat data al =
      (al.request.1 && (al.request.2.daInit data.length).1) := if_neg hBehind
  rw [hGranted]
  rcases hRequest : al.request with ⟨place, al1⟩
  rw [hRequest] at h
  cases place with
  | false =>
    obtain ⟨rfl, _⟩ := Prod.mk.inj (Except.ok.inj h)
    exact .bad rfl (by decide)
  | true =>
    have hs : (queueStore (queueGrow q index.toNat) index.toNat time actor data al1).1 = s :=
      congrArg Prod.fst (Except.ok.inj h)
    rw [← hs]
    exact statusOf_queueStore ..

-- ---------------------------------------------------------------------------
-- One message
-- What is refused, what is unknown, and what cannot be stored.
-- ---------------------------------------------------------------------------

/-- A service message whose service id is not one of those, or that has none. -/
def UnknownService (chunk : Chunk) (header : MessageHeader) (known : List UInt8) : Prop :=
  header.mode = peerMessageModeService ∧
    ∀ id ∈ known, readServiceId chunk header ≠ .ok (some id)

/-- What goes wrong with a message whose header is accepted: its service id is
unknown, or it cannot be inserted into the queue. -/
def BodyError (known : List UInt8) (queue : PeerQueue) (chunk : Chunk) (header : MessageHeader)
    (al : Allocator) : Status → Prop :=
  Checked (UnknownService chunk header known) peerErrorUnknownServiceId fun e =>
    header.mode ≠ peerMessageModeService ∧
      EndsWith (chunkData chunk peerNMessageData header.dataSize) fun data =>
        InsertError queue header.index data al e

/-- What goes wrong with a message to a host: its time, then its actor id, then its
body. -/
def HostMessageError (slot : PeerSlot) (chunk : Chunk) (header : MessageHeader) (al : Allocator) :
    Status → Prop :=
  Checked (header.time ≠ 0) peerErrorInvalidMessageTime
    (Checked ((header.actor : Int) ≠ slot.actor) peerErrorInvalidMessageActor
      (BodyError [peerMHeartbeat] slot.queue chunk header al))

/-- What goes wrong with a message to a client, which checks neither time nor actor id. -/
def ClientMessageError (queue : PeerQueue) (chunk : Chunk) (header : MessageHeader)
    (al : Allocator) : Status → Prop :=
  BodyError [peerMHeartbeat, peerMSessionResponse] queue chunk header al

section

variable {known : List UInt8} {queue : PeerQueue} {chunk : Chunk} {header : MessageHeader}
  {al : Allocator}

/-- A service message that is known is no error. -/
theorem statusOf_knownService {id : UInt8} (hService : header.mode = peerMessageModeService)
    (hId : readServiceId chunk header = .ok (some id)) (hKnown : id ∈ known) :
    StatusOf inputCodes kitOk (BodyError known queue chunk header al) :=
  .good (fun hUnknown => hUnknown.2 id hKnown hId) (StatusOf.ok fun _ hError => hError.1 hService)

/-- One that is not is reported. -/
theorem statusOf_unknownService {serviceId : Option UInt8}
    (hService : header.mode = peerMessageModeService)
    (hId : readServiceId chunk header = .ok serviceId) (hOther : ∀ id ∈ known, serviceId ≠ some id) :
    StatusOf inputCodes peerErrorUnknownServiceId (BodyError known queue chunk header al) := by
  refine .bad ⟨hService, fun id hKnown hRead => ?_⟩ (by decide)
  rw [hId, Except.ok.injEq] at hRead
  exact hOther id hKnown hRead

/-- An application's message ends with what its insertion does. -/
theorem statusOf_application {data : List UInt8} {time actor : Int} {queue' : PeerQueue}
    {al' : Allocator} {s : Status} (hApplication : header.mode ≠ peerMessageModeService)
    (hData : chunkData chunk peerNMessageData header.dataSize = .ok data)
    (hInsert : queueInsert queue header.index time actor data al = .ok (s, queue', al')) :
    StatusOf inputCodes s (BodyError known queue chunk header al) := by
  refine .good (fun hUnknown => hApplication hUnknown.1) (.when hApplication ?_)
  refine (statusOf_queueInsert hInsert).congr fun e => ?_
  rw [hData, endsWith_ok]

end

theorem statusOf_inputChunkHost {slot slot' : PeerSlot} {chunk : Chunk} {header : MessageHeader}
    {al al' : Allocator} {s : Status} (hHeader : readHeader chunk = .ok header)
    (h : inputChunkHost slot chunk al = .ok (s, slot', al')) :
    StatusOf inputCodes s (HostMessageError slot chunk header al) := by
  rw [inputChunkHost, hHeader, ok_bind] at h
  split at h
  · next hTime =>
    obtain ⟨rfl, _⟩ := Prod.mk.inj (Except.ok.inj h)
    exact .bad hTime (by decide)
  next hTime =>
  refine .good hTime ?_
  split at h
  · next hActor =>
    obtain ⟨rfl, _⟩ := Prod.mk.inj (Except.ok.inj h)
    exact .bad hActor (by decide)
  next hActor =>
  refine .good hActor ?_
  obtain ⟨serviceId, hId, h⟩ := bind_eq_ok.mp h
  -- what is left is a service message or one for the queue
  split at h
  · next hService =>
    split at h
    · next hBeat =>
      obtain ⟨rfl, _⟩ := Prod.mk.inj (Except.ok.inj h)
      exact statusOf_knownService hService (hBeat ▸ hId) (List.mem_singleton_self _)
    · next hOther =>
      obtain ⟨rfl, _⟩ := Prod.mk.inj (Except.ok.inj h)
      refine statusOf_unknownService hService hId fun id hKnown => ?_
      rwa [List.mem_singleton.mp hKnown]
  · next hApplication =>
    obtain ⟨data, hData, h⟩ := bind_eq_ok.mp h
    obtain ⟨⟨s1, q, al1⟩, hInsert, h⟩ := bind_eq_ok.mp h
    obtain ⟨rfl, _⟩ := Prod.mk.inj (Except.ok.inj h)
    exact statusOf_application hApplication hData hInsert

/-- The turn on a client, which tests neither the time nor the actor id. It can
report what an insertion into the mutual queue reports, and of a service message
that its id is not one that a client knows. -/
theorem statusOf_inputChunkClient {peer peer' : Peer} {j : Nat} {chunk : Chunk}
    {header : MessageHeader} {s : Status} (hHeader : readHeader chunk = .ok header)
    (h : inputChunkClient peer j chunk = .ok (s, peer')) :
    StatusOf inputCodes s (ClientMessageError peer.queue chunk header peer.alloc) := by
  rw [inputChunkClient, hHeader, ok_bind] at h
  obtain ⟨serviceId, hId, h⟩ := bind_eq_ok.mp h
  dsimp only at h
  -- neither time nor actor id is checked
  split at h
  · next hService =>
    split at h
    · next hBeat =>
      obtain ⟨rfl, _⟩ := Prod.mk.inj (Except.ok.inj h)
      exact statusOf_knownService hService (hBeat ▸ hId) (List.mem_cons_self ..)
    next hBeat =>
    split at h
    · next hResponse =>
      obtain ⟨slot, _, h⟩ := bind_eq_ok.mp h
      obtain ⟨peer1, _, h⟩ := bind_eq_ok.mp h
      obtain ⟨rfl, _⟩ := Prod.mk.inj (Except.ok.inj h)
      exact statusOf_knownService hService (hResponse ▸ hId)
        (List.mem_cons_of_mem _ (List.mem_singleton_self _))
    · next hResponse =>
      obtain ⟨rfl, _⟩ := Prod.mk.inj (Except.ok.inj h)
      refine statusOf_unknownService hService hId fun id hKnown => ?_
      rcases List.mem_cons.mp hKnown with rfl | hLast
      · exact hBeat
      · rwa [List.mem_singleton.mp hLast]
  · next hApplication =>
    obtain ⟨data, hData, h⟩ := bind_eq_ok.mp h
    obtain ⟨⟨s1, q, al1⟩, hInsert, h⟩ := bind_eq_ok.mp h
    obtain ⟨rfl, _⟩ := Prod.mk.inj (Except.ok.inj h)
    exact statusOf_application hApplication hData hInsert

/-- What goes wrong with a message for the slot at position `j`, in either mode. At
most one of these occurs for a message, since each ends the turn. -/
def MessageError (peer : Peer) (j : Nat) (chunk : Chunk) (e : Status) : Prop :=
  EndsWith (readHeader chunk) fun header =>
    match peer.mode with
    | .host => ∃ slot, peer.slots[j]? = some slot ∧ HostMessageError slot chunk header peer.alloc e
    | .client => ClientMessageError peer.queue chunk header peer.alloc e

theorem statusOf_inputChunk {peer peer' : Peer} {j : Nat} {chunk : Chunk} {s : Status}
    (h : inputChunk peer j chunk = .ok (s, peer')) :
    StatusOf inputCodes s (MessageError peer j chunk) := by
  unfold inputChunk at h
  cases hMode : peer.mode with
  | host =>
    rw [hMode] at h
    obtain ⟨slot, hSlot, h⟩ := bind_eq_ok.mp h
    obtain ⟨⟨s1, slot1, al1⟩, hChunk, h⟩ := bind_eq_ok.mp h
    obtain ⟨rfl, _⟩ := Prod.mk.inj (Except.ok.inj h)
    -- A chunk that did not fault has a header, so the error can speak of it.
    obtain ⟨header, hHeader, _⟩ := bind_eq_ok.mp hChunk
    refine (statusOf_inputChunkHost hHeader hChunk).congr fun e => ?_
    rw [MessageError, hHeader, endsWith_ok, hMode]
    simp only [readAt_eq_ok.mp hSlot, Option.some.injEq, exists_eq_left']
  | client =>
    rw [hMode] at h
    obtain ⟨header, hHeader, _⟩ := bind_eq_ok.mp h
    refine (statusOf_inputChunkClient hHeader h).congr fun e => ?_
    rw [MessageError, hHeader, endsWith_ok, hMode]

/-- What goes wrong with one of the messages of a packet: each is looked at in the
state that those before have left. -/
def MessagesError (j : Nat) : List Chunk → Peer → Status → Prop
  | [], _, _ => False
  | chunk :: chunks, peer, e =>
    MessageError peer j chunk e ∨
      EndsWith (inputChunk peer j chunk) fun (_, peer) => MessagesError j chunks peer e

theorem statusOf_inputChunks {j : Nat} {chunks : List Chunk} {peer peer' : Peer} {s : Status}
    (h : inputChunks j chunks peer = .ok (s, peer')) :
    StatusOf inputCodes s (MessagesError j chunks peer) := by
  induction chunks generalizing peer peer' s with
  | nil =>
    obtain ⟨rfl, _⟩ := Prod.mk.inj (Except.ok.inj h)
    exact .ok fun _ hError => hError
  | cons chunk chunks ih =>
    obtain ⟨⟨s1, p1⟩, hFirst, h⟩ := bind_eq_ok.mp h
    obtain ⟨⟨s2, p2⟩, hRest, h⟩ := bind_eq_ok.mp h
    obtain ⟨rfl, _⟩ := Prod.mk.inj (Except.ok.inj h)
    refine ((statusOf_inputChunk hFirst).or (ih hRest)).congr fun e => ?_
    rw [MessagesError, hFirst, endsWith_ok]

-- ---------------------------------------------------------------------------
-- One packet
-- ---------------------------------------------------------------------------

/-- The host cannot give the sender of a packet a slot: it listens, and all others
are taken or have no address yet. -/
structure NoFreeSlots (peer : Peer) : Prop where
  mode : peer.mode = .host
  listening : ∃ first, peer.slots.head? = some first ∧ first.remoteEnd.id = peerUndefined
  full : ∀ slot ∈ peer.slots.tail, slot.isFree = false

/-- Only a host that listens reports it: that no slot is free for a packet that
matches none. A client, or a host whose first slot is bound, reports nothing. -/
theorem statusOf_assignSlot (peer : Peer) (packet : PeerPacket) :
    StatusOf inputCodes (assignSlot peer packet).1
      fun e => NoFreeSlots peer ∧ e = peerErrorNoFreeSlots := by
  have hFull : freeSlot peer.slots = none ↔ ∀ slot ∈ peer.slots.tail, slot.isFree = false := by
    rw [freeSlot, Option.map_eq_none_iff, List.findIdx?_eq_none_iff]
  unfold assignSlot
  split
  · next hNot =>
    refine .ok fun e hError => ?_
    obtain ⟨⟨hMode, ⟨first, hFirst, hListening⟩, _⟩, _⟩ := hError
    refine hNot.elim (fun h => h hMode) fun h => h ?_
    rw [hFirst, Option.any_some, hListening, beq_self_eq_true]
  -- the host listens, so only a full list of slots is an error
  next hListens =>
  rw [not_or, not_not, not_not] at hListens
  obtain ⟨hMode, hFirst⟩ := hListens
  split
  · next j hFree =>
    refine .ok fun e hError => ?_
    rw [hFull.mpr hError.1.full] at hFree
    cases hFree
  · next hNone =>
    obtain ⟨first, hHead, hListening⟩ := (Option.any_eq_true _ _).mp hFirst
    show StatusOf inputCodes peerErrorNoFreeSlots _
    exact .single (by decide) fun e =>
      ⟨fun hError => hError.2, fun hEq => ⟨⟨hMode, ⟨first, hHead, beq_iff_eq.mp hListening⟩,
        hFull.mp hNone⟩, hEq⟩⟩

/-- What goes wrong with a packet that a peer is given. One that is not for this
peer is dropped, and is no error. -/
inductive InputPacketError (peer : Peer) (packet : PeerPacket) : Status → Prop where
  /-- the packet is for a slot, and cannot be unpacked -/
  | unpack {j : Nat} {e : Status}
      (hFor : peer.slots.findIdx? (·.matchesPacket packet) = some j)
      (h : PacketError packet peer.alloc e) : InputPacketError peer packet e
  /-- one of its messages is refused -/
  | message {j : Nat} {s e : Status} {chunks : List Chunk} {al : Allocator}
      (hFor : peer.slots.findIdx? (·.matchesPacket packet) = some j)
      (hUnpack : unpackPacket packet [] peer.alloc = .ok (s, chunks, al))
      (h : MessagesError j chunks { peer with alloc := al } e) : InputPacketError peer packet e
  /-- the packet is for no slot yet, and none is free -/
  | assign (hAddressed : Addressed peer packet)
      (hNew : peer.slots.findIdx? (·.matchesPacket packet) = none) (h : NoFreeSlots peer) :
      InputPacketError peer packet peerErrorNoFreeSlots

/-- One turn of the loop over the packets: the packet is unpacked for the first slot
that it matches, or binds a slot, or is for another peer. What it reports is the
errors of these, joined bit by bit. -/
theorem statusOf_inputPacket {peer peer' : Peer} {packet : PeerPacket} {s : Status}
    (h : inputPacket peer packet = .ok (s, peer')) :
    StatusOf inputCodes s (InputPacketError peer packet) := by
  cases hFor : peer.slots.findIdx? (·.matchesPacket packet) with
  | some j =>
    unfold inputPacket at h
    split at h
    swap
    · next hOther =>
      -- a packet for one of the slots is addressed to the peer
      obtain ⟨slot, hSlot, hMatch⟩ := findIdx?_matches hFor
      rw [PeerSlot.matchesPacket, Bool.and_eq_true] at hMatch
      exact absurd (List.any_eq_true.mpr ⟨slot, List.mem_of_getElem? hSlot, hMatch.1⟩) hOther
    rw [hFor] at h
    obtain ⟨⟨s1, chunks, al⟩, hUnpack, h⟩ := bind_eq_ok.mp h
    obtain ⟨⟨s2, peer2⟩, hChunks, h⟩ := bind_eq_ok.mp h
    obtain ⟨rfl, _⟩ := Prod.mk.inj (Except.ok.inj h)
    rw [peerUnpack_singleton] at hUnpack
    -- what is unpacked before a packet turns out broken is read all the same
    refine ((statusOf_unpackPacket hUnpack).or (statusOf_inputChunks hChunks)).congr fun e => ?_
    constructor
    · intro hError
      cases hError with
      | unpack _ hPacket => exact Or.inl hPacket
      | message hFor' hUnpack' hMessages =>
        obtain rfl := Option.some.inj (hFor'.symm.trans hFor)
        rw [hUnpack] at hUnpack'
        cases hUnpack'
        exact Or.inr hMessages
      | assign _ hNew =>
        rw [hFor] at hNew
        cases hNew
    · rintro (hPacket | hMessages)
      · exact .unpack hFor hPacket
      · exact .message hFor hUnpack hMessages
  | none =>
    -- only the assignment of a slot is left to go wrong
    have hOnly (e : Status) : InputPacketError peer packet e ↔
        Addressed peer packet ∧ NoFreeSlots peer ∧ e = peerErrorNoFreeSlots := by
      constructor
      · intro hError
        cases hError with
        | unpack hSome =>
          rw [hFor] at hSome
          cases hSome
        | message hSome =>
          rw [hFor] at hSome
          cases hSome
        | assign hAddressed _ hFull => exact ⟨hAddressed, hFull, rfl⟩
      · rintro ⟨hAddressed, hFull, rfl⟩
        exact .assign hAddressed hFor hFull
    unfold inputPacket at h
    split at h
    · next hAddressed =>
      rw [hFor] at h
      have hs : (assignSlot peer packet).1 = s := congrArg Prod.fst (Except.ok.inj h)
      rw [← hs]
      refine (statusOf_assignSlot peer packet).congr fun e => ?_
      exact (hOnly e).trans (and_iff_right hAddressed)
    · next hOther =>
      obtain ⟨rfl, _⟩ := Prod.mk.inj (Except.ok.inj h)
      exact .ok fun e hError => hOther ((hOnly e).mp hError).1

-- ---------------------------------------------------------------------------
-- All packets
-- ---------------------------------------------------------------------------

/-- What goes wrong with one of the packets, in the state that those before have
left. No error ends the loop, so any number of them can occur. -/
def InputError : Peer → List PeerPacket → Status → Prop
  | _, [], _ => False
  | peer, packet :: packets, e =>
    InputPacketError peer packet e ∨
      EndsWith (inputPacket peer packet) fun (_, peer) => InputError peer packets e

/-- **The status of an input** has the bits of the errors that occurred for its
packets and messages, and no other. -/
theorem statusOf_peerInput {peer peer' : Peer} {packets : List PeerPacket} {s : Status}
    (h : peerInput peer packets = .ok (s, peer')) :
    StatusOf inputCodes s (InputError peer packets) := by
  induction packets generalizing peer s with
  | nil =>
    obtain ⟨rfl, _⟩ := Prod.mk.inj (Except.ok.inj h)
    exact .ok fun _ hError => hError
  | cons packet packets ih =>
    obtain ⟨⟨s1, p1⟩, hFirst, h⟩ := bind_eq_ok.mp h
    obtain ⟨⟨s2, p2⟩, hRest, h⟩ := bind_eq_ok.mp h
    obtain ⟨rfl, hEq⟩ := Prod.mk.inj (Except.ok.inj h)
    refine ((statusOf_inputPacket hFirst).or (ih (hEq ▸ hRest))).congr fun e => ?_
    rw [InputError, hFirst, endsWith_ok]

end PeerProtocol
