-- Signals and slots: the two lists of a connection, and the functions that
-- change them. A pointer to a signal or a slot is the number of the object;
-- only the keys of `beingDestroyed` outlive the object, and they are addresses.
import CsSignal.Bento
import CsSignal.Cursor
import CsSignal.Lib.Calls

namespace CsSignal

open LinkedCells Calls

abbrev SenderId := Nat
abbrev ReceiverId := Nat
abbrev Addr := Nat

/-- `SignalBase::ConnectStruct`. -/
structure ConnectStruct where
  signalMethod : Bento
  receiver : ReceiverId
  slotMethod : Bento
  type : ConnectionKind
  deriving DecidableEq, Repr

/-- The fields of a `SignalBase` beside its list. -/
structure SignalBase where
  addr : Addr
  activateBusy : Int
  deriving DecidableEq

/-- The exceptions that the library itself throws. -/
inductive Exception
  | badAlloc
  | invalidArgument (what : String)
  deriving DecidableEq, Repr

/-- The objects of one thread of the program. The memory of a list outlives its
object, as far as its destructor leaves it. -/
structure World where
  sender : SenderId → Option SignalBase := fun _ => none
  connectList : SenderId → RcuList ConnectStruct := fun _ => {}
  receiver : ReceiverId → Bool := fun _ => false
  possibleSenders : ReceiverId → RcuList SenderId := fun _ => {}
  senderCount : Nat := 0
  receiverCount : Nat := 0
  beingDestroyed : Finset Addr := ∅
  /-- Is the mutex of `beingDestroyed` locked? -/
  destroyedLocked : Bool := false
  /-- How many allocations succeed before one fails; `none` when none fails. -/
  allocs : Option Nat := none

abbrev Op (α : Type) := Call World Exception Fault α

/-- The world after `n` allocations. -/
def World.spend (w : World) (n : Nat) : World := { w with allocs := w.allocs.map (· - n) }

/-- The next `n` allocations succeed. -/
def World.enough (w : World) (n : Nat) : Prop := ∀ k, w.allocs = some k → n ≤ k

/-- Asks the allocator for memory. -/
def allocate : Op Unit := fun w =>
  match w.allocs with
  | none => .returned () w
  | some 0 => .thrown .badAlloc { w with allocs := none }
  | some (k + 1) => .returned () { w with allocs := some k }

/-! ## The two lists of the library -/

/-- A list that is a member of an object. -/
structure ListRef (α : Type) where
  live : World → Bool
  get : World → RcuList α
  set : World → RcuList α → World
  get_set : ∀ w l, get (set w l) = l
  set_get : ∀ w, set w (get w) = w
  set_set : ∀ w l l', set (set w l) l' = set w l'
  live_set : ∀ w l, live (set w l) = live w
  allocs_set : ∀ w l, (set w l).allocs = w.allocs
  get_spend : ∀ w n, get (w.spend n) = get w
  live_spend : ∀ w n, live (w.spend n) = live w
  set_spend : ∀ w n l, set (w.spend n) l = (set w l).spend n

/-- `SignalBase::m_connectList`. -/
def connectListOf (s : SenderId) : ListRef ConnectStruct where
  live w := (w.sender s).isSome
  get w := w.connectList s
  set w l := { w with connectList := Function.update w.connectList s l }
  get_set w l := Function.update_self _ _ _
  set_get w := by simp
  set_set w l l' := by simp
  live_set w l := rfl
  allocs_set w l := rfl
  get_spend w n := rfl
  live_spend w n := rfl
  set_spend w n l := rfl

/-- `SlotBase::m_possibleSenders`. -/
def possibleSendersOf (r : ReceiverId) : ListRef SenderId where
  live w := w.receiver r
  get w := w.possibleSenders r
  set w l := { w with possibleSenders := Function.update w.possibleSenders r l }
  get_set w l := Function.update_self _ _ _
  set_get w := by simp
  set_set w l l' := by simp
  live_set w l := rfl
  allocs_set w l := rfl
  get_spend w n := rfl
  live_spend w n := rfl
  set_spend w n l := rfl

namespace ListRef

variable {α β : Type} (ref : ListRef α)

/-- A call of a method of the list. -/
def call (f : RcuList α → Except Fault (β × RcuList α)) : Op β := fun w =>
  if ref.live w then
    match f (ref.get w) with
    | .ok (b, l) => .returned b (ref.set w l)
    | .error u => .undefined u
  else .undefined .destroyed

/-- Reads of the list. -/
def read (f : RcuList α → Except Fault β) : Op β := fun w =>
  if ref.live w then
    match f (ref.get w) with
    | .ok b => .returned b w
    | .error u => .undefined u
  else .undefined .destroyed

/-- The first access of a handle: `rcu_read_lock`, and for a write handle the
mutex, which no other handle of the thread holds. -/
def lock : Op Nat := do
  allocate
  ref.call fun l => .ok l.rcuReadLock

/-- The destructor of a handle. -/
def unlock (z : Nat) (w : World) : Except Fault World :=
  match (ref.get w).unlock z with
  | .ok l => .ok (ref.set w l)
  | .error u => .error u

/-- A block that uses the list through a handle of its own. -/
def withHandle (body : Op β) : Op β := do
  let z ← ref.lock
  inScope body (ref.unlock z)

def begin : Op (Option Nat) := ref.read fun l => .ok l.head

def deref (n : Nat) : Op (Node α) := ref.read fun l => l.deref n

/-- How far a loop over the list can run. -/
def bound : Op Nat := ref.read fun l => .ok l.nodeCount

def pushBack (data : α) : Op Unit := do
  allocate
  ref.call fun l => do
    let l ← l.pushBack data
    .ok ((), l)

/-- The first part of `erase`. -/
def unlink (n : Nat) : Op (Option Nat × Bool) :=
  ref.call fun l => do
    let (oldNext, found, nl) ← l.toNodeList.unlink n
    .ok ((oldNext, found), { l with toNodeList := nl })

/-- The second part of `erase`: the zombie entry of a node. -/
def retire (n : Nat) : Op Unit := do
  allocate
  ref.call fun l => .ok ((), l.pushZombie false (some n))

/-- `rcu_list::erase`; the end iterator is `none`. -/
def erase (iter : Option Nat) : Op (Option Nat) :=
  match iter with
  | none => undefined .nullPointer
  | some n => do
    let (oldNext, found) ← ref.unlink n
    if found then ref.retire n
    pure oldNext

/-- `find` of `cs_signal.h`, and the duplicate scans of `connect`: the first
node from `iter` on whose data has the property. -/
def find (p : α → Bool) (fuel : Nat) (iter : Option Nat) : Op (Option Nat) :=
  ref.read fun l => l.find p fuel iter

/-- The loop of both destructors: erases every entry that has the property. -/
def eraseAll (p : α → Bool) : Nat → Option Nat → Op Unit
  | _, none => pure ()
  | 0, some _ => undefined .fuel
  | fuel + 1, some n => do
    let c ← ref.deref n
    if p c.data then
      let next ← ref.erase (some n)
      eraseAll p fuel next
    else eraseAll p fuel c.next

/-- A walk over the list that runs `body` at each entry. -/
def forEach (body : α → Op Unit) : Nat → Option Nat → Op Unit
  | _, none => pure ()
  | 0, some _ => undefined .fuel
  | fuel + 1, some n => do
    let c ← ref.deref n
    body c.data
    let c ← ref.deref n
    forEach body fuel c.next

/-- A walk over the list that inserts a value of each entry in a set. -/
def collect [DecidableEq β] (f : α → Option β) : Nat → Option Nat → Finset β → Op (Finset β)
  | _, none, retval => pure retval
  | 0, some _, _ => undefined .fuel
  | fuel + 1, some n, retval => do
    let c ← ref.deref n
    match f c.data with
    | some b => collect f fuel c.next (insert b retval)
    | none => collect f fuel c.next retval

end ListRef

/-! ## Connecting -/

/-- `SignalBase::addConnection`. -/
def addConnection (sender : SenderId) (signalMethod : Bento) (receiver : ReceiverId)
    (slotMethod : Bento) (type : ConnectionKind) : Op Unit := do
  (connectListOf sender).pushBack ⟨signalMethod, receiver, slotMethod, type⟩
  (possibleSendersOf receiver).withHandle do
    (possibleSendersOf receiver).pushBack sender

/-- The duplicate scan of `connect`, which only a unique connection asks for. -/
def scanDuplicate (same : ConnectStruct → Bool) (sender : SenderId) (uniqueConnection : Bool) :
    Op (Option Nat) :=
  if uniqueConnection then do
    let fuel ← (connectListOf sender).bound
    let iter ← (connectListOf sender).begin
    (connectListOf sender).find same fuel iter
  else pure none

/-- What the three overloads of `connect` share: the duplicate scan with a test
of the overload's own, and the new connection. -/
def connectUnless (same : ConnectStruct → Bool) (sender : SenderId) (signalMethod : Bento)
    (receiver : ReceiverId) (slotMethod : Bento) (type : ConnectionKind)
    (uniqueConnection : Bool) : Op Bool :=
  (connectListOf sender).withHandle do
    let found ← scanDuplicate same sender uniqueConnection
    if found.isSome then pure false
    else
      addConnection sender signalMethod receiver slotMethod type
      pure true

/-- The test of the overloads that compare the slots. -/
def sameConnection (signalMethod : Bento) (receiver : ReceiverId) (slotMethod : Bento)
    (item : ConnectStruct) : Bool :=
  item.receiver == receiver && item.signalMethod.eq signalMethod && item.slotMethod.eq slotMethod

/-- The test of the overload for a lambda, which has no slot to compare. -/
def sameSignal (signalMethod : Bento) (receiver : ReceiverId) (item : ConnectStruct) : Bool :=
  item.receiver == receiver && item.signalMethod.eq signalMethod

/-- The overload of `connect` that a call selects. -/
inductive Overload
  | methodSlot
  | lambdaSlot
  | bento
  deriving DecidableEq, Repr

/-- `connect`, signal and slot method pointer. -/
def connectMethod (sender : SenderId) (signalMethod : Bento) (receiver : ReceiverId)
    (slotMethod : Bento) (type : ConnectionKind) (uniqueConnection : Bool) : Op Bool := do
  if signalMethod.isNull then
    raise (.invalidArgument "connect() Can not connect, signal is null")
  else if slotMethod.isNull then
    raise (.invalidArgument "connect(): Can not connect, slot is null")
  else
    allocate
    allocate
    connectUnless (sameConnection signalMethod receiver slotMethod) sender signalMethod receiver
      slotMethod type uniqueConnection

/-- `connect`, signal method pointer and a lambda, a function or a const method. -/
def connectLambda (sender : SenderId) (signalMethod : Bento) (receiver : ReceiverId)
    (slotLambda : Bento) (type : ConnectionKind) (uniqueConnection : Bool) : Op Bool := do
  if signalMethod.isNull then
    raise (.invalidArgument "connect(): Can not connect, signal is null")
  else
    allocate
    allocate
    connectUnless (sameSignal signalMethod receiver) sender signalMethod receiver slotLambda type
      uniqueConnection

/-- `connect`, signal and slot Bento. -/
def connectBento (sender : SenderId) (signalMethod : Bento) (receiver : ReceiverId)
    (slotMethod : Bento) (type : ConnectionKind) (uniqueConnection : Bool) : Op Bool :=
  connectUnless (sameConnection signalMethod receiver slotMethod) sender signalMethod receiver
    slotMethod type uniqueConnection

def connect : Overload → SenderId → Bento → ReceiverId → Bento → ConnectionKind → Bool → Op Bool
  | .methodSlot => connectMethod
  | .lambdaSlot => connectLambda
  | .bento => connectBento

/-! ## Disconnecting -/

/-- The match of `internal_disconnect`. A null argument is `none`. -/
def isMatch (signalBento : Option Bento) (receiver : Option ReceiverId) (slotBento : Option Bento)
    (temp : ConnectStruct) : Bool :=
  if signalBento.isNone && receiver.isNone then true
  else
    match receiver with
    | some r =>
      if r == temp.receiver then
        match signalBento with
        | none => slotBento.all (·.eq temp.slotMethod)
        | some sig => sig.eq temp.signalMethod && slotBento.all (·.eq temp.slotMethod)
      else false
    | none =>
      match signalBento with
      | some sig => sig.eq temp.signalMethod
      | none => false

/-- What `internal_disconnect` does at a match: the sender goes from the list of
the receiver, then the connection from the list of the sender. -/
def removeMatch (sender : SenderId) (iter : Nat) (receiver : ReceiverId) : Op Unit :=
  let receiverList := possibleSendersOf receiver
  receiverList.withHandle do
    let fuel ← receiverList.bound
    let first ← receiverList.begin
    let found ← receiverList.find (· == sender) fuel first
    let _ ← receiverList.erase found
    let _ ← (connectListOf sender).erase (some iter)

/-- The loop of `internal_disconnect`. -/
def disconnectFrom (sender : SenderId) (hit : ConnectStruct → Bool) :
    Nat → Option Nat → Bool → Op Bool
  | _, none, retval => pure retval
  | 0, some _, _ => undefined .fuel
  | fuel + 1, some iter, retval => do
    let temp ← (connectListOf sender).deref iter
    if hit temp.data then
      removeMatch sender iter temp.data.receiver
      let c ← (connectListOf sender).deref iter
      disconnectFrom sender hit fuel c.next true
    else disconnectFrom sender hit fuel temp.next retval

def internalDisconnect (sender : SenderId) (signalBento : Option Bento)
    (receiver : Option ReceiverId) (slotBento : Option Bento) : Op Bool :=
  (connectListOf sender).withHandle do
    let fuel ← (connectListOf sender).bound
    let iter ← (connectListOf sender).begin
    disconnectFrom sender (isMatch signalBento receiver slotBento) fuel iter false

/-- Both overloads of `disconnect`: all three arguments are there. -/
def disconnect (sender : SenderId) (signalMethod : Bento) (receiver : ReceiverId)
    (slotMethod : Bento) : Op Bool :=
  internalDisconnect sender (some signalMethod) (some receiver) (some slotMethod)

/-! ## The destructors -/

/-- `~rcu_list` of a member list. -/
def destroyList {α : Type} (ref : ListRef α) : Op Unit :=
  ref.call fun l => do
    let l ← l.destroy
    .ok ((), l)

/-- The end of the lifetime of a slot. -/
def endReceiver (receiver : ReceiverId) : Op Unit := fun w =>
  .returned () { w with receiver := Function.update w.receiver receiver false }

/-- The end of the lifetime of a signal. -/
def endSender (sender : SenderId) : Op Unit := fun w =>
  .returned () { w with sender := Function.update w.sender sender none }

/-- `SlotBase::~SlotBase`. -/
def destroySlotBase (receiver : ReceiverId) : Op Unit := do
  let own := possibleSendersOf receiver
  nothrow (own.withHandle do
    let fuel ← own.bound
    let first ← own.begin
    own.forEach (fun sender =>
      let senderList := connectListOf sender
      senderList.withHandle do
        let fuel ← senderList.bound
        let iter ← senderList.begin
        senderList.eraseAll (·.receiver == receiver) fuel iter) fuel first) .terminated
  destroyList own
  endReceiver receiver

/-- The part of `SignalBase::~SignalBase` that a running `activate` needs. -/
def markDestroyed (sender : SenderId) : Op Unit := fun w =>
  match w.sender sender with
  | none => .undefined .destroyed
  | some o =>
    if o.activateBusy > 0 then
      if w.destroyedLocked then .undefined .relocked
      else .returned () { w with beingDestroyed := insert o.addr w.beingDestroyed }
    else .returned () w

/-- `SignalBase::~SignalBase`. -/
def destroySignalBase (sender : SenderId) : Op Unit := do
  let own := connectListOf sender
  nothrow (do
    markDestroyed sender
    own.withHandle do
      let fuel ← own.bound
      let first ← own.begin
      own.forEach (fun item =>
        let receiverList := possibleSendersOf item.receiver
        receiverList.withHandle do
          let fuel ← receiverList.bound
          let iter ← receiverList.begin
          receiverList.eraseAll (· == sender) fuel iter) fuel first) .terminated
  destroyList own
  endSender sender

/-! ## Questions -/

/-- `SlotBase::internal_senderList`. -/
def internalSenderList (receiver : ReceiverId) : Op (Finset SenderId) :=
  let own := possibleSendersOf receiver
  own.withHandle do
    let fuel ← own.bound
    let first ← own.begin
    own.collect some fuel first ∅

/-- `SignalBase::internal_receiverList`. -/
def internalReceiverList (sender : SenderId) (signalMethod : Bento) : Op (Finset ReceiverId) :=
  let own := connectListOf sender
  own.withHandle do
    let fuel ← own.bound
    let first ← own.begin
    own.collect (fun item => if item.signalMethod.eq signalMethod then some item.receiver else none)
      fuel first ∅

end CsSignal
