-- `activate`, as a machine of one thread. Between two of its steps the code of
-- the user runs: at the top, in a slot, in `queueSlot`, in `compareThreads` or in
-- `handleException`. An action is one call that this code makes, or its end.
import CsSignal.Questions
import CsSignal.Iteration
import CsSignal.Lib.Runs

namespace CsSignal

open LinkedCells Calls

/-! ## The state -/

/-- A pointer to the `signal_Bento` of an activation. -/
structure BentoPtr where
  activation : Nat
  bento : Bento
  deriving DecidableEq, Repr

/-- The locals of an `activate` that is running. -/
structure Activation where
  /-- The number of the activation; the code has no such thing. -/
  id : Nat
  sender : SenderId
  senderPtr : Addr
  signal_Bento : Bento
  priorSender : Option SenderId
  priorSignal : Option BentoPtr
  /-- The entry of the guard of `senderListHandle`. -/
  guard : Nat
  /-- The nodes that the list had allocated at the lock; the code has no such thing. -/
  start : Nat
  deriving DecidableEq

/-- The test of the loop: is the connection one of the signal? -/
def Activation.wants (act : Activation) (connection : ConnectStruct) : Bool :=
  connection.signalMethod.eq act.signal_Bento

/-- The calls of user code in the body of the loop. -/
inductive CallKind
  | compareThreads
  | invoke
  | queueSlot (type : ConnectionKind)
  | handleException
  deriving DecidableEq, Repr

/-- A call of user code that is running, with the iterator of its activation. -/
structure Frame where
  activation : Activation
  iter : Nat
  receiver : ReceiverId
  call : CallKind
  old_activateBusy : Int := 0
  deriving DecidableEq

/-- A call that `activate` made for a connection. -/
structure CallRecord where
  activation : Nat
  sender : SenderId
  node : Nat
  connection : ConnectStruct
  call : CallKind
  deriving DecidableEq

structure State where
  world : World := {}
  threadLocal_currentSender : Option SenderId := none
  threadLocal_currentSignal : Option BentoPtr := none
  /-- The calls that are running, the innermost one first. -/
  stack : List Frame := []
  activationCount : Nat := 0
  /-- What `activate` called, in order. -/
  calls : List CallRecord := []

/-- What user code can do. -/
inductive Action
  | newSender (addr : Addr)
  | newReceiver
  | connect (overload : Overload) (sender : SenderId) (signalMethod : Bento)
      (receiver : ReceiverId) (slotMethod : Bento) (type : ConnectionKind)
      (uniqueConnection : Bool)
  | disconnect (sender : SenderId) (signalMethod : Bento) (receiver : ReceiverId)
      (slotMethod : Bento)
  | internalDisconnect (sender : SenderId) (signalBento : Option Bento)
      (receiver : Option ReceiverId) (slotBento : Option Bento)
  | deleteSender (sender : SenderId)
  | deleteReceiver (receiver : ReceiverId)
  | senderList (receiver : ReceiverId)
  | receiverList (sender : SenderId) (signalMethod : Bento)
  | activate (sender : SenderId) (signal : Bento)
  /-- The innermost call returns; only `compareThreads` returns a value. -/
  | ret (value : Bool)
  /-- An exception leaves the innermost call. -/
  | throw

def Action.isRet : Action → Bool
  | .ret _ => true
  | _ => false

def Action.isThrow : Action → Bool
  | .throw => true
  | _ => false

def Action.isActivate : Action → Bool
  | .activate _ _ => true
  | _ => false

/-- Why there is no next state. -/
inductive Stop
  /-- User code can not do this here. -/
  | illegal
  | fault (u : Fault)
  deriving DecidableEq, Repr

/-! ## The parts of `activate` -/

def World.accessSender (w : World) (s : SenderId) : Except Fault SignalBase :=
  match w.sender s with
  | some o => .ok o
  | none => .error .destroyed

/-- A call through the pointer to a slot. -/
def World.accessReceiver (w : World) (r : ReceiverId) : Except Fault Unit :=
  if w.receiver r then .ok () else .error .destroyed

/-- The world with another `m_activateBusy` in a signal. -/
def World.withBusy (w : World) (s : SenderId) (o : SignalBase) (n : Int) : World :=
  { w with sender := Function.update w.sender s (some { o with activateBusy := n }) }

/-- `sender.m_activateBusy += n`. -/
def World.addBusy (w : World) (s : SenderId) (n : Int) : Except Fault World := do
  let o ← w.accessSender s
  .ok (w.withBusy s o (o.activateBusy + n))

/-- Is it the call of a slot, made directly or handed to `queueSlot`? -/
def CallKind.isSlot : CallKind → Bool
  | .invoke => true
  | .queueSlot _ => true
  | _ => false

namespace State

/-- Puts the locals of the thread back. -/
def restore (σ : State) (act : Activation) : State :=
  { σ with
    threadLocal_currentSender := act.priorSender
    threadLocal_currentSignal := act.priorSignal }

/-- The end of the scope of `senderListHandle`. -/
def release (σ : State) (act : Activation) : Except Fault State := do
  let w ← (connectListOf act.sender).unlock act.guard σ.world
  .ok { σ with world := w }

/-- Makes a call of user code for the connection of a node. -/
def push (σ : State) (f : Frame) (connection : ConnectStruct) : State :=
  { σ with
    stack := f :: σ.stack
    calls := σ.calls ++
      [⟨f.activation.id, f.activation.sender, f.iter, connection, f.call⟩] }

/-- The end of the loop, or its body up to the call of `compareThreads`. -/
def arrive (σ : State) (act : Activation) : Option Nat → Except Fault State
  | none => (σ.restore act).release act
  | some n => do
    let c ← (σ.world.connectList act.sender).deref n
    σ.world.accessReceiver c.data.receiver
    .ok (σ.push ⟨act, n, c.data.receiver, .compareThreads, 0⟩ c.data)

/-- The loop from `iter` on, up to the next call of user code or to the end. -/
def advance (σ : State) (act : Activation) (iter : Option Nat) : Except Fault State := do
  let l := σ.world.connectList act.sender
  let found ← l.find act.wants l.nodeCount iter
  σ.arrive act found

/-- `activate` up to its first call of user code. -/
def activate (σ : State) (s : SenderId) (signal : Bento) : Except Fault State := do
  let o ← σ.world.accessSender s
  let σ1 := { σ with
    threadLocal_currentSender := some s
    threadLocal_currentSignal := some ⟨σ.activationCount, signal⟩
    activationCount := σ.activationCount + 1 }
  match (connectListOf s).lock σ1.world with
  | .returned guard w =>
    State.advance { σ1 with world := w }
      ⟨σ.activationCount, s, o.addr, signal, σ.threadLocal_currentSender,
        σ.threadLocal_currentSignal, guard, (w.connectList s).nodeCount⟩ (w.connectList s).head
  | .thrown _ w => .ok { σ1 with world := w }
  | .undefined u => .error u

/-- The call that the type of a connection asks for. -/
def callFor (type : ConnectionKind) (receiverInSameThread : Bool) : CallKind :=
  if (type = .autoConnection ∧ receiverInSameThread = false) ∨ type = .queuedConnection then
    .queueSlot .queuedConnection
  else if type = .blockingQueuedConnection then .queueSlot .blockingQueuedConnection
  else .invoke

theorem isSlot_callFor (type : ConnectionKind) (b : Bool) :
    (callFor type b).isSlot = true := by
  unfold callFor
  split
  · rfl
  · split <;> rfl

/-- Does the call look at the receiver? -/
def callUses (call : CallKind) (slotMethod : Bento) : Bool :=
  match call with
  | .invoke => slotMethod.usesReceiver
  | _ => true

/-- After `compareThreads` returned: the dispatch. -/
def dispatch (σ : State) (f : Frame) (receiverInSameThread : Bool) : Except Fault State := do
  let o ← σ.world.accessSender f.activation.sender
  let w ← σ.world.addBusy f.activation.sender 1
  let c ← (w.connectList f.activation.sender).deref f.iter
  let call := callFor c.data.type receiverInSameThread
  if callUses call c.data.slotMethod then σ.world.accessReceiver f.receiver
  .ok ({ σ with world := w }.push
    { f with call := call, old_activateBusy := o.activateBusy } c.data)

/-- The end of the body of the loop, and the step of the iterator. -/
def nextConnection (σ : State) (f : Frame) : Except Fault State := do
  let w ← σ.world.addBusy f.activation.sender (-1)
  let c ← (w.connectList f.activation.sender).deref f.iter
  State.advance { σ with world := w } f.activation c.next

/-- The sender was destroyed: `activate` returns. -/
def stopEarly (σ : State) (f : Frame) : Except Fault State :=
  let σ1 := if f.old_activateBusy = 0 then
      { σ with world := { σ.world with
        beingDestroyed := σ.world.beingDestroyed.erase f.activation.senderPtr } }
    else σ
  (σ1.restore f.activation).release f.activation

/-- After the slot or `queueSlot` returned. -/
def slotReturned (σ : State) (f : Frame) : Except Fault State :=
  if σ.world.destroyedLocked then .error .relocked
  else if f.activation.senderPtr ∈ σ.world.beingDestroyed then σ.stopEarly f
  else σ.nextConnection f

/-- After an exception left the slot or `queueSlot`. -/
def slotThrew (σ : State) (f : Frame) : Except Fault State :=
  if σ.world.destroyedLocked then .error .relocked
  else if f.activation.senderPtr ∈ σ.world.beingDestroyed then σ.stopEarly f
  else do
    let _ ← σ.world.accessSender f.activation.sender
    let σ1 := σ.restore f.activation
    .ok { σ1 with
      world := { σ1.world with destroyedLocked := true }
      stack := { f with call := .handleException } :: σ1.stack }

/-- After `handleException` returned. -/
def handlerReturned (σ : State) (f : Frame) : Except Fault State :=
  { σ with
    threadLocal_currentSender := some f.activation.sender
    world := { σ.world with destroyedLocked := false } }.nextConnection f

/-- After an exception left `handleException`: it leaves `activate` too. -/
def handlerThrew (σ : State) (f : Frame) : Except Fault State :=
  { σ with world := { σ.world with destroyedLocked := false } }.release f.activation

/-- The innermost call returned. -/
def returned (σ : State) (f : Frame) (value : Bool) : Except Fault State :=
  match f.call with
  | .compareThreads => σ.dispatch f value
  | .invoke => σ.slotReturned f
  | .queueSlot _ => σ.slotReturned f
  | .handleException => σ.handlerReturned f

/-- An exception left the innermost call. -/
def threw (σ : State) (f : Frame) : Except Fault State :=
  match f.call with
  | .compareThreads => σ.release f.activation
  | .invoke => σ.slotThrew f
  | .queueSlot _ => σ.slotThrew f
  | .handleException => σ.handlerThrew f

/-- A call of the library that user code makes; it can catch what the call throws. -/
def perform {α : Type} (σ : State) (op : Op α) : Except Stop State :=
  match op σ.world with
  | .returned _ w => .ok { σ with world := w }
  | .thrown _ w => .ok { σ with world := w }
  | .undefined u => .error (.fault u)

end State

/-! ## The step -/

/-- No live signal is at the address. -/
def World.Free (w : World) (addr : Addr) : Prop :=
  ∀ s < w.senderCount, (w.sender s).map SignalBase.addr ≠ some addr

instance (w : World) (addr : Addr) : Decidable (w.Free addr) :=
  inferInstanceAs (Decidable (∀ s < w.senderCount, (w.sender s).map SignalBase.addr ≠ some addr))

def World.newSender (w : World) (addr : Addr) : World :=
  { w with
    sender := Function.update w.sender w.senderCount (some ⟨addr, 0⟩)
    connectList := Function.update w.connectList w.senderCount {}
    senderCount := w.senderCount + 1 }

def World.newReceiver (w : World) : World :=
  { w with
    receiver := Function.update w.receiver w.receiverCount true
    possibleSenders := Function.update w.possibleSenders w.receiverCount {}
    receiverCount := w.receiverCount + 1 }

/-- Does the action name live objects only? -/
def Action.Legal (w : World) : Action → Prop
  | .newSender addr => w.Free addr
  | .newReceiver => True
  | .connect _ s _ r _ _ _ => (w.sender s).isSome = true ∧ w.receiver r = true
  | .disconnect s _ r _ => (w.sender s).isSome = true ∧ w.receiver r = true
  | .internalDisconnect s _ r _ => (w.sender s).isSome = true ∧ ∀ x ∈ r, w.receiver x = true
  | .deleteSender s => (w.sender s).isSome = true
  | .deleteReceiver r => w.receiver r = true
  | .senderList r => w.receiver r = true
  | .receiverList s _ => (w.sender s).isSome = true
  | .activate s _ => (w.sender s).isSome = true
  | .ret _ => True
  | .throw => True

instance (w : World) (a : Action) : Decidable (a.Legal w) := by
  cases a <;> unfold Action.Legal <;> infer_instance

/-- One action of the user code that runs now. -/
def step (σ : State) (a : Action) : Except Stop State :=
  if a.Legal σ.world then
    match a with
    | .newSender addr => .ok { σ with world := σ.world.newSender addr }
    | .newReceiver => .ok { σ with world := σ.world.newReceiver }
    | .connect o s sig r slot type unique => σ.perform (connect o s sig r slot type unique)
    | .disconnect s sig r slot => σ.perform (disconnect s sig r slot)
    | .internalDisconnect s sig r slot => σ.perform (internalDisconnect s sig r slot)
    | .deleteSender s => σ.perform (destroySignalBase s)
    | .deleteReceiver r => σ.perform (destroySlotBase r)
    | .senderList r => σ.perform (internalSenderList r)
    | .receiverList s sig => σ.perform (internalReceiverList s sig)
    | .activate s sig => (σ.activate s sig).mapError .fault
    | .ret value =>
      match σ.stack with
      | [] => .error .illegal
      | f :: rest => ({ σ with stack := rest }.returned f value).mapError .fault
    | .throw =>
      match σ.stack with
      | [] => .error .illegal
      | f :: rest => ({ σ with stack := rest }.threw f).mapError .fault
  else .error .illegal

/-- The program before its first action. -/
def State.init : State := {}

abbrev run : State → List Action → Except Stop State := Runs.run step

/-- The state of the program after the actions. -/
abbrev after (as : List Action) : State := Runs.reached step State.init as

end CsSignal
