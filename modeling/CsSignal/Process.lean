-- The threads of a process, with all the mutexes of the library: that of every list, and
-- the one of `beingDestroyed`. Slots and `handleException` are code of the user, which
-- calls the library again from inside `activate`. An object is its address, and is not
-- watched for being alive: a signal or a slot that is built anew starts with an empty list.
import CsSignal.Crossing
import CsSignal.Lib.LockOrder

namespace CsSignal

open LinkedCells Calls

/-- The mutexes, none of them recursive. -/
inductive Mutex
  | beingDestroyed
  | connectList (s : SenderId)
  | possibleSenders (r : ReceiverId)
  deriving DecidableEq

/-! ## What a function is doing -/

/-- A call of `activate`: the loop, and what comes after the call of a slot. -/
inductive Activating
  | loop (g : Emit) (old_activateBusy : Int)
  /-- Before `lock_guard`, after the call returned or threw. -/
  | lock (connection : Nat) (old_activateBusy : Int) (threw : Bool)
  | lookup (connection : Nat) (old_activateBusy : Int) (threw : Bool)
  | handleException (connection : Nat)
  /-- Before the end of `lock_guard`, which may be the end of `activate`. -/
  | unlock (connection : Nat) (leaves : Bool)
  | decrement (connection : Nat)

/-- `~SignalBase`: the mark, then the walk. -/
inductive Destroying
  | begin
  | lock
  | insert
  | unlock
  | sweep (w : Sweep)

/-- A walk that only reads, such as that of `internal_receiverList`. -/
inductive Reading
  | begin
  | visit (item : Option Nat)

/-- The next step of a walk; `none` is its end. -/
def Reading.step {α : Type} (l : NodeList α) : Reading → Except Stop (Option Reading)
  | .begin => .ok (some (.visit l.head))
  | .visit none => .ok none
  | .visit (some n) =>
    match l.deref n with
    | .ok item => .ok (some (.visit item.next))
    | .error u => .error (.fault u)

/-- A function of the library that is running. What `connect` and `internal_disconnect`
are doing is the stage of the thread in `Threads`. -/
inductive Running
  | activate (sender : SenderId) (signal : Bento) (g : Activating)
  | signalBase (sender : SenderId) (g : Destroying)
  | slotBase (receiver : ReceiverId) (w : Sweep)
  /-- `internal_cntConnections` and `internal_receiverList`. -/
  | readSender (sender : SenderId) (g : Reading)
  /-- `internal_senderList`. -/
  | readReceiver (receiver : ReceiverId) (g : Reading)

/-- Is it the code of the user that runs, called by `activate`? -/
def Activating.inUser : Activating → Bool
  | .loop (.compareThreads _ _) _ => true
  | .loop (.call _ _ _) _ => true
  | .handleException _ => true
  | _ => false

def Running.inUser : Running → Bool
  | .activate _ _ g => g.inUser
  | _ => false

/-! ## The machine -/

structure Process extends Threads where
  beingDestroyed : Finset SenderId := ∅
  destroyedMutex : Option ThreadId := none
  activateBusy : SenderId → Int := fun _ => 0
  /-- What a thread is in beside `connect` and `internal_disconnect`, the innermost
  function first. -/
  stack : ThreadId → List Running := fun _ => []

/-- What user code does, or `go` for the next step of the library. -/
inductive ProcessEvent
  | newSender (s : SenderId)
  | newReceiver (r : ReceiverId)
  | call (c : LibCall)
  | activate (s : SenderId) (signal : Bento)
  | destroySender (s : SenderId)
  | destroyReceiver (r : ReceiverId)
  | readSender (s : SenderId)
  | readReceiver (r : ReceiverId)
  /-- The innermost call of user code returns; only `compareThreads` returns a value. -/
  | ret (value : Bool)
  | throw
  | go

namespace Process

/-- A process before its threads begin. -/
def start : Process := { Threads.start {} with }

variable (π : Process) (t : ThreadId)

def setStack (fs : List Running) : Process :=
  { π with stack := Function.update π.stack t fs }

def setDestroyedMutex (o : Option ThreadId) : Process := { π with destroyedMutex := o }

def addBusy (s : SenderId) (n : Int) : Process :=
  { π with activateBusy := Function.update π.activateBusy s (π.activateBusy s + n) }

/-- Locks the mutex of `beingDestroyed`. -/
def lockDestroyed (fs : List Running) : Except Stop Process :=
  match π.destroyedMutex with
  | none => .ok ((π.setDestroyedMutex (some t)).setStack t fs)
  | some _ => .error .illegal

/-- The next step of `activate`. -/
def activateStep (s : SenderId) (signal : Bento) (fs : List Running) :
    Activating → Except Stop Process
  | .loop g old =>
    match g.step signal (π.connectList s) true with
    | .ok .done => .ok (π.setStack t fs)
    | .ok g => .ok (π.setStack t (.activate s signal (.loop g old) :: fs))
    | .error e => .error e
  | .lock n old threw => π.lockDestroyed t (.activate s signal (.lookup n old threw) :: fs)
  | .lookup n old threw =>
    if s ∈ π.beingDestroyed then
      let π := if old = 0 then { π with beingDestroyed := π.beingDestroyed.erase s } else π
      .ok (π.setStack t (.activate s signal (.unlock n true) :: fs))
    else if threw then .ok (π.setStack t (.activate s signal (.handleException n) :: fs))
    else .ok (π.setStack t (.activate s signal (.unlock n false) :: fs))
  | .handleException _ => .error .illegal
  | .unlock n leaves =>
    if leaves then .ok ((π.setDestroyedMutex none).setStack t fs)
    else .ok ((π.setDestroyedMutex none).setStack t (.activate s signal (.decrement n) :: fs))
  | .decrement n => .ok ((π.addBusy s (-1)).setStack t (.activate s signal (.loop (.next n) 0) :: fs))

/-- The next step of `~SignalBase`. -/
def signalBaseStep (s : SenderId) (fs : List Running) : Destroying → Except Stop Process
  | .begin =>
    if π.activateBusy s > 0 then .ok (π.setStack t (.signalBase s .lock :: fs))
    else .ok (π.setStack t (.signalBase s (.sweep .begin) :: fs))
  | .lock => π.lockDestroyed t (.signalBase s .insert :: fs)
  | .insert =>
    .ok ({ π with beingDestroyed := insert s π.beingDestroyed }.setStack t
      (.signalBase s .unlock :: fs))
  | .unlock => .ok ((π.setDestroyedMutex none).setStack t (.signalBase s (.sweep .begin) :: fs))
  | .sweep w =>
    match w.step { signalBase s with thread := t } (π.connectList s)
      ⟨π.possibleSenders, π.possibleMutex⟩ with
    | .ok (ps, w) =>
      let π := { π with possibleSenders := ps.list, possibleMutex := ps.mutex }
      .ok (π.setStack t (if w = .done then fs else .signalBase s (.sweep w) :: fs))
    | .error e => .error e

/-- The next step of `~SlotBase`. -/
def slotBaseStep (r : ReceiverId) (fs : List Running) (w : Sweep) : Except Stop Process :=
  match w.step { slotBase r with thread := t } (π.possibleSenders r)
    ⟨π.connectList, π.connectMutex⟩ with
  | .ok (ps, w) =>
    let π := { π with connectList := ps.list, connectMutex := ps.mutex }
    .ok (π.setStack t (if w = .done then fs else .slotBase r w :: fs))
  | .error e => .error e

/-- The next step of the function that runs; the others wait for it. -/
def runningStep (fs : List Running) : Running → Except Stop Process
  | .activate s signal g => π.activateStep t s signal fs g
  | .signalBase s g => π.signalBaseStep t s fs g
  | .slotBase r w => π.slotBaseStep t r fs w
  | .readSender s g =>
    match g.step (π.connectList s) with
    | .ok (some g) => .ok (π.setStack t (.readSender s g :: fs))
    | .ok none => .ok (π.setStack t fs)
    | .error e => .error e
  | .readReceiver r g =>
    match g.step (π.possibleSenders r) with
    | .ok (some g) => .ok (π.setStack t (.readReceiver r g :: fs))
    | .ok none => .ok (π.setStack t fs)
    | .error e => .error e

/-- The innermost call of user code returned. -/
def returned (value : Bool) : List Running → Except Stop Process
  | .activate s signal (.loop (.compareThreads n r) _) :: fs =>
    match Emit.step signal (π.connectList s) value (.compareThreads n r) with
    | .ok g =>
      .ok ((π.addBusy s 1).setStack t (.activate s signal (.loop g (π.activateBusy s)) :: fs))
    | .error e => .error e
  | .activate s signal (.loop (.call n _ _) old) :: fs =>
    .ok (π.setStack t (.activate s signal (.lock n old false) :: fs))
  | .activate s signal (.handleException n) :: fs =>
    .ok (π.setStack t (.activate s signal (.unlock n false) :: fs))
  | _ => .error .illegal

/-- An exception left the innermost call of user code. -/
def threw : List Running → Except Stop Process
  | .activate _ _ (.loop (.compareThreads _ _) _) :: fs => .ok (π.setStack t fs)
  | .activate s signal (.loop (.call n _ _) old) :: fs =>
    .ok (π.setStack t (.activate s signal (.lock n old true) :: fs))
  | .activate s signal (.handleException n) :: fs =>
    .ok (π.setStack t (.activate s signal (.unlock n true) :: fs))
  | _ => .error .illegal

/-- What user code does. -/
def userStep : ProcessEvent → Except Stop Process
  | .newSender s =>
    .ok { π with
      connectList := Function.update π.connectList s {}
      activateBusy := Function.update π.activateBusy s 0 }
  | .newReceiver r => .ok { π with possibleSenders := Function.update π.possibleSenders r {} }
  | .call c => .ok (if c.accepts then { π with toThreads := π.goto t c .lock } else π)
  | .activate s signal => .ok (π.setStack t (.activate s signal (.loop .begin 0) :: π.stack t))
  | .destroySender s => .ok (π.setStack t (.signalBase s .begin :: π.stack t))
  | .destroyReceiver r => .ok (π.setStack t (.slotBase r .begin :: π.stack t))
  | .readSender s => .ok (π.setStack t (.readSender s .begin :: π.stack t))
  | .readReceiver r => .ok (π.setStack t (.readReceiver r .begin :: π.stack t))
  | .ret value => π.returned t value (π.stack t)
  | .throw => π.threw t (π.stack t)
  | .go => .error .illegal

def step (x : ThreadId × ProcessEvent) : Except Stop Process :=
  match π.thread x.1, π.stack x.1, x.2 with
  | some (c, g), _, .go =>
    match π.goStep x.1 c g with
    | .ok τ => .ok { π with toThreads := τ }
    | .error e => .error e
  | some _, _, _ => .error .illegal
  | none, f :: fs, e =>
    if f.inUser then π.userStep x.1 e
    else
      match e with
      | .go => π.runningStep x.1 fs f
      | _ => .error .illegal
  | none, [], e => π.userStep x.1 e

end Process

/-! ## The mutexes that a thread waits for and holds -/

/-- The mutex that the next step locks. -/
def Running.wants : Running → Option Mutex
  | .activate _ _ (.lock _ _ _) => some .beingDestroyed
  | .signalBase _ .lock => some .beingDestroyed
  | .signalBase _ (.sweep (.lock _ r)) => some (.possibleSenders r)
  | .slotBase _ (.lock _ s) => some (.connectList s)
  | _ => none

namespace Process

variable (π : Process)

/-- The mutex that the next step of a thread locks. -/
def wants (t : ThreadId) : Option Mutex :=
  match π.thread t with
  | some (c, .lock) => some (.connectList c.sender)
  | some (_, .lockReceiver r _) => some (.possibleSenders r)
  | some _ => none
  | none => (π.stack t).head?.bind Running.wants

/-- The thread that holds a mutex. -/
def owner : Mutex → Option ThreadId
  | .beingDestroyed => π.destroyedMutex
  | .connectList s => π.connectMutex s
  | .possibleSenders r => π.possibleMutex r

/-- No thread asks for a mutex that it holds, and no threads wait in a cycle. -/
def NoDeadlock : Prop :=
  (∀ t m, π.wants t = some m → π.owner m ≠ some t) ∧
    ∀ t, ¬ Relation.TransGen (LockOrder.Waits π.wants π.owner) t t

end Process

/-- Is the function an `activate` that is calling `handleException`? -/
def Running.inHandler : Running → Bool
  | .activate _ _ (.handleException _) => true
  | _ => false

/-- Does the event, in user code inside these functions, lead to a lock of
`beingDestroyed`? The call of a slot ends, or `~SignalBase` finds its signal busy. -/
def Process.locksDestroyed (π : Process) (x : ThreadId × ProcessEvent) : Bool :=
  match π.stack x.1, x.2 with
  | .activate _ _ (.loop (.call _ _ _) _) :: _, .ret _ => true
  | .activate _ _ (.loop (.call _ _ _) _) :: _, .throw => true
  | .signalBase s .begin :: _, .go => decide (π.activateBusy s > 0)
  | _, _ => false

/-- Inside `handleException` no call of a slot ends and no busy signal is destroyed. -/
def Process.Handled (π : Process) (x : ThreadId × ProcessEvent) : Prop :=
  (∃ f ∈ (π.stack x.1).tail, f.inHandler = true) → π.locksDestroyed x = false

instance (π : Process) (x : ThreadId × ProcessEvent) : Decidable (π.Handled x) :=
  inferInstanceAs (Decidable (_ → _))

end CsSignal
