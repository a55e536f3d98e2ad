-- Where the allocator places a signal: two runs that differ in addresses only. No
-- call of the library looks at an address, but `activate` and `~SignalBase` do, for
-- the mark set.
import CsSignal.Activate

namespace CsSignal

open LinkedCells Calls RcuList

/-! ## Two worlds that differ in addresses -/

/-- The signal at the address that stands for its own. -/
def SignalBase.merge (g : Addr → Addr) (o : SignalBase) : SignalBase := { o with addr := g o.addr }

/-- The first world is the second one, with the signals at the addresses that `g`
gives; of the mark sets nothing is said. -/
structure Merged (g : Addr → Addr) (w w' : World) : Prop where
  sender : ∀ s, w.sender s = (w'.sender s).map (SignalBase.merge g)
  connectList : w'.connectList = w.connectList
  receiver : w'.receiver = w.receiver
  possibleSenders : w'.possibleSenders = w.possibleSenders
  senderCount : w'.senderCount = w.senderCount
  receiverCount : w'.receiverCount = w.receiverCount
  destroyedLocked : w'.destroyedLocked = w.destroyedLocked
  allocs : w'.allocs = w.allocs

theorem Merged.live {g : Addr → Addr} {w w' : World} (h : Merged g w w') (s : SenderId) :
    (w'.sender s).isSome = (w.sender s).isSome := by
  rw [h.sender, Option.isSome_map]

variable {g : Addr → Addr}

/-- A list that is found without an address. -/
structure Unplaced {α : Type} (g : Addr → Addr) (ref : ListRef α) : Prop where
  live : ∀ {w w'}, Merged g w w' → ref.live w' = ref.live w
  get : ∀ {w w'}, Merged g w w' → ref.get w' = ref.get w
  set : ∀ {w w'} l, Merged g w w' → Merged g (ref.set w l) (ref.set w' l)

theorem unplaced_connectList (g : Addr → Addr) (s : SenderId) : Unplaced g (connectListOf s) where
  live h := h.live s
  get h := congrFun h.connectList s
  set l h := by
    have := congrArg (fun lists => Function.update lists s l) h.connectList
    exact { h with connectList := this }

theorem unplaced_possibleSenders (g : Addr → Addr) (r : ReceiverId) : Unplaced g (possibleSendersOf r) where
  live h := congrFun h.receiver r
  get h := congrFun h.possibleSenders r
  set l h := by
    have := congrArg (fun lists => Function.update lists r l) h.possibleSenders
    exact { h with possibleSenders := this }

/-! ## The calls on a list -/

theorem allocate_respects : Respects (Merged g) allocate := by
  intro w w' h
  unfold allocate
  rw [h.allocs]
  cases w.allocs with
  | none => exact .returned () h
  | some k =>
    cases k with
    | zero => exact .thrown _ { h with allocs := rfl }
    | succ k => exact .returned () { h with allocs := rfl }

namespace Unplaced

variable {α β : Type} {ref : ListRef α} (hr : Unplaced g ref)
include hr

theorem call (f : RcuList α → Except Fault (β × RcuList α)) : Respects (Merged g) (ref.call f) := by
  intro w w' h
  unfold ListRef.call
  rw [hr.live h, hr.get h]
  by_cases hl : ref.live w = true
  · rw [if_pos hl, if_pos hl]
    cases f (ref.get w) with
    | ok x => exact .returned _ (hr.set _ h)
    | error u => exact .undefined u
  · rw [if_neg hl, if_neg hl]
    exact .undefined _

theorem read (f : RcuList α → Except Fault β) : Respects (Merged g) (ref.read f) := by
  intro w w' h
  unfold ListRef.read
  rw [hr.live h, hr.get h]
  by_cases hl : ref.live w = true
  · rw [if_pos hl, if_pos hl]
    cases f (ref.get w) with
    | ok b => exact .returned b h
    | error u => exact .undefined u
  · rw [if_neg hl, if_neg hl]
    exact .undefined _

theorem lock : Respects (Merged g) ref.lock :=
  allocate_respects.bind fun _ => hr.call _

theorem unlock (z : Nat) (w w' : World) (h : Merged g w w') :
    ExceptRel (Merged g) (ref.unlock z w) (ref.unlock z w') := by
  unfold ListRef.unlock
  rw [hr.get h]
  cases (ref.get w).unlock z with
  | ok l => exact .ok (hr.set l h)
  | error u => exact .error u

theorem withHandle {body : Op β} (hb : Respects (Merged g) body) :
    Respects (Merged g) (ref.withHandle body) :=
  hr.lock.bind fun z => hb.inScope (hr.unlock z)

theorem pushBack (data : α) : Respects (Merged g) (ref.pushBack data) :=
  allocate_respects.bind fun _ => hr.call _

theorem retire (n : Nat) : Respects (Merged g) (ref.retire n) :=
  allocate_respects.bind fun _ => hr.call _

theorem erase (iter : Option Nat) : Respects (Merged g) (ref.erase iter) := by
  cases iter with
  | none => exact .undefined _
  | some n =>
    refine (hr.call _).bind fun ⟨next, found⟩ => ?_
    cases found with
    | true => exact (hr.retire n).bind fun _ => .pure _
    | false => exact .pure _

theorem eraseAll (p : α → Bool) (fuel : Nat) (iter : Option Nat) :
    Respects (Merged g) (ref.eraseAll p fuel iter) := by
  induction fuel generalizing iter with
  | zero => cases iter <;> first | exact .pure _ | exact .undefined _
  | succ fuel ih =>
    cases iter with
    | none => exact .pure _
    | some n =>
      refine (hr.read _).bind fun c => ?_
      split
      · exact (hr.erase _).bind fun next => ih next
      · exact ih _

theorem forEach {body : α → Op Unit} (hb : ∀ a, Respects (Merged g) (body a)) (fuel : Nat)
    (iter : Option Nat) : Respects (Merged g) (ref.forEach body fuel iter) := by
  induction fuel generalizing iter with
  | zero => cases iter <;> first | exact .pure _ | exact .undefined _
  | succ fuel ih =>
    cases iter with
    | none => exact .pure _
    | some n =>
      exact (hr.read _).bind fun c => (hb c.data).bind fun _ => (hr.read _).bind fun c => ih _

theorem collect [DecidableEq β] (f : α → Option β) (fuel : Nat) (iter : Option Nat)
    (retval : Finset β) : Respects (Merged g) (ref.collect f fuel iter retval) := by
  induction fuel generalizing iter retval with
  | zero => cases iter <;> first | exact .pure _ | exact .undefined _
  | succ fuel ih =>
    cases iter with
    | none => exact .pure _
    | some n =>
      refine (hr.read _).bind fun c => ?_
      split
      · exact ih _ _
      · exact ih _ _

end Unplaced

/-! ## The calls of the library -/

theorem addConnection_respects (s : SenderId) (sig : Bento) (r : ReceiverId) (slot : Bento)
    (type : ConnectionKind) : Respects (Merged g) (addConnection s sig r slot type) :=
  ((unplaced_connectList g s).pushBack _).bind fun _ =>
    (unplaced_possibleSenders g r).withHandle ((unplaced_possibleSenders g r).pushBack _)

theorem connectUnless_respects (same : ConnectStruct → Bool) (s : SenderId) (sig : Bento)
    (r : ReceiverId) (slot : Bento) (type : ConnectionKind) (unique : Bool) :
    Respects (Merged g) (connectUnless same s sig r slot type unique) := by
  have hS := unplaced_connectList g s
  have hscan : Respects (Merged g) (scanDuplicate same s unique) := by
    unfold scanDuplicate
    split
    · exact (hS.read _).bind fun _ => (hS.read _).bind fun _ => hS.read _
    · exact .pure _
  refine hS.withHandle (hscan.bind fun found => ?_)
  split
  · exact .pure _
  · exact (addConnection_respects s sig r slot type).bind fun _ => .pure _

theorem connect_respects (o : Overload) (s : SenderId) (sig : Bento) (r : ReceiverId)
    (slot : Bento) (type : ConnectionKind) (unique : Bool) :
    Respects (Merged g) (connect o s sig r slot type unique) := by
  cases o with
  | methodSlot =>
    show Respects (Merged g) (connectMethod s sig r slot type unique)
    unfold connectMethod
    split
    · exact .raise _
    · split
      · exact .raise _
      · exact allocate_respects.bind fun _ => allocate_respects.bind fun _ =>
          connectUnless_respects _ _ _ _ _ _ _
  | lambdaSlot =>
    show Respects (Merged g) (connectLambda s sig r slot type unique)
    unfold connectLambda
    split
    · exact .raise _
    · exact allocate_respects.bind fun _ => allocate_respects.bind fun _ =>
        connectUnless_respects _ _ _ _ _ _ _
  | bento => exact connectUnless_respects _ _ _ _ _ _ _

theorem disconnectFrom_respects (s : SenderId) (hit : ConnectStruct → Bool) (fuel : Nat)
    (iter : Option Nat) (retval : Bool) :
    Respects (Merged g) (disconnectFrom s hit fuel iter retval) := by
  have hS := unplaced_connectList g s
  induction fuel generalizing iter retval with
  | zero => cases iter <;> first | exact .pure _ | exact .undefined _
  | succ fuel ih =>
    cases iter with
    | none => exact .pure _
    | some n =>
      refine (hS.read _).bind fun temp => ?_
      split
      · have hR := unplaced_possibleSenders g temp.data.receiver
        refine Respects.bind (hR.withHandle ?_) fun _ => (hS.read _).bind fun _ => ih _ _
        exact (hR.read _).bind fun _ => (hR.read _).bind fun _ => (hR.read _).bind fun _ =>
          (hR.erase _).bind fun _ => (hS.erase _).bind fun _ => .pure _
      · exact ih _ _

theorem internalDisconnect_respects (s : SenderId) (sig : Option Bento) (r : Option ReceiverId)
    (slot : Option Bento) : Respects (Merged g) (internalDisconnect s sig r slot) := by
  have hS := unplaced_connectList g s
  exact hS.withHandle ((hS.read _).bind fun _ => (hS.read _).bind fun _ =>
    disconnectFrom_respects _ _ _ _ _)

theorem destroySlotBase_respects (r : ReceiverId) : Respects (Merged g) (destroySlotBase r) := by
  have hR := unplaced_possibleSenders g r
  refine Respects.bind (.nothrow (hR.withHandle ((hR.read _).bind fun _ => (hR.read _).bind fun _ =>
    hR.forEach (fun s => ?_) _ _))) fun _ => Respects.bind (hR.call _) fun _ => fun w w' h => ?_
  · have hS := unplaced_connectList g s
    exact hS.withHandle ((hS.read _).bind fun _ => (hS.read _).bind fun _ => hS.eraseAll _ _ _)
  · have := congrArg (fun live => Function.update live r false) h.receiver
    exact .returned () { h with receiver := this }

theorem markDestroyed_respects (s : SenderId) : Respects (Merged g) (markDestroyed s) := by
  intro w w' h
  unfold markDestroyed
  rw [h.sender s]
  cases w'.sender s with
  | none => exact .undefined _
  | some o =>
    rw [Option.map_some, h.destroyedLocked]
    simp only
    by_cases hb : o.activateBusy > 0
    · have hb' : (o.merge g).activateBusy > 0 := hb
      rw [if_pos hb, if_pos hb']
      by_cases hl : w.destroyedLocked = true
      · rw [if_pos hl, if_pos hl]
        exact .undefined _
      · rw [if_neg hl, if_neg hl]
        exact .returned () { h with destroyedLocked := rfl }
    · have hb' : ¬(o.merge g).activateBusy > 0 := hb
      rw [if_neg hb, if_neg hb']
      exact .returned () h

theorem destroySignalBase_respects (s : SenderId) : Respects (Merged g) (destroySignalBase s) := by
  have hS := unplaced_connectList g s
  refine Respects.bind (.nothrow ((markDestroyed_respects s).bind fun _ =>
    hS.withHandle ((hS.read _).bind fun _ => (hS.read _).bind fun _ =>
      hS.forEach (fun item => ?_) _ _))) fun _ => Respects.bind (hS.call _) fun _ => fun w w' h => ?_
  · have hR := unplaced_possibleSenders g item.receiver
    exact hR.withHandle ((hR.read _).bind fun _ => (hR.read _).bind fun _ => hR.eraseAll _ _ _)
  · refine .returned () { h with sender := fun s' => ?_ }
    show Function.update w.sender s none s' = (Function.update w'.sender s none s').map _
    by_cases hss : s' = s
    · subst hss
      rw [Function.update_self, Function.update_self, Option.map_none]
    · rw [Function.update_of_ne hss, Function.update_of_ne hss]
      exact h.sender s'

theorem internalSenderList_respects (r : ReceiverId) : Respects (Merged g) (internalSenderList r) := by
  have hR := unplaced_possibleSenders g r
  exact hR.withHandle ((hR.read _).bind fun _ => (hR.read _).bind fun _ => hR.collect _ _ _ _)

theorem internalReceiverList_respects (s : SenderId) (sig : Bento) :
    Respects (Merged g) (internalReceiverList s sig) := by
  have hS := unplaced_connectList g s
  exact hS.withHandle ((hS.read _).bind fun _ => (hS.read _).bind fun _ => hS.collect _ _ _ _)

/-! ## Two states that differ in addresses -/

def Activation.merge (g : Addr → Addr) (act : Activation) : Activation :=
  { act with senderPtr := g act.senderPtr }

def Frame.merge (g : Addr → Addr) (f : Frame) : Frame :=
  { f with activation := f.activation.merge g }

def Action.merge (g : Addr → Addr) : Action → Action
  | .newSender addr => .newSender (g addr)
  | a => a

/-- The first state is the second one, with the signals at the addresses that `g`
gives. -/
structure Twin (g : Addr → Addr) (σ τ : State) : Prop where
  world : Merged g σ.world τ.world
  currentSender : τ.threadLocal_currentSender = σ.threadLocal_currentSender
  currentSignal : τ.threadLocal_currentSignal = σ.threadLocal_currentSignal
  stack : σ.stack = τ.stack.map (Frame.merge g)
  activationCount : τ.activationCount = σ.activationCount
  calls : τ.calls = σ.calls

theorem twin_init (g : Addr → Addr) : Twin g State.init State.init :=
  ⟨⟨fun _ => rfl, rfl, rfl, rfl, rfl, rfl, rfl, rfl⟩, rfl, rfl, rfl, rfl, rfl⟩

namespace Twin

variable {σ τ : State}

theorem restore (h : Twin g σ τ) (act : Activation) :
    Twin g (σ.restore (act.merge g)) (τ.restore act) :=
  { h with currentSender := rfl, currentSignal := rfl }

theorem withWorld (h : Twin g σ τ) {w w' : World} (hw : Merged g w w') :
    Twin g { σ with world := w } { τ with world := w' } := { h with world := hw }

theorem push (h : Twin g σ τ) (f : Frame) (c : ConnectStruct) :
    Twin g (σ.push (f.merge g) c) (τ.push f c) :=
  { h with stack := congrArg (f.merge g :: ·) h.stack, calls := congrArg (· ++ _) h.calls }

theorem accessSender (h : Merged g σ.world τ.world) (s : SenderId) :
    ExceptRel (fun o o' => o = o'.merge g) (σ.world.accessSender s) (τ.world.accessSender s) := by
  unfold World.accessSender
  rw [h.sender s]
  cases τ.world.sender s with
  | none => exact .error _
  | some o => exact .ok rfl

theorem accessReceiver (h : Merged g σ.world τ.world) (r : ReceiverId) :
    τ.world.accessReceiver r = σ.world.accessReceiver r := by
  unfold World.accessReceiver
  rw [h.receiver]

theorem addBusy (h : Merged g σ.world τ.world) (s : SenderId) (n : Int) :
    ExceptRel (Merged g) (σ.world.addBusy s n) (τ.world.addBusy s n) := by
  refine (accessSender h s).bind fun o o' ho => .ok { h with sender := fun s' => ?_ }
  subst ho
  unfold World.withBusy
  by_cases hss : s' = s
  · subst hss
    simp only [Function.update_self]
    rfl
  · simp only [Function.update_of_ne hss]
    exact h.sender s'

theorem release (h : Twin g σ τ) (act : Activation) :
    ExceptRel (Twin g) (σ.release (act.merge g)) (τ.release act) :=
  ((unplaced_connectList g act.sender).unlock act.guard _ _ h.world).bind fun _ _ hw =>
    .ok (h.withWorld hw)

theorem arrive (h : Twin g σ τ) (act : Activation) (found : Option Nat) :
    ExceptRel (Twin g) (σ.arrive (act.merge g) found) (τ.arrive act found) := by
  cases found with
  | none => exact (h.restore act).release act
  | some n =>
    unfold State.arrive
    rw [show (act.merge g).sender = act.sender from rfl, h.world.connectList]
    refine (ExceptRel.of_eq _).bind fun c c' hc => ?_
    subst hc
    rw [accessReceiver h.world]
    exact (ExceptRel.of_eq _).bind fun _ _ _ => .ok (h.push ⟨act, n, c'.data.receiver, _, 0⟩ _)

theorem advance (h : Twin g σ τ) (act : Activation) (iter : Option Nat) :
    ExceptRel (Twin g) (σ.advance (act.merge g) iter) (τ.advance act iter) := by
  unfold State.advance
  rw [show (act.merge g).sender = act.sender from rfl, h.world.connectList]
  refine (ExceptRel.of_eq _).bind fun found found' hf => ?_
  subst hf
  exact h.arrive act _

theorem activate (h : Twin g σ τ) (s : SenderId) (sig : Bento) :
    ExceptRel (Twin g) (σ.activate s sig) (τ.activate s sig) := by
  refine (accessSender h.world s).bind fun o o' ho => ?_
  subst ho
  have hlock := (unplaced_connectList g s).lock _ _ h.world
  simp only
  generalize (connectListOf s).lock σ.world = o1 at hlock ⊢
  generalize (connectListOf s).lock τ.world = o2 at hlock ⊢
  cases hlock with
  | @returned guard w w' hw =>
    have hT := (Twin.mk hw rfl rfl h.stack rfl h.calls :
      Twin g { σ with
          world := w
          threadLocal_currentSender := some s
          threadLocal_currentSignal := some ⟨σ.activationCount, sig⟩
          activationCount := σ.activationCount + 1 }
        { τ with
          world := w'
          threadLocal_currentSender := some s
          threadLocal_currentSignal := some ⟨σ.activationCount, sig⟩
          activationCount := σ.activationCount + 1 })
    have := hT.advance ⟨σ.activationCount, s, o'.addr, sig, σ.threadLocal_currentSender,
      σ.threadLocal_currentSignal, guard, (w.connectList s).nodeCount⟩ (w.connectList s).head
    rw [h.activationCount, h.currentSender, h.currentSignal]
    simp only [hw.connectList]
    exact this
  | thrown e hw =>
    rw [h.activationCount]
    exact .ok ⟨hw, rfl, rfl, h.stack, rfl, h.calls⟩
  | undefined u => exact .error u

theorem dispatch (h : Twin g σ τ) (f : Frame) (b : Bool) :
    ExceptRel (Twin g) (σ.dispatch (f.merge g) b) (τ.dispatch f b) := by
  refine (accessSender h.world f.activation.sender).bind fun o o' ho => ?_
  refine (addBusy h.world f.activation.sender 1).bind fun w w' hw => ?_
  subst ho
  rw [show (f.merge g).activation.sender = f.activation.sender from rfl, hw.connectList]
  refine (ExceptRel.of_eq _).bind fun c c' hc => ?_
  subst hc
  have hpush := (h.withWorld hw).push { f with
    call := State.callFor c'.data.type b, old_activateBusy := o'.activateBusy } c'.data
  simp only
  rw [show (f.merge g).receiver = f.receiver from rfl, accessReceiver h.world]
  by_cases hu : State.callUses (State.callFor c'.data.type b) c'.data.slotMethod = true
  · rw [if_pos hu, if_pos hu]
    exact (ExceptRel.of_eq _).bind fun _ _ _ => .ok hpush
  · rw [if_neg hu, if_neg hu]
    exact .ok hpush

theorem nextConnection (h : Twin g σ τ) (f : Frame) :
    ExceptRel (Twin g) (σ.nextConnection (f.merge g)) (τ.nextConnection f) := by
  refine (addBusy h.world f.activation.sender (-1)).bind fun w w' hw => ?_
  rw [show (f.merge g).activation.sender = f.activation.sender from rfl, hw.connectList]
  refine (ExceptRel.of_eq _).bind fun c c' hc => ?_
  subst hc
  exact (h.withWorld hw).advance f.activation _

theorem withMarks (h : Twin g σ τ) (x y : Finset Addr) :
    Twin g { σ with world := { σ.world with beingDestroyed := x } }
      { τ with world := { τ.world with beingDestroyed := y } } :=
  h.withWorld { h.world with }

theorem withSender (h : Twin g σ τ) (s : Option SenderId) :
    Twin g { σ with threadLocal_currentSender := s } { τ with threadLocal_currentSender := s } :=
  { h with currentSender := rfl }

theorem withLocked (h : Twin g σ τ) (b : Bool) :
    Twin g { σ with world := { σ.world with destroyedLocked := b } }
      { τ with world := { τ.world with destroyedLocked := b } } :=
  h.withWorld { h.world with destroyedLocked := rfl }

theorem stopEarly (h : Twin g σ τ) (f : Frame) :
    ExceptRel (Twin g) (σ.stopEarly (f.merge g)) (τ.stopEarly f) := by
  unfold State.stopEarly
  rw [show (f.merge g).old_activateBusy = f.old_activateBusy from rfl]
  by_cases h0 : f.old_activateBusy = 0
  · rw [if_pos h0, if_pos h0]
    exact ((h.withMarks _ _).restore f.activation).release f.activation
  · rw [if_neg h0, if_neg h0]
    exact (h.restore f.activation).release f.activation

/-- The mark of a signal is found in both states, or in none. -/
def SameMark (g : Addr → Addr) (σ τ : State) (f : Frame) : Prop :=
  g f.activation.senderPtr ∈ σ.world.beingDestroyed ↔
    f.activation.senderPtr ∈ τ.world.beingDestroyed

theorem slotReturned (h : Twin g σ τ) {f : Frame} (hm : SameMark g σ τ f) :
    ExceptRel (Twin g) (σ.slotReturned (f.merge g)) (τ.slotReturned f) := by
  unfold State.slotReturned
  rw [h.world.destroyedLocked]
  by_cases hl : σ.world.destroyedLocked = true
  · rw [if_pos hl, if_pos hl]
    exact .error _
  · rw [if_neg hl, if_neg hl]
    by_cases hd : f.activation.senderPtr ∈ τ.world.beingDestroyed
    · rw [if_pos hd, if_pos (show (f.merge g).activation.senderPtr ∈ _ from hm.mpr hd)]
      exact h.stopEarly f
    · rw [if_neg hd, if_neg (show (f.merge g).activation.senderPtr ∉ _ from mt hm.mp hd)]
      exact h.nextConnection f

theorem slotThrew (h : Twin g σ τ) {f : Frame} (hm : SameMark g σ τ f) :
    ExceptRel (Twin g) (σ.slotThrew (f.merge g)) (τ.slotThrew f) := by
  unfold State.slotThrew
  rw [h.world.destroyedLocked]
  by_cases hl : σ.world.destroyedLocked = true
  · rw [if_pos hl, if_pos hl]
    exact .error _
  · rw [if_neg hl, if_neg hl]
    by_cases hd : f.activation.senderPtr ∈ τ.world.beingDestroyed
    · rw [if_pos hd, if_pos (show (f.merge g).activation.senderPtr ∈ _ from hm.mpr hd)]
      exact h.stopEarly f
    · rw [if_neg hd, if_neg (show (f.merge g).activation.senderPtr ∉ _ from mt hm.mp hd)]
      refine (accessSender h.world f.activation.sender).bind fun _ _ _ => ?_
      have hst := congrArg (Frame.merge g { f with call := .handleException } :: ·) h.stack
      exact .ok { (h.restore f.activation).withLocked true with stack := hst }

theorem handlerReturned (h : Twin g σ τ) (f : Frame) :
    ExceptRel (Twin g) (σ.handlerReturned (f.merge g)) (τ.handlerReturned f) :=
  ((h.withSender (some f.activation.sender)).withLocked false).nextConnection f

theorem returned (h : Twin g σ τ) {f : Frame} (hm : f.call.isSlot = true → SameMark g σ τ f)
    (value : Bool) :
    ExceptRel (Twin g) (σ.returned (f.merge g) value) (τ.returned f value) := by
  unfold State.returned
  rw [show (f.merge g).call = f.call from rfl]
  cases hc : f.call with
  | compareThreads => exact h.dispatch f value
  | invoke | queueSlot _ => exact h.slotReturned (hm (by rw [hc]; rfl))
  | handleException => exact h.handlerReturned f

theorem threw (h : Twin g σ τ) {f : Frame} (hm : f.call.isSlot = true → SameMark g σ τ f) :
    ExceptRel (Twin g) (σ.threw (f.merge g)) (τ.threw f) := by
  unfold State.threw
  rw [show (f.merge g).call = f.call from rfl]
  cases hc : f.call with
  | compareThreads => exact h.release f.activation
  | invoke | queueSlot _ => exact h.slotThrew (hm (by rw [hc]; rfl))
  | handleException => exact (h.withLocked false).release f.activation

theorem perform {α : Type} (h : Twin g σ τ) {op : Op α} (hop : Respects (Merged g) op) :
    ExceptRel (Twin g) (σ.perform op) (τ.perform op) := by
  have := hop _ _ h.world
  unfold State.perform
  generalize op σ.world = o1 at this ⊢
  generalize op τ.world = o2 at this ⊢
  cases this with
  | returned a hw => exact .ok (h.withWorld hw)
  | thrown e hw => exact .ok (h.withWorld hw)
  | undefined u => exact .error _

theorem newSender (h : Merged g σ.world τ.world) (addr : Addr) :
    Merged g (σ.world.newSender (g addr)) (τ.world.newSender addr) := by
  unfold World.newSender
  rw [h.senderCount, h.connectList]
  refine { h with sender := fun s => ?_, connectList := rfl, senderCount := rfl }
  by_cases hs : s = σ.world.senderCount
  · subst hs
    simp only [Function.update_self]
    rfl
  · simp only [Function.update_of_ne hs]
    exact h.sender s

theorem newReceiver (h : Merged g σ.world τ.world) :
    Merged g σ.world.newReceiver τ.world.newReceiver := by
  unfold World.newReceiver
  rw [h.receiverCount, h.receiver, h.possibleSenders]
  exact { h with receiver := rfl, possibleSenders := rfl, receiverCount := rfl }

theorem legal (h : Merged g σ.world τ.world) {b : Action} (hl : (b.merge g).Legal σ.world) :
    b.Legal τ.world := by
  cases b with
  | newSender addr =>
    intro s hs he
    refine hl s (h.senderCount ▸ hs) ?_
    rw [h.sender, Option.map_map]
    cases ho : τ.world.sender s with
    | none =>
      rw [ho] at he
      cases he
    | some o =>
      rw [ho] at he
      exact congrArg (Option.map g) he
  | newReceiver | ret _ | throw => exact hl
  | _ =>
    unfold Action.Legal
    simp only [h.live, h.receiver]
    exact hl

/-- What the code does next, it does in both states. -/
theorem step (h : Twin g σ τ) {b : Action} (hl : (b.merge g).Legal σ.world)
    (hm : ∀ f ∈ τ.stack.head?, f.call.isSlot = true → SameMark g σ τ f) :
    ExceptRel (Twin g) (CsSignal.step σ (b.merge g)) (CsSignal.step τ b) := by
  have hend : ∀ (f : Frame) (rest : List Frame), τ.stack = f :: rest →
      Twin g { σ with stack := rest.map (Frame.merge g) } { τ with stack := rest } ∧
        (f.call.isSlot = true → SameMark g σ τ f) ∧
        σ.stack = f.merge g :: rest.map (Frame.merge g) := by
    intro f rest hst
    refine ⟨{ h with stack := rfl }, hm f (by rw [hst]; rfl), ?_⟩
    rw [h.stack, hst, List.map_cons]
  unfold CsSignal.step
  rw [if_pos hl, if_pos (legal h.world hl)]
  cases b with
  | newSender addr => exact .ok (h.withWorld (newSender h.world addr))
  | newReceiver => exact .ok (h.withWorld (newReceiver h.world))
  | connect o s sig r slot type u => exact h.perform (connect_respects o s sig r slot type u)
  | disconnect s sig r slot => exact h.perform (internalDisconnect_respects s _ _ _)
  | internalDisconnect s sig r slot => exact h.perform (internalDisconnect_respects s sig r slot)
  | deleteSender s => exact h.perform (destroySignalBase_respects s)
  | deleteReceiver r => exact h.perform (destroySlotBase_respects r)
  | senderList r => exact h.perform (internalSenderList_respects r)
  | receiverList s sig => exact h.perform (internalReceiverList_respects s sig)
  | activate s sig => exact (h.activate s sig).mapError _
  | ret value =>
    cases hst : τ.stack with
    | nil =>
      have : σ.stack = [] := by rw [h.stack, hst, List.map_nil]
      simp only [Action.merge, this]
      exact .error _
    | cons f rest =>
      obtain ⟨hT, hm, hst'⟩ := hend f rest hst
      simp only [Action.merge, hst']
      exact (hT.returned hm value).mapError _
  | throw =>
    cases hst : τ.stack with
    | nil =>
      have : σ.stack = [] := by rw [h.stack, hst, List.map_nil]
      simp only [Action.merge, this]
      exact .error _
    | cons f rest =>
      obtain ⟨hT, hm, hst'⟩ := hend f rest hst
      simp only [Action.merge, hst']
      exact (hT.threw hm).mapError _

end Twin

end CsSignal
