-- What `activate` does when the call of user code that it waits for ends. Each
-- of its parts has one spec, and `Move` lists all that can happen.
import CsSignal.Operations

namespace CsSignal

open LinkedCells Calls RcuList

/-! ## The iterators of the stack -/

def Frame.cursor (f : Frame) : Cursor := ⟨f.activation.guard, some f.iter, f.activation.start⟩

/-- The iterators that stand in the list of a signal, the newest first. -/
def cursorsOf (stack : List Frame) (s : SenderId) : List Cursor :=
  (stack.filter fun f => f.activation.sender == s).map Frame.cursor

/-- The iterators, with a new one in the list of `s`. -/
def standing (s : SenderId) (c : Cursor) (cursors : SenderId → List Cursor) : SenderId → List Cursor :=
  Function.update cursors s (c :: cursors s)

theorem standing_self (s : SenderId) (c : Cursor) (cursors : SenderId → List Cursor) :
    standing s c cursors s = c :: cursors s := Function.update_self _ _ _

theorem standing_ne {s s' : SenderId} (h : s' ≠ s) (c : Cursor) (cursors : SenderId → List Cursor) :
    standing s c cursors s' = cursors s' := Function.update_of_ne h _ _

theorem cursorsOf_cons (f : Frame) (rest : List Frame) :
    cursorsOf (f :: rest) = standing f.activation.sender f.cursor (cursorsOf rest) := by
  funext s
  by_cases h : s = f.activation.sender
  · subst h
    rw [standing_self]
    simp [cursorsOf]
  · rw [standing_ne h]
    have : (f.activation.sender == s) = false := by simpa using Ne.symm h
    simp [cursorsOf, this]

theorem mem_cursorsOf {stack : List Frame} {f : Frame} (h : f ∈ stack) :
    f.cursor ∈ cursorsOf stack f.activation.sender :=
  List.mem_map_of_mem (List.mem_filter.mpr ⟨h, by simp⟩)

/-! ## One list changes -/

/-- The memory after a change of the list of one signal that keeps its entries. -/
theorem World.Memory.setList {w : World} {s : SenderId} {cursors : SenderId → List Cursor}
    (hw : w.Memory cursors) (cursors' : SenderId → List Cursor) {l : RcuList ConnectStruct}
    (hc : ∀ s', s' ≠ s → cursors' s' = cursors s')
    (hlive : (w.sender s).isSome = true →
      Guarded l (cursors' s) ∧ l.toList = (w.connectList s).toList)
    (hgone : w.sender s = none → ∃ es, Suffix l es ∧ owned es = (cursors' s).map Cursor.guard) :
    ((connectListOf s).set w l).Memory cursors' := by
  have hl : ∀ s', ((connectListOf s).set w l).connectList s' =
      if s' = s then l else w.connectList s' := fun s' => by
    simp only [connectListOf, Function.update_apply]
  have hconns : ∀ s', (w.sender s').isSome = true →
      ((connectListOf s).set w l).conns s' = w.conns s' := by
    intro s' hs'
    rw [World.conns, hl]
    by_cases hss : s' = s
    · subst hss
      rw [if_pos rfl, NodeList.values, (hlive hs').2]
      rfl
    · rw [if_neg hss]
      rfl
  refine ⟨⟨fun s' hs' => ?_, hw.slots, ⟨fun s' r hs' hr => ?_, fun s' hs' c hc => ?_,
    hw.booked.senders⟩, hw.senderBound, hw.receiverBound⟩, fun s' hs' => ?_⟩
  · rw [hl]
    by_cases hss : s' = s
    · subst hss
      rw [if_pos rfl]
      exact (hlive hs').1
    · rw [if_neg hss, hc s' hss]
      exact hw.lists s' hs'
  · rw [hconns s' hs']
    exact hw.booked.counts s' r hs' hr
  · rw [hconns s' hs'] at hc
    exact hw.booked.receivers s' hs' c hc
  · rw [hl]
    by_cases hss : s' = s
    · subst hss
      rw [if_pos rfl]
      exact hgone hs'
    · rw [if_neg hss, hc s' hss]
      exact hw.gone s' hs'

@[simp] theorem withBusy_self (w : World) (s : SenderId) (o : SignalBase) (n : Int) :
    (w.withBusy s o n).sender s = some { o with activateBusy := n } := Function.update_self _ _ _

theorem withBusy_ne (w : World) {s s' : SenderId} (h : s' ≠ s) (o : SignalBase) (n : Int) :
    (w.withBusy s o n).sender s' = w.sender s' := Function.update_of_ne h _ _

theorem withBusy_sameLists {w : World} {s : SenderId} {o : SignalBase}
    (ho : w.sender s = some o) (n : Int) : SameLists w (w.withBusy s o n) := by
  refine ⟨rfl, rfl, rfl, rfl, rfl, fun s' => ?_⟩
  by_cases hss : s' = s
  · subst hss
    simp [ho]
  · rw [withBusy_ne _ hss]

/-! ## The end of an activation -/

/-- What the unlock of the guard of an activation does. -/
structure Released (s : SenderId) (guard : Nat) (cursors : SenderId → List Cursor) (w w' : World) :
    Prop where
  eq : ∃ l, (w.connectList s).unlock guard = .ok l ∧ w' = (connectListOf s).set w l
  memory : w'.Memory cursors
  live : (w.sender s).isSome = true → (w'.connectList s).toList = (w.connectList s).toList ∧
    (w'.connectList s).nodeCount = (w.connectList s).nodeCount
  node : cursors s ≠ [] → (w'.connectList s).node = (w.connectList s).node

theorem release_run {σ : State} {act : Activation} {iter : Option Nat} {st : Nat}
    {cursors : SenderId → List Cursor}
    (hw : σ.world.Memory (standing act.sender ⟨act.guard, iter, st⟩ cursors)) :
    ∃ w', σ.release act = .ok { σ with world := w' } ∧
      Released act.sender act.guard cursors σ.world w' := by
  let s := act.sender
  have hget : ∀ l, ((connectListOf s).set σ.world l).connectList s = l := fun l =>
    (connectListOf s).get_set _ _
  have hrel : ∀ l, (σ.world.connectList s).unlock act.guard = .ok l →
      σ.release act = .ok { σ with world := (connectListOf s).set σ.world l } := by
    intro l hun
    have : (connectListOf s).unlock act.guard σ.world =
        .ok ((connectListOf s).set σ.world l) := by
      simp only [ListRef.unlock]
      rw [show (connectListOf s).get σ.world = σ.world.connectList s from rfl, hun]
    simp only [State.release]
    rw [this, ok_bind]
  cases hs : σ.world.sender s with
  | some o =>
    have hlive : (σ.world.sender s).isSome = true := by rw [hs]; rfl
    have hg := hw.lists s hlive
    rw [standing_self] at hg
    obtain ⟨l, hun, hg', hl, hcount, hnode⟩ := hg.unlock
    refine ⟨_, hrel l hun, ⟨l, hun, rfl⟩, ?_, fun _ => ?_, fun hne => ?_⟩
    · refine hw.setList _ (fun s' hss => (standing_ne hss _ _).symm) (fun _ => ⟨hg', hl⟩) fun hn => ?_
      rw [hn] at hlive
      cases hlive
    · rw [hget]
      exact ⟨hl, hcount⟩
    · rw [hget]
      exact hnode hne
  | none =>
    obtain ⟨es, hsuf, hown⟩ := hw.gone s hs
    rw [standing_self, List.map_cons] at hown
    obtain ⟨l, es', hun, hsuf', hown', hnode⟩ := hsuf.unlockOwned hown
    refine ⟨_, hrel l hun, ⟨l, hun, rfl⟩, ?_, fun hn => ?_, fun hne => ?_⟩
    · refine hw.setList _ (fun s' hss => (standing_ne hss _ _).symm) (fun hn => ?_)
        fun _ => ⟨es', hsuf', hown'⟩
      rw [show σ.world.sender s = none from hs] at hn
      cases hn
    · rw [show σ.world.sender s = none from hs] at hn
      cases hn
    · rw [hget]
      exact hnode (by simpa using hne)

/-! ## The search for the next connection -/

/-- The loop stops at the node `n`, and no wanted connection was passed. -/
structure Met (w : World) (act : Activation) (cursors : SenderId → List Cursor)
    (iter : Option Nat) (n : Nat) (c : Node ConnectStruct) : Prop where
  find : (w.connectList act.sender).find act.wants (w.connectList act.sender).nodeCount iter =
    .ok (some n)
  cell : (w.connectList act.sender).node n = some c
  wanted : act.wants c.data = true
  ahead : ∃ i, iter = some i ∧ i ≤ n
  first : ∀ x ∈ (w.connectList act.sender).toList, act.wants x.2 = true → x.1 < act.start →
    (∃ i, iter = some i ∧ i ≤ x.1) → n ≤ x.1
  memory : w.Memory (standing act.sender ⟨act.guard, some n, act.start⟩ cursors)

/-- The loop comes to the end of the list, and no wanted connection was passed. -/
structure Ended (w : World) (act : Activation) (cursors : SenderId → List Cursor)
    (iter : Option Nat) (w' : World) : Prop where
  find : (w.connectList act.sender).find act.wants (w.connectList act.sender).nodeCount iter =
    .ok none
  none : ∀ x ∈ (w.connectList act.sender).toList, act.wants x.2 = true → x.1 < act.start →
    ¬ ∃ i, iter = some i ∧ i ≤ x.1
  released : Released act.sender act.guard cursors w w'

theorem advance_run {σ : State} {act : Activation} {iter : Option Nat}
    {cursors : SenderId → List Cursor}
    (hw : σ.world.Memory (standing act.sender ⟨act.guard, iter, act.start⟩ cursors))
    (hs : (σ.world.sender act.sender).isSome = true) :
    (∃ w', σ.advance act iter = .ok { σ.restore act with world := w' } ∧
      Ended σ.world act cursors iter w') ∨
    ∃ n c, Met σ.world act cursors iter n c ∧
      (σ.world.receiver c.data.receiver = true ∧ σ.advance act iter =
          .ok (σ.push ⟨act, n, c.data.receiver, .compareThreads, 0⟩ c.data) ∨
        σ.world.receiver c.data.receiver = false ∧ σ.advance act iter = .error .destroyed) := by
  have hg := hw.lists act.sender hs
  rw [standing_self] at hg
  obtain ⟨res, hrun, hg', hres, hmeet⟩ := hg.find (p := act.wants)
    fun n _ => Nat.le_add_left _ _
  have hadv : σ.advance act iter = σ.arrive act res := by
    simp only [State.advance]
    rw [hrun, ok_bind]
  cases res with
  | none =>
    obtain ⟨w', hrel, hR⟩ := release_run (σ := σ.restore act) hw
    refine Or.inl ⟨w', hadv.trans hrel, hrun, fun x hx hp hst hi => ?_, hR⟩
    obtain ⟨n, hn, _⟩ := hmeet x hx hp hst hi
    cases hn
  | some n =>
    obtain ⟨hahead, c, hc, hp⟩ := hres n rfl
    refine Or.inr ⟨n, c, ⟨hrun, hc, hp, hahead, fun x hx hpx hst hi => ?_, ?_⟩, ?_⟩
    · obtain ⟨m, hm, hle⟩ := hmeet x hx hpx hst hi
      cases hm
      exact hle
    · have := hw.setList (s := act.sender) (l := σ.world.connectList act.sender)
        (standing act.sender ⟨act.guard, some n, act.start⟩ cursors)
        (fun s' hss => by rw [standing_ne hss, standing_ne hss])
        (fun _ => ⟨by rw [standing_self]; exact hg', rfl⟩)
        fun hn => by rw [hn] at hs; cases hs
      rwa [show (connectListOf act.sender).set σ.world (σ.world.connectList act.sender) = σ.world from
        (connectListOf act.sender).set_get _] at this
    · rw [hadv]
      simp only [State.arrive, NodeList.deref, hc, ok_bind, World.accessReceiver]
      by_cases hr : σ.world.receiver c.data.receiver = true
      · rw [if_pos hr, ok_bind]
        exact Or.inl ⟨hr, rfl⟩
      · rw [if_neg hr, error_bind]
        exact Or.inr ⟨by simpa using hr, rfl⟩

/-! ## The step of the iterator -/

/-- The node of an iterator, whose pointer leads on and skips no entry that was
in the list at the lock. -/
structure Stepped (w : World) (f : Frame) (c : Node ConnectStruct) : Prop where
  cell : (w.connectList f.activation.sender).node f.iter = some c
  later : ∀ y, c.next = some y → f.iter < y
  skips : ∀ m ∈ ids (w.connectList f.activation.sender).toList, f.iter < m →
    m < f.activation.start → ∃ y, c.next = some y ∧ y ≤ m

/-- After the body of the loop the counter is one less, and the iterator moves on. -/
theorem nextConnection_run {σ : State} {f : Frame} {o : SignalBase}
    {cursors : SenderId → List Cursor}
    (hw : σ.world.Memory (standing f.activation.sender f.cursor cursors))
    (ho : σ.world.sender f.activation.sender = some o) :
    ∃ c, Stepped σ.world f c ∧
      σ.nextConnection f = State.advance
        { σ with world := σ.world.withBusy f.activation.sender o (o.activateBusy + -1) }
        f.activation c.next ∧
      (σ.world.withBusy f.activation.sender o (o.activateBusy + -1)).Memory
        (standing f.activation.sender ⟨f.activation.guard, c.next, f.activation.start⟩ cursors) := by
  have hs : (σ.world.sender f.activation.sender).isSome = true := by rw [ho]; rfl
  have hg := hw.lists _ hs
  rw [standing_self] at hg
  obtain ⟨c, hc, hg', hlt, hall⟩ := hg.next
  refine ⟨c, ⟨hc, hlt, hall⟩, ?_, ?_⟩
  · simp only [State.nextConnection, World.addBusy, World.accessSender, ho, ok_bind]
    rw [show (σ.world.withBusy f.activation.sender o (o.activateBusy + -1)).connectList =
      σ.world.connectList from rfl]
    simp only [NodeList.deref, hc, ok_bind]
  · refine (withBusy_sameLists ho _).memory ?_
    have := hw.setList (s := f.activation.sender) (l := σ.world.connectList f.activation.sender)
      (standing f.activation.sender ⟨f.activation.guard, c.next, f.activation.start⟩ cursors)
      (fun s' hss => by rw [standing_ne hss, standing_ne hss])
      (fun _ => ⟨by rw [standing_self]; exact hg', rfl⟩)
      fun hn => by rw [hn] at hs; cases hs
    rwa [show (connectListOf f.activation.sender).set σ.world
      (σ.world.connectList f.activation.sender) = σ.world from
      (connectListOf f.activation.sender).set_get _] at this

theorem nextConnection_dead {σ : State} {f : Frame}
    (h : σ.world.sender f.activation.sender = none) : σ.nextConnection f = .error .destroyed := by
  simp only [State.nextConnection, World.addBusy, World.accessSender, h, error_bind]

/-! ## All moves -/

/-- The state in which the body of the loop goes on after a call. -/
def State.resumed (σ : State) (f : Frame) : State :=
  match f.call with
  | .handleException => { σ with
      threadLocal_currentSender := some f.activation.sender
      world := { σ.world with destroyedLocked := false } }
  | _ => σ

/-- The world after `sender.m_activateBusy--`. -/
def State.lessBusy (σ : State) (f : Frame) (o : SignalBase) : World :=
  (σ.resumed f).world.withBusy f.activation.sender o (o.activateBusy + -1)

/-- The world in which an activation of a destroyed signal ends. -/
def State.unmarked (σ : State) (f : Frame) : World :=
  if f.old_activateBusy = 0 then
    { σ.world with
      beingDestroyed := σ.world.beingDestroyed.erase f.activation.senderPtr }
  else σ.world

/-- The end of the innermost call. -/
def Action.IsEnd : Action → Prop
  | .ret _ => True
  | .throw => True
  | _ => False

theorem Action.IsEnd.ret_or_throw {a : Action} (h : a.IsEnd) :
    a.isRet = true ∨ a.isThrow = true := by
  cases a with
  | ret b => exact Or.inl rfl
  | throw => exact Or.inr rfl
  | _ => exact absurd h id

/-- What can follow the end of the innermost call `f`; in `σ` it is off the stack. -/
inductive Move (σ : State) (f : Frame) : Action → State → Prop
  /-- `compareThreads` returned, and the slot is called. -/
  | dispatched {b : Bool} {o : SignalBase} {c : Node ConnectStruct}
      (hcall : f.call = .compareThreads)
      (ho : σ.world.sender f.activation.sender = some o)
      (hc : (σ.world.connectList f.activation.sender).node f.iter = some c)
      (hr : State.callUses (State.callFor c.data.type b) c.data.slotMethod = true →
        σ.world.receiver f.receiver = true) :
      Move σ f (.ret b) (State.push
        { σ with world := σ.world.withBusy f.activation.sender o (o.activateBusy + 1) }
        { f with call := State.callFor c.data.type b, old_activateBusy := o.activateBusy } c.data)
  /-- The body is done, and the loop comes to another connection. -/
  | next {b : Bool} {o : SignalBase} {c c' : Node ConnectStruct} {n : Nat}
      (hcall : f.call ≠ .compareThreads)
      (hfree : f.call.isSlot = true →
        σ.world.destroyedLocked = false ∧ f.activation.senderPtr ∉ σ.world.beingDestroyed)
      (ho : σ.world.sender f.activation.sender = some o)
      (hstep : Stepped σ.world f c)
      (hmet : Met (σ.lessBusy f o) f.activation (cursorsOf σ.stack) c.next n c')
      (hr : σ.world.receiver c'.data.receiver = true) :
      Move σ f (.ret b) (State.push { σ.resumed f with world := σ.lessBusy f o }
        ⟨f.activation, n, c'.data.receiver, .compareThreads, 0⟩ c'.data)
  /-- The body is done, and the loop comes to its end. -/
  | ended {b : Bool} {o : SignalBase} {c : Node ConnectStruct} {w' : World}
      (hcall : f.call ≠ .compareThreads)
      (hfree : f.call.isSlot = true →
        σ.world.destroyedLocked = false ∧ f.activation.senderPtr ∉ σ.world.beingDestroyed)
      (ho : σ.world.sender f.activation.sender = some o)
      (hstep : Stepped σ.world f c)
      (hend : Ended (σ.lessBusy f o) f.activation (cursorsOf σ.stack) c.next w') :
      Move σ f (.ret b) { (σ.resumed f).restore f.activation with world := w' }
  /-- The signal is marked as destroyed, and `activate` returns. -/
  | stopped {a : Action} {w' : World}
      (hend : a.IsEnd)
      (hcall : f.call.isSlot = true)
      (hlock : σ.world.destroyedLocked = false)
      (hmark : f.activation.senderPtr ∈ σ.world.beingDestroyed)
      (hrel : Released f.activation.sender f.activation.guard (cursorsOf σ.stack)
        (σ.unmarked f) w') :
      Move σ f a { σ.restore f.activation with world := w' }
  /-- The slot threw, and `handleException` is called. -/
  | handling {o : SignalBase}
      (hcall : f.call.isSlot = true)
      (hlock : σ.world.destroyedLocked = false)
      (hmark : f.activation.senderPtr ∉ σ.world.beingDestroyed)
      (ho : σ.world.sender f.activation.sender = some o) :
      Move σ f .throw { σ.restore f.activation with
        world := { σ.world with destroyedLocked := true }
        stack := { f with call := .handleException } :: σ.stack }
  /-- `compareThreads` threw, and the exception leaves `activate`. -/
  | left {w' : World}
      (hcall : f.call = .compareThreads)
      (hrel : Released f.activation.sender f.activation.guard (cursorsOf σ.stack) σ.world w') :
      Move σ f .throw { σ with world := w' }
  /-- `handleException` threw, and the exception leaves `activate`. -/
  | handlerLeft {w' : World}
      (hcall : f.call = .handleException)
      (hrel : Released f.activation.sender f.activation.guard (cursorsOf σ.stack)
        { σ.world with destroyedLocked := false } w') :
      Move σ f .throw { σ with world := w' }

theorem Move.isEnd {σ σ' : State} {f : Frame} {a : Action} (h : Move σ f a σ') : a.IsEnd := by
  cases h <;> trivial

/-- Why there may be no next state after the end of the call `f`. -/
inductive Crash (σ : State) (f : Frame) : Fault → Prop
  /-- The slot call ends in a thread that holds the mutex of the mark set. -/
  | relocked (hcall : f.call.isSlot = true) (hlock : σ.world.destroyedLocked = true) :
      Crash σ f .relocked
  /-- The signal is gone, and no mark says so. -/
  | sender (hdead : σ.world.sender f.activation.sender = none)
      (hmark : f.call.isSlot = true → f.activation.senderPtr ∉ σ.world.beingDestroyed) :
      Crash σ f .destroyed
  /-- The slot that was asked for its thread is gone. -/
  | receiver (hcall : f.call = .compareThreads) (hdead : σ.world.receiver f.receiver = false) :
      Crash σ f .destroyed
  /-- The loop comes to a connection whose slot is gone. -/
  | next {o : SignalBase} {c c' : Node ConnectStruct} {n : Nat}
      (hcall : f.call ≠ .compareThreads)
      (ho : σ.world.sender f.activation.sender = some o)
      (hstep : Stepped σ.world f c)
      (hmet : Met (σ.lessBusy f o) f.activation (cursorsOf σ.stack) c.next n c')
      (hdead : σ.world.receiver c'.data.receiver = false) :
      Crash σ f .destroyed

theorem unmarked_sameLists (σ : State) (f : Frame) : SameLists σ.world (σ.unmarked f) := by
  unfold State.unmarked
  split <;> exact ⟨rfl, rfl, rfl, rfl, rfl, fun _ => rfl⟩

theorem stopEarly_run {σ : State} {f : Frame}
    (hw : σ.world.Memory (standing f.activation.sender f.cursor (cursorsOf σ.stack))) :
    ∃ w', σ.stopEarly f = .ok { σ.restore f.activation with world := w' } ∧
      Released f.activation.sender f.activation.guard (cursorsOf σ.stack) (σ.unmarked f) w' := by
  obtain ⟨w', hrun, hR⟩ := release_run
    (σ := { σ.restore f.activation with world := σ.unmarked f }) ((unmarked_sameLists σ f).memory hw)
  refine ⟨w', ?_, hR⟩
  rw [← hrun]
  simp only [State.stopEarly, State.unmarked]
  split <;> rfl

/-- The body of the loop goes on after a call that is not `compareThreads`. -/
theorem body_run {σ : State} {f : Frame} {b : Bool} (hcall : f.call ≠ .compareThreads)
    (hw : σ.world.Memory (standing f.activation.sender f.cursor (cursorsOf σ.stack)))
    (hfree : f.call.isSlot = true →
      σ.world.destroyedLocked = false ∧ f.activation.senderPtr ∉ σ.world.beingDestroyed) :
    (∃ σ', (σ.resumed f).nextConnection f = .ok σ' ∧ Move σ f (.ret b) σ') ∨
      ∃ u, (σ.resumed f).nextConnection f = .error u ∧ Crash σ f u := by
  have hsame : SameLists σ.world (σ.resumed f).world ∧ (σ.resumed f).world.sender = σ.world.sender := by
    unfold State.resumed
    split <;> exact ⟨⟨rfl, rfl, rfl, rfl, rfl, fun _ => rfl⟩, rfl⟩
  have hstack : (σ.resumed f).stack = σ.stack := by
    unfold State.resumed
    split <;> rfl
  cases ho : σ.world.sender f.activation.sender with
  | none =>
    exact Or.inr ⟨_, nextConnection_dead (by rw [hsame.2, ho]), .sender ho fun h => (hfree h).2⟩
  | some o =>
    obtain ⟨c, hstep, hrun, hmem⟩ := nextConnection_run (hsame.1.memory hw) (by rw [hsame.2, ho])
    have hstep' : Stepped σ.world f c := by
      refine ⟨?_, hstep.later, ?_⟩
      · rw [← hsame.1.connectList]
        exact hstep.cell
      · rw [← hsame.1.connectList]
        exact hstep.skips
    have hlive : ((σ.lessBusy f o).sender f.activation.sender).isSome = true := by
      simp [State.lessBusy, World.withBusy]
    rcases advance_run (σ := { σ.resumed f with world := σ.lessBusy f o }) hmem hlive with
      ⟨w', hadv, hE⟩ | ⟨n, c', hM, ⟨hr, hadv⟩ | ⟨hr, hadv⟩⟩
    · exact Or.inl ⟨_, hrun.trans hadv, .ended hcall hfree ho hstep' hE⟩
    · refine Or.inl ⟨_, hrun.trans hadv, .next hcall hfree ho hstep' hM ?_⟩
      rw [← hsame.1.receiver]
      exact hr
    · refine Or.inr ⟨_, hrun.trans hadv, .next hcall ho hstep' hM ?_⟩
      rw [← hsame.1.receiver]
      exact hr

/-- What follows when the innermost call returns. -/
theorem returned_run {σ : State} {f : Frame} (b : Bool)
    (hw : σ.world.Memory (standing f.activation.sender f.cursor (cursorsOf σ.stack))) :
    (∃ σ', σ.returned f b = .ok σ' ∧ Move σ f (.ret b) σ') ∨
      ∃ u, σ.returned f b = .error u ∧ Crash σ f u := by
  have hslot : f.call.isSlot = true → σ.returned f b = σ.slotReturned f →
      (∃ σ', σ.returned f b = .ok σ' ∧ Move σ f (.ret b) σ') ∨
        ∃ u, σ.returned f b = .error u ∧ Crash σ f u := by
    intro hcall heq
    rw [heq]
    simp only [State.slotReturned]
    by_cases hlock : σ.world.destroyedLocked = true
    · rw [if_pos hlock]
      exact Or.inr ⟨_, rfl, .relocked hcall hlock⟩
    · have hlock' : σ.world.destroyedLocked = false := by simpa using hlock
      rw [if_neg hlock]
      by_cases hmark : f.activation.senderPtr ∈ σ.world.beingDestroyed
      · rw [if_pos hmark]
        obtain ⟨w', hrun, hR⟩ := stopEarly_run hw
        exact Or.inl ⟨_, hrun, .stopped trivial hcall hlock' hmark hR⟩
      · rw [if_neg hmark]
        have hne : f.call ≠ .compareThreads := by rintro h; rw [h] at hcall; cases hcall
        have := body_run (b := b) hne hw fun _ => ⟨hlock', hmark⟩
        have hres : σ.resumed f = σ := by
          unfold State.resumed
          split
          · rename_i h
            rw [h] at hcall
            cases hcall
          · rfl
        rwa [hres] at this
  cases hcall : f.call with
  | compareThreads =>
    simp only [State.returned, hcall, State.dispatch]
    cases ho : σ.world.sender f.activation.sender with
    | none =>
      refine Or.inr ⟨.destroyed, ?_, .sender ho fun h => by rw [hcall] at h; cases h⟩
      simp only [World.accessSender, ho, error_bind]
    | some o =>
      have hg := hw.lists f.activation.sender (by rw [ho]; rfl)
      rw [standing_self] at hg
      obtain ⟨c, hc, _⟩ := hg.next
      have hc' : ((σ.world.withBusy f.activation.sender o (o.activateBusy + 1)).connectList
          f.activation.sender).deref f.iter = .ok c := by
        rw [show (σ.world.withBusy f.activation.sender o (o.activateBusy + 1)).connectList =
          σ.world.connectList from rfl]
        simp only [NodeList.deref, hc]
      simp only [World.accessSender, World.addBusy, ho, ok_bind]
      rw [hc', ok_bind]
      by_cases hu : State.callUses (State.callFor c.data.type b) c.data.slotMethod = true
      · simp only [hu, if_true, World.accessReceiver]
        by_cases hr : σ.world.receiver f.receiver = true
        · rw [if_pos hr, ok_bind]
          exact Or.inl ⟨_, rfl, .dispatched hcall ho hc fun _ => hr⟩
        · rw [if_neg hr, error_bind]
          exact Or.inr ⟨_, rfl, .receiver hcall (by simpa using hr)⟩
      · simp only [hu, if_false, Bool.false_eq_true]
        exact Or.inl ⟨_, rfl, .dispatched hcall ho hc fun h => absurd h hu⟩
  | invoke =>
    have := hslot (by rw [hcall]; rfl) (by simp only [State.returned, hcall])
    exact this
  | queueSlot type =>
    have := hslot (by rw [hcall]; rfl) (by simp only [State.returned, hcall])
    exact this
  | handleException =>
    have := body_run (b := b) (by rw [hcall]; simp) hw fun h => by rw [hcall] at h; cases h
    have heq : σ.returned f b = (σ.resumed f).nextConnection f := by
      simp only [State.returned, hcall, State.handlerReturned, State.resumed]
    rwa [← heq] at this

/-- What follows when an exception leaves the innermost call. -/
theorem threw_run {σ : State} {f : Frame}
    (hw : σ.world.Memory (standing f.activation.sender f.cursor (cursorsOf σ.stack))) :
    (∃ σ', σ.threw f = .ok σ' ∧ Move σ f .throw σ') ∨
      ∃ u, σ.threw f = .error u ∧ Crash σ f u := by
  have hslot : f.call.isSlot = true → σ.threw f = σ.slotThrew f →
      (∃ σ', σ.threw f = .ok σ' ∧ Move σ f .throw σ') ∨
        ∃ u, σ.threw f = .error u ∧ Crash σ f u := by
    intro hcall heq
    rw [heq]
    simp only [State.slotThrew]
    by_cases hlock : σ.world.destroyedLocked = true
    · rw [if_pos hlock]
      exact Or.inr ⟨_, rfl, .relocked hcall hlock⟩
    · have hlock' : σ.world.destroyedLocked = false := by simpa using hlock
      rw [if_neg hlock]
      by_cases hmark : f.activation.senderPtr ∈ σ.world.beingDestroyed
      · rw [if_pos hmark]
        obtain ⟨w', hrun, hR⟩ := stopEarly_run hw
        exact Or.inl ⟨_, hrun, .stopped trivial hcall hlock' hmark hR⟩
      · rw [if_neg hmark]
        cases ho : σ.world.sender f.activation.sender with
        | none =>
          refine Or.inr ⟨.destroyed, ?_, .sender ho fun _ => hmark⟩
          simp only [World.accessSender, ho, error_bind]
        | some o =>
          refine Or.inl ⟨_, ?_, .handling hcall hlock' hmark ho⟩
          simp only [World.accessSender, ho, ok_bind]
          rfl
  cases hcall : f.call with
  | compareThreads =>
    obtain ⟨w', hrun, hR⟩ := release_run (σ := σ) hw
    refine Or.inl ⟨_, ?_, .left hcall hR⟩
    simp only [State.threw, hcall, hrun]
  | invoke =>
    have := hslot (by rw [hcall]; rfl) (by simp only [State.threw, hcall])
    exact this
  | queueSlot type =>
    have := hslot (by rw [hcall]; rfl) (by simp only [State.threw, hcall])
    exact this
  | handleException =>
    have hsame : SameLists σ.world { σ.world with destroyedLocked := false } :=
      ⟨rfl, rfl, rfl, rfl, rfl, fun _ => rfl⟩
    obtain ⟨w', hrun, hR⟩ := release_run
      (σ := { σ with world := { σ.world with destroyedLocked := false } }) (hsame.memory hw)
    refine Or.inl ⟨_, ?_, .handlerLeft hcall hR⟩
    simp only [State.threw, hcall, State.handlerThrew, hrun]

/-! ## The start of an activation -/

/-- The activation that `activate` starts. -/
def State.entering (σ : State) (s : SenderId) (o : SignalBase) (sig : Bento) : Activation :=
  ⟨σ.activationCount, s, o.addr, sig, σ.threadLocal_currentSender, σ.threadLocal_currentSignal,
    (σ.world.connectList s).zombieCount, (σ.world.connectList s).nodeCount⟩

/-- The state when `activate` has locked the list of its signal. -/
def State.entered (σ : State) (s : SenderId) (sig : Bento) : State :=
  { σ with
    threadLocal_currentSender := some s
    threadLocal_currentSignal := some ⟨σ.activationCount, sig⟩
    activationCount := σ.activationCount + 1
    world := (connectListOf s).set σ.world (σ.world.connectList s).rcuReadLock.2 }

/-- What `activate` does up to its first call of user code. -/
inductive Enter (σ : State) (s : SenderId) (o : SignalBase) (sig : Bento) : State → Prop
  | met {n : Nat} {c : Node ConnectStruct}
      (hmet : Met (σ.entered s sig).world (σ.entering s o sig) (cursorsOf σ.stack)
        (σ.world.connectList s).head n c)
      (hr : σ.world.receiver c.data.receiver = true) :
      Enter σ s o sig ((σ.entered s sig).push
        ⟨σ.entering s o sig, n, c.data.receiver, .compareThreads, 0⟩ c.data)
  | ended {w' : World}
      (hend : Ended (σ.entered s sig).world (σ.entering s o sig) (cursorsOf σ.stack)
        (σ.world.connectList s).head w') :
      Enter σ s o sig { (σ.entered s sig).restore (σ.entering s o sig) with world := w' }

theorem entered_memory {σ : State} {s : SenderId} {o : SignalBase} (sig : Bento)
    {cursors : SenderId → List Cursor} (hw : σ.world.Memory cursors)
    (ho : σ.world.sender s = some o) :
    (σ.entered s sig).world.Memory (standing s
      ⟨(σ.entering s o sig).guard, (σ.world.connectList s).head, (σ.entering s o sig).start⟩
      cursors) := by
  have hs : (σ.world.sender s).isSome = true := by rw [ho]; rfl
  obtain ⟨hg, hl⟩ := (hw.lists s hs).lock
  refine hw.setList _ (fun s' hss => standing_ne hss _ _) (fun _ => ⟨?_, hl⟩) fun hn => ?_
  · rw [standing_self]
    exact hg
  · rw [hn] at hs
    cases hs

theorem activate_run {σ : State} {s : SenderId} {o : SignalBase} (sig : Bento)
    (hw : σ.world.Memory (cursorsOf σ.stack)) (ha : σ.world.allocs = none)
    (ho : σ.world.sender s = some o) :
    (∃ σ', σ.activate s sig = .ok σ' ∧ Enter σ s o sig σ') ∨
      ∃ n c, Met (σ.entered s sig).world (σ.entering s o sig) (cursorsOf σ.stack)
        (σ.world.connectList s).head n c ∧ σ.world.receiver c.data.receiver = false ∧
        σ.activate s sig = .error .destroyed := by
  have hs : (σ.world.sender s).isSome = true := by rw [ho]; rfl
  have hmem := entered_memory sig hw ho
  have hlock := (connectListOf s).lock_run (w := σ.world) hs (World.enough_none ha 1)
  rw [World.spend_none ha] at hlock
  have hact : σ.activate s sig = (σ.entered s sig).advance (σ.entering s o sig)
      (σ.world.connectList s).head := by
    have hget : ((connectListOf s).set σ.world (σ.world.connectList s).rcuReadLock.2).connectList s =
        (σ.world.connectList s).rcuReadLock.2 := (connectListOf s).get_set _ _
    simp only [State.activate, World.accessSender, ho, ok_bind]
    rw [hlock]
    simp only
    rw [show (connectListOf s).get σ.world = σ.world.connectList s from rfl, hget]
    rfl
  rw [hact]
  rcases advance_run (show World.Memory _ (standing (σ.entering s o sig).sender _ _) from hmem) hs with
    ⟨w', hadv, hE⟩ | ⟨n, c, hM, ⟨hr, hadv⟩ | ⟨hr, hadv⟩⟩
  · exact Or.inl ⟨_, hadv, .ended hE⟩
  · exact Or.inl ⟨_, hadv, .met hM hr⟩
  · exact Or.inr ⟨n, c, hM, hr, hadv⟩

/-! ## All steps -/

/-- What a step does: a call of the library, the start of an activation, or a
move after the end of the innermost call. -/
inductive Next (σ : State) : Action → State → Prop
  | call {a : Action} {w' : World} (hc : a.IsCall) (hD : w' = σ.world ∨ Did a σ.world w') :
      Next σ a { σ with world := w' }
  | enter {s : SenderId} {o : SignalBase} {sig : Bento} {σ' : State}
      (ho : σ.world.sender s = some o) (hE : Enter σ s o sig σ') : Next σ (.activate s sig) σ'
  | move {a : Action} {f : Frame} {rest : List Frame} {σ' : State} (hst : σ.stack = f :: rest)
      (hM : Move { σ with stack := rest } f a σ') : Next σ a σ'

/-- Why a step has no next state. -/
inductive Fails (σ : State) : Action → Fault → Prop
  | delete {s : SenderId} {o : SignalBase} (ho : σ.world.sender s = some o)
      (hb : o.activateBusy > 0) (hl : σ.world.destroyedLocked = true) :
      Fails σ (.deleteSender s) .relocked
  | enter {s : SenderId} {o : SignalBase} {sig : Bento} {n : Nat} {c : Node ConnectStruct}
      (ho : σ.world.sender s = some o)
      (hmet : Met (σ.entered s sig).world (σ.entering s o sig) (cursorsOf σ.stack)
        (σ.world.connectList s).head n c)
      (hr : σ.world.receiver c.data.receiver = false) : Fails σ (.activate s sig) .destroyed
  | move {a : Action} {f : Frame} {rest : List Frame} {u : Fault} (hst : σ.stack = f :: rest)
      (hC : Crash { σ with stack := rest } f u) : Fails σ a u

theorem end_run {σ : State} {a : Action} (hw : σ.world.Memory (cursorsOf σ.stack))
    (he : a.IsEnd) {f : Frame} {rest : List Frame} (hst : σ.stack = f :: rest) :
    (∃ σ', step σ a = .ok σ' ∧ Next σ a σ') ∨
      ∃ u, step σ a = .error (.fault u) ∧ Fails σ a u := by
  rw [hst, cursorsOf_cons] at hw
  cases a with
  | ret b =>
    simp only [step, if_pos (show Action.Legal σ.world (.ret b) from trivial), hst]
    rcases returned_run (σ := { σ with stack := rest }) b hw with ⟨σ1, hrun, hM⟩ | ⟨u, hrun, hC⟩
    · exact Or.inl ⟨σ1, by rw [hrun]; rfl, .move hst hM⟩
    · exact Or.inr ⟨u, by rw [hrun]; rfl, .move hst hC⟩
  | throw =>
    simp only [step, if_pos (show Action.Legal σ.world .throw from trivial), hst]
    rcases threw_run (σ := { σ with stack := rest }) hw with ⟨σ1, hrun, hM⟩ | ⟨u, hrun, hC⟩
    · exact Or.inl ⟨σ1, by rw [hrun]; rfl, .move hst hM⟩
    · exact Or.inr ⟨u, by rw [hrun]; rfl, .move hst hC⟩
  | _ => exact absurd he id

theorem call_or_activate_or_end (a : Action) :
    a.IsCall ∨ (∃ s sig, a = .activate s sig) ∨ a.IsEnd := by
  cases a with
  | activate s sig => exact Or.inr (Or.inl ⟨s, sig, rfl⟩)
  | ret b => exact Or.inr (Or.inr trivial)
  | throw => exact Or.inr (Or.inr trivial)
  | _ => exact Or.inl trivial

/-- A legal step ends in one of the ways above, or there is no call that could end. -/
theorem step_run {σ : State} {a : Action} (hw : σ.world.Memory (cursorsOf σ.stack))
    (ha : σ.world.allocs = none) (hl : a.Legal σ.world) :
    (∃ σ', step σ a = .ok σ' ∧ Next σ a σ') ∨
      (∃ u, step σ a = .error (.fault u) ∧ Fails σ a u) ∨
      a.IsEnd ∧ σ.stack = [] ∧ step σ a = .error .illegal := by
  rcases call_or_activate_or_end a with hc | ⟨s, sig, rfl⟩ | he
  · rcases step_call hw.toSound ha hc hl with ⟨w', hstep, hD⟩ | ⟨s, o, rfl, ho, hb, hlk, hstep⟩
    · exact Or.inl ⟨_, hstep, .call hc hD⟩
    · exact Or.inr (Or.inl ⟨_, hstep, .delete ho hb hlk⟩)
  · obtain ⟨o, ho⟩ := Option.isSome_iff_exists.mp hl
    simp only [step, if_pos hl]
    rcases activate_run sig hw ha ho with ⟨σ1, hrun, hE⟩ | ⟨n, c, hM, hr, hrun⟩
    · exact Or.inl ⟨σ1, by rw [hrun]; rfl, .enter ho hE⟩
    · exact Or.inr (Or.inl ⟨_, by rw [hrun]; rfl, .enter ho hM hr⟩)
  · cases hst : σ.stack with
    | nil =>
      refine Or.inr (Or.inr ⟨he, rfl, ?_⟩)
      cases a <;> first | exact absurd he id | simp only [step, if_pos hl, hst]
    | cons f rest => exact (end_run hw he hst).imp id Or.inl

theorem legal_of_step {σ σ' : State} {a : Action} (h : step σ a = .ok σ') : a.Legal σ.world := by
  by_contra hc
  simp only [step, if_neg hc] at h
  cases h

theorem next_of_step {σ σ' : State} {a : Action} (hw : σ.world.Memory (cursorsOf σ.stack))
    (ha : σ.world.allocs = none) (h : step σ a = .ok σ') : Next σ a σ' := by
  rcases step_run hw ha (legal_of_step h) with ⟨σ1, hs, hN⟩ | ⟨u, hs, _⟩ | ⟨_, _, hs⟩
  · rw [h, Except.ok.injEq] at hs
    exact hs ▸ hN
  · rw [h] at hs
    cases hs
  · rw [h] at hs
    cases hs

theorem fails_of_step {σ : State} {a : Action} {u : Fault}
    (hw : σ.world.Memory (cursorsOf σ.stack)) (ha : σ.world.allocs = none)
    (h : step σ a = .error (.fault u)) : Fails σ a u := by
  have hl : a.Legal σ.world := by
    by_contra hc
    simp only [step, if_neg hc] at h
    cases h
  rcases step_run hw ha hl with ⟨σ1, hs, _⟩ | ⟨u', hs, hF⟩ | ⟨_, _, hs⟩
  · rw [h] at hs
    cases hs
  · rw [h, Except.error.injEq, Stop.fault.injEq] at hs
    exact hs ▸ hF
  · rw [h] at hs
    cases hs

end CsSignal
