-- The two-sided bookkeeping: a connection stands in the list of its sender, and
-- the sender once for each of them in the list of the receiver.
import CsSignal.ListCalls

namespace CsSignal

open LinkedCells Calls RcuList

/-! ## What the lists say -/

/-- The connections of a signal, in order. -/
def World.conns (w : World) (s : SenderId) : List ConnectStruct := (w.connectList s).values

/-- The possible senders of a slot, in order. -/
def World.possible (w : World) (r : ReceiverId) : List SenderId := (w.possibleSenders r).values

/-- Two worlds that differ in their lists and their allocator only. -/
structure SameObjects (w w' : World) : Prop where
  sender : w'.sender = w.sender
  receiver : w'.receiver = w.receiver
  senderCount : w'.senderCount = w.senderCount
  receiverCount : w'.receiverCount = w.receiverCount
  beingDestroyed : w'.beingDestroyed = w.beingDestroyed
  destroyedLocked : w'.destroyedLocked = w.destroyedLocked

theorem SameObjects.refl (w : World) : SameObjects w w := ⟨rfl, rfl, rfl, rfl, rfl, rfl⟩

theorem SameObjects.trans {w w' w'' : World} (h : SameObjects w w') (h' : SameObjects w' w'') :
    SameObjects w w'' :=
  ⟨h'.sender.trans h.sender, h'.receiver.trans h.receiver, h'.senderCount.trans h.senderCount,
    h'.receiverCount.trans h.receiverCount, h'.beingDestroyed.trans h.beingDestroyed,
    h'.destroyedLocked.trans h.destroyedLocked⟩

/-- No handle is open on the possible senders of a live slot. -/
def World.SlotsSound (w : World) : Prop :=
  ∀ r, w.receiver r = true → Guarded (w.possibleSenders r) []

theorem values_eq_of_toList {α : Type} {l : NodeList α} {xs : List (Nat × α)}
    (h : l.toList = xs) : l.values = xs.map Prod.snd := by
  rw [NodeList.values, h]

/-- The two lists agree, and no list of a live object mentions a dead one. -/
structure World.Booked (w : World) : Prop where
  counts : ∀ s r, (w.sender s).isSome = true → w.receiver r = true →
    (w.conns s).countP (fun c => c.receiver == r) = (w.possible r).count s
  receivers : ∀ s, (w.sender s).isSome = true → ∀ c ∈ w.conns s, w.receiver c.receiver = true
  senders : ∀ r, w.receiver r = true → ∀ s ∈ w.possible r, (w.sender s).isSome = true

/-- The objects of a run between two calls: the memory of every list, with the
iterators that stand in it, and the bookkeeping. -/
structure World.Sound (w : World) (cursors : SenderId → List Cursor) : Prop where
  lists : ∀ s, (w.sender s).isSome = true → Guarded (w.connectList s) (cursors s)
  slots : w.SlotsSound
  booked : w.Booked
  senderBound : ∀ s, (w.sender s).isSome = true → s < w.senderCount
  receiverBound : ∀ r, w.receiver r = true → r < w.receiverCount

/-- Every connection list that was there and is still there was changed by one step. -/
def ListsStep (w w' : World) : Prop :=
  ∀ s, (w.sender s).isSome = true → (w'.sender s).isSome = true →
    ListStep (w.connectList s) (w'.connectList s)

end CsSignal
