-- The questions that a slot and a signal answer from their own list. A question
-- walks the list under a read handle, and changes nothing but the zombie stack.
import CsSignal.Destructors

namespace CsSignal

open LinkedCells Calls RcuList

namespace ListRef

variable {α β : Type} [DecidableEq β] (ref : ListRef α)

theorem collect_run {f : α → Option β} {pre rest : List (Nat × α)} {zs : List Entry} {fuel : Nat}
    (retval : Finset β) {w : World} (hlive : ref.live w = true)
    (hr : Rep (ref.get w) (pre ++ rest) zs) (hf : rest.length ≤ fuel) :
    ref.collect f fuel (rest.head?.map Prod.fst) retval w =
      .returned (retval ∪ ((rest.map Prod.snd).filterMap f).toFinset) w := by
  induction rest generalizing pre fuel retval with
  | nil => cases fuel <;> simp [collect]
  | cons x xs ih =>
    cases fuel with
    | zero => simp at hf
    | succ fuel =>
      have hcell := hr.nodes.cell rfl
      have hr' : Rep (ref.get w) ((pre ++ [x]) ++ xs) zs := by simpa using hr
      simp only [List.head?_cons, Option.map_some, collect]
      rw [bind_returned (ref.deref_run hlive hcell)]
      cases hx : f x.2 with
      | none =>
        simp only [List.map_cons, List.filterMap_cons, hx]
        exact ih retval hr' (by simpa using hf)
      | some b =>
        have := ih (insert b retval) hr' (by simpa using hf)
        simp only [List.map_cons, List.filterMap_cons, hx]
        rw [this, List.toFinset_cons, Finset.insert_union, Finset.union_insert]

/-- A question to a list. -/
theorem question_run {f : α → Option β} {w : World} {cs : List Cursor} (hlive : ref.live w = true)
    (ha : w.allocs = none) (hg : Guarded (ref.get w) cs) :
    ∃ l, ref.withHandle (do
        let fuel ← ref.bound
        let first ← ref.begin
        ref.collect f fuel first ∅) w =
          .returned ((ref.get w).values.filterMap f).toFinset (ref.set w l) ∧
      ListStep (ref.get w) l ∧ l.toList = (ref.get w).toList := by
  obtain ⟨zs, hr, _, _⟩ := id hg
  have hr1 : Rep (ref.get w).rcuReadLock.2 ([] ++ (ref.get w).toList)
      ((ref.get w).guardEntry :: zs) := hr.lock
  have hlive1 : ref.live (ref.set w (ref.get w).rcuReadLock.2) = true := by
    rw [ref.live_set, hlive]
  obtain ⟨l, hun, hl, hstep, _⟩ := hg.lookStep
  refine ⟨l, ?_, hstep, hl⟩
  have hcol := ref.collect_run (w := ref.set w (ref.get w).rcuReadLock.2) (f := f) ∅ hlive1 (by rw [ref.get_set]; exact hr1) hr1.nodes.length_le
  rw [Finset.empty_union] at hcol
  have := ref.withHandle_run (do
      let fuel ← ref.bound
      let first ← ref.begin
      ref.collect f fuel first ∅ : Op (Finset β))
    (l := l) hlive (World.enough_none ha 1) (by
      rw [World.spend_none ha, bind_returned (ref.bound_run hlive1),
        bind_returned (ref.begin_run hlive1), ref.get_set, hr.lock.nodes.head_eq]
      exact hcol) (by rw [ref.get_set]; exact hun)
  rw [ref.set_set] at this
  exact this

end ListRef

theorem internalSenderList_run {w : World} {cursors : SenderId → List Cursor} {r : ReceiverId}
    (hw : w.Sound cursors) (hr : w.receiver r = true) (ha : w.allocs = none) :
    ∃ l, internalSenderList r w =
        .returned (w.possible r).toFinset ((possibleSendersOf r).set w l) ∧
      ListStep (w.possibleSenders r) l ∧ l.toList = (w.possibleSenders r).toList := by
  obtain ⟨l, hrun, hstep, hl⟩ := (possibleSendersOf r).question_run (f := some) hr ha (hw.slots r hr)
  refine ⟨l, ?_, hstep, hl⟩
  rw [List.filterMap_some] at hrun
  exact hrun

theorem internalReceiverList_run {w : World} {cursors : SenderId → List Cursor} {s : SenderId}
    (hw : w.Sound cursors) (hs : (w.sender s).isSome = true) (ha : w.allocs = none) (sig : Bento) :
    ∃ l, internalReceiverList s sig w = .returned (((w.conns s).filter
        fun item => item.signalMethod.eq sig).map ConnectStruct.receiver).toFinset
          ((connectListOf s).set w l) ∧
      ListStep (w.connectList s) l ∧ l.toList = (w.connectList s).toList := by
  obtain ⟨l, hrun, hstep, hl⟩ := (connectListOf s).question_run (f := fun item =>
    if item.signalMethod.eq sig then some item.receiver else none) hs ha (hw.lists s hs)
  refine ⟨l, ?_, hstep, hl⟩
  have : ∀ xs : List ConnectStruct, xs.filterMap (fun item =>
      if item.signalMethod.eq sig then some item.receiver else none) =
      (xs.filter fun item => item.signalMethod.eq sig).map ConnectStruct.receiver := by
    intro xs
    induction xs with
    | nil => rfl
    | cons x xs ih => by_cases h : x.signalMethod.eq sig = true <;> simp [h, ih]
  rw [this] at hrun
  exact hrun

/-- A step on the list of one slot keeps the books. -/
theorem World.Sound.askReceiver {w : World} {cursors : SenderId → List Cursor} {r : ReceiverId}
    (hw : w.Sound cursors) {l : RcuList SenderId} (hstep : ListStep (w.possibleSenders r) l)
    (hl : l.toList = (w.possibleSenders r).toList) :
    ((possibleSendersOf r).set w l).Sound cursors ∧ ListsStep w ((possibleSendersOf r).set w l) := by
  have hposs : ∀ r', ((possibleSendersOf r).set w l).possible r' = w.possible r' := by
    intro r'
    by_cases hrr : r' = r
    · subst hrr
      show ((possibleSendersOf r').get ((possibleSendersOf r').set w l)).values = _
      rw [(possibleSendersOf r').get_set, NodeList.values, hl]
      rfl
    · show (Function.update w.possibleSenders r l r').values = _
      rw [Function.update_of_ne hrr]
      rfl
  have hlists : ListsStep w ((possibleSendersOf r).set w l) := fun s _ _ => .refl _
  refine ⟨SameObjects.sound (w := w) ⟨rfl, rfl, rfl, rfl, rfl, rfl⟩ hw hlists (fun r' hr' => ?_)
    ⟨fun s r' hs hr' => ?_, hw.booked.receivers, fun r' hr' s hs => ?_⟩, hlists⟩
  · by_cases hrr : r' = r
    · subst hrr
      show Guarded (Function.update w.possibleSenders r' l r') []
      rw [Function.update_self]
      exact hstep.guarded _ (hw.slots r' hr')
    · show Guarded (Function.update w.possibleSenders r l r') []
      rw [Function.update_of_ne hrr]
      exact hw.slots r' hr'
  · rw [hposs r']
    exact hw.booked.counts s r' hs hr'
  · rw [hposs r'] at hs
    exact hw.booked.senders r' hr' s hs

/-- A step on the list of one signal that keeps its entries keeps the books. -/
theorem World.Sound.askSender {w : World} {cursors : SenderId → List Cursor} {s : SenderId}
    (hw : w.Sound cursors) {l : RcuList ConnectStruct} (hstep : ListStep (w.connectList s) l)
    (hl : l.toList = (w.connectList s).toList) :
    ((connectListOf s).set w l).Sound cursors ∧ ListsStep w ((connectListOf s).set w l) := by
  have hconns : ∀ s', ((connectListOf s).set w l).conns s' = w.conns s' := by
    intro s'
    by_cases hss : s' = s
    · subst hss
      show ((connectListOf s').get ((connectListOf s').set w l)).values = _
      rw [(connectListOf s').get_set, NodeList.values, hl]
      rfl
    · show (Function.update w.connectList s l s').values = _
      rw [Function.update_of_ne hss]
      rfl
  have hlists : ListsStep w ((connectListOf s).set w l) := by
    intro s' _ _
    by_cases hss : s' = s
    · subst hss
      show ListStep _ (Function.update w.connectList s' l s')
      rw [Function.update_self]
      exact hstep
    · show ListStep _ (Function.update w.connectList s l s')
      rw [Function.update_of_ne hss]
      exact .refl _
  refine ⟨SameObjects.sound (w := w) ⟨rfl, rfl, rfl, rfl, rfl, rfl⟩ hw hlists hw.slots
    ⟨fun s' r hs hr => ?_, fun s' hs c hc => ?_, hw.booked.senders⟩, hlists⟩
  · rw [hconns s']
    exact hw.booked.counts s' r hs hr
  · rw [hconns s'] at hc
    exact hw.booked.receivers s' hs c hc

end CsSignal
