-- What the destructors of a slot and of a signal do to the lists of the others,
-- and what is left of the memory of their own list.
import CsSignal.Connect
import Mathlib.Data.List.TakeWhile

namespace CsSignal

open LinkedCells Calls RcuList

/-! ## The walk of a destructor -/

namespace ListRef

variable {α : Type} (ref : ListRef α)

/-- A walk whose body leaves the walked list alone. `I` says what holds after
the entries `done`. -/
theorem forEach_run {body : α → Op Unit} {live : List (Nat × α)} {zs : List Entry}
    {I : List (Nat × α) → World → Prop}
    (hkeep : ∀ done w, I done w → ref.live w = true ∧ Rep (ref.get w) live zs)
    (hstep : ∀ done x rest w, live = done ++ x :: rest → I done w →
      ∃ w', body x.2 w = .returned () w' ∧ I (done ++ [x]) w')
    {done rest : List (Nat × α)} {fuel : Nat} {w : World} (hl : live = done ++ rest)
    (hI : I done w) (hf : rest.length ≤ fuel) :
    ∃ w', ref.forEach body fuel (rest.head?.map Prod.fst) w = .returned () w' ∧ I live w' := by
  induction rest generalizing done fuel w with
  | nil =>
    refine ⟨w, by cases fuel <;> rfl, ?_⟩
    rw [hl, List.append_nil]
    exact hI
  | cons x xs ih =>
    cases fuel with
    | zero => simp at hf
    | succ fuel =>
      obtain ⟨hlive, hrep⟩ := hkeep done w hI
      obtain ⟨w1, hbody, hI1⟩ := hstep done x xs w hl hI
      obtain ⟨hlive1, hrep1⟩ := hkeep _ w1 hI1
      obtain ⟨w', hrun, hI'⟩ := ih (by simpa using hl) hI1
        (by simpa using hf)
      refine ⟨w', ?_, hI'⟩
      simp only [List.head?_cons, Option.map_some, forEach]
      rw [bind_returned (ref.deref_run hlive (hrep.nodes.cell hl)), bind_returned hbody,
        bind_returned (ref.deref_run hlive1 (hrep1.nodes.cell hl))]
      exact hrun

/-- A handle around a walk that leaves the walked list alone. -/
theorem walk_run (body : α → Op Unit) {w : World} {live : List (Nat × α)} {cs : List Cursor}
    {I : List (Nat × α) → World → Prop} (hlive : ref.live w = true) (ha : w.allocs = none)
    (hg : Guarded (ref.get w) cs) (hlist : (ref.get w).toList = live)
    (hkeep : ∀ done w', I done w' → ref.live w' = true ∧ ref.get w' = (ref.get w).rcuReadLock.2)
    (hI : I [] (ref.set w (ref.get w).rcuReadLock.2))
    (hstep : ∀ done x rest w, live = done ++ x :: rest → I done w →
      ∃ w', body x.2 w = .returned () w' ∧ I (done ++ [x]) w') :
    ∃ w' l, ref.withHandle (do
        let fuel ← ref.bound
        let first ← ref.begin
        ref.forEach body fuel first) w = .returned () (ref.set w' l) ∧
      I live w' ∧ (ref.get w).rcuReadLock.2.unlock (ref.get w).rcuReadLock.1 = .ok l := by
  subst hlist
  obtain ⟨zs, hr, _, _⟩ := id hg
  have hr1 : Rep (ref.get w).rcuReadLock.2 (ref.get w).toList ((ref.get w).guardEntry :: zs) :=
    hr.lock
  obtain ⟨w', hrun, hI'⟩ := ref.forEach_run
    (fun done w' h => ⟨(hkeep done w' h).1, by rw [(hkeep done w' h).2]; exact hr1⟩)
    hstep
    rfl hI hr1.nodes.length_le
  obtain ⟨l, hun, _⟩ := hg.handle (.refl _)
  refine ⟨w', l, ?_, hI', hun⟩
  have hlive1 : ref.live (ref.set (w.spend 1) (ref.get w).rcuReadLock.2) = true := by
    rw [ref.live_set, ref.live_spend, hlive]
  refine ref.withHandle_run _ hlive (World.enough_none ha 1) ?_
    (by rw [(hkeep _ w' hI').2]; exact hun)
  rw [bind_returned (ref.bound_run hlive1), bind_returned (ref.begin_run hlive1), ref.get_set,
    hr1.nodes.head_eq, World.spend_none ha]
  exact hrun

/-- The erase loop of a destructor, in its handle. -/
theorem eraseAll_handle {p : α → Bool} {w : World} {cs : List Cursor} (hlive : ref.live w = true)
    (ha : w.allocs = none) (hg : Guarded (ref.get w) cs) :
    ∃ l, ref.withHandle (do
        let fuel ← ref.bound
        let iter ← ref.begin
        ref.eraseAll p fuel iter) w = .returned () (ref.set w l) ∧
      ListStep (ref.get w) l ∧ l.toList = (ref.get w).toList.filter fun x => !p x.2 := by
  obtain ⟨zs, hr, _, _⟩ := id hg
  have hr1 : Rep (ref.get w).rcuReadLock.2 ([] ++ (ref.get w).toList)
      ((ref.get w).guardEntry :: zs) := hr.lock
  have hlive1 : ref.live (ref.set w (ref.get w).rcuReadLock.2) = true := by
    rw [ref.live_set, hlive]
  obtain ⟨l2, hrun, hE⟩ := ref.eraseAll_run (w := ref.set w (ref.get w).rcuReadLock.2) (p := p)
    hlive1
    (by rw [ref.allocs_set, ha]) (by rw [ref.get_set]; exact hr1) hr1.nodes.length_le
  rw [ref.get_set] at hE
  rw [ref.set_set] at hrun
  obtain ⟨l, hun, hl, hstep⟩ := hg.eraseStep hE
  refine ⟨l, ?_, hstep, hl⟩
  have := ref.withHandle_run (do
      let fuel ← ref.bound
      let iter ← ref.begin
      ref.eraseAll p fuel iter : Op Unit) (b := ()) (l := l) hlive
    (World.enough_none ha 1) (by
      rw [World.spend_none ha, bind_returned (ref.bound_run hlive1),
        bind_returned (ref.begin_run hlive1), ref.get_set, hr.lock.nodes.head_eq]
      exact hrun) (by rw [ref.get_set]; exact hun)
  rwa [ref.set_set] at this

end ListRef

/-! ## `~SlotBase` -/

/-- The state of a connection list during `~SlotBase` of `r`: as before, or
without the connections to `r`. -/
def Cleared (r : ReceiverId) (l l' : RcuList ConnectStruct) : Prop :=
  ListStep l l' ∧ l'.toList = l.toList.filter fun x => !(x.2.receiver == r)

theorem Cleared.again {r : ReceiverId} {l l' l'' : RcuList ConnectStruct} (h : Cleared r l l')
    (h' : Cleared r l' l'') : Cleared r l l'' := by
  have hl : l''.toList = l'.toList := by rw [h'.2, h.2, List.filter_filter]; simp
  exact ⟨h.1.trans h'.1 hl, hl.trans h.2⟩

/-- What `~SlotBase` does. -/
structure ReceiverGone (r : ReceiverId) (w w' : World) : Prop where
  receiver : w'.receiver = Function.update w.receiver r false
  sender : w'.sender = w.sender
  senderCount : w'.senderCount = w.senderCount
  receiverCount : w'.receiverCount = w.receiverCount
  beingDestroyed : w'.beingDestroyed = w.beingDestroyed
  destroyedLocked : w'.destroyedLocked = w.destroyedLocked
  allocs : w'.allocs = w.allocs
  cleared : ∀ s, (w.sender s).isSome = true → Cleared r (w.connectList s) (w'.connectList s)
  dead : ∀ s, (w.sender s).isSome = false → w'.connectList s = w.connectList s
  slots : ∀ r', r' ≠ r → w'.possibleSenders r' = w.possibleSenders r'

/-- The state of the walk of `~SlotBase` after the entries `done`. -/
structure ClearWalk (r : ReceiverId) (w : World) (done : List (Nat × SenderId)) (w' : World) :
    Prop where
  objects : SameObjects w w'
  allocs : w'.allocs = w.allocs
  slots : w'.possibleSenders =
    Function.update w.possibleSenders r (w.possibleSenders r).rcuReadLock.2
  cleared : ∀ s ∈ done.map Prod.snd, Cleared r (w.connectList s) (w'.connectList s)
  others : ∀ s, s ∉ done.map Prod.snd → w'.connectList s = w.connectList s

theorem ClearWalk.step {w : World} {cursors : SenderId → List Cursor} {r : ReceiverId}
    {done : List (Nat × SenderId)} {x : Nat × SenderId} {w1 : World} (hw : w.Sound cursors)
    (ha : w.allocs = none) (hx : (w.sender x.2).isSome = true) (h : ClearWalk r w done w1) :
    ∃ w2, (connectListOf x.2).withHandle (do
        let fuel ← (connectListOf x.2).bound
        let iter ← (connectListOf x.2).begin
        (connectListOf x.2).eraseAll (·.receiver == r) fuel iter) w1 = .returned () w2 ∧
      ClearWalk r w (done ++ [x]) w2 := by
  let S := connectListOf x.2
  have hguard : Guarded (S.get w1) (cursors x.2) := by
    show Guarded (w1.connectList x.2) _
    by_cases hm : x.2 ∈ done.map Prod.snd
    · exact (h.cleared _ hm).1.guarded _ (hw.lists _ hx)
    · rw [h.others _ hm]
      exact hw.lists _ hx
  have hlive : S.live w1 = true := by
    show (w1.sender x.2).isSome = true
    rw [h.objects.sender]
    exact hx
  obtain ⟨l, hrun, hstep, hl⟩ := S.eraseAll_handle (p := (·.receiver == r)) hlive
    (h.allocs.trans ha) hguard
  have hnew : Cleared r (w1.connectList x.2) l := ⟨hstep, hl⟩
  have hget : (S.set w1 l).connectList x.2 = l := S.get_set _ _
  have hne : ∀ s, s ≠ x.2 → (S.set w1 l).connectList s = w1.connectList s := fun s hs =>
    Function.update_of_ne hs _ _
  refine ⟨S.set w1 l, hrun, ⟨?_, h.allocs, h.slots, fun s hs => ?_, fun s hs => ?_⟩⟩
  · exact h.objects.trans ⟨rfl, rfl, rfl, rfl, rfl, rfl⟩
  · simp only [List.map_append, List.map_cons, List.map_nil, List.mem_append,
      List.mem_singleton] at hs
    by_cases hss : s = x.2
    · subst hss
      rw [hget]
      by_cases hm : x.2 ∈ done.map Prod.snd
      · exact (h.cleared _ hm).again hnew
      · rwa [h.others _ hm] at hnew
    · rw [hne s hss]
      exact h.cleared s (hs.resolve_right hss)
  · simp only [List.map_append, List.map_cons, List.map_nil, List.mem_append, List.mem_singleton,
      not_or] at hs
    rw [hne s hs.2]
    exact h.others s hs.1

/-- `~rcu_list` of a member list, right after a handle on it was closed: what
stays is the stack from the newest active guard on. -/
theorem destroyList_run {α : Type} {ref : ListRef α} {w : World} {l0 : RcuList α}
    {cs : List Cursor} (hlive : ref.live w = true) (hg : Guarded l0 cs)
    (hun : l0.rcuReadLock.2.unlock l0.rcuReadLock.1 = .ok (ref.get w)) :
    ∃ l, destroyList ref w = .returned () (ref.set w l) ∧
      ∀ zs, Rep l0 l0.toList zs → Suffix l (zs.dropWhile fun e => !e.owner) ∧
        ∀ n ∈ dead (zs.dropWhile fun e => !e.owner), l.node n = l0.node n := by
  have hafter : ∀ zs, Rep l0 l0.toList zs →
      Rep (ref.get w) l0.toList (unlockedEntries l0.guardEntry zs) ∧
        (zs.any (·.owner) = true → (ref.get w).node = l0.node) := by
    intro zs hr
    obtain ⟨l', hun', hr', _, hnode⟩ := Rep.unlock (show Rep _ _ ([] ++ _ :: _) from hr.lock) rfl
    rw [show l0.rcuReadLock.1 = l0.guardEntry.id from rfl, hun', Except.ok.injEq] at hun
    subst hun
    exact ⟨hr', fun ho => by rw [hnode]; simp [ho, rcuReadLock, pushZombie]⟩
  obtain ⟨zs, hr, _, _⟩ := hg
  obtain ⟨l, hrun, _⟩ := (hafter zs hr).1.toStacked.destroy
  refine ⟨l, ref.call_run hlive (by simp only [hrun, ok_bind]), fun zs' hr' => ?_⟩
  obtain ⟨hrep, hsame⟩ := hafter zs' hr'
  obtain ⟨l2, hrun2, hsuf, hnode⟩ := hrep.toStacked.destroy
  rw [hrun, Except.ok.injEq] at hrun2
  subst hrun2
  by_cases ho : zs'.any (·.owner) = true
  · have hdrop : (unlockedEntries l0.guardEntry zs').dropWhile (fun e => !e.owner) =
        zs'.dropWhile fun e => !e.owner := by simp [unlockedEntries, ho]
    rw [hdrop] at hsuf
    refine ⟨hsuf, fun n hn => ?_⟩
    rw [hnode, ← hsame ho]
    have hsplit : dead zs' = dead (zs'.takeWhile fun e => !e.owner) ++
        dead (zs'.dropWhile fun e => !e.owner) := by
      rw [dead, dead, dead, ← List.filterMap_append, List.takeWhile_append_dropWhile]
    have hnd : n ∈ dead zs' := by rw [hsplit]; exact List.mem_append_right _ hn
    have honce := hr'.once
    rw [hsplit, List.nodup_append] at honce
    refine if_neg (not_or.mpr ⟨?_, fun ht => ?_⟩)
    · exact hr'.apart n hnd
    · have htake : (unlockedEntries l0.guardEntry zs').takeWhile (fun e => !e.owner) =
          { l0.guardEntry with owner := false } :: zs'.takeWhile fun e => !e.owner := by
        simp [unlockedEntries, ho]
      rw [htake] at ht
      exact honce.2.2 n (by simpa [dead] using ht) n hn rfl
  · have hno : zs'.dropWhile (fun e => !e.owner) = [] := by
      rw [List.dropWhile_eq_nil_iff]
      intro e he
      simp only [Bool.not_eq_true'] at *
      by_contra hc
      exact ho (List.any_eq_true.mpr ⟨e, he, by simpa using hc⟩)
    rw [hno]
    exact ⟨⟨rfl, .nil, by simp, by simp, by simp [dead], by simp [dead]⟩, by simp [dead]⟩

/-- `~SlotBase` of a live slot ends, and takes the slot out of every list. -/
theorem destroySlotBase_run {w : World} {cursors : SenderId → List Cursor} {r : ReceiverId}
    (hw : w.Sound cursors) (hr : w.receiver r = true) (ha : w.allocs = none) :
    ∃ w', destroySlotBase r w = .returned () w' ∧ ReceiverGone r w w' := by
  let R := possibleSendersOf r
  have hlocked : R.set w (R.get w).rcuReadLock.2 = { w with
      possibleSenders := Function.update w.possibleSenders r (w.possibleSenders r).rcuReadLock.2 } :=
    rfl
  obtain ⟨w1, l, hrun, hI, hun⟩ := R.walk_run (I := ClearWalk r w)
    (fun sender => (connectListOf sender).withHandle do
      let fuel ← (connectListOf sender).bound
      let iter ← (connectListOf sender).begin
      (connectListOf sender).eraseAll (·.receiver == r) fuel iter) hr ha (hw.slots r hr) rfl
    (fun done w' h => ⟨by show w'.receiver r = true; rw [h.objects.receiver]; exact hr, by
      show w'.possibleSenders r = _
      rw [h.slots, Function.update_self]
      rfl⟩)
    (by rw [hlocked]; exact ⟨⟨rfl, rfl, rfl, rfl, rfl, rfl⟩, rfl, rfl, by simp, fun _ _ => rfl⟩)
    (fun done x rest w1 hlist h => ClearWalk.step hw ha (hw.booked.senders r hr _ (by
      show x.2 ∈ ((w.possibleSenders r).toList).map Prod.snd
      exact List.mem_map_of_mem (by show x ∈ (R.get w).toList; rw [hlist]; simp))) h)
  have hlive2 : R.live (R.set w1 l) = true := by
    rw [R.live_set]
    show w1.receiver r = true
    rw [hI.objects.receiver]
    exact hr
  obtain ⟨l2, hdel, _⟩ := destroyList_run hlive2 (hw.slots r hr) (by rw [R.get_set]; exact hun)
  refine ⟨{ R.set (R.set w1 l) l2 with
    receiver := Function.update (R.set (R.set w1 l) l2).receiver r false }, ?_, ?_⟩
  · unfold destroySlotBase
    rw [bind_returned (nothrow_returned hrun), bind_returned hdel]
    rfl
  · refine ⟨?_, hI.objects.sender, hI.objects.senderCount, hI.objects.receiverCount,
      hI.objects.beingDestroyed, hI.objects.destroyedLocked, hI.allocs, fun s hs => ?_,
      fun s hs => ?_, fun r' hr' => ?_⟩
    · show Function.update w1.receiver r false = _
      rw [hI.objects.receiver]
    · show Cleared r (w.connectList s) (w1.connectList s)
      by_cases hm : s ∈ (R.get w).toList.map Prod.snd
      · exact hI.cleared s hm
      · rw [hI.others s hm]
        refine ⟨.refl _, ?_⟩
        -- a sender that the slot does not know has no connection to it
        have h0 : (w.conns s).countP (fun c => c.receiver == r) = 0 := by
          rw [hw.booked.counts s r hs hr]
          exact List.count_eq_zero.mpr hm
        symm
        refine List.filter_eq_self.mpr fun x hx => ?_
        have := List.countP_eq_zero.mp h0 x.2 (List.mem_map_of_mem hx)
        simpa using this
    · refine hI.others s fun hm => ?_
      have := hw.booked.senders r hr s hm
      rw [hs] at this
      cases this
    · show Function.update (Function.update w1.possibleSenders r l) r l2 r' = _
      rw [Function.update_of_ne hr', Function.update_of_ne hr', hI.slots, Function.update_of_ne hr']

theorem ReceiverGone.conns {r : ReceiverId} {w w' : World} (h : ReceiverGone r w w')
    {s : SenderId} (hs : (w.sender s).isSome = true) :
    w'.conns s = (w.conns s).filter fun c => !(c.receiver == r) := by
  rw [World.conns, NodeList.values, (h.cleared s hs).2, World.conns, NodeList.values,
    List.filter_map]
  rfl

theorem ReceiverGone.listsStep {r : ReceiverId} {w w' : World} (h : ReceiverGone r w w') :
    ListsStep w w' := fun s hs _ => (h.cleared s hs).1

theorem ReceiverGone.sound {w w' : World} {cursors : SenderId → List Cursor} {r : ReceiverId}
    (h : ReceiverGone r w w') (hw : w.Sound cursors) : w'.Sound cursors := by
  have hlive : ∀ r', w'.receiver r' = true ↔ r' ≠ r ∧ w.receiver r' = true := by
    intro r'
    rw [h.receiver]
    by_cases hrr : r' = r
    · simp [hrr]
    · simp [hrr]
  have hposs : ∀ r', r' ≠ r → w'.possible r' = w.possible r' := fun r' hrr => by
    rw [World.possible, h.slots r' hrr]
    rfl
  refine ⟨fun s hs => ?_, fun r' hr' => ?_, ⟨fun s r' hs hr' => ?_, fun s hs c hc => ?_,
    fun r' hr' s hs => ?_⟩, fun s hs => ?_, fun r' hr' => ?_⟩
  · exact (h.listsStep s (h.sender ▸ hs) hs).guarded _ (hw.lists s (h.sender ▸ hs))
  · obtain ⟨hrr, hr0⟩ := (hlive r').mp hr'
    rw [h.slots r' hrr]
    exact hw.slots r' hr0
  · obtain ⟨hrr, hr0⟩ := (hlive r').mp hr'
    have hs0 := h.sender ▸ hs
    rw [h.conns hs0, hposs r' hrr, ← hw.booked.counts s r' hs0 hr0, List.countP_filter]
    refine List.countP_congr fun c _ => ?_
    simp only [Bool.and_eq_true, beq_iff_eq, Bool.not_eq_true', beq_eq_false_iff_ne]
    exact ⟨fun hc => hc.1, fun hc => ⟨hc, fun he => hrr (hc.symm.trans he)⟩⟩
  · have hs0 := h.sender ▸ hs
    rw [h.conns hs0, List.mem_filter] at hc
    exact (hlive _).mpr ⟨by simpa using hc.2, hw.booked.receivers s hs0 c hc.1⟩
  · obtain ⟨hrr, hr0⟩ := (hlive r').mp hr'
    rw [hposs r' hrr] at hs
    rw [h.sender]
    exact hw.booked.senders r' hr0 s hs
  · rw [h.senderCount]
    exact hw.senderBound s (h.sender ▸ hs)
  · rw [h.receiverCount]
    exact hw.receiverBound r' ((hlive r').mp hr').2

/-! ## `~SignalBase` -/

/-- The possible senders of a slot, without `s`. -/
def Forgotten (s : SenderId) (l l' : RcuList SenderId) : Prop :=
  Guarded l' [] ∧ l'.values = l.values.filter fun s' => !(s' == s)

/-- What `~SignalBase` does. -/
structure SenderGone (s : SenderId) (o : SignalBase) (w w' : World) : Prop where
  sender : w'.sender = Function.update w.sender s none
  receiver : w'.receiver = w.receiver
  senderCount : w'.senderCount = w.senderCount
  receiverCount : w'.receiverCount = w.receiverCount
  beingDestroyed : w'.beingDestroyed =
    if o.activateBusy > 0 then insert o.addr w.beingDestroyed else w.beingDestroyed
  destroyedLocked : w'.destroyedLocked = w.destroyedLocked
  allocs : w'.allocs = w.allocs
  others : ∀ s', s' ≠ s → w'.connectList s' = w.connectList s'
  slots : ∀ r, w.receiver r = true → Forgotten s (w.possibleSenders r) (w'.possibleSenders r)
  /-- What the newest active guard still needs stays as it is. -/
  own : ∀ zs, Rep (w.connectList s) (w.connectList s).toList zs →
    Suffix (w'.connectList s) (zs.dropWhile fun e => !e.owner) ∧
      ∀ n ∈ dead (zs.dropWhile fun e => !e.owner),
        (w'.connectList s).node n = (w.connectList s).node n

/-- The state of the walk of `~SignalBase` after the entries `done`. -/
structure ForgetWalk (s : SenderId) (w : World) (done : List (Nat × ConnectStruct)) (w' : World) :
    Prop where
  objects : SameObjects w w'
  allocs : w'.allocs = w.allocs
  lists : w'.connectList = Function.update w.connectList s (w.connectList s).rcuReadLock.2
  forgotten : ∀ r ∈ done.map (·.2.receiver), Forgotten s (w.possibleSenders r) (w'.possibleSenders r)
  others : ∀ r, r ∉ done.map (·.2.receiver) → w'.possibleSenders r = w.possibleSenders r

theorem ForgetWalk.step {w : World} {s : SenderId} {done : List (Nat × ConnectStruct)}
    {x : Nat × ConnectStruct} {w1 : World} (hw : w.SlotsSound) (ha : w.allocs = none)
    (hx : w.receiver x.2.receiver = true) (h : ForgetWalk s w done w1) :
    ∃ w2, (possibleSendersOf x.2.receiver).withHandle (do
        let fuel ← (possibleSendersOf x.2.receiver).bound
        let iter ← (possibleSendersOf x.2.receiver).begin
        (possibleSendersOf x.2.receiver).eraseAll (· == s) fuel iter) w1 = .returned () w2 ∧
      ForgetWalk s w (done ++ [x]) w2 := by
  let r := x.2.receiver
  let R := possibleSendersOf r
  have hguard : Guarded (R.get w1) [] := by
    show Guarded (w1.possibleSenders r) _
    by_cases hm : r ∈ done.map (·.2.receiver)
    · exact (h.forgotten _ hm).1
    · rw [h.others _ hm]
      exact hw r hx
  have hlive : R.live w1 = true := by
    show w1.receiver r = true
    rw [h.objects.receiver]
    exact hx
  obtain ⟨l, hrun, hstep, hl⟩ := R.eraseAll_handle (p := (· == s)) hlive (h.allocs.trans ha) hguard
  have hvals : l.values = (w1.possibleSenders r).values.filter fun s' => !(s' == s) := by
    rw [NodeList.values, hl, NodeList.values, List.filter_map]
    rfl
  have hget : (R.set w1 l).possibleSenders r = l := R.get_set _ _
  have hne : ∀ r', r' ≠ r → (R.set w1 l).possibleSenders r' = w1.possibleSenders r' :=
    fun r' hr => Function.update_of_ne hr _ _
  refine ⟨R.set w1 l, hrun, ⟨?_, h.allocs, h.lists, fun r' hr' => ?_, fun r' hr' => ?_⟩⟩
  · exact h.objects.trans ⟨rfl, rfl, rfl, rfl, rfl, rfl⟩
  · simp only [List.map_append, List.map_cons, List.map_nil, List.mem_append,
      List.mem_singleton] at hr'
    by_cases hrr : r' = r
    · subst hrr
      rw [hget]
      refine ⟨hstep.guarded _ hguard, ?_⟩
      by_cases hm : r ∈ done.map (·.2.receiver)
      · rw [hvals, (h.forgotten _ hm).2, List.filter_filter]
        simp
      · rw [hvals, h.others _ hm]
    · rw [hne r' hrr]
      exact h.forgotten r' (hr'.resolve_right hrr)
  · simp only [List.map_append, List.map_cons, List.map_nil, List.mem_append, List.mem_singleton,
      not_or] at hr'
    rw [hne r' hr'.2]
    exact h.others r' hr'.1

/-- The world when `~SignalBase` has told the running activations. -/
def World.marked (w : World) (o : SignalBase) : World :=
  { w with beingDestroyed :=
      if o.activateBusy > 0 then insert o.addr w.beingDestroyed else w.beingDestroyed }

theorem markDestroyed_run {w : World} {s : SenderId} {o : SignalBase} (ho : w.sender s = some o)
    (hl : o.activateBusy > 0 → w.destroyedLocked = false) :
    markDestroyed s w = .returned () (w.marked o) := by
  simp only [markDestroyed, ho, World.marked]
  by_cases hb : o.activateBusy > 0
  · rw [if_pos hb, if_pos hb, hl hb]
    rfl
  · rw [if_neg hb, if_neg hb]

/-- `~SignalBase` of a live signal ends, unless its thread holds the mutex that
it needs, and takes the signal out of every list. -/
theorem destroySignalBase_run {w : World} {cursors : SenderId → List Cursor} {s : SenderId}
    {o : SignalBase} (hw : w.Sound cursors) (ho : w.sender s = some o) (ha : w.allocs = none)
    (hl : o.activateBusy > 0 → w.destroyedLocked = false) :
    ∃ w', destroySignalBase s w = .returned () w' ∧ SenderGone s o w w' := by
  let S := connectListOf s
  have hs : (w.sender s).isSome = true := by rw [ho]; rfl
  have hmark := markDestroyed_run ho hl
  obtain ⟨w1, l, hrun, hI, hun⟩ := S.walk_run (w := w.marked o)
    (I := ForgetWalk s (w.marked o))
    (fun item => (possibleSendersOf item.receiver).withHandle do
      let fuel ← (possibleSendersOf item.receiver).bound
      let iter ← (possibleSendersOf item.receiver).begin
      (possibleSendersOf item.receiver).eraseAll (· == s) fuel iter) hs ha (hw.lists s hs)
    (show _ = (w.connectList s).toList from rfl)
    (fun done w' h => ⟨by show (w'.sender s).isSome = true; rw [h.objects.sender]; exact hs, by
      show w'.connectList s = _
      rw [h.lists, Function.update_self]
      rfl⟩)
    ⟨⟨rfl, rfl, rfl, rfl, rfl, rfl⟩, rfl, rfl, by simp, fun _ _ => rfl⟩
    (fun done x rest w1 hlist h => ForgetWalk.step hw.slots ha (hw.booked.receivers s hs _ (by
      show x.2 ∈ ((w.connectList s).toList).map Prod.snd
      exact List.mem_map_of_mem (by rw [hlist]; simp))) h)
  have hlive2 : S.live (S.set w1 l) = true := by
    rw [S.live_set]
    show (w1.sender s).isSome = true
    rw [hI.objects.sender]
    exact hs
  obtain ⟨l2, hdel, hown⟩ := destroyList_run hlive2 (hw.lists s hs) (by rw [S.get_set]; exact hun)
  have hbody : (do
      markDestroyed s
      S.withHandle do
        let fuel ← S.bound
        let first ← S.begin
        S.forEach (fun item => (possibleSendersOf item.receiver).withHandle do
          let fuel ← (possibleSendersOf item.receiver).bound
          let iter ← (possibleSendersOf item.receiver).begin
          (possibleSendersOf item.receiver).eraseAll (· == s) fuel iter) fuel first : Op Unit) w =
        .returned () (S.set w1 l) := by
    rw [bind_returned hmark]
    exact hrun
  refine ⟨{ S.set (S.set w1 l) l2 with
    sender := Function.update (S.set (S.set w1 l) l2).sender s none }, ?_, ?_⟩
  · unfold destroySignalBase
    rw [bind_returned (nothrow_returned hbody), bind_returned hdel]
    rfl
  · refine ⟨?_, hI.objects.receiver, hI.objects.senderCount, hI.objects.receiverCount,
      hI.objects.beingDestroyed, hI.objects.destroyedLocked, hI.allocs, fun s' hs' => ?_,
      fun r hr => ?_, fun zs hz => ?_⟩
    · show Function.update w1.sender s none = _
      rw [hI.objects.sender]
      rfl
    · show Function.update (Function.update w1.connectList s l) s l2 s' = _
      rw [Function.update_of_ne hs', Function.update_of_ne hs', hI.lists, Function.update_of_ne hs']
      rfl
    · show Forgotten s (w.possibleSenders r) (w1.possibleSenders r)
      by_cases hm : r ∈ (w.connectList s).toList.map (·.2.receiver)
      · exact hI.forgotten r hm
      · rw [hI.others r hm]
        refine ⟨hw.slots r hr, ?_⟩
        -- a slot that the signal has no connection to does not know it
        have h0 : (w.possible r).count s = 0 := by
          rw [← hw.booked.counts s r hs hr, List.countP_eq_zero]
          intro c hc hcr
          obtain ⟨x, hx, rfl⟩ := List.mem_map.mp hc
          exact hm (List.mem_map.mpr ⟨x, hx, by simpa using hcr⟩)
        symm
        refine List.filter_eq_self.mpr fun s' hs' => ?_
        have hne : s' ≠ s := fun he => List.count_eq_zero.mp h0 (he ▸ hs')
        simpa using hne
    · show Suffix (Function.update (Function.update w1.connectList s l) s l2 s) _ ∧ _
      have := hown zs hz
      simpa [S, connectListOf] using this

theorem SenderGone.sound {w w' : World} {cursors : SenderId → List Cursor} {s : SenderId}
    {o : SignalBase} (h : SenderGone s o w w') (hw : w.Sound cursors) : w'.Sound cursors := by
  have hlive : ∀ s', (w'.sender s').isSome = true ↔ s' ≠ s ∧ (w.sender s').isSome = true := by
    intro s'
    rw [h.sender]
    by_cases hss : s' = s
    · simp [hss]
    · simp [hss]
  have hconns : ∀ s', s' ≠ s → w'.conns s' = w.conns s' := fun s' hss => by
    rw [World.conns, h.others s' hss]
    rfl
  have hposs : ∀ r, w.receiver r = true →
      w'.possible r = (w.possible r).filter fun s' => !(s' == s) := fun r hr => (h.slots r hr).2
  refine ⟨fun s' hs' => ?_, fun r hr => ?_, ⟨fun s' r hs' hr => ?_, fun s' hs' c hc => ?_,
    fun r hr s' hs' => ?_⟩, fun s' hs' => ?_, fun r hr => ?_⟩
  · obtain ⟨hss, hs0⟩ := (hlive s').mp hs'
    rw [h.others s' hss]
    exact hw.lists s' hs0
  · exact (h.slots r (h.receiver ▸ hr)).1
  · obtain ⟨hss, hs0⟩ := (hlive s').mp hs'
    have hr0 := h.receiver ▸ hr
    rw [hconns s' hss, hposs r hr0, hw.booked.counts s' r hs0 hr0, List.count_filter (by simpa using hss)]
  · obtain ⟨hss, hs0⟩ := (hlive s').mp hs'
    rw [hconns s' hss] at hc
    rw [h.receiver]
    exact hw.booked.receivers s' hs0 c hc
  · have hr0 := h.receiver ▸ hr
    rw [hposs r hr0, List.mem_filter] at hs'
    exact (hlive s').mpr ⟨by simpa using hs'.2, hw.booked.senders r hr0 s' hs'.1⟩
  · rw [h.senderCount]
    exact hw.senderBound s' ((hlive s').mp hs').2
  · rw [h.receiverCount]
    exact hw.receiverBound r (h.receiver ▸ hr)

theorem SenderGone.listsStep {s : SenderId} {o : SignalBase} {w w' : World}
    (h : SenderGone s o w w') : ListsStep w w' := by
  intro s' _ hs'
  have hss : s' ≠ s := by
    rintro rfl
    rw [h.sender, Function.update_self] at hs'
    cases hs'
  rw [h.others s' hss]
  exact .refl _

end CsSignal
