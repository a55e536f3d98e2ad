-- What one call of the library does to the world, for every call but `activate`:
-- the memory of the lists stays sound under any iterators that stand in them.
import CsSignal.Activate

namespace CsSignal

open LinkedCells Calls RcuList

/-! ## The memory of all signals -/

/-- The memory of the lists, those of destroyed signals included: their guards
are still on the stack until they unlock. -/
structure World.Memory (w : World) (cursors : SenderId → List Cursor) : Prop
    extends w.Sound cursors where
  gone : ∀ s, w.sender s = none →
    ∃ es, Suffix (w.connectList s) es ∧ owned es = (cursors s).map Cursor.guard

theorem suffix_nil {α : Type} (l : RcuList α) : Suffix l [] :=
  ⟨rfl, .nil, by simp, by simp, by simp [dead], by simp [dead]⟩

/-- Two worlds that differ in the fields of live signals and in the mark set only. -/
structure SameLists (w w' : World) : Prop where
  connectList : w'.connectList = w.connectList
  possibleSenders : w'.possibleSenders = w.possibleSenders
  receiver : w'.receiver = w.receiver
  senderCount : w'.senderCount = w.senderCount
  receiverCount : w'.receiverCount = w.receiverCount
  sender : ∀ s, (w'.sender s).isSome = (w.sender s).isSome

theorem SameLists.conns {w w' : World} (h : SameLists w w') (s : SenderId) :
    w'.conns s = w.conns s := by
  rw [World.conns, h.connectList]
  rfl

theorem SameLists.memory {w w' : World} {cursors : SenderId → List Cursor} (h : SameLists w w')
    (hw : w.Memory cursors) : w'.Memory cursors := by
  have hposs : ∀ r, w'.possible r = w.possible r := fun r => by
    rw [World.possible, h.possibleSenders]
    rfl
  refine ⟨⟨fun s hs => ?_, fun r hr => ?_, ⟨fun s r hs hr => ?_, fun s hs c hc => ?_,
    fun r hr s hs => ?_⟩, fun s hs => ?_, fun r hr => ?_⟩, fun s hs => ?_⟩
  · rw [h.connectList]
    exact hw.lists s (h.sender s ▸ hs)
  · rw [h.possibleSenders]
    exact hw.slots r (h.receiver ▸ hr)
  · rw [h.conns, hposs]
    exact hw.booked.counts s r (h.sender s ▸ hs) (h.receiver ▸ hr)
  · rw [h.conns] at hc
    rw [h.receiver]
    exact hw.booked.receivers s (h.sender s ▸ hs) c hc
  · rw [hposs] at hs
    rw [h.sender]
    exact hw.booked.senders r (h.receiver ▸ hr) s hs
  · rw [h.senderCount]
    exact hw.senderBound s (h.sender s ▸ hs)
  · rw [h.receiverCount]
    exact hw.receiverBound r (h.receiver ▸ hr)
  · rw [h.connectList]
    refine hw.gone s ?_
    have := h.sender s
    rw [hs] at this
    exact Option.isNone_iff_eq_none.mp (by simpa using this.symm)

/-! ## The calls -/

/-- Every action but those of `activate`. -/
def Action.IsCall : Action → Prop
  | .activate _ _ => False
  | .ret _ => False
  | .throw => False
  | _ => True

/-- The connections of a signal that a call takes out of its list. -/
def Action.removes : Action → SenderId → ConnectStruct → Bool
  | .disconnect s sig r slot, s', c => s' == s && isMatch (some sig) (some r) (some slot) c
  | .internalDisconnect s sig r slot, s', c => s' == s && isMatch sig r slot c
  | .deleteReceiver r, _, c => c.receiver == r
  | _, _, _ => false

/-- The signal that an action destroys. -/
def Action.deletes : Action → Option SenderId
  | .deleteSender s => some s
  | _ => none

/-- The mark set after a call. -/
def Action.marks (a : Action) (w : World) : Finset Addr :=
  match a with
  | .deleteSender s =>
    match w.sender s with
    | some o => if o.activateBusy > 0 then insert o.addr w.beingDestroyed else w.beingDestroyed
    | none => w.beingDestroyed
  | _ => w.beingDestroyed

/-- What a call does to the world. -/
structure Did (a : Action) (w w' : World) : Prop where
  memory : ∀ cursors, w.Memory cursors → cursors w.senderCount = [] → w'.Memory cursors
  lists : ListsStep w w'
  kept : ∀ s x, (w.sender s).isSome = true → (w'.sender s).isSome = true →
    x ∈ (w.connectList s).toList → a.removes s x.2 = false → x ∈ (w'.connectList s).toList
  survive : ∀ s o, w.sender s = some o →
    w'.sender s = some o ∨ w'.sender s = none ∧ a = .deleteSender s
  deleted : ∀ s, a = .deleteSender s → w'.sender s = none
  ended : ∀ s o, a = .deleteSender s → w.sender s = some o →
    (o.activateBusy > 0 → w.destroyedLocked = false) ∧ SenderGone s o w w'
  gone : ∀ s, w.sender s = none →
    w'.sender s = none ∧ w'.connectList s = w.connectList s ∨
    s = w.senderCount ∧ ∃ addr, a = .newSender addr ∧ w'.sender s = some ⟨addr, 0⟩
  senderCount : w.senderCount ≤ w'.senderCount
  destroyedLocked : w'.destroyedLocked = w.destroyedLocked
  allocs : w'.allocs = none
  beingDestroyed : w'.beingDestroyed = a.marks w

/-- A call that keeps the signals and the slots, and every list of a dead signal. -/
theorem Did.of_same {a : Action} {w w' : World} (hm : a.marks w = w.beingDestroyed)
    (hnd : ∀ s, a ≠ .deleteSender s)
    (h : SameObjects w w') (hs : ∀ cursors, w.Sound cursors → w'.Sound cursors)
    (hl : ListsStep w w') (ha : w'.allocs = none)
    (hk : ∀ s x, (w.sender s).isSome = true →
      x ∈ (w.connectList s).toList → a.removes s x.2 = false → x ∈ (w'.connectList s).toList)
    (hd : ∀ s, w.sender s = none → w'.connectList s = w.connectList s) : Did a w w' where
  memory cursors hw _ := ⟨hs cursors hw.toSound, fun s hs' => by
    rw [h.sender] at hs'
    rw [hd s hs']
    exact hw.gone s hs'⟩
  lists := hl
  kept s x h1 _ hx hr := hk s x h1 hx hr
  survive s o ho := Or.inl (h.sender ▸ ho)
  deleted s he := absurd he (hnd s)
  ended s _ he := absurd he (hnd s)
  gone s hs' := Or.inl ⟨h.sender ▸ hs', hd s hs'⟩
  senderCount := h.senderCount ▸ Nat.le_refl _
  destroyedLocked := h.destroyedLocked
  allocs := ha
  beingDestroyed := h.beingDestroyed.trans hm.symm

theorem ne_of_dead {w : World} {s s' : SenderId} (hs : (w.sender s).isSome = true)
    (hs' : w.sender s' = none) : s' ≠ s := by
  rintro rfl
  rw [hs'] at hs
  cases hs

theorem did_connect {w : World} {cursors : SenderId → List Cursor} (hw : w.Sound cursors)
    (ha : w.allocs = none) {s : SenderId} {r : ReceiverId} (hs : (w.sender s).isSome = true)
    (hr : w.receiver r = true) (o : Overload) (sig slot : Bento) (type : ConnectionKind) (u : Bool) :
    ((∃ what, connect o s sig r slot type u w = .thrown (.invalidArgument what) w) ∨
      ∃ b w', connect o s sig r slot type u w = .returned b w' ∧
        Did (.connect o s sig r slot type u) w w') := by
  rcases connect_run hw hs hr ha o sig slot type u with h | ⟨added, w', hrun, hD, hadd⟩
  · exact Or.inl h
  · refine Or.inr ⟨_, w', hrun, .of_same rfl (by simp) hD.objects (fun cursors' hw' => ?_) hD.listsStep
      (hD.allocs ha) (fun s' x _ hx _ => ?_) fun s' hs' => hD.others s' (ne_of_dead hs hs')⟩
    · exact hD.objects.sound hw' hD.listsStep hD.slots (hD.booked hadd hs hr hw'.booked)
    · by_cases hss : s' = s
      · subst hss
        rw [hD.live]
        exact List.mem_append_left _ hx
      · rwa [hD.others s' hss]

theorem did_disconnect {w : World} {cursors : SenderId → List Cursor} (hw : w.Sound cursors)
    (ha : w.allocs = none) {s : SenderId} (hs : (w.sender s).isSome = true) {a : Action}
    (hm : a.marks w = w.beingDestroyed) (hnd : ∀ s, a ≠ .deleteSender s) (sig : Option Bento) (r : Option ReceiverId)
    (slot : Option Bento)
    (hrem : ∀ s' c, a.removes s' c = (s' == s && isMatch sig r slot c)) :
    ∃ w', internalDisconnect s sig r slot w =
        .returned ((w.conns s).any (isMatch sig r slot)) w' ∧ Did a w w' := by
  obtain ⟨w', hrun, hD, _⟩ := internalDisconnect_run hw hs ha sig r slot
  refine ⟨w', hrun, .of_same hm hnd hD.objects (fun cursors' hw' => ?_) hD.listsStep ?_
    (fun s' x _ hx hrx => ?_) fun s' hs' => hD.others s' (ne_of_dead hs hs')⟩
  · exact hD.objects.sound hw' hD.listsStep hD.slots (hD.booked hw'.booked)
  · rw [hD.allocs, World.spend_none ha, ha]
  · by_cases hss : s' = s
    · subst hss
      rw [hD.live, List.mem_filter]
      rw [hrem] at hrx
      exact ⟨hx, by simpa using hrx⟩
    · rwa [hD.others s' hss]

theorem did_deleteReceiver {w : World} {cursors : SenderId → List Cursor} (hw : w.Sound cursors)
    (ha : w.allocs = none) {r : ReceiverId} (hr : w.receiver r = true) :
    ∃ w', destroySlotBase r w = .returned () w' ∧ Did (.deleteReceiver r) w w' := by
  obtain ⟨w', hrun, hD⟩ := destroySlotBase_run hw hr ha
  refine ⟨w', hrun, ⟨fun cursors' hw' _ => ⟨hD.sound hw'.toSound, fun s hs => ?_⟩, hD.listsStep,
    fun s x hs _ hx hrx => ?_, fun s o ho => Or.inl (hD.sender ▸ ho), by simp, by simp,
    fun s hs => Or.inl ?_, Nat.le_of_eq hD.senderCount.symm, hD.destroyedLocked, hD.allocs.trans ha, hD.beingDestroyed⟩⟩
  · rw [hD.sender] at hs
    rw [hD.dead s (by rw [hs]; rfl)]
    exact hw'.gone s hs
  · rw [(hD.cleared s hs).2, List.mem_filter]
    exact ⟨hx, by simpa [Action.removes] using hrx⟩
  · exact ⟨hD.sender ▸ hs, hD.dead s (by rw [hs]; rfl)⟩

theorem did_deleteSender {w : World} {cursors : SenderId → List Cursor} (hw : w.Sound cursors)
    (ha : w.allocs = none) {s : SenderId} {o : SignalBase} (ho : w.sender s = some o)
    (hl : o.activateBusy > 0 → w.destroyedLocked = false) :
    ∃ w', destroySignalBase s w = .returned () w' ∧ Did (.deleteSender s) w w' ∧
      SenderGone s o w w' := by
  obtain ⟨w', hrun, hD⟩ := destroySignalBase_run hw ho ha hl
  have hdead : ∀ s', w'.sender s' = if s' = s then none else w.sender s' := fun s' => by
    rw [hD.sender, Function.update_apply]
  refine ⟨w', hrun, ⟨fun cursors' hw' _ => ⟨hD.sound hw'.toSound, fun s' hs' => ?_⟩, hD.listsStep,
    fun s' x _ hs' hx _ => ?_, fun s' o' ho' => ?_, fun s' he => ?_, fun s' o' he ho' => ?_,
    fun s' hs' => Or.inl ?_, Nat.le_of_eq hD.senderCount.symm, hD.destroyedLocked, hD.allocs.trans ha, ?_⟩, hD⟩
  · by_cases hss : s' = s
    · subst hss
      obtain ⟨zs, hr, hown, _⟩ := hw'.lists _ (by rw [ho]; rfl)
      refine ⟨_, (hD.own zs hr).1, ?_⟩
      rw [← hown, owned, owned]
      congr 1
      -- no guard stands above the first one
      conv_rhs => rw [← List.takeWhile_append_dropWhile (p := fun e : Entry => !e.owner) (l := zs)]
      rw [List.filter_append]
      have : (zs.takeWhile fun e => !e.owner).filter (·.owner) = [] := by
        rw [List.filter_eq_nil_iff]
        intro e he hown
        have := List.mem_takeWhile_imp he
        simp [hown] at this
      rw [this, List.nil_append]
    · rw [hdead, if_neg hss] at hs'
      rw [hD.others s' hss]
      exact hw'.gone s' hs'
  · have hss : s' ≠ s := by
      rintro rfl
      rw [hdead, if_pos rfl] at hs'
      cases hs'
    rwa [hD.others s' hss]
  · by_cases hss : s' = s
    · subst hss
      exact Or.inr ⟨by rw [hdead, if_pos rfl], rfl⟩
    · exact Or.inl (by rw [hdead, if_neg hss, ho'])
  · cases he
    rw [hdead, if_pos rfl]
  · cases he
    rw [ho, Option.some.injEq] at ho'
    subst ho'
    exact ⟨hl, hD⟩
  · have hss : s' ≠ s := ne_of_dead (w := w) (by rw [ho]; rfl) hs'
    exact ⟨by rw [hdead, if_neg hss, hs'], hD.others s' hss⟩
  · rw [hD.beingDestroyed, Action.marks, ho]

theorem did_newSender {w : World} {cursors : SenderId → List Cursor} (hw : w.Sound cursors)
    (ha : w.allocs = none) (addr : Addr) : Did (.newSender addr) w (w.newSender addr) := by
  have hnew : w.sender w.senderCount = none := by
    cases h : w.sender w.senderCount with
    | none => rfl
    | some o => exact absurd (hw.senderBound _ (by rw [h]; rfl)) (Nat.lt_irrefl _)
  have hsender : ∀ s, (w.newSender addr).sender s =
      if s = w.senderCount then some ⟨addr, 0⟩ else w.sender s := fun s => by
    simp only [World.newSender, Function.update_apply]
  have hlist : ∀ s, (w.newSender addr).connectList s =
      if s = w.senderCount then {} else w.connectList s := fun s => by
    simp only [World.newSender, Function.update_apply]
  have hconns : ∀ s, s ≠ w.senderCount → (w.newSender addr).conns s = w.conns s := fun s hs => by
    rw [World.conns, hlist, if_neg hs]
    rfl
  have hnil : (w.newSender addr).conns w.senderCount = [] := by
    rw [World.conns, hlist, if_pos rfl]
    rfl
  have hlive : ∀ s, ((w.newSender addr).sender s).isSome = true →
      s = w.senderCount ∨ s ≠ w.senderCount ∧ (w.sender s).isSome = true := fun s hs => by
    by_cases h : s = w.senderCount
    · exact Or.inl h
    · rw [hsender, if_neg h] at hs
      exact Or.inr ⟨h, hs⟩
  refine ⟨fun cursors' hw' hc => ⟨⟨fun s hs => ?_, hw'.slots, ⟨fun s r hs hr => ?_,
    fun s hs c hc' => ?_, fun r hr s hs => ?_⟩, fun s hs => ?_, hw'.receiverBound⟩, fun s hs => ?_⟩,
    fun s h1 h2 => ?_, fun s x h1 _ hx _ => ?_, fun s o ho => Or.inl ?_, by simp, by simp,
    fun s hs => ?_, Nat.le_succ _, rfl, ha, rfl⟩
  · rcases hlive s hs with rfl | ⟨hne, hs0⟩
    · rw [hlist, if_pos rfl, hc]
      exact guarded_empty
    · rw [hlist, if_neg hne]
      exact hw'.lists s hs0
  · rcases hlive s hs with rfl | ⟨hne, hs0⟩
    · rw [hnil]
      symm
      refine List.count_eq_zero.mpr fun hm => ?_
      have := hw'.booked.senders r hr _ hm
      rw [hnew] at this
      cases this
    · rw [hconns s hne]
      exact hw'.booked.counts s r hs0 hr
  · rcases hlive s hs with rfl | ⟨hne, hs0⟩
    · rw [hnil] at hc'
      cases hc'
    · rw [hconns s hne] at hc'
      exact hw'.booked.receivers s hs0 c hc'
  · have := hw'.booked.senders r hr s hs
    have hne : s ≠ w.senderCount := (ne_of_dead this hnew).symm
    rw [hsender, if_neg hne]
    exact this
  · rcases hlive s hs with rfl | ⟨_, hs0⟩
    · exact Nat.lt_succ_self _
    · exact Nat.lt_succ_of_lt (hw'.senderBound s hs0)
  · rw [hsender] at hs
    split at hs
    · cases hs
    · rename_i hne
      rw [hlist, if_neg hne]
      exact hw'.gone s hs
  · have hne : s ≠ w.senderCount := (ne_of_dead h1 hnew).symm
    rw [hlist, if_neg hne]
    exact .refl _
  · have hne : s ≠ w.senderCount := (ne_of_dead h1 hnew).symm
    rwa [hlist, if_neg hne]
  · have hne : s ≠ w.senderCount := (ne_of_dead (by rw [ho]; rfl) hnew).symm
    rw [hsender, if_neg hne, ho]
  · by_cases h : s = w.senderCount
    · exact Or.inr ⟨h, addr, rfl, by rw [hsender, if_pos h]⟩
    · exact Or.inl ⟨by rw [hsender, if_neg h, hs], by rw [hlist, if_neg h]⟩

theorem did_newReceiver {w : World} {cursors : SenderId → List Cursor} (hw : w.Sound cursors)
    (ha : w.allocs = none) : Did .newReceiver w w.newReceiver := by
  have hnew : w.receiver w.receiverCount = false := by
    cases h : w.receiver w.receiverCount with
    | false => rfl
    | true => exact absurd (hw.receiverBound _ h) (Nat.lt_irrefl _)
  have hreceiver : ∀ r, w.newReceiver.receiver r =
      if r = w.receiverCount then true else w.receiver r := fun r => by
    simp only [World.newReceiver, Function.update_apply]
  have hlist : ∀ r, w.newReceiver.possibleSenders r =
      if r = w.receiverCount then {} else w.possibleSenders r := fun r => by
    simp only [World.newReceiver, Function.update_apply]
  have hold : ∀ r, w.newReceiver.receiver r = true →
      r = w.receiverCount ∨ r ≠ w.receiverCount ∧ w.receiver r = true := fun r hr => by
    by_cases h : r = w.receiverCount
    · exact Or.inl h
    · rw [hreceiver, if_neg h] at hr
      exact Or.inr ⟨h, hr⟩
  have hposs : ∀ r, r ≠ w.receiverCount → w.newReceiver.possible r = w.possible r := fun r hr => by
    rw [World.possible, hlist, if_neg hr]
    rfl
  have hnil : w.newReceiver.possible w.receiverCount = [] := by
    rw [World.possible, hlist, if_pos rfl]
    rfl
  refine ⟨fun cursors' hw' _ => ⟨⟨hw'.lists, fun r hr => ?_, ⟨fun s r hs hr => ?_,
    fun s hs c hc => ?_, fun r hr s hs => ?_⟩, hw'.senderBound, fun r hr => ?_⟩, hw'.gone⟩,
    fun s _ _ => .refl _, fun s x _ _ hx _ => hx, fun s o ho => Or.inl ho, by simp, by simp,
    fun s hs => Or.inl ⟨hs, rfl⟩, Nat.le_refl _, rfl, ha, rfl⟩
  · rcases hold r hr with rfl | ⟨hne, hr0⟩
    · rw [hlist, if_pos rfl]
      exact guarded_empty
    · rw [hlist, if_neg hne]
      exact hw'.slots r hr0
  · rcases hold r hr with rfl | ⟨hne, hr0⟩
    · rw [hnil, List.count_nil, List.countP_eq_zero]
      intro c hc hcr
      have hdead := hw'.booked.receivers s hs c hc
      rw [show c.receiver = w.receiverCount by simpa using hcr, hnew] at hdead
      cases hdead
    · rw [hposs r hne]
      exact hw'.booked.counts s r hs hr0
  · rw [hreceiver]
    split
    · rfl
    · exact hw'.booked.receivers s hs c hc
  · rcases hold r hr with rfl | ⟨hne, hr0⟩
    · rw [hnil] at hs
      cases hs
    · rw [hposs r hne] at hs
      exact hw'.booked.senders r hr0 s hs
  · rcases hold r hr with rfl | ⟨_, hr0⟩
    · exact Nat.lt_succ_self _
    · exact Nat.lt_succ_of_lt (hw'.receiverBound r hr0)

theorem did_senderList {w : World} {cursors : SenderId → List Cursor} (hw : w.Sound cursors)
    (ha : w.allocs = none) {r : ReceiverId} (hr : w.receiver r = true) :
    ∃ w', internalSenderList r w = .returned (w.possible r).toFinset w' ∧
      Did (.senderList r) w w' := by
  obtain ⟨l, hrun, hstep, hl⟩ := internalSenderList_run hw hr ha
  exact ⟨_, hrun, .of_same rfl (by simp) ⟨rfl, rfl, rfl, rfl, rfl, rfl⟩
    (fun cursors' hw' => (hw'.askReceiver hstep hl).1) (hw.askReceiver hstep hl).2 ha
    (fun _ _ _ hx _ => hx) fun _ _ => rfl⟩

theorem did_receiverList {w : World} {cursors : SenderId → List Cursor} (hw : w.Sound cursors)
    (ha : w.allocs = none) {s : SenderId} (hs : (w.sender s).isSome = true) (sig : Bento) :
    ∃ x w', internalReceiverList s sig w = .returned x w' ∧ Did (.receiverList s sig) w w' := by
  obtain ⟨l, hrun, hstep, hl⟩ := internalReceiverList_run hw hs ha sig
  refine ⟨_, _, hrun, .of_same rfl (by simp) ⟨rfl, rfl, rfl, rfl, rfl, rfl⟩
    (fun cursors' hw' => (hw'.askSender hstep hl).1) (hw.askSender hstep hl).2 ha
    (fun s' x _ hx _ => ?_) fun s' hs' => Function.update_of_ne (ne_of_dead hs hs') _ _⟩
  by_cases hss : s' = s
  · subst hss
    show x ∈ (Function.update w.connectList s' l s').toList
    rw [Function.update_self, hl]
    exact hx
  · show x ∈ (Function.update w.connectList s l s').toList
    rwa [Function.update_of_ne hss]

/-! ## The step of a call -/

theorem perform_returned {α : Type} {σ : State} {op : Op α} {x : α} {w : World}
    (h : op σ.world = .returned x w) : σ.perform op = .ok { σ with world := w } := by
  simp only [State.perform, h]

theorem destroySignalBase_relocked {w : World} {s : SenderId} {o : SignalBase}
    (ho : w.sender s = some o) (hb : o.activateBusy > 0) (hl : w.destroyedLocked = true) :
    destroySignalBase s w = .undefined .relocked := by
  simp only [destroySignalBase, bind, nothrow, markDestroyed, ho, if_pos hb, if_pos hl]

/-- A call between live objects never fails, except `~SignalBase` of a busy
signal by a thread that holds the mutex of the mark set. -/
theorem step_call {σ : State} {a : Action} {cursors : SenderId → List Cursor}
    (hw : σ.world.Sound cursors) (ha : σ.world.allocs = none) (hc : a.IsCall)
    (hl : a.Legal σ.world) :
    (∃ w', step σ a = .ok { σ with world := w' } ∧ (w' = σ.world ∨ Did a σ.world w')) ∨
    ∃ s o, a = .deleteSender s ∧ σ.world.sender s = some o ∧ o.activateBusy > 0 ∧
      σ.world.destroyedLocked = true ∧ step σ a = .error (.fault .relocked) := by
  simp only [step, if_pos hl]
  cases a with
  | newSender addr => exact Or.inl ⟨_, rfl, Or.inr (did_newSender hw ha addr)⟩
  | newReceiver => exact Or.inl ⟨_, rfl, Or.inr (did_newReceiver hw ha)⟩
  | connect o s sig r slot type u =>
    rcases did_connect hw ha hl.1 hl.2 o sig slot type u with ⟨what, h⟩ | ⟨b, w', h, hD⟩
    · exact Or.inl ⟨σ.world, by simp only [State.perform, h], Or.inl rfl⟩
    · exact Or.inl ⟨w', perform_returned h, Or.inr hD⟩
  | disconnect s sig r slot =>
    obtain ⟨w', h, hD⟩ := did_disconnect (a := .disconnect s sig r slot) hw ha hl.1 rfl (by simp) (some sig)
      (some r) (some slot) fun _ _ => rfl
    exact Or.inl ⟨w', perform_returned h, Or.inr hD⟩
  | internalDisconnect s sig r slot =>
    obtain ⟨w', h, hD⟩ := did_disconnect (a := .internalDisconnect s sig r slot) hw ha hl.1 rfl (by simp) sig
      r slot fun _ _ => rfl
    exact Or.inl ⟨w', perform_returned h, Or.inr hD⟩
  | deleteSender s =>
    obtain ⟨o, ho⟩ := Option.isSome_iff_exists.mp hl
    by_cases hb : o.activateBusy > 0 ∧ σ.world.destroyedLocked = true
    · refine Or.inr ⟨s, o, rfl, ho, hb.1, hb.2, ?_⟩
      simp only [State.perform, destroySignalBase_relocked ho hb.1 hb.2]
    · have hb' : o.activateBusy > 0 → σ.world.destroyedLocked = false := fun h => by
        simpa using fun h' => hb ⟨h, h'⟩
      obtain ⟨w', h, hD, _⟩ := did_deleteSender hw ha ho hb'
      exact Or.inl ⟨w', perform_returned h, Or.inr hD⟩
  | deleteReceiver r =>
    obtain ⟨w', h, hD⟩ := did_deleteReceiver hw ha hl
    exact Or.inl ⟨w', perform_returned h, Or.inr hD⟩
  | senderList r =>
    obtain ⟨w', h, hD⟩ := did_senderList hw ha hl
    exact Or.inl ⟨w', perform_returned h, Or.inr hD⟩
  | receiverList s sig =>
    obtain ⟨_, w', h, hD⟩ := did_receiverList hw ha hl sig
    exact Or.inl ⟨w', perform_returned h, Or.inr hD⟩
  | activate s sig => exact absurd hc id
  | ret value => exact absurd hc id
  | throw => exact absurd hc id

end CsSignal
