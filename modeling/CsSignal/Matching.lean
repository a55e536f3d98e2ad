-- Which connections `internal_disconnect` takes out, and which ones a unique
-- `connect` refuses: the tests of the code, against equality of the callables.
import CsSignal.Emission

namespace CsSignal

open LinkedCells Calls RcuList

/-! ## Equal callables -/

/-- Can the callable be compared at all? A lambda can not. -/
def Bento.comparable : Bento → Bool
  | .lambda _ _ => false
  | _ => true

/-- The callables are equal, and can be compared. -/
def Bento.Same (b b' : Bento) : Prop := b = b' ∧ b.comparable = true

instance (b b' : Bento) : Decidable (b.Same b') := inferInstanceAs (Decidable (_ ∧ _))

theorem Bento.eq_iff (b b' : Bento) : b.eq b' = true ↔ b.Same b' := by
  cases b <;> cases b' <;> simp [Bento.eq, Bento.Same, Bento.comparable]

theorem Bento.Same.symm {b b' : Bento} (h : b.Same b') : b'.Same b := ⟨h.1.symm, h.1 ▸ h.2⟩

/-! ## What `internal_disconnect` takes out -/

/-- The connection agrees with every argument that is not null. -/
structure Agrees (sig : Option Bento) (r : Option ReceiverId) (slot : Option Bento)
    (c : ConnectStruct) : Prop where
  signal : ∀ b ∈ sig, b.Same c.signalMethod
  receiver : ∀ x ∈ r, x = c.receiver
  slot : ∀ b ∈ slot, b.Same c.slotMethod

theorem agrees_iff (sig : Option Bento) (r : Option ReceiverId) (slot : Option Bento)
    (c : ConnectStruct) : Agrees sig r slot c ↔ (∀ b ∈ sig, b.Same c.signalMethod) ∧
      (∀ x ∈ r, x = c.receiver) ∧ ∀ b ∈ slot, b.Same c.slotMethod :=
  ⟨fun h => ⟨h.signal, h.receiver, h.slot⟩, fun h => ⟨h.1, h.2.1, h.2.2⟩⟩

instance (sig : Option Bento) (r : Option ReceiverId) (slot : Option Bento) (c : ConnectStruct) :
    Decidable (Agrees sig r slot c) :=
  decidable_of_iff _ (agrees_iff sig r slot c).symm

/-- The nested branches of `internal_disconnect` come to this. A slot without a
receiver is not an argument that its callers pass. -/
theorem isMatch_iff {sig : Option Bento} {r : Option ReceiverId} {slot : Option Bento}
    (hslot : slot.isSome = true → r.isSome = true) (c : ConnectStruct) :
    isMatch sig r slot c = true ↔ Agrees sig r slot c := by
  rw [agrees_iff]
  cases r with
  | none =>
    have hnone : slot = none := by
      cases slot with
      | none => rfl
      | some b => exact absurd (hslot rfl) (by simp)
    subst hnone
    cases sig <;> simp [isMatch, Bento.eq_iff]
  | some x =>
    by_cases hx : x = c.receiver
    · cases sig <;> cases slot <;> simp [isMatch, Bento.eq_iff, hx]
    · simp [isMatch, hx]

theorem iterate_erase_filter (s : SenderId) (k : Nat) (xs : List SenderId) :
    (((fun xs => xs.erase s)^[k] xs).filter fun x => x ≠ s) = xs.filter fun x => x ≠ s := by
  induction k generalizing xs with
  | zero => rfl
  | succ k ih =>
    rw [Function.iterate_succ_apply, ih]
    induction xs with
    | nil => rfl
    | cons x xs ihx =>
      by_cases hx : x = s
      · subst hx
        simp
      · rw [List.erase_cons_tail (by simpa using hx), List.filter_cons_of_pos (by simpa using hx),
          List.filter_cons_of_pos (by simpa using hx), ihx]

/-- `internal_disconnect` removes the connections that agree with its arguments,
and no others: what it leaves of both lists, and what it answers. -/
theorem disconnect_exact {w : World} {cursors : SenderId → List Cursor} {s : SenderId}
    (hw : w.Sound cursors) (hs : (w.sender s).isSome = true) (sig : Option Bento)
    (r : Option ReceiverId) (slot : Option Bento) (hslot : slot.isSome = true → r.isSome = true)
    (ha : w.enough (3 * (w.conns s).countP (fun c => Agrees sig r slot c) + 1)) :
    ∃ w', internalDisconnect s sig r slot w =
        .returned (decide (∃ c ∈ w.conns s, Agrees sig r slot c)) w' ∧
      w'.conns s = (w.conns s).filter (fun c => ¬ Agrees sig r slot c) ∧
      (∀ r', (w'.possible r').count s +
          (w.conns s).countP (fun c => Agrees sig r slot c ∧ c.receiver = r') =
        (w.possible r').count s) ∧
      (∀ r', (w'.possible r').filter (fun x => x ≠ s) =
        (w.possible r').filter fun x => x ≠ s) ∧
      (∀ s', s' ≠ s → w'.conns s' = w.conns s') ∧
      (∀ r', (∀ c ∈ w.conns s, Agrees sig r slot c → c.receiver ≠ r') →
        w'.possible r' = w.possible r') ∧
      SameObjects w w' := by
  have hhit : isMatch sig r slot = fun c => decide (Agrees sig r slot c) := funext fun c =>
    Bool.eq_iff_iff.mpr ((isMatch_iff hslot c).trans decide_eq_true_iff.symm)
  have ha' : w.enough (3 * (w.conns s).countP (isMatch sig r slot) + 1) := by rw [hhit]; exact ha
  obtain ⟨w', hrun, hD⟩ := disconnect_run hs (hw.lists s hs) hw.slots hw.booked ha'
  rw [hhit] at hrun hD
  refine ⟨w', ?_, ?_, fun r' => ?_, fun r' => ?_, fun s' hs' => hD.conns_ne hs', fun r' hr' => ?_,
    hD.objects⟩
  · unfold internalDisconnect
    rw [hhit, hrun]
    congr 1
    rw [Bool.eq_iff_iff]
    simp
  · rw [hD.conns]
    simp
  · have := hD.count hs hw.booked r'
    simp only [Bool.decide_and]
    exact this
  · rw [hD.possible r', iterate_erase_filter]
  · rw [hD.possible r', List.countP_eq_zero.mpr, Function.iterate_zero_apply]
    intro c hc hcr
    simp only [Bool.and_eq_true, decide_eq_true_eq, beq_iff_eq] at hcr
    exact hr' c hc hcr.1 hcr.2

/-- Two adjacent matches, at the front of the list. -/
theorem disconnect_exact_twice :
    ∃ w', internalDisconnect 0 none (some 0) none (after twice).world = .returned true w' ∧
      w'.conns 0 = [⟨.method 0 (some 1), 1, .method 1 (some 1), .autoConnection⟩] ∧
      (w'.possible 0).count 0 = 0 := by
  have hI : (after twice).Inv := inv_reached (Runs.run_reached (by decide +kernel))
  obtain ⟨w', hrun, hconns, hcount, _⟩ := disconnect_exact (s := 0) hI.memory.toSound
    (by decide +kernel) none (some 0) none (by decide) (World.enough_none hI.allocs _)
  refine ⟨w', ?_, ?_, ?_⟩
  · rw [hrun]
    exact congrArg (fun b => Outcome.returned b w') (by decide +kernel)
  · rw [hconns]
    decide +kernel
  · exact Nat.add_eq_right.mp ((hcount 0).trans (by decide +kernel))

/-! ## What a unique `connect` refuses -/

/-- The overload that C++ selects for a slot. -/
def Bento.overload : Bento → Overload
  | .method _ _ => .methodSlot
  | _ => .lambdaSlot

/-- The connection has this receiver, this signal and this slot. -/
def Connects (sig : Bento) (r : ReceiverId) (slot : Bento) (c : ConnectStruct) : Prop :=
  c.receiver = r ∧ sig.Same c.signalMethod ∧ slot.Same c.slotMethod

instance (sig : Bento) (r : ReceiverId) (slot : Bento) (c : ConnectStruct) :
    Decidable (Connects sig r slot c) :=
  inferInstanceAs (Decidable (_ ∧ _))

/-- A unique `connect` refuses a connection that is there, and changes nothing;
any other one it appends. -/
def ConnectsOnce (o : Overload) (s : SenderId) (sig : Bento) (r : ReceiverId) (slot : Bento)
    (type : ConnectionKind) (w : World) : Prop :=
  ∃ w', SameObjects w w' ∧
    (∀ s', s' ≠ s → w'.conns s' = w.conns s') ∧
    (∀ r', r' ≠ r → w'.possible r' = w.possible r') ∧
    if ∃ c ∈ w.conns s, Connects sig r slot c then
      connect o s sig r slot type true w = .returned false w' ∧
        w'.conns s = w.conns s ∧ w'.possible r = w.possible r
    else
      connect o s sig r slot type true w = .returned true w' ∧
        w'.conns s = w.conns s ++ [⟨sig, r, slot, type⟩] ∧ w'.possible r = w.possible r ++ [s]

/-- The overload takes the pointers, and where it compares no slots, a connection
of the signal to the receiver has the slot too. -/
def Tells (o : Overload) (s : SenderId) (sig : Bento) (r : ReceiverId) (slot : Bento)
    (w : World) : Prop :=
  o.accepts sig slot = true ∧
    (o = .lambdaSlot → (∃ c ∈ w.conns s, c.receiver = r ∧ sig.Same c.signalMethod) →
      ∃ c ∈ w.conns s, Connects sig r slot c)

theorem sameConnection_iff (sig : Bento) (r : ReceiverId) (slot : Bento) (c : ConnectStruct) :
    sameConnection sig r slot c = true ↔ Connects sig r slot c := by
  simp only [sameConnection, Connects, Bool.and_eq_true, beq_iff_eq, Bento.eq_iff, and_assoc]
  exact and_congr Iff.rfl (and_congr ⟨.symm, .symm⟩ ⟨.symm, .symm⟩)

theorem sameSignal_iff (sig : Bento) (r : ReceiverId) (c : ConnectStruct) :
    sameSignal sig r c = true ↔ c.receiver = r ∧ sig.Same c.signalMethod := by
  simp only [sameSignal, Bool.and_eq_true, beq_iff_eq, Bento.eq_iff]
  exact and_congr Iff.rfl ⟨.symm, .symm⟩

/-- What an accepted `connect` does, with the test of its overload. -/
theorem connect_does {w : World} {cursors : SenderId → List Cursor} {s : SenderId} {r : ReceiverId}
    (hw : w.Sound cursors) (hs : (w.sender s).isSome = true) (hr : w.receiver r = true)
    (ha : w.allocs = none) {o : Overload} {sig slot : Bento} (hacc : o.accepts sig slot = true)
    (type : ConnectionKind) (u : Bool) :
    ∃ w', connect o s sig r slot type u w =
        .returned (!(u && (w.conns s).any (o.same sig r slot))) w' ∧
      ConnectDone s r (if u && (w.conns s).any (o.same sig r slot) then none
        else some ⟨sig, r, slot, type⟩) w w' := by
  rcases connect_eq o s sig r slot type u (w := w) with ⟨hno, _⟩ | ⟨_, h⟩
  · rw [hacc] at hno
    cases hno
  · rw [h (World.enough_none ha _), World.spend_none ha]
    exact connectUnless_run (o.same sig r slot) sig slot type u hs hr (hw.lists s hs) hw.slots
      (World.enough_none ha _)

theorem ConnectDone.possible_eq {s : SenderId} {r r' : ReceiverId} {added : Option ConnectStruct}
    {w w' : World} (h : ConnectDone s r added w w') (hr : r' ≠ r) :
    w'.possible r' = w.possible r' := by
  rw [World.possible, h.possible_ne r' hr]
  rfl

/-- An accepted `connect` does as it should when the test of its overload finds
a connection exactly when there is an equal one. -/
theorem connectsOnce_of_accepts {w : World} {cursors : SenderId → List Cursor} {s : SenderId}
    {r : ReceiverId} (hw : w.Sound cursors) (hs : (w.sender s).isSome = true)
    (hr : w.receiver r = true) (ha : w.allocs = none) {o : Overload} {sig slot : Bento}
    (hacc : o.accepts sig slot = true) (type : ConnectionKind) :
    ConnectsOnce o s sig r slot type w ↔
      ((w.conns s).any (o.same sig r slot) = true ↔ ∃ c ∈ w.conns s, Connects sig r slot c) := by
  obtain ⟨w1, hrun, hD⟩ := connect_does hw hs hr ha hacc type true
  rw [Bool.true_and] at hrun hD
  constructor
  · rintro ⟨w', _, _, _, h⟩
    split at h
    · rename_i hyes
      rw [hrun] at h
      have hb := congrArg (fun x : Outcome World Exception Fault Bool =>
        match x with | .returned b _ => b | _ => true) h.1
      exact iff_of_true (by simpa using hb) hyes
    · rename_i hno
      rw [hrun] at h
      have hb := congrArg (fun x : Outcome World Exception Fault Bool =>
        match x with | .returned b _ => b | _ => true) h.1
      exact iff_of_false (by simpa using hb) hno
  · intro hiff
    refine ⟨w1, hD.objects, fun s' hs' => hD.conns_ne hs', fun r' hr' => hD.possible_eq hr', ?_⟩
    by_cases hdup : (w.conns s).any (o.same sig r slot) = true
    · rw [hdup] at hrun hD
      rw [if_pos (hiff.mp hdup)]
      exact ⟨hrun, by simpa using hD.conns, by simpa using hD.possible⟩
    · rw [Bool.not_eq_true] at hdup
      rw [hdup] at hrun hD
      rw [if_neg fun h => by rw [hiff.mpr h] at hdup; cases hdup]
      exact ⟨hrun, by simpa using hD.conns, by simpa using hD.possible⟩

theorem connectsOnce_iff {w : World} {cursors : SenderId → List Cursor} {s : SenderId}
    {r : ReceiverId} (hw : w.Sound cursors) (hs : (w.sender s).isSome = true)
    (hr : w.receiver r = true) (ha : w.allocs = none) (o : Overload) (sig slot : Bento)
    (type : ConnectionKind) : ConnectsOnce o s sig r slot type w ↔ Tells o s sig r slot w := by
  rcases connect_eq o s sig r slot type true (w := w) with ⟨hno, what, h⟩ | ⟨hacc, _⟩
  · -- a null pointer: the overload throws
    refine iff_of_false ?_ fun ht => by rw [ht.1] at hno; cases hno
    rintro ⟨w', _, _, _, h'⟩
    split at h' <;> rw [h] at h' <;> cases h'.1
  · rw [connectsOnce_of_accepts hw hs hr ha hacc, Tells]
    have hsame : ∀ o', o' ≠ .lambdaSlot → ((w.conns s).any (Overload.same o' sig r slot) = true ↔
        ∃ c ∈ w.conns s, Connects sig r slot c) := by
      intro o' ho'
      rw [List.any_eq_true]
      cases o' with
      | lambdaSlot => exact absurd rfl ho'
      | methodSlot => simp only [Overload.same, sameConnection_iff]
      | bento => simp only [Overload.same, sameConnection_iff]
    by_cases ho : o = .lambdaSlot
    · subst ho
      rw [List.any_eq_true]
      simp only [Overload.same, sameSignal_iff]
      constructor
      · exact fun h => ⟨hacc, fun _ => h.mp⟩
      · exact fun h => ⟨h.2 trivial, fun ⟨c, hc, hr', hsig, _⟩ => ⟨c, hc, hr', hsig⟩⟩
    · exact iff_of_true (hsame o ho) ⟨hacc, fun h => absurd h ho⟩

/-! ## The connections of a signal, step by step -/

theorem conns_of_toList {w w' : World} {s : SenderId}
    (h : (w'.connectList s).toList = (w.connectList s).toList) : w'.conns s = w.conns s := by
  rw [World.conns, NodeList.values, h]
  rfl

theorem Released.conns_eq {s s' : SenderId} {g : Nat} {cursors : SenderId → List Cursor}
    {w w' : World} (h : Released s g cursors w w') (hs : (w'.sender s').isSome = true) :
    w'.conns s' = w.conns s' := by
  by_cases hss : s' = s
  · subst hss
    exact conns_of_toList (h.live (h.sameObjects.sender ▸ hs)).1
  · exact conns_of_toList (by rw [h.others hss])

/-- The start of an activation and its moves leave the connections alone. -/
theorem Next.conns_eq {σ σ' : State} {a : Action} (h : σ.Inv) (hN : Next σ a σ')
    (hc : ¬ a.IsCall) {s : SenderId} (hs : (σ'.world.sender s).isSome = true) :
    σ'.world.conns s = σ.world.conns s := by
  cases hN with
  | call hc' => exact absurd hc' hc
  | @enter s0 o sig σ' ho hE =>
    have hlock : (σ.entered s0 sig).world.conns s = σ.world.conns s := by
      apply conns_of_toList
      show (Function.update σ.world.connectList s0 (σ.world.connectList s0).rcuReadLock.2 s).toList = _
      by_cases hss : s = s0
      · subst hss
        rw [Function.update_self]
        exact (h.memory.lists s (by rw [ho]; rfl)).lock.2
      · rw [Function.update_of_ne hss]
    cases hE with
    | met => exact hlock
    | ended hend => exact (hend.released.conns_eq hs).trans hlock
  | @move a f rest σ' hst hM =>
    obtain ⟨_, _, _, _, _, _, h7, _⟩ := resumed_fields { σ with stack := rest } f
    cases hM with
    | dispatched => rfl
    | next => exact congrArg (fun l : RcuList ConnectStruct => l.values) (congrFun h7 s)
    | ended hcall hfree ho hstep hend =>
      exact (hend.released.conns_eq hs).trans
        (congrArg (fun l : RcuList ConnectStruct => l.values) (congrFun h7 s))
    | stopped hend hcall hlock hmark hrel =>
      exact (hrel.conns_eq hs).trans ((unmarked_sameLists _ f).conns s)
    | handling => rfl
    | left hcall hrel => exact hrel.conns_eq hs
    | handlerLeft hcall hrel => exact hrel.conns_eq hs

theorem perform_eq {α : Type} {σ σ' : State} {op : Op α} {x : α} {w : World}
    (h : σ.perform op = .ok σ') (hrun : op σ.world = .returned x w) :
    σ' = { σ with world := w } :=
  (Except.ok.inj ((perform_returned hrun).symm.trans h)).symm

/-- What a call adds to a list and what it may take out. -/
inductive Changed (σ : State) (a : Action) (s : SenderId) (σ' : State) : Prop
  | fewer (h : (σ'.world.conns s).Sublist (σ.world.conns s))
  | added (o : Overload) (sig : Bento) (r : ReceiverId) (slot : Bento) (type : ConnectionKind)
      (u : Bool) (ha : a = .connect o s sig r slot type u)
      (hfree : u = true → ∀ c ∈ σ.world.conns s, ¬ Connects sig r slot c)
      (h : σ'.world.conns s = σ.world.conns s ++ [⟨sig, r, slot, type⟩])

theorem Changed.of_eq {σ σ' : State} {a : Action} {s : SenderId}
    (h : σ'.world.conns s = σ.world.conns s) : Changed σ a s σ' :=
  .fewer (h ▸ List.Sublist.refl _)

theorem changed_disconnect {σ : State} (h : σ.Inv) {a : Action} {s s' : SenderId}
    (hs : (σ.world.sender s).isSome = true) (sig : Option Bento) (r : Option ReceiverId)
    (slot : Option Bento) {σ' : State} (hp : σ.perform (internalDisconnect s sig r slot) = .ok σ') :
    Changed σ a s' σ' := by
  obtain ⟨w', hrun, hD, _⟩ := internalDisconnect_run h.memory.toSound hs h.allocs sig r slot
  rw [perform_eq hp hrun]
  apply Changed.fewer
  show (w'.conns s').Sublist (σ.world.conns s')
  by_cases hss : s' = s
  · subst hss
    rw [hD.conns]
    exact List.filter_sublist
  · rw [hD.conns_ne hss]

theorem changed_connect {σ : State} (h : σ.Inv) {o : Overload} {s s' : SenderId} {sig : Bento}
    {r : ReceiverId} {slot : Bento} {type : ConnectionKind} {u : Bool}
    (hs : (σ.world.sender s).isSome = true) (hr : σ.world.receiver r = true) {σ' : State}
    (hp : σ.perform (connect o s sig r slot type u) = .ok σ') :
    Changed σ (.connect o s sig r slot type u) s' σ' := by
  rcases connect_eq o s sig r slot type u (w := σ.world) with ⟨_, what, hno⟩ | ⟨hacc, _⟩
  · simp only [State.perform, hno, Except.ok.injEq] at hp
    subst hp
    exact .fewer (List.Sublist.refl _)
  · obtain ⟨w', hrun, hD⟩ := connect_does h.memory.toSound hs hr h.allocs hacc type u
    rw [perform_eq hp hrun]
    by_cases hss : s' = s
    · subst hss
      have hconns := hD.conns
      by_cases hdup : (u && (σ.world.conns s').any (o.same sig r slot)) = true
      · rw [hdup] at hconns
        exact .of_eq (by simpa using hconns)
      · rw [Bool.not_eq_true] at hdup
        rw [hdup] at hconns
        refine .added o sig r slot type u rfl (fun hu c hc hcon => ?_) (by simpa using hconns)
        rw [hu, Bool.true_and, List.any_eq_false] at hdup
        refine hdup c hc ?_
        cases o with
        | lambdaSlot => exact (sameSignal_iff _ _ _).mpr ⟨hcon.1, hcon.2.1⟩
        | methodSlot => exact (sameConnection_iff _ _ _ _).mpr hcon
        | bento => exact (sameConnection_iff _ _ _ _).mpr hcon
    · exact .of_eq (hD.conns_ne hss)

theorem changed_of_step {σ σ' : State} {a : Action} (h : σ.Inv) (hstep : step σ a = .ok σ')
    {s : SenderId} (hs : (σ'.world.sender s).isSome = true) : Changed σ a s σ' := by
  have hl := legal_of_step hstep
  by_cases hc : a.IsCall
  · simp only [step, if_pos hl] at hstep
    cases a with
    | newSender addr =>
      cases hstep
      apply Changed.fewer
      by_cases hss : s = σ.world.senderCount
      · subst hss
        have hnil : (σ.world.newSender addr).conns σ.world.senderCount = [] := by
          simp [World.conns, World.newSender, NodeList.values, NodeList.toList, walk]
        exact hnil ▸ List.nil_sublist _
      · simp [World.conns, World.newSender, Function.update_of_ne hss]
    | newReceiver =>
      cases hstep
      exact .fewer (List.Sublist.refl _)
    | connect o s0 sig r slot type u => exact changed_connect h hl.1 hl.2 hstep
    | disconnect s0 sig r slot => exact changed_disconnect h hl.1 _ _ _ hstep
    | internalDisconnect s0 sig r slot => exact changed_disconnect h hl.1 _ _ _ hstep
    | deleteSender s0 =>
      obtain ⟨o, ho⟩ := Option.isSome_iff_exists.mp hl
      have hfree : o.activateBusy > 0 → σ.world.destroyedLocked = false := fun hb => by
        by_contra hlock
        rw [Bool.not_eq_false] at hlock
        simp only [State.perform, destroySignalBase_relocked ho hb hlock, reduceCtorEq] at hstep
      obtain ⟨w', hrun, _, hD⟩ := did_deleteSender h.memory.toSound h.allocs ho hfree
      rw [perform_eq hstep hrun] at hs ⊢
      have hss : s ≠ s0 := by
        rintro rfl
        rw [hD.sender, Function.update_self] at hs
        cases hs
      exact .of_eq (congrArg (fun l : RcuList ConnectStruct => l.values) (hD.others s hss))
    | deleteReceiver r =>
      obtain ⟨w', hrun, hD⟩ := destroySlotBase_run h.memory.toSound hl h.allocs
      rw [perform_eq hstep hrun] at hs ⊢
      rw [hD.sender] at hs
      apply Changed.fewer
      show (w'.conns s).Sublist (σ.world.conns s)
      rw [hD.conns hs]
      exact List.filter_sublist
    | senderList r =>
      obtain ⟨l, hrun, _⟩ := internalSenderList_run h.memory.toSound hl h.allocs
      rw [perform_eq hstep hrun]
      exact .fewer (List.Sublist.refl _)
    | receiverList s0 sig =>
      obtain ⟨l, hrun, _, hlist⟩ := internalReceiverList_run h.memory.toSound hl h.allocs sig
      rw [perform_eq hstep hrun]
      refine .of_eq (conns_of_toList ?_)
      show (Function.update σ.world.connectList s0 l s).toList = _
      by_cases hss : s = s0
      · subst hss
        rw [Function.update_self, hlist]
      · rw [Function.update_of_ne hss]
    | activate => exact absurd hc id
    | ret => exact absurd hc id
    | throw => exact absurd hc id
  · exact .of_eq ((h.step hstep).2.conns_eq h hc hs)

/-- Only a new signal was not there before. -/
theorem conns_of_new {σ σ' : State} {a : Action} (h : σ.Inv) (hstep : step σ a = .ok σ')
    {s : SenderId} (hs : (σ'.world.sender s).isSome = true) (hdead : σ.world.sender s = none) :
    σ'.world.conns s = [] := by
  obtain ⟨hI', hN⟩ := h.step hstep
  have hcount : σ.world.senderCount ≤ s := by
    by_contra hlt
    rw [dead_of_next hN (Nat.lt_of_not_le hlt) hdead] at hs
    cases hs
  have hbound := hI'.memory.senderBound s hs
  cases hN with
  | call hc hD =>
    rcases hD with rfl | hD
    · exact absurd (Nat.lt_of_le_of_lt hcount hbound) (Nat.lt_irrefl _)
    · rcases hD.gone s hdead with ⟨hnone, _⟩ | ⟨rfl, addr, rfl, _⟩
      · rw [show State.world _ = _ from rfl, hnone] at hs
        cases hs
      · simp only [step, if_pos (legal_of_step hstep), Except.ok.injEq] at hstep
        rw [← hstep]
        simp [World.conns, World.newSender, NodeList.values, NodeList.toList, walk]
  | enter ho hE =>
    cases hE with
    | met => exact absurd (Nat.lt_of_le_of_lt hcount hbound) (Nat.lt_irrefl _)
    | ended hend =>
      rw [hend.released.sameObjects.senderCount] at hbound
      exact absurd (Nat.lt_of_le_of_lt hcount hbound) (Nat.lt_irrefl _)
  | move hst hM =>
    rw [hM.senderCount] at hbound
    exact absurd (Nat.lt_of_le_of_lt hcount hbound) (Nat.lt_irrefl _)

/-! ## No connection twice -/

/-- A connection to a slot that can be compared is made as a unique one. -/
def Action.MadeUnique : Action → Prop
  | .connect _ _ _ _ slot _ u => slot.comparable = true → u = true
  | _ => True

instance (a : Action) : Decidable a.MadeUnique :=
  match a with
  | .connect _ _ _ _ slot _ u =>
    inferInstanceAs (Decidable (slot.comparable = true → u = true))
  | .newSender .. | .newReceiver | .disconnect .. | .internalDisconnect .. | .deleteSender _
  | .deleteReceiver _ | .senderList _ | .receiverList .. | .activate .. | .ret _ | .throw =>
    isTrue trivial

/-- No two connections of a signal are equal. -/
def World.NoTwins (w : World) : Prop :=
  ∀ s, (w.sender s).isSome = true →
    (w.conns s).Pairwise fun c c' => ¬ Connects c'.signalMethod c'.receiver c'.slotMethod c

theorem noTwins_step {σ σ' : State} {a : Action} (h : σ.Inv) (ht : σ.world.NoTwins)
    (hstep : step σ a = .ok σ') (ha : a.MadeUnique) : σ'.world.NoTwins := by
  intro s hs
  cases hdead : σ.world.sender s with
  | none =>
    rw [conns_of_new h hstep hs hdead]
    exact List.Pairwise.nil
  | some o =>
    have hold := ht s (by rw [hdead]; rfl)
    cases changed_of_step h hstep hs with
    | fewer hsub => exact hold.sublist hsub
    | added o sig r slot type u he hfree hadd =>
      rw [hadd, List.pairwise_append]
      refine ⟨hold, List.pairwise_singleton _ _, fun c hc c' hc' => ?_⟩
      rw [List.mem_singleton.mp hc']
      intro hcon
      rw [he] at ha
      exact hfree (ha hcon.2.2.2) c hc hcon

theorem noTwins_run {as : List Action} {σ σ' : State} (h : σ.Inv) (ht : σ.world.NoTwins)
    (hr : run σ as = .ok σ') (has : ∀ a ∈ as, a.MadeUnique) : σ'.world.NoTwins := by
  induction as generalizing σ with
  | nil =>
    cases hr
    exact ht
  | cons a as ih =>
    obtain ⟨σ1, h1, hr⟩ := Runs.run_cons.mp hr
    exact ih (h.step h1).1 (noTwins_step h ht h1 (has a List.mem_cons_self)) hr
      fun b hb => has b (List.mem_cons_of_mem _ hb)

/-- In every state that a program reaches, a unique `connect` does as it should
exactly when its overload can tell; and when all connections to slots that can
be compared were made so, no signal has two equal ones. -/
theorem unique_connect {as : List Action} {σ : State} (hr : run State.init as = .ok σ) :
    (∀ s r sig slot type o, (σ.world.sender s).isSome = true → σ.world.receiver r = true →
      slot.comparable = true → o = slot.overload ∨ o = .bento →
      (ConnectsOnce o s sig r slot type σ.world ↔ Tells o s sig r slot σ.world)) ∧
    ((∀ a ∈ as, a.MadeUnique) → σ.world.NoTwins) := by
  have h := inv_reached hr
  refine ⟨fun s r sig slot type o hs hr' _ _ => ?_, fun has => ?_⟩
  · exact connectsOnce_iff h.memory.toSound hs hr' h.allocs o sig slot type
  · exact noTwins_run inv_init (fun s hs => nomatch hs) hr has

/-- A signal that is connected to one function of its receiver. -/
def connectedFunction : List Action :=
  [.newSender 100, .newReceiver,
    .connect .lambdaSlot 0 (.method 0 (some 1)) 0 (.function 1 (some 1)) .autoConnection true]

/-- The same function again is refused, by both overloads. -/
theorem unique_connect_again :
    ConnectsOnce .lambdaSlot 0 (.method 0 (some 1)) 0 (.function 1 (some 1)) .autoConnection
      (after connectedFunction).world ∧
    ConnectsOnce .bento 0 (.method 0 (some 1)) 0 (.function 1 (some 1)) .autoConnection
      (after connectedFunction).world :=
  have h := (unique_connect (Runs.run_reached (s := State.init) (by decide +kernel) :
    run State.init connectedFunction = .ok (after connectedFunction))).1 0 0 (.method 0 (some 1))
      (.function 1 (some 1)) .autoConnection
  ⟨(h .lambdaSlot (by decide +kernel) (by decide +kernel) rfl (Or.inl rfl)).mpr
      ⟨rfl, fun _ _ => by decide +kernel⟩,
    (h .bento (by decide +kernel) (by decide +kernel) rfl (Or.inr rfl)).mpr
      ⟨rfl, fun he => nomatch he⟩⟩

/-- Another function of the receiver is refused too: the overload that takes it
compares no slots. -/
theorem unique_connect_refused :
    ¬ ConnectsOnce .lambdaSlot 0 (.method 0 (some 1)) 0 (.function 1 (some 2)) .autoConnection
      (after connectedFunction).world := by
  have hI : (after connectedFunction).Inv := inv_reached (Runs.run_reached (by decide +kernel))
  rw [connectsOnce_iff hI.memory.toSound (by decide +kernel) (by decide +kernel) hI.allocs]
  rintro ⟨_, h⟩
  exact absurd (h rfl (by decide +kernel)) (by decide +kernel)

end CsSignal
