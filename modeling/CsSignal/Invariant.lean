-- What holds in every state that a program can reach, whatever its slots do: the
-- memory of all lists is sound under the iterators of the activations in progress,
-- and the two sides of every connection agree.
import CsSignal.Frames

namespace CsSignal

open LinkedCells Calls RcuList

structure State.Inv (σ : State) : Prop where
  memory : σ.world.Memory (cursorsOf σ.stack)
  allocs : σ.world.allocs = none
  known : ∀ f ∈ σ.stack, f.activation.sender < σ.world.senderCount
  numbered : ∀ f ∈ σ.stack, f.activation.id < σ.activationCount
  distinct : (σ.stack.map fun f => f.activation.id).Pairwise (· > ·)
  logged : ∀ e ∈ σ.calls, e.activation < σ.activationCount

theorem inv_init : State.init.Inv where
  memory := by
    refine ⟨⟨fun s hs => ?_, fun r hr => ?_, ⟨fun s r hs => ?_, fun s hs => ?_, fun r hr => ?_⟩,
      fun s hs => ?_, fun r hr => ?_⟩, fun s _ => ⟨[], suffix_nil _, rfl⟩⟩ <;> cases ‹_ = true›
  allocs := rfl
  known := by simp [State.init]
  numbered := by simp [State.init]
  distinct := List.Pairwise.nil
  logged := by simp [State.init]

/-! ## The unlock changes one list only -/

theorem Released.sameObjects {s : SenderId} {g : Nat} {cursors : SenderId → List Cursor}
    {w w' : World} (h : Released s g cursors w w') : SameObjects w w' := by
  obtain ⟨l, _, rfl⟩ := h.eq
  exact ⟨rfl, rfl, rfl, rfl, rfl, rfl⟩

theorem Released.allocs {s : SenderId} {g : Nat} {cursors : SenderId → List Cursor}
    {w w' : World} (h : Released s g cursors w w') : w'.allocs = w.allocs := by
  obtain ⟨l, _, rfl⟩ := h.eq
  rfl

theorem Released.others {s : SenderId} {g : Nat} {cursors : SenderId → List Cursor}
    {w w' : World} (h : Released s g cursors w w') {s' : SenderId} (hs : s' ≠ s) :
    w'.connectList s' = w.connectList s' := by
  obtain ⟨l, _, rfl⟩ := h.eq
  exact Function.update_of_ne hs _ _

theorem Released.possibleSenders {s : SenderId} {g : Nat} {cursors : SenderId → List Cursor}
    {w w' : World} (h : Released s g cursors w w') : w'.possibleSenders = w.possibleSenders := by
  obtain ⟨l, _, rfl⟩ := h.eq
  rfl

theorem resumed_fields (σ : State) (f : Frame) :
    (σ.resumed f).stack = σ.stack ∧ (σ.resumed f).activationCount = σ.activationCount ∧
      (σ.resumed f).calls = σ.calls ∧ (σ.resumed f).world.allocs = σ.world.allocs ∧
      (σ.resumed f).world.senderCount = σ.world.senderCount ∧
      (σ.resumed f).world.sender = σ.world.sender ∧
      (σ.resumed f).world.connectList = σ.world.connectList ∧
      (σ.resumed f).world.beingDestroyed = σ.world.beingDestroyed := by
  unfold State.resumed
  split <;> exact ⟨rfl, rfl, rfl, rfl, rfl, rfl, rfl, rfl⟩

/-! ## One step -/

/-- A state whose stack has the activations of the old one. -/
theorem State.Inv.of_move {σ σ' : State} {f : Frame} {rest : List Frame} (h : σ.Inv)
    (hst : σ.stack = f :: rest) (hm : σ'.world.Memory (cursorsOf σ'.stack))
    (ha : σ'.world.allocs = none) (hk : σ'.world.senderCount = σ.world.senderCount)
    (hn : σ'.activationCount = σ.activationCount)
    (hc : ∀ e ∈ σ'.calls, e ∈ σ.calls ∨ e.activation = f.activation.id)
    (hst' : σ'.stack = rest ∨ ∃ f', σ'.stack = f' :: rest ∧ f'.activation = f.activation) :
    σ'.Inv := by
  have hknown := h.known
  have hnum := h.numbered
  have hdist := h.distinct
  rw [hst] at hknown hnum hdist
  have hlog : ∀ e ∈ σ'.calls, e.activation < σ'.activationCount := fun e he => by
    rw [hn]
    rcases hc e he with he | he
    · exact h.logged e he
    · rw [he]
      exact hnum f List.mem_cons_self
  rw [List.map_cons, List.pairwise_cons] at hdist
  rcases hst' with hst' | ⟨f', hst', hact⟩
  · refine ⟨hm, ha, fun g hg => ?_, fun g hg => ?_, ?_, hlog⟩
    · rw [hst'] at hg
      rw [hk]
      exact hknown g (List.mem_cons_of_mem _ hg)
    · rw [hst'] at hg
      rw [hn]
      exact hnum g (List.mem_cons_of_mem _ hg)
    · rw [hst']
      exact hdist.2
  · refine ⟨hm, ha, fun g hg => ?_, fun g hg => ?_, ?_, hlog⟩
    · rw [hst'] at hg
      rw [hk]
      rcases List.mem_cons.mp hg with rfl | hg
      · rw [hact]
        exact hknown f List.mem_cons_self
      · exact hknown g (List.mem_cons_of_mem _ hg)
    · rw [hst'] at hg
      rw [hn]
      rcases List.mem_cons.mp hg with rfl | hg
      · rw [hact]
        exact hnum f List.mem_cons_self
      · exact hnum g (List.mem_cons_of_mem _ hg)
    · rw [hst', List.map_cons, List.pairwise_cons, hact]
      exact hdist

theorem State.Inv.move {σ σ' : State} {a : Action} {f : Frame} {rest : List Frame} (h : σ.Inv)
    (hst : σ.stack = f :: rest) (hM : Move { σ with stack := rest } f a σ') : σ'.Inv := by
  have hmem := h.memory
  have ha := h.allocs
  rw [hst, cursorsOf_cons] at hmem
  obtain ⟨h1, h2, h3, h4, h5, _⟩ := resumed_fields { σ with stack := rest } f
  have hpush : ∀ {e0 : CallRecord} {cs : List CallRecord}, cs = σ.calls →
      e0.activation = f.activation.id →
      ∀ e ∈ cs ++ [e0], e ∈ σ.calls ∨ e.activation = f.activation.id := by
    rintro e0 cs rfl he0 e he
    rcases List.mem_append.mp he with he | he
    · exact Or.inl he
    · exact Or.inr (List.mem_singleton.mp he ▸ he0)
  cases hM with
  | dispatched hcall ho hc hr =>
    refine h.of_move hst ?_ ha rfl rfl (hpush rfl rfl) (Or.inr ⟨_, rfl, rfl⟩)
    exact (withBusy_sameLists ho _).memory (by rw [State.push, cursorsOf_cons]; exact hmem)
  | next hcall hfree ho hstep hmet hr =>
    refine h.of_move hst ?_ (h4.trans ha) h5 h2 (hpush h3 rfl) (Or.inr ⟨_, congrArg _ h1, rfl⟩)
    rw [State.push, cursorsOf_cons]
    rw [h1]
    exact hmet.memory
  | @ended b o c w' hcall hfree ho hstep hend =>
    refine h.of_move hst ?_ (hend.released.allocs.trans (h4.trans ha))
      (hend.released.sameObjects.senderCount.trans h5) h2 (fun e he => Or.inl (h3 ▸ he)) (Or.inl h1)
    show w'.Memory (cursorsOf (State.resumed { σ with stack := rest } f).stack)
    rw [h1]
    exact hend.released.memory
  | stopped hend hcall hlock hmark hrel =>
    refine h.of_move hst hrel.memory (hrel.allocs.trans ?_)
      (hrel.sameObjects.senderCount.trans (unmarked_sameLists _ f).senderCount) rfl
      (fun e he => Or.inl he) (Or.inl rfl)
    unfold State.unmarked
    split <;> exact ha
  | handling hcall hlock hmark ho =>
    refine h.of_move hst ?_ ha rfl rfl (fun e he => Or.inl he) (Or.inr ⟨_, rfl, rfl⟩)
    have hsame : SameLists σ.world { σ.world with destroyedLocked := true } :=
      ⟨rfl, rfl, rfl, rfl, rfl, fun _ => rfl⟩
    exact hsame.memory (by rw [cursorsOf_cons]; exact hmem)
  | left hcall hrel =>
    exact h.of_move hst hrel.memory (hrel.allocs.trans ha) hrel.sameObjects.senderCount rfl
      (fun e he => Or.inl he) (Or.inl rfl)
  | handlerLeft hcall hrel =>
    exact h.of_move hst hrel.memory (hrel.allocs.trans ha) hrel.sameObjects.senderCount rfl
      (fun e he => Or.inl he) (Or.inl rfl)

theorem State.Inv.enter {σ σ' : State} {s : SenderId} {o : SignalBase} {sig : Bento} (h : σ.Inv)
    (ho : σ.world.sender s = some o) (hE : Enter σ s o sig σ') : σ'.Inv := by
  have hs : s < σ.world.senderCount := h.memory.senderBound s (by rw [ho]; rfl)
  cases hE with
  | met hmet hr =>
    refine ⟨?_, h.allocs, fun f hf => ?_, fun f hf => ?_, ?_, fun e he => ?_⟩
    · rw [State.push, cursorsOf_cons]
      exact hmet.memory
    · rcases List.mem_cons.mp hf with rfl | hf
      · exact hs
      · exact h.known f hf
    · rcases List.mem_cons.mp hf with rfl | hf
      · exact Nat.lt_succ_self _
      · exact Nat.lt_succ_of_lt (h.numbered f hf)
    · refine List.pairwise_cons.mpr ⟨fun i hi => ?_, h.distinct⟩
      obtain ⟨f, hf, rfl⟩ := List.mem_map.mp hi
      exact h.numbered f hf
    · rcases List.mem_append.mp he with he | he
      · exact Nat.lt_succ_of_lt (h.logged e he)
      · rw [List.mem_singleton.mp he]
        exact Nat.lt_succ_self _
  | ended hend =>
    refine ⟨hend.released.memory, hend.released.allocs.trans h.allocs, fun f hf => ?_,
      fun f hf => Nat.lt_succ_of_lt (h.numbered f hf), h.distinct,
      fun e he => Nat.lt_succ_of_lt (h.logged e he)⟩
    rw [hend.released.sameObjects.senderCount]
    exact h.known f hf

theorem State.Inv.call {σ : State} {a : Action} {w' : World} (h : σ.Inv)
    (hD : w' = σ.world ∨ Did a σ.world w') : State.Inv { σ with world := w' } := by
  rcases hD with rfl | hD
  · exact h
  · have hnil : cursorsOf σ.stack σ.world.senderCount = [] := by
      rw [cursorsOf, List.map_eq_nil_iff, List.filter_eq_nil_iff]
      intro f hf hs
      have := h.known f hf
      exact absurd (beq_iff_eq.mp hs ▸ this) (Nat.lt_irrefl _)
    refine ⟨hD.memory _ h.memory hnil, hD.allocs, fun f hf => ?_, h.numbered, h.distinct, h.logged⟩
    exact Nat.lt_of_lt_of_le (h.known f hf) hD.senderCount

theorem State.Inv.next {σ σ' : State} {a : Action} (h : σ.Inv) (hN : Next σ a σ') : σ'.Inv := by
  cases hN with
  | call hc hD => exact h.call hD
  | enter ho hE => exact h.enter ho hE
  | move hst hM => exact h.move hst hM

theorem State.Inv.step {σ σ' : State} {a : Action} (h : σ.Inv) (hs : step σ a = .ok σ') :
    σ'.Inv ∧ Next σ a σ' :=
  have hN := next_of_step h.memory h.allocs hs
  ⟨h.next hN, hN⟩

theorem inv_run {as : List Action} {σ σ' : State} (h : σ.Inv) (hr : run σ as = .ok σ') : σ'.Inv :=
  Runs.run_keeps (fun _ _ _ hI hs => (State.Inv.step hI hs).1) hr h

/-- Every state that a program reaches. -/
theorem inv_reached {as : List Action} {σ : State} (hr : run State.init as = .ok σ) : σ.Inv :=
  inv_run inv_init hr

/-! ## The two sides of every connection -/

/-- In every state that a program reaches the two lists of every connection
agree. So `internal_senderList` answers with the signals that hold a connection,
and `internal_disconnect` finds the entry that it erases. -/
theorem two_sides_agree {as : List Action} {σ : State} (hr : run State.init as = .ok σ) :
    σ.world.Booked ∧
    (∀ r, σ.world.receiver r = true → ∃ senders w',
      internalSenderList r σ.world = .returned senders w' ∧
      ∀ s, s ∈ senders ↔
        (σ.world.sender s).isSome = true ∧ ∃ c ∈ σ.world.conns s, c.receiver = r) ∧
    (∀ s, (σ.world.sender s).isSome = true → ∀ sig r slot, ∃ w',
      internalDisconnect s sig r slot σ.world =
        .returned ((σ.world.conns s).any (isMatch sig r slot)) w') ∧
    ∀ a, step σ a ≠ .error (.fault .nullPointer) := by
  have h := inv_reached hr
  refine ⟨h.memory.booked, fun r hr' => ?_, fun s hs sig r slot => ?_, fun a ha => ?_⟩
  · obtain ⟨w', hrun, _⟩ := did_senderList h.memory.toSound h.allocs hr'
    refine ⟨_, w', hrun, fun s => ?_⟩
    rw [List.mem_toFinset]
    constructor
    · intro hm
      have hs := h.memory.booked.senders r hr' s hm
      refine ⟨hs, ?_⟩
      have hpos := List.count_pos_iff.mpr hm
      rw [← h.memory.booked.counts s r hs hr'] at hpos
      obtain ⟨c, hc, hcr⟩ := List.countP_pos_iff.mp hpos
      exact ⟨c, hc, by simpa using hcr⟩
    · rintro ⟨hs, c, hc, hcr⟩
      refine List.count_pos_iff.mp ?_
      rw [← h.memory.booked.counts s r hs hr']
      exact List.countP_pos_iff.mpr ⟨c, hc, by simpa using hcr⟩
  · obtain ⟨w', hrun, _⟩ := internalDisconnect_run h.memory.toSound hs h.allocs sig r slot
    exact ⟨w', hrun⟩
  · cases fails_of_step h.memory h.allocs ha with
    | move hst hC => cases hC

/-- A signal with two equal connections, and one to another slot. -/
def twice : List Action :=
  [.newSender 100, .newReceiver, .newReceiver,
    .connect .methodSlot 0 (.method 0 (some 1)) 0 (.method 1 (some 1)) .autoConnection false,
    .connect .methodSlot 0 (.method 0 (some 1)) 0 (.method 1 (some 1)) .autoConnection false,
    .connect .methodSlot 0 (.method 0 (some 1)) 1 (.method 1 (some 1)) .autoConnection false]

/-- In the middle of an emission, after the running slot disconnected itself. -/
theorem two_sides_agree_twice :
    ((after (twice ++ [.activate 0 (.method 0 (some 1)), .ret true,
        .internalDisconnect 0 none (some 0) none])).world.conns 0).countP
          (fun c => c.receiver == 1) =
      ((after (twice ++ [.activate 0 (.method 0 (some 1)), .ret true,
        .internalDisconnect 0 none (some 0) none])).world.possible 1).count 0 :=
  (two_sides_agree (Runs.run_reached (by decide +kernel))).1.counts 0 1 (by decide +kernel)
    (by decide +kernel)

end CsSignal
