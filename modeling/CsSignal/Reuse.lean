-- A signal at the address of a destroyed one: what its emission does, compared with
-- the same program where the allocator gives that signal an address of its own.
import CsSignal.Addresses
import CsSignal.Marks

namespace CsSignal

/-! ## The mark set after a step -/

/-- The mark set after the end of the innermost call. -/
def State.endMarks (σ : State) : Finset Addr :=
  match σ.stack with
  | [] => σ.world.beingDestroyed
  | f :: _ =>
    if f.call.isSlot = true ∧ f.old_activateBusy = 0 then
      σ.world.beingDestroyed.erase f.activation.senderPtr
    else σ.world.beingDestroyed

theorem State.Marked.marks_of_end {σ σ' : State} {a : Action} (hk : σ.Marked) (he : a.IsEnd)
    (hN : Next σ a σ') : σ'.world.beingDestroyed = σ.endMarks := by
  cases hN with
  | call hc => cases a <;> first | exact absurd he id | exact absurd hc id
  | enter => exact absurd he id
  | @move a f rest σ' hst hM =>
    have hf : f ∈ σ.stack := by rw [hst]; exact List.mem_cons_self
    have hsame : (f.call ≠ .compareThreads → (σ.world.sender f.activation.sender).isSome = true) →
        σ.world.beingDestroyed = σ.endMarks := by
      intro hlive
      unfold State.endMarks
      rw [hst]
      simp only
      split
      · rename_i h
        have hc := (isSlot_iff.mp h.1).1
        exact (Finset.erase_eq_of_notMem (hk.free f hf hc (hlive hc))).symm
      · rfl
    cases hM.turn with
    | begun hret hcall ho hst' hact hslot hold hs hb hl =>
      exact hb.trans (hsame fun hn => absurd hcall hn)
    | finished hret hcall ho hst' hs hb hl => exact hb.trans (hsame fun _ => by rw [ho]; rfl)
    | stopped hslot hlock hmark hst' hs hb hl =>
      rw [hb]
      unfold State.endMarks
      rw [hst]
      simp only [hslot, true_and]
    | handling hslot hlock hlive hst' hact hcall hold hs hb hl => exact hb.trans (hsame fun _ => hlive)
    | left hthrow hslot hst' hs hb hl =>
      rw [hb]
      unfold State.endMarks
      rw [hst]
      simp [hslot]

theorem marks_of_delete {σ σ' : State} {s : SenderId} {o : SignalBase} (hI : σ.Inv)
    (ho : σ.world.sender s = some o) (hs : step σ (.deleteSender s) = .ok σ') :
    σ'.world.beingDestroyed =
      if o.activateBusy > 0 then insert o.addr σ.world.beingDestroyed
      else σ.world.beingDestroyed := by
  have hl := legal_of_step hs
  simp only [step, if_pos hl] at hs
  have hfree : o.activateBusy > 0 → σ.world.destroyedLocked = false := by
    intro hb
    by_contra hlock
    simp only [State.perform, destroySignalBase_relocked ho hb (by simpa using hlock)] at hs
    cases hs
  obtain ⟨w', h, _, hD⟩ := did_deleteSender hI.memory.toSound hI.allocs ho hfree
  rw [perform_returned h, Except.ok.injEq] at hs
  rw [← hs]
  exact hD.beingDestroyed

theorem marks_of_other {σ σ' : State} {a : Action} (he : ¬a.IsEnd) (hd : a.deletes = none)
    (hN : Next σ a σ') : σ'.world.beingDestroyed = σ.world.beingDestroyed := by
  cases hN with
  | call hc hD =>
    rcases hD with rfl | hD
    · rfl
    · rw [show State.world { σ with world := _ } = _ from rfl, hD.beingDestroyed]
      cases a <;> first | rfl | cases hd
  | enter ho hE =>
    cases hE with
    | met hmet hr => rfl
    | ended hend => exact hend.released.sameObjects.beingDestroyed
  | move hst hM => exact absurd hM.isEnd he

/-! ## Marks and counters -/

/-- No signal is marked that its counter calls busy. -/
def State.BusyFree (σ : State) : Prop :=
  ∀ s o, σ.world.sender s = some o → o.activateBusy > 0 → o.addr ∉ σ.world.beingDestroyed

theorem State.BusyFree.next {σ σ' : State} {a : Action} (h : σ.BusyFree) (hP : σ.Placed)
    (hu : Unmarked σ a) (hN : Next σ a σ') : σ'.BusyFree := by
  intro s o' ho' hb' hm
  rcases marked_of_next hN hm with hm0 | ⟨s1, o1, rfl, ho1, he, _, hdead⟩
  · cases hN with
    | call hc hD =>
      rcases hD with rfl | hD
      · exact h s o' ho' hb' hm0
      · rcases hD.old_or_new ho' with ho | ⟨_, addr, _, rfl⟩
        · exact h s o' ho hb' hm0
        · exact absurd hb' (Int.lt_irrefl 0)
    | enter ho hE =>
      cases hE with
      | met hmet hr => exact h s o' ho' hb' hm0
      | ended hend =>
        rw [hend.released.sameObjects.sender] at ho'
        exact h s o' ho' hb' hm0
    | @move a f rest σ' hst hM =>
      have hf : f ∈ σ.stack := by rw [hst]; exact List.mem_cons_self
      have hself : ∀ o n, σ.world.sender f.activation.sender = some o →
          σ'.world.sender = (σ.world.withBusy f.activation.sender o n).sender →
          (o.activateBusy > 0 ∨ f.activation.senderPtr ∉ σ.world.beingDestroyed) → False := by
        intro o n ho hs hor
        rw [hs] at ho'
        by_cases hss : s = f.activation.sender
        · subst hss
          rw [withBusy_self] at ho'
          cases ho'
          rcases hor with hb | hn
          · exact h _ o ho hb hm0
          · exact hn (hP.ptr f hf o ho ▸ hm0)
        · rw [withBusy_ne _ hss] at ho'
          exact h s o' ho' hb' hm0
      cases hM.turn with
      | begun hret hcall ho hst' hact hslot hold hs hb hl =>
        exact hself _ _ ho hs (Or.inr (hu hret f (by rw [hst]; rfl) hcall))
      | @finished o hret hcall ho hst' hs hb hl =>
        by_cases hpos : o.activateBusy > 0
        · exact hself _ _ ho hs (Or.inl hpos)
        · rw [hs] at ho'
          by_cases hss : s = f.activation.sender
          · subst hss
            rw [withBusy_self] at ho'
            cases ho'
            exact absurd hb' (by show ¬o.activateBusy + -1 > 0; omega)
          · rw [withBusy_ne _ hss] at ho'
            exact h s o' ho' hb' hm0
      | stopped hslot hlock hmark hst' hs hb hl => exact h s o' (hs ▸ ho') hb' hm0
      | handling hslot hlock hlive hst' hact hcall hold hs hb hl => exact h s o' (hs ▸ ho') hb' hm0
      | left hthrow hslot hst' hs hb hl => exact h s o' (hs ▸ ho') hb' hm0
  · -- the mark is new, and its signal was the only one at its address
    cases hN with
    | call hc hD =>
      rcases hD with rfl | hD
      · rw [show σ.world.sender s1 = none from hdead] at ho1
        cases ho1
      · rcases hD.old_or_new ho' with ho | ⟨_, addr, hc', _⟩
        · have := hP.apart s s1 o' o1 ho ho1 he.symm
          subst this
          rw [ho'] at hdead
          cases hdead
        · cases hc'
    | move hst hM => exact absurd hM.isEnd id

/-! ## One program, two allocators -/

/-- The marks of the second state, at the addresses that `g` gives, are marks of the
first one, each of another. -/
structure SplitMarks (g : Addr → Addr) (x y : Finset Addr) : Prop where
  mem : ∀ p ∈ y, g p ∈ x
  inj : ∀ p ∈ y, ∀ q ∈ y, g p = g q → p = q

theorem SplitMarks.insert {g : Addr → Addr} {x y : Finset Addr} (h : SplitMarks g x y) {p : Addr}
    (hp : g p ∉ x) : SplitMarks g (insert (g p) x) (insert p y) := by
  refine ⟨fun q hq => ?_, fun q hq q' hq' he => ?_⟩
  · rcases Finset.mem_insert.mp hq with rfl | hq
    · exact Finset.mem_insert_self _ _
    · exact Finset.mem_insert_of_mem (h.mem q hq)
  · rcases Finset.mem_insert.mp hq with rfl | hy <;> rcases Finset.mem_insert.mp hq' with rfl | hy'
    · rfl
    · exact absurd (he ▸ h.mem q' hy') hp
    · exact absurd (he ▸ h.mem q hy) hp
    · exact h.inj q hy q' hy' he

theorem SplitMarks.erase {g : Addr → Addr} {x y : Finset Addr} (h : SplitMarks g x y) {p : Addr}
    (hp : p ∈ y) : SplitMarks g (x.erase (g p)) (y.erase p) := by
  refine ⟨fun q hq => ?_, fun q hq q' hq' => ?_⟩
  · obtain ⟨hne, hq⟩ := Finset.mem_erase.mp hq
    exact Finset.mem_erase.mpr ⟨fun he => hne (h.inj q hq p hp he), h.mem q hq⟩
  · exact h.inj q (Finset.mem_of_mem_erase hq) q' (Finset.mem_of_mem_erase hq')

/-- The program in two memories. In the second one, signals have addresses of their
own where `g` gives different ones the same address in the first. -/
structure Pair (g : Addr → Addr) (σ τ : State) : Prop where
  twin : Twin g σ τ
  marks : SplitMarks g σ.world.beingDestroyed τ.world.beingDestroyed
  inv : σ.Inv ∧ τ.Inv
  placed : σ.Placed ∧ τ.Placed
  marked : σ.Marked ∧ τ.Marked
  busyFree : σ.BusyFree

theorem pair_init (g : Addr → Addr) : Pair g State.init State.init where
  twin := twin_init g
  marks := by constructor <;> simp [State.init]
  inv := ⟨inv_init, inv_init⟩
  placed := ⟨placed_init, placed_init⟩
  marked := ⟨marked_init, marked_init⟩
  busyFree := by simp [State.BusyFree, State.init]

namespace Pair

variable {g : Addr → Addr} {σ τ σ' τ' : State} {b : Action}

theorem unmarked (h : Pair g σ τ) (hu : Unmarked σ (b.merge g)) : Unmarked τ b := by
  intro hret f hf hc hm
  have hret' : (b.merge g).isRet = true := by
    cases b <;> exact hret
  refine hu hret' (f.merge g) ?_ hc (h.marks.mem _ hm)
  rw [h.twin.stack, List.head?_map]
  exact Option.mem_map_of_mem _ hf

theorem inSlots (h : Pair g σ τ) (hin : InSlots σ (b.merge g)) : InSlots τ b := by
  intro f hf hd
  refine hin (f.merge g) ?_ ?_
  · rw [h.twin.stack]
    exact List.mem_map_of_mem hf
  · cases b <;> exact hd

/-- Both states know the same signals for destroyed. -/
theorem sameMark (h : Pair g σ τ) {f : Frame} (hf : f ∈ τ.stack) (hslot : f.call.isSlot = true) :
    Twin.SameMark g σ τ f := by
  have hf' : f.merge g ∈ σ.stack := by
    rw [h.twin.stack]
    exact List.mem_map_of_mem hf
  unfold Twin.SameMark
  rw [h.marked.2.dead hf hslot, ← Option.map_eq_none_iff, ← h.twin.world.sender]
  exact h.marked.1.dead hf' hslot

theorem merge_isEnd (g : Addr → Addr) (b : Action) : (b.merge g).IsEnd ↔ b.IsEnd := by
  cases b <;> rfl

theorem step_marks (h : Pair g σ τ) (hs : step σ (b.merge g) = .ok σ')
    (ht : step τ b = .ok τ') : SplitMarks g σ'.world.beingDestroyed τ'.world.beingDestroyed := by
  obtain ⟨hI, hJ⟩ := h.inv
  obtain ⟨_, hN⟩ := hI.step hs
  obtain ⟨_, hN'⟩ := hJ.step ht
  by_cases he : b.IsEnd
  · rw [h.marked.1.marks_of_end ((merge_isEnd g b).mpr he) hN, h.marked.2.marks_of_end he hN']
    have hst := h.twin.stack
    unfold State.endMarks
    cases hτ : τ.stack with
    | nil =>
      rw [hτ, List.map_nil] at hst
      rw [hst]
      exact h.marks
    | cons f rest =>
      rw [hτ, List.map_cons] at hst
      rw [hst]
      simp only
      by_cases hc : f.call.isSlot = true ∧ f.old_activateBusy = 0
      · rw [if_pos hc, if_pos (show (f.merge g).call.isSlot = true ∧ (f.merge g).old_activateBusy = 0 from hc)]
        have hm := h.sameMark (by rw [hτ]; exact List.mem_cons_self) hc.1
        by_cases hp : f.activation.senderPtr ∈ τ.world.beingDestroyed
        · exact h.marks.erase hp
        · have hp' : (f.merge g).activation.senderPtr ∉ σ.world.beingDestroyed := mt hm.mp hp
          rw [Finset.erase_eq_of_notMem hp, Finset.erase_eq_of_notMem hp']
          exact h.marks
      · rw [if_neg hc, if_neg (show ¬((f.merge g).call.isSlot = true ∧
          (f.merge g).old_activateBusy = 0) from hc)]
        exact h.marks
  · cases hd : b.deletes with
    | none =>
      have hd' : (b.merge g).deletes = none := by cases b <;> exact hd
      rw [marks_of_other (mt (merge_isEnd g b).mp he) hd' hN, marks_of_other he hd hN']
      exact h.marks
    | some s =>
      obtain rfl : b = .deleteSender s := by
        cases b <;> cases hd
        rfl
      obtain ⟨o, ho⟩ := Option.isSome_iff_exists.mp (show (τ.world.sender s).isSome = true from
        legal_of_step ht)
      have ho' : σ.world.sender s = some (o.merge g) := by rw [h.twin.world.sender, ho]; rfl
      rw [marks_of_delete hI ho' hs, marks_of_delete hJ ho ht]
      by_cases hb : o.activateBusy > 0
      · rw [if_pos hb, if_pos (show (o.merge g).activateBusy > 0 from hb)]
        exact h.marks.insert (h.busyFree s _ ho' hb)
      · rw [if_neg hb, if_neg (show ¬(o.merge g).activateBusy > 0 from hb)]
        exact h.marks

/-- What the code does in the first memory, it does in the second one. -/
theorem step (h : Pair g σ τ) (hu : Unmarked σ (b.merge g)) (hin : InSlots σ (b.merge g))
    (hs : CsSignal.step σ (b.merge g) = .ok σ') : ∃ τ', CsSignal.step τ b = .ok τ' ∧ Pair g σ' τ' := by
  have hT := h.twin.step (legal_of_step hs) fun f hf =>
    h.sameMark (List.mem_of_mem_head? hf)
  rw [hs] at hT
  cases ht : CsSignal.step τ b with
  | error e =>
    rw [ht] at hT
    cases hT
  | ok τ' =>
    rw [ht] at hT
    obtain ⟨hI, hJ⟩ := h.inv
    obtain ⟨hI', hN⟩ := hI.step hs
    obtain ⟨hJ', hN'⟩ := hJ.step ht
    obtain ⟨hP, hQ⟩ := h.placed
    cases hT with
    | ok hT =>
      exact ⟨τ', rfl, hT, h.step_marks hs ht, ⟨hI', hJ'⟩,
        ⟨hP.next hI (legal_of_step hs) hN, hQ.next hJ (legal_of_step ht) hN'⟩,
        ⟨h.marked.1.next hI hP hu hin hN,
          h.marked.2.next hJ hQ (h.unmarked hu) (h.inSlots hin) hN'⟩,
        h.busyFree.next hP hu hN⟩

end Pair

/-- A dispatch begins where no mark is, and signals are destroyed by slots. -/
def OwnMark (σ : State) (a : Action) : Prop := Unmarked σ a ∧ InSlots σ a

instance (σ : State) (a : Action) : Decidable (OwnMark σ a) :=
  inferInstanceAs (Decidable (_ ∧ _))

/-- While no dispatch begins on a signal at a marked address, the addresses do not
matter: where the allocator gives any of the signals addresses of their own, the
program does the same, with the same calls. And each activation of a destroyed
signal stops when its slot ends, without looking at any signal, or at any list but
to unlock its guard. -/
theorem emission_independent (g : Addr → Addr) (bs : List Action) {σ : State}
    (hr : run State.init (bs.map (Action.merge g)) = .ok σ)
    (hm : Runs.Meets CsSignal.step OwnMark State.init (bs.map (Action.merge g))) :
    (∃ τ, run State.init bs = .ok τ ∧ τ.calls = σ.calls ∧ Twin g σ τ) ∧
    ∀ f rest a, σ.stack = f :: rest → σ.world.sender f.activation.sender = none → a.IsEnd →
      ∃ l, (σ.world.connectList f.activation.sender).unlock f.activation.guard = .ok l ∧
        step σ a = .ok { State.restore { σ with stack := rest } f.activation with
          world := (connectListOf f.activation.sender).set
            (State.unmarked { σ with stack := rest } f) l } := by
  obtain ⟨τ, ht, h⟩ := Runs.run_follows (f := Action.merge g)
    (fun σ τ b σ' (h : Pair g σ τ) (hc : OwnMark σ (b.merge g)) hs => h.step hc.1 hc.2 hs)
    (pair_init g) hm hr
  exact ⟨⟨τ, ht, h.twin.calls, h.twin⟩, fun f rest a hst hd he => h.marked.1.stops h.inv.1 hst he hd⟩

/-- A slot deletes its signal, and a second signal is made, connected twice and
emitted before the slot returns. -/
def replaced (second : Addr) : List Action :=
  [.newSender 100, .newReceiver,
    .connect .methodSlot 0 (.method 0 (some 1)) 0 (.method 1 (some 1)) .autoConnection false,
    .activate 0 (.method 0 (some 1)), .ret true, .deleteSender 0, .newSender second,
    .connect .methodSlot 1 (.method 0 (some 1)) 0 (.method 1 (some 1)) .autoConnection false,
    .connect .methodSlot 1 (.method 0 (some 1)) 0 (.method 1 (some 1)) .autoConnection false,
    .activate 1 (.method 0 (some 1)), .ret true, .ret true]

/-- The slot returns before the second signal is emitted. -/
def replacedBefore (second : Addr) : List Action :=
  (replaced second).take 9 ++
    [.ret true, .activate 1 (.method 0 (some 1)), .ret true, .ret true, .ret true, .ret true]

/-- The second signal gets the address of the deleted one, and is called like one apart. -/
theorem emission_independent_apart : ∃ τ, run State.init (replacedBefore 101) = .ok τ ∧
    τ.calls = (after (replacedBefore 100)).calls := by
  let g : Addr → Addr := fun x => if x = 101 then 100 else x
  have hmerged : (replacedBefore 101).map (Action.merge g) = replacedBefore 100 := rfl
  obtain ⟨⟨τ, ht, hc, _⟩, _⟩ := emission_independent g (replacedBefore 101)
    (σ := after (replacedBefore 100)) (by rw [hmerged]; exact Runs.run_reached (by decide +kernel))
    (by rw [hmerged]; decide +kernel)
  exact ⟨τ, ht, hc⟩

/-- At the address of the deleted signal, the second one loses a call. -/
theorem emission_independent_reused :
    ¬ ∀ (g : Addr → Addr) (bs : List Action) (σ : State),
      run State.init (bs.map (Action.merge g)) = .ok σ →
      Runs.Meets step InSlots State.init (bs.map (Action.merge g)) →
      ∃ τ, run State.init bs = .ok τ ∧ τ.calls = σ.calls := by
  intro h
  obtain ⟨τ, ht, hc⟩ := h (fun x => if x = 101 then 100 else x) (replaced 101) _
    (Runs.run_reached (by decide +kernel)) (by decide +kernel)
  have hτ : run State.init (replaced 101) = .ok (after (replaced 101)) :=
    Runs.run_reached (by decide +kernel)
  rw [hτ, Except.ok.injEq] at ht
  subst ht
  exact absurd hc (by decide +kernel)

end CsSignal
