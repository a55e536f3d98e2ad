-- An emission reaches every connection. Its iterator stands on a node that its
-- own slots may erase, append after and walk over again; what is proved here is
-- that no connection which stays is lost, and none is reached twice.
import CsSignal.Invariant

namespace CsSignal

open LinkedCells Calls RcuList

/-! ## What a step leaves of a list that is being walked -/

/-- The list of a signal after one step of the program, while an iterator stands
in it: cells stay, and a node that is not in the list keeps its pointer. -/
structure Kept (l l' : RcuList ConnectStruct) : Prop where
  count : l.nodeCount ≤ l'.nodeCount
  old : ∀ x ∈ l'.toList, x.1 < l.nodeCount → x ∈ l.toList
  cells : ∀ n c, l.node n = some c →
    ∃ c', l'.node n = some c' ∧ c'.data = c.data ∧ (n ∉ ids l'.toList → c'.next = c.next)

theorem Kept.refl (l : RcuList ConnectStruct) : Kept l l :=
  ⟨Nat.le_refl _, fun _ hx _ => hx, fun _ c hc => ⟨c, hc, rfl, fun _ => rfl⟩⟩

theorem Kept.of_same {l l' : RcuList ConnectStruct} (hl : l'.toList = l.toList)
    (hc : l'.nodeCount = l.nodeCount) (hn : l'.node = l.node) : Kept l l' :=
  ⟨Nat.le_of_eq hc.symm, fun x hx _ => hl ▸ hx, fun _ c hc => ⟨c, by rw [hn, hc], rfl, fun _ => rfl⟩⟩

theorem Kept.of_listStep {l l' : RcuList ConnectStruct} {cs : List Cursor} (h : ListStep l l')
    (hg : Guarded l cs) (hne : cs ≠ []) : Kept l l' :=
  ⟨h.count, h.old, h.cells cs hg hne⟩

/-- The iterators of the calls that are still running after the step. -/
def staying (σ : State) (a : Action) (s : SenderId) : List Cursor :=
  match a with
  | .ret _ => cursorsOf σ.stack.tail s
  | .throw => cursorsOf σ.stack.tail s
  | _ => cursorsOf σ.stack s

/-- The list of a signal that lives on: its entries from before are still those
from before, less those that the action removes, and it is kept when another
iterator stands in it. -/
structure StepOn (σ σ' : State) (a : Action) (s : SenderId) : Prop where
  count : (σ.world.connectList s).nodeCount ≤ (σ'.world.connectList s).nodeCount
  old : ∀ x ∈ (σ'.world.connectList s).toList, x.1 < (σ.world.connectList s).nodeCount →
    x ∈ (σ.world.connectList s).toList
  stays : ∀ x ∈ (σ.world.connectList s).toList, a.removes s x.2 = false →
    x ∈ (σ'.world.connectList s).toList
  kept : staying σ a s ≠ [] → Kept (σ.world.connectList s) (σ'.world.connectList s)

theorem StepOn.of_kept {σ σ' : State} {a : Action} {s : SenderId}
    (h : Kept (σ.world.connectList s) (σ'.world.connectList s))
    (hl : ∀ x ∈ (σ.world.connectList s).toList, x ∈ (σ'.world.connectList s).toList) :
    StepOn σ σ' a s :=
  ⟨h.count, h.old, fun x hx _ => hl x hx, fun _ => h⟩

theorem StepOn.of_eq {σ σ' : State} {a : Action} {s : SenderId}
    (h : σ'.world.connectList s = σ.world.connectList s) : StepOn σ σ' a s :=
  .of_kept (h ▸ .refl _) fun _ hx => h ▸ hx

/-- An unlock, in a world whose lists are those of `σ`. -/
theorem StepOn.of_released {σ σ' : State} {a : Action} {s s' : SenderId} {g : Nat} {w : World}
    {cursors : SenderId → List Cursor} (hw : w.connectList = σ.world.connectList)
    (hs : (σ'.world.sender s).isSome = true) (h : Released s' g cursors w σ'.world)
    (hc : staying σ a s = cursors s) : StepOn σ σ' a s := by
  by_cases hss : s = s'
  · subst hss
    obtain ⟨hl, hn⟩ := h.live (h.sameObjects.sender ▸ hs)
    rw [hw] at hl hn
    refine ⟨Nat.le_of_eq hn.symm, fun x hx _ => hl ▸ hx, fun x hx _ => hl.symm ▸ hx,
      fun hne => .of_same hl hn ?_⟩
    rw [h.node (hc ▸ hne), hw]
  · exact .of_eq (by rw [h.others hss, hw])

theorem staying_call {σ : State} {a : Action} (hc : a.IsCall) (s : SenderId) :
    staying σ a s = cursorsOf σ.stack s := by
  cases a <;> first | rfl | exact absurd hc id

theorem staying_end {σ : State} {a : Action} (he : a.IsEnd) {f : Frame} {rest : List Frame}
    (hst : σ.stack = f :: rest) (s : SenderId) : staying σ a s = cursorsOf rest s := by
  cases a <;> first | exact absurd he id | rw [staying, hst]; rfl

theorem Next.stepOn {σ σ' : State} {a : Action} (h : σ.Inv) (hN : Next σ a σ') {s : SenderId}
    (hs : (σ.world.sender s).isSome = true) (hs' : (σ'.world.sender s).isSome = true) :
    StepOn σ σ' a s := by
  cases hN with
  | call hc hD =>
    rcases hD with rfl | hD
    · exact .of_eq rfl
    · have hstep := hD.lists s hs hs'
      refine ⟨hstep.count, hstep.old, fun x hx hr => hD.kept s x hs hs' hx hr, fun hne => ?_⟩
      rw [staying_call hc] at hne
      exact .of_listStep hstep (h.memory.lists s hs) hne
  | @enter s0 o sig σ' ho hE =>
    have hget : ∀ s, s ≠ s0 →
        (σ.entered s0 sig).world.connectList s = σ.world.connectList s := fun s hss =>
      Function.update_of_ne hss _ _
    have hself : (σ.entered s0 sig).world.connectList s0 =
        (σ.world.connectList s0).rcuReadLock.2 := (connectListOf s0).get_set _ _
    have hlock : ((σ.world.connectList s).rcuReadLock.2).toList =
        (σ.world.connectList s).toList := (h.memory.lists s hs).lock.2
    cases hE with
    | met hmet hr =>
      by_cases hss : s = s0
      · have hcur : ((σ.entered s0 sig).world.connectList s) =
            (σ.world.connectList s).rcuReadLock.2 := by rw [hss, hself]
        apply StepOn.of_kept
        · show Kept _ ((σ.entered s0 sig).world.connectList s)
          rw [hcur]
          exact .of_same hlock rfl rfl
        · intro x hx
          show x ∈ ((σ.entered s0 sig).world.connectList s).toList
          rw [hcur, hlock]
          exact hx
      · exact .of_eq (hget s hss)
    | @ended w' hend =>
      by_cases hss : s = s0
      · subst hss
        obtain ⟨hl, hn⟩ := hend.released.live (hend.released.sameObjects.sender ▸ hs')
        have hnode := hend.released.node
        rw [show (σ.entering s o sig).sender = s from rfl, hself] at hl hn hnode
        refine ⟨Nat.le_of_eq hn.symm, fun x hx _ => ?_, fun x hx _ => ?_, fun hne => ?_⟩
        · rw [← hlock, ← hl]
          exact hx
        · rw [← hlock, ← hl] at hx
          exact hx
        · exact .of_same (hl.trans hlock) hn (hnode hne)
      · exact .of_eq ((hend.released.others hss).trans (hget s hss))
  | @move a f rest σ' hst hM =>
    have hstay := staying_end hM.isEnd hst s
    obtain ⟨h1, _, _, _, _, _, h7, _⟩ := resumed_fields { σ with stack := rest } f
    cases hM with
    | dispatched => exact .of_eq rfl
    | next hcall hfree ho hstep hmet hr => exact .of_eq (congrFun h7 s)
    | @ended b o c w' hcall hfree ho hstep hend =>
      exact .of_released (w := State.lessBusy { σ with stack := rest } f o) h7 hs' hend.released
        hstay
    | stopped hend hcall hlock hmark hrel =>
      exact .of_released (w := State.unmarked { σ with stack := rest } f)
        (unmarked_sameLists _ f).connectList hs' hrel hstay
    | handling => exact .of_eq rfl
    | left hcall hrel => exact .of_released rfl hs' hrel hstay
    | handlerLeft hcall hrel =>
      exact .of_released (w := { σ.world with destroyedLocked := false }) rfl hs' hrel
        hstay

/-! ## Addresses -/

/-- No two live signals share an address, and an activation in progress knows
the address of its signal. -/
structure State.Placed (σ : State) : Prop where
  apart : ∀ s s' o o', σ.world.sender s = some o → σ.world.sender s' = some o' →
    o.addr = o'.addr → s = s'
  ptr : ∀ f ∈ σ.stack, ∀ o, σ.world.sender f.activation.sender = some o →
    o.addr = f.activation.senderPtr

theorem placed_init : State.init.Placed where
  apart s s' o o' h := by cases h
  ptr := by simp [State.init]

/-- The signals of a state are those of the old one, at their addresses. -/
def SameAddrs (w w' : World) : Prop :=
  ∀ s o', w'.sender s = some o' → ∃ o, w.sender s = some o ∧ o.addr = o'.addr

theorem State.Placed.of_sameAddrs {σ σ' : State} (h : σ.Placed)
    (hs : SameAddrs σ.world σ'.world)
    (hst : ∀ f ∈ σ'.stack, (∃ g ∈ σ.stack, f.activation = g.activation) ∨
      ∀ o, σ'.world.sender f.activation.sender = some o → o.addr = f.activation.senderPtr) :
    σ'.Placed := by
  refine ⟨fun s s' o o' ho ho' he => ?_, fun f hf o ho => ?_⟩
  · obtain ⟨o1, ho1, he1⟩ := hs s o ho
    obtain ⟨o2, ho2, he2⟩ := hs s' o' ho'
    exact h.apart s s' o1 o2 ho1 ho2 (he1.trans (he.trans he2.symm))
  · rcases hst f hf with ⟨g, hg, hact⟩ | hnew
    · obtain ⟨o1, ho1, he1⟩ := hs _ o ho
      rw [hact] at ho1 ⊢
      rw [← he1]
      exact h.ptr g hg o1 ho1
    · exact hnew o ho

theorem SameAddrs.of_eq {w w' : World} (h : w'.sender = w.sender) : SameAddrs w w' :=
  fun _ o ho => ⟨o, h ▸ ho, rfl⟩

theorem sameAddrs_withBusy {w : World} {s : SenderId} {o : SignalBase} (ho : w.sender s = some o)
    (n : Int) : SameAddrs w (w.withBusy s o n) := by
  intro s' o' ho'
  by_cases hss : s' = s
  · subst hss
    rw [withBusy_self, Option.some.injEq] at ho'
    subst ho'
    exact ⟨o, ho, rfl⟩
  · rw [withBusy_ne _ hss] at ho'
    exact ⟨o', ho', rfl⟩

theorem sameAddrs_lessBusy {σ : State} {f : Frame} {o : SignalBase}
    (ho : σ.world.sender f.activation.sender = some o) : SameAddrs σ.world (σ.lessBusy f o) := by
  obtain ⟨_, _, _, _, _, h6, _⟩ := resumed_fields σ f
  have := sameAddrs_withBusy (w := (σ.resumed f).world) (s := f.activation.sender) (o := o)
    (by rw [h6, ho]) (o.activateBusy + -1)
  intro s o' ho'
  obtain ⟨o1, ho1, he⟩ := this s o' ho'
  exact ⟨o1, h6 ▸ ho1, he⟩

theorem Move.sameAddrs {σ σ' : State} {a : Action} {f : Frame} (hM : Move σ f a σ') :
    SameAddrs σ.world σ'.world := by
  have hrel : ∀ {w w' : World} {s g} {cur}, Released s g cur w w' → SameAddrs σ.world w →
      SameAddrs σ.world w' := fun h hw s o ho => hw s o (h.sameObjects.sender ▸ ho)
  cases hM with
  | dispatched hcall ho hc hr => exact sameAddrs_withBusy ho _
  | next hcall hfree ho hstep hmet hr => exact sameAddrs_lessBusy ho
  | ended hcall hfree ho hstep hend => exact hrel hend.released (sameAddrs_lessBusy ho)
  | stopped hend hcall hlock hmark hr =>
    refine hrel hr (.of_eq ?_)
    unfold State.unmarked
    split <;> rfl
  | handling => exact .of_eq rfl
  | left hcall hr => exact hrel hr (.of_eq rfl)
  | handlerLeft hcall hr => exact hrel hr (.of_eq rfl)

/-- The stack after a move: the innermost activation went on, or ended. -/
theorem Move.stack {σ σ' : State} {a : Action} {f : Frame} (hM : Move σ f a σ') :
    σ'.stack = σ.stack ∨ ∃ f', σ'.stack = f' :: σ.stack ∧ f'.activation = f.activation := by
  obtain ⟨h1, _⟩ := resumed_fields σ f
  cases hM with
  | dispatched => exact Or.inr ⟨_, rfl, rfl⟩
  | next => exact Or.inr ⟨_, congrArg _ h1, rfl⟩
  | ended => exact Or.inl h1
  | stopped => exact Or.inl rfl
  | handling => exact Or.inr ⟨_, rfl, rfl⟩
  | left => exact Or.inl rfl
  | handlerLeft => exact Or.inl rfl

theorem free_addr {σ : State} (h : σ.Inv) {addr : Addr} (hf : σ.world.Free addr) {s : SenderId}
    {o : SignalBase} (ho : σ.world.sender s = some o) : o.addr ≠ addr := by
  intro he
  have := hf s (h.memory.senderBound s (by rw [ho]; rfl))
  rw [ho] at this
  exact this (congrArg some he)

theorem State.Placed.next {σ σ' : State} {a : Action} (h : σ.Placed) (hI : σ.Inv)
    (hl : a.Legal σ.world) (hN : Next σ a σ') : σ'.Placed := by
  cases hN with
  | @call a w' hc hD =>
    rcases hD with rfl | hD
    · exact h
    · by_cases hnew : ∃ addr, a = .newSender addr
      · obtain ⟨addr, rfl⟩ := hnew
        have hfree : σ.world.Free addr := hl
        have hcase : ∀ s o, w'.sender s = some o →
            σ.world.sender s = some o ∨ s = σ.world.senderCount ∧ o.addr = addr := by
          intro s o ho
          cases hs : σ.world.sender s with
          | some o1 =>
            rcases hD.survive s o1 hs with h1 | ⟨_, h2⟩
            · rw [ho] at h1
              exact Or.inl h1.symm
            · cases h2
          | none =>
            rcases hD.gone s hs with ⟨h1, _⟩ | ⟨h1, addr', h2, h3⟩
            · rw [ho] at h1
              cases h1
            · cases h2
              rw [ho, Option.some.injEq] at h3
              exact Or.inr ⟨h1, by rw [h3]⟩
        refine ⟨fun s s' o o' ho ho' he => ?_, fun f hf o ho => ?_⟩
        · rcases hcase s o ho with h1 | ⟨h1, h2⟩ <;> rcases hcase s' o' ho' with h3 | ⟨h3, h4⟩
          · exact h.apart s s' o o' h1 h3 he
          · exact absurd (he.trans h4) (free_addr hI hfree h1)
          · exact absurd (he.symm.trans h2) (free_addr hI hfree h3)
          · rw [h1, h3]
        · rcases hcase _ o ho with h1 | ⟨h1, _⟩
          · exact h.ptr f hf o h1
          · exact absurd (h1 ▸ hI.known f hf) (Nat.lt_irrefl _)
      · refine h.of_sameAddrs (fun s o' ho' => ?_) fun f hf => Or.inl ⟨f, hf, rfl⟩
        cases hs : σ.world.sender s with
        | some o =>
          rcases hD.survive s o hs with h1 | ⟨h1, _⟩
          · rw [show w'.sender s = some o' from ho', Option.some.injEq] at h1
            exact ⟨o, rfl, by rw [h1]⟩
          · rw [show w'.sender s = some o' from ho'] at h1
            cases h1
        | none =>
          rcases hD.gone s hs with ⟨h1, _⟩ | ⟨_, addr, h2, _⟩
          · rw [show w'.sender s = some o' from ho'] at h1
            cases h1
          · exact absurd ⟨addr, h2⟩ hnew
  | @enter s o sig σ' ho hE =>
    cases hE with
    | met hmet hr =>
      refine h.of_sameAddrs (.of_eq rfl) fun f hf => ?_
      rcases List.mem_cons.mp hf with rfl | hf
      · refine Or.inr fun o' ho' => ?_
        have ho1 : σ.world.sender s = some o' := ho'
        rw [ho, Option.some.injEq] at ho1
        rw [← ho1]
        rfl
      · exact Or.inl ⟨f, hf, rfl⟩
    | ended hend =>
      refine h.of_sameAddrs (.of_eq ?_) fun f hf => Or.inl ⟨f, hf, rfl⟩
      exact hend.released.sameObjects.sender
  | move hst hM =>
    refine h.of_sameAddrs hM.sameAddrs fun g hg => Or.inl ?_
    rcases hM.stack with h1 | ⟨f', h1, h2⟩
    · rw [h1] at hg
      exact ⟨g, by rw [hst]; exact List.mem_cons_of_mem _ hg, rfl⟩
    · rw [h1] at hg
      rcases List.mem_cons.mp hg with rfl | hg
      · exact ⟨_, by rw [hst]; exact List.mem_cons_self, h2⟩
      · exact ⟨g, by rw [hst]; exact List.mem_cons_of_mem _ hg, rfl⟩

/-! ## What stays as it is -/

theorem Move.senderCount {σ σ' : State} {a : Action} {f : Frame} (hM : Move σ f a σ') :
    σ'.world.senderCount = σ.world.senderCount := by
  obtain ⟨_, _, _, _, h5, _⟩ := resumed_fields σ f
  cases hM with
  | dispatched => rfl
  | next => exact h5
  | ended hcall hfree ho hstep hend => exact hend.released.sameObjects.senderCount.trans h5
  | stopped hend hcall hlock hmark hrel =>
    exact hrel.sameObjects.senderCount.trans (unmarked_sameLists _ f).senderCount
  | handling => rfl
  | left hcall hrel => exact hrel.sameObjects.senderCount
  | handlerLeft hcall hrel => exact hrel.sameObjects.senderCount

theorem Next.senderCount {σ σ' : State} {a : Action} (hN : Next σ a σ') :
    σ.world.senderCount ≤ σ'.world.senderCount := by
  cases hN with
  | call hc hD =>
    rcases hD with rfl | hD
    · exact Nat.le_refl _
    · exact hD.senderCount
  | enter ho hE =>
    cases hE with
    | met => exact Nat.le_refl _
    | ended hend => exact Nat.le_of_eq hend.released.sameObjects.senderCount.symm
  | move hst hM => exact Nat.le_of_eq hM.senderCount.symm

theorem dead_of_next {σ σ' : State} {a : Action} (hN : Next σ a σ') {s : SenderId}
    (hs : s < σ.world.senderCount) (hdead : σ.world.sender s = none) :
    σ'.world.sender s = none := by
  have hold : SameAddrs σ.world σ'.world → σ'.world.sender s = none := by
    intro h
    cases hs' : σ'.world.sender s with
    | none => rfl
    | some o' =>
      obtain ⟨o, ho, _⟩ := h s o' hs'
      rw [hdead] at ho
      cases ho
  cases hN with
  | call hc hD =>
    rcases hD with rfl | hD
    · exact hdead
    · rcases hD.gone s hdead with ⟨h, _⟩ | ⟨h, _⟩
      · exact h
      · exact absurd (h ▸ hs) (Nat.lt_irrefl _)
  | enter ho hE =>
    cases hE with
    | met hmet hr => exact hdead
    | ended hend => exact (congrFun hend.released.sameObjects.sender s).trans hdead
  | move hst hM => exact hold (by exact hM.sameAddrs)

theorem lessBusy_sameLists {σ : State} {f : Frame} {o : SignalBase}
    (ho : σ.world.sender f.activation.sender = some o) (s : SenderId) :
    ((σ.lessBusy f o).sender s).isSome = (σ.world.sender s).isSome := by
  obtain ⟨_, _, _, _, _, h6, _⟩ := resumed_fields σ f
  have := (withBusy_sameLists (w := (σ.resumed f).world) (s := f.activation.sender) (o := o)
    (by rw [h6, ho]) (o.activateBusy + -1)).sender s
  rw [h6] at this
  exact this

/-- A signal that nobody destroys lives on. -/
theorem live_of_next {σ σ' : State} {a : Action} (hN : Next σ a σ')
    (ha : a.deletes = none) {s : SenderId} (hs : (σ.world.sender s).isSome = true) :
    (σ'.world.sender s).isSome = true := by
  have hrel : ∀ {w w' : World} {s' g} {cur}, Released s' g cur w w' →
      (w.sender s).isSome = true → (w'.sender s).isSome = true := fun h hw => by
    rw [h.sameObjects.sender]
    exact hw
  cases hN with
  | call hc hD =>
    rcases hD with rfl | hD
    · exact hs
    · obtain ⟨o, ho⟩ := Option.isSome_iff_exists.mp hs
      rcases hD.survive s o ho with h | ⟨_, rfl⟩
      · show (World.sender _ s).isSome = true
        rw [h]
        rfl
      · cases ha
  | enter ho hE =>
    cases hE with
    | met hmet hr => exact hs
    | ended hend => exact hrel hend.released hs
  | @move a f rest σ' hst hM =>
    cases hM with
    | dispatched hcall ho hc hr => exact ((withBusy_sameLists ho _).sender s).trans hs
    | next hcall hfree ho hstep hmet hr => exact (lessBusy_sameLists ho s).trans hs
    | ended hcall hfree ho hstep hend =>
      exact hrel hend.released ((lessBusy_sameLists ho s).trans hs)
    | stopped hend hcall hlock hmark hr =>
      exact hrel hr (((unmarked_sameLists _ _).sender s).trans hs)
    | handling => exact hs
    | left hcall hr => exact hrel hr hs
    | handlerLeft hcall hr => exact hrel hr hs

/-- A call in progress was in progress before the step, or its signal lives. -/
theorem Next.stack {σ σ' : State} {a : Action} (hN : Next σ a σ') {g : Frame}
    (hg : g ∈ σ'.stack) :
    (g ∈ σ.stack ∧ g.cursor ∈ staying σ a g.activation.sender) ∨
      (σ'.world.sender g.activation.sender).isSome = true := by
  cases hN with
  | call hc hD =>
    refine Or.inl ⟨hg, ?_⟩
    rw [staying_call hc]
    exact mem_cursorsOf hg
  | @enter s o sig σ' ho hE =>
    cases hE with
    | met hmet hr =>
      rcases List.mem_cons.mp hg with rfl | hg
      · exact Or.inr (Option.isSome_of_mem ho)
      · exact Or.inl ⟨hg, mem_cursorsOf hg⟩
    | ended hend => exact Or.inl ⟨hg, mem_cursorsOf hg⟩
  | @move a f rest σ' hst hM =>
    have hrest : g ∈ rest → (g ∈ σ.stack ∧ g.cursor ∈ staying σ a g.activation.sender) ∨
        (σ'.world.sender g.activation.sender).isSome = true := by
      intro hr
      refine Or.inl ⟨by rw [hst]; exact List.mem_cons_of_mem _ hr, ?_⟩
      rw [staying_end hM.isEnd hst]
      exact mem_cursorsOf hr
    have hlive : ∀ {o}, σ.world.sender f.activation.sender = some o →
        (σ'.world.sender f.activation.sender).isSome = true := by
      intro o ho
      apply live_of_next (.move hst hM)
      · cases a <;> first | rfl | exact absurd hM.isEnd id
      · exact Option.isSome_of_mem ho
    obtain ⟨h1, _⟩ := resumed_fields { σ with stack := rest } f
    cases hM with
    | dispatched _ ho | handling _ _ _ ho =>
      rcases List.mem_cons.mp hg with rfl | hg
      · exact Or.inr (hlive ho)
      · exact hrest hg
    | next _ _ ho =>
      rcases List.mem_cons.mp hg with rfl | hg
      · exact Or.inr (hlive ho)
      · exact hrest ((congrArg (g ∈ ·) h1).mp hg)
    | ended => exact hrest ((congrArg (g ∈ ·) h1).mp hg)
    | stopped | left | handlerLeft => exact hrest hg

/-- The nodes of a destroyed signal stay as long as another of its activations does. -/
theorem Next.node_dead {σ σ' : State} {a : Action} (hN : Next σ a σ') {s : SenderId}
    (hk : s < σ.world.senderCount) (hd : σ.world.sender s = none) (hne : staying σ a s ≠ []) :
    (σ'.world.connectList s).node = (σ.world.connectList s).node := by
  have hrel : ∀ {s' g} {cur : SenderId → List Cursor} {w w' : World}, Released s' g cur w w' →
      cur s = staying σ a s → (w'.connectList s).node = (w.connectList s).node := by
    intro s' g cur w w' h hc
    by_cases hss : s = s'
    · subst hss
      exact h.node (hc ▸ hne)
    · rw [h.others hss]
  have heq : ∀ {l l' : RcuList ConnectStruct}, l = l' → l.node = l'.node := by
    rintro l _ rfl
    rfl
  cases hN with
  | call hc hD =>
    rcases hD with rfl | hD
    · rfl
    · rcases hD.gone s hd with ⟨_, h2⟩ | ⟨h1, _⟩
      · exact heq h2
      · exact absurd (h1 ▸ hk) (Nat.lt_irrefl _)
  | @enter s0 o sig σ' ho hE =>
    have hss : s ≠ s0 := by
      rintro rfl
      rw [hd] at ho
      cases ho
    have hget : (σ.entered s0 sig).world.connectList s = σ.world.connectList s :=
      Function.update_of_ne hss _ _
    cases hE with
    | met hmet hr => exact heq hget
    | ended hend => exact heq ((hend.released.others hss).trans hget)
  | @move a f rest σ' hst hM =>
    have hstay := staying_end hM.isEnd hst s
    obtain ⟨_, _, _, _, _, _, h7, _⟩ := resumed_fields { σ with stack := rest } f
    cases hM with
    | dispatched | handling => rfl
    | next => exact heq (congrFun h7 s)
    | ended hcall hfree ho hstep hend =>
      exact (hrel hend.released hstay.symm).trans (heq (congrFun h7 s))
    | stopped hend hslot hlk hmark hr =>
      rw [hrel hr hstay.symm, (unmarked_sameLists _ _).connectList]
    | left hcall hr | handlerLeft hcall hr => exact (hrel hr hstay.symm).trans rfl

/-- An address gets marked only when a signal there is destroyed. -/
theorem marked_of_next {σ σ' : State} {a : Action} (hN : Next σ a σ') {addr : Addr}
    (hm : addr ∈ σ'.world.beingDestroyed) : addr ∈ σ.world.beingDestroyed ∨
      ∃ s o, a = .deleteSender s ∧ σ.world.sender s = some o ∧ o.addr = addr ∧
        o.activateBusy > 0 ∧ σ'.world.sender s = none := by
  cases hN with
  | @call a w' hc hD =>
    rcases hD with rfl | hD
    · exact Or.inl hm
    · rw [show State.world { σ with world := w' } = w' from rfl, hD.beingDestroyed] at hm
      unfold Action.marks at hm
      split at hm
      · rename_i s
        split at hm
        · rename_i o ho
          split at hm
          · rename_i hb
            rcases Finset.mem_insert.mp hm with rfl | hm
            · exact Or.inr ⟨s, o, rfl, ho, rfl, hb, hD.deleted s rfl⟩
            · exact Or.inl hm
          · exact Or.inl hm
        · exact Or.inl hm
      · exact Or.inl hm
  | enter ho hE =>
    cases hE with
    | met hmet hr => exact Or.inl hm
    | ended hend => exact Or.inl (hend.released.sameObjects.beingDestroyed ▸ hm)
  | @move a f rest σ' hst hM =>
    refine Or.inl ?_
    obtain ⟨_, _, _, _, _, _, _, h8⟩ := resumed_fields { σ with stack := rest } f
    cases hM with
    | dispatched => exact hm
    | @next b o c c' n hcall hfree ho hstep hmet hr => exact (congrArg (addr ∈ ·) h8).mp hm
    | ended hcall hfree ho hstep hend =>
      have := hend.released.sameObjects.beingDestroyed
      exact (congrArg (addr ∈ ·) (this.trans h8)).mp hm
    | stopped hend hcall hlock hmark hrel =>
      have := (congrArg (addr ∈ ·) hrel.sameObjects.beingDestroyed).mp hm
      unfold State.unmarked at this
      split at this
      · exact Finset.mem_of_mem_erase this
      · exact this
    | handling => exact hm
    | left hcall hrel => exact (congrArg (addr ∈ ·) hrel.sameObjects.beingDestroyed).mp hm
    | handlerLeft hcall hrel => exact (congrArg (addr ∈ ·) hrel.sameObjects.beingDestroyed).mp hm

/-! ## The calls of a step -/

/-- What `activate` called in the step from one state to the other. -/
def newCalls (σ σ' : State) : List CallRecord := σ'.calls.drop σ.calls.length

theorem mem_newCalls_push {σ σ' : State} (h : σ'.calls = σ.calls) {f : Frame} {c : ConnectStruct}
    {e : CallRecord} (he : e ∈ newCalls σ (σ'.push f c)) :
    e = ⟨f.activation.id, f.activation.sender, f.iter, c, f.call⟩ := by
  unfold newCalls State.push at he
  rw [h, List.drop_left] at he
  exact List.mem_singleton.mp he

theorem not_mem_newCalls {σ σ' : State} (h : σ'.calls = σ.calls) (e : CallRecord) :
    e ∉ newCalls σ σ' := by
  unfold newCalls
  rw [h, List.drop_length]
  exact List.not_mem_nil

/-! ## The progress of one activation -/

/-- The slot calls of an activation, in order. -/
def State.dispatches (σ : State) (id : Nat) : List CallRecord :=
  σ.calls.filter fun e => e.activation == id && e.call.isSlot

theorem dispatches_congr {σ σ' : State} (h : σ'.calls = σ.calls) (id : Nat) :
    σ'.dispatches id = σ.dispatches id := by rw [State.dispatches, h, State.dispatches]

theorem dispatches_push {σ : State} {f : Frame} {c : ConnectStruct} {id : Nat}
    (h : ¬(f.activation.id = id ∧ f.call.isSlot = true)) :
    (σ.push f c).dispatches id = σ.dispatches id := by
  rw [State.dispatches, State.push, List.filter_append, State.dispatches]
  have : ([⟨f.activation.id, f.activation.sender, f.iter, c, f.call⟩] : List CallRecord).filter
      (fun e => e.activation == id && e.call.isSlot) = [] := by
    rw [List.filter_eq_nil_iff]
    intro e he hc
    rw [List.mem_singleton.mp he] at hc
    exact h (by simpa using hc)
  simp only [this, List.append_nil]

theorem dispatches_push_self {σ : State} {f : Frame} {c : ConnectStruct}
    (h : f.call.isSlot = true) :
    (σ.push f c).dispatches f.activation.id = σ.dispatches f.activation.id ++
      [⟨f.activation.id, f.activation.sender, f.iter, c, f.call⟩] := by
  rw [State.dispatches, State.push, List.filter_append, State.dispatches]
  simp [h]

/-- The nodes that an activation called the slots of, in order. -/
def State.reachedNodes (σ : State) (id : Nat) : List Nat := (σ.dispatches id).map (·.node)

/-- An activation that waits for the call `f`: it has called the wanted
connections before its iterator, and no other. -/
structure Underway (σ : State) (act : Activation) (f : Frame) : Prop where
  same : f.activation = act
  below : ∀ n ∈ σ.reachedNodes act.id, n ≤ f.iter ∧ (f.call = .compareThreads → n < f.iter)
  done : ∀ x ∈ (σ.world.connectList act.sender).toList, act.wants x.2 = true → x.1 < act.start →
    (x.1 < f.iter ∨ x.1 = f.iter ∧ f.call ≠ .compareThreads) → x.1 ∈ σ.reachedNodes act.id
  cell : ∃ c, (σ.world.connectList act.sender).node f.iter = some c ∧ act.wants c.data = true

/-- An activation that runs or has ended, on a signal that lives on. -/
structure Progress (σ : State) (act : Activation) : Prop where
  live : ∃ o, σ.world.sender act.sender = some o ∧ o.addr = act.senderPtr
  started : act.start ≤ (σ.world.connectList act.sender).nodeCount
  numbered : act.id < σ.activationCount
  sorted : (σ.reachedNodes act.id).Pairwise (· < ·)
  wanted : ∀ e ∈ σ.dispatches act.id, act.wants e.connection = true
  running : ∀ f ∈ σ.stack, f.activation.id = act.id → Underway σ act f
  ended : (∀ f ∈ σ.stack, f.activation.id ≠ act.id) →
    ∀ x ∈ (σ.world.connectList act.sender).toList, act.wants x.2 = true → x.1 < act.start →
      x.1 ∈ σ.reachedNodes act.id

/-- The calls of an activation after a step that does not concern it. -/
theorem Progress.keep {σ σ' : State} {a : Action} {act : Activation} (h : Progress σ act)
    (hlive : ∃ o, σ'.world.sender act.sender = some o ∧ o.addr = act.senderPtr)
    (hstep : StepOn σ σ' a act.sender)
    (hn : σ.activationCount ≤ σ'.activationCount)
    (hd : σ'.dispatches act.id = σ.dispatches act.id)
    (hst : ∀ f ∈ σ'.stack, f.activation.id = act.id →
      f ∈ σ.stack ∧ f.cursor ∈ staying σ a f.activation.sender)
    (hst' : ∀ f ∈ σ.stack, f.activation.id = act.id → f ∈ σ'.stack) : Progress σ' act := by
  have hr : σ'.reachedNodes act.id = σ.reachedNodes act.id := congrArg _ hd
  have hin : ∀ x ∈ (σ'.world.connectList act.sender).toList, x.1 < act.start →
      x ∈ (σ.world.connectList act.sender).toList := fun x hx hlt =>
    hstep.old x hx (Nat.lt_of_lt_of_le hlt h.started)
  refine ⟨hlive, Nat.le_trans h.started hstep.count, Nat.lt_of_lt_of_le h.numbered hn,
    hr ▸ h.sorted, hd ▸ h.wanted, fun f hf hid => ?_, fun hend x hx hp hlt => ?_⟩
  · obtain ⟨hf0, hcur⟩ := hst f hf hid
    have hu := h.running f hf0 hid
    have hk := hstep.kept (by rw [hu.same] at hcur; exact List.ne_nil_of_mem hcur)
    obtain ⟨c, hc, hw⟩ := hu.cell
    obtain ⟨c', hc', hd', _⟩ := hk.cells f.iter c hc
    exact ⟨hu.same, hr ▸ hu.below, fun x hx hp hlt hpos => hr ▸ hu.done x (hin x hx hlt) hp hlt hpos,
      c', hc', hd' ▸ hw⟩
  · rw [hr]
    exact h.ended (fun f hf hid => hend f (hst' f hf hid) hid) x (hin x hx hlt) hp hlt

theorem addr_of_next {σ σ' : State} {a : Action} (hN : Next σ a σ') {s : SenderId}
    {o o' : SignalBase} (ho : σ.world.sender s = some o) (ho' : σ'.world.sender s = some o') :
    o'.addr = o.addr := by
  have hold : SameAddrs σ.world σ'.world → o'.addr = o.addr := by
    intro h
    obtain ⟨o1, ho1, he⟩ := h s o' ho'
    rw [ho, Option.some.injEq] at ho1
    rw [ho1, he]
  cases hN with
  | @call a w' hc hD =>
    rcases hD with rfl | hD
    · exact hold (.of_eq rfl)
    · rcases hD.survive s o ho with h1 | ⟨h1, _⟩
      · rw [show w'.sender s = some o' from ho', Option.some.injEq] at h1
        rw [h1]
      · rw [show w'.sender s = some o' from ho'] at h1
        cases h1
  | enter _ hE =>
    cases hE with
    | met hmet hr => exact hold (.of_eq rfl)
    | ended hend => exact hold (.of_eq hend.released.sameObjects.sender)
  | move hst hM => exact hold (by exact hM.sameAddrs)

/-- The default `handleException` returns at once, and `compareThreads` does not throw. -/
def Undisturbed (σ : State) (a : Action) : Prop :=
  ∀ f ∈ σ.stack.head?, (f.call = .handleException → a.isRet = true) ∧
    (f.call = .compareThreads → a.isThrow = false)

instance (σ : State) (a : Action) : Decidable (Undisturbed σ a) :=
  inferInstanceAs (Decidable (∀ f ∈ σ.stack.head?, _ ∧ _))

/-- No slot call of the activation ends with a mark at the address of its signal, which lives. -/
def Unstopped (id : Nat) (σ : State) (a : Action) : Prop :=
  ∀ f ∈ σ.stack.head?, f.activation.id = id → f.call.isSlot = true →
    a.isRet = true ∨ a.isThrow = true → f.activation.senderPtr ∉ σ.world.beingDestroyed

instance (id : Nat) (σ : State) (a : Action) : Decidable (Unstopped id σ a) :=
  inferInstanceAs (Decidable (∀ f ∈ σ.stack.head?, _ → _ → _ → _))

/-- The address of a signal that lives on gets no mark. -/
theorem State.Placed.free_of_next {σ σ' : State} {a : Action} (hP : σ.Placed) {s : SenderId}
    {addr : Addr} (hlive : ∃ o, σ.world.sender s = some o ∧ o.addr = addr)
    (hfree : addr ∉ σ.world.beingDestroyed) (hN : Next σ a σ')
    (hlive' : (σ'.world.sender s).isSome = true) : addr ∉ σ'.world.beingDestroyed := by
  obtain ⟨o, ho, haddr⟩ := hlive
  obtain ⟨o', ho'⟩ := Option.isSome_iff_exists.mp hlive'
  intro hm
  rcases marked_of_next hN hm with hm | ⟨t, o1, _, ho1, haddr1, _, hdead⟩
  · exact hfree hm
  · rw [hP.apart t s o1 o ho1 ho (haddr1.trans haddr.symm), ho'] at hdead
    cases hdead

section

variable {σ σ' : State} {f : Frame} {rest : List Frame} {o : SignalBase} {c c' : Node ConnectStruct}

/-- The entries that the loop has passed when it goes on from its iterator. -/
theorem Underway.past (hU : Underway σ f.activation f) (hcall : f.call ≠ .compareThreads)
    (hstep : Stepped σ.world f c) {x : Nat × ConnectStruct}
    (hx : x ∈ (σ.world.connectList f.activation.sender).toList)
    (hp : f.activation.wants x.2 = true) (hlt : x.1 < f.activation.start) :
    x.1 ∈ σ.reachedNodes f.activation.id ∨ ∃ y, c.next = some y ∧ y ≤ x.1 := by
  rcases Nat.lt_trichotomy x.1 f.iter with hlt' | heq | hgt
  · exact Or.inl (hU.done x hx hp hlt (Or.inl hlt'))
  · exact Or.inl (hU.done x hx hp hlt (Or.inr ⟨heq, hcall⟩))
  · exact Or.inr (hstep.skips x.1 (List.mem_map_of_mem hx) hgt hlt)

/-- A step that calls no slot. -/
theorem Progress.resume {act : Activation} (h : Progress σ act)
    (hlive : ∃ o, σ'.world.sender act.sender = some o ∧ o.addr = act.senderPtr)
    (hcount : (σ'.world.connectList act.sender).nodeCount =
      (σ.world.connectList act.sender).nodeCount)
    (hn : σ'.activationCount = σ.activationCount) (hc : σ'.dispatches act.id = σ.dispatches act.id)
    (hrun : ∀ g ∈ σ'.stack, g.activation.id = act.id → Underway σ' act g)
    (hend : (∀ g ∈ σ'.stack, g.activation.id ≠ act.id) →
      ∀ x ∈ (σ'.world.connectList act.sender).toList, act.wants x.2 = true → x.1 < act.start →
        x.1 ∈ σ.reachedNodes act.id) : Progress σ' act := by
  have hr : σ'.reachedNodes act.id = σ.reachedNodes act.id := congrArg _ hc
  exact ⟨hlive, hcount ▸ h.started, hn ▸ h.numbered, hr ▸ h.sorted, hc ▸ h.wanted, hrun,
    hr ▸ hend⟩

/-- `compareThreads` has returned, and the slot is called. -/
theorem Progress.dispatch {b : Bool} (h : Progress σ f.activation)
    (hU : Underway σ f.activation f) (hdist : ∀ g ∈ rest, g.activation.id ≠ f.activation.id)
    (hcall : f.call = .compareThreads)
    (hc : (σ.world.connectList f.activation.sender).node f.iter = some c)
    (hlive : ∃ o', (σ.world.withBusy f.activation.sender o (o.activateBusy + 1)).sender
      f.activation.sender = some o' ∧ o'.addr = f.activation.senderPtr) :
    Progress (State.push { σ with
        world := σ.world.withBusy f.activation.sender o (o.activateBusy + 1), stack := rest }
      { f with call := State.callFor c.data.type b, old_activateBusy := o.activateBusy } c.data)
      f.activation := by
  have hw : f.activation.wants c.data = true := by
    obtain ⟨c0, hc0, hw0⟩ := hU.cell
    obtain rfl : c = c0 := Option.some.inj (hc.symm.trans hc0)
    exact hw0
  set f' : Frame := { f with call := State.callFor c.data.type b,
                             old_activateBusy := o.activateBusy } with hf'
  have hslot : f'.call.isSlot = true := State.isSlot_callFor _ _
  have hD := dispatches_push_self (σ := { σ with
    world := σ.world.withBusy f.activation.sender o (o.activateBusy + 1), stack := rest })
    (c := c.data) hslot
  have hR : State.reachedNodes (State.push { σ with
      world := σ.world.withBusy f.activation.sender o (o.activateBusy + 1), stack := rest } f'
        c.data) f.activation.id = σ.reachedNodes f.activation.id ++ [f.iter] := by
    rw [State.reachedNodes, hD, List.map_append]
    rfl
  refine ⟨hlive, h.started, h.numbered, ?_, ?_, fun g hg hgid => ?_, fun hend => ?_⟩
  · rw [hR, List.pairwise_append]
    refine ⟨h.sorted, by simp, fun n hn m hm => ?_⟩
    rw [List.mem_singleton.mp hm]
    exact (hU.below n hn).2 hcall
  · intro e he
    rw [hD] at he
    rcases List.mem_append.mp he with he | he
    · exact h.wanted e he
    · rw [List.mem_singleton.mp he]
      exact hw
  · rcases List.mem_cons.mp hg with rfl | hg
    · refine ⟨rfl, fun n hn => ⟨?_, fun hcmp => ?_⟩, fun x hx hp hlt hpos => ?_, c, hc, hw⟩
      · rw [hR] at hn
        rcases List.mem_append.mp hn with hn | hn
        · exact (hU.below n hn).1
        · exact Nat.le_of_eq (List.mem_singleton.mp hn)
      · rw [hcmp] at hslot
        cases hslot
      · rw [hR, List.mem_append]
        rcases hpos with hpos | ⟨hpos, _⟩
        · exact Or.inl (hU.done x hx hp hlt (Or.inl hpos))
        · exact Or.inr (List.mem_singleton.mpr hpos)
    · exact absurd hgid (hdist g hg)
  · exact absurd rfl (hend f' List.mem_cons_self)

/-- The loop comes to another connection. -/
theorem Progress.advance {n : Nat} (h : Progress σ f.activation)
    (hU : Underway σ f.activation f) (hdist : ∀ g ∈ rest, g.activation.id ≠ f.activation.id)
    (hcall : f.call ≠ .compareThreads) (hstep : Stepped σ.world f c)
    (hmet : Met (State.lessBusy { σ with stack := rest } f o) f.activation (cursorsOf rest) c.next
      n c')
    (hst : σ'.stack = ⟨f.activation, n, c'.data.receiver, .compareThreads, 0⟩ :: rest)
    (hw : σ'.world = State.lessBusy { σ with stack := rest } f o)
    (hn : σ'.activationCount = σ.activationCount)
    (hD : σ'.dispatches f.activation.id = σ.dispatches f.activation.id)
    (hlive : ∃ o, σ'.world.sender f.activation.sender = some o ∧
      o.addr = f.activation.senderPtr) : Progress σ' f.activation := by
  have hlists : σ'.world.connectList = σ.world.connectList := by
    obtain ⟨_, _, _, _, _, _, h7, _⟩ := resumed_fields { σ with stack := rest } f
    rw [hw]
    exact h7
  have hR : ∀ m, m ∈ σ.reachedNodes f.activation.id → m < n := fun m hm => by
    obtain ⟨i, hi, hle⟩ := hmet.ahead
    have := hstep.later i hi
    have := (hU.below m hm).1
    omega
  refine h.resume hlive (by rw [hlists]) hn hD (fun g hg hgid => ?_) fun hend => ?_
  · rw [hst] at hg
    rcases List.mem_cons.mp hg with rfl | hg
    · refine ⟨rfl, fun m hm => ?_, fun x hx hp hlt hpos => ?_, c', by rw [hw]; exact hmet.cell,
        hmet.wanted⟩
      · rw [State.reachedNodes, hD] at hm
        exact ⟨Nat.le_of_lt (hR m hm), fun _ => hR m hm⟩
      · rw [State.reachedNodes, hD]
        have hx' : x ∈ (σ.world.connectList f.activation.sender).toList := by
          rw [← hlists]
          exact hx
        rcases hU.past hcall hstep hx' hp hlt with hin | hy
        · exact hin
        · rw [hw] at hx
          have hxn := hmet.first x hx hp hlt hy
          rcases hpos with hpos | ⟨_, hpos⟩
          · exact absurd hpos (Nat.not_lt.mpr hxn)
          · exact absurd rfl hpos
    · exact absurd hgid (hdist g hg)
  · exact absurd rfl (hend ⟨f.activation, n, c'.data.receiver, .compareThreads, 0⟩
      (hst ▸ List.mem_cons_self))

/-- The loop comes to its end. -/
theorem Progress.finish {w' : World} (h : Progress σ f.activation)
    (hU : Underway σ f.activation f) (hdist : ∀ g ∈ rest, g.activation.id ≠ f.activation.id)
    (hcall : f.call ≠ .compareThreads) (hstep : Stepped σ.world f c)
    (hend : Ended (State.lessBusy { σ with stack := rest } f o) f.activation (cursorsOf rest) c.next
      w')
    (hst : σ'.stack = rest) (hw : σ'.world = w') (hn : σ'.activationCount = σ.activationCount)
    (hD : σ'.dispatches f.activation.id = σ.dispatches f.activation.id)
    (hlive : ∃ o, σ'.world.sender f.activation.sender = some o ∧
      o.addr = f.activation.senderPtr) : Progress σ' f.activation := by
  have hlists : (State.lessBusy { σ with stack := rest } f o).connectList = σ.world.connectList := by
    obtain ⟨_, _, _, _, _, _, h7, _⟩ := resumed_fields { σ with stack := rest } f
    exact h7
  obtain ⟨hl, hcnt⟩ := hend.released.live (by simp [State.lessBusy])
  rw [hlists] at hl hcnt
  refine h.resume hlive (by rw [hw, hcnt]) hn hD (fun g hg hgid => ?_)
    fun _ x hx hp hlt => ?_
  · rw [hst] at hg
    exact absurd hgid (hdist g hg)
  · have hx' : x ∈ (σ.world.connectList f.activation.sender).toList := by
      rw [← hl, ← hw]
      exact hx
    rcases hU.past hcall hstep hx' hp hlt with hin | hy
    · exact hin
    · exact absurd hy (hend.none x (by rw [hlists]; exact hx') hp hlt)

end

/-- The step after the end of a call of the activation itself. -/
theorem Progress.move {σ σ' : State} {a : Action} {act : Activation} {f : Frame}
    {rest : List Frame} (h : Progress σ act) (hst : σ.stack = f :: rest)
    (hid : f.activation.id = act.id) (hdist : ∀ g ∈ rest, g.activation.id ≠ act.id)
    (hu : Undisturbed σ a) (hmark : Unstopped act.id σ a)
    (hM : Move { σ with stack := rest } f a σ')
    (hlive : ∃ o, σ'.world.sender act.sender = some o ∧ o.addr = act.senderPtr) :
    Progress σ' act := by
  have hU := h.running f (by rw [hst]; exact List.mem_cons_self) hid
  have hact := hU.same
  subst hact
  obtain ⟨h1, h2, h3, _⟩ := resumed_fields { σ with stack := rest } f
  have hu' := hu f (by rw [hst]; rfl)
  cases hM with
  | dispatched hcall ho hc hr => exact h.dispatch hU hdist hcall hc hlive
  | next hcall hfr ho hstep hmet hr =>
    refine h.advance hU hdist hcall hstep hmet (congrArg _ h1) rfl h2 ?_ hlive
    rw [dispatches_push (by simp [CallKind.isSlot])]
    exact dispatches_congr h3 _
  | ended hcall hfr ho hstep hend =>
    exact h.finish hU hdist hcall hstep hend h1 rfl h2 (dispatches_congr h3 _) hlive
  | stopped hend hcall hlock hm hrel =>
    exact absurd hm (hmark f (by rw [hst]; rfl) rfl hcall hend.ret_or_throw)
  | handling hcall hlock hmark ho =>
    refine h.resume hlive rfl rfl rfl (fun g hg hgid => ?_) fun hend => ?_
    · rcases List.mem_cons.mp hg with rfl | hg
      · have hnc : f.call ≠ .compareThreads := by
          rintro hc
          rw [hc] at hcall
          cases hcall
        exact ⟨rfl, fun n hn => ⟨(hU.below n hn).1, by simp⟩,
          fun x hx hp hlt hpos => hU.done x hx hp hlt (hpos.imp id fun hq => ⟨hq.1, hnc⟩), hU.cell⟩
      · exact absurd hgid (hdist g hg)
    · exact absurd rfl (hend { f with call := .handleException } List.mem_cons_self)
  | left hcall hrel => cases hu'.2 hcall
  | handlerLeft hcall hrel => cases hu'.1 hcall

/-- A step keeps the progress of an activation whose signal lives on. -/
theorem Progress.next {σ σ' : State} {a : Action} {act : Activation} (hI : σ.Inv)
    (h : Progress σ act) (hu : Undisturbed σ a) (hmark : Unstopped act.id σ a) (hN : Next σ a σ')
    (hlive' : (σ'.world.sender act.sender).isSome = true) : Progress σ' act := by
  obtain ⟨o, ho, haddr⟩ := h.live
  obtain ⟨o', ho'⟩ := Option.isSome_iff_exists.mp hlive'
  have hlive : ∃ o, σ'.world.sender act.sender = some o ∧ o.addr = act.senderPtr :=
    ⟨o', ho', (addr_of_next hN ho ho').trans haddr⟩
  have hstep := hN.stepOn hI (s := act.sender) (by rw [ho]; rfl) hlive'
  cases hN with
  | @call a w' hc hD =>
    refine h.keep hlive hstep (Nat.le_refl _) rfl (fun f hf _ => ⟨hf, ?_⟩) fun f hf _ => hf
    rw [staying_call hc]
    exact mem_cursorsOf hf
  | @enter s o1 sig σ' ho1 hE =>
    have hne : σ.activationCount ≠ act.id := Nat.ne_of_gt h.numbered
    cases hE with
    | met hmet hr =>
      refine h.keep hlive hstep (Nat.le_succ _) (dispatches_push (by simp [CallKind.isSlot]))
        (fun f hf hid => ?_) fun f hf _ => List.mem_cons_of_mem _ hf
      rcases List.mem_cons.mp hf with rfl | hf
      · exact absurd hid hne
      · exact ⟨hf, mem_cursorsOf hf⟩
    | ended hend =>
      exact h.keep hlive hstep (Nat.le_succ _) rfl (fun f hf _ => ⟨hf, mem_cursorsOf hf⟩)
        fun f hf _ => hf
  | @move a f rest σ' hst hM =>
    have hdist := hI.distinct
    rw [hst, List.map_cons, List.pairwise_cons] at hdist
    by_cases hid : f.activation.id = act.id
    · refine h.move hst hid (fun g hg he => ?_) hu hmark hM hlive
      exact absurd (hdist.1 _ (List.mem_map_of_mem hg)) (by rw [hid, he]; exact Nat.lt_irrefl _)
    · have hstay := staying_end hM.isEnd hst
      obtain ⟨_, h2, h3, _⟩ := resumed_fields { σ with stack := rest } f
      have hd : σ'.dispatches act.id = σ.dispatches act.id ∧
          σ.activationCount ≤ σ'.activationCount := by
        cases hM with
        | dispatched => exact ⟨dispatches_push fun hc => hid hc.1, Nat.le_refl _⟩
        | next =>
          refine ⟨Eq.trans (dispatches_push ?_) (dispatches_congr h3 _), Nat.le_of_eq h2.symm⟩
          exact fun hc => hid hc.1
        | ended => exact ⟨dispatches_congr h3 _, Nat.le_of_eq h2.symm⟩
        | stopped => exact ⟨rfl, Nat.le_refl _⟩
        | handling => exact ⟨rfl, Nat.le_refl _⟩
        | left => exact ⟨rfl, Nat.le_refl _⟩
        | handlerLeft => exact ⟨rfl, Nat.le_refl _⟩
      refine h.keep hlive hstep hd.2 hd.1 (fun g hg hgid => ?_) fun g hg hgid => ?_
      · have hgr : g ∈ rest := by
          rcases hM.stack with h1 | ⟨f', h1, hact⟩
          · rw [h1] at hg
            exact hg
          · rw [h1] at hg
            rcases List.mem_cons.mp hg with rfl | hg
            · exact absurd (hact ▸ hgid) hid
            · exact hg
        refine ⟨by rw [hst]; exact List.mem_cons_of_mem _ hgr, ?_⟩
        rw [hstay]
        exact mem_cursorsOf hgr
      · rw [hst] at hg
        rcases List.mem_cons.mp hg with rfl | hg
        · exact absurd hgid hid
        · rcases hM.stack with h1 | ⟨f', h1, _⟩
          · rw [h1]
            exact hg
          · rw [h1]
            exact List.mem_cons_of_mem _ hg

/-- An activation that starts. -/
theorem Progress.start {σ σ' : State} {s : SenderId} {o : SignalBase} {sig : Bento} (hI : σ.Inv)
    (ho : σ.world.sender s = some o) (hE : Enter σ s o sig σ') :
    Progress σ' (σ.entering s o sig) := by
  have hs : (σ.world.sender s).isSome = true := by rw [ho]; rfl
  have hself : (σ.entered s sig).world.connectList s = (σ.world.connectList s).rcuReadLock.2 :=
    (connectListOf s).get_set _ _
  have hlock := (hI.memory.lists s hs).lock.2
  have hhead := (hI.memory.lists s hs).head_le.2
  -- no call has the number of the new activation
  have hnone : σ.dispatches σ.activationCount = [] := by
    rw [State.dispatches, List.filter_eq_nil_iff]
    intro e he hc
    have := hI.logged e he
    simp only [Bool.and_eq_true, beq_iff_eq] at hc
    omega
  have hold : ∀ f ∈ σ.stack, f.activation.id ≠ σ.activationCount := fun f hf =>
    Nat.ne_of_lt (hI.numbered f hf)
  cases hE with
  | @met n c hmet hr =>
    have hD : (State.push (σ.entered s sig)
        ⟨σ.entering s o sig, n, c.data.receiver, .compareThreads, 0⟩ c.data).dispatches
          σ.activationCount = [] := by
      rw [dispatches_push (by simp [CallKind.isSlot]), ← hnone]
      exact dispatches_congr rfl _
    refine ⟨⟨o, ho, rfl⟩, ?_, Nat.lt_succ_self _, ?_, ?_, fun f hf hid => ?_, fun hend => ?_⟩
    · show _ ≤ ((σ.entered s sig).world.connectList s).nodeCount
      rw [hself]
      exact Nat.le_refl _
    · show (State.reachedNodes _ σ.activationCount).Pairwise _
      rw [State.reachedNodes, hD]
      exact .nil
    · intro e he
      rw [show (σ.entering s o sig).id = σ.activationCount from rfl, hD] at he
      cases he
    · rcases List.mem_cons.mp hf with rfl | hf
      · refine ⟨rfl, fun m hm => ?_, fun x hx hp hlt hpos => ?_, c, hmet.cell, hmet.wanted⟩
        · rw [show (σ.entering s o sig).id = σ.activationCount from rfl, State.reachedNodes, hD] at hm
          cases hm
        · have hx' : x ∈ (σ.world.connectList s).toList := by
            rw [← hlock, ← hself]
            exact hx
          have hxn := hmet.first x hx hp hlt (hhead x hx')
          rcases hpos with hpos | ⟨_, hpos⟩
          · exact absurd hpos (Nat.not_lt.mpr hxn)
          · exact absurd rfl hpos
      · exact absurd hid (hold f hf)
    · exact absurd rfl (hend ⟨σ.entering s o sig, n, c.data.receiver, .compareThreads, 0⟩
        List.mem_cons_self)
  | @ended w' hend =>
    obtain ⟨hl, hcnt⟩ := hend.released.live hs
    rw [show (σ.entering s o sig).sender = s from rfl, hself] at hl hcnt
    have hsame := hend.released.sameObjects
    have hD : State.dispatches
        { (σ.entered s sig).restore (σ.entering s o sig) with world := w' } σ.activationCount = [] :=
      (dispatches_congr (σ := σ) rfl _).trans hnone
    refine ⟨⟨o, (congrFun hsame.sender s).trans ho, rfl⟩, ?_, Nat.lt_succ_self _, ?_, ?_,
      fun f hf hid => absurd hid (hold f hf), fun _ x hx hp hlt => ?_⟩
    · show _ ≤ (w'.connectList s).nodeCount
      rw [hcnt]
      exact Nat.le_refl _
    · show (State.reachedNodes _ σ.activationCount).Pairwise _
      rw [State.reachedNodes, hD]
      exact .nil
    · intro e he
      rw [show (σ.entering s o sig).id = σ.activationCount from rfl, hD] at he
      cases he
    · have hx1 : x ∈ ((σ.world.connectList s).rcuReadLock.2).toList := by
        rw [← hl]
        exact hx
      refine absurd (hhead x (hlock ▸ hx1)) (hend.none x ?_ hp hlt)
      rw [show (σ.entering s o sig).sender = s from rfl, hself]
      exact hx1

theorem placed_reached {as : List Action} {σ : State} (hr : run State.init as = .ok σ) :
    σ.Inv ∧ σ.Placed :=
  Runs.run_keeps (I := fun σ => σ.Inv ∧ σ.Placed) (fun _ _ _ h hs =>
    have hN := h.1.step hs
    ⟨hN.1, h.2.next h.1 (legal_of_step hs) hN.2⟩) hr ⟨inv_init, placed_init⟩

/-- Along a run whose last state still has the signal of an activation. -/
theorem run_living {C : State → Action → Prop} {P : State → Prop} {s : SenderId}
    (hnext : ∀ {σ a σ'}, σ.Inv → σ.Placed → P σ → C σ a → Next σ a σ' →
      (σ'.world.sender s).isSome = true → P σ')
    {as : List Action} {σ σ' : State} (hI : σ.Inv) (hP : σ.Placed) (h : P σ)
    (hs : (σ.world.sender s).isSome = true) (hm : Runs.Meets step C σ as)
    (hr : run σ as = .ok σ') (hlive : (σ'.world.sender s).isSome = true) : P σ' := by
  have hinv := Runs.run_invariant
    (I := fun σ => σ.Inv ∧ σ.Placed ∧ s < σ.world.senderCount ∧
      ((σ.world.sender s).isSome = true → P σ))
    (fun τ a τ' hI hu hs => by
      obtain ⟨hI1, hP1, hk, hpr⟩ := hI
      obtain ⟨hI2, hN⟩ := hI1.step hs
      refine ⟨hI2, hP1.next hI1 (legal_of_step hs) hN, Nat.lt_of_lt_of_le hk hN.senderCount,
        fun hl => ?_⟩
      have hl0 : (τ.world.sender s).isSome = true := by
        cases hd : τ.world.sender s with
        | none =>
          rw [dead_of_next hN hk hd] at hl
          cases hl
        | some o => rfl
      exact hnext hI1 hP1 (hpr hl0) hu hN hl)
    hm hr ⟨hI, hP, hI.memory.senderBound _ hs, fun _ => h⟩
  exact hinv.2.2.2 hlive

theorem Progress.run {act : Activation} {as : List Action} {σ σ' : State} (hI : σ.Inv)
    (hP : σ.Placed) (h : Progress σ act)
    (hm : Runs.Meets step (fun σ a => Undisturbed σ a ∧ Unstopped act.id σ a) σ as)
    (hr : run σ as = .ok σ') (hlive : (σ'.world.sender act.sender).isSome = true) :
    Progress σ' act := by
  obtain ⟨o, ho, _⟩ := h.live
  have hnext : ∀ {σ a σ'}, σ.Inv → σ.Placed → Progress σ act →
      Undisturbed σ a ∧ Unstopped act.id σ a → Next σ a σ' →
      (σ'.world.sender act.sender).isSome = true → Progress σ' act :=
    fun hI _ h hu hN hl => h.next hI hu.1 hu.2 hN hl
  exact run_living hnext hI hP h (by rw [ho]; rfl) hm hr hlive

/-! ## The emission -/

/-- What an emission that began in the first state has done when it is over: it
called every connection that stayed, in the order in which they were made. -/
structure Emitted (σ σ' : State) (s : SenderId) (signal : Bento) : Prop where
  once : ∀ x ∈ (σ.world.connectList s).toList, x ∈ (σ'.world.connectList s).toList →
    x.2.signalMethod.eq signal = true → (σ'.reachedNodes σ.activationCount).count x.1 = 1
  order : (σ'.reachedNodes σ.activationCount).Pairwise (· < ·)
  matching : ∀ e ∈ σ'.dispatches σ.activationCount, e.connection.signalMethod.eq signal = true

theorem Progress.emitted {σ σ' : State} {s : SenderId} {o : SignalBase} {sig : Bento} (hI : σ.Inv)
    (ho : σ.world.sender s = some o) (h : Progress σ' (σ.entering s o sig))
    (hend : ∀ f ∈ σ'.stack, f.activation.id ≠ σ.activationCount) : Emitted σ σ' s sig := by
  refine ⟨fun x hx hx' hw => ?_, h.sorted, h.wanted⟩
  have hlt := (hI.memory.lists s (by rw [ho]; rfl)).bound hx
  have hin : x.1 ∈ σ'.reachedNodes σ.activationCount := h.ended hend x hx' hw hlt
  exact List.count_eq_one_of_mem (h.sorted.imp Nat.ne_of_lt) hin

/-- An emission is complete, in any state of the program, when none of its slot calls
ends with a mark of a destroyed signal at its address. -/
theorem emission_complete {as bs : List Action} {σ σ' : State} {s : SenderId} {sig : Bento}
    (h0 : run State.init as = .ok σ)
    (hu : Runs.Meets step (fun τ a => Undisturbed τ a ∧ Unstopped σ.activationCount τ a) σ
      (.activate s sig :: bs))
    (h1 : run σ (.activate s sig :: bs) = .ok σ') (hlive : (σ'.world.sender s).isSome = true)
    (hend : ∀ f ∈ σ'.stack, f.activation.id ≠ σ.activationCount) : Emitted σ σ' s sig := by
  obtain ⟨σ1, hs, hr⟩ := Runs.run_cons.mp h1
  obtain ⟨-, hu⟩ := hu
  rw [hs] at hu
  obtain ⟨hI, hP⟩ := placed_reached h0
  obtain ⟨hI1, hN⟩ := hI.step hs
  have hP1 := hP.next hI (legal_of_step hs) hN
  cases hN with
  | enter ho hE => exact ((Progress.start hI ho hE).run hI1 hP1 hu hr hlive).emitted hI ho hend
  | call hc => exact absurd hc id
  | move hst hM => exact absurd hM.isEnd id

/-- The first slot throws, and the later ones are called. -/
theorem emission_complete_twice :
    ((Runs.reached step (after twice) [.activate 0 (.method 0 (some 1)), .ret true,
      .throw, .ret true, .ret true, .ret true, .ret true, .ret true]).reachedNodes
        (after twice).activationCount).count 2 = 1 :=
  (emission_complete (Runs.run_reached (by decide +kernel)) (by decide +kernel)
    (Runs.run_reached (by decide +kernel)) (by decide +kernel) (by decide +kernel)).once
      (2, ⟨.method 0 (some 1), 1, .method 1 (some 1), .autoConnection⟩) (by decide +kernel)
      (by decide +kernel) (by decide +kernel)

/-- A slot destroyed its signal, and made another one at the same address. -/
def reused : List Action :=
  [.newSender 100, .newReceiver,
    .connect .methodSlot 0 (.method 0 (some 1)) 0 (.method 1 (some 1)) .autoConnection false,
    .activate 0 (.method 0 (some 1)), .ret true, .deleteSender 0, .newSender 100,
    .connect .methodSlot 1 (.method 0 (some 1)) 0 (.method 1 (some 1)) .autoConnection false,
    .connect .methodSlot 1 (.method 0 (some 1)) 0 (.method 1 (some 1)) .autoConnection false]

/-- The mark that the first signal left ends the emission of the second one. -/
theorem emission_complete_reused :
    ¬ ∀ (as bs : List Action) (σ σ' : State) (s : SenderId) (sig : Bento),
      run State.init as = .ok σ → (σ.world.sender s).isSome = true →
      Runs.Meets step Undisturbed σ (.activate s sig :: bs) →
      run σ (.activate s sig :: bs) = .ok σ' → (σ'.world.sender s).isSome = true →
      (∀ f ∈ σ'.stack, f.activation.id ≠ σ.activationCount) → Emitted σ σ' s sig := by
  intro h
  have := (h reused [.ret true, .ret true] _ _ 1 (.method 0 (some 1)) (Runs.run_reached (by decide +kernel)) (by decide +kernel) (by decide +kernel)
    (Runs.run_reached (by decide +kernel)) (by decide +kernel) (by decide +kernel)).once
      (1, ⟨.method 0 (some 1), 0, .method 1 (some 1), .autoConnection⟩) (by decide +kernel)
      (by decide +kernel) (by decide +kernel)
  exact absurd this (by decide +kernel)

end CsSignal
