-- A slot runs inside a node of the list of its signal. Its connection may be
-- erased while it runs, and its signal may be destroyed; the node has to stay.
import CsSignal.Emission

namespace CsSignal

open LinkedCells Calls RcuList

/-! ## What the destructor of a list leaves to the guards -/

/-- The zombie stack from an entry on: whether an entry has an owner, and its node. -/
def RcuList.zombies {α : Type} (l : RcuList α) : Nat → Option Nat → List (Bool × Option Nat)
  | _, none => []
  | 0, some _ => []
  | fuel + 1, some i =>
    match l.zombie i with
    | none => []
    | some z => (z.owner, z.zombieNode) :: l.zombies fuel z.next

/-- The erased nodes below the newest active guard. -/
def RcuList.leftToGuards {α : Type} (l : RcuList α) : List Nat :=
  ((l.zombies l.zombieCount l.zombieHead).dropWhile fun z => !z.1).filterMap Prod.snd

theorem zombies_eq {α : Type} {l : RcuList α} {p : Option Nat} {zs : List Entry} {fuel : Nat}
    (hs : Stack l.zombie p zs) (hf : zs.length ≤ fuel) :
    l.zombies fuel p = zs.map fun e => (e.owner, e.zombieNode) := by
  induction zs generalizing p fuel with
  | nil =>
    rw [show p = none from hs]
    cases fuel <;> rfl
  | cons e es ih =>
    obtain ⟨rfl, nx, he, hs⟩ := hs
    cases fuel with
    | zero => simp at hf
    | succ fuel =>
      unfold RcuList.zombies
      rw [he, List.map_cons]
      simp only
      rw [ih hs (by simpa using hf)]

theorem leftToGuards_eq {α : Type} {l : RcuList α} {live : List (Nat × α)} {zs : List Entry}
    (h : RcuList.Rep l live zs) : l.leftToGuards = dead (zs.dropWhile fun e => !e.owner) := by
  unfold RcuList.leftToGuards
  rw [zombies_eq h.stack (stack_length h.desc h.zbound), List.dropWhile_map, List.filterMap_map]
  rfl

/-! ## What a run must keep to -/

/-- A signal is destroyed only while each of its connections that a slot call is
executing was erased before the newest of its activations in progress began. -/
def SparesRunning (σ : State) (a : Action) : Prop :=
  ∀ f ∈ σ.stack, f.call = .invoke → a.deletes = some f.activation.sender →
    f.iter ∈ (σ.world.connectList f.activation.sender).leftToGuards

instance (σ : State) (a : Action) : Decidable (SparesRunning σ a) :=
  inferInstanceAs (Decidable (∀ f ∈ σ.stack, _ → _ → _))

/-! ## The node of a running slot -/

/-- Every slot that runs on a destroyed signal has its node. -/
def State.Holds (σ : State) : Prop :=
  ∀ f ∈ σ.stack, σ.world.sender f.activation.sender = none → f.call = .invoke →
    ∃ c, (σ.world.connectList f.activation.sender).node f.iter = some c

/-- On a live signal every iterator stands on a node. -/
theorem State.Inv.cell {σ : State} (h : σ.Inv) {f : Frame} (hf : f ∈ σ.stack)
    (hs : (σ.world.sender f.activation.sender).isSome = true) :
    ∃ c, (σ.world.connectList f.activation.sender).node f.iter = some c := by
  obtain ⟨zs, hr, _, ha⟩ := h.memory.lists _ hs
  obtain ⟨hg, hn⟩ := ha _ (mem_cursorsOf hf)
  obtain ⟨c, hc, _⟩ := hr.step hg (hn _ rfl)
  exact ⟨c, hc⟩

theorem leftToGuards_node {l : RcuList ConnectStruct} {live : List (Nat × ConnectStruct)}
    {zs : List Entry} (h : RcuList.Rep l live zs) {n : Nat} (hn : n ∈ l.leftToGuards) :
    ∃ c, l.node n = some c := by
  rw [leftToGuards_eq h] at hn
  obtain ⟨e, he, hz⟩ := mem_dead.mp hn
  obtain ⟨c, hc, _⟩ := h.kept n (mem_dead.mpr ⟨e, List.dropWhile_subset _ he, hz⟩)
  exact ⟨c, hc⟩

theorem State.Holds.call {σ : State} (h : σ.Holds) (hI : σ.Inv) {a : Action} {w' : World}
    (hsp : SparesRunning σ a) (hD : Did a σ.world w') :
    State.Holds { σ with world := w' } := by
  intro f hf hd hc
  cases hs : σ.world.sender f.activation.sender with
  | none =>
    rcases hD.gone _ hs with ⟨_, h2⟩ | ⟨h1, _⟩
    · show ∃ c, (w'.connectList f.activation.sender).node f.iter = some c
      rw [h2]
      exact h f hf hs hc
    · exact absurd (h1 ▸ hI.known f hf) (Nat.lt_irrefl _)
  | some o =>
    rcases hD.survive _ o hs with h1 | ⟨_, rfl⟩
    · rw [show w'.sender f.activation.sender = none from hd] at h1
      cases h1
    · have hleft := hsp f hf hc rfl
      obtain ⟨zs, hr, _, _⟩ := hI.memory.lists f.activation.sender (by rw [hs]; rfl)
      obtain ⟨c, hcell⟩ := leftToGuards_node hr hleft
      rw [leftToGuards_eq hr] at hleft
      refine ⟨c, ?_⟩
      rw [← hcell]
      exact ((hD.ended _ o rfl hs).2.own zs hr).2 _ hleft

theorem State.Holds.next {σ σ' : State} {a : Action} (h : σ.Holds) (hI : σ.Inv)
    (hsp : SparesRunning σ a) (hN : Next σ a σ') : σ'.Holds := by
  intro f hf hd hc
  rcases hN.stack hf with ⟨hf0, hstay⟩ | hlive
  · cases hs : σ.world.sender f.activation.sender with
    | none =>
      rw [hN.node_dead (hI.known f hf0) hs (List.ne_nil_of_mem hstay)]
      exact h f hf0 hs hc
    | some o =>
      have hdel : a.deletes ≠ none := by
        intro ha
        have := live_of_next hN ha (by rw [hs]; rfl : (σ.world.sender _).isSome = true)
        rw [hd] at this
        cases this
      cases hN with
      | call hcall hD =>
        rcases hD with rfl | hD
        · rw [show σ.world.sender _ = none from hd] at hs
          cases hs
        · exact h.call hI hsp hD f hf hd hc
      | enter ho hE => exact absurd rfl hdel
      | move hst hM =>
        refine absurd ?_ hdel
        cases a <;> first | rfl | exact absurd hM.isEnd id
  · rw [hd] at hlive
    cases hlive

/-- In every run in which a signal is destroyed only while the slots that run on it
were erased before its newest activation began, a slot that runs has its node. -/
theorem running_slot_has_node {as : List Action} {σ : State} (hr : run State.init as = .ok σ)
    (hm : Runs.Meets step SparesRunning State.init as) :
    ∀ f ∈ σ.stack, f.call = .invoke →
      ((σ.world.connectList f.activation.sender).node f.iter).isSome = true := by
  obtain ⟨hI, h⟩ := Runs.run_invariant (I := fun σ => σ.Inv ∧ σ.Holds)
    (fun _ _ _ h hc hs =>
      have hN := h.1.step hs
      ⟨hN.1, h.2.next h.1 hc hN.2⟩) hm hr ⟨inv_init, fun f hf => by cases hf⟩
  intro f hf hc
  rw [Option.isSome_iff_exists]
  cases hs : σ.world.sender f.activation.sender with
  | none => exact h f hf hs hc
  | some o => exact hI.cell hf (by rw [hs]; rfl)

/-- A slot disconnects itself and emits again, and `queueSlot` destroys the signal. -/
def disconnectedBefore : List Action :=
  [.newSender 100, .newReceiver, .newReceiver,
    .connect .methodSlot 0 (.method 0 (some 1)) 0 (.method 1 (some 1)) .autoConnection false,
    .connect .methodSlot 0 (.method 0 (some 1)) 1 (.method 1 (some 1)) .queuedConnection false,
    .activate 0 (.method 0 (some 1)), .ret true,
    .disconnect 0 (.method 0 (some 1)) 0 (.method 1 (some 1)),
    .activate 0 (.method 0 (some 1)), .ret true, .deleteSender 0]

theorem running_slot_has_node_disconnected :
    (after disconnectedBefore).stack.map Frame.call = [.queueSlot .queuedConnection, .invoke] ∧
      ∀ f ∈ (after disconnectedBefore).stack, f.call = .invoke →
        (((after disconnectedBefore).world.connectList f.activation.sender).node f.iter).isSome =
          true :=
  ⟨by decide +kernel, running_slot_has_node (Runs.run_reached (by decide +kernel))
    (by decide +kernel)⟩

/-- A slot destroys its signal. -/
def destroysSignal : List Action :=
  [.newSender 100, .newReceiver,
    .connect .methodSlot 0 (.method 0 (some 1)) 0 (.method 1 (some 1)) .autoConnection false,
    .activate 0 (.method 0 (some 1)), .ret true, .deleteSender 0]

/-- The node of the slot is freed under it. -/
theorem running_slot_has_node_destroyed :
    ¬ ∀ (as : List Action) (σ : State), run State.init as = .ok σ → ∀ f ∈ σ.stack,
      f.call = .invoke →
        ((σ.world.connectList f.activation.sender).node f.iter).isSome = true := by
  intro h
  have := h destroysSignal _ (Runs.run_reached (by decide +kernel))
  exact absurd this (by decide +kernel)

end CsSignal
