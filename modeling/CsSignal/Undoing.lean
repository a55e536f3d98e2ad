-- Paths of the library that come to the same: a destructor, and a disconnect of
-- everything, make what was connected or disconnected before of no account; and a
-- disconnect takes back a connect, when the callables can be compared.
import CsSignal.Graph

namespace CsSignal

open LinkedCells Calls RcuList Links

/-! ## What an action makes of no account -/

/-- A call after which it does not matter whether the other one was made before. -/
def Action.absorbs : Action → Action → Prop
  | .deleteSender s, .connect _ s' _ _ _ _ _ => s' = s
  | .deleteSender s, .disconnect s' _ _ _ => s' = s
  | .deleteSender s, .internalDisconnect s' _ _ _ => s' = s
  | .deleteReceiver r, .connect _ _ _ r' _ _ _ => r' = r
  | .deleteReceiver r, .disconnect _ _ r' _ => r' = r
  | .deleteReceiver r, .internalDisconnect _ _ r' _ => r' = some r
  | .internalDisconnect s none none _, .connect _ s' _ _ _ _ _ => s' = s
  | .internalDisconnect s none none _, .disconnect s' _ _ _ => s' = s
  | .internalDisconnect s none none _, .internalDisconnect s' _ _ _ => s' = s
  | _, _ => False

/-- The calls that only make and end connections. -/
def Action.IsEdit : Action → Prop
  | .connect _ _ _ _ _ _ _ => True
  | .disconnect _ _ _ _ => True
  | .internalDisconnect _ _ _ _ => True
  | _ => False

theorem Action.absorbs.isEdit {d b : Action} (h : d.absorbs b) : b.IsEdit := by
  unfold Action.absorbs at h
  split at h <;> trivial

theorem Action.absorbs.isCall {d b : Action} (h : d.absorbs b) : d.IsCall := by
  unfold Action.absorbs at h
  split at h <;> trivial

theorem isMatch_receiver {sig slot : Option Bento} {r : ReceiverId} {c : ConnectStruct}
    (h : isMatch sig (some r) slot c = true) : c.receiver = r := by
  by_contra hne
  have : ¬ r = c.receiver := fun he => hne he.symm
  simp [isMatch, this] at h

/-- With neither a signal nor a receiver everything matches. -/
theorem isMatch_all (slot : Option Bento) : isMatch none none slot = fun _ => true :=
  funext fun _ => rfl

theorem Graph.act_absorbs {d b : Action} (g : Graph) (h : d.absorbs b) :
    (g.act b).act d = g.act d := by
  have hif : ∀ {p : Bool} {n : Net SenderId ReceiverId ConnectStruct} {f : Graph → Graph},
      f { g with toNet := n } = f g → f (if p then { g with toNet := n } else g) = f g := by
    intro p n f hf
    cases p with
    | true => exact hf
    | false => rfl
  cases d with
  | deleteSender s =>
    cases b with
    | connect o s' sig r slot type u =>
      obtain rfl : s' = s := h
      exact hif (f := fun g => g.act (.deleteSender s'))
        (congrArg (fun n => { g with toNet := n }) (Net.dropSource_link _ _))
    | disconnect s' sig r slot =>
      obtain rfl : s' = s := h
      exact congrArg (fun n => { g with toNet := n }) (Net.dropSource_cut _ _)
    | internalDisconnect s' sig r slot =>
      obtain rfl : s' = s := h
      exact congrArg (fun n => { g with toNet := n }) (Net.dropSource_cut _ _)
    | _ => exact absurd h id
  | deleteReceiver r =>
    cases b with
    | connect o s' sig r' slot type u =>
      obtain rfl : r' = r := h
      exact hif (f := fun g => g.act (.deleteReceiver r'))
        (congrArg (fun n => { g with toNet := n }) (Net.dropTarget_link _ rfl))
    | disconnect s' sig r' slot =>
      obtain rfl : r' = r := h
      exact congrArg (fun n => { g with toNet := n })
        (Net.dropTarget_cut _ fun _ => isMatch_receiver)
    | internalDisconnect s' sig r' slot =>
      obtain rfl : r' = some r := h
      exact congrArg (fun n => { g with toNet := n })
        (Net.dropTarget_cut _ fun _ => isMatch_receiver)
    | _ => exact absurd h id
  | internalDisconnect s sig0 r0 slot0 =>
    cases sig0 with
    | some _ => exact absurd h id
    | none =>
    cases r0 with
    | some _ => exact absurd h id
    | none =>
      simp only [Graph.act, isMatch_all]
      cases b with
      | connect o s' sig r slot type u =>
        obtain rfl : s' = s := h
        exact hif (f := fun g => { g with toNet := g.toNet.cut s' fun _ => true })
          (congrArg (fun n => { g with toNet := n }) (Net.cut_all_link _ _))
      | disconnect s' sig r slot =>
        obtain rfl : s' = s := h
        exact congrArg (fun n => { g with toNet := n }) (Net.cut_all_cut _ _)
      | internalDisconnect s' sig r slot =>
        obtain rfl : s' = s := h
        exact congrArg (fun n => { g with toNet := n }) (Net.cut_all_cut _ _)
      | _ => exact absurd h id
  | _ => exact absurd h id

theorem Graph.after_absorbs {d : Action} {bs : List Action} (g : Graph)
    (h : ∀ b ∈ bs, d.absorbs b) : (g.after bs).act d = g.act d := by
  induction bs generalizing g with
  | nil => rfl
  | cons b bs ih =>
    rw [Graph.after, List.foldl_cons, ← Graph.after,
      ih (g.act b) fun x hx => h x (List.mem_cons_of_mem _ hx),
      Graph.act_absorbs g (h b List.mem_cons_self)]

/-! ## The calls of a run -/

/-- A call that makes or ends connections of live objects succeeds, and changes
nothing but the lists. -/
theorem edit_step {σ : State} (h : σ.Inv) {b : Action} (hb : b.IsEdit) (hl : b.Legal σ.world) :
    ∃ σ1, step σ b = .ok σ1 ∧ SameObjects σ.world σ1.world := by
  have hw := h.memory.toSound
  have hcut : ∀ s sig r slot, (σ.world.sender s).isSome = true → ∃ σ1,
      σ.perform (internalDisconnect s sig r slot) = .ok σ1 ∧ SameObjects σ.world σ1.world := by
    intro s sig r slot hs
    obtain ⟨w', hrun, hD, _⟩ := internalDisconnect_run hw hs h.allocs sig r slot
    exact ⟨_, perform_returned hrun, hD.objects⟩
  simp only [step, if_pos hl]
  cases b with
  | connect o s sig r slot type u =>
    rcases connect_run hw hl.1 hl.2 h.allocs o sig slot type u with
      ⟨what, hrun⟩ | ⟨added, w', hrun, hD, _⟩
    · exact ⟨σ, by simp only [State.perform, hrun], SameObjects.refl _⟩
    · exact ⟨_, perform_returned hrun, hD.objects⟩
  | disconnect s sig r slot => exact hcut s _ _ _ hl.1
  | internalDisconnect s sig r slot => exact hcut s _ _ _ hl.1
  | _ => exact absurd hb id

theorem SameObjects.legal {w w' : World} (h : SameObjects w w') {a : Action} (ha : a.IsCall)
    (hl : a.Legal w) : a.Legal w' := by
  cases a with
  | activate => exact absurd ha id
  | ret => exact absurd ha id
  | throw => exact absurd ha id
  | newReceiver => trivial
  | _ => simpa only [Action.Legal, World.Free, h.sender, h.receiver, h.senderCount] using hl

theorem edits_run {bs : List Action} {σ : State} (h : σ.Inv) (hb : ∀ b ∈ bs, b.IsEdit)
    (hl : ∀ b ∈ bs, b.Legal σ.world) :
    ∃ σ1, run σ bs = .ok σ1 ∧ SameObjects σ.world σ1.world := by
  induction bs generalizing σ with
  | nil => exact ⟨σ, rfl, SameObjects.refl _⟩
  | cons b bs ih =>
    obtain ⟨σ1, h1, hsame⟩ := edit_step h (hb b List.mem_cons_self) (hl b List.mem_cons_self)
    have hcall : ∀ x, Action.IsEdit x → x.IsCall := by
      intro x hx
      cases x <;> trivial
    obtain ⟨σ2, h2, hsame2⟩ := ih (h.step h1).1 (fun x hx => hb x (List.mem_cons_of_mem _ hx))
      fun x hx => hsame.legal (hcall x (hb x (List.mem_cons_of_mem _ hx)))
        (hl x (List.mem_cons_of_mem _ hx))
    exact ⟨σ2, Runs.run_cons.mpr ⟨σ1, h1, h2⟩, hsame.trans hsame2⟩

/-- A call that the objects allow is allowed however their lists were changed. -/
theorem call_again {σ σ1 σ2 : State} (h1 : σ1.Inv)
    (hsame : SameObjects σ.world σ1.world) {d : Action} (hd : d.IsCall)
    (hstep : step σ d = .ok σ2) : ∃ σ3, step σ1 d = .ok σ3 := by
  have hl := hsame.legal hd (legal_of_step hstep)
  rcases step_call h1.memory.toSound h1.allocs hd hl with
    ⟨w', hok, _⟩ | ⟨s, o, rfl, ho, hbusy, hlock, _⟩
  · exact ⟨_, hok⟩
  · -- the destructor that a running handler refuses was refused before, too
    rw [hsame.sender] at ho
    rw [hsame.destroyedLocked] at hlock
    simp only [step, if_pos (legal_of_step hstep), State.perform,
      destroySignalBase_relocked ho hbusy hlock, reduceCtorEq] at hstep

/-- Whatever was connected and disconnected just before, `~SlotBase` of the slot,
`~SignalBase` of the signal and a disconnect of all its connections leave the
same objects, the same connections in the same order and the same bookings as
without it. -/
theorem absorbed {as bs : List Action} {σ σ2 : State} (hr : run State.init as = .ok σ)
    {d : Action} (hd : step σ d = .ok σ2) (hbs : ∀ b ∈ bs, d.absorbs b)
    (hl : ∀ b ∈ bs, b.Legal σ.world) :
    ∃ σ1, run σ (bs ++ [d]) = .ok σ1 ∧ σ1.world.graph = σ2.world.graph ∧
      ∀ r, σ2.world.receiver r = true → ∀ s,
        (σ1.world.possible r).count s = (σ2.world.possible r).count s := by
  have h := inv_reached hr
  cases bs with
  | nil => exact ⟨σ2, Runs.run_cons.mpr ⟨σ2, hd, rfl⟩, rfl, fun _ _ _ => rfl⟩
  | cons b bs =>
    obtain ⟨σ0, h0, hsame⟩ := edits_run h (fun x hx => (hbs x hx).isEdit) hl
    have hI0 := inv_run h h0
    obtain ⟨σ1, h1⟩ := call_again hI0 hsame (hbs b List.mem_cons_self).isCall hd
    have hgraph : σ1.world.graph = σ2.world.graph := by
      rw [graph_of_step hI0 h1, graph_of_run h h0, graph_of_step h hd, Graph.after_absorbs _ hbs]
    refine ⟨σ1, Runs.run_append.mpr ⟨σ0, h0, Runs.run_cons.mpr ⟨σ1, h1, rfl⟩⟩, hgraph,
      fun r hr' s => ?_⟩
    have hr1 : σ1.world.receiver r = true := by
      rw [show σ1.world.receiver = σ2.world.receiver from
        congrArg (fun g : Graph => g.target) hgraph, hr']
    rw [(hI0.step h1).1.memory.booked.count hr1 s, (h.step hd).1.memory.booked.count hr' s, hgraph]

/-- A slot that is connected once more, and then disconnected and destroyed, in
the middle of an emission. -/
theorem absorbed_reconnecting :
    ∃ σ1, run (after reconnecting) ([.connect .bento 0 (.method 0 (some 2)) 1
        (.method 1 (some 1)) .directConnection true,
        .internalDisconnect 0 none (some 1) none] ++ [.deleteReceiver 1]) = .ok σ1 ∧
      σ1.world.graph = (Runs.reached step (after reconnecting) [.deleteReceiver 1]).world.graph :=
  have ⟨σ1, h1, h2, _⟩ := absorbed (σ := after reconnecting) (d := .deleteReceiver 1)
    (Runs.run_reached (by decide +kernel)) (Runs.step_reached (by decide +kernel))
    (by simp [Action.absorbs]) (by decide +kernel)
  ⟨σ1, h1, h2⟩

/-! ## A connect taken back -/

/-- The test of `disconnect`, which has all three arguments. -/
theorem isMatch_iff_connects (sig : Bento) (r : ReceiverId) (slot : Bento) (c : ConnectStruct) :
    isMatch (some sig) (some r) (some slot) c = true ↔ Connects sig r slot c := by
  rw [isMatch_iff (fun _ => rfl), agrees_iff, Connects]
  constructor
  · rintro ⟨h1, h2, h3⟩
    exact ⟨(h2 r rfl).symm, h1 sig rfl, h3 slot rfl⟩
  · rintro ⟨h1, h2, h3⟩
    refine ⟨fun b hb => ?_, fun x hx => ?_, fun b hb => ?_⟩
    · rw [← Option.some.inj hb]
      exact h2
    · rw [← Option.some.inj hx]
      exact h1.symm
    · rw [← Option.some.inj hb]
      exact h3

/-- A `disconnect` with the same arguments takes a connection that a `connect`
made back exactly when both callables can be compared and no equal connection was
there before: then every list of the library is as it was, and otherwise one is not. -/
theorem connect_disconnect {as : List Action} {σ σ1 σ2 : State}
    (hr : run State.init as = .ok σ) {o : Overload} {s : SenderId} {sig slot : Bento}
    {r : ReceiverId} {type : ConnectionKind} {u : Bool}
    (hmade : ∃ w, connect o s sig r slot type u σ.world = .returned true w)
    (h1 : step σ (.connect o s sig r slot type u) = .ok σ1)
    (h2 : step σ1 (.disconnect s sig r slot) = .ok σ2) :
    σ2.world.graph = σ.world.graph ↔
      sig.comparable = true ∧ slot.comparable = true ∧
        ∀ c ∈ σ.world.conns s, ¬ Connects sig r slot c := by
  have h := inv_reached hr
  obtain ⟨hs, hlive⟩ := legal_of_step h1
  have htakes : σ.world.graph.Takes o s sig r slot u = true := by
    obtain ⟨w, hw⟩ := hmade
    rcases connect_eq o s sig r slot type u (w := σ.world) with ⟨_, what, hno⟩ | ⟨hacc, _⟩
    · rw [hno] at hw
      cases hw
    · obtain ⟨w', hrun, _⟩ := connect_does h.memory.toSound hs hlive h.allocs hacc type u
      rw [hw] at hrun
      injection hrun with hb _
      rw [Graph.Takes, hacc, World.graph_links hs, ← hb]
      rfl
  have hgraph : σ2.world.graph = { σ.world.graph with
      toNet := (σ.world.graph.link s ⟨sig, r, slot, type⟩).cut s
        (isMatch (some sig) (some r) (some slot)) } := by
    rw [graph_of_step (h.step h1).1 h2, graph_of_step h h1]
    simp only [Graph.act, htakes, if_true]
  have hnet : σ2.world.graph = σ.world.graph ↔
      (σ.world.graph.link s ⟨sig, r, slot, type⟩).cut s
        (isMatch (some sig) (some r) (some slot)) = σ.world.graph.toNet := by
    rw [hgraph]
    exact ⟨fun he => congrArg Graph.toNet he, fun he => by rw [he]⟩
  rw [hnet, Net.cut_link_iff, isMatch_iff_connects, World.graph_links hs]
  simp only [← Bool.not_eq_true, isMatch_iff_connects]
  constructor
  · rintro ⟨⟨_, ⟨_, hsig⟩, ⟨_, hslot⟩⟩, hnone⟩
    exact ⟨hsig, hslot, hnone⟩
  · rintro ⟨hsig, hslot, hnone⟩
    exact ⟨⟨rfl, ⟨rfl, hsig⟩, ⟨rfl, hslot⟩⟩, hnone⟩

/-- The slot of the running emission connects another slot of its own, and ends
that connection again. -/
theorem connect_disconnect_reconnecting :
    (Runs.reached step (Runs.reached step (after reconnecting)
      [.connect .methodSlot 0 (.method 0 (some 1)) 0 (.method 1 (some 4)) .autoConnection true])
      [.disconnect 0 (.method 0 (some 1)) 0 (.method 1 (some 4))]).world.graph =
    (after reconnecting).world.graph := by
  have hr : run State.init reconnecting = .ok (after reconnecting) :=
    Runs.run_reached (by decide +kernel)
  have h := inv_reached hr
  obtain ⟨w', hrun, _⟩ := @connect_does _ _ 0 0 h.memory.toSound (by decide +kernel)
    (by decide +kernel) h.allocs .methodSlot (.method 0 (some 1)) (.method 1 (some 4)) rfl
    .autoConnection true
  have htrue : (!(true && ((after reconnecting).world.conns 0).any
      (Overload.same .methodSlot (.method 0 (some 1)) 0 (.method 1 (some 4))))) = true := by
    decide +kernel
  rw [htrue] at hrun
  exact (connect_disconnect hr ⟨w', hrun⟩ (Runs.step_reached (by decide +kernel))
    (Runs.step_reached (by decide +kernel))).mpr ⟨rfl, rfl, by decide +kernel⟩

end CsSignal
