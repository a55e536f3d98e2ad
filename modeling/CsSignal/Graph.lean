-- What the lists are for: the graph of the connections. Every call of the library
-- does to the two lists of each connection what one operation does to the graph,
-- and an emission, however its slots nest, does nothing to it.
import CsSignal.Matching
import CsSignal.Lib.Links

namespace CsSignal

open LinkedCells Calls RcuList Links

/-! ## The graph -/

/-- The live signals, the live slots and the connections of each signal, with the
numbers that the next objects get. -/
@[ext]
structure Graph extends Net SenderId ReceiverId ConnectStruct where
  senderCount : Nat
  receiverCount : Nat

namespace Graph

def empty : Graph := ⟨Net.empty, 0, 0⟩

abbrev Closed (g : Graph) : Prop := g.toNet.Closed ConnectStruct.receiver

/-- How many connections lead from the signal to the slot. -/
def between (g : Graph) (s : SenderId) (r : ReceiverId) : Nat :=
  g.toNet.between ConnectStruct.receiver s r

/-- Does a `connect` make a connection here? -/
def Takes (g : Graph) (o : Overload) (s : SenderId) (sig : Bento) (r : ReceiverId) (slot : Bento)
    (u : Bool) : Bool :=
  o.accepts sig slot && !(u && (g.links s).any (o.same sig r slot))

/-- What an action is for. -/
def act (g : Graph) : Action → Graph
  | .newSender _ =>
    { g with toNet := g.addSource g.senderCount, senderCount := g.senderCount + 1 }
  | .newReceiver =>
    { g with toNet := g.addTarget g.receiverCount, receiverCount := g.receiverCount + 1 }
  | .connect o s sig r slot type u =>
    if g.Takes o s sig r slot u then { g with toNet := g.link s ⟨sig, r, slot, type⟩ } else g
  | .disconnect s sig r slot =>
    { g with toNet := g.cut s (isMatch (some sig) (some r) (some slot)) }
  | .internalDisconnect s sig r slot => { g with toNet := g.cut s (isMatch sig r slot) }
  | .deleteSender s => { g with toNet := g.dropSource s }
  | .deleteReceiver r => { g with toNet := g.dropTarget ConnectStruct.receiver r }
  | .senderList _ | .receiverList _ _ | .activate _ _ | .ret _ | .throw => g

/-- The graph after the actions. -/
def after (g : Graph) (as : List Action) : Graph := as.foldl act g

end Graph

/-- The graph that the lists of a world hold. -/
def World.graph (w : World) : Graph where
  source s := (w.sender s).isSome
  target := w.receiver
  links s := if (w.sender s).isSome then w.conns s else []
  senderCount := w.senderCount
  receiverCount := w.receiverCount

theorem World.graph_links {w : World} {s : SenderId} (hs : (w.sender s).isSome = true) :
    w.graph.links s = w.conns s := if_pos hs

theorem World.graph_dead {w : World} {s : SenderId} (hs : (w.sender s).isSome = false) :
    w.graph.links s = [] := if_neg (by rw [hs]; exact Bool.false_ne_true)

/-- No list of a live object mentions a dead one. -/
theorem World.Booked.closed {w : World} (h : w.Booked) : w.graph.Closed := by
  refine ⟨fun s hs => World.graph_dead hs, fun s c hc => ?_⟩
  cases hs : (w.sender s).isSome with
  | true =>
    rw [World.graph_links hs] at hc
    exact h.receivers s hs c hc
  | false =>
    rw [World.graph_dead hs] at hc
    cases hc

/-- The list of a slot has a signal once for each of its connections. -/
theorem World.Booked.count {w : World} (h : w.Booked) {r : ReceiverId} (hr : w.receiver r = true)
    (s : SenderId) : (w.possible r).count s = w.graph.between s r := by
  rw [Graph.between, Net.between]
  cases hs : (w.sender s).isSome with
  | true => rw [World.graph_links hs, h.counts s r hs hr]
  | false =>
    rw [World.graph_dead hs, List.countP_nil, List.count_eq_zero]
    intro hm
    rw [h.senders r hr s hm] at hs
    cases hs

/-- A graph is the one of the lists when it has their live objects and their
connections, and no link of a dead signal. -/
theorem World.graph_eq {w : World} {g : Graph} (hg : g.Closed)
    (hsource : ∀ s, (w.sender s).isSome = g.source s) (htarget : w.receiver = g.target)
    (hlinks : ∀ s, (w.sender s).isSome = true → w.conns s = g.links s)
    (hsender : w.senderCount = g.senderCount) (hreceiver : w.receiverCount = g.receiverCount) :
    w.graph = g := by
  refine Graph.ext (funext hsource) htarget (funext fun s => ?_) hsender hreceiver
  cases hs : (w.sender s).isSome with
  | true => rw [World.graph_links hs, hlinks s hs]
  | false => rw [World.graph_dead hs, hg.source s (by rw [← hsource, hs])]

/-- Calls that keep the objects and the connections keep the graph. -/
theorem World.graph_same {w w' : World} (h : w.Booked)
    (hsource : ∀ s, (w'.sender s).isSome = (w.sender s).isSome) (htarget : w'.receiver = w.receiver)
    (hlinks : ∀ s, (w'.sender s).isSome = true → w'.conns s = w.conns s)
    (hsender : w'.senderCount = w.senderCount) (hreceiver : w'.receiverCount = w.receiverCount) :
    w'.graph = w.graph :=
  World.graph_eq h.closed hsource htarget
    (fun s hs => (hlinks s hs).trans (World.graph_links (hsource s ▸ hs)).symm) hsender hreceiver

/-! ## The calls -/

theorem graph_newSender {w : World} {cursors : SenderId → List Cursor} (hw : w.Sound cursors)
    (addr : Addr) : (w.newSender addr).graph = w.graph.act (.newSender addr) := by
  have hnew : w.graph.source w.senderCount = false := by
    cases h : (w.sender w.senderCount).isSome with
    | false => exact h
    | true => exact absurd (hw.senderBound _ h) (Nat.lt_irrefl _)
  refine World.graph_eq (hw.booked.closed.addSource _) (fun s => ?_) rfl (fun s hs => ?_) rfl rfl
  · by_cases hss : s = w.senderCount
    · subst hss
      simp [World.newSender, Graph.act, Net.addSource, World.graph]
    · simp [World.newSender, Graph.act, Net.addSource, World.graph, Function.update_of_ne hss]
  · show _ = w.graph.links s
    by_cases hss : s = w.senderCount
    · subst hss
      rw [hw.booked.closed.source _ hnew]
      simp [World.conns, World.newSender, NodeList.values, NodeList.toList, walk]
    · simp only [World.newSender, Function.update_of_ne hss] at hs
      rw [World.graph_links hs]
      simp [World.conns, World.newSender, Function.update_of_ne hss]

theorem graph_newReceiver {w : World} (h : w.Booked) :
    w.newReceiver.graph = w.graph.act .newReceiver :=
  World.graph_eq (h.closed.addTarget _) (fun _ => rfl) rfl (fun _ hs => (World.graph_links hs).symm)
    rfl rfl

theorem graph_connect {w w' : World} (h : w.Booked) {s : SenderId} {r : ReceiverId}
    (hs : (w.sender s).isSome = true) (hr : w.receiver r = true) {sig slot : Bento}
    {type : ConnectionKind} (hD : ConnectDone s r (some ⟨sig, r, slot, type⟩) w w') :
    w'.graph = { w.graph with toNet := w.graph.link s ⟨sig, r, slot, type⟩ } := by
  refine World.graph_eq (h.closed.link hs hr) (fun s' => by rw [hD.objects.sender]; rfl)
    hD.objects.receiver (fun s' hs' => ?_) hD.objects.senderCount hD.objects.receiverCount
  show _ = Function.update w.graph.links s _ s'
  by_cases hss : s' = s
  · subst hss
    rw [Function.update_self, World.graph_links hs, hD.conns]
    rfl
  · rw [hD.objects.sender] at hs'
    rw [Function.update_of_ne hss, World.graph_links hs', hD.conns_ne hss]

theorem graph_disconnect {w w' : World} (h : w.Booked) {s : SenderId}
    (hs : (w.sender s).isSome = true) {hit : ConnectStruct → Bool}
    (hD : DisconnectDone s hit w w') :
    w'.graph = { w.graph with toNet := w.graph.cut s hit } := by
  refine World.graph_eq (h.closed.cut s hit) (fun s' => by rw [hD.objects.sender]; rfl)
    hD.objects.receiver (fun s' hs' => ?_) hD.objects.senderCount hD.objects.receiverCount
  show _ = Function.update w.graph.links s _ s'
  by_cases hss : s' = s
  · subst hss
    rw [Function.update_self, World.graph_links hs, hD.conns]
  · rw [hD.objects.sender] at hs'
    rw [Function.update_of_ne hss, World.graph_links hs', hD.conns_ne hss]

theorem graph_deleteReceiver {w w' : World} (h : w.Booked) {r : ReceiverId}
    (hD : ReceiverGone r w w') : w'.graph = w.graph.act (.deleteReceiver r) := by
  refine World.graph_eq (h.closed.dropTarget r) (fun s => by rw [hD.sender]; rfl) hD.receiver
    (fun s hs => ?_) hD.senderCount hD.receiverCount
  rw [hD.sender] at hs
  rw [hD.conns hs]
  exact congrArg _ (World.graph_links hs).symm

theorem graph_deleteSender {w w' : World} (h : w.Booked) {s : SenderId} {o : SignalBase}
    (hD : SenderGone s o w w') : w'.graph = w.graph.act (.deleteSender s) := by
  refine World.graph_eq (h.closed.dropSource s) (fun s' => ?_) hD.receiver (fun s' hs' => ?_)
    hD.senderCount hD.receiverCount
  · show _ = Function.update w.graph.source s false s'
    rw [hD.sender]
    by_cases hss : s' = s
    · subst hss
      rw [Function.update_self, Function.update_self]
      rfl
    · rw [Function.update_of_ne hss, Function.update_of_ne hss]
      rfl
  · have hss : s' ≠ s := by
      rintro rfl
      rw [hD.sender, Function.update_self] at hs'
      cases hs'
    rw [hD.sender, Function.update_of_ne hss] at hs'
    show _ = Function.update w.graph.links s [] s'
    rw [Function.update_of_ne hss, World.graph_links hs', World.conns, hD.others s' hss]
    rfl

/-! ## An emission -/

/-- What the steps of an emission leave: which objects there are, and what the
slots know. -/
structure Untouched (w w' : World) : Prop where
  sender : ∀ s, (w'.sender s).isSome = (w.sender s).isSome
  receiver : w'.receiver = w.receiver
  possibleSenders : w'.possibleSenders = w.possibleSenders
  senderCount : w'.senderCount = w.senderCount
  receiverCount : w'.receiverCount = w.receiverCount

theorem Untouched.trans {w w' w'' : World} (h : Untouched w w') (h' : Untouched w' w'') :
    Untouched w w'' :=
  ⟨fun s => (h'.sender s).trans (h.sender s), h'.receiver.trans h.receiver,
    h'.possibleSenders.trans h.possibleSenders, h'.senderCount.trans h.senderCount,
    h'.receiverCount.trans h.receiverCount⟩

theorem SameLists.untouched {w w' : World} (h : SameLists w w') : Untouched w w' :=
  ⟨h.sender, h.receiver, h.possibleSenders, h.senderCount, h.receiverCount⟩

theorem Released.untouched {s : SenderId} {g : Nat} {cursors : SenderId → List Cursor}
    {w w' : World} (h : Released s g cursors w w') : Untouched w w' := by
  obtain ⟨l, _, rfl⟩ := h.eq
  exact ⟨fun _ => rfl, rfl, rfl, rfl, rfl⟩

theorem lessBusy_untouched {σ : State} {f : Frame} {o : SignalBase}
    (ho : σ.world.sender f.activation.sender = some o) : Untouched σ.world (σ.lessBusy f o) := by
  refine ⟨lessBusy_sameLists ho, ?_, ?_, ?_, ?_⟩ <;>
    (unfold State.lessBusy State.resumed; split <;> rfl)

theorem Next.untouched {σ σ' : State} {a : Action} (hN : Next σ a σ') (hc : ¬ a.IsCall) :
    Untouched σ.world σ'.world := by
  cases hN with
  | call hc' => exact absurd hc' hc
  | @enter s o sig σ' ho hE =>
    have hlock : Untouched σ.world (σ.entered s sig).world := ⟨fun _ => rfl, rfl, rfl, rfl, rfl⟩
    cases hE with
    | met => exact hlock
    | ended hend => exact hlock.trans hend.released.untouched
  | @move a f rest σ' hst hM =>
    cases hM with
    | dispatched hcall ho hc' hr =>
      exact (withBusy_sameLists ho _).untouched
    | next hcall hfree ho hstep hmet hr =>
      exact lessBusy_untouched (σ := { σ with stack := rest }) ho
    | ended hcall hfree ho hstep hend =>
      exact (lessBusy_untouched (σ := { σ with stack := rest }) ho).trans hend.released.untouched
    | stopped hend hcall hlock hmark hrel =>
      exact (unmarked_sameLists { σ with stack := rest } f).untouched.trans hrel.untouched
    | handling => exact ⟨fun _ => rfl, rfl, rfl, rfl, rfl⟩
    | left hcall hrel => exact hrel.untouched
    | handlerLeft hcall hrel =>
      exact (⟨fun _ => rfl, rfl, rfl, rfl, rfl⟩ : Untouched σ.world
        { σ.world with destroyedLocked := false }).trans hrel.untouched

/-! ## One step, and every run -/

theorem graph_of_step {σ σ' : State} {a : Action} (h : σ.Inv) (hstep : step σ a = .ok σ') :
    σ'.world.graph = σ.world.graph.act a := by
  have hl := legal_of_step hstep
  have hB := h.memory.booked
  by_cases hc : a.IsCall
  · simp only [step, if_pos hl] at hstep
    cases a with
    | newSender addr =>
      cases hstep
      exact graph_newSender h.memory.toSound addr
    | newReceiver =>
      cases hstep
      exact graph_newReceiver hB
    | connect o s sig r slot type u =>
      have hlinks := World.graph_links hl.1
      rcases connect_eq o s sig r slot type u (w := σ.world) with ⟨hno, what, hrun⟩ | ⟨hacc, _⟩
      · simp only [State.perform, hrun, Except.ok.injEq] at hstep
        subst hstep
        simp only [Graph.act, Graph.Takes, hno, Bool.false_and, Bool.false_eq_true, if_false]
      · obtain ⟨w', hrun, hD⟩ := connect_does h.memory.toSound hl.1 hl.2 h.allocs hacc type u
        rw [perform_eq hstep hrun]
        simp only [Graph.act, Graph.Takes, hacc, Bool.true_and, hlinks]
        cases hdup : u && (σ.world.conns s).any (o.same sig r slot) with
        | false =>
          simp only [hdup, Bool.false_eq_true, if_false] at hD
          exact graph_connect hB hl.1 hl.2 hD
        | true =>
          simp only [hdup, if_true] at hD
          refine World.graph_same hB (fun s' => by rw [hD.objects.sender]) hD.objects.receiver
            (fun s' hs' => ?_) hD.objects.senderCount hD.objects.receiverCount
          by_cases hss : s' = s
          · subst hss
            simpa using hD.conns
          · exact hD.conns_ne hss
    | disconnect s sig r slot =>
      obtain ⟨w', hrun, hD, _⟩ := internalDisconnect_run h.memory.toSound hl.1 h.allocs (some sig)
        (some r) (some slot)
      rw [perform_eq hstep hrun]
      exact graph_disconnect hB hl.1 hD
    | internalDisconnect s sig r slot =>
      obtain ⟨w', hrun, hD, _⟩ := internalDisconnect_run h.memory.toSound hl.1 h.allocs sig r slot
      rw [perform_eq hstep hrun]
      exact graph_disconnect hB hl.1 hD
    | deleteSender s =>
      obtain ⟨o, ho⟩ := Option.isSome_iff_exists.mp hl
      have hfree : o.activateBusy > 0 → σ.world.destroyedLocked = false := fun hb => by
        by_contra hlock
        rw [Bool.not_eq_false] at hlock
        simp only [State.perform, destroySignalBase_relocked ho hb hlock, reduceCtorEq] at hstep
      obtain ⟨w', hrun, _, hD⟩ := did_deleteSender h.memory.toSound h.allocs ho hfree
      rw [perform_eq hstep hrun]
      exact graph_deleteSender hB hD
    | deleteReceiver r =>
      obtain ⟨w', hrun, hD⟩ := destroySlotBase_run h.memory.toSound hl h.allocs
      rw [perform_eq hstep hrun]
      exact graph_deleteReceiver hB hD
    | senderList r =>
      obtain ⟨l, hrun, _⟩ := internalSenderList_run h.memory.toSound hl h.allocs
      rw [perform_eq hstep hrun]
      exact World.graph_same hB (fun _ => rfl) rfl (fun _ _ => rfl) rfl rfl
    | receiverList s sig =>
      obtain ⟨l, hrun, _, hlist⟩ := internalReceiverList_run h.memory.toSound hl h.allocs sig
      rw [perform_eq hstep hrun]
      refine World.graph_same hB (fun _ => rfl) rfl (fun s' hs' => conns_of_toList ?_) rfl rfl
      show (Function.update σ.world.connectList s l s').toList = _
      by_cases hss : s' = s
      · subst hss
        rw [Function.update_self, hlist]
      · rw [Function.update_of_ne hss]
    | activate => exact absurd hc id
    | ret => exact absurd hc id
    | throw => exact absurd hc id
  · have hN := (h.step hstep).2
    have hU := hN.untouched hc
    have hact : σ.world.graph.act a = σ.world.graph := by
      cases a <;> first | rfl | exact absurd trivial hc
    rw [hact]
    exact World.graph_same hB hU.sender hU.receiver (fun s hs => hN.conns_eq h hc hs) hU.senderCount
      hU.receiverCount

theorem graph_of_run {as : List Action} {σ σ' : State} (h : σ.Inv) (hr : run σ as = .ok σ') :
    σ'.world.graph = σ.world.graph.after as := by
  induction as generalizing σ with
  | nil =>
    cases hr
    rfl
  | cons a as ih =>
    obtain ⟨σ1, h1, hr⟩ := Runs.run_cons.mp hr
    rw [Graph.after, List.foldl_cons, ← graph_of_step h h1]
    exact ih (h.step h1).1 hr

theorem graph_init : State.init.world.graph = Graph.empty := rfl

theorem graph_reached {as : List Action} {σ : State} (hr : run State.init as = .ok σ) :
    σ.world.graph = Graph.empty.after as := graph_init ▸ graph_of_run inv_init hr

/-- In every state that a program reaches, in the middle of an emission too, the
live objects and the lists of the signals are those of the graph, and the list
of a live slot has each signal once for each of its connections to the slot. -/
theorem run_refines {as : List Action} {σ : State} (hr : run State.init as = .ok σ) :
    σ.world.graph = Graph.empty.after as ∧
      ∀ r, σ.world.receiver r = true → ∀ s,
        (σ.world.possible r).count s = (Graph.empty.after as).between s r :=
  ⟨graph_reached hr, fun _ hr' s =>
    graph_reached hr ▸ (inv_reached hr).memory.booked.count hr' s⟩

/-- A slot that disconnects itself and connects again in the middle of an emission. -/
def reconnecting : List Action :=
  [.newSender 100, .newReceiver, .newReceiver,
    .connect .methodSlot 0 (.method 0 (some 1)) 0 (.method 1 (some 1)) .autoConnection false,
    .connect .methodSlot 0 (.method 0 (some 1)) 1 (.method 1 (some 2)) .autoConnection false,
    .activate 0 (.method 0 (some 1)), .ret true,
    .disconnect 0 (.method 0 (some 1)) 0 (.method 1 (some 1)),
    .connect .methodSlot 0 (.method 0 (some 1)) 0 (.method 1 (some 3)) .queuedConnection true]

theorem run_refines_reconnecting :
    (after reconnecting).world.graph = Graph.empty.after reconnecting ∧
      ∀ r, (after reconnecting).world.receiver r = true → ∀ s,
        ((after reconnecting).world.possible r).count s =
          (Graph.empty.after reconnecting).between s r :=
  run_refines (Runs.run_reached (by decide +kernel))

end CsSignal
