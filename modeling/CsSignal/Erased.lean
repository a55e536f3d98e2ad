-- An emission may stand on a connection that its own slot took out of the list,
-- and go on by the pointer that this connection keeps. When that pointer leads to
-- the next connection, and the slot takes that one out too, the emission calls it.
import CsSignal.Emission

namespace CsSignal

open LinkedCells Calls RcuList

/-! ## The way to the next connection -/

/-- The nodes that the loop comes to from `iter`, up to the first one whose data
has the property; none when there is no such node. -/
def NodeList.way {α : Type} (l : NodeList α) (p : α → Bool) : Nat → Option Nat → Option (List Nat)
  | _, none => none
  | 0, some _ => none
  | fuel + 1, some n =>
    match l.node n with
    | none => none
    | some c => if p c.data then some [n] else (l.way p fuel c.next).map (n :: ·)

/-- From a node of the list the loop comes to nodes of the list only. -/
theorem RcuList.Guarded.find_mem {l : RcuList ConnectStruct} {cs : List Cursor} (h : Guarded l cs)
    {p : ConnectStruct → Bool} {fuel : Nat} {iter : Option Nat} {n : Nat}
    (hi : ∀ i, iter = some i → i ∈ ids l.toList) (hf : l.find p fuel iter = .ok (some n)) :
    n ∈ ids l.toList := by
  induction fuel generalizing iter with
  | zero => cases iter <;> cases hf
  | succ fuel ih =>
    cases iter with
    | none => cases hf
    | some i =>
      obtain ⟨zs, hr, _, _⟩ := id h
      obtain ⟨c, hc, -, -⟩ := hr.nodes.cell_of_mem (hi i rfl)
      unfold NodeList.find NodeList.deref at hf
      simp only [hc, ok_bind] at hf
      by_cases hp : p c.data = true
      · rw [if_pos hp] at hf
        cases hf
        exact hi n rfl
      · rw [if_neg hp] at hf
        exact ih (fun y hy => ((hr.nodes.next_of_mem (hi i rfl) hc).1 y hy).2) hf

/-- A step that leaves in the list some node on the way lets the loop come to a
node of the list: up to the first such node the pointers stay as they were, and
from there on the loop walks in the list. -/
theorem Kept.find_mem {l l' : RcuList ConnectStruct} (hk : Kept l l') {cs : List Cursor}
    (h : Guarded l' cs) {p : ConnectStruct → Bool} {fuel fuel' : Nat} {iter res : Option Nat}
    {n : Nat} (hf : l.find p fuel iter = .ok res)
    (hw : ∀ ns ∈ l.way p fuel iter, ∃ m ∈ ns, m ∈ ids l'.toList)
    (hf' : l'.find p fuel' iter = .ok (some n)) : n ∈ ids l'.toList := by
  induction fuel generalizing iter fuel' with
  | zero =>
    cases iter with
    | none => cases fuel' <;> cases hf'
    | some i => cases hf
  | succ fuel ih =>
    cases iter with
    | none => cases fuel' <;> cases hf'
    | some i =>
      by_cases hi : i ∈ ids l'.toList
      · exact h.find_mem (fun y hy => Option.some.inj hy ▸ hi) hf'
      · unfold NodeList.find NodeList.deref at hf
        cases hc : l.node i with
        | none =>
          rw [hc] at hf
          cases hf
        | some c =>
          obtain ⟨c', hc', hd, hnext⟩ := hk.cells i c hc
          cases fuel' with
          | zero => cases hf'
          | succ fuel' =>
            unfold NodeList.find NodeList.deref at hf'
            unfold NodeList.way at hw
            simp only [hc, hc', ok_bind, hd, hnext hi] at hf hf' hw
            by_cases hp : p c.data = true
            · rw [if_pos hp] at hw
              obtain ⟨m, hm, hin⟩ := hw [i] rfl
              exact absurd (List.mem_singleton.mp hm ▸ hin) hi
            · rw [if_neg hp] at hf hf' hw
              refine ih hf (fun ns hns => ?_) hf'
              obtain ⟨m, hm, hin⟩ := hw (i :: ns) (Option.mem_map_of_mem _ hns)
              rcases List.mem_cons.mp hm with rfl | hm
              · exact absurd hin hi
              · exact ⟨m, hm, hin⟩

theorem find_ok {l : RcuList ConnectStruct} {live : List (Nat × ConnectStruct)} {zs : List Entry}
    (hr : RcuList.Rep l live zs) {g st : Nat} (hg : Locked zs g st) {p : ConnectStruct → Bool}
    {fuel : Nat} {iter : Option Nat}
    (hi : ∀ n, iter = some n → Reached live zs g n ∧ l.nodeCount ≤ n + fuel) :
    ∃ res, l.find p fuel iter = .ok res := by
  induction fuel generalizing iter with
  | zero =>
    cases iter with
    | none => exact ⟨none, rfl⟩
    | some n =>
      obtain ⟨c, hc, _⟩ := hr.step hg (hi n rfl).1
      rw [hr.nodes.fresh n (hi n rfl).2] at hc
      cases hc
  | succ fuel ih =>
    cases iter with
    | none => exact ⟨none, rfl⟩
    | some n =>
      obtain ⟨hn, hle⟩ := hi n rfl
      obtain ⟨c, hc, hnext, _⟩ := hr.step hg hn
      unfold NodeList.find NodeList.deref
      simp only [hc, ok_bind]
      by_cases hp : p c.data = true
      · exact ⟨some n, by rw [if_pos hp]⟩
      · rw [if_neg hp]
        apply ih
        intro y hy
        obtain ⟨hlt, hy'⟩ := hnext y hy
        exact ⟨hy', by omega⟩

/-- An iterator under any of the guards can go on to the next connection. -/
theorem RcuList.Guarded.next_ok {l : RcuList ConnectStruct} {cs : List Cursor} (h : Guarded l cs)
    {g st n : Nat} (hc : ⟨g, some n, st⟩ ∈ cs) (p : ConnectStruct → Bool) :
    ∃ c, l.node n = some c ∧ ∃ res, l.find p l.nodeCount c.next = .ok res := by
  obtain ⟨zs, hr, _, ha⟩ := h
  obtain ⟨hg, hn⟩ := ha _ hc
  obtain ⟨c, hcell, hnext, _⟩ := hr.step hg (hn n rfl)
  refine ⟨c, hcell, find_ok hr hg fun y hy => ?_⟩
  exact ⟨(hnext y hy).2, Nat.le_add_left _ _⟩

/-! ## What a run must spare -/

instance (a : Action) : Decidable a.IsEnd :=
  match a with
  | .ret _ | .throw => isTrue trivial
  | .newSender .. | .newReceiver | .connect .. | .disconnect .. | .internalDisconnect ..
  | .deleteSender _ | .deleteReceiver _ | .senderList _ | .receiverList .. | .activate .. =>
    isFalse id

/-- Slots destroy no signal, and `compareThreads` does nothing but return or throw. -/
def SlotsOnly (σ : State) (a : Action) : Prop :=
  a.deletes = none ∧ ∀ f ∈ σ.stack.head?, f.call = .compareThreads → a.IsEnd

instance (σ : State) (a : Action) : Decidable (SlotsOnly σ a) :=
  inferInstanceAs (Decidable (_ ∧ ∀ f ∈ σ.stack.head?, _ → _))

/-- The node is in the list of the signal, and the action leaves it there. -/
def State.Stays (σ : State) (a : Action) (s : SenderId) (n : Nat) : Prop :=
  ∃ x ∈ (σ.world.connectList s).toList, x.1 = n ∧ a.removes s x.2 = false

instance (σ : State) (a : Action) (s : SenderId) (n : Nat) : Decidable (σ.Stays a s n) :=
  inferInstanceAs (Decidable (∃ x ∈ (σ.world.connectList s).toList, _))

/-- The way of an activation from the node it stands on to its next connection. -/
def State.way (σ : State) (f : Frame) : Option (List Nat) :=
  let l := σ.world.connectList f.activation.sender
  match l.node f.iter with
  | none => none
  | some c => l.way f.activation.wants l.nodeCount c.next

/-- For every activation in progress that has a next connection, the action
leaves in the list the node it stands on, or some node on the way to the next
connection, or that connection. -/
def Spares (σ : State) (a : Action) : Prop :=
  ∀ f ∈ σ.stack, ∀ ns ∈ σ.way f, ∃ m ∈ f.iter :: ns, σ.Stays a f.activation.sender m

instance (σ : State) (a : Action) : Decidable (Spares σ a) :=
  inferInstanceAs (Decidable (∀ f ∈ σ.stack, ∀ ns ∈ σ.way f, ∃ m ∈ f.iter :: ns, _))

/-! ## The loop stays in the list -/

/-- The next connection of the activation is in the list. -/
structure Frame.Clear (f : Frame) (w : World) : Prop where
  live : (w.sender f.activation.sender).isSome = true
  receiver : ∀ c, (w.connectList f.activation.sender).node f.iter = some c →
    c.data.receiver = f.receiver
  ahead : ∀ c, (w.connectList f.activation.sender).node f.iter = some c → ∀ fuel n,
    (w.connectList f.activation.sender).find f.activation.wants fuel c.next = .ok (some n) →
      n ∈ ids (w.connectList f.activation.sender).toList

structure State.Clear (σ : State) : Prop where
  frames : ∀ f ∈ σ.stack, f.Clear σ.world
  asked : ∀ f ∈ σ.stack.head?, f.call = .compareThreads →
    f.iter ∈ ids (σ.world.connectList f.activation.sender).toList
  waiting : ∀ f ∈ σ.stack.tail, f.call ≠ .compareThreads

/-- An activation that stands in the list has its way in the list. -/
theorem Frame.Clear.of_mem {f : Frame} {w : World} {cursors : SenderId → List Cursor}
    (hw : w.Memory cursors) (hs : (w.sender f.activation.sender).isSome = true)
    (hi : f.iter ∈ ids (w.connectList f.activation.sender).toList)
    (hr : ∀ c, (w.connectList f.activation.sender).node f.iter = some c →
      c.data.receiver = f.receiver) : f.Clear w := by
  refine ⟨hs, hr, fun c hc fuel n hf => ?_⟩
  have hg := hw.lists _ hs
  obtain ⟨zs, hrep, _, _⟩ := id hg
  exact hg.find_mem (fun y hy => ((hrep.nodes.next_of_mem hi hc).1 y hy).2) hf

/-- The frame of a call that is still running after the step. -/
theorem Frame.Clear.keep {σ σ' : State} {a : Action} {f : Frame} (h : f.Clear σ.world)
    (hI : σ.Inv) (hI' : σ'.Inv) (hf : f ∈ σ.stack)
    (hstay : f.cursor ∈ staying σ a f.activation.sender)
    (hs' : (σ'.world.sender f.activation.sender).isSome = true)
    (hstep : StepOn σ σ' a f.activation.sender)
    (hsp : ∀ ns ∈ σ.way f, ∃ m ∈ f.iter :: ns, σ.Stays a f.activation.sender m) :
    f.Clear σ'.world := by
  have hk := hstep.kept (List.ne_nil_of_mem hstay)
  have hg' := hI'.memory.lists _ hs'
  obtain ⟨c, hc, res, hres⟩ := (hI.memory.lists _ h.live).next_ok (mem_cursorsOf hf)
    f.activation.wants
  obtain ⟨c', hc', hd, hnext⟩ := hk.cells f.iter c hc
  have hrec : ∀ c, (σ'.world.connectList f.activation.sender).node f.iter = some c →
      c.data.receiver = f.receiver := by
    intro d hd'
    obtain rfl : c' = d := Option.some.inj (hc'.symm.trans hd')
    rw [hd]
    exact h.receiver c hc
  have hin : ∀ m, σ.Stays a f.activation.sender m →
      m ∈ ids (σ'.world.connectList f.activation.sender).toList := by
    rintro m ⟨x, hx, rfl, hr⟩
    exact List.mem_map_of_mem (hstep.stays x hx hr)
  by_cases hi : f.iter ∈ ids (σ'.world.connectList f.activation.sender).toList
  · exact .of_mem hI'.memory hs' hi hrec
  · refine ⟨hs', hrec, fun d hd' fuel n hn => ?_⟩
    obtain rfl : c' = d := Option.some.inj (hc'.symm.trans hd')
    rw [hnext hi] at hn
    refine hk.find_mem hg' hres (fun ns hns => ?_) hn
    have hway : ns ∈ σ.way f := by
      unfold State.way
      simp only [hc]
      exact hns
    obtain ⟨m, hm, hst⟩ := hsp ns hway
    rcases List.mem_cons.mp hm with rfl | hm
    · exact absurd (hin _ hst) hi
    · exact ⟨m, hm, hin m hst⟩

/-- The state after a move: the calls below the innermost one, and what became of it. -/
theorem State.Clear.of_rest {σ : State} {rest : List Frame}
    (hrest : ∀ f ∈ rest, f.Clear σ.world ∧ f.call ≠ .compareThreads)
    (hst : σ.stack = rest ∨ ∃ f, σ.stack = f :: rest ∧ f.Clear σ.world ∧
      (f.call = .compareThreads →
        f.iter ∈ ids (σ.world.connectList f.activation.sender).toList)) : σ.Clear := by
  rcases hst with hst | ⟨f, hst, hf, ha⟩
  · refine ⟨fun g hg => (hrest g (hst ▸ hg)).1, fun g hg hc => ?_, fun g hg => ?_⟩
    · rw [hst] at hg
      exact absurd hc (hrest g (List.mem_of_mem_head? hg)).2
    · rw [hst] at hg
      exact (hrest g (List.mem_of_mem_tail hg)).2
  · refine ⟨fun g hg => ?_, fun g hg hc => ?_, fun g hg => ?_⟩
    · rw [hst] at hg
      rcases List.mem_cons.mp hg with rfl | hg
      · exact hf
      · exact (hrest g hg).1
    · rw [hst] at hg
      cases hg
      exact ha hc
    · rw [hst] at hg
      exact (hrest g hg).2

theorem State.Clear.next {σ σ' : State} {a : Action} (h : σ.Clear) (hI : σ.Inv)
    (hq : SlotsOnly σ a) (hsp : Spares σ a) (hN : Next σ a σ') : σ'.Clear := by
  have hI' := hI.next hN
  have hkeep : ∀ f ∈ σ.stack, f.cursor ∈ staying σ a f.activation.sender → f.Clear σ'.world :=
    fun f hf hstay =>
      have hs := (h.frames f hf).live
      have hs' := live_of_next hN hq.1 hs
      (h.frames f hf).keep hI hI' hf hstay hs' (hN.stepOn hI hs hs') (hsp f hf)
  -- while `compareThreads` runs nothing is called
  have hidle : ¬ a.IsEnd → ∀ f ∈ σ.stack, f.call ≠ .compareThreads := by
    intro hne f hf hc
    cases hst : σ.stack with
    | nil =>
      rw [hst] at hf
      cases hf
    | cons g rest =>
      have hhead : g ∈ σ.stack.head? := by rw [hst]; rfl
      rw [hst] at hf
      rcases List.mem_cons.mp hf with rfl | hf
      · exact hne (hq.2 f hhead hc)
      · exact h.waiting f (by rw [hst]; exact hf) hc
  cases hN with
  | @call a w' hc hD =>
    have hne : ¬ a.IsEnd := by
      intro he
      cases a <;> first | exact hc | exact he
    refine ⟨fun f hf => hkeep f hf ?_, fun f hf hcall => ?_, h.waiting⟩
    · rw [staying_call hc]
      exact mem_cursorsOf hf
    · exact absurd hcall (hidle hne f (List.mem_of_mem_head? hf))
  | @enter s o sig σ' ho hE =>
    have hs : (σ.world.sender s).isSome = true := by rw [ho]; rfl
    have hrest : ∀ f ∈ σ.stack, f.Clear σ'.world ∧ f.call ≠ .compareThreads :=
      fun f hf => ⟨hkeep f hf (mem_cursorsOf hf), hidle id f hf⟩
    cases hE with
    | @met n c hmet hr =>
      have hg := hmet.memory.lists s hs
      have hself : (σ.entered s sig).world.connectList s = (σ.world.connectList s).rcuReadLock.2 :=
        (connectListOf s).get_set _ _
      have hlock := (hI.memory.lists s hs).lock.2
      have hn : n ∈ ids ((σ.entered s sig).world.connectList s).toList := by
        refine hg.find_mem (fun y hy => ?_) hmet.find
        rw [hself, hlock]
        exact (hI.memory.lists s hs).head_le.1 y hy
      refine .of_rest hrest (Or.inr ⟨_, rfl, ?_, fun _ => hn⟩)
      refine .of_mem hmet.memory hs hn fun d hd => ?_
      rw [Option.some.inj (hd.symm.trans hmet.cell)]
    | ended hend => exact .of_rest hrest (Or.inl rfl)
  | @move a f rest σ' hst hM =>
    have hf := h.frames f (by rw [hst]; exact List.mem_cons_self)
    have hrest : ∀ g ∈ rest, g.Clear σ'.world ∧ g.call ≠ .compareThreads := by
      intro g hg
      refine ⟨hkeep g (by rw [hst]; exact List.mem_cons_of_mem _ hg) ?_,
        h.waiting g (by rw [hst]; exact hg)⟩
      rw [staying_end hM.isEnd hst]
      exact mem_cursorsOf hg
    have hlive := live_of_next (.move hst hM) hq.1 hf.live
    obtain ⟨h1, _, _, _, _, _, h7, _⟩ := resumed_fields { σ with stack := rest } f
    cases hM with
    | @dispatched b o c hcall ho hc hr =>
      refine .of_rest hrest (Or.inr ⟨_, rfl, ⟨hlive, hf.receiver, hf.ahead⟩, fun hcmp => ?_⟩)
      have := State.isSlot_callFor c.data.type b
      rw [show State.callFor c.data.type b = .compareThreads from hcmp] at this
      cases this
    | @next b o c c' n hcall hfree ho hstep hmet hr =>
      have hn : n ∈ ids ((State.lessBusy { σ with stack := rest } f o).connectList
          f.activation.sender).toList := by
        have hfind := hmet.find
        rw [show (State.lessBusy { σ with stack := rest } f o).connectList =
          σ.world.connectList from h7] at hfind ⊢
        exact hf.ahead c hstep.cell _ n hfind
      refine .of_rest hrest (Or.inr ⟨_, congrArg _ h1, ?_, fun _ => hn⟩)
      refine .of_mem hmet.memory hlive hn fun d hd => ?_
      rw [Option.some.inj (hd.symm.trans hmet.cell)]
    | ended => exact .of_rest hrest (Or.inl h1)
    | stopped => exact .of_rest hrest (Or.inl rfl)
    | handling =>
      exact .of_rest hrest (Or.inr ⟨_, rfl, ⟨hlive, hf.receiver, hf.ahead⟩, by rintro ⟨⟩⟩)
    | left => exact .of_rest hrest (Or.inl rfl)
    | handlerLeft => exact .of_rest hrest (Or.inl rfl)

/-! ## Every call is for a connection in the list -/

/-- The entry of a node of a list. -/
theorem RcuList.Guarded.entry {l : RcuList ConnectStruct} {cs : List Cursor} (h : Guarded l cs)
    {n : Nat} (hn : n ∈ ids l.toList) {c : Node ConnectStruct} (hc : l.node n = some c) :
    (n, c.data) ∈ l.toList := by
  obtain ⟨zs, hr, _, _⟩ := h
  obtain ⟨d, hd, _, hm⟩ := hr.nodes.cell_of_mem hn
  obtain rfl : d = c := Option.some.inj (hd.symm.trans hc)
  exact hm

theorem State.Clear.calls_in_list {σ σ' : State} {a : Action} (h : σ.Clear) (h' : σ'.Clear)
    (hI' : σ'.Inv) (hN : Next σ a σ') :
    ∀ e ∈ newCalls σ σ', (e.node, e.connection) ∈ (σ'.world.connectList e.sender).toList := by
  intro e he
  cases hN with
  | call hc hD => exact absurd he (not_mem_newCalls rfl e)
  | @enter s o sig σ' ho hE =>
    cases hE with
    | met hmet hr =>
      rw [mem_newCalls_push rfl he]
      have hs := (h'.frames _ List.mem_cons_self).live
      exact (hI'.memory.lists _ hs).entry (h'.asked _ rfl rfl) hmet.cell
    | ended hend => exact absurd he (not_mem_newCalls rfl e)
  | @move a f rest σ' hst hM =>
    obtain ⟨_, _, h3, _⟩ := resumed_fields { σ with stack := rest } f
    cases hM with
    | dispatched hcall ho hc hr =>
      rw [mem_newCalls_push rfl he]
      have hs := (h'.frames _ List.mem_cons_self).live
      have hin := h.asked f (by rw [hst]; rfl) hcall
      exact (hI'.memory.lists _ hs).entry hin hc
    | next hcall hfree ho hstep hmet hr =>
      rw [mem_newCalls_push h3 he]
      have hs := (h'.frames _ List.mem_cons_self).live
      exact (hI'.memory.lists _ hs).entry (h'.asked _ rfl rfl) hmet.cell
    | ended => exact absurd he (not_mem_newCalls h3 e)
    | stopped | handling | left | handlerLeft => exact absurd he (not_mem_newCalls rfl e)

/-- The slot of an entry of the list exists. -/
theorem receiver_of_mem {w : World} {cursors : SenderId → List Cursor} (hw : w.Memory cursors)
    {s : SenderId} (hs : (w.sender s).isSome = true) {n : Nat}
    (hn : n ∈ ids (w.connectList s).toList) {c : Node ConnectStruct}
    (hc : (w.connectList s).node n = some c) : w.receiver c.data.receiver = true := by
  have hm := (hw.lists s hs).entry hn hc
  exact hw.booked.receivers s hs _ (List.mem_map_of_mem hm)

theorem State.Clear.no_fault {σ : State} {a : Action} (h : σ.Clear) (hI : σ.Inv) :
    step σ a ≠ .error (.fault .destroyed) := by
  intro hfail
  cases fails_of_step hI.memory hI.allocs hfail with
  | @enter s o sig n c ho hmet hr =>
    have hs : (σ.world.sender s).isSome = true := by rw [ho]; rfl
    have hself : (σ.entered s sig).world.connectList s = (σ.world.connectList s).rcuReadLock.2 :=
      (connectListOf s).get_set _ _
    have hn : n ∈ ids ((σ.entered s sig).world.connectList s).toList := by
      refine (hmet.memory.lists s hs).find_mem (fun y hy => ?_) hmet.find
      rw [hself, (hI.memory.lists s hs).lock.2]
      exact (hI.memory.lists s hs).head_le.1 y hy
    rw [show σ.world.receiver c.data.receiver = true from
      receiver_of_mem hmet.memory hs hn hmet.cell] at hr
    cases hr
  | @move a f rest u hst hC =>
    have hf := h.frames f (by rw [hst]; exact List.mem_cons_self)
    cases hC with
    | sender hdead hmark =>
      have := hf.live
      rw [show σ.world.sender f.activation.sender = none from hdead] at this
      cases this
    | receiver hcall hdead =>
      have hn := h.asked f (by rw [hst]; rfl) hcall
      obtain ⟨x, hx, hxn⟩ := List.mem_map.mp hn
      obtain ⟨zs, hr, _, _⟩ := hI.memory.lists _ hf.live
      obtain ⟨c, hc, _, _⟩ := hr.nodes.cell_of_mem hn
      have := receiver_of_mem hI.memory hf.live hn hc
      rw [hf.receiver c hc, show σ.world.receiver f.receiver = false from hdead] at this
      cases this
    | @next o c c' n hcall ho hstep hmet hdead =>
      obtain ⟨_, _, _, _, _, _, h7, _⟩ := resumed_fields { σ with stack := rest } f
      have hl : (State.lessBusy { σ with stack := rest } f o).connectList = σ.world.connectList := h7
      have hfind := hmet.find
      have hcell := hmet.cell
      rw [hl] at hfind hcell
      have := receiver_of_mem hI.memory hf.live (hf.ahead c hstep.cell _ n hfind) hcell
      rw [show σ.world.receiver c'.data.receiver = false from hdead] at this
      cases this

theorem clear_run {as : List Action} {σ σ' : State} (hI : σ.Inv) (h : σ.Clear)
    (hm : Runs.Meets step (fun σ a => SlotsOnly σ a ∧ Spares σ a) σ as) (hr : run σ as = .ok σ') :
    σ'.Inv ∧ σ'.Clear :=
  Runs.run_invariant (I := fun σ => σ.Inv ∧ σ.Clear)
    (fun _ _ _ h hc hs =>
      have hN := h.1.step hs
      ⟨hN.1, h.2.next h.1 hc.1 hc.2 hN.2⟩) hm hr ⟨hI, h⟩

/-- From any state without an activation: while every call of the slots spares
the way of every activation in progress, each call that `activate` makes is for a
connection in the list, and no slot is called that was destroyed. -/
theorem dispatches_in_list {as bs : List Action} {a : Action} {σ0 σ : State}
    (h0 : run State.init as = .ok σ0) (hidle : σ0.stack = []) (hr : run σ0 bs = .ok σ)
    (hm : Runs.Meets step (fun σ a => SlotsOnly σ a ∧ Spares σ a) σ0 (bs ++ [a])) :
    (∀ σ', step σ a = .ok σ' → ∀ e ∈ newCalls σ σ',
      (e.node, e.connection) ∈ (σ'.world.connectList e.sender).toList) ∧
    step σ a ≠ .error (.fault .destroyed) := by
  obtain ⟨hm1, ⟨hq, hsp⟩, _⟩ := hm.append hr
  have hclear : σ0.Clear := by
    constructor <;> simp [hidle]
  obtain ⟨hI, h⟩ := clear_run (inv_reached h0) hclear hm1 hr
  refine ⟨fun σ' hs => ?_, h.no_fault hI⟩
  obtain ⟨hI', hN⟩ := hI.step hs
  exact h.calls_in_list (h.next hI hq hsp hN) hI' hN

/-- Two slots of one signal. -/
def pair : List Action :=
  [.newSender 100, .newReceiver, .newReceiver,
    .connect .methodSlot 0 (.method 0 (some 1)) 0 (.method 1 (some 1)) .autoConnection false,
    .connect .methodSlot 0 (.method 0 (some 1)) 1 (.method 1 (some 1)) .autoConnection false]

/-- The first slot is destroyed while it runs, and the second one is asked. -/
theorem dispatches_in_list_pair :
    let σ := Runs.reached step (after pair)
      [.activate 0 (.method 0 (some 1)), .ret true, .deleteReceiver 0]
    ∀ e ∈ newCalls σ (Runs.reached step σ [.ret true]),
      (e.node, e.connection) ∈
        ((Runs.reached step σ [.ret true]).world.connectList e.sender).toList :=
  (dispatches_in_list (Runs.run_reached (by decide +kernel))
    (by decide +kernel) (Runs.run_reached (by decide +kernel)) (by decide +kernel)).1 _
      (Runs.step_reached (by decide +kernel))

/-- When the running slot disconnects itself and then the next slot, the next slot
is called all the same. -/
theorem dispatches_in_list_erased :
    ¬ ∀ (as bs : List Action) (a : Action) (σ0 σ : State), run State.init as = .ok σ0 →
      σ0.stack = [] → run σ0 bs = .ok σ → Runs.Meets step SlotsOnly σ0 (bs ++ [a]) →
      (∀ σ', step σ a = .ok σ' → ∀ e ∈ newCalls σ σ',
        (e.node, e.connection) ∈ (σ'.world.connectList e.sender).toList) ∧
      step σ a ≠ .error (.fault .destroyed) := by
  intro h
  have := (h pair [.activate 0 (.method 0 (some 1)), .ret true,
      .disconnect 0 (.method 0 (some 1)) 0 (.method 1 (some 1)),
      .disconnect 0 (.method 0 (some 1)) 1 (.method 1 (some 1))] (.ret true) _ _
    (Runs.run_reached (by decide +kernel)) (by decide +kernel)
    (Runs.run_reached (by decide +kernel)) (by decide +kernel)).1 _
      (Runs.step_reached (by decide +kernel))
  exact absurd this (by decide +kernel)

end CsSignal
