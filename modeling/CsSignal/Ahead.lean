-- What a running emission still comes to. A slot may connect, disconnect and
-- destroy while it runs; for a connection that stays, the calls made so far and
-- the call that lies ahead of the iterator add up to the same number all along.
import CsSignal.Erased
import CsSignal.Matching
import CsSignal.Lib.Paths

namespace CsSignal

open LinkedCells Calls RcuList

/-! ## Paths in a guarded list -/

namespace RcuList

variable {α : Type} {l : RcuList α} {cs : List Cursor}

/-- From an iterator under its guard the pointers climb. -/
theorem Guarded.climbs (h : Guarded l cs) {g st : Nat} {iter : Option Nat}
    (hc : ⟨g, iter, st⟩ ∈ cs) : Climbs l.node l.nodeCount iter := by
  obtain ⟨zs, hr, _, ha⟩ := h
  obtain ⟨hg, hreach⟩ := ha _ hc
  intro m hm
  have hin : Reached l.toList zs g m := by
    refine hm.closed hreach fun n c hn hcell y hy => ?_
    obtain ⟨d, hd, hnext, _⟩ := hr.step hg hn
    obtain rfl : d = c := Option.some.inj (hd.symm.trans hcell)
    exact (hnext y hy).2
  obtain ⟨c, hcell, hnext, _⟩ := hr.step hg hin
  refine ⟨c, hcell, Nat.lt_of_not_le fun hle => ?_, fun y hy => (hnext y hy).1⟩
  rw [hr.nodes.fresh m hle] at hcell
  cases hcell

/-- Between nodes of the list the path is the order of the list. -/
theorem Guarded.reaches_iff (h : Guarded l cs) {n m : Nat} (hn : n ∈ ids l.toList)
    (hm : m ∈ ids l.toList) : Reaches l.node (some n) m ↔ n ≤ m := by
  obtain ⟨zs, hr, _, _⟩ := h
  obtain ⟨x, hx, rfl⟩ := List.mem_map.mp hn
  obtain ⟨pre, post, heq⟩ := List.append_of_mem hx
  have hseg := hr.nodes.seg
  have hsorted := hr.nodes.sorted
  rw [heq] at hseg hsorted hm
  obtain ⟨q, e, _, hpost⟩ := seg_append.mp hseg
  obtain rfl : e = some x.1 := hpost.1
  simp only [List.map_append, List.map_cons, List.pairwise_append, List.pairwise_cons,
    List.mem_cons, forall_eq_or_imp] at hsorted
  constructor
  · intro hreach
    have hmem := hreach.mem_of_seg hpost
    simp only [ids, List.map_cons, List.mem_cons] at hmem
    rcases hmem with rfl | hmem
    · exact Nat.le_refl _
    · exact Nat.le_of_lt (hsorted.2.1.1 m hmem)
  · intro hle
    obtain ⟨y, hy, rfl⟩ := List.mem_map.mp hm
    rcases List.mem_append.mp hy with hy | hy
    · exact absurd (hsorted.2.2 y.1 (List.mem_map_of_mem hy)).1 (Nat.not_lt.mpr hle)
    · exact seg_reaches hpost hy

end RcuList

/-- Whether a node that stays is met from an iterator does not depend on what else
is appended and erased. -/
theorem Kept.reaches_iff {l l' : RcuList ConnectStruct} {cs cs' : List Cursor} (hk : Kept l l')
    (hl : Guarded l cs) (hl' : Guarded l' cs') {p : Option Nat} (hp : Climbs l.node l.nodeCount p)
    {m : Nat} (hm : m ∈ ids l.toList) (hm' : m ∈ ids l'.toList) :
    Reaches l'.node p m ↔ Reaches l.node p m := by
  refine hp.induct (P := fun p => Reaches l'.node p m ↔ Reaches l.node p m)
    (iff_of_false not_reaches_none not_reaches_none) fun n c hn hc ih => ?_
  obtain ⟨c', hc', _, hnext⟩ := hk.cells n c hc
  by_cases hin : n ∈ ids l'.toList
  · obtain ⟨x, hx, rfl⟩ := List.mem_map.mp hin
    have hold : x.1 ∈ ids l.toList := List.mem_map_of_mem (hk.old x hx (hl.count_pos hc))
    exact (hl'.reaches_iff hin hm').trans (hl.reaches_iff hold hm).symm
  · rw [LinkedCells.reaches_iff hc', LinkedCells.reaches_iff hc, hnext hin, ih]

/-- A node that is new in the list is met from an iterator exactly when a node that
was in the list before, and is still, was met from there. -/
theorem Kept.reaches_new {l l' : RcuList ConnectStruct} {cs cs' : List Cursor} (hk : Kept l l')
    (hl : Guarded l cs) (hl' : Guarded l' cs') {p : Option Nat} (hp : Climbs l.node l.nodeCount p)
    {m : Nat} (hm : l.nodeCount ≤ m) (hm' : m ∈ ids l'.toList) :
    Reaches l'.node p m ↔ ∃ k ∈ ids l'.toList, k < l.nodeCount ∧ Reaches l.node p k := by
  refine hp.induct
    (P := fun p => Reaches l'.node p m ↔ ∃ k ∈ ids l'.toList, k < l.nodeCount ∧ Reaches l.node p k)
    (iff_of_false not_reaches_none fun ⟨_, _, _, hr⟩ => not_reaches_none hr) fun n c hn hc ih => ?_
  obtain ⟨c', hc', _, hnext⟩ := hk.cells n c hc
  have hlt := hl.count_pos hc
  by_cases hin : n ∈ ids l'.toList
  · have hle : n ≤ m := Nat.le_of_lt (Nat.lt_of_lt_of_le hlt hm)
    exact iff_of_true ((hl'.reaches_iff hin hm').mpr hle) ⟨n, hin, hlt, .here⟩
  · rw [LinkedCells.reaches_iff hc', hnext hin, ih]
    constructor
    · rintro (rfl | ⟨k, hk', hklt, hr⟩)
      · exact absurd hm' hin
      · exact ⟨k, hk', hklt, .next hc hr⟩
    · rintro ⟨k, hk', hklt, hr⟩
      rcases (LinkedCells.reaches_iff hc).mp hr with rfl | hr
      · exact absurd hk' hin
      · exact Or.inr ⟨k, hk', hklt, hr⟩

/-- The search of the loop passes no wanted node. -/
theorem NodeList.find_reaches {α : Type} {l : NodeList α} {p : α → Bool} {k fuel : Nat}
    {iter res : Option Nat} (hs : Climbs l.node k iter) (hf : l.find p fuel iter = .ok res)
    {m : Nat} {c : Node α} (hm : l.node m = some c) (hw : p c.data = true) :
    Reaches l.node iter m ↔ Reaches l.node res m := by
  induction fuel generalizing iter with
  | zero =>
    cases iter with
    | none =>
      cases hf
      rfl
    | some i => cases hf
  | succ fuel ih =>
    cases iter with
    | none =>
      cases hf
      rfl
    | some i =>
      obtain ⟨d, hd, _, _⟩ := hs i .here
      unfold NodeList.find NodeList.deref at hf
      simp only [hd, ok_bind] at hf
      by_cases hp : p d.data = true
      · rw [if_pos hp] at hf
        cases hf
        rfl
      · rw [if_neg hp] at hf
        rw [LinkedCells.reaches_iff hd, ← ih (hs.tail hd) hf]
        refine or_iff_right ?_
        rintro rfl
        obtain rfl : c = d := Option.some.inj (hm.symm.trans hd)
        exact hp hw

/-! ## What lies ahead of an activation -/

/-- The nodes that the loop of an activation still comes to, as the pointers are
now; the node it stands on only while `compareThreads` is asked. -/
def State.ahead (σ : State) (f : Frame) : List Nat :=
  let l := σ.world.connectList f.activation.sender
  (ids (walk l.node l.nodeCount (some f.iter))).filter fun n =>
    f.call = .compareThreads ∨ n ≠ f.iter

theorem State.Inv.climbs {σ : State} (h : σ.Inv) {f : Frame} (hf : f ∈ σ.stack)
    (hlive : (σ.world.sender f.activation.sender).isSome = true) :
    Climbs (σ.world.connectList f.activation.sender).node
      (σ.world.connectList f.activation.sender).nodeCount (some f.iter) :=
  (h.memory.lists _ hlive).climbs (mem_cursorsOf hf)

theorem State.Inv.mem_ahead_iff {σ : State} (h : σ.Inv) {f : Frame} (hf : f ∈ σ.stack)
    (hlive : (σ.world.sender f.activation.sender).isSome = true) {m : Nat} :
    m ∈ σ.ahead f ↔ Reaches (σ.world.connectList f.activation.sender).node (some f.iter) m ∧
      (f.call = .compareThreads ∨ m ≠ f.iter) := by
  rw [State.ahead, List.mem_filter, (h.climbs hf hlive).mem_walk_iff fun _ _ => Nat.le_add_left _ _,
    decide_eq_true_iff]

/-- The calls that an activation made for a node, and the one that lies ahead. -/
def State.due (σ : State) (act : Activation) (m : Nat) : Nat :=
  (σ.reachedNodes act.id).count m +
    if ∃ f ∈ σ.stack, f.activation.id = act.id ∧ m ∈ σ.ahead f then 1 else 0

/-- An activation of a live signal, that runs or is over. -/
structure Going (σ : State) (act : Activation) : Prop where
  live : ∃ o, σ.world.sender act.sender = some o ∧ o.addr = act.senderPtr
  free : act.senderPtr ∉ σ.world.beingDestroyed
  numbered : act.id < σ.activationCount
  same : ∀ f ∈ σ.stack, f.activation.id = act.id → f.activation = act

theorem State.Inv.due_running {σ : State} (h : σ.Inv) {f : Frame} (hf : f ∈ σ.stack) (m : Nat) :
    σ.due f.activation m =
      (σ.reachedNodes f.activation.id).count m + if m ∈ σ.ahead f then 1 else 0 := by
  have hone : ∀ g ∈ σ.stack, g.activation.id = f.activation.id → g = f := fun g hg he =>
    List.inj_on_of_nodup_map (h.distinct.imp Nat.ne_of_gt) hg hf he
  have hiff : (∃ g ∈ σ.stack, g.activation.id = f.activation.id ∧ m ∈ σ.ahead g) ↔
      m ∈ σ.ahead f := by
    constructor
    · rintro ⟨g, hg, he, hm⟩
      exact hone g hg he ▸ hm
    · exact fun hm => ⟨f, hf, rfl, hm⟩
  rw [State.due]
  simp only [hiff]

theorem due_over {σ : State} {act : Activation} (h : ∀ f ∈ σ.stack, f.activation.id ≠ act.id)
    (m : Nat) : σ.due act m = (σ.reachedNodes act.id).count m := by
  rw [State.due, if_neg, Nat.add_zero]
  rintro ⟨f, hf, he, _⟩
  exact h f hf he

theorem RcuList.Guarded.cell {l : RcuList ConnectStruct} {cs : List Cursor} (h : Guarded l cs)
    {x : Nat × ConnectStruct} (hx : x ∈ l.toList) :
    ∃ c, l.node x.1 = some c ∧ c.data = x.2 := by
  obtain ⟨zs, hr, _, _⟩ := h
  obtain ⟨c, hc, _, hd⟩ := seg_cell hr.nodes.seg hx
  exact ⟨c, hc, hd⟩

section

variable {σ σ' : State} {a : Action} {act : Activation} {x : Nat × ConnectStruct}

/-- A step that leaves the calls of the activation alone. -/
theorem due_keep (hI : σ.Inv) (hI' : σ'.Inv)
    (hlive : (σ.world.sender act.sender).isSome = true)
    (hlive' : (σ'.world.sender act.sender).isSome = true)
    (hsame : ∀ f ∈ σ.stack, f.activation.id = act.id → f.activation = act)
    (hstep : StepOn σ σ' a act.sender) (hd : σ'.dispatches act.id = σ.dispatches act.id)
    (hst : ∀ f ∈ σ'.stack, f.activation.id = act.id →
      f ∈ σ.stack ∧ f.cursor ∈ staying σ a f.activation.sender)
    (hst' : ∀ f ∈ σ.stack, f.activation.id = act.id → f ∈ σ'.stack)
    (hx : x ∈ (σ.world.connectList act.sender).toList)
    (hx' : x ∈ (σ'.world.connectList act.sender).toList) : σ'.due act x.1 = σ.due act x.1 := by
  have hahead : ∀ f ∈ σ'.stack, f.activation.id = act.id →
      (x.1 ∈ σ'.ahead f ↔ x.1 ∈ σ.ahead f) := by
    intro f hf hid
    obtain ⟨hf0, hcur⟩ := hst f hf hid
    obtain rfl := hsame f hf0 hid
    rw [hI'.mem_ahead_iff hf hlive', hI.mem_ahead_iff hf0 hlive,
      (hstep.kept (List.ne_nil_of_mem hcur)).reaches_iff (hI.memory.lists _ hlive)
        (hI'.memory.lists _ hlive') (hI.climbs hf0 hlive) (List.mem_map_of_mem hx)
        (List.mem_map_of_mem hx')]
  have hiff : (∃ f ∈ σ'.stack, f.activation.id = act.id ∧ x.1 ∈ σ'.ahead f) ↔
      ∃ f ∈ σ.stack, f.activation.id = act.id ∧ x.1 ∈ σ.ahead f := by
    constructor
    · rintro ⟨f, hf, hid, hm⟩
      exact ⟨f, (hst f hf hid).1, hid, (hahead f hf hid).mp hm⟩
    · rintro ⟨f, hf, hid, hm⟩
      exact ⟨f, hst' f hf hid, hid, (hahead f (hst' f hf hid) hid).mpr hm⟩
  rw [State.due, State.due, State.reachedNodes, State.reachedNodes, hd]
  simp only [hiff]

/-- After a call of a slot the node itself is done. -/
theorem State.Inv.ahead_past (hI : σ.Inv) {f : Frame} (hf : f ∈ σ.stack)
    (hlive : (σ.world.sender f.activation.sender).isSome = true) (hcall : f.call ≠ .compareThreads)
    {c : Node ConnectStruct}
    (hc : (σ.world.connectList f.activation.sender).node f.iter = some c) {m : Nat} :
    m ∈ σ.ahead f ↔ Reaches (σ.world.connectList f.activation.sender).node c.next m := by
  rw [hI.mem_ahead_iff hf hlive, LinkedCells.reaches_iff hc]
  constructor
  · rintro ⟨hr, hne⟩
    exact hr.resolve_left (hne.resolve_left hcall)
  · intro hr
    refine ⟨Or.inr hr, Or.inr ?_⟩
    rintro rfl
    exact (hI.climbs hf hlive).not_reaches_tail hc hr

/-- The slot of the node that was the first one ahead is called. -/
theorem due_dispatched {f f' : Frame} {w : World} {rest : List Frame} {c : ConnectStruct}
    (hI : σ.Inv) (hI' : σ'.Inv) (hst : σ.stack = f :: rest) (hcall : f.call = .compareThreads)
    (hlive : (σ.world.sender f.activation.sender).isSome = true)
    (hlive' : (σ'.world.sender f.activation.sender).isSome = true)
    (hact : f'.activation = f.activation) (hiter : f'.iter = f.iter) (hslot : f'.call.isSlot = true)
    (hw : w.connectList = σ.world.connectList)
    (hσ' : σ' = State.push { σ with world := w, stack := rest } f' c) (m : Nat) :
    σ'.due f.activation m = σ.due f.activation m := by
  have hf : f ∈ σ.stack := hst ▸ List.mem_cons_self
  have hf' : f' ∈ σ'.stack := by
    rw [hσ']
    exact List.mem_cons_self
  have hne : f'.call ≠ .compareThreads := fun he => by
    rw [he] at hslot
    cases hslot
  have hcount : (σ'.reachedNodes f.activation.id).count m =
      (σ.reachedNodes f.activation.id).count m + if f.iter = m then 1 else 0 := by
    rw [hσ', State.reachedNodes, ← hact, dispatches_push_self hslot, List.map_append,
      List.count_append, hact]
    congr 1
    by_cases he : f.iter = m
    · simp [hiter, he]
    · simp [hiter, he]
  have hlist : σ'.world.connectList = σ.world.connectList := by
    rw [hσ']
    exact hw
  have hahead : m ∈ σ'.ahead f' ↔
      Reaches (σ.world.connectList f.activation.sender).node (some f.iter) m ∧ m ≠ f.iter := by
    rw [hI'.mem_ahead_iff hf' (hact ▸ hlive'), hact, hiter, hlist]
    exact and_congr Iff.rfl (or_iff_right hne)
  have hahead0 : m ∈ σ.ahead f ↔
      Reaches (σ.world.connectList f.activation.sender).node (some f.iter) m :=
    (hI.mem_ahead_iff hf hlive).trans ⟨fun h => h.1, fun h => ⟨h, Or.inl hcall⟩⟩
  rw [hI.due_running hf, ← hact, hI'.due_running hf', hact, hcount]
  by_cases he : f.iter = m
  · have hhere : Reaches (σ.world.connectList f.activation.sender).node (some f.iter) m :=
      he ▸ .here
    rw [if_pos he, if_neg fun h => (hahead.mp h).2 he.symm, if_pos (hahead0.mpr hhere)]
  · rw [if_neg he, Nat.add_zero]
    congr 1
    exact if_congr (hahead.trans ((and_iff_left fun h => he h.symm).trans hahead0.symm)) rfl rfl

/-- The step after the end of a call of the activation itself: what was ahead is
called, or is still ahead. -/
theorem due_move {f : Frame} {rest : List Frame} (hI : σ.Inv) (hI' : σ'.Inv)
    (hst : σ.stack = f :: rest) (hu : Undisturbed σ a)
    (hfree : f.activation.senderPtr ∉ σ.world.beingDestroyed)
    (hlive : (σ.world.sender f.activation.sender).isSome = true)
    (hlive' : (σ'.world.sender f.activation.sender).isSome = true)
    (hM : Move { σ with stack := rest } f a σ')
    (hx : x ∈ (σ.world.connectList f.activation.sender).toList)
    (hw : f.activation.wants x.2 = true) :
    σ'.due f.activation x.1 = σ.due f.activation x.1 := by
  have hf : f ∈ σ.stack := by rw [hst]; exact List.mem_cons_self
  have hdist : ∀ g ∈ rest, g.activation.id ≠ f.activation.id := by
    intro g hg he
    have hd := hI.distinct
    rw [hst, List.map_cons, List.pairwise_cons] at hd
    exact absurd (hd.1 _ (List.mem_map_of_mem hg)) (by rw [he]; exact Nat.lt_irrefl _)
  have hclimbs := hI.climbs hf hlive
  have hold := hI.due_running hf x.1
  have hmem := hI.mem_ahead_iff hf hlive (m := x.1)
  obtain ⟨d, hd, hdx⟩ := (hI.memory.lists _ hlive).cell hx
  obtain ⟨h1, _, h3, _, _, _, h7, _⟩ := resumed_fields { σ with stack := rest } f
  have hu' := hu f (by rw [hst]; rfl)
  cases hM with
  | @dispatched b o c hcall ho hc hr =>
    refine due_dispatched hI hI' hst hcall hlive hlive' ?_ ?_ ?_ ?_ rfl x.1
    · rfl
    · rfl
    · exact State.isSlot_callFor _ _
    · rfl
  | @next b o c c' n hcall hfr ho hstep hmet hr =>
    have hnew := hI'.due_running (f := ⟨f.activation, n, c'.data.receiver, .compareThreads, 0⟩)
      List.mem_cons_self x.1
    have hmem' := hI'.mem_ahead_iff (f := ⟨f.activation, n, c'.data.receiver, .compareThreads, 0⟩)
      List.mem_cons_self hlive' (m := x.1)
    have hlists : (State.lessBusy { σ with stack := rest } f o).connectList = σ.world.connectList :=
      h7
    have hfind := hmet.find
    rw [hlists] at hfind
    have hcount : (State.reachedNodes (State.push
        { (State.resumed { σ with stack := rest } f) with
          world := State.lessBusy { σ with stack := rest } f o }
        ⟨f.activation, n, c'.data.receiver, .compareThreads, 0⟩ c'.data) f.activation.id) =
        σ.reachedNodes f.activation.id := by
      rw [State.reachedNodes, dispatches_push (by simp [CallKind.isSlot])]
      exact congrArg _ (dispatches_congr h3 _)
    have hiff := hI.ahead_past hf hlive hcall hstep.cell (m := x.1)
    rw [NodeList.find_reaches (hclimbs.tail hstep.cell) hfind hd (hdx ▸ hw)] at hiff
    refine (hnew.trans ?_).trans hold.symm
    rw [hcount]
    congr 1
    refine if_congr ?_ rfl rfl
    refine hmem'.trans ((and_iff_left (Or.inl rfl)).trans (Iff.trans ?_ hiff.symm))
    rw [show State.world _ = State.lessBusy { σ with stack := rest } f o from rfl, hlists]
  | @ended b o c w' hcall hfr ho hstep hend =>
    have hfind := hend.find
    rw [show (State.lessBusy { σ with stack := rest } f o).connectList = σ.world.connectList
      from h7] at hfind
    have hiff := hI.ahead_past hf hlive hcall hstep.cell (m := x.1)
    rw [NodeList.find_reaches (hclimbs.tail hstep.cell) hfind hd (hdx ▸ hw)] at hiff
    rw [hold, if_neg fun h => not_reaches_none (hiff.mp h), Nat.add_zero, due_over]
    · exact congrArg (fun es : List CallRecord => (es.map (·.node)).count x.1)
        (dispatches_congr h3 _)
    · intro g hg
      have hg' : g ∈ (State.resumed { σ with stack := rest } f).stack := hg
      rw [h1] at hg'
      exact hdist g hg'
  | stopped hend hcall hlock hmark hrel => exact absurd hmark hfree
  | @handling o hcall hlock hmark ho =>
    have hnc : f.call ≠ .compareThreads := by
      intro he
      rw [he] at hcall
      cases hcall
    have hnew := hI'.due_running (f := { f with call := .handleException }) List.mem_cons_self x.1
    have hmem' := hI'.mem_ahead_iff (f := { f with call := .handleException }) List.mem_cons_self
      hlive' (m := x.1)
    refine (hnew.trans ?_).trans hold.symm
    congr 1
    refine if_congr (hmem'.trans (Iff.trans ?_ hmem.symm)) rfl rfl
    exact and_congr Iff.rfl ((or_iff_right (by simp)).trans (or_iff_right hnc).symm)
  | left hcall hrel => cases hu'.2 hcall
  | handlerLeft hcall hrel => cases hu'.1 hcall

/-- A step of a program in which the signal of the activation lives on. -/
theorem Going.next (hI : σ.Inv) (hP : σ.Placed) (h : Going σ act) (hu : Undisturbed σ a)
    (hN : Next σ a σ') (hlive' : (σ'.world.sender act.sender).isSome = true) :
    Going σ' act ∧ ∀ x ∈ (σ.world.connectList act.sender).toList,
      x ∈ (σ'.world.connectList act.sender).toList → act.wants x.2 = true →
        σ'.due act x.1 = σ.due act x.1 := by
  have hI' := hI.next hN
  obtain ⟨o, ho, haddr⟩ := h.live
  have hlive : (σ.world.sender act.sender).isSome = true := by rw [ho]; rfl
  obtain ⟨o', ho'⟩ := Option.isSome_iff_exists.mp hlive'
  have haddr' : o'.addr = act.senderPtr := (addr_of_next hN ho ho').trans haddr
  have hfree := hP.free_of_next h.live h.free hN hlive'
  have hgoing : σ.activationCount ≤ σ'.activationCount →
      (∀ f ∈ σ'.stack, f.activation.id = act.id → f.activation = act) → Going σ' act :=
    fun hn hs => ⟨⟨o', ho', haddr'⟩, hfree, Nat.lt_of_lt_of_le h.numbered hn, hs⟩
  have hstep := hN.stepOn hI hlive hlive'
  have hkeep : σ.activationCount ≤ σ'.activationCount →
      σ'.dispatches act.id = σ.dispatches act.id →
      (∀ f ∈ σ'.stack, f.activation.id = act.id →
        f ∈ σ.stack ∧ f.cursor ∈ staying σ a f.activation.sender) →
      (∀ f ∈ σ.stack, f.activation.id = act.id → f ∈ σ'.stack) →
      Going σ' act ∧ ∀ x ∈ (σ.world.connectList act.sender).toList,
        x ∈ (σ'.world.connectList act.sender).toList → act.wants x.2 = true →
          σ'.due act x.1 = σ.due act x.1 := fun hn hd hst hst' =>
    ⟨hgoing hn fun f hf hid => h.same f (hst f hf hid).1 hid, fun x hx hx' _ =>
      due_keep hI hI' hlive hlive' h.same hstep hd hst hst' hx hx'⟩
  cases hN with
  | @call a w' hc hD =>
    refine hkeep (Nat.le_refl _) rfl (fun f hf _ => ⟨hf, ?_⟩) fun f hf _ => hf
    rw [staying_call hc]
    exact mem_cursorsOf hf
  | @enter s o1 sig σ' ho1 hE =>
    cases hE with
    | met hmet hr =>
      refine hkeep (Nat.le_succ _) (dispatches_push (by simp [CallKind.isSlot]))
        (fun f hf hid => ?_) fun f hf _ => List.mem_cons_of_mem _ hf
      rcases List.mem_cons.mp hf with rfl | hf
      · exact absurd hid (Nat.ne_of_gt h.numbered)
      · exact ⟨hf, mem_cursorsOf hf⟩
    | ended hend =>
      exact hkeep (Nat.le_succ _) rfl (fun f hf _ => ⟨hf, mem_cursorsOf hf⟩) fun f hf _ => hf
  | @move a f rest σ' hst hM =>
    have hdist := hI.distinct
    rw [hst, List.map_cons, List.pairwise_cons] at hdist
    obtain ⟨_, h2, h3, _⟩ := resumed_fields { σ with stack := rest } f
    have hn : σ.activationCount ≤ σ'.activationCount := by
      cases hM with
      | next | ended => exact Nat.le_of_eq h2.symm
      | dispatched | stopped | handling | left | handlerLeft => exact Nat.le_refl _
    have hstack : ∀ g ∈ σ'.stack, g ∈ rest ∨ g.activation = f.activation := by
      intro g hg
      rcases hM.stack with h1 | ⟨f', h1, hact⟩
      · rw [h1] at hg
        exact Or.inl hg
      · rw [h1] at hg
        rcases List.mem_cons.mp hg with rfl | hg
        · exact Or.inr hact
        · exact Or.inl hg
    by_cases hid : f.activation.id = act.id
    · obtain rfl := h.same f (by rw [hst]; exact List.mem_cons_self) hid
      refine ⟨hgoing hn fun g hg he => ?_, fun x hx _ hw => ?_⟩
      · rcases hstack g hg with hg | hg
        · exact absurd (hdist.1 _ (List.mem_map_of_mem hg)) (by rw [he]; exact Nat.lt_irrefl _)
        · exact hg
      · exact due_move hI hI' hst hu h.free hlive hlive' hM hx hw
    · have hd : σ'.dispatches act.id = σ.dispatches act.id := by
        cases hM with
        | dispatched => exact dispatches_push fun hc => hid hc.1
        | next =>
          refine Eq.trans (dispatches_push ?_) (dispatches_congr h3 _)
          exact fun hc => hid hc.1
        | ended => exact dispatches_congr h3 _
        | stopped | handling | left | handlerLeft => rfl
      refine hkeep hn hd (fun g hg hgid => ?_) fun g hg hgid => ?_
      · have hgr : g ∈ rest := (hstack g hg).resolve_right fun he => hid (he ▸ hgid)
        refine ⟨by rw [hst]; exact List.mem_cons_of_mem _ hgr, ?_⟩
        rw [staying_end hM.isEnd hst]
        exact mem_cursorsOf hgr
      · rw [hst] at hg
        rcases List.mem_cons.mp hg with rfl | hg
        · exact absurd hgid hid
        · rcases hM.stack with h1 | ⟨f', h1, _⟩
          · rw [h1]
            exact hg
          · rw [h1]
            exact List.mem_cons_of_mem _ hg

/-- What is there after a run, and is not new, was there before. -/
theorem there_before {as : List Action} {s : SenderId} (hI : σ.Inv) (hr : run σ as = .ok σ')
    (hk : s < σ.world.senderCount) (hlive' : (σ'.world.sender s).isSome = true) :
    (σ.world.sender s).isSome = true ∧
      ∀ x ∈ (σ'.world.connectList s).toList, x.1 < (σ.world.connectList s).nodeCount →
        x ∈ (σ.world.connectList s).toList := by
  induction as generalizing σ with
  | nil =>
    cases hr
    exact ⟨hlive', fun x hx _ => hx⟩
  | cons a as ih =>
    obtain ⟨σ1, h1, hr⟩ := Runs.run_cons.mp hr
    obtain ⟨hI1, hN⟩ := hI.step h1
    obtain ⟨hlive1, hold⟩ := ih hI1 hr (Nat.lt_of_lt_of_le hk hN.senderCount)
    have hlive : (σ.world.sender s).isSome = true := by
      cases hd : σ.world.sender s with
      | none =>
        rw [dead_of_next hN hk hd] at hlive1
        cases hlive1
      | some o => rfl
    have hstep := hN.stepOn hI hlive hlive1
    exact ⟨hlive, fun x hx hlt =>
      hstep.old x (hold x hx (Nat.lt_of_lt_of_le hlt hstep.count)) hlt⟩

/-- Along a run in which the signal lives on, the entries that stay keep their due. -/
theorem Going.run {as : List Action} (hI : σ.Inv) (hP : σ.Placed) (h : Going σ act)
    (hm : Runs.Meets step Undisturbed σ as) (hr : run σ as = .ok σ')
    (hlive' : (σ'.world.sender act.sender).isSome = true)
    (hx : x ∈ (σ.world.connectList act.sender).toList)
    (hx' : x ∈ (σ'.world.connectList act.sender).toList) (hw : act.wants x.2 = true) :
    σ'.due act x.1 = σ.due act x.1 := by
  induction as generalizing σ with
  | nil =>
    cases hr
    rfl
  | cons a as ih =>
    obtain ⟨σ1, h1, hr⟩ := Runs.run_cons.mp hr
    obtain ⟨hu, hm⟩ := hm
    rw [h1] at hm
    obtain ⟨hI1, hN⟩ := hI.step h1
    have hP1 := hP.next hI (legal_of_step h1) hN
    obtain ⟨o, ho, _⟩ := h.live
    have hlive : (σ.world.sender act.sender).isSome = true := by rw [ho]; rfl
    have hk := Nat.lt_of_lt_of_le (hI.memory.senderBound _ hlive) hN.senderCount
    obtain ⟨hlive1, hold⟩ := there_before hI1 hr hk hlive'
    have hstep := hN.stepOn hI hlive hlive1
    have hx1 := hold x hx'
      (Nat.lt_of_lt_of_le ((hI.memory.lists _ hlive).bound hx) hstep.count)
    obtain ⟨hg1, hdue⟩ := h.next hI hP hu hN hlive1
    rw [ih hI1 hP1 hg1 hm hr hx1, hdue x hx hx1 hw]

end

theorem State.Inv.going {σ : State} (hI : σ.Inv) (hP : σ.Placed) {f : Frame} (hf : f ∈ σ.stack)
    {o : SignalBase} (ho : σ.world.sender f.activation.sender = some o)
    (hmark : o.addr ∉ σ.world.beingDestroyed) : Going σ f.activation := by
  have hptr := hP.ptr f hf o ho
  refine ⟨⟨o, ho, hptr⟩, hptr ▸ hmark, hI.numbered f hf, fun g hg he => ?_⟩
  exact congrArg Frame.activation (List.inj_on_of_nodup_map (hI.distinct.imp Nat.ne_of_gt) hg hf he)

/-! ## The rest of an emission -/

/-- In the middle of an emission it is settled what the rest of it calls: a wanted
connection that is in the list now and at the end is called once more when it lies
ahead of the iterator, and not at all otherwise, whatever the slots connect,
disconnect, destroy and emit in between. -/
theorem emission_goes_on {as bs : List Action} {σ σ' : State} {f : Frame} {o : SignalBase}
    (h0 : run State.init as = .ok σ) (hf : f ∈ σ.stack)
    (ho : σ.world.sender f.activation.sender = some o) (hmark : o.addr ∉ σ.world.beingDestroyed)
    (hu : Runs.Meets step Undisturbed σ bs) (h1 : run σ bs = .ok σ')
    (hlive : (σ'.world.sender f.activation.sender).isSome = true)
    (hend : ∀ g ∈ σ'.stack, g.activation.id ≠ f.activation.id) {x : Nat × ConnectStruct}
    (hx : x ∈ (σ.world.connectList f.activation.sender).toList)
    (hx' : x ∈ (σ'.world.connectList f.activation.sender).toList)
    (hw : x.2.signalMethod.eq f.activation.signal_Bento = true) :
    (σ'.reachedNodes f.activation.id).count x.1 =
      (σ.reachedNodes f.activation.id).count x.1 + if x.1 ∈ σ.ahead f then 1 else 0 := by
  obtain ⟨hI, hP⟩ := placed_reached h0
  rw [← due_over hend, (hI.going hP hf ho hmark).run hI hP hu h1 hlive hx hx' hw,
    hI.due_running hf]

/-- The slots of three connections, of which the first one runs and has disconnected
itself and the second one. -/
def skipping : List Action :=
  [.newSender 100, .newReceiver,
    .connect .methodSlot 0 (.method 0 (some 1)) 0 (.method 1 (some 1)) .autoConnection false,
    .connect .methodSlot 0 (.method 0 (some 1)) 0 (.method 1 (some 2)) .autoConnection false,
    .connect .methodSlot 0 (.method 0 (some 1)) 0 (.method 1 (some 3)) .autoConnection false,
    .activate 0 (.method 0 (some 1)), .ret true,
    .disconnect 0 (.method 0 (some 1)) 0 (.method 1 (some 1)),
    .disconnect 0 (.method 0 (some 1)) 0 (.method 1 (some 2))]

/-- The third slot is called by the rest of the emission. -/
theorem emission_goes_on_skipping :
    ((Runs.reached step (after skipping) [.ret true, .ret true, .ret true, .ret true,
      .ret true]).reachedNodes 0).count 2 = 1 :=
  (emission_goes_on (f := ⟨⟨0, 0, 100, .method 0 (some 1), none, none, 3, 3⟩, 0, 0, .invoke, 0⟩)
    (o := ⟨100, 1⟩) (x := (2, ⟨.method 0 (some 1), 0, .method 1 (some 3), .autoConnection⟩))
    (Runs.run_reached (by decide +kernel)) (by decide +kernel) (by decide +kernel)
    (by decide +kernel) (by decide +kernel) (Runs.run_reached (by decide +kernel))
    (by decide +kernel) (by decide +kernel) (by decide +kernel) (by decide +kernel)
    (by decide +kernel)).trans (by decide +kernel)

/-! ## A connection made by a slot -/

/-- From the node that the activation stands on the pointers lead to the list. -/
def State.anchored (σ : State) (f : Frame) : Prop :=
  let l := σ.world.connectList f.activation.sender
  ∃ n ∈ ids (walk l.node l.nodeCount (some f.iter)), n ∈ ids l.toList

instance (σ : State) (f : Frame) : Decidable (σ.anchored f) :=
  inferInstanceAs (Decidable (∃ n ∈ ids (walk _ _ _), _))

theorem State.Inv.anchored_iff {σ : State} (h : σ.Inv) {f : Frame} (hf : f ∈ σ.stack)
    (hlive : (σ.world.sender f.activation.sender).isSome = true) :
    σ.anchored f ↔ ∃ n ∈ ids (σ.world.connectList f.activation.sender).toList,
      Reaches (σ.world.connectList f.activation.sender).node (some f.iter) n := by
  have hmem : ∀ n, n ∈ ids (walk (σ.world.connectList f.activation.sender).node
      (σ.world.connectList f.activation.sender).nodeCount (some f.iter)) ↔
      Reaches (σ.world.connectList f.activation.sender).node (some f.iter) n := fun n =>
    (h.climbs hf hlive).mem_walk_iff fun _ _ => Nat.le_add_left _ _
  constructor
  · rintro ⟨n, hn, hl⟩
    exact ⟨n, hl, (hmem n).mp hn⟩
  · rintro ⟨n, hl, hn⟩
    exact ⟨n, (hmem n).mpr hn, hl⟩

/-- A `connect` that made a connection. -/
theorem connect_made {σ σ1 : State} (h : σ.Inv) {ov : Overload} {s : SenderId} {sig slot : Bento}
    {r : ReceiverId} {type : ConnectionKind} {u : Bool}
    (hmade : ∃ w, connect ov s sig r slot type u σ.world = .returned true w)
    (hstep : step σ (.connect ov s sig r slot type u) = .ok σ1) :
    σ1.stack = σ.stack ∧ σ1.calls = σ.calls ∧ (σ1.world.connectList s).toList =
      (σ.world.connectList s).toList ++
        [((σ.world.connectList s).nodeCount, ⟨sig, r, slot, type⟩)] := by
  obtain ⟨hs, hr⟩ := legal_of_step hstep
  simp only [step, if_pos (legal_of_step hstep)] at hstep
  obtain ⟨w, hw⟩ := hmade
  rcases connect_eq ov s sig r slot type u (w := σ.world) with ⟨_, what, hno⟩ | ⟨hacc, _⟩
  · rw [hno] at hw
    cases hw
  · obtain ⟨w', hrun, hD⟩ := connect_does h.memory.toSound hs hr h.allocs hacc type u
    rw [hw] at hrun
    injection hrun with hb hw'
    subst hw'
    have hfree : (u && (σ.world.conns s).any (ov.same sig r slot)) = false := by
      cases hdup : u && (σ.world.conns s).any (ov.same sig r slot) with
      | false => rfl
      | true =>
        rw [hdup] at hb
        cases hb
    rw [hfree] at hD
    rw [perform_eq hstep hw]
    exact ⟨rfl, rfl, hD.live⟩

/-- The new connection lies ahead of an activation that stands on an older node just when
the list can be reached from there. -/
theorem State.Inv.ahead_made {σ σ1 : State} {a : Action} (hI : σ.Inv)
    (hstep : CsSignal.step σ a = .ok σ1) {f : Frame} (hf : f ∈ σ.stack) (hf1 : f ∈ σ1.stack)
    (hs : (σ.world.sender f.activation.sender).isSome = true)
    (hs1 : (σ1.world.sender f.activation.sender).isSome = true)
    (hstay : f.cursor ∈ staying σ a f.activation.sender) {c : ConnectStruct}
    (hlist : (σ1.world.connectList f.activation.sender).toList =
      (σ.world.connectList f.activation.sender).toList ++
        [((σ.world.connectList f.activation.sender).nodeCount, c)]) :
    (σ.world.connectList f.activation.sender).nodeCount ∈ σ1.ahead f ↔ σ.anchored f := by
  obtain ⟨hI1, hN⟩ := hI.step hstep
  have hclimbs := hI.climbs hf hs
  set l := σ.world.connectList f.activation.sender
  set l1 := σ1.world.connectList f.activation.sender
  have hin : l.nodeCount ∈ ids l1.toList := by
    rw [hlist]
    simp [ids]
  have hold : ∀ n, n < l.nodeCount → (n ∈ ids l1.toList ↔ n ∈ ids l.toList) := by
    intro n hn
    rw [hlist, ids, ids, List.map_append, List.mem_append, List.map_singleton, List.mem_singleton]
    exact or_iff_left (Nat.ne_of_lt hn)
  have hkept := (hN.stepOn hI hs hs1).kept (List.ne_nil_of_mem hstay)
  have hreach : Reaches l1.node (some f.iter) l.nodeCount ↔ σ.anchored f := by
    rw [hkept.reaches_new (hI.memory.lists _ hs) (hI1.memory.lists _ hs1) hclimbs (Nat.le_refl _)
      hin, hI.anchored_iff hf hs]
    constructor
    · rintro ⟨n, hn, hlt, hr⟩
      exact ⟨n, (hold n hlt).mp hn, hr⟩
    · rintro ⟨n, hn, hr⟩
      obtain ⟨_, _, hlt, _⟩ := hclimbs n hr
      exact ⟨n, (hold n hlt).mpr hn, hlt, hr⟩
  obtain ⟨_, _, hlt, _⟩ := hclimbs f.iter .here
  rw [hI1.mem_ahead_iff hf1 hs1, hreach]
  exact and_iff_left (Or.inr (Nat.ne_of_gt hlt))

/-- An activation with no mark at the address of its signal. -/
structure FreeProgress (σ : State) (act : Activation) : Prop extends Progress σ act where
  free : act.senderPtr ∉ σ.world.beingDestroyed

theorem FreeProgress.next (hI : σ.Inv) (hP : σ.Placed) (h : FreeProgress σ act)
    (hu : Undisturbed σ a) (hN : Next σ a σ') (hlive' : (σ'.world.sender act.sender).isSome = true) :
    FreeProgress σ' act := by
  have hmark : Unstopped act.id σ a := fun f hf hid _ _ => by
    have hsame := (h.running f (List.mem_of_mem_head? hf) hid).same
    rw [hsame]
    exact h.free
  exact ⟨h.toProgress.next hI hu hmark hN hlive', hP.free_of_next h.live h.free hN hlive'⟩

theorem FreeProgress.run {as : List Action} (hI : σ.Inv) (hP : σ.Placed) (h : FreeProgress σ act)
    (hm : Runs.Meets step Undisturbed σ as) (hr : run σ as = .ok σ')
    (hlive : (σ'.world.sender act.sender).isSome = true) : FreeProgress σ' act := by
  obtain ⟨o, ho, _⟩ := h.live
  have hnext : ∀ {σ a σ'}, σ.Inv → σ.Placed → FreeProgress σ act → Undisturbed σ a → Next σ a σ' →
      (σ'.world.sender act.sender).isSome = true → FreeProgress σ' act :=
    fun hI hP h hu hN hl => h.next hI hP hu hN hl
  exact run_living hnext hI hP h (by rw [ho]; rfl) hm hr hlive

/-- A connection that is made to the signal of a running emission, and stays, is
called by it once, after all the others, when the list can be reached from the
node that the loop stands on; and otherwise, when the loop stands on erased nodes
that were the last of the list, not at all. -/
theorem connected_while_running {as bs cs : List Action} {σ0 σ σ' : State} {s : SenderId}
    {signal : Bento} {o : SignalBase} {f : Frame}
    (h0 : run State.init as = .ok σ0) (ho : σ0.world.sender s = some o)
    (hmark : o.addr ∉ σ0.world.beingDestroyed)
    (h1 : run σ0 (.activate s signal :: bs) = .ok σ)
    (hu1 : Runs.Meets step Undisturbed σ0 (.activate s signal :: bs))
    (hf : f ∈ σ.stack) (hid : f.activation.id = σ0.activationCount)
    {ov : Overload} {sig slot : Bento} {r : ReceiverId} {type : ConnectionKind} {u : Bool}
    (hmade : ∃ w, connect ov s sig r slot type u σ.world = .returned true w)
    (hsig : sig.eq signal = true)
    (h2 : run σ (.connect ov s sig r slot type u :: cs) = .ok σ')
    (hu2 : Runs.Meets step Undisturbed σ (.connect ov s sig r slot type u :: cs))
    (hlive : (σ'.world.sender s).isSome = true)
    (hend : ∀ g ∈ σ'.stack, g.activation.id ≠ σ0.activationCount)
    (hstay : ((σ.world.connectList s).nodeCount, ⟨sig, r, slot, type⟩) ∈
      (σ'.world.connectList s).toList) :
    (σ'.reachedNodes σ0.activationCount).count (σ.world.connectList s).nodeCount =
        (if σ.anchored f then 1 else 0) ∧
      (σ'.reachedNodes σ0.activationCount).Pairwise (· < ·) := by
  obtain ⟨hI0, hP0⟩ := placed_reached h0
  obtain ⟨σa, ha, hbs⟩ := Runs.run_cons.mp h1
  obtain ⟨-, hua⟩ := hu1
  rw [ha] at hua
  obtain ⟨hIa, hNa⟩ := hI0.step ha
  have hPa := hP0.next hI0 (legal_of_step ha) hNa
  have hprogress : Progress σa (σ0.entering s o signal) := by
    cases hNa with
    | enter ho' hE =>
      cases ho.symm.trans ho'
      exact .start hI0 ho hE
    | call hc => exact absurd hc id
    | move hst hM => exact absurd hM.isEnd id
  have hsa : (σa.world.sender s).isSome = true := by
    obtain ⟨oa, hoa, _⟩ := hprogress.live
    exact Option.isSome_of_mem hoa
  have hstart : FreeProgress σa (σ0.entering s o signal) :=
    ⟨hprogress, hP0.free_of_next ⟨o, ho, rfl⟩ hmark hNa hsa⟩
  obtain ⟨hI, hP⟩ : σ.Inv ∧ σ.Placed := placed_reached (Runs.run_append.mpr ⟨σ0, h0, h1⟩)
  obtain ⟨σ1, hstep, hcs⟩ := Runs.run_cons.mp h2
  obtain ⟨hu, hucs⟩ := hu2
  rw [hstep] at hucs
  obtain ⟨hI1, hN1⟩ := hI.step hstep
  have hP1 := hP.next hI (legal_of_step hstep) hN1
  have hs : (σ.world.sender s).isSome = true := (legal_of_step hstep).1
  have hk1 := Nat.lt_of_lt_of_le (hI.memory.senderBound s hs) hN1.senderCount
  obtain ⟨hs1, -⟩ := there_before hI1 hcs hk1 hlive
  have hpr : FreeProgress σ (σ0.entering s o signal) := hstart.run hIa hPa hua hbs hs
  have hpr1 : FreeProgress σ1 (σ0.entering s o signal) := hpr.next hI hP hu hN1 hs1
  have hpr' := hpr1.run hI1 hP1 hucs hcs hlive
  refine ⟨?_, hpr'.sorted⟩
  have hU := hpr.running f hf hid
  have hact : f.activation = σ0.entering s o signal := hU.same
  obtain ⟨hst1, hcalls1, hlist1⟩ := connect_made hI hmade hstep
  have hf1 : f ∈ σ1.stack := hst1 ▸ hf
  have hsender : f.activation.sender = s := by
    rw [hact]
    rfl
  have hclimbs := hI.climbs hf (by rw [hsender, hs])
  rw [hsender] at hclimbs
  -- the iterator stands on an older node, and so did all before it
  have hiter : f.iter < (σ.world.connectList s).nodeCount := by
    obtain ⟨_, _, hlt, _⟩ := hclimbs f.iter .here
    exact hlt
  have hnew : (σ1.reachedNodes σ0.activationCount).count (σ.world.connectList s).nodeCount = 0 := by
    rw [State.reachedNodes, dispatches_congr hcalls1, List.count_eq_zero]
    intro hm
    exact absurd (hU.below _ hm).1 (Nat.not_le.mpr hiter)
  have hahead : (σ.world.connectList s).nodeCount ∈ σ1.ahead f ↔ σ.anchored f := by
    have := hI.ahead_made hstep hf hf1 (by rw [hsender, hs]) (by rw [hsender, hs1])
      (mem_cursorsOf hf) (hsender.symm ▸ hlist1)
    rwa [hsender] at this
  have hgoing : Going σ1 f.activation :=
    ⟨hact ▸ hpr1.live, hact ▸ hpr1.free, hact ▸ hpr1.numbered, fun g hg' he =>
      (hpr1.running g hg' (he.trans hid)).same.trans hact.symm⟩
  have hmade1 : ((σ.world.connectList s).nodeCount, (⟨sig, r, slot, type⟩ : ConnectStruct)) ∈
      (σ1.world.connectList s).toList := by
    rw [hlist1]
    exact List.mem_append_right _ List.mem_cons_self
  have hwant : f.activation.wants ⟨sig, r, slot, type⟩ = true := by
    rw [hact]
    exact hsig
  have hrun := hgoing.run hI1 hP1 hucs hcs
    (x := ((σ.world.connectList s).nodeCount, ⟨sig, r, slot, type⟩)) (by rw [hsender, hlive])
    (by rw [hsender]; exact hmade1) (by rw [hsender]; exact hstay) hwant
  rw [due_over (by rw [hid]; exact hend), hI1.due_running hf1, hid] at hrun
  refine hrun.trans ?_
  rw [hnew, Nat.zero_add]
  exact if_congr hahead rfl rfl

/-- One connection. -/
def single : List Action :=
  [.newSender 100, .newReceiver,
    .connect .methodSlot 0 (.method 0 (some 1)) 0 (.method 1 (some 1)) .autoConnection false]

/-- The only slot runs, and has disconnected itself. -/
def alone : State :=
  Runs.reached step (after single) [.activate 0 (.method 0 (some 1)), .ret true,
    .disconnect 0 (.method 0 (some 1)) 0 (.method 1 (some 1))]

/-- It connects another slot, which the running emission does not call. -/
theorem connected_while_running_alone :
    ((Runs.reached step alone [.connect .methodSlot 0 (.method 0 (some 1)) 0 (.method 1 (some 2))
      .autoConnection false, .ret true]).reachedNodes (after single).activationCount).count
        (alone.world.connectList 0).nodeCount = 0 := by
  have h0 : run State.init single = .ok (after single) := Runs.run_reached (by decide +kernel)
  have h1 : run (after single) [.activate 0 (.method 0 (some 1)), .ret true,
      .disconnect 0 (.method 0 (some 1)) 0 (.method 1 (some 1))] = .ok alone :=
    Runs.run_reached (by decide +kernel)
  have h2 : run alone [.connect .methodSlot 0 (.method 0 (some 1)) 0 (.method 1 (some 2))
      .autoConnection false, .ret true] = .ok _ := Runs.run_reached (by decide +kernel)
  have h := inv_reached (Runs.run_append.mpr ⟨_, h0, h1⟩)
  obtain ⟨w', hrun, _⟩ := @connect_does _ _ 0 0 h.memory.toSound (by decide +kernel)
    (by decide +kernel) h.allocs .methodSlot (.method 0 (some 1)) (.method 1 (some 2)) rfl
    .autoConnection false
  have hlost := (connected_while_running (o := ⟨100, 0⟩)
    (f := ⟨⟨0, 0, 100, .method 0 (some 1), none, none, 1, 1⟩, 0, 0, .invoke, 0⟩) h0
    (by decide +kernel) (by decide +kernel) h1 (by decide +kernel) (by decide +kernel)
    (by decide +kernel) ⟨w', hrun⟩ (by decide +kernel) h2
    (by decide +kernel) (by decide +kernel) (by decide +kernel) (by decide +kernel)).1
  exact hlost.trans (if_neg (by decide +kernel))

end CsSignal
