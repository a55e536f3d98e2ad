-- When two threads end a connection from both sides, one of them by destroying the
-- slot: neither uses an object after its destructor, as long as no destructor ends
-- while the other thread still holds its object.
import CsSignal.CrossingSteps
import CsSignal.Invariant

namespace CsSignal

open LinkedCells Calls RcuList

namespace Crossing

variable {s : SenderId} {r : ReceiverId} {c c' : Crossing}

/-! ## The invariant -/

/-- The thread that disconnects is in its own call, and its iterators are sound. -/
structure Disconnecting (s : SenderId) (r : ReceiverId) (c : Crossing) (call : LibCall)
    (g : Stage) : Prop where
  call : call = disconnectAll s
  stage : g.disconnects = true
  walked : (c.connectList s).Walked g.place.ptr
  reading : (c.possibleSenders r).Walked (g.reading r)

/-- The iterators of the first thread in lists that the others change too. -/
def Working (s : SenderId) (r : ReceiverId) (c : Crossing) : SenderWork → Prop
  | .emit _ _ => True
  | .disconnect => ∀ call g, c.thread firstThread = some (call, g) → c.Disconnecting s r call g
  | .destroy w => (c.possibleSenders r).Walked (w.reading r)

structure Inv (s : SenderId) (r : ReceiverId) (c : Crossing) : Prop where
  connects : (c.connectList s).Sound
  possible : (c.possibleSenders r).Sound
  working : c.Working s r c.work
  second : (c.connectList s).Walked (c.second.reading s)
  /-- Until the first thread starts, the second one sweeps the list of the signal. -/
  coversSender : c.place = .before →
    c.second.Covers (slotBase r) (c.possibleSenders r) s (c.connectList s)
  /-- Until the second thread starts, `~SignalBase` sweeps the list of the slot. -/
  coversReceiver : c.second = .begin → ∀ w, c.work = .destroy w →
    w.Covers (signalBase s) (c.connectList s) r (c.possibleSenders r)
  receiverGone : c.second = .done →
    c.holds ≠ some r ∧ ¬ c.place.Meets (c.connectList s) (c.work.wants r)
  senderGone : c.work = .destroy .done → c.second.Free (slotBase r) (c.possibleSenders r) s

theorem inv_start {w : World} {cursors : SenderId → List Cursor} (hw : w.Sound cursors)
    (hs : (w.sender s).isSome = true) (hr : w.receiver r = true) (call : SenderCall) :
    (start w s call).Inv s r := by
  obtain ⟨zs, hl, _⟩ := hw.lists s hs
  obtain ⟨zs', hlr, _⟩ := hw.slots r hr
  have hcount := hw.booked.counts s r hs hr
  have hl : (w.connectList s).toNodeList.Sound := ⟨_, hl.nodes⟩
  have hlr : (w.possibleSenders r).toNodeList.Sound := ⟨_, hlr.nodes⟩
  have hto : Sweep.Left (slotBase r) (w.connectList s).toNodeList →
      ∃ x ∈ (w.possibleSenders r).toList, (slotBase r).wants s x.2 = true := by
    rintro ⟨x, hx, hm⟩
    have hpos : 0 < (w.possible r).count s := by
      rw [← hcount, List.countP_pos_iff]
      exact ⟨x.2, List.mem_map_of_mem hx, hm⟩
    obtain ⟨y, hy, hys⟩ := List.mem_map.mp (List.count_pos_iff.mp hpos)
    exact ⟨y, hy, beq_iff_eq.mpr hys⟩
  have hfrom : Sweep.Left (signalBase s) (w.possibleSenders r).toNodeList →
      ∃ x ∈ (w.connectList s).toList, (signalBase s).wants r x.2 = true := by
    rintro ⟨x, hx, hm⟩
    have hpos : 0 < (w.conns s).countP fun c => c.receiver == r := by
      rw [hcount, List.count_pos_iff]
      exact List.mem_map.mpr ⟨x, hx, beq_iff_eq.mp hm⟩
    obtain ⟨y, hy, hyr⟩ := List.countP_pos_iff.mp hpos
    obtain ⟨z, hz, rfl⟩ := List.mem_map.mp hy
    exact ⟨z, hz, hyr⟩
  cases call with
  | emit signal =>
    exact ⟨hl, hlr, trivial, NodeList.walked_none, fun _ => hto, (fun _ w h => nomatch h),
      (fun h => nomatch h), fun h => nomatch h⟩
  | disconnect =>
    refine ⟨hl, hlr, ?_, NodeList.walked_none, fun _ => hto, (fun _ w h => nomatch h),
      (fun h => nomatch h), fun h => nomatch h⟩
    intro call g h
    have h : some (disconnectAll s, Stage.lock) = some (call, g) := h
    cases h
    exact ⟨rfl, rfl, NodeList.walked_none, NodeList.walked_none⟩
  | destroy =>
    exact ⟨hl, hlr, NodeList.walked_none, NodeList.walked_none, fun _ => hto,
      (fun _ w h => by cases h; exact hfrom), (fun h => nomatch h), fun h => nomatch h⟩

/-! ## The steps -/

theorem place_before_of_destroy {w : Sweep} (hw : c.work = .destroy w) (hb : c.place = .before) :
    w = .begin := by
  unfold place at hb
  rw [hw] at hb
  exact Sweep.place_before.mp hb

theorem Inv.second_step (h : c.Inv s r) (hc : c.Apart s r .second)
    (hstep : c.secondStep r = .ok c') : c'.Inv s r := by
  unfold secondStep at hstep
  split at hstep
  · next ps w hrun =>
    cases hstep
    have hd := Sweep.does_of_step hrun
    obtain ⟨hs, hw⟩ := hd.peer s h.connects h.second
    refine ⟨hs.sound, h.possible, ?_, hw,
      fun hb => hd.covers h.possible h.connects (h.coversSender hb),
      fun hb => absurd hb hd.ne_begin, fun hdone => ?_,
      fun hdone => hd.free h.possible (h.senderGone hdone)⟩
    · have hwork := h.working
      cases hcw : c.work with
      | emit signal g => trivial
      | disconnect =>
        rw [hcw] at hwork
        intro call g ht
        obtain ⟨hcall, hstage, hwalked, hreading⟩ := hwork call g ht
        exact ⟨hcall, hstage, hwalked.shrinks hs, hreading⟩
      | destroy w =>
        rw [hcw] at hwork
        exact hwork
    · -- `~SlotBase` ends
      have hdone : w = .done := hdone
      subst hdone
      obtain ⟨hfin, rfl⟩ : c.second = .finish ∧ ps = ⟨c.connectList, c.connectMutex⟩ := by
        generalize c.second = w at hd
        cases hd
        exact ⟨rfl, rfl⟩
      have hnot := hc hfin
      unfold HoldsReceiver at hnot
      rw [not_or, not_and] at hnot
      refine ⟨hnot.1, ?_⟩
      by_cases hb : c.place = .before
      · -- the first thread has not started, and finds no connection to the slot
        have hcov := h.coversSender hb
        rw [hfin] at hcov
        intro hm
        have hm : c.place.Meets (c.connectList s) (c.work.wants r) := hm
        rw [hb] at hm
        obtain ⟨x, hx, hwant⟩ := hm
        refine hcov ⟨x, hx, ?_⟩
        cases hcw : c.work with
        | emit signal g =>
          rw [hcw] at hwant
          exact (Bool.and_eq_true _ _ ▸ hwant).2
        | disconnect => rwa [hcw] at hwant
        | destroy w => rwa [hcw] at hwant
      · exact hnot.2 hb
  · cases hstep

theorem Inv.emit_step {signal : Bento} {g g' : Emit} {b : Bool} (h : c.Inv s r)
    (hw : c.work = .emit signal g) (hrun : g.step signal (c.connectList s) b = .ok g') :
    { c with work := .emit signal g' }.Inv s r where
  connects := h.connects
  possible := h.possible
  working := trivial
  second := h.second
  coversSender hb := by
    have hb : g'.place = .before := hb
    exact absurd hb (Emit.step_place hrun)
  coversReceiver _ w hw' := nomatch hw'
  receiverGone hdone := by
    have hfree := h.receiverGone hdone
    unfold holds place at hfree
    rw [hw] at hfree
    exact Emit.step_free hrun h.connects hfree
  senderGone hdone := nomatch hdone

theorem place_disconnect (hw : c.work = .disconnect) :
    c.place = (c.stage.map Stage.place).getD .ended := by
  unfold place
  rw [hw]

theorem holds_disconnect (hw : c.work = .disconnect) : c.holds = c.stage.bind Stage.holds := by
  unfold holds
  rw [hw]

theorem Inv.disconnect_step {g : Stage} {τ : Threads} (h : c.Inv s r) (hw : c.work = .disconnect)
    (ht : c.thread firstThread = some (disconnectAll s, g))
    (hrun : c.goStep firstThread (disconnectAll s) g = .ok τ) :
    { c with toThreads := τ }.Inv s r := by
  have hwork := h.working
  rw [hw] at hwork
  obtain ⟨_, hstage, hwalked, hreading⟩ := hwork _ _ ht
  obtain ⟨g', hd, ht'⟩ := disconnects_of_goStep hrun hstage
  obtain ⟨hs, hsr, hnext⟩ := hd.shrinks h.connects h.possible hwalked hreading
  have hstage' : { c with toThreads := τ }.stage = g' := by
    unfold stage
    rw [ht']
    cases g' <;> rfl
  have hplace : { c with toThreads := τ }.place = (g'.map Stage.place).getD .ended :=
    hstage' ▸ place_disconnect hw
  have hholds : { c with toThreads := τ }.holds = g'.bind Stage.holds :=
    hstage' ▸ holds_disconnect hw
  have hstage0 : c.stage = some g := by
    unfold stage
    rw [ht]
    rfl
  have hplace0 : c.place = g.place := by
    rw [place_disconnect hw, hstage0]
    rfl
  have hholds0 : c.holds = g.holds := by
    rw [holds_disconnect hw, hstage0]
    rfl
  refine ⟨hs.sound, hsr.sound, ?_, h.second.shrinks hs, fun hb => ?_, fun _ w hw' => ?_,
    fun hdone => ?_, fun hdone => ?_⟩
  · simp only [hw]
    intro call x hx
    rw [ht'] at hx
    obtain ⟨y, hy, hyx⟩ := Option.map_eq_some_iff.mp hx
    cases hyx
    obtain ⟨hwalked', hreading'⟩ := hnext x hy
    exact ⟨rfl, hd.disconnects x hy, hwalked', hreading'⟩
  · rw [hplace] at hb
    cases g' with
    | none => cases hb
    | some x =>
      obtain ⟨hb0, hl, hlr⟩ := hd.before rfl hb
      have hcov := h.coversSender (hplace0.trans hb0)
      simp only [hl, hlr]
      exact hcov
  · rw [hw] at hw'
    cases hw'
  · have hfree := h.receiverGone hdone
    rw [hplace0, hholds0, hw] at hfree
    rw [hplace, hholds]
    simp only [hw]
    cases g' with
    | none => exact ⟨(fun h => nomatch h), id⟩
    | some x => exact hd.free h.connects hwalked hfree x rfl
  · rw [hw] at hdone
    cases hdone

theorem Inv.destroy_step {ps : Peers SenderId} {w w' : Sweep} (h : c.Inv s r)
    (hw : c.work = .destroy w) (hc : w = .finish → ¬ c.HoldsSender s r)
    (hrun : w.step (signalBase s) (c.connectList s) ⟨c.possibleSenders, c.possibleMutex⟩ =
      .ok (ps, w')) :
    { c with possibleSenders := ps.list, possibleMutex := ps.mutex, work := .destroy w' }.Inv s r := by
  have hd := Sweep.does_of_step hrun
  have hwork := h.working
  rw [hw] at hwork
  obtain ⟨hs, hwalked⟩ := hd.peer r h.possible hwork
  refine ⟨h.connects, hs.sound, hwalked, h.second,
    fun hb => absurd (place_before_of_destroy rfl hb) hd.ne_begin, fun hb w1 hw1 => ?_,
    fun hdone => ?_, fun hdone => ?_⟩
  · cases hw1
    exact hd.covers h.connects h.possible (h.coversReceiver hb w hw)
  · have hfree := h.receiverGone hdone
    unfold holds place at hfree
    rw [hw] at hfree
    exact hd.free h.connects hfree
  · -- `~SignalBase` ends
    cases hdone
    obtain ⟨rfl, rfl⟩ : w = .finish ∧ ps = ⟨c.possibleSenders, c.possibleMutex⟩ := by
      cases hd
      exact ⟨rfl, rfl⟩
    have hnot := hc rfl
    unfold HoldsSender at hnot
    rw [not_or, not_and] at hnot
    refine ⟨hnot.1, ?_⟩
    by_cases hb : c.second = .begin
    · -- the second thread has not started, and finds no entry for the signal
      have hcov := h.coversReceiver hb _ hw
      intro hm
      simp only [hb] at hm
      exact hcov hm
    · exact hnot.2 fun hp => hb (Sweep.place_before.mp hp)

theorem Inv.first_step {b : Bool} (h : c.Inv s r) (hc : c.Apart s r (.first b))
    (hstep : c.firstStep s b = .ok c') : c'.Inv s r := by
  unfold firstStep at hstep
  split at hstep
  · next signal g hw =>
    split at hstep
    · next g' hrun =>
      cases hstep
      exact h.emit_step hw hrun
    · cases hstep
  · next hw =>
    split at hstep
    · next call g ht =>
      split at hstep
      · next τ hrun =>
        cases hstep
        have hwork := h.working
        rw [hw] at hwork
        obtain ⟨rfl, _⟩ := hwork _ _ ht
        exact h.disconnect_step hw ht hrun
      · cases hstep
    · cases hstep
  · next w hw =>
    split at hstep
    · next ps w' hrun =>
      cases hstep
      exact h.destroy_step hw (fun hfin => hc (by rw [hw, hfin])) hrun
    · cases hstep

theorem Inv.step {e : CrossingEvent} (h : c.Inv s r) (hc : c.Apart s r e)
    (hstep : c.step s r e = .ok c') : c'.Inv s r := by
  cases e with
  | first b =>
    simp only [Crossing.step] at hstep
    split at hstep
    · cases hstep
    · exact h.first_step hc hstep
  | second =>
    simp only [Crossing.step] at hstep
    split at hstep
    · cases hstep
    · exact h.second_step hc hstep

/-! ## The accesses -/

theorem holds_of_hand (h : c.hand = some r) : c.holds = some r := by
  unfold hand at h
  unfold holds
  cases hw : c.work with
  | disconnect =>
    rw [hw] at h
    cases hg : c.stage with
    | none =>
      rw [hg] at h
      cases h
    | some g =>
      rw [hg] at h
      cases g <;> first | exact h | cases h
  | _ =>
    rw [hw] at h
    exact h

theorem firstStep_error (h : c.Inv s r) {b : Bool} :
    c.firstStep s b ≠ .error (.fault .destroyed) := by
  intro he
  unfold firstStep at he
  split at he
  · split at he
    · cases he
    · next hd =>
      cases he
      exact Emit.step_error hd
  · next hw =>
    split at he
    · next call g ht =>
      have hwork := h.working
      rw [hw] at hwork
      obtain ⟨rfl, hstage, _⟩ := hwork _ _ ht
      split at he
      · cases he
      · next hd =>
        cases he
        exact goStep_error hstage hd
    · cases he
  · split at he
    · cases he
    · next hd =>
      cases he
      exact Sweep.step_error hd

/-- No step of one of the threads uses an object that the other one has destroyed. -/
theorem Inv.no_fault (h : c.Inv s r) (e : CrossingEvent) :
    c.step s r e ≠ .error (.fault .destroyed) := by
  intro he
  cases e with
  | first b =>
    simp only [Crossing.step] at he
    split at he
    · next hc => exact (h.receiverGone hc.2).1 (holds_of_hand hc.1)
    · exact firstStep_error h he
  | second =>
    simp only [Crossing.step] at he
    split at he
    · next hc => exact (h.senderGone hc.2).1 hc.1
    · unfold secondStep at he
      split at he
      · cases he
      · next hd =>
        cases he
        exact Sweep.step_error hd

end Crossing

/-- Whatever the first thread does with the signal while the second one destroys the
slot: when no destructor ends while the other thread holds its object, no step is an
access to an object whose destructor has ended. -/
theorem destruction_apart {as : List Action} {σ : State} (hσ : run State.init as = .ok σ)
    {s : SenderId} {r : ReceiverId} (hs : (σ.world.sender s).isSome = true)
    (hr : σ.world.receiver r = true) (call : SenderCall) {es : List CrossingEvent} {c : Crossing}
    (hm : Runs.Meets (Crossing.step s r) (Crossing.Apart s r) (Crossing.start σ.world s call) es)
    (hrun : Runs.run (Crossing.step s r) (Crossing.start σ.world s call) es = .ok c)
    (e : CrossingEvent) : c.step s r e ≠ .error (.fault .destroyed) := by
  have hI := inv_reached hσ
  have h := Runs.run_invariant (fun c e c' (h : c.Inv s r) hc hstep => h.step hc hstep) hm hrun
    (Crossing.inv_start hI.memory.toSound hs hr call)
  exact h.no_fault e

/-! ## Two runs -/

/-- Does a walk from the place on come to its end, and meet no entry with the property? -/
def Place.passes {α : Type} (l : NodeList α) (want : α → Bool) : Place → Bool
  | .before => true
  | .on iter => clear iter
  | .past n =>
    match l.node n with
    | some c => clear c.next
    | none => true
  | .ended => true
where
  clear (p : Option Nat) : Bool :=
    let met := walk l.node (l.nodeCount + 1) p
    decide (met.length < l.nodeCount + 1) && met.all fun x => !want x.2

theorem Place.not_meets {α : Type} {l : NodeList α} {want : α → Bool} {p : Place}
    (h : p.passes l want = true) : ¬ (p ≠ .before ∧ p.Meets l want) := by
  have hclear : ∀ q, passes.clear l want q = true → ¬ Ahead l.node q want := by
    intro q hq
    simp only [passes.clear, Bool.and_eq_true, decide_eq_true_eq, List.all_eq_true,
      Bool.not_eq_true'] at hq
    exact not_ahead_of_walk hq.1 hq.2
  rintro ⟨hb, hm⟩
  cases p with
  | before => exact hb rfl
  | on iter => exact hclear iter h hm
  | past n =>
    obtain ⟨c, hc, ha⟩ := hm
    simp only [passes, hc] at h
    exact hclear _ h ha
  | ended => exact hm

/-- A computed condition that is enough for `Apart`. -/
def Crossing.apart (s : SenderId) (r : ReceiverId) (c : Crossing) : CrossingEvent → Bool
  | .first _ => decide (c.work ≠ .destroy .finish) || decide (c.second.hand ≠ some s) &&
    c.second.place.passes (c.possibleSenders r) ((slotBase r).wants s)
  | .second => decide (c.second ≠ .finish) || decide (c.holds ≠ some r) &&
    c.place.passes (c.connectList s) (c.work.wants r)

theorem Crossing.apart_sound {s : SenderId} {r : ReceiverId} {c : Crossing} {e : CrossingEvent}
    (h : c.apart s r e = true) : c.Apart s r e := by
  cases e with
  | first b =>
    intro hfin
    simp only [apart, hfin, ne_eq, not_true_eq_false, decide_false, Bool.false_or, Bool.and_eq_true,
      decide_eq_true_eq] at h
    exact not_or.mpr ⟨h.1, Place.not_meets h.2⟩
  | second =>
    intro hfin
    simp only [apart, hfin, ne_eq, not_true_eq_false, decide_false, Bool.false_or, Bool.and_eq_true,
      decide_eq_true_eq] at h
    exact not_or.mpr ⟨h.1, Place.not_meets h.2⟩

/-- Two slots of one signal. -/
def pairOfSlots : List Action :=
  [.newSender 100, .newReceiver, .newReceiver,
    .connect .methodSlot 0 (.method 0 (some 1)) 0 (.method 1 (some 1)) .autoConnection false,
    .connect .methodSlot 0 (.method 0 (some 1)) 1 (.method 1 (some 1)) .autoConnection false]

/-- The second slot is destroyed while `activate` is in the first one. -/
def destroyedBehind : List CrossingEvent :=
  [.first true, .first true, .first true] ++ List.replicate 12 .second ++ [.first true, .first true]

theorem destruction_apart_behind :
    (Runs.reached (Crossing.step 0 1)
      (Crossing.start (after pairOfSlots).world 0 (.emit (.method 0 (some 1)))) destroyedBehind).step
        0 1 (.first true) ≠ .error (.fault .destroyed) :=
  destruction_apart (Runs.run_reached (by decide +kernel)) (by decide +kernel)
    (by decide +kernel) (.emit (.method 0 (some 1)))
    (Runs.Meets.mono (fun _ _ => Crossing.apart_sound) (by decide +kernel))
    (Runs.run_reached (by decide +kernel)) (.first true)

/-- A signal with one connection. -/
def oneSlot : List Action :=
  [.newSender 100, .newReceiver,
    .connect .methodSlot 0 (.method 0 (some 1)) 0 (.method 1 (some 1)) .autoConnection false]

/-- The slot is destroyed while `activate` stands on its connection, and after
`internal_disconnect` has erased the signal from its list; and the signal is destroyed
when `~SlotBase` is about to lock its list. -/
theorem destruction_crossed :
    (∃ c, Runs.run (Crossing.step 0 0)
        (Crossing.start (after oneSlot).world 0 (.emit (.method 0 (some 1))))
        (List.replicate 2 (.first true) ++ List.replicate 11 .second) = .ok c ∧ c.second = .done ∧
      c.step 0 0 (.first true) = .error (.fault .destroyed)) ∧
    (∃ c, Runs.run (Crossing.step 0 0) (Crossing.start (after oneSlot).world 0 .disconnect)
        (List.replicate 8 (.first true) ++ List.replicate 3 .second) = .ok c ∧ c.second = .done ∧
      c.step 0 0 (.first true) = .error (.fault .destroyed)) ∧
    ∃ c, Runs.run (Crossing.step 0 0) (Crossing.start (after oneSlot).world 0 .destroy)
        (List.replicate 2 .second ++ List.replicate 11 (.first true)) = .ok c ∧
      c.work = .destroy .done ∧ c.step 0 0 .second = .error (.fault .destroyed) :=
  ⟨⟨_, Runs.run_reached (by decide +kernel), by decide +kernel, by rfl⟩,
    ⟨_, Runs.run_reached (by decide +kernel), by decide +kernel, by rfl⟩,
    ⟨_, Runs.run_reached (by decide +kernel), by decide +kernel, by rfl⟩⟩

end CsSignal
