-- The answers of a signal about its receivers, and of a slot about its senders,
-- as the graph of the connections has them; and that what a signal counts is
-- what a disconnect takes out.
import CsSignal.Graph
import Mathlib.Algebra.BigOperators.Group.Finset.Basic

namespace CsSignal

open LinkedCells Calls RcuList Links

/-! ## The count -/

/-- Is the connection one that `internal_cntConnections` counts? A null receiver
is `none`. -/
def isCounted (receiver : Option ReceiverId) (signalMethod : Bento) (item : ConnectStruct) : Bool :=
  if receiver.any (item.receiver != ·) then false
  else if !item.signalMethod.eq signalMethod then false
  else true

namespace ListRef

variable {α β : Type} (ref : ListRef α)

/-- A walk over the list that counts the entries that have the property. -/
def countAll (p : α → Bool) : Nat → Option Nat → Int → Op Int
  | _, none, retval => pure retval
  | 0, some _, _ => undefined .fuel
  | fuel + 1, some n, retval => do
    let c ← ref.deref n
    if p c.data then countAll p fuel c.next (retval + 1)
    else countAll p fuel c.next retval

end ListRef

/-- `SignalBase::internal_cntConnections`. -/
def internalCntConnections (sender : SenderId) (receiver : Option ReceiverId)
    (signalMethod : Bento) : Op Int :=
  let own := connectListOf sender
  own.withHandle do
    let fuel ← own.bound
    let first ← own.begin
    own.countAll (isCounted receiver signalMethod) fuel first 0

namespace ListRef

variable {α β : Type} (ref : ListRef α)

theorem countAll_run {p : α → Bool} {pre rest : List (Nat × α)} {zs : List Entry} {fuel : Nat}
    (retval : Int) {w : World} (hlive : ref.live w = true)
    (hr : Rep (ref.get w) (pre ++ rest) zs) (hf : rest.length ≤ fuel) :
    ref.countAll p fuel (rest.head?.map Prod.fst) retval w =
      .returned (retval + (rest.map Prod.snd).countP p) w := by
  induction rest generalizing pre fuel retval with
  | nil =>
    have hpure : ref.countAll p fuel none retval w = .returned retval w := by
      cases fuel <;> rfl
    simpa using hpure
  | cons x xs ih =>
    cases fuel with
    | zero => simp at hf
    | succ fuel =>
      have hcell := hr.nodes.cell rfl
      have hr' : Rep (ref.get w) ((pre ++ [x]) ++ xs) zs := by simpa using hr
      have hf' : xs.length ≤ fuel := by simpa using hf
      simp only [List.head?_cons, Option.map_some, countAll, List.map_cons]
      rw [bind_returned (ref.deref_run hlive hcell)]
      by_cases hx : p x.2 = true
      · rw [if_pos hx, List.countP_cons_of_pos hx, ih (retval + 1) hr' hf']
        congr 1
        omega
      · rw [if_neg hx, List.countP_cons_of_neg hx]
        exact ih retval hr' hf'

/-- A handle under which the list is only looked at. -/
theorem look_run {f : Op β} {b : β} {w : World} (hlive : ref.live w = true)
    (ha : w.allocs = none) (hb : f (ref.set w (ref.get w).rcuReadLock.2) =
      .returned b (ref.set w (ref.get w).rcuReadLock.2)) {l : RcuList α}
    (hun : (ref.get w).rcuReadLock.2.unlock (ref.get w).rcuReadLock.1 = .ok l) :
    ref.withHandle f w = .returned b (ref.set w l) := by
  have := ref.withHandle_run f (l := l) hlive (World.enough_none ha 1)
    (by rw [World.spend_none ha]; exact hb) (by rw [ref.get_set]; exact hun)
  rwa [ref.set_set] at this

end ListRef

/-- A signal answers both questions, and leaves the same world behind. -/
theorem answers_run {w : World} {cursors : SenderId → List Cursor} {s : SenderId}
    (hw : w.Sound cursors) (hs : (w.sender s).isSome = true) (ha : w.allocs = none) (sig : Bento) :
    ∃ l, l.toList = (w.connectList s).toList ∧
      internalReceiverList s sig w = .returned (((w.conns s).filter
        fun item => item.signalMethod.eq sig).map ConnectStruct.receiver).toFinset
          ((connectListOf s).set w l) ∧
      ∀ r, internalCntConnections s r sig w =
        .returned ((w.conns s).countP (isCounted r sig)) ((connectListOf s).set w l) := by
  let S := connectListOf s
  have hg : Guarded (S.get w) (cursors s) := hw.lists s hs
  obtain ⟨zs, hrep, _, _⟩ := id hg
  obtain ⟨l, hun, hl, _⟩ := hg.lookStep
  have hlive : S.live (S.set w (S.get w).rcuReadLock.2) = true := hs
  have hrep1 : Rep (S.get (S.set w (S.get w).rcuReadLock.2)) ([] ++ (S.get w).toList)
      ((S.get w).guardEntry :: zs) := by
    rw [S.get_set]
    exact hrep.lock
  have hhead : (S.get (S.set w (S.get w).rcuReadLock.2)).head =
      (S.get w).toList.head?.map Prod.fst := hrep1.nodes.head_eq
  refine ⟨l, hl, ?_, fun r => ?_⟩
  · obtain ⟨l', hrun, _⟩ := internalReceiverList_run hw hs ha sig
    have hcol := S.collect_run (f := fun item : ConnectStruct =>
      if item.signalMethod.eq sig then some item.receiver else none) ∅ hlive hrep1
      hrep1.nodes.length_le
    -- the same call, with the list that the unlock leaves
    have hlook : internalReceiverList s sig w = .returned _ (S.set w l) :=
      S.look_run (f := do
        let fuel ← S.bound
        let first ← S.begin
        S.collect (fun item => if item.signalMethod.eq sig then some item.receiver else none)
          fuel first ∅) hs ha (by
        rw [bind_returned (S.bound_run hlive), bind_returned (S.begin_run hlive), hhead]
        exact hcol) hun
    rw [hrun] at hlook ⊢
    injection hlook with hx hw'
    rw [hw']
  · refine S.look_run hs ha ?_ hun
    rw [bind_returned (S.bound_run hlive), bind_returned (S.begin_run hlive), hhead,
      S.countAll_run 0 hlive hrep1 hrep1.nodes.length_le, Int.zero_add]
    rfl

theorem cnt_run {w : World} {cursors : SenderId → List Cursor} {s : SenderId}
    (hw : w.Sound cursors) (hs : (w.sender s).isSome = true) (ha : w.allocs = none)
    (r : Option ReceiverId) (sig : Bento) :
    ∃ w', internalCntConnections s r sig w =
      .returned ((w.conns s).countP (isCounted r sig)) w' := by
  obtain ⟨l, _, _, hcnt⟩ := answers_run hw hs ha sig
  exact ⟨_, hcnt r⟩

/-! ## The graph's answers -/

namespace Graph

/-- The slots that the signal method is connected to. -/
def receivers (g : Graph) (s : SenderId) (sig : Bento) : Finset ReceiverId :=
  (((g.links s).filter fun c => c.signalMethod.eq sig).map ConnectStruct.receiver).toFinset

/-- How many connections the signal method has, to the slot or to any. -/
def counted (g : Graph) (s : SenderId) (r : Option ReceiverId) (sig : Bento) : Nat :=
  (g.links s).countP (isCounted r sig)

end Graph

theorem isCounted_none (sig : Bento) (c : ConnectStruct) :
    isCounted none sig c = c.signalMethod.eq sig := by
  unfold isCounted
  cases c.signalMethod.eq sig <;> rfl

theorem isCounted_some (r : ReceiverId) (sig : Bento) (c : ConnectStruct) :
    isCounted (some r) sig c = (c.receiver == r && c.signalMethod.eq sig) := by
  unfold isCounted
  by_cases hr : c.receiver = r <;> cases c.signalMethod.eq sig <;> simp [hr]

theorem Graph.mem_receivers (g : Graph) (s : SenderId) (r : ReceiverId) (sig : Bento) :
    r ∈ g.receivers s sig ↔ 0 < g.counted s (some r) sig := by
  simp only [Graph.receivers, Graph.counted, List.mem_toFinset, List.mem_map, List.mem_filter,
    List.countP_pos_iff, isCounted_some, Bool.and_eq_true, beq_iff_eq]
  constructor
  · rintro ⟨c, ⟨hc, hsig⟩, hr⟩
    exact ⟨c, hc, hr, hsig⟩
  · rintro ⟨c, hc, hr, hsig⟩
    exact ⟨c, ⟨hc, hsig⟩, hr⟩

/-- With a null receiver the count is the sum over the slots. -/
theorem Graph.counted_none (g : Graph) (s : SenderId) (sig : Bento) :
    g.counted s none sig = ∑ r ∈ g.receivers s sig, g.counted s (some r) sig := by
  have hcount : ∀ r, (((g.links s).filter fun c => c.signalMethod.eq sig).map
      ConnectStruct.receiver).count r = g.counted s (some r) sig := by
    intro r
    rw [Graph.counted, List.count_eq_countP, List.countP_map, List.countP_filter]
    exact List.countP_congr fun c _ => by simp [isCounted_some]
  rw [Graph.receivers, ← Finset.sum_congr rfl fun r _ => hcount r,
    List.sum_toFinset_count_eq_length, List.length_map, ← List.countP_eq_length_filter,
    Graph.counted]
  exact List.countP_congr fun c _ => by rw [isCounted_none]

theorem Graph.counted_le_between (g : Graph) (s : SenderId) (r : ReceiverId) (sig : Bento) :
    g.counted s (some r) sig ≤ g.between s r := by
  refine List.countP_mono_left fun c _ hc => ?_
  rw [isCounted_some, Bool.and_eq_true] at hc
  exact hc.1

/-- A slot has a signal exactly when some method of the signal has the slot. -/
theorem Graph.between_pos_iff (g : Graph) {s : SenderId} (r : ReceiverId)
    (hcomp : ∀ c ∈ g.links s, c.signalMethod.comparable = true) :
    0 < g.between s r ↔ ∃ sig, r ∈ g.receivers s sig := by
  constructor
  · intro h
    obtain ⟨c, hc, hr⟩ := List.countP_pos_iff.mp h
    refine ⟨c.signalMethod, (g.mem_receivers s r _).mpr (List.countP_pos_iff.mpr ⟨c, hc, ?_⟩)⟩
    rw [isCounted_some, Bool.and_eq_true]
    exact ⟨hr, (Bento.eq_iff _ _).mpr ⟨rfl, hcomp c hc⟩⟩
  · rintro ⟨sig, h⟩
    exact Nat.lt_of_lt_of_le ((g.mem_receivers s r sig).mp h) (g.counted_le_between s r sig)

/-! ## The answers in a run -/

/-- The objects answer as the graph says, and no question changes it. -/
structure World.Answers (w : World) (g : Graph) : Prop where
  signal : ∀ s sig, (w.sender s).isSome = true → ∃ w', w'.graph = g ∧
    internalReceiverList s sig w = .returned (g.receivers s sig) w' ∧
    ∀ r, internalCntConnections s r sig w = .returned (g.counted s r sig) w'
  slot : ∀ r, w.receiver r = true → ∃ senders w', w'.graph = g ∧
    internalSenderList r w = .returned senders w' ∧ ∀ s, s ∈ senders ↔ 0 < g.between s r

theorem World.Sound.answers {w : World} {cursors : SenderId → List Cursor} (hw : w.Sound cursors)
    (ha : w.allocs = none) : w.Answers w.graph where
  signal s sig hs := by
    obtain ⟨l, hl, hlist, hcnt⟩ := answers_run hw hs ha sig
    have hlinks := World.graph_links hs
    refine ⟨(connectListOf s).set w l, ?_, ?_, fun r => ?_⟩
    · refine World.graph_same hw.booked (fun _ => rfl) rfl (fun s' _ => conns_of_toList ?_) rfl rfl
      show (Function.update w.connectList s l s').toList = _
      by_cases hss : s' = s
      · subst hss
        rw [Function.update_self, hl]
      · rw [Function.update_of_ne hss]
    · rw [hlist, Graph.receivers, hlinks]
    · rw [hcnt r, Graph.counted, hlinks]
  slot r hr := by
    obtain ⟨l, hrun, _⟩ := internalSenderList_run hw hr ha
    refine ⟨_, (possibleSendersOf r).set w l,
      World.graph_same hw.booked (fun _ => rfl) rfl (fun _ _ => rfl) rfl rfl, hrun, fun s => ?_⟩
    rw [List.mem_toFinset, ← hw.booked.count hr s, List.count_pos_iff]

/-- In every state that a program reaches, in the middle of an emission too, both
sides answer as the graph of the program says. So a slot is a receiver of a
signal method exactly when the method counts a connection to it, the count for a
null receiver is the sum over the receivers, and a slot names the signals that
name it, where their methods can be compared. -/
theorem answers_agree {as : List Action} {σ : State} (hr : run State.init as = .ok σ) {g : Graph}
    (hg : g = Graph.empty.after as) :
    σ.world.Answers g ∧
    (∀ s r sig, r ∈ g.receivers s sig ↔ 0 < g.counted s (some r) sig) ∧
    (∀ s sig, g.counted s none sig = ∑ r ∈ g.receivers s sig, g.counted s (some r) sig) ∧
    ∀ s r, (∀ c ∈ g.links s, c.signalMethod.comparable = true) →
      (0 < g.between s r ↔ ∃ sig, r ∈ g.receivers s sig) := by
  have h := inv_reached hr
  refine ⟨?_, g.mem_receivers, g.counted_none, fun s r => g.between_pos_iff r⟩
  rw [hg, ← graph_reached hr]
  exact h.memory.toSound.answers h.allocs

theorem answers_agree_reconnecting :
    (after reconnecting).world.Answers (Graph.empty.after reconnecting) ∧
      (Graph.empty.after reconnecting).counted 0 none (.method 0 (some 1)) = 2 :=
  ⟨(answers_agree (Runs.run_reached (by decide +kernel)) rfl).1, by decide +kernel⟩

/-! ## Counting before a disconnect -/

/-- The test of a disconnect that names a signal method and perhaps a slot. -/
theorem isMatch_eq_isCounted (sig : Bento) (r : Option ReceiverId) (c : ConnectStruct) :
    isMatch (some sig) r none c = isCounted r sig c := by
  have heq : sig.eq c.signalMethod = c.signalMethod.eq sig :=
    Bool.eq_iff_iff.mpr ((Bento.eq_iff _ _).trans
      (Iff.trans ⟨.symm, .symm⟩ (Bento.eq_iff _ _).symm))
  cases r with
  | none => simp [isMatch, isCounted_none, heq]
  | some x =>
    rw [isCounted_some]
    by_cases hx : x = c.receiver
    · simp [isMatch, heq, hx]
    · have hx' : ¬ c.receiver = x := fun h => hx h.symm
      simp [isMatch, hx, hx']

theorem isCounted_other {sig sig' : Bento} (hne : sig' ≠ sig) {r r' : Option ReceiverId}
    {c : ConnectStruct} (hc : isCounted r sig c = true) : isCounted r' sig' c = false := by
  have hsig : ∀ {r b}, isCounted r b c = true → c.signalMethod = b := by
    intro r b h
    cases r with
    | none => exact ((Bento.eq_iff _ _).mp (isCounted_none b c ▸ h)).1
    | some x =>
      rw [isCounted_some, Bool.and_eq_true] at h
      exact ((Bento.eq_iff _ _).mp h.2).1
  by_contra h
  rw [Bool.not_eq_false] at h
  exact hne ((hsig h).symm.trans (hsig hc))

/-- What `internal_cntConnections` counts before, `internal_disconnect` with the
same signal and receiver takes out: it answers whether there was anything, the
list gets shorter by as much, nothing is counted afterwards, and the counts of
the other signal methods stay. -/
theorem disconnect_counted {as : List Action} {σ : State} (hr : run State.init as = .ok σ)
    {s : SenderId} (hs : (σ.world.sender s).isSome = true) (sig : Bento) (r : Option ReceiverId) :
    ∃ (n : Nat) (w1 w2 : World), internalCntConnections s r sig σ.world = .returned n w1 ∧
      internalDisconnect s (some sig) r none σ.world = .returned (decide (0 < n)) w2 ∧
      (w2.conns s).length + n = (σ.world.conns s).length ∧
      (∃ w3, internalCntConnections s r sig w2 = .returned 0 w3) ∧
      ∀ sig', sig' ≠ sig → ∀ r', ∃ m w4 w5,
        internalCntConnections s r' sig' σ.world = .returned m w4 ∧
        internalCntConnections s r' sig' w2 = .returned m w5 := by
  have h := inv_reached hr
  have hw := h.memory.toSound
  have hhit : isMatch (some sig) r none = isCounted r sig := funext (isMatch_eq_isCounted sig r)
  obtain ⟨w2, hrun, hD, hw2⟩ := internalDisconnect_run hw hs h.allocs (some sig) r none
  rw [hhit] at hrun hD
  have hs2 : (w2.sender s).isSome = true := by rw [hD.objects.sender, hs]
  have ha2 : w2.allocs = none := by rw [hD.allocs, World.spend_none h.allocs, h.allocs]
  obtain ⟨w1, hcnt⟩ := cnt_run hw hs h.allocs r sig
  obtain ⟨w3, hcnt2⟩ := cnt_run hw2 hs2 ha2 r sig
  refine ⟨(σ.world.conns s).countP (isCounted r sig), w1, w2, hcnt, ?_, ?_, ⟨w3, ?_⟩,
    fun sig' hne r' => ?_⟩
  · rw [hrun]
    congr 1
    rw [Bool.eq_iff_iff, decide_eq_true_iff, List.countP_pos_iff, List.any_eq_true]
  · rw [hD.conns, ← List.countP_eq_length_filter, Nat.add_comm]
    simpa using (List.length_eq_countP_add_countP (isCounted r sig) (l := σ.world.conns s)).symm
  · have hzero : (w2.conns s).countP (isCounted r sig) = 0 := by
      rw [hD.conns, List.countP_eq_zero]
      intro c hc
      simpa using (List.mem_filter.mp hc).2
    rw [hcnt2, hzero]
    rfl
  · obtain ⟨w4, hother⟩ := cnt_run hw hs h.allocs r' sig'
    obtain ⟨w5, hother2⟩ := cnt_run hw2 hs2 ha2 r' sig'
    refine ⟨_, w4, w5, hother, ?_⟩
    rw [hother2, hD.conns, List.countP_filter]
    congr 2
    refine List.countP_congr fun c _ => ?_
    cases hc : isCounted r sig c with
    | true => simp [isCounted_other hne hc]
    | false => simp

theorem disconnect_counted_reconnecting :
    ∃ (n : Nat) (w1 w2 : World),
      internalCntConnections 0 (some 1) (.method 0 (some 1)) (after reconnecting).world =
        .returned n w1 ∧
      internalDisconnect 0 (some (.method 0 (some 1))) (some 1) none (after reconnecting).world =
        .returned (decide (0 < n)) w2 :=
  have ⟨n, w1, w2, h1, h2, _⟩ := disconnect_counted (s := 0) (σ := after reconnecting)
    (Runs.run_reached (by decide +kernel)) (by decide +kernel) (.method 0 (some 1)) (some 1)
  ⟨n, w1, w2, h1, h2⟩

end CsSignal
