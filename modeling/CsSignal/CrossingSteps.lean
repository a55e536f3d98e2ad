-- What the steps of the two threads do to the lists: a destructor and an
-- `internal_disconnect` only erase, a list that the other side leaves alone is swept
-- from end to end, and nobody comes back to an object that it is done with.
import CsSignal.Crossing
import CsSignal.Walkers

namespace CsSignal

open LinkedCells Calls

/-! ## One step of a destructor -/

namespace Sweep

variable {α β : Type} {d : Cleanup α β} {own : NodeList α} {ps ps' : Peers β} {w w' : Sweep}
  {target : Nat}

/-- What the steps of a destructor do. -/
inductive Does (d : Cleanup α β) (own : NodeList α) (ps : Peers β) :
    Sweep → Peers β → Sweep → Prop
  | begin : Does d own ps .begin ps (.visit own.head)
  | last : Does d own ps (.visit none) ps .finish
  | item {n : Nat} {c : Node α} : own.node n = some c →
    Does d own ps (.visit (some n)) ps (.lock n (d.peer c.data))
  | lock {n p : Nat} : ps.mutex p = none → Does d own ps (.lock n p)
    { ps with mutex := Function.update ps.mutex p (some d.thread) } (.first n p)
  | first {n p : Nat} : Does d own ps (.first n p) ps (.scan n p (ps.list p).head)
  | scanned {n p : Nat} : Does d own ps (.scan n p none) ps (.unlock n p)
  | found {n p k : Nat} {c : Node β} : (ps.list p).node k = some c → d.mine c.data = true →
    Does d own ps (.scan n p (some k)) ps (.erase n p k)
  | passed {n p k : Nat} {c : Node β} : (ps.list p).node k = some c → d.mine c.data = false →
    Does d own ps (.scan n p (some k)) ps (.scan n p c.next)
  | erase {n p k : Nat} {oldNext : Option Nat} {b : Bool} {l : NodeList β} :
    (ps.list p).unlink k = .ok (oldNext, b, l) →
    Does d own ps (.erase n p k) { ps with list := Function.update ps.list p l }
      (.scan n p oldNext)
  | unlock {n p : Nat} : Does d own ps (.unlock n p)
    { ps with mutex := Function.update ps.mutex p none } (.next n)
  | next {n : Nat} {c : Node α} : own.node n = some c →
    Does d own ps (.next n) ps (.visit c.next)
  | finish : Does d own ps .finish ps .done

theorem deref_eq {γ : Type} {l : NodeList γ} {n : Nat} {c : Node γ} (h : l.deref n = .ok c) :
    l.node n = some c := by
  unfold NodeList.deref at h
  split at h
  · cases h
    assumption
  · cases h

theorem does_of_step (h : w.step d own ps = .ok (ps', w')) : Does d own ps w ps' w' := by
  cases w with
  | begin =>
    cases h
    exact .begin
  | visit item =>
    cases item with
    | none =>
      cases h
      exact .last
    | some n =>
      simp only [step] at h
      split at h
      · next hc =>
        cases h
        exact .item (deref_eq hc)
      · cases h
  | lock n p =>
    simp only [step] at h
    split at h
    · next hp =>
      cases h
      exact .lock hp
    · cases h
  | first n p =>
    cases h
    exact .first
  | scan n p iter =>
    cases iter with
    | none =>
      cases h
      exact .scanned
    | some k =>
      simp only [step] at h
      split at h
      · next c hc =>
        by_cases hm : d.mine c.data = true
        · rw [if_pos hm] at h
          cases h
          exact .found (deref_eq hc) hm
        · rw [if_neg hm] at h
          cases h
          exact .passed (deref_eq hc) (by simpa using hm)
      · cases h
  | erase n p k =>
    simp only [step] at h
    split at h
    · next hrun =>
      cases h
      exact .erase hrun
    · cases h
  | unlock n p =>
    cases h
    exact .unlock
  | next n =>
    simp only [step] at h
    split at h
    · next hc =>
      cases h
      exact .next (deref_eq hc)
    · cases h
  | finish =>
    cases h
    exact .finish
  | done => cases h

theorem Does.ne_begin (h : Does d own ps w ps' w') : w' ≠ .begin := by
  cases h <;> exact fun h => nomatch h

theorem place_before : w.place = .before ↔ w = .begin := by
  cases w <;> simp [place]

/-! ### The list of a peer -/

/-- The iterator that stands in the list of a peer. -/
def reading (target : Nat) : Sweep → Option Nat
  | .scan _ p iter => if p = target then iter else none
  | .erase _ p k => if p = target then some k else none
  | _ => none

/-- A destructor erases from the list of a peer, and changes it in no other way. -/
theorem Does.peer (target : Nat) (h : Does d own ps w ps' w') (hl : (ps.list target).Sound)
    (hw : (ps.list target).Walked (w.reading target)) :
    (ps.list target).Shrinks (ps'.list target) ∧
      (ps'.list target).Walked (w'.reading target) := by
  cases h with
  | first =>
    refine ⟨.refl hl, ?_⟩
    simp only [reading]
    split
    · next hp => exact hp ▸ NodeList.walked_head (hp ▸ hl)
    · exact NodeList.walked_none
  | @passed n p k c hc hm =>
    refine ⟨.refl hl, ?_⟩
    simp only [reading] at hw ⊢
    split
    · next hp =>
      subst hp
      rw [if_pos rfl] at hw
      exact hw.next hc
    · exact NodeList.walked_none
  | found hc hm => exact ⟨.refl hl, hw⟩
  | @erase n p k oldNext b l hrun =>
    simp only [reading] at hw ⊢
    by_cases hp : p = target
    · subst hp
      rw [if_pos rfl] at hw ⊢
      rw [Function.update_self]
      exact NodeList.unlink_shrinks hl hw hrun
    · rw [if_neg hp, Function.update_of_ne (Ne.symm hp)]
      exact ⟨.refl hl, NodeList.walked_none⟩
  | _ => exact ⟨.refl hl, NodeList.walked_none⟩

/-! ### A list that the other thread leaves alone -/

/-- Does the list of a peer name the object? -/
def Left (d : Cleanup α β) (l : NodeList β) : Prop := ∃ x ∈ l.toList, d.mine x.2 = true

/-- As long as the list of the peer names the object, the destructor is at the peer or
will come to it. -/
def Covers (d : Cleanup α β) (own : NodeList α) (target : Nat) (l : NodeList β) : Sweep → Prop
  | .lock n p => Left d l → p = target ∨ (Place.past n).Meets own (d.wants target)
  | .first n p => Left d l → p = target ∨ (Place.past n).Meets own (d.wants target)
  | .scan n p iter =>
    (Left d l → p = target ∨ (Place.past n).Meets own (d.wants target)) ∧
    (p = target → ∃ pre rest, NodeList.Rep l (pre ++ rest) ∧ iter = rest.head?.map Prod.fst ∧
      ∀ y ∈ pre, d.mine y.2 = false)
  | .erase n p k =>
    (Left d l → p = target ∨ (Place.past n).Meets own (d.wants target)) ∧
    (p = target → ∃ pre x rest, NodeList.Rep l (pre ++ x :: rest) ∧ k = x.1 ∧
      ∀ y ∈ pre, d.mine y.2 = false)
  | w => Left d l → w.place.Meets own (d.wants target)

theorem Does.covers (h : Does d own ps w ps' w') (hown : own.Sound)
    (hl : (ps.list target).Sound) (hc : w.Covers d own target (ps.list target)) :
    w'.Covers d own target (ps'.list target) := by
  cases h with
  | begin =>
    intro hleft
    have hmem : ∃ x ∈ own.toList, d.wants target x.2 = true := hc hleft
    exact (NodeList.ahead_head_iff hown).mpr hmem
  | last =>
    intro hleft
    have ha : Ahead own.node none (d.wants target) := hc hleft
    exact absurd ha not_ahead_none
  | @item n c hn =>
    intro hleft
    have ha : Ahead own.node (some n) (d.wants target) := hc hleft
    rcases (ahead_iff hn).mp ha with hp | ha
    · exact Or.inl (beq_iff_eq.mp hp)
    · exact Or.inr ⟨_, hn, ha⟩
  | lock => exact hc
  | first =>
    refine ⟨hc, fun hp => ?_⟩
    subst hp
    obtain ⟨live, hrep⟩ := hl
    exact ⟨[], live, hrep, hrep.head_eq, by simp⟩
  | scanned =>
    rintro ⟨x, hx, hm⟩
    rcases hc.1 ⟨x, hx, hm⟩ with hp | ha
    · -- the scan is over, and has met no entry
      obtain ⟨pre, rest, hrep, hiter, hpre⟩ := hc.2 hp
      have hrest : rest = [] := by
        cases rest with
        | nil => rfl
        | cons y ys => cases hiter
      subst hrest
      rw [hrep.toList_eq, List.append_nil] at hx
      rw [hpre x hx] at hm
      cases hm
    · exact ha
  | found hk hm =>
    refine ⟨hc.1, fun hp => ?_⟩
    obtain ⟨pre, rest, hrep, hiter, hpre⟩ := hc.2 hp
    cases rest with
    | nil => cases hiter
    | cons y ys => exact ⟨pre, y, ys, hrep, Option.some.inj hiter, hpre⟩
  | @passed n p k c hk hm =>
    refine ⟨hc.1, fun hp => ?_⟩
    obtain ⟨pre, rest, hrep, hiter, hpre⟩ := hc.2 hp
    subst hp
    cases rest with
    | nil => cases hiter
    | cons y ys =>
      obtain rfl := Option.some.inj hiter
      have hcell := hrep.cell rfl
      rw [hk, Option.some.injEq] at hcell
      subst hcell
      refine ⟨pre ++ [y], ys, by simpa using hrep, rfl, fun z hz => ?_⟩
      rcases List.mem_append.mp hz with hz | hz
      · exact hpre z hz
      · rw [List.mem_singleton.mp hz]
        exact hm
  | @erase n p k oldNext b l hrun =>
    by_cases hp : p = target
    · subst hp
      obtain ⟨pre, x, rest, hrep, rfl, hpre⟩ := hc.2 rfl
      obtain ⟨l1, c, _, _, _, hnext, _, hrun1, hrep1, _⟩ := hrep.unlink
      rw [hrun1] at hrun
      cases hrun
      simp only [Function.update_self]
      exact ⟨fun _ => Or.inl rfl, fun _ => ⟨pre, rest, hrep1, hnext, hpre⟩⟩
    · simp only [Function.update_of_ne (Ne.symm hp)]
      exact ⟨hc.1, fun h => absurd h hp⟩
  | unlock => exact hc
  | next hn =>
    intro hleft
    obtain ⟨c, hc', ha⟩ := hc hleft
    rw [hn, Option.some.injEq] at hc'
    subst hc'
    exact ha
  | finish => exact hc

/-! ### A peer that is gone -/

/-- The destructor has nothing more to do with the peer. -/
def Free (d : Cleanup α β) (own : NodeList α) (target : Nat) (w : Sweep) : Prop :=
  w.hand ≠ some target ∧ ¬ w.place.Meets own (d.wants target)

theorem Does.free (h : Does d own ps w ps' w') (hown : own.Sound) (hf : w.Free d own target) :
    w'.Free d own target := by
  obtain ⟨hhand, hmeets⟩ := hf
  cases h with
  | begin =>
    refine ⟨hhand, fun ha => hmeets ?_⟩
    have ha : Ahead own.node own.head (d.wants target) := ha
    exact (NodeList.ahead_head_iff hown).mp ha
  | last => exact ⟨hhand, id⟩
  | @item n c hn =>
    have hnot : ¬ Ahead own.node (some n) (d.wants target) := hmeets
    rw [ahead_iff hn, not_or] at hnot
    refine ⟨fun hp => hnot.1 (beq_iff_eq.mpr (Option.some.inj hp)), ?_⟩
    rintro ⟨c, hc, ha⟩
    rw [hn, Option.some.injEq] at hc
    exact hnot.2 (hc ▸ ha)
  | unlock => exact ⟨(fun h => nomatch h), hmeets⟩
  | next hn => exact ⟨hhand, fun ha => hmeets ⟨_, hn, ha⟩⟩
  | _ => exact ⟨hhand, hmeets⟩

end Sweep

/-! ## One step of the loop of `activate` -/

theorem Emit.step_free {signal : Bento} {l : SenderNodes} {b : Bool} {g g' : Emit} {r : ReceiverId}
    (h : g.step signal l b = .ok g') (hl : l.Sound)
    (hf : g.hand ≠ some r ∧ ¬ g.place.Meets l (SenderWork.wants r (.emit signal g))) :
    g'.hand ≠ some r ∧ ¬ g'.place.Meets l (SenderWork.wants r (.emit signal g')) := by
  obtain ⟨hhand, hmeets⟩ := hf
  cases g with
  | begin =>
    cases h
    refine ⟨hhand, fun ha => hmeets ?_⟩
    exact (NodeList.ahead_head_iff hl).mp ha
  | visit connection =>
    cases connection with
    | none =>
      cases h
      exact ⟨hhand, id⟩
    | some n =>
      simp only [step] at h
      split at h
      · next c hc =>
        have hn := Sweep.deref_eq hc
        have hnot : ¬ Ahead l.node (some n) (SenderWork.wants r (.emit signal .begin)) := hmeets
        rw [ahead_iff hn, not_or] at hnot
        have hpast : ¬ (Place.past n).Meets l (SenderWork.wants r (.emit signal .begin)) := by
          rintro ⟨c', hc', ha⟩
          rw [hn, Option.some.injEq] at hc'
          exact hnot.2 (hc' ▸ ha)
        by_cases hs : c.data.signalMethod.eq signal = true
        · rw [if_pos hs] at h
          cases h
          refine ⟨fun hr => hnot.1 ?_, hpast⟩
          simp only [SenderWork.wants, hs, Bool.true_and, beq_iff_eq]
          exact Option.some.inj hr
        · rw [if_neg hs] at h
          cases h
          exact ⟨hhand, hpast⟩
      · cases h
  | compareThreads n r' =>
    simp only [step] at h
    split at h
    · cases h
      exact ⟨hhand, hmeets⟩
    · cases h
  | call n r' k =>
    cases h
    exact ⟨(fun h => nomatch h), hmeets⟩
  | next n =>
    simp only [step] at h
    split at h
    · next c hc =>
      cases h
      exact ⟨hhand, fun ha => hmeets ⟨c, Sweep.deref_eq hc, ha⟩⟩
    · cases h
  | done => cases h

theorem Emit.step_place {signal : Bento} {l : SenderNodes} {b : Bool} {g g' : Emit}
    (h : g.step signal l b = .ok g') : g'.place ≠ .before := by
  cases g with
  | begin =>
    cases h
    exact fun h => nomatch h
  | visit connection =>
    cases connection with
    | none =>
      cases h
      exact fun h => nomatch h
    | some n =>
      simp only [step] at h
      split at h
      · cases h
        split <;> exact fun h => nomatch h
      · cases h
  | compareThreads n r =>
    simp only [step] at h
    split at h <;> cases h
    exact fun h => nomatch h
  | call n r k =>
    cases h
    exact fun h => nomatch h
  | next n =>
    simp only [step] at h
    split at h <;> cases h
    exact fun h => nomatch h
  | done => cases h

/-! ## One step of `internal_disconnect` -/

/-- What the steps of a call do that disconnects all connections: from one stage and
the lists to the lists and the next stage, which is `none` at the end. -/
inductive Disconnects (l : SenderNodes) (lr : ReceiverId → ReceiverNodes) :
    Stage → SenderNodes → (ReceiverId → ReceiverNodes) → Option Stage → Prop
  | lock : Disconnects l lr .lock l lr (some (.sender .begin))
  | begin : Disconnects l lr (.sender .begin) l lr (some (.sender (.visit l.head false)))
  | last {b : Bool} : Disconnects l lr (.sender (.visit none b)) l lr (some (.unlock b))
  | item {n : Nat} {c : Node ConnectStruct} {b : Bool} : l.node n = some c →
    Disconnects l lr (.sender (.visit (some n) b)) l lr
      (some (.lockReceiver c.data.receiver (some n)))
  | lockReceiver {r : ReceiverId} {n : Nat} :
    Disconnects l lr (.lockReceiver r (some n)) l lr (some (.receiver r (.begin n)))
  | receiver {r : ReceiverId} {n : Nat} :
    Disconnects l lr (.receiver r (.begin n)) l lr (some (.receiver r (.find n (lr r).head)))
  | missing {r : ReceiverId} {n : Nat} :
    Disconnects l lr (.receiver r (.find n none)) l lr (some (.receiver r (.erase n none)))
  | found {r : ReceiverId} {n m : Nat} :
    Disconnects l lr (.receiver r (.find n (some m))) l lr (some (.receiver r (.erase n (some m))))
  | passed {r : ReceiverId} {n m : Nat} {c : Node SenderId} : (lr r).node m = some c →
    Disconnects l lr (.receiver r (.find n (some m))) l lr (some (.receiver r (.find n c.next)))
  | eraseSender {r : ReceiverId} {n m : Nat} {oldNext : Option Nat} {b : Bool}
    {l' : ReceiverNodes} : (lr r).unlink m = .ok (oldNext, b, l') →
    Disconnects l lr (.receiver r (.erase n (some m))) l (Function.update lr r l')
      (some (.sender (.erase n r)))
  | erase {r : ReceiverId} {n : Nat} {oldNext : Option Nat} {b : Bool} {l' : SenderNodes} :
    l.unlink n = .ok (oldNext, b, l') →
    Disconnects l lr (.sender (.erase n r)) l' lr (some (.unlockReceiver r (some n)))
  | unlockReceiver {r : ReceiverId} {n : Nat} :
    Disconnects l lr (.unlockReceiver r (some n)) l lr (some (.sender (.next n)))
  | next {n : Nat} {c : Node ConnectStruct} : l.node n = some c →
    Disconnects l lr (.sender (.next n)) l lr (some (.sender (.visit c.next true)))
  | unlock {b : Bool} : Disconnects l lr (.unlock b) l lr none

/-- Is it a stage of `internal_disconnect`? -/
def Stage.disconnects : Stage → Bool
  | .sender (.scan _) => false
  | .sender .pushBack => false
  | .lockReceiver _ none => false
  | .receiver _ .pushBack => false
  | .unlockReceiver _ none => false
  | _ => true

theorem Disconnects.disconnects {l l' : SenderNodes} {lr lr' : ReceiverId → ReceiverNodes}
    {g : Stage} {g' : Option Stage} (h : Disconnects l lr g l' lr' g') :
    ∀ x ∈ g', x.disconnects = true := by
  cases h <;> rintro x ⟨⟩ <;> rfl

theorem disconnects_sender {s : SenderId} {l l' : SenderNodes} {lr : ReceiverId → ReceiverNodes}
    {q : SenderJob} {g : Stage} (h : senderStep (disconnectAll s) l q = .ok (l', g))
    (hq : (Stage.sender q).disconnects = true) :
    Disconnects l lr (.sender q) l' lr (some g) := by
  cases q with
  | begin =>
    cases h
    exact .begin
  | scan iter => cases hq
  | pushBack => cases hq
  | visit iter b =>
    cases iter with
    | none =>
      cases h
      exact .last
    | some n =>
      obtain ⟨c, hd, h⟩ := bind_ok h
      cases h
      exact .item (Sweep.deref_eq hd)
  | erase n r =>
    obtain ⟨⟨oldNext, b, l1⟩, hd, h⟩ := bind_ok h
    cases h
    exact .erase hd
  | next n =>
    obtain ⟨c, hd, h⟩ := bind_ok h
    cases h
    exact .next (Sweep.deref_eq hd)

theorem disconnects_receiver {s : SenderId} {l : SenderNodes} {lr : ReceiverId → ReceiverNodes}
    {r : ReceiverId} {l' : ReceiverNodes} {q : ReceiverJob} {g : Stage}
    (h : receiverStep s r (lr r) q = .ok (l', g)) (hq : (Stage.receiver r q).disconnects = true) :
    Disconnects l lr (.receiver r q) l (Function.update lr r l') (some g) := by
  have hself : Function.update lr r (lr r) = lr := Function.update_eq_self r lr
  cases q with
  | pushBack => cases hq
  | begin n =>
    cases h
    rw [hself]
    exact .receiver
  | find n node =>
    cases node with
    | none =>
      cases h
      rw [hself]
      exact .missing
    | some m =>
      obtain ⟨c, hd, h⟩ := bind_ok h
      split at h
      · cases h
        rw [hself]
        exact .found
      · cases h
        rw [hself]
        exact .passed (Sweep.deref_eq hd)
  | erase n found =>
    cases found with
    | none => cases h
    | some m =>
      obtain ⟨⟨oldNext, b, l1⟩, hd, h⟩ := bind_ok h
      cases h
      exact .eraseSender hd

theorem goto_thread (τ : Threads) (t : ThreadId) (c : LibCall) (g : Stage) :
    (τ.goto t c g).thread t = some (c, g) := Function.update_self _ _ _

theorem finish_thread (τ : Threads) (t : ThreadId) (c : LibCall) (b : Option Bool) :
    (τ.finish t c b).thread t = none := Function.update_self _ _ _

/-- The steps of the thread that disconnects. -/
theorem disconnects_of_goStep {τ τ' : Threads} {s : SenderId} {g : Stage}
    (h : τ.goStep firstThread (disconnectAll s) g = .ok τ') (hg : g.disconnects = true) :
    ∃ g', Disconnects (τ.connectList s) τ.possibleSenders g (τ'.connectList s) τ'.possibleSenders g' ∧
      τ'.thread firstThread = g'.map fun g => (disconnectAll s, g) := by
  cases g with
  | lock =>
    simp only [Threads.goStep] at h
    split at h
    · cases h
      exact ⟨_, .lock, goto_thread _ _ _ _⟩
    · cases h
  | sender q =>
    simp only [Threads.goStep] at h
    split at h
    · next l g hrun =>
      cases h
      refine ⟨some g, ?_, goto_thread _ _ _ _⟩
      have hl : (Function.update τ.connectList s l) s = l := Function.update_self _ _ _
      simp only [Threads.goto, Threads.setConnectList, LibCall.sender, hl]
      exact disconnects_sender hrun hg
    · cases h
  | lockReceiver r iter =>
    cases iter with
    | none => cases hg
    | some n =>
      simp only [Threads.goStep] at h
      split at h
      · cases h
        exact ⟨_, .lockReceiver, goto_thread _ _ _ _⟩
      · cases h
  | receiver r q =>
    simp only [Threads.goStep] at h
    split at h
    · next l g hrun =>
      cases h
      exact ⟨some g, disconnects_receiver hrun hg, goto_thread _ _ _ _⟩
    · cases h
  | unlockReceiver r iter =>
    cases iter with
    | none => cases hg
    | some n =>
      cases h
      exact ⟨_, .unlockReceiver, goto_thread _ _ _ _⟩
  | unlock b =>
    cases h
    exact ⟨none, .unlock, finish_thread _ _ _ _⟩

section

variable {l l' : SenderNodes} {lr lr' : ReceiverId → ReceiverNodes} {g : Stage}
  {g' : Option Stage} {r : ReceiverId}

/-- The iterator that stands in the list of the signal. -/
def Place.ptr : Place → Option Nat
  | .on iter => iter
  | .past n => some n
  | _ => none

/-- The iterator that stands in the list of the slot. -/
def Stage.reading (r : ReceiverId) : Stage → Option Nat
  | .receiver r' (.find _ node) => if r' = r then node else none
  | .receiver r' (.erase _ found) => if r' = r then found else none
  | _ => none

/-- `internal_disconnect` erases from the two lists, and changes them in no other way. -/
theorem Disconnects.shrinks (h : Disconnects l lr g l' lr' g') (hl : l.Sound) (hlr : (lr r).Sound)
    (hw : l.Walked g.place.ptr) (hwr : (lr r).Walked (g.reading r)) :
    l.Shrinks l' ∧ (lr r).Shrinks (lr' r) ∧
      ∀ x ∈ g', l'.Walked x.place.ptr ∧ (lr' r).Walked (x.reading r) := by
  have hs := NodeList.Shrinks.refl hl
  have hsr := NodeList.Shrinks.refl hlr
  have hnone : (lr r).Walked none := NodeList.walked_none
  cases h with
  | lock => exact ⟨hs, hsr, by rintro x ⟨⟩; exact ⟨NodeList.walked_none, hnone⟩⟩
  | begin => exact ⟨hs, hsr, by rintro x ⟨⟩; exact ⟨NodeList.walked_head hl, hnone⟩⟩
  | last => exact ⟨hs, hsr, by rintro x ⟨⟩; exact ⟨NodeList.walked_none, hnone⟩⟩
  | item hn => exact ⟨hs, hsr, by rintro x ⟨⟩; exact ⟨hw, hnone⟩⟩
  | lockReceiver => exact ⟨hs, hsr, by rintro x ⟨⟩; exact ⟨hw, hnone⟩⟩
  | @receiver r' n =>
    refine ⟨hs, hsr, ?_⟩
    rintro x ⟨⟩
    refine ⟨hw, ?_⟩
    simp only [Stage.reading]
    split
    · next hr => exact hr ▸ NodeList.walked_head (hr ▸ hlr)
    · exact hnone
  | missing => exact ⟨hs, hsr, by rintro x ⟨⟩; exact ⟨hw, hwr⟩⟩
  | found => exact ⟨hs, hsr, by rintro x ⟨⟩; exact ⟨hw, hwr⟩⟩
  | @passed r' n m c hm =>
    refine ⟨hs, hsr, ?_⟩
    rintro x ⟨⟩
    refine ⟨hw, ?_⟩
    simp only [Stage.reading] at hwr ⊢
    split
    · next hr =>
      subst hr
      rw [if_pos rfl] at hwr
      exact hwr.next hm
    · exact hnone
  | @eraseSender r' n m oldNext b l1 hrun =>
    by_cases hr : r' = r
    · subst hr
      simp only [Stage.reading, if_true] at hwr
      rw [Function.update_self]
      exact ⟨hs, (NodeList.unlink_shrinks hlr hwr hrun).1,
        by rintro x ⟨⟩; exact ⟨hw, NodeList.walked_none⟩⟩
    · rw [Function.update_of_ne (Ne.symm hr)]
      exact ⟨hs, hsr, by rintro x ⟨⟩; exact ⟨hw, hnone⟩⟩
  | erase hrun =>
    have hs' := (NodeList.unlink_shrinks hl hw hrun).1
    exact ⟨hs', hsr, by rintro x ⟨⟩; exact ⟨hw.shrinks hs', hnone⟩⟩
  | unlockReceiver => exact ⟨hs, hsr, by rintro x ⟨⟩; exact ⟨hw, hnone⟩⟩
  | next hn => exact ⟨hs, hsr, by rintro x ⟨⟩; exact ⟨hw.next hn, hnone⟩⟩
  | unlock => exact ⟨hs, hsr, fun x hx => nomatch hx⟩

theorem Disconnects.before (h : Disconnects l lr g l' lr' g') {x : Stage} (hx : x ∈ g')
    (hb : x.place = .before) : g.place = .before ∧ l' = l ∧ lr' = lr := by
  cases h <;> cases hx <;> first | exact ⟨rfl, rfl, rfl⟩ | cases hb

/-- It does not come back to a slot that it is done with. -/
theorem Disconnects.free (h : Disconnects l lr g l' lr' g') (hl : l.Sound)
    (hw : l.Walked g.place.ptr)
    (hf : g.holds ≠ some r ∧ ¬ g.place.Meets l (SenderWork.wants r .disconnect)) :
    ∀ x ∈ g', x.holds ≠ some r ∧ ¬ x.place.Meets l' (SenderWork.wants r .disconnect) := by
  obtain ⟨hhand, hmeets⟩ := hf
  cases h with
  | begin =>
    rintro x ⟨⟩
    exact ⟨hhand, fun ha => hmeets ((NodeList.ahead_head_iff hl).mp ha)⟩
  | last =>
    rintro x ⟨⟩
    exact ⟨hhand, id⟩
  | @item n c b hn =>
    rintro x ⟨⟩
    have hnot : ¬ Ahead l.node (some n) (SenderWork.wants r .disconnect) := hmeets
    rw [ahead_iff hn, not_or] at hnot
    refine ⟨fun hr => hnot.1 (beq_iff_eq.mpr (Option.some.inj hr)), ?_⟩
    rintro ⟨c', hc', ha⟩
    rw [hn, Option.some.injEq] at hc'
    exact hnot.2 (hc' ▸ ha)
  | @erase r' n oldNext b l1 hrun =>
    rintro x ⟨⟩
    refine ⟨hhand, ?_⟩
    have hn := (NodeList.unlink_shrinks hl hw hrun).1.narrows
    rintro ⟨c', hc', ha⟩
    obtain ⟨c, hc, _⟩ := hn.cell hc'
    exact hmeets ⟨c, hc, hn.ahead_next hc hc' ha⟩
  | next hn =>
    rintro x ⟨⟩
    exact ⟨hhand, fun ha => hmeets ⟨_, hn, ha⟩⟩
  | unlockReceiver =>
    rintro x ⟨⟩
    exact ⟨(fun h => nomatch h), hmeets⟩
  | unlock => exact fun x hx => nomatch hx
  | _ =>
    rintro x ⟨⟩
    exact ⟨hhand, hmeets⟩

end

/-! ## What a fault can be -/

theorem deref_error {α : Type} {l : NodeList α} {n : Nat} {u : Fault} (h : l.deref n = .error u) :
    u = .freed := by
  unfold NodeList.deref at h
  split at h <;> cases h
  rfl

theorem write_error {α : Type} {l : NodeList α} {n : Nat} {f : Node α → Node α} {u : Fault}
    (h : l.write n f = .error u) : u = .freed := by
  unfold NodeList.write at h
  split at h <;> cases h
  rfl

theorem bind_error {β γ : Type} {x : Except Fault β} {f : β → Except Fault γ} {u : Fault}
    (h : (x >>= f) = .error u) : x = .error u ∨ ∃ a, f a = .error u := by
  cases x with
  | ok a => exact Or.inr ⟨a, h⟩
  | error v =>
    cases h
    exact Or.inl rfl

theorem unlink_error {α : Type} {l : NodeList α} {n : Nat} {u : Fault}
    (h : l.unlink n = .error u) : u = .freed := by
  unfold NodeList.unlink at h
  rcases bind_error h with h | ⟨cur, h⟩
  · exact deref_error h
  · split at h
    · cases h
    · rcases bind_error h with h | ⟨l1, h⟩
      · exact write_error h
      · -- the two neighbours, when they are there
        dsimp only at h
        split at h
        · rcases bind_error h with h | ⟨l2, h⟩
          · exact write_error h
          · split at h
            · rcases bind_error h with h | ⟨l3, h⟩
              · exact write_error h
              · cases h
            · cases h
        · rcases bind_error h with h | ⟨l2, h⟩
          · cases h
          · split at h
            · rcases bind_error h with h | ⟨l3, h⟩
              · exact write_error h
              · cases h
            · cases h

/-- No access of a destructor to a list is an access to an object that is gone. -/
theorem Sweep.step_error {α β : Type} {d : Cleanup α β} {own : NodeList α} {ps : Peers β}
    {w : Sweep} : w.step d own ps ≠ .error (.fault .destroyed) := by
  intro h
  cases w with
  | visit item =>
    cases item with
    | none => cases h
    | some n =>
      simp only [step] at h
      split at h
      · cases h
      · next hd =>
        cases h
        cases deref_error hd
  | lock n p =>
    simp only [step] at h
    split at h <;> cases h
  | scan n p iter =>
    cases iter with
    | none => cases h
    | some k =>
      simp only [step] at h
      split at h
      · cases h
      · next hd =>
        cases h
        cases deref_error hd
  | erase n p k =>
    simp only [step] at h
    split at h
    · cases h
    · next hd =>
      cases h
      cases unlink_error hd
  | next n =>
    simp only [step] at h
    split at h
    · cases h
    · next hd =>
      cases h
      cases deref_error hd
  | _ => cases h

theorem Emit.step_error {signal : Bento} {l : SenderNodes} {b : Bool} {g : Emit} :
    g.step signal l b ≠ .error (.fault .destroyed) := by
  intro h
  cases g with
  | visit connection =>
    cases connection with
    | none => cases h
    | some n =>
      simp only [step] at h
      split at h
      · cases h
      · next hd =>
        cases h
        cases deref_error hd
  | compareThreads n r =>
    simp only [step] at h
    split at h
    · cases h
    · next hd =>
      cases h
      cases deref_error hd
  | next n =>
    simp only [step] at h
    split at h
    · cases h
    · next hd =>
      cases h
      cases deref_error hd
  | _ => cases h

theorem senderStep_error {s : SenderId} {l : SenderNodes} {q : SenderJob} :
    senderStep (disconnectAll s) l q ≠ .error .destroyed := by
  intro h
  cases q with
  | begin => cases h
  | scan iter =>
    cases iter with
    | none => cases h
    | some n =>
      rcases bind_error h with h | ⟨c, h⟩
      · cases deref_error h
      · cases h
  | pushBack => cases h
  | visit iter b =>
    cases iter with
    | none => cases h
    | some n =>
      rcases bind_error h with h | ⟨c, h⟩
      · cases deref_error h
      · cases h
  | erase n r =>
    rcases bind_error h with h | ⟨x, h⟩
    · cases unlink_error h
    · cases h
  | next n =>
    rcases bind_error h with h | ⟨c, h⟩
    · cases deref_error h
    · cases h

theorem receiverStep_error {s : SenderId} {r : ReceiverId} {l : ReceiverNodes} {q : ReceiverJob}
    (hq : (Stage.receiver r q).disconnects = true) :
    receiverStep s r l q ≠ .error .destroyed := by
  intro h
  cases q with
  | pushBack => cases hq
  | begin n => cases h
  | find n node =>
    cases node with
    | none => cases h
    | some m =>
      rcases bind_error h with h | ⟨c, h⟩
      · cases deref_error h
      · split at h <;> cases h
  | erase n found =>
    cases found with
    | none => cases h
    | some m =>
      rcases bind_error h with h | ⟨x, h⟩
      · cases unlink_error h
      · cases h

theorem goStep_error {τ : Threads} {s : SenderId} {g : Stage} (hg : g.disconnects = true) :
    τ.goStep firstThread (disconnectAll s) g ≠ .error (.fault .destroyed) := by
  intro h
  cases g with
  | lock =>
    simp only [Threads.goStep] at h
    split at h <;> cases h
  | sender q =>
    simp only [Threads.goStep] at h
    split at h
    · cases h
    · next hd =>
      cases h
      exact senderStep_error hd
  | lockReceiver r iter =>
    simp only [Threads.goStep] at h
    split at h <;> cases h
  | receiver r q =>
    simp only [Threads.goStep] at h
    split at h
    · cases h
    · next hd =>
      cases h
      exact receiverStep_error hg hd
  | unlockReceiver r iter => cases h
  | unlock b => cases h

end CsSignal
