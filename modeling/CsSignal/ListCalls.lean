-- What the calls on a member list do, one spec for each function. A spec asks
-- for as many successful allocations as the function makes, so it serves the
-- runs where no allocation fails and those where a later one does.
import CsSignal.Objects

namespace CsSignal

open LinkedCells Calls RcuList

/-! ## Allocations -/

theorem World.spend_zero (w : World) : w.spend 0 = w := by
  cases w with
  | mk sender cl receiver ps sc rc bd dl allocs => cases allocs <;> rfl

theorem World.spend_spend (w : World) (m n : Nat) : (w.spend m).spend n = w.spend (m + n) := by
  cases w with
  | mk sender cl receiver ps sc rc bd dl allocs =>
    cases allocs with
    | none => rfl
    | some k => simp [World.spend, Nat.sub_sub]

theorem World.enough_spend {w : World} {m n : Nat} (h : w.enough (m + n)) :
    (w.spend m).enough n := by
  intro k hk
  simp only [World.spend, Option.map_eq_some_iff] at hk
  obtain ⟨k', hk', rfl⟩ := hk
  have := h k' hk'
  omega

theorem World.enough_mono {w : World} {m n : Nat} (h : w.enough n) (hm : m ≤ n) : w.enough m :=
  fun k hk => Nat.le_trans hm (h k hk)

theorem World.enough_none {w : World} (h : w.allocs = none) (n : Nat) : w.enough n := by
  intro k hk
  rw [h] at hk
  cases hk

theorem World.spend_none {w : World} (h : w.allocs = none) (n : Nat) : w.spend n = w := by
  cases w with
  | mk sender cl receiver ps sc rc bd dl allocs =>
    simp only at h
    subst h
    rfl

theorem allocate_run {w : World} (h : w.enough 1) : allocate w = .returned () (w.spend 1) := by
  cases w with
  | mk sender cl receiver ps sc rc bd dl allocs =>
    cases allocs with
    | none => rfl
    | some k =>
      cases k with
      | zero => exact absurd (h 0 rfl) (by omega)
      | succ k => rfl

/-- The world after the allocation that fails. -/
def World.failed (w : World) : World := { w with allocs := none }

theorem allocate_fail {w : World} (h : w.allocs = some 0) :
    allocate w = .thrown .badAlloc w.failed := by
  simp only [allocate, h, World.failed]

namespace ListRef

variable {α β : Type} (ref : ListRef α) {w : World}

theorem enough_set {l : RcuList α} {n : Nat} : (ref.set w l).enough n ↔ w.enough n := by
  simp only [World.enough, ref.allocs_set]

/-! ## The calls -/

theorem call_run {f : RcuList α → Except Fault (β × RcuList α)} {b : β} {l : RcuList α}
    (hlive : ref.live w = true) (h : f (ref.get w) = .ok (b, l)) :
    ref.call f w = .returned b (ref.set w l) := by
  simp [call, hlive, h]

theorem read_run {f : RcuList α → Except Fault β} {b : β} (hlive : ref.live w = true)
    (h : f (ref.get w) = .ok b) : ref.read f w = .returned b w := by
  simp [read, hlive, h]

theorem begin_run (hlive : ref.live w = true) : ref.begin w = .returned (ref.get w).head w :=
  ref.read_run hlive rfl

theorem bound_run (hlive : ref.live w = true) : ref.bound w = .returned (ref.get w).nodeCount w :=
  ref.read_run hlive rfl

theorem deref_run {n : Nat} {c : Node α} (hlive : ref.live w = true)
    (hc : (ref.get w).node n = some c) : ref.deref n w = .returned c w :=
  ref.read_run hlive (by simp [NodeList.deref, hc])

theorem lock_run (hlive : ref.live w = true) (ha : w.enough 1) :
    ref.lock w = .returned (ref.get w).zombieCount
      (ref.set (w.spend 1) (ref.get w).rcuReadLock.2) := by
  unfold lock
  rw [bind_returned (allocate_run ha)]
  apply ref.call_run
  · rw [ref.live_spend, hlive]
  · rw [ref.get_spend]
    rfl

theorem pushBack_run {a : α} {l : RcuList α} (hlive : ref.live w = true) (ha : w.enough 1)
    (h : (ref.get w).pushBack a = .ok l) :
    ref.pushBack a w = .returned () (ref.set (w.spend 1) l) := by
  unfold pushBack
  rw [bind_returned (allocate_run ha)]
  apply ref.call_run
  · rw [ref.live_spend, hlive]
  · rw [ref.get_spend, h, ok_bind]

theorem unlink_run {n : Nat} {nx : Option Nat} {nl : NodeList α} (hlive : ref.live w = true)
    (h : (ref.get w).toNodeList.unlink n = .ok (nx, true, nl)) :
    ref.unlink n w = .returned (nx, true) (ref.set w { ref.get w with toNodeList := nl }) :=
  ref.call_run hlive (by simp only [h, ok_bind])

theorem retire_run {n : Nat} (hlive : ref.live w = true) (ha : w.enough 1) :
    ref.retire n w = .returned () (ref.set (w.spend 1) ((ref.get w).pushZombie false (some n))) := by
  unfold retire
  rw [bind_returned (allocate_run ha)]
  apply ref.call_run
  · rw [ref.live_spend, hlive]
  · rw [ref.get_spend]

theorem erase_run {n : Nat} {nx : Option Nat} {nl : NodeList α} (hlive : ref.live w = true)
    (ha : w.enough 1) (h : (ref.get w).toNodeList.unlink n = .ok (nx, true, nl)) :
    ref.erase (some n) w = .returned nx (ref.set (w.spend 1) ((ref.get w).erased nl n)) := by
  have h1 := ref.unlink_run hlive h
  have h2 := ref.retire_run (w := ref.set w { ref.get w with toNodeList := nl }) (n := n)
    (by rw [ref.live_set, hlive]) (ref.enough_set.mpr ha)
  rw [ref.get_set, ← ref.set_spend, ref.set_set] at h2
  simp only [erase]
  rw [bind_returned h1]
  simp only [if_true]
  rw [bind_returned h2]
  rfl

/-- `erase` when the allocation of the zombie entry fails: the node is out of
the list all the same. -/
theorem erase_fail {n : Nat} {nx : Option Nat} {nl : NodeList α} (hlive : ref.live w = true)
    (ha : w.allocs = some 0) (h : (ref.get w).toNodeList.unlink n = .ok (nx, true, nl)) :
    ref.erase (some n) w =
      .thrown .badAlloc (ref.set w { ref.get w with toNodeList := nl }).failed := by
  have h1 := ref.unlink_run hlive h
  simp only [erase]
  rw [bind_returned h1]
  simp only [if_true]
  exact bind_thrown (bind_thrown (allocate_fail (by rw [ref.allocs_set, ha])))

/-! ## The loops -/

theorem find_run {p : α → Bool} {pre rest : List (Nat × α)} {zs : List Entry} {fuel : Nat}
    (hlive : ref.live w = true) (hr : Rep (ref.get w) (pre ++ rest) zs) (hf : rest.length ≤ fuel) :
    ref.find p fuel (rest.head?.map Prod.fst) w =
      .returned ((rest.find? fun x => p x.2).map Prod.fst) w :=
  ref.read_run hlive (hr.nodes.find hf)

/-- What follows a search from the beginning of the list. -/
theorem search_run {β : Type} {p : α → Bool} {live : List (Nat × α)} {zs : List Entry}
    {k : Option Nat → Op β} (hlive : ref.live w = true) (hr : Rep (ref.get w) live zs) :
    (do let fuel ← ref.bound
        let first ← ref.begin
        let found ← ref.find p fuel first
        k found : Op β) w = k ((live.find? fun x => p x.2).map Prod.fst) w := by
  have hfind := ref.find_run (p := p) hlive (show Rep _ ([] ++ live) _ from hr) hr.nodes.length_le
  rw [← hr.nodes.head_eq] at hfind
  rw [bind_returned (ref.bound_run hlive), bind_returned (ref.begin_run hlive),
    bind_returned hfind]

/-- The erase loop of the destructors, when no allocation fails. -/
theorem eraseAll_run {p : α → Bool} {pre rest : List (Nat × α)} {zs : List Entry} {fuel : Nat}
    (hlive : ref.live w = true) (ha : w.allocs = none) (hr : Rep (ref.get w) (pre ++ rest) zs)
    (hf : rest.length ≤ fuel) :
    ∃ l', ref.eraseAll p fuel (rest.head?.map Prod.fst) w = .returned () (ref.set w l') ∧
      EraseRun (fun x => p x.2) pre rest (ref.get w) l' := by
  induction rest generalizing w pre zs fuel with
  | nil =>
    refine ⟨ref.get w, ?_, .done _ _⟩
    rw [ref.set_get]
    cases fuel <;> rfl
  | cons x xs ih =>
    cases fuel with
    | zero => simp at hf
    | succ fuel =>
      have hcell := hr.nodes.cell rfl
      simp only [List.head?_cons, Option.map_some, eraseAll]
      rw [bind_returned (ref.deref_run hlive hcell)]
      by_cases hp : p x.2 = true
      · obtain ⟨nl, c, _, _, hnx, hrun, hl1, hg, _⟩ := hr.grown_erase
        obtain ⟨ext, hr1, _, _⟩ := hg.2 zs (hr.toList_eq ▸ hr)
        rw [hl1] at hr1
        have hstep := ref.erase_run hlive (World.enough_none ha 1) hrun
        rw [World.spend_none ha] at hstep
        obtain ⟨l', hrec, hrunl⟩ := ih (w := ref.set w ((ref.get w).erased nl x.1))
          (by rw [ref.live_set, hlive]) (by rw [ref.allocs_set, ha]) (by rw [ref.get_set]; exact hr1)
          (by simpa using hf)
        rw [ref.set_set] at hrec
        rw [ref.get_set] at hrunl
        refine ⟨l', ?_, .erase hp hrun hrunl⟩
        simp only [hp, if_true]
        rw [bind_returned hstep, hnx]
        exact hrec
      · have hr' : Rep (ref.get w) ((pre ++ [x]) ++ xs) zs := by simpa using hr
        obtain ⟨l', hrec, hrunl⟩ := ih hlive ha hr' (by simpa using hf)
        refine ⟨l', ?_, .keep (by simpa using hp) hrunl⟩
        simp only [hp, if_false, Bool.false_eq_true]
        exact hrec

/-! ## Handles -/

theorem withHandle_run (body : Op β) {b : β} {w' : World} {l : RcuList α}
    (hlive : ref.live w = true) (ha : w.enough 1)
    (hb : body (ref.set (w.spend 1) (ref.get w).rcuReadLock.2) = .returned b w')
    (hu : (ref.get w').unlock (ref.get w).rcuReadLock.1 = .ok l) :
    ref.withHandle body w = .returned b (ref.set w' l) := by
  unfold withHandle
  rw [bind_returned (ref.lock_run hlive ha)]
  apply inScope_returned hb
  rw [RcuList.rcuReadLock] at hu
  simp only [ListRef.unlock, hu]

theorem withHandle_thrown {body : Op β} {e : Exception} {w' : World} {l : RcuList α}
    (hlive : ref.live w = true) (ha : w.enough 1)
    (hb : body (ref.set (w.spend 1) (ref.get w).rcuReadLock.2) = .thrown e w')
    (hu : (ref.get w').unlock (ref.get w).rcuReadLock.1 = .ok l) :
    ref.withHandle body w = .thrown e (ref.set w' l) := by
  unfold withHandle
  rw [bind_returned (ref.lock_run hlive ha)]
  apply inScope_thrown hb
  rw [RcuList.rcuReadLock] at hu
  simp only [ListRef.unlock, hu]

theorem withHandle_fail {body : Op β} (ha : w.allocs = some 0) :
    ref.withHandle body w = .thrown .badAlloc w.failed := by
  unfold withHandle lock
  exact bind_thrown (bind_thrown (allocate_fail ha))

end ListRef

end CsSignal
