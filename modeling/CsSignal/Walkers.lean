-- Iterators in a list from which others erase. An erase shows no iterator a node that
-- it would not have met before.
import CsSignal.Locked
import CsSignal.Lib.Paths

namespace CsSignal

open LinkedCells

namespace NodeList

variable {α : Type} {l l' : NodeList α} {live : List (Nat × α)} {p : Option Nat} {n : Nat}
  {want : α → Bool}

theorem ahead_head_iff (hl : l.Sound) :
    Ahead l.node l.head want ↔ ∃ x ∈ l.toList, want x.2 = true := by
  obtain ⟨live, h⟩ := hl
  rw [ahead_seg_iff h.seg, h.toList_eq]

/-! ## What an erase leaves -/

/-- The list after some of its nodes were erased. -/
structure Shrinks (l l' : NodeList α) : Prop where
  narrows : Narrows l.node l'.node
  sound : l'.Sound
  sub : ∀ x ∈ l'.toList, x ∈ l.toList
  kept : ∀ n ∈ ids l.toList, ∀ c, l'.node n = some c → c.deleted = false → n ∈ ids l'.toList

theorem Shrinks.refl (hl : l.Sound) : l.Shrinks l :=
  ⟨.refl _, hl, fun _ hx => hx, fun _ hn _ _ _ => hn⟩

theorem unlinked_narrows {pre post : List (Nat × α)} {x : Nat × α} {c : Node α}
    (h : Rep l (pre ++ x :: post)) (hc : l.node x.1 = some c) :
    Narrows l.node (unlinked l.node x.1 c) := by
  have hcell := h.cell rfl
  rw [hc, Option.some.injEq] at hcell
  set g := Function.update l.node x.1 (some { c with deleted := true }) with hg
  constructor
  · intro m c0 hm
    obtain ⟨c1, hc1, hdata⟩ : ∃ c1, g m = some c1 ∧ c1.data = c0.data := by
      by_cases hmx : m = x.1
      · subst hmx
        rw [hc, Option.some.injEq] at hm
        exact ⟨{ c with deleted := true }, Function.update_self _ _ _, by rw [hm]⟩
      · exact ⟨c0, by rw [hg, Function.update_of_ne hmx, hm], rfl⟩
    obtain ⟨c2, hc2, hdata2⟩ := bridge_kept c.back c.next hc1
    exact ⟨c2, hc2, hdata2.trans hdata⟩
  · intro m c2 hm
    obtain ⟨c1, hc1, _, hdel, hnext⟩ := bridge_cell (h := g) hm
    obtain ⟨c0, hc0, hdel0, hnext0⟩ : ∃ c0, l.node m = some c0 ∧
        (c1.deleted = false → c0.deleted = false) ∧ c1.next = c0.next := by
      by_cases hmx : m = x.1
      · subst hmx
        rw [hg, Function.update_self, Option.some.injEq] at hc1
        subst hc1
        exact ⟨c, hc, (fun h => nomatch h), rfl⟩
      · rw [hg, Function.update_of_ne hmx] at hc1
        exact ⟨c1, hc1, id, rfl⟩
    refine ⟨c0, hc0, fun h => hdel0 (hdel ▸ h), fun k hk => ?_⟩
    rcases hnext with hnext | ⟨hback, hnext⟩
    · rw [← hnext0, ← hnext, hk]
      exact .here
    · -- the node before the erased one led to it
      have hprev : ∃ pre' y, pre = pre' ++ [y] ∧ y.1 = m := by
        rw [hcell] at hback
        rcases List.eq_nil_or_concat pre with rfl | ⟨pre', y, rfl⟩
        · cases hback
        · exact ⟨pre', y, List.concat_eq_append, by simpa using hback⟩
      obtain ⟨pre', y, rfl, rfl⟩ := hprev
      have hy := h.cell (show _ = pre' ++ y :: (x :: post) by simp)
      rw [hc0, Option.some.injEq] at hy
      rw [hy]
      exact .next hc (by rw [← hnext, hk]; exact .here)

/-! ## Where an iterator can be -/

/-- Every node that an iterator can still meet is there; it stands in the list or was
erased from it. -/
def Walked (l : NodeList α) (p : Option Nat) : Prop :=
  ∀ m, Reaches l.node p m → ∃ c, l.node m = some c ∧ (c.deleted = false → m ∈ ids l.toList)

theorem walked_none : l.Walked none := fun _ hr => absurd hr not_reaches_none

theorem walked_head (hl : l.Sound) : l.Walked l.head := by
  obtain ⟨live, h⟩ := hl
  intro m hr
  have hm := hr.mem_of_seg h.seg
  obtain ⟨c, hc, _⟩ := h.cell_of_mem hm
  exact ⟨c, hc, fun _ => by rwa [h.toList_eq]⟩

theorem Walked.cell (hw : l.Walked (some n)) :
    ∃ c, l.node n = some c ∧ l.Walked c.next ∧ (c.deleted = false → n ∈ ids l.toList) := by
  obtain ⟨c, hc, hlive⟩ := hw n .here
  exact ⟨c, hc, fun m hr => hw m (.next hc hr), hlive⟩

theorem Walked.next {c : Node α} (hw : l.Walked (some n)) (hc : l.node n = some c) :
    l.Walked c.next := fun m hr => hw m (.next hc hr)

theorem Walked.shrinks (hw : l.Walked p) (h : l.Shrinks l') : l'.Walked p := by
  intro m hr
  obtain ⟨c, hc, hlive⟩ := hw m (h.narrows.reaches hr)
  obtain ⟨c', hc', _⟩ := h.narrows.kept hc
  refine ⟨c', hc', fun hdel => ?_⟩
  obtain ⟨c0, hc0, hdel0, _⟩ := h.narrows.cell hc'
  rw [hc, Option.some.injEq] at hc0
  subst hc0
  exact h.kept m (hlive (hdel0 hdel)) c' hc' hdel

/-- An erase of a node that an iterator stands on. -/
theorem unlink_shrinks {next : Option Nat} {b : Bool} (hl : l.Sound) (hw : l.Walked (some n))
    (hrun : l.unlink n = .ok (next, b, l')) : l.Shrinks l' ∧ l'.Walked next := by
  obtain ⟨c, hc, hnext, hlive⟩ := hw.cell
  by_cases hdel : c.deleted = true
  · -- the node was erased before
    simp only [unlink, deref, hc, ok_bind, hdel, if_true] at hrun
    cases hrun
    exact ⟨.refl hl, hnext⟩
  · obtain ⟨live, h⟩ := hl
    rw [Bool.not_eq_true] at hdel
    have hn := hlive hdel
    rw [h.toList_eq] at hn
    obtain ⟨x, hx, rfl⟩ := List.mem_map.mp hn
    obtain ⟨pre, post, rfl⟩ := List.append_of_mem hx
    obtain ⟨l1, c1, hc1, _, _, _, _, hrun1, hrep, _, hnode⟩ := h.unlink
    rw [hc, Option.some.injEq] at hc1
    subst hc1
    rw [hrun1] at hrun
    cases hrun
    have hs : l.Shrinks l' := by
      refine ⟨hnode ▸ unlinked_narrows h hc, ⟨_, hrep⟩, fun y hy => ?_, fun m hm c' hc' hdel' => ?_⟩
      · rw [hrep.toList_eq] at hy
        rw [h.toList_eq]
        rcases List.mem_append.mp hy with hy | hy
        · exact List.mem_append_left _ hy
        · exact List.mem_append_right _ (List.mem_cons_of_mem _ hy)
      · rw [h.toList_eq] at hm
        rw [hrep.toList_eq]
        have hmx : m ≠ x.1 := by
          intro hmx
          rw [hnode] at hc'
          obtain ⟨c0, hc0, _, hd, _⟩ := bridge_cell hc'
          rw [hmx, Function.update_self, Option.some.injEq] at hc0
          rw [hd, ← hc0] at hdel'
          cases hdel'
        simp only [ids, List.map_append, List.map_cons, List.mem_append, List.mem_cons] at hm ⊢
        tauto
    exact ⟨hs, hnext.shrinks hs⟩

end NodeList

end CsSignal
