-- What the nodes of a list represent. A list of a signal or a slot only grows
-- at its end, so the addresses of its nodes rise in list order.
import CsSignal.NodeLinks
import Mathlib.Data.List.Sort
import Mathlib.Data.Finset.Card
import Mathlib.Data.Finset.Range

namespace CsSignal

open LinkedCells

namespace NodeList

variable {α : Type}

/-! ## The representation -/

/-- The nodes `live` stand in the list, in this order. -/
structure Rep (l : NodeList α) (live : List (Nat × α)) : Prop where
  seg : Seg l.node none l.head live l.tail none
  sorted : (ids live).Pairwise (· < ·)
  bound : ∀ n ∈ ids live, n < l.nodeCount
  fresh : ∀ n, l.nodeCount ≤ n → l.node n = none

theorem Rep.nodup {l : NodeList α} {live : List (Nat × α)} (h : Rep l live) :
    (ids live).Nodup := h.sorted.imp fun hab => Nat.ne_of_lt hab

theorem Rep.listed {l : NodeList α} {live : List (Nat × α)} (h : Rep l live) : Listed l live :=
  ⟨h.seg, h.nodup, h.bound, h.fresh⟩

theorem Listed.rep {l : NodeList α} {live : List (Nat × α)} (h : Listed l live)
    (hs : (ids live).Pairwise (· < ·)) : Rep l live := ⟨h.seg, hs, h.bound, h.fresh⟩

theorem Rep.length_le {l : NodeList α} {live : List (Nat × α)} (h : Rep l live) :
    live.length ≤ l.nodeCount := by
  simpa using length_le_of_bound h.nodup h.bound

theorem Rep.toList_eq {l : NodeList α} {live : List (Nat × α)} (h : Rep l live) :
    l.toList = live := walk_seg h.seg h.length_le

theorem rep_empty : Rep ({} : NodeList α) [] :=
  ⟨⟨rfl, rfl⟩, List.Pairwise.nil, by simp, fun _ _ => rfl⟩

theorem Rep.head_eq {l : NodeList α} {live : List (Nat × α)} (h : Rep l live) :
    l.head = live.head?.map Prod.fst := by
  rw [seg_first h.seg]; simp

/-- The cell of a node in the list. -/
theorem Rep.cell {l : NodeList α} {live : List (Nat × α)} (h : Rep l live)
    {pre post : List (Nat × α)} {x : Nat × α} (hl : live = pre ++ x :: post) :
    l.node x.1 = some ⟨post.head?.map Prod.fst, pre.getLast?.map Prod.fst, false, x.2⟩ :=
  h.listed.cell hl

theorem Rep.cell_of_mem {l : NodeList α} {live : List (Nat × α)} (h : Rep l live)
    {n : Nat} (hn : n ∈ ids live) :
    ∃ c, l.node n = some c ∧ c.deleted = false ∧ (n, c.data) ∈ live := h.listed.cell_of_mem hn

/-- The node after a node of the list is the next greater one. -/
theorem Rep.next_of_mem {l : NodeList α} {live : List (Nat × α)} (h : Rep l live)
    {n : Nat} (hn : n ∈ ids live) {c : Node α} (hc : l.node n = some c) :
    (∀ y, c.next = some y → n < y ∧ y ∈ ids live) ∧
      ∀ m ∈ ids live, n < m → ∃ y, c.next = some y ∧ y ≤ m := by
  obtain ⟨x, hx, rfl⟩ := List.mem_map.mp hn
  obtain ⟨pre, post, rfl⟩ := List.append_of_mem hx
  have hcell := h.cell rfl
  rw [hc, Option.some.injEq] at hcell
  subst hcell
  have hs := h.sorted
  simp only [ids, List.map_append, List.map_cons, List.pairwise_append, List.pairwise_cons] at hs
  obtain ⟨_, ⟨hpost, hs⟩, hpre⟩ := hs
  constructor
  · intro y hy
    obtain ⟨z, hz, rfl⟩ := Option.map_eq_some_iff.mp hy
    have hzm := List.mem_of_mem_head? hz
    exact ⟨hpost _ (List.mem_map_of_mem hzm), by simp; exact Or.inr (Or.inr ⟨_, hzm⟩)⟩
  · intro m hm hlt
    simp only [ids, List.map_append, List.map_cons, List.mem_append, List.mem_cons] at hm
    rcases hm with hm | rfl | hm
    · exact absurd hlt (Nat.not_lt.mpr (Nat.le_of_lt (hpre m hm _ (by simp))))
    · exact absurd hlt (Nat.lt_irrefl _)
    · cases post with
      | nil => simp at hm
      | cons y ys =>
        refine ⟨y.1, rfl, ?_⟩
        simp only [List.map_cons, List.mem_cons] at hm
        rcases hm with rfl | hm
        · exact Nat.le_refl _
        · simp only [List.map_cons, List.pairwise_cons] at hs
          exact Nat.le_of_lt (hs.1 m hm)

/-- The head is the least node of the list. -/
theorem Rep.head_le {l : NodeList α} {live : List (Nat × α)} (h : Rep l live) :
    (∀ y, l.head = some y → y ∈ ids live) ∧
      ∀ m ∈ ids live, ∃ y, l.head = some y ∧ y ≤ m := by
  rw [h.head_eq]
  have hs := h.sorted
  cases live with
  | nil => simp
  | cons x xs =>
    refine ⟨by simp, fun m hm => ⟨x.1, rfl, ?_⟩⟩
    simp only [ids, List.map_cons, List.pairwise_cons, List.mem_cons] at hs hm
    rcases hm with rfl | hm
    · exact Nat.le_refl _
    · exact Nat.le_of_lt (hs.1 m hm)

/-- A search in the list meets the first entry that has the property. -/
theorem Rep.find {l : NodeList α} {p : α → Bool} {pre rest : List (Nat × α)} {fuel : Nat}
    (h : Rep l (pre ++ rest)) (hf : rest.length ≤ fuel) :
    l.find p fuel (rest.head?.map Prod.fst) = .ok ((rest.find? fun x => p x.2).map Prod.fst) := by
  induction rest generalizing pre fuel with
  | nil => cases fuel <;> rfl
  | cons x xs ih =>
    cases fuel with
    | zero => simp at hf
    | succ fuel =>
      have hcell := h.cell rfl
      simp only [List.head?_cons, Option.map_some, NodeList.find, deref, hcell, ok_bind]
      by_cases hp : p x.2 = true
      · simp [hp]
      · have h' : Rep l ((pre ++ [x]) ++ xs) := by simpa using h
        simp only [hp, if_false, Bool.false_eq_true, List.find?_cons]
        exact ih h' (by simpa using hf)

/-! ## Appending and unlinking -/

theorem Rep.pushBack {l : NodeList α} {live : List (Nat × α)} (h : Rep l live) (a : α) :
    ∃ l', l.pushBack a = .ok l' ∧ Rep l' (live ++ [(l.nodeCount, a)]) ∧
      l'.nodeCount = l.nodeCount + 1 ∧
      ∀ m, m ∉ ids live → m ≠ l.nodeCount → l'.node m = l.node m := by
  obtain ⟨l', hrun, hl, hcount, hsame⟩ := h.listed.pushBack a
  refine ⟨l', hrun, hl.rep ?_, hcount, hsame⟩
  simp only [ids, List.map_append, List.map_cons, List.map_nil, List.pairwise_append]
  refine ⟨h.sorted, by simp, fun m hm k hk => ?_⟩
  simp only [List.mem_singleton] at hk
  subst hk
  exact h.bound m hm

theorem Rep.unlink {l : NodeList α} {pre post : List (Nat × α)} {x : Nat × α}
    (h : Rep l (pre ++ x :: post)) :
    ∃ l' c, l.node x.1 = some c ∧ c.data = x.2 ∧ c.deleted = false ∧
      c.next = post.head?.map Prod.fst ∧ c.back = pre.getLast?.map Prod.fst ∧
      l.unlink x.1 = .ok (c.next, true, l') ∧ Rep l' (pre ++ post) ∧
      l'.nodeCount = l.nodeCount ∧ l'.node = unlinked l.node x.1 c := by
  obtain ⟨l', c, hc, hdata, hdel, hnx, hbk, hrun, hl, hcount, hnode⟩ := h.listed.unlink
  have hsub : (pre ++ post).Sublist (pre ++ x :: post) :=
    List.Sublist.append (List.Sublist.refl _) (List.sublist_cons_self _ _)
  exact ⟨l', c, hc, hdata, hdel, hnx, hbk, hrun, hl.rep (h.sorted.sublist (hsub.map _)), hcount,
    hnode⟩

end NodeList

end CsSignal
