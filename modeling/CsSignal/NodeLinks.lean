-- The pointers of the nodes of a list, whatever their addresses: what `push_back`,
-- `push_front` and the unlink of `erase` make of the run of nodes from head to tail.
import CsSignal.RcuList

namespace CsSignal

open LinkedCells

namespace NodeList

variable {α : Type}

/-- The nodes `live` are the list, in this order, and no address is used again. -/
structure Listed (l : NodeList α) (live : List (Nat × α)) : Prop where
  seg : Seg l.node none l.head live l.tail none
  nodup : (ids live).Nodup
  bound : ∀ n ∈ ids live, n < l.nodeCount
  fresh : ∀ n, l.nodeCount ≤ n → l.node n = none

theorem listed_empty : Listed ({} : NodeList α) [] :=
  ⟨⟨rfl, rfl⟩, List.nodup_nil, by simp, fun _ _ => rfl⟩

theorem Listed.cell {l : NodeList α} {live : List (Nat × α)} (h : Listed l live)
    {pre post : List (Nat × α)} {x : Nat × α} (hl : live = pre ++ x :: post) :
    l.node x.1 = some ⟨post.head?.map Prod.fst, pre.getLast?.map Prod.fst, false, x.2⟩ := by
  subst hl
  simpa using seg_middle h.seg

theorem Listed.cell_of_mem {l : NodeList α} {live : List (Nat × α)} (h : Listed l live)
    {n : Nat} (hn : n ∈ ids live) :
    ∃ c, l.node n = some c ∧ c.deleted = false ∧ (n, c.data) ∈ live := by
  obtain ⟨x, hx, rfl⟩ := List.mem_map.mp hn
  obtain ⟨c, hc, hd, he⟩ := seg_cell h.seg hx
  exact ⟨c, hc, hd, by rw [he]; exact hx⟩

/-! ## Appending and prepending -/

theorem Listed.new {l : NodeList α} {live : List (Nat × α)} (h : Listed l live) :
    l.nodeCount ∉ ids live := fun hm => Nat.lt_irrefl _ (h.bound _ hm)

/-- What a new node asks of a list that has it. -/
theorem Listed.grow {l l' : NodeList α} {live live' : List (Nat × α)} (h : Listed l live)
    (hs : Seg l'.node none l'.head live' l'.tail none)
    (hp : (ids live').Perm (l.nodeCount :: ids live)) (hc : l'.nodeCount = l.nodeCount + 1)
    (hsame : ∀ m, m ∉ ids live → m ≠ l.nodeCount → l'.node m = l.node m) : Listed l' live' where
  seg := hs
  nodup := hp.nodup_iff.mpr (List.nodup_cons.mpr ⟨h.new, h.nodup⟩)
  bound n hn := by
    rw [hc]
    rcases List.mem_cons.mp (hp.mem_iff.mp hn) with rfl | hn
    · exact Nat.lt_succ_self _
    · exact Nat.lt_succ_of_lt (h.bound n hn)
  fresh n hn := by
    rw [hc] at hn
    have hne : n ∉ ids live := fun hm => by
      have := h.bound n hm
      omega
    rw [hsame n hne (by omega), h.fresh n (by omega)]

theorem Listed.pushBack {l : NodeList α} {live : List (Nat × α)} (h : Listed l live) (a : α) :
    ∃ l', l.pushBack a = .ok l' ∧ Listed l' (live ++ [(l.nodeCount, a)]) ∧
      l'.nodeCount = l.nodeCount + 1 ∧
      ∀ m, m ∉ ids live → m ≠ l.nodeCount → l'.node m = l.node m := by
  have hnew := h.new
  have hperm : (ids (live ++ [(l.nodeCount, a)])).Perm (l.nodeCount :: ids live) := by
    simp only [ids, List.map_append, List.map_cons, List.map_nil]
    exact List.perm_append_singleton _ _
  -- the heap with the new cell, which already looks back to the tail
  let h1 : Heap α := Function.update l.node l.nodeCount (some ⟨none, l.tail, false, a⟩)
  have hseg1 : Seg h1 none l.head live l.tail none :=
    seg_congr (fun n hn => Function.update_of_ne (fun he => hnew (by rw [← he]; exact hn)) _ _) h.seg
  have hseg := seg_snoc hseg1 h.nodup hnew (Function.update_self _ _ _)
  cases htl : l.tail with
  | none =>
    rw [htl] at hseg
    simp only [Option.isSome_none, if_false, Bool.false_eq_true] at hseg
    have hrun : l.pushBack a = .ok ⟨some l.nodeCount, some l.nodeCount, h1, l.nodeCount + 1⟩ := by
      simp only [NodeList.pushBack, htl, h1]
    have hsame : ∀ m, m ∉ ids live → m ≠ l.nodeCount → h1 m = l.node m :=
      fun m _ hm => Function.update_of_ne hm _ _
    exact ⟨_, hrun, h.grow hseg hperm rfl hsame, rfl, hsame⟩
  | some t =>
    have ht : t ∈ ids live := by
      have := seg_last h.seg
      rw [htl] at this
      cases hg : live.getLast? with
      | none => simp [hg] at this
      | some z =>
        simp only [hg, Option.map_some, Option.some_or, Option.some.injEq] at this
        exact this ▸ List.mem_map_of_mem (List.mem_of_getLast? hg)
    have hne : t ≠ l.nodeCount := fun he => hnew (he ▸ ht)
    obtain ⟨c, hc, _, _⟩ := h.cell_of_mem ht
    rw [htl] at hseg
    simp only [Option.isSome_some, if_true] at hseg
    have hrun : l.pushBack a =
        .ok ⟨l.head, some l.nodeCount, putNext h1 t (some l.nodeCount), l.nodeCount + 1⟩ := by
      simp only [NodeList.pushBack, htl, setBack, setNext, write, Function.update_self,
        Function.update_of_ne hne, ok_bind, hc, Function.update_idem, putNext, h1, Option.map_some]
    have hsame : ∀ m, m ∉ ids live → m ≠ l.nodeCount →
        putNext h1 t (some l.nodeCount) m = l.node m := by
      intro m hm hmn
      have hmt : m ≠ t := fun he => hm (he ▸ ht)
      exact (putNext_ne hmt).trans (Function.update_of_ne hmn _ _)
    exact ⟨_, hrun, h.grow hseg hperm rfl hsame, rfl, hsame⟩

theorem Listed.pushFront {l : NodeList α} {live : List (Nat × α)} (h : Listed l live) (a : α) :
    ∃ l', l.pushFront a = .ok l' ∧ Listed l' ((l.nodeCount, a) :: live) ∧
      l'.nodeCount = l.nodeCount + 1 ∧
      ∀ m, m ∉ ids live → m ≠ l.nodeCount → l'.node m = l.node m := by
  have hnew := h.new
  -- the heap with the new cell, which already leads to the head
  let h1 : Heap α := Function.update l.node l.nodeCount (some ⟨l.head, none, false, a⟩)
  have hseg1 : Seg h1 none l.head live l.tail none :=
    seg_congr (fun n hn => Function.update_of_ne (fun he => hnew (by rw [← he]; exact hn)) _ _) h.seg
  cases live with
  | nil =>
    obtain ⟨htl, hhd⟩ := h.seg
    have hrun : l.pushFront a = .ok ⟨some l.nodeCount, some l.nodeCount, h1, l.nodeCount + 1⟩ := by
      simp only [NodeList.pushFront, hhd, h1]
    have hsame : ∀ m, m ∉ ids ([] : List (Nat × α)) → m ≠ l.nodeCount → h1 m = l.node m :=
      fun m _ hm => Function.update_of_ne hm _ _
    have hcell : h1 l.nodeCount = some ⟨none, none, false, a⟩ := by
      simp only [h1, hhd, Function.update_self]
    exact ⟨_, hrun, h.grow ⟨rfl, none, hcell, rfl, rfl⟩ (.refl _) rfl hsame, rfl, hsame⟩
  | cons x xs =>
    have hhd : l.head = some x.1 := h.seg.1
    have hx : x.1 ∈ ids (x :: xs) := by simp
    have hne : x.1 ≠ l.nodeCount := fun he => hnew (he ▸ hx)
    obtain ⟨c, hc, _, _⟩ := h.cell_of_mem hx
    rw [hhd] at hseg1
    obtain ⟨_, hseg⟩ := seg_putBack hseg1 h.nodup (some l.nodeCount)
    have hrun : l.pushFront a =
        .ok ⟨some l.nodeCount, l.tail, putBack h1 x.1 (some l.nodeCount), l.nodeCount + 1⟩ := by
      simp only [NodeList.pushFront, hhd, setBack, setNext, write, Function.update_self,
        Function.update_of_ne hne, ok_bind, hc, Function.update_idem, putBack, h1, Option.map_some]
    have hcell : putBack h1 x.1 (some l.nodeCount) l.nodeCount = some ⟨some x.1, none, false, a⟩ := by
      rw [putBack_ne hne.symm]
      simp only [h1, hhd, Function.update_self]
    have hsame : ∀ m, m ∉ ids (x :: xs) → m ≠ l.nodeCount →
        putBack h1 x.1 (some l.nodeCount) m = l.node m := by
      intro m hm hmn
      have hmx : m ≠ x.1 := fun he => hm (he ▸ hx)
      exact (putBack_ne hmx).trans (Function.update_of_ne hmn _ _)
    exact ⟨_, hrun, h.grow ⟨rfl, some x.1, hcell, hseg⟩ (.refl _) rfl hsame, rfl, hsame⟩

/-! ## Unlinking -/

/-- The heap after the node `x` between `bk` and `nx` was unlinked. -/
def unlinked (h : Heap α) (x : Nat) (c : Node α) : Heap α :=
  bridge (Function.update h x (some { c with deleted := true })) c.back c.next

theorem Listed.unlink {l : NodeList α} {pre post : List (Nat × α)} {x : Nat × α}
    (h : Listed l (pre ++ x :: post)) :
    ∃ l' c, l.node x.1 = some c ∧ c.data = x.2 ∧ c.deleted = false ∧
      c.next = post.head?.map Prod.fst ∧ c.back = pre.getLast?.map Prod.fst ∧
      l.unlink x.1 = .ok (c.next, true, l') ∧ Listed l' (pre ++ post) ∧
      l'.nodeCount = l.nodeCount ∧ l'.node = unlinked l.node x.1 c := by
  have hcell := h.cell rfl
  have hnd := h.nodup
  set bk := pre.getLast?.map Prod.fst with hbk
  set nx := post.head?.map Prod.fst with hnx
  have hxid : x.1 ∉ ids pre ∧ x.1 ∉ ids post := by
    simp only [ids, List.map_append, List.map_cons, List.nodup_append, List.nodup_cons] at hnd
    exact ⟨fun hm => hnd.2.2 _ hm x.1 (by simp) rfl, hnd.2.1.1⟩
  have hbkm : ∀ p, bk = some p → p ∈ ids pre := by
    intro p hp
    obtain ⟨z, hz, rfl⟩ := Option.map_eq_some_iff.mp hp
    exact List.mem_map_of_mem (List.mem_of_getLast? hz)
  have hnxm : ∀ n, nx = some n → n ∈ ids post := by
    intro n hn
    obtain ⟨z, hz, rfl⟩ := Option.map_eq_some_iff.mp hn
    exact List.mem_map_of_mem (List.mem_of_mem_head? hz)
  have hb1 : bk ≠ some x.1 := fun he => hxid.1 (hbkm _ he)
  have hn1 : nx ≠ some x.1 := fun he => hxid.2 (hnxm _ he)
  have hseg := seg_bridge h.seg hnd
  simp only [← hbk, ← hnx] at hseg
  have hseg' : Seg (unlinked l.node x.1 ⟨nx, bk, false, x.2⟩) none
      (if bk.isSome then l.head else nx) (pre ++ post) (if nx.isSome then l.tail else bk) none := by
    refine seg_congr ?_ hseg
    intro n hn
    have hne : n ≠ x.1 := by
      rintro rfl
      simp only [ids, List.map_append, List.mem_append] at hn
      exact hn.elim hxid.1 hxid.2
    exact bridge_congr (fun m hm => Function.update_of_ne hm _ _) hb1 hn1 n hne
  have hsub : (pre ++ post).Sublist (pre ++ x :: post) :=
    List.Sublist.append (List.Sublist.refl _) (List.sublist_cons_self _ _)
  have hids : ∀ n ∈ ids (pre ++ post), n ∈ ids (pre ++ x :: post) := fun n hn =>
    (hsub.map Prod.fst).subset hn
  have hfresh : ∀ n, l.nodeCount ≤ n → unlinked l.node x.1 ⟨nx, bk, false, x.2⟩ n = none := by
    intro n hn
    have hlt : ∀ m ∈ ids (pre ++ x :: post), n ≠ m := fun m hm => by
      have := h.bound m hm; omega
    have hbn : bk ≠ some n := fun he => hlt n (by simp [hbkm n he]) rfl
    have hnn : nx ≠ some n := fun he => hlt n (by simp [hnxm n he]) rfl
    rw [unlinked, bridge_ne hbn hnn, Function.update_of_ne (hlt x.1 (by simp)), h.fresh n hn]
  refine ⟨⟨if bk.isSome then l.head else nx, if nx.isSome then l.tail else bk,
    unlinked l.node x.1 ⟨nx, bk, false, x.2⟩, l.nodeCount⟩, _, hcell, rfl, rfl, rfl, rfl, ?_,
    ⟨hseg', (h.nodup.sublist (hsub.map _)), fun n hn => h.bound n (hids n hn), hfresh⟩, rfl, rfl⟩
  -- the stores of the function, one neighbour at a time
  have hcp : ∀ p, bk = some p → ∃ c, l.node p = some c := fun p hp => by
    obtain ⟨c, hc, _⟩ := h.cell_of_mem (n := p) (by simp [hbkm p hp])
    exact ⟨c, hc⟩
  have hcn : ∀ n, nx = some n → ∃ c, l.node n = some c := fun n hn => by
    obtain ⟨c, hc, _⟩ := h.cell_of_mem (n := n) (by simp [hnxm n hn])
    exact ⟨c, hc⟩
  unfold NodeList.unlink
  simp only [deref, hcell, ok_bind, Bool.false_eq_true, if_false, write, unlinked, bridge]
  rcases hbk' : bk with _ | p <;> rcases hnx' : nx with _ | n
  · simp
  · obtain ⟨c, hc⟩ := hcn n hnx'
    have hne : n ≠ x.1 := fun he => hn1 (by rw [hnx', he])
    simp [ok_bind, setBack, write, Function.update_of_ne hne, hc, putBack]
  · obtain ⟨c, hc⟩ := hcp p hbk'
    have hne : p ≠ x.1 := fun he => hb1 (by rw [hbk', he])
    simp [ok_bind, setNext, write, Function.update_of_ne hne, hc, putNext]
  · obtain ⟨c, hc⟩ := hcp p hbk'
    obtain ⟨d, hd⟩ := hcn n hnx'
    have hne : p ≠ x.1 := fun he => hb1 (by rw [hbk', he])
    have hne' : n ≠ x.1 := fun he => hn1 (by rw [hnx', he])
    have hpn : n ≠ p := by
      rintro rfl
      simp only [ids, List.map_append, List.map_cons, List.nodup_append] at hnd
      exact hnd.2.2 n (hbkm n hbk') n (List.mem_cons_of_mem _ (hnxm n hnx')) rfl
    simp [ok_bind, setNext, setBack, write, Function.update_of_ne hne, hc, putNext, putBack,
      Function.update_of_ne hpn, Function.update_of_ne hne', hd]

/-- An unlink changes no pointer of the node itself, and no node that is not
a neighbour. -/
theorem unlinked_self {h : Heap α} {x : Nat} {c : Node α} (hb : c.back ≠ some x)
    (hn : c.next ≠ some x) : unlinked h x c x = some { c with deleted := true } := by
  rw [unlinked, bridge_ne hb hn, Function.update_self]

theorem unlinked_other {h : Heap α} {x m : Nat} {c : Node α} (hm : m ≠ x)
    (hb : c.back ≠ some m) (hn : c.next ≠ some m) : unlinked h x c m = h m := by
  rw [unlinked, bridge_ne hb hn, Function.update_of_ne hm]

/-- An unlink marks the node, and beside it changes nodes of the list only. -/
theorem Listed.unlinked_cells {l : NodeList α} {pre post : List (Nat × α)} {x : Nat × α}
    {c : Node α} (h : Listed l (pre ++ x :: post)) (hc : l.node x.1 = some c) :
    unlinked l.node x.1 c x.1 = some { c with deleted := true } ∧
      ∀ m, m ∉ ids (pre ++ x :: post) → unlinked l.node x.1 c m = l.node m := by
  have hcell := h.cell rfl
  rw [hc, Option.some.injEq] at hcell
  have hxn : x.1 ∉ ids pre ∧ x.1 ∉ ids post := by
    have hnd := h.nodup
    simp only [ids, List.map_append, List.map_cons, List.nodup_append, List.nodup_cons] at hnd
    exact ⟨fun hm => hnd.2.2 _ hm x.1 (by simp) rfl, hnd.2.1.1⟩
  have hback : ∀ m, c.back = some m → m ∈ ids pre := fun m hm => by
    rw [hcell] at hm
    obtain ⟨z, hz, rfl⟩ := Option.map_eq_some_iff.mp hm
    exact List.mem_map_of_mem (List.mem_of_getLast? hz)
  have hnext : ∀ m, c.next = some m → m ∈ ids post := fun m hm => by
    rw [hcell] at hm
    obtain ⟨z, hz, rfl⟩ := Option.map_eq_some_iff.mp hm
    exact List.mem_map_of_mem (List.mem_of_mem_head? hz)
  refine ⟨unlinked_self (fun he => hxn.1 (hback _ he)) fun he => hxn.2 (hnext _ he), fun m hm => ?_⟩
  simp only [ids, List.map_append, List.map_cons, List.mem_append, List.mem_cons, not_or] at hm
  exact unlinked_other hm.2.1 (fun he => hm.1 (hback m he)) fun he => hm.2.2 (hnext m he)

end NodeList

end CsSignal
