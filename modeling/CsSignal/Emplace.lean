-- The calls of a list that connect and disconnect do not need: `emplace` at an iterator,
-- and at both ends. An element goes before the iterator; only at the last of several
-- elements it goes behind.
import CsSignal.Representation

namespace CsSignal

open LinkedCells

variable {α : Type}

namespace NodeList

variable {l : NodeList α} {live pre post : List (Nat × α)} {x : Nat × α}

/-! ## The code -/

/-- `emplace`, with the iterator that it returns. The end iterator is `none`. -/
def emplace (l : NodeList α) (iter : Option Nat) (data : α) :
    Except Fault (Nat × NodeList α) := do
  let newNode := l.nodeCount
  let oldHead := l.head
  let oldTail := l.tail
  let l := { l with
    node := Function.update l.node newNode (some ⟨none, none, false, data⟩)
    nodeCount := newNode + 1 }
  match oldHead with
  | none => .ok (newNode, { l with head := some newNode, tail := some newNode })
  | some h =>
    if oldHead = iter then
      let l ← l.setNext newNode oldHead
      let l ← l.setBack h (some newNode)
      .ok (newNode, { l with head := some newNode })
    else if oldTail = iter then
      match oldTail with
      | none => .error .nullPointer
      | some t =>
        let l ← l.setBack newNode oldTail
        let l ← l.setNext t (some newNode)
        .ok (newNode, { l with tail := some newNode })
    else
      match iter with
      | none => .error .nullPointer
      | some i =>
        let c ← l.deref i
        let oldBack := c.back
        let l ← l.setNext newNode iter
        let l ← l.setBack newNode oldBack
        let l ← l.setBack i (some newNode)
        match oldBack with
        | none => .ok (newNode, l)
        | some b =>
          let l ← l.setNext b (some newNode)
          .ok (newNode, l)

/-- The body of `emplace_front` is the one of `push_front`. -/
def emplaceFront (l : NodeList α) (data : α) : Except Fault (NodeList α) := l.pushFront data

/-- The body of `emplace_back` is the one of `push_back`. -/
def emplaceBack (l : NodeList α) (data : α) : Except Fault (NodeList α) := l.pushBack data

/-! ## Where the element goes -/

theorem emplace_empty {iter : Option Nat} (hh : l.head = none) (a : α) :
    l.emplace iter a = (do
      let l' ← l.pushFront a
      .ok (l.nodeCount, l')) := by
  simp only [emplace, pushFront, hh, ok_bind]

theorem emplace_first {n : Nat} (hh : l.head = some n) (a : α) :
    l.emplace (some n) a = (do
      let l' ← l.pushFront a
      .ok (l.nodeCount, l')) := by
  simp only [emplace, pushFront, hh, if_true]
  cases setNext _ l.nodeCount (some n) with
  | error u => rfl
  | ok l1 =>
    simp only [ok_bind]
    cases l1.setBack n (some l.nodeCount) with
    | error u => rfl
    | ok l2 => rfl

theorem emplace_last {n k : Nat} (hh : l.head = some k) (hne : k ≠ n) (ht : l.tail = some n)
    (a : α) : l.emplace (some n) a = (do
      let l' ← l.pushBack a
      .ok (l.nodeCount, l')) := by
  have hne' : some k ≠ some n := fun he => hne (Option.some.inj he)
  simp only [emplace, pushBack, hh, ht, if_neg hne', if_true]
  cases setBack _ l.nodeCount (some n) with
  | error u => rfl
  | ok l1 =>
    simp only [ok_bind]
    cases l1.setNext n (some l.nodeCount) with
    | error u => rfl
    | ok l2 => rfl

theorem Listed.pair_ne {p : Nat × α} (h : Listed l (pre ++ p :: x :: post)) : p.1 ≠ x.1 := by
  have hnd := h.nodup
  simp only [ids, List.map_append, List.map_cons, List.nodup_append, List.nodup_cons] at hnd
  exact fun he => hnd.2.1.1 (by simp [he])

/-- An element with another one before it is not at the head. -/
theorem Listed.head_ne {p : Nat × α} (h : Listed l (pre ++ p :: x :: post)) :
    ∃ k, l.head = some k ∧ k ≠ x.1 := by
  have hnd := h.nodup
  rw [seg_first h.seg]
  cases pre with
  | nil => exact ⟨p.1, rfl, h.pair_ne⟩
  | cons y ys =>
    refine ⟨y.1, rfl, fun he => ?_⟩
    simp [he] at hnd

/-- Between two elements. -/
theorem Listed.emplaceMiddle {p : Nat × α} (h : Listed l (pre ++ p :: x :: post))
    (hpost : post ≠ []) (a : α) :
    ∃ l', l.emplace (some x.1) a = .ok (l.nodeCount, l') ∧
      Listed l' (pre ++ p :: (l.nodeCount, a) :: x :: post) ∧ l'.nodeCount = l.nodeCount + 1 ∧
      ∀ m, m ∉ ids (pre ++ p :: x :: post) → m ≠ l.nodeCount → l'.node m = l.node m := by
  have hnew := h.new
  have hnd := h.nodup
  have hx : x.1 ∈ ids (pre ++ p :: x :: post) := by simp
  have hp : p.1 ∈ ids (pre ++ p :: x :: post) := by simp
  have hnx : x.1 ≠ l.nodeCount := fun he => hnew (he ▸ hx)
  have hnp : p.1 ≠ l.nodeCount := fun he => hnew (he ▸ hp)
  have hpx := h.pair_ne
  -- the iterator stands on no end of the list
  obtain ⟨k, hk, hkx⟩ := h.head_ne
  have htail : l.tail ≠ some x.1 := by
    rw [seg_last h.seg, List.append_cons, List.append_cons,
      List.getLast?_append_of_ne_nil _ hpost]
    intro he
    obtain ⟨y, hy, hyx⟩ : ∃ y, post.getLast? = some y ∧ y.1 = x.1 := by simpa using he
    have hmem : y.1 ∈ ids post := List.mem_map_of_mem (List.mem_of_getLast? hy)
    rw [List.append_cons] at hnd
    simp only [ids, List.map_append, List.map_cons, List.nodup_append, List.nodup_cons] at hnd
    exact hnd.2.1.1 (hyx ▸ hmem)
  have hcell : l.node x.1 = some ⟨post.head?.map Prod.fst, some p.1, false, x.2⟩ := by
    rw [List.append_cons] at h
    simpa using h.cell rfl
  obtain ⟨cp, hcp, _, _⟩ := h.cell_of_mem hp
  let h1 : Heap α := Function.update l.node l.nodeCount (some ⟨some x.1, some p.1, false, a⟩)
  have hseg1 : Seg h1 none l.head (pre ++ p :: x :: post) l.tail none :=
    seg_congr (fun n hn => Function.update_of_ne (fun he => hnew (by rw [← he]; exact hn)) _ _)
      h.seg
  have hseg := seg_insert hseg1 hnd hnew (Function.update_self _ _ _)
  have hrun : l.emplace (some x.1) a = .ok (l.nodeCount, ⟨l.head, l.tail,
      putNext (putBack h1 x.1 (some l.nodeCount)) p.1 (some l.nodeCount), l.nodeCount + 1⟩) := by
    simp [emplace, hk, hkx, if_neg htail, setNext, setBack, write, deref, ok_bind, hcell, hcp,
      Function.update_of_ne hnx, Function.update_of_ne hnp, Function.update_of_ne hpx, putNext,
      putBack, h1]
  have hsame : ∀ m, m ∉ ids (pre ++ p :: x :: post) → m ≠ l.nodeCount →
      putNext (putBack h1 x.1 (some l.nodeCount)) p.1 (some l.nodeCount) m = l.node m := by
    intro m hm hmn
    have hmp : m ≠ p.1 := fun he => hm (he ▸ hp)
    have hmx : m ≠ x.1 := fun he => hm (he ▸ hx)
    rw [putNext_ne hmp, putBack_ne hmx]
    exact Function.update_of_ne hmn _ _
  have hperm : (ids (pre ++ p :: (l.nodeCount, a) :: x :: post)).Perm
      (l.nodeCount :: ids (pre ++ p :: x :: post)) := by
    simp only [ids, List.map_append, List.map_cons]
    exact (List.Perm.append_left _ (.swap _ _ _)).trans List.perm_middle
  exact ⟨_, hrun, h.grow hseg hperm rfl hsame, rfl, hsame⟩

/-- The list with a new element at the iterator: before it, but behind the last one of
several. -/
def placed (iter : Option Nat) (new : Nat × α) (xs : List (Nat × α)) : List (Nat × α) :=
  let pre := xs.takeWhile fun x => some x.1 != iter
  let post := xs.dropWhile fun x => some x.1 != iter
  if pre.isEmpty || 1 < post.length then pre ++ new :: post else xs ++ [new]

theorem placed_at (new : Nat × α) (hnd : (ids (pre ++ x :: post)).Nodup) :
    placed (some x.1) new (pre ++ x :: post) =
      if pre.isEmpty || !post.isEmpty then pre ++ new :: x :: post else pre ++ [x, new] := by
  have hpre : ∀ y ∈ pre, (some y.1 != some x.1) = true := fun y hy => by
    simp only [ids, List.map_append, List.map_cons, List.nodup_append] at hnd
    have hne : y.1 ≠ x.1 := hnd.2.2 _ (List.mem_map_of_mem hy) _ (by simp)
    simpa using hne
  unfold placed
  rw [List.takeWhile_append_of_pos hpre, List.dropWhile_append_of_pos hpre]
  cases post <;> simp

theorem mem_placed (iter : Option Nat) (new : Nat × α) (n : Nat) :
    n ∈ ids (placed iter new live) ↔ n = new.1 ∨ n ∈ ids live := by
  simp only [placed]
  split
  · conv => rhs; rw [← List.takeWhile_append_dropWhile (p := fun x => some x.1 != iter) (l := live)]
    simp only [ids, List.map_append, List.map_cons, List.mem_append, List.mem_cons]
    tauto
  · simp only [ids, List.map_append, List.map_cons, List.map_nil, List.mem_append,
      List.mem_singleton]
    tauto

/-- An `emplace` at an element of the list. -/
theorem Listed.emplace (h : Listed l (pre ++ x :: post)) (a : α) :
    ∃ l', l.emplace (some x.1) a = .ok (l.nodeCount, l') ∧
      Listed l' (placed (some x.1) (l.nodeCount, a) (pre ++ x :: post)) ∧
      l'.nodeCount = l.nodeCount + 1 ∧
      ∀ m, m ∉ ids (pre ++ x :: post) → m ≠ l.nodeCount → l'.node m = l.node m := by
  rw [placed_at _ h.nodup]
  rcases List.eq_nil_or_concat pre with rfl | ⟨qs, p, rfl⟩
  · -- at the head, whatever follows
    obtain ⟨l', hrun, hl, hc, hsame⟩ := h.pushFront a
    refine ⟨l', ?_, hl, hc, hsame⟩
    rw [emplace_first (by rw [seg_first h.seg]; rfl), hrun]
    rfl
  · rw [List.concat_eq_append] at *
    cases post with
    | nil =>
      -- behind the last one
      obtain ⟨l', hrun, hl, hc, hsame⟩ := h.pushBack a
      simp only [List.append_assoc, List.cons_append, List.nil_append] at h
      obtain ⟨k, hk, hkx⟩ := h.head_ne
      have htail : l.tail = some x.1 := by
        rw [seg_last h.seg]
        simp
      refine ⟨l', ?_, by simpa using hl, hc, hsame⟩
      rw [emplace_last hk hkx htail, hrun]
      rfl
    | cons y ys =>
      simp only [List.append_assoc, List.cons_append, List.nil_append] at h ⊢
      simpa using h.emplaceMiddle (List.cons_ne_nil y ys) a

end NodeList

/-! ## Runs of all the calls -/

def RcuList.emplace (l : RcuList α) (iter : Option Nat) (data : α) :
    Except Fault (Nat × RcuList α) := do
  let (newNode, nl) ← l.toNodeList.emplace iter data
  .ok (newNode, { l with toNodeList := nl })

def RcuList.emplaceFront (l : RcuList α) (data : α) : Except Fault (RcuList α) := do
  let nl ← l.toNodeList.emplaceFront data
  .ok { l with toNodeList := nl }

def RcuList.emplaceBack (l : RcuList α) (data : α) : Except Fault (RcuList α) := do
  let nl ← l.toNodeList.emplaceBack data
  .ok { l with toNodeList := nl }

/-- A call on a list, of all that there are. -/
inductive ListEdit (α : Type)
  | call (c : ListCall α)
  | emplace (iter : Option Nat) (data : α)
  | emplaceFront (data : α)
  | emplaceBack (data : α)

namespace ListUse

def edit (u : ListUse α) : ListEdit α → Except Fault (ListUse α)
  | .call c => u.call c
  | .emplace iter data => do
    let (_, l) ← u.list.emplace iter data
    .ok { u with list := l }
  | .emplaceFront data => do
    let l ← u.list.emplaceFront data
    .ok { u with list := l }
  | .emplaceBack data => do
    let l ← u.list.emplaceBack data
    .ok { u with list := l }

/-- The iterator of an `emplace` stands on an element that was not erased, unless the list
is empty. -/
def Editable (u : ListUse α) : ListEdit α → Prop
  | .call c => u.Allowed c
  | .emplace iter _ =>
    u.list.head = none ∨ ∃ n ∈ iter, ∃ c ∈ u.list.node n, c.deleted = false
  | _ => True

instance (u : ListUse α) : (e : ListEdit α) → Decidable (u.Editable e)
  | .call c => inferInstanceAs (Decidable (u.Allowed c))
  | .emplace _ _ => inferInstanceAs (Decidable (_ ∨ _))
  | .emplaceFront _ => .isTrue trivial
  | .emplaceBack _ => .isTrue trivial

end ListUse

/-- What a call is meant to do to the sequence. -/
def ListEdit.apply (s : Elements α) : ListEdit α → Elements α
  | .call c => s.apply c
  | .emplaceBack data => s.apply (.pushBack data)
  | .emplaceFront data => s.apply (.pushFront data)
  | .emplace iter data => ⟨NodeList.placed iter (s.pushes, data) s.items, s.pushes + 1⟩

/-- The sequence after all of them. -/
def Elements.edited (es : List (ListEdit α)) : List (Nat × α) := (es.foldl ListEdit.apply {}).items

variable {u : ListUse α} {v v' : View α} {e : ListEdit α} {es : List (ListEdit α)}

theorem Shows.emplace (h : Shows u v) {iter : Option Nat} {data : α}
    (he : u.Editable (.emplace iter data)) :
    ∃ nl, u.list.toNodeList.emplace iter data = .ok (u.list.nodeCount, nl) ∧
      nl.Listed (NodeList.placed iter (u.list.nodeCount, data) v.live) ∧
      nl.nodeCount = u.list.nodeCount + 1 ∧
      ∀ m, m ∉ ids v.live → m ≠ u.list.nodeCount → nl.node m = u.list.node m := by
  rcases he with hempty | ⟨n, rfl, c, hc, hdel⟩
  · have hlive : v.live = [] := by
      cases hl : v.live with
      | nil => rfl
      | cons x xs =>
        have := seg_first h.nodes.seg
        rw [hempty, hl] at this
        cases this
    obtain ⟨nl, hrun, hl, hc, hsame⟩ := h.nodes.pushFront data
    refine ⟨nl, ?_, ?_, hc, hsame⟩
    · rw [NodeList.emplace_empty hempty, hrun]
      rfl
    · rw [hlive] at hl ⊢
      exact hl
  · -- a node that is kept for a reader is marked
    have hn : n ∈ ids v.live := by
      refine (h.known n c hc).resolve_right fun hd => ?_
      rw [h.marked n hd c hc] at hdel
      cases hdel
    obtain ⟨x, hx, rfl⟩ := List.mem_map.mp hn
    obtain ⟨pre, post, hv⟩ := List.append_of_mem hx
    rw [hv]
    exact (hv ▸ h.nodes).emplace data

theorem Shows.edit (h : Shows u v) (he : u.Editable e) : ∃ u' v', u.edit e = .ok u' ∧
    (⟨v'.live, v'.nodeCount⟩ : Elements α) = e.apply ⟨v.live, v.nodeCount⟩ ∧ Shows u' v' := by
  cases e with
  | call c =>
    obtain ⟨u', v', hrun, hc, h'⟩ := h.call he
    exact ⟨u', v', hrun, hc.elements h.sound, h'⟩
  | emplaceFront data =>
    obtain ⟨u', v', hrun, hc, h'⟩ := h.call (c := .pushFront data) trivial
    exact ⟨u', v', hrun, hc.elements h.sound, h'⟩
  | emplaceBack data =>
    obtain ⟨u', v', hrun, hc, h'⟩ := h.call (c := .pushBack data) trivial
    exact ⟨u', v', hrun, hc.elements h.sound, h'⟩
  | emplace iter data =>
    obtain ⟨nl, hrun, hl, hc, hsame⟩ := h.emplace he
    refine ⟨_, _, ?_, ?_, h.grow hl hc (NodeList.mem_placed iter _) hsame⟩
    · simp only [ListUse.edit, RcuList.emplace, hrun, ok_bind]
    · simp only [ListEdit.apply, h.nodeCount]

theorem Shows.edits (h : Shows u v) (hm : Runs.Meets ListUse.edit ListUse.Editable u es) :
    ∃ u' v', Runs.run ListUse.edit u es = .ok u' ∧
      (⟨v'.live, v'.nodeCount⟩ : Elements α) =
        es.foldl ListEdit.apply ⟨v.live, v.nodeCount⟩ ∧ Shows u' v' := by
  induction es generalizing u v with
  | nil => exact ⟨u, v, rfl, rfl, h⟩
  | cons e es ih =>
    obtain ⟨he, hm⟩ := hm
    obtain ⟨u1, v1, hstep, hv1, h1⟩ := h.edit he
    rw [hstep] at hm
    obtain ⟨u', v', hrun, hv', h'⟩ := ih h1 hm
    refine ⟨u', v', Runs.run_cons.mpr ⟨u1, hstep, hrun⟩, ?_, h'⟩
    rw [List.foldl_cons, ← hv1]
    exact hv'

/-- What the calls of a run leave of a list, in whatever order guards come and go between
them: no call meets a fault, and the nodes from the head to the tail are the elements that
the calls are meant to leave, each linked to the next and back. -/
theorem list_edits (hm : Runs.Meets ListUse.edit ListUse.Editable ({} : ListUse α) es) :
    ∃ u, Runs.run ListUse.edit {} es = .ok u ∧
      u.list.Listed (Elements.edited es) ∧ u.list.toList = Elements.edited es := by
  obtain ⟨u, v, hrun, hv, h⟩ := shows_empty.edits hm
  have hlive : v.live = Elements.edited es := congrArg Elements.items hv
  rw [← hlive]
  exact ⟨u, hrun, h.nodes, h.nodes.represents.walk⟩

/-- A reader holds an erased element, and elements are emplaced at the head, between two
others and at the last one. -/
def emplacing : List (ListEdit Nat) :=
  [.emplace none 1, .call .lock, .emplaceBack 2, .call (.pushBack 3), .emplaceFront 4,
    .call (.erase 1), .emplace (some 3) 5, .emplace (some 0) 6, .emplace (some 2) 7,
    .call (.unlock 0), .emplace (some 5) 8]

theorem list_edits_emplacing : ∃ u, Runs.run ListUse.edit {} emplacing = .ok u ∧
    u.list.toList = [(4, 5), (3, 4), (7, 8), (5, 6), (0, 1), (2, 3), (6, 7)] := by
  have hm : Runs.Meets ListUse.edit ListUse.Editable ({} : ListUse Nat) emplacing :=
    Runs.meets_iff.mp (by decide +kernel)
  have hmeant : Elements.edited emplacing =
      [(4, 5), (3, 4), (7, 8), (5, 6), (0, 1), (2, 3), (6, 7)] := by decide +kernel
  obtain ⟨u, hrun, _, hlist⟩ := list_edits hm
  exact ⟨u, hrun, hlist.trans hmeant⟩

end CsSignal
