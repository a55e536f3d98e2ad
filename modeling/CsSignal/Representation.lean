-- The representation of a list: head, tail, next and back are four views of one
-- sequence, and that sequence is what the same edits make of an abstract one.
import CsSignal.ListRuns
import CsSignal.Lib.Paths

namespace CsSignal

open LinkedCells RcuList

variable {α : Type}

/-! ## The abstract sequence -/

/-- A sequence of elements, each under the number of its push. -/
structure Elements (α : Type) where
  items : List (Nat × α) := []
  pushes : Nat := 0

namespace Elements

/-- A push appends or prepends, an erase deletes, and a guard changes nothing. -/
def apply (s : Elements α) : ListCall α → Elements α
  | .pushBack data => ⟨s.items ++ [(s.pushes, data)], s.pushes + 1⟩
  | .pushFront data => ⟨(s.pushes, data) :: s.items, s.pushes + 1⟩
  | .erase n => { s with items := s.items.filter fun x => x.1 ≠ n }
  | _ => s

/-- The sequence after the calls. -/
def after (calls : List (ListCall α)) : List (Nat × α) := (calls.foldl apply {}).items

end Elements

theorem filter_absent {xs : List (Nat × α)} {n : Nat} (hn : n ∉ ids xs) :
    xs.filter (fun x => x.1 ≠ n) = xs := by
  rw [List.filter_eq_self]
  intro x hx
  simp only [decide_eq_true_eq]
  rintro rfl
  exact hn (List.mem_map_of_mem hx)

theorem filter_middle {pre post : List (Nat × α)} {x : Nat × α}
    (hn : (ids (pre ++ x :: post)).Nodup) :
    (pre ++ x :: post).filter (fun y => y.1 ≠ x.1) = pre ++ post := by
  simp only [ids, List.map_append, List.map_cons, List.nodup_append, List.nodup_cons] at hn
  have hpre : x.1 ∉ ids pre := fun hm => hn.2.2 _ hm x.1 (by simp) rfl
  rw [List.filter_append, List.filter_cons_of_neg (by simp), filter_absent hpre,
    filter_absent hn.2.1.1]

theorem Change.elements {v v' : View α} {c : ListCall α} (hs : v.Sound) (hc : Change v c v') :
    (⟨v'.live, v'.nodeCount⟩ : Elements α) = Elements.apply ⟨v.live, v.nodeCount⟩ c := by
  cases hc with
  | lock => rfl
  | unlock above below e hv ho => rfl
  | pushBack data => rfl
  | pushFront data => rfl
  | erase pre post x hv =>
    have hn := hs.nodup
    simp only [Elements.apply, hv] at hn ⊢
    rw [filter_middle hn]
  | again d hv =>
    simp only [Elements.apply]
    rw [filter_absent (hs.apart d hv)]

theorem Changes.elements {v v' : View α} {cs : List (ListCall α)} (h : Changes v cs v') :
    (⟨v'.live, v'.nodeCount⟩ : Elements α) = cs.foldl Elements.apply ⟨v.live, v.nodeCount⟩ := by
  induction h with
  | nil v => rfl
  | cons hs hc h ih => rw [ih, hc.elements hs, List.foldl_cons]

/-! ## The four views -/

/-- The pointers of the list are those of the sequence `items`. -/
structure Represents (l : RcuList α) (items : List (Nat × α)) : Prop where
  head : l.head = items.head?.map Prod.fst
  tail : l.tail = items.getLast?.map Prod.fst
  /-- Each node leads to the next one and back to the one before, and is not marked. -/
  cell : ∀ pre x post, items = pre ++ x :: post → l.node x.1 =
    some ⟨post.head?.map Prod.fst, pre.getLast?.map Prod.fst, false, x.2⟩
  nodup : (ids items).Nodup
  walk : l.toList = items
  reaches : ∀ n, Reaches l.node l.head n ↔ n ∈ ids items
  unmarked : ∀ n c, Reaches l.node l.head n → l.node n = some c → c.deleted = false

theorem NodeList.Listed.represents {l : RcuList α} {live : List (Nat × α)} (h : l.Listed live) :
    Represents l live := by
  have hreach : ∀ n, Reaches l.node l.head n ↔ n ∈ ids live := by
    intro n
    constructor
    · exact fun hr => hr.mem_of_seg h.seg
    · intro hn
      obtain ⟨x, hx, rfl⟩ := List.mem_map.mp hn
      exact seg_reaches h.seg hx
  exact {
    head := by simpa using seg_first h.seg
    tail := by simpa using seg_last h.seg
    cell := fun pre x post hl => h.cell hl
    nodup := h.nodup
    walk := by
      have hlen := length_le_of_bound h.nodup h.bound
      exact walk_seg h.seg (by simpa using hlen)
    reaches := hreach
    unmarked := fun n c hr hc => by
      obtain ⟨c', hc', hdel, _⟩ := h.cell_of_mem ((hreach n).mp hr)
      rw [hc, Option.some.injEq] at hc'
      rw [hc', hdel] }

/-! ## Erased nodes -/

/-- One entry of the stack keeps the node, and no other. -/
def KeptOnce (l : RcuList α) (n : Nat) : Prop :=
  ∃ zs, Stack l.zombie l.zombieHead zs ∧
    (∀ z, (l.zombie z).isSome = true ↔ z ∈ zs.map Entry.id) ∧
    ∃! e, e ∈ zs ∧ e.zombieNode = some n

theorem Shows.keptOnce {u : ListUse α} {v : View α} (h : Shows u v) {n : Nat}
    (hn : n ∈ dead v.entries) : KeptOnce u.list n := by
  have hst : Stack u.list.zombie u.list.zombieHead v.entries := by
    rw [h.top]
    exact h.stack.stack
  obtain ⟨e, he, hz⟩ := mem_dead.mp hn
  refine ⟨v.entries, hst, h.entry_iff, e, ⟨he, hz⟩, ?_⟩
  rintro e' ⟨he', hz'⟩
  obtain ⟨above, below, hv⟩ := List.append_of_mem he
  have honce := h.stack.once
  rw [hv] at honce he'
  simp only [dead, List.filterMap_append, List.filterMap_cons, hz, List.nodup_middle,
    List.nodup_cons, List.mem_append, not_or] at honce
  rcases List.mem_append.mp he' with he' | he'
  · exact absurd (mem_dead.mpr ⟨e', he', hz'⟩) honce.1.1
  · rcases List.mem_cons.mp he' with rfl | he'
    · rfl
    · exact absurd (mem_dead.mpr ⟨e', he', hz'⟩) honce.1.2

/-- Only an unlock frees a node. -/
theorem Change.kept {v v' : View α} {c : ListCall α} (hc : Change v c v')
    (hu : ∀ g, c ≠ .unlock g)
    (hk : ∀ n < v.nodeCount, n ∈ ids v.live ∨ n ∈ dead v.entries) :
    ∀ n < v'.nodeCount, n ∈ ids v'.live ∨ n ∈ dead v'.entries := by
  cases hc with
  | lock => exact hk
  | unlock above below e hv ho => exact absurd rfl (hu e.id)
  | pushBack data =>
    intro n hn
    rcases Nat.lt_succ_iff_lt_or_eq.mp hn with hn | rfl
    · exact (hk n hn).imp (fun hl => by simp [hl]) id
    · simp
  | pushFront data =>
    intro n hn
    rcases Nat.lt_succ_iff_lt_or_eq.mp hn with hn | rfl
    · exact (hk n hn).imp (fun hl => by simp [hl]) id
    · simp
  | erase pre post x hv =>
    intro n hn
    have := hk n hn
    simp only [hv, ids, List.map_append, List.map_cons, List.mem_append, List.mem_cons] at this
    simp only [ids, List.map_append, List.mem_append, dead, List.filterMap_cons, List.mem_cons]
    tauto
  | again d hv => exact hk

theorem Changes.kept {v v' : View α} {cs : List (ListCall α)} (h : Changes v cs v')
    (hu : ∀ g, .unlock g ∉ cs)
    (hk : ∀ n < v.nodeCount, n ∈ ids v.live ∨ n ∈ dead v.entries) :
    ∀ n < v'.nodeCount, n ∈ ids v'.live ∨ n ∈ dead v'.entries := by
  induction h with
  | nil v => exact hk
  | cons hs hc h ih =>
    refine ih (fun g hg => hu g (List.mem_cons_of_mem _ hg)) (hc.kept (fun g hg => ?_) hk)
    exact hu g (hg ▸ List.mem_cons_self)

/-! ## Every run -/

/-- A run of allowed calls meets no fault, and leaves a list that represents the
sequence that the same calls make. A node that was erased and is not freed yet is
marked, is kept by one entry, and is erased again without a change. -/
theorem representation (calls : List (ListCall α)) (h : ListUse.Legal calls) :
    ∃ u, Runs.run ListUse.call {} calls = .ok u ∧ Represents u.list (Elements.after calls) ∧
      (∀ n, .erase n ∈ calls → ∀ c, u.list.node n = some c →
        c.deleted = true ∧ KeptOnce u.list n ∧ u.list.erase n = .ok (c.next, u.list)) ∧
      ((∀ g, .unlock g ∉ calls) → ∀ n, .erase n ∈ calls → (u.list.node n).isSome = true) := by
  obtain ⟨u, v, hrun, hc, hv⟩ := shows_empty.run h
  have hitems : v.live = Elements.after calls := congrArg Elements.items hc.elements
  refine ⟨u, hrun, hitems ▸ hv.nodes.represents, fun n hn c hnode => ?_, fun hu n hn => ?_⟩
  · have hgone := hc.erase_gone hn
    have hd : n ∈ dead v.entries := (hv.known n c hnode).resolve_left hgone.1
    obtain ⟨c', hc', hagain⟩ := hv.again hd
    rw [hnode, Option.some.injEq] at hc'
    rw [← hc'] at hagain
    exact ⟨hv.marked n hd c hnode, hv.keptOnce hd, hagain⟩
  · have hgone := hc.erase_gone hn
    exact (hv.node_iff n).mpr (hc.kept hu (fun n hn => absurd hn (Nat.not_lt_zero n)) n hgone.2)

/-- The only, the first and the last element are erased, and one of them twice. -/
def edited : List (ListCall Nat) :=
  [.lock, .pushBack 10, .erase 0, .pushFront 11, .pushBack 12, .pushFront 13, .erase 3, .erase 2,
    .erase 3, .pushBack 14]

theorem representation_edited :
    ∃ u, Runs.run ListUse.call {} edited = .ok u ∧ Represents u.list [(1, 11), (4, 14)] ∧
      ∀ n, .erase n ∈ edited → KeptOnce u.list n := by
  obtain ⟨u, hrun, hrep, herased, hkept⟩ := representation edited (by decide)
  refine ⟨u, hrun, hrep, fun n hn => ?_⟩
  have hfree : ∀ g, .unlock g ∉ edited := by simp [edited]
  obtain ⟨c, hc⟩ := Option.isSome_iff_exists.mp (hkept hfree n hn)
  exact (herased n hn c hc).2.1

end CsSignal
