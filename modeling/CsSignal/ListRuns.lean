-- The calls on one list in any order: guards that lock and unlock in any nesting
-- or overlap, and the edits between them. What a call makes of the nodes and of
-- the stack is said once here; the laws of the runs only read it.
import CsSignal.Cursor
import CsSignal.Lib.Runs

namespace CsSignal

open LinkedCells RcuList

/-! ## The calls -/

/-- A call on a list. An unlock names the entry of its guard, an erase the node
that its iterator stands on. -/
inductive ListCall (α : Type)
  | lock
  | unlock (guard : Nat)
  | pushBack (data : α)
  | pushFront (data : α)
  | erase (iter : Nat)

/-- A list, and the entries of the guards that are locked, newest first. -/
structure ListUse (α : Type) where
  list : RcuList α := {}
  guards : List Nat := []

namespace ListUse

variable {α : Type}

def call (u : ListUse α) : ListCall α → Except Fault (ListUse α)
  | .lock => .ok ⟨u.list.rcuReadLock.2, u.list.rcuReadLock.1 :: u.guards⟩
  | .unlock g => do
    let l ← u.list.unlock g
    .ok ⟨l, u.guards.erase g⟩
  | .pushBack data => do
    let l ← u.list.pushBack data
    .ok { u with list := l }
  | .pushFront data => do
    let l ← u.list.pushFront data
    .ok { u with list := l }
  | .erase iter => do
    let (_, l) ← u.list.erase iter
    .ok { u with list := l }

/-- A guard unlocks once, and no iterator stands on a node that was freed. One
that was erased, and not freed yet, may be erased again. -/
def Allowed (u : ListUse α) : ListCall α → Prop
  | .unlock g => g ∈ u.guards
  | .erase iter => (u.list.node iter).isSome = true
  | _ => True

instance (u : ListUse α) : (c : ListCall α) → Decidable (u.Allowed c)
  | .lock => .isTrue trivial
  | .unlock g => inferInstanceAs (Decidable (g ∈ u.guards))
  | .pushBack _ => .isTrue trivial
  | .pushFront _ => .isTrue trivial
  | .erase iter => inferInstanceAs (Decidable ((u.list.node iter).isSome = true))

/-- Every call of the run is allowed where it is made. -/
abbrev Legal (calls : List (ListCall α)) : Prop := Runs.Meets call Allowed ({} : ListUse α) calls

end ListUse

/-! ## What a list shows -/

/-- The nodes of a list in order, its stack from the top, and how many nodes and
entries were allocated. -/
structure View (α : Type) where
  live : List (Nat × α) := []
  entries : List Entry := []
  nodeCount : Nat := 0
  zombieCount : Nat := 0

variable {α : Type}

/-- Every cell of the list is in the view: a node in the list or kept by an entry,
never both, and an entry on the stack. -/
structure Shows (u : ListUse α) (v : View α) : Prop where
  nodes : u.list.Listed v.live
  stack : Suffix u.list v.entries
  top : u.list.zombieHead = v.entries.head?.map Entry.id
  apart : ∀ d ∈ dead v.entries, d ∉ ids v.live
  marked : ∀ d ∈ dead v.entries, ∀ c, u.list.node d = some c → c.deleted = true
  known : ∀ n c, u.list.node n = some c → n ∈ ids v.live ∨ n ∈ dead v.entries
  placed : ∀ z e, u.list.zombie z = some e → z ∈ v.entries.map Entry.id
  guards : u.guards = owned v.entries
  nodeCount : u.list.nodeCount = v.nodeCount
  zombieCount : u.list.zombieCount = v.zombieCount

/-- What a call makes of the view. -/
inductive Change : View α → ListCall α → View α → Prop
  | lock (v : View α) : Change v .lock { v with
      entries := ⟨v.zombieCount, true, none, v.nodeCount⟩ :: v.entries
      zombieCount := v.zombieCount + 1 }
  | unlock (v : View α) (above below : List Entry) (e : Entry)
      (hv : v.entries = above ++ e :: below) (ho : e.owner = true) :
      Change v (.unlock e.id) { v with entries := above ++ unlockedEntries e below }
  | pushBack (v : View α) (data : α) : Change v (.pushBack data) { v with
      live := v.live ++ [(v.nodeCount, data)]
      nodeCount := v.nodeCount + 1 }
  | pushFront (v : View α) (data : α) : Change v (.pushFront data) { v with
      live := (v.nodeCount, data) :: v.live
      nodeCount := v.nodeCount + 1 }
  | erase (v : View α) (pre post : List (Nat × α)) (x : Nat × α) (hv : v.live = pre ++ x :: post) :
      Change v (.erase x.1) { v with
        live := pre ++ post
        entries := ⟨v.zombieCount, false, some x.1, v.nodeCount⟩ :: v.entries
        zombieCount := v.zombieCount + 1 }
  /-- The node was erased before, and is not freed yet. -/
  | again (v : View α) (d : Nat) (hv : d ∈ dead v.entries) : Change v (.erase d) v

theorem shows_empty : Shows ({} : ListUse α) {} where
  nodes := NodeList.listed_empty
  stack := ⟨rfl, .nil, by simp, by simp, by simp, by simp⟩
  top := rfl
  apart := by simp
  marked := by simp
  known := fun _ _ h => nomatch h
  placed := fun _ _ h => nomatch h
  guards := rfl
  nodeCount := rfl
  zombieCount := rfl

namespace Shows

variable {u : ListUse α} {v : View α}

theorem node_iff (h : Shows u v) (n : Nat) :
    (u.list.node n).isSome = true ↔ n ∈ ids v.live ∨ n ∈ dead v.entries := by
  constructor
  · intro hn
    obtain ⟨c, hc⟩ := Option.isSome_iff_exists.mp hn
    exact h.known n c hc
  · rintro (hn | hn)
    · obtain ⟨c, hc, _⟩ := h.nodes.cell_of_mem hn
      rw [hc, Option.isSome_some]
    · obtain ⟨c, hc⟩ := h.stack.kept n hn
      rw [hc, Option.isSome_some]

theorem entry_iff (h : Shows u v) (z : Nat) :
    (u.list.zombie z).isSome = true ↔ z ∈ v.entries.map Entry.id := by
  constructor
  · intro hz
    obtain ⟨e, he⟩ := Option.isSome_iff_exists.mp hz
    exact h.placed z e he
  · intro hz
    obtain ⟨e, he, rfl⟩ := List.mem_map.mp hz
    obtain ⟨above, below, hv⟩ := List.append_of_mem he
    have hs := h.stack.stack
    rw [hv] at hs
    obtain ⟨nx, hc, _⟩ := stack_entry hs
    rw [hc, Option.isSome_some]

/-- A node that is kept by an entry was allocated, and is not the next one. -/
theorem dead_lt (h : Shows u v) {d : Nat} (hd : d ∈ dead v.entries) : d < u.list.nodeCount := by
  obtain ⟨c, hc⟩ := h.stack.kept d hd
  refine Nat.lt_of_not_le fun hge => ?_
  rw [h.nodes.fresh d hge] at hc
  cases hc

/-! ## One call -/

theorem lock (h : Shows u v) :
    Shows ⟨u.list.rcuReadLock.2, u.list.rcuReadLock.1 :: u.guards⟩ { v with
      entries := ⟨v.zombieCount, true, none, v.nodeCount⟩ :: v.entries
      zombieCount := v.zombieCount + 1 } := by
  have hpush := h.stack.push h.top true none v.nodeCount (fun _ => rfl) (by simp)
  rw [h.zombieCount] at hpush
  exact {
    nodes := h.nodes
    stack := hpush
    top := by simp [rcuReadLock, pushZombie, h.zombieCount]
    apart := h.apart
    marked := h.marked
    known := h.known
    placed := fun z e hz => by
      by_cases hzc : z = u.list.zombieCount
      · simp [hzc, h.zombieCount]
      · have hz' : u.list.zombie z = some e := (Function.update_of_ne hzc _ _).symm.trans hz
        exact List.mem_cons_of_mem _ (h.placed z e hz')
    guards := by
      rw [owned_cons_true rfl, ← h.guards, ← h.zombieCount]
      rfl
    nodeCount := h.nodeCount
    zombieCount := by simp [rcuReadLock, pushZombie, h.zombieCount] }

theorem unlock (h : Shows u v) {above below : List Entry} {e : Entry}
    (hv : v.entries = above ++ e :: below) (ho : e.owner = true) :
    ∃ l', u.list.unlock e.id = .ok l' ∧
      Shows ⟨l', u.guards.erase e.id⟩ { v with entries := above ++ unlockedEntries e below } ∧
      ∀ n, l'.node n =
        if below.any (·.owner) = false ∧ n ∈ dead below then none else u.list.node n := by
  have hsuf : Suffix u.list (above ++ e :: below) := hv ▸ h.stack
  have hapart : ∀ d ∈ dead (above ++ e :: below), d ∉ ids v.live := hv ▸ h.apart
  have hg : e.zombieNode = none := hsuf.guards e (by simp) ho
  obtain ⟨l', hrun, hsuf', hfree, hz, hhead, hcount, hnode⟩ := hsuf.unlock_at ho
  have hsame : ∀ n, l'.node n =
      if below.any (·.owner) = false ∧ n ∈ dead below then none else u.list.node n := by
    intro n
    rw [hnode]
  have hlive : ∀ n ∈ ids v.live, l'.node n = u.list.node n := fun n hn => by
    rw [hsame]
    refine if_neg fun hb => hapart n ?_ hn
    simp only [dead, List.filterMap_append, List.filterMap_cons, hg, List.mem_append]
    exact Or.inr hb.2
  refine ⟨l', hrun, ?_, hsame⟩
  exact {
    nodes := by
      refine ⟨?_, h.nodes.nodup, ?_, fun n hn => ?_⟩
      · have hends : l'.head = u.list.head ∧ l'.tail = u.list.tail := by rw [hnode]; exact ⟨rfl, rfl⟩
        rw [hends.1, hends.2]
        exact seg_congr hlive h.nodes.seg
      · rw [hnode]
        exact h.nodes.bound
      · rw [hnode] at hn
        rw [hsame, h.nodes.fresh n hn, ite_self]
    stack := hsuf'
    top := by
      rw [hhead, h.top, hv]
      cases above <;> rfl
    apart := fun d hd => hapart d (dead_unlocked hg hsuf.once hd).1
    marked := fun d hd c hc => by
      obtain ⟨hd, hdb⟩ := dead_unlocked hg hsuf.once hd
      rw [hsame, if_neg fun hb => hdb hb.1 hb.2] at hc
      exact h.marked d (hv ▸ hd) c hc
    known := fun n c hn => by
      rw [hsame] at hn
      split at hn
      · cases hn
      · rename_i hno
        refine (h.known n c hn).imp id fun hd => ?_
        simp only [hv, dead, List.filterMap_append, List.filterMap_cons, hg, List.mem_append] at hd ⊢
        refine hd.imp id fun hd => ?_
        by_cases hb : below.any (·.owner) = true
        · rwa [if_pos hb]
        · exact absurd ⟨by simpa using hb, hd⟩ hno
    placed := fun z c hc => by
      simp only [List.map_append, List.map_cons, List.mem_append, List.mem_cons]
      by_cases hze : z = e.id
      · exact Or.inr (Or.inl hze)
      · by_cases hzb : z ∈ below.map Entry.id
        · by_cases hb : below.any (·.owner) = true
          · rw [if_pos hb]
            exact Or.inr (Or.inr hzb)
          · rw [hfree (by simpa using hb) z hzb] at hc
            cases hc
        · rw [hz z hze hzb] at hc
          have := h.placed z c hc
          simp only [hv, List.map_append, List.map_cons, List.mem_append, List.mem_cons] at this
          exact Or.inl (this.resolve_right fun h => h.elim hze hzb)
    guards := by
      have habove : e.id ∉ owned above := fun hm => by
        obtain ⟨a, ha, hid⟩ := List.mem_map.mp hm
        have := (List.pairwise_append.mp hsuf.desc).2.2 a (List.mem_filter.mp ha).1 e (by simp)
        omega
      rw [owned_unlocked, h.guards, hv, owned_append, owned_cons_true ho,
        List.erase_append_right _ habove, List.erase_cons_head]
    nodeCount := by
      rw [← h.nodeCount, hnode]
    zombieCount := hcount.trans h.zombieCount }

/-- A push, at one end or at the other. -/
theorem grow (h : Shows u v) {nl : NodeList α} {live : List (Nat × α)}
    (hn : nl.Listed live) (hc : nl.nodeCount = u.list.nodeCount + 1)
    (hm : ∀ n, n ∈ ids live ↔ n = u.list.nodeCount ∨ n ∈ ids v.live)
    (hsame : ∀ m, m ∉ ids v.live → m ≠ u.list.nodeCount → nl.node m = u.list.node m) :
    Shows { u with list := { u.list with toNodeList := nl } }
      { v with live := live, nodeCount := v.nodeCount + 1 } := by
  have hdead : ∀ d ∈ dead v.entries, nl.node d = u.list.node d := fun d hd =>
    hsame d (h.apart d hd) (Nat.ne_of_lt (h.dead_lt hd))
  exact {
    nodes := hn
    stack := h.stack.withNodes nl hdead
    top := h.top
    apart := fun d hd hl => by
      rcases (hm d).mp hl with rfl | hl
      · exact Nat.lt_irrefl _ (h.dead_lt hd)
      · exact h.apart d hd hl
    marked := fun d hd c hc => h.marked d hd c ((hdead d hd).symm.trans hc)
    known := fun n c hn => by
      by_cases hl : n ∈ ids live
      · exact Or.inl hl
      · have hl' := mt (hm n).mpr hl
        rw [not_or] at hl'
        exact Or.inr ((h.known n c ((hsame n hl'.2 hl'.1).symm.trans hn)).resolve_left hl'.2)
    placed := h.placed
    guards := h.guards
    nodeCount := by rw [hc, h.nodeCount]
    zombieCount := h.zombieCount }

theorem erase (h : Shows u v) {pre post : List (Nat × α)} {x : Nat × α}
    (hv : v.live = pre ++ x :: post) :
    ∃ nx l', u.list.erase x.1 = .ok (nx, l') ∧ Shows { u with list := l' } { v with
      live := pre ++ post
      entries := ⟨v.zombieCount, false, some x.1, v.nodeCount⟩ :: v.entries
      zombieCount := v.zombieCount + 1 } := by
  have hlist : u.list.Listed (pre ++ x :: post) := hv ▸ h.nodes
  obtain ⟨nl, c, hc, _, _, _, _, hrun, hlisted, hcount, hnode⟩ := hlist.unlink
  obtain ⟨hself, hsame⟩ := hlist.unlinked_cells hc
  rw [← hnode] at hself hsame
  have hin : ∀ m, m ∈ ids (pre ++ x :: post) ↔ m = x.1 ∨ m ∈ ids (pre ++ post) := by
    intro m
    simp only [ids, List.map_append, List.map_cons, List.mem_append, List.mem_cons]
    tauto
  have hxn : x.1 ∉ ids (pre ++ post) := by
    have hnd := hlist.nodup
    simp only [ids, List.map_append, List.map_cons, List.nodup_middle, List.nodup_cons] at hnd
    simpa using hnd.1
  have hapart : ∀ d ∈ dead v.entries, d ∉ ids (pre ++ x :: post) := hv ▸ h.apart
  have hxd : x.1 ∉ dead v.entries := fun hd => hapart _ hd ((hin _).mpr (Or.inl rfl))
  have hdead : ∀ d ∈ dead v.entries, nl.node d = u.list.node d := fun d hd => hsame d (hapart d hd)
  have hmem : ∀ d, d ∈ dead (⟨v.zombieCount, false, some x.1, v.nodeCount⟩ :: v.entries) ↔
      d = x.1 ∨ d ∈ dead v.entries := by simp [dead]
  have hstack := (h.stack.withNodes nl hdead).push h.top false (some x.1) v.nodeCount (by simp)
    fun d hd => by
      rw [← Option.some.inj hd]
      exact ⟨hxd, _, hself⟩
  refine ⟨c.next, u.list.erased nl x.1, ?_, ?_⟩
  · simp only [RcuList.erase, hrun, ok_bind, if_true, erased]
  · exact {
      nodes := hlisted
      stack := by
        rw [← h.zombieCount]
        exact hstack
      top := by simp [erased, pushZombie, h.zombieCount]
      apart := fun d hd hl => by
        rcases (hmem d).mp hd with rfl | hd
        · exact hxn hl
        · exact hapart d hd ((hin d).mpr (Or.inr hl))
      marked := fun d hd c' hc' => by
        rcases (hmem d).mp hd with rfl | hd
        · rw [← Option.some.inj (hself.symm.trans hc')]
        · exact h.marked d hd c' ((hdead d hd).symm.trans hc')
      known := fun n c' hn => by
        by_cases hl : n ∈ ids (pre ++ x :: post)
        · exact ((hin n).mp hl).elim (fun he => Or.inr ((hmem n).mpr (Or.inl he))) Or.inl
        · refine Or.inr ((hmem n).mpr (Or.inr ?_))
          exact (h.known n c' ((hsame n hl).symm.trans hn)).resolve_left (hv ▸ hl)
      placed := fun z e hz => by
        by_cases hzc : z = u.list.zombieCount
        · simp [hzc, h.zombieCount]
        · have hz' : u.list.zombie z = some e := (Function.update_of_ne hzc _ _).symm.trans hz
          exact List.mem_cons_of_mem _ (h.placed z e hz')
      guards := by rw [owned_cons_false rfl, h.guards]
      nodeCount := hcount.trans h.nodeCount
      zombieCount := by simp [erased, pushZombie, h.zombieCount] }

theorem again (h : Shows u v) {d : Nat} (hd : d ∈ dead v.entries) :
    ∃ c, u.list.node d = some c ∧ u.list.erase d = .ok (c.next, u.list) := by
  obtain ⟨c, hc⟩ := h.stack.kept d hd
  have hdel := h.marked d hd c hc
  refine ⟨c, hc, ?_⟩
  simp only [RcuList.erase, NodeList.unlink, NodeList.deref, hc, ok_bind, hdel, if_true,
    Bool.false_eq_true, if_false]

end Shows

/-! ## Any calls -/

/-- What holds of every view that a list shows. -/
structure View.Sound (v : View α) : Prop where
  nodup : (ids v.live).Nodup
  bound : ∀ n ∈ ids v.live, n < v.nodeCount
  apart : ∀ d ∈ dead v.entries, d ∉ ids v.live
  keptBound : ∀ d ∈ dead v.entries, d < v.nodeCount
  desc : v.entries.Pairwise fun a b => b.id < a.id
  zbound : ∀ e ∈ v.entries, e.id < v.zombieCount

theorem Shows.sound {u : ListUse α} {v : View α} (h : Shows u v) : v.Sound where
  nodup := h.nodes.nodup
  bound := fun n hn => h.nodeCount ▸ h.nodes.bound n hn
  apart := h.apart
  keptBound := fun _ hd => h.nodeCount ▸ h.dead_lt hd
  desc := h.stack.desc
  zbound := fun e he => h.zombieCount ▸ h.stack.zbound e he

/-- An allowed call meets no fault, and changes the view as the abstract one does. -/
theorem Shows.call {u : ListUse α} {v : View α} (h : Shows u v) {c : ListCall α}
    (ha : u.Allowed c) : ∃ u' v', u.call c = .ok u' ∧ Change v c v' ∧ Shows u' v' := by
  cases c with
  | lock => exact ⟨_, _, rfl, .lock v, h.lock⟩
  | unlock g =>
    have hg : g ∈ owned v.entries := h.guards ▸ ha
    obtain ⟨e, he, rfl⟩ := List.mem_map.mp hg
    obtain ⟨he, ho⟩ := List.mem_filter.mp he
    obtain ⟨above, below, hv⟩ := List.append_of_mem he
    obtain ⟨l', hrun, hs, _⟩ := h.unlock hv ho
    exact ⟨_, _, by simp only [ListUse.call, hrun, ok_bind], .unlock v above below e hv ho, hs⟩
  | pushBack data =>
    obtain ⟨nl, hrun, hl, hc, hsame⟩ := h.nodes.pushBack data
    rw [h.nodeCount] at hl
    refine ⟨_, _, ?_, .pushBack v data, h.grow hl hc (fun n => ?_) hsame⟩
    · simp only [ListUse.call, RcuList.pushBack, hrun, ok_bind]
    · simp [h.nodeCount, or_comm]
  | pushFront data =>
    obtain ⟨nl, hrun, hl, hc, hsame⟩ := h.nodes.pushFront data
    rw [h.nodeCount] at hl
    refine ⟨_, _, ?_, .pushFront v data, h.grow hl hc (fun n => ?_) hsame⟩
    · simp only [ListUse.call, RcuList.pushFront, hrun, ok_bind]
    · simp [h.nodeCount]
  | erase n =>
    rcases (h.node_iff n).mp ha with hn | hn
    · obtain ⟨x, hx, rfl⟩ := List.mem_map.mp hn
      obtain ⟨pre, post, hv⟩ := List.append_of_mem hx
      obtain ⟨nx, l', hrun, hs⟩ := h.erase hv
      exact ⟨_, _, by simp only [ListUse.call, hrun, ok_bind], .erase v pre post x hv, hs⟩
    · obtain ⟨c, _, hrun⟩ := h.again hn
      exact ⟨_, _, by simp only [ListUse.call, hrun, ok_bind], .again v n hn, h⟩

/-- A run of changes, from one view to another. -/
inductive Changes : View α → List (ListCall α) → View α → Prop
  | nil (v : View α) : Changes v [] v
  | cons {v v' v'' : View α} {c : ListCall α} {cs : List (ListCall α)} (hs : v.Sound)
      (hc : Change v c v') (h : Changes v' cs v'') : Changes v (c :: cs) v''

theorem Shows.run {u : ListUse α} {v : View α} {cs : List (ListCall α)} (h : Shows u v)
    (hm : Runs.Meets ListUse.call ListUse.Allowed u cs) :
    ∃ u' v', Runs.run ListUse.call u cs = .ok u' ∧ Changes v cs v' ∧ Shows u' v' := by
  induction cs generalizing u v with
  | nil => exact ⟨u, v, rfl, .nil v, h⟩
  | cons c cs ih =>
    obtain ⟨ha, hm⟩ := hm
    obtain ⟨u1, v1, hcall, hc, h1⟩ := h.call ha
    rw [hcall] at hm
    obtain ⟨u', v', hrun, hcs, h'⟩ := ih h1 hm
    exact ⟨u', v', Runs.run_cons.mpr ⟨u1, hcall, hrun⟩, .cons h.sound hc hcs, h'⟩

/-! ## Nodes that left the list -/

/-- The node was in the list, and is out of it for good. -/
def View.Gone (v : View α) (n : Nat) : Prop := n ∉ ids v.live ∧ n < v.nodeCount

theorem Change.gone {v v' : View α} {c : ListCall α} {n : Nat} (hc : Change v c v')
    (hn : v.Gone n) : v'.Gone n := by
  obtain ⟨hl, hlt⟩ := hn
  cases hc with
  | lock => exact ⟨hl, hlt⟩
  | unlock above below e hv ho => exact ⟨hl, hlt⟩
  | pushBack data =>
    refine ⟨?_, Nat.lt_succ_of_lt hlt⟩
    simp only [ids, List.map_append, List.map_cons, List.map_nil, List.mem_append,
      List.mem_singleton, not_or]
    exact ⟨hl, Nat.ne_of_lt hlt⟩
  | pushFront data =>
    refine ⟨?_, Nat.lt_succ_of_lt hlt⟩
    simp only [ids, List.map_cons, List.mem_cons, not_or]
    exact ⟨Nat.ne_of_lt hlt, hl⟩
  | erase pre post x hv =>
    rw [hv] at hl
    refine ⟨fun hm => hl ?_, hlt⟩
    simp only [ids, List.map_append, List.map_cons, List.mem_append, List.mem_cons] at hm ⊢
    tauto
  | again d hv => exact ⟨hl, hlt⟩

theorem Change.erase_gone {v v' : View α} {n : Nat} (hs : v.Sound)
    (hc : Change v (.erase n) v') : v'.Gone n := by
  cases hc with
  | erase pre post x hv =>
    have hn := hs.nodup
    have hb := hs.bound
    rw [hv] at hn hb
    refine ⟨?_, hb x.1 (by simp)⟩
    simp only [ids, List.map_append, List.map_cons, List.nodup_middle, List.nodup_cons] at hn
    simpa using hn.1
  | again d hv => exact ⟨hs.apart n hv, hs.keptBound n hv⟩

theorem Changes.gone {v v' : View α} {cs : List (ListCall α)} {n : Nat} (h : Changes v cs v')
    (hn : v.Gone n) : v'.Gone n := by
  induction h with
  | nil v => exact hn
  | cons hs hc h ih => exact ih (hc.gone hn)

theorem Changes.erase_gone {v v' : View α} {cs : List (ListCall α)} {n : Nat}
    (h : Changes v cs v') (hn : .erase n ∈ cs) : v'.Gone n := by
  induction h with
  | nil v => cases hn
  | cons hs hc h ih =>
    rcases List.mem_cons.mp hn with rfl | hn
    · exact h.gone (hc.erase_gone hs)
    · exact ih hn

/-! ## Where an entry comes from -/

/-- The entry `e` at an earlier time, which may have had its owner. -/
structure Was (e e0 : Entry) : Prop where
  id : e0.id = e.id
  node : e0.zombieNode = e.zombieNode
  owner : e.owner = true → e0.owner = true

theorem Was.refl (e : Entry) : Was e e := ⟨rfl, rfl, fun ho => ho⟩

theorem Was.trans {e e1 e0 : Entry} (h : Was e e1) (h1 : Was e1 e0) : Was e e0 :=
  ⟨h1.id.trans h.id, h1.node.trans h.node, fun ho => h1.owner (h.owner ho)⟩

theorem was_unlocked {above below : List Entry} {e0 e : Entry}
    (he : e ∈ above ++ unlockedEntries e0 below) : ∃ e1 ∈ above ++ e0 :: below, Was e e1 := by
  rcases List.mem_append.mp he with he | he
  · exact ⟨e, List.mem_append_left _ he, .refl e⟩
  · rcases List.mem_cons.mp he with rfl | he
    · exact ⟨e0, by simp, rfl, rfl, fun ho => nomatch ho⟩
    · split at he
      · exact ⟨e, by simp [he], .refl e⟩
      · cases he

/-- An entry of the new view was there, or is the newest and keeps the node erased now. -/
theorem Change.entry {v v' : View α} {c : ListCall α} {e : Entry} (hc : Change v c v')
    (he : e ∈ v'.entries) : (∃ e0 ∈ v.entries, Was e e0) ∨
      e.id = v.zombieCount ∧ ∀ d, e.zombieNode = some d → c = .erase d ∧ d ∈ ids v.live := by
  cases hc with
  | lock =>
    rcases List.mem_cons.mp he with rfl | he
    · exact Or.inr ⟨rfl, fun d hd => nomatch hd⟩
    · exact Or.inl ⟨e, he, .refl e⟩
  | unlock above below g hv ho => exact Or.inl (hv ▸ was_unlocked he)
  | pushBack data => exact Or.inl ⟨e, he, .refl e⟩
  | pushFront data => exact Or.inl ⟨e, he, .refl e⟩
  | erase pre post x hv =>
    rcases List.mem_cons.mp he with rfl | he
    · refine Or.inr ⟨rfl, fun d hd => ?_⟩
      rw [← Option.some.inj hd, hv]
      exact ⟨rfl, by simp⟩
    · exact Or.inl ⟨e, he, .refl e⟩
  | again d hv => exact Or.inl ⟨e, he, .refl e⟩

theorem Change.zombieCount_le {v v' : View α} {c : ListCall α} (hc : Change v c v') :
    v.zombieCount ≤ v'.zombieCount := by
  cases hc <;> simp

/-- The same for a run: a new entry is newer than all that were there, and keeps no
node that was gone before. -/
theorem Changes.entry {v v' : View α} {cs : List (ListCall α)} {e : Entry}
    (h : Changes v cs v') (he : e ∈ v'.entries) : (∃ e0 ∈ v.entries, Was e e0) ∨
      v.zombieCount ≤ e.id ∧ ∀ d, e.zombieNode = some d → .erase d ∈ cs ∧ ¬ v.Gone d := by
  induction h with
  | nil v => exact Or.inl ⟨e, he, .refl e⟩
  | @cons v v1 v' c cs hs hc h ih =>
    rcases ih he with ⟨e1, he1, hw⟩ | ⟨hle, hnew⟩
    · rcases hc.entry he1 with ⟨e0, he0, hw0⟩ | ⟨hid, hnew⟩
      · exact Or.inl ⟨e0, he0, hw.trans hw0⟩
      · refine Or.inr ⟨Nat.le_of_eq (hid.symm.trans hw.id), fun d hd => ?_⟩
        obtain ⟨rfl, hl⟩ := hnew d (hw.node.trans hd)
        exact ⟨List.mem_cons_self, fun hg => hg.1 hl⟩
    · refine Or.inr ⟨Nat.le_trans hc.zombieCount_le hle, fun d hd => ?_⟩
      exact ⟨List.mem_cons_of_mem _ (hnew d hd).1, fun hg => (hnew d hd).2 (hc.gone hg)⟩

/-- An entry keeps a node that was erased. -/
theorem Changes.dead_erased {v v' : View α} {cs : List (ListCall α)} {d : Nat} (h : Changes v cs v')
    (hd : d ∈ dead v'.entries) : d ∈ dead v.entries ∨ .erase d ∈ cs := by
  obtain ⟨e, he, hz⟩ := mem_dead.mp hd
  rcases h.entry he with ⟨e0, he0, hw⟩ | ⟨_, hnew⟩
  · exact Or.inl (mem_dead.mpr ⟨e0, he0, hw.node.trans hz⟩)
  · exact Or.inr (hnew d hz).1

end CsSignal
