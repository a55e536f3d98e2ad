-- What the zombie stack of a list represents, and the laws of the guards. An
-- entry that was pushed later has a greater address, so the addresses of the
-- stack fall from its head on, and "newer" is "greater".
import CsSignal.NodeSpec

namespace CsSignal

open LinkedCells

namespace RcuList

variable {α : Type}

/-- An entry of the zombie stack. Its era is the number of nodes that the list
had allocated when the entry was pushed. -/
structure Entry where
  id : Nat
  owner : Bool
  zombieNode : Option Nat
  era : Nat

/-- From `p` the entries `zs` follow each other, and the last one leads nowhere. -/
def Stack (z : Nat → Option ZombieListNode) : Option Nat → List Entry → Prop
  | p, [] => p = none
  | p, e :: es => p = some e.id ∧ ∃ nx, z e.id = some ⟨nx, e.owner, e.zombieNode⟩ ∧ Stack z nx es

/-- The nodes that the entries `zs` keep. -/
abbrev dead (zs : List Entry) : List Nat := zs.filterMap (·.zombieNode)

theorem mem_dead {zs : List Entry} {d : Nat} :
    d ∈ dead zs ↔ ∃ e ∈ zs, e.zombieNode = some d := List.mem_filterMap

theorem mem_dead_cons {e : Entry} {zs : List Entry} {d : Nat} :
    d ∈ dead (e :: zs) ↔ e.zombieNode = some d ∨ d ∈ dead zs := by
  simp only [mem_dead, List.mem_cons, exists_eq_or_imp]

/-- The memory of a list: its nodes, its stack, and no node in both. -/
structure Stacked (l : RcuList α) (live : List (Nat × α)) (zs : List Entry) : Prop where
  nodes : l.toNodeList.Rep live
  stack : Stack l.zombie l.zombieHead zs
  desc : zs.Pairwise fun a b => b.id < a.id
  zbound : ∀ e ∈ zs, e.id < l.zombieCount
  guards : ∀ e ∈ zs, e.owner = true → e.zombieNode = none
  apart : ∀ d ∈ dead zs, d ∉ ids live
  kept : ∀ d ∈ dead zs, ∃ c, l.node d = some c ∧ c.deleted = true
  once : (dead zs).Nodup

/-- Where the frozen pointer of a node in the stack leads: on in the list
order, to a node of the list or to one that was erased later. It skips no node
of the list, except those that were pushed after the erasure. -/
def Frozen (l : RcuList α) (live : List (Nat × α)) (zs : List Entry) (e : Entry) : Prop :=
  ∀ d, e.zombieNode = some d → ∀ c, l.node d = some c →
    (∀ y, c.next = some y →
      d < y ∧ (y ∈ ids live ∨ ∃ e' ∈ zs, e.id < e'.id ∧ e'.zombieNode = some y)) ∧
    ∀ m ∈ ids live, d < m → e.era ≤ m ∨ ∃ y, c.next = some y ∧ y ≤ m

/-- The memory of a list whose every erase came to its end. -/
structure Rep (l : RcuList α) (live : List (Nat × α)) (zs : List Entry) : Prop
    extends Stacked l live zs where
  eras : zs.Pairwise fun a b => b.era ≤ a.era
  ebound : ∀ e ∈ zs, e.era ≤ l.nodeCount
  frozen : ∀ e ∈ zs, Frozen l live zs e

theorem stack_congr {z z' : Nat → Option ZombieListNode} {p : Option Nat}
    {zs : List Entry} (hz : ∀ e ∈ zs, z' e.id = z e.id) (hs : Stack z p zs) : Stack z' p zs := by
  induction zs generalizing p with
  | nil => exact hs
  | cons e es ih =>
    obtain ⟨hp, nx, he, hs⟩ := hs
    exact ⟨hp, nx, (hz e (by simp)).trans he, ih (fun e' he' => hz e' (by simp [he'])) hs⟩

theorem stack_top {z : Nat → Option ZombieListNode} {p : Option Nat} {zs : List Entry}
    (hs : Stack z p zs) : p = zs.head?.map Entry.id := by
  cases zs with
  | nil => exact hs
  | cons e es => exact hs.1

theorem stack_entry {z : Nat → Option ZombieListNode} {p : Option Nat}
    {above below : List Entry} {e : Entry} (hs : Stack z p (above ++ e :: below)) :
    ∃ nx, z e.id = some ⟨nx, e.owner, e.zombieNode⟩ ∧ Stack z nx below := by
  induction above generalizing p with
  | nil => exact hs.2
  | cons a as ih =>
    obtain ⟨_, nx, _, hs⟩ := hs
    exact ih hs

/-- The entries above `e` only lead to it. -/
theorem stack_replace {z z' : Nat → Option ZombieListNode} {p : Option Nat}
    {above below below' : List Entry} {e e' : Entry} (hs : Stack z p (above ++ e :: below))
    (hid : e'.id = e.id) (hz : ∀ a ∈ above, z' a.id = z a.id)
    (hs' : ∃ nx, z' e'.id = some ⟨nx, e'.owner, e'.zombieNode⟩ ∧ Stack z' nx below') :
    Stack z' p (above ++ e' :: below') := by
  induction above generalizing p with
  | nil => exact ⟨by rw [hs.1, hid], hs'⟩
  | cons a as ih =>
    obtain ⟨hp, nx, ha, hs⟩ := hs
    exact ⟨hp, nx, (hz a (by simp)).trans ha, ih hs (fun a' ha' => hz a' (by simp [ha']))⟩

theorem stack_length {zs : List Entry} {k : Nat} (hd : zs.Pairwise fun a b => b.id < a.id)
    (hb : ∀ e ∈ zs, e.id < k) : zs.length ≤ k := by
  have h1 : ((zs.map Entry.id).reverse).Pairwise (· < ·) := by
    rw [List.pairwise_reverse, List.pairwise_map]
    exact hd
  have h2 : ∀ n ∈ (zs.map Entry.id).reverse, n < k := by
    intro n hn
    obtain ⟨e, he, rfl⟩ := List.mem_map.mp (List.mem_reverse.mp hn)
    exact hb e he
  simpa using length_le_of_bound (h1.imp Nat.ne_of_lt) h2

theorem rep_empty : Rep ({} : RcuList α) [] [] :=
  { nodes := NodeList.rep_empty, stack := rfl, desc := .nil, zbound := by simp
    guards := by simp, apart := by simp, kept := by simp, once := by simp, eras := .nil
    ebound := by simp, frozen := by simp }

/-! ## A part of the stack -/

/-- The entries `es` are the stack from its first entry down. This holds of a
destroyed list too, from the first active guard down. -/
structure Suffix (l : RcuList α) (es : List Entry) : Prop where
  stack : Stack l.zombie (es.head?.map Entry.id) es
  desc : es.Pairwise fun a b => b.id < a.id
  zbound : ∀ e ∈ es, e.id < l.zombieCount
  guards : ∀ e ∈ es, e.owner = true → e.zombieNode = none
  kept : ∀ d ∈ dead es, ∃ c, l.node d = some c
  once : (dead es).Nodup

theorem Stacked.suffix {l : RcuList α} {live : List (Nat × α)} {above es : List Entry}
    (h : Stacked l live (above ++ es)) : Suffix l es := by
  refine ⟨?_, (List.pairwise_append.mp h.desc).2.1, fun e he => h.zbound e (by simp [he]),
    fun e he => h.guards e (by simp [he]), fun d hd => ?_, ?_⟩
  · have hs := h.stack
    cases es with
    | nil => rfl
    | cons e es => exact ⟨rfl, stack_entry hs⟩
  · obtain ⟨c, hc, _⟩ := h.kept d (by simp [dead] at hd ⊢; exact Or.inr hd)
    exact ⟨c, hc⟩
  · have := h.once
    rw [dead, List.filterMap_append, List.nodup_append] at this
    exact this.2.1

theorem Stacked.toSuffix {l : RcuList α} {live : List (Nat × α)} {es : List Entry}
    (h : Stacked l live es) : Suffix l es :=
  Stacked.suffix (show Stacked l live ([] ++ es) from h)

theorem Suffix.tail {l : RcuList α} {e : Entry} {es : List Entry} (h : Suffix l (e :: es)) :
    Suffix l es := by
  obtain ⟨_, nx, _, hs⟩ := h.stack
  refine ⟨?_, (List.pairwise_cons.mp h.desc).2, fun e' he => h.zbound e' (by simp [he]),
    fun e' he => h.guards e' (by simp [he]), fun d hd => h.kept d ?_, ?_⟩
  · cases es with
    | nil => rfl
    | cons e' es => exact ⟨rfl, hs.2⟩
  · obtain ⟨e', he, hz⟩ := mem_dead.mp hd
    exact mem_dead.mpr ⟨e', by simp [he], hz⟩
  · exact h.once.sublist ((List.sublist_cons_self e es).filterMap _)

theorem Suffix.drop {l : RcuList α} {above es : List Entry} (h : Suffix l (above ++ es)) :
    Suffix l es := by
  induction above with
  | nil => exact h
  | cons a as ih => exact ih h.tail

theorem Suffix.length_le {l : RcuList α} {es : List Entry} (h : Suffix l es) :
    es.length ≤ l.zombieCount := stack_length h.desc h.zbound

/-- An entry on top of the stack. -/
theorem Suffix.push {l : RcuList α} {es : List Entry} (h : Suffix l es)
    (hp : l.zombieHead = es.head?.map Entry.id) (owner : Bool) (zn : Option Nat) (era : Nat)
    (ho : owner = true → zn = none) (hzn : ∀ d, zn = some d → d ∉ dead es ∧ ∃ c, l.node d = some c) :
    Suffix (l.pushZombie owner zn) (⟨l.zombieCount, owner, zn, era⟩ :: es) := by
  refine ⟨⟨rfl, l.zombieHead, Function.update_self _ _ _, ?_⟩,
    List.pairwise_cons.mpr ⟨h.zbound, h.desc⟩, ?_, ?_, fun d hd => ?_, ?_⟩
  · rw [hp]
    exact stack_congr (fun e he => Function.update_of_ne (Nat.ne_of_lt (h.zbound e he)) _ _) h.stack
  · intro e he
    rcases List.mem_cons.mp he with rfl | he
    · exact Nat.lt_succ_self _
    · exact Nat.lt_succ_of_lt (h.zbound e he)
  · intro e he hoe
    rcases List.mem_cons.mp he with rfl | he
    · exact ho hoe
    · exact h.guards e he hoe
  · rcases mem_dead_cons.mp hd with hd | hd
    · exact (hzn d hd).2
    · exact h.kept d hd
  · cases zn with
    | none => exact h.once
    | some x =>
      simp only [dead, List.filterMap_cons, List.nodup_cons]
      exact ⟨(hzn x rfl).1, h.once⟩

/-- The stack does not read the nodes of the list. -/
theorem Suffix.withNodes {l : RcuList α} {es : List Entry} (h : Suffix l es) (nl : NodeList α)
    (hk : ∀ d ∈ dead es, nl.node d = l.node d) : Suffix { l with toNodeList := nl } es :=
  { h with
    kept := fun d hd => by
      obtain ⟨c, hc⟩ := h.kept d hd
      exact ⟨c, (hk d hd).trans hc⟩ }

/-! ## Locking -/

theorem Stacked.push {l : RcuList α} {live : List (Nat × α)} {zs : List Entry}
    (h : Stacked l live zs) (owner : Bool) (zn : Option Nat) (era : Nat)
    (ho : owner = true → zn = none)
    (hzn : ∀ d, zn = some d → d ∉ ids live ∧ d ∉ dead zs ∧ ∃ c, l.node d = some c ∧ c.deleted = true) :
    Stacked (l.pushZombie owner zn) live (⟨l.zombieCount, owner, zn, era⟩ :: zs) := by
  have hs : Suffix (l.pushZombie owner zn) (⟨l.zombieCount, owner, zn, era⟩ :: zs) := by
    refine h.toSuffix.push (stack_top h.stack) owner zn era ho fun d hd => ?_
    obtain ⟨_, hdead, c, hc, _⟩ := hzn d hd
    exact ⟨hdead, c, hc⟩
  refine ⟨h.nodes, hs.stack, hs.desc, hs.zbound, hs.guards, fun d hd => ?_, fun d hd => ?_, hs.once⟩
  · rcases mem_dead_cons.mp hd with hd | hd
    · exact (hzn d hd).1
    · exact h.apart d hd
  · rcases mem_dead_cons.mp hd with hd | hd
    · exact (hzn d hd).2.2
    · exact h.kept d hd

theorem Frozen.push {l : RcuList α} {live : List (Nat × α)} {zs : List Entry} {e : Entry}
    (h : Frozen l live zs e) (owner : Bool) (zn : Option Nat) (e0 : Entry) :
    Frozen (l.pushZombie owner zn) live (e0 :: zs) e := by
  intro d hd c hc
  obtain ⟨h1, h2⟩ := h d hd c hc
  refine ⟨fun y hy => ⟨(h1 y hy).1, (h1 y hy).2.imp id ?_⟩, h2⟩
  rintro ⟨e', he', hlt, hz⟩
  exact ⟨e', List.mem_cons_of_mem _ he', hlt, hz⟩

/-- The entry that a lock pushes. -/
abbrev guardEntry (l : RcuList α) : Entry := ⟨l.zombieCount, true, none, l.nodeCount⟩

theorem Rep.lock {l : RcuList α} {live : List (Nat × α)} {zs : List Entry}
    (h : Rep l live zs) : Rep (l.rcuReadLock).2 live (l.guardEntry :: zs) :=
  { h.toStacked.push true none l.nodeCount (fun _ => rfl) (by simp) with
    eras := List.pairwise_cons.mpr ⟨fun e he => h.ebound e he, h.eras⟩
    ebound := by
      intro e he
      rcases List.mem_cons.mp he with rfl | he
      · exact Nat.le_refl _
      · exact h.ebound e he
    frozen := by
      intro e he
      rcases List.mem_cons.mp he with rfl | he
      · intro d hd
        cases hd
      · exact (h.frozen e he).push true none _ }

/-! ## Appending -/

theorem pushBack_eq {l : RcuList α} {a : α} {nl : NodeList α}
    (h : l.toNodeList.pushBack a = .ok nl) : l.pushBack a = .ok { l with toNodeList := nl } := by
  simp only [RcuList.pushBack, h, ok_bind]

theorem Rep.pushBack {l : RcuList α} {live : List (Nat × α)} {zs : List Entry}
    (h : Rep l live zs) (a : α) :
    ∃ l', l.pushBack a = .ok l' ∧ Rep l' (live ++ [(l.nodeCount, a)]) zs ∧
      l'.nodeCount = l.nodeCount + 1 ∧ l'.zombieCount = l.zombieCount ∧
      l'.zombie = l.zombie ∧ ∀ m, m ∉ ids live → m ≠ l.nodeCount → l'.node m = l.node m := by
  obtain ⟨nl, hrun, hrep, hcount, hsame⟩ := h.nodes.pushBack a
  have hdlt : ∀ d ∈ dead zs, d < l.nodeCount := by
    intro d hd
    obtain ⟨c, hc, _⟩ := h.kept d hd
    refine Nat.lt_of_not_le fun hge => ?_
    rw [h.nodes.fresh d hge] at hc
    cases hc
  have hsame' : ∀ d ∈ dead zs, nl.node d = l.node d := fun d hd =>
    hsame d (h.apart d hd) (Nat.ne_of_lt (hdlt d hd))
  refine ⟨_, pushBack_eq hrun, ?_, hcount, rfl, rfl, hsame⟩
  refine { nodes := hrep, stack := h.stack, desc := h.desc, zbound := h.zbound
           guards := h.guards, apart := ?_, kept := ?_, once := h.once, eras := h.eras
           ebound := ?_, frozen := ?_ }
  · intro d hd hm
    simp only [ids, List.map_append, List.map_cons, List.map_nil, List.mem_append,
      List.mem_singleton] at hm
    rcases hm with hm | rfl
    · exact h.apart d hd hm
    · exact Nat.lt_irrefl _ (hdlt _ hd)
  · intro d hd
    obtain ⟨c, hc, hdel⟩ := h.kept d hd
    exact ⟨c, (hsame' d hd).trans hc, hdel⟩
  · intro e he
    have := h.ebound e he
    simp only [hcount]
    exact Nat.le_succ_of_le this
  · intro e he d hd c hc
    have hc' : l.node d = some c := (hsame' d (mem_dead.mpr ⟨e, he, hd⟩)).symm.trans hc
    obtain ⟨h1, h2⟩ := h.frozen e he d hd c hc'
    refine ⟨fun y hy => ⟨(h1 y hy).1, (h1 y hy).2.imp ?_ id⟩, ?_⟩
    · intro hy'
      simp [hy']
    · intro m hm hlt
      simp only [ids, List.map_append, List.map_cons, List.map_nil, List.mem_append,
        List.mem_singleton] at hm
      rcases hm with hm | rfl
      · exact h2 m hm hlt
      · exact Or.inl (h.ebound e he)

/-! ## Erasing -/

/-- The unlink of a node of the list, for the whole memory. -/
theorem Stacked.unlink {l : RcuList α} {pre post : List (Nat × α)} {x : Nat × α}
    {zs : List Entry} (h : Stacked l (pre ++ x :: post) zs) :
    ∃ nl c, l.node x.1 = some c ∧ c.data = x.2 ∧ c.next = post.head?.map Prod.fst ∧
      l.toNodeList.unlink x.1 = .ok (c.next, true, nl) ∧
      Stacked { l with toNodeList := nl } (pre ++ post) zs ∧ nl.nodeCount = l.nodeCount ∧
      nl.node x.1 = some { c with deleted := true } ∧
      ∀ m, m ∉ ids (pre ++ x :: post) → nl.node m = l.node m := by
  obtain ⟨nl, c, hc, hdata, _, hnx, _, hrun, hrep, hcount, hnode⟩ := h.nodes.unlink
  obtain ⟨hself, hsame⟩ := h.nodes.listed.unlinked_cells hc
  rw [← hnode] at hself hsame
  have hsub : ∀ m ∈ ids (pre ++ post), m ∈ ids (pre ++ x :: post) := by
    intro m hm
    simp only [ids, List.map_append, List.map_cons, List.mem_append, List.mem_cons] at hm ⊢
    tauto
  refine ⟨nl, c, hc, hdata, hnx, hrun, ?_, hcount, hself, hsame⟩
  refine ⟨hrep, h.stack, h.desc, h.zbound, h.guards, ?_, ?_, h.once⟩
  · exact fun d hd hm => h.apart d hd (hsub d hm)
  · intro d hd
    obtain ⟨c', hc', hdel⟩ := h.kept d hd
    exact ⟨c', (hsame d (h.apart d hd)).trans hc', hdel⟩

/-- The list after `erase` of a node that stands in it: unlinked, and on the stack. -/
def erased (l : RcuList α) (nl : NodeList α) (n : Nat) : RcuList α :=
  ({ l with toNodeList := nl } : RcuList α).pushZombie false (some n)

theorem Rep.erase {l : RcuList α} {pre post : List (Nat × α)} {x : Nat × α}
    {zs : List Entry} (h : Rep l (pre ++ x :: post) zs) :
    ∃ nl c, l.node x.1 = some c ∧ c.data = x.2 ∧ c.next = post.head?.map Prod.fst ∧
      l.toNodeList.unlink x.1 = .ok (c.next, true, nl) ∧ nl.nodeCount = l.nodeCount ∧
      Rep (l.erased nl x.1) (pre ++ post) (⟨l.zombieCount, false, some x.1, l.nodeCount⟩ :: zs) ∧
      nl.node x.1 = some { c with deleted := true } ∧
      ∀ m, m ∉ ids (pre ++ x :: post) → nl.node m = l.node m := by
  obtain ⟨nl, c, hc, hdata, hnx, hrun, hst, hcount, hself, hsame⟩ := h.toStacked.unlink
  have hxlive : x.1 ∈ ids (pre ++ x :: post) := by simp
  have hxd : x.1 ∉ dead zs := fun hd => h.apart _ hd hxlive
  have hxn : x.1 ∉ ids (pre ++ post) := by
    have := h.nodes.nodup
    simp only [ids, List.map_append, List.map_cons, List.nodup_append, List.nodup_cons] at this
    simp only [ids, List.map_append, List.mem_append, not_or]
    exact ⟨fun hm => this.2.2 _ hm x.1 (by simp) rfl, this.2.1.1⟩
  have hin : ∀ m, m ∈ ids (pre ++ x :: post) ↔ m = x.1 ∨ m ∈ ids (pre ++ post) := by
    intro m
    simp only [ids, List.map_append, List.map_cons, List.mem_append, List.mem_cons]
    tauto
  obtain ⟨hnext1, hnext2⟩ := h.nodes.next_of_mem hxlive hc
  refine ⟨nl, c, hc, hdata, hnx, hrun, hcount, ?_, hself, hsame⟩
  refine { hst.push false (some x.1) l.nodeCount (by simp) ?_ with
           eras := ?_, ebound := ?_, frozen := ?_ }
  · rintro d hd
    cases hd
    exact ⟨hxn, hxd, _, hself, rfl⟩
  · exact List.pairwise_cons.mpr ⟨fun e he => h.ebound e he, h.eras⟩
  · intro e he
    simp only [erased, pushZombie, hcount]
    rcases List.mem_cons.mp he with rfl | he
    · exact Nat.le_refl _
    · exact h.ebound e he
  · intro e he
    rcases List.mem_cons.mp he with rfl | he
    · -- the node that was erased now: its pointer is the one it had in the list
      intro d hd c' hc'
      cases hd
      simp only [erased, pushZombie] at hc'
      rw [hself, Option.some.injEq] at hc'
      subst hc'
      refine ⟨fun y hy => ?_, fun m hm hlt => Or.inr ?_⟩
      · obtain ⟨hlt, hy'⟩ := hnext1 y hy
        rcases (hin y).mp hy' with rfl | hy'
        · exact absurd hlt (Nat.lt_irrefl _)
        · exact ⟨hlt, Or.inl hy'⟩
      · exact hnext2 m ((hin m).mpr (Or.inr hm)) hlt
    · -- an older one may lead to the node that was erased now
      intro d hd c' hc'
      have hdd : d ∈ dead zs := mem_dead.mpr ⟨e, he, hd⟩
      simp only [erased, pushZombie] at hc'
      rw [hsame d (h.apart d hdd)] at hc'
      obtain ⟨h1, h2⟩ := h.frozen e he d hd c' hc'
      refine ⟨fun y hy => ⟨(h1 y hy).1, ?_⟩, fun m hm hlt => h2 m ((hin m).mpr (Or.inr hm)) hlt⟩
      rcases (h1 y hy).2 with hy' | ⟨e', he', hlt, hz⟩
      · rcases (hin y).mp hy' with rfl | hy'
        · exact Or.inr ⟨_, List.mem_cons_self, h.zbound e he, rfl⟩
        · exact Or.inl hy'
      · exact Or.inr ⟨e', List.mem_cons_of_mem _ he', hlt, hz⟩

end RcuList

end CsSignal
