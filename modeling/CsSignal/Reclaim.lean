-- Reclamation, one call at a time: what `unlock` of a guard frees, what the
-- destructor of a list frees, and that neither meets a cell that is gone.
import CsSignal.RcuSpec

namespace CsSignal

open LinkedCells

namespace RcuList

variable {α : Type}

/-! ## The two loops of `unlock` -/

theorem scanLast_spec {l : RcuList α} {es : List Entry} {p : Option Nat} {fuel : Nat}
    (hs : Stack l.zombie p es) (hf : es.length ≤ fuel) :
    l.scanLast fuel p = .ok (!es.any (·.owner)) := by
  induction es generalizing p fuel with
  | nil =>
    cases hs
    cases fuel <;> rfl
  | cons e es ih =>
    obtain ⟨rfl, nx, he, hs⟩ := hs
    cases fuel with
    | zero => simp at hf
    | succ fuel =>
      simp only [scanLast, derefZombie, he, ok_bind]
      by_cases ho : e.owner = true
      · simp [ho]
      · rw [if_neg ho, ih hs (by simpa using hf)]
        simp [ho]

/-- The list without the entries `es` and the nodes that they keep. -/
def released (l : RcuList α) (es : List Entry) : RcuList α :=
  { l with
    node := fun n => if n ∈ dead es then none else l.node n
    zombie := fun z => if z ∈ es.map Entry.id then none else l.zombie z }

theorem released_nil (l : RcuList α) : l.released [] = l := by simp [released]

/-- The list without one entry, and without its node. -/
def freed (l : RcuList α) (e : Entry) : RcuList α :=
  { l with
    node := match e.zombieNode with
      | some d => Function.update l.node d none
      | none => l.node
    zombie := Function.update l.zombie e.id none }

theorem released_cons (l : RcuList α) (e : Entry) (es : List Entry) :
    (l.freed e).released es = l.released (e :: es) := by
  have hz : (fun z => if z ∈ es.map Entry.id then none else Function.update l.zombie e.id none z) =
      fun z => if z ∈ (e :: es).map Entry.id then none else l.zombie z := by
    funext z
    by_cases h1 : z ∈ es.map Entry.id
    · rw [if_pos h1, if_pos (by simp only [List.map_cons, List.mem_cons]; exact Or.inr h1)]
    · by_cases h2 : z = e.id
      · subst h2; simp
      · have h3 : z ∉ (e :: es).map Entry.id := by
          simp only [List.map_cons, List.mem_cons, not_or]; exact ⟨h2, h1⟩
        rw [if_neg h1, if_neg h3, Function.update_of_ne h2]
  have hn : (fun n => if n ∈ dead es then none else (l.freed e).node n) =
      fun n => if n ∈ dead (e :: es) then none else l.node n := by
    funext n
    cases hz : e.zombieNode with
    | none => simp [freed, dead, hz]
    | some d =>
      by_cases h1 : n ∈ dead es
      · rw [if_pos h1, if_pos (by simp only [dead, List.filterMap_cons, hz]; exact List.mem_cons_of_mem _ h1)]
      · by_cases h2 : n = d
        · subst h2; simp [freed, dead, hz]
        · have h3 : n ∉ dead (e :: es) := by
            simp only [dead, List.filterMap_cons, hz, List.mem_cons, not_or]
            exact ⟨h2, h1⟩
          rw [if_neg h1, if_neg h3]
          simp [freed, hz, Function.update_of_ne h2]
  unfold released
  congr 1
  exact congrArg (fun f => ({ l.toNodeList with node := f } : NodeList α)) hn

/-- Freeing the first entry of a part of the stack. -/
theorem Suffix.freeFirst {l : RcuList α} {e : Entry} {es : List Entry} (h : Suffix l (e :: es)) :
    (do let l ← l.freeZombieNode ⟨es.head?.map Entry.id, e.owner, e.zombieNode⟩
        l.freeZombie e.id) = .ok (l.freed e) ∧ Suffix (l.freed e) es := by
  obtain ⟨_, nx, he, hs⟩ := h.stack
  have hdis : ∀ e' ∈ es, e'.id ≠ e.id := fun e' he' =>
    Nat.ne_of_lt ((List.pairwise_cons.mp h.desc).1 e' he')
  constructor
  · cases hz : e.zombieNode with
    | none => simp [freeZombieNode, ok_bind, freeZombie, he, freed, hz]
    | some d =>
      obtain ⟨c, hc⟩ := h.kept d (by simp [dead, hz])
      simp [freeZombieNode, freeNode, hc, ok_bind, freeZombie, he, freed, hz]
  · have ht := h.tail
    refine ⟨?_, ht.desc, ht.zbound, ht.guards, ?_, ht.once⟩
    · exact stack_congr (fun e' he' => Function.update_of_ne (hdis e' he') _ _) ht.stack
    · intro d hd
      obtain ⟨c, hc⟩ := ht.kept d hd
      refine ⟨c, ?_⟩
      cases hz : e.zombieNode with
      | none => simpa [freed, hz] using hc
      | some x =>
        have hx : x ∉ dead es := by
          have := h.once
          simp only [dead, List.filterMap_cons, hz, List.nodup_cons] at this
          exact this.1
        have hne : d ≠ x := fun hdx => hx (hdx ▸ hd)
        simpa [freed, hz, Function.update_of_ne hne] using hc

theorem freeFrom_spec {l : RcuList α} {es : List Entry} {fuel : Nat} (h : Suffix l es)
    (hf : es.length ≤ fuel) :
    freeFrom fuel (es.head?.map Entry.id) l = .ok (l.released es) := by
  induction es generalizing l fuel with
  | nil =>
    rw [released_nil]
    cases fuel <;> rfl
  | cons e es ih =>
    cases fuel with
    | zero => simp at hf
    | succ fuel =>
      obtain ⟨_, nx, he, hs⟩ := h.stack
      obtain ⟨hrun, hsuf⟩ := h.freeFirst
      have hnx : nx = es.head?.map Entry.id := stack_top hs
      subst hnx
      have := ih hsuf (by simpa using hf)
      simp only [List.head?_cons, Option.map_some, freeFrom, derefZombie, he, ok_bind]
      rw [← released_cons, ← this]
      simp only [← bind_assoc, hrun, ok_bind]

/-! ## `unlock` -/

/-- The entries after the unlock of the guard `e`. -/
abbrev unlockedEntries (e : Entry) (below : List Entry) : List Entry :=
  { e with owner := false } :: if below.any (·.owner) then below else []

theorem Suffix.unlock {l : RcuList α} {e : Entry} {below : List Entry}
    (h : Suffix l (e :: below)) (ho : e.owner = true) :
    ∃ l', l.unlock e.id = .ok l' ∧ Suffix l' (unlockedEntries e below) ∧
      (∃ nx, l'.zombie e.id = some ⟨nx, false, none⟩ ∧
        Stack l'.zombie nx (if below.any (·.owner) then below else [])) ∧
      (∀ z, z ≠ e.id → z ∉ below.map Entry.id → l'.zombie z = l.zombie z) ∧
      l'.zombieHead = l.zombieHead ∧ l'.zombieCount = l.zombieCount ∧
      l'.toNodeList = { l.toNodeList with
        node := fun n => if below.any (·.owner) = false ∧ n ∈ dead below then none else l.node n } := by
  obtain ⟨_, nx, he, hs⟩ := h.stack
  have hg : e.zombieNode = none := h.guards e (by simp) ho
  have hnx : nx = below.head?.map Entry.id := stack_top hs
  have hlen : below.length ≤ l.zombieCount := h.tail.length_le
  have hbelow : ∀ e' ∈ below, e'.id ≠ e.id := fun e' he' =>
    Nat.ne_of_lt ((List.pairwise_cons.mp h.desc).1 e' he')
  have hscan := scanLast_spec (l := l) hs hlen
  by_cases hb : below.any (·.owner) = true
  · -- an older guard is active: only the owner is cleared
    refine ⟨{ l with zombie := Function.update l.zombie e.id (some ⟨nx, false, none⟩) }, ?_, ?_,
      ⟨nx, Function.update_self _ _ _, ?_⟩, fun z hz _ => Function.update_of_ne hz _ _, rfl, rfl, ?_⟩
    · simp only [RcuList.unlock, derefZombie, he, ok_bind, hscan, hb, Bool.not_true,
        Bool.false_eq_true, if_false, writeZombie, hg]
    · simp only [unlockedEntries, hb, if_true]
      refine ⟨⟨rfl, nx, by simp [hg], ?_⟩, ?_, ?_, ?_, ?_, ?_⟩
      · exact stack_congr (fun e' he' => Function.update_of_ne (hbelow e' he') _ _) hs
      · exact List.pairwise_cons.mpr (List.pairwise_cons.mp h.desc)
      · intro e' he'
        rcases List.mem_cons.mp he' with rfl | he'
        · exact h.zbound e (by simp)
        · exact h.zbound e' (by simp [he'])
      · intro e' he' ho'
        rcases List.mem_cons.mp he' with rfl | he'
        · exact hg
        · exact h.guards e' (by simp [he']) ho'
      · intro d hd
        exact h.kept d (by simpa [dead, hg] using hd)
      · simpa [dead, hg] using h.tail.once
    · rw [if_pos hb]
      exact stack_congr (fun e' he' => Function.update_of_ne (hbelow e' he') _ _) hs
    · simp [hb]
  · -- no older guard is active: the entries below are freed
    have hb' : below.any (·.owner) = false := by simpa using hb
    have hfree := freeFrom_spec h.tail hlen
    rw [← hnx] at hfree
    have heid : e.id ∉ below.map Entry.id := by
      intro hm
      obtain ⟨e', he', hid⟩ := List.mem_map.mp hm
      exact hbelow e' he' hid
    have hez : (l.released below).zombie e.id = some ⟨nx, true, none⟩ := by
      rw [← ho, ← hg, ← he]
      exact if_neg heid
    refine ⟨{ l.released below with
        zombie := Function.update (l.released below).zombie e.id (some ⟨none, false, none⟩) }, ?_, ?_,
      ⟨none, Function.update_self _ _ _, ?_⟩, ?_, rfl, rfl, ?_⟩
    · simp only [RcuList.unlock, derefZombie, he, ok_bind, hscan, hb', Bool.not_false, if_true,
        hfree, writeZombie, hez, Function.update_self, Function.update_idem]
    · simp only [unlockedEntries, hb', Bool.false_eq_true, if_false]
      refine ⟨⟨rfl, none, by simp [hg], rfl⟩, List.pairwise_singleton _ _, ?_, ?_, ?_, ?_⟩
      · intro e' he'
        simp only [List.mem_singleton] at he'
        subst he'
        exact h.zbound e (by simp)
      · intro e' he' _
        simp only [List.mem_singleton] at he'
        subst he'
        exact hg
      · simp [dead, hg]
      · simp [dead, hg]
    · rw [if_neg hb]
      rfl
    · intro z hz hzb
      exact (Function.update_of_ne hz _ _).trans (if_neg hzb)
    · simp [released, hb']

/-- The last guard frees the entries below its own. -/
theorem Suffix.unlock_last {l l' : RcuList α} {e : Entry} {below : List Entry}
    (h : Suffix l (e :: below)) (hb : below.any (·.owner) = false)
    (hrun : l.unlock e.id = .ok l') : ∀ z ∈ below.map Entry.id, l'.zombie z = none := by
  obtain ⟨_, nx, he, hs⟩ := h.stack
  have hnx : nx = below.head?.map Entry.id := stack_top hs
  have hid : ∀ z ∈ below.map Entry.id, z ≠ e.id := by
    rintro z hz rfl
    obtain ⟨e', he', hid⟩ := List.mem_map.mp hz
    exact (Nat.ne_of_lt ((List.pairwise_cons.mp h.desc).1 e' he')) hid
  have hlen : below.length ≤ l.zombieCount := h.tail.length_le
  have hscan := scanLast_spec (l := l) hs hlen
  have hfree := freeFrom_spec h.tail hlen
  rw [← hnx] at hfree
  have hez : (l.released below).zombie e.id = some ⟨nx, e.owner, e.zombieNode⟩ := by
    rw [← he]
    exact if_neg fun hm => hid _ hm rfl
  simp only [RcuList.unlock, derefZombie, he, ok_bind, hscan, hb, Bool.not_false, if_true,
    hfree, writeZombie, hez, Function.update_self, Function.update_idem, Except.ok.injEq] at hrun
  rintro z hz
  rw [← hrun]
  exact (Function.update_of_ne (hid z hz) _ _).trans (if_pos hz)

/-- The entries that the unlock of the guard `e` leaves keep no other nodes. -/
theorem dead_unlocked {above below : List Entry} {e : Entry} {d : Nat} (hg : e.zombieNode = none)
    (hn : (dead (above ++ e :: below)).Nodup) (hd : d ∈ dead (above ++ unlockedEntries e below)) :
    d ∈ dead (above ++ e :: below) ∧ (below.any (·.owner) = false → d ∉ dead below) := by
  simp only [dead, List.filterMap_append, List.filterMap_cons, hg, List.mem_append,
    List.nodup_append] at hd hn ⊢
  rcases hd with hd | hd
  · exact ⟨Or.inl hd, fun _ hb => hn.2.2 d hd d hb rfl⟩
  · by_cases hb : below.any (·.owner) = true
    · rw [if_pos hb] at hd
      exact ⟨Or.inr hd, fun hb' => by rw [hb] at hb'; cases hb'⟩
    · rw [if_neg hb] at hd
      cases hd

/-- The unlock of a guard that has entries above its own. -/
theorem Suffix.unlock_at {l : RcuList α} {above below : List Entry} {e : Entry}
    (h : Suffix l (above ++ e :: below)) (ho : e.owner = true) :
    ∃ l', l.unlock e.id = .ok l' ∧ Suffix l' (above ++ unlockedEntries e below) ∧
      (below.any (·.owner) = false → ∀ z ∈ below.map Entry.id, l'.zombie z = none) ∧
      (∀ z, z ≠ e.id → z ∉ below.map Entry.id → l'.zombie z = l.zombie z) ∧
      l'.zombieHead = l.zombieHead ∧ l'.zombieCount = l.zombieCount ∧
      l'.toNodeList = { l.toNodeList with
        node := fun n => if below.any (·.owner) = false ∧ n ∈ dead below then none else l.node n } := by
  obtain ⟨l', hrun, hsuf, hzs, hz, hhead, hcount, hnode⟩ := h.drop.unlock ho
  have hg : e.zombieNode = none := h.guards e (by simp) ho
  have hdesc := List.pairwise_append.mp h.desc
  refine ⟨l', hrun, ⟨?_, ?_, ?_, ?_, ?_, ?_⟩, fun hb => h.drop.unlock_last hb hrun, hz, hhead,
    hcount, hnode⟩
  · have htop : (above ++ unlockedEntries e below).head?.map Entry.id =
        (above ++ e :: below).head?.map Entry.id := by cases above <;> rfl
    rw [htop]
    refine stack_replace h.stack rfl (fun a ha => hz a.id ?_ ?_) (by simpa [hg] using hzs)
    · exact (Nat.ne_of_lt (hdesc.2.2 a ha e (by simp))).symm
    · intro hm
      obtain ⟨e', he', hid⟩ := List.mem_map.mp hm
      exact Nat.ne_of_lt (hdesc.2.2 a ha e' (by simp [he'])) hid
  · refine List.pairwise_append.mpr ⟨hdesc.1, hsuf.desc, ?_⟩
    intro a ha b hb
    rcases List.mem_cons.mp hb with rfl | hb
    · exact hdesc.2.2 a ha e (by simp)
    · split at hb
      · exact hdesc.2.2 a ha b (by simp [hb])
      · cases hb
  · intro e' he'
    rw [hcount]
    rcases List.mem_append.mp he' with he' | he'
    · exact h.zbound e' (by simp [he'])
    · exact hcount ▸ hsuf.zbound e' he'
  · intro e' he' ho'
    rcases List.mem_append.mp he' with he' | he'
    · exact h.guards e' (by simp [he']) ho'
    · exact hsuf.guards e' he' ho'
  · intro d hd
    obtain ⟨hd, hdb⟩ := dead_unlocked hg h.once hd
    obtain ⟨c, hc⟩ := h.kept d hd
    refine ⟨c, ?_⟩
    rw [hnode]
    exact (if_neg fun hb => hdb hb.1 hb.2).trans hc
  · have honce := h.once
    simp only [dead, List.filterMap_append, List.filterMap_cons, hg] at honce ⊢
    split
    · exact honce
    · simpa using (List.nodup_append.mp honce).1

theorem Stacked.unlock {l : RcuList α} {live : List (Nat × α)} {above below : List Entry}
    {e : Entry} (h : Stacked l live (above ++ e :: below)) (ho : e.owner = true) :
    ∃ l', l.unlock e.id = .ok l' ∧ Stacked l' live (above ++ unlockedEntries e below) ∧
      l'.zombieCount = l.zombieCount ∧
      l'.toNodeList = { l.toNodeList with
        node := fun n => if below.any (·.owner) = false ∧ n ∈ dead below then none else l.node n } := by
  obtain ⟨l', hrun, hsuf, _, _, hhead, hcount, hnode⟩ := h.toSuffix.unlock_at ho
  have hg : e.zombieNode = none := h.guards e (by simp) ho
  have hsame : ∀ n, (below.any (·.owner) = false → n ∉ dead below) → l'.node n = l.node n := by
    intro n hn
    rw [hnode]
    exact if_neg fun hb => hn hb.1 hb.2
  have hlive : ∀ n ∈ ids live, l'.node n = l.node n := fun n hn => by
    refine hsame n fun _ hd => h.apart n ?_ hn
    simp only [dead, List.filterMap_append, List.filterMap_cons, hg, List.mem_append]
    exact Or.inr hd
  refine ⟨l', hrun, ⟨?_, ?_, hsuf.desc, hsuf.zbound, hsuf.guards, ?_, ?_, hsuf.once⟩, hcount, hnode⟩
  · refine ⟨?_, h.nodes.sorted, ?_, ?_⟩
    · have : l'.head = l.head ∧ l'.tail = l.tail := by rw [hnode]; exact ⟨rfl, rfl⟩
      rw [this.1, this.2]
      exact seg_congr hlive h.nodes.seg
    · intro n hn
      rw [hnode]
      exact h.nodes.bound n hn
    · intro n hn
      have hn' : l.nodeCount ≤ n := by rw [hnode] at hn; exact hn
      rw [hnode]
      simp only [h.nodes.fresh n hn', ite_self]
  · have htop : l'.zombieHead = (above ++ unlockedEntries e below).head?.map Entry.id := by
      rw [hhead, stack_top h.stack]
      cases above <;> rfl
    rw [htop]
    exact hsuf.stack
  · exact fun d hd => h.apart d (dead_unlocked hg h.once hd).1
  · intro d hd
    obtain ⟨hd, hdb⟩ := dead_unlocked hg h.once hd
    obtain ⟨c, hc, hdel⟩ := h.kept d hd
    exact ⟨c, (hsame d hdb).trans hc, hdel⟩

/-- An unlock frees only what is older than its own entry, and nothing while
an older guard is active. -/
theorem Rep.unlock {l : RcuList α} {live : List (Nat × α)} {above below : List Entry}
    {e : Entry} (h : Rep l live (above ++ e :: below)) (ho : e.owner = true) :
    ∃ l', l.unlock e.id = .ok l' ∧ Rep l' live (above ++ unlockedEntries e below) ∧
      l'.zombieCount = l.zombieCount ∧
      l'.toNodeList = { l.toNodeList with
        node := fun n => if below.any (·.owner) = false ∧ n ∈ dead below then none else l.node n } := by
  obtain ⟨l', hrun, hst, hcount, hnode⟩ := h.toStacked.unlock ho
  have hg : e.zombieNode = none := h.guards e (by simp) ho
  have hnc : l'.nodeCount = l.nodeCount := by rw [hnode]
  have hmem : ∀ e' ∈ above ++ unlockedEntries e below,
      (e' = { e with owner := false } ∨ e' ∈ above ++ e :: below) := by
    intro e' he'
    simp only [unlockedEntries, List.mem_append, List.mem_cons] at he' ⊢
    rcases he' with he' | rfl | he'
    · exact Or.inr (Or.inl he')
    · exact Or.inl rfl
    · split at he'
      · exact Or.inr (Or.inr (Or.inr he'))
      · cases he'
  refine ⟨l', hrun, { hst with eras := ?_, ebound := ?_, frozen := ?_ }, hcount, hnode⟩
  · have her := h.eras
    simp only [List.pairwise_append, List.pairwise_cons] at her ⊢
    obtain ⟨h1, ⟨h2, h3⟩, h4⟩ := her
    refine ⟨h1, ⟨?_, ?_⟩, ?_⟩
    · intro b hb
      split at hb
      · exact h2 b hb
      · cases hb
    · split
      · exact h3
      · exact .nil
    · intro a ha b hb
      rcases List.mem_cons.mp hb with rfl | hb
      · exact h4 a ha e (by simp)
      · split at hb
        · exact h4 a ha b (by simp [hb])
        · cases hb
  · intro e' he'
    rw [hnc]
    rcases hmem e' he' with rfl | he'
    · exact h.ebound e (by simp)
    · exact h.ebound e' he'
  · intro e' he' d hd c hc
    have he : e' ∈ above ++ e :: below := by
      rcases hmem e' he' with rfl | he'
      · simp [hg] at hd
      · exact he'
    have hc' : l.node d = some c := by
      rw [hnode] at hc
      simp only at hc
      split at hc
      · cases hc
      · exact hc
    obtain ⟨h1, h2⟩ := h.frozen e' he d hd c hc'
    refine ⟨fun y hy => ⟨(h1 y hy).1, (h1 y hy).2.imp id ?_⟩, h2⟩
    rintro ⟨e2, he2, hlt, hz⟩
    refine ⟨e2, ?_, hlt, hz⟩
    -- the later entry lies above the guard, or the entries below it stay
    simp only [unlockedEntries, List.mem_append, List.mem_cons] at he' he2 ⊢
    rcases he2 with he2 | rfl | he2
    · exact Or.inl he2
    · simp [hg] at hz
    · by_cases hb : below.any (·.owner) = true
      · simp only [hb, if_true]
        exact Or.inr (Or.inr he2)
      · have hdesc := h.desc
        simp only [List.pairwise_append, List.pairwise_cons] at hdesc
        simp only [hb, if_false, List.not_mem_nil, or_false, Bool.false_eq_true] at he'
        rcases he' with he' | rfl
        · exact absurd hlt (Nat.not_lt.mpr (Nat.le_of_lt (hdesc.2.2 e' he' e2 (by simp [he2]))))
        · simp [hg] at hd

/-! ## The destructor of a list -/

/-- The list without its nodes `live`. -/
def withoutNodes (l : RcuList α) (live : List (Nat × α)) : RcuList α :=
  { l with node := fun n => if n ∈ ids live then none else l.node n }

theorem freeNodesFrom_spec {l : RcuList α} {live : List (Nat × α)} {b p q : Option Nat}
    {fuel : Nat} (hs : Seg l.node b p live q none) (hn : (ids live).Nodup)
    (hf : live.length ≤ fuel) : freeNodesFrom fuel p l = .ok (l.withoutNodes live) := by
  induction live generalizing l b p fuel with
  | nil =>
    obtain ⟨_, rfl⟩ := hs
    have : l.withoutNodes [] = l := by simp [withoutNodes]
    rw [this]
    cases fuel <;> rfl
  | cons x xs ih =>
    obtain ⟨rfl, nx, hx, hs⟩ := hs
    cases fuel with
    | zero => simp at hf
    | succ fuel =>
      have hxs : x.1 ∉ ids xs := (List.nodup_cons.mp hn).1
      let l1 : RcuList α := { l with node := Function.update l.node x.1 none }
      have hs1 : Seg l1.node (some x.1) nx xs q none :=
        seg_congr (fun n hn' => Function.update_of_ne (fun he : n = x.1 => hxs (he ▸ hn')) _ _) hs
      have hrec := ih hs1 (List.nodup_cons.mp hn).2 (by simpa using hf)
      have hnode : (l1.withoutNodes xs).node = (l.withoutNodes (x :: xs)).node := by
        funext n
        simp only [withoutNodes, l1, ids, List.map_cons, List.mem_cons]
        by_cases h1 : n ∈ xs.map Prod.fst
        · rw [if_pos h1, if_pos (Or.inr h1)]
        · by_cases h2 : n = x.1
          · subst h2; simp
          · rw [if_neg h1, if_neg (by simp only [not_or]; exact ⟨h2, h1⟩), Function.update_of_ne h2]
      simp only [freeNodesFrom, NodeList.deref, hx, ok_bind, freeNode]
      rw [show l.withoutNodes (x :: xs) = l1.withoutNodes xs by
        simp only [withoutNodes] at hnode ⊢; rw [← hnode]]
      exact hrec

theorem freeUnowned_spec {l : RcuList α} {es : List Entry} {fuel : Nat} (h : Suffix l es)
    (hf : es.length ≤ fuel) :
    freeUnowned fuel (es.head?.map Entry.id) l = .ok (l.released (es.takeWhile fun e => !e.owner)) ∧
      Suffix (l.released (es.takeWhile fun e => !e.owner)) (es.dropWhile fun e => !e.owner) := by
  induction es generalizing l fuel with
  | nil =>
    simp only [List.takeWhile_nil, List.dropWhile_nil, released_nil]
    refine ⟨?_, h⟩
    cases fuel <;> rfl
  | cons e es ih =>
    cases fuel with
    | zero => simp at hf
    | succ fuel =>
      obtain ⟨_, nx, he, hs⟩ := h.stack
      simp only [List.head?_cons, Option.map_some, freeUnowned, derefZombie, he, ok_bind]
      by_cases ho : e.owner = true
      · simp only [ho, if_true, List.takeWhile_cons, List.dropWhile_cons, Bool.not_true,
          Bool.false_eq_true, if_false, released_nil]
        exact ⟨trivial, h⟩
      · have ho' : e.owner = false := by simpa using ho
        obtain ⟨hrun, hsuf⟩ := h.freeFirst
        have hnx : nx = es.head?.map Entry.id := stack_top hs
        subst hnx
        obtain ⟨hrec, hsuf'⟩ := ih hsuf (by simpa using hf)
        rw [if_neg ho]
        simp only [List.takeWhile_cons, List.dropWhile_cons, ho', Bool.not_false, if_true]
        rw [← released_cons]
        refine ⟨?_, hsuf'⟩
        rw [← hrec, ho'] at *
        rw [ho'] at hrun
        simp only [← bind_assoc, hrun, ok_bind]

/-- The destructor frees the nodes of the list, and of the stack the entries
above the first active guard. -/
theorem Stacked.destroy {l : RcuList α} {live : List (Nat × α)} {zs : List Entry}
    (h : Stacked l live zs) :
    ∃ l', l.destroy = .ok l' ∧ Suffix l' (zs.dropWhile fun e => !e.owner) ∧
      ∀ n, l'.node n =
        if n ∈ ids live ∨ n ∈ dead (zs.takeWhile fun e => !e.owner) then none else l.node n := by
  have hfree := freeNodesFrom_spec h.nodes.seg h.nodes.nodup h.nodes.length_le
  have hsuf : Suffix (l.withoutNodes live) zs := by
    have h0 := h.toSuffix
    refine ⟨h0.stack, h0.desc, h0.zbound, h0.guards, fun d hd => ?_, h0.once⟩
    obtain ⟨c, hc⟩ := h0.kept d hd
    exact ⟨c, by simp [withoutNodes, h.apart d hd, hc]⟩
  have hp : l.zombieHead = zs.head?.map Entry.id := stack_top h.stack
  obtain ⟨hrun, hsuf'⟩ := freeUnowned_spec hsuf (h.toSuffix).length_le
  refine ⟨_, ?_, hsuf', ?_⟩
  · simp only [RcuList.destroy, hfree, ok_bind]
    rw [← hrun, ← hp]
    rfl
  · intro n
    simp only [released, withoutNodes]
    by_cases h1 : n ∈ ids live <;> by_cases h2 : n ∈ dead (zs.takeWhile fun e => !e.owner) <;>
      simp only [h1, h2, if_true, if_false, or_self, or_true, or_false]

end RcuList

end CsSignal
