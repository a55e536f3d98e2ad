-- What is left of a list that is shared once every handle is idle. Each entry in memory is
-- on the stack and has no owner, and each node is in the list or named by one entry, so
-- the destructor of the list frees all that is there.
import CsSignal.EntrySteps
import CsSignal.Reclaim

namespace CsSignal

open LinkedCells Stamps

/-! ## The second loop of the destructor -/

namespace RcuList

variable {α : Type} {l : RcuList α} {zs : List Entry} {p : Option Nat} {fuel : Nat}

/-- The loop frees a stack without guards, in whatever order its entries were allocated. -/
theorem freeUnowned_all (hs : Stack l.zombie p zs) (ho : ∀ e ∈ zs, e.owner = false)
    (hid : (zs.map Entry.id).Nodup) (hd : (dead zs).Nodup)
    (hn : ∀ d ∈ dead zs, (l.node d).isSome = true) (hf : zs.length ≤ fuel) :
    ∃ l', freeUnowned fuel p l = .ok l' ∧
      (∀ n, l'.node n = if n ∈ dead zs then none else l.node n) ∧
      ∀ z, l'.zombie z = if z ∈ zs.map Entry.id then none else l.zombie z := by
  induction zs generalizing l p fuel with
  | nil =>
    cases hs
    refine ⟨l, ?_, fun n => ?_, fun z => ?_⟩
    · cases fuel <;> rfl
    · simp
    · simp
  | cons e es ih =>
    obtain ⟨rfl, nx, he, hs⟩ := hs
    cases fuel with
    | zero => simp at hf
    | succ fuel =>
      obtain ⟨hids, hids'⟩ := List.nodup_cons.mp hid
      have ho' : e.owner = false := ho e (by simp)
      rw [ho'] at he
      -- the list after the node and the entry were freed
      have hnode : ∃ l1, l.freeZombieNode ⟨nx, false, e.zombieNode⟩ = .ok l1 ∧
          l1.zombie = l.zombie ∧
          ∀ n, l1.node n = if e.zombieNode = some n then none else l.node n := by
        cases hz : e.zombieNode with
        | none => exact ⟨l, rfl, rfl, fun n => by simp⟩
        | some d =>
          obtain ⟨c, hc⟩ := Option.isSome_iff_exists.mp (hn d (mem_dead_cons.mpr (Or.inl hz)))
          refine ⟨{ l with node := Function.update l.node d none }, ?_, rfl, fun n => ?_⟩
          · simp only [freeZombieNode, freeNode, hc]
          · by_cases hnd : n = d
            · subst hnd
              simp
            · have hdn : d ≠ n := Ne.symm hnd
              simp [hnd, hdn]
      obtain ⟨l1, hrun1, hz1, hn1⟩ := hnode
      have he1 : l1.zombie e.id = some ⟨nx, false, e.zombieNode⟩ := by rw [hz1, he]
      let l2 : RcuList α := { l1 with zombie := Function.update l1.zombie e.id none }
      have hrun2 : l1.freeZombie e.id = .ok l2 := by simp only [freeZombie, he1, l2]
      have hs2 : Stack l2.zombie nx es := by
        refine stack_congr (fun e' he' => ?_) hs
        have hne : e'.id ≠ e.id := fun heq => hids (heq ▸ List.mem_map_of_mem he')
        exact (Function.update_of_ne hne _ _).trans (congrFun hz1 _)
      have hd' : (dead es).Nodup := hd.sublist ((List.sublist_cons_self e es).filterMap _)
      have hnot : ∀ d ∈ dead es, e.zombieNode ≠ some d := by
        intro d hmem hz
        rw [dead, List.filterMap_cons_some hz, List.nodup_cons] at hd
        exact hd.1 hmem
      have hn2 : ∀ d ∈ dead es, (l2.node d).isSome = true := by
        intro d hmem
        show (l1.node d).isSome = true
        rw [hn1, if_neg (hnot d hmem)]
        exact hn d (mem_dead_cons.mpr (Or.inr hmem))
      obtain ⟨l', hrun, hnodes, hzombies⟩ :=
        ih hs2 (fun e' he' => ho e' (by simp [he'])) hids' hd' hn2 (by simpa using hf)
      refine ⟨l', ?_, fun n => ?_, fun z => ?_⟩
      · simp only [freeUnowned, derefZombie, he, ok_bind, Bool.false_eq_true, if_false, hrun1,
          hrun2, hrun]
      · rw [hnodes, show l2.node n = l1.node n from rfl, hn1]
        by_cases h1 : n ∈ dead es <;> by_cases h2 : e.zombieNode = some n <;>
          simp only [mem_dead_cons, h1, h2, if_true, if_false, or_true, true_or, or_self]
      · rw [hzombies]
        by_cases h1 : z ∈ es.map Entry.id
        · simp [h1]
        · by_cases h2 : z = e.id
          · subst h2
            simp [l2]
          · have hz2 : l2.zombie z = l.zombie z :=
              (Function.update_of_ne h2 _ _).trans (congrFun hz1 _)
            simp [h1, h2, hz2]

/-- All that is in memory is the nodes `xs` of the list, the entries `zs` of the stack, none
of which a guard owns, and the erased nodes that the entries name, each of them once. -/
structure Inventory (l : RcuList α) (xs : List (Nat × α)) (zs : List Entry) : Prop where
  seg : Seg l.node none l.head xs l.tail none
  nodup : (ids xs).Nodup
  short : (ids xs).length ≤ l.nodeCount
  stack : Stack l.zombie l.zombieHead zs
  unowned : ∀ e ∈ zs, e.owner = false
  entries : (zs.map Entry.id).Nodup
  few : zs.length ≤ l.zombieCount
  once : (dead zs).Nodup
  there : ∀ d ∈ dead zs, (l.node d).isSome = true
  apart : ∀ d ∈ dead zs, d ∉ ids xs
  nodes : ∀ n, (l.node n).isSome = true → n ∈ ids xs ∨ n ∈ dead zs
  zombies : ∀ z, (l.zombie z).isSome = true → z ∈ zs.map Entry.id

/-- The destructor frees all that is there. -/
theorem Inventory.destroy {xs : List (Nat × α)} (I : Inventory l xs zs) :
    ∃ l', l.destroy = .ok l' ∧ (∀ n, l'.node n = none) ∧ ∀ z, l'.zombie z = none := by
  have hfree := freeNodesFrom_spec I.seg I.nodup (by simpa using I.short)
  have hnode : ∀ n, (l.withoutNodes xs).node n = if n ∈ ids xs then none else l.node n :=
    fun n => rfl
  obtain ⟨l', hrun, hnodes, hzombies⟩ := freeUnowned_all (l := l.withoutNodes xs) I.stack I.unowned
    I.entries I.once (fun d hd => by rw [hnode, if_neg (I.apart d hd)]; exact I.there d hd) I.few
  refine ⟨l', ?_, fun n => ?_, fun z => ?_⟩
  · simp only [RcuList.destroy, hfree, ok_bind]
    exact hrun
  · rw [hnodes, hnode]
    cases hn : l.node n with
    | none => simp
    | some c =>
      rcases I.nodes n (by rw [hn]; rfl) with hin | hin
      · simp [hin]
      · simp [hin]
  · rw [hzombies]
    cases hz : l.zombie z with
    | none =>
      rw [show (l.withoutNodes xs).zombie z = l.zombie z from rfl, hz]
      simp
    | some c => rw [if_pos (I.zombies z (by rw [hz]; rfl))]

end RcuList

namespace SharedList

variable {α : Type} {σ σ' : SharedList α} {h : Handle} {e t : Nat} {p : Option Nat}

/-! ## Who has an entry -/

/-- An entry that is not on the stack belongs to a handle, and so does one with an owner. -/
structure Accounted (σ : SharedList α) : Prop where
  unpushed : ∀ e, (σ.list.zombie e).isSome = true → σ.stamp e = none → ∃ h, (σ.phase h).Has e
  owned : ∀ e, σ.Owned e → ∃ h, (σ.phase h).entry = some e

theorem accounted_init : Accounted (init : SharedList α) where
  unpushed _ hz := by cases hz
  owned _ ho := by
    obtain ⟨c, hc, _⟩ := ho
    cases hc

/-- Somebody else's entry stays with who has it. -/
theorem Others.who {P : Phase → Prop} (O : Others σ σ' h) (hP : ∃ h', P (σ.phase h'))
    (hnot : ¬ P (σ.phase h)) : ∃ h', P (σ'.phase h') := by
  obtain ⟨h', hh'⟩ := hP
  have hne : h' ≠ h := by
    rintro rfl
    exact hnot hh'
  exact ⟨h', by rw [O h' hne]; exact hh'⟩

theorem Accounted.step {x : Handle × Event α} (A : Accounted σ) (L : Linked σ)
    (hs : σ.step x = .ok σ') : Accounted σ' := by
  obtain ⟨h, e⟩ := x
  have K := L.safe.stacks hs
  have O := (L.went hs).others
  refine ⟨fun w hw hstamp => ?_, fun w hw => ?_⟩
  · rcases K.unpushed w hw hstamp with hhas | ⟨hnot, hw0, hstamp0⟩
    · exact ⟨h, hhas⟩
    · exact O.who (P := fun p => p.Has w) (A.unpushed w hw0 hstamp0) hnot
  · rcases K.owned w hw with hentry | ⟨hnot, hw0⟩
    · exact ⟨h, hentry⟩
    · exact O.who (P := fun p => p.entry = some w) (A.owned w hw0) hnot

theorem accounted_run {as : List (Handle × Event α)} (hr : Runs.run step init as = .ok σ) :
    Linked σ ∧ Accounted σ :=
  Runs.run_keeps (I := fun σ => Linked σ ∧ Accounted σ)
    (fun _ _ _ ⟨L, A⟩ hs => ⟨L.after hs (L.went hs), A.step L hs⟩) hr ⟨linked_init, accounted_init⟩

/-! ## When every handle is idle -/

/-- The entries that were pushed before some time, from the top. -/
theorem Entries.stack (I : Entries σ) (hidle : ∀ h, σ.phase h = .idle)
    (ho : ∀ e, ¬ σ.Owned e) (hl : Leads σ.Placed t p) :
    ∃ zs : List RcuList.Entry, RcuList.Stack σ.list.zombie p zs ∧
      (∀ e ∈ zs, e.owner = false) ∧ (zs.map RcuList.Entry.id).Nodup ∧
      ∀ w, w ∈ zs.map RcuList.Entry.id ↔ ∃ u, u < t ∧ σ.Placed w u := by
  induction t using Nat.strongRecOn generalizing p with
  | ind t ih =>
    cases p with
    | none =>
      refine ⟨[], rfl, by simp, by simp, fun w => ?_⟩
      constructor
      · intro hw
        cases hw
      · rintro ⟨u, hu, hw⟩
        exact absurd (hl w u hw) (Nat.not_le_of_lt hu)
    | some f =>
      obtain ⟨u, hf, hu, hmax⟩ := hl
      obtain ⟨c, hc⟩ := placed_cell hf
      have hnext := I.chain f c u hc hf.1 fun h hs => by
        rw [hidle h] at hs
        cases hs
      obtain ⟨zs, hstack, howner, hnodup, hmem⟩ := ih u hu hnext
      have hfalse : c.owner = false := by
        rw [← Bool.not_eq_true]
        exact fun htrue => ho f ⟨c, hc, htrue⟩
      refine ⟨⟨f, c.owner, c.zombieNode, 0⟩ :: zs, ⟨rfl, c.next, hc, hstack⟩, ?_, ?_, fun w => ?_⟩
      · rintro e (_ | ⟨_, he⟩)
        · exact hfalse
        · exact howner e he
      · refine List.nodup_cons.mpr ⟨fun hin => ?_, hnodup⟩
        obtain ⟨v, hv, hfv⟩ := (hmem f).mp hin
        obtain rfl := Option.some.inj (hfv.1.symm.trans hf.1)
        exact Nat.lt_irrefl _ hv
      · rw [List.map_cons, List.mem_cons, hmem w]
        constructor
        · rintro (rfl | ⟨v, hv, hw⟩)
          · exact ⟨u, hu, hf⟩
          · exact ⟨v, Nat.lt_trans hv hu, hw⟩
        · rintro ⟨v, hv, hw⟩
          rcases Nat.lt_or_eq_of_le (hmax w v hw hv) with hlt | rfl
          · exact Or.inr ⟨v, hlt, hw⟩
          · exact Or.inl (I.inj w f v hw.1 hf.1)

/-- An entry in memory has been pushed when nobody has a call to finish. -/
theorem Accounted.placed (A : Accounted σ) (I : Entries σ) (hidle : ∀ h, σ.phase h = .idle)
    (he : (σ.list.zombie e).isSome = true) : ∃ u, u < σ.pushes ∧ σ.Placed e u := by
  cases hs : σ.stamp e with
  | some u => exact ⟨u, I.older e u hs, hs, he⟩
  | none =>
    obtain ⟨h, hh⟩ := A.unpushed e he hs
    rw [hidle h] at hh
    rcases hh with hh | ⟨_, hh⟩ <;> cases hh

theorem Accounted.unowned (A : Accounted σ) (hidle : ∀ h, σ.phase h = .idle) (e : Nat) :
    ¬ σ.Owned e := by
  intro he
  obtain ⟨h, hh⟩ := A.owned e he
  rw [hidle h] at hh
  cases hh

/-- Nobody has a call to finish: the nodes are linked as a whole, and the entries name the
rest of them. -/
theorem Accounted.inventory (A : Accounted σ) (L : Linked σ) (hidle : ∀ h, σ.phase h = .idle) :
    ∃ xs zs, RcuList.Inventory σ.list xs zs := by
  obtain ⟨xs, N⟩ := L.safe.nodes
  have I := L.safe.entries
  obtain ⟨zs, hstack, howner, hids, hmem⟩ := I.stack hidle (A.unowned hidle) I.top
  have hwriting : σ.writing = .none := by
    unfold writing
    cases σ.m_write_mutex with
    | none => rfl
    | some h => simp only [hidle h, Phase.job]
  have C := N.chain
  rw [hwriting] at C
  have hcell : ∀ e ∈ zs, ∃ u c, σ.stamp e.id = some u ∧ σ.list.zombie e.id = some c ∧
      c.zombieNode = e.zombieNode := by
    intro e he
    obtain ⟨u, _, hu⟩ := (hmem e.id).mp (List.mem_map_of_mem he)
    obtain ⟨above, below, rfl⟩ := List.append_of_mem he
    obtain ⟨nx, hc, _⟩ := RcuList.stack_entry hstack
    exact ⟨u, _, hu.1, hc, rfl⟩
  have hretires : ∀ e ∈ zs, ∀ d, e.zombieNode = some d → ∃ u, σ.Retires e.id u d := by
    intro e he d hd
    obtain ⟨u, c, hu, hc, hz⟩ := hcell e he
    exact ⟨u, hu, c, hc, hz.trans hd⟩
  have hdead : ∀ d ∈ RcuList.dead zs,
      (σ.list.node d).isSome = true ∧ ∃ t, σ.retired d = some t := by
    intro d hd
    obtain ⟨e, he, hz⟩ := RcuList.mem_dead.mp hd
    obtain ⟨u, hR⟩ := hretires e he d hz
    obtain ⟨hret, hsome | ⟨h, hswept⟩⟩ := N.kept e.id u d hR
    · exact ⟨hsome, u, hret⟩
    · rw [hidle h] at hswept
      cases hswept
  refine ⟨xs, zs, {
    seg := C.shape
    nodup := C.nodup
    short := length_le_of_bound C.nodup fun n hn => Nat.lt_of_not_le fun hle => ?_
    stack := hstack
    unowned := howner
    entries := hids
    few := ?_
    once := ?_
    there := fun d hd => (hdead d hd).1
    apart := fun d hd hlive => ?_
    nodes := fun n hn => ?_
    zombies := fun z hz => (hmem z).mpr (A.placed I hidle hz) }⟩
  · obtain ⟨c, hc⟩ := C.shape.mem_cell hn
    cases (C.bound n hle).1.symm.trans hc
  · rw [← List.length_map RcuList.Entry.id]
    refine length_le_of_bound hids fun w hw => Nat.lt_of_not_le fun hle => ?_
    obtain ⟨u, _, hu⟩ := (hmem w).mp hw
    cases (I.bound w hle).2.symm.trans hu.1
  · refine List.pairwise_filterMap.mpr ?_
    refine (List.pairwise_map.mp hids).imp_of_mem fun {e e'} he he' hne d hd d' hd' heq => hne ?_
    obtain ⟨u, hR⟩ := hretires e he d hd
    obtain ⟨u', hR'⟩ := hretires e' he' d' hd'
    -- a node is retired by one push
    subst heq
    obtain rfl := Option.some.inj ((N.kept _ _ _ hR).1.symm.trans (N.kept _ _ _ hR').1)
    exact I.inj _ _ _ hR.1 hR'.1
  · obtain ⟨_, t, ht⟩ := hdead d hd
    cases (C.live d hlive).symm.trans ht
  · obtain ⟨c, hc⟩ := Option.isSome_iff_exists.mp hn
    rcases C.cover n c hc with hin | hpending | hret
    · exact Or.inl hin
    · cases hpending
    · obtain ⟨t, ht⟩ := Option.isSome_iff_exists.mp hret
      obtain ⟨e, hstamp, cz, hcz, hzn⟩ := N.found n t hn ht
      have hin := (hmem e).mpr ⟨t, I.older e t hstamp, hstamp, by rw [hcz]; rfl⟩
      obtain ⟨E, hE, rfl⟩ := List.mem_map.mp hin
      obtain ⟨u, cE, _, hcE, hzE⟩ := hcell E hE
      obtain rfl := Option.some.inj (hcE.symm.trans hcz)
      exact Or.inr (RcuList.mem_dead.mpr ⟨E, hE, hzE.symm.trans hzn⟩)

/-- Whatever the handles did, and in whatever order they went on: when all of them are idle
again, the destructor of the list frees every node and every entry that is there, none of
them twice. All allocations succeed. -/
theorem destroy_frees_all {as : List (Handle × Event α)}
    (hr : Runs.run step init as = .ok σ) (hidle : ∀ h, σ.phase h = .idle) :
    ∃ l, σ.list.destroy = .ok l ∧ (∀ n, l.node n = none) ∧ ∀ e, l.zombie e = none := by
  obtain ⟨L, A⟩ := accounted_run hr
  obtain ⟨xs, zs, I⟩ := A.inventory L hidle
  exact I.destroy

/-- The reader of an erased node goes last, and leaves the node to the destructor. -/
def readerLast : List (Handle × Event Nat) :=
  erasedUnderReader ++ (1, .unlock) :: List.replicate 8 (1, .go)

theorem readerLast_run : Runs.run step init readerLast = .ok (Runs.reached step init readerLast) :=
  Runs.run_reached (by decide +kernel)

theorem destroy_frees_all_readerLast :
    ((Runs.reached step init readerLast).list.node 0).isSome = true ∧
      ∃ l, (Runs.reached step init readerLast).list.destroy = .ok l ∧ l.node 0 = none := by
  have hidle : ∀ h, (Runs.reached step init readerLast).phase h = .idle := fun h => by
    match h with
    | 0 | 1 | h + 2 => rfl
  obtain ⟨l, hrun, hnodes, _⟩ :=
    destroy_frees_all readerLast_run hidle
  exact ⟨by decide +kernel, l, hrun, hnodes 0⟩

end SharedList

end CsSignal
