-- Reclamation makes progress. An unlock frees all that is older than its guard when
-- no guard that was locked before it is still active, and nothing when one is.
import CsSignal.ListRuns

namespace CsSignal

open LinkedCells RcuList

variable {α : Type}

/-! ## The stack around a guard -/

/-- The stack of `v`, split at an active guard that was locked in the view `v0`. -/
structure SplitAt (v0 v : View α) (above below : List Entry) (e : Entry) : Prop where
  entries : v.entries = above ++ e :: below
  owner : e.owner = true
  id : e.id = v0.zombieCount
  above : ∀ e' ∈ above, v0.zombieCount < e'.id
  below : ∀ e' ∈ below, ∃ e0 ∈ v0.entries, Was e' e0

theorem Changes.split {v0 v : View α} {cs : List (ListCall α)} (h : Changes v0 cs v)
    (hs : v.Sound) (hg : v0.zombieCount ∈ owned v.entries) :
    ∃ above below e, SplitAt v0 v above below e := by
  obtain ⟨e, he, hid⟩ := List.mem_map.mp hg
  obtain ⟨he, ho⟩ := List.mem_filter.mp he
  obtain ⟨above, below, hv⟩ := List.append_of_mem he
  have hdesc := hs.desc
  rw [hv] at hdesc
  simp only [List.pairwise_append, List.pairwise_cons] at hdesc
  refine ⟨above, below, e, hv, ho, hid, fun e' he' => ?_, fun e' he' => ?_⟩
  · have := hdesc.2.2 e' he' e (by simp)
    omega
  · refine (h.entry (e := e') (by simp [hv, he'])).resolve_right fun hnew => ?_
    have := hdesc.2.1.1 e' he'
    omega

namespace SplitAt

variable {v0 v : View α} {above below : List Entry} {e : Entry}

/-- What is older than the guard stands below its entry. -/
theorem mem_below (h : SplitAt v0 v above below e) {e' : Entry} (he' : e' ∈ v.entries)
    (hlt : e'.id < v0.zombieCount) : e' ∈ below := by
  rw [h.entries] at he'
  rcases List.mem_append.mp he' with he' | he'
  · have := h.above e' he'
    omega
  · rcases List.mem_cons.mp he' with rfl | he'
    · have := h.id
      omega
    · exact he'

/-- A guard below the entry is one that was locked before, and is still active. -/
theorem any_owner (h : SplitAt v0 v above below e) (hs : v0.Sound) :
    below.any (·.owner) = true ↔ ∃ o ∈ owned v0.entries, o ∈ owned v.entries := by
  rw [List.any_eq_true]
  constructor
  · rintro ⟨e', he', ho⟩
    obtain ⟨e0, he0, hw⟩ := h.below e' he'
    refine ⟨e0.id, List.mem_map_of_mem (List.mem_filter.mpr ⟨he0, hw.owner ho⟩), ?_⟩
    rw [hw.id]
    exact List.mem_map_of_mem (List.mem_filter.mpr ⟨by simp [h.entries, he'], ho⟩)
  · rintro ⟨o, ho0, ho⟩
    obtain ⟨e0, he0, rfl⟩ := List.mem_map.mp ho0
    obtain ⟨e', he', hid⟩ := List.mem_map.mp ho
    obtain ⟨he', hown⟩ := List.mem_filter.mp he'
    have hlt : e'.id < v0.zombieCount := hid ▸ hs.zbound e0 (List.mem_filter.mp he0).1
    exact ⟨e', h.mem_below he' hlt, hown⟩

end SplitAt

/-! ## One unlock -/

/-- While an older guard is active, the unlock frees nothing. -/
structure FreesNothing (l l' : RcuList α) : Prop where
  node : l'.node = l.node
  zombie : ∀ z, (l'.zombie z).isSome = (l.zombie z).isSome

/-- The unlock that makes `l'` of `l` frees the nodes that were erased before the lock,
and the entries of the list `l0` that was locked, and no other node or entry. -/
structure FreesOlder (before : List (ListCall α)) (l0 l l' : RcuList α) : Prop where
  nodes : ∀ n, .erase n ∈ before → l'.node n = none
  zombies : ∀ z, (l0.zombie z).isSome = true → l'.zombie z = none
  newerNodes : ∀ n, .erase n ∉ before → l'.node n = l.node n
  newerZombies : ∀ z, l0.zombie z = none → (l'.zombie z).isSome = (l.zombie z).isSome

section

variable {u0 u : ListUse α} {v0 v : View α} {above below : List Entry} {e : Entry}
  {l' : RcuList α} {gs : List Nat} {before cs : List (ListCall α)}

theorem SplitAt.freesNothing (S : SplitAt v0 v above below e) (hv : Shows u v)
    (hs : Shows ⟨l', gs⟩ { v with entries := above ++ unlockedEntries e below })
    (hnode : ∀ n, l'.node n =
      if below.any (·.owner) = false ∧ n ∈ dead below then none else u.list.node n)
    (hb : below.any (·.owner) = true) : FreesNothing u.list l' where
  node := by
    funext n
    rw [hnode]
    exact if_neg fun h => by simp [hb] at h
  zombie z := by
    rw [Bool.eq_iff_iff, hs.entry_iff, hv.entry_iff, S.entries]
    simp [hb]

theorem SplitAt.freesOlder (S : SplitAt v0 v above below e) (h0 : Changes {} before v0)
    (hv0 : Shows u0 v0) (hc : Changes v0 cs v) (hv : Shows u v)
    (hs : Shows ⟨l', gs⟩ { v with entries := above ++ unlockedEntries e below })
    (hnode : ∀ n, l'.node n =
      if below.any (·.owner) = false ∧ n ∈ dead below then none else u.list.node n)
    (hb : below.any (·.owner) = false) : FreesOlder before u0.list u.list l' where
  nodes n hn := by
    rw [hnode]
    by_cases hd : n ∈ dead below
    · exact if_pos ⟨hb, hd⟩
    · rw [if_neg fun h => hd h.2]
      -- the node left the list before the lock, so only an older entry could keep it
      have hgone := h0.erase_gone hn
      by_contra hne
      obtain ⟨c, hcell⟩ := Option.ne_none_iff_exists'.mp hne
      have hdv := (hv.known n c hcell).resolve_left (hc.gone hgone).1
      obtain ⟨e', he', hz⟩ := mem_dead.mp hdv
      rcases hc.entry he' with ⟨e0, he0, hw⟩ | ⟨_, hnew⟩
      · have hlt : e'.id < v0.zombieCount := hw.id ▸ hv0.sound.zbound e0 he0
        exact hd (mem_dead.mpr ⟨e', S.mem_below he' hlt, hz⟩)
      · exact (hnew n hz).2 hgone
  zombies z hz := by
    obtain ⟨e0, he0, rfl⟩ := List.mem_map.mp ((hv0.entry_iff z).mp hz)
    have hlt := hv0.sound.zbound e0 he0
    rw [← Option.not_isSome_iff_eq_none, hs.entry_iff]
    simp only [hb, Bool.false_eq_true, if_false, List.map_append, List.map_cons, List.map_nil,
      List.mem_append, List.mem_singleton, not_or]
    refine ⟨fun hm => ?_, ?_⟩
    · obtain ⟨e', he', hid⟩ := List.mem_map.mp hm
      have := S.above e' he'
      omega
    · have := S.id
      omega
  newerNodes n hn := by
    rw [hnode]
    refine if_neg fun h => hn ?_
    obtain ⟨e', he', hz⟩ := mem_dead.mp h.2
    obtain ⟨e0, he0, hw⟩ := S.below e' he'
    have hd : n ∈ dead v0.entries := mem_dead.mpr ⟨e0, he0, hw.node.trans hz⟩
    exact (h0.dead_erased hd).resolve_left (by simp)
  newerZombies z hz := by
    have hbelow : z ∉ below.map Entry.id := fun hm => by
      obtain ⟨e', he', rfl⟩ := List.mem_map.mp hm
      obtain ⟨e0, he0, hw⟩ := S.below e' he'
      have := (hv0.entry_iff e'.id).mpr (hw.id ▸ List.mem_map_of_mem he0)
      rw [hz] at this
      cases this
    rw [Bool.eq_iff_iff, hs.entry_iff, hv.entry_iff, S.entries]
    simp [hb, hbelow]

end

/-- An unlock of a guard, in any run: `before` are the calls before its lock, `after`
those between its lock and its unlock. -/
theorem reclaim_progress (before after : List (ListCall α))
    (h : ListUse.Legal (before ++ .lock :: after)) :
    ∃ u0 u, Runs.run ListUse.call {} before = .ok u0 ∧
      Runs.run ListUse.call u0 (.lock :: after) = .ok u ∧
      (u0.list.rcuReadLock.1 ∈ u.guards → ∃ l', u.list.unlock u0.list.rcuReadLock.1 = .ok l' ∧
        ((∃ o ∈ u0.guards, o ∈ u.guards) → FreesNothing u.list l') ∧
        ((∀ o ∈ u0.guards, o ∉ u.guards) → FreesOlder before u0.list u.list l') ∧
        (u.guards = [u0.list.rcuReadLock.1] → ∀ n, .erase n ∈ before → l'.node n = none)) := by
  obtain ⟨u, _, hrun, _, _⟩ := shows_empty.run h
  obtain ⟨u0, hrun0, hrun1⟩ := Runs.run_append.mp hrun
  obtain ⟨hm0, hm1⟩ := h.append hrun0
  obtain ⟨u0', v0, hrun0', h0, hv0⟩ := shows_empty.run hm0
  rw [hrun0, Except.ok.injEq] at hrun0'
  subst hrun0'
  obtain ⟨u', v, hrun1', hc, hv⟩ := hv0.run hm1
  rw [hrun1, Except.ok.injEq] at hrun1'
  subst hrun1'
  refine ⟨u0, u, hrun0, hrun1, fun hg => ?_⟩
  have hlock : u0.list.rcuReadLock.1 = v0.zombieCount := hv0.zombieCount
  rw [hlock] at hg ⊢
  rw [hv.guards] at hg
  obtain ⟨above, below, e, S⟩ := hc.split hv.sound hg
  obtain ⟨l', hunlock, hs, hnode⟩ := hv.unlock S.entries S.owner
  rw [S.id] at hunlock
  have hany := S.any_owner hv0.sound
  rw [← hv0.guards, ← hv.guards] at hany
  have holder : (∀ o ∈ u0.guards, o ∉ u.guards) → FreesOlder before u0.list u.list l' := fun ho =>
    S.freesOlder h0 hv0 hc hv hs hnode (Bool.eq_false_iff.mpr fun hb => by
      obtain ⟨o, ho0, hou⟩ := hany.mp hb
      exact ho o ho0 hou)
  refine ⟨l', hunlock, fun ho => S.freesNothing hv hs hnode (hany.mpr ho), holder, fun hone => ?_⟩
  refine (holder fun o ho hou => ?_).nodes
  rw [hone, List.mem_singleton] at hou
  rw [hv0.guards] at ho
  obtain ⟨e0, he0, hid⟩ := List.mem_map.mp ho
  have := hv0.sound.zbound e0 (List.mem_filter.mp he0).1
  omega

/-- Two guards in overlap: an erase before the lock of the newer one, and an erase
after it. Then the older one unlocks. -/
def overlapped : List (ListCall Nat) := [.pushBack 10, .pushBack 11, .lock, .erase 0]

def overlappedLock : ListUse Nat := Runs.reached ListUse.call {} overlapped

def overlappedUnlock : ListUse Nat :=
  Runs.reached ListUse.call overlappedLock [.lock, .erase 1, .unlock 0]

theorem reclaim_progress_overlapped :
    ∃ l', overlappedUnlock.list.unlock 2 = .ok l' ∧
      FreesOlder overlapped overlappedLock.list overlappedUnlock.list l' := by
  obtain ⟨u0, u, hrun0, hrun, hunlock⟩ :=
    reclaim_progress overlapped [.erase 1, .unlock 0] (by decide)
  have h0 : Runs.run ListUse.call {} overlapped = .ok overlappedLock := Runs.run_reached (by decide)
  rw [h0, Except.ok.injEq] at hrun0
  subst hrun0
  have h1 : Runs.run ListUse.call overlappedLock [.lock, .erase 1, .unlock 0] = .ok overlappedUnlock :=
    Runs.run_reached (by decide)
  rw [h1, Except.ok.injEq] at hrun
  subst hrun
  obtain ⟨l', hl, _, holder, _⟩ := hunlock (by decide)
  exact ⟨l', hl, holder (by decide)⟩

end CsSignal
