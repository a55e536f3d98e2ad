-- The nodes that were retired from a list that is shared, with the number of the push
-- that retired each. A node leads to nodes that were retired after it, and a guard
-- stands on nodes that were retired after its own push, so no guard comes to a node
-- that the entries below it name.
import CsSignal.SharedChain
import CsSignal.SharedStack

namespace CsSignal

open LinkedCells Stamps

/-! ## What a handle uses -/

namespace Phase

/-- The iterator stands on the node, or the call in progress is asked for it. -/
def Stands : Phase → Nat → Prop
  | active _ _ iter job, n => iter = some n ∨ job.asked = some n
  | _, _ => False

/-- The entry whose node was freed, before the entry is. -/
def swept : Phase → Option Nat
  | sweepNext _ n | sweepFree _ n _ => some n
  | _ => none

theorem swept_sweeps {p : Phase} {e : Nat} (h : p.swept = some e) : ∃ z, p.sweeps = some z := by
  cases p <;> simp_all [swept, sweeps]

theorem Stands.pushed {p : Phase} {n : Nat} (h : p.Stands n) : p.pushed = true := by
  cases p <;> simp_all [Stands, Phase.pushed]

end Phase

namespace SharedList

variable {α : Type} {σ σ' : SharedList α} {h : Handle} {xs xs' : List (Nat × α)}

/-! ## The state of the nodes -/

/-- The call that changes the list. -/
def writing (σ : SharedList α) : Job :=
  match σ.m_write_mutex with
  | some h => (σ.phase h).job
  | none => .none

/-- The push of number `t` put the entry `e` of the node `n` on the stack. -/
def Retires (σ : SharedList α) (e t n : Nat) : Prop :=
  σ.stamp e = some t ∧ ∃ c, σ.list.zombie e = some c ∧ c.zombieNode = some n

/-- The node was retired before a guard that frees what is older than itself. -/
def Doomed (σ : SharedList α) (n : Nat) : Prop :=
  ∃ h z t s, (σ.phase h).sweeps = some z ∧ σ.stamp z = some t ∧ σ.retired n = some s ∧ s < t

/-- The guard with the entry `z` was there before the node was retired. -/
def Guards (σ : SharedList α) (z n : Nat) : Prop :=
  (σ.list.node n).isSome = true ∧
    ∃ t, σ.stamp z = some t ∧ ∀ s, σ.retired n = some s → t < s

/-- The node `m` was retired after the node `n`, if it was. -/
def Later (σ : SharedList α) (n m : Nat) : Prop :=
  (σ.list.node m).isSome = true ∧
    ∀ t, σ.retired m = some t → ∃ s, σ.retired n = some s ∧ s < t

structure Nodes (σ : SharedList α) (xs : List (Nat × α)) : Prop where
  chain : σ.list.toNodeList.Chain σ.retired σ.writing xs
  older : ∀ n t, σ.retired n = some t → t < σ.pushes
  found : ∀ n t, (σ.list.node n).isSome = true → σ.retired n = some t → ∃ e, σ.Retires e t n
  kept : ∀ e t n, σ.Retires e t n → σ.retired n = some t ∧
    ((σ.list.node n).isSome = true ∨ ∃ h, (σ.phase h).swept = some e)
  swept : ∀ h e t n, (σ.phase h).swept = some e → σ.Retires e t n → σ.list.node n = none
  edge : ∀ n c m, σ.list.node n = some c → c.next = some m → ¬ σ.Doomed n → σ.Later n m
  hand : ∀ h z n, (σ.phase h).entry = some z → (σ.phase h).Stands n → σ.Guards z n

theorem nodes_init : Nodes (init : SharedList α) [] where
  chain := NodeList.chain_init
  older _ _ h := by cases h
  found _ _ h := by cases h
  kept _ _ _ h := by cases h.1
  swept _ _ _ _ h := by cases h
  edge _ _ _ h := by cases h
  hand _ _ _ h := by cases h

/-! ## What a guard can come to -/

/-- A guard that frees has found no owner below it. -/
theorem Entries.alone {z : Nat} (I : Entries σ) (hz : (σ.phase h).sweeps = some z) :
    ∃ t, σ.stamp z = some t ∧ σ.Unowned 0 t := by
  have hst := (I.handle h).stage
  cases hp : σ.phase h with
  | sweepNode y n | sweepNext y n | cut y =>
    rw [hp] at hz hst
    obtain rfl := Option.some.inj hz
    obtain ⟨t, ht, hu, _⟩ := hst
    exact ⟨t, ht, hu⟩
  | sweepFree y n next =>
    rw [hp] at hz hst
    obtain rfl := Option.some.inj hz
    obtain ⟨t, ht, hu, _⟩ := hst
    exact ⟨t, ht, hu⟩
  | _ =>
    rw [hp] at hz
    cases hz

/-- The entry that is freed next is on the stack. -/
theorem Entries.swept_placed {e : Nat} (I : Entries σ) (he : (σ.phase h).swept = some e) :
    ∃ u, σ.Placed e u := by
  have hst := (I.handle h).stage
  cases hp : σ.phase h with
  | sweepNext y n =>
    rw [hp] at he hst
    obtain rfl := Option.some.inj he
    obtain ⟨_, _, _, u, hn, _⟩ := hst
    exact ⟨u, hn⟩
  | sweepFree y n next =>
    rw [hp] at he hst
    obtain rfl := Option.some.inj he
    obtain ⟨_, _, _, ⟨u, hn, _⟩, _⟩ := hst
    exact ⟨u, hn⟩
  | _ =>
    rw [hp] at he
    cases he

theorem Guards.not_doomed {z n : Nat} (G : σ.Guards z n) (I : Entries σ)
    (hz : (σ.phase h).entry = some z) : ¬ σ.Doomed n := by
  rintro ⟨h', z', t', s, hz', ht', hs, hlt⟩
  obtain ⟨_, t, ht, hafter⟩ := G
  obtain ⟨t1, ht1, hu⟩ := I.alone hz'
  rw [ht', Option.some.injEq] at ht1
  subst ht1
  have h1 := I.lt_of_unowned hz ht hu
  have h2 := hafter s hs
  omega

theorem Guards.next {z n m : Nat} {c : Node α} (G : σ.Guards z n) (N : Nodes σ xs) (I : Entries σ)
    (hz : (σ.phase h).entry = some z) (hc : σ.list.node n = some c) (hm : c.next = some m) :
    σ.Guards z m := by
  obtain ⟨hmem, hlater⟩ := N.edge n c m hc hm (G.not_doomed I hz)
  obtain ⟨_, t, ht, hafter⟩ := G
  refine ⟨hmem, t, ht, fun s hs => ?_⟩
  obtain ⟨s', hs', hlt⟩ := hlater s hs
  have := hafter s' hs'
  omega

/-- Every node that is met from a node that the guard keeps is kept too. -/
theorem Guards.reaches {z n m : Nat} (G : σ.Guards z n) (N : Nodes σ xs) (I : Entries σ)
    (hz : (σ.phase h).entry = some z) (hr : Reaches σ.list.node (some n) m) : σ.Guards z m := by
  generalize hp : some n = p at hr
  induction hr generalizing n with
  | here =>
    obtain rfl := Option.some.inj hp
    exact G
  | @next k m c hc _ ih =>
    obtain rfl := Option.some.inj hp
    cases hnext : c.next with
    | none =>
      rename_i hr
      rw [hnext] at hr
      exact absurd hr not_reaches_none
    | some j => exact ih (G.next N I hz hc hnext) hnext.symm

/-- The node at the head is in the list, or is about to be unlinked. -/
theorem Nodes.head_live {n : Nat} (N : Nodes σ xs) (hn : σ.list.head = some n) :
    σ.retired n = none ∧ (σ.list.node n).isSome = true := by
  rcases N.chain.shape.head hn with hm | hm
  · exact ⟨N.chain.live n hm, Option.isSome_iff_exists.mpr (N.chain.shape.mem_cell hm)⟩
  · exact ⟨(N.chain.pending n hm).2, Option.isSome_iff_exists.mpr (N.chain.shape.pending_cell hm)⟩

theorem Nodes.head {z n : Nat} {t : Nat} (N : Nodes σ xs) (ht : σ.stamp z = some t)
    (hn : σ.list.head = some n) : σ.Guards z n := by
  obtain ⟨hr, hc⟩ := N.head_live hn
  refine ⟨hc, t, ht, fun s hs => ?_⟩
  rw [hr] at hs
  cases hs

/-! ## The steps that retire and free nothing -/

/-- A step that keeps the nodes, and the entries of those that were retired. -/
structure Onward (σ σ' : SharedList α) : Prop where
  retired : σ'.retired = σ.retired
  pushes : σ.pushes ≤ σ'.pushes
  stamp : ∀ e t, σ.stamp e = some t → σ'.stamp e = some t
  retires : ∀ e t n, σ'.Retires e t n ↔ σ.Retires e t n
  swept : ∀ h, (σ'.phase h).swept = (σ.phase h).swept
  doomed : ∀ n, (σ.list.node n).isSome = true → σ.Doomed n → σ'.Doomed n
  nodes : σ.list.toNodeList.Grows σ'.list.toNodeList σ.retired

theorem Onward.guards {z n : Nat} (O : Onward σ σ') (G : σ.Guards z n) : σ'.Guards z n := by
  obtain ⟨hn, t, ht, hafter⟩ := G
  refine ⟨O.nodes.kept n hn, t, O.stamp z t ht, ?_⟩
  rw [O.retired]
  exact hafter

theorem Nodes.onward (N : Nodes σ xs) (O : Onward σ σ') (ho : Others σ σ' h)
    (hC : σ'.list.toNodeList.Chain σ'.retired σ'.writing xs')
    (hh : ∀ z n, (σ'.phase h).entry = some z → (σ'.phase h).Stands n → σ.Guards z n) :
    Nodes σ' xs' where
  chain := hC
  older n t hr := by
    rw [O.retired] at hr
    have := N.older n t hr
    have := O.pushes
    omega
  found n t hn hr := by
    rw [O.retired] at hr
    have hold : (σ.list.node n).isSome = true := by
      cases hc : σ.list.node n with
      | some c => rfl
      | none =>
        rw [O.nodes.gone n hc (by rw [hr]; rfl)] at hn
        cases hn
    obtain ⟨e, he⟩ := N.found n t hold hr
    exact ⟨e, (O.retires e t n).mpr he⟩
  kept e t n he := by
    obtain ⟨hr, hn⟩ := N.kept e t n ((O.retires e t n).mp he)
    refine ⟨by rw [O.retired, hr], ?_⟩
    rcases hn with hn | ⟨h', hs⟩
    · exact Or.inl (O.nodes.kept n hn)
    · exact Or.inr ⟨h', by rw [O.swept, hs]⟩
  swept h' e t n hs he := by
    rw [O.swept] at hs
    have he' := (O.retires e t n).mp he
    refine O.nodes.gone n (N.swept h' e t n hs he') ?_
    rw [(N.kept e t n he').1]
    rfl
  edge n c' m hc' hm hd := by
    rcases O.nodes.next n c' m hc' hm with ⟨c, hc, hm⟩ | ⟨hm, hr⟩
    · obtain ⟨h1, h2⟩ := N.edge n c m hc hm fun hd' => hd (O.doomed n (by rw [hc]; rfl) hd')
      refine ⟨O.nodes.kept m h1, ?_⟩
      rw [O.retired]
      exact h2
    · refine ⟨O.nodes.kept m hm, fun t ht => ?_⟩
      rw [O.retired, hr] at ht
      cases ht
  hand h' z n hz hn := by
    by_cases hne : h' = h
    · subst hne
      exact O.guards (hh z n hz hn)
    · rw [ho h' hne] at hz hn
      exact O.guards (N.hand h' z n hz hn)

/-! ## What a step leaves alone -/

theorem doomed_of {n : Nat} (hsweep : ∀ h z, (σ.phase h).sweeps = some z →
    (σ'.phase h).sweeps = some z) (hst : ∀ e t, σ.stamp e = some t → σ'.stamp e = some t)
    (hr : ∀ s, σ.retired n = some s → σ'.retired n = some s) (hd : σ.Doomed n) : σ'.Doomed n := by
  obtain ⟨h, z, t, s, hz, ht, hs, hlt⟩ := hd
  exact ⟨h, z, t, s, hsweep h z hz, hst z t ht, hr s hs, hlt⟩

/-- A step on the entry `w`, which is that of no node before and after. -/
theorem retires_congr {w : Nat} (hz : ∀ e, e ≠ w → σ'.list.zombie e = σ.list.zombie e)
    (hs : ∀ e, e ≠ w → σ'.stamp e = σ.stamp e) (h1 : ∀ t n, ¬ σ.Retires w t n)
    (h2 : ∀ t n, ¬ σ'.Retires w t n) (e t n : Nat) : σ'.Retires e t n ↔ σ.Retires e t n := by
  by_cases hne : e = w
  · subst hne
    exact ⟨fun h => absurd h (h2 t n), fun h => absurd h (h1 t n)⟩
  · unfold Retires
    rw [hz e hne, hs e hne]

theorem not_retires {e : Nat} {c : ZombieListNode} (hc : σ.list.zombie e = some c)
    (hn : c.zombieNode = none) (t n : Nat) : ¬ σ.Retires e t n := by
  rintro ⟨_, c', hc', hn'⟩
  rw [hc, Option.some.injEq] at hc'
  rw [← hc', hn] at hn'
  cases hn'

theorem not_retires_unpushed {e : Nat} (hs : σ.stamp e = none) (t n : Nat) :
    ¬ σ.Retires e t n := by
  rintro ⟨ht, _⟩
  rw [hs] at ht
  cases ht

theorem sweeps_others {p : Phase} (ho : Others σ σ' h) (hp : σ'.phase h = p)
    (hs : ∀ z, (σ.phase h).sweeps = some z → p.sweeps = some z) (h' : Handle) (z : Nat)
    (hz : (σ.phase h').sweeps = some z) : (σ'.phase h').sweeps = some z := by
  by_cases hne : h' = h
  · subst hne
    rw [hp]
    exact hs z hz
  · rw [ho h' hne]
    exact hz

theorem swept_others {p : Phase} (ho : Others σ σ' h) (hp : σ'.phase h = p)
    (hs : p.swept = (σ.phase h).swept) (h' : Handle) :
    (σ'.phase h').swept = (σ.phase h').swept := by
  by_cases hne : h' = h
  · subst hne
    rw [hp, hs]
  · rw [ho h' hne]

/-! ## Retiring a node -/

/-- The entry `w` of the node `n` is pushed. -/
structure Retiring (σ σ' : SharedList α) (w n : Nat) : Prop where
  nodes : σ'.list.toNodeList = σ.list.toNodeList
  retired : σ'.retired = Function.update σ.retired n (some σ.pushes)
  pushes : σ'.pushes = σ.pushes + 1
  stamp : ∀ e t, σ.stamp e = some t → σ'.stamp e = some t
  retires : ∀ e t m, σ'.Retires e t m ↔ σ.Retires e t m ∨ e = w ∧ t = σ.pushes ∧ m = n
  unpushed : σ.stamp w = none
  fresh : σ.retired n = none

section

variable {w n : Nat}

theorem PushStep.retiring {σ1 : SharedList α} {c : ZombieListNode} (P : PushStep σ σ1 w c none)
    (hl : σ'.list = σ1.list) (hst : σ'.stamp = σ1.stamp) (hpush : σ'.pushes = σ1.pushes)
    (hr : σ'.retired = Function.update σ.retired n (some σ.pushes)) (hs : σ.stamp w = none)
    (hcn : c.zombieNode = some n) (hf : σ.retired n = none) : Retiring σ σ' w n where
  nodes := by rw [hl, P.nodes]
  retired := hr
  pushes := hpush.trans P.touch.pushes
  stamp e t he := by
    rw [hst]
    exact P.touch.stamp_of he
  retires e t m := by
    obtain ⟨nx, hcell, _⟩ := P.cell
    by_cases hew : e = w
    · subst hew
      constructor
      · rintro ⟨ht, c', hc', hm⟩
        rw [hst, P.touch.stamped] at ht
        rw [hl, hcell, Option.some.injEq] at hc'
        rw [← hc'] at hm
        exact Or.inr ⟨rfl, (Option.some.inj ht).symm, Option.some.inj (hm.symm.trans hcn)⟩
      · rintro (he | ⟨_, rfl, rfl⟩)
        · exact absurd he (not_retires_unpushed hs t m)
        · exact ⟨by rw [hst, P.touch.stamped]; rfl, { c with next := nx }, by rw [hl, hcell], hcn⟩
    · unfold Retires
      rw [hl, hst, P.touch.zombie e hew, P.touch.stamp e hew]
      simp [hew]
  unpushed := hs
  fresh := hf

theorem Retiring.node (T : Retiring σ σ' w n) : σ'.list.node = σ.list.node :=
  congrArg NodeList.node T.nodes

theorem Retiring.self (T : Retiring σ σ' w n) : σ'.retired n = some σ.pushes := by
  rw [T.retired, Function.update_self]

theorem Retiring.other {m : Nat} (T : Retiring σ σ' w n) (hm : m ≠ n) :
    σ'.retired m = σ.retired m := by
  rw [T.retired, Function.update_of_ne hm]

theorem Retiring.keep {m s : Nat} (T : Retiring σ σ' w n) (hr : σ.retired m = some s) :
    σ'.retired m = some s := by
  rw [T.other ?_, hr]
  rintro rfl
  rw [T.fresh] at hr
  cases hr

theorem Retiring.was {m t : Nat} (T : Retiring σ σ' w n) (hr : σ'.retired m = some t) :
    σ.retired m = some t ∨ m = n ∧ t = σ.pushes := by
  by_cases hm : m = n
  · rw [hm, T.self, Option.some.injEq] at hr
    exact Or.inr ⟨hm, hr.symm⟩
  · rw [T.other hm] at hr
    exact Or.inl hr

theorem Retiring.guards {y m : Nat} (T : Retiring σ σ' w n) (I : Entries σ) (G : σ.Guards y m) :
    σ'.Guards y m := by
  obtain ⟨hm, t, ht, hafter⟩ := G
  refine ⟨by rw [T.node, hm], t, T.stamp y t ht, fun s hs => ?_⟩
  rcases T.was hs with hs | ⟨_, rfl⟩
  · exact hafter s hs
  · exact I.older y t ht

theorem Retiring.later {m k : Nat} (T : Retiring σ σ' w n) (L : σ.Later m k)
    (hn : k = n → ∃ s, σ.retired m = some s ∧ s < σ.pushes) : σ'.Later m k := by
  refine ⟨by rw [T.node, L.1], fun t ht => ?_⟩
  obtain ⟨s, hs, hlt⟩ : ∃ s, σ.retired m = some s ∧ s < t := by
    rcases T.was ht with ht | ⟨hk, rfl⟩
    · exact L.2 t ht
    · exact hn hk
  exact ⟨s, T.keep hs, hlt⟩

/-- The entry of a node is pushed, and its handle does not free by that step. -/
theorem Nodes.retiring (N : Nodes σ xs) (I : Entries σ) (T : Retiring σ σ' w n)
    (ho : Others σ σ' h) (hn : (σ.list.node n).isSome = true)
    (hC : σ'.list.toNodeList.Chain σ'.retired σ'.writing xs)
    (hswept : ∀ h, (σ'.phase h).swept = (σ.phase h).swept)
    (hsweep : ∀ h z, (σ.phase h).sweeps = some z → (σ'.phase h).sweeps = some z)
    (hedge : ∀ m c, σ.list.node m = some c → c.next = some n →
      ∃ s, σ.retired m = some s ∧ s < σ.pushes)
    (hh : ∀ z m, (σ'.phase h).entry = some z → (σ'.phase h).Stands m → σ.Guards z m) :
    Nodes σ' xs where
  chain := hC
  older m t hr := by
    rw [T.pushes]
    rcases T.was hr with hr | ⟨_, rfl⟩
    · have := N.older m t hr
      omega
    · exact Nat.lt_succ_self _
  found m t hm hr := by
    rw [T.node] at hm
    rcases T.was hr with hr | ⟨rfl, rfl⟩
    · obtain ⟨e, he⟩ := N.found m t hm hr
      exact ⟨e, (T.retires e t m).mpr (Or.inl he)⟩
    · exact ⟨w, (T.retires w _ m).mpr (Or.inr ⟨rfl, rfl, rfl⟩)⟩
  kept e t m he := by
    rw [T.node]
    rcases (T.retires e t m).mp he with he | ⟨_, rfl, rfl⟩
    · obtain ⟨hr, hm | ⟨h', hs⟩⟩ := N.kept e t m he
      · exact ⟨T.keep hr, Or.inl hm⟩
      · exact ⟨T.keep hr, Or.inr ⟨h', by rw [hswept, hs]⟩⟩
    · exact ⟨T.self, Or.inl hn⟩
  swept h' e t m hs he := by
    rw [hswept] at hs
    rw [T.node]
    rcases (T.retires e t m).mp he with he | ⟨rfl, _⟩
    · exact N.swept h' e t m hs he
    · -- the new entry is not on the stack that a guard frees
      obtain ⟨u, hu, _⟩ := I.swept_placed hs
      rw [T.unpushed] at hu
      cases hu
  edge m c k hc hk hd := by
    rw [T.node] at hc
    refine T.later (N.edge m c k hc hk fun hd' => hd ?_) fun hkn => hedge m c hc (hkn ▸ hk)
    exact doomed_of hsweep T.stamp (fun s hs => T.keep hs) hd'
  hand h' y m hy hm := by
    refine T.guards I ?_
    by_cases hne : h' = h
    · subst hne
      exact hh y m hy hm
    · rw [ho h' hne] at hy hm
      exact N.hand h' y m hy hm

end

/-- Once a node is unlinked, only nodes that were retired lead to it. -/
theorem Nodes.leads_unlinked {n w m : Nat} {assign : Bool} {oldNext : Option Nat}
    {stage : PushStage} {c : Node α} (N : Nodes σ xs)
    (hC : σ.list.toNodeList.Chain σ.retired (.eraseLink n assign oldNext w stage) xs)
    (hc : σ.list.node m = some c) (hm : c.next = some n) :
    ∃ s, σ.retired m = some s ∧ s < σ.pushes := by
  obtain ⟨hwhole, ⟨cn, hcn, hnext, _⟩, hlive⟩ := hC.shape
  obtain ⟨hn, _⟩ := hC.pending n rfl
  rcases hC.cover m c hc with h | h | h
  · exact absurd (hwhole.next_mem h hc hm) hn
  · obtain rfl := Option.some.inj h
    rw [hcn, Option.some.injEq] at hc
    rw [← hc, hnext] at hm
    exact absurd (hlive n hm) hn
  · obtain ⟨s, hs⟩ := Option.isSome_iff_exists.mp h
    exact ⟨s, hs, N.older m s hs⟩

/-- The last step of `erase`, which pushes the entry `w` of its node `current`. -/
theorem Nodes.retire {σ1 : SharedList α} {write assign : Bool} {z w current : Nat}
    {iter oldNext : Option Nat} {stage : PushStage} {c : ZombieListNode}
    (N : Nodes σ xs) (I : Entries σ)
    (hp : σ.phase h = .active write z iter (.eraseLink current assign oldNext w stage))
    (hw : σ.writing = .eraseLink current assign oldNext w stage) (hs : σ.stamp w = none)
    (hcn : c.zombieNode = some current) (P : PushStep σ σ1 w c none)
    (hm : σ1.m_write_mutex = some h) :
    Nodes ({ σ1 with retired := Function.update σ1.retired current (some σ.pushes) }.goto h
      (.active true z (if assign then oldNext else iter) .none)) xs := by
  have hC := hw ▸ N.chain
  obtain ⟨_, _, hlive⟩ := hC.shape
  set σ' := { σ1 with retired := Function.update σ1.retired current (some σ.pushes) }.goto h
    (.active true z (if assign then oldNext else iter) .none) with hσ
  have T : Retiring σ σ' w current :=
    P.retiring rfl rfl rfl (by rw [← P.retired]; rfl) hs hcn (hC.pending current rfl).2
  have hoth : Others σ σ' h := fun h' hne => by
    rw [hσ, others_goto _ h _ h' hne]
    exact congrFun P.phase h'
  have hph : σ'.phase h = .active true z (if assign then oldNext else iter) .none :=
    Function.update_self _ _ _
  have hz : (σ.phase h).entry = some z := by rw [hp]; rfl
  obtain ⟨cc, hcc⟩ := hC.shape.pending_cell rfl
  refine N.retiring I T hoth (by rw [hcc]; rfl) ?_ (swept_others hoth hph (by rw [hp]; rfl))
    (sweeps_others hoth hph fun y hy => by rw [hp] at hy; cases hy)
    (fun m c' hc' hn => N.leads_unlinked hC hc' hn) fun y n hy hn => ?_
  · have hwr : σ'.writing = .none := by
      unfold writing
      rw [show σ'.m_write_mutex = some h from hm]
      simp only [hph, Phase.job]
    rw [T.nodes, T.retired, hwr]
    exact hC.retire
  · rw [hph] at hy hn
    obtain rfl := Option.some.inj hy
    rcases hn with hn | hn
    · cases assign with
      | true =>
        obtain ⟨_, _, _, _, hst⟩ := (I.handle h).own z hz
        rw [hp] at hst
        obtain ⟨t, ht⟩ := Option.isSome_iff_exists.mp hst
        have hmem := hlive n hn
        obtain ⟨c', hc'⟩ := hC.shape.mem_cell hmem
        refine ⟨by rw [hc']; rfl, t, ht, fun s hs => ?_⟩
        rw [hC.live n hmem] at hs
        cases hs
      | false => exact N.hand h z n hz (by rw [hp]; exact Or.inl hn)
    · cases hn

/-! ## Freeing a node and its entry -/

/-- The call that changes the list is asked for a node that its guard keeps. -/
theorem asked_stands {n : Nat} (hn : σ.writing.asked = some n) :
    ∃ h z, (σ.phase h).entry = some z ∧ (σ.phase h).Stands n := by
  unfold writing at hn
  cases hm : σ.m_write_mutex with
  | none =>
    rw [hm] at hn
    cases hn
  | some h =>
    simp only [hm] at hn
    refine ⟨h, ?_⟩
    cases hp : σ.phase h with
    | active write z iter job =>
      rw [hp] at hn
      exact ⟨z, rfl, Or.inr hn⟩
    | _ =>
      rw [hp] at hn
      cases hn

theorem Nodes.asked_ne {d : Nat} (N : Nodes σ xs) (I : Entries σ) (hd : σ.Doomed d) :
    σ.writing.asked ≠ some d := by
  intro ha
  obtain ⟨h, y, hy, hn⟩ := asked_stands ha
  exact (N.hand h y d hy hn).not_doomed I hy hd

section

variable {z e : Nat}

theorem Entries.sweeping (I : Entries σ) (hp : σ.phase h = .sweepNode z e) :
    ∃ t, Sweeping σ h z t e := by
  obtain ⟨t, ht, hu, hlead⟩ : σ.Stage (.sweepNode z e) := hp ▸ (I.handle h).stage
  exact ⟨t, by rw [hp]; rfl, ht, hu, hlead⟩

/-- A guard that is about to free a node is the only one that frees. -/
theorem Entries.none_swept {h' : Handle} {e' : Nat} (I : Entries σ)
    (hp : σ.phase h = .sweepNode z e) : (σ.phase h').swept ≠ some e' := by
  intro hs
  obtain ⟨t, W⟩ := I.sweeping hp
  obtain ⟨z', hz'⟩ := Phase.swept_sweeps hs
  obtain ⟨t', ht', hu'⟩ := I.alone hz'
  rw [W.only I (Phase.sweeps_entry hz') ht' hu', hp] at hs
  cases hs

/-- The node that is freed next is still there, and no guard comes to it. -/
theorem Nodes.sweep_there {c : ZombieListNode} {d : Nat} (N : Nodes σ xs) (I : Entries σ)
    (hp : σ.phase h = .sweepNode z e) (hc : σ.list.zombie e = some c)
    (hd : c.zombieNode = some d) :
    (σ.list.node d).isSome = true ∧ ∃ t u, σ.stamp z = some t ∧ σ.stamp e = some u ∧
      σ.retired d = some u ∧ u < t := by
  obtain ⟨t, W⟩ := I.sweeping hp
  obtain ⟨u, hpl, hult⟩ := W.below
  obtain ⟨hret, hthere⟩ := N.kept e u d ⟨hpl.1, c, hc, hd⟩
  exact ⟨hthere.resolve_right fun ⟨_, hs⟩ => I.none_swept hp hs, t, u, W.stamp, hpl.1, hret, hult⟩

/-- The node `d` is freed, when there is one. -/
structure NodeFreed (σ σ' : SharedList α) (d : Option Nat) : Prop where
  node : ∀ n, d ≠ some n → σ'.list.node n = σ.list.node n
  gone : ∀ n, d = some n → σ'.list.node n = none
  zombie : σ'.list.zombie = σ.list.zombie
  stamp : σ'.stamp = σ.stamp
  retired : σ'.retired = σ.retired
  pushes : σ'.pushes = σ.pushes

theorem NodeFreed.retires {d : Option Nat} (F : NodeFreed σ σ' d) (e t n : Nat) :
    σ'.Retires e t n ↔ σ.Retires e t n := by
  unfold Retires
  rw [F.stamp, F.zombie]

theorem NodeFreed.was {d : Option Nat} {n : Nat} (F : NodeFreed σ σ' d)
    (hn : (σ'.list.node n).isSome = true) : d ≠ some n ∧ (σ.list.node n).isSome = true := by
  have hne : d ≠ some n := by
    intro hd
    rw [F.gone n hd] at hn
    cases hn
  exact ⟨hne, by rwa [F.node n hne] at hn⟩

/-- A guard frees the node of the entry `e`, when it has one. -/
theorem Nodes.freeNode {c : ZombieListNode} (N : Nodes σ xs) (I : Entries σ)
    (hp : σ.phase h = .sweepNode z e) (hc : σ.list.zombie e = some c)
    (F : NodeFreed σ σ' c.zombieNode) (ho : Others σ σ' h) (hp' : σ'.phase h = .sweepNext z e)
    (hC : σ'.list.toNodeList.Chain σ'.retired σ'.writing xs) : Nodes σ' xs := by
  have hsweeps : (σ.phase h).sweeps = some z := by rw [hp]; rfl
  have hdoom : ∀ n, c.zombieNode = some n → σ.Doomed n := fun n hn => by
    obtain ⟨_, t, u, ht, _, hr, hlt⟩ := N.sweep_there I hp hc hn
    exact ⟨h, z, t, u, hsweeps, ht, hr, hlt⟩
  have hdoomed : ∀ n, σ.Doomed n → σ'.Doomed n := fun n => doomed_of
    (sweeps_others ho hp' fun y hy => by rw [hp] at hy; exact hy)
    (by rw [F.stamp]; exact fun _ _ => id) (by rw [F.retired]; exact fun _ => id)
  refine ⟨hC, fun n t hx => ?_, fun n t hn hx => ?_, fun e' t n he => ?_,
    fun h' e' t n hs he => ?_, fun n c' m hc' hm' hx => ?_, fun h' y n hy hn => ?_⟩
  · rw [F.retired] at hx
    rw [F.pushes]
    exact N.older n t hx
  · rw [F.retired] at hx
    obtain ⟨e', he⟩ := N.found n t (F.was hn).2 hx
    exact ⟨e', (F.retires e' t n).mpr he⟩
  · have he' := (F.retires e' t n).mp he
    obtain ⟨hx, hn⟩ := N.kept e' t n he'
    refine ⟨by rw [F.retired, hx], ?_⟩
    by_cases hne : c.zombieNode = some n
    · obtain ⟨_, _, u, _, hu, hr, _⟩ := N.sweep_there I hp hc hne
      rw [hx, Option.some.injEq] at hr
      exact Or.inr ⟨h, by rw [hp', I.inj e' e u (hr ▸ he'.1) hu]; rfl⟩
    · rw [F.node n hne]
      exact Or.inl (hn.resolve_right fun ⟨_, hs⟩ => I.none_swept hp hs)
  · by_cases hne : h' = h
    · subst hne
      rw [hp'] at hs
      obtain rfl := Option.some.inj hs
      obtain ⟨_, c', hc', hn⟩ := (F.retires e t n).mp he
      rw [hc, Option.some.injEq] at hc'
      exact F.gone n (hc' ▸ hn)
    · rw [ho h' hne] at hs
      exact absurd hs (I.none_swept hp)
  · obtain ⟨hne, _⟩ := F.was (n := n) (by rw [hc']; rfl)
    rw [F.node n hne] at hc'
    have hnd : ¬ σ.Doomed n := fun hx' => hx (hdoomed n hx')
    obtain ⟨h1, h2⟩ := N.edge n c' m hc' hm' hnd
    refine ⟨?_, by rw [F.retired]; exact h2⟩
    rw [F.node m ?_, h1]
    intro hm
    obtain ⟨_, t, u, ht, _, hr, hlt⟩ := N.sweep_there I hp hc hm
    obtain ⟨s, hs, hsu⟩ := h2 u hr
    exact hnd ⟨h, z, t, s, hsweeps, ht, hs, by omega⟩
  · by_cases hne : h' = h
    · subst hne
      rw [hp'] at hn
      cases hn
    · rw [ho h' hne] at hy hn
      have hnd := (N.hand h' y n hy hn).not_doomed I hy
      obtain ⟨hx, t, ht, hafter⟩ := N.hand h' y n hy hn
      refine ⟨?_, t, by rw [F.stamp, ht], by rw [F.retired]; exact hafter⟩
      rw [F.node n fun hm => hnd (hdoom n hm), hx]

end

/-- A guard frees the entry `e`, whose node it has freed. -/
theorem Nodes.freeEntry {z e : Nat} {next : Option Nat} (N : Nodes σ xs)
    (hp : σ.phase h = .sweepFree z e next) (F : Freed σ σ' e) (ho : Others σ σ' h)
    (hp' : σ'.phase h = sweepAt z next) (hl : σ'.list.toNodeList = σ.list.toNodeList)
    (hw : σ'.writing = σ.writing) (hr : σ'.retired = σ.retired) : Nodes σ' xs := by
  have hnode : σ'.list.node = σ.list.node := congrArg NodeList.node hl
  have hretires : ∀ e' t n, σ'.Retires e' t n ↔ σ.Retires e' t n ∧ e' ≠ e := by
    intro e' t n
    unfold Retires
    rw [F.stamp]
    by_cases hne : e' = e
    · subst hne
      rw [F.zombie, Function.update_self]
      simp
    · rw [F.zombie_ne hne]
      simp [hne]
  have hmine : (σ.phase h).swept = some e := by rw [hp]; rfl
  have hnone : (σ'.phase h).swept = none := by
    rw [hp']
    cases next <;> rfl
  refine ⟨by rw [hl, hr, hw]; exact N.chain, fun n t hx => ?_, fun n t hn hx => ?_,
    fun e' t n he => ?_, fun h' e' t n hs he => ?_, fun n c m hc hm hd => ?_, fun h' y n hy hn => ?_⟩
  · rw [hr] at hx
    rw [F.pushes]
    exact N.older n t hx
  · rw [hr] at hx
    rw [hnode] at hn
    obtain ⟨e', he⟩ := N.found n t hn hx
    refine ⟨e', (hretires e' t n).mpr ⟨he, ?_⟩⟩
    rintro rfl
    rw [N.swept h e' t n hmine he] at hn
    cases hn
  · obtain ⟨he, hne⟩ := (hretires e' t n).mp he
    obtain ⟨hx, hn⟩ := N.kept e' t n he
    refine ⟨by rw [hr, hx], ?_⟩
    rw [hnode]
    rcases hn with hn | ⟨h', hs⟩
    · exact Or.inl hn
    · refine Or.inr ⟨h', ?_⟩
      rw [ho h' ?_, hs]
      rintro rfl
      rw [hmine, Option.some.injEq] at hs
      exact hne hs.symm
  · have hne : h' ≠ h := by
      rintro rfl
      rw [hnone] at hs
      cases hs
    rw [ho h' hne] at hs
    rw [hnode]
    exact N.swept h' e' t n hs ((hretires e' t n).mp he).1
  · rw [hnode] at hc
    obtain ⟨h1, h2⟩ := N.edge n c m hc hm fun hd' => hd (doomed_of
      (sweeps_others ho hp' fun y hy => by rw [hp] at hy; cases next <;> exact hy)
      (by rw [F.stamp]; exact fun _ _ => id) (by rw [hr]; exact fun _ => id) hd')
    exact ⟨by rw [hnode, h1], by rw [hr]; exact h2⟩
  · by_cases hne : h' = h
    · subst hne
      rw [hp'] at hn
      cases next <;> cases hn
    · rw [ho h' hne] at hy hn
      obtain ⟨hx, t, ht, hafter⟩ := N.hand h' y n hy hn
      exact ⟨by rw [hnode, hx], t, by rw [F.stamp, ht], by rw [hr]; exact hafter⟩

end SharedList

end CsSignal
