-- What a step does to the `next` pointers of a list that is shared, and to iterators.
-- Only the holder of the mutex moves pointers, it moves those of nodes of the list only,
-- and a node always leads to one that was pushed after it.
import CsSignal.Lib.Trails
import CsSignal.SharedSafety

namespace CsSignal

open LinkedCells

namespace Job

/-- The node of a push that is not linked yet. -/
def newNode : Job → Option Nat
  | pushLoad n | pushHead n | pushBack n _ | pushNext n _ => some n
  | _ => Option.none

/-- The call is an `erase` whose result is assigned to the iterator. -/
def assigns : Job → Bool
  | eraseTest _ assign _ | eraseBack _ assign _ | erasePrev _ assign _ _ | eraseNext _ assign _ _
  | eraseAlloc _ assign _ | eraseLink _ assign _ _ _ => assign
  | _ => false

/-- The node that a call of `erase` is about. -/
def erases : Job → Option Nat
  | eraseTest n _ _ | eraseBack n _ _ | erasePrev n _ _ _ | eraseNext n _ _ _ | eraseAlloc n _ _
  | eraseLink n _ _ _ _ => some n
  | _ => Option.none

end Job

/-- Where the iterator of a handle stands that is accessed. -/
def Phase.walks : Phase → Option (Option Nat)
  | .active _ _ iter _ => some iter
  | _ => none

/-- Nothing is left to choose: the next step of the handle is a step of its call. -/
def Phase.inCall : Phase → Bool
  | .idle | .lock .. | .active .. => false
  | _ => true

namespace Event

variable {α : Type} {e : Event α}

/-- The handle does not begin again, and is not unlocked. -/
def Walks : Event α → Prop
  | .begin | .unlock => False
  | _ => True

instance (e : Event α) : Decidable e.Walks :=
  match e with
  | .begin | .unlock => isFalse id
  | .lock _ | .read | .next | .pushBack _ | .erase _ | .go | .swap _ => isTrue trivial

def isPush : Event α → Bool
  | .pushBack _ => true
  | _ => false

/-- The step moves the iterator: it is `++`, or it ends an `erase` whose result is
assigned to the iterator. -/
def advances (e : Event α) (job job' : Job) : Bool :=
  match e with
  | .next => true
  | _ => job.assigns && !job'.assigns

theorem advances_of_ne {job job' : Job} (he : e ≠ .next) :
    e.advances job job' = (job.assigns && !job'.assigns) := by
  cases e with
  | next => exact absurd rfl he
  | _ => rfl

end Event

/-! ## What a call that succeeds says -/

namespace NodeList

variable {α : Type} {l l' : NodeList α} {n : Nat} {c : Node α}

theorem cell_of_deref (h : l.deref n = .ok c) : l.node n = some c := by
  unfold deref at h
  cases hn : l.node n with
  | none =>
    rw [hn] at h
    cases h
  | some c' =>
    rw [hn] at h
    cases h
    rfl

theorem of_write {f : Node α → Node α} (h : l.write n f = .ok l') :
    ∃ c, l.node n = some c ∧ l' = { l with node := Function.update l.node n (some (f c)) } := by
  unfold write at h
  cases hn : l.node n with
  | none =>
    rw [hn] at h
    cases h
  | some c =>
    rw [hn] at h
    cases h
    exact ⟨c, rfl, rfl⟩

end NodeList

namespace RcuList

variable {α : Type} {l l' : RcuList α} {z : Nat}

theorem nodes_writeZombie {f : ZombieListNode → ZombieListNode}
    (h : l.writeZombie z f = .ok l') : l'.toNodeList = l.toNodeList := by
  unfold writeZombie at h
  split at h
  · cases h
    rfl
  · cases h

theorem nodes_freeZombie (h : l.freeZombie z = .ok l') : l'.toNodeList = l.toNodeList := by
  unfold freeZombie at h
  split at h
  · cases h
    rfl
  · cases h

/-- The node of an entry is freed, and no other node is touched. -/
theorem nodes_freeZombieNode {e : ZombieListNode} (h : l.freeZombieNode e = .ok l') :
    l'.nodeCount = l.nodeCount ∧ ∀ n c, l'.node n = some c → l.node n = some c := by
  unfold freeZombieNode freeNode at h
  split at h
  · rename_i d hd
    split at h
    · cases h
      refine ⟨rfl, fun n c hn => ?_⟩
      by_cases hnd : n = d
      · simp only [hnd, Function.update_self, reduceCtorEq] at hn
      · simpa only [Function.update_of_ne hnd] using hn
    · cases h
  · cases h
    exact ⟨rfl, fun _ _ hn => hn⟩

end RcuList

namespace SharedList

variable {α : Type} {σ σ' σ1 : SharedList α} {h : Handle} {p' : Phase} {e : Event α}

/-! ## The order of the nodes -/

/-- The node is met from the head. -/
def InList (σ : SharedList α) (n : Nat) : Prop := Reaches σ.list.node σ.list.head n

/-- Nodes lead to nodes of greater address, a node that is being pushed is the newest,
and an iterator stands on the node that it is asked to erase. -/
structure Linked (σ : SharedList α) : Prop where
  safe : Safe σ
  ascends : Ascends σ.list.node
  newest : ∀ h n, (σ.phase h).job.newNode = some n → σ.list.nodeCount = n + 1
  stands : ∀ h n, (σ.phase h).job.erases = some n → (σ.phase h).walks = some (some n)

theorem linked_init : Linked (init : SharedList α) where
  safe := safe_init
  ascends := fun _ _ _ hc => nomatch hc
  newest := fun _ _ hn => nomatch hn
  stands := fun _ _ hn => nomatch hn

theorem Linked.lt (L : Linked σ) {n : Nat} {c : Node α} (hc : σ.list.node n = some c) :
    n < σ.list.nodeCount := by
  obtain ⟨xs, N⟩ := L.safe.nodes
  refine Nat.lt_of_not_le fun hge => ?_
  rw [(N.chain.bound n hge).1] at hc
  cases hc

/-- The nodes that are met from the head are there, and not retired. -/
theorem Nodes.of_reaches {xs : List (Nat × α)} {p : Option Nat} {n : Nat} (N : Nodes σ xs)
    (hr : Reaches σ.list.node p n)
    (hp : ∀ m, p = some m → σ.retired m = none ∧ (σ.list.node m).isSome = true) :
    σ.retired n = none ∧ (σ.list.node n).isSome = true := by
  induction hr with
  | here => exact hp _ rfl
  | @next m n c hc _ ih =>
    have hm := (hp m rfl).1
    have hd : ¬ σ.Doomed m := by
      rintro ⟨_, _, _, s, _, _, hs, _⟩
      rw [hm] at hs
      cases hs
    refine ih fun y hy => ?_
    obtain ⟨hsome, hlater⟩ := N.edge m c y hc hy hd
    refine ⟨?_, hsome⟩
    cases hry : σ.retired y with
    | none => rfl
    | some t =>
      obtain ⟨s, hs, _⟩ := hlater t hry
      rw [hm] at hs
      cases hs

theorem Linked.in_list_lt (L : Linked σ) {n : Nat} (hn : σ.InList n) : n < σ.list.nodeCount := by
  obtain ⟨xs, N⟩ := L.safe.nodes
  obtain ⟨_, hsome⟩ := N.of_reaches hn fun m hm => N.head_live hm
  obtain ⟨c, hc⟩ := Option.isSome_iff_exists.mp hsome
  exact L.lt hc

/-- Where the iterator goes in a step: it stays, or it takes the pointer of its node. -/
def Turn (σ : SharedList α) (e : Event α) (p p' : Phase) : Prop :=
  ∀ iter, p.walks = some iter → e.Walks →
    e.advances p.job p'.job = false ∧ p'.walks = some iter ∨
      e.advances p.job p'.job = true ∧
        ∃ n c, iter = some n ∧ σ.list.node n = some c ∧ p'.walks = some c.next

theorem turn_of_none {p : Phase} (hp : p.walks = none) : Turn σ e p p' := fun iter hi => by
  rw [hp] at hi
  cases hi

/-- What a step of the handle `h` does to the nodes and to the other handles. -/
structure Went (σ σ' : SharedList α) (h : Handle) (e : Event α) : Prop where
  others : Others σ σ' h
  edit : Edit σ.list.node σ'.list.node σ'.list.head σ.list.nodeCount σ'.list.nodeCount
  newest : ∀ n, (σ'.phase h).job.newNode = some n → σ'.list.nodeCount = n + 1
  count : σ'.list.nodeCount = σ.list.nodeCount ∨ (σ.phase h).holds = true ∧
    (∃ data, e = .pushBack data) ∧ σ'.list.nodeCount = σ.list.nodeCount + 1
  stands : ∀ n, (σ'.phase h).job.erases = some n → (σ'.phase h).walks = some (some n)
  walk : Turn σ e (σ.phase h) (σ'.phase h)

theorem Linked.after (L : Linked σ) (hs : σ.step (h, e) = .ok σ') (W : Went σ σ' h e) :
    Linked σ' where
  safe := safe_step L.safe hs
  ascends := L.ascends.edit W.edit
  newest h' n hn := by
    by_cases hne : h' = h
    · exact W.newest n (hne ▸ hn)
    · rw [W.others h' hne] at hn
      rcases W.count with hc | ⟨hh, _⟩
      · rw [hc]
        exact L.newest h' n hn
      · -- no other handle has a call in progress while `h` allocates
        have hj : (σ.phase h').job ≠ .none := by
          intro hj
          rw [hj] at hn
          cases hn
        have E := L.safe.exclusive
        have h1 := (E.holder h').mp (E.writer h' hj)
        rw [(E.holder h).mp hh, Option.some.injEq] at h1
        exact absurd h1.symm hne
  stands h' n hn := by
    by_cases hne : h' = h
    · rw [hne] at hn ⊢
      exact W.stands n hn
    · rw [W.others h' hne] at hn ⊢
      exact L.stands h' n hn

/-! ## The steps that move no pointer -/

/-- The handle goes on to `p'`, and a cell that is there has the pointer that it had. -/
theorem Linked.pass (L : Linked σ) (hph : σ1.phase = σ.phase)
    (hc : σ1.list.nodeCount = σ.list.nodeCount)
    (hcell : ∀ n c', σ1.list.node n = some c' → ∃ c, σ.list.node n = some c ∧ c'.next = c.next)
    (hj : p'.job.newNode = none ∨ p'.job.newNode = (σ.phase h).job.newNode)
    (hst : ∀ n, p'.job.erases = some n → p'.walks = some (some n)) (hw : Turn σ e (σ.phase h) p') :
    Went σ (σ1.goto h p') h e where
  others := others_goto_of hph
  edit := .keep (Nat.le_of_eq hc.symm) hcell
  newest n hn := by
    rw [goto_phase] at hn
    rcases hj with hj | hj
    · rw [hj] at hn
      cases hn
    · rw [hj] at hn
      exact hc.trans (L.newest h n hn)
  count := Or.inl hc
  stands n hn := by
    rw [goto_phase] at hn ⊢
    exact hst n hn
  walk := by
    rw [goto_phase]
    exact hw

/-- A handle that is not accessed goes on, and the nodes stay as they are. -/
theorem Linked.rest (L : Linked σ) (hph : σ1.phase = σ.phase)
    (hl : σ1.list.toNodeList = σ.list.toNodeList) (hj : p'.job = .none)
    (hw : (σ.phase h).walks = none) : Went σ (σ1.goto h p') h e := by
  refine L.pass hph (by rw [hl]) (fun n c hc => ⟨c, by rw [← hl]; exact hc, rfl⟩)
    (Or.inl (by rw [hj]; rfl)) (fun n hn => ?_) (turn_of_none hw)
  rw [hj] at hn
  cases hn

theorem nodes_pushEntry {z : Nat} {stage : PushStage} {next : Option PushStage}
    (hs : σ.pushEntry z stage e = .ok (σ1, next)) :
    σ1.list.toNodeList = σ.list.toNodeList ∧ σ1.phase = σ.phase := by
  cases stage with
  | load =>
    cases e with
    | go =>
      cases hs
      exact ⟨rfl, rfl⟩
    | _ => cases hs
  | store oldNext =>
    cases e with
    | go =>
      obtain ⟨l, hl, hs⟩ := bind_ok hs
      cases hs
      exact ⟨RcuList.nodes_writeZombie (mapError_ok hl), rfl⟩
    | _ => cases hs
  | cas oldNext =>
    cases e with
    | swap success =>
      cases success with
      | false =>
        cases hs
        exact ⟨rfl, rfl⟩
      | true =>
        simp only [pushEntry] at hs
        split at hs
        · obtain ⟨l, hl, hs⟩ := bind_ok hs
          have hnodes := RcuList.nodes_writeZombie (mapError_ok hl)
          cases hs
          exact ⟨hnodes, rfl⟩
        · cases hs
    | _ => cases hs

theorem Linked.went_lock (L : Linked σ) {write : Bool} {z : Nat} {stage : PushStage}
    (hp : σ.phase h = .lock write z stage) (hs : σ.lockStep h write z stage e = .ok σ') : Went σ σ' h e := by
  obtain ⟨⟨σ1, next⟩, hpush, hs⟩ := bind_ok hs
  obtain ⟨hl, hph⟩ := nodes_pushEntry hpush
  have hw : (σ.phase h).walks = none := by rw [hp]; rfl
  cases next with
  | some next =>
    cases hs
    exact L.rest hph hl rfl hw
  | none =>
    cases hs
    refine L.rest hph hl ?_ hw
    cases write <;> rfl

/-! ## The steps of a call -/

theorem go_of_jobStep {z : Nat} {iter : Option Nat} {job : Job}
    (hs : σ.jobStep h z iter job e = .ok σ') :
    e = .go ∨ ∃ current assign oldNext newZombie stage,
      job = .eraseLink current assign oldNext newZombie stage := by
  cases job with
  | eraseLink => exact Or.inr ⟨_, _, _, _, _, rfl⟩
  | _ =>
    cases e with
    | go => exact Or.inl rfl
    | _ => cases hs

section

variable {z n : Nat} {iter : Option Nat} {job job' : Job} {xs : List (Nat × α)}

/-- A call does not leave the node that it erases before its end. -/
theorem Linked.stands_on (L : Linked σ) (hp : σ.phase h = .active true z iter job)
    (hn : job.erases = some n) : iter = some n := by
  have hw := L.stands h n (by rw [hp]; exact hn)
  rw [hp] at hw
  exact Option.some.inj hw

/-- A step in the middle of a call leaves the iterator where it is. -/
theorem turn_stay (he : e ≠ .next) (ha : job'.assigns = job.assigns) :
    Turn σ e (.active true z iter job) (.active true z iter job') := fun i hi _ => by
  refine Or.inl ⟨?_, hi⟩
  rw [Event.advances_of_ne he]
  show (job.assigns && !job'.assigns) = false
  rw [ha, Bool.and_not_self]

/-- The call goes on, and moves no pointer. -/
theorem Linked.stay (L : Linked σ) (hp : σ.phase h = .active true z iter job)
    (hph : σ1.phase = σ.phase) (hc : σ1.list.nodeCount = σ.list.nodeCount)
    (hcell : ∀ n c', σ1.list.node n = some c' → ∃ c, σ.list.node n = some c ∧ c'.next = c.next)
    (hj : job'.newNode = none ∨ job'.newNode = job.newNode) (hn : job'.erases = job.erases)
    (ha : job'.assigns = job.assigns) (he : e ≠ .next) :
    Went σ (σ1.goto h (.active true z iter job')) h e := by
  refine L.pass hph hc hcell (by rw [hp]; exact hj) (fun n hn' => ?_) ?_
  · rw [L.stands_on hp (hn.symm.trans hn')]
    rfl
  · rw [hp]
    exact turn_stay he ha

/-- The call comes to its end, and the iterator may take the pointer of the node. -/
theorem Linked.leave (L : Linked σ) {assign : Bool} {oldNext : Option Nat}
    (hp : σ.phase h = .active true z iter job) (hph : σ1.phase = σ.phase)
    (hl : σ1.list.toNodeList = σ.list.toNodeList) (hn : job.erases = some n)
    (hc : ∃ c, σ.list.node n = some c ∧ c.next = oldNext) (ha : job.assigns = assign)
    (he : e ≠ .next) :
    Went σ (σ1.goto h (.active true z (if assign then oldNext else iter) .none)) h e := by
  refine L.pass hph (by rw [hl]) (fun m c hc => ⟨c, by rw [← hl]; exact hc, rfl⟩) (Or.inl rfl)
    (fun m hm => by cases hm) fun i hi _ => ?_
  have hadv : e.advances job .none = assign := by
    rw [Event.advances_of_ne he, ha]
    exact Bool.and_true assign
  rw [hp] at hi ⊢
  obtain rfl := Option.some.inj hi
  cases assign with
  | true =>
    obtain ⟨c, hc, rfl⟩ := hc
    exact Or.inr ⟨hadv, n, c, L.stands_on hp hn, hc, rfl⟩
  | false => exact Or.inl ⟨hadv, rfl⟩

/-- A push that links its node behind the last one. -/
theorem Linked.went_pushNext (L : Linked σ) {oldTail : Nat}
    (K : Calls σ h z iter (.pushNext n oldTail) xs)
    (hs : σ.jobStep h z iter (.pushNext n oldTail) .go = .ok σ') : Went σ σ' h .go := by
  obtain ⟨nl, hnl, hs⟩ := bind_ok hs
  obtain ⟨c, hc, rfl⟩ := NodeList.of_write (mapError_ok hnl)
  cases hs
  obtain ⟨hw, _, ht⟩ := K.chain.shape
  unfold NodeList.Whole at hw
  rw [ht] at hw
  obtain ⟨hr, _⟩ := seg_end hw
  obtain ⟨hmem, _⟩ := seg_putNext hw K.chain.nodup (some n)
  have hnew : σ.list.nodeCount = n + 1 := L.newest h n (by rw [K.phase]; rfl)
  have hne : oldTail ≠ n := fun he => (K.chain.pending n rfl).1 (he ▸ hmem)
  refine ⟨others_goto_of rfl, .move hr fun m hm => ?_, fun m hm => ?_, Or.inl rfl,
    fun m hm => ?_, ?_⟩
  · have hlt := L.lt hc
    obtain rfl := Option.some.inj hm
    omega
  · rw [goto_phase] at hm
    cases hm
  · rw [goto_phase] at hm
    cases hm
  · rw [K.phase, goto_phase]
    exact turn_stay (fun he => nomatch he) rfl

/-- An erase that leads past its node. -/
theorem Linked.went_erasePrev (L : Linked σ) {assign : Bool} {oldNext oldPrev : Option Nat}
    (K : Calls σ h z iter (.erasePrev n assign oldNext oldPrev) xs)
    (hs : σ.jobStep h z iter (.erasePrev n assign oldNext oldPrev) .go = .ok σ') :
    Went σ σ' h .go := by
  have hgo : (.go : Event α) ≠ .next := fun he => nomatch he
  cases oldPrev with
  | none =>
    cases hs
    exact L.stay K.phase rfl rfl (fun m c hm => ⟨c, hm, rfl⟩) (Or.inl rfl) rfl rfl hgo
  | some p =>
    obtain ⟨nl, hnl, hs⟩ := bind_ok hs
    obtain ⟨c, hc, rfl⟩ := NodeList.of_write (mapError_ok hnl)
    cases hs
    obtain ⟨pre, post, hxs, O⟩ := K.chain.shape
    obtain ⟨data, hd⟩ := O.cell
    obtain ⟨hr, c', hc', hnext⟩ := seg_end O.before
    rw [hc, Option.some.injEq] at hc'
    subst hc'
    refine ⟨others_goto_of rfl, .move hr fun m hm => ?_, fun m hm => ?_, Or.inl rfl,
      fun m hm => ?_, ?_⟩
    · have h1 := L.ascends p c n hc hnext
      have h2 := L.ascends n _ m hd hm
      omega
    · rw [goto_phase] at hm
      cases hm
    · rw [goto_phase] at hm ⊢
      rw [L.stands_on K.phase hm]
      rfl
    · rw [K.phase, goto_phase]
      exact turn_stay hgo rfl

theorem Linked.went_eraseLink (L : Linked σ) {assign : Bool} {oldNext : Option Nat} {w : Nat}
    {stage : PushStage} (K : Calls σ h z iter (.eraseLink n assign oldNext w stage) xs)
    (hs : σ.jobStep h z iter (.eraseLink n assign oldNext w stage) e = .ok σ') :
    Went σ σ' h e := by
  rw [jobStep_eraseLink] at hs
  obtain ⟨⟨σ1, next⟩, hpush, hs⟩ := bind_ok hs
  obtain ⟨hl, hph⟩ := nodes_pushEntry hpush
  have he : e ≠ .next := by
    rintro rfl
    cases stage <;> cases hpush
  cases next with
  | some next =>
    cases hs
    exact L.stay K.phase hph (by rw [hl]) (fun m c hm => ⟨c, by rw [← hl]; exact hm, rfl⟩)
      (Or.inl rfl) rfl rfl he
  | none =>
    cases hs
    obtain ⟨_, ⟨c, hc, hnext, _⟩, _⟩ := K.chain.shape
    exact L.leave K.phase hph hl rfl ⟨c, hc, hnext⟩ rfl he

theorem Linked.went_job (L : Linked σ) (K : Calls σ h z iter job xs)
    (hs : σ.jobStep h z iter job e = .ok σ') : Went σ σ' h e := by
  have hp := K.phase
  rcases go_of_jobStep hs with rfl | ⟨current, assign, oldNext, newZombie, stage, rfl⟩
  · have hgo : (.go : Event α) ≠ .next := fun he => nomatch he
    have hsame : ∀ n c', σ.list.node n = some c' → ∃ c, σ.list.node n = some c ∧ c'.next = c.next :=
      fun n c hc => ⟨c, hc, rfl⟩
    cases job with
    | none => exact absurd rfl K.busy
    | pushNext n oldTail => exact L.went_pushNext K hs
    | erasePrev n assign oldNext oldPrev => exact L.went_erasePrev K hs
    | eraseLink => exact L.went_eraseLink K hs
    | pushLoad n =>
      simp only [jobStep] at hs
      split at hs
      · cases hs
        exact L.stay hp rfl rfl hsame (Or.inr rfl) rfl rfl hgo
      · cases hs
        exact L.stay hp rfl rfl hsame (Or.inr rfl) rfl rfl hgo
    | pushHead n =>
      cases hs
      exact L.stay hp rfl rfl hsame (Or.inl rfl) rfl rfl hgo
    | pushBack n oldTail =>
      obtain ⟨nl, hnl, hs⟩ := bind_ok hs
      obtain ⟨c, hc, rfl⟩ := NodeList.of_write (mapError_ok hnl)
      cases hs
      exact L.stay hp rfl rfl (next_update hc rfl) (Or.inr rfl) rfl rfl hgo
    | pushTail n =>
      cases hs
      exact L.stay hp rfl rfl hsame (Or.inl rfl) rfl rfl hgo
    | eraseTest n assign oldNext =>
      obtain ⟨c, _, hs⟩ := bind_ok hs
      split at hs
      · cases hs
        exact L.leave hp rfl rfl rfl K.chain.shape.2 rfl hgo
      · obtain ⟨nl, hnl, hs⟩ := bind_ok hs
        obtain ⟨c, hc, rfl⟩ := NodeList.of_write (mapError_ok hnl)
        cases hs
        exact L.stay hp rfl rfl (next_update hc rfl) (Or.inl rfl) rfl rfl hgo
    | eraseBack n assign oldNext =>
      obtain ⟨c, _, hs⟩ := bind_ok hs
      cases hs
      exact L.stay hp rfl rfl hsame (Or.inl rfl) rfl rfl hgo
    | eraseNext n assign oldNext oldPrev =>
      cases oldNext with
      | none =>
        cases hs
        exact L.stay hp rfl rfl hsame (Or.inl rfl) rfl rfl hgo
      | some k =>
        obtain ⟨nl, hnl, hs⟩ := bind_ok hs
        obtain ⟨c, hc, rfl⟩ := NodeList.of_write (mapError_ok hnl)
        cases hs
        exact L.stay hp rfl rfl (next_update hc rfl) (Or.inl rfl) rfl rfl hgo
    | eraseAlloc n assign oldNext =>
      cases hs
      exact L.stay hp rfl rfl hsame (Or.inl rfl) rfl rfl hgo
  · exact L.went_eraseLink K hs

/-! ## The steps of a handle that is accessed -/

theorem Linked.went_active (L : Linked σ) {write : Bool}
    (hp : σ.phase h = .active write z iter .none)
    (hs : σ.activeStep h write z iter e = .ok σ') : Went σ σ' h e := by
  have hi : (σ.phase h).walks = some iter := by rw [hp]; rfl
  have hsame : ∀ n c', σ.list.node n = some c' → ∃ c, σ.list.node n = some c ∧ c'.next = c.next :=
    fun n c hc => ⟨c, hc, rfl⟩
  cases e with
  | begin =>
    cases hs
    exact L.pass rfl rfl hsame (Or.inl rfl) (fun n hn => by cases hn) fun _ _ he => absurd he id
  | unlock =>
    cases hs
    cases write with
    | true =>
      exact L.pass rfl rfl hsame (Or.inl rfl) (fun n hn => by cases hn) fun _ _ he => absurd he id
    | false =>
      exact L.pass rfl rfl hsame (Or.inl rfl) (fun n hn => by cases hn) fun _ _ he => absurd he id
  | read =>
    cases iter with
    | none => cases hs
    | some n =>
      obtain ⟨c, _, hs⟩ := bind_ok hs
      cases hs
      refine ⟨fun _ _ => rfl, .same _ _ _, L.newest h, Or.inl rfl, L.stands h, fun i hi _ => ?_⟩
      rw [hp] at hi ⊢
      exact Or.inl ⟨rfl, hi⟩
  | next =>
    cases iter with
    | none => cases hs
    | some n =>
      obtain ⟨c, hc, hs⟩ := bind_ok hs
      cases hs
      refine L.pass rfl rfl hsame (Or.inl rfl) (fun n hn => by cases hn) fun i hi' _ => ?_
      rw [hi] at hi'
      obtain rfl := Option.some.inj hi'
      exact Or.inr ⟨rfl, n, c, rfl, NodeList.cell_of_deref (mapError_ok hc), rfl⟩
  | pushBack data =>
    cases write with
    | false => cases hs
    | true =>
      cases hs
      refine ⟨others_goto_of rfl, .alloc rfl, fun n hn => ?_,
        Or.inr ⟨by rw [hp]; rfl, ⟨data, rfl⟩, rfl⟩, fun n hn => ?_, ?_⟩
      · rw [goto_phase] at hn
        obtain rfl := Option.some.inj hn
        rfl
      · rw [goto_phase] at hn
        cases hn
      · rw [hp, goto_phase]
        exact turn_stay (fun he => nomatch he) rfl
  | erase assign =>
    cases iter with
    | none => cases write <;> cases hs
    | some n =>
      cases write with
      | false => cases hs
      | true =>
        obtain ⟨c, _, hs⟩ := bind_ok hs
        cases hs
        refine L.pass rfl rfl hsame (Or.inl rfl) (fun m hm => ?_) fun i hi' _ => ?_
        · obtain rfl := Option.some.inj hm
          rfl
        · rw [hp] at hi' ⊢
          exact Or.inl ⟨rfl, hi'⟩
  | _ => cases hs

end

/-! ## Every step -/

theorem job_sweepAt (z : Nat) (next : Option Nat) : (sweepAt z next).job = .none := by
  cases next <;> rfl

theorem job_scanAt (z : Nat) (cached_next next : Option Nat) :
    (scanAt z cached_next next).job = .none := by
  cases next with
  | none => exact job_sweepAt z cached_next
  | some n => rfl

theorem go_of_step (hs : σ.step (h, e) = .ok σ') (hp : (σ.phase h).inCall = true) : e = .go := by
  cases hph : σ.phase h with
  | idle =>
    rw [hph] at hp
    cases hp
  | lock write z stage =>
    rw [hph] at hp
    cases hp
  | active write z iter job =>
    rw [hph] at hp
    cases hp
  | _ =>
    cases e with
    | go => rfl
    | _ =>
      simp only [step, hph] at hs
      cases hs

theorem Linked.went (L : Linked σ) (hs : σ.step (h, e) = .ok σ') : Went σ σ' h e := by
  cases hp : σ.phase h with
  | idle =>
    cases e with
    | lock write =>
      rw [step_idle hp] at hs
      cases hs
      exact L.rest rfl rfl rfl (by rw [hp]; rfl)
    | _ =>
      simp only [step, hp] at hs
      cases hs
  | lock write z stage =>
    simp only [step, hp] at hs
    exact L.went_lock hp hs
  | active write z iter job =>
    by_cases hj : job = .none
    · subst hj
      simp only [step, hp] at hs
      exact L.went_active hp hs
    · obtain ⟨xs, K⟩ := L.safe.calls hp hj
      cases job with
      | none => exact absurd rfl hj
      | _ =>
        simp only [step, hp] at hs
        exact L.went_job K hs
  | lockMutex z =>
    obtain rfl := go_of_step hs (by rw [hp]; rfl)
    simp only [step, hp] at hs
    split at hs
    · cases hs
      exact L.rest rfl rfl rfl (by rw [hp]; rfl)
    · cases hs
  | unlockMutex z =>
    obtain rfl := go_of_step hs (by rw [hp]; rfl)
    simp only [step, hp] at hs
    cases hs
    exact L.rest rfl rfl rfl (by rw [hp]; rfl)
  | unlock z =>
    obtain rfl := go_of_step hs (by rw [hp]; rfl)
    simp only [step, hp] at hs
    obtain ⟨c, _, hs⟩ := bind_ok hs
    cases hs
    exact L.rest rfl rfl (job_scanAt ..) (by rw [hp]; rfl)
  | scanOwner z cached_next n =>
    obtain rfl := go_of_step hs (by rw [hp]; rfl)
    simp only [step, hp] at hs
    obtain ⟨c, _, hs⟩ := bind_ok hs
    cases hs
    refine L.rest rfl rfl ?_ (by rw [hp]; rfl)
    split <;> rfl
  | scanNext z cached_next n =>
    obtain rfl := go_of_step hs (by rw [hp]; rfl)
    simp only [step, hp] at hs
    obtain ⟨c, _, hs⟩ := bind_ok hs
    cases hs
    exact L.rest rfl rfl (job_scanAt ..) (by rw [hp]; rfl)
  | sweepNode z n =>
    obtain rfl := go_of_step hs (by rw [hp]; rfl)
    simp only [step, hp] at hs
    obtain ⟨c, _, hs⟩ := bind_ok hs
    obtain ⟨l, hl, hs⟩ := bind_ok hs
    obtain ⟨hcount, hcell⟩ := RcuList.nodes_freeZombieNode (mapError_ok hl)
    cases hs
    exact L.pass rfl hcount (fun m c hc => ⟨c, hcell m c hc, rfl⟩) (Or.inl rfl)
      (fun n hn => by cases hn) (turn_of_none (by rw [hp]; rfl))
  | sweepNext z n =>
    obtain rfl := go_of_step hs (by rw [hp]; rfl)
    simp only [step, hp] at hs
    obtain ⟨c, _, hs⟩ := bind_ok hs
    cases hs
    exact L.rest rfl rfl rfl (by rw [hp]; rfl)
  | sweepFree z n next =>
    obtain rfl := go_of_step hs (by rw [hp]; rfl)
    simp only [step, hp] at hs
    obtain ⟨l, hl, hs⟩ := bind_ok hs
    have hnodes := RcuList.nodes_freeZombie (mapError_ok hl)
    cases hs
    exact L.rest rfl hnodes (job_sweepAt ..) (by rw [hp]; rfl)
  | cut z =>
    obtain rfl := go_of_step hs (by rw [hp]; rfl)
    simp only [step, hp] at hs
    obtain ⟨l, hl, hs⟩ := bind_ok hs
    have hnodes := RcuList.nodes_writeZombie (mapError_ok hl)
    cases hs
    exact L.rest rfl hnodes rfl (by rw [hp]; rfl)
  | clear z =>
    obtain rfl := go_of_step hs (by rw [hp]; rfl)
    simp only [step, hp] at hs
    obtain ⟨l, hl, hs⟩ := bind_ok hs
    have hnodes := RcuList.nodes_writeZombie (mapError_ok hl)
    cases hs
    exact L.rest rfl hnodes rfl (by rw [hp]; rfl)

theorem Linked.run {as : List (Handle × Event α)} (L : Linked σ)
    (hr : Runs.run step σ as = .ok σ1) : Linked σ1 :=
  Runs.run_keeps (fun _ _ _ L hs => L.after hs (L.went hs)) hr L

theorem linked_run {as : List (Handle × Event α)} (hr : Runs.run step init as = .ok σ) : Linked σ :=
  linked_init.run hr

end SharedList

end CsSignal
