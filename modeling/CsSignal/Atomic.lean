-- A write on a shared list takes effect at one store: the one that links a new node
-- behind the last one, or the one that leads past a node that is erased. So the list is
-- at every moment what the writes that took effect make of a sequence, and a call that
-- returned took effect exactly once.
import CsSignal.Representation
import CsSignal.EntrySteps

namespace CsSignal

open LinkedCells

/-! ## A sequence with writes -/

/-- A write on a sequence. An element is known by the number of its push. -/
inductive Write (α : Type)
  | push (n : Nat) (data : α)
  | erase (n : Nat)

def Write.edit {α : Type} (items : List (Nat × α)) : Write α → List (Nat × α)
  | .push n data => items ++ [(n, data)]
  | .erase n => items.filter fun x => x.1 ≠ n

/-- What can be seen of a write: that it is asked for, and that it takes effect. -/
inductive Mark (α : Type)
  | ask (h : Handle) (w : Write α)
  | effect (h : Handle)

/-- A sequence, how many elements were pushed or are to be, and the write that did not
take effect yet, with the handle that asked for it. -/
structure Sequence (α : Type) where
  items : List (Nat × α) := []
  count : Nat := 0
  asked : Option (Handle × Write α) := none

namespace Sequence

variable {α : Type} {s s' : Sequence α} {h : Handle}

/-- One write is asked for at a time, and a push is given the next number. A write takes
effect at once, and only for the handle that asked. -/
def step (s : Sequence α) : Mark α → Except Refusal (Sequence α)
  | .ask h (.push n data) =>
    if s.asked.isNone ∧ n = s.count then
      .ok { s with asked := some (h, .push n data), count := s.count + 1 }
    else .error .illegal
  | .ask h (.erase n) =>
    if s.asked.isNone then .ok { s with asked := some (h, .erase n) } else .error .illegal
  | .effect h =>
    match s.asked with
    | some (h', w) =>
      if h' = h then .ok { s with items := w.edit s.items, asked := none } else .error .illegal
    | none => .error .illegal

/-- Does the handle wait for its write? -/
def waits (s : Sequence α) (h : Handle) : Bool := s.asked.any fun x => x.1 == h

end Sequence

namespace Mark

variable {α : Type}

def isAsk (h : Handle) : Mark α → Bool
  | ask h' _ => h' == h
  | effect _ => false

def isEffect (h : Handle) : Mark α → Bool
  | ask _ _ => false
  | effect h' => h' == h

end Mark

namespace Sequence

variable {α : Type} {s s' : Sequence α} {m : Mark α} {ms : List (Mark α)}

/-- A handle that asks waits until its write takes effect. -/
theorem step_counts (h : Handle) (hs : s.step m = .ok s') :
    (m.isAsk h).toNat + (s.waits h).toNat = (m.isEffect h).toNat + (s'.waits h).toNat := by
  cases m with
  | ask h' w =>
    have hfree : s.asked.isNone = true → s.waits h = false := by
      intro ha
      rw [Option.isNone_iff_eq_none] at ha
      simp [waits, ha]
    cases w with
    | push n data =>
      simp only [step] at hs
      split at hs
      · rename_i ha
        cases hs
        rw [hfree ha.1]
        simp [Mark.isAsk, Mark.isEffect, waits]
      · cases hs
    | erase n =>
      simp only [step] at hs
      split at hs
      · rename_i ha
        cases hs
        rw [hfree ha]
        simp [Mark.isAsk, Mark.isEffect, waits]
      · cases hs
  | effect h' =>
    simp only [step] at hs
    split at hs
    · rename_i h'' w ha
      split at hs
      · rename_i hh
        cases hs
        simp [waits, ha, hh, Mark.isAsk, Mark.isEffect]
      · cases hs
    · cases hs

theorem run_counts (h : Handle) (hr : Runs.run step s ms = .ok s') :
    ms.countP (Mark.isAsk h) + (s.waits h).toNat =
      ms.countP (Mark.isEffect h) + (s'.waits h).toNat := by
  induction ms generalizing s with
  | nil =>
    cases hr
    rfl
  | cons m ms ih =>
    obtain ⟨s1, hs, hr⟩ := Runs.run_cons.mp hr
    have h1 := step_counts h hs
    have h2 := ih hr
    rw [List.countP_cons, List.countP_cons]
    cases ha : m.isAsk h <;> cases he : m.isEffect h <;> simp [ha, he] at h1 ⊢ <;> omega

end Sequence

/-! ## What the list shows -/

namespace Job

variable {α : Type}

/-- The write that a call still waits for. -/
def asks (node : Heap α) : Job → Option (Write α)
  | pushLoad n | pushHead n | pushBack n _ | pushNext n _ => (node n).map fun c => .push n c.data
  | eraseTest n _ _ | eraseBack n _ _ | erasePrev n _ _ _ => some (.erase n)
  | _ => Option.none

/-- Does the write take effect in the next step of its call? An erase of a node that was
erased before has nothing to do. -/
def mark (node : Heap α) (h : Handle) : Job → Option (Mark α)
  | pushHead _ | pushNext _ _ | erasePrev _ _ _ _ => some (.effect h)
  | eraseTest n _ _ => (node n).bind fun c => if c.deleted then some (.effect h) else Option.none
  | _ => Option.none

theorem mark_not_ask (node : Heap α) (h h' : Handle) (job : Job) :
    (job.mark node h').any (Mark.isAsk h) = false := by
  cases job with
  | eraseTest n assign oldNext =>
    simp only [mark]
    cases node n with
    | none => rfl
    | some c => cases hd : c.deleted <;> simp [hd, Mark.isAsk]
  | _ => rfl

end Job

/-- The event asks for a write. -/
def Event.writes {α : Type} : Event α → Bool
  | .pushBack _ | .erase _ => true
  | _ => false

namespace RcuList

variable {α : Type} {l l' : RcuList α} {z : Nat} {e : ZombieListNode}

/-- The node of an entry is freed, and nothing else happens to the nodes. -/
theorem nodes_freed (h : l.freeZombieNode e = .ok l') :
    l'.head = l.head ∧ l'.nodeCount = l.nodeCount ∧
      ∀ n, e.zombieNode ≠ some n → l'.node n = l.node n := by
  unfold freeZombieNode freeNode at h
  split at h
  · rename_i d hd
    split at h
    · cases h
      refine ⟨rfl, rfl, fun n hn => Function.update_of_ne ?_ _ _⟩
      rintro rfl
      exact hn hd
    · cases h
  · cases h
    exact ⟨rfl, rfl, fun _ _ => rfl⟩

end RcuList

namespace SharedList

variable {α : Type} {σ σ' σ1 : SharedList α} {h : Handle} {p' : Phase} {e : Event α} {z n : Nat}
  {iter : Option Nat} {job : Job} {xs items : List (Nat × α)}

/-- The write in progress, until it takes effect. -/
def asked (σ : SharedList α) : Option (Handle × Write α) :=
  match σ.m_write_mutex with
  | some h => ((σ.phase h).job.asks σ.list.node).map fun w => (h, w)
  | none => none

/-- The list as a sequence: what a walk from the head meets now. -/
def sequence (σ : SharedList α) : Sequence α := ⟨σ.list.toList, σ.list.nodeCount, σ.asked⟩

def mark (σ : SharedList α) (x : Handle × Event α) : Option (Mark α) :=
  match σ.phase x.1, x.2 with
  | .active _ _ _ .none, .pushBack data => some (.ask x.1 (.push σ.list.nodeCount data))
  | .active _ _ (some n) .none, .erase _ => some (.ask x.1 (.erase n))
  | .active _ _ _ job, .go => job.mark σ.list.node x.1
  | _, _ => none

/-- The step does to the sequence what its mark says. -/
def Shows (σ σ' : SharedList α) (x : Handle × Event α) : Prop :=
  Runs.marked Sequence.step σ.sequence (σ.mark x) = .ok σ'.sequence

/-! ## Walks from the head -/

theorem Linked.climbs (L : Linked σ) : Climbs σ.list.node σ.list.nodeCount σ.list.head := by
  intro n hr
  obtain ⟨xs, N⟩ := L.safe.nodes
  obtain ⟨_, hsome⟩ := N.of_reaches hr fun m hm => N.head_live hm
  obtain ⟨c, hc⟩ := Option.isSome_iff_exists.mp hsome
  exact ⟨c, hc, L.lt hc, fun y hy => L.ascends n c y hc hy⟩

theorem Linked.leads (L : Linked σ) : Leads σ.list.node σ.list.head σ.list.toList none :=
  L.climbs.leads fun _ _ => Nat.le_add_left _ _

/-- What the pointers lead to is what the list shows. -/
theorem Linked.toList_eq (L : Linked σ) (hl : Leads σ.list.node σ.list.head items none) :
    σ.list.toList = items := L.leads.unique hl

/-- A step that changes neither the pointers nor the data of the nodes that are met. -/
theorem Linked.toList_same (L : Linked σ) (L' : Linked σ') (hh : σ'.list.head = σ.list.head)
    (hn : ∀ n c, σ.InList n → σ.list.node n = some c →
      ∃ c', σ'.list.node n = some c' ∧ c'.next = c.next ∧ c'.data = c.data) :
    σ'.list.toList = σ.list.toList := by
  apply L'.toList_eq
  rw [hh]
  exact L.leads.congr fun n hx c hc => hn n c (L.leads.reaches hx) hc

/-! ## The write in progress -/

theorem asked_holder (hm : σ1.m_write_mutex = some h) :
    (σ1.goto h p').asked = (p'.job.asks σ1.list.node).map fun w => (h, w) := by
  unfold asked
  rw [show (σ1.goto h p').m_write_mutex = some h from hm]
  simp only [goto, Function.update_self]

/-- A holder of the mutex that has no call in progress. -/
theorem asked_none (hm : σ.m_write_mutex = some h) (hj : (σ.phase h).job = .none) :
    σ.asked = none := by
  simp only [asked, hm, hj, Job.asks, Option.map_none]

/-- A handle that waits for no write goes on, and leaves the nodes of the others. -/
theorem asked_goto (hm : σ1.m_write_mutex = σ.m_write_mutex) (hph : σ1.phase = σ.phase)
    (hj : (σ.phase h).job = .none) (hj' : p'.job = .none)
    (hn : ∀ h' n, ((σ.phase h').job.newNode = some n) → σ1.list.node n = σ.list.node n) :
    (σ1.goto h p').asked = σ.asked := by
  unfold asked
  rw [show (σ1.goto h p').m_write_mutex = σ.m_write_mutex from hm]
  cases σ.m_write_mutex with
  | none => rfl
  | some h' =>
    by_cases hne : h' = h
    · subst hne
      simp only [goto, Function.update_self, hj, hj', Job.asks]
    · simp only [goto, Function.update_of_ne hne, hph]
      have hn' := hn h'
      cases hjob : (σ.phase h').job with
      | pushLoad n | pushHead n | pushBack n t | pushNext n t =>
        rw [hjob] at hn'
        simp only [Job.asks, hn' n rfl]
      | _ => rfl

/-! ## The steps without a mark -/

theorem shows_quiet {x : Handle × Event α} (hm : σ.mark x = none)
    (hl : σ'.list.toList = σ.list.toList) (hc : σ'.list.nodeCount = σ.list.nodeCount)
    (ha : σ'.asked = σ.asked) : Shows σ σ' x := by
  unfold Shows sequence
  rw [hm, hl, hc, ha]
  rfl

/-- A handle that has no call in progress goes on, and the nodes stay as they are. -/
theorem shows_rest (hm : σ.mark (h, e) = none) (hph : σ1.phase = σ.phase)
    (hl : σ1.list.toNodeList = σ.list.toNodeList) (hmu : σ1.m_write_mutex = σ.m_write_mutex)
    (hj : (σ.phase h).job = .none) (hj' : p'.job = .none) :
    Shows σ (σ1.goto h p') (h, e) := by
  have hnode : σ1.list.node = σ.list.node := congrArg NodeList.node hl
  apply shows_quiet hm
  · show σ1.list.toNodeList.toList = _
    rw [hl]
  · exact congrArg NodeList.nodeCount hl
  · exact asked_goto hmu hph hj hj' fun h' n _ => by rw [hnode]

theorem mutex_pushEntry {z : Nat} {stage : PushStage} {next : Option PushStage}
    (hs : σ.pushEntry z stage e = .ok (σ1, next)) : σ1.m_write_mutex = σ.m_write_mutex := by
  unfold pushEntry at hs
  split at hs
  · cases hs
    rfl
  · obtain ⟨l, _, hs⟩ := bind_ok hs
    cases hs
    rfl
  · split at hs
    · obtain ⟨l, _, hs⟩ := bind_ok hs
      cases hs
      rfl
    · cases hs
  · cases hs
    rfl
  · cases hs

theorem shows_lock {write : Bool} {stage : PushStage} (hp : σ.phase h = .lock write z stage)
    (hs : σ.lockStep h write z stage e = .ok σ') : Shows σ σ' (h, e) := by
  have hm : σ.mark (h, e) = none := by
    simp only [mark, hp]
  have hj : (σ.phase h).job = .none := by
    rw [hp]
    rfl
  obtain ⟨⟨σ1, next⟩, hpush, hs⟩ := bind_ok hs
  obtain ⟨hl, hph⟩ := nodes_pushEntry hpush
  have hmu := mutex_pushEntry hpush
  cases next with
  | some next =>
    cases hs
    exact shows_rest hm hph hl hmu hj rfl
  | none =>
    cases hs
    apply shows_rest hm hph hl hmu hj
    cases write <;> rfl

/-! ## The steps of a call -/

/-- The holder of the mutex goes on with its call, and the list is `items` then. -/
theorem Linked.shows_job (L' : Linked (σ1.goto h p')) (hm : σ.m_write_mutex = some h)
    (hm' : σ1.m_write_mutex = some h) (hl : Leads σ1.list.node σ1.list.head items none)
    (hc : σ1.list.nodeCount = σ.list.nodeCount)
    (hstep : Runs.marked Sequence.step
      ⟨σ.list.toList, σ.list.nodeCount, ((σ.phase h).job.asks σ.list.node).map fun w => (h, w)⟩
      (σ.mark (h, e)) =
        .ok ⟨items, σ.list.nodeCount, (p'.job.asks σ1.list.node).map fun w => (h, w)⟩) :
    Shows σ (σ1.goto h p') (h, e) := by
  have hasked : σ.asked = ((σ.phase h).job.asks σ.list.node).map fun w => (h, w) := by
    unfold asked
    rw [hm]
  have hitems : (σ1.goto h p').list.toList = items := L'.toList_eq hl
  have hcount : (σ1.goto h p').list.nodeCount = σ.list.nodeCount := hc
  unfold Shows sequence
  rw [hasked, hitems, hcount, asked_holder hm']
  exact hstep

/-- The call goes on, and a walk meets what it met before. -/
theorem Linked.shows_keep (L : Linked σ) (L' : Linked (σ1.goto h p'))
    (hm : σ.m_write_mutex = some h) (hm' : σ1.m_write_mutex = some h)
    (hh : σ1.list.head = σ.list.head) (hc : σ1.list.nodeCount = σ.list.nodeCount)
    (hn : ∀ n c, σ.list.node n = some c →
      ∃ c', σ1.list.node n = some c' ∧ c'.next = c.next ∧ c'.data = c.data)
    (hmark : σ.mark (h, e) = none)
    (ha : p'.job.asks σ1.list.node = (σ.phase h).job.asks σ.list.node) :
    Shows σ (σ1.goto h p') (h, e) := by
  have hl : Leads σ1.list.node σ1.list.head σ.list.toList none := by
    rw [hh]
    exact L.leads.congr fun n _ c hc => hn n c hc
  apply L'.shows_job hm hm' hl hc
  rw [hmark, ha]
  rfl

theorem Calls.mutex (K : Calls σ h z iter job xs) : σ.m_write_mutex = some h :=
  (K.safe.exclusive.holder h).mp (by rw [K.phase]; rfl)

/-- The list of a call whose nodes are linked as a whole. -/
theorem Linked.whole_eq (L : Linked σ) (hw : σ.list.Whole xs) : σ.list.toList = xs :=
  L.toList_eq (seg_leads hw)

/-- The store of `m_head` links the first node of an empty list. -/
theorem Linked.shows_pushHead (K : Calls σ h z iter (.pushHead n) xs) (L : Linked σ)
    (L' : Linked σ') (hs : σ.jobStep h z iter (.pushHead n) (.go : Event α) = .ok σ') :
    Shows σ σ' (h, .go) := by
  cases hs
  obtain ⟨hw, ⟨data, hd⟩, ht⟩ := K.chain.shape
  have hnil : xs = [] := by
    have hlast := seg_last hw
    rw [ht] at hlast
    simpa using hlast.symm
  have hempty : σ.list.toList = [] := hnil ▸ L.whole_eq hw
  have hl : Leads σ.list.node (some n) [(n, data)] none := ⟨rfl, _, hd, rfl, rfl⟩
  refine L'.shows_job K.mutex K.mutex hl rfl ?_
  simp only [mark, K.phase, Phase.job, Job.asks, Job.mark, hd, hempty, Option.map_some,
    Option.map_none, Runs.marked, Sequence.step, Write.edit, if_true, List.nil_append]

/-- The store to `next` of the last node links the new one behind it. -/
theorem Linked.shows_pushNext {oldTail : Nat} (K : Calls σ h z iter (.pushNext n oldTail) xs)
    (L : Linked σ) (L' : Linked σ')
    (hs : σ.jobStep h z iter (.pushNext n oldTail) (.go : Event α) = .ok σ') :
    Shows σ σ' (h, .go) := by
  obtain ⟨nl, hnl, hs⟩ := bind_ok hs
  obtain ⟨c, hc, rfl⟩ := NodeList.of_write (mapError_ok hnl)
  cases hs
  obtain ⟨hw, ⟨data, hd⟩, ht⟩ := K.chain.shape
  have hxs : σ.list.toList = xs := L.whole_eq hw
  unfold NodeList.Whole at hw
  rw [ht] at hw
  obtain ⟨hmem, hseg⟩ := seg_putNext hw K.chain.nodup (some n)
  have hne : n ≠ oldTail := by
    rintro rfl
    exact (K.chain.pending n rfl).1 hmem
  have hput : putNext σ.list.node oldTail (some n) =
      Function.update σ.list.node oldTail (some { c with next := some n }) := by
    simp [putNext, hc]
  rw [hput] at hseg
  have hl := leads_append.mpr ⟨some n, seg_leads hseg,
    show Leads _ (some n) [(n, data)] none from
      ⟨rfl, _, (Function.update_of_ne hne _ _).trans hd, rfl, rfl⟩⟩
  refine L'.shows_job K.mutex K.mutex hl rfl ?_
  simp only [mark, K.phase, Phase.job, Job.asks, Job.mark, hd, hxs, Option.map_some,
    Option.map_none, Runs.marked, Sequence.step, Write.edit, if_true]

/-- The store that leads past the node, to `next` of the one before it or to `m_head`. -/
theorem Linked.shows_erasePrev {assign : Bool} {oldNext oldPrev : Option Nat}
    (K : Calls σ h z iter (.erasePrev n assign oldNext oldPrev) xs) (L : Linked σ)
    (L' : Linked σ')
    (hs : σ.jobStep h z iter (.erasePrev n assign oldNext oldPrev) (.go : Event α) = .ok σ') :
    Shows σ σ' (h, .go) := by
  obtain ⟨pre, post, hxs, O⟩ := K.chain.shape
  obtain ⟨data, hd⟩ := O.cell
  have hout : n ∉ ids xs := (K.chain.pending n rfl).1
  have hbefore : σ.list.toList = pre ++ (n, data) :: post :=
    L.toList_eq (leads_append.mpr ⟨some n, seg_leads O.before, rfl, _, hd, rfl, seg_leads O.after⟩)
  have hcut : σ.list.toList.filter (fun x => x.1 ≠ n) = xs := by
    rw [hxs] at hout ⊢
    simp only [ids, List.map_append, List.mem_append, not_or] at hout
    rw [hbefore, List.filter_append, List.filter_cons_of_neg (by simp), filter_absent hout.1,
      filter_absent hout.2]
  obtain ⟨l', hrun, _, _, hC⟩ := K.chain.erasePrev
  obtain ⟨pre', post', hxs', O'⟩ := hC.shape
  have hl : Leads l'.node l'.head xs none := by
    rw [hxs']
    exact leads_append.mpr ⟨oldNext, seg_leads O'.before, seg_leads O'.after⟩
  have hstep : Runs.marked Sequence.step
      ⟨σ.list.toList, σ.list.nodeCount, ((σ.phase h).job.asks σ.list.node).map fun w => (h, w)⟩
      (σ.mark (h, (.go : Event α))) = .ok ⟨xs, σ.list.nodeCount, none⟩ := by
    simp only [mark, K.phase, Phase.job, Job.asks, Job.mark, Option.map_some, Runs.marked,
      Sequence.step, Write.edit, if_true, hcut]
  cases oldPrev with
  | none =>
    cases hs
    cases hrun
    exact L'.shows_job K.mutex K.mutex hl rfl hstep
  | some p =>
    obtain ⟨nl, hnl, hs⟩ := bind_ok hs
    have hnl' : nl = l' := Except.ok.inj ((mapError_ok hnl).symm.trans hrun)
    subst hnl'
    obtain ⟨c, hc, rfl⟩ := NodeList.of_write (mapError_ok hnl)
    cases hs
    exact L'.shows_job K.mutex K.mutex hl rfl hstep

/-- An erase of a node that was erased before finds it marked, and out of the list. -/
theorem Linked.shows_eraseTest {assign : Bool} {oldNext : Option Nat}
    (K : Calls σ h z iter (.eraseTest n assign oldNext) xs) (L : Linked σ) (L' : Linked σ')
    (hs : σ.jobStep h z iter (.eraseTest n assign oldNext) (.go : Event α) = .ok σ') :
    Shows σ σ' (h, .go) := by
  obtain ⟨c, hc, hs⟩ := bind_ok hs
  have hc := NodeList.cell_of_deref (mapError_ok hc)
  split at hs
  · rename_i hdel
    cases hs
    obtain ⟨hw, _⟩ := K.chain.shape
    have hxs : σ.list.toList = xs := L.whole_eq hw
    have hout : n ∉ ids xs := by
      intro hm
      obtain ⟨x, hx, rfl⟩ := List.mem_map.mp hm
      obtain ⟨c', hc', hno, _⟩ := seg_cell hw hx
      rw [hc, Option.some.injEq] at hc'
      rw [hc', hno] at hdel
      cases hdel
    refine L'.shows_job K.mutex K.mutex (seg_leads hw) rfl ?_
    simp only [mark, K.phase, Phase.job, Job.asks, Job.mark, hc, Option.bind_some, hdel, if_true,
      Option.map_some, Option.map_none, Runs.marked, Sequence.step, Write.edit, hxs,
      filter_absent hout]
  · rename_i hdel
    obtain ⟨nl, hnl, hs⟩ := bind_ok hs
    obtain ⟨c', hc', rfl⟩ := NodeList.of_write (mapError_ok hnl)
    cases hs
    refine L.shows_keep L' K.mutex K.mutex rfl rfl (fun m d hd => ?_) ?_ ?_
    · by_cases hm : m = n
      · subst hm
        rw [hc', Option.some.injEq] at hd
        subst hd
        exact ⟨_, Function.update_self _ _ _, rfl, rfl⟩
      · exact ⟨d, (Function.update_of_ne hm _ _).trans hd, rfl, rfl⟩
    · simp only [mark, K.phase, Job.mark, hc, Option.bind_some, hdel, if_false, Bool.false_eq_true]
    · rw [K.phase]
      rfl

theorem Linked.shows_eraseLink {assign : Bool} {oldNext : Option Nat} {w : Nat}
    {stage : PushStage} (K : Calls σ h z iter (.eraseLink n assign oldNext w stage) xs)
    (L : Linked σ) (L' : Linked σ')
    (hs : σ.jobStep h z iter (.eraseLink n assign oldNext w stage) e = .ok σ') :
    Shows σ σ' (h, e) := by
  have hmark : σ.mark (h, e) = none := by
    cases e <;> simp only [mark, K.phase, Job.mark]
  have hasks : (σ.phase h).job.asks σ.list.node = none := by
    rw [K.phase]
    rfl
  rw [jobStep_eraseLink] at hs
  obtain ⟨⟨σ1, next⟩, hpush, hs⟩ := bind_ok hs
  obtain ⟨hl, _⟩ := nodes_pushEntry hpush
  have hmu := (mutex_pushEntry hpush).trans K.mutex
  have hsame : ∀ m c, σ.list.node m = some c →
      ∃ c', σ1.list.node m = some c' ∧ c'.next = c.next ∧ c'.data = c.data := by
    intro m c hc
    rw [hl]
    exact ⟨c, hc, rfl, rfl⟩
  cases next with
  | some next =>
    cases hs
    exact L.shows_keep L' K.mutex hmu (by rw [hl]) (by rw [hl]) hsame hmark hasks.symm
  | none =>
    cases hs
    exact L.shows_keep L' K.mutex hmu (by rw [hl]) (by rw [hl]) hsame hmark hasks.symm

theorem Linked.shows_call (K : Calls σ h z iter job xs) (L : Linked σ) (L' : Linked σ')
    (hs : σ.jobStep h z iter job e = .ok σ') : Shows σ σ' (h, e) := by
  have hsame : ∀ m c, σ.list.node m = some c →
      ∃ c', σ.list.node m = some c' ∧ c'.next = c.next ∧ c'.data = c.data :=
    fun m c hc => ⟨c, hc, rfl, rfl⟩
  have hback : ∀ {m : Nat} {d : Node α} {v : Option Nat}, σ.list.node m = some d →
      ∀ k c, σ.list.node k = some c →
        ∃ c', Function.update σ.list.node m (some { d with back := v }) k = some c' ∧
          c'.next = c.next ∧ c'.data = c.data := by
    intro m d v hd k c hc
    by_cases hk : k = m
    · subst hk
      rw [hd, Option.some.injEq] at hc
      subst hc
      exact ⟨_, Function.update_self _ _ _, rfl, rfl⟩
    · exact ⟨c, (Function.update_of_ne hk _ _).trans hc, rfl, rfl⟩
  have hphase : ∀ {q : Phase}, q.job.asks σ.list.node = job.asks σ.list.node →
      q.job.asks σ.list.node = (σ.phase h).job.asks σ.list.node := by
    intro q hq
    rw [K.phase, hq]
    rfl
  rcases go_of_jobStep hs with rfl | ⟨current, assign, oldNext, newZombie, stage, rfl⟩
  · cases job with
    | none => exact absurd rfl K.busy
    | pushHead => exact L.shows_pushHead K L' hs
    | pushNext => exact L.shows_pushNext K L' hs
    | erasePrev => exact L.shows_erasePrev K L' hs
    | eraseTest => exact L.shows_eraseTest K L' hs
    | eraseLink => exact L.shows_eraseLink K L' hs
    | pushLoad =>
      have hmark : σ.mark (h, (.go : Event α)) = none := by simp only [mark, K.phase, Job.mark]
      simp only [jobStep] at hs
      split at hs
      · cases hs
        exact L.shows_keep L' K.mutex K.mutex rfl rfl hsame hmark (hphase rfl)
      · cases hs
        exact L.shows_keep L' K.mutex K.mutex rfl rfl hsame hmark (hphase rfl)
    | pushBack m t =>
      have hmark : σ.mark (h, (.go : Event α)) = none := by simp only [mark, K.phase, Job.mark]
      obtain ⟨nl, hnl, hs⟩ := bind_ok hs
      obtain ⟨c, hc, rfl⟩ := NodeList.of_write (mapError_ok hnl)
      cases hs
      refine L.shows_keep L' K.mutex K.mutex rfl rfl (hback hc) hmark ?_
      simp only [K.phase, Phase.job, Job.asks, withNodes, Function.update_self, hc, Option.map_some]
    | pushTail =>
      have hmark : σ.mark (h, (.go : Event α)) = none := by simp only [mark, K.phase, Job.mark]
      cases hs
      exact L.shows_keep L' K.mutex K.mutex rfl rfl hsame hmark (hphase rfl)
    | eraseBack =>
      have hmark : σ.mark (h, (.go : Event α)) = none := by simp only [mark, K.phase, Job.mark]
      obtain ⟨c, _, hs⟩ := bind_ok hs
      cases hs
      exact L.shows_keep L' K.mutex K.mutex rfl rfl hsame hmark (hphase rfl)
    | eraseNext m assign oldNext oldPrev =>
      have hmark : σ.mark (h, (.go : Event α)) = none := by simp only [mark, K.phase, Job.mark]
      have hasks : (σ.phase h).job.asks σ.list.node = none := by
        rw [K.phase]
        rfl
      cases oldNext with
      | none =>
        cases hs
        exact L.shows_keep L' K.mutex K.mutex rfl rfl hsame hmark hasks.symm
      | some k =>
        obtain ⟨nl, hnl, hs⟩ := bind_ok hs
        obtain ⟨c, hc, rfl⟩ := NodeList.of_write (mapError_ok hnl)
        cases hs
        exact L.shows_keep L' K.mutex K.mutex rfl rfl (hback hc) hmark hasks.symm
    | eraseAlloc =>
      have hmark : σ.mark (h, (.go : Event α)) = none := by simp only [mark, K.phase, Job.mark]
      have hasks : (σ.phase h).job.asks σ.list.node = none := by
        rw [K.phase]
        rfl
      cases hs
      exact L.shows_keep L' K.mutex K.mutex rfl rfl hsame hmark hasks.symm
  · exact L.shows_eraseLink K L' hs

/-! ## The steps of a handle that is accessed -/

theorem Linked.shows_active {write : Bool} (L : Linked σ) (L' : Linked σ')
    (hp : σ.phase h = .active write z iter .none)
    (hs : σ.activeStep h write z iter e = .ok σ') : Shows σ σ' (h, e) := by
  have hj : (σ.phase h).job = .none := by
    rw [hp]
    rfl
  cases e with
  | begin =>
    cases hs
    exact shows_rest (by simp only [mark, hp]) rfl rfl rfl hj rfl
  | unlock =>
    cases hs
    cases write with
    | true => exact shows_rest (by simp only [mark, hp]) rfl rfl rfl hj rfl
    | false => exact shows_rest (by simp only [mark, hp]) rfl rfl rfl hj rfl
  | read =>
    cases iter with
    | none => cases hs
    | some n =>
      obtain ⟨c, _, hs⟩ := bind_ok hs
      cases hs
      exact shows_quiet (by simp only [mark, hp]) rfl rfl rfl
  | next =>
    cases iter with
    | none => cases hs
    | some n =>
      obtain ⟨c, _, hs⟩ := bind_ok hs
      cases hs
      exact shows_rest (by simp only [mark, hp]) rfl rfl rfl hj rfl
  | pushBack data =>
    cases write with
    | false => cases hs
    | true =>
      cases hs
      have hm : σ.m_write_mutex = some h := (L.safe.exclusive.holder h).mp (by rw [hp]; rfl)
      -- the new node is not met before it is linked
      have hitems := L.toList_same L' rfl fun n c hn hc => by
        have hlt := L.in_list_lt hn
        exact ⟨c, (Function.update_of_ne (by omega) _ _).trans hc, rfl, rfl⟩
      have hask : ((σ.allocNode data).goto h
          (.active true z iter (.pushLoad σ.list.nodeCount))).asked =
          some (h, .push σ.list.nodeCount data) := by
        rw [asked_holder (show (σ.allocNode data).m_write_mutex = some h from hm)]
        simp only [Phase.job, Job.asks, allocNode, Function.update_self, Option.map_some]
      unfold Shows sequence
      rw [hitems, hask, asked_none hm hj]
      simp only [mark, hp, Runs.marked, Sequence.step, Option.isNone_none, and_self, if_true]
      rfl
  | erase assign =>
    cases iter with
    | none => cases write <;> cases hs
    | some n =>
      cases write with
      | false => cases hs
      | true =>
        obtain ⟨c, _, hs⟩ := bind_ok hs
        cases hs
        have hm : σ.m_write_mutex = some h := (L.safe.exclusive.holder h).mp (by rw [hp]; rfl)
        unfold Shows sequence
        rw [asked_holder hm, asked_none hm hj]
        simp only [mark, hp, Phase.job, Job.asks, Runs.marked, Sequence.step, Option.isNone_none,
          if_true]
        rfl
  | _ => cases hs

/-! ## Every step -/

/-- A guard frees a node that was retired, so neither one of the list nor the new node
of a call. -/
theorem Linked.shows_sweepNode (L : Linked σ) (L' : Linked σ') (hp : σ.phase h = .sweepNode z n)
    (hs : σ.step (h, .go) = .ok σ') : Shows σ σ' (h, (.go : Event α)) := by
  obtain ⟨xs, N⟩ := L.safe.nodes
  simp only [step, hp] at hs
  obtain ⟨c, hc, hs⟩ := bind_ok hs
  obtain ⟨l, hl, hs⟩ := bind_ok hs
  cases hs
  have hc : σ.list.zombie n = some c := RcuList.entry_of_deref (mapError_ok hc)
  obtain ⟨hhead, hcount, hnode⟩ := RcuList.nodes_freed (mapError_ok hl)
  have hkept : ∀ m, σ.retired m = none → l.node m = σ.list.node m := by
    intro m hm
    apply hnode
    intro hd
    obtain ⟨_, _, u, _, _, hr, _⟩ := N.sweep_there L.safe.entries hp hc hd
    rw [hm] at hr
    cases hr
  apply shows_quiet (by simp only [mark, hp])
  · apply L.toList_same L' hhead
    intro m d hm hd
    refine ⟨d, ?_, rfl, rfl⟩
    exact (hkept m (N.of_reaches hm fun k hk => N.head_live hk).1).trans hd
  · exact hcount
  · refine asked_goto (by rfl) (by rfl) (by rw [hp]; rfl) rfl fun h' m hm => ?_
    apply hkept
    cases hp' : (σ.phase h').job with
    | pushLoad k | pushHead k | pushBack k t | pushNext k t =>
      have hh := L.safe.exclusive.writer h' (by rw [hp']; rintro ⟨⟩)
      have hw := L.safe.exclusive.writing_eq hh
      rw [hp'] at hm hw
      have hC := hw ▸ N.chain
      exact (hC.pending m hm).2
    | _ =>
      rw [hp'] at hm
      cases hm

theorem Linked.shows (L : Linked σ) (hs : σ.step (h, e) = .ok σ') : Shows σ σ' (h, e) := by
  have L' := L.after hs (L.went hs)
  cases hp : σ.phase h with
  | idle =>
    cases e with
    | lock write =>
      rw [step_idle hp] at hs
      cases hs
      exact shows_rest (by simp only [mark, hp]) rfl rfl rfl (by rw [hp]; rfl) rfl
    | _ =>
      simp only [step, hp] at hs
      cases hs
  | lock write z stage =>
    simp only [step, hp] at hs
    exact shows_lock hp hs
  | active write z iter job =>
    by_cases hj : job = .none
    · subst hj
      simp only [step, hp] at hs
      exact L.shows_active L' hp hs
    · obtain ⟨xs, K⟩ := L.safe.calls hp hj
      cases job with
      | none => exact absurd rfl hj
      | _ =>
        simp only [step, hp] at hs
        exact L.shows_call K L' hs
  | lockMutex z =>
    obtain rfl := go_of_step hs (by rw [hp]; rfl)
    simp only [step, hp] at hs
    split at hs
    · rename_i hm
      cases hs
      refine shows_quiet (by simp only [mark, hp]) rfl rfl ?_
      rw [asked_holder rfl]
      simp only [asked, hm, Phase.job, Job.asks, Option.map_none]
    · cases hs
  | unlockMutex z =>
    obtain rfl := go_of_step hs (by rw [hp]; rfl)
    simp only [step, hp] at hs
    cases hs
    have hm : σ.m_write_mutex = some h := (L.safe.exclusive.holder h).mp (by rw [hp]; rfl)
    refine shows_quiet (by simp only [mark, hp]) rfl rfl ?_
    rw [asked_none hm (by rw [hp]; rfl)]
    rfl
  | unlock z =>
    obtain rfl := go_of_step hs (by rw [hp]; rfl)
    simp only [step, hp] at hs
    obtain ⟨c, _, hs⟩ := bind_ok hs
    cases hs
    exact shows_rest (by simp only [mark, hp]) rfl rfl rfl (by rw [hp]; rfl) (job_scanAt ..)
  | scanOwner z cached_next n =>
    obtain rfl := go_of_step hs (by rw [hp]; rfl)
    simp only [step, hp] at hs
    obtain ⟨c, _, hs⟩ := bind_ok hs
    cases hs
    apply shows_rest (by simp only [mark, hp]) rfl rfl rfl (by rw [hp]; rfl)
    split <;> rfl
  | scanNext z cached_next n =>
    obtain rfl := go_of_step hs (by rw [hp]; rfl)
    simp only [step, hp] at hs
    obtain ⟨c, _, hs⟩ := bind_ok hs
    cases hs
    exact shows_rest (by simp only [mark, hp]) rfl rfl rfl (by rw [hp]; rfl) (job_scanAt ..)
  | sweepNode z n =>
    obtain rfl := go_of_step hs (by rw [hp]; rfl)
    exact L.shows_sweepNode L' hp hs
  | sweepNext z n =>
    obtain rfl := go_of_step hs (by rw [hp]; rfl)
    simp only [step, hp] at hs
    obtain ⟨c, _, hs⟩ := bind_ok hs
    cases hs
    exact shows_rest (by simp only [mark, hp]) rfl rfl rfl (by rw [hp]; rfl) rfl
  | sweepFree z n next =>
    obtain rfl := go_of_step hs (by rw [hp]; rfl)
    simp only [step, hp] at hs
    obtain ⟨l, hl, hs⟩ := bind_ok hs
    have hnodes := RcuList.nodes_freeZombie (mapError_ok hl)
    cases hs
    exact shows_rest (by simp only [mark, hp]) rfl hnodes rfl (by rw [hp]; rfl) (job_sweepAt ..)
  | cut z =>
    obtain rfl := go_of_step hs (by rw [hp]; rfl)
    simp only [step, hp] at hs
    obtain ⟨l, hl, hs⟩ := bind_ok hs
    have hnodes := RcuList.nodes_writeZombie (mapError_ok hl)
    cases hs
    exact shows_rest (by simp only [mark, hp]) rfl hnodes rfl (by rw [hp]; rfl) rfl
  | clear z =>
    obtain rfl := go_of_step hs (by rw [hp]; rfl)
    simp only [step, hp] at hs
    obtain ⟨l, hl, hs⟩ := bind_ok hs
    have hnodes := RcuList.nodes_writeZombie (mapError_ok hl)
    cases hs
    exact shows_rest (by simp only [mark, hp]) rfl hnodes rfl (by rw [hp]; rfl) rfl

/-! ## Every run -/

/-- A handle asks for a write only when it has no call in progress. -/
theorem free_of_writes (hs : σ.step (h, e) = .ok σ') (he : e.writes = true) :
    ∃ write z iter, σ.phase h = .active write z iter .none := by
  cases hp : σ.phase h with
  | idle =>
    cases e with
    | lock write => cases he
    | _ =>
      simp only [step, hp] at hs
      cases hs
  | lock write z stage =>
    simp only [step, hp] at hs
    obtain ⟨x, hpush, _⟩ := bind_ok hs
    cases e <;> cases he <;> cases stage <;> cases hpush
  | active write z iter job =>
    by_cases hj : job = .none
    · subst hj
      exact ⟨write, z, iter, rfl⟩
    · have hs' : σ.jobStep h z iter job e = .ok σ' := by
        cases job with
        | none => exact absurd rfl hj
        | _ => simpa only [step, hp] using hs
      rcases go_of_jobStep hs' with rfl | ⟨current, assign, oldNext, newZombie, stage, rfl⟩
      · cases he
      · rw [jobStep_eraseLink] at hs'
        obtain ⟨x, hpush, _⟩ := bind_ok hs'
        cases e <;> cases he <;> cases stage <;> cases hpush
  | _ =>
    obtain rfl := go_of_step hs (by rw [hp]; rfl)
    cases he

/-- A step is marked as an ask when its event asks for a write. -/
theorem mark_isAsk {x : Handle × Event α} (hs : σ.step x = .ok σ') (h : Handle) :
    (σ.mark x).any (Mark.isAsk h) = (x.1 == h && x.2.writes) := by
  obtain ⟨h', e⟩ := x
  cases hw : e.writes with
  | true =>
    obtain ⟨write, z, iter, hp⟩ := free_of_writes hs hw
    simp only [step, hp] at hs
    cases e with
    | pushBack data => simp only [mark, hp, Option.any_some, Mark.isAsk, Bool.and_true]
    | erase assign =>
      cases iter with
      | none => cases write <;> cases hs
      | some n => simp only [mark, hp, Option.any_some, Mark.isAsk, Bool.and_true]
    | _ => cases hw
  | false =>
    rw [Bool.and_false]
    unfold mark
    split
    · rename_i he
      obtain rfl : e = .pushBack _ := he
      cases hw
    · rename_i he
      obtain rfl : e = .erase _ := he
      cases hw
    · exact Job.mark_not_ask _ _ _ _
    · rfl

theorem asks_eq {as : List (Handle × Event α)} (h : Handle) (hr : Runs.run step σ as = .ok σ') :
    (Runs.marks step mark σ as).countP (Mark.isAsk h) =
      as.countP fun x => x.1 == h && x.2.writes := by
  induction as generalizing σ with
  | nil => rfl
  | cons x as ih =>
    obtain ⟨σ1, hs, hr⟩ := Runs.run_cons.mp hr
    have h1 := mark_isAsk hs h
    simp only [Runs.marks, hs, List.countP_append, ih hr, List.countP_cons]
    rw [Nat.add_comm, ← h1]
    cases σ.mark x <;> simp

theorem Linked.shows_run {as : List (Handle × Event α)} (L : Linked σ)
    (hr : Runs.run step σ as = .ok σ') :
    Runs.run Sequence.step σ.sequence (Runs.marks step mark σ as) = .ok σ'.sequence :=
  Runs.run_marks (fun _ _ _ L hs => ⟨L.after hs (L.went hs), L.shows hs⟩) L hr

/-- Whatever the order in which the handles go on: the marks of the run are a run of a
sequence on which each write is one step, and the list shows that sequence. So a handle
asked for as many writes as took effect for it, but for the one that it still waits for;
and it waits for none when it has no call in progress. -/
theorem writes_atomic {as : List (Handle × Event α)} (hr : Runs.run step init as = .ok σ) :
    Runs.run Sequence.step {} (Runs.marks step mark init as) = .ok σ.sequence ∧
      ∀ h, (as.countP fun x => x.1 == h && x.2.writes) =
          (Runs.marks step mark init as).countP (Mark.isEffect h) + (σ.sequence.waits h).toNat ∧
        ((σ.phase h).job = .none → σ.sequence.waits h = false) := by
  have hrun : Runs.run Sequence.step (init : SharedList α).sequence
      (Runs.marks step mark init as) = .ok σ.sequence := linked_init.shows_run hr
  refine ⟨hrun, fun h => ⟨?_, fun hj => ?_⟩⟩
  · have hcount := Sequence.run_counts h hrun
    rw [asks_eq h hr] at hcount
    exact hcount
  · show (σ.asked.any fun x => x.1 == h) = false
    cases hm : σ.m_write_mutex with
    | none => simp only [asked, hm, Option.any_none]
    | some h' =>
      by_cases hne : h' = h
      · rw [asked_none hm (hne ▸ hj)]
        rfl
      · cases hask : (σ.phase h').job.asks σ.list.node with
        | none => simp only [asked, hm, hask, Option.map_none, Option.any_none]
        | some w => simp [asked, hm, hask, hne]

/-- A writer has pushed two elements, and has marked the first one for an erase. -/
def halfErased : List (Handle × Event Nat) :=
  [(0, .lock true), (0, .go), (0, .go), (0, .swap true), (0, .go),
    (0, .pushBack 7), (0, .go), (0, .go), (0, .go),
    (0, .pushBack 8), (0, .go), (0, .go), (0, .go), (0, .go),
    (1, .lock false), (1, .go), (0, .begin), (0, .erase false), (0, .go), (0, .go)]

theorem halfErased_run :
    Runs.run step init halfErased = .ok (Runs.reached step init halfErased) :=
  Runs.run_reached (by decide +kernel)

theorem writes_atomic_halfErased :
    (halfErased.countP fun x => x.1 == 0 && x.2.writes) =
      (Runs.marks step mark init halfErased).countP (Mark.isEffect 0) + 1 := by
  have h := writes_atomic halfErased_run
  have hwaits : (Runs.reached step init halfErased).sequence.waits 0 = true := by decide +kernel
  have h0 := (h.2 0).1
  rw [hwaits] at h0
  exact h0

end SharedList

end CsSignal
