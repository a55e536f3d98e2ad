-- What becomes of the memory of a connection list: every cell is in the list or
-- on its stack, so a destructor that meets no active guard frees all of them.
import CsSignal.Matching
import CsSignal.Context

namespace CsSignal

open LinkedCells Calls RcuList

/-! ## One list -/

namespace RcuList

variable {α : Type}

/-- No cell of the list is lost: a node is in the list or kept by an entry, and
an entry is on the stack. -/
structure Covered (l : RcuList α) (zs : List Entry) : Prop where
  nodes : ∀ n c, l.node n = some c → n ∈ ids l.toList ∨ n ∈ dead zs
  entries : ∀ z e, l.zombie z = some e → z ∈ zs.map Entry.id

/-- The memory of a list with no lost cell; `gs` are its active guards, newest first. -/
def Full (l : RcuList α) (gs : List Nat) : Prop :=
  ∃ zs, Rep l l.toList zs ∧ Covered l zs ∧ owned zs = gs

/-- No cell of the list is allocated. -/
def Released (l : RcuList α) : Prop := (∀ n, l.node n = none) ∧ ∀ z, l.zombie z = none

theorem full_empty : Full ({} : RcuList α) [] :=
  ⟨[], rep_empty, ⟨fun _ _ h => (nomatch h), fun _ _ h => (nomatch h)⟩, rfl⟩

theorem Full.lock {l : RcuList α} {gs : List Nat} (h : Full l gs) :
    Full (l.rcuReadLock).2 (l.zombieCount :: gs) := by
  obtain ⟨zs, hr, hc, ho⟩ := h
  have hl : (l.rcuReadLock).2.toList = l.toList := hr.lock.toList_eq
  refine ⟨l.guardEntry :: zs, hl ▸ hr.lock, ⟨fun n c hn => ?_, fun z e hz => ?_⟩, ?_⟩
  · rw [hl]
    exact hc.nodes n c hn
  · by_cases hzc : z = l.zombieCount
    · exact hzc ▸ List.mem_cons_self
    · have hz' : l.zombie z = some e := (Function.update_of_ne hzc _ _).symm.trans hz
      exact List.mem_cons_of_mem _ (hc.entries z e hz')
  · rw [owned_cons_true rfl, ho]

theorem Full.pushBack {l l' : RcuList α} {gs : List Nat} {a : α} (h : Full l gs)
    (hrun : l.pushBack a = .ok l') : Full l' gs := by
  obtain ⟨zs, hr, hc, ho⟩ := h
  obtain ⟨l1, hrun1, hr1, _, _, hz1, hsame⟩ := hr.pushBack a
  rw [hrun, Except.ok.injEq] at hrun1
  subst hrun1
  have hl : l'.toList = l.toList ++ [(l.nodeCount, a)] := hr1.toList_eq
  refine ⟨zs, hl ▸ hr1, ⟨fun n c hn => ?_, fun z e hz => hc.entries z e (hz1 ▸ hz)⟩, ho⟩
  rw [hl]
  by_cases hlive : n ∈ ids l.toList
  · exact Or.inl (by simp [hlive])
  · by_cases hnew : n = l.nodeCount
    · exact Or.inl (by simp [hnew])
    · rw [hsame n hlive hnew] at hn
      exact Or.inr ((hc.nodes n c hn).resolve_left hlive)

/-- `erase` as one step: the unlink, and the entry of a node that was in the list. -/
theorem Full.erase {l : RcuList α} {gs : List Nat} {n : Nat} {nx : Option Nat} {found : Bool}
    {nl : NodeList α} (h : Full l gs) (hrun : l.toNodeList.unlink n = .ok (nx, found, nl)) :
    Full (if found then l.erased nl n else { l with toNodeList := nl }) gs := by
  obtain ⟨zs, hr, hc, ho⟩ := id h
  cases hn : l.node n with
  | none => simp only [NodeList.unlink, NodeList.deref, hn, error_bind, reduceCtorEq] at hrun
  | some c =>
    by_cases hdel : c.deleted = true
    · -- the node was erased before
      simp only [NodeList.unlink, NodeList.deref, hn, ok_bind, hdel, if_true, Except.ok.injEq,
        Prod.mk.injEq] at hrun
      obtain ⟨_, rfl, rfl⟩ := hrun
      exact h
    · have hlive : n ∈ ids l.toList := by
        refine (hc.nodes n c hn).resolve_right fun hd => hdel ?_
        obtain ⟨c', hc', hdel'⟩ := hr.kept n hd
        rw [hn, Option.some.injEq] at hc'
        rw [hc', hdel']
      obtain ⟨x, hx, rfl⟩ := List.mem_map.mp hlive
      obtain ⟨pre, post, hsplit⟩ := List.append_of_mem hx
      have hr' : Rep l (pre ++ x :: post) zs := hsplit ▸ hr
      obtain ⟨nl', c', _, _, _, hrun', _, hre, _, hsame⟩ := hr'.erase
      rw [hrun, Except.ok.injEq, Prod.mk.injEq, Prod.mk.injEq] at hrun'
      obtain ⟨_, rfl, rfl⟩ := hrun'
      have hl : (l.erased nl x.1).toList = pre ++ post := hre.toList_eq
      rw [if_pos rfl]
      refine ⟨_, hl.symm ▸ hre, ⟨fun m d hm => ?_, fun z e hz => ?_⟩, ?_⟩
      · rw [hl]
        by_cases hmx : m = x.1
        · exact Or.inr (by simp [dead, hmx])
        · by_cases hml : m ∈ ids (pre ++ x :: post)
          · simp only [ids, List.map_append, List.map_cons, List.mem_append, List.mem_cons] at hml ⊢
            tauto
          · have hm' : l.node m = some d := (hsame m hml).symm.trans hm
            have := (hc.nodes m d hm').resolve_left (hsplit ▸ hml)
            exact Or.inr (by simp only [dead, List.filterMap_cons]; exact List.mem_cons_of_mem _ this)
      · by_cases hzc : z = l.zombieCount
        · exact hzc ▸ List.mem_cons_self
        · have hz' : l.zombie z = some e := (Function.update_of_ne hzc _ _).symm.trans hz
          exact List.mem_cons_of_mem _ (hc.entries z e hz')
      · rw [owned_cons_false rfl, ho]

theorem Full.unlock {l l' : RcuList α} {g : Nat} {gs : List Nat} (h : Full l (g :: gs))
    (hrun : l.unlock g = .ok l') : Full l' gs := by
  obtain ⟨zs, hr, hc, ho⟩ := h
  obtain ⟨above, e, below, rfl, habove, heo, rfl, hbelow⟩ := owned_split ho
  obtain ⟨l1, hrun1, hr1, _, hnode⟩ := hr.unlock heo
  rw [hrun, Except.ok.injEq] at hrun1
  subst hrun1
  have hez : e.zombieNode = none := hr.guards e (by simp) heo
  have hl : l'.toList = l.toList := hr1.toList_eq
  refine ⟨_, hl.symm ▸ hr1, ⟨fun n c hn => ?_, fun z d hz => ?_⟩, ?_⟩
  · rw [hl]
    rw [hnode] at hn
    simp only at hn
    split at hn
    · cases hn
    · rename_i hno
      refine (hc.nodes n c hn).imp id fun hd => ?_
      simp only [dead, List.filterMap_append, List.filterMap_cons, hez, List.mem_append] at hd ⊢
      refine hd.imp id fun hd => ?_
      by_cases hb : below.any (·.owner) = true
      · rwa [if_pos hb]
      · exact absurd ⟨by simpa using hb, hd⟩ hno
  · obtain ⟨l2, hrun2, _, hfreed, hframe, _⟩ := hr.toSuffix.unlock_at heo
    rw [hrun, Except.ok.injEq] at hrun2
    subst hrun2
    simp only [List.map_append, List.map_cons, List.mem_append, List.mem_cons]
    by_cases hze : z = e.id
    · exact Or.inr (Or.inl hze)
    · by_cases hzb : z ∈ below.map Entry.id
      · by_cases hb : below.any (·.owner) = true
        · rw [if_pos hb]
          exact Or.inr (Or.inr hzb)
        · rw [hfreed (by simpa using hb) z hzb] at hz
          cases hz
      · rw [hframe z hze hzb] at hz
        have := hc.entries z d hz
        simp only [List.map_append, List.map_cons, List.mem_append, List.mem_cons] at this
        exact Or.inl (this.resolve_right fun h => h.elim hze hzb)
  · rw [owned_unlocked, habove, hbelow]
    rfl

theorem Full.destroy {l l' : RcuList α} (h : Full l []) (hrun : l.destroy = .ok l') :
    l'.Released := by
  obtain ⟨zs, hr, hc, ho⟩ := h
  have hfree := freeNodesFrom_spec hr.nodes.seg hr.nodes.nodup hr.nodes.length_le
  have hsuf : Suffix (l.withoutNodes l.toList) zs := by
    have h0 := hr.toSuffix
    refine ⟨h0.stack, h0.desc, h0.zbound, h0.guards, fun d hd => ?_, h0.once⟩
    obtain ⟨c, hc⟩ := h0.kept d hd
    exact ⟨c, by simp [withoutNodes, hr.apart d hd, hc]⟩
  have hp : l.zombieHead = zs.head?.map Entry.id := stack_top hr.stack
  have hall : zs.takeWhile (fun e => !e.owner) = zs := by
    rw [List.takeWhile_eq_self_iff]
    intro e he
    by_contra hown
    have : e.id ∈ owned zs := List.mem_map_of_mem (List.mem_filter.mpr ⟨he, by simpa using hown⟩)
    rw [ho] at this
    cases this
  obtain ⟨hrun2, _⟩ := freeUnowned_spec hsuf (hr.toSuffix).length_le
  rw [hall] at hrun2
  have hl' : l' = (l.withoutNodes l.toList).released zs := by
    have : l.destroy = .ok ((l.withoutNodes l.toList).released zs) := by
      simp only [RcuList.destroy, hfree, ok_bind]
      rw [← hrun2, ← hp]
      rfl
    rw [hrun, Except.ok.injEq] at this
    exact this
  subst hl'
  constructor
  · intro n
    show (if n ∈ dead zs then none else if n ∈ ids l.toList then none else l.node n) = none
    split
    · rfl
    · split
      · rfl
      · rename_i hd hlive
        cases hn : l.node n with
        | none => rfl
        | some c => exact absurd (hc.nodes n c hn) (by tauto)
  · intro z
    show (if z ∈ zs.map Entry.id then none else l.zombie z) = none
    split
    · rfl
    · rename_i hz
      cases he : l.zombie z with
      | none => rfl
      | some e => exact absurd (hc.entries z e he) hz

end RcuList

/-! ## The lists of the world -/

/-- No list of a live signal has a lost cell; `gs` are the active guards of each. -/
structure World.Full (gs : SenderId → List Nat) (w : World) : Prop where
  allocs : w.allocs = none
  lists : ∀ s, (w.sender s).isSome = true → (w.connectList s).Full (gs s)

variable {α β : Type} {gs : SenderId → List Nat}

theorem World.Full.set {w : World} (h : w.Full gs) (s : SenderId) {l : RcuList ConnectStruct}
    {g : List Nat} (hl : l.Full g) :
    ((connectListOf s).set w l).Full (Function.update gs s g) := by
  refine ⟨h.allocs, fun s' hs' => ?_⟩
  show (Function.update w.connectList s l s').Full _
  by_cases hss : s' = s
  · subst hss
    rw [Function.update_self, Function.update_self]
    exact hl
  · rw [Function.update_of_ne hss, Function.update_of_ne hss]
    exact h.lists s' hs'

theorem World.Full.keep {w : World} (h : w.Full gs) {s : SenderId} {l : RcuList ConnectStruct}
    (hl : l.Full (gs s)) : ((connectListOf s).set w l).Full gs := by
  have := h.set s hl
  rwa [Function.update_eq_self] at this

theorem allocate_keeps : Keeps (World.Full gs) allocate := by
  intro w hw
  simp only [allocate, hw.allocs]
  exact hw

theorem read_keeps (ref : ListRef α) (f : RcuList α → Except Fault β) :
    Keeps (World.Full gs) (ref.read f) := by
  intro w hw
  simp only [ListRef.read]
  by_cases hl : ref.live w = true
  · rw [if_pos hl]
    cases f (ref.get w) with
    | ok b => exact hw
    | error u => trivial
  · rw [if_neg hl]
    trivial

/-- The lists of the slots are no business of the signals. -/
theorem possible_keeps (r : ReceiverId) (f : RcuList SenderId → Except Fault (β × RcuList SenderId)) :
    Keeps (World.Full gs) ((possibleSendersOf r).call f) := by
  intro w hw
  simp only [ListRef.call]
  by_cases hl : (possibleSendersOf r).live w = true
  · rw [if_pos hl]
    cases f ((possibleSendersOf r).get w) with
    | ok p => exact ⟨hw.allocs, hw.lists⟩
    | error u => trivial
  · rw [if_neg hl]
    trivial

theorem connectList_call {s : SenderId} {f : RcuList ConnectStruct → Except Fault (β × RcuList ConnectStruct)}
    {g : β → List Nat} (hf : ∀ l b l', l.Full (gs s) → f l = .ok (b, l') → l'.Full (g b))
    {E : World → Prop} : Triple (World.Full gs) ((connectListOf s).call f)
      (fun b => World.Full (Function.update gs s (g b))) E := by
  intro w hw
  simp only [ListRef.call]
  by_cases hl : (connectListOf s).live w = true
  · rw [if_pos hl]
    cases hrun : f ((connectListOf s).get w) with
    | ok p => exact hw.set s (hf _ _ _ (hw.lists s hl) hrun)
    | error u => trivial
  · rw [if_neg hl]
    trivial

/-! ## The operations on a list -/

/-- The reference is to a list that can be changed and leaves no lost cell. -/
structure ListRef.Clean (ref : ListRef α) : Prop where
  pushBack : ∀ gs a, Keeps (World.Full gs) (ref.pushBack a)
  erase : ∀ gs iter, Keeps (World.Full gs) (ref.erase iter)
  withHandle : ∀ {β : Type} gs (body : Op β), (∀ gs', Keeps (World.Full gs') body) →
    Keeps (World.Full gs) (ref.withHandle body)

theorem possibleSendersOf_clean (r : ReceiverId) : (possibleSendersOf r).Clean := by
  refine ⟨fun gs a => allocate_keeps.bind fun _ => possible_keeps r _, fun gs iter => ?_,
    fun gs body hbody => ?_⟩
  · cases iter with
    | none => exact .undefined _
    | some n =>
      refine (possible_keeps r _).bind ?_
      rintro ⟨oldNext, found⟩
      cases found with
      | false => exact .pure fun _ h => h
      | true =>
        exact (allocate_keeps.bind fun _ => possible_keeps r _).bind fun _ => .pure fun _ h => h
  · refine (allocate_keeps.bind fun _ => possible_keeps r _).bind fun z =>
      (hbody gs).inScope (fun _ w w' hw hd => ?_) fun w w' hw hd => ?_
    all_goals
      unfold ListRef.unlock at hd
      split at hd
      · cases hd
        exact ⟨hw.allocs, hw.lists⟩
      · cases hd

theorem unlock_full {s : SenderId} {z : Nat} {w w' : World}
    (hw : w.Full (Function.update gs s (z :: gs s)))
    (hd : (connectListOf s).unlock z w = .ok w') : w'.Full gs := by
  unfold ListRef.unlock at hd
  split at hd
  · rename_i l hrun
    cases hd
    refine ⟨hw.allocs, fun s' hs' => ?_⟩
    have hl := hw.lists s' hs'
    show (Function.update w.connectList s l s').Full (gs s')
    by_cases hss : s' = s
    · subst hss
      rw [Function.update_self] at hl ⊢
      exact hl.unlock hrun
    · rw [Function.update_of_ne hss] at hl ⊢
      exact hl
  · cases hd

/-- No allocation fails, so an unlink and its entry are one step. -/
theorem erase_cases (ref : ListRef α) (n : Nat) {w : World} (ha : w.allocs = none) :
    (∃ u, ref.erase (some n) w = .undefined u) ∨
    ∃ nx found nl, ref.live w = true ∧ (ref.get w).toNodeList.unlink n = .ok (nx, found, nl) ∧
      ref.erase (some n) w = .returned nx (ref.set w
        (if found then (ref.get w).erased nl n else { ref.get w with toNodeList := nl })) := by
  have hundef : ∀ u, ref.unlink n w = .undefined u → ref.erase (some n) w = .undefined u := by
    intro u h
    simp only [ListRef.erase, bind, h]
  by_cases hs : ref.live w = true
  · cases hrun : (ref.get w).toNodeList.unlink n with
    | error u =>
      refine Or.inl ⟨u, hundef u ?_⟩
      simp only [ListRef.unlink, ListRef.call, if_pos hs, hrun, error_bind]
    | ok r =>
      obtain ⟨nx, found, nl⟩ := r
      refine Or.inr ⟨nx, found, nl, hs, rfl, ?_⟩
      cases found with
      | true =>
        have := ref.erase_run (w := w) hs (World.enough_none ha 1) hrun
        rwa [World.spend_none ha] at this
      | false =>
        have h : ref.unlink n w =
            .returned (nx, false) (ref.set w { ref.get w with toNodeList := nl }) := by
          simp only [ListRef.unlink, ListRef.call, if_pos hs, hrun, ok_bind]
        simp only [ListRef.erase]
        rw [bind_returned h]
        rfl
  · refine Or.inl ⟨.destroyed, hundef _ ?_⟩
    simp only [ListRef.unlink, ListRef.call, if_neg hs]

theorem connectListOf_clean (s : SenderId) : (connectListOf s).Clean := by
  have hcall : ∀ {β : Type} {gs} {f : RcuList ConnectStruct → Except Fault (β × RcuList ConnectStruct)},
      (∀ l b l', l.Full (gs s) → f l = .ok (b, l') → l'.Full (gs s)) →
      Keeps (World.Full gs) ((connectListOf s).call f) := by
    intro β gs f hf
    have := connectList_call (g := fun _ => gs s) hf (E := World.Full gs)
    simpa only [Function.update_eq_self] using this
  refine ⟨fun gs a => allocate_keeps.bind fun _ => hcall fun l b l' hl hrun => ?_,
    fun gs iter => ?_, fun gs body hbody => ?_⟩
  · cases hp : l.pushBack a with
    | ok l1 =>
      rw [hp] at hrun
      cases hrun
      exact hl.pushBack hp
    | error u =>
      rw [hp] at hrun
      cases hrun
  · cases iter with
    | none => exact .undefined _
    | some n =>
      intro w hw
      rcases erase_cases (connectListOf s) n hw.allocs with ⟨u, h⟩ | ⟨nx, found, nl, hs, hrun, h⟩
      · rw [h]
        trivial
      · rw [h]
        exact hw.keep ((hw.lists s hs).erase hrun)
  · refine Triple.bind (Q := fun z => World.Full (Function.update gs s (z :: gs s))) ?_ fun z =>
      (hbody _).inScope (fun _ w w' hw hd => unlock_full hw hd) fun w w' hw hd => unlock_full hw hd
    refine allocate_keeps.bind fun _ => connectList_call fun l b l' hl hrun => ?_
    cases hrun
    exact hl.lock

namespace ListRef.Clean

variable {ref : ListRef α}

theorem eraseAll (h : ref.Clean) (p : α → Bool) (fuel : Nat) (iter : Option Nat) :
    Keeps (World.Full gs) (ref.eraseAll p fuel iter) := by
  induction fuel generalizing iter with
  | zero =>
    cases iter with
    | none => exact .pure fun _ hw => hw
    | some n => exact .undefined _
  | succ fuel ih =>
    cases iter with
    | none => exact .pure fun _ hw => hw
    | some n =>
      refine (read_keeps ref _).bind fun c => ?_
      by_cases hp : p c.data = true
      · simp only [if_pos hp]
        exact (h.erase gs _).bind fun next => ih next
      · simp only [if_neg hp]
        exact ih _

theorem forEach (ref : ListRef α) {body : α → Op Unit} (hbody : ∀ a, Keeps (World.Full gs) (body a))
    (fuel : Nat) (iter : Option Nat) : Keeps (World.Full gs) (ref.forEach body fuel iter) := by
  induction fuel generalizing iter with
  | zero =>
    cases iter with
    | none => exact .pure fun _ hw => hw
    | some n => exact .undefined _
  | succ fuel ih =>
    cases iter with
    | none => exact .pure fun _ hw => hw
    | some n =>
      exact (read_keeps ref _).bind fun c => (hbody _).bind fun _ => (read_keeps ref _).bind fun c =>
        ih _

theorem collect [DecidableEq β] (ref : ListRef α) (f : α → Option β) (fuel : Nat)
    (iter : Option Nat) (retval : Finset β) :
    Keeps (World.Full gs) (ref.collect f fuel iter retval) := by
  induction fuel generalizing iter retval with
  | zero =>
    cases iter with
    | none => exact .pure fun _ hw => hw
    | some n => exact .undefined _
  | succ fuel ih =>
    cases iter with
    | none => exact .pure fun _ hw => hw
    | some n =>
      refine (read_keeps ref _).bind fun c => ?_
      cases f c.data with
      | some b => exact ih _ _
      | none => exact ih _ _

end ListRef.Clean

/-! ## The calls -/

theorem connect_keeps (o : Overload) (s : SenderId) (sig : Bento) (r : ReceiverId) (slot : Bento)
    (type : ConnectionKind) (u : Bool) :
    Keeps (World.Full gs) (connect o s sig r slot type u) := by
  have hS := connectListOf_clean s
  have hR := possibleSendersOf_clean r
  have hadd : ∀ {gs}, Keeps (World.Full gs) (addConnection s sig r slot type) := by
    intro gs
    exact (hS.pushBack gs _).bind fun _ => hR.withHandle gs _ fun gs' => hR.pushBack gs' s
  have hunless : ∀ {gs} same, Keeps (World.Full gs) (connectUnless same s sig r slot type u) := by
    intro gs same
    refine hS.withHandle gs _ fun gs' => Triple.bind (Q := fun _ => World.Full gs') ?_ fun found => ?_
    · cases u with
      | true =>
        exact (read_keeps _ _).bind fun _ => (read_keeps _ _).bind fun _ => read_keeps _ _
      | false => exact .pure fun _ hw => hw
    · by_cases hf : found.isSome = true
      · simp only [if_pos hf]
        exact .pure fun _ hw => hw
      · simp only [if_neg hf]
        exact hadd.bind fun _ => .pure fun _ hw => hw
  cases o with
  | methodSlot =>
    show Keeps _ (connectMethod s sig r slot type u)
    unfold connectMethod
    split
    · exact .raise fun _ hw => hw
    · split
      · exact .raise fun _ hw => hw
      · exact allocate_keeps.bind fun _ => allocate_keeps.bind fun _ => hunless _
  | lambdaSlot =>
    show Keeps _ (connectLambda s sig r slot type u)
    unfold connectLambda
    split
    · exact .raise fun _ hw => hw
    · exact allocate_keeps.bind fun _ => allocate_keeps.bind fun _ => hunless _
  | bento => exact hunless _

theorem disconnectFrom_keeps (s : SenderId) (hit : ConnectStruct → Bool) (fuel : Nat)
    (iter : Option Nat) (retval : Bool) :
    Keeps (World.Full gs) (disconnectFrom s hit fuel iter retval) := by
  induction fuel generalizing iter retval with
  | zero =>
    cases iter with
    | none => exact .pure fun _ hw => hw
    | some n => exact .undefined _
  | succ fuel ih =>
    cases iter with
    | none => exact .pure fun _ hw => hw
    | some n =>
      refine (read_keeps _ _).bind fun temp => ?_
      by_cases hp : hit temp.data = true
      · simp only [if_pos hp]
        have hR := possibleSendersOf_clean temp.data.receiver
        refine Triple.bind (Q := fun _ => World.Full gs) ?_ fun _ =>
          (read_keeps _ _).bind fun c => ih _ _
        refine hR.withHandle gs _ fun gs' => ?_
        exact (read_keeps _ _).bind fun _ => (read_keeps _ _).bind fun _ => (read_keeps _ _).bind
          fun found => (hR.erase gs' found).bind fun _ =>
            ((connectListOf_clean s).erase gs' (some n)).bind fun _ => .pure fun _ hw => hw
      · simp only [if_neg hp]
        exact ih _ _

theorem internalDisconnect_keeps (s : SenderId) (sig : Option Bento) (r : Option ReceiverId)
    (slot : Option Bento) : Keeps (World.Full gs) (internalDisconnect s sig r slot) :=
  (connectListOf_clean s).withHandle gs _ fun _ => (read_keeps _ _).bind fun _ =>
    (read_keeps _ _).bind fun _ => disconnectFrom_keeps s _ _ _ _

theorem destroySlotBase_keeps (r : ReceiverId) : Keeps (World.Full gs) (destroySlotBase r) := by
  refine Triple.bind (Q := fun _ => World.Full gs) (Triple.nothrow (E := World.Full gs) ?_ _)
    fun _ => (possible_keeps r _).bind fun _ => fun w hw => ⟨hw.allocs, hw.lists⟩
  exact (possibleSendersOf_clean r).withHandle gs _ fun _ => (read_keeps _ _).bind fun _ =>
    (read_keeps _ _).bind fun _ => ListRef.Clean.forEach _ (fun s =>
      (connectListOf_clean s).withHandle _ _ fun _ => (read_keeps _ _).bind fun _ =>
        (read_keeps _ _).bind fun _ => (connectListOf_clean s).eraseAll _ _ _) _ _

theorem internalSenderList_keeps (r : ReceiverId) : Keeps (World.Full gs) (internalSenderList r) :=
  (possibleSendersOf_clean r).withHandle gs _ fun _ => (read_keeps _ _).bind fun _ =>
    (read_keeps _ _).bind fun _ => ListRef.Clean.collect _ _ _ _ _

theorem internalReceiverList_keeps (s : SenderId) (sig : Bento) :
    Keeps (World.Full gs) (internalReceiverList s sig) :=
  (connectListOf_clean s).withHandle gs _ fun _ => (read_keeps _ _).bind fun _ =>
    (read_keeps _ _).bind fun _ => ListRef.Clean.collect _ _ _ _ _

/-- `~SignalBase` leaves the lists of the other signals alone, and frees its own
when no guard is active. -/
theorem destroySignalBase_frees (s : SenderId) : Triple (World.Full gs) (destroySignalBase s)
    (fun _ w => w.Full gs ∧ w.sender s = none ∧ (gs s = [] → (w.connectList s).Released))
    (fun _ => False) := by
  refine Triple.bind (Q := fun _ => World.Full gs) (Triple.nothrow (E := World.Full gs) ?_ _)
    fun _ => ?_
  · refine Triple.bind (Q := fun _ => World.Full gs) ?_ fun _ => ?_
    · intro w hw
      simp only [markDestroyed]
      cases w.sender s with
      | none => trivial
      | some o =>
        by_cases hb : o.activateBusy > 0
        · simp only [if_pos hb]
          by_cases hl : w.destroyedLocked = true
          · rw [if_pos hl]
            trivial
          · rw [if_neg hl]
            exact ⟨hw.allocs, hw.lists⟩
        · simp only [if_neg hb]
          exact hw
    · exact (connectListOf_clean s).withHandle gs _ fun _ => (read_keeps _ _).bind fun _ =>
        (read_keeps _ _).bind fun _ => ListRef.Clean.forEach _ (fun (item : ConnectStruct) =>
          (possibleSendersOf_clean item.receiver).withHandle _ _ fun _ => (read_keeps _ _).bind
            fun _ => (read_keeps _ _).bind fun _ =>
              (possibleSendersOf_clean item.receiver).eraseAll _ _ _) _ _
  · refine Triple.bind (Q := fun _ w => w.allocs = none ∧
      (∀ s', s' ≠ s → (w.sender s').isSome = true → (w.connectList s').Full (gs s')) ∧
      (gs s = [] → (w.connectList s).Released)) ?_ fun _ w hw => ?_
    · intro w hw
      by_cases hs : (connectListOf s).live w = true
      · have hl := hw.lists s hs
        cases hrun : ((connectListOf s).get w).destroy with
        | ok l' =>
          have h : destroyList (connectListOf s) w = .returned () ((connectListOf s).set w l') := by
            simp only [destroyList, ListRef.call, if_pos hs, hrun, ok_bind]
          rw [h]
          refine ⟨hw.allocs, fun s' hss hs' => ?_, fun hgs => ?_⟩
          · show (Function.update w.connectList s l' s').Full _
            rw [Function.update_of_ne hss]
            exact hw.lists s' hs'
          · show (Function.update w.connectList s l' s).Released
            rw [Function.update_self]
            exact (hgs ▸ hl).destroy hrun
        | error u =>
          have h : destroyList (connectListOf s) w = .undefined u := by
            simp only [destroyList, ListRef.call, if_pos hs, hrun, error_bind]
          rw [h]
          trivial
      · simp only [destroyList, ListRef.call, if_neg hs]
    · refine ⟨⟨hw.1, fun s' hs' => ?_⟩, Function.update_self _ _ _, hw.2.2⟩
      have hss : s' ≠ s := by
        rintro rfl
        change (Function.update w.sender s' none s').isSome = true at hs'
        rw [Function.update_self] at hs'
        cases hs'
      change (Function.update w.sender s none s').isSome = true at hs'
      rw [Function.update_of_ne hss] at hs'
      exact hw.2.1 s' hss hs'

/-! ## The runs of a program -/

/-- The active guards of each list, newest first. -/
def guardsOf (stack : List Frame) (s : SenderId) : List Nat := (cursorsOf stack s).map Cursor.guard

theorem guardsOf_cons (f : Frame) (rest : List Frame) : guardsOf (f :: rest) =
    Function.update (guardsOf rest) f.activation.sender
      (f.activation.guard :: guardsOf rest f.activation.sender) := by
  funext s
  rw [guardsOf, cursorsOf_cons]
  by_cases hs : s = f.activation.sender
  · subst hs
    rw [standing_self, Function.update_self]
    rfl
  · rw [standing_ne hs, Function.update_of_ne hs]
    rfl

theorem World.Full.congr {w w' : World} (h : w.Full gs) (ha : w'.allocs = w.allocs)
    (hl : w'.connectList = w.connectList) (hs : ∀ s, (w'.sender s).isSome = (w.sender s).isSome) :
    w'.Full gs :=
  ⟨ha.trans h.allocs, fun s hlive => hl ▸ h.lists s (hs s ▸ hlive)⟩

theorem Released.full {s : SenderId} {g : Nat} {cursors : SenderId → List Cursor} {w w' : World}
    (h : Released s g cursors w w') (hw : w.Full (Function.update gs s (g :: gs s))) :
    w'.Full gs := by
  obtain ⟨l, hrun, rfl⟩ := h.eq
  refine unlock_full hw ?_
  simp only [ListRef.unlock]
  rw [show (connectListOf s).get w = w.connectList s from rfl, hrun]

theorem perform_triple {P Q E : World → Prop} {σ σ' : State} {op : Op α}
    (hop : Triple P op (fun _ => Q) E) (hw : P σ.world) (h : σ.perform op = .ok σ') :
    (Q σ'.world ∨ E σ'.world) ∧ σ'.stack = σ.stack := by
  unfold State.perform at h
  split at h
  · rename_i hrun
    cases h
    exact ⟨Or.inl (hop.returned hw hrun), rfl⟩
  · rename_i hrun
    cases h
    exact ⟨Or.inr (hop.thrown hw hrun), rfl⟩
  · cases h

theorem perform_full {σ σ' : State} {op : Op α} (hop : Keeps (World.Full gs) op)
    (hw : σ.world.Full gs) (h : σ.perform op = .ok σ') :
    σ'.world.Full gs ∧ σ'.stack = σ.stack :=
  (perform_triple hop hw h).imp (fun h => h.elim id id) id

theorem full_call {σ σ' : State} {a : Action} (hI : σ.Inv) (hw : σ.world.Full (guardsOf σ.stack))
    (hc : a.IsCall) (hstep : step σ a = .ok σ') :
    σ'.world.Full (guardsOf σ.stack) ∧ σ'.stack = σ.stack := by
  have hl := legal_of_step hstep
  simp only [step, if_pos hl] at hstep
  cases a with
  | newSender addr =>
    cases hstep
    refine ⟨⟨hw.allocs, fun s hs => ?_⟩, rfl⟩
    show (Function.update σ.world.connectList σ.world.senderCount {} s).Full _
    by_cases hss : s = σ.world.senderCount
    · subst hss
      rw [Function.update_self]
      have hnil : guardsOf σ.stack σ.world.senderCount = [] := by
        rw [guardsOf, List.map_eq_nil_iff, cursorsOf, List.map_eq_nil_iff, List.filter_eq_nil_iff]
        intro f hf he
        exact absurd (beq_iff_eq.mp he ▸ hI.known f hf) (Nat.lt_irrefl _)
      rw [hnil]
      exact full_empty
    · rw [Function.update_of_ne hss]
      refine hw.lists s ?_
      change (Function.update σ.world.sender σ.world.senderCount _ s).isSome = true at hs
      rwa [Function.update_of_ne hss] at hs
  | newReceiver =>
    cases hstep
    exact ⟨⟨hw.allocs, hw.lists⟩, rfl⟩
  | connect o s sig r slot type u => exact perform_full (connect_keeps o s sig r slot type u) hw hstep
  | disconnect s sig r slot => exact perform_full (internalDisconnect_keeps s _ _ _) hw hstep
  | internalDisconnect s sig r slot =>
    exact perform_full (internalDisconnect_keeps s sig r slot) hw hstep
  | deleteSender s =>
    obtain ⟨h, hst⟩ := perform_triple (destroySignalBase_frees s) hw hstep
    exact ⟨(h.resolve_right id).1, hst⟩
  | deleteReceiver r => exact perform_full (destroySlotBase_keeps r) hw hstep
  | senderList r => exact perform_full (internalSenderList_keeps r) hw hstep
  | receiverList s sig => exact perform_full (internalReceiverList_keeps s sig) hw hstep
  | activate => exact absurd hc id
  | ret => exact absurd hc id
  | throw => exact absurd hc id

/-- The start of an activation, up to its first call or its end. -/
theorem full_enter {σ σ' : State} {s : SenderId} {o : SignalBase} {sig : Bento}
    (hw : σ.world.Full (guardsOf σ.stack)) (ho : σ.world.sender s = some o)
    (hE : Enter σ s o sig σ') : σ'.world.Full (guardsOf σ'.stack) := by
  have hlock := hw.set s (hw.lists s (by rw [ho]; rfl)).lock
  cases hE with
  | met hmet hr =>
    rw [State.push, guardsOf_cons]
    exact hlock
  | ended hend => exact hend.released.full hlock

theorem full_move {σ σ' : State} {a : Action} {f : Frame} {rest : List Frame}
    (hw : σ.world.Full (guardsOf σ.stack)) (hst : σ.stack = f :: rest)
    (hM : Move { σ with stack := rest } f a σ') : σ'.world.Full (guardsOf σ'.stack) := by
  rw [hst, guardsOf_cons] at hw
  obtain ⟨h1, _, _, h4, _, _, h7, _⟩ := resumed_fields { σ with stack := rest } f
  cases hM with
  | dispatched hcall ho hc hr =>
    rw [State.push, guardsOf_cons]
    exact hw.congr rfl rfl (withBusy_sameLists ho _).sender
  | next hcall hfree ho hstep hmet hr =>
    rw [State.push, guardsOf_cons, h1]
    exact hw.congr h4 h7 (lessBusy_sameLists ho)
  | ended hcall hfree ho hstep hend =>
    have := hend.released.full (hw.congr h4 h7 (lessBusy_sameLists ho))
    show World.Full (guardsOf (State.resumed { σ with stack := rest } f).stack) _
    rw [h1]
    exact this
  | stopped hend hcall hlock hmark hrel =>
    have hsame := unmarked_sameLists { σ with stack := rest } f
    refine hrel.full (hw.congr ?_ hsame.connectList hsame.sender)
    unfold State.unmarked
    split <;> rfl
  | handling hcall hlock hmark ho =>
    rw [guardsOf_cons]
    exact hw.congr rfl rfl fun _ => rfl
  | left hcall hrel => exact hrel.full hw
  | handlerLeft hcall hrel => exact hrel.full (hw.congr rfl rfl fun _ => rfl)

theorem full_step {σ σ' : State} {a : Action} (hI : σ.Inv) (hw : σ.world.Full (guardsOf σ.stack))
    (hstep : step σ a = .ok σ') : σ'.world.Full (guardsOf σ'.stack) := by
  by_cases hc : a.IsCall
  · obtain ⟨h, hst⟩ := full_call hI hw hc hstep
    rwa [hst]
  · cases (hI.step hstep).2 with
    | call hc' => exact absurd hc' hc
    | enter ho hE => exact full_enter hw ho hE
    | move hst hM => exact full_move hw hst hM

/-- In every state that a program reaches, no list of a live signal has a lost cell. -/
theorem full_reached {as : List Action} {σ : State} (hr : run State.init as = .ok σ) :
    σ.world.Full (guardsOf σ.stack) := by
  have hstep : ∀ σ a σ', (σ.Inv ∧ σ.world.Full (guardsOf σ.stack)) → step σ a = .ok σ' →
      (σ'.Inv ∧ σ'.world.Full (guardsOf σ'.stack)) :=
    fun σ a σ' h hs => ⟨(h.1.step hs).1, full_step h.1 h.2 hs⟩
  exact (Runs.run_keeps hstep hr ⟨inv_init, rfl, fun s hs => nomatch hs⟩).2

/-! ## After the destructor -/

/-- The guard that unlocks never frees its own entry. -/
theorem RcuList.unlock_entry {l l' : RcuList α} {z : Nat} (h : l.unlock z = .ok l') :
    l'.zombie z ≠ none := by
  unfold RcuList.unlock at h
  obtain ⟨e, _, h⟩ := bind_ok h
  obtain ⟨last, _, h⟩ := bind_ok h
  have hlast : ∀ {l1 : RcuList α}, (l1.writeZombie z fun e => { e with owner := false }) = .ok l' →
      l'.zombie z ≠ none := by
    intro l1 h
    unfold writeZombie at h
    split at h
    · cases h
      show Function.update l1.zombie z _ z ≠ none
      rw [Function.update_self]
      exact Option.some_ne_none _
    · cases h
  cases last with
  | true =>
    obtain ⟨l1, _, h⟩ := bind_ok h
    obtain ⟨l2, _, h⟩ := bind_ok h
    exact hlast h
  | false =>
    obtain ⟨l1, _, h⟩ := bind_ok h
    exact hlast h

/-- What a step does to the list of a destroyed signal: nothing, unless one of
its activations ends, whose guard then leaves its entry behind. -/
theorem dead_step {σ σ' : State} {a : Action} (hN : Next σ a σ') {s : SenderId}
    (hs : s < σ.world.senderCount) (hdead : σ.world.sender s = none) :
    (σ'.world.connectList s = σ.world.connectList s ∧
        cursorsOf σ'.stack s = cursorsOf σ.stack s) ∨
      cursorsOf σ.stack s ≠ [] ∧ ∃ z, (σ'.world.connectList s).zombie z ≠ none := by
  have hne : ∀ {s0 o}, σ.world.sender s0 = some o → s ≠ s0 := by
    rintro s0 o ho rfl
    rw [hdead] at ho
    cases ho
  have hskip : ∀ (f : Frame) (rest : List Frame), s ≠ f.activation.sender →
      cursorsOf (f :: rest) s = cursorsOf rest s := fun f rest hss => by
    rw [cursorsOf_cons, standing_ne hss]
  cases hN with
  | call hc hD =>
    refine Or.inl ⟨?_, rfl⟩
    rcases hD with rfl | hD
    · rfl
    · rcases hD.gone s hdead with ⟨_, h⟩ | ⟨h, _⟩
      · exact h
      · exact absurd (h ▸ hs) (Nat.lt_irrefl _)
  | @enter s0 o sig σ' ho hE =>
    have hlock : (σ.entered s0 sig).world.connectList s = σ.world.connectList s :=
      Function.update_of_ne (hne ho) _ _
    cases hE with
    | met hmet hr => exact Or.inl ⟨hlock, hskip _ _ (hne ho)⟩
    | ended hend => exact Or.inl ⟨(hend.released.others (hne ho)).trans hlock, rfl⟩
  | @move a f rest σ' hst hM =>
    obtain ⟨h1, _, _, _, _, _, h7, _⟩ := resumed_fields { σ with stack := rest } f
    have hlive : ∀ {o}, σ.world.sender f.activation.sender = some o →
        cursorsOf σ.stack s = cursorsOf rest s := fun ho => by rw [hst, hskip _ _ (hne ho)]
    have hrel : ∀ {w w' : World}, w.connectList = σ.world.connectList →
        Released f.activation.sender f.activation.guard (cursorsOf rest) w w' →
        (w'.connectList s = σ.world.connectList s ∧ cursorsOf rest s = cursorsOf σ.stack s) ∨
          cursorsOf σ.stack s ≠ [] ∧ ∃ z, (w'.connectList s).zombie z ≠ none := by
      intro w w' hw h
      by_cases hss : s = f.activation.sender
      · obtain ⟨l, hrun, rfl⟩ := h.eq
        refine Or.inr ⟨?_, f.activation.guard, ?_⟩
        · rw [hst, cursorsOf_cons, hss, standing_self]
          exact List.cons_ne_nil _ _
        · show ((Function.update w.connectList f.activation.sender l) s).zombie _ ≠ none
          rw [hss, Function.update_self]
          exact RcuList.unlock_entry hrun
      · exact Or.inl ⟨(h.others hss).trans (congrFun hw s), by rw [hst, hskip _ _ hss]⟩
    cases hM with
    | dispatched hcall ho hc hr =>
      refine Or.inl ⟨rfl, (hskip _ _ ?_).trans (hlive ho).symm⟩
      exact hne ho
    | next hcall hfree ho hstep hmet hr =>
      refine Or.inl ⟨congrFun h7 s, ?_⟩
      rw [hlive ho, State.push, h1]
      refine hskip _ _ ?_
      exact hne ho
    | ended hcall hfree ho hstep hend =>
      refine Or.inl ⟨(hend.released.others (hne ho)).trans (congrFun h7 s), ?_⟩
      show cursorsOf (State.resumed { σ with stack := rest } f).stack s = _
      rw [h1, hlive ho]
    | stopped hend hcall hlock hmark hr => exact hrel (unmarked_sameLists _ f).connectList hr
    | handling hcall hlock hmark ho =>
      refine Or.inl ⟨rfl, (hskip _ _ ?_).trans (hlive ho).symm⟩
      exact hne ho
    | left hcall hr => exact hrel rfl hr
    | handlerLeft hcall hr => exact hrel (w := { σ.world with destroyedLocked := false }) rfl hr

/-- The signal is gone, and its list will not become free of cells. -/
structure State.Leaking (σ : State) (s : SenderId) : Prop where
  known : s < σ.world.senderCount
  dead : σ.world.sender s = none
  lost : cursorsOf σ.stack s ≠ [] ∨ ∃ z, (σ.world.connectList s).zombie z ≠ none

/-- The signal is gone, with all cells of its list. -/
structure State.Clean (σ : State) (s : SenderId) : Prop where
  known : s < σ.world.senderCount
  dead : σ.world.sender s = none
  idle : cursorsOf σ.stack s = []
  free : (σ.world.connectList s).Released

theorem State.Leaking.next {σ σ' : State} {a : Action} {s : SenderId} (h : σ.Leaking s)
    (hN : Next σ a σ') : σ'.Leaking s := by
  refine ⟨Nat.lt_of_lt_of_le h.known hN.senderCount, dead_of_next hN h.known h.dead, ?_⟩
  rcases dead_step hN h.known h.dead with ⟨hl, hc⟩ | ⟨_, hz⟩
  · rw [hl, hc]
    exact h.lost
  · exact Or.inr hz

theorem State.Clean.next {σ σ' : State} {a : Action} {s : SenderId} (h : σ.Clean s)
    (hN : Next σ a σ') : σ'.Clean s := by
  rcases dead_step hN h.known h.dead with ⟨hl, hc⟩ | ⟨hne, _⟩
  · exact ⟨Nat.lt_of_lt_of_le h.known hN.senderCount, dead_of_next hN h.known h.dead,
      hc.trans h.idle, hl ▸ h.free⟩
  · exact absurd h.idle hne

theorem dead_run {P : State → Prop} (hP : ∀ {σ a σ'}, P σ → Next σ a σ' → P σ')
    {as : List Action} {σ σ' : State} (hI : σ.Inv) (h : P σ) (hr : run σ as = .ok σ') : P σ' := by
  have hstep : ∀ σ a σ', (σ.Inv ∧ P σ) → step σ a = .ok σ' → (σ'.Inv ∧ P σ') :=
    fun σ a σ' h hs => ⟨(h.1.step hs).1, hP h.2 (h.1.step hs).2⟩
  exact (Runs.run_keeps hstep hr ⟨hI, h⟩).2

/-- Once a signal is destroyed and its activations have returned, every cell that
its list ever allocated is released exactly if no activation of it was in progress
when it was destroyed. In no run is a cell released twice. All allocations succeed. -/
theorem released_once {as bs : List Action} {σ σ1 σ' : State} {s : SenderId}
    (hr : run State.init as = .ok σ) (hd : step σ (.deleteSender s) = .ok σ1)
    (hr' : run σ1 bs = .ok σ') (hend : ∀ f ∈ σ'.stack, f.activation.sender ≠ s) :
    ((σ'.world.connectList s).Released ↔ ∀ f ∈ σ.stack, f.activation.sender ≠ s) ∧
    ∀ cs τ a, run State.init cs = .ok τ → step τ a ≠ .error (.fault .freed) := by
  have hI := inv_reached hr
  have hI1 := (hI.step hd).1
  have hend' : cursorsOf σ'.stack s = [] := by
    rw [cursorsOf, List.map_eq_nil_iff, List.filter_eq_nil_iff]
    exact fun f hf he => hend f hf (beq_iff_eq.mp he)
  have hlive : (σ.world.sender s).isSome = true := legal_of_step hd
  obtain ⟨o, ho⟩ := Option.isSome_iff_exists.mp hlive
  have hN := (hI.step hd).2
  have hknown : s < σ1.world.senderCount :=
    Nat.lt_of_lt_of_le (hI.memory.senderBound s hlive) hN.senderCount
  -- the destructor itself
  have hperf : σ.perform (destroySignalBase s) = .ok σ1 := by
    simpa only [step, if_pos (legal_of_step hd)] using hd
  obtain ⟨hfrees, hst⟩ := perform_triple (destroySignalBase_frees s) (full_reached hr) hperf
  obtain ⟨_, hdead, hfrees⟩ := hfrees.resolve_right id
  refine ⟨⟨fun hfree => ?_, fun hidle => ?_⟩, fun cs τ a hτ ha => ?_⟩
  · by_contra hbusy
    have hne : cursorsOf σ.stack s ≠ [] := by
      intro hnil
      rw [cursorsOf, List.map_eq_nil_iff, List.filter_eq_nil_iff] at hnil
      exact hbusy fun f hf he => hnil f hf (beq_iff_eq.mpr he)
    have hleak := dead_run (P := fun σ => σ.Leaking s) State.Leaking.next hI1
      ⟨hknown, hdead, Or.inl (hst ▸ hne)⟩ hr'
    rcases hleak.lost with h | ⟨z, hz⟩
    · exact h hend'
    · exact hz (hfree.2 z)
  · have hnil : cursorsOf σ.stack s = [] := by
      rw [cursorsOf, List.map_eq_nil_iff, List.filter_eq_nil_iff]
      exact fun f hf he => hidle f hf (beq_iff_eq.mp he)
    exact (dead_run (P := fun σ => σ.Clean s) State.Clean.next hI1
      ⟨hknown, hdead, hst ▸ hnil, hfrees (by rw [guardsOf, hnil]; rfl)⟩ hr').free
  · have hIτ := inv_reached hτ
    cases fails_of_step hIτ.memory hIτ.allocs ha with
    | move hst hC => cases hC

/-- A signal that is connected twice, disconnected once and emitted. -/
def emitted : List Action :=
  [.newSender 100, .newReceiver,
    .connect .methodSlot 0 (.method 0 (some 1)) 0 (.method 1 (some 1)) .autoConnection false,
    .connect .methodSlot 0 (.method 0 (some 1)) 0 (.method 1 (some 2)) .autoConnection false,
    .activate 0 (.method 0 (some 1)), .ret true,
    .disconnect 0 (.method 0 (some 1)) 0 (.method 1 (some 2)), .ret true]

/-- Destroyed after the emission has ended, it leaves nothing. -/
theorem released_once_idle :
    ((Runs.reached step (after emitted) [.deleteSender 0]).world.connectList 0).Released := by
  have hr : run State.init emitted = .ok (after emitted) := Runs.run_reached (by decide +kernel)
  have hd : step (after emitted) (.deleteSender 0) =
      .ok (Runs.reached step (after emitted) [.deleteSender 0]) :=
    Runs.step_reached (by decide +kernel)
  have hidle : (after emitted).stack = [] := by decide +kernel
  have hend : (Runs.reached step (after emitted) [.deleteSender 0]).stack = [] := by
    decide +kernel
  refine (released_once hr hd (show run _ [] = .ok _ from rfl) (fun f hf => ?_)).1.mpr (fun f hf => ?_)
  · rw [hend] at hf
    cases hf
  · rw [hidle] at hf
    cases hf

/-- A signal that its own slot destroys. -/
def destroyedInside : List Action :=
  [.newSender 100, .newReceiver,
    .connect .methodSlot 0 (.method 0 (some 1)) 0 (.method 1 (some 1)) .autoConnection false,
    .activate 0 (.method 0 (some 1)), .ret true, .deleteSender 0, .ret true]

/-- The activation has returned, and the entry of its guard is still allocated. -/
theorem released_once_inside :
    (run State.init destroyedInside).isOk = true ∧ (after destroyedInside).stack = [] ∧
      (after destroyedInside).world.sender 0 = none ∧
      ¬ ((after destroyedInside).world.connectList 0).Released := by
  refine ⟨by decide +kernel, by decide +kernel, by decide +kernel, fun h => ?_⟩
  have hz : (((after destroyedInside).world.connectList 0).zombie 1).isSome = true := by
    decide +kernel
  rw [h.2 1] at hz
  cases hz

end CsSignal
