-- Whatever the threads do, they could have done one call after the other. A thread
-- holds the mutex of its sender from the first access on, so the calls on one sender
-- follow each other; and a call on one sender changes nothing of another one, in the
-- lists of the receivers neither.
import CsSignal.Locked

namespace CsSignal

open LinkedCells Calls RcuList

/-! ## One call after the other -/

/-- The call as the only thread makes it. -/
def LibCall.op : LibCall → Op Bool
  | .connect a => CsSignal.connect a.overload a.sender a.signalMethod a.receiver a.slotMethod
      a.type a.uniqueConnection
  | .disconnect a => internalDisconnect a.sender a.signalBento a.receiver a.slotBento

/-- One thread makes the calls, and they end as these did. -/
inductive Serial : World → List Finished → World → Prop
  | nil (w : World) : Serial w [] w
  | returned {w w1 w' : World} {f : Finished} {fs : List Finished} {b : Bool}
      (hlive : f.call.Live w) (hrun : f.call.op w = .returned b w1) (hb : f.result = some b)
      (h : Serial w1 fs w') : Serial w (f :: fs) w'
  | thrown {w w' : World} {f : Finished} {fs : List Finished} {e : Exception}
      (hrun : f.call.op w = .thrown e w) (hb : f.result = none) (h : Serial w fs w') :
      Serial w (f :: fs) w'

theorem Serial.append {w w1 w' : World} {fs gs : List Finished} (h : Serial w fs w1)
    (h' : Serial w1 gs w') : Serial w (fs ++ gs) w' := by
  induction h with
  | nil => exact h'
  | returned hlive hrun hb _ ih => exact .returned hlive hrun hb (ih h')
  | thrown hrun hb _ ih => exact .thrown hrun hb (ih h')

/-- What a call leaves when it is the only one. -/
structure Alone (c : LibCall) (b : Bool) (w w' : World) : Prop where
  objects : SameObjects w w'
  allocs : w'.allocs = none
  sound : ∀ cursors, w.Sound cursors → w'.Sound cursors
  effect : c.Effect (w.conns c.sender) (w.bookings c.sender) b (w'.conns c.sender)
    (w'.bookings c.sender)
  conns : ∀ s, s ≠ c.sender → w'.conns s = w.conns s
  bookings : ∀ s, s ≠ c.sender → w'.bookings s = w.bookings s

/-- A call ends, with its effect. -/
theorem LibCall.alone {w : World} {cursors : SenderId → List Cursor} {c : LibCall}
    (hw : w.Sound cursors) (ha : w.allocs = none) (hc : c.Live w) (hacc : c.accepts = true) :
    ∃ b w', c.op w = .returned b w' ∧ Alone c b w w' := by
  cases c with
  | connect a =>
    let dup := a.uniqueConnection && (w.conns a.sender).any a.same
    obtain ⟨w', hrun, hD⟩ : ∃ w', (LibCall.connect a).op w = .returned (!dup) w' ∧
        ConnectDone a.sender a.receiver (if dup then none else some a.item) w w' :=
      connect_does hw hc.1 hc.2 ha hacc a.type a.uniqueConnection
    have hadd : ∀ c ∈ (if dup then none else some a.item), c.receiver = a.receiver := by
      intro c h
      split at h <;> cases h
      rfl
    refine ⟨!dup, w', hrun, hD.objects, hD.allocs ha, fun cursors' hw' =>
      hD.objects.sound hw' hD.listsStep hD.slots (hD.booked hadd hc.1 hc.2 hw'.booked),
      ⟨rfl, ?_, fun r => ?_⟩, fun s hs => hD.conns_ne hs, fun s hs => funext fun r => ?_⟩
    · refine hD.conns.trans ?_
      cases dup <;> rfl
    · by_cases hr : r = a.receiver
      · subst hr
        rw [World.bookings, hD.possible, List.count_append]
        cases dup <;> simp [World.bookings, LibCall.sender]
      · rw [World.bookings, hD.possible_eq hr, if_neg fun h => hr h.2]
        rfl
    · by_cases hr : r = a.receiver
      · subst hr
        have hs' : a.sender ≠ s := Ne.symm hs
        rw [World.bookings, hD.possible, List.count_append]
        cases dup <;> simp [World.bookings, hs']
      · rw [World.bookings, hD.possible_eq hr]
        rfl
  | disconnect a =>
    obtain ⟨w', hrun, hD, _⟩ :=
      internalDisconnect_run hw hc ha a.signalBento a.receiver a.slotBento
    refine ⟨_, w', hrun, hD.objects, ?_, fun cursors' hw' =>
      hD.objects.sound hw' hD.listsStep hD.slots (hD.booked hw'.booked),
      ⟨rfl, hD.conns, hD.count hc hw.booked⟩, fun s hs => hD.conns_ne hs,
      fun s hs => funext fun r => ?_⟩
    · rw [hD.allocs, World.spend_none ha, ha]
    · have hs' : s ≠ a.sender := hs
      rw [World.bookings, hD.possible r, count_iterate_erase_ne hs']
      rfl

/-! ## What holds between two steps of the threads -/

def Threads.bookings (τ : Threads) (s : SenderId) (r : ReceiverId) : Nat := (τ.possible r).count s

/-- The calls that have ended lead one after the other to `w`; a call in progress has
found the lists of `w`, and nobody else has changed anything of its signal since. -/
structure Threads.Inv (w0 : World) (cursors : SenderId → List Cursor) (τ : Threads) (w : World) :
    Prop where
  world : τ.world = w0
  serial : Serial w0 τ.finished w
  objects : SameObjects w0 w
  sound : w.Sound cursors
  allocs : w.allocs = none
  senders : ∀ s, (w0.sender s).isSome = true → (τ.connectList s).Sound
  receivers : ∀ r, w0.receiver r = true → (τ.possibleSenders r).Sound
  legal : ∀ t c g, τ.thread t = some (c, g) → c.Live w0 ∧ c.accepts = true
  senderOwner : ∀ s t, τ.connectMutex s = some t ↔
    ∃ c g, τ.thread t = some (c, g) ∧ g ≠ .lock ∧ c.sender = s
  receiverOwner : ∀ r t, τ.possibleMutex r = some t ↔
    ∃ c g, τ.thread t = some (c, g) ∧ g.held = some r
  free : ∀ s, (w0.sender s).isSome = true → τ.connectMutex s = none →
    τ.conns s = w.conns s ∧ τ.bookings s = w.bookings s
  inside : ∀ t c g, τ.thread t = some (c, g) →
    Between (w.conns c.sender) (w.bookings c.sender) (τ.connectList c.sender)
      (τ.bookings c.sender) τ.possibleSenders c g

theorem LibCall.Live.sender {w : World} {c : LibCall} (h : c.Live w) :
    (w.sender c.sender).isSome = true := by
  cases c with
  | connect a => exact h.1
  | disconnect a => exact h

theorem LibCall.Live.same {w w' : World} {c : LibCall} (h : c.Live w) (hobj : SameObjects w w') :
    c.Live w' := by
  cases c with
  | connect a =>
    unfold LibCall.Live
    rw [hobj.sender, hobj.receiver]
    exact h
  | disconnect a =>
    unfold LibCall.Live
    rw [hobj.sender]
    exact h

namespace Threads

variable {w0 w : World} {cursors : SenderId → List Cursor} {τ τ' : Threads} {t : ThreadId}
  {c : LibCall} {g g' : Stage}

theorem inv_start (hw : w0.Sound cursors) (ha : w0.allocs = none) :
    (start w0).Inv w0 cursors w0 where
  world := rfl
  serial := .nil w0
  objects := .refl w0
  sound := hw
  allocs := ha
  senders s hs := by
    obtain ⟨zs, hr, _⟩ := hw.lists s hs
    exact ⟨_, hr.nodes⟩
  receivers r hr := by
    obtain ⟨zs, hr, _⟩ := hw.slots r hr
    exact ⟨_, hr.nodes⟩
  legal t c g h := nomatch h
  senderOwner s t := iff_of_false (fun h => nomatch h) fun ⟨_, _, h, _⟩ => nomatch h
  receiverOwner r t := iff_of_false (fun h => nomatch h) fun ⟨_, _, h, _⟩ => nomatch h
  free s _ _ := ⟨rfl, rfl⟩
  inside t c g h := nomatch h

/-- A thread inside a call makes a step that changes the lists of its own signal and
of a receiver that it has locked only. -/
structure Moved (τ τ' : Threads) (t : ThreadId) (c : LibCall) (g' : Stage) : Prop where
  world : τ'.world = τ.world
  finished : τ'.finished = τ.finished
  thread : τ'.thread = Function.update τ.thread t (some (c, g'))
  inside : g' ≠ .lock
  own : τ.connectMutex c.sender = none ∨ τ.connectMutex c.sender = some t
  connectMutex : τ'.connectMutex = Function.update τ.connectMutex c.sender (some t)
  possibleMutex : ∀ r t', τ'.possibleMutex r = some t' ↔
    if t' = t then g'.held = some r else τ.possibleMutex r = some t'
  connectList : ∀ s, s ≠ c.sender → τ'.connectList s = τ.connectList s
  bookings : ∀ s, s ≠ c.sender → τ'.bookings s = τ.bookings s
  possibleSenders : ∀ r t', t' ≠ t → τ.possibleMutex r = some t' →
    τ'.possibleSenders r = τ.possibleSenders r

theorem Inv.moved (h : τ.Inv w0 cursors w) (ht : τ.thread t = some (c, g))
    (hM : Moved τ τ' t c g') (hs : (τ'.connectList c.sender).Sound)
    (hr : ∀ r, w0.receiver r = true → (τ'.possibleSenders r).Sound)
    (hin : Between (w.conns c.sender) (w.bookings c.sender) (τ'.connectList c.sender)
      (τ'.bookings c.sender) τ'.possibleSenders c g') : τ'.Inv w0 cursors w := by
  have hother : ∀ t', t' ≠ t → τ'.thread t' = τ.thread t' := fun t' ht' => by
    rw [hM.thread, Function.update_of_ne ht']
  have hself : τ'.thread t = some (c, g') := by rw [hM.thread, Function.update_self]
  -- another thread that holds the mutex of its sender has another sender
  have hne : ∀ t' c' g'', t' ≠ t → τ.thread t' = some (c', g'') → g'' ≠ .lock →
      c'.sender ≠ c.sender := by
    intro t' c' g'' ht' hc' hg'' hsame
    have := (h.senderOwner c.sender t').mpr ⟨c', g'', hc', hg'', hsame⟩
    rcases hM.own with ho | ho <;> rw [ho] at this <;> cases this
    exact ht' rfl
  refine ⟨hM.world.trans h.world, hM.finished ▸ h.serial, h.objects, h.sound, h.allocs,
    fun s hs' => ?_, hr, fun t' c' g'' ht' => ?_, fun s t' => ?_, fun r t' => ?_,
    fun s hs' hfree => ?_, fun t' c' g'' ht' => ?_⟩
  · by_cases hss : s = c.sender
    · exact hss ▸ hs
    · rw [hM.connectList s hss]
      exact h.senders s hs'
  · by_cases htt : t' = t
    · subst htt
      rw [hself] at ht'
      cases ht'
      exact h.legal _ _ _ ht
    · exact h.legal t' c' g'' (hother t' htt ▸ ht')
  · rw [hM.connectMutex]
    by_cases htt : t' = t
    · subst htt
      rw [hself]
      by_cases hss : s = c.sender
      · rw [hss, Function.update_self]
        exact iff_of_true rfl ⟨c, g', rfl, hM.inside, rfl⟩
      · rw [Function.update_of_ne hss]
        refine iff_of_false (fun hm => ?_) ?_
        · obtain ⟨c', g'', hc', _, hs'⟩ := (h.senderOwner s t').mp hm
          rw [ht] at hc'
          cases hc'
          exact hss hs'.symm
        · rintro ⟨c', g'', hc', _, hs'⟩
          cases hc'
          exact hss hs'.symm
    · rw [hother t' htt, ← h.senderOwner]
      by_cases hss : s = c.sender
      · rw [hss, Function.update_self]
        refine iff_of_false (fun hm => htt (Option.some.inj hm).symm) fun hm => ?_
        rcases hM.own with ho | ho <;> rw [ho] at hm <;> cases hm
        exact htt rfl
      · rw [Function.update_of_ne hss]
  · rw [hM.possibleMutex]
    by_cases htt : t' = t
    · subst htt
      rw [if_pos rfl, hself]
      constructor
      · exact fun hg => ⟨c, g', rfl, hg⟩
      · rintro ⟨c', g'', hc', hg⟩
        cases hc'
        exact hg
    · rw [if_neg htt, hother t' htt, h.receiverOwner]
  · rw [hM.connectMutex] at hfree
    have hss : s ≠ c.sender := by
      rintro rfl
      rw [Function.update_self] at hfree
      cases hfree
    rw [Function.update_of_ne hss] at hfree
    rw [Threads.conns, hM.connectList s hss, hM.bookings s hss]
    exact h.free s hs' hfree
  · by_cases htt : t' = t
    · subst htt
      rw [hself] at ht'
      cases ht'
      exact hin
    · rw [hother t' htt] at ht'
      by_cases hg : g'' = .lock
      · subst hg
        unfold Between
        cases c' <;> trivial
      · have hss := hne t' c' g'' htt ht' hg
        rw [hM.connectList _ hss, hM.bookings _ hss]
        exact (h.inside t' c' g'' ht').congr fun r hr =>
          hM.possibleSenders r t' htt ((h.receiverOwner r t').mpr ⟨c', g'', ht', hr⟩)

/-! ## The steps -/

theorem Inv.holds (h : τ.Inv w0 cursors w) (ht : τ.thread t = some (c, g)) (r : ReceiverId) :
    τ.possibleMutex r = some t ↔ g.held = some r := by
  rw [h.receiverOwner]
  constructor
  · rintro ⟨c', g'', hc', hg⟩
    rw [ht] at hc'
    cases hc'
    exact hg
  · exact fun hg => ⟨c, g, ht, hg⟩

/-- The mutexes of the receivers stay as they are. -/
theorem Inv.possible_same (h : τ.Inv w0 cursors w) (ht : τ.thread t = some (c, g))
    (hg : g'.held = g.held) (r : ReceiverId) (t' : ThreadId) :
    τ.possibleMutex r = some t' ↔
      if t' = t then g'.held = some r else τ.possibleMutex r = some t' := by
  by_cases htt : t' = t
  · subst htt
    rw [if_pos rfl, hg, h.holds ht]
  · rw [if_neg htt]

theorem Inv.owns (h : τ.Inv w0 cursors w) (ht : τ.thread t = some (c, g)) (hg : g ≠ .lock) :
    τ.connectMutex c.sender = some t := (h.senderOwner c.sender t).mpr ⟨c, g, ht, hg, rfl⟩

theorem Inv.live (h : τ.Inv w0 cursors w) (ht : τ.thread t = some (c, g)) :
    (w0.sender c.sender).isSome = true := (h.legal t c g ht).1.sender

theorem inv_lock (h : τ.Inv w0 cursors w) (ht : τ.thread t = some (c, .lock))
    (hfree : τ.connectMutex c.sender = none) :
    ((τ.setConnectMutex c.sender (some t)).goto t c (.sender c.first)).Inv w0 cursors w := by
  have hheld : (Stage.sender c.first).held = (Stage.lock).held := by
    cases c with
    | connect a => cases hu : a.uniqueConnection <;> simp [LibCall.first, hu, Stage.held]
    | disconnect a => rfl
  refine h.moved ht ⟨rfl, rfl, rfl, fun h => (nomatch h), Or.inl hfree, rfl,
    h.possible_same ht hheld, fun _ _ => rfl, fun _ _ => rfl, fun _ _ _ _ => rfl⟩
    (h.senders _ (h.live ht)) h.receivers ?_
  obtain ⟨hB, hN⟩ := h.free _ (h.live ht) hfree
  cases c with
  | connect a =>
    cases hu : a.uniqueConnection with
    | true =>
      have hfirst : (LibCall.connect a).first = .begin := by simp [LibCall.first, hu]
      rw [hfirst]
      exact ⟨hB, hN, hu⟩
    | false =>
      have hfirst : (LibCall.connect a).first = .pushBack := by simp [LibCall.first, hu]
      rw [hfirst]
      exact ⟨hB, hN, by rw [hu, Bool.false_and]⟩
  | disconnect a => exact ⟨hB, hN⟩

theorem inv_sender {q : SenderJob} (h : τ.Inv w0 cursors w)
    (ht : τ.thread t = some (c, .sender q)) :
    ∃ l' g', senderStep c (τ.connectList c.sender) q = .ok (l', g') ∧
      ((τ.setConnectList c.sender l').goto t c g').Inv w0 cursors w := by
  obtain ⟨l', g', hrun, hl', hin, hheld, hne⟩ :=
    sender_does (h.senders _ (h.live ht)) (h.inside t c _ ht)
  have hown := h.owns ht fun h => nomatch h
  have hself : ((τ.setConnectList c.sender l').goto t c g').connectList c.sender = l' :=
    Function.update_self _ _ _
  refine ⟨l', g', hrun, h.moved ht ⟨rfl, rfl, rfl, hne, Or.inr hown, ?_,
    h.possible_same ht hheld, fun s hs => Function.update_of_ne hs _ _, fun _ _ => rfl,
    fun _ _ _ _ => rfl⟩ (hself.symm ▸ hl') h.receivers ?_⟩
  · exact (Function.update_eq_self_iff.mpr hown.symm).symm
  · rw [hself]
    exact hin

/-- A call locks or unlocks the mutex of a receiver, and works on no list. -/
theorem Inv.relock {r : ReceiverId} {o : Option ThreadId} (h : τ.Inv w0 cursors w)
    (ht : τ.thread t = some (c, g)) (hg : g ≠ .lock) (hg' : g' ≠ .lock)
    (hself : ∀ r', Function.update τ.possibleMutex r o r' = some t ↔ g'.held = some r')
    (hother : ∀ t', t' ≠ t → (o = some t' ↔ τ.possibleMutex r = some t'))
    (hin : Between (w.conns c.sender) (w.bookings c.sender) (τ.connectList c.sender)
      (τ.bookings c.sender) τ.possibleSenders c g') :
    ((τ.setPossibleMutex r o).goto t c g').Inv w0 cursors w := by
  have hown := h.owns ht hg
  refine h.moved ht ⟨rfl, rfl, rfl, hg', Or.inr hown, ?_, fun r' t' => ?_,
    fun _ _ => rfl, fun _ _ => rfl, fun _ _ _ _ => rfl⟩ (h.senders _ (h.live ht)) h.receivers hin
  · exact (Function.update_eq_self_iff.mpr hown.symm).symm
  · show Function.update τ.possibleMutex r o r' = some t' ↔ _
    by_cases htt : t' = t
    · rw [if_pos htt, htt]
      exact hself r'
    · rw [if_neg htt]
      by_cases hr : r' = r
      · rw [hr, Function.update_self]
        exact hother t' htt
      · rw [Function.update_of_ne hr]

theorem inv_lockReceiver {r : ReceiverId} {iter : Option Nat} (h : τ.Inv w0 cursors w)
    (ht : τ.thread t = some (c, .lockReceiver r iter)) (hfree : τ.possibleMutex r = none) :
    ((τ.setPossibleMutex r (some t)).goto t c (.receiver r (afterLock iter))).Inv w0 cursors w := by
  refine h.relock ht (fun h => by cases h) (fun h => by cases h) (fun r' => ?_) (fun t' ht' => ?_) ?_
  · by_cases hr : r' = r
    · rw [hr, Function.update_self]
      exact iff_of_true rfl rfl
    · rw [Function.update_of_ne hr, h.holds ht]
      exact iff_of_false (fun h => by cases h) fun he => hr (Option.some.inj he).symm
  · rw [hfree]
    exact iff_of_false (fun he => ht' (Option.some.inj he).symm) fun h => by cases h
  · have hin := h.inside t c _ ht
    cases c with
    | connect a =>
      cases iter with
      | none => exact hin
      | some n => exact hin.elim
    | disconnect a =>
      cases iter with
      | none => exact hin.elim
      | some n => exact hin

theorem inv_unlockReceiver {r : ReceiverId} {iter : Option Nat} (h : τ.Inv w0 cursors w)
    (ht : τ.thread t = some (c, .unlockReceiver r iter)) :
    ((τ.setPossibleMutex r none).goto t c (afterUnlock iter)).Inv w0 cursors w := by
  have hmine : τ.possibleMutex r = some t := (h.holds ht r).mpr rfl
  have hheld : (afterUnlock iter).held = none := by
    cases iter <;> rfl
  have hne : afterUnlock iter ≠ .lock := by
    cases iter <;> exact fun h => by cases h
  refine h.relock ht (fun h => by cases h) hne (fun r' => ?_) (fun t' ht' => ?_) ?_
  · rw [hheld]
    by_cases hr : r' = r
    · rw [hr, Function.update_self]
      exact iff_of_false (fun h => by cases h) fun h => by cases h
    · rw [Function.update_of_ne hr, h.holds ht]
      exact iff_of_false (fun he => hr (Option.some.inj he).symm) fun h => by cases h
  · rw [hmine]
    exact iff_of_false (fun h => by cases h) fun he => ht' (Option.some.inj he).symm
  · have hin := h.inside t c _ ht
    cases c with
    | connect a =>
      cases iter with
      | none => exact hin
      | some n => exact hin.elim
    | disconnect a =>
      cases iter with
      | none => exact hin.elim
      | some n => exact hin

/-- The receiver whose list a call works on is alive. -/
theorem Inv.receiver_live {r : ReceiverId} {q : ReceiverJob} (h : τ.Inv w0 cursors w)
    (ht : τ.thread t = some (c, .receiver r q)) : w0.receiver r = true := by
  have hin := h.inside t c _ ht
  have hlive := h.live ht
  cases c with
  | connect a =>
    cases q with
    | pushBack => exact hin.1 ▸ (h.legal t _ _ ht).1.2
    | begin => exact hin.elim
    | find => exact hin.elim
    | erase => exact hin.elim
  | disconnect a =>
    have hm : ∀ {iter}, AtMatch a.hit (w.conns a.sender) (w.bookings a.sender)
        (τ.connectList a.sender) (τ.bookings a.sender) r iter → w0.receiver r = true := by
      rintro iter ⟨seen, x, rest, hv, _, _, rfl⟩
      rw [← h.objects.receiver]
      refine h.sound.booked.receivers a.sender (h.objects.sender ▸ hlive) x.2 ?_
      rw [hv.base]
      simp
    cases q with
    | pushBack => exact hin.elim
    | begin => exact hm hin
    | find => exact hm hin.1
    | erase => exact hm hin.1

theorem inv_receiver {r : ReceiverId} {q : ReceiverJob} (h : τ.Inv w0 cursors w)
    (ht : τ.thread t = some (c, .receiver r q)) :
    ∃ l' g', receiverStep c.sender r (τ.possibleSenders r) q = .ok (l', g') ∧
      ((τ.setPossibleSenders r l').goto t c g').Inv w0 cursors w := by
  have hlive := h.live ht
  have hbook : ∀ x ∈ w.conns c.sender,
      (w.conns c.sender).countP (fun y => y.receiver == x.receiver) =
        w.bookings c.sender x.receiver := by
    intro x hx
    have hs : (w.sender c.sender).isSome = true := h.objects.sender ▸ hlive
    exact h.sound.booked.counts _ _ hs (h.sound.booked.receivers _ hs x hx)
  obtain ⟨l', g', hrun, hl', hin, hcount, hheld, hne⟩ :=
    receiver_does (h.receivers r (h.receiver_live ht)) rfl hbook (h.inside t c _ ht)
  have hown := h.owns ht fun h => nomatch h
  have hmine : τ.possibleMutex r = some t := (h.holds ht r).mpr rfl
  have hself : ((τ.setPossibleSenders r l').goto t c g').possibleSenders r = l' :=
    Function.update_self _ _ _
  have hothers : ∀ r', r' ≠ r →
      ((τ.setPossibleSenders r l').goto t c g').possibleSenders r' = τ.possibleSenders r' :=
    fun r' hr => Function.update_of_ne hr _ _
  have hbookings : ∀ s r', ((τ.setPossibleSenders r l').goto t c g').bookings s r' =
      if r' = r then l'.values.count s else τ.bookings s r' := by
    intro s r'
    unfold bookings possible
    split
    · rename_i hr
      rw [hr, hself]
    · rename_i hr
      rw [hothers r' hr]
  refine ⟨l', g', hrun, h.moved ht ⟨rfl, rfl, rfl, hne, Or.inr hown, ?_,
    h.possible_same ht hheld, fun _ _ => rfl, fun s hs => funext fun r' => ?_,
    fun r' t' htt hr' => hothers r' ?_⟩ (h.senders _ hlive) (fun r' hr' => ?_) ?_⟩
  · exact (Function.update_eq_self_iff.mpr hown.symm).symm
  · rw [hbookings]
    split
    · rename_i hr
      rw [hr]
      exact hcount s hs
    · rfl
  · rintro rfl
    rw [hmine] at hr'
    exact htt (Option.some.inj hr').symm
  · by_cases hr : r' = r
    · rw [hr, hself]
      exact hl'
    · rw [hothers r' hr]
      exact h.receivers r' hr'
  · have hn : ((τ.setPossibleSenders r l').goto t c g').bookings c.sender =
        Function.update (τ.bookings c.sender) r (l'.values.count c.sender) := by
      funext r'
      rw [hbookings, Function.update_apply]
    rw [hn]
    exact hin

/-- Where the other threads are does not change when one is outside all calls after
its step, and the books of other signals stay. -/
theorem Inv.ended {w' : World} {fs : List Finished} {τ' : Threads} (h : τ.Inv w0 cursors w)
    (hworld : τ'.world = τ.world) (hthread : τ'.thread = Function.update τ.thread t none)
    (hlists : τ'.connectList = τ.connectList) (hposs : τ'.possibleSenders = τ.possibleSenders)
    (hmutex : τ'.possibleMutex = τ.possibleMutex)
    (hheld : ∀ c g, τ.thread t = some (c, g) → g.held = none)
    (hfs : τ'.finished = τ.finished ++ fs) (hserial : Serial w fs w') (hobj : SameObjects w w')
    (hsound : w'.Sound cursors) (ha : w'.allocs = none)
    (howner : ∀ s t', τ'.connectMutex s = some t' ↔ t' ≠ t ∧ τ.connectMutex s = some t')
    (hfree : ∀ s, (w0.sender s).isSome = true → τ'.connectMutex s = none →
      τ.conns s = w'.conns s ∧ τ.bookings s = w'.bookings s)
    (hbusy : ∀ s t', t' ≠ t → τ.connectMutex s = some t' →
      w'.conns s = w.conns s ∧ w'.bookings s = w.bookings s) : τ'.Inv w0 cursors w' := by
  have hother : ∀ t' x, τ'.thread t' = some x ↔ t' ≠ t ∧ τ.thread t' = some x := by
    intro t' x
    rw [hthread]
    by_cases htt : t' = t
    · rw [htt, Function.update_self]
      exact iff_of_false (fun h => nomatch h) fun h => h.1 rfl
    · rw [Function.update_of_ne htt, and_iff_right htt]
  have hbook : ∀ s, τ'.bookings s = τ.bookings s := fun s => by
    unfold bookings possible
    rw [hposs]
  refine ⟨hworld.trans h.world, hfs ▸ h.serial.append hserial, h.objects.trans hobj, hsound, ha,
    fun s hs => hlists ▸ h.senders s hs, fun r hr => hposs ▸ h.receivers r hr,
    fun t' c g ht => h.legal t' c g ((hother t' _).mp ht).2, fun s t' => ?_, fun r t' => ?_,
    fun s hs hm => ?_, fun t' c g ht => ?_⟩
  · rw [howner, h.senderOwner]
    simp only [hother, and_assoc, exists_and_left]
  · rw [hmutex, h.receiverOwner]
    simp only [hother]
    refine exists_congr fun c => exists_congr fun g => and_congr_left fun hg => ?_
    refine (and_iff_right_of_imp fun ht htt => ?_).symm
    rw [htt] at ht
    rw [hheld c g ht] at hg
    cases hg
  · rw [hbook, conns, hlists]
    exact hfree s hs hm
  · obtain ⟨htt, ht⟩ := (hother t' _).mp ht
    by_cases hg : g = .lock
    · subst hg
      unfold Between
      cases c <;> trivial
    · obtain ⟨h1, h2⟩ := hbusy c.sender t' htt (h.owns ht hg)
      rw [h1, h2, hbook, hlists, hposs]
      exact h.inside t' c g ht

theorem inv_unlock {b : Bool} (h : τ.Inv w0 cursors w) (ht : τ.thread t = some (c, .unlock b)) :
    ∃ w', ((τ.setConnectMutex c.sender none).finish t c (some b)).Inv w0 cursors w' := by
  obtain ⟨hlive, hacc⟩ := h.legal t c _ ht
  have hlive' := hlive.same h.objects
  obtain ⟨b', w', hrun, hA⟩ := LibCall.alone h.sound h.allocs hlive' hacc
  -- alone, the call would have done the same
  have hin : c.Effect (w.conns c.sender) (w.bookings c.sender) b
      (τ.conns c.sender) (τ.bookings c.sender) := by
    have := h.inside t c _ ht
    cases c <;> exact this
  obtain ⟨rfl, hconns, hbook⟩ := hin.unique hA.effect
  have hown := h.owns ht fun h => nomatch h
  refine ⟨w', h.ended rfl rfl rfl rfl rfl (fun c' g ht' => ?_) rfl (.returned hlive' hrun rfl (.nil w'))
    hA.objects (hA.sound _ h.sound) hA.allocs (fun s t' => ?_) (fun s hs hm => ?_)
    fun s t' htt hm => ?_⟩
  · rw [ht] at ht'
    cases ht'
    rfl
  · show Function.update τ.connectMutex c.sender none s = some t' ↔ _
    by_cases hs : s = c.sender
    · rw [hs, Function.update_self, hown]
      exact iff_of_false (fun h => nomatch h) fun h => h.1 (Option.some.inj h.2).symm
    · rw [Function.update_of_ne hs]
      refine (and_iff_right_of_imp fun hm htt => hs ?_).symm
      obtain ⟨c', g, ht', _, hs'⟩ := (h.senderOwner s t').mp hm
      rw [htt, ht] at ht'
      cases ht'
      exact hs'.symm
  · by_cases hsc : s = c.sender
    · rw [hsc]
      exact ⟨hconns, hbook⟩
    · rw [hA.conns s hsc, hA.bookings s hsc]
      refine h.free s hs ?_
      have hm' : Function.update τ.connectMutex c.sender none s = none := hm
      rwa [Function.update_of_ne hsc] at hm'
  · have hsc : s ≠ c.sender := by
      rintro rfl
      rw [hown] at hm
      exact htt (Option.some.inj hm).symm
    exact ⟨hA.conns s hsc, hA.bookings s hsc⟩

/-- A call with a null pointer throws before it locks anything. -/
theorem inv_refused (h : τ.Inv w0 cursors w) (ht : τ.thread t = none)
    (hacc : c.accepts = false) : (τ.finish t c none).Inv w0 cursors w := by
  have hthrow : ∃ e, c.op w = .thrown e w := by
    cases c with
    | connect a =>
      rcases connect_eq a.overload a.sender a.signalMethod a.receiver a.slotMethod a.type
        a.uniqueConnection with ⟨_, what, hrun⟩ | ⟨hyes, _⟩
      · exact ⟨_, hrun⟩
      · rw [show a.overload.accepts a.signalMethod a.slotMethod = false from hacc] at hyes
        cases hyes
    | disconnect a => cases hacc
  obtain ⟨e, hrun⟩ := hthrow
  refine h.ended rfl rfl rfl rfl rfl (fun c' g ht' => ?_) rfl (.thrown hrun rfl (.nil w))
    (.refl w) h.sound h.allocs (fun s t' => ?_) (fun s hs hm => h.free s hs hm)
    fun s t' _ _ => ⟨rfl, rfl⟩
  · rw [ht] at ht'
    cases ht'
  · refine (and_iff_right_of_imp fun hm htt => ?_).symm
    obtain ⟨c', g, ht', _⟩ := (h.senderOwner s t').mp hm
    rw [htt, ht] at ht'
    cases ht'

theorem inv_called (h : τ.Inv w0 cursors w) (ht : τ.thread t = none) (hlive : c.Live w0)
    (hacc : c.accepts = true) : (τ.goto t c .lock).Inv w0 cursors w := by
  have hother : ∀ t' c' g, (τ.goto t c .lock).thread t' = some (c', g) ↔
      t' = t ∧ c' = c ∧ g = .lock ∨ τ.thread t' = some (c', g) := by
    intro t' c' g
    show Function.update τ.thread t _ t' = _ ↔ _
    by_cases htt : t' = t
    · rw [htt, Function.update_self, ht]
      simp [eq_comm]
    · rw [Function.update_of_ne htt]
      simp [htt]
  refine ⟨h.world, h.serial, h.objects, h.sound, h.allocs, h.senders, h.receivers,
    fun t' c' g ht' => ?_, fun s t' => ?_, fun r t' => ?_, h.free, fun t' c' g ht' => ?_⟩
  · rcases (hother t' c' g).mp ht' with ⟨_, rfl, _⟩ | ht'
    · exact ⟨hlive, hacc⟩
    · exact h.legal t' c' g ht'
  · refine (h.senderOwner s t').trans ?_
    refine exists_congr fun c' => exists_congr fun g => and_congr_left fun hg => ?_
    rw [hother]
    exact ⟨Or.inr, fun h => h.resolve_left fun h => hg.1 h.2.2⟩
  · refine (h.receiverOwner r t').trans ?_
    refine exists_congr fun c' => exists_congr fun g => and_congr_left fun hg => ?_
    rw [hother]
    refine ⟨Or.inr, fun h => h.resolve_left fun h => ?_⟩
    rw [h.2.2] at hg
    cases hg
  · rcases (hother t' c' g).mp ht' with ⟨_, _, rfl⟩ | ht'
    · unfold Between
      cases c' <;> trivial
    · exact h.inside t' c' g ht'

/-- Every step of a thread keeps the invariant, and none meets a fault. -/
theorem Inv.step (h : τ.Inv w0 cursors w) (x : ThreadId × ThreadEvent) :
    match τ.step x with
    | .ok τ' => ∃ w', τ'.Inv w0 cursors w'
    | .error e => e = .illegal := by
  obtain ⟨t, e⟩ := x
  unfold Threads.step
  cases ht : τ.thread t with
  | none =>
    cases e with
    | go => rfl
    | call c =>
      by_cases hlive : c.Live τ.world
      · rw [h.world] at hlive
        cases hacc : c.accepts with
        | true =>
          simp only [h.world, if_pos hlive, hacc, if_true]
          exact ⟨w, inv_called h ht hlive hacc⟩
        | false =>
          simp only [h.world, if_pos hlive, hacc, Bool.false_eq_true, if_false]
          exact ⟨w, inv_refused h ht hacc⟩
      · simp only [if_neg hlive]
  | some x =>
    obtain ⟨c, g⟩ := x
    cases e with
    | call c' => rfl
    | go =>
      simp only
      cases g with
      | lock =>
        cases hm : τ.connectMutex c.sender with
        | none =>
          simp only [goStep, hm]
          exact ⟨w, inv_lock h ht hm⟩
        | some t' => simp only [goStep, hm]
      | sender q =>
        obtain ⟨l', g', hrun, hI⟩ := inv_sender h ht
        simp only [goStep, hrun]
        exact ⟨w, hI⟩
      | lockReceiver r iter =>
        cases hm : τ.possibleMutex r with
        | none =>
          simp only [goStep, hm]
          exact ⟨w, inv_lockReceiver h ht hm⟩
        | some t' => simp only [goStep, hm]
      | receiver r q =>
        obtain ⟨l', g', hrun, hI⟩ := inv_receiver h ht
        simp only [goStep, hrun]
        exact ⟨w, hI⟩
      | unlockReceiver r iter => exact ⟨w, inv_unlockReceiver h ht⟩
      | unlock b => exact inv_unlock h ht

theorem inv_run {es : List (ThreadId × ThreadEvent)} (hw : w0.Sound cursors)
    (ha : w0.allocs = none) (hr : Runs.run Threads.step (start w0) es = .ok τ) :
    ∃ w, τ.Inv w0 cursors w := by
  refine Runs.run_keeps (I := fun τ => ∃ w, τ.Inv w0 cursors w) (fun τ x τ' h hs => ?_) hr
    ⟨w0, inv_start hw ha⟩
  obtain ⟨w, h⟩ := h
  have := h.step x
  rw [hs] at this
  exact this

end Threads

/-! ## The serial order -/

theorem Serial.split {w w' : World} {fs gs : List Finished} (h : Serial w (fs ++ gs) w') :
    ∃ w1, Serial w fs w1 ∧ Serial w1 gs w' := by
  induction fs generalizing w with
  | nil => exact ⟨w, .nil w, h⟩
  | cons f fs ih =>
    cases h with
    | returned hlive hrun hb h =>
      obtain ⟨w1, h1, h2⟩ := ih h
      exact ⟨w1, .returned hlive hrun hb h1, h2⟩
    | thrown hrun hb h =>
      obtain ⟨w1, h1, h2⟩ := ih h
      exact ⟨w1, .thrown hrun hb h1, h2⟩

/-- What a call that returned has done. -/
theorem LibCall.alone_of_returned {w w' : World} {cursors : SenderId → List Cursor} {c : LibCall}
    {b : Bool} (hw : w.Sound cursors) (ha : w.allocs = none) (hlive : c.Live w)
    (hrun : c.op w = .returned b w') : Alone c b w w' := by
  have hacc : c.accepts = true := by
    cases c with
    | connect a =>
      rcases connect_eq a.overload a.sender a.signalMethod a.receiver a.slotMethod a.type
        a.uniqueConnection with ⟨_, what, h⟩ | ⟨hyes, _⟩
      · rw [LibCall.op, h] at hrun
        cases hrun
      · exact hyes
    | disconnect a => rfl
  obtain ⟨b', w1, hrun', hA⟩ := LibCall.alone hw ha hlive hacc
  rw [hrun'] at hrun
  cases hrun
  exact hA

theorem Serial.sound {w w' : World} {cursors : SenderId → List Cursor} {fs : List Finished}
    (h : Serial w fs w') (hw : w.Sound cursors) (ha : w.allocs = none) :
    w'.Sound cursors ∧ w'.allocs = none := by
  induction h with
  | nil => exact ⟨hw, ha⟩
  | returned hlive hrun _ _ ih =>
    have hA := LibCall.alone_of_returned hw ha hlive hrun
    exact ih (hA.sound _ hw) hA.allocs
  | thrown _ _ _ ih => exact ih hw ha

/-- A call of `internal_disconnect` that takes a connection of a signal out. -/
def Finished.Removes (s : SenderId) (item : ConnectStruct) (f : Finished) : Prop :=
  ∃ a, f.call = .disconnect a ∧ a.sender = s ∧ a.hit item = true

/-- A connection stays until it is disconnected. -/
theorem Serial.stays {w w' : World} {cursors : SenderId → List Cursor} {fs : List Finished}
    {s : SenderId} {item : ConnectStruct} (h : Serial w fs w') (hw : w.Sound cursors)
    (ha : w.allocs = none) (hno : ∀ f ∈ fs, ¬ f.Removes s item) (hitem : item ∈ w.conns s) :
    item ∈ w'.conns s := by
  induction h with
  | nil => exact hitem
  | thrown _ _ _ ih => exact ih hw ha (fun f hf => hno f (List.mem_cons_of_mem _ hf)) hitem
  | @returned w w1 _ f fs b hlive hrun _ _ ih =>
    have hA := LibCall.alone_of_returned hw ha hlive hrun
    refine ih (hA.sound _ hw) hA.allocs (fun f hf => hno f (List.mem_cons_of_mem _ hf)) ?_
    by_cases hs : s = f.call.sender
    · have heff := hA.effect
      cases hc : f.call with
      | connect a =>
        rw [hc] at heff hs
        rw [hs, heff.2.1, ← hs]
        exact List.mem_append_left _ hitem
      | disconnect a =>
        rw [hc] at heff hs
        rw [hs, heff.2.1, ← hs, List.mem_filter]
        refine ⟨hitem, ?_⟩
        by_contra hhit
        exact hno f List.mem_cons_self ⟨a, hc, hs.symm, by simpa using hhit⟩
    · rw [hA.conns s hs]
      exact hitem

/-- Of two successful calls of `connect`, the second one unique and for the
connection of the first, some call between them has disconnected it. -/
def OnceBetween (fs : List Finished) : Prop :=
  ∀ pre f mid f' post a a', fs = pre ++ f :: (mid ++ f' :: post) →
    f.call = .connect a → f.result = some true → f'.call = .connect a' → f'.result = some true →
    a'.uniqueConnection = true → a'.sender = a.sender →
    Connects a'.signalMethod a'.receiver a'.slotMethod a.item →
    ∃ x ∈ mid, x.Removes a.sender a.item

theorem ConnectArgs.same_of_connects {a : ConnectArgs} {item : ConnectStruct}
    (h : Connects a.signalMethod a.receiver a.slotMethod item) : a.same item = true := by
  unfold ConnectArgs.same Overload.same
  cases a.overload with
  | methodSlot => exact (sameConnection_iff _ _ _ _).mpr h
  | lambdaSlot => exact (sameSignal_iff _ _ _).mpr ⟨h.1, h.2.1⟩
  | bento => exact (sameConnection_iff _ _ _ _).mpr h

theorem Serial.once {w w' : World} {cursors : SenderId → List Cursor} {fs : List Finished}
    (h : Serial w fs w') (hw : w.Sound cursors) (ha : w.allocs = none) : OnceBetween fs := by
  rintro pre f mid f' post a a' rfl hf hres hf' hres' hu hs hsame
  by_contra hno
  obtain ⟨w1, hpre, h⟩ := h.split
  obtain ⟨hw1, ha1⟩ := hpre.sound hw ha
  cases h with
  | thrown _ hb =>
    rw [hres] at hb
    cases hb
  | @returned _ w2 _ _ _ b hlive hrun hb h =>
    rw [hres] at hb
    cases hb
    have hA := LibCall.alone_of_returned hw1 ha1 hlive hrun
    have hin : a.item ∈ w2.conns a.sender := by
      have heff := hA.effect
      rw [hf] at heff
      rw [show a.sender = (LibCall.connect a).sender from rfl, heff.2.1]
      exact List.mem_append_right _ (List.mem_singleton.mpr rfl)
    obtain ⟨w3, hmid, h⟩ := h.split
    have hw2 := hA.sound _ hw1
    have hin' := hmid.stays hw2 hA.allocs (fun x hx hr => hno ⟨x, hx, hr⟩) hin
    obtain ⟨hw3, ha3⟩ := hmid.sound hw2 hA.allocs
    cases h with
    | thrown _ hb =>
      rw [hres'] at hb
      cases hb
    | @returned _ w4 _ _ _ b' hlive' hrun' hb' _ =>
      rw [hres'] at hb'
      cases hb'
      have heff := (LibCall.alone_of_returned hw3 ha3 hlive' hrun').effect
      rw [hf'] at heff
      have hany : (w3.conns a'.sender).any a'.same = true :=
        List.any_eq_true.mpr ⟨a.item, hs ▸ hin', ConnectArgs.same_of_connects hsame⟩
      have hb := heff.1
      rw [hu, show (LibCall.connect a').sender = a'.sender from rfl, hany] at hb
      cases hb

/-- When all calls have ended, the same calls made one after the other, in the order
in which they ended, return the same, and leave the same connections and the same
counts. A unique connection is made once between two of its disconnects. -/
theorem serializable {as : List Action} {σ : State} (hσ : run State.init as = .ok σ)
    {es : List (ThreadId × ThreadEvent)} {τ : Threads}
    (hr : Runs.run Threads.step (Threads.start σ.world) es = .ok τ)
    (hidle : ∀ t, τ.thread t = none) :
    (∃ w, Serial σ.world τ.finished w ∧ ∀ s, (σ.world.sender s).isSome = true →
      τ.conns s = w.conns s ∧ ∀ r, (τ.possible r).count s = (w.possible r).count s) ∧
    OnceBetween τ.finished := by
  have hI := inv_reached hσ
  obtain ⟨w, h⟩ := Threads.inv_run hI.memory.toSound hI.allocs hr
  refine ⟨⟨w, h.serial, fun s hs => ?_⟩, h.serial.once hI.memory.toSound hI.allocs⟩
  have hm : τ.connectMutex s = none := by
    cases hm : τ.connectMutex s with
    | none => rfl
    | some t =>
      obtain ⟨c, g, ht, _⟩ := (h.senderOwner s t).mp hm
      rw [hidle t] at ht
      cases ht
  obtain ⟨hconns, hbook⟩ := h.free s hs hm
  exact ⟨hconns, fun r => congrFun hbook r⟩

/-- Two threads make the same unique connection. -/
def racing : List (ThreadId × ThreadEvent) :=
  let a : ConnectArgs :=
    ⟨.methodSlot, 0, .method 0 (some 1), 0, .method 1 (some 1), .autoConnection, true⟩
  [(0, .call (.connect a)), (1, .call (.connect a)), (1, .go), (1, .go), (1, .go), (1, .go),
    (1, .go), (1, .go), (1, .go), (1, .go), (0, .go), (0, .go), (0, .go), (0, .go)]

theorem Threads.thread_of_step {τ τ' : Threads} {x : ThreadId × ThreadEvent} {t : ThreadId}
    (h : τ.step x = .ok τ') (ht : t ≠ x.1) : τ'.thread t = τ.thread t := by
  have hgo : ∀ c g, τ.goStep x.1 c g = .ok τ' → τ'.thread t = τ.thread t := by
    intro c g h
    cases g <;> simp only [goStep] at h <;> (try split at h) <;> cases h <;>
      exact Function.update_of_ne ht _ _
  unfold Threads.step at h
  split at h
  · split at h
    · split at h <;> cases h <;> exact Function.update_of_ne ht _ _
    · cases h
  · exact hgo _ _ h
  · cases h

theorem Threads.thread_of_run {τ τ' : Threads} {es : List (ThreadId × ThreadEvent)} {t : ThreadId}
    (hr : Runs.run Threads.step τ es = .ok τ') (ht : t ∉ es.map Prod.fst) :
    τ'.thread t = τ.thread t := by
  induction es generalizing τ with
  | nil =>
    cases hr
    rfl
  | cons x es ih =>
    obtain ⟨τ1, hs, hr⟩ := Runs.run_cons.mp hr
    rw [List.map_cons, List.mem_cons, not_or] at ht
    rw [ih hr ht.2, thread_of_step hs ht.1]

/-- The thread that came first has connected, the other one was refused. -/
theorem serializable_racing :
    ∃ w, Serial (after [.newSender 100, .newReceiver]).world
        [⟨1, .connect ⟨.methodSlot, 0, .method 0 (some 1), 0, .method 1 (some 1), .autoConnection,
            true⟩, some true⟩,
          ⟨0, .connect ⟨.methodSlot, 0, .method 0 (some 1), 0, .method 1 (some 1), .autoConnection,
            true⟩, some false⟩] w := by
  let w0 := (after [.newSender 100, .newReceiver]).world
  let τ := Runs.reached Threads.step (Threads.start w0) racing
  have hr : Runs.run Threads.step (Threads.start w0) racing = .ok τ :=
    Runs.run_reached (by decide +kernel)
  have h0 : τ.thread 0 = none := Option.isNone_iff_eq_none.mp (by decide +kernel)
  have h1 : τ.thread 1 = none := Option.isNone_iff_eq_none.mp (by decide +kernel)
  have hidle : ∀ t, τ.thread t = none := by
    intro t
    by_cases ht : t ∈ racing.map Prod.fst
    · have ht' : t = 0 ∨ t = 1 ∨ t = 0 := by simpa [racing] using ht
      rcases ht' with rfl | rfl | rfl
      · exact h0
      · exact h1
      · exact h0
    · exact Threads.thread_of_run hr ht
  obtain ⟨⟨w, hS, _⟩, _⟩ := serializable (Runs.run_reached (by decide +kernel)) hr hidle
  have hfin : τ.finished = [⟨1, .connect ⟨.methodSlot, 0, .method 0 (some 1), 0,
      .method 1 (some 1), .autoConnection, true⟩, some true⟩,
    ⟨0, .connect ⟨.methodSlot, 0, .method 0 (some 1), 0, .method 1 (some 1), .autoConnection,
      true⟩, some false⟩] := by decide +kernel
  exact ⟨w, hfin ▸ hS⟩

/-- No step of any thread meets a fault: no end iterator is dereferenced and every
`find` finds its sender. -/
theorem threads_safe {as : List Action} {σ : State} (hσ : run State.init as = .ok σ)
    {es : List (ThreadId × ThreadEvent)} {τ : Threads}
    (hr : Runs.run Threads.step (Threads.start σ.world) es = .ok τ) (x : ThreadId × ThreadEvent)
    (u : Fault) : τ.step x ≠ .error (.fault u) := by
  have hI := inv_reached hσ
  obtain ⟨w, h⟩ := Threads.inv_run hI.memory.toSound hI.allocs hr
  intro he
  have := h.step x
  rw [he] at this
  cases this

end CsSignal
