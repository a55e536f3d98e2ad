-- What one thread does to the lists while it holds their mutexes: how far a call has
-- come, and what each of its accesses leaves.
import CsSignal.Threads

namespace CsSignal

open LinkedCells Calls RcuList

/-! ## What a call does -/

/-- How often a signal stands in the list of each slot. -/
def World.bookings (w : World) (s : SenderId) (r : ReceiverId) : Nat := (w.possible r).count s

/-- What a call does to the connections `B` of its signal and to the counts `N`. -/
def LibCall.Effect (B : List ConnectStruct) (N : ReceiverId → Nat) (b : Bool)
    (B' : List ConnectStruct) (N' : ReceiverId → Nat) : LibCall → Prop
  | .connect a => b = !(a.uniqueConnection && B.any a.same) ∧
      B' = B ++ (if b then [a.item] else []) ∧
      ∀ r, N' r = N r + if b = true ∧ r = a.receiver then 1 else 0
  | .disconnect a => b = B.any a.hit ∧ B' = B.filter (fun c => !a.hit c) ∧
      ∀ r, N' r + B.countP (fun c => a.hit c && c.receiver == r) = N r

theorem LibCall.Effect.unique {B : List ConnectStruct} {N : ReceiverId → Nat} {b b1 : Bool}
    {B' B1 : List ConnectStruct} {N' N1 : ReceiverId → Nat} {c : LibCall}
    (h : c.Effect B N b B' N') (h1 : c.Effect B N b1 B1 N1) : b = b1 ∧ B' = B1 ∧ N' = N1 := by
  cases c with
  | connect a =>
    obtain ⟨rfl, rfl, hN⟩ := h
    obtain ⟨rfl, rfl, hN1⟩ := h1
    exact ⟨rfl, rfl, funext fun r => (hN r).trans (hN1 r).symm⟩
  | disconnect a =>
    obtain ⟨rfl, rfl, hN⟩ := h
    obtain ⟨rfl, rfl, hN1⟩ := h1
    refine ⟨rfl, rfl, funext fun r => ?_⟩
    have := (hN r).trans (hN1 r).symm
    omega

/-! ## Between two steps of a call -/

/-- `internal_disconnect` has gone through the connections `seen` of `B`, and has
told the receivers of the matches in `told`; `rest` is to come. -/
structure Visiting (hit : ConnectStruct → Bool) (B : List ConnectStruct) (N : ReceiverId → Nat)
    (l : SenderNodes) (n : ReceiverId → Nat) (seen told : List ConnectStruct)
    (rest : List (Nat × ConnectStruct)) : Prop where
  rep : ∃ kept, NodeList.Rep l (kept ++ rest) ∧ kept.map Prod.snd = seen.filter fun c => !hit c
  base : B = seen ++ rest.map Prod.snd
  counts : ∀ r, n r + told.countP (fun c => hit c && c.receiver == r) = N r

/-- The iterator stands on a match with the receiver `r`. -/
def AtMatch (hit : ConnectStruct → Bool) (B : List ConnectStruct) (N : ReceiverId → Nat)
    (l : SenderNodes) (n : ReceiverId → Nat) (r : ReceiverId) (iter : Nat) : Prop :=
  ∃ seen x rest, Visiting hit B N l n seen seen (x :: rest) ∧ iter = x.1 ∧ hit x.2 = true ∧
    x.2.receiver = r

/-- The iterator stands on a match that was erased. -/
def AfterMatch (hit : ConnectStruct → Bool) (B : List ConnectStruct) (N : ReceiverId → Nat)
    (l : SenderNodes) (n : ReceiverId → Nat) (iter : Nat) : Prop :=
  ∃ seen rest, Visiting hit B N l n seen seen rest ∧ seen.any hit = true ∧
    ∃ c, l.node iter = some c ∧ c.next = rest.head?.map Prod.fst

/-- How far a call has come that found the connections `B` and the counts `N`: its
signal has the list `l` and the counts `n` now. -/
def Between (B : List ConnectStruct) (N : ReceiverId → Nat) (l : SenderNodes)
    (n : ReceiverId → Nat) (lr : ReceiverId → ReceiverNodes) : LibCall → Stage → Prop
  | _, .lock => True
  | .connect a, .sender .begin => l.values = B ∧ n = N ∧ a.uniqueConnection = true
  | .connect a, .sender (.scan iter) => n = N ∧ a.uniqueConnection = true ∧
    ∃ pre rest, NodeList.Rep l (pre ++ rest) ∧ (pre ++ rest).map Prod.snd = B ∧
      iter = rest.head?.map Prod.fst ∧ ∀ x ∈ pre, a.same x.2 = false
  | .connect a, .sender .pushBack => l.values = B ∧ n = N ∧
    (a.uniqueConnection && B.any a.same) = false
  | .connect a, .lockReceiver r none => r = a.receiver ∧ l.values = B ++ [a.item] ∧ n = N ∧
    (a.uniqueConnection && B.any a.same) = false
  | .connect a, .receiver r .pushBack => r = a.receiver ∧ l.values = B ++ [a.item] ∧ n = N ∧
    (a.uniqueConnection && B.any a.same) = false
  | .connect a, .unlockReceiver _ none => (LibCall.connect a).Effect B N true l.values n
  | .disconnect _, .sender .begin => l.values = B ∧ n = N
  | .disconnect a, .sender (.visit iter retval) => ∃ seen rest,
    Visiting a.hit B N l n seen seen rest ∧ iter = rest.head?.map Prod.fst ∧
      retval = seen.any a.hit
  | .disconnect a, .lockReceiver r (some iter) => AtMatch a.hit B N l n r iter
  | .disconnect a, .receiver r (.begin iter) => AtMatch a.hit B N l n r iter
  | .disconnect a, .receiver r (.find iter node) => AtMatch a.hit B N l n r iter ∧
    ∃ pre rest, NodeList.Rep (lr r) (pre ++ rest) ∧ node = rest.head?.map Prod.fst ∧
      ∀ x ∈ pre, x.2 ≠ a.sender
  | .disconnect a, .receiver r (.erase iter found) => AtMatch a.hit B N l n r iter ∧
    ∃ pre x post, NodeList.Rep (lr r) (pre ++ x :: post) ∧ found = some x.1 ∧ x.2 = a.sender
  | .disconnect a, .sender (.erase iter r) => ∃ seen x rest,
    Visiting a.hit B N l n seen (seen ++ [x.2]) (x :: rest) ∧ iter = x.1 ∧ a.hit x.2 = true ∧
      x.2.receiver = r
  | .disconnect a, .unlockReceiver _ (some iter) => AfterMatch a.hit B N l n iter
  | .disconnect a, .sender (.next iter) => AfterMatch a.hit B N l n iter
  | c, .unlock retval => c.Effect B N retval l.values n
  | _, _ => False

/-- The receiver whose list is locked. -/
def Stage.held : Stage → Option ReceiverId
  | .sender (.erase _ r) => some r
  | .receiver r _ => some r
  | .unlockReceiver r _ => some r
  | _ => none

/-- Of the lists of the receivers only the locked one matters. -/
theorem Between.congr {B : List ConnectStruct} {N n : ReceiverId → Nat} {l : SenderNodes}
    {lr lr' : ReceiverId → ReceiverNodes} {c : LibCall} {g : Stage} (h : Between B N l n lr c g)
    (hr : ∀ r, g.held = some r → lr' r = lr r) : Between B N l n lr' c g := by
  cases c with
  | connect a =>
    cases g with
    | lock => trivial
    | sender q => cases q <;> exact h
    | lockReceiver r iter => cases iter <;> exact h
    | receiver r q => cases q <;> exact h
    | unlockReceiver r iter => cases iter <;> exact h
    | unlock b => exact h
  | disconnect a =>
    cases g with
    | lock => trivial
    | sender q => cases q <;> exact h
    | lockReceiver r iter => cases iter <;> exact h
    | receiver r q =>
      have heq : lr' r = lr r := hr r rfl
      cases q with
      | pushBack => exact h
      | begin iter => exact h
      | find iter node =>
        simp only [Between, heq] at h ⊢
        exact h
      | erase iter found =>
        simp only [Between, heq] at h ⊢
        exact h
    | unlockReceiver r iter => cases iter <;> exact h
    | unlock b => exact h

/-! ## One access to a list -/

/-- The nodes of a list stand in some order. -/
def NodeList.Sound {α : Type} (l : NodeList α) : Prop := ∃ live, NodeList.Rep l live

theorem NodeList.Rep.values_eq {α : Type} {l : NodeList α} {live : List (Nat × α)}
    (h : NodeList.Rep l live) : l.values = live.map Prod.snd := by
  rw [NodeList.values, h.toList_eq]

section

variable {B : List ConnectStruct} {N n : ReceiverId → Nat} {l : SenderNodes}
  {lr : ReceiverId → ReceiverNodes}

/-- What an access to the list of the sender does. -/
def SenderDoes (B : List ConnectStruct) (N : ReceiverId → Nat) (l : SenderNodes)
    (n : ReceiverId → Nat) (lr : ReceiverId → ReceiverNodes) (c : LibCall) (q : SenderJob) : Prop :=
  ∃ l' g, senderStep c l q = .ok (l', g) ∧ l'.Sound ∧ Between B N l' n lr c g ∧
    g.held = (Stage.sender q).held ∧ g ≠ .lock

theorem connect_sender {a : ConnectArgs} {q : SenderJob} (hl : l.Sound)
    (h : Between B N l n lr (.connect a) (.sender q)) :
    SenderDoes B N l n lr (.connect a) q := by
  cases q with
  | begin =>
    obtain ⟨hB, hn, hu⟩ := h
    obtain ⟨live, hrep⟩ := hl
    refine ⟨l, _, rfl, ⟨live, hrep⟩, ⟨hn, hu, [], live, hrep, ?_, hrep.head_eq, by simp⟩, rfl,
      fun h => by cases h⟩
    rw [List.nil_append, ← hrep.values_eq, hB]
  | scan iter =>
    obtain ⟨hn, hu, pre, rest, hrep, hB, rfl, hpre⟩ := h
    have hvals := hrep.values_eq.trans hB
    cases rest with
    | nil =>
      refine ⟨l, _, rfl, hl, ⟨hvals, hn, ?_⟩, rfl, fun h => by cases h⟩
      rw [hu, Bool.true_and, ← hB, List.append_nil, List.any_map, List.any_eq_false]
      exact fun x hx => by simpa using hpre x hx
    | cons x rest =>
      have hcell := hrep.cell rfl
      by_cases hx : a.same x.2 = true
      · refine ⟨l, .unlock false, ?_, hl, ⟨?_, ?_, fun r => ?_⟩, rfl, fun h => by cases h⟩
        · simp [senderStep, NodeList.deref, hcell, ok_bind, hx]
        · rw [hu, ← hB, List.map_append, List.map_cons, List.any_append, List.any_cons, hx]
          simp
        · simpa using hvals
        · rw [hn]
          simp
      · refine ⟨l, .sender (.scan (rest.head?.map Prod.fst)), ?_, hl,
          ⟨hn, hu, pre ++ [x], rest, by simpa using hrep, by simpa using hB, rfl, ?_⟩, rfl,
          fun h => by cases h⟩
        · simp [senderStep, NodeList.deref, hcell, ok_bind, hx]
        · intro y hy
          rcases List.mem_append.mp hy with hy | hy
          · exact hpre y hy
          · rw [List.mem_singleton.mp hy]
            simpa using hx
  | pushBack =>
    obtain ⟨hB, hn, hno⟩ := h
    obtain ⟨live, hrep⟩ := hl
    obtain ⟨l', hrun, hrep', _⟩ := hrep.pushBack a.item
    refine ⟨l', .lockReceiver a.receiver none, ?_, ⟨_, hrep'⟩, ⟨rfl, ?_, hn, hno⟩, rfl,
      fun h => by cases h⟩
    · simp [senderStep, hrun, ok_bind]
    · rw [hrep'.values_eq, List.map_append, ← hrep.values_eq, hB]
      rfl
  | visit iter retval => exact h.elim
  | erase iter r => exact h.elim
  | next iter => exact h.elim

namespace Visiting

variable {hit : ConnectStruct → Bool} {seen told : List ConnectStruct} {x : Nat × ConnectStruct}
  {rest : List (Nat × ConnectStruct)}

theorem start (hl : l.Sound) (hB : l.values = B) (hn : n = N) :
    ∃ rest, Visiting hit B N l n [] [] rest ∧ l.head = rest.head?.map Prod.fst := by
  obtain ⟨live, hrep⟩ := hl
  refine ⟨live, ⟨⟨[], hrep, rfl⟩, ?_, fun r => by rw [hn]; rfl⟩, hrep.head_eq⟩
  rw [List.nil_append, ← hrep.values_eq, hB]

theorem cell (h : Visiting hit B N l n seen told (x :: rest)) :
    ∃ c, l.node x.1 = some c ∧ c.data = x.2 ∧ c.next = rest.head?.map Prod.fst := by
  obtain ⟨kept, hrep, _⟩ := h.rep
  exact ⟨_, hrep.cell rfl, rfl, rfl⟩

theorem skip (h : Visiting hit B N l n seen seen (x :: rest)) (hx : hit x.2 = false) :
    Visiting hit B N l n (seen ++ [x.2]) (seen ++ [x.2]) rest := by
  obtain ⟨kept, hrep, hkept⟩ := h.rep
  refine ⟨⟨kept ++ [x], by simpa using hrep, by simp [hkept, hx]⟩, by simpa using h.base,
    fun r => ?_⟩
  rw [List.countP_append, ← h.counts r]
  simp [hx]

theorem erase (h : Visiting hit B N l n seen (seen ++ [x.2]) (x :: rest)) (hx : hit x.2 = true) :
    ∃ l' next, l.unlink x.1 = .ok (next, true, l') ∧
      Visiting hit B N l' n (seen ++ [x.2]) (seen ++ [x.2]) rest ∧
      ∃ c', l'.node x.1 = some c' ∧ c'.next = rest.head?.map Prod.fst := by
  obtain ⟨kept, hrep, hkept⟩ := h.rep
  obtain ⟨l', c, hc, _, _, hnext, _, hrun, hrep', _, hnode⟩ := hrep.unlink
  refine ⟨l', c.next, hrun, ⟨⟨kept, hrep', by simp [hkept, hx]⟩, by simpa using h.base, h.counts⟩,
    { c with deleted := true }, ?_, hnext⟩
  -- the erased node keeps its pointers
  rw [hnode]
  exact (hrep.listed.unlinked_cells hc).1

theorem ended {a : DisconnectArgs} (h : Visiting a.hit B N l n seen seen []) :
    (LibCall.disconnect a).Effect B N (seen.any a.hit) l.values n := by
  obtain ⟨kept, hrep, hkept⟩ := h.rep
  have hB : B = seen := by simpa using h.base
  refine ⟨by rw [hB], ?_, fun r => by rw [hB]; exact h.counts r⟩
  rw [hrep.values_eq, List.append_nil, hkept, hB]

theorem sound (h : Visiting hit B N l n seen told rest) : l.Sound := by
  obtain ⟨kept, hrep, _⟩ := h.rep
  exact ⟨_, hrep⟩

end Visiting

theorem disconnect_sender {a : DisconnectArgs} {q : SenderJob} (hl : l.Sound)
    (h : Between B N l n lr (.disconnect a) (.sender q)) :
    SenderDoes B N l n lr (.disconnect a) q := by
  cases q with
  | begin =>
    obtain ⟨rest, hv, hhead⟩ := Visiting.start hl h.1 h.2
    exact ⟨l, _, rfl, hl, ⟨[], rest, hv, hhead, rfl⟩, rfl, fun h => by cases h⟩
  | visit iter retval =>
    obtain ⟨seen, rest, hv, rfl, rfl⟩ := h
    cases rest with
    | nil => exact ⟨l, _, rfl, hl, hv.ended, rfl, fun h => by cases h⟩
    | cons x rest =>
      obtain ⟨c, hc, hdata, hnext⟩ := hv.cell
      by_cases hx : a.hit x.2 = true
      · refine ⟨l, .lockReceiver x.2.receiver (some x.1), ?_, hl, ⟨seen, x, rest, hv, rfl, hx, rfl⟩,
          rfl, fun h => by cases h⟩
        simp [senderStep, NodeList.deref, hc, ok_bind, hdata, hx]
      · rw [Bool.not_eq_true] at hx
        refine ⟨l, .sender (.visit (rest.head?.map Prod.fst) (seen.any a.hit)), ?_, hl,
          ⟨seen ++ [x.2], rest, hv.skip hx, rfl, ?_⟩, rfl, fun h => by cases h⟩
        · simp [senderStep, NodeList.deref, hc, ok_bind, hdata, hx, hnext]
        · simp [hx]
  | erase iter r =>
    obtain ⟨seen, x, rest, hv, rfl, hx, hr⟩ := h
    obtain ⟨l', next, hrun, hv', hcell⟩ := hv.erase hx
    refine ⟨l', .unlockReceiver r (some x.1), ?_, hv'.sound,
      ⟨seen ++ [x.2], rest, hv', by simp [hx], hcell⟩, rfl, fun h => by cases h⟩
    simp [senderStep, hrun, ok_bind]
  | next iter =>
    obtain ⟨seen, rest, hv, hany, c, hc, hnext⟩ := h
    refine ⟨l, .sender (.visit (rest.head?.map Prod.fst) true), ?_, hl,
      ⟨seen, rest, hv, rfl, hany.symm⟩, rfl, fun h => by cases h⟩
    simp [senderStep, NodeList.deref, hc, ok_bind, hnext]
  | scan iter => exact h.elim
  | pushBack => exact h.elim

theorem sender_does {c : LibCall} {q : SenderJob} (hl : l.Sound)
    (h : Between B N l n lr c (.sender q)) : SenderDoes B N l n lr c q := by
  cases c with
  | connect a => exact connect_sender hl h
  | disconnect a => exact disconnect_sender hl h

/-- What an access to the locked list of a receiver does. -/
def ReceiverDoes (B : List ConnectStruct) (N : ReceiverId → Nat) (l : SenderNodes)
    (n : ReceiverId → Nat) (lr : ReceiverId → ReceiverNodes) (c : LibCall) (r : ReceiverId)
    (q : ReceiverJob) : Prop :=
  ∃ l' g, receiverStep c.sender r (lr r) q = .ok (l', g) ∧ l'.Sound ∧
    Between B N l (Function.update n r (l'.values.count c.sender)) (Function.update lr r l') c g ∧
    (∀ s, s ≠ c.sender → l'.values.count s = (lr r).values.count s) ∧ g.held = some r ∧ g ≠ .lock

/-- The receiver of a match has the sender in its list. -/
theorem AtMatch.booked {hit : ConnectStruct → Bool} {r : ReceiverId} {iter : Nat}
    (h : AtMatch hit B N l n r iter)
    (hbook : ∀ x ∈ B, B.countP (fun c => c.receiver == x.receiver) = N x.receiver) : 0 < n r := by
  obtain ⟨seen, x, rest, hv, _, hx, rfl⟩ := h
  have hcount := hv.counts x.2.receiver
  have hB := hbook x.2 (by rw [hv.base]; simp)
  rw [hv.base, List.countP_append, List.map_cons, List.countP_cons_of_pos (by simp)] at hB
  have hle : seen.countP (fun c => hit c && c.receiver == x.2.receiver) ≤
      seen.countP fun c => c.receiver == x.2.receiver :=
    List.countP_mono_left fun c _ hc => by
      rw [Bool.and_eq_true] at hc
      exact hc.2
  omega

/-- An access that changes nothing in the list. -/
theorem receiverDoes_same {c : LibCall} {r : ReceiverId} {q : ReceiverJob} {g : Stage}
    (hlr : (lr r).Sound) (hn : n r = (lr r).values.count c.sender)
    (hrun : receiverStep c.sender r (lr r) q = .ok (lr r, g)) (h : Between B N l n lr c g)
    (hg : g.held = some r) (hne : g ≠ .lock) : ReceiverDoes B N l n lr c r q := by
  refine ⟨lr r, g, hrun, hlr, ?_, fun s _ => rfl, hg, hne⟩
  rwa [← hn, Function.update_eq_self, Function.update_eq_self]

theorem connect_receiver {a : ConnectArgs} {r : ReceiverId} {q : ReceiverJob}
    (hlr : (lr r).Sound) (hn : n r = (lr r).values.count a.sender)
    (h : Between B N l n lr (.connect a) (.receiver r q)) :
    ReceiverDoes B N l n lr (.connect a) r q := by
  cases q with
  | pushBack =>
    obtain ⟨rfl, hvals, rfl, hno⟩ := h
    obtain ⟨live, hrep⟩ := hlr
    obtain ⟨l', hrun, hrep', _⟩ := hrep.pushBack a.sender
    have hvals' : l'.values = (lr a.receiver).values ++ [a.sender] := by
      rw [hrep'.values_eq, List.map_append, hrep.values_eq]
      rfl
    refine ⟨l', .unlockReceiver a.receiver none, ?_, ⟨_, hrep'⟩, ⟨?_, ?_, fun r => ?_⟩,
      fun s hs => ?_, rfl, fun h => nomatch h⟩
    · simp [receiverStep, LibCall.sender, hrun, ok_bind]
    · rw [hno]
      rfl
    · simpa using hvals
    · by_cases hr : r = a.receiver
      · subst hr
        rw [Function.update_self, hvals', hn]
        simp [LibCall.sender]
      · rw [Function.update_of_ne hr]
        simp [hr]
    · have hs' : a.sender ≠ s := Ne.symm hs
      rw [hvals', List.count_append]
      simp [hs']
  | begin iter => exact h.elim
  | find iter node => exact h.elim
  | erase iter found => exact h.elim

theorem count_append_cons {pre post : List (Nat × SenderId)} {x : Nat × SenderId} {s : SenderId} :
    ((pre ++ x :: post).map Prod.snd).count s =
      ((pre ++ post).map Prod.snd).count s + if x.2 = s then 1 else 0 := by
  simp only [List.map_append, List.map_cons, List.count_append, List.count_cons, beq_iff_eq]
  omega

theorem disconnect_receiver {a : DisconnectArgs} {r : ReceiverId} {q : ReceiverJob}
    (hlr : (lr r).Sound) (hn : n r = (lr r).values.count a.sender)
    (hbook : ∀ x ∈ B, B.countP (fun c => c.receiver == x.receiver) = N x.receiver)
    (h : Between B N l n lr (.disconnect a) (.receiver r q)) :
    ReceiverDoes B N l n lr (.disconnect a) r q := by
  cases q with
  | begin iter =>
    have hm : AtMatch a.hit B N l n r iter := h
    obtain ⟨live, hrep⟩ := id hlr
    exact receiverDoes_same hlr hn rfl ⟨hm, [], live, hrep, hrep.head_eq, by simp⟩ rfl
      fun h => by cases h
  | find iter node =>
    obtain ⟨hm, pre, rest, hrep, rfl, hpre⟩ := h
    cases rest with
    | nil =>
      -- the sender stands in the list, so the search does not fail
      have hpos := hm.booked hbook
      rw [hn, hrep.values_eq, List.append_nil, List.count_pos_iff, List.mem_map] at hpos
      obtain ⟨y, hy, hys⟩ := hpos
      exact absurd hys (hpre y hy)
    | cons x rest =>
      have hcell := hrep.cell rfl
      by_cases hx : x.2 = a.sender
      · refine receiverDoes_same (g := .receiver r (.erase iter (some x.1))) hlr hn ?_
          ⟨hm, pre, x, rest, hrep, rfl, hx⟩ rfl fun h => by cases h
        simp [receiverStep, NodeList.deref, hcell, ok_bind, hx, LibCall.sender]
      · refine receiverDoes_same (g := .receiver r (.find iter (rest.head?.map Prod.fst))) hlr hn ?_
          ⟨hm, pre ++ [x], rest, by simpa using hrep, rfl, ?_⟩ rfl fun h => by cases h
        · simp [receiverStep, NodeList.deref, hcell, ok_bind, hx, LibCall.sender]
        · intro y hy
          rcases List.mem_append.mp hy with hy | hy
          · exact hpre y hy
          · rw [List.mem_singleton.mp hy]
            exact hx
  | erase iter found =>
    obtain ⟨⟨seen, y, rest, hv, rfl, hy, hyr⟩, pre, x, post, hrep, rfl, hx⟩ := h
    obtain ⟨l', c, _, _, _, _, _, hrun, hrep', _⟩ := hrep.unlink
    have hcount : ∀ s, (lr r).values.count s = l'.values.count s + if x.2 = s then 1 else 0 :=
      fun s => by rw [hrep.values_eq, hrep'.values_eq, count_append_cons]
    refine ⟨l', .sender (.erase y.1 r), ?_, ⟨_, hrep'⟩,
      ⟨seen, y, rest, ⟨hv.rep, hv.base, fun r' => ?_⟩, rfl, hy, hyr⟩, fun s hs => ?_, rfl,
      fun h => by cases h⟩
    · simp [receiverStep, hrun, ok_bind]
    · have hc := hv.counts r'
      rw [List.countP_append]
      by_cases hr : r' = r
      · subst hr
        have hn' := hn.trans (hcount a.sender)
        rw [if_pos hx] at hn'
        rw [Function.update_self]
        simp only [LibCall.sender, List.countP_singleton, hy, hyr, Bool.true_and, beq_self_eq_true,
          if_true]
        omega
      · rw [Function.update_of_ne hr, ← hc]
        have hne : y.2.receiver ≠ r' := fun he => hr (he.symm.trans hyr)
        simp [hne]
    · have := hcount s
      rw [if_neg fun h => hs (h.symm.trans hx)] at this
      omega
  | pushBack => exact h.elim

theorem receiver_does {c : LibCall} {r : ReceiverId} {q : ReceiverJob} (hlr : (lr r).Sound)
    (hn : n r = (lr r).values.count c.sender)
    (hbook : ∀ x ∈ B, B.countP (fun c => c.receiver == x.receiver) = N x.receiver)
    (h : Between B N l n lr c (.receiver r q)) : ReceiverDoes B N l n lr c r q := by
  cases c with
  | connect a => exact connect_receiver hlr hn h
  | disconnect a => exact disconnect_receiver hlr hn hbook h

end

end CsSignal
