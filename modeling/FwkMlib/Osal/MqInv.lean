import FwkMlib.Osal.MqStep
import FwkMlib.Osal.QueueInv
import Mathlib.Data.List.Nodup

/-!
# The invariant of the message queue

The proof is by interference. `MqShared.Inv` is what holds of the shared mq, `CallInv` what a call
may rely on at its next step, and `Guar p` what a step of the party `p` guarantees to the others: it
leaves the mutexes they hold alone, never changes the write slot or lengthens the queue while another
party holds `w_mutex`, and never drops a message while another party holds `r_mutex`.

* `CallInv.stable` : what a call relies on survives the steps of the others;
* `sendStep_inv`, `recvStep_inv` : the steps of a call;
* `Mq.Reachable.inv` : the invariant holds in every state that any interleaving reaches.
-/

namespace FwkMlib.Osal
open FwkMlib.Lib

def MqShared.pending (sh : MqShared) : List (List UInt8) :=
  (sh.accepted.map Prod.snd).drop sh.popped.length

/-- The queue holds exactly the accepted messages not yet delivered, and the delivered ones are those
accepted first. -/
structure MqShared.Inv (n : Nat) (sh : MqShared) : Prop where
  holds : ∃ r, sh.rawQueue.Holds n r sh.pending
  log : sh.accepted.map Prod.snd = sh.popped.map Prod.snd ++ sh.pending
  acceptedOnce : (sh.accepted.map Prod.fst).Nodup
  poppedOnce : (sh.popped.map Prod.fst).Nodup

namespace Call

def sent : Call → Option (List UInt8)
  | .send .unlockW msg | .send .lockR msg | .send .signal msg | .send .unlockR msg => some msg
  | .send (.returned ret) msg => if ret = OSAL_API_OK then some msg else none
  | _ => none

/-- The buffer of a receive that has taken a message out of the queue. -/
def received : Call → Option (List UInt8)
  | .recv (.unlockR ret) _ msg | .recv (.returned ret) _ msg =>
    if ret = OSAL_API_OK then some msg else none
  | _ => none

def holdsW : Call → Bool
  | .send .testFull _ | .send .copy₁ _ | .send .copy₂ _ | .send .advance _ | .send .unlockFail _
  | .send .unlockW _ => true
  | _ => false

def holdsR : Call → Bool
  | .send .signal _ | .send .unlockR _ | .recv .testEmpty _ _ | .recv .copy₁ _ _
  | .recv .copy₂ _ _ | .recv .advance _ _ | .recv .wait _ _ | .recv .checkExit _ _
  | .recv (.unlockR _) _ _ => true
  | _ => false

/-- The caller's buffer, as long as the call may copy from or to it. -/
def buffer : Call → Option (List UInt8)
  | .idle | .send (.returned _) _ | .recv (.returned _) _ _ => none
  | .send _ msg | .recv _ _ msg => some msg

/-- How far the copies of a call have come. -/
def Progress (n : Nat) (sh : MqShared) : Call → Prop
  | .send .copy₁ _ => sh.pending.length + 1 < n
  | .send .copy₂ msg | .send .advance msg =>
    sh.pending.length + 1 < n ∧ sh.rawQueue.writeSlot = msg.take sh.rawQueue.msgSize
  | .recv .copy₁ _ _ => sh.pending ≠ []
  | .recv .copy₂ _ msg | .recv .advance _ msg =>
    ∃ rest, sh.pending = msg.take sh.rawQueue.msgSize :: rest
  | _ => True

end Call

/-- What the call `i` relies on. -/
structure CallInv (n : Nat) (sh : MqShared) (i : Nat) (c : Call) : Prop where
  sent : ∀ x, (i, x) ∈ sh.accepted ↔ ∃ m, c.sent = some m ∧ x = m.take sh.rawQueue.msgSize
  received : ∀ x, (i, x) ∈ sh.popped ↔ ∃ m, c.received = some m ∧ x = m.take sh.rawQueue.msgSize
  ownsW : c.holdsW → sh.wMutex = some (.call i)
  ownsR : c.holdsR → sh.rMutex = some (.call i)
  room : ∀ m, c.buffer = some m → sh.rawQueue.msgSize ≤ m.length
  progress : c.Progress n sh

/-- What a step of `p` from `sh` to `sh'` guarantees to every other party. -/
structure Guar (p : Party) (sh sh' : MqShared) : Prop where
  msgSize : sh'.rawQueue.msgSize = sh.rawQueue.msgSize
  wMutex : ∀ p', p' ≠ p → sh.wMutex = some p' → sh'.wMutex = some p'
  rMutex : ∀ p', p' ≠ p → sh.rMutex = some p' → sh'.rMutex = some p'
  accepted : ∀ j, .call j ≠ p → ∀ x, (j, x) ∈ sh'.accepted ↔ (j, x) ∈ sh.accepted
  popped : ∀ j, .call j ≠ p → ∀ x, (j, x) ∈ sh'.popped ↔ (j, x) ∈ sh.popped
  producer : ∀ p', p' ≠ p → sh.wMutex = some p' →
    sh'.rawQueue.writeSlot = sh.rawQueue.writeSlot ∧ sh'.pending.length ≤ sh.pending.length
  consumer : ∀ p', p' ≠ p → sh.rMutex = some p' → sh.pending <+: sh'.pending

variable {n : Nat} {sh sh' : MqShared} {i : Nat} {c : Call} {p : Party}

theorem CallInv.stable (h : CallInv n sh i c) (hg : Guar p sh sh') (hp : .call i ≠ p) :
    CallInv n sh' i c := by
  refine ⟨fun x => ?_, fun x => ?_, fun hw => hg.wMutex _ hp (h.ownsW hw),
    fun hr => hg.rMutex _ hp (h.ownsR hr), fun m hm => ?_, ?_⟩
  · rw [hg.accepted i hp, hg.msgSize, h.sent]
  · rw [hg.popped i hp, hg.msgSize, h.received]
  · rw [hg.msgSize]
    exact h.room m hm
  · have hw := fun hw => hg.producer _ hp (h.ownsW hw)
    have hr := fun hr => hg.consumer _ hp (h.ownsR hr)
    have hprog := h.progress
    cases c with
    | idle => trivial
    | send pc msg =>
      cases pc with
      | copy₁ => exact Nat.lt_of_le_of_lt (Nat.succ_le_succ (hw rfl).2) hprog
      | copy₂ | advance =>
        refine ⟨Nat.lt_of_le_of_lt (Nat.succ_le_succ (hw rfl).2) hprog.1, ?_⟩
        rw [(hw rfl).1, hg.msgSize]
        exact hprog.2
      | _ => trivial
    | recv pc timeoutMs msg =>
      cases pc with
      | copy₁ =>
        obtain ⟨rest, hrest⟩ := hr rfl
        show sh'.pending ≠ []
        rw [← hrest]
        exact List.append_ne_nil_of_left_ne_nil hprog rest
      | copy₂ | advance =>
        obtain ⟨rest, hrest⟩ := hr rfl
        obtain ⟨xs, hxs⟩ := hprog
        refine ⟨xs ++ rest, ?_⟩
        rw [← hrest, hxs, hg.msgSize]
        rfl
      | _ => trivial

/-! ## Steps that leave the queue and the logs alone -/

theorem MqShared.Inv.of_eq (h : sh.Inv n) (hq : sh'.rawQueue = sh.rawQueue)
    (ha : sh'.accepted = sh.accepted) (hp : sh'.popped = sh.popped) : sh'.Inv n := by
  have hpend : sh'.pending = sh.pending := by rw [pending, pending, ha, hp]
  obtain ⟨r, hr⟩ := h.holds
  exact ⟨⟨r, by rw [hq, hpend]; exact hr⟩, by rw [ha, hp, hpend]; exact h.log,
    by rw [ha]; exact h.acceptedOnce, by rw [hp]; exact h.poppedOnce⟩

theorem Guar.of_eq (hq : sh'.rawQueue = sh.rawQueue) (ha : sh'.accepted = sh.accepted)
    (hp : sh'.popped = sh.popped)
    (hw : ∀ p', p' ≠ p → sh.wMutex = some p' → sh'.wMutex = some p')
    (hr : ∀ p', p' ≠ p → sh.rMutex = some p' → sh'.rMutex = some p') : Guar p sh sh' := by
  have hpend : sh'.pending = sh.pending := by rw [MqShared.pending, MqShared.pending, ha, hp]
  exact ⟨by rw [hq], hw, hr, fun j _ x => by rw [ha], fun j _ x => by rw [hp],
    fun p' _ _ => ⟨by rw [hq], by rw [hpend]⟩, fun p' _ _ => hpend ▸ List.prefix_rfl⟩

theorem not_held_by_other {m : Option Party} {p p' : Party} (h : m = some p) (hne : p' ≠ p)
    (h' : m = some p') : False :=
  hne (Option.some.inj (h'.symm.trans h))

theorem taken_or_left {m m' : Option Party} (h : m' = m ∨ m = none ∨ m = some p) :
    ∀ p', p' ≠ p → m = some p' → m' = some p' := by
  intro p' hne hm
  rcases h with h | h | h
  · rw [h, hm]
  · rw [h] at hm
    cases hm
  · exact (not_held_by_other h hne hm).elim

theorem Guar.refl (p : Party) (sh : MqShared) : Guar p sh sh :=
  .of_eq rfl rfl rfl (fun _ _ h => h) fun _ _ h => h

theorem Guar.mutex {w r : Option Party}
    (hw : w = sh.wMutex ∨ sh.wMutex = none ∨ sh.wMutex = some p)
    (hr : r = sh.rMutex ∨ sh.rMutex = none ∨ sh.rMutex = some p) :
    Guar p sh { sh with wMutex := w, rMutex := r } :=
  .of_eq rfl rfl rfl (taken_or_left hw) (taken_or_left hr)

/-! ## The steps of a send -/

theorem MqShared.Inv.length_le (h : sh.Inv n) : sh.popped.length ≤ sh.accepted.length := by
  have hlen := congrArg List.length h.log
  rw [List.length_append, List.length_map, List.length_map] at hlen
  omega

theorem copyIn_inv (h : sh.Inv n) {x : List UInt8} (hx : x.length = sh.rawQueue.msgSize)
    (hw : sh.wMutex = some p) :
    let sh' := { sh with rawQueue :=
      { sh.rawQueue with buffer := writeBytes sh.rawQueue.buffer sh.rawQueue.write x } }
    sh'.Inv n ∧ Guar p sh sh' := by
  obtain ⟨r, hr⟩ := h.holds
  refine ⟨⟨⟨r, hr.store hx⟩, h.log, h.acceptedOnce, h.poppedOnce⟩, ?_⟩
  exact ⟨rfl, fun _ _ h' => h', fun _ _ h' => h', fun _ _ _ => Iff.rfl, fun _ _ _ => Iff.rfl,
    fun _ hne h' => (not_held_by_other hw hne h').elim, fun _ _ _ => List.prefix_rfl⟩

theorem accept_inv (h : sh.Inv n) (hlen : sh.pending.length + 1 < n) (hw : sh.wMutex = some (.call i))
    (hnew : ∀ x, (i, x) ∉ sh.accepted) {queue : LockFreeQueue}
    (hadv : sh.rawQueue.pushAdvance = some queue) :
    let sh' := { sh with
      rawQueue := queue
      accepted := sh.accepted ++ [(i, sh.rawQueue.writeSlot)] }
    sh'.Inv n ∧ Guar (.call i) sh sh' := by
  obtain ⟨r, hr⟩ := h.holds
  rw [LockFreeQueue.pushAdvance_eq hr] at hadv
  obtain rfl := Option.some.inj hadv
  have hpend : ((sh.accepted ++ [(i, sh.rawQueue.writeSlot)]).map Prod.snd).drop sh.popped.length =
      sh.pending ++ [sh.rawQueue.writeSlot] := by
    rw [List.map_append, List.drop_append_of_le_length (by rw [List.length_map]; exact h.length_le)]
    rfl
  refine ⟨⟨⟨r, ?_⟩, ?_, ?_, h.poppedOnce⟩, rfl, fun _ _ h' => h', fun _ _ h' => h', fun j hj x => ?_,
    fun _ _ _ => Iff.rfl, fun _ hne h' => (not_held_by_other hw hne h').elim, fun _ _ _ => ?_⟩
  · show LockFreeQueue.Holds _ n r (((sh.accepted ++ [_]).map Prod.snd).drop sh.popped.length)
    rw [hpend]
    exact hr.commit hlen
  · show (sh.accepted ++ [_]).map Prod.snd = _ ++ ((sh.accepted ++ [_]).map Prod.snd).drop _
    rw [hpend, List.map_append, h.log, List.append_assoc]
    rfl
  · show ((sh.accepted ++ [_]).map Prod.fst).Nodup
    rw [List.map_append]
    refine List.nodup_append_comm.1 (List.nodup_cons.2 ⟨fun hmem => ?_, h.acceptedOnce⟩)
    obtain ⟨⟨j, x⟩, hjx, hj⟩ := List.mem_map.1 hmem
    obtain rfl : j = i := hj
    exact hnew x hjx
  · have hne : j ≠ i := fun he => hj (congrArg Party.call he)
    show (j, x) ∈ sh.accepted ++ [_] ↔ _
    simp [hne]
  · show sh.pending <+: ((sh.accepted ++ [_]).map Prod.snd).drop sh.popped.length
    rw [hpend]
    exact List.prefix_append _ _

theorem sendStep_inv {pc pc' : SendPc} {msg : List UInt8} {choice : Option Nat} {woken : List Nat}
    (h : sh.Inv n) (hc : CallInv n sh i (.send pc msg))
    (hs : sendStep sh i choice msg pc = some (sh', pc', woken)) :
    sh'.Inv n ∧ CallInv n sh' i (.send pc' msg) ∧ Guar (.call i) sh sh' := by
  obtain ⟨r, hr⟩ := h.holds
  cases sendStep_cases hs with
  | lockW hfree =>
    exact ⟨h.of_eq rfl rfl rfl, ⟨hc.sent, hc.received, fun _ => rfl, nofun, hc.room, trivial⟩,
      .mutex (.inr (.inl hfree)) (.inl rfl)⟩
  | full hfull =>
    exact ⟨h, ⟨hc.sent, hc.received, fun _ => hc.ownsW rfl, nofun, hc.room, trivial⟩, .refl _ _⟩
  | room hfull =>
    rw [LockFreeQueue.isFull_eq hr] at hfull
    have hne : sh.pending.length + 1 ≠ n := of_decide_eq_false (Option.some.inj hfull)
    have hlt := hr.ring.length_lt
    refine ⟨h, ⟨hc.sent, hc.received, fun _ => hc.ownsW rfl, nofun, hc.room, ?_⟩, .refl _ _⟩
    show sh.pending.length + 1 < n
    omega
  | copy₁ hcopy =>
    have hroom := hc.room msg rfl
    have hx : (msg.take sh.rawQueue.msgSize).length = sh.rawQueue.msgSize := by
      rw [List.length_take]
      omega
    rw [LockFreeQueue.pushCopy₁_eq hr hroom] at hcopy
    cases hcopy
    obtain ⟨hinv, hg⟩ := copyIn_inv h hx (hc.ownsW rfl)
    exact ⟨hinv, ⟨hc.sent, hc.received, fun _ => hc.ownsW rfl, nofun, hc.room,
      hc.progress, LockFreeQueue.writeSlot_store hx⟩, hg⟩
  | copy₂ hcopy =>
    rw [LockFreeQueue.pushCopy₂_eq hr] at hcopy
    cases hcopy
    exact ⟨h, ⟨hc.sent, hc.received, fun _ => hc.ownsW rfl, nofun, hc.room, hc.progress⟩, .refl _ _⟩
  | @advance queue hadv =>
    obtain ⟨hlen, hslot⟩ := hc.progress
    have hnew : ∀ x, (i, x) ∉ sh.accepted := fun x hx => by
      obtain ⟨m, hm, -⟩ := (hc.sent x).1 hx
      cases hm
    have hsize : queue.msgSize = sh.rawQueue.msgSize := by
      rw [LockFreeQueue.pushAdvance_eq hr] at hadv
      rw [← Option.some.inj hadv]
    obtain ⟨hinv, hg⟩ := accept_inv h hlen (hc.ownsW rfl) hnew hadv
    rw [hslot] at hinv hg
    refine ⟨hinv, ⟨fun x => ?_, fun x => ?_, fun _ => hc.ownsW rfl, nofun, fun m hm => ?_, trivial⟩, hg⟩
    · show (i, x) ∈ sh.accepted ++ [_] ↔ ∃ m, some msg = some m ∧ x = m.take queue.msgSize
      rw [hsize]
      simp [hnew x]
    · refine (hc.received x).trans ⟨?_, ?_⟩ <;>
      · rintro ⟨m, hm, -⟩
        cases hm
    · show queue.msgSize ≤ m.length
      rw [hsize]
      exact hc.room m hm
  | unlockFail =>
    exact ⟨h.of_eq rfl rfl rfl, ⟨hc.sent, hc.received, nofun, nofun, nofun, trivial⟩,
      .mutex (.inr (.inr (hc.ownsW rfl))) (.inl rfl)⟩
  | unlockW =>
    exact ⟨h.of_eq rfl rfl rfl, ⟨hc.sent, hc.received, nofun, nofun, hc.room, trivial⟩,
      .mutex (.inr (.inr (hc.ownsW rfl))) (.inl rfl)⟩
  | lockR hfree =>
    exact ⟨h.of_eq rfl rfl rfl, ⟨hc.sent, hc.received, nofun, fun _ => rfl, hc.room, trivial⟩,
      .mutex (.inl rfl) (.inr (.inl hfree))⟩
  | nobody hcond =>
    exact ⟨h, ⟨hc.sent, hc.received, nofun, fun _ => hc.ownsR rfl, hc.room, trivial⟩, .refl _ _⟩
  | signal hj =>
    exact ⟨h.of_eq rfl rfl rfl,
      ⟨hc.sent, hc.received, nofun, fun _ => hc.ownsR rfl, hc.room, trivial⟩,
      Guar.of_eq rfl rfl rfl (fun _ _ h' => h') fun _ _ h' => h'⟩
  | unlockR =>
    exact ⟨h.of_eq rfl rfl rfl, ⟨hc.sent, hc.received, nofun, nofun, nofun, trivial⟩,
      .mutex (.inl rfl) (.inr (.inr (hc.ownsR rfl)))⟩

/-! ## The steps of a receive -/

theorem deliver_inv (h : sh.Inv n) {x : List UInt8} {rest : List (List UInt8)}
    (hpend : sh.pending = x :: rest) (hr : sh.rMutex = some (.call i))
    (hnew : ∀ x, (i, x) ∉ sh.popped) {queue : LockFreeQueue}
    (hadv : sh.rawQueue.popAdvance = some queue) :
    let sh' := { sh with
      rawQueue := queue
      popped := sh.popped ++ [(i, x)] }
    sh'.Inv n ∧ Guar (.call i) sh sh' := by
  obtain ⟨r, hq⟩ := h.holds
  rw [LockFreeQueue.popAdvance_eq hq] at hadv
  obtain rfl := Option.some.inj hadv
  have hpend' : (sh.accepted.map Prod.snd).drop (sh.popped ++ [(i, x)]).length = rest := by
    rw [List.length_append, ← List.drop_drop]
    show sh.pending.drop 1 = rest
    rw [hpend]
    rfl
  rw [hpend] at hq
  refine ⟨⟨⟨ringIdx n r 1, ?_⟩, ?_, h.acceptedOnce, ?_⟩, rfl, fun _ _ h' => h', fun _ _ h' => h',
    fun _ _ _ => Iff.rfl, fun j hj y => ?_, fun _ _ _ => ⟨rfl, ?_⟩,
    fun _ hne h' => (not_held_by_other hr hne h').elim⟩
  · show LockFreeQueue.Holds _ n _ ((sh.accepted.map Prod.snd).drop (sh.popped ++ [_]).length)
    rw [hpend']
    exact hq.release
  · show sh.accepted.map Prod.snd =
      (sh.popped ++ [_]).map Prod.snd ++ (sh.accepted.map Prod.snd).drop (sh.popped ++ [_]).length
    rw [hpend', List.map_append, List.append_assoc, h.log, hpend]
    rfl
  · show ((sh.popped ++ [_]).map Prod.fst).Nodup
    rw [List.map_append]
    refine List.nodup_append_comm.1 (List.nodup_cons.2 ⟨fun hmem => ?_, h.poppedOnce⟩)
    obtain ⟨⟨j, y⟩, hjy, hj⟩ := List.mem_map.1 hmem
    obtain rfl : j = i := hj
    exact hnew y hjy
  · have hne : j ≠ i := fun he => hj (congrArg Party.call he)
    show (j, y) ∈ sh.popped ++ [_] ↔ _
    simp [hne]
  · show ((sh.accepted.map Prod.snd).drop (sh.popped ++ [_]).length).length ≤ sh.pending.length
    rw [hpend', hpend]
    exact Nat.le_succ _

theorem recvStep_inv {pc pc' : RecvPc} {timeoutMs : Int} {msg msg' : List UInt8}
    (h : sh.Inv n) (hc : CallInv n sh i (.recv pc timeoutMs msg))
    (hs : recvStep sh i timeoutMs msg pc = some (sh', pc', msg')) :
    sh'.Inv n ∧ CallInv n sh' i (.recv pc' timeoutMs msg') ∧ Guar (.call i) sh sh' := by
  obtain ⟨r, hr⟩ := h.holds
  have hself : Guar (.call i) sh sh := .refl _ _
  have hlock (hfree : sh.rMutex = none) : Guar (.call i) sh { sh with rMutex := some (.call i) } :=
    .mutex (.inl rfl) (.inr (.inl hfree))
  cases recvStep_cases hs with
  | lockR hfree =>
    exact ⟨h.of_eq rfl rfl rfl, ⟨hc.sent, hc.received, nofun, fun _ => rfl, hc.room, trivial⟩,
      hlock hfree⟩
  | noWait hempty h0 | mustWait hempty h0 =>
    exact ⟨h, ⟨hc.sent, hc.received, nofun, fun _ => hc.ownsR rfl, hc.room, trivial⟩, hself⟩
  | found hempty =>
    rw [LockFreeQueue.isEmpty_eq hr, decide_eq_true_eq] at hempty
    exact ⟨h, ⟨hc.sent, hc.received, nofun, fun _ => hc.ownsR rfl, hc.room, hempty⟩, hself⟩
  | copy₁ hcopy =>
    obtain ⟨x, rest, hpend⟩ := List.exists_cons_of_ne_nil hc.progress
    rw [hpend] at hr
    have hroom := hc.room msg rfl
    rw [LockFreeQueue.popCopy₁_eq hr hroom] at hcopy
    cases hcopy
    have htake : (x ++ msg.drop sh.rawQueue.msgSize).take sh.rawQueue.msgSize = x :=
      List.take_left' hr.head_length
    refine ⟨h, ⟨hc.sent, hc.received, nofun, fun _ => hc.ownsR rfl, fun m hm => ?_, rest, ?_⟩, hself⟩
    · obtain rfl := Option.some.inj hm
      rw [List.length_append, hr.head_length]
      omega
    · rw [htake, hpend]
  | copy₂ hcopy =>
    rw [LockFreeQueue.popCopy₂_eq hr] at hcopy
    cases hcopy
    exact ⟨h, ⟨hc.sent, hc.received, nofun, fun _ => hc.ownsR rfl, hc.room, hc.progress⟩, hself⟩
  | @advance queue hadv =>
    obtain ⟨rest, hpend⟩ := hc.progress
    have hnew : ∀ x, (i, x) ∉ sh.popped := fun x hx => by
      obtain ⟨m, hm, -⟩ := (hc.received x).1 hx
      cases hm
    have hsize : queue.msgSize = sh.rawQueue.msgSize := by
      rw [LockFreeQueue.popAdvance_eq hr] at hadv
      rw [← Option.some.inj hadv]
    obtain ⟨hinv, hg⟩ := deliver_inv h hpend (hc.ownsR rfl) hnew hadv
    refine ⟨hinv, ⟨fun x => ?_, fun x => ?_, nofun, fun _ => hc.ownsR rfl, fun m hm => ?_, trivial⟩, hg⟩
    · refine (hc.sent x).trans ⟨?_, ?_⟩ <;>
      · rintro ⟨m, hm, -⟩
        cases hm
    · show (i, x) ∈ sh.popped ++ [_] ↔ ∃ m, some msg = some m ∧ x = m.take queue.msgSize
      rw [hsize]
      simp [hnew x]
    · show queue.msgSize ≤ m.length
      rw [hsize]
      exact hc.room m hm
  | wait =>
    exact ⟨h.of_eq rfl rfl rfl, ⟨hc.sent, hc.received, nofun, nofun, hc.room, trivial⟩,
      .of_eq rfl rfl rfl (fun _ _ h' => h') (taken_or_left (.inr (.inr (hc.ownsR rfl))))⟩
  | late hfree | woken hfree hret =>
    exact ⟨h.of_eq rfl rfl rfl, ⟨hc.sent, hc.received, nofun, fun _ => rfl, hc.room, trivial⟩,
      hlock hfree⟩
  | exit hexit | again hexit =>
    exact ⟨h, ⟨hc.sent, hc.received, nofun, fun _ => hc.ownsR rfl, hc.room, trivial⟩, hself⟩
  | unlockR ret =>
    exact ⟨h.of_eq rfl rfl rfl, ⟨hc.sent, hc.received, nofun, nofun, nofun, trivial⟩,
      .mutex (.inl rfl) (.inr (.inr (hc.ownsR rfl)))⟩

/-! ## Runs -/

namespace Mq

structure Inv (n : Nat) (s : Mq) : Prop where
  shared : s.sh.Inv n
  calls : ∀ i, CallInv n s.sh i (s.calls i)
  destroyR : s.destroy = .deinit ∨ s.destroy = .unlockR → s.sh.rMutex = some .destroy

end Mq

/-- A call behind its parameter check, with the buffer it was given. -/
inductive Call.Fresh : Option (List UInt8) → Call → Prop
  | send (msg : List UInt8) : Fresh (some msg) (.send .lockW msg)
  | sendInval (o : Option (List UInt8)) : Fresh o (.send (.returned OSAL_API_INVAL) (o.getD []))
  | recv (timeoutMs : Int) (msg : List UInt8) : Fresh (some msg) (.recv .lockR timeoutMs msg)
  | recvInval (o : Option (List UInt8)) (timeoutMs : Int) :
    Fresh o (.recv (.returned OSAL_API_INVAL) timeoutMs (o.getD []))

theorem Call.fresh_send (msg : Option (List UInt8)) (msgSize : Int) :
    (osalPosixMqSend msg msgSize).Fresh msg := by
  unfold osalPosixMqSend
  cases msg with
  | none => exact .sendInval none
  | some msg =>
    simp only
    split_ifs
    · exact .sendInval (some msg)
    · exact .send msg

theorem Call.fresh_recv (msg : Option (List UInt8)) (msgSize timeoutMs : Int) :
    (osalPosixMqRecv msg msgSize timeoutMs).Fresh msg := by
  unfold osalPosixMqRecv
  cases msg with
  | none => exact .recvInval none timeoutMs
  | some msg =>
    simp only
    split_ifs
    · exact .recvInval (some msg) timeoutMs
    · exact .recv timeoutMs msg

theorem CallInv.fresh {msg : Option (List UInt8)} (h : CallInv n sh i .idle) (hf : c.Fresh msg)
    (hroom : ∀ m ∈ msg, sh.rawQueue.msgSize ≤ m.length) : CallInv n sh i c := by
  cases hf with
  | send msg => exact ⟨h.sent, h.received, nofun, nofun, hroom, trivial⟩
  | recv timeoutMs msg => exact ⟨h.sent, h.received, nofun, nofun, hroom, trivial⟩
  | sendInval o => exact ⟨h.sent, h.received, nofun, nofun, nofun, trivial⟩
  | recvInval o timeoutMs => exact ⟨h.sent, h.received, nofun, nofun, nofun, trivial⟩

theorem callStep_inv {c' : Call} {choice : Option Nat} {woken : List Nat}
    (h : sh.Inv n) (hc : CallInv n sh i c) (hs : c.step sh i choice = some (sh', c', woken)) :
    sh'.Inv n ∧ CallInv n sh' i c' ∧ Guar (.call i) sh sh' := by
  unfold Call.step at hs
  cases c with
  | idle => cases hs
  | send pc msg =>
    obtain ⟨⟨sh₁, pc', woken'⟩, hstep, hs⟩ := Option.bind_eq_some_iff.1 hs
    cases hs
    exact sendStep_inv h hc hstep
  | recv pc timeoutMs msg =>
    obtain ⟨⟨sh₁, pc', msg'⟩, hstep, hs⟩ := Option.bind_eq_some_iff.1 hs
    cases hs
    exact recvStep_inv h hc hstep

theorem CallInv.wake (h : CallInv n sh i c) (ret : Int) : CallInv n sh i (c.wake ret) := by
  unfold Call.wake
  split
  · exact ⟨h.sent, h.received, nofun, nofun, h.room, trivial⟩
  · exact h

theorem CallInv.wakeAll {s : Mq} (h : ∀ i, CallInv n sh i (s.calls i)) (woken : List Nat) (i : Nat) :
    CallInv n sh i (Mq.wakeAll woken s.calls i) := by
  unfold Mq.wakeAll
  split_ifs
  · exact (h i).wake 0
  · exact h i

theorem Mq.Inv.callStep {s : Mq} (h : s.Inv n) {sh' : MqShared} {c : Call} (woken : List Nat)
    (hsh : sh'.Inv n) (hc : CallInv n sh' i c) (hg : Guar (.call i) s.sh sh') :
    Mq.Inv n { s with
      sh := sh'
      calls := Function.update (Mq.wakeAll woken s.calls) i c } := by
  refine ⟨hsh, fun j => ?_, fun hd => hg.rMutex _ nofun (h.destroyR hd)⟩
  show CallInv n sh' j (Function.update (Mq.wakeAll woken s.calls) i c j)
  rw [Function.update_apply]
  split_ifs with hj
  · subst hj
    exact hc
  · exact (CallInv.wakeAll h.calls woken j).stable hg fun he => hj (Party.call.inj he)

namespace Mq

theorem start_spec {s s' : Mq} {msg : Option (List UInt8)} (hs : s.start i msg c = some s') :
    s.calls i = .idle ∧ s.destroy = .idle ∧ (∀ m ∈ msg, s.sh.rawQueue.msgSize ≤ m.length) ∧
      s' = { s with calls := Function.update s.calls i c } := by
  unfold Mq.start at hs
  split_ifs at hs with hok
  exact ⟨hok.1, hok.2.1, hok.2.2, (Option.some.inj hs).symm⟩

theorem wakeUp_spec {s s' : Mq} {ret : Int} (hs : s.wakeUp i ret = some s') :
    ∃ timeoutMs msg, s.calls i = .recv .blocked timeoutMs msg ∧
      s' = { s with
        sh := { s.sh with cond := s.sh.cond.erase i }
        calls := Function.update s.calls i (.recv (.relock ret) timeoutMs msg) } := by
  unfold Mq.wakeUp at hs
  split at hs
  · next timeoutMs msg hi =>
    split_ifs at hs
    exact ⟨timeoutMs, msg, hi, (Option.some.inj hs).symm⟩
  · cases hs

theorem Inv.start {s s' : Mq} (h : s.Inv n) {msg : Option (List UInt8)} (hf : c.Fresh msg)
    (hs : s.start i msg c = some s') : s'.Inv n := by
  obtain ⟨hidle, -, hroom, rfl⟩ := start_spec hs
  have hi := h.calls i
  rw [hidle] at hi
  refine ⟨h.shared, fun j => ?_, h.destroyR⟩
  show CallInv n s.sh j (Function.update s.calls i c j)
  rw [Function.update_apply]
  split_ifs with hj
  · subst hj
    exact hi.fresh hf hroom
  · exact h.calls j

theorem Inv.wakeUp {s s' : Mq} (h : s.Inv n) {ret : Int} (hs : s.wakeUp i ret = some s') :
    s'.Inv n := by
  obtain ⟨timeoutMs, msg, hi, rfl⟩ := wakeUp_spec hs
  have hg : ∀ p, Guar p s.sh { s.sh with cond := s.sh.cond.erase i } := fun p =>
    Guar.of_eq rfl rfl rfl (fun _ _ h' => h') fun _ _ h' => h'
  refine ⟨h.shared.of_eq rfl rfl rfl, fun j => ?_, h.destroyR⟩
  have hj := (h.calls j).stable (hg .destroy) nofun
  show CallInv n _ j (Function.update s.calls i _ j)
  rw [Function.update_apply]
  split_ifs with he
  · subst he
    rw [hi] at hj
    exact hj.wake ret
  · exact hj

theorem Inv.destroyStep {s : Mq} (h : s.Inv n) {sh' : MqShared} {destroy : DestroyPc}
    {woken : List Nat} (hs : Osal.destroyStep s.sh s.destroy = some (sh', destroy, woken)) :
    Mq.Inv n { sh := sh', calls := wakeAll woken s.calls, destroy := destroy } := by
  have key : ∀ sh' : MqShared, sh'.rawQueue = s.sh.rawQueue → sh'.accepted = s.sh.accepted →
      sh'.popped = s.sh.popped → sh'.wMutex = s.sh.wMutex →
      (∀ p', p' ≠ .destroy → s.sh.rMutex = some p' → sh'.rMutex = some p') →
      sh'.Inv n ∧ ∀ j, CallInv n sh' j (wakeAll woken s.calls j) := by
    intro sh' hq ha hp hw hr
    refine ⟨h.shared.of_eq hq ha hp, fun j => ?_⟩
    refine (CallInv.wakeAll h.calls woken j).stable (p := .destroy) ?_ nofun
    exact Guar.of_eq hq ha hp (fun _ _ h' => hw.trans h') hr
  generalize hd : s.destroy = d at hs
  cases destroyStep_cases hs with
  | setExit =>
    obtain ⟨hsh, hcalls⟩ := key { s.sh with exitFlag := true } rfl rfl rfl rfl fun _ _ h' => h'
    exact ⟨hsh, hcalls, nofun⟩
  | broadcast =>
    obtain ⟨hsh, hcalls⟩ := key { s.sh with cond := [] } rfl rfl rfl rfl fun _ _ h' => h'
    exact ⟨hsh, hcalls, nofun⟩
  | lockR hfree =>
    obtain ⟨hsh, hcalls⟩ := key { s.sh with rMutex := some .destroy } rfl rfl rfl rfl fun _ _ h' => by
      rw [hfree] at h'
      cases h'
    exact ⟨hsh, hcalls, fun _ => rfl⟩
  | deinit =>
    obtain ⟨hsh, hcalls⟩ := key s.sh rfl rfl rfl rfl fun _ _ h' => h'
    exact ⟨hsh, hcalls, fun _ => h.destroyR (.inl hd)⟩
  | unlockR =>
    obtain ⟨hsh, hcalls⟩ := key { s.sh with rMutex := none } rfl rfl rfl rfl fun _ hne h' =>
      (not_held_by_other (h.destroyR (.inr hd)) hne h').elim
    exact ⟨hsh, hcalls, nofun⟩
  | destroyW | destroyR | destroyCond hcond | free =>
    obtain ⟨hsh, hcalls⟩ := key s.sh rfl rfl rfl rfl fun _ _ h' => h'
    exact ⟨hsh, hcalls, nofun⟩

theorem Inv.step {s s' : Mq} {l : Label} (h : s.Inv n) (hs : s.step l = some s') : s'.Inv n := by
  unfold Mq.step at hs
  cases l with
  | send i msg msgSize => exact h.start (Call.fresh_send msg msgSize) hs
  | recv i msg msgSize timeoutMs => exact h.start (Call.fresh_recv msg msgSize timeoutMs) hs
  | call i choice =>
    obtain ⟨⟨sh', c', woken⟩, hc, hs⟩ := Option.bind_eq_some_iff.1 hs
    cases hs
    obtain ⟨hsh, hcall, hg⟩ := callStep_inv h.shared (h.calls i) hc
    exact h.callStep woken hsh hcall hg
  | wake i ret => exact h.wakeUp hs
  | callDestroy =>
    simp only at hs
    split_ifs at hs
    cases hs
    exact ⟨h.shared, h.calls, nofun⟩
  | destroy =>
    obtain ⟨⟨sh', destroy, woken⟩, hd, hs⟩ := Option.bind_eq_some_iff.1 hs
    cases hs
    exact h.destroyStep hd

theorem init_inv {msgSize msgMax : Nat} {q : LockFreeQueue} (hsmall : msgSize * msgMax < 2 ^ 32)
    (hq : osalLockFreeQueueInit msgSize msgMax true = some q) : (init q).Inv msgMax := by
  have hholds := (osalLockFreeQueueInit_holds hsmall hq).2
  refine ⟨⟨⟨0, hholds⟩, rfl, List.nodup_nil, List.nodup_nil⟩, fun i => ?_, nofun⟩
  refine ⟨fun x => ?_, fun x => ?_, nofun, nofun, nofun, trivial⟩ <;>
  · constructor
    · intro h
      cases h
    · rintro ⟨m, hm, -⟩
      cases hm

theorem Reachable.inv {msgSize msgMax : Nat} {q : LockFreeQueue} (hsmall : msgSize * msgMax < 2 ^ 32)
    (hq : osalLockFreeQueueInit msgSize msgMax true = some q) {s : Mq} (h : Reachable q s) :
    s.Inv msgMax := by
  induction h with
  | init => exact init_inv hsmall hq
  | step _ hs ih => exact ih.step hs

end Mq

end FwkMlib.Osal
