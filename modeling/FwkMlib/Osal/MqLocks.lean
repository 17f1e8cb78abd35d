import FwkMlib.Osal.MqInv

/-!
# Who holds the mutexes

What the mutexes alone give, on a queue of any sizes and whatever its buffer holds.

* `Call.Owns` : a call that is past its lock and before its unlock holds the mutex;
* `Respects` : a step of one party leaves the mutexes of the others alone, and the offset each of
  them protects;
* `Mq.Reachable.locked` : in every state that any interleaving reaches.
-/

namespace FwkMlib.Osal

structure Call.Owns (sh : MqShared) (i : Nat) (c : Call) : Prop where
  wMutex : c.holdsW → sh.wMutex = some (.call i)
  rMutex : c.holdsR → sh.rMutex = some (.call i)

/-- What a step of `p` leaves to the other parties. -/
structure Respects (p : Party) (sh sh' : MqShared) : Prop where
  msgSize : sh'.rawQueue.msgSize = sh.rawQueue.msgSize
  totalSize : sh'.rawQueue.totalSize = sh.rawQueue.totalSize
  wMutex : ∀ p', p' ≠ p → sh.wMutex = some p' → sh'.wMutex = some p'
  rMutex : ∀ p', p' ≠ p → sh.rMutex = some p' → sh'.rMutex = some p'
  write : ∀ p', p' ≠ p → sh.wMutex = some p' → sh'.rawQueue.write = sh.rawQueue.write
  read : ∀ p', p' ≠ p → sh.rMutex = some p' → sh'.rawQueue.read = sh.rawQueue.read

variable {sh sh' : MqShared} {i : Nat} {c : Call} {p : Party}

theorem Respects.of_eq (hq : sh'.rawQueue = sh.rawQueue)
    (hw : sh'.wMutex = sh.wMutex ∨ sh.wMutex = none ∨ sh.wMutex = some p)
    (hr : sh'.rMutex = sh.rMutex ∨ sh.rMutex = none ∨ sh.rMutex = some p) : Respects p sh sh' := by
  refine ⟨?_, ?_, taken_or_left hw, taken_or_left hr, fun _ _ _ => ?_, fun _ _ _ => ?_⟩ <;> rw [hq]

theorem Respects.buffer (p : Party) (sh : MqShared) (buf : Lib.Mem) :
    Respects p sh { sh with rawQueue := { sh.rawQueue with buffer := buf } } :=
  ⟨rfl, rfl, fun _ _ h => h, fun _ _ h => h, fun _ _ _ => rfl, fun _ _ _ => rfl⟩

theorem Call.Owns.stable (h : c.Owns sh i) (hg : Respects p sh sh') (hp : .call i ≠ p) :
    c.Owns sh' i :=
  ⟨fun hw => hg.wMutex _ hp (h.wMutex hw), fun hr => hg.rMutex _ hp (h.rMutex hr)⟩

theorem LockFreeQueue.copyIn_buffer {q q' : LockFreeQueue} {pos n : Nat} {msg : List UInt8}
    (h : q.copyIn pos msg n = some q') : ∃ buf, q' = { q with buffer := buf } := by
  unfold LockFreeQueue.copyIn at h
  split_ifs at h
  exact ⟨_, (Option.some.inj h).symm⟩

theorem LockFreeQueue.pushCopy₁_buffer {q q' : LockFreeQueue} {msg : List UInt8}
    (h : q.pushCopy₁ msg = some q') : ∃ buf, q' = { q with buffer := buf } :=
  copyIn_buffer h

theorem LockFreeQueue.pushCopy₂_buffer {q q' : LockFreeQueue} {msg : List UInt8}
    (h : q.pushCopy₂ msg = some q') : ∃ buf, q' = { q with buffer := buf } := by
  unfold LockFreeQueue.pushCopy₂ at h
  simp only at h
  split_ifs at h
  · exact copyIn_buffer h
  · exact ⟨q.buffer, (Option.some.inj h).symm⟩

/-! ## The steps of a call -/

theorem sendStep_respects {pc pc' : SendPc} {msg : List UInt8} {choice : Option Nat}
    {woken : List Nat} (h : (Call.send pc msg).Owns sh i)
    (hs : sendStep sh i choice msg pc = some (sh', pc', woken)) :
    (Call.send pc' msg).Owns sh' i ∧ Respects (.call i) sh sh' := by
  cases sendStep_cases hs with
  | lockW hfree => exact ⟨⟨fun _ => rfl, nofun⟩, .of_eq rfl (.inr (.inl hfree)) (.inl rfl)⟩
  | full hfull | room hfull =>
    exact ⟨⟨fun _ => h.wMutex rfl, nofun⟩, .of_eq rfl (.inl rfl) (.inl rfl)⟩
  | copy₁ hcopy =>
    obtain ⟨buf, rfl⟩ := LockFreeQueue.pushCopy₁_buffer hcopy
    exact ⟨⟨fun _ => h.wMutex rfl, nofun⟩, .buffer _ _ buf⟩
  | copy₂ hcopy =>
    obtain ⟨buf, rfl⟩ := LockFreeQueue.pushCopy₂_buffer hcopy
    exact ⟨⟨fun _ => h.wMutex rfl, nofun⟩, .buffer _ _ buf⟩
  | advance hadv =>
    obtain ⟨write, -, hq⟩ := Option.bind_eq_some_iff.1 hadv
    cases hq
    -- only the holder of `w_mutex` stores the write index
    exact ⟨⟨fun _ => h.wMutex rfl, nofun⟩, rfl, rfl, fun _ _ h' => h', fun _ _ h' => h',
      fun _ hne h' => (not_held_by_other (h.wMutex rfl) hne h').elim, fun _ _ _ => rfl⟩
  | unlockFail | unlockW =>
    exact ⟨⟨nofun, nofun⟩, .of_eq rfl (.inr (.inr (h.wMutex rfl))) (.inl rfl)⟩
  | lockR hfree => exact ⟨⟨nofun, fun _ => rfl⟩, .of_eq rfl (.inl rfl) (.inr (.inl hfree))⟩
  | nobody hcond => exact ⟨⟨nofun, fun _ => h.rMutex rfl⟩, .of_eq rfl (.inl rfl) (.inl rfl)⟩
  | signal hj => exact ⟨⟨nofun, fun _ => h.rMutex rfl⟩, .of_eq rfl (.inl rfl) (.inl rfl)⟩
  | unlockR => exact ⟨⟨nofun, nofun⟩, .of_eq rfl (.inl rfl) (.inr (.inr (h.rMutex rfl)))⟩

theorem recvStep_respects {pc pc' : RecvPc} {timeoutMs : Int} {msg msg' : List UInt8}
    (h : (Call.recv pc timeoutMs msg).Owns sh i)
    (hs : recvStep sh i timeoutMs msg pc = some (sh', pc', msg')) :
    (Call.recv pc' timeoutMs msg').Owns sh' i ∧ Respects (.call i) sh sh' := by
  cases recvStep_cases hs with
  | lockR hfree => exact ⟨⟨nofun, fun _ => rfl⟩, .of_eq rfl (.inl rfl) (.inr (.inl hfree))⟩
  | late hfree | woken hfree hret =>
    exact ⟨⟨nofun, fun _ => rfl⟩, .of_eq rfl (.inl rfl) (.inr (.inl hfree))⟩
  | noWait hempty h0 | mustWait hempty h0 | found hempty =>
    exact ⟨⟨nofun, fun _ => h.rMutex rfl⟩, .of_eq rfl (.inl rfl) (.inl rfl)⟩
  | copy₁ hcopy | copy₂ hcopy =>
    exact ⟨⟨nofun, fun _ => h.rMutex rfl⟩, .of_eq rfl (.inl rfl) (.inl rfl)⟩
  | advance hadv =>
    obtain ⟨read, -, hq⟩ := Option.bind_eq_some_iff.1 hadv
    cases hq
    -- only the holder of `r_mutex` stores the read index
    exact ⟨⟨nofun, fun _ => h.rMutex rfl⟩, rfl, rfl, fun _ _ h' => h', fun _ _ h' => h',
      fun _ _ _ => rfl, fun _ hne h' => (not_held_by_other (h.rMutex rfl) hne h').elim⟩
  | wait => exact ⟨⟨nofun, nofun⟩, .of_eq rfl (.inl rfl) (.inr (.inr (h.rMutex rfl)))⟩
  | exit hexit | again hexit =>
    exact ⟨⟨nofun, fun _ => h.rMutex rfl⟩, .of_eq rfl (.inl rfl) (.inl rfl)⟩
  | unlockR ret => exact ⟨⟨nofun, nofun⟩, .of_eq rfl (.inl rfl) (.inr (.inr (h.rMutex rfl)))⟩

theorem callStep_respects {c' : Call} {choice : Option Nat} {woken : List Nat} (h : c.Owns sh i)
    (hs : c.step sh i choice = some (sh', c', woken)) :
    c'.Owns sh' i ∧ Respects (.call i) sh sh' := by
  unfold Call.step at hs
  cases c with
  | idle => cases hs
  | send pc msg =>
    obtain ⟨⟨sh₁, pc', woken'⟩, hstep, hs⟩ := Option.bind_eq_some_iff.1 hs
    cases hs
    exact sendStep_respects h hstep
  | recv pc timeoutMs msg =>
    obtain ⟨⟨sh₁, pc', msg'⟩, hstep, hs⟩ := Option.bind_eq_some_iff.1 hs
    cases hs
    exact recvStep_respects h hstep

theorem Call.Owns.wake (h : c.Owns sh i) (ret : Int) : (c.wake ret).Owns sh i := by
  unfold Call.wake
  split
  · exact ⟨nofun, nofun⟩
  · exact h

theorem Call.Owns.fresh {msg : Option (List UInt8)} (hf : c.Fresh msg) : c.Owns sh i := by
  cases hf <;> exact ⟨nofun, nofun⟩

/-! ## Runs -/

namespace Mq

structure Locked (s : Mq) : Prop where
  calls : ∀ i, (s.calls i).Owns s.sh i
  destroyR : s.destroy = .deinit ∨ s.destroy = .unlockR → s.sh.rMutex = some .destroy

theorem Locked.wakeAll {s : Mq} (h : s.Locked) (woken : List Nat) (i : Nat) :
    (wakeAll woken s.calls i).Owns s.sh i := by
  unfold Mq.wakeAll
  split_ifs
  · exact (h.calls i).wake 0
  · exact h.calls i

/-- The calls after the call `i` has become `c`, over what the others keep. -/
theorem owns_update {calls : Nat → Call} (hi : c.Owns sh' i)
    (ho : ∀ j ≠ i, (calls j).Owns sh' j) (j : Nat) : (Function.update calls i c j).Owns sh' j := by
  rw [Function.update_apply]
  split_ifs with hj
  · subst hj
    exact hi
  · exact ho j hj

theorem Locked.start {s s' : Mq} (h : s.Locked) {msg : Option (List UInt8)} (hf : c.Fresh msg)
    (hs : s.start i msg c = some s') : s'.Locked := by
  obtain ⟨-, -, -, rfl⟩ := start_spec hs
  exact ⟨owns_update (.fresh hf) fun j _ => h.calls j, h.destroyR⟩

theorem Locked.callStep {s s' : Mq} (h : s.Locked) {choice : Option Nat}
    (hs : s.step (.call i choice) = some s') : s'.Locked ∧ Respects (.call i) s.sh s'.sh := by
  obtain ⟨⟨sh', c', woken⟩, hc, hs⟩ := Option.bind_eq_some_iff.1 hs
  cases hs
  obtain ⟨hown, hg⟩ := callStep_respects (h.calls i) hc
  refine ⟨⟨owns_update hown fun j hj => ?_, fun hd => hg.rMutex _ nofun (h.destroyR hd)⟩, hg⟩
  exact (h.wakeAll woken j).stable hg fun he => hj (Party.call.inj he)

theorem Locked.wakeUp {s s' : Mq} (h : s.Locked) {ret : Int} (hs : s.wakeUp i ret = some s') :
    s'.Locked ∧ ∀ p, Respects p s.sh s'.sh := by
  obtain ⟨timeoutMs, msg, -, rfl⟩ := wakeUp_spec hs
  have hg (p : Party) : Respects p s.sh { s.sh with cond := s.sh.cond.erase i } :=
    .of_eq rfl (.inl rfl) (.inl rfl)
  exact ⟨⟨owns_update ⟨nofun, nofun⟩ fun j _ => (h.calls j).stable (hg .destroy) nofun,
    h.destroyR⟩, hg⟩

theorem Locked.destroyStep {s s' : Mq} (h : s.Locked) (hs : s.step .destroy = some s') :
    s'.Locked ∧ Respects .destroy s.sh s'.sh := by
  obtain ⟨⟨sh', d', woken⟩, hd, hs⟩ := Option.bind_eq_some_iff.1 hs
  cases hs
  have key : Respects .destroy s.sh sh' ∧
      (d' = .deinit ∨ d' = .unlockR → sh'.rMutex = some .destroy) := by
    generalize hpc : s.destroy = d at hd
    cases destroyStep_cases hd with
    | lockR hfree => exact ⟨.of_eq rfl (.inl rfl) (.inr (.inl hfree)), fun _ => rfl⟩
    | unlockR => exact ⟨.of_eq rfl (.inl rfl) (.inr (.inr (h.destroyR (.inr hpc)))), nofun⟩
    | deinit => exact ⟨.of_eq rfl (.inl rfl) (.inl rfl), fun _ => h.destroyR (.inl hpc)⟩
    | setExit | broadcast | destroyW | destroyR | destroyCond hcond | free =>
      exact ⟨.of_eq rfl (.inl rfl) (.inl rfl), nofun⟩
  exact ⟨⟨fun i => (h.wakeAll woken i).stable key.1 nofun, key.2⟩, key.1⟩

theorem Locked.step {s s' : Mq} {l : Label} (h : s.Locked) (hs : s.step l = some s') :
    s'.Locked := by
  cases l with
  | send i msg msgSize => exact h.start (Call.fresh_send msg msgSize) hs
  | recv i msg msgSize timeoutMs => exact h.start (Call.fresh_recv msg msgSize timeoutMs) hs
  | call i choice => exact (h.callStep hs).1
  | wake i ret => exact (h.wakeUp hs).1
  | callDestroy =>
    unfold Mq.step at hs
    simp only at hs
    split_ifs at hs
    cases hs
    exact ⟨h.calls, nofun⟩
  | destroy => exact (h.destroyStep hs).1

theorem Reachable.locked {q : LockFreeQueue} {s : Mq} (h : Reachable q s) : s.Locked := by
  induction h with
  | init => exact ⟨fun _ => ⟨nofun, nofun⟩, nofun⟩
  | step _ hs ih => exact ih.step hs

end Mq

end FwkMlib.Osal
