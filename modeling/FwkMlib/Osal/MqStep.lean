import FwkMlib.Osal.PosixMq

/-!
# What a step of a call may do

* `SendStep`, `sendStep_cases` : each way a step of a send goes, with what it found;
* `RecvStep`, `recvStep_cases` : the same for a receive;
* `DestroyStep`, `destroyStep_cases` : the same for the destroying call.
-/

namespace FwkMlib.Osal

variable {sh sh' : MqShared} {i : Nat} {msg msg' : List UInt8}

/-- A step of a send: what it does to the shared mq, where it leads and whom it wakes. -/
inductive SendStep (sh : MqShared) (i : Nat) (msg : List UInt8) :
    SendPc → MqShared → SendPc → List Nat → Prop
  | lockW (hfree : sh.wMutex = none) :
    SendStep sh i msg .lockW { sh with wMutex := some (.call i) } .testFull []
  | full (hfull : sh.rawQueue.isFull = some true) :
    SendStep sh i msg .testFull sh .unlockFail []
  | room (hfull : sh.rawQueue.isFull = some false) : SendStep sh i msg .testFull sh .copy₁ []
  | copy₁ {queue : LockFreeQueue} (hcopy : sh.rawQueue.pushCopy₁ msg = some queue) :
    SendStep sh i msg .copy₁ { sh with rawQueue := queue } .copy₂ []
  | copy₂ {queue : LockFreeQueue} (hcopy : sh.rawQueue.pushCopy₂ msg = some queue) :
    SendStep sh i msg .copy₂ { sh with rawQueue := queue } .advance []
  | advance {queue : LockFreeQueue} (hadv : sh.rawQueue.pushAdvance = some queue) :
    SendStep sh i msg .advance { sh with
      rawQueue := queue
      accepted := sh.accepted ++ [(i, msg.take sh.rawQueue.msgSize)] } .unlockW []
  | unlockFail :
    SendStep sh i msg .unlockFail { sh with wMutex := none } (.returned OSAL_API_FAIL) []
  | unlockW : SendStep sh i msg .unlockW { sh with wMutex := none } .lockR []
  | lockR (hfree : sh.rMutex = none) :
    SendStep sh i msg .lockR { sh with rMutex := some (.call i) } .signal []
  | nobody (hcond : sh.cond = []) : SendStep sh i msg .signal sh .unlockR []
  | signal {j : Nat} (hj : j ∈ sh.cond) :
    SendStep sh i msg .signal { sh with cond := sh.cond.erase j } .unlockR [j]
  | unlockR : SendStep sh i msg .unlockR { sh with rMutex := none } (.returned OSAL_API_OK) []

theorem sendStep_cases {pc pc' : SendPc} {choice : Option Nat} {woken : List Nat}
    (h : sendStep sh i choice msg pc = some (sh', pc', woken)) :
    SendStep sh i msg pc sh' pc' woken := by
  unfold sendStep at h
  cases pc with
  | lockW =>
    dsimp only at h
    split_ifs at h with hfree
    cases h
    exact .lockW hfree
  | testFull =>
    obtain ⟨full, hfull, h⟩ := Option.bind_eq_some_iff.1 h
    cases h
    cases full with
    | true => exact .full hfull
    | false => exact .room hfull
  | copy₁ =>
    obtain ⟨queue, hcopy, h⟩ := Option.bind_eq_some_iff.1 h
    cases h
    exact .copy₁ hcopy
  | copy₂ =>
    obtain ⟨queue, hcopy, h⟩ := Option.bind_eq_some_iff.1 h
    cases h
    exact .copy₂ hcopy
  | advance =>
    obtain ⟨queue, hadv, h⟩ := Option.bind_eq_some_iff.1 h
    cases h
    exact .advance hadv
  | unlockFail =>
    cases h
    exact .unlockFail
  | unlockW =>
    cases h
    exact .unlockW
  | lockR =>
    dsimp only at h
    split_ifs at h with hfree
    cases h
    exact .lockR hfree
  | signal =>
    cases choice with
    | none =>
      dsimp only at h
      split_ifs at h with hcond
      cases h
      exact .nobody hcond
    | some j =>
      dsimp only at h
      split_ifs at h with hj
      cases h
      exact .signal hj
  | unlockR =>
    cases h
    exact .unlockR
  | returned ret => cases h

/-- A step of a receive: what it does to the shared mq, where it leads and the caller's buffer. -/
inductive RecvStep (sh : MqShared) (i : Nat) (timeoutMs : Int) (msg : List UInt8) :
    RecvPc → MqShared → RecvPc → List UInt8 → Prop
  | lockR (hfree : sh.rMutex = none) :
    RecvStep sh i timeoutMs msg .lockR { sh with rMutex := some (.call i) } .testEmpty msg
  | noWait (hempty : sh.rawQueue.isEmpty = true) (h0 : timeoutMs = 0) :
    RecvStep sh i timeoutMs msg .testEmpty sh (.unlockR OSAL_API_TIMEDOUT) msg
  | mustWait (hempty : sh.rawQueue.isEmpty = true) (h0 : timeoutMs ≠ 0) :
    RecvStep sh i timeoutMs msg .testEmpty sh .wait msg
  | found (hempty : ¬ sh.rawQueue.isEmpty = true) :
    RecvStep sh i timeoutMs msg .testEmpty sh .copy₁ msg
  | copy₁ {msg' : List UInt8} (hcopy : sh.rawQueue.popCopy₁ msg = some msg') :
    RecvStep sh i timeoutMs msg .copy₁ sh .copy₂ msg'
  | copy₂ {msg' : List UInt8} (hcopy : sh.rawQueue.popCopy₂ msg = some msg') :
    RecvStep sh i timeoutMs msg .copy₂ sh .advance msg'
  | advance {queue : LockFreeQueue} (hadv : sh.rawQueue.popAdvance = some queue) :
    RecvStep sh i timeoutMs msg .advance { sh with
      rawQueue := queue
      popped := sh.popped ++ [(i, msg.take sh.rawQueue.msgSize)] } (.unlockR OSAL_API_OK) msg
  | wait : RecvStep sh i timeoutMs msg .wait
      { sh with rMutex := none, cond := sh.cond ++ [i] } .blocked msg
  | late (hfree : sh.rMutex = none) : RecvStep sh i timeoutMs msg (.relock ETIMEDOUT)
      { sh with rMutex := some (.call i) } (.unlockR OSAL_API_TIMEDOUT) msg
  | woken {ret : Int} (hfree : sh.rMutex = none) (hret : ret ≠ ETIMEDOUT) :
    RecvStep sh i timeoutMs msg (.relock ret) { sh with rMutex := some (.call i) } .checkExit msg
  | exit (hexit : sh.exitFlag = true) :
    RecvStep sh i timeoutMs msg .checkExit sh (.unlockR OSAL_API_FAIL) msg
  | again (hexit : sh.exitFlag = false) :
    RecvStep sh i timeoutMs msg .checkExit sh .testEmpty msg
  | unlockR (ret : Int) : RecvStep sh i timeoutMs msg (.unlockR ret) { sh with rMutex := none }
      (.returned ret) msg

theorem recvStep_cases {pc pc' : RecvPc} {timeoutMs : Int}
    (h : recvStep sh i timeoutMs msg pc = some (sh', pc', msg')) :
    RecvStep sh i timeoutMs msg pc sh' pc' msg' := by
  unfold recvStep at h
  cases pc with
  | lockR =>
    dsimp only at h
    split_ifs at h with hfree
    cases h
    exact .lockR hfree
  | testEmpty =>
    dsimp only at h
    split_ifs at h with hempty h0
    · cases h
      exact .noWait hempty h0
    · cases h
      exact .mustWait hempty h0
    · cases h
      exact .found hempty
  | copy₁ =>
    obtain ⟨m, hcopy, h⟩ := Option.bind_eq_some_iff.1 h
    cases h
    exact .copy₁ hcopy
  | copy₂ =>
    obtain ⟨m, hcopy, h⟩ := Option.bind_eq_some_iff.1 h
    cases h
    exact .copy₂ hcopy
  | advance =>
    obtain ⟨queue, hadv, h⟩ := Option.bind_eq_some_iff.1 h
    cases h
    exact .advance hadv
  | wait =>
    cases h
    exact .wait
  | blocked => cases h
  | relock ret =>
    dsimp only at h
    split_ifs at h with hfree hret
    · cases h
      rw [hret]
      exact .late hfree
    · cases h
      exact .woken hfree hret
  | checkExit =>
    dsimp only at h
    split_ifs at h with hexit
    · cases h
      exact .exit hexit
    · cases h
      exact .again (Bool.eq_false_iff.2 hexit)
  | unlockR ret =>
    cases h
    exact .unlockR ret
  | returned ret => cases h

/-- A step of the destroying call: what it does to the shared mq, where it leads and whom it wakes. -/
inductive DestroyStep (sh : MqShared) : DestroyPc → MqShared → DestroyPc → List Nat → Prop
  | setExit : DestroyStep sh .setExit { sh with exitFlag := true } .broadcast []
  | broadcast : DestroyStep sh .broadcast { sh with cond := [] } .lockR sh.cond
  | lockR (hfree : sh.rMutex = none) :
    DestroyStep sh .lockR { sh with rMutex := some .destroy } .deinit []
  | deinit : DestroyStep sh .deinit sh .unlockR []
  | unlockR : DestroyStep sh .unlockR { sh with rMutex := none } .destroyW []
  | destroyW : DestroyStep sh .destroyW sh .destroyR []
  | destroyR : DestroyStep sh .destroyR sh .destroyCond []
  | destroyCond (hcond : sh.cond = []) : DestroyStep sh .destroyCond sh .free []
  | free : DestroyStep sh .free sh .returned []

theorem destroyStep_cases {pc pc' : DestroyPc} {woken : List Nat}
    (h : destroyStep sh pc = some (sh', pc', woken)) : DestroyStep sh pc sh' pc' woken := by
  unfold destroyStep at h
  cases pc with
  | idle | returned => cases h
  | setExit =>
    cases h
    exact .setExit
  | broadcast =>
    cases h
    exact .broadcast
  | lockR =>
    dsimp only at h
    split_ifs at h with hfree
    cases h
    exact .lockR hfree
  | deinit =>
    cases h
    exact .deinit
  | unlockR =>
    cases h
    exact .unlockR
  | destroyW =>
    cases h
    exact .destroyW
  | destroyR =>
    cases h
    exact .destroyR
  | destroyCond =>
    dsimp only at h
    split_ifs at h with hcond
    cases h
    exact .destroyCond hcond
  | free =>
    cases h
    exact .free

end FwkMlib.Osal
