import FwkMlib.Osal.MqInv
import FwkMlib.Lib.Trace

/-!
# The message queue is linearizable

* `MqEvent` : what the callers of an mq see, the calls with their arguments and the returns with
  their results; `Mq.Shown` : the steps of the interleaved code, with what they show;
* `Channel`, `Channel.Step` : the abstract mq, a bounded fifo on which every call takes effect in one
  step between the call and its return;
* `Mq.linearizable` : whatever the callers see of an interleaving, they may see of the channel.

The runs are those until `osal_posix_mq_destroy` frees its first part.
-/

namespace FwkMlib.Osal
open FwkMlib.Lib

inductive MqEvent where
  | send (i : Nat) (msg : Option (List UInt8)) (msgSize : Int)
  | recv (i : Nat) (msg : Option (List UInt8)) (msgSize timeoutMs : Int)
  | sent (i : Nat) (ret : Int)
  | received (i : Nat) (ret : Int) (msg : List UInt8)
  | destroy

def Call.returns (i : Nat) : Call → List MqEvent
  | .send (.returned ret) _ => [.sent i ret]
  | .recv (.returned ret) _ msg => [.received i ret msg]
  | _ => []

def Label.shows (s : Mq) : Label → List MqEvent
  | .send i msg msgSize => .send i msg msgSize :: (s.calls i).returns i
  | .recv i msg msgSize timeoutMs => .recv i msg msgSize timeoutMs :: (s.calls i).returns i
  | .call i _ => (s.calls i).returns i
  | .callDestroy => [.destroy]
  | .wake _ _ | .destroy => []

/-- A step before the destruction frees anything. -/
inductive Mq.Shown (s : Mq) : List MqEvent → Mq → Prop
  | step {s' : Mq} {l : Label} (hs : s.step l = some s') (hgone : s'.destroy.gone = []) :
    Shown s (l.shows s') s'

theorem Mq.Shown.of_step {s s' : Mq} {l : Label} {ls : List MqEvent} (hs : s.step l = some s')
    (hgone : s'.destroy.gone = []) (hls : l.shows s' = ls) : s.Shown ls s' :=
  hls ▸ .step hs hgone

/-! ## The channel -/

/-- A call on the channel: not made yet, made, about to return, or over. -/
inductive Task where
  | idle
  | sending (msg : List UInt8)
  | receiving (timeoutMs : Int) (msg : List UInt8)
  | done (answer : MqEvent)
  | over

structure Channel where
  queue : List (List UInt8)
  destroyed : Bool
  tasks : Nat → Task

def Channel.init : Channel := ⟨[], false, fun _ => .idle⟩

def Channel.set (a : Channel) (i : Nat) (t : Task) : Channel :=
  { a with tasks := Function.update a.tasks i t }

@[simp] theorem Channel.set_self (a : Channel) (i : Nat) (t : Task) : (a.set i t).tasks i = t := by
  show Function.update a.tasks i t i = t
  rw [Function.update_self]

theorem Channel.set_ne (a : Channel) {i j : Nat} (t : Task) (hj : j ≠ i) :
    (a.set i t).tasks j = a.tasks j := by
  show Function.update a.tasks i t j = a.tasks j
  rw [Function.update_of_ne hj]

/-- The steps of a channel for `cap` messages of `size` bytes. -/
inductive Channel.Step (size cap : Nat) (a : Channel) : List MqEvent → Channel → Prop
  | send {i : Nat} {msg : List UInt8} {msgSize : Int} (hidle : a.tasks i = .idle)
    (hpos : 0 < msgSize) : Step size cap a [.send i (some msg) msgSize] (a.set i (.sending msg))
  | sendInval {i : Nat} {msg : Option (List UInt8)} {msgSize : Int} (hidle : a.tasks i = .idle)
    (hbad : msg = none ∨ msgSize ≤ 0) :
    Step size cap a [.send i msg msgSize, .sent i OSAL_API_INVAL] (a.set i .over)
  | recv {i : Nat} {msg : List UInt8} {msgSize timeoutMs : Int} (hidle : a.tasks i = .idle)
    (hpos : 0 < msgSize) :
    Step size cap a [.recv i (some msg) msgSize timeoutMs] (a.set i (.receiving timeoutMs msg))
  | recvInval {i : Nat} {msg : Option (List UInt8)} {msgSize timeoutMs : Int}
    (hidle : a.tasks i = .idle) (hbad : msg = none ∨ msgSize ≤ 0) :
    Step size cap a [.recv i msg msgSize timeoutMs, .received i OSAL_API_INVAL (msg.getD [])]
      (a.set i .over)
  | accept {i : Nat} {msg : List UInt8} (ht : a.tasks i = .sending msg)
    (hroom : a.queue.length < cap) : Step size cap a []
      { a.set i (.done (.sent i OSAL_API_OK)) with queue := a.queue ++ [msg.take size] }
  | full {i : Nat} {msg : List UInt8} (ht : a.tasks i = .sending msg)
    (hfull : a.queue.length = cap) : Step size cap a [] (a.set i (.done (.sent i OSAL_API_FAIL)))
  | deliver {i : Nat} {timeoutMs : Int} {msg x : List UInt8} {rest : List (List UInt8)}
    (ht : a.tasks i = .receiving timeoutMs msg) (hq : a.queue = x :: rest) : Step size cap a []
      { a.set i (.done (.received i OSAL_API_OK (x ++ msg.drop size))) with queue := rest }
  | empty {i : Nat} {msg : List UInt8} (ht : a.tasks i = .receiving 0 msg) (hq : a.queue = []) :
    Step size cap a [] (a.set i (.done (.received i OSAL_API_TIMEDOUT msg)))
  | late {i : Nat} {timeoutMs : Int} {msg : List UInt8} (ht : a.tasks i = .receiving timeoutMs msg)
    (h0 : timeoutMs ≠ 0) (hforever : timeoutMs ≠ OSAL_WAITFOREVER) :
    Step size cap a [] (a.set i (.done (.received i OSAL_API_TIMEDOUT msg)))
  | exit {i : Nat} {timeoutMs : Int} {msg : List UInt8} (ht : a.tasks i = .receiving timeoutMs msg)
    (h0 : timeoutMs ≠ 0) (hd : a.destroyed = true) :
    Step size cap a [] (a.set i (.done (.received i OSAL_API_FAIL msg)))
  | answer {i : Nat} {e : MqEvent} (ht : a.tasks i = .done e) : Step size cap a [e] (a.set i .over)
  | destroy : Step size cap a [.destroy] { a with destroyed := true }

/-! ## What a call is doing -/

/-- The task that a call of the code carries out. The buffer of a receive changes before the message
is taken out of the queue. -/
def Call.Does (size i : Nat) : Call → Task → Prop
  | .idle, t => t = .idle
  | .send .lockW msg, t | .send .testFull msg, t | .send .copy₁ msg, t | .send .copy₂ msg, t
  | .send .advance msg, t => t = .sending msg
  | .send .unlockFail _, t => t = .done (.sent i OSAL_API_FAIL)
  | .send .unlockW _, t | .send .lockR _, t | .send .signal _, t | .send .unlockR _, t =>
    t = .done (.sent i OSAL_API_OK)
  | .recv .lockR timeoutMs msg, t | .recv .testEmpty timeoutMs msg, t
  | .recv .copy₁ timeoutMs msg, t => t = .receiving timeoutMs msg
  | .recv .copy₂ timeoutMs msg, t | .recv .advance timeoutMs msg, t =>
    ∃ msg₀, t = .receiving timeoutMs msg₀ ∧ msg₀.drop size = msg.drop size
  | .recv .wait timeoutMs msg, t | .recv .blocked timeoutMs msg, t
  | .recv .checkExit timeoutMs msg, t => timeoutMs ≠ 0 ∧ t = .receiving timeoutMs msg
  | .recv (.relock ret) timeoutMs msg, t =>
    timeoutMs ≠ 0 ∧ (ret = ETIMEDOUT → timeoutMs ≠ OSAL_WAITFOREVER) ∧ t = .receiving timeoutMs msg
  | .recv (.unlockR ret) _ msg, t => t = .done (.received i ret msg)
  | .send (.returned _) _, t | .recv (.returned _) _ _, t => t = .over

/-- The channel goes on to the queue `queue` and to a task of the call `c`, and shows its return. -/
def Channel.Moves (size cap : Nat) (a : Channel) (i : Nat) (c : Call) (queue : List (List UInt8)) :
    Prop :=
  ∃ a', Steps (Channel.Step size cap) a (c.returns i) a' ∧ a'.queue = queue ∧
    a'.destroyed = a.destroyed ∧ (∀ j, j ≠ i → a'.tasks j = a.tasks j) ∧ c.Does size i (a'.tasks i)

variable {size cap n : Nat} {a : Channel} {i : Nat} {c : Call} {sh sh' : MqShared}
  {queue : List (List UInt8)}

theorem Channel.Moves.stay (hq : a.queue = queue) (hret : c.returns i = [])
    (hdoes : c.Does size i (a.tasks i)) : a.Moves size cap i c queue :=
  ⟨a, hret ▸ .refl, hq, rfl, fun _ _ => rfl, hdoes⟩

theorem Channel.Moves.effect {t : Task}
    (hs : Channel.Step size cap a [] { a.set i t with queue := queue }) (hret : c.returns i = [])
    (hdoes : c.Does size i t) : a.Moves size cap i c queue := by
  refine ⟨{ a.set i t with queue := queue }, ?_, rfl, rfl, fun _ hj => a.set_ne t hj, ?_⟩
  · rw [hret]
    exact .single hs
  · show c.Does size i ((a.set i t).tasks i)
    rwa [Channel.set_self]

theorem Channel.Moves.answer {e : MqEvent} (ht : a.tasks i = .done e) (hq : a.queue = queue)
    (hret : c.returns i = [e]) (hdoes : c.Does size i .over) : a.Moves size cap i c queue := by
  refine ⟨a.set i .over, ?_, hq, rfl, fun _ hj => a.set_ne .over hj, ?_⟩
  · rw [hret]
    exact .single (.answer ht)
  · rwa [Channel.set_self]

/-! ## The steps of the code -/

theorem MqShared.pending_accept (h : sh.Inv n) (x : Nat × List UInt8) (q : LockFreeQueue) :
    MqShared.pending { sh with rawQueue := q, accepted := sh.accepted ++ [x] } =
      sh.pending ++ [x.2] := by
  show ((sh.accepted ++ [x]).map Prod.snd).drop sh.popped.length = _
  rw [List.map_append, List.drop_append_of_le_length (by rw [List.length_map]; exact h.length_le)]
  rfl

theorem MqShared.pending_deliver {x : List UInt8} {rest : List (List UInt8)}
    (hpend : sh.pending = x :: rest) (y : Nat × List UInt8) (q : LockFreeQueue) :
    MqShared.pending { sh with rawQueue := q, popped := sh.popped ++ [y] } = rest := by
  show (sh.accepted.map Prod.snd).drop (sh.popped ++ [y]).length = rest
  rw [List.length_append, ← List.drop_drop]
  show sh.pending.drop 1 = rest
  rw [hpend]
  rfl

/-- A send takes effect where it stores the write index, or where it finds the queue full. -/
theorem sendStep_moves {pc pc' : SendPc} {msg : List UInt8} {choice : Option Nat}
    {woken : List Nat} (h : sh.Inv n) (hc : CallInv n sh i (.send pc msg))
    (hs : sendStep sh i choice msg pc = some (sh', pc', woken)) (hq : a.queue = sh.pending)
    (hd : Call.Does sh.rawQueue.msgSize i (.send pc msg) (a.tasks i)) :
    a.Moves sh.rawQueue.msgSize (n - 1) i (.send pc' msg) sh'.pending := by
  obtain ⟨r, hr⟩ := h.holds
  cases sendStep_cases hs with
  | lockW | room | copy₁ | copy₂ | unlockW | lockR | nobody | signal => exact .stay hq rfl hd
  | full hfull =>
    rw [LockFreeQueue.isFull_eq hr] at hfull
    have hlen := of_decide_eq_true (Option.some.inj hfull)
    have hcap : a.queue.length = n - 1 := by
      rw [hq]
      omega
    refine Channel.Moves.effect (t := .done (.sent i OSAL_API_FAIL)) ?_ rfl rfl
    rw [← hq]
    exact .full hd hcap
  | advance hadv =>
    have hlen := hc.progress.1
    have hcap : a.queue.length < n - 1 := by
      rw [hq]
      omega
    refine Channel.Moves.effect (t := .done (.sent i OSAL_API_OK)) ?_ rfl rfl
    rw [MqShared.pending_accept h, ← hq]
    exact .accept hd hcap
  | unlockFail | unlockR => exact .answer hd hq rfl rfl

/-- A receive takes effect where it stores the read index, where it finds the queue empty and may not
wait, or where it holds `r_mutex` again too late or during the destruction. -/
theorem recvStep_moves {pc pc' : RecvPc} {timeoutMs : Int} {msg msg' : List UInt8}
    (h : sh.Inv n) (hc : CallInv n sh i (.recv pc timeoutMs msg))
    (hs : recvStep sh i timeoutMs msg pc = some (sh', pc', msg')) (hq : a.queue = sh.pending)
    (hexit : sh.exitFlag = true → a.destroyed = true)
    (hd : Call.Does sh.rawQueue.msgSize i (.recv pc timeoutMs msg) (a.tasks i)) :
    a.Moves sh.rawQueue.msgSize (n - 1) i (.recv pc' timeoutMs msg') sh'.pending := by
  obtain ⟨r, hr⟩ := h.holds
  cases recvStep_cases hs with
  | lockR | found => exact .stay hq rfl hd
  | noWait hempty h0 =>
    rw [LockFreeQueue.isEmpty_eq hr, decide_eq_true_eq] at hempty
    refine Channel.Moves.effect (t := .done (.received i OSAL_API_TIMEDOUT msg)) ?_ rfl rfl
    rw [← hq]
    subst h0
    exact .empty hd (hq.trans hempty)
  | mustWait _ h0 => exact .stay hq rfl ⟨h0, hd⟩
  | copy₁ hcopy =>
    obtain ⟨x, rest, hpend⟩ := List.exists_cons_of_ne_nil hc.progress
    rw [hpend] at hr
    rw [LockFreeQueue.popCopy₁_eq hr (hc.room msg rfl)] at hcopy
    cases hcopy
    refine .stay hq rfl ⟨msg, hd, ?_⟩
    rw [List.drop_left' hr.head_length]
  | copy₂ hcopy =>
    rw [LockFreeQueue.popCopy₂_eq hr] at hcopy
    cases hcopy
    exact .stay hq rfl hd
  | advance hadv =>
    obtain ⟨rest, hpend⟩ := hc.progress
    obtain ⟨msg₀, ht, hdrop⟩ := hd
    refine Channel.Moves.effect (t := .done (.received i OSAL_API_OK msg)) ?_ rfl rfl
    rw [MqShared.pending_deliver hpend]
    have hstep : Channel.Step sh.rawQueue.msgSize (n - 1) a [] _ := .deliver ht (hq.trans hpend)
    rwa [hdrop, List.take_append_drop] at hstep
  | wait => exact .stay hq rfl hd
  | late hfree =>
    refine Channel.Moves.effect (t := .done (.received i OSAL_API_TIMEDOUT msg)) ?_ rfl rfl
    show Channel.Step _ _ a [] { a.set i _ with queue := sh.pending }
    rw [← hq]
    exact .late hd.2.2 hd.1 (hd.2.1 rfl)
  | woken hfree hret => exact .stay hq rfl ⟨hd.1, hd.2.2⟩
  | exit hflag =>
    refine Channel.Moves.effect (t := .done (.received i OSAL_API_FAIL msg)) ?_ rfl rfl
    rw [← hq]
    exact .exit hd.2 hd.1 (hexit hflag)
  | again => exact .stay hq rfl hd.2
  | unlockR ret => exact .answer hd hq rfl rfl

/-! ## The simulation -/

/-- The channel holds what the queue holds, and each of its tasks is what a call is doing. -/
structure Mq.Refines (size n : Nat) (s : Mq) (a : Channel) : Prop where
  inv : s.Inv n
  msgSize : s.sh.rawQueue.msgSize = size
  queue : a.queue = s.sh.pending
  exit : s.sh.exitFlag = true → a.destroyed = true
  destroyed : s.destroy ≠ .idle → a.destroyed = true
  tasks : ∀ i, (s.calls i).Does size i (a.tasks i)

theorem Call.Does.wake {t : Task} (h : c.Does size i t) : (c.wake 0).Does size i t := by
  unfold Call.wake
  split
  · exact ⟨h.1, fun h0 => absurd h0 (by decide), h.2⟩
  · exact h

theorem Call.Does.wakeAll {calls : Nat → Call} {woken : List Nat} {j : Nat} {t : Task}
    (h : (calls j).Does size j t) : (Mq.wakeAll woken calls j).Does size j t := by
  unfold Mq.wakeAll
  split_ifs
  · exact h.wake
  · exact h

namespace Mq.Refines

variable {s s' : Mq}

theorem start {msg : Option (List UInt8)} (h : s.Refines size n a) (hf : c.Fresh msg)
    (hs : s.start i msg c = some s') {t : Task} (hdoes : c.Does size i t) :
    s'.calls i = c ∧ s'.Refines size n (a.set i t) := by
  have hinv := h.inv.start hf hs
  obtain ⟨-, -, -, rfl⟩ := start_spec hs
  have hi : Function.update s.calls i c i = c := Function.update_self i c s.calls
  refine ⟨hi, hinv, h.msgSize, h.queue, h.exit, h.destroyed, fun j => ?_⟩
  show (Function.update s.calls i c j).Does size j _
  by_cases hj : j = i
  · subst hj
    rwa [Function.update_self, Channel.set_self]
  · rw [Function.update_of_ne hj, Channel.set_ne _ _ hj]
    exact h.tasks j

theorem idle {msg : Option (List UInt8)} (h : s.Refines size n a) (hs : s.start i msg c = some s') :
    a.tasks i = .idle := by
  have hi := h.tasks i
  rw [(start_spec hs).1] at hi
  exact hi

theorem send {msg : Option (List UInt8)} {msgSize : Int} (h : s.Refines size n a)
    (hs : s.step (.send i msg msgSize) = some s') :
    ∃ a', Steps (Channel.Step size cap) a ((Label.send i msg msgSize).shows s') a' ∧
      s'.Refines size n a' := by
  have hfresh := Call.fresh_send msg msgSize
  have hidle := h.idle hs
  have hs : s.start i msg (osalPosixMqSend msg msgSize) = some s' := hs
  unfold osalPosixMqSend at hs hfresh
  show ∃ a', Steps _ a (.send i msg msgSize :: (s'.calls i).returns i) a' ∧ _
  cases msg with
  | none =>
    obtain ⟨hi, href⟩ := h.start (t := .over) hfresh hs rfl
    rw [hi]
    exact ⟨_, .single (.sendInval hidle (.inl rfl)), href⟩
  | some msg =>
    dsimp only at hs hfresh
    split_ifs at hs hfresh with hpos
    · obtain ⟨hi, href⟩ := h.start (t := .over) hfresh hs rfl
      rw [hi]
      exact ⟨_, .single (.sendInval hidle (.inr hpos)), href⟩
    · obtain ⟨hi, href⟩ := h.start (t := .sending msg) hfresh hs rfl
      rw [hi]
      exact ⟨_, .single (.send hidle (by omega)), href⟩

theorem recv {msg : Option (List UInt8)} {msgSize timeoutMs : Int} (h : s.Refines size n a)
    (hs : s.step (.recv i msg msgSize timeoutMs) = some s') :
    ∃ a', Steps (Channel.Step size cap) a ((Label.recv i msg msgSize timeoutMs).shows s') a' ∧
      s'.Refines size n a' := by
  have hfresh := Call.fresh_recv msg msgSize timeoutMs
  have hidle := h.idle hs
  have hs : s.start i msg (osalPosixMqRecv msg msgSize timeoutMs) = some s' := hs
  unfold osalPosixMqRecv at hs hfresh
  show ∃ a', Steps _ a (.recv i msg msgSize timeoutMs :: (s'.calls i).returns i) a' ∧ _
  cases msg with
  | none =>
    obtain ⟨hi, href⟩ := h.start (t := .over) hfresh hs rfl
    rw [hi]
    exact ⟨_, .single (.recvInval hidle (.inl rfl)), href⟩
  | some msg =>
    dsimp only at hs hfresh
    split_ifs at hs hfresh with hpos
    · obtain ⟨hi, href⟩ := h.start (t := .over) hfresh hs rfl
      rw [hi]
      exact ⟨_, .single (.recvInval hidle (.inr hpos)), href⟩
    · obtain ⟨hi, href⟩ := h.start (t := .receiving timeoutMs msg) hfresh hs rfl
      rw [hi]
      exact ⟨_, .single (.recv hidle (by omega)), href⟩

theorem call {choice : Option Nat} (h : s.Refines size n a)
    (hs : s.step (.call i choice) = some s') :
    ∃ a', Steps (Channel.Step size (n - 1)) a ((Label.call i choice).shows s') a' ∧
      s'.Refines size n a' := by
  have hinv := h.inv.step hs
  obtain ⟨⟨sh', c', woken⟩, hc, hs⟩ := Option.bind_eq_some_iff.1 hs
  cases hs
  have hg := (callStep_inv h.inv.shared (h.inv.calls i) hc).2.2
  have hsize := h.msgSize
  have hmoves : a.Moves size (n - 1) i c' sh'.pending ∧ sh'.exitFlag = s.sh.exitFlag := by
    have hci := h.inv.calls i
    have hdi := h.tasks i
    unfold Call.step at hc
    subst hsize
    cases hcall : s.calls i with
    | idle =>
      rw [hcall] at hc
      cases hc
    | send pc msg =>
      rw [hcall] at hc hci hdi
      obtain ⟨⟨sh₁, pc', woken'⟩, hstep, hc⟩ := Option.bind_eq_some_iff.1 hc
      cases hc
      refine ⟨sendStep_moves h.inv.shared hci hstep h.queue hdi, ?_⟩
      cases sendStep_cases hstep <;> rfl
    | recv pc timeoutMs msg =>
      rw [hcall] at hc hci hdi
      obtain ⟨⟨sh₁, pc', msg'⟩, hstep, hc⟩ := Option.bind_eq_some_iff.1 hc
      cases hc
      refine ⟨recvStep_moves h.inv.shared hci hstep h.queue h.exit hdi, ?_⟩
      cases recvStep_cases hstep <;> rfl
  obtain ⟨⟨a', hsteps, hqueue, hd, hother, hdoes⟩, hexit⟩ := hmoves
  refine ⟨a', ?_, hinv, hg.msgSize.trans hsize, hqueue, fun he => ?_, fun hne => ?_, fun j => ?_⟩
  · show Steps _ a ((Function.update (wakeAll woken s.calls) i c' i).returns i) a'
    rwa [Function.update_self]
  · rw [hd]
    exact h.exit (hexit.symm.trans he)
  · rw [hd]
    exact h.destroyed hne
  · show (Function.update (wakeAll woken s.calls) i c' j).Does size j _
    by_cases hj : j = i
    · subst hj
      rwa [Function.update_self]
    · rw [Function.update_of_ne hj, hother j hj]
      exact (h.tasks j).wakeAll

theorem wakeUp {ret : Int} (h : s.Refines size n a) (hs : s.step (.wake i ret) = some s') :
    s'.Refines size n a := by
  have hinv := h.inv.step hs
  have hs : s.wakeUp i ret = some s' := hs
  have hret : ∀ timeoutMs msg, s.calls i = .recv .blocked timeoutMs msg →
      ret = ETIMEDOUT → timeoutMs ≠ OSAL_WAITFOREVER := by
    intro timeoutMs msg hi hret
    unfold Mq.wakeUp at hs
    rw [hi] at hs
    dsimp only at hs
    split_ifs at hs with hok
    rcases hok with h0 | ⟨-, hforever⟩
    · rw [hret] at h0
      exact absurd h0 (by decide)
    · exact hforever
  obtain ⟨timeoutMs, msg, hi, rfl⟩ := wakeUp_spec hs
  refine ⟨hinv, h.msgSize, h.queue, h.exit, h.destroyed, fun j => ?_⟩
  show (Function.update s.calls i _ j).Does size j _
  by_cases hj : j = i
  · subst hj
    have hdo := h.tasks j
    rw [hi] at hdo
    rw [Function.update_self]
    exact ⟨hdo.1, hret timeoutMs msg hi, hdo.2⟩
  · rw [Function.update_of_ne hj]
    exact h.tasks j

/-- A step of the destruction, which sets the exit flag or wakes receivers. -/
theorem destroyStep (h : s.Refines size n a) (hs : s.step .destroy = some s') :
    s'.Refines size n a := by
  have hinv := h.inv.step hs
  obtain ⟨⟨sh', destroy, woken⟩, hd, hs⟩ := Option.bind_eq_some_iff.1 hs
  cases hs
  have hkeep : sh'.rawQueue = s.sh.rawQueue ∧ sh'.accepted = s.sh.accepted ∧
      sh'.popped = s.sh.popped ∧ s.destroy ≠ .idle := by
    generalize s.destroy = d at hd
    cases destroyStep_cases hd <;> exact ⟨rfl, rfl, rfl, nofun⟩
  obtain ⟨hq, ha, hp, hne⟩ := hkeep
  refine ⟨hinv, ?_, ?_, fun _ => h.destroyed hne, fun _ => h.destroyed hne, fun j => (h.tasks j).wakeAll⟩
  · rw [← h.msgSize, ← hq]
  · rw [h.queue, MqShared.pending, MqShared.pending, ha, hp]

theorem step {l : Label} (h : s.Refines size n a) (hs : s.step l = some s') :
    ∃ a', Steps (Channel.Step size (n - 1)) a (l.shows s') a' ∧ s'.Refines size n a' := by
  cases l with
  | send i msg msgSize => exact h.send hs
  | recv i msg msgSize timeoutMs => exact h.recv hs
  | call i choice => exact h.call hs
  | wake i ret => exact ⟨a, .refl, h.wakeUp hs⟩
  | destroy => exact ⟨a, .refl, h.destroyStep hs⟩
  | callDestroy =>
    have hinv := h.inv.step hs
    unfold Mq.step at hs
    simp only at hs
    split_ifs at hs
    cases hs
    exact ⟨_, .single .destroy, hinv, h.msgSize, h.queue, fun _ => rfl, fun _ => rfl, h.tasks⟩

end Mq.Refines

/-- **Linearizability**: whatever the callers of a new mq see, in any interleaving of their calls and
until its destruction frees anything, they may see of a channel for `msgMax - 1` messages, on which
each call takes effect at one moment between its call and its return. -/
theorem Mq.linearizable {msgSize msgMax : Nat} {q : LockFreeQueue}
    (hsmall : msgSize * msgMax < 2 ^ 32)
    (hq : osalLockFreeQueueInit msgSize msgMax true = some q) {s : Mq} {tr : List MqEvent}
    (hr : Steps Mq.Shown (Mq.init q) tr s) :
    ∃ a, Steps (Channel.Step msgSize (msgMax - 1)) Channel.init tr a ∧ a.queue = s.sh.pending := by
  have hsim : Simulation Mq.Shown (Channel.Step msgSize (msgMax - 1))
      (Mq.Refines msgSize msgMax) := by
    intro s a ls s' href hs
    obtain ⟨hs, -⟩ := hs
    exact href.step hs
  have hsize : q.msgSize = msgSize := (osalLockFreeQueueInit_holds hsmall hq).1
  have hinit : (Mq.init q).Refines msgSize msgMax Channel.init :=
    ⟨Mq.init_inv hsmall hq, hsize, rfl, nofun, nofun, fun _ => rfl⟩
  obtain ⟨a, hrun, href⟩ := hsim.steps hinit hr
  exact ⟨a, hrun, href.queue⟩

/-- A send is refused, a receive finds nothing. -/
theorem Mq.linearizable_empty : ∃ q a, osalLockFreeQueueInit 1 2 true = some q ∧
    Steps (Channel.Step 1 1) Channel.init [.send 0 none 1, .sent 0 OSAL_API_INVAL,
      .recv 1 (some [7]) 1 0, .received 1 OSAL_API_TIMEDOUT [7]] a ∧ a.queue = [] := by
  obtain ⟨q, hq⟩ : ∃ q, osalLockFreeQueueInit 1 2 true = some q := ⟨_, rfl⟩
  obtain ⟨s₁, s₂, s₃, s₄, s₅, h₁, h₂, h₃, h₄, h₅, hpend⟩ : ∃ s₁ s₂ s₃ s₄ s₅,
      (Mq.init q).Shown [.send 0 none 1, .sent 0 OSAL_API_INVAL] s₁ ∧
      s₁.Shown [.recv 1 (some [7]) 1 0] s₂ ∧ s₂.Shown [] s₃ ∧ s₃.Shown [] s₄ ∧
      s₄.Shown [.received 1 OSAL_API_TIMEDOUT [7]] s₅ ∧ s₅.sh.pending = [] := by
    cases hq
    exact ⟨_, _, _, _, _, .of_step (l := .send 0 none 1) rfl rfl rfl,
      .of_step (l := .recv 1 (some [7]) 1 0) rfl rfl rfl, .of_step (l := .call 1 none) rfl rfl rfl,
      .of_step (l := .call 1 none) rfl rfl rfl, .of_step (l := .call 1 none) rfl rfl rfl, rfl⟩
  obtain ⟨a, ha, hqueue⟩ := Mq.linearizable (by decide) hq
    (((((Steps.refl.tail h₁).tail h₂).tail h₃).tail h₄).tail h₅)
  exact ⟨q, a, hq, ha, hqueue.trans hpend⟩

end FwkMlib.Osal
