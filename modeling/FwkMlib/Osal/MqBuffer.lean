import FwkMlib.Osal.MqTwin
import Mathlib.Data.List.Induction

/-!
# The caller's buffer

A send and a receive are given a `msg_size`, but copy as many bytes as the queue's messages have.

* `Traced` : a run with the `msg_size` and the buffer each call was given, and whether it has found
  room or a message;
* `WritesBelow`, `ReadsBelow` : what a receive writes and a send reads of its buffer, in a run;
* `Traced.within` : nothing at or beyond a `msg_size` that is at least the queue's, and nothing as
  long as the call finds no room or no message; a call that has found some stays within no smaller
  `msg_size`.
-/

namespace FwkMlib.Osal
open FwkMlib.Lib

/-- The same label with the bytes `m` in the buffer the call `i` is made with. -/
def Label.lend (i : Nat) (m : List UInt8) : Label → Label
  | .send j msg msgSize => .send j (if j = i then msg.map fun _ => m else msg) msgSize
  | .recv j msg msgSize timeoutMs =>
    .recv j (if j = i then msg.map fun _ => m else msg) msgSize timeoutMs
  | l => l

def Call.withMsg (msg : List UInt8) : Call → Call
  | .idle => .idle
  | .send pc _ => .send pc msg
  | .recv pc timeoutMs _ => .recv pc timeoutMs msg

/-- The mq without its logs and without the buffer of the call `i`. -/
def Mq.hide (i : Nat) (s : Mq) : Mq where
  sh := { s.sh with accepted := [], popped := [] }
  calls := Function.update s.calls i ((s.calls i).withMsg [])
  destroy := s.destroy

/-- In the run `ls`, whatever its buffer held, the receive `i` leaves the bytes at and beyond `n`. -/
def WritesBelow (q : LockFreeQueue) (ls : List Label) (lent : List UInt8) (i : Nat) (n : Int) :
    Prop :=
  ∀ m : List UInt8, m.length = lent.length →
    ∃ s pc timeoutMs m', Mq.run (ls.map (Label.lend i m)) (Mq.init q) = some s ∧
      s.calls i = .recv pc timeoutMs m' ∧ ∀ k : Nat, n ≤ k → m'[k]? = m[k]?

/-- No state of the run `ls` depends on the bytes at and beyond `n` that the send `i` is given. -/
def ReadsBelow (q : LockFreeQueue) (ls : List Label) (lent : List UInt8) (i : Nat) (n : Int) :
    Prop :=
  ∀ m : List UInt8, m.length = lent.length → (∀ k : Nat, (k : Int) < n → m[k]? = lent[k]?) →
    ∀ ls₁, ls₁ <+: ls →
      (Mq.run (ls₁.map (Label.lend i m)) (Mq.init q)).map (Mq.hide i) =
        (Mq.run ls₁ (Mq.init q)).map (Mq.hide i)

/-- The next step of a call is the test of a push or a pop, and it finds room or a message. -/
def Call.finds (sh : MqShared) : Call → Bool
  | .send .testFull _ => decide (sh.rawQueue.isFull = some false)
  | .recv .testEmpty _ _ => !sh.rawQueue.isEmpty
  | _ => false

/-- A mq with the `msg_size` and the buffer each call was made with, and whether the call has found
room or a message. -/
structure Traced where
  mq : Mq
  sizes : Nat → Int
  lent : Nat → List UInt8
  found : Nat → Bool

namespace Traced

def init (q : LockFreeQueue) : Traced := ⟨Mq.init q, fun _ => 0, fun _ => [], fun _ => false⟩

def sizesAfter (t : Traced) : Label → Nat → Int
  | .send i _ msgSize | .recv i _ msgSize _ => Function.update t.sizes i msgSize
  | _ => t.sizes

def lentAfter (t : Traced) : Label → Nat → List UInt8
  | .send i msg _ | .recv i msg _ _ => Function.update t.lent i (msg.getD [])
  | _ => t.lent

def foundAfter (t : Traced) : Label → Nat → Bool
  | .call i _ => Function.update t.found i (t.found i || (t.mq.calls i).finds t.mq.sh)
  | _ => t.found

def step (t : Traced) (l : Label) : Option Traced :=
  (t.mq.step l).map fun mq => ⟨mq, t.sizesAfter l, t.lentAfter l, t.foundAfter l⟩

def run : List Label → Traced → Option Traced
  | [], t => some t
  | l :: ls, t => (t.step l).bind (run ls)

theorem run_mq (ls : List Label) : ∀ t : Traced, (run ls t).map Traced.mq = Mq.run ls t.mq := by
  induction ls with
  | nil => exact fun t => rfl
  | cons l ls ih =>
    intro t
    unfold run Mq.run step
    cases t.mq.step l with
    | none => rfl
    | some mq => exact ih _

theorem run_append (ls ls' : List Label) : ∀ t : Traced,
    run (ls ++ ls') t = (run ls t).bind (run ls') := by
  induction ls with
  | nil => exact fun t => rfl
  | cons l ls ih =>
    intro t
    show (t.step l).bind (run (ls ++ ls')) = ((t.step l).bind (run ls)).bind (run ls')
    rw [Option.bind_assoc]
    exact congrArg _ (funext ih)

end Traced

/-! ## What a call keeps of its buffer -/

def Call.found : Call → Bool
  | .idle => false
  | .send pc _ => pc.found
  | .recv pc _ _ => pc.found

/-- A send has the buffer it was lent; a receive has it unchanged until it finds a message, and
unchanged behind a message of the queue after that. -/
def Call.Keeps (n : Nat) (lent : List UInt8) : Call → Prop
  | .idle => True
  | .send pc msg => msg = lent ∧ (pc = .returned OSAL_API_INVAL ∨ n ≤ lent.length)
  | .recv pc _ msg => msg.length = lent.length ∧ (pc.found = false → msg = lent) ∧
    (∀ k, n ≤ k → msg[k]? = lent[k]?) ∧ (pc = .returned OSAL_API_INVAL ∨ n ≤ lent.length)

variable {sh sh' : MqShared} {i : Nat} {n : Nat} {lent msg msg' : List UInt8}

theorem sendStep_keeps {pc pc' : SendPc} {choice : Option Nat} {woken : List Nat}
    (hk : (Call.send pc msg).Keeps n lent)
    (h : sendStep sh i choice msg pc = some (sh', pc', woken)) :
    (Call.send pc' msg).Keeps n lent ∧ pc'.found = (pc.found || (Call.send pc msg).finds sh) := by
  obtain ⟨hmsg, hroom⟩ := hk
  have hlen : n ≤ lent.length := by
    rcases hroom with rfl | hlen
    · cases h
    · exact hlen
  refine ⟨⟨hmsg, .inr hlen⟩, ?_⟩
  cases sendStep_cases h with
  | full hfull | room hfull => simp [SendPc.found, Call.finds, hfull]
  | _ => rfl

theorem recvStep_keeps {pc pc' : RecvPc} {timeoutMs : Int}
    (hk : (Call.recv pc timeoutMs msg).Keeps sh.rawQueue.msgSize lent)
    (h : recvStep sh i timeoutMs msg pc = some (sh', pc', msg')) :
    (Call.recv pc' timeoutMs msg').Keeps sh.rawQueue.msgSize lent ∧
      pc'.found = (pc.found || (Call.recv pc timeoutMs msg).finds sh) := by
  obtain ⟨hsame, hmsg, hbeyond, hroom⟩ := hk
  have hlen : sh.rawQueue.msgSize ≤ lent.length := by
    rcases hroom with rfl | hlen
    · cases h
    · exact hlen
  cases recvStep_cases h with
  | noWait hempty h0 =>
    refine ⟨⟨hsame, fun _ => hmsg rfl, hbeyond, .inr hlen⟩, ?_⟩
    simp [RecvPc.found, Call.finds, hempty, OSAL_API_TIMEDOUT, OSAL_API_OK]
  | mustWait hempty h0 =>
    refine ⟨⟨hsame, fun _ => hmsg rfl, hbeyond, .inr hlen⟩, ?_⟩
    simp [RecvPc.found, Call.finds, hempty]
  | found hempty =>
    exact ⟨⟨hsame, nofun, hbeyond, .inr hlen⟩, by simp [RecvPc.found, Call.finds, hempty]⟩
  | copy₁ hcopy =>
    refine ⟨⟨(LockFreeQueue.length_popCopy₁ hcopy).trans hsame, nofun, fun k hk => ?_, .inr hlen⟩, rfl⟩
    rw [LockFreeQueue.popCopy₁_frame hcopy hk, hbeyond k hk]
  | copy₂ hcopy =>
    refine ⟨⟨(LockFreeQueue.length_popCopy₂ hcopy).trans hsame, nofun, fun k hk => ?_, .inr hlen⟩, rfl⟩
    rw [LockFreeQueue.popCopy₂_frame hcopy hk, hbeyond k hk]
  | advance hadv => exact ⟨⟨hsame, nofun, hbeyond, .inr hlen⟩, rfl⟩
  | unlockR ret => exact ⟨⟨hsame, hmsg, hbeyond, .inr hlen⟩, (Bool.or_false _).symm⟩
  | lockR hfree | wait | late hfree | woken hfree hret | exit hexit | again hexit =>
    exact ⟨⟨hsame, fun _ => hmsg rfl, hbeyond, .inr hlen⟩, rfl⟩

theorem callStep_keeps {c c' : Call} {choice : Option Nat} {woken : List Nat}
    (hk : c.Keeps sh.rawQueue.msgSize lent) (h : c.step sh i choice = some (sh', c', woken)) :
    c'.Keeps sh.rawQueue.msgSize lent ∧ c'.found = (c.found || c.finds sh) := by
  unfold Call.step at h
  cases c with
  | idle => cases h
  | send pc msg =>
    obtain ⟨⟨sh₁, pc', woken'⟩, hstep, h⟩ := Option.bind_eq_some_iff.1 h
    cases h
    exact sendStep_keeps hk hstep
  | recv pc timeoutMs msg =>
    obtain ⟨⟨sh₁, pc', msg'⟩, hstep, h⟩ := Option.bind_eq_some_iff.1 h
    cases h
    exact recvStep_keeps hk hstep

theorem Call.keeps_wake {c : Call} (hk : c.Keeps n lent) (ret : Int) :
    (c.wake ret).Keeps n lent ∧ (c.wake ret).found = c.found := by
  unfold Call.wake
  split
  · obtain ⟨hsame, hmsg, hbeyond, hroom⟩ := hk
    exact ⟨⟨hsame, fun _ => hmsg rfl, hbeyond, .inr (hroom.resolve_left nofun)⟩, rfl⟩
  · exact ⟨hk, rfl⟩

theorem Call.Twin.withMsg {c c₁ : Call} (h : c.Twin sh c₁) : c₁.withMsg [] = c.withMsg [] := by
  cases h <;> rfl

theorem callStep_twin {c c₁ c' : Call} {choice : Option Nat} {woken : List Nat}
    (h : c.Twin sh c₁) (hs : c.step sh i choice = some (sh', c', woken)) :
    ∃ sh₁ c₁', c₁.step sh i choice = some (sh₁, c₁', woken) ∧
      (sh₁ = sh' ∧ c'.Twin sh' c₁' ∨
        sh₁.rawQueue ≠ sh'.rawQueue ∧ c'.found = true ∧ ∃ pc pc' msg msg₁,
          c' = .send pc' msg ∧ c₁ = .send pc msg₁ ∧
            ∃ k < sh.rawQueue.msgSize, msg₁[k]? ≠ msg[k]?) := by
  cases h with
  | idle => cases hs
  | @send pc msg msg₁ hlen hcopied =>
    obtain ⟨⟨sh₂, pc', woken'⟩, hstep, hs⟩ := Option.bind_eq_some_iff.1 hs
    cases hs
    obtain ⟨sh₁, hstep₁, hcase⟩ := sendStep_twin hlen hcopied hstep
    refine ⟨sh₁, .send pc' msg₁, ?_, ?_⟩
    · show (sendStep sh i choice msg₁ pc).bind _ = _
      rw [hstep₁]
      rfl
    · rcases hcase with ⟨he, hcopied'⟩ | ⟨hne, hfound, hk⟩
      · exact .inl ⟨he, .send pc' hlen hcopied'⟩
      · exact .inr ⟨hne, hfound, pc, pc', msg, msg₁, rfl, rfl, hk⟩
  | @recv pc timeoutMs msg msg₁ hlen hcopied =>
    obtain ⟨⟨sh₂, pc', msg'⟩, hstep, hs⟩ := Option.bind_eq_some_iff.1 hs
    cases hs
    obtain ⟨msg₁', hstep₁, hlen', hcopied'⟩ := recvStep_twin hlen hcopied hstep
    refine ⟨sh', .recv pc' timeoutMs msg₁', ?_, .inl ⟨rfl, .recv pc' timeoutMs hlen' hcopied'⟩⟩
    show (recvStep sh i timeoutMs msg₁ pc).bind _ = _
    rw [hstep₁]
    rfl

theorem Call.Twin.wakeAll {calls calls₁ : Nat → Call} (h : (calls i).Twin sh (calls₁ i))
    (woken : List Nat) : (Mq.wakeAll woken calls i).Twin sh (Mq.wakeAll woken calls₁ i) := by
  unfold Mq.wakeAll
  split_ifs
  · exact h.wake 0
  · exact h

theorem twin_send {o : Option (List UInt8)} {m : List UInt8} (hlen : m.length = (o.getD []).length)
    (sh : MqShared) (msgSize : Int) :
    (osalPosixMqSend o msgSize).Twin sh (osalPosixMqSend (o.map fun _ => m) msgSize) := by
  unfold osalPosixMqSend
  cases o with
  | none => exact .send _ rfl fun _ _ => rfl
  | some msg =>
    simp only [Option.map_some]
    split_ifs
    · exact .send _ hlen nofun
    · exact .send _ hlen nofun

theorem twin_recv {o : Option (List UInt8)} {m : List UInt8} (hlen : m.length = (o.getD []).length)
    (sh : MqShared) (msgSize timeoutMs : Int) :
    (osalPosixMqRecv o msgSize timeoutMs).Twin sh
      (osalPosixMqRecv (o.map fun _ => m) msgSize timeoutMs) := by
  unfold osalPosixMqRecv
  cases o with
  | none => exact .recv _ _ rfl fun _ _ => rfl
  | some msg =>
    simp only [Option.map_some]
    split_ifs
    · exact .recv _ _ hlen nofun
    · exact .recv _ _ hlen nofun

theorem Call.Fresh.keeps {c : Call} {o : Option (List UInt8)} (hf : c.Fresh o)
    (hroom : ∀ m ∈ o, n ≤ m.length) : c.Keeps n (o.getD []) ∧ c.found = false := by
  cases hf with
  | send msg => exact ⟨⟨rfl, .inr (hroom msg rfl)⟩, rfl⟩
  | sendInval o => exact ⟨⟨rfl, .inl rfl⟩, rfl⟩
  | recv timeoutMs msg =>
    exact ⟨⟨rfl, fun _ => rfl, fun _ _ => rfl, .inr (hroom msg rfl)⟩, rfl⟩
  | recvInval o timeoutMs => exact ⟨⟨rfl, fun _ => rfl, fun _ _ => rfl, .inl rfl⟩, rfl⟩

namespace Traced

variable {q : LockFreeQueue} {t t' t₁ : Traced} {l : Label} {m : List UInt8}

structure Inv (n : Nat) (t : Traced) : Prop where
  locked : t.mq.Locked
  msgSize : t.mq.sh.rawQueue.msgSize = n
  kept : ∀ i, (t.mq.calls i).Keeps n (t.lent i)
  found : ∀ i, t.found i = (t.mq.calls i).found

theorem Inv.init (q : LockFreeQueue) : (init q).Inv q.msgSize :=
  ⟨⟨fun _ => ⟨nofun, nofun⟩, nofun⟩, rfl, fun _ => trivial, fun _ => rfl⟩

theorem Inv.start (h : t.Inv n) {c : Call} {o : Option (List UInt8)} (hf : c.Fresh o) {mq : Mq}
    (hs : t.mq.start i o c = some mq) (sizes : Nat → Int) :
    Inv n ⟨mq, sizes, Function.update t.lent i (o.getD []), t.found⟩ := by
  have hlock := h.locked.start hf hs
  obtain ⟨hidle, -, hroom, rfl⟩ := Mq.start_spec hs
  rw [h.msgSize] at hroom
  have hfresh := hf.keeps hroom
  refine ⟨hlock, h.msgSize, fun j => ?_, fun j => ?_⟩
  · show Call.Keeps n (Function.update t.lent i (o.getD []) j) (Function.update t.mq.calls i c j)
    rw [Function.update_apply, Function.update_apply]
    split_ifs
    · exact hfresh.1
    · exact h.kept j
  · show t.found j = (Function.update t.mq.calls i c j).found
    rw [Function.update_apply]
    split_ifs with hj
    · rw [hj, h.found i, hidle, hfresh.2]
      rfl
    · exact h.found j

theorem Inv.wakeAll (h : t.Inv n) (woken : List Nat) (j : Nat) :
    (Mq.wakeAll woken t.mq.calls j).Keeps n (t.lent j) ∧
      t.found j = (Mq.wakeAll woken t.mq.calls j).found := by
  unfold Mq.wakeAll
  split_ifs
  · obtain ⟨hk, hf⟩ := Call.keeps_wake (h.kept j) 0
    exact ⟨hk, (h.found j).trans hf.symm⟩
  · exact ⟨h.kept j, h.found j⟩

theorem Inv.step (h : t.Inv n) (hs : t.step l = some t') : t'.Inv n := by
  obtain ⟨mq, hmq, rfl⟩ := Option.map_eq_some_iff.1 hs
  cases l with
  | send i msg msgSize => exact h.start (Call.fresh_send msg msgSize) hmq _
  | recv i msg msgSize timeoutMs => exact h.start (Call.fresh_recv msg msgSize timeoutMs) hmq _
  | call i choice =>
    obtain ⟨hlock, hg⟩ := h.locked.callStep hmq
    obtain ⟨⟨sh', c', woken⟩, hc, hmq⟩ := Option.bind_eq_some_iff.1 hmq
    cases hmq
    have hki : (t.mq.calls i).Keeps t.mq.sh.rawQueue.msgSize (t.lent i) := h.msgSize ▸ h.kept i
    obtain ⟨hkeep, hfound⟩ := callStep_keeps hki hc
    rw [h.msgSize] at hkeep
    refine ⟨hlock, hg.msgSize.trans h.msgSize, fun j => ?_, fun j => ?_⟩
    · show Call.Keeps n (t.lent j) (Function.update (Mq.wakeAll woken t.mq.calls) i c' j)
      rw [Function.update_apply]
      split_ifs with hj
      · exact hj ▸ hkeep
      · exact (h.wakeAll woken j).1
    · show Function.update t.found i (t.found i || (t.mq.calls i).finds t.mq.sh) j =
        (Function.update (Mq.wakeAll woken t.mq.calls) i c' j).found
      rw [Function.update_apply, Function.update_apply]
      split_ifs with hj
      · rw [hfound, h.found i]
      · exact (h.wakeAll woken j).2
  | wake i ret =>
    have hlock := (h.locked.wakeUp hmq).1
    obtain ⟨timeoutMs, msg, hi, rfl⟩ := Mq.wakeUp_spec hmq
    have hwake := Call.keeps_wake (h.kept i) ret
    rw [hi] at hwake
    refine ⟨hlock, h.msgSize, fun j => ?_, fun j => ?_⟩
    · show Call.Keeps n (t.lent j) (Function.update t.mq.calls i _ j)
      rw [Function.update_apply]
      split_ifs with hj
      · exact hj ▸ hwake.1
      · exact h.kept j
    · show t.found j = (Function.update t.mq.calls i _ j).found
      rw [Function.update_apply]
      split_ifs with hj
      · rw [hj, h.found i, hi]
        exact hwake.2.symm
      · exact h.found j
  | callDestroy =>
    have hlock := h.locked.step hmq
    unfold Mq.step at hmq
    dsimp only at hmq
    split_ifs at hmq
    cases hmq
    exact ⟨hlock, h.msgSize, h.kept, h.found⟩
  | destroy =>
    obtain ⟨hlock, hg⟩ := h.locked.destroyStep hmq
    obtain ⟨⟨sh', d, woken⟩, -, hmq⟩ := Option.bind_eq_some_iff.1 hmq
    cases hmq
    exact ⟨hlock, hg.msgSize.trans h.msgSize, fun j => (h.wakeAll woken j).1,
      fun j => (h.wakeAll woken j).2⟩

theorem Inv.run {ls : List Label} : ∀ {t t' : Traced}, t.Inv n → run ls t = some t' → t'.Inv n := by
  induction ls with
  | nil => intro t t' h hr; cases hr; exact h
  | cons l ls ih =>
    intro t t' h hr
    obtain ⟨t₁, hs, hr⟩ := Option.bind_eq_some_iff.1 hr
    exact ih (h.step hs) hr

/-! ## What stays of a call that was made -/

/-- From `t` to `t'` the call `i` was on its way. -/
structure Later (i : Nat) (t t' : Traced) : Prop where
  made : t'.mq.calls i ≠ .idle
  lent : t'.lent i = t.lent i
  found : t.found i = true → t'.found i = true
  sent : ∀ pc msg, t.mq.calls i = .send pc msg → ∃ pc', t'.mq.calls i = .send pc' msg

theorem Later.trans {t₂ : Traced} (h : Later i t t₁) (h' : Later i t₁ t₂) : Later i t t₂ where
  made := h'.made
  lent := h'.lent.trans h.lent
  found hf := h'.found (h.found hf)
  sent pc msg hi := by
    obtain ⟨pc₁, hi⟩ := h.sent pc msg hi
    exact h'.sent pc₁ msg hi

def Goes (c c' : Call) : Prop :=
  c' ≠ .idle ∧ ∀ pc msg, c = .send pc msg → ∃ pc', c' = .send pc' msg

theorem goes_step {c c' : Call} {choice : Option Nat} {woken : List Nat}
    (h : c.step sh i choice = some (sh', c', woken)) : Goes c c' := by
  unfold Call.step at h
  cases c with
  | idle => cases h
  | send pc msg =>
    obtain ⟨⟨sh₁, pc', woken'⟩, -, h⟩ := Option.bind_eq_some_iff.1 h
    cases h
    refine ⟨nofun, fun pc₁ msg₁ he => ?_⟩
    cases he
    exact ⟨pc', rfl⟩
  | recv pc timeoutMs msg =>
    obtain ⟨⟨sh₁, pc', msg'⟩, -, h⟩ := Option.bind_eq_some_iff.1 h
    cases h
    exact ⟨nofun, nofun⟩

theorem goes_wakeAll {calls : Nat → Call} (hne : calls i ≠ .idle) (woken : List Nat) :
    Goes (calls i) (Mq.wakeAll woken calls i) := by
  unfold Mq.wakeAll Call.wake
  split_ifs
  · split
    · next hb => exact ⟨nofun, fun pc msg he => by rw [hb] at he; cases he⟩
    · exact ⟨hne, fun pc msg he => ⟨pc, he⟩⟩
  · exact ⟨hne, fun pc msg he => ⟨pc, he⟩⟩

theorem later_of_goes (hlent : t'.lent i = t.lent i) (hfound : t.found i = true → t'.found i = true)
    (h : Goes (t.mq.calls i) (t'.mq.calls i)) : Later i t t' :=
  ⟨h.1, hlent, hfound, h.2⟩

theorem later_start {j : Nat} {c : Call} {o : Option (List UInt8)} {mq : Mq}
    (hne : t.mq.calls i ≠ .idle) (hs : t.mq.start j o c = some mq) (sizes : Nat → Int) :
    Later i t ⟨mq, sizes, Function.update t.lent j (o.getD []), t.found⟩ := by
  obtain ⟨hidle, -, -, rfl⟩ := Mq.start_spec hs
  have hij : i ≠ j := fun he => hne (he ▸ hidle)
  have hcalls : Function.update t.mq.calls j c i = t.mq.calls i := Function.update_of_ne hij _ _
  refine ⟨?_, Function.update_of_ne hij _ _, id, fun pc msg hi => ⟨pc, ?_⟩⟩
  · exact fun hi => hne (hcalls.symm.trans hi)
  · exact hcalls.trans hi

theorem later_step (hne : t.mq.calls i ≠ .idle) (hs : t.step l = some t') : Later i t t' := by
  obtain ⟨mq, hmq, rfl⟩ := Option.map_eq_some_iff.1 hs
  have hself : Goes (t.mq.calls i) (t.mq.calls i) := ⟨hne, fun pc _ he => ⟨pc, he⟩⟩
  cases l with
  | send j msg msgSize => exact later_start hne hmq _
  | recv j msg msgSize timeoutMs => exact later_start hne hmq _
  | call j choice =>
    obtain ⟨⟨sh', c', woken⟩, hc, hmq⟩ := Option.bind_eq_some_iff.1 hmq
    cases hmq
    by_cases hij : i = j
    · subst hij
      refine later_of_goes rfl (fun hf => ?_) ?_
      · show Function.update t.found i _ i = true
        rw [Function.update_self, hf, Bool.true_or]
      · show Goes _ (Function.update (Mq.wakeAll woken t.mq.calls) i c' i)
        rw [Function.update_self]
        exact goes_step hc
    · refine later_of_goes rfl (fun hf => ?_) ?_
      · exact (Function.update_of_ne hij _ _).trans hf
      · show Goes _ (Function.update (Mq.wakeAll woken t.mq.calls) j c' i)
        rw [Function.update_of_ne hij]
        exact goes_wakeAll hne woken
  | wake j ret =>
    obtain ⟨timeoutMs, msg, hj, rfl⟩ := Mq.wakeUp_spec hmq
    refine later_of_goes rfl id ?_
    show Goes _ (Function.update t.mq.calls j _ i)
    by_cases hij : i = j
    · subst hij
      rw [Function.update_self, hj]
      exact ⟨nofun, nofun⟩
    · rw [Function.update_of_ne hij]
      exact hself
  | callDestroy =>
    unfold Mq.step at hmq
    dsimp only at hmq
    split_ifs at hmq
    cases hmq
    exact later_of_goes rfl id hself
  | destroy =>
    obtain ⟨⟨sh', d, woken⟩, -, hmq⟩ := Option.bind_eq_some_iff.1 hmq
    cases hmq
    exact later_of_goes rfl id (goes_wakeAll hne woken)

theorem later_run {ls : List Label} : ∀ {t t' : Traced}, t.mq.calls i ≠ .idle →
    run ls t = some t' → Later i t t' := by
  induction ls with
  | nil =>
    intro t t' hne hr
    cases hr
    exact ⟨hne, rfl, id, fun pc _ hi => ⟨pc, hi⟩⟩
  | cons l ls ih =>
    intro t t' hne hr
    obtain ⟨t₁, hs, hr⟩ := Option.bind_eq_some_iff.1 hr
    have hstep := later_step hne hs
    exact hstep.trans (ih hstep.made hr)

/-! ## Two runs that differ in the buffer of one call -/

/-- The run with the bytes `m` in the buffer of the call `i` goes alike. -/
structure Twin (i : Nat) (m : List UInt8) (t t₁ : Traced) : Prop where
  sh : t₁.mq.sh = t.mq.sh
  destroy : t₁.mq.destroy = t.mq.destroy
  calls : ∀ j, j ≠ i → t₁.mq.calls j = t.mq.calls j
  self : (t.mq.calls i).Twin t.mq.sh (t₁.mq.calls i)
  lent : t.mq.calls i ≠ .idle → t₁.lent i = m

/-- The send `i` has copied a byte that is not the same in `m`. -/
structure Differ (n i : Nat) (m : List UInt8) (t t₁ : Traced) : Prop where
  rawQueue : t₁.mq.sh.rawQueue ≠ t.mq.sh.rawQueue
  sent : ∃ pc, t.mq.calls i = .send pc (t.lent i)
  found : t.found i = true
  byte : ∃ k < n, m[k]? ≠ (t.lent i)[k]?

theorem Twin.init (q : LockFreeQueue) (i : Nat) (m : List UInt8) :
    (Traced.init q).Twin i m (Traced.init q) :=
  ⟨rfl, rfl, fun _ _ => rfl, .idle, fun h => absurd rfl h⟩

theorem Twin.hide (h : t.Twin i m t₁) : t₁.mq.hide i = t.mq.hide i := by
  have hcalls : Function.update t₁.mq.calls i ((t₁.mq.calls i).withMsg []) =
      Function.update t.mq.calls i ((t.mq.calls i).withMsg []) := by
    funext j
    rw [Function.update_apply, Function.update_apply]
    split_ifs with hj
    · exact h.self.withMsg
    · exact h.calls j hj
  unfold Mq.hide
  rw [h.sh, h.destroy, hcalls]

theorem Twin.startOther (h : t.Twin i m t₁) {j : Nat} (hj : j ≠ i) {o : Option (List UInt8)}
    {c : Call} {mq : Mq} (hs : t.mq.start j o c = some mq) (sizes sizes₁ : Nat → Int) :
    ∃ mq₁, t₁.mq.start j o c = some mq₁ ∧
      Twin i m ⟨mq, sizes, Function.update t.lent j (o.getD []), t.found⟩
        ⟨mq₁, sizes₁, Function.update t₁.lent j (o.getD []), t₁.found⟩ := by
  obtain ⟨hidle, hd, hroom, rfl⟩ := Mq.start_spec hs
  refine ⟨{ t₁.mq with calls := Function.update t₁.mq.calls j c },
    if_pos ⟨(h.calls j hj).trans hidle, h.destroy.trans hd, h.sh ▸ hroom⟩,
    h.sh, h.destroy, fun k hk => ?_, ?_, fun hne => ?_⟩
  · show Function.update t₁.mq.calls j c k = Function.update t.mq.calls j c k
    rw [Function.update_apply, Function.update_apply, h.calls k hk]
  · show (Function.update t.mq.calls j c i).Twin _ (Function.update t₁.mq.calls j c i)
    rw [Function.update_of_ne hj.symm, Function.update_of_ne hj.symm]
    exact h.self
  · have hne' : t.mq.calls i ≠ .idle := fun hi =>
      hne ((Function.update_of_ne hj.symm c t.mq.calls).trans hi)
    exact (Function.update_of_ne hj.symm _ _).trans (h.lent hne')

theorem Twin.startSelf (h : t.Twin i m t₁) {o : Option (List UInt8)} {c c₁ : Call} {mq : Mq}
    (hlen : m.length = (o.getD []).length) (hc : c.Twin t.mq.sh c₁)
    (hs : t.mq.start i o c = some mq) (sizes sizes₁ : Nat → Int) :
    ∃ mq₁, t₁.mq.start i (o.map fun _ => m) c₁ = some mq₁ ∧
      Twin i m ⟨mq, sizes, Function.update t.lent i (o.getD []), t.found⟩
        ⟨mq₁, sizes₁, Function.update t₁.lent i ((o.map fun _ => m).getD []), t₁.found⟩ := by
  obtain ⟨hidle, hd, hroom, rfl⟩ := Mq.start_spec hs
  have hself := h.self
  rw [hidle] at hself
  generalize hi₁ : t₁.mq.calls i = ci at hself
  cases hself
  have hroom₁ : ∀ x ∈ o.map fun _ => m, t₁.mq.sh.rawQueue.msgSize ≤ x.length := by
    intro x hx
    obtain ⟨msg, hmsg, rfl⟩ := Option.mem_map.1 hx
    obtain rfl := Option.mem_def.1 hmsg
    rw [h.sh, hlen]
    exact hroom msg rfl
  refine ⟨{ t₁.mq with calls := Function.update t₁.mq.calls i c₁ },
    if_pos ⟨hi₁, h.destroy.trans hd, hroom₁⟩, h.sh, h.destroy, fun k hk => ?_, ?_, fun _ => ?_⟩
  · show Function.update t₁.mq.calls i c₁ k = Function.update t.mq.calls i c k
    rw [Function.update_of_ne hk, Function.update_of_ne hk, h.calls k hk]
  · show (Function.update t.mq.calls i c i).Twin _ (Function.update t₁.mq.calls i c₁ i)
    rw [Function.update_self, Function.update_self]
    exact hc
  · show Function.update t₁.lent i ((o.map fun _ => m).getD []) i = m
    rw [Function.update_self]
    cases o with
    | none => exact (List.length_eq_zero_iff.1 hlen).symm
    | some msg => rfl

theorem Twin.callOther (h : t.Twin i m t₁) (ht : t.Inv n) {j : Nat} (hj : j ≠ i)
    {choice : Option Nat} (hs : t.step (.call j choice) = some t') :
    ∃ t₁', t₁.step (.call j choice) = some t₁' ∧ t'.Twin i m t₁' := by
  obtain ⟨mq, hmq, rfl⟩ := Option.map_eq_some_iff.1 hs
  obtain ⟨-, hg⟩ := ht.locked.callStep hmq
  obtain ⟨⟨sh', c', woken⟩, hc, hmq⟩ := Option.bind_eq_some_iff.1 hmq
  cases hmq
  have hstep : t₁.mq.step (.call j choice) = some { t₁.mq with
      sh := sh', calls := Function.update (Mq.wakeAll woken t₁.mq.calls) j c' } := by
    show ((t₁.mq.calls j).step t₁.mq.sh j choice).bind _ = _
    rw [h.calls j hj, h.sh, hc]
    rfl
  refine ⟨_, congrArg (Option.map _) hstep, rfl, h.destroy, fun k hk => ?_, ?_, fun hne => h.lent ?_⟩
  · show Function.update (Mq.wakeAll woken t₁.mq.calls) j c' k =
      Function.update (Mq.wakeAll woken t.mq.calls) j c' k
    rw [Function.update_apply, Function.update_apply]
    unfold Mq.wakeAll
    rw [h.calls k hk]
  · show (Function.update (Mq.wakeAll woken t.mq.calls) j c' i).Twin sh'
      (Function.update (Mq.wakeAll woken t₁.mq.calls) j c' i)
    rw [Function.update_of_ne hj.symm, Function.update_of_ne hj.symm]
    have hij : Party.call i ≠ .call j := fun he => hj (Party.call.inj he).symm
    exact (h.self.stable (ht.locked.calls i) hg hij).wakeAll woken
  · intro hi
    refine hne ((Function.update_of_ne hj.symm _ _).trans ?_)
    unfold Mq.wakeAll
    rw [hi]
    exact ite_self _

theorem Twin.callSelf (h : t.Twin i m t₁) (ht : t.Inv n) (ht₁ : t₁.Inv n) {choice : Option Nat}
    (hs : t.step (.call i choice) = some t') :
    ∃ t₁', t₁.step (.call i choice) = some t₁' ∧ (t'.Twin i m t₁' ∨ Differ n i m t' t₁') := by
  have ht' := ht.step hs
  obtain ⟨mq, hmq, rfl⟩ := Option.map_eq_some_iff.1 hs
  obtain ⟨⟨sh', c', woken⟩, hc, hmq⟩ := Option.bind_eq_some_iff.1 hmq
  cases hmq
  have hne : t.mq.calls i ≠ .idle := fun hi => by rw [hi] at hc; cases hc
  obtain ⟨sh₁, c₁', hc₁, hcase⟩ := callStep_twin h.self hc
  have hstep : t₁.mq.step (.call i choice) = some { t₁.mq with
      sh := sh₁, calls := Function.update (Mq.wakeAll woken t₁.mq.calls) i c₁' } := by
    show ((t₁.mq.calls i).step t₁.mq.sh i choice).bind _ = _
    rw [h.sh, hc₁]
    rfl
  have hself : Function.update (Mq.wakeAll woken t.mq.calls) i c' i = c' := Function.update_self _ _ _
  refine ⟨_, congrArg (Option.map _) hstep, ?_⟩
  rcases hcase with ⟨rfl, htwin⟩ | ⟨hq, hfound, pc, pc', msg, msg₁, rfl, hi₁, k, hk, hbyte⟩
  · refine .inl ⟨rfl, h.destroy, fun j hj => ?_, ?_, fun _ => h.lent hne⟩
    · show Function.update (Mq.wakeAll woken t₁.mq.calls) i c₁' j =
        Function.update (Mq.wakeAll woken t.mq.calls) i c' j
      rw [Function.update_of_ne hj, Function.update_of_ne hj]
      unfold Mq.wakeAll
      rw [h.calls j hj]
    · show (Function.update (Mq.wakeAll woken t.mq.calls) i c' i).Twin sh₁
        (Function.update (Mq.wakeAll woken t₁.mq.calls) i c₁' i)
      rw [hself, Function.update_self]
      exact htwin
  · have hmsg : msg = t.lent i := by
      have := ht'.kept i
      change Call.Keeps n (t.lent i) (Function.update (Mq.wakeAll woken t.mq.calls) i _ i) at this
      rw [hself] at this
      exact this.1
    have hmsg₁ : msg₁ = m := by
      have := ht₁.kept i
      rw [hi₁, h.lent hne] at this
      exact this.1
    refine .inr ⟨hq, ⟨pc', hself.trans (hmsg ▸ rfl)⟩, ?_, k, ht.msgSize ▸ hk, ?_⟩
    · exact (ht'.found i).trans ((congrArg Call.found hself).trans hfound)
    · rw [← hmsg₁]
      exact hmsg ▸ hbyte

theorem wakeUp_cases {s s' : Mq} {ret : Int} (hs : s.wakeUp i ret = some s') :
    ∃ timeoutMs msg, s.calls i = .recv .blocked timeoutMs msg ∧
      s' = { s with
        sh := { s.sh with cond := s.sh.cond.erase i }
        calls := Function.update s.calls i (.recv (.relock ret) timeoutMs msg) } ∧
      (ret = 0 ∨ (ret = ETIMEDOUT ∧ timeoutMs ≠ OSAL_WAITFOREVER)) := by
  obtain ⟨timeoutMs, msg, hi, hs'⟩ := Mq.wakeUp_spec hs
  refine ⟨timeoutMs, msg, hi, hs', ?_⟩
  unfold Mq.wakeUp at hs
  rw [hi] at hs
  dsimp only at hs
  split_ifs at hs with hret
  exact hret

theorem start_made {s s' : Mq} {c : Call} {o : Option (List UInt8)} (hf : c.Fresh o)
    (hs : s.start i o c = some s') : s'.calls i ≠ .idle := by
  obtain ⟨-, -, -, rfl⟩ := Mq.start_spec hs
  show Function.update s.calls i c i ≠ .idle
  rw [Function.update_self]
  cases hf <;> exact nofun

theorem Twin.wake (h : t.Twin i m t₁) (ht : t.Inv n) {j : Nat} {ret : Int}
    (hs : t.step (.wake j ret) = some t') :
    ∃ t₁', t₁.step (.wake j ret) = some t₁' ∧ t'.Twin i m t₁' := by
  obtain ⟨mq, hmq, rfl⟩ := Option.map_eq_some_iff.1 hs
  have hg := (ht.locked.wakeUp hmq).2 .destroy
  obtain ⟨timeoutMs, msg, hj, hmq', hret⟩ := wakeUp_cases hmq
  subst hmq'
  obtain ⟨msg₁, hj₁, hlen⟩ : ∃ msg₁, t₁.mq.calls j = .recv .blocked timeoutMs msg₁ ∧
      (j ≠ i → msg₁ = msg) ∧ msg₁.length = msg.length := by
    by_cases hji : j = i
    · subst hji
      have hself := h.self
      rw [hj] at hself
      generalize t₁.mq.calls j = c₁ at hself
      cases hself with
      | recv pc timeoutMs hlen hcopied => exact ⟨_, rfl, fun hne => absurd rfl hne, hlen⟩
    · exact ⟨msg, (h.calls j hji).trans hj, fun _ => rfl, rfl⟩
  have hstep : t₁.mq.step (.wake j ret) = some { t₁.mq with
      sh := { t₁.mq.sh with cond := t₁.mq.sh.cond.erase j }
      calls := Function.update t₁.mq.calls j (.recv (.relock ret) timeoutMs msg₁) } := by
    show t₁.mq.wakeUp j ret = _
    unfold Mq.wakeUp
    rw [hj₁]
    exact if_pos hret
  have hsh : ({ t₁.mq.sh with cond := t₁.mq.sh.cond.erase j } : MqShared) =
      { t.mq.sh with cond := t.mq.sh.cond.erase j } := by rw [h.sh]
  refine ⟨_, congrArg (Option.map _) hstep, hsh, h.destroy, fun k hk => ?_, ?_, fun hne => h.lent ?_⟩
  · show Function.update t₁.mq.calls j _ k = Function.update t.mq.calls j _ k
    rw [Function.update_apply, Function.update_apply, h.calls k hk]
    split_ifs with hkj
    · rw [hlen.1 (hkj ▸ hk)]
    · rfl
  · show (Function.update t.mq.calls j _ i).Twin _ (Function.update t₁.mq.calls j _ i)
    rw [Function.update_apply, Function.update_apply]
    split_ifs with hij
    · exact .recv _ _ hlen.2 nofun
    · exact h.self.stable (ht.locked.calls i) hg nofun
  · intro hi
    by_cases hij : i = j
    · rw [hij, hj] at hi
      cases hi
    · exact hne ((Function.update_of_ne hij _ _).trans hi)

theorem Twin.destroyStep (h : t.Twin i m t₁) (ht : t.Inv n) 
    (hs : t.step .destroy = some t') :
    ∃ t₁', t₁.step .destroy = some t₁' ∧ t'.Twin i m t₁' := by
  obtain ⟨mq, hmq, rfl⟩ := Option.map_eq_some_iff.1 hs
  obtain ⟨-, hg⟩ := ht.locked.destroyStep hmq
  obtain ⟨⟨sh', d, woken⟩, hd, hmq⟩ := Option.bind_eq_some_iff.1 hmq
  cases hmq
  have hstep : t₁.mq.step .destroy =
      some { sh := sh', calls := Mq.wakeAll woken t₁.mq.calls, destroy := d } := by
    show (Osal.destroyStep t₁.mq.sh t₁.mq.destroy).bind _ = _
    rw [h.sh, h.destroy, hd]
    rfl
  refine ⟨_, congrArg (Option.map _) hstep, rfl, rfl, fun k hk => ?_, ?_, fun hne => h.lent ?_⟩
  · show Mq.wakeAll woken t₁.mq.calls k = Mq.wakeAll woken t.mq.calls k
    unfold Mq.wakeAll
    rw [h.calls k hk]
  · exact (h.self.stable (ht.locked.calls i) hg nofun).wakeAll woken
  · intro hi
    refine hne ?_
    show Mq.wakeAll woken t.mq.calls i = .idle
    unfold Mq.wakeAll
    rw [hi]
    exact ite_self _

theorem Twin.step (h : t.Twin i m t₁) (ht : t.Inv n) (ht₁ : t₁.Inv n) (hs : t.step l = some t')
    (hlen : t'.mq.calls i ≠ .idle → m.length = (t'.lent i).length) :
    ∃ t₁', t₁.step (l.lend i m) = some t₁' ∧ (t'.Twin i m t₁' ∨ Differ n i m t' t₁') := by
  cases l with
  | send j o msgSize =>
    obtain ⟨mq, hmq, rfl⟩ := Option.map_eq_some_iff.1 hs
    by_cases hj : j = i
    · subst hj
      have hmade := start_made (Call.fresh_send o msgSize) hmq
      have hm : m.length = (o.getD []).length :=
        (hlen hmade).trans (congrArg List.length (Function.update_self _ _ _))
      obtain ⟨mq₁, hmq₁, htwin⟩ := h.startSelf hm (twin_send hm _ msgSize) hmq
        (t.sizesAfter (.send j o msgSize)) (t₁.sizesAfter (.send j (o.map fun _ => m) msgSize))
      rw [Label.lend, if_pos rfl]
      exact ⟨_, congrArg (Option.map _) hmq₁, .inl htwin⟩
    · obtain ⟨mq₁, hmq₁, htwin⟩ := h.startOther hj hmq
        (t.sizesAfter (.send j o msgSize)) (t₁.sizesAfter (.send j o msgSize))
      rw [Label.lend, if_neg hj]
      exact ⟨_, congrArg (Option.map _) hmq₁, .inl htwin⟩
  | recv j o msgSize timeoutMs =>
    obtain ⟨mq, hmq, rfl⟩ := Option.map_eq_some_iff.1 hs
    by_cases hj : j = i
    · subst hj
      have hmade := start_made (Call.fresh_recv o msgSize timeoutMs) hmq
      have hm : m.length = (o.getD []).length :=
        (hlen hmade).trans (congrArg List.length (Function.update_self _ _ _))
      obtain ⟨mq₁, hmq₁, htwin⟩ := h.startSelf hm (twin_recv hm _ msgSize timeoutMs) hmq
        (t.sizesAfter (.recv j o msgSize timeoutMs))
        (t₁.sizesAfter (.recv j (o.map fun _ => m) msgSize timeoutMs))
      rw [Label.lend, if_pos rfl]
      exact ⟨_, congrArg (Option.map _) hmq₁, .inl htwin⟩
    · obtain ⟨mq₁, hmq₁, htwin⟩ := h.startOther hj hmq
        (t.sizesAfter (.recv j o msgSize timeoutMs)) (t₁.sizesAfter (.recv j o msgSize timeoutMs))
      rw [Label.lend, if_neg hj]
      exact ⟨_, congrArg (Option.map _) hmq₁, .inl htwin⟩
  | call j choice =>
    by_cases hj : j = i
    · subst hj
      exact h.callSelf ht ht₁ hs
    · obtain ⟨t₁', hs₁, htwin⟩ := h.callOther ht hj hs
      exact ⟨t₁', hs₁, .inl htwin⟩
  | wake j ret =>
    obtain ⟨t₁', hs₁, htwin⟩ := h.wake ht hs
    exact ⟨t₁', hs₁, .inl htwin⟩
  | callDestroy =>
    obtain ⟨mq, hmq, rfl⟩ := Option.map_eq_some_iff.1 hs
    unfold Mq.step at hmq
    dsimp only at hmq
    split_ifs at hmq with hd
    cases hmq
    have hstep : t₁.mq.step .callDestroy = some { t₁.mq with destroy := .setExit } :=
      if_pos (h.destroy.trans hd)
    exact ⟨_, congrArg (Option.map _) hstep, .inl ⟨h.sh, rfl, h.calls, h.self, h.lent⟩⟩
  | destroy =>
    obtain ⟨t₁', hs₁, htwin⟩ := h.destroyStep ht hs
    exact ⟨t₁', hs₁, .inl htwin⟩

theorem run_concat {ls : List Label} (h : run (ls ++ [l]) t = some t') :
    ∃ t₀, run ls t = some t₀ ∧ t₀.step l = some t' := by
  rw [run_append] at h
  obtain ⟨t₀, hr, h⟩ := Option.bind_eq_some_iff.1 h
  obtain ⟨t₁, hs, h⟩ := Option.bind_eq_some_iff.1 h
  cases h
  exact ⟨t₀, hr, hs⟩

theorem run_lend_concat {ls : List Label} {t₂ : Traced} (hr : run (ls.map (Label.lend i m)) t = some t₁)
    (hs : t₁.step (l.lend i m) = some t₂) : run ((ls ++ [l]).map (Label.lend i m)) t = some t₂ := by
  rw [List.map_append, run_append, hr]
  exact (congrArg (·.bind (run [])) hs).trans rfl

/-- **A run on another buffer of the call `i`** goes alike to its end, or up to a step that copies a
byte that is not the same. -/
theorem run_twin {ls : List Label} : ∀ {t : Traced}, run ls (Traced.init q) = some t →
    (t.mq.calls i ≠ .idle → m.length = (t.lent i).length) →
    (∃ t₁, run (ls.map (Label.lend i m)) (Traced.init q) = some t₁ ∧ t.Twin i m t₁) ∨
    ∃ ls₁ s s₁, ls₁ <+: ls ∧ run ls₁ (Traced.init q) = some s ∧
      run (ls₁.map (Label.lend i m)) (Traced.init q) = some s₁ ∧ Differ q.msgSize i m s s₁ := by
  induction ls using List.reverseRecOn with
  | nil =>
    intro t hr _
    cases hr
    exact .inl ⟨_, rfl, .init q i m⟩
  | append_singleton ls l ih =>
    intro t hr hlen
    obtain ⟨t₀, hr₀, hs⟩ := run_concat hr
    have hlen₀ : t₀.mq.calls i ≠ .idle → m.length = (t₀.lent i).length := fun hne => by
      have hlater := later_step hne hs
      rw [← hlater.lent]
      exact hlen hlater.made
    rcases ih hr₀ hlen₀ with ⟨t₁, hr₁, htwin⟩ | ⟨ls₁, s, s₁, hpre, hs₁⟩
    · have ht₀ := (Inv.init q).run hr₀
      have ht₁ := (Inv.init q).run hr₁
      obtain ⟨t₁', hs₁, htwin' | hdiff⟩ := htwin.step ht₀ ht₁ hs hlen
      · exact .inl ⟨t₁', run_lend_concat hr₁ hs₁, htwin'⟩
      · exact .inr ⟨ls ++ [l], t, t₁', List.prefix_rfl, hr, run_lend_concat hr₁ hs₁, hdiff⟩
    · exact .inr ⟨ls₁, s, s₁, hpre.trans (List.prefix_append _ _), hs₁⟩

/-! ## What a call touches -/

theorem mq_run {ls : List Label} (h : run ls (Traced.init q) = some t) :
    Mq.run ls (Mq.init q) = some t.mq := by
  have := run_mq ls (Traced.init q)
  rw [h] at this
  exact this.symm

/-- The state of a run after its first labels, and that the run goes on from there. -/
theorem run_isPrefix {ls ls₁ : List Label} (h : run ls (Traced.init q) = some t) (hpre : ls₁ <+: ls) :
    ∃ s, run ls₁ (Traced.init q) = some s ∧ (s.mq.calls i ≠ .idle → Later i s t) := by
  obtain ⟨ls₂, rfl⟩ := hpre
  rw [run_append] at h
  obtain ⟨s, hs, h⟩ := Option.bind_eq_some_iff.1 h
  exact ⟨s, hs, fun hne => later_run hne h⟩

/-- A receive in the end was no send earlier in the run. -/
theorem twin_of_recv {ls : List Label} (hr : run ls (Traced.init q) = some t) {pc : RecvPc}
    {timeoutMs : Int} (hi : t.mq.calls i = .recv pc timeoutMs msg)
    (hlen : m.length = (t.lent i).length) :
    ∃ t₁ m', run (ls.map (Label.lend i m)) (Traced.init q) = some t₁ ∧
      t₁.mq.calls i = .recv pc timeoutMs m' ∧ t₁.lent i = m ∧
      ∀ k < pc.copied t.mq.sh.rawQueue, m'[k]? = msg[k]? := by
  have hne : t.mq.calls i ≠ .idle := by rw [hi]; exact nofun
  rcases run_twin hr fun _ => hlen with ⟨t₁, hr₁, htwin⟩ | ⟨ls₁, s, s₁, hpre, hs, -, hdiff⟩
  · have hself := htwin.self
    rw [hi] at hself
    generalize hi₁ : t₁.mq.calls i = c₁ at hself
    cases hself with
    | recv pc timeoutMs hlen' hcopied => exact ⟨t₁, _, hr₁, hi₁, htwin.lent hne, hcopied⟩
  · obtain ⟨s', hs', hlater⟩ := run_isPrefix hr hpre
    cases hs.symm.trans hs'
    obtain ⟨pc', hsend⟩ := hdiff.sent
    obtain ⟨pc₁, hsend₁⟩ := (hlater (by rw [hsend]; exact nofun)).sent pc' _ hsend
    cases hi.symm.trans hsend₁

/-- The call `i` copies nothing at or beyond its `msg_size`. -/
def Fits (n : Nat) (t : Traced) (i : Nat) : Prop := (n : Int) ≤ t.sizes i ∨ t.found i = false

theorem not_fits (h : ¬ t.Fits n i) : t.sizes i < n ∧ t.found i = true :=
  ⟨not_le.1 fun hle => h (.inl hle), Bool.not_eq_false _ ▸ fun hf => h (.inr hf)⟩

/-- Other bytes at one offset, with a byte there that is not `x`. -/
theorem exists_set_ne {xs : List UInt8} {k : Nat} (hk : k < xs.length) (x : Option UInt8) :
    ∃ ys : List UInt8, ys.length = xs.length ∧ (∀ j, j ≠ k → ys[j]? = xs[j]?) ∧ ys[k]? ≠ x := by
  obtain ⟨b, hb⟩ : ∃ b : UInt8, some b ≠ x := by
    by_cases h : x = some 0
    · exact ⟨1, by rw [h]; decide⟩
    · exact ⟨0, fun he => h he.symm⟩
  refine ⟨xs.set k b, List.length_set, fun j hj => List.getElem?_set_ne hj.symm, ?_⟩
  rw [List.getElem?_set_self hk]
  exact hb

theorem writesBelow_of_fits {ls : List Label} (hr : run ls (Traced.init q) = some t) {pc : RecvPc}
    {timeoutMs : Int} (hi : t.mq.calls i = .recv pc timeoutMs msg) (hfits : t.Fits q.msgSize i) :
    WritesBelow q ls (t.lent i) i (t.sizes i) := by
  intro m hm
  obtain ⟨t₁, m', hr₁, hi₁, hlent, -⟩ := twin_of_recv hr hi hm
  refine ⟨t₁.mq, pc, timeoutMs, m', mq_run hr₁, hi₁, fun k hk => ?_⟩
  have hkept := ((Inv.init q).run hr₁).kept i
  rw [hi₁, hlent] at hkept
  obtain ⟨-, hmsg, hbeyond, -⟩ := hkept
  rcases hfits with hsize | hfound
  · exact hbeyond k (by omega)
  · rw [((Inv.init q).run hr).found i, hi] at hfound
    rw [hmsg hfound]

theorem fits_of_writesBelow {ls : List Label} (hr : run ls (Traced.init q) = some t)
    (hpos : 0 < q.msgSize) {ret timeoutMs : Int}
    (hi : t.mq.calls i = .recv (.returned ret) timeoutMs msg)
    (hw : WritesBelow q ls (t.lent i) i (t.sizes i)) : t.Fits q.msgSize i := by
  by_contra hnot
  obtain ⟨hsize, hfound⟩ := not_fits hnot
  have hinv := (Inv.init q).run hr
  have hret : ret = OSAL_API_OK := by
    rw [hinv.found i, hi] at hfound
    exact of_decide_eq_true hfound
  subst hret
  have hkept := hinv.kept i
  rw [hi] at hkept
  obtain ⟨hlen, -, -, hroom⟩ := hkept
  have hk : (t.sizes i).toNat < q.msgSize := by omega
  have hroom := hroom.resolve_left nofun
  obtain ⟨m, hm, -, hne⟩ := exists_set_ne (hk.trans_le hroom) msg[(t.sizes i).toNat]?
  obtain ⟨s, pc', timeoutMs', m', hs, hsi, hbeyond⟩ := hw m hm
  obtain ⟨t₁, m₁, hr₁, hi₁, -, hcopied⟩ := twin_of_recv hr hi hm
  cases (mq_run hr₁).symm.trans hs
  cases hi₁.symm.trans hsi
  -- the byte was overwritten by that of the message, whatever it was
  have hk' : (t.sizes i).toNat < t.mq.sh.rawQueue.msgSize := hinv.msgSize.symm ▸ hk
  have hover := hcopied (t.sizes i).toNat hk'
  exact hne ((hbeyond _ (by omega)).symm.trans hover)

theorem readsBelow_of_fits {ls : List Label} (hr : run ls (Traced.init q) = some t)
    (hfits : t.Fits q.msgSize i) : ReadsBelow q ls (t.lent i) i (t.sizes i) := by
  intro m hm hagree ls₁ hpre
  obtain ⟨s, hs, hlater⟩ := run_isPrefix hr hpre
  have hlen : s.mq.calls i ≠ .idle → m.length = (s.lent i).length := fun hne => by
    rw [← (hlater hne).lent]
    exact hm
  rcases run_twin hs hlen with ⟨s₁, hs₁, htwin⟩ | ⟨ls₂, u, u₁, hpre₂, hu, -, hdiff⟩
  · rw [mq_run hs, mq_run hs₁]
    exact congrArg some htwin.hide
  · obtain ⟨u', hu', hlater'⟩ := run_isPrefix hr (hpre₂.trans hpre)
    cases hu.symm.trans hu'
    obtain ⟨pc, hsend⟩ := hdiff.sent
    have hl := hlater' (by rw [hsend]; exact nofun)
    obtain ⟨k, hk, hne⟩ := hdiff.byte
    rcases hfits with hsize | hfound
    · rw [← hl.lent] at hne
      exact absurd (hagree k (by omega)) hne
    · rw [hl.found hdiff.found] at hfound
      cases hfound

theorem fits_of_readsBelow {ls : List Label} (hr : run ls (Traced.init q) = some t)
    (hpos : 0 < q.msgSize) {ret : Int} (hi : t.mq.calls i = .send (.returned ret) msg)
    (hreads : ReadsBelow q ls (t.lent i) i (t.sizes i)) : t.Fits q.msgSize i := by
  by_contra hnot
  obtain ⟨hsize, hfound⟩ := not_fits hnot
  have hinv := (Inv.init q).run hr
  have hret : ret = OSAL_API_OK := by
    rw [hinv.found i, hi] at hfound
    exact of_decide_eq_true hfound
  subst hret
  have hkept := hinv.kept i
  rw [hi] at hkept
  obtain ⟨rfl, hroom⟩ := hkept
  have hk : (t.sizes i).toNat < q.msgSize := by omega
  have hroom := hroom.resolve_left nofun
  obtain ⟨m, hm, hsame, hne⟩ := exists_set_ne (hk.trans_le hroom) (t.lent i)[(t.sizes i).toNat]?
  rcases run_twin hr fun _ => hm with ⟨t₁, hr₁, htwin⟩ | ⟨ls₁, s, s₁, hpre, hs, hs₁, hdiff⟩
  · have hself := htwin.self
    rw [hi] at hself
    generalize hi₁ : t₁.mq.calls i = c₁ at hself
    cases hself with
    | send pc hlen hcopied =>
      have hkept₁ := ((Inv.init q).run hr₁).kept i
      rw [hi₁, htwin.lent (by rw [hi]; exact nofun)] at hkept₁
      obtain ⟨rfl, -⟩ := hkept₁
      have hk' : (t.sizes i).toNat < t.mq.sh.rawQueue.msgSize := hinv.msgSize.symm ▸ hk
      exact hne (hcopied _ hk')
  · have hhide := hreads m hm (fun k hlt => hsame k (by omega)) ls₁ hpre
    rw [mq_run hs, mq_run hs₁] at hhide
    exact hdiff.rawQueue (congrArg (fun s => s.sh.rawQueue) (Option.some.inj hhide))

end Traced

/-- **The caller's buffer**, in any interleaving on a mq of any sizes: a call whose `msg_size` is at
least the queue's, or that has found no room or no message, touches nothing at or beyond `msg_size`;
and only such a call does, once it has returned. -/
theorem Traced.within {msgSize msgMax : Nat} {ok : Bool} {q : LockFreeQueue}
    (hq : osalLockFreeQueueInit msgSize msgMax ok = some q) {ls : List Label} {t : Traced}
    (hr : Traced.run ls (Traced.init q) = some t) (i : Nat) :
    (∀ pc timeoutMs msg, t.mq.calls i = .recv pc timeoutMs msg →
      (t.Fits msgSize i → WritesBelow q ls (t.lent i) i (t.sizes i)) ∧
      ∀ ret, pc = .returned ret → WritesBelow q ls (t.lent i) i (t.sizes i) → t.Fits msgSize i) ∧
    ∀ pc msg, t.mq.calls i = .send pc msg →
      (t.Fits msgSize i → ReadsBelow q ls (t.lent i) i (t.sizes i)) ∧
      ∀ ret, pc = .returned ret → ReadsBelow q ls (t.lent i) i (t.sizes i) → t.Fits msgSize i := by
  obtain ⟨rfl, hpos⟩ : q.msgSize = msgSize ∧ 0 < q.msgSize := by
    unfold osalLockFreeQueueInit at hq
    split_ifs at hq with hzero
    cases hq
    exact ⟨rfl, Nat.pos_of_ne_zero fun h => hzero (.inl h)⟩
  refine ⟨fun pc timeoutMs msg hi => ⟨Traced.writesBelow_of_fits hr hi, ?_⟩,
    fun pc msg hi => ⟨Traced.readsBelow_of_fits hr, ?_⟩⟩
  · rintro ret rfl
    exact Traced.fits_of_writesBelow hr hpos hi
  · rintro ret rfl
    exact Traced.fits_of_readsBelow hr hpos hi

/-- A message of two bytes is sent from three bytes. -/
def sendTwo : List Label :=
  .send 0 (some [7, 8, 9]) 2 :: List.replicate 9 (.call 0 none)

/-- The message is received into three bytes, and a second call finds the queue empty. -/
def recvTwo : List Label :=
  .recv 1 (some [0, 0, 5]) 2 0 :: List.replicate 6 (.call 1 none) ++
    .recv 2 (some [3, 4]) 1 0 :: List.replicate 3 (.call 2 none)

theorem Traced.within_two : ∃ q t, osalLockFreeQueueInit 2 2 true = some q ∧
    Traced.run (sendTwo ++ recvTwo) (Traced.init q) = some t ∧
    t.mq.calls 0 = .send (.returned OSAL_API_OK) [7, 8, 9] ∧
    ReadsBelow q (sendTwo ++ recvTwo) [7, 8, 9] 0 2 ∧
    t.mq.calls 1 = .recv (.returned OSAL_API_OK) 0 [7, 8, 5] ∧
    WritesBelow q (sendTwo ++ recvTwo) [0, 0, 5] 1 2 ∧
    t.mq.calls 2 = .recv (.returned OSAL_API_TIMEDOUT) 0 [3, 4] ∧
    WritesBelow q (sendTwo ++ recvTwo) [3, 4] 2 1 := by
  obtain ⟨q, t, hq, ht, h₀, h₁, h₂, hf₂, hs₀, hs₁, hs₂, hl₀, hl₁, hl₂⟩ :
      ∃ q t, osalLockFreeQueueInit 2 2 true = some q ∧
      Traced.run (sendTwo ++ recvTwo) (Traced.init q) = some t ∧
      t.mq.calls 0 = .send (.returned OSAL_API_OK) [7, 8, 9] ∧
      t.mq.calls 1 = .recv (.returned OSAL_API_OK) 0 [7, 8, 5] ∧
      t.mq.calls 2 = .recv (.returned OSAL_API_TIMEDOUT) 0 [3, 4] ∧ t.found 2 = false ∧
      t.sizes 0 = 2 ∧ t.sizes 1 = 2 ∧ t.sizes 2 = 1 ∧
      t.lent 0 = [7, 8, 9] ∧ t.lent 1 = [0, 0, 5] ∧ t.lent 2 = [3, 4] :=
    ⟨_, _, rfl, rfl, rfl, rfl, rfl, rfl, rfl, rfl, rfl, rfl, rfl, rfl⟩
  have hreads := ((Traced.within hq ht 0).2 _ _ h₀).1 (.inl (by rw [hs₀]; rfl))
  have hwrites₁ := ((Traced.within hq ht 1).1 _ _ _ h₁).1 (.inl (by rw [hs₁]; rfl))
  have hwrites₂ := ((Traced.within hq ht 2).1 _ _ _ h₂).1 (.inr hf₂)
  rw [hl₀, hs₀] at hreads
  rw [hl₁, hs₁] at hwrites₁
  rw [hl₂, hs₂] at hwrites₂
  exact ⟨q, t, hq, ht, h₀, hreads, h₁, hwrites₁, h₂, hwrites₂⟩

/-- A receive of a two-byte message with a buffer of one byte: the byte behind the buffer is
overwritten. -/
def recvOne : List Label :=
  .recv 1 (some [0, 0]) 1 0 :: List.replicate 6 (.call 1 none)

theorem recv_overrun : ∃ q s, osalLockFreeQueueInit 2 2 true = some q ∧
    Mq.run (sendTwo ++ recvOne) (Mq.init q) = some s ∧
    s.calls 1 = .recv (.returned OSAL_API_OK) 0 [7, 8] ∧
    ¬ WritesBelow q (sendTwo ++ recvOne) [0, 0] 1 1 := by
  obtain ⟨q, s, hq, hs, hi, hlend⟩ : ∃ q s, osalLockFreeQueueInit 2 2 true = some q ∧
      Mq.run (sendTwo ++ recvOne) (Mq.init q) = some s ∧
      s.calls 1 = .recv (.returned OSAL_API_OK) 0 [7, 8] ∧
      (sendTwo ++ recvOne).map (Label.lend 1 [0, 0]) = sendTwo ++ recvOne :=
    ⟨_, _, rfl, rfl, rfl, by decide⟩
  refine ⟨q, s, hq, hs, hi, fun h => ?_⟩
  obtain ⟨s', pc, timeoutMs, m', hs', hi', hbeyond⟩ := h [0, 0] rfl
  rw [hlend] at hs'
  cases hs.symm.trans hs'
  cases hi.symm.trans hi'
  exact absurd (hbeyond 1 (by decide)) (by decide)

end FwkMlib.Osal
