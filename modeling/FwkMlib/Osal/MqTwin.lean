import FwkMlib.Osal.MqLocks

/-!
# One call on two buffers

The same call is made with two buffers of one length. As long as the bytes it has copied so far agree
(`SendPc.copied`, `RecvPc.copied`), both go on alike.

* `LockFreeQueue.copyIn_twin`, `copyOut_twin` : one copy from or to the caller's buffer;
* `sendStep_twin` : a step of a send does the same on both, unless it copies bytes that differ: then
  the memory of the queue differs;
* `recvStep_twin` : a step of a receive does the same on both, and the bytes it copies agree.
-/

namespace FwkMlib.Osal
open FwkMlib.Lib

theorem take_eq_take_iff {α : Type} {n : Nat} {xs ys : List α} :
    xs.take n = ys.take n ↔ ∀ k < n, xs[k]? = ys[k]? := by
  constructor
  · intro h k hk
    have := congrArg (·[k]?) h
    simpa [List.getElem?_take_of_lt hk] using this
  · intro h
    apply List.ext_getElem?
    intro k
    rw [List.getElem?_take, List.getElem?_take]
    split_ifs with hk
    · exact h k hk
    · rfl

namespace LockFreeQueue

variable {q q' : LockFreeQueue} {pos off n : Nat} {msg msg₁ msg' : List UInt8}

theorem copyLen_le (q : LockFreeQueue) (pos : Nat) : q.copyLen pos ≤ q.msgSize := by
  unfold copyLen
  dsimp only
  split_ifs with h
  · exact h.le
  · exact le_rfl

theorem copyLen_congr (hs : q'.msgSize = q.msgSize) (ht : q'.totalSize = q.totalSize) (pos : Nat) :
    q'.copyLen pos = q.copyLen pos := by
  unfold copyLen
  rw [hs, ht]

/-- `memcpy` to the ring reads the bytes it is given, every one of them. -/
theorem copyIn_twin (hlen : msg₁.length = msg.length) (h : q.copyIn pos msg n = some q') :
    ∃ q₁, q.copyIn pos msg₁ n = some q₁ ∧ (q₁ = q' ↔ ∀ k < n, msg₁[k]? = msg[k]?) := by
  unfold copyIn at h ⊢
  split_ifs at h with hok
  obtain rfl := Option.some.inj h
  refine ⟨_, if_pos (hlen.symm ▸ hok), ?_⟩
  rw [← take_eq_take_iff]
  have hread (xs : List UInt8) (hxs : xs.length = msg.length) :
      readBytes (writeBytes q.buffer pos (xs.take n)) pos n = xs.take n := by
    have hl : (xs.take n).length = n := by rw [List.length_take, hxs]; omega
    have := readBytes_writeBytes q.buffer pos (xs.take n)
    rwa [hl] at this
  constructor
  · intro he
    have hbuf := congrArg LockFreeQueue.buffer he
    rw [← hread msg₁ hlen, ← hread msg rfl]
    exact congrArg (readBytes · pos n) hbuf
  · intro he
    rw [he]

theorem pushCopy₁_twin (hlen : msg₁.length = msg.length) (h : q.pushCopy₁ msg = some q') :
    ∃ q₁, q.pushCopy₁ msg₁ = some q₁ ∧
      (q₁ = q' ↔ ∀ k < q.copyLen q.write, msg₁[k]? = msg[k]?) :=
  copyIn_twin hlen h

theorem pushCopy₂_twin (hlen : msg₁.length = msg.length) (h : q.pushCopy₂ msg = some q') :
    ∃ q₁, q.pushCopy₂ msg₁ = some q₁ ∧
      (q₁ = q' ↔ ∀ k, q.copyLen q.write ≤ k → k < q.msgSize → msg₁[k]? = msg[k]?) := by
  unfold pushCopy₂ at h ⊢
  dsimp only at h ⊢
  split_ifs at h ⊢ with hrest
  · have hdrop : (msg₁.drop (q.copyLen q.write)).length = (msg.drop (q.copyLen q.write)).length := by
      rw [List.length_drop, List.length_drop, hlen]
    obtain ⟨q₁, hq₁, hiff⟩ := copyIn_twin hdrop h
    refine ⟨q₁, hq₁, hiff.trans ⟨fun hk k hle hlt => ?_, fun hk k hlt => ?_⟩⟩
    · have := hk (k - q.copyLen q.write) (by omega)
      rwa [List.getElem?_drop, List.getElem?_drop, Nat.add_sub_cancel' hle] at this
    · rw [List.getElem?_drop, List.getElem?_drop]
      exact hk _ (by omega) (by omega)
  · cases h
    exact ⟨q, rfl, iff_of_true rfl fun k hle hlt => by omega⟩

theorem length_copyOut (h : q.copyOut pos msg off n = some msg') : msg'.length = msg.length := by
  unfold copyOut at h
  split_ifs at h with hok
  obtain rfl := Option.some.inj h
  simp only [List.length_append, List.length_take, List.length_drop, length_readBytes]
  omega

/-- `memcpy` from the ring writes the `n` bytes from `off` on. -/
theorem copyOut_frame {k : Nat} (h : q.copyOut pos msg off n = some msg')
    (hk : k < off ∨ off + n ≤ k) : msg'[k]? = msg[k]? := by
  unfold copyOut at h
  split_ifs at h with hok
  obtain rfl := Option.some.inj h
  have htake : (msg.take off).length = off := List.length_take_of_le (by omega)
  have hmid : (msg.take off ++ readBytes q.buffer pos n).length = off + n := by
    rw [List.length_append, htake, length_readBytes]
  rcases hk with hk | hk
  · rw [List.getElem?_append_left (by omega), List.getElem?_append_left (by omega),
      List.getElem?_take_of_lt hk]
  · rw [List.getElem?_append_right (by omega), hmid, List.getElem?_drop]
    congr 1
    omega

/-- `memcpy` from the ring overwrites those bytes whatever they were. -/
theorem copyOut_twin (hlen : msg₁.length = msg.length)
    (hagree : ∀ k < off, msg₁[k]? = msg[k]?) (h : q.copyOut pos msg off n = some msg') :
    ∃ msg₁', q.copyOut pos msg₁ off n = some msg₁' ∧ msg₁'.length = msg'.length ∧
      ∀ k < off + n, msg₁'[k]? = msg'[k]? := by
  have hl := length_copyOut h
  unfold copyOut at h ⊢
  split_ifs at h with hok
  obtain rfl := Option.some.inj h
  refine ⟨_, if_pos (hlen.symm ▸ hok), ?_, fun k hk => ?_⟩
  · rw [hl]
    simp only [List.length_append, List.length_take, List.length_drop, length_readBytes]
    omega
  · have hcut (xs : List UInt8) (hxs : xs.length = msg.length) :
        (xs.take off ++ readBytes q.buffer pos n ++ xs.drop (off + n))[k]? =
          (xs.take off ++ readBytes q.buffer pos n)[k]? := by
      apply List.getElem?_append_left
      rw [List.length_append, List.length_take, length_readBytes, hxs]
      omega
    rw [hcut msg₁ hlen, hcut msg rfl, take_eq_take_iff.2 hagree]

theorem popCopy₁_twin (hlen : msg₁.length = msg.length) (h : q.popCopy₁ msg = some msg') :
    ∃ msg₁', q.popCopy₁ msg₁ = some msg₁' ∧ msg₁'.length = msg'.length ∧
      ∀ k < q.copyLen q.read, msg₁'[k]? = msg'[k]? := by
  have := copyOut_twin hlen (fun k hk => absurd hk (Nat.not_lt_zero k)) h
  rwa [Nat.zero_add] at this

theorem popCopy₂_twin (hlen : msg₁.length = msg.length)
    (hagree : ∀ k < q.copyLen q.read, msg₁[k]? = msg[k]?) (h : q.popCopy₂ msg = some msg') :
    ∃ msg₁', q.popCopy₂ msg₁ = some msg₁' ∧ msg₁'.length = msg'.length ∧
      ∀ k < q.msgSize, msg₁'[k]? = msg'[k]? := by
  unfold popCopy₂ at h ⊢
  dsimp only at h ⊢
  split_ifs at h ⊢ with hrest
  · have := copyOut_twin hlen hagree h
    rwa [Nat.add_sub_cancel' (q.copyLen_le q.read)] at this
  · cases h
    exact ⟨msg₁, rfl, hlen, fun k hk => hagree k (by omega)⟩

theorem length_popCopy₁ (h : q.popCopy₁ msg = some msg') : msg'.length = msg.length :=
  length_copyOut h

theorem length_popCopy₂ (h : q.popCopy₂ msg = some msg') : msg'.length = msg.length := by
  unfold popCopy₂ at h
  dsimp only at h
  split_ifs at h
  · exact length_copyOut h
  · rw [Option.some.inj h]

/-- A pop leaves the bytes behind a message of the queue. -/
theorem popCopy₁_frame {k : Nat} (h : q.popCopy₁ msg = some msg') (hk : q.msgSize ≤ k) :
    msg'[k]? = msg[k]? :=
  copyOut_frame h (.inr (by have := q.copyLen_le q.read; omega))

theorem popCopy₂_frame {k : Nat} (h : q.popCopy₂ msg = some msg') (hk : q.msgSize ≤ k) :
    msg'[k]? = msg[k]? := by
  unfold popCopy₂ at h
  dsimp only at h
  split_ifs at h
  · exact copyOut_frame h (.inr (by omega))
  · rw [Option.some.inj h]

end LockFreeQueue

/-! ## The bytes copied so far -/

/-- How many bytes of its buffer a send has read. -/
def SendPc.copied (q : LockFreeQueue) : SendPc → Nat
  | .lockW | .testFull | .copy₁ | .unlockFail => 0
  | .copy₂ => q.copyLen q.write
  | .advance | .unlockW | .lockR | .signal | .unlockR => q.msgSize
  | .returned ret => if ret = OSAL_API_OK then q.msgSize else 0

/-- How many bytes of its buffer a receive has written. -/
def RecvPc.copied (q : LockFreeQueue) : RecvPc → Nat
  | .lockR | .testEmpty | .copy₁ | .wait | .blocked | .relock _ | .checkExit => 0
  | .copy₂ => q.copyLen q.read
  | .advance => q.msgSize
  | .unlockR ret | .returned ret => if ret = OSAL_API_OK then q.msgSize else 0

def SendPc.found : SendPc → Bool
  | .copy₁ | .copy₂ | .advance | .unlockW | .lockR | .signal | .unlockR => true
  | .returned ret => decide (ret = OSAL_API_OK)
  | .lockW | .testFull | .unlockFail => false

def RecvPc.found : RecvPc → Bool
  | .copy₁ | .copy₂ | .advance => true
  | .unlockR ret | .returned ret => decide (ret = OSAL_API_OK)
  | .lockR | .testEmpty | .wait | .blocked | .relock _ | .checkExit => false

variable {sh sh' : MqShared} {i : Nat} {msg msg₁ msg' : List UInt8}

theorem sendStep_twin {pc pc' : SendPc} {choice : Option Nat} {woken : List Nat}
    (hlen : msg₁.length = msg.length) (hcopied : ∀ k < pc.copied sh.rawQueue, msg₁[k]? = msg[k]?)
    (h : sendStep sh i choice msg pc = some (sh', pc', woken)) :
    ∃ sh₁, sendStep sh i choice msg₁ pc = some (sh₁, pc', woken) ∧
      (sh₁ = sh' ∧ (∀ k < pc'.copied sh'.rawQueue, msg₁[k]? = msg[k]?) ∨
        sh₁.rawQueue ≠ sh'.rawQueue ∧ pc'.found = true ∧
          ∃ k < sh.rawQueue.msgSize, msg₁[k]? ≠ msg[k]?) := by
  cases sendStep_cases h with
  | lockW hfree | full hfull | room hfull | unlockFail => exact ⟨_, h, .inl ⟨rfl, nofun⟩⟩
  | unlockW | lockR hfree | nobody hcond | signal hj | unlockR =>
    exact ⟨_, h, .inl ⟨rfl, hcopied⟩⟩
  | @copy₁ queue hcopy =>
    obtain ⟨q₁, hq₁, hiff⟩ := LockFreeQueue.pushCopy₁_twin hlen hcopy
    obtain ⟨buf, rfl⟩ := LockFreeQueue.pushCopy₁_buffer hcopy
    refine ⟨{ sh with rawQueue := q₁ }, by simp [sendStep, hq₁], ?_⟩
    by_cases hagree : ∀ k < sh.rawQueue.copyLen sh.rawQueue.write, msg₁[k]? = msg[k]?
    · exact .inl ⟨by rw [hiff.2 hagree], hagree⟩
    · refine .inr ⟨fun he => hagree (hiff.1 he), rfl, ?_⟩
      push Not at hagree
      obtain ⟨k, hk, hne⟩ := hagree
      exact ⟨k, Nat.lt_of_lt_of_le hk (sh.rawQueue.copyLen_le _), hne⟩
  | @copy₂ queue hcopy =>
    obtain ⟨q₁, hq₁, hiff⟩ := LockFreeQueue.pushCopy₂_twin hlen hcopy
    obtain ⟨buf, rfl⟩ := LockFreeQueue.pushCopy₂_buffer hcopy
    refine ⟨{ sh with rawQueue := q₁ }, by simp [sendStep, hq₁], ?_⟩
    by_cases hagree : ∀ k, sh.rawQueue.copyLen sh.rawQueue.write ≤ k → k < sh.rawQueue.msgSize →
        msg₁[k]? = msg[k]?
    · refine .inl ⟨by rw [hiff.2 hagree], fun k hk => ?_⟩
      by_cases hlt : k < sh.rawQueue.copyLen sh.rawQueue.write
      · exact hcopied k hlt
      · exact hagree k (by omega) hk
    · refine .inr ⟨fun he => hagree (hiff.1 he), rfl, ?_⟩
      push Not at hagree
      obtain ⟨k, -, hk, hne⟩ := hagree
      exact ⟨k, hk, hne⟩
  | advance hadv =>
    obtain ⟨write, hwrite, hq⟩ := Option.bind_eq_some_iff.1 hadv
    cases hq
    have htake : msg₁.take sh.rawQueue.msgSize = msg.take sh.rawQueue.msgSize :=
      take_eq_take_iff.2 hcopied
    exact ⟨_, by simp [sendStep, hadv, htake], .inl ⟨rfl, hcopied⟩⟩

theorem recvStep_twin {pc pc' : RecvPc} {timeoutMs : Int} (hlen : msg₁.length = msg.length)
    (hcopied : ∀ k < pc.copied sh.rawQueue, msg₁[k]? = msg[k]?)
    (h : recvStep sh i timeoutMs msg pc = some (sh', pc', msg')) :
    ∃ msg₁', recvStep sh i timeoutMs msg₁ pc = some (sh', pc', msg₁') ∧
      msg₁'.length = msg'.length ∧ ∀ k < pc'.copied sh'.rawQueue, msg₁'[k]? = msg'[k]? := by
  cases recvStep_cases h with
  | lockR hfree => exact ⟨msg₁, by simp [recvStep, hfree], hlen, nofun⟩
  | noWait hempty h0 | mustWait hempty h0 =>
    exact ⟨msg₁, by simp [recvStep, hempty, h0], hlen, nofun⟩
  | found hempty => exact ⟨msg₁, by simp [recvStep, hempty], hlen, nofun⟩
  | copy₁ hcopy =>
    obtain ⟨msg₁', hcopy₁, hlen', hagree⟩ := LockFreeQueue.popCopy₁_twin hlen hcopy
    exact ⟨msg₁', by simp [recvStep, hcopy₁], hlen', hagree⟩
  | copy₂ hcopy =>
    obtain ⟨msg₁', hcopy₁, hlen', hagree⟩ := LockFreeQueue.popCopy₂_twin hlen hcopied hcopy
    exact ⟨msg₁', by simp [recvStep, hcopy₁], hlen', hagree⟩
  | advance hadv =>
    obtain ⟨read, hread, hq⟩ := Option.bind_eq_some_iff.1 hadv
    cases hq
    have htake : msg₁.take sh.rawQueue.msgSize = msg.take sh.rawQueue.msgSize :=
      take_eq_take_iff.2 hcopied
    exact ⟨msg₁, by simp [recvStep, hadv, htake], hlen, hcopied⟩
  | wait => exact ⟨msg₁, rfl, hlen, nofun⟩
  | late hfree => exact ⟨msg₁, by simp [recvStep, hfree], hlen, nofun⟩
  | woken hfree hret => exact ⟨msg₁, by simp [recvStep, hfree, hret], hlen, nofun⟩
  | exit hexit | again hexit => exact ⟨msg₁, by simp [recvStep, hexit], hlen, nofun⟩
  | unlockR ret => exact ⟨msg₁, rfl, hlen, hcopied⟩

theorem SendPc.copied_congr {q q' : LockFreeQueue} {pc : SendPc} (hs : q'.msgSize = q.msgSize)
    (ht : q'.totalSize = q.totalSize) (hw : pc = .copy₂ → q'.write = q.write) :
    pc.copied q' = pc.copied q := by
  cases pc with
  | copy₂ => rw [copied, copied, hw rfl, LockFreeQueue.copyLen_congr hs ht]
  | _ => simp only [copied, hs]

theorem RecvPc.copied_congr {q q' : LockFreeQueue} {pc : RecvPc} (hs : q'.msgSize = q.msgSize)
    (ht : q'.totalSize = q.totalSize) (hr : pc = .copy₂ → q'.read = q.read) :
    pc.copied q' = pc.copied q := by
  cases pc with
  | copy₂ => rw [copied, copied, hr rfl, LockFreeQueue.copyLen_congr hs ht]
  | _ => simp only [copied, hs]

/-- The same call on two buffers, which agree in the bytes copied so far. -/
inductive Call.Twin (sh : MqShared) : Call → Call → Prop
  | idle : Twin sh .idle .idle
  | send (pc : SendPc) {msg msg₁ : List UInt8} (hlen : msg₁.length = msg.length)
      (hcopied : ∀ k < pc.copied sh.rawQueue, msg₁[k]? = msg[k]?) :
    Twin sh (.send pc msg) (.send pc msg₁)
  | recv (pc : RecvPc) (timeoutMs : Int) {msg msg₁ : List UInt8}
      (hlen : msg₁.length = msg.length)
      (hcopied : ∀ k < pc.copied sh.rawQueue, msg₁[k]? = msg[k]?) :
    Twin sh (.recv pc timeoutMs msg) (.recv pc timeoutMs msg₁)

variable {c c₁ : Call}

theorem Call.Twin.wake (h : c.Twin sh c₁) (ret : Int) : (c.wake ret).Twin sh (c₁.wake ret) := by
  cases h with
  | idle => exact .idle
  | send pc hlen hcopied => exact .send pc hlen hcopied
  | recv pc timeoutMs hlen hcopied =>
    cases pc with
    | blocked => exact .recv (.relock ret) timeoutMs hlen nofun
    | _ => exact .recv _ timeoutMs hlen hcopied

/-- Between its copies a call holds the mutex, so that the offset it copies at stays. -/
theorem Call.Twin.stable {p : Party} (h : c.Twin sh c₁) (ho : c.Owns sh i)
    (hg : Respects p sh sh') (hp : .call i ≠ p) : c.Twin sh' c₁ := by
  cases h with
  | idle => exact .idle
  | send pc hlen hcopied =>
    have hoffset : pc = .copy₂ → sh'.rawQueue.write = sh.rawQueue.write := by
      rintro rfl
      exact hg.write _ hp (ho.wMutex rfl)
    exact .send pc hlen (SendPc.copied_congr hg.msgSize hg.totalSize hoffset ▸ hcopied)
  | recv pc timeoutMs hlen hcopied =>
    have hoffset : pc = .copy₂ → sh'.rawQueue.read = sh.rawQueue.read := by
      rintro rfl
      exact hg.read _ hp (ho.rMutex rfl)
    exact .recv pc timeoutMs hlen (RecvPc.copied_congr hg.msgSize hg.totalSize hoffset ▸ hcopied)

end FwkMlib.Osal
