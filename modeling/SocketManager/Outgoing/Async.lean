import SocketManager.Outgoing.Closed
import SocketManager.Outgoing.Tick

/-! `send_async` and its wake-up. The call tests `is_closed`, pushes, registers the waker, and then
    tests and pushes once more before it gives up with `Pending`. Whatever the consumer does to the
    ring after the registration is followed by its wake (advance, then wake; drop, then wake), so the
    waker is `Armed`: it has been woken, or it is in the slot and either the ring is as the call last
    saw it or the very next step of the writer wakes it.

        send_async   is_closed  push  register  is_closed  push  Pending
        consumer                                         drop          wake

    In this run the call returns `Pending` on a ring that is closed already and a waker that is not
    woken yet; the wake comes with the next step of the consumer. -/

namespace SocketManager.Outgoing
variable {R : RingBuffer UInt8} {config : ConnConfig} {s s' : State R} {b : Nat}

/-! ### What the writer does to a ring and its waker -/

/-- The ring whose producer the writer wakes with its next step. -/
def WriterPc.wakes : WriterPc → Option Nat
  | .wake ring _ | .ringDropped ring | .unwindWake ring _ => some ring
  | _ => none

/-- What a move of the writer means for one ring: it is as before; it was drained or dropped, with
    its waker in place and the wake to follow; or its waker was called. -/
inductive RingEffect (s s' : State R) (b : Nat) : Prop where
  | kept (hring : s'.rings b = s.rings b) (hwoken : s.woken <+: s'.woken)
      (hnext : s.writer.wakes ≠ some b)
  | touched (hwaker : (s'.rings b).waker = (s.rings b).waker) (hwoken : s'.woken = s.woken)
      (hnext : s'.writer.wakes = some b)
  | woken (hwoken : s'.woken = s.woken ++ (s.rings b).waker.toList)
      (hwaker : (s'.rings b).waker = none)

theorem RingEffect.woken_isPrefix (h : RingEffect s s' b) : s.woken <+: s'.woken := by
  cases h with
  | kept _ hwoken => exact hwoken
  | touched _ hwoken => rw [hwoken]
  | woken hwoken => rw [hwoken]; exact List.prefix_append _ _

theorem RingEffect.of_rings (hrings : s'.rings = s.rings) (hwoken : s'.woken = s.woken)
    (hnext : s.writer.wakes = none) : RingEffect s s' b :=
  .kept (by rw [hrings]) (by rw [hwoken]) (by rw [hnext]; simp)

/-- A ring is changed, and its wake follows. -/
theorem RingEffect.of_update {j : Nat} {r : Ring R} (hrings : s'.rings = Function.update s.rings j r)
    (hwaker : r.waker = (s.rings j).waker) (hwoken : s'.woken = s.woken)
    (hnow : s.writer.wakes = none) (hnext : s'.writer.wakes = some j) : RingEffect s s' b := by
  rcases eq_or_ne b j with rfl | hbj
  · refine .touched ?_ hwoken hnext
    rw [hrings, Function.update_self, hwaker]
  · refine .kept ?_ (by rw [hwoken]) (by rw [hnow]; simp)
    rw [hrings, Function.update_of_ne hbj]

theorem RingEffect.of_wakeRing {j : Nat} {w : WriterPc} (hnow : s.writer.wakes = some j) :
    RingEffect s ((s.wakeRing j).writerAt w) b := by
  rcases eq_or_ne b j with rfl | hbj
  · refine .woken rfl ?_
    show ((s.wakeRing b).rings b).waker = none
    rw [State.wakeRing, State.updRing_self]
  · have hring : (s.wakeRing j).rings b = s.rings b := State.updRing_of_ne hbj
    refine .kept hring (List.prefix_append _ _) ?_
    rw [hnow]
    exact fun h => hbj (Option.some.inj h).symm

theorem writerMove_effect (hm : WriterMove config s s') : RingEffect s s' b := by
  cases hm with
  | @flushed ring k hw _ =>
    cases k with
    | closed => exact .of_update rfl rfl rfl (by rw [hw]; rfl) rfl
    | tick => exact .of_rings rfl rfl (by rw [hw]; rfl)
    | occupied => exact .of_rings rfl rfl (by rw [hw]; rfl)
  | advance hw => exact .of_update rfl rfl rfl (by rw [hw]; rfl) rfl
  | unwindRing hw => exact .of_update rfl rfl rfl (by rw [hw]; rfl) rfl
  | unwindQueue hw _ _ => exact .of_update rfl rfl rfl (by rw [hw]; rfl) rfl
  | wake hw => exact .of_wakeRing (by rw [hw]; rfl)
  | ringDropped hw => exact .of_wakeRing (by rw [hw]; rfl)
  | unwindWake hw => exact .of_wakeRing (by rw [hw]; rfl)
  | abort hw =>
    refine .of_rings rfl rfl ?_
    cases hsw : s.writer <;> first | rfl | (rw [hsw] at hw; cases hw)
  | recv hw | finish hw | ready hw | readyNoFlush hw | closed hw | measure hw | drain hw | below hw
  | enough hw | tick hw | write hw | wrote hw | writeFails hw | shutdownOk hw | shutdownFails hw
  | unwindRx hw | returned hw => exact .of_rings rfl rfl (by rw [hw]; rfl)

theorem writerMove_sender (hm : WriterMove config s s') :
    s'.sender = s.sender ∧ s'.calls = s.calls ∧ s'.ringBuf = s.ringBuf := by
  cases hm with
  | @flushed ring k hw _ => cases k <;> exact ⟨rfl, rfl, rfl⟩
  | _ => exact ⟨rfl, rfl, rfl⟩

/-! ### An armed waker -/

/-- `waker` was registered when `n` wake-ups had been delivered. It has been woken since, or it is in
    the slot of the sender's ring, and the ring meets `Q` unless the writer is about to wake it. -/
structure Armed (Q : Ring R → Prop) (s : State R) (waker : Waker) (n : Nat) : Prop where
  le : n ≤ s.woken.length
  armed : waker ∈ s.woken.drop n ∨ ((s.rings s.ringBuf).waker = some waker ∧
    (Q (s.rings s.ringBuf) ∨ s.writer.wakes = some s.ringBuf))

variable {Q : Ring R → Prop} {waker : Waker} {n : Nat}

theorem mem_drop_of_isPrefix {l l' : List Waker} (hmem : waker ∈ l.drop n) (h : l <+: l') :
    waker ∈ l'.drop n :=
  (h.drop n).subset hmem

/-- No move of the writer disarms a waker, whatever is said of the ring. -/
theorem Armed.writerMove (h : Armed Q s waker n) (hm : WriterMove config s s') :
    Armed Q s' waker n := by
  obtain ⟨-, -, hb⟩ := writerMove_sender hm
  have heff : RingEffect s s' s.ringBuf := writerMove_effect hm
  have hgrow : s.woken <+: s'.woken := heff.woken_isPrefix
  refine ⟨h.le.trans hgrow.length_le, ?_⟩
  rw [hb]
  rcases h.armed with hwoke | ⟨hslot, hcase⟩
  · exact .inl (mem_drop_of_isPrefix hwoke hgrow)
  · cases heff with
    | kept hring _ hnext =>
      right
      rw [hring]
      exact ⟨hslot, .inl (hcase.resolve_right hnext)⟩
    | touched hwaker _ hnext => exact .inr ⟨hwaker.trans hslot, .inr hnext⟩
    | woken hwoken _ =>
      left
      rw [hwoken, hslot, List.drop_append_of_le_length h.le]
      exact List.mem_append_right _ (by simp)

/-- A step of the sender that leaves the waker in its slot. -/
theorem Armed.senderMove {Q' : Ring R → Prop} (h : Armed Q s waker n) (hwoken : s'.woken = s.woken)
    (hwriter : s'.writer = s.writer) (hb : s'.ringBuf = s.ringBuf)
    (hslot : (s'.rings s.ringBuf).waker = (s.rings s.ringBuf).waker)
    (hQ : Q (s.rings s.ringBuf) → Q' (s'.rings s.ringBuf)) : Armed Q' s' waker n := by
  refine ⟨by rw [hwoken]; exact h.le, ?_⟩
  rw [hwoken, hwriter, hb, hslot]
  rcases h.armed with hwoke | ⟨hw, hcase⟩
  · exact .inl hwoke
  · exact .inr ⟨hw, hcase.imp_left hQ⟩

/-! ### One call, recorded -/

/-- A state during one call, with what the call has done: the bytes it pushed, and how many wake-ups
    had been delivered when it registered its waker. -/
structure Trace (R : RingBuffer UInt8) where
  state : State R
  pushed : List UInt8
  registeredAt : Option Nat

/-- What a step added at the end of the sender's ring. -/
def pushedBy (s s' : State R) : List UInt8 :=
  (s'.rings s.ringBuf).occ.drop (s.rings s.ringBuf).occ.length

/-- A step, recorded. Only the call itself pushes and registers. -/
def Trace.step (config : ConnConfig) (t : Trace R) (a : Act) : Option (Trace R) :=
  (Outgoing.step config t.state a).map fun s =>
    if a = .sender then
      { state := s
        pushed := t.pushed ++ pushedBy t.state s
        registeredAt := match t.state.sender with
          | .registerWaker _ _ => some t.state.woken.length
          | _ => t.registeredAt }
    else { t with state := s }

/-- The call of `send_async` from a state of the outgoing side. -/
def sendAsync (config : ConnConfig) (s : State R) (bytes : List UInt8) (waker : Waker) :
    Machine (Trace R) Act :=
  ⟨⟨startCall s (.sendAsync bytes waker), [], none⟩, Trace.step config⟩

/-- A step of the call in progress or of the consumer. -/
def InCall (t : Trace R) (a : Act) : Prop :=
  t.state.sender ≠ .idle ∧ (a = .sender ∨ a.ofUser = false)

/-- A step of the consumer. -/
def OnlyWriter (_ : Trace R) (a : Act) : Prop := a.ofUser = false

/-- The waker was woken after its registration. -/
def Trace.Woken (t : Trace R) (waker : Waker) : Prop :=
  ∃ n, t.registeredAt = some n ∧ waker ∈ t.state.woken.drop n

variable {t u : Trace R} {bytes : List UInt8} {a : Act}

/-! ### The phases of the call -/

/-- What a returned call has done. -/
inductive Returned (bytes : List UInt8) (waker : Waker) (t : Trace R) (c : Call) : Prop where
  | ok {n : Nat} (hc : c.outcome = .okN n) (hle : n ≤ bytes.length) (hpos : bytes ≠ [] → 1 ≤ n)
      (hp : t.pushed = bytes.take n)
  | err {kind : ErrorKind} (hc : c.outcome = .err kind)
  | pending {n : Nat} (hc : c.outcome = .pending) (hp : t.pushed = [])
      (hreg : t.registeredAt = some n) (hfull : (t.state.rings t.state.ringBuf).vacant = 0)
      (harmed : Armed (·.consHeld = true) t.state waker n)

/-- Where the call is, what it has pushed, and from its registration on that the waker is armed; after
    the second test of `is_closed` also that the ring was still open. -/
inductive Phase (calls : List Call) (bytes : List UInt8) (waker : Waker) (t : Trace R) : Prop where
  | check (hs : t.state.sender = .checkClosed bytes waker false) (hc : t.state.calls = calls)
      (hp : t.pushed = []) (hne : bytes ≠ [])
  | burst {offset : Nat} (hs : t.state.sender = .burstWrite (.sendAsync bytes waker) offset false)
      (hc : t.state.calls = calls) (hp : t.pushed = bytes.take offset) (hlt : offset < bytes.length)
  | register (hs : t.state.sender = .registerWaker bytes waker) (hc : t.state.calls = calls)
      (hp : t.pushed = []) (hne : bytes ≠ [])
  | recheck {n : Nat} (hs : t.state.sender = .checkClosed bytes waker true)
      (hc : t.state.calls = calls) (hp : t.pushed = []) (hne : bytes ≠ [])
      (hreg : t.registeredAt = some n) (harmed : Armed (fun _ => True) t.state waker n)
  | reburst {n offset : Nat} (hs : t.state.sender = .burstWrite (.sendAsync bytes waker) offset true)
      (hc : t.state.calls = calls) (hp : t.pushed = bytes.take offset) (hlt : offset < bytes.length)
      (hreg : t.registeredAt = some n) (harmed : Armed (·.consHeld = true) t.state waker n)
  | returned {c : Call} (hs : t.state.sender = .idle) (hc : t.state.calls = calls ++ [c])
      (hret : Returned bytes waker t c)

variable {calls : List Call} {offset : Nat} {registered : Bool}

theorem phase_startCall :
    Phase s.calls bytes waker ⟨startCall s (.sendAsync bytes waker), [], none⟩ := by
  simp only [startCall]
  split
  · rename_i hnil
    exact .returned rfl rfl (.ok rfl (Nat.zero_le _) (fun hne => absurd hnil hne) (by simp))
  · rename_i hne
    exact .check rfl rfl rfl hne

/-- The consumer changes nothing that a phase says. -/
theorem Phase.writerMove (h : Phase calls bytes waker t) (hsd : t.state.sender ≠ .idle)
    (hm : WriterMove config t.state s') : Phase calls bytes waker { t with state := s' } := by
  obtain ⟨hsender, hcalls, -⟩ := writerMove_sender hm
  cases h with
  | check hs hc hp hne => exact .check (hsender.trans hs) (hcalls.trans hc) hp hne
  | burst hs hc hp hlt => exact .burst (hsender.trans hs) (hcalls.trans hc) hp hlt
  | register hs hc hp hne => exact .register (hsender.trans hs) (hcalls.trans hc) hp hne
  | recheck hs hc hp hne hreg harmed =>
    exact .recheck (hsender.trans hs) (hcalls.trans hc) hp hne hreg (harmed.writerMove hm)
  | reburst hs hc hp hlt hreg harmed =>
    exact .reburst (hsender.trans hs) (hcalls.trans hc) hp hlt hreg (harmed.writerMove hm)
  | returned hs hc hret => exact absurd hs hsd

/-- The sender's ring takes what fits of the rest of the message. -/
def pushRest (s : State R) (bytes : List UInt8) (offset : Nat) : State R :=
  s.updRing s.ringBuf (·.push (bytes.drop offset))

/-- How much of it fits. -/
def restCount (s : State R) (bytes : List UInt8) (offset : Nat) : Nat :=
  (s.rings s.ringBuf).pushCount (bytes.drop offset)

/-- The ways out of a round of `burst_write` in `send_async`. -/
inductive Round (s : State R) (bytes : List UInt8) (waker : Waker) (offset : Nat)
    (registered : Bool) : State R → Prop where
  | ok (hpos : 1 ≤ offset + restCount s bytes offset)
      (hle : offset + restCount s bytes offset ≤ bytes.length) :
      Round s bytes waker offset registered ((pushRest s bytes offset).ret (.sendAsync bytes waker)
        (.okN (offset + restCount s bytes offset)) (offset + restCount s bytes offset))
  | more (hlt : offset + restCount s bytes offset < bytes.length) :
      Round s bytes waker offset registered ((pushRest s bytes offset).senderAt
        (.burstWrite (.sendAsync bytes waker) (offset + restCount s bytes offset) registered))
  | pending (hzero : offset + restCount s bytes offset = 0) (hreg : registered = true) :
      Round s bytes waker offset registered
        ((pushRest s bytes offset).ret (.sendAsync bytes waker) .pending 0)
  | register (hzero : offset + restCount s bytes offset = 0) (hreg : registered = false) :
      Round s bytes waker offset registered
        ((pushRest s bytes offset).senderAt (.registerWaker bytes waker))

theorem burstWrite_sendAsync : burstWrite s (.sendAsync bytes waker) offset registered =
    if restCount s bytes offset = 0 then
      burstPending (pushRest s bytes offset) (.sendAsync bytes waker) offset registered
    else if offset + restCount s bytes offset = bytes.length then
      burstFinished (pushRest s bytes offset) (.sendAsync bytes waker)
        (offset + restCount s bytes offset)
    else (pushRest s bytes offset).senderAt
      (.burstWrite (.sendAsync bytes waker) (offset + restCount s bytes offset) registered) :=
  rfl

theorem burstWrite_round (hlt : offset < bytes.length) :
    Round s bytes waker offset registered (burstWrite s (.sendAsync bytes waker) offset registered) := by
  have hle : restCount s bytes offset ≤ (bytes.drop offset).length := Ring.pushCount_le _ _
  rw [List.length_drop] at hle
  rw [burstWrite_sendAsync]
  split
  · rename_i hn
    simp only [burstPending]
    split
    · have hround : Round s bytes waker offset registered _ := .ok (by omega) (by omega)
      rw [hn, Nat.add_zero] at hround
      exact hround
    · cases registered with
      | true => exact .pending (by omega) rfl
      | false => exact .register (by omega) rfl
  · split
    · exact .ok (by omega) (by omega)
    · exact .more (by omega)

/-! ### The steps of the call -/

theorem rings_pushRest (s : State R) (bytes : List UInt8) (offset : Nat) :
    (pushRest s bytes offset).rings s.ringBuf = (s.rings s.ringBuf).push (bytes.drop offset) :=
  State.updRing_self

/-- A round records what it pushed. -/
theorem pushedBy_pushRest (s : State R) (bytes : List UInt8) (offset : Nat) :
    pushedBy s (pushRest s bytes offset) = (bytes.drop offset).take (restCount s bytes offset) := by
  rw [pushedBy, rings_pushRest, Ring.occ_push, List.drop_left]
  rfl

theorem take_pushedBy (s : State R) (bytes : List UInt8) (offset : Nat) :
    bytes.take offset ++ pushedBy s (pushRest s bytes offset) =
      bytes.take (offset + restCount s bytes offset) := by
  rw [pushedBy_pushRest, take_push]

/-- A push leaves the waker in its slot and the consumer where it is. -/
theorem Armed.pushRest (h : Armed (·.consHeld = true) s waker n) :
    Armed (·.consHeld = true) (pushRest s bytes offset) waker n := by
  refine h.senderMove rfl rfl rfl ?_ ?_
  · rw [rings_pushRest]; rfl
  · rw [rings_pushRest]; exact id

/-- A ring that took nothing of a non-empty slice was full and is. -/
theorem vacant_pushRest (hlt : offset < bytes.length) (hn : restCount s bytes offset = 0) :
    ((pushRest s bytes offset).rings s.ringBuf).vacant = 0 := by
  have hv : (s.rings s.ringBuf).vacant = 0 := pollPending_full hlt hn
  rw [rings_pushRest, Ring.vacant, Ring.push, R.vacant_pushSlice]
  rw [Ring.vacant] at hv
  omega

/-- A round of `burst_write` before the registration. -/
theorem phase_burst (hc : t.state.calls = calls) (hp : t.pushed = bytes.take offset)
    (hlt : offset < bytes.length)
    (hround : Round t.state bytes waker offset false s') :
    Phase calls bytes waker ⟨s', t.pushed ++ pushedBy t.state s', t.registeredAt⟩ := by
  have hpush : t.pushed ++ pushedBy t.state (pushRest t.state bytes offset) =
      bytes.take (offset + restCount t.state bytes offset) := by rw [hp, take_pushedBy]
  cases hround with
  | ok hpos hle => exact .returned rfl (congrArg (· ++ _) hc) (.ok rfl hle (fun _ => hpos) hpush)
  | more hlt' => exact .burst rfl hc hpush hlt'
  | pending _ hreg => cases hreg
  | register hzero hreg =>
    refine .register rfl hc ?_ (List.length_pos_iff.mp (by omega))
    rw [hzero, List.take_zero] at hpush
    exact hpush

/-- A round after it. -/
theorem phase_reburst (hc : t.state.calls = calls) (hp : t.pushed = bytes.take offset)
    (hlt : offset < bytes.length) (hreg : t.registeredAt = some n)
    (harmed : Armed (·.consHeld = true) t.state waker n)
    (hround : Round t.state bytes waker offset true s') :
    Phase calls bytes waker ⟨s', t.pushed ++ pushedBy t.state s', t.registeredAt⟩ := by
  have hpush : t.pushed ++ pushedBy t.state (pushRest t.state bytes offset) =
      bytes.take (offset + restCount t.state bytes offset) := by rw [hp, take_pushedBy]
  have harmed' : Armed (·.consHeld = true) (pushRest t.state bytes offset) waker n :=
    harmed.pushRest
  cases hround with
  | ok hpos hle => exact .returned rfl (congrArg (· ++ _) hc) (.ok rfl hle (fun _ => hpos) hpush)
  | more hlt' => exact .reburst rfl hc hpush hlt' hreg (harmed'.senderMove rfl rfl rfl rfl id)
  | pending hzero _ =>
    rw [hzero, List.take_zero] at hpush
    have hfull := vacant_pushRest (s := t.state) hlt (by omega)
    exact .returned rfl (congrArg (· ++ _) hc)
      (.pending rfl hpush hreg hfull (harmed'.senderMove rfl rfl rfl rfl id))
  | register _ hreg => cases hreg

theorem pushedBy_of_rb (h : (s'.rings s.ringBuf).rb = (s.rings s.ringBuf).rb) :
    pushedBy s s' = [] := by
  have hocc : (s'.rings s.ringBuf).occ = (s.rings s.ringBuf).occ := congrArg R.occupied h
  rw [pushedBy, hocc, List.drop_length]

/-- What one step of the call does to its phase. -/
theorem Phase.senderStep (h : Phase calls bytes waker t) (hs : Outgoing.senderStep t.state = some s') :
    Phase calls bytes waker ⟨s', t.pushed ++ pushedBy t.state s',
      match t.state.sender with
      | .registerWaker _ _ => some t.state.woken.length
      | _ => t.registeredAt⟩ := by
  cases h with
  | check hsd hc hp hne =>
    simp only [Outgoing.senderStep, hsd] at hs ⊢
    split at hs <;> obtain rfl := Option.some.inj hs
    · exact .returned rfl (congrArg (· ++ _) hc) (.err rfl)
    · refine .burst rfl hc ?_ (List.length_pos_iff.mpr hne)
      exact congrArg₂ (· ++ ·) hp (pushedBy_of_rb rfl)
  | burst hsd hc hp hlt =>
    simp only [Outgoing.senderStep, hsd] at hs ⊢
    obtain rfl := Option.some.inj hs
    exact phase_burst hc hp hlt (burstWrite_round hlt)
  | register hsd hc hp hne =>
    simp only [Outgoing.senderStep, hsd] at hs ⊢
    obtain rfl := Option.some.inj hs
    have hring : (t.state.updRing t.state.ringBuf fun r => { r with waker := some waker }).rings
        t.state.ringBuf = { t.state.rings t.state.ringBuf with waker := some waker } :=
      State.updRing_self
    refine .recheck rfl hc ?_ hne rfl ⟨le_rfl, .inr ⟨congrArg Ring.waker hring, .inl trivial⟩⟩
    refine congrArg₂ (· ++ ·) hp (pushedBy_of_rb ?_)
    exact (congrArg Ring.rb hring).trans rfl
  | recheck hsd hc hp hne hreg harmed =>
    simp only [Outgoing.senderStep, hsd] at hs ⊢
    split at hs <;> obtain rfl := Option.some.inj hs
    · exact .returned rfl (congrArg (· ++ _) hc) (.err rfl)
    · rename_i hopen
      refine .reburst rfl hc ?_ (List.length_pos_iff.mpr hne) hreg ?_
      · exact congrArg₂ (· ++ ·) hp (pushedBy_of_rb rfl)
      · exact harmed.senderMove rfl rfl rfl rfl fun _ => by simpa using hopen
  | reburst hsd hc hp hlt hreg harmed =>
    simp only [Outgoing.senderStep, hsd] at hs ⊢
    obtain rfl := Option.some.inj hs
    exact phase_reburst hc hp hlt hreg harmed (burstWrite_round hlt)
  | returned hsd hc hret =>
    simp only [Outgoing.senderStep, hsd] at hs
    cases hs

/-- The phase of the call is right whatever the consumer does in between. -/
theorem Phase.step (h : Phase calls bytes waker t) (hin : InCall t a)
    (hs : t.step config a = some u) : Phase calls bytes waker u := by
  obtain ⟨s', hstep, hu⟩ := Option.map_eq_some_iff.mp hs
  obtain ⟨hidle, rfl | ha⟩ := hin
  · obtain rfl := hu
    exact h.senderStep hstep
  · have hne : a ≠ .sender := by
      rintro rfl
      cases ha
    rw [if_neg hne] at hu
    obtain rfl := hu
    exact h.writerMove hidle (step_writer ha hstep)

/-- After the return the consumer keeps the waker armed. -/
theorem armed_onlyWriter (h : Armed Q t.state waker n)
    (hp : (sendAsync config s bytes waker).Path OnlyWriter t u) :
    Armed Q u.state waker n ∧ u.registeredAt = t.registeredAt := by
  refine hp.invariant (I := fun u => Armed Q u.state waker n ∧ u.registeredAt = t.registeredAt)
    ⟨h, rfl⟩ ?_
  rintro v a w ha ⟨hv, hreg⟩ hs
  obtain ⟨s', hstep, hw⟩ := Option.map_eq_some_iff.mp hs
  have hne : a ≠ .sender := by
    rintro rfl
    cases ha
  rw [if_neg hne] at hw
  obtain rfl := hw
  exact ⟨hv.writerMove (step_writer ha hstep), hreg⟩

/-- `send_async` loses no wake-up. A `Pending` pushed nothing and found the ring full; from then on
    the waker has been woken since its registration, or is registered on a ring that is full and
    open, or is registered and woken by the next step of the consumer. An `Ok(n)` pushed exactly the
    first `n` bytes, and at least one. -/
theorem send_async_no_lost_wake (R : RingBuffer UInt8) (config : ConnConfig) (s : State R)
    (bytes : List UInt8) (waker : Waker) (t : Trace R) (c : Call)
    (hp : (sendAsync config s bytes waker).Path InCall (sendAsync config s bytes waker).init t)
    (hc : t.state.calls = s.calls ++ [c]) :
    (c.outcome = .pending → t.pushed = [] ∧ (t.state.rings t.state.ringBuf).vacant = 0 ∧
      ∀ u, (sendAsync config s bytes waker).Path OnlyWriter t u →
        u.Woken waker ∨ ((u.state.rings u.state.ringBuf).waker = some waker ∧
          ((u.state.rings u.state.ringBuf).vacant = 0 ∧
            (u.state.rings u.state.ringBuf).consHeld = true ∨
          u.state.writer.wakes = some u.state.ringBuf))) ∧
    ∀ n, c.outcome = .okN n → t.pushed = bytes.take n ∧ n ≤ bytes.length ∧
      (bytes ≠ [] → 1 ≤ n) := by
  have hphase : Phase s.calls bytes waker t := by
    refine hp.invariant (I := Phase s.calls bytes waker) phase_startCall ?_
    intro v a w hin hv hs
    exact hv.step hin hs
  have hnil : s.calls ++ [c] ≠ s.calls := by simp
  cases hphase with
  | check _ hc' | burst _ hc' | register _ hc' | recheck _ hc' | reburst _ hc' =>
    exact absurd (hc.symm.trans hc') hnil
  | @returned c' _ hc' hret =>
    obtain rfl : c' = c := by simpa using hc'.symm.trans hc
    cases hret with
    | ok hout hle hpos hpush =>
      refine ⟨fun hpend => ?_, fun n hn => ?_⟩
      · rw [hout] at hpend; cases hpend
      · rw [hout] at hn
        cases hn
        exact ⟨hpush, hle, hpos⟩
    | err hout =>
      refine ⟨fun hpend => ?_, fun n hn => ?_⟩
      · rw [hout] at hpend; cases hpend
      · rw [hout] at hn; cases hn
    | @pending n hout hpush hreg hfull harmed =>
      refine ⟨fun _ => ⟨hpush, hfull, fun u hu => ?_⟩, fun n hn => ?_⟩
      · have hfinal : Armed (fun r => r.vacant = 0 ∧ r.consHeld = true) t.state waker n :=
          harmed.senderMove rfl rfl rfl rfl fun hopen => ⟨hfull, hopen⟩
        obtain ⟨hu, hreg'⟩ := armed_onlyWriter hfinal hu
        rcases hu.armed with hwoke | hslot
        · exact .inl ⟨n, hreg'.trans hreg, hwoke⟩
        · exact .inr hslot
      · rw [hout] at hn; cases hn

/-! ### Two runs on a full ring -/

/-- The steps `InCall` allows, on states. -/
def CallStep (s : State R) (a : Act) : Prop := s.sender ≠ .idle ∧ (a = .sender ∨ a.ofUser = false)

/-- The call in progress. -/
def SenderPc.op? : SenderPc → Option Op
  | .burstWrite op _ _ | .newRing op _ | .sendRing op _ _ | .setRingBuf op _ => some op
  | .pollWrite bytes _ | .pollPending bytes _ => some (.sendBlock bytes)
  | .checkClosed bytes waker _ | .registerWaker bytes waker => some (.sendAsync bytes waker)
  | .idle | .dropRingsPrd | .dropped => none

/-- A step of this call itself. -/
def OwnStep (op : Op) (s : State R) (a : Act) : Prop := a = .sender ∧ s.sender.op? = some op

theorem OwnStep.callStep {op : Op} (h : OwnStep op s a) : CallStep s a := by
  refine ⟨?_, .inl h.1⟩
  intro hidle
  have hop := h.2
  rw [hidle] at hop
  cases hop

/-- A run of the call and the consumer, recorded. -/
theorem trace_of_path (hp : (machine R config).Path CallStep
      (startCall s (.sendAsync bytes waker)) s') :
    ∃ t, (sendAsync config s bytes waker).Path InCall (sendAsync config s bytes waker).init t ∧
      t.state = s' := by
  induction hp with
  | refl => exact ⟨_, .refl, rfl⟩
  | @tail v w a _ hok hs ih =>
    obtain ⟨t, hpt, rfl⟩ := ih
    have hs : step config t.state a = some w := hs
    refine ⟨_, hpt.tail hok (Option.map_eq_some_iff.mpr ⟨w, hs, rfl⟩), ?_⟩
    split <;> rfl

/-- The sender's ring is full and its consumer alive. -/
structure Full (s : State R) : Prop where
  cons : (s.rings s.ringBuf).consHeld = true
  vacant : (s.rings s.ringBuf).vacant = 0

theorem Full.senderAt (h : Full s) (pc : SenderPc) : Full (s.senderAt pc) := ⟨h.cons, h.vacant⟩

theorem restCount_of_vacant (h : (s.rings s.ringBuf).vacant = 0) : restCount s bytes 0 = 0 := by
  rw [restCount, Ring.pushCount, R.pushSlice_count_eq]
  rw [Ring.vacant] at h
  omega

theorem full_pushRest (h : Full s) (hne : bytes ≠ []) : Full (pushRest s bytes 0) := by
  have hlt : 0 < bytes.length := List.length_pos_iff.mpr hne
  refine ⟨?_, vacant_pushRest hlt (restCount_of_vacant h.vacant)⟩
  exact (congrArg Ring.consHeld (rings_pushRest s bytes 0)).trans h.cons

theorem senderStep_check (hs : s.sender = .checkClosed bytes waker registered)
    (ho : (s.rings s.ringBuf).consHeld = true) : senderStep s =
      some (s.senderAt (.burstWrite (.sendAsync bytes waker) 0 registered)) := by
  simp only [senderStep, hs, ho]
  rfl

/-- A burst into a full ring pushes nothing: the waker is registered, or the call gives up. -/
theorem senderStep_burst_full (hv : (s.rings s.ringBuf).vacant = 0)
    (hs : s.sender = .burstWrite (.sendAsync bytes waker) 0 registered) : senderStep s =
      some (if registered then (pushRest s bytes 0).ret (.sendAsync bytes waker) .pending 0
        else (pushRest s bytes 0).senderAt (.registerWaker bytes waker)) := by
  simp only [senderStep, hs, burstWrite_sendAsync, if_pos (restCount_of_vacant hv)]
  rfl

/-- The state in which a call on a full ring has registered its waker. -/
def afterRegister (s : State R) (bytes : List UInt8) (waker : Waker) : State R :=
  ((pushRest (s.senderAt (.burstWrite (.sendAsync bytes waker) 0 false)) bytes 0).updRing s.ringBuf
    fun r => { r with waker := some waker }).senderAt (.checkClosed bytes waker true)

theorem full_afterRegister (h : Full s) (hne : bytes ≠ []) : Full (afterRegister s bytes waker) := by
  let t := pushRest (s.senderAt (.burstWrite (.sendAsync bytes waker) 0 false)) bytes 0
  have hp : Full t := full_pushRest (h.senderAt _) hne
  have hcons : ((afterRegister s bytes waker).rings s.ringBuf).consHeld =
      (t.rings s.ringBuf).consHeld := State.rings_congr Ring.consHeld rfl rfl
  have hvac : ((afterRegister s bytes waker).rings s.ringBuf).vacant =
      (t.rings s.ringBuf).vacant := State.rings_congr Ring.vacant rfl rfl
  exact ⟨hcons.trans hp.cons, hvac.trans hp.vacant⟩

/-- A call on a full open ring comes to its second test of `is_closed`. -/
theorem path_afterRegister (h : Full s) (hne : bytes ≠ []) :
    (machine R config).Path (OwnStep (.sendAsync bytes waker)) (startCall s (.sendAsync bytes waker))
      (afterRegister s bytes waker) := by
  have hcall : startCall s (.sendAsync bytes waker) = s.senderAt (.checkClosed bytes waker false) := by
    simp only [startCall, if_neg hne]
  have h₁ : senderStep (s.senderAt (.checkClosed bytes waker false)) =
      some (s.senderAt (.burstWrite (.sendAsync bytes waker) 0 false)) :=
    senderStep_check rfl h.cons
  have h₂ := senderStep_burst_full (s := s.senderAt (.burstWrite (.sendAsync bytes waker) 0 false))
    h.vacant rfl
  rw [hcall]
  refine Machine.Path.tail (a := .sender) (Machine.Path.tail (a := .sender) (Machine.Path.single
    (a := .sender) ?_ h₁) ?_ h₂) ?_ rfl
  · exact ⟨rfl, rfl⟩
  · exact ⟨rfl, rfl⟩
  · exact ⟨rfl, rfl⟩

/-- A call that returned `Pending` and did nothing else but register its waker. -/
structure LeftPending (s : State R) (bytes : List UInt8) (waker : Waker) (s' : State R) : Prop where
  calls : s'.calls = s.calls ++ [⟨.sendAsync bytes waker, .pending, 0⟩]
  woken : s'.woken = s.woken
  ringBuf : s'.ringBuf = s.ringBuf
  queue : s'.queue = s.queue
  writer : s'.writer = s.writer
  rxHeld : s'.rxHeld = s.rxHeld
  slot : (s'.rings s.ringBuf).waker = some waker

/-- With the consumer standing still the call returns `Pending`. -/
theorem path_pending (config : ConnConfig) (waker : Waker) (h : Full s) (hne : bytes ≠ []) :
    ∃ s', (machine R config).Path (OwnStep (.sendAsync bytes waker))
      (startCall s (.sendAsync bytes waker)) s' ∧ LeftPending s bytes waker s' := by
  have hf : Full (afterRegister s bytes waker) := full_afterRegister h hne
  have h₁ := senderStep_check (s := afterRegister s bytes waker) rfl hf.cons
  have h₂ := senderStep_burst_full (s := (afterRegister s bytes waker).senderAt
    (.burstWrite (.sendAsync bytes waker) 0 true)) hf.vacant rfl
  have hslot : ((afterRegister s bytes waker).rings s.ringBuf).waker = some waker := by
    rw [afterRegister, State.senderAt_rings, State.updRing_self]
  refine ⟨_, Machine.Path.tail (a := .sender) (Machine.Path.tail (a := .sender)
    (path_afterRegister h hne) ?_ h₁) ?_ h₂, ⟨rfl, rfl, rfl, rfl, rfl, rfl, ?_⟩⟩
  · exact ⟨rfl, rfl⟩
  · exact ⟨rfl, rfl⟩
  · exact (congrArg Ring.waker (rings_pushRest _ bytes 0)).trans hslot

/-- The writer task is aborted after that test, and has dropped the consumer but not woken it. -/
theorem path_pending_closed (config : ConnConfig) (waker : Waker) (h : Full s) (hne : bytes ≠ [])
    (hw : s.writer = .recv) (hq : s.queue = [s.ringBuf]) (hrx : s.rxHeld = true) :
    ∃ s', (machine R config).Path CallStep (startCall s (.sendAsync bytes waker)) s' ∧
      s'.calls = s.calls ++ [⟨.sendAsync bytes waker, .pending, 0⟩] ∧ s'.woken = s.woken ∧
      (s'.rings s'.ringBuf).consHeld = false := by
  have hf : Full (afterRegister s bytes waker) := full_afterRegister h hne
  have h₁ := senderStep_check (s := afterRegister s bytes waker) rfl hf.cons
  let t := (afterRegister s bytes waker).senderAt (.burstWrite (.sendAsync bytes waker) 0 true)
  let v : State R := ({ t with rxHeld := false, queue := [] }.updRing s.ringBuf
    fun r => { r with consHeld := false }).writerAt (.unwindWake s.ringBuf .aborted)
  have habort : step config t .abort = some (t.writerAt (.unwind none .aborted)) := by
    have hw : t.writer = .recv := hw
    simp only [step, hw, WriterPc.awaits]
  have hclose : step config (t.writerAt (.unwind none .aborted)) .writer =
      some { t with writer := .unwind none .aborted, rxHeld := false } := by
    have hrx : t.rxHeld = true := hrx
    simp only [step, writerStep, State.writerAt_writer, State.writerAt_rxHeld, hrx, if_true]
    rfl
  have hdrop : step config { t with writer := .unwind none .aborted, rxHeld := false } .writer =
      some v := by
    have hq : t.queue = [s.ringBuf] := hq
    simp only [step, writerStep, hq]
    rfl
  have hvac : (v.rings s.ringBuf).vacant = (t.rings s.ringBuf).vacant :=
    State.rings_congr Ring.vacant rfl rfl
  have h₂ := senderStep_burst_full (s := v) (hvac.trans hf.vacant) rfl
  have hcall : t.sender ≠ .idle := by simp [t]
  have hpt : (machine R config).Path CallStep (startCall s (.sendAsync bytes waker)) t :=
    Machine.Path.tail (a := .sender) ((path_afterRegister h hne).mono fun _ _ => OwnStep.callStep)
      ⟨by simp [afterRegister], .inl rfl⟩ h₁
  have hpv : (machine R config).Path CallStep t v :=
    Machine.Path.tail (a := .writer) (Machine.Path.tail (a := .writer) (Machine.Path.single
      (a := .abort) ⟨hcall, .inr rfl⟩ habort) ⟨hcall, .inr rfl⟩ hclose) ⟨hcall, .inr rfl⟩ hdrop
  refine ⟨_, Machine.Path.tail (a := .sender) (hpt.trans hpv) ⟨hcall, .inl rfl⟩ h₂, rfl, rfl, ?_⟩
  have hdead : v.rings s.ringBuf = { t.rings s.ringBuf with consHeld := false } :=
    Function.update_self _ _ _
  exact (congrArg Ring.consHeld (rings_pushRest v bytes 0)).trans (congrArg Ring.consHeld hdead)

/-- The user calls the sender, or the call goes on; a `send_async` brings this waker. -/
def Uses (waker : Waker) (s : State R) (a : Act) : Prop :=
  ∃ op, (a = .call op ∨ OwnStep op s a) ∧ ∀ bytes w, op = .sendAsync bytes w → w = waker

/-- A `send_nonblock` of as many bytes as a ring has slots fills the first ring. -/
theorem path_full (R : RingBuffer UInt8) (config : ConnConfig) (waker : Waker) :
    ∃ s : State R, (machine R config).Path (Uses waker) makeSender s ∧ Full s ∧ s.writer = .recv ∧
      s.queue = [s.ringBuf] ∧ s.rxHeld = true ∧ s.woken = [] ∧ s.sender = .idle := by
  obtain ⟨bytes, hlen⟩ : ∃ bytes : List UInt8, bytes.length = ringBufferSize :=
    ⟨List.replicate ringBufferSize 0, List.length_replicate⟩
  have hne : bytes ≠ [] := by
    rintro rfl
    exact absurd hlen (by decide)
  let s₁ : State R := makeSender.senderAt (.burstWrite (.sendNonblock bytes) 0 false)
  have hroom : s₁.room = ringBufferSize := by
    simp [s₁, State.room, makeSender, Ring.vacant, Ring.new, RingBuffer.vacant]
  have hcall : (machine R config).step makeSender (.call (.sendNonblock bytes)) = some s₁ :=
    congrArg some (startCall_burst (.inr rfl) hne)
  have hpush : (machine R config).step s₁ .sender =
      some ((s₁.updRing s₁.ringBuf (·.push bytes)).ret (.sendNonblock bytes) .ok bytes.length) := by
    have hlt : 0 < (Op.sendNonblock bytes).bytes.length := List.length_pos_iff.mpr hne
    refine congrArg some (burstWrite_fits _ false hlt ?_)
    rw [Nat.zero_add, hroom]
    exact hlen.le
  refine ⟨_, Machine.Path.tail (Machine.Path.single ?_ hcall) ?_ hpush, ⟨?_, ?_⟩,
    rfl, rfl, rfl, rfl, rfl⟩
  · exact ⟨_, .inl rfl, by simp⟩
  · exact ⟨_, .inr ⟨rfl, rfl⟩, by simp⟩
  · have hring : (s₁.updRing s₁.ringBuf (·.push bytes)).rings s₁.ringBuf =
        (s₁.rings s₁.ringBuf).push bytes := State.updRing_self
    exact congrArg Ring.consHeld hring
  · have hfull := room_push s₁ bytes
    rw [pushCount_eq, hroom, hlen, Nat.min_self, Nat.sub_self] at hfull
    exact hfull

theorem reach_full (R : RingBuffer UInt8) (config : ConnConfig) :
    ∃ s : State R, (machine R config).Reach s ∧ Full s ∧ s.writer = .recv ∧
      s.queue = [s.ringBuf] ∧ s.rxHeld = true ∧ s.woken = [] := by
  obtain ⟨s, hp, hfull, hw, hq, hrx, hwoken, -⟩ := path_full R config .blockOn
  exact ⟨s, hp.mono fun _ _ _ => trivial, hfull, hw, hq, hrx, hwoken⟩

theorem send_async_no_lost_wake_full :
    ∃ (s : State (RingBuffer.circular UInt8)) (t : Trace _), (machine _ ⟨0, 0, 0⟩).Reach s ∧
      (sendAsync ⟨0, 0, 0⟩ s [1] (.notifier 5)).Path InCall
        (sendAsync ⟨0, 0, 0⟩ s [1] (.notifier 5)).init t ∧
      t.state.calls = s.calls ++ [⟨.sendAsync [1] (.notifier 5), .pending, 0⟩] ∧ t.pushed = [] := by
  obtain ⟨s, hr, hfull, -⟩ := reach_full (RingBuffer.circular UInt8) ⟨0, 0, 0⟩
  obtain ⟨s', hp, hleft⟩ := path_pending ⟨0, 0, 0⟩ (.notifier 5) hfull
    (List.cons_ne_nil 1 [])
  obtain ⟨t, ht, rfl⟩ := trace_of_path (hp.mono fun _ _ => OwnStep.callStep)
  obtain ⟨hpend, -⟩ := send_async_no_lost_wake _ _ s [1] (.notifier 5) t _ ht hleft.calls
  exact ⟨s, t, hr, ht, hleft.calls, (hpend rfl).1⟩

/-- The consumer is dropped between the second test of `is_closed` and the second push: the call
    returns `Pending` on a closed ring, and its waker has not been woken. -/
theorem send_async_pending_closed :
    ∃ (s : State (RingBuffer.circular UInt8)) (t : Trace _), (machine _ ⟨0, 0, 0⟩).Reach s ∧
      (sendAsync ⟨0, 0, 0⟩ s [1] (.notifier 5)).Path InCall
        (sendAsync ⟨0, 0, 0⟩ s [1] (.notifier 5)).init t ∧
      t.state.calls = s.calls ++ [⟨.sendAsync [1] (.notifier 5), .pending, 0⟩] ∧
      (t.state.rings t.state.ringBuf).consHeld = false ∧ ¬ t.Woken (.notifier 5) := by
  obtain ⟨s, hr, hfull, hw, hq, hrx, hwoken⟩ := reach_full (RingBuffer.circular UInt8) ⟨0, 0, 0⟩
  obtain ⟨s', hp, hc, hsame, hcons⟩ := path_pending_closed ⟨0, 0, 0⟩ (.notifier 5) hfull
    (List.cons_ne_nil 1 []) hw hq hrx
  obtain ⟨t, ht, rfl⟩ := trace_of_path hp
  refine ⟨s, t, hr, ht, hc, hcons, ?_⟩
  rintro ⟨n, -, hmem⟩
  rw [hsame, hwoken, List.drop_nil] at hmem
  cases hmem

end SocketManager.Outgoing
