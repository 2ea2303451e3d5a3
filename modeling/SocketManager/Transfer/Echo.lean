import SocketManager.Incoming.Finish
import SocketManager.Outgoing.Async
import SocketManager.Outgoing.Finish
import SocketManager.Outgoing.Pressure
import SocketManager.Outgoing.Wakers

/-! The echo server (examples/echo_server): one connection whose receiver sends back what it is given.

        on_message_async(data, wake):  waker->set_waker(wake);  return sender->send_async(data)
        on_remote_close:               sender.reset()

    The number that `send_async` gives is handed to the runtime as it is: so many bytes were consumed,
    or `PENDING`, and then the reader task sleeps. `WrapWaker` is at the same time the notifier that
    `send_async` registers with the ring and the owner of the waker of the reader task, so that the
    writer, when it has made room, wakes the reader:

        socket ─▶ reader ─▶ on_message_async ─▶ ring ─▶ writer ─▶ socket
                    ▲                                     │
                    └────── WrapWaker ◀───────────────────┘

    The call runs on the thread of the reader, and the writer may move between any two of its steps. A
    task that was not woken may be polled nevertheless (`poll`): its other branch was ready, or an older
    waker was. -/

namespace SocketManager.Transfer
open Outgoing (Armed)

/-! ### The model -/

/-- The `WrapWaker` of the connection, by its address. -/
def wrapWaker : Outgoing.Waker := .notifier 0

/-- One connection of the echo server. -/
structure Echo (R : RingBuffer UInt8) where
  rx : Incoming.Reader
  tx : Outgoing.State R
  /-- `on_message_async` runs. -/
  calling : Bool
  /-- How many wake-ups the writer had given when it was last called. -/
  since : Nat

/-- What happens next. -/
inductive EchoAct where
  /-- The reader task or its socket goes on. -/
  | rx (a : Incoming.Act)
  /-- The reader task is polled and was not woken. -/
  | poll
  /-- The reader calls `on_message_async`. -/
  | message
  /-- `send_async`, or the destructor of the sender, goes on. -/
  | sender
  /-- `on_message_async` returns. -/
  | returns
  | remoteClose
  /-- The writer task or its socket goes on. -/
  | tx (a : Outgoing.Act)
  deriving DecidableEq

/-- What `on_message_async` leaves for the runtime: the error text, and the result. A plain `Ok` is not
    among the results of `send_async`. -/
def onMessageAsync : Outgoing.Outcome → Option String × Int
  | .okN n => (none, n)
  | .err _ => (some "connection closed", 0)
  | .pending | .ok => (none, -1)

/-- The call of `on_msg` is an action of its own here. -/
def ofReader : Incoming.Act → Bool
  | .onMsg _ _ => false
  | _ => true

/-- The future waits for its waker. -/
def asleep (t : Incoming.Session) : Bool :=
  match t.fut with
  | some (.parked _) => true
  | _ => false

variable {R : RingBuffer UInt8} {config : ConnConfig} {incoming : List UInt8} {s s' : Echo R}

namespace Echo

/-- The reader task sleeps since `on_msg` was pending. -/
def parked (s : Echo R) : Bool := asleep s.rx.session

/-- The writer has woken the reader task since the last call. -/
def woken (s : Echo R) : Bool := decide (wrapWaker ∈ s.tx.woken.drop s.since)

/-- What was received and handed on. -/
def consumed (s : Echo R) : List UInt8 := Incoming.takenBytes s.rx.session.offers

/-- The reader takes a step. -/
def rxStep (config : ConnConfig) (s : Echo R) (a : Incoming.Act) : Option (Echo R) :=
  (Incoming.step config s.rx a).map fun rx => { s with rx }

/-- The outgoing side takes a step. -/
def txStep (config : ConnConfig) (s : Echo R) (a : Outgoing.Act) : Option (Echo R) :=
  (Outgoing.step config s.tx a).map fun tx => { s with tx }

def step (config : ConnConfig) (s : Echo R) : EchoAct → Option (Echo R)
  | .rx a =>
    if s.calling ∨ ofReader a = false ∨ (a = .poll ∧ s.parked ∧ s.woken = false) then none
    else s.rxStep config a
  | .poll => if s.calling = false ∧ s.parked then s.rxStep config .poll else none
  | .message =>
    if s.calling = false ∧ s.rx.pc.awaits ≠ none ∧ s.rx.session.offered ≠ [] then
      ({ s with calling := true, since := s.tx.woken.length }).txStep config
        (.call (.sendAsync s.rx.session.offered wrapWaker))
    else none
  | .sender => s.txStep config .sender
  | .returns =>
    match s.calling, s.tx.sender, s.tx.calls.getLast? with
    | true, .idle, some c =>
      ({ s with calling := false }).rxStep config
        (.onMsg (onMessageAsync c.outcome).1 (onMessageAsync c.outcome).2)
    | _, _, _ => none
  | .remoteClose =>
    if s.calling = false ∧ s.rx.pc = .returnedOk then s.txStep config .dropSender else none
  | .tx a => if a.ofUser then none else s.txStep config a

/-- A connection whose peer will send `incoming`. -/
def machine (R : RingBuffer UInt8) (config : ConnConfig) (incoming : List UInt8) :
    Machine (Echo R) EchoAct :=
  ⟨⟨Incoming.handleReader config incoming, Outgoing.makeSender, false, 0⟩, step config⟩

end Echo

/-! ### The reader between two calls -/

section
variable {t : Incoming.Session} {e : Incoming.Event} {p : Incoming.Session × Option Incoming.Done}
  {r r' : Incoming.Reader} {a : Incoming.Act}

/-- Without an answer of `on_msg` nothing is offered, and no future goes to sleep. -/
theorem offers_advance (ha : t.advance e = some p) (he : ∀ res, e ≠ .written res) :
    p.1.offers = t.offers ∧ asleep p.1 = false := by
  obtain ⟨f, hf, hm⟩ := Incoming.Session.advance_cases ha
  cases hm with
  | written => exact absurd rfl (he _)
  | startRead => simp only [Incoming.Session.startRead]; split <;> exact ⟨rfl, rfl⟩
  | @flushed k =>
    simp only [Incoming.Session.flushed]
    split
    · cases k with
      | fillFlush => simp only [Incoming.Session.startRead]; split <;> exact ⟨rfl, rfl⟩
      | flush => exact ⟨rfl, rfl⟩
    · exact ⟨rfl, rfl⟩
  | _ => exact ⟨rfl, rfl⟩

theorem offers_resume (config : ConnConfig) (r : Incoming.Reader)
    (p : Incoming.Session × Option Incoming.Done) :
    (Incoming.resume config r p).session.offers = p.1.offers ∧
    (asleep p.1 = false → asleep (Incoming.resume config r p).session = false) := by
  unfold Incoming.resume
  split
  · exact ⟨rfl, id⟩
  · rename_i d _
    cases d with
    | filled n => simp only [Incoming.awaited]; split <;> exact ⟨rfl, fun _ => rfl⟩
    | flushed =>
      simp only [Incoming.awaited]
      split
      · exact ⟨rfl, id⟩
      · exact ⟨rfl, fun _ => rfl⟩
    | _ => exact ⟨rfl, id⟩

theorem offers_step (hs : Incoming.step config r a = some r') (ha : ofReader a = true) :
    r'.session.offers = r.session.offers ∧ asleep r'.session = false := by
  have hmap : ∀ {e}, (r.session.advance e).map (Incoming.resume config r) = some r' →
      (∀ res, e ≠ .written res) → r'.session.offers = r.session.offers ∧ asleep r'.session = false := by
    intro e hs he
    obtain ⟨p, hp, rfl⟩ := Option.map_eq_some_iff.mp hs
    obtain ⟨hoff, hawake⟩ := offers_advance hp he
    obtain ⟨hoff', hawake'⟩ := offers_resume config r p
    exact ⟨hoff'.trans hoff, hawake' hawake⟩
  unfold Incoming.step at hs
  split at hs
  · cases hs
  · cases a with
    | onMsg => cases ha
    | poll | readErr => exact hmap hs (by simp)
    | readOk n => exact hmap hs (by simp)
    | tick =>
      simp only at hs
      split at hs
      · obtain rfl := Option.some.inj hs; exact ⟨rfl, rfl⟩
      · cases hs

/-- What the answer of `on_msg` takes of the slice. -/
def taken (err : Option String) (cbResult : Int) : Nat := if err = none then cbResult.toNat else 0

theorem offers_onMsg {err : Option String} {cbResult : Int}
    (hs : Incoming.step config r (.onMsg err cbResult) = some r')
    (hle : cbResult ≤ r.session.offered.length) :
    r'.session.offers = r.session.offers ++ [⟨r.session.offered, taken err cbResult⟩] ∧
    (asleep r'.session = true → err = none ∧ cbResult ≤ 0) := by
  unfold Incoming.step at hs
  split at hs
  · cases hs
  · simp only [Incoming.onMsg] at hs
    split at hs
    · rename_i k pos fin hf
      have hoff : r.session.offered = r.session.rw.slice pos fin := by
        simp only [Incoming.Session.offered, hf]
      rw [hoff] at hle ⊢
      split at hs
      · rename_i hlt
        have hres : ∀ {res : Incoming.PollWrite},
            (r.session.advance (.written res)).map (Incoming.resume config r) = some r' →
            r' = Incoming.resume config r (r.session.written k pos fin res) := by
          intro res hres
          simp only [Incoming.Session.advance, hf, if_pos hlt] at hres
          exact (Option.some.inj hres).symm
        cases err with
        | some e =>
          obtain rfl := hres hs
          exact ⟨rfl, fun h => by cases h⟩
        | none =>
          simp only [Incoming.callInner] at hs
          by_cases hpos : 0 < cbResult
          · rw [if_pos hpos, if_pos hle] at hs
            obtain rfl := hres hs
            have hne : cbResult.toNat ≠ 0 := by omega
            rw [Incoming.PollMsg.pollWrite, Incoming.Session.written, if_neg hne, taken, if_pos rfl]
            exact ⟨rfl, fun h => by cases h⟩
          · rw [if_neg hpos] at hs
            obtain rfl := hres hs
            have hzero : cbResult.toNat = 0 := by omega
            refine ⟨?_, fun _ => ⟨rfl, by omega⟩⟩
            rw [taken, if_pos rfl, hzero]
            rfl
      · cases hs
    · cases hs

end

/-! ### The call of `send_async` -/

/-- A ring in which the sender has to wait. -/
def Full (r : Outgoing.Ring R) : Prop := r.vacant = 0 ∧ r.consHeld = true

/-- Where the call of `on_message_async` with `bytes` is, before which `done` was handed on. From the
    registration on the waker is armed, and a call that gave up has left it armed on a full ring; a call
    fails only on a closed one. -/
inductive InMessage (tx : Outgoing.State R) (bytes done : List UInt8) (since : Nat) : Prop where
  | check {registered : Bool} (hs : tx.sender = .checkClosed bytes wrapWaker registered)
      (hacc : tx.calls.flatMap Outgoing.Call.accepted = done)
      (harmed : registered = true → Armed (fun _ => True) tx wrapWaker since)
  | burst {offset : Nat} {registered : Bool}
      (hs : tx.sender = .burstWrite (.sendAsync bytes wrapWaker) offset registered)
      (hacc : tx.calls.flatMap Outgoing.Call.accepted = done)
      (harmed : registered = true → Armed (·.consHeld = true) tx wrapWaker since)
  | register (hs : tx.sender = .registerWaker bytes wrapWaker)
      (hacc : tx.calls.flatMap Outgoing.Call.accepted = done)
  | returned {c : Outgoing.Call} {err : Option String} {cbResult : Int} (hs : tx.sender = .idle)
      (hc : tx.calls.getLast? = some c) (hres : onMessageAsync c.outcome = (err, cbResult))
      (hle : cbResult ≤ bytes.length) (hacc : tx.accepted = done ++ bytes.take (taken err cbResult))
      (harmed : err = none → cbResult ≤ 0 → Armed Full tx wrapWaker since)
      (hclosed : err ≠ none → (tx.rings tx.ringBuf).consHeld = false)

variable {tx tx' : Outgoing.State R} {bytes done : List UInt8} {since : Nat}

theorem InMessage.accepted_isPrefix (h : InMessage tx bytes done since) :
    tx.accepted <+: done ++ bytes := by
  cases h with
  | check hs hacc | register hs hacc =>
    rw [Outgoing.State.accepted, hs, hacc]
    exact List.prefix_append_right_inj _ |>.mpr (List.nil_prefix)
  | burst hs hacc =>
    rw [Outgoing.State.accepted, hs, hacc]
    exact (List.prefix_append_right_inj _).mpr (List.take_prefix _ _)
  | returned hs hc hres hle hacc =>
    rw [hacc]
    exact (List.prefix_append_right_inj _).mpr (List.take_prefix _ _)

theorem InMessage.isPrefix_accepted (h : InMessage tx bytes done since) : done <+: tx.accepted := by
  cases h with
  | check _ hacc | burst _ hacc | register _ hacc =>
    rw [Outgoing.State.accepted, hacc]
    exact List.prefix_append _ _
  | returned hs hc hres hle hacc =>
    rw [hacc]
    exact List.prefix_append _ _

/-- Until it returns, the call holds its ring. -/
theorem InMessage.openRings (h : InMessage tx bytes done since) :
    tx.sender.openRings tx.ringBuf = [tx.ringBuf] := by
  cases h with
  | check hs | burst hs | register hs | returned hs => rw [hs]; rfl

/-- The writer disarms nothing. -/
theorem InMessage.writerMove (h : InMessage tx bytes done since) (hinv : Outgoing.Inv tx)
    (hm : Outgoing.WriterMove config tx tx') : InMessage tx' bytes done since := by
  obtain ⟨hsender, hcalls, -⟩ := Outgoing.writerMove_sender hm
  have hacc' : tx'.accepted = tx.accepted := by
    rw [Outgoing.State.accepted, Outgoing.State.accepted, hsender, hcalls]
  cases h with
  | check hs hacc harmed =>
    exact .check (hsender.trans hs) (hcalls ▸ hacc) fun hr => (harmed hr).writerMove hm
  | burst hs hacc harmed =>
    exact .burst (hsender.trans hs) (hcalls ▸ hacc) fun hr => (harmed hr).writerMove hm
  | register hs hacc => exact .register (hsender.trans hs) (hcalls ▸ hacc)
  | returned hs hc hres hle hacc harmed hclosed =>
    exact .returned (hsender.trans hs) (hcalls ▸ hc) hres hle (hacc'.trans hacc)
      (fun he hn => (harmed he hn).writerMove hm)
      fun he => (Outgoing.dead_writerMove hinv (hclosed he) hm).1

/-- What a round of the burst is to `on_message_async`. -/
theorem InMessage.round {offset : Nat} {registered : Bool}
    (hacc : tx.calls.flatMap Outgoing.Call.accepted = done)
    (harmed : registered = true → Armed (·.consHeld = true) tx wrapWaker since)
    (hlt : offset < bytes.length) (hr : Outgoing.Round tx bytes wrapWaker offset registered tx') :
    InMessage tx' bytes done since := by
  have hret : ∀ outcome offset', (((Outgoing.pushRest tx bytes offset).ret
      (.sendAsync bytes wrapWaker) outcome offset').accepted = done ++
        (⟨.sendAsync bytes wrapWaker, outcome, offset'⟩ : Outgoing.Call).accepted) := by
    intro outcome offset'
    rw [Outgoing.State.accepted, Outgoing.State.ret_calls, Outgoing.flatMap_accepted_concat, ← hacc]
    exact List.append_nil _
  have hpush : registered = true →
      Armed (·.consHeld = true) (Outgoing.pushRest tx bytes offset) wrapWaker since :=
    fun hreg => (harmed hreg).pushRest
  cases hr with
  | ok hpos hle =>
    refine .returned rfl List.getLast?_concat rfl (by exact_mod_cast hle) ?_ (fun _ hn => ?_)
      (fun he => absurd rfl he)
    · exact hret _ _
    · omega
  | more hlt' =>
    exact .burst rfl hacc fun hreg => (hpush hreg).senderMove rfl rfl rfl rfl id
  | pending hzero hreg =>
    have hfull := Outgoing.vacant_pushRest (s := tx) hlt (by omega)
    refine .returned rfl List.getLast?_concat rfl (by simp) ?_ (fun _ _ => ?_)
      (fun he => absurd rfl he)
    · exact hret _ _
    · exact (hpush hreg).senderMove rfl rfl rfl rfl fun hopen => ⟨hfull, hopen⟩
  | register hzero hreg => exact .register rfl hacc

/-- The next step of the call. -/
theorem InMessage.senderStep (h : InMessage tx bytes done since) (hinv : Outgoing.Inv tx)
    (hsince : since ≤ tx.woken.length) (hs : Outgoing.senderStep tx = some tx') :
    InMessage tx' bytes done since := by
  cases h with
  | @check registered hsd hacc harmed =>
    simp only [Outgoing.senderStep, hsd] at hs
    split at hs <;> obtain rfl := Option.some.inj hs
    · rename_i hclosed
      refine .returned rfl List.getLast?_concat rfl (by simp) ?_ (fun he => by cases he)
        fun _ => hclosed
      rw [Outgoing.State.accepted, Outgoing.State.ret_calls, Outgoing.flatMap_accepted_concat, hacc]
      exact List.append_nil _
    · rename_i hopen
      refine .burst rfl hacc fun hr => (harmed hr).senderMove rfl rfl rfl rfl fun _ => ?_
      simpa using hopen
  | burst hsd hacc harmed =>
    have hlt := hinv.pc
    simp only [Outgoing.SenderPcOk, hsd] at hlt
    simp only [Outgoing.senderStep, hsd] at hs
    obtain rfl := Option.some.inj hs
    exact .round hacc harmed hlt (Outgoing.burstWrite_round hlt)
  | register hsd hacc =>
    simp only [Outgoing.senderStep, hsd] at hs
    obtain rfl := Option.some.inj hs
    refine .check rfl hacc fun _ => ⟨hsince, .inr ⟨?_, .inl trivial⟩⟩
    rw [Outgoing.State.senderAt_rings, Outgoing.State.senderAt_ringBuf, Outgoing.State.updRing_ringBuf,
      Outgoing.State.updRing_self]
  | returned hsd =>
    simp only [Outgoing.senderStep, hsd] at hs
    cases hs

/-! ### The invariant -/

/-- Only `newRing` makes a ring. -/
theorem fresh_senderStep (hs : Outgoing.senderStep tx = some tx')
    (hne : ∀ op offset, tx.sender ≠ .newRing op offset) : tx'.fresh = tx.fresh := by
  unfold Outgoing.senderStep at hs
  split at hs
  case h_4 op offset registered _ =>
    obtain rfl := Option.some.inj hs
    simp only [Outgoing.burstWrite]
    split
    · cases op <;> simp only [Outgoing.burstPending] <;> (try split) <;> (try split) <;> rfl
    · split
      · cases op <;> rfl
      · rfl
  case h_5 =>
    obtain rfl := Option.some.inj hs
    simp only [Outgoing.pollWrite]
    split
    · rfl
    · split <;> rfl
  case h_6 hpc => exact absurd hpc (hne _ _)
  case h_7 =>
    obtain rfl := Option.some.inj hs
    unfold Outgoing.sendRing
    split <;> rfl
  case h_9 => split at hs <;> (obtain rfl := Option.some.inj hs; rfl)
  all_goals first
    | (obtain rfl := Option.some.inj hs; rfl)
    | cases hs

/-- The slice that is offered continues what was handed on. -/
theorem offered_isPrefix {r : Incoming.Reader} (h : Incoming.ReaderOk config incoming r) :
    Incoming.takenBytes r.session.offers ++ r.session.offered <+: incoming := by
  have hstream := h.ok.stream
  unfold Incoming.Session.offered
  split
  · rename_i k pos fin hf
    have hfin := (h.ok.writeAll_fin hf).2.2.1
    have hcur : r.session.cursor = pos := by simp only [Incoming.Session.cursor, hf]
    rw [hcur] at hstream
    exact ⟨_, hfin ▸ hstream⟩
  · rw [List.append_nil, ← hstream, List.append_assoc]
    exact List.prefix_append _ _

namespace Echo

/-- Between two calls all that was handed on is in the ring or further; during a call that is what was
    handed on before it. A reader that sleeps has an armed waker. -/
structure Ok (config : ConnConfig) (incoming : List UInt8) (s : Echo R) : Prop where
  rx : Incoming.ReaderOk config incoming s.rx
  tx : Outgoing.Inv s.tx
  /-- There is one ring. -/
  one : s.tx.fresh = 1
  room : s.tx.capacity + s.tx.sender.room ≤ ringBufferSize
  since_le : s.since ≤ s.tx.woken.length
  quiet : s.calling = false → (s.tx.sender = .idle ∨ s.tx.sender.gone = true ∧ s.rx.pc = .returnedOk) ∧
    s.tx.accepted = s.consumed ∧ (s.parked = true → Armed Full s.tx wrapWaker s.since)
  message : s.calling = true → s.rx.pc.awaits ≠ none ∧ s.rx.session.offered ≠ [] ∧
    InMessage s.tx s.rx.session.offered s.consumed s.since

theorem ok_init (R : RingBuffer UInt8) (config : ConnConfig) (incoming : List UInt8) :
    Ok config incoming (machine R config incoming).init := by
  have hnew : (machine R config incoming).init.rx.session.offers = [] ∧
      (machine R config incoming).init.parked = false := by
    have hpos := Incoming.msgBufSize_pos config
    rw [parked, machine, Incoming.handleReader, Incoming.BufReadWrite.new, if_pos hpos]
    exact ⟨rfl, rfl⟩
  refine ⟨Incoming.readerOk_init config incoming, Outgoing.inv_makeSender, rfl, ?_, le_rfl,
    fun _ => ⟨.inl rfl, ?_, fun hp => ?_⟩, fun hc => by cases hc⟩
  · exact Outgoing.capacity_makeSender.le
  · rw [consumed, hnew.1]; rfl
  · rw [hnew.2] at hp; cases hp

/-- What was accepted was received. -/
theorem Ok.accepted_isPrefix (h : s.Ok config incoming) : s.tx.accepted <+: incoming := by
  cases hc : s.calling with
  | true => exact (h.message hc).2.2.accepted_isPrefix.trans (offered_isPrefix h.rx)
  | false =>
    rw [(h.quiet hc).2.1]
    exact (List.prefix_append _ _).trans (offered_isPrefix h.rx)

/-- The reader goes on between two calls. -/
theorem Ok.rxStep {a : Incoming.Act} (h : s.Ok config incoming) (hc : s.calling = false)
    (ha : ofReader a = true) (hs : s.rxStep config a = some s') : s'.Ok config incoming := by
  obtain ⟨rx, hrx, rfl⟩ := Option.map_eq_some_iff.mp hs
  obtain ⟨hoff, hawake⟩ := offers_step hrx ha
  obtain ⟨hsender, hacc, -⟩ := h.quiet hc
  refine ⟨h.rx.step hrx, h.tx, h.one, h.room, h.since_le, fun _ => ⟨?_, ?_, fun hp => ?_⟩, fun hc' => ?_⟩
  · refine hsender.imp_right fun hg => ?_
    simp only [Incoming.step, hg.2, Incoming.ReaderPc.awaits, if_true] at hrx
    cases hrx
  · exact hacc.trans (congrArg Incoming.takenBytes hoff.symm)
  · exact absurd hp (by simp [parked, hawake])
  · exact absurd (hc.symm.trans hc') (by simp)

/-- The writer goes on. -/
theorem Ok.writerStep {a : Outgoing.Act} (h : s.Ok config incoming) (ha : a.ofUser = false)
    (hs : s.txStep config a = some s') : s'.Ok config incoming := by
  obtain ⟨tx, htx, rfl⟩ := Option.map_eq_some_iff.mp hs
  have hm := Outgoing.step_writer ha htx
  have hf := Outgoing.writerMove_frame h.tx.core hm
  have hwoken := (Outgoing.writerMove_effect (b := 0) hm).woken_isPrefix
  have hacc : tx.accepted = s.tx.accepted := by
    rw [Outgoing.State.accepted, Outgoing.State.accepted, hf.calls, hf.sender]
  refine ⟨h.rx, (h.tx.step htx).inv, hf.fresh.trans h.one, ?_, h.since_le.trans hwoken.length_le,
    fun hc => ?_, fun hc => ?_⟩
  · have hroom := Outgoing.room_step h.tx htx
    have hzero : a.room = 0 := by cases a <;> first | rfl | cases ha
    exact (hroom.trans_eq (by rw [hzero, Nat.add_zero])).trans h.room
  · obtain ⟨hsender, hsame, harmed⟩ := h.quiet hc
    exact ⟨hf.sender ▸ hsender, hacc.trans hsame, fun hp => (harmed hp).writerMove hm⟩
  · obtain ⟨hk, hoff, hmsg⟩ := h.message hc
    exact ⟨hk, hoff, hmsg.writerMove h.tx hm⟩

/-- `on_message_async` is called. -/
theorem Ok.messageStep (h : s.Ok config incoming) (hs : s.step config .message = some s') :
    s'.Ok config incoming := by
  simp only [step] at hs
  split at hs
  · rename_i hg
    obtain ⟨hc, hk, hoff⟩ := hg
    obtain ⟨tx, htx, rfl⟩ := Option.map_eq_some_iff.mp hs
    have hroom := Outgoing.room_step h.tx htx
    have hinv := (h.tx.step htx).inv
    simp only [Outgoing.step] at htx
    split at htx
    · obtain rfl := Option.some.inj htx
      have hstart : Outgoing.startCall s.tx (.sendAsync s.rx.session.offered wrapWaker) =
          s.tx.senderAt (.checkClosed s.rx.session.offered wrapWaker false) := by
        rw [Outgoing.startCall, if_neg hoff]
      rename_i hidle
      have hacc : s.tx.calls.flatMap Outgoing.Call.accepted = s.consumed := by
        rw [← (h.quiet hc).2.1, Outgoing.State.accepted, hidle]
        exact (List.append_nil _).symm
      rw [hstart] at hinv hroom ⊢
      exact ⟨h.rx, hinv, h.one, hroom.trans h.room, le_rfl, (fun hc => by cases hc),
        fun _ => ⟨hk, hoff, .check rfl hacc fun hr => by cases hr⟩⟩
    · cases htx
  · cases hs

/-- `send_async` or the drop of the sender goes on. -/
theorem Ok.senderStep (h : s.Ok config incoming) (hs : s.step config .sender = some s') :
    s'.Ok config incoming := by
  obtain ⟨tx, htx, rfl⟩ := Option.map_eq_some_iff.mp hs
  have hroom := (Outgoing.room_step h.tx htx).trans h.room
  have hinv := (h.tx.step htx).inv
  have hstep : Outgoing.senderStep s.tx = some tx := htx
  cases hc : s.calling with
  | true =>
    obtain ⟨hk, hoff, hmsg⟩ := h.message hc
    have hmsg' := hmsg.senderStep h.tx h.since_le hstep
    refine ⟨h.rx, hinv, ?_, hroom, ?_, fun hc' => ?_, fun _ => ⟨hk, hoff, hmsg'⟩⟩
    · refine (fresh_senderStep hstep fun op offset hpc => ?_).trans h.one
      cases hmsg <;> simp_all
    · have hwoken := (Outgoing.senderMove_slots (.step hstep)).2
      exact h.since_le.trans_eq (congrArg List.length hwoken.symm)
    · cases hc'
  | false =>
    obtain ⟨hsender, hsame, harmed⟩ := h.quiet hc
    rcases hsender with hidle | ⟨hg, hpc⟩
    · simp only [Outgoing.senderStep, hidle] at hstep
      cases hstep
    · obtain ⟨hdrop, rfl⟩ := Outgoing.senderMove_of_gone hg (.step hstep)
      refine ⟨h.rx, hinv, h.one, hroom, h.since_le, fun _ => ⟨.inr ⟨rfl, hpc⟩, ?_, fun hp => ?_⟩,
        fun hc' => ?_⟩
      · refine Eq.trans ?_ hsame
        rw [Outgoing.State.accepted, Outgoing.State.accepted, hdrop]
        rfl
      · exact (harmed hp).senderMove rfl rfl rfl rfl id
      · cases hc'

/-- `on_remote_close` drops the sender. -/
theorem Ok.remoteCloseStep (h : s.Ok config incoming) (hs : s.step config .remoteClose = some s') :
    s'.Ok config incoming := by
  simp only [step] at hs
  split at hs
  · rename_i hg
    obtain ⟨hc, hpc⟩ := hg
    obtain ⟨tx, htx, rfl⟩ := Option.map_eq_some_iff.mp hs
    have hroom := (Outgoing.room_step h.tx htx).trans h.room
    have hinv := (h.tx.step htx).inv
    obtain ⟨-, hsame, harmed⟩ := h.quiet hc
    simp only [Outgoing.step] at htx
    split at htx
    · rename_i hidle
      obtain rfl := Option.some.inj htx
      refine ⟨h.rx, hinv, h.one, hroom, h.since_le, fun _ => ⟨.inr ⟨rfl, hpc⟩, ?_, fun hp => ?_⟩,
        fun hc' => ?_⟩
      · refine Eq.trans ?_ hsame
        rw [Outgoing.State.accepted, Outgoing.State.accepted, hidle]
        rfl
      · have hring := Outgoing.State.updRing_self (s := s.tx) (i := s.tx.ringBuf)
          (f := fun r => { r with prodHeld := false })
        refine (harmed hp).senderMove rfl rfl rfl ?_ fun hfull => ?_
        · rw [Outgoing.State.senderAt_rings, hring]
        · rw [Outgoing.State.senderAt_rings, hring]; exact hfull
      · exact absurd (hc.symm.trans hc') (by simp)
    · cases htx
  · cases hs

/-- `on_message_async` returns, and the reader hears of it. -/
theorem Ok.returnsStep (h : s.Ok config incoming) (hs : s.step config .returns = some s') :
    s'.Ok config incoming := by
  simp only [step] at hs
  split at hs
  · rename_i c hc hidle hlast
    obtain ⟨rx, hrx, rfl⟩ := Option.map_eq_some_iff.mp hs
    obtain ⟨hk, hoff, hmsg⟩ := h.message hc
    cases hmsg with
    | check hs' | burst hs' | register hs' => rw [hidle] at hs'; cases hs'
    | @returned c' err cbResult _ hc' hres hle hacc harmed =>
      obtain rfl := Option.some.inj (hlast.symm.trans hc')
      rw [hres] at hrx
      obtain ⟨hoffers, hasleep⟩ := offers_onMsg hrx hle
      refine ⟨h.rx.step hrx, h.tx, h.one, h.room, h.since_le, fun _ => ⟨.inl hidle, ?_, fun hp => ?_⟩,
        fun hc => by cases hc⟩
      · rw [consumed, hoffers, Incoming.takenBytes_concat]
        exact hacc
      · obtain ⟨he, hn⟩ := hasleep hp
        exact harmed he hn
  · cases hs

theorem Ok.step {a : EchoAct} (h : s.Ok config incoming) (hs : s.step config a = some s') :
    s'.Ok config incoming := by
  cases a with
  | rx a =>
    simp only [Echo.step] at hs
    split at hs
    · cases hs
    · rename_i hg
      simp only [not_or, Bool.not_eq_true, Bool.not_eq_false] at hg
      exact h.rxStep hg.1 hg.2.1 hs
  | poll =>
    simp only [Echo.step] at hs
    split at hs
    · rename_i hg
      exact h.rxStep hg.1 rfl hs
    · cases hs
  | message => exact h.messageStep hs
  | sender => exact h.senderStep hs
  | returns => exact h.returnsStep hs
  | remoteClose => exact h.remoteCloseStep hs
  | tx a =>
    simp only [Echo.step] at hs
    split at hs
    · cases hs
    · rename_i ha
      exact h.writerStep (by simpa using ha) hs

theorem reach_ok (hr : (machine R config incoming).Reach s) : s.Ok config incoming :=
  hr.invariant (ok_init R config incoming) fun _ _ _ h hs => h.step hs

/-! ### The results -/

/-- What a step is to the outgoing side: nothing, a step of the user's thread, or one of the writer. -/
theorem tx_step {a : EchoAct} (hs : s.step config a = some s') :
    s'.tx = s.tx ∨ ∃ b, Outgoing.step config s.tx b = some s'.tx ∧ (b.ofUser = true ∨ a = .tx b) := by
  have htx : ∀ {v : Echo R} {b : Outgoing.Act}, v.txStep config b = some s' → v.tx = s.tx →
      Outgoing.step config s.tx b = some s'.tx := by
    intro v b hs hv
    obtain ⟨tx, htx, rfl⟩ := Option.map_eq_some_iff.mp hs
    exact hv ▸ htx
  have hrx : ∀ {v : Echo R} {b : Incoming.Act}, v.rxStep config b = some s' → v.tx = s.tx →
      s'.tx = s.tx := by
    intro v b hs hv
    obtain ⟨rx, -, rfl⟩ := Option.map_eq_some_iff.mp hs
    exact hv
  cases a with
  | rx b =>
    simp only [step] at hs
    split at hs
    · cases hs
    · exact .inl (hrx hs rfl)
  | poll =>
    simp only [step] at hs
    split at hs
    · exact .inl (hrx hs rfl)
    · cases hs
  | message | remoteClose =>
    simp only [step] at hs
    split at hs
    · exact .inr ⟨_, htx hs rfl, .inl rfl⟩
    · cases hs
  | sender => exact .inr ⟨_, htx hs rfl, .inl rfl⟩
  | returns =>
    simp only [step] at hs
    split at hs
    · exact .inl (hrx hs rfl)
    · cases hs
  | tx b =>
    simp only [step] at hs
    split at hs
    · cases hs
    · exact .inr ⟨b, htx hs rfl, .inr rfl⟩

/-- The outgoing side by itself. -/
theorem reach_tx (hr : (machine R config incoming).Reach s) :
    (Outgoing.machine R config).Reach s.tx := by
  refine hr.project (f := Echo.tx) fun t a u _ hs => ?_
  rcases tx_step hs with hsame | ⟨b, hb, -⟩
  · exact hsame ▸ .refl
  · exact .single trivial hb

/-- Only a sender that is gone holds no ring. -/
theorem Ok.gone_of_openRings (h : s.Ok config incoming)
    (hopen : s.tx.sender.openRings s.tx.ringBuf = []) :
    s.tx.sender.gone = true ∧ s.rx.pc = .returnedOk ∧ s.tx.accepted = s.consumed := by
  cases hc : s.calling with
  | true =>
    rw [(h.message hc).2.2.openRings] at hopen
    cases hopen
  | false =>
    obtain ⟨hidle | hg, hsame, -⟩ := h.quiet hc
    · rw [hidle] at hopen; cases hopen
    · exact ⟨hg.1, hg.2, hsame⟩

/-- What was accepted and is not written is in the one ring. -/
theorem Ok.length_accepted_le (h : s.Ok config incoming) (hw : s.tx.writer.running = true) :
    s.tx.accepted.length ≤ s.tx.written.length + ringBufferSize := by
  have hback := Outgoing.length_backlog_le h.tx hw
  have hstream := congrArg List.length (h.tx.core.running hw).stream
  have hroom := h.room
  rw [List.length_append] at hstream
  omega

/-- What was read and was not handed on is in the buffer of the reader. -/
theorem Ok.length_read_le (h : s.Ok config incoming) (hw : s.tx.writer.running = true) :
    s.rx.session.pipe.sent.length ≤
      s.tx.written.length + ringBufferSize + Incoming.msgBufSize config := by
  have hdone : s.consumed.length ≤ s.tx.accepted.length := by
    cases hc : s.calling with
    | true => exact (h.message hc).2.2.isPrefix_accepted.length_le
    | false => rw [(h.quiet hc).2.1]
  have hread : s.rx.session.pipe.sent.length =
      s.consumed.length + (s.rx.session.rw.wOffset - s.rx.session.cursor) := by
    rw [← s.rx.session.rw.length_slice _ h.rx.ok.w_le]
    exact List.length_append
  have hbuf := h.rx.ok.w_le.trans_eq h.rx.ok.len
  have hacc := h.length_accepted_le hw
  omega

/-- Whatever the peer, the sockets and the two tasks do, what the server has sent is a prefix of what it
    was sent, and as long as its writer runs it holds back no more than one ring and the buffer of the
    reader. A connection of which the server has shut down its side was echoed to its end. -/
theorem echo_in_order (R : RingBuffer UInt8) (config : ConnConfig) (incoming : List UInt8) (s : Echo R)
    (hr : (machine R config incoming).Reach s) :
    s.tx.written <+: incoming ∧
    (s.tx.writer.running = true → s.rx.session.pipe.sent.length ≤
      s.tx.written.length + ringBufferSize + Incoming.msgBufSize config) ∧
    (s.tx.writer = .returned .ok → s.rx.pc = .returnedOk ∧ s.tx.written = incoming) := by
  have h := reach_ok hr
  refine ⟨h.tx.core.written.trans h.accepted_isPrefix, h.length_read_le, fun hw => ?_⟩
  obtain ⟨hopen, -, hall⟩ := h.tx.core.finishing (by rw [hw]; rfl)
  obtain ⟨-, hpc, hsame⟩ := h.gone_of_openRings hopen
  exact ⟨hpc, hall.symm.trans (hsame.trans (h.rx.consumed_all hpc))⟩

/-- Three bytes, sent back at the end of the stream. -/
def echoThree : List EchoAct :=
  [.rx .poll, .rx (.readOk 3), .rx .poll, .rx (.readOk 0), .message, .sender, .sender, .returns,
    .rx .poll, .remoteClose, .sender] ++
  ([.writer, .writer, .writer, .writer, .wrote 3, .writer, .writer, .writer, .writer, .writer,
    .shutdownOk, .writer, .writer] : List Outgoing.Act).map .tx

theorem echo_in_order_echoThree : ∃ s : Echo (RingBuffer.circular UInt8),
    (machine _ ⟨0, 0, 0⟩ [1, 2, 3]).Reach s ∧ s.tx.writer = .returned .ok ∧
    s.rx.pc = .returnedOk ∧ s.tx.written = [1, 2, 3] := by
  obtain ⟨s, hr, hp⟩ := Machine.reach_of_run
    (m := machine (RingBuffer.circular UInt8) ⟨0, 0, 0⟩ [1, 2, 3]) echoThree
    (fun s => decide (s.tx.writer = .returned .ok)) (by decide +kernel)
  have hw := of_decide_eq_true hp
  obtain ⟨-, -, hend⟩ := echo_in_order _ _ _ s hr
  exact ⟨s, hr, hw, hend hw⟩

end Echo

end SocketManager.Transfer
