import SocketManager.Outgoing.Held
import SocketManager.Transfer.Echo

/-! The echo comes to its end. As long as no socket fails and no task is aborted, every step but one kind
    brings the echo server nearer to the moment when it has sent everything back and has closed its
    side. The exception is a poll of the sleeping reader that nobody asked for, which may cost a round
    of `on_message_async` for nothing.

    What is still to be done is counted as a rank, to which each part of the server adds its own:

        reader      12 for each step of its own rank
        call        where `on_message_async` is
        wake-up     11, when the reader is to be woken: the round it will then try
        byte        23 before it is accepted, 22 until it is written
        writer      where the writer is, and whether its ring is empty

    A write pays for the wake-up that follows it, a wake-up for the next round of the reader. That a
    reader which sleeps will be woken is what the armed waker is for (`Ok.progress`). -/

namespace SocketManager.Transfer
open Outgoing (Armed Held openWeight openWeight_le openWeight_lt openWeight_mono)
variable {R : RingBuffer UInt8} {config : ConnConfig} {incoming : List UInt8} {s s' : Echo R}

/-! ### The rank -/

/-- The way to go of `send_async`. -/
def callWeight : Outgoing.SenderPc → Nat
  | .checkClosed _ _ false => 9
  | .burstWrite _ _ false => 8
  | .registerWaker _ _ => 7
  | .checkClosed _ _ true => 6
  | .burstWrite _ _ true => 5
  | _ => 4

namespace Echo

/-- Where `on_message_async` is; a reader that sleeps has nothing to do with it. -/
def callRank (s : Echo R) : Nat :=
  if s.calling then 12 + callWeight s.tx.sender else if s.parked then 0 else 22

/-- The reader has been woken and does not know it yet. -/
def wakeRank (s : Echo R) : Nat := if (s.calling || s.parked) && s.woken then 11 else 0

/-- What the steps of the reader and of `on_message_async` lower. -/
def readRank (s : Echo R) : Nat := 12 * s.rx.rank + s.callRank + s.wakeRank

/-- What the steps of `send_async` and of the writer lower, over a stream of `total` bytes. -/
def sendRank (total : Nat) (s : Echo R) : Nat :=
  23 * (total - s.tx.accepted.length) + 22 * s.tx.unwritten +
    openWeight (s.tx.rings s.tx.ringBuf).occ.length s.tx.writer

/-- The rank of a connection. After the drop of the sender it is that of the writer. -/
def rank (total : Nat) (s : Echo R) : Nat :=
  if s.tx.sender.gone then s.tx.drainRank else s.readRank + s.sendRank total + 40

/-- Nothing has failed. -/
structure Sound (s : Echo R) : Prop where
  tx : s.tx.writer.failed = false
  rx : s.rx.pc.failed = false

end Echo

/-- No socket fails and no task is aborted. -/
def EchoAct.healthy : EchoAct → Bool
  | .rx .readErr => false
  | .tx a => a.healthy
  | _ => true

/-! ### While the sender is held -/

theorem Echo.Ok.held (h : s.Ok config incoming) (hs : s.Sound) (hg : s.tx.sender.gone = false) :
    Held s.tx := by
  have hopen : s.tx.sender.openRings s.tx.ringBuf = [s.tx.ringBuf] := by
    cases hc : s.calling with
    | true => exact (h.message hc).2.2.openRings
    | false =>
      rcases (h.quiet hc).1 with hidle | hgone
      · rw [hidle]; rfl
      · rw [hg] at hgone; cases hgone.1
  have hr := (Outgoing.running_of_open h.tx hopen hs.tx).2.2
  obtain ⟨closed, hlive, -⟩ := hr.chain
  have hzero : ∀ i ∈ s.tx.live, i = s.tx.ringBuf := by
    intro i hi
    have hlt := h.tx.live_lt i hi
    have hb := h.tx.ringBuf_lt
    rw [h.one] at hlt hb
    omega
  refine .of_live h.tx hopen hs.tx ?_
  cases closed with
  | nil => exact hlive
  | cons i closed =>
    have hnodup := hr.nodup
    rw [hlive, hzero i (by rw [hlive]; exact List.mem_cons_self)] at hnodup
    exact absurd (List.mem_append_right closed List.mem_cons_self) (List.nodup_cons.mp hnodup).1

variable {tx tx' : Outgoing.State R}

/-! ### The reader -/

section
variable {r r' : Incoming.Reader}

/-- A tick takes more than one step of the reader's rank. -/
theorem rank_tick (hs : Incoming.step config r .tick = some r') : r'.rank + 2 ≤ r.rank := by
  simp only [Incoming.step] at hs
  split at hs
  · cases hs
  · split at hs
    · rename_i hc
      obtain rfl := Option.some.inj hs
      have hcur : r.session.cursor = r.session.rw.rOffset := by
        refine Incoming.Session.cursor_eq fun k pos fin hf => ?_
        have hp := hc.2.2.2
        simp [Incoming.Session.pending, hf] at hp
      rw [Incoming.rank_startFlush]
      simp only [Incoming.Reader.rank, Incoming.Reader.weight, hc.2.1, hc.2.2.1, Incoming.Session.rank,
        Incoming.Session.pendingBytes, hcur]
      simp
    · cases hs

/-- Where there is something to offer, `on_msg` may return whatever it wants. -/
theorem onMsg_ne_none (h : Incoming.ReaderOk config incoming r) (hk : r.pc.awaits ≠ none)
    (hoff : r.session.offered ≠ []) (err : Option String) (cbResult : Int) :
    Incoming.step config r (.onMsg err cbResult) ≠ none := by
  cases hf : r.session.fut with
  | none => simp [Incoming.Session.offered, hf] at hoff
  | some f =>
    cases f with
    | writeAll k pos fin =>
      have hle : fin ≤ r.session.rw.len := by
        obtain ⟨-, -, hfin, -⟩ := h.ok.writeAll_fin hf
        exact hfin ▸ h.ok.w_le
      have hlt : pos < fin := by
        simp only [Incoming.Session.offered, hf] at hoff
        have hpos := List.length_pos_iff.mpr hoff
        rw [r.session.rw.length_slice pos hle] at hpos
        omega
      simp only [Incoming.step, if_neg hk, Incoming.onMsg, hf, if_pos (And.intro hlt hle),
        Incoming.Session.advance]
      split <;> simp
    | _ => simp [Incoming.Session.offered, hf] at hoff

/-- A pending `on_msg` puts the reader to sleep, one poll further from its end. -/
theorem rank_pending {cbResult : Int}
    (hs : Incoming.step config r (.onMsg none cbResult) = some r') (hn : cbResult ≤ 0) :
    r'.rank = r.rank + 1 ∧ r'.pc = r.pc ∧ asleep r'.session = true := by
  unfold Incoming.step at hs
  split at hs
  · cases hs
  · simp only [Incoming.onMsg] at hs
    split at hs
    · rename_i k pos fin hf
      split at hs
      · rename_i hlt
        simp only [Incoming.callInner, if_neg (show ¬ 0 < cbResult by omega), Incoming.Session.advance, hf,
          if_pos hlt] at hs
        obtain rfl := Option.some.inj hs
        refine ⟨?_, rfl, rfl⟩
        have hsession : Incoming.Session.rank (r.session.written k pos fin .pending).1 =
            r.session.rank + 1 := by
          simp [Incoming.Session.written, Incoming.Session.goOn, Incoming.Session.rank,
            Incoming.Session.pendingBytes, Incoming.Session.cursor, Incoming.BufReadWrite.setROffset, hf,
            Incoming.Fut.weight]
        show Incoming.Session.rank (r.session.written k pos fin .pending).1 + r.weight =
          r.session.rank + r.weight + 1
        rw [hsession]
        omega
      · cases hs
    · cases hs

end

namespace Echo

/-- The reader takes a step of its own. A sleeping reader that was not woken has nothing for its
    waking, which then costs up to 10. -/
theorem readRank_rxStep {a : Incoming.Act} (h : s.Ok config incoming) (hc : s.calling = false)
    (ha : ofReader a = true) (hh : a ≠ .readErr) (hs : s.rxStep config a = some s') :
    s'.readRank + 1 ≤ s.readRank + (if s.parked = true ∧ s.woken = false ∧ a = .poll then 11 else 0) ∧
    s'.rx.pc.failed = false := by
  obtain ⟨rx, hrx, rfl⟩ := Option.map_eq_some_iff.mp hs
  have hhealthy : Incoming.Healthy s.rx a := by
    cases a with
    | onMsg => cases ha
    | readErr => exact absurd rfl hh
    | _ => trivial
  obtain ⟨hlt, hfail⟩ := Incoming.rank_lt h.rx hhealthy hrx
  have hawake : asleep rx.session = false := (offers_step hrx ha).2
  refine ⟨?_, hfail⟩
  simp only [readRank, callRank, wakeRank, parked, hawake, hc, Bool.false_or, Bool.false_and]
  rcases Bool.eq_false_or_eq_true (asleep s.rx.session) with hp | hp
  · cases a with
    | onMsg => cases ha
    | poll =>
      rcases Bool.eq_false_or_eq_true s.woken with hw | hw
      · simp [hp, hw]; omega
      · simp [hp, hw]; omega
    | tick =>
      have htick := rank_tick hrx
      simp [hp]
      omega
    | readOk | readErr =>
      -- a sleeping future does not read
      unfold asleep at hp
      split at hp
      · rename_i hf
        simp only [Incoming.step, Incoming.Session.advance, hf] at hrx
        split at hrx <;> cases hrx
      · cases hp
  · simp [hp]; omega

/-- `on_message_async` returns: the reader has got rid of some bytes, or goes to sleep. -/
theorem readRank_returns (h : s.Ok config incoming) (hcons : (s.tx.rings s.tx.ringBuf).consHeld = true)
    (hf : s.rx.pc.failed = false) (hs : s.step config .returns = some s') :
    s'.readRank + 1 ≤ s.readRank ∧ s'.tx = s.tx ∧ s'.rx.pc.failed = false := by
  simp only [step] at hs
  split at hs
  · rename_i c hc hidle hlast
    obtain ⟨rx, hrx, rfl⟩ := Option.map_eq_some_iff.mp hs
    obtain ⟨hk, hoff, hmsg⟩ := h.message hc
    cases hmsg with
    | check hs' | burst hs' | register hs' => rw [hidle] at hs'; cases hs'
    | @returned c' err cbResult _ hc' hres hle hacc harmed hclosed =>
      obtain rfl := Option.some.inj (hlast.symm.trans hc')
      rw [hres] at hrx
      obtain rfl : err = none := by
        by_contra hne
        rw [hclosed hne] at hcons; cases hcons
      have hcall : callWeight s.tx.sender = 4 := by rw [hidle]; rfl
      have hhealthy : 0 < cbResult → Incoming.Healthy s.rx (.onMsg none cbResult) :=
        fun hpos => ⟨rfl, hpos, hle⟩
      rw [readRank, readRank, callRank, callRank, wakeRank, wakeRank, hc, hcall, parked]
      by_cases hpos : 0 < cbResult
      · obtain ⟨hlt, hfail⟩ := Incoming.rank_lt h.rx (hhealthy hpos) hrx
        have hawake : asleep rx.session = false := by
          by_contra hne
          have hn := ((offers_onMsg hrx hle).2 (by simpa using hne)).2
          omega
        refine ⟨?_, rfl, hfail⟩
        simp [hawake]
        omega
      · obtain ⟨hrank, hpc, hasleep⟩ := rank_pending hrx (by omega)
        refine ⟨?_, rfl, hpc ▸ hf⟩
        simp [hasleep, hrank, woken]
        omega
  · cases hs

/-- `on_message_async` is called: the reader was awake. -/
theorem readRank_message (hs : s.step config .message = some s') :
    s'.readRank + 1 ≤ s.readRank ∧ s'.rx = s.rx ∧
    ∃ pc, s.tx.sender = .idle ∧ s'.tx = s.tx.senderAt pc ∧ pc.accepted = [] ∧ pc.gone = false := by
  simp only [step] at hs
  split at hs
  · rename_i hg
    obtain ⟨hc, hk, hoff⟩ := hg
    obtain ⟨tx, htx, rfl⟩ := Option.map_eq_some_iff.mp hs
    simp only [Outgoing.step] at htx
    split at htx
    · rename_i hidle
      have hstart : Outgoing.startCall s.tx (.sendAsync s.rx.session.offered wrapWaker) =
          s.tx.senderAt (.checkClosed s.rx.session.offered wrapWaker false) := by
        rw [Outgoing.startCall, if_neg hoff]
      obtain rfl := hstart.symm.trans (Option.some.inj htx)
      have hawake : asleep s.rx.session = false := by
        by_contra hne
        have hasleep : asleep s.rx.session = true := by simpa using hne
        unfold asleep at hasleep
        split at hasleep
        · rename_i hf
          exact hoff (by simp only [Incoming.Session.offered, hf])
        · cases hasleep
      refine ⟨?_, rfl, _, hidle, rfl, rfl, rfl⟩
      simp [readRank, callRank, wakeRank, parked, hawake, hc, woken, callWeight]
    · cases htx
  · cases hs

end Echo

/-- Each step of `send_async` goes on in its code or pushes something. -/
theorem callWeight_lt {bytes done : List UInt8} {since : Nat} (h : InMessage tx bytes done since)
    (hinv : Outgoing.Inv tx) (hs : Outgoing.senderStep tx = some tx') :
    callWeight tx'.sender + tx.accepted.length + 1 ≤ callWeight tx.sender + tx'.accepted.length := by
  have hacc := (hinv.senderStep hs).accepted.length_le
  have hgo : callWeight tx'.sender < callWeight tx.sender →
      callWeight tx'.sender + tx.accepted.length + 1 ≤ callWeight tx.sender + tx'.accepted.length := by
    omega
  cases h with
  | @check registered hsd =>
    refine hgo ?_
    simp only [Outgoing.senderStep, hsd] at hs
    split at hs <;> (obtain rfl := Option.some.inj hs; rw [hsd]; cases registered <;> simp [callWeight])
  | register hsd =>
    refine hgo ?_
    simp only [Outgoing.senderStep, hsd] at hs
    obtain rfl := Option.some.inj hs
    simp [hsd, callWeight]
  | @burst offset registered hsd =>
    have hweight : 5 ≤ callWeight tx.sender := by
      rw [hsd]; cases registered <;> simp [callWeight]
    have hnew : registered = false → callWeight tx.sender = 8 := by
      rintro rfl
      rw [hsd]; rfl
    simp only [Outgoing.senderStep, hsd] at hs
    obtain rfl := Option.some.inj hs
    rw [Outgoing.burstWrite_sendAsync] at hacc hgo ⊢
    split
    · rename_i hzero
      rw [if_pos hzero] at hacc hgo
      refine hgo ?_
      simp only [Outgoing.burstPending]
      split
      · exact hweight
      · cases registered with
        | true => exact hweight
        | false => rw [hnew rfl]; exact Nat.lt_succ_self _
    · rename_i hne
      rw [if_neg hne] at hacc hgo
      have hle : Outgoing.restCount tx bytes offset ≤ (bytes.drop offset).length :=
        Outgoing.Ring.pushCount_le _ _
      rw [List.length_drop] at hle
      split
      · rename_i hall
        rw [if_pos hall] at hgo
        exact hgo hweight
      · -- the burst goes on, with more of the message in the ring
        have hsame : callWeight (.burstWrite (.sendAsync bytes wrapWaker)
            (offset + Outgoing.restCount tx bytes offset) registered) = callWeight tx.sender := by
          rw [hsd]; cases registered <;> rfl
        have hpushed : (tx.calls.flatMap Outgoing.Call.accepted ++
            bytes.take (offset + Outgoing.restCount tx bytes offset)).length =
            tx.accepted.length + Outgoing.restCount tx bytes offset := by
          have hop : (Outgoing.Op.sendAsync bytes wrapWaker).bytes = bytes := rfl
          rw [Outgoing.State.accepted, hsd]
          simp only [Outgoing.SenderPc.accepted, hop, List.length_append, List.length_take]
          omega
        show callWeight (.burstWrite _ _ _) + _ + 1 ≤ _ + (tx.calls.flatMap Outgoing.Call.accepted ++
          bytes.take (offset + Outgoing.restCount tx bytes offset)).length
        rw [hsame, hpushed]
        omega
  | returned hsd =>
    simp only [Outgoing.senderStep, hsd] at hs
    cases hs

namespace Echo

/-- `send_async` goes on. -/
theorem rank_sender (h : s.Ok config incoming) (h' : s'.Ok config incoming) (hc : s.calling = true)
    (hs : s.step config .sender = some s') :
    s'.readRank + s'.sendRank incoming.length + 1 ≤ s.readRank + s.sendRank incoming.length ∧
    s'.rx = s.rx ∧ s'.tx.writer = s.tx.writer := by
  obtain ⟨tx, htx, rfl⟩ := Option.map_eq_some_iff.mp hs
  have hstep : Outgoing.senderStep s.tx = some tx := htx
  have hf := Outgoing.senderMove_frame (.step hstep)
  have hwoken := (Outgoing.senderMove_slots (.step hstep)).2
  have hlt := callWeight_lt (h.message hc).2.2 h.tx hstep
  have hgrow := (h.tx.senderStep hstep).accepted.length_le
  have htotal := h'.accepted_isPrefix.length_le
  have hwritten := h.tx.core.written.length_le
  have hring : tx.ringBuf = s.tx.ringBuf := by
    have hb := h.tx.ringBuf_lt
    have hb' := h'.tx.ringBuf_lt
    rw [h.one] at hb
    rw [h'.one] at hb'
    have hb' : tx.ringBuf < 1 := hb'
    omega
  have hocc : openWeight (tx.rings tx.ringBuf).occ.length tx.writer ≤
      openWeight (s.tx.rings s.tx.ringBuf).occ.length s.tx.writer := by
    rw [hring, hf.writer]
    exact openWeight_mono (Outgoing.senderMove_grows (.step hstep) h.tx.ringBuf_lt).occ.length_le _
  refine ⟨?_, rfl, hf.writer⟩
  simp only [readRank, callRank, wakeRank, sendRank, woken, parked, hc, hwoken, if_true,
    Outgoing.State.unwritten, hf.written] at htotal ⊢
  omega

/-- The writer goes on, while the sender is held. -/
theorem rank_writer {a : Outgoing.Act} (h : s.Ok config incoming) (hheld : Held s.tx)
    (ha : a.ofUser = false) (hs : s.txStep config a = some s') :
    s'.readRank + s'.sendRank incoming.length + 1 ≤ s.readRank + s.sendRank incoming.length := by
  obtain ⟨tx, htx, rfl⟩ := Option.map_eq_some_iff.mp hs
  have hm := Outgoing.step_writer ha htx
  have hf := Outgoing.writerMove_frame h.tx.core hm
  have hacc : tx.accepted = s.tx.accepted := by
    rw [Outgoing.State.accepted, Outgoing.State.accepted, hf.calls, hf.sender]
  have hlt := openWeight_lt hheld h.tx hm
  have hwake : wakeRank { s with tx } ≤ s.wakeRank + (if tx.woken = s.tx.woken then 0 else 11) := by
    split
    · rename_i hwoken
      rw [wakeRank, wakeRank, woken, woken]
      simp only [hwoken]
      exact le_rfl
    · rw [wakeRank]
      split <;> omega
  have hcall : callRank { s with tx } = s.callRank := by
    rw [callRank, callRank, hf.sender]
    rfl
  simp only [readRank, sendRank, hcall, hf.ringBuf, hacc]
  omega

/-- The sender is dropped only after the reader has returned. -/
theorem Ok.reader_of_gone (h : s.Ok config incoming) (hg : s.tx.sender.gone = true) :
    s.calling = false ∧ s.rx.pc = .returnedOk := by
  have hopen : s.tx.sender.openRings s.tx.ringBuf = [] := by
    cases hs : s.tx.sender <;> rw [hs] at hg <;> first | rfl | cases hg
  have hpc := (h.gone_of_openRings hopen).2.1
  refine ⟨?_, hpc⟩
  by_contra hne
  have hk := (h.message (by simpa using hne)).1
  rw [hpc] at hk
  exact hk rfl

theorem Ok.dropped (h : s.Ok config incoming) (hr : (machine R config incoming).Reach s)
    (hg : s.tx.sender.gone = true) : Outgoing.Dropped s.tx :=
  ⟨h.tx, hg, Outgoing.reach_tx (reach_tx hr)⟩

/-- From the drop of the sender on only the outgoing side moves. -/
theorem step_gone {a : EchoAct} (h : s.Ok config incoming) (hg : s.tx.sender.gone = true)
    (ha : a.healthy = true) (hs : s.step config a = some s') :
    s'.rx = s.rx ∧ ∃ b : Outgoing.Act, b.healthy = true ∧ Outgoing.step config s.tx b = some s'.tx := by
  obtain ⟨hc, hpc⟩ := h.reader_of_gone hg
  have hrx : ∀ {a : Incoming.Act}, s.rxStep config a ≠ some s' := by
    intro a hs
    obtain ⟨rx, hrx, -⟩ := Option.map_eq_some_iff.mp hs
    simp [Incoming.step, hpc, Incoming.ReaderPc.awaits] at hrx
  cases a with
  | rx a =>
    simp only [step] at hs
    split at hs
    · cases hs
    · exact absurd hs hrx
  | poll =>
    simp only [step] at hs
    split at hs
    · exact absurd hs hrx
    · cases hs
  | message =>
    simp only [step] at hs
    split at hs
    · rename_i hguard
      rw [hpc] at hguard
      exact absurd rfl hguard.2.1
    · cases hs
  | sender =>
    obtain ⟨tx, htx, rfl⟩ := Option.map_eq_some_iff.mp hs
    exact ⟨rfl, .sender, rfl, htx⟩
  | returns =>
    simp only [step, hc] at hs
    cases hs
  | remoteClose =>
    simp only [step] at hs
    split at hs
    · obtain ⟨tx, htx, rfl⟩ := Option.map_eq_some_iff.mp hs
      simp only [Outgoing.step] at htx
      split at htx
      · rename_i hidle
        rw [hidle] at hg; cases hg
      · cases htx
    · cases hs
  | tx a =>
    simp only [step] at hs
    split at hs
    · cases hs
    · obtain ⟨tx, htx, rfl⟩ := Option.map_eq_some_iff.mp hs
      exact ⟨rfl, a, ha, htx⟩

/-- `on_remote_close` leaves the rest to the writer. -/
theorem rank_remoteClose (total : Nat) (hheld : Held s.tx) (hs : s.step config .remoteClose = some s') :
    s'.tx.sender.gone = true ∧ s'.tx.drainRank + 1 ≤ s.sendRank total + 40 ∧ s'.rx = s.rx ∧
      s'.tx.writer = s.tx.writer := by
  simp only [step] at hs
  split at hs
  · obtain ⟨tx, htx, rfl⟩ := Option.map_eq_some_iff.mp hs
    simp only [Outgoing.step] at htx
    split at htx
    · rename_i hidle
      obtain rfl := Option.some.inj htx
      refine ⟨rfl, ?_, rfl, rfl⟩
      have hle := Outgoing.State.drainRank_le ((s.tx.updRing s.tx.ringBuf fun r =>
        { r with prodHeld := false }).senderAt .dropRingsPrd)
      have hacc : Outgoing.State.accepted ((s.tx.updRing s.tx.ringBuf fun r =>
          { r with prodHeld := false }).senderAt .dropRingsPrd) = s.tx.accepted := by
        rw [Outgoing.State.accepted, Outgoing.State.accepted, hidle]
        rfl
      have hqueue : s.tx.queue.length ≤ 1 := by
        have hlive := congrArg List.length hheld.live
        rw [Outgoing.State.live, List.length_append] at hlive
        exact (Nat.le_add_left _ _).trans_eq hlive
      rw [hacc] at hle
      simp only [Outgoing.State.senderAt_written, Outgoing.State.senderAt_queue,
        Outgoing.State.updRing_written, Outgoing.State.updRing_queue] at hle
      simp only [sendRank, Outgoing.State.unwritten]
      omega
    · cases htx
  · cases hs

/-! ### Each step is nearer to the end -/

/-- What a poll that nobody asked for may cost. -/
def pollCost (a : EchoAct) : Nat := 11 * (a == .poll).toNat

theorem rank_of_held (hg : s.tx.sender.gone = false) (total : Nat) :
    s.rank total = s.readRank + s.sendRank total + 40 := by
  rw [rank, hg]; rfl

theorem sendRank_congr (h : s'.tx = s.tx) (total : Nat) : s'.sendRank total = s.sendRank total := by
  rw [sendRank, sendRank, h]

/-- A step while the sender is held. -/
theorem rank_held {a : EchoAct} (h : s.Ok config incoming) (h' : s'.Ok config incoming) (hf : s.Sound)
    (hg : s.tx.sender.gone = false) (ha : a.healthy = true) (hs : s.step config a = some s') :
    s'.rank incoming.length + 1 ≤ s.rank incoming.length + pollCost a ∧ s'.Sound := by
  have hheld := h.held hf hg
  rw [rank_of_held hg]
  have hreader : ∀ {b : Incoming.Act}, s.calling = false → ofReader b = true → b ≠ .readErr →
      (s.parked = true → s.woken = false → b = .poll → a = .poll) → s.rxStep config b = some s' →
      s'.rank incoming.length + 1 ≤ s.readRank + s.sendRank incoming.length + 40 + pollCost a ∧
      s'.Sound := by
    intro b hc hb hne hpoll hs
    obtain ⟨hle, hfail⟩ := readRank_rxStep h hc hb hne hs
    have htx : s'.tx = s.tx := by
      obtain ⟨rx, -, rfl⟩ := Option.map_eq_some_iff.mp hs
      rfl
    refine ⟨?_, htx ▸ hf.tx, hfail⟩
    rw [rank_of_held (htx ▸ hg), sendRank_congr htx]
    have hcost : (if s.parked = true ∧ s.woken = false ∧ b = .poll then 11 else 0) ≤ pollCost a := by
      split
      · rename_i hcond
        rw [hpoll hcond.1 hcond.2.1 hcond.2.2]
        exact le_rfl
      · exact Nat.zero_le _
    omega
  cases a with
  | rx b =>
    simp only [step] at hs
    split at hs
    · cases hs
    · rename_i hguard
      simp only [not_or, Bool.not_eq_true, Bool.not_eq_false, not_and] at hguard
      refine hreader hguard.1 hguard.2.1 ?_ (fun hp hw hb => ?_) hs
      · rintro rfl; cases ha
      · rw [hguard.2.2 hb hp] at hw; cases hw
  | poll =>
    simp only [step] at hs
    split at hs
    · rename_i hguard
      exact hreader hguard.1 rfl (by simp) (fun _ _ _ => rfl) hs
    · cases hs
  | message =>
    obtain ⟨hle, hrx, pc, hidle, htx, hacc, hgone⟩ := readRank_message hs
    have hsend : s'.sendRank incoming.length = s.sendRank incoming.length := by
      have haccepted : s'.tx.accepted = s.tx.accepted := by
        rw [htx, Outgoing.State.accepted, Outgoing.State.accepted, hidle]
        exact congrArg _ hacc
      rw [sendRank, sendRank, Outgoing.State.unwritten, Outgoing.State.unwritten, haccepted, htx]
      rfl
    have hg' : s'.tx.sender.gone = false := by rw [htx]; exact hgone
    refine ⟨?_, by rw [htx]; exact hf.tx, hrx ▸ hf.rx⟩
    rw [rank_of_held hg', hsend]
    omega
  | sender =>
    have hc : s.calling = true := by
      by_contra hne
      rcases (h.quiet (by simpa using hne)).1 with hidle | hgone
      · obtain ⟨tx, htx, -⟩ := Option.map_eq_some_iff.mp hs
        simp [Outgoing.step, Outgoing.senderStep, hidle] at htx
      · rw [hg] at hgone; cases hgone.1
    obtain ⟨hle, hrx, hw⟩ := rank_sender h h' hc hs
    have hc' : s'.calling = true := by
      obtain ⟨tx, -, rfl⟩ := Option.map_eq_some_iff.mp hs
      exact hc
    have hg' : s'.tx.sender.gone = false := by
      by_contra hne
      rw [(h'.reader_of_gone (by simpa using hne)).1] at hc'
      cases hc'
    refine ⟨?_, hw ▸ hf.tx, hrx ▸ hf.rx⟩
    rw [rank_of_held hg']
    omega
  | returns =>
    obtain ⟨hle, htx, hfail⟩ := readRank_returns h hheld.cons hf.rx hs
    refine ⟨?_, htx ▸ hf.tx, hfail⟩
    rw [rank_of_held (htx ▸ hg), sendRank_congr htx]
    omega
  | remoteClose =>
    obtain ⟨hg', hle, hrx, hw⟩ := rank_remoteClose incoming.length hheld hs
    refine ⟨?_, hw ▸ hf.tx, hrx ▸ hf.rx⟩
    rw [rank, hg', if_pos rfl]
    omega
  | tx b =>
    simp only [step] at hs
    split at hs
    · cases hs
    · rename_i hb
      have hle := rank_writer h hheld (by simpa using hb) hs
      obtain ⟨tx, htx, rfl⟩ := Option.map_eq_some_iff.mp hs
      have hsender := (Outgoing.writerMove_sender (Outgoing.step_writer (by simpa using hb) htx)).1
      refine ⟨?_, Outgoing.failed_step ha htx hf.tx, hf.rx⟩
      rw [rank_of_held (hsender ▸ hg)]
      omega

theorem rank_step {a : EchoAct} (hr : (machine R config incoming).Reach s) (hf : s.Sound)
    (ha : a.healthy = true) (hs : s.step config a = some s') :
    s'.rank incoming.length + 1 ≤ s.rank incoming.length + pollCost a ∧ s'.Sound := by
  have h := reach_ok hr
  cases hg : s.tx.sender.gone with
  | false => exact rank_held h (h.step hs) hf hg ha hs
  | true =>
    have hd := h.dropped hr hg
    obtain ⟨hrx, b, hb, htx⟩ := step_gone h hg ha hs
    have hlt := Outgoing.drainRank_lt hd htx
    refine ⟨?_, Outgoing.failed_step hb htx hf.tx, hrx ▸ hf.rx⟩
    rw [rank, rank, hg, (hd.step htx).1.gone, if_pos rfl, if_pos rfl]
    omega

theorem potential_echo (R : RingBuffer UInt8) (config : ConnConfig) (incoming : List UInt8) :
    (machine R config incoming).Potential (fun _ a => a.healthy = true)
    (fun s => (machine R config incoming).Reach s ∧ s.Sound) (fun _ => 1) pollCost
    (rank incoming.length) where
  keeps _ _ _ hI ha hs := ⟨hI.1.tail trivial hs, (rank_step hI.1 hI.2 ha hs).2⟩
  pays _ _ _ hI ha hs := (rank_step hI.1 hI.2 ha hs).1

/-- Without the polls that nobody asked for the rank goes down at every step. -/
theorem ranked_echo (R : RingBuffer UInt8) (config : ConnConfig) (incoming : List UInt8) :
    (machine R config incoming).Ranked (fun _ a => a.healthy = true ∧ a ≠ .poll)
    (fun s => (machine R config incoming).Reach s ∧ s.Sound) (rank incoming.length) where
  keeps _ _ _ hI ha hs := ⟨hI.1.tail trivial hs, (rank_step hI.1 hI.2 ha.1 hs).2⟩
  lt _ a _ hI ha hs := by
    have hle := (rank_step hI.1 hI.2 ha.1 hs).1
    have hcost : pollCost a = 0 := by rw [pollCost, beq_false_of_ne ha.2]; rfl
    omega

/-! ### Where a run ends -/

theorem rx_ne_none {a : Incoming.Act} (hc : s.calling = false) (ha : ofReader a = true)
    (hp : s.parked = true → s.woken = true) (hs : Incoming.step config s.rx a ≠ none) :
    s.step config (.rx a) ≠ none := by
  simp only [step, rxStep]
  split
  · rename_i hguard
    rcases hguard with hcall | hof | ⟨-, hpark, hw⟩
    · rw [hc] at hcall; cases hcall
    · rw [ha] at hof; cases hof
    · rw [hp hpark] at hw; cases hw
  · simpa using hs

/-- The reader sleeps since `on_msg` was pending, and was not woken. -/
structure Asleep (s : Echo R) : Prop where
  calling : s.calling = false
  awaits : s.rx.pc.awaits ≠ none
  parked : s.parked = true
  woken : s.woken = false

/-- Before the sender is dropped the reader or its call can go on, or the reader sleeps. -/
theorem Ok.progress_or_asleep (h : s.Ok config incoming) (hf : s.rx.pc.failed = false)
    (hg : s.tx.sender.gone = false) :
    (∃ a : EchoAct, a.healthy = true ∧ a ≠ .poll ∧ (∀ b, a ≠ .tx b) ∧ s.step config a ≠ none) ∨
    s.Asleep := by
  cases hc : s.calling with
  | true =>
    left
    obtain ⟨hk, hoff, hmsg⟩ := h.message hc
    cases hmsg with
    | check hs | burst hs | register hs =>
      refine ⟨.sender, rfl, by simp, by simp, ?_⟩
      simp only [Echo.step, txStep, Outgoing.step, Outgoing.senderStep, hs]
      repeat' split
      all_goals simp
    | @returned c err cbResult hs hlast hres =>
      refine ⟨.returns, rfl, by simp, by simp, ?_⟩
      simp only [Echo.step, hc, hs, hlast, hres, Echo.rxStep]
      simpa using onMsg_ne_none h.rx hk hoff err cbResult
  | false =>
    obtain ⟨hidle | hgone, -, -⟩ := h.quiet hc
    swap
    · rw [hg] at hgone; cases hgone.1
    rcases Incoming.ReaderPc.cases_awaits hf with hpc | ⟨k, hk⟩
    · refine .inl ⟨.remoteClose, rfl, by simp, by simp, ?_⟩
      simp [Echo.step, hc, hpc, txStep, Outgoing.step, hidle]
    · have hne : s.rx.pc.awaits ≠ none := by rw [hk]; simp
      by_cases hoff : s.rx.session.offered = []
      · by_cases hp : s.parked = true → s.woken = true
        · left
          rcases h.rx.progress hk with ⟨a, ha, -, hs⟩ | ⟨-, hs⟩ | ⟨-, hs⟩
          · cases a with
            | onMsg err cbResult =>
              obtain ⟨-, hpos, hle⟩ := ha
              simp only [hoff, List.length_nil] at hle
              omega
            | readErr => exact ha.elim
            | poll | readOk | tick => exact ⟨.rx _, rfl, by simp, by simp, rx_ne_none hc rfl hp hs⟩
          · exact ⟨.rx (.readOk 1), rfl, by simp, by simp, rx_ne_none hc rfl hp hs⟩
          · exact ⟨.rx (.readOk 0), rfl, by simp, by simp, rx_ne_none hc rfl hp hs⟩
        · obtain ⟨hpark, hw⟩ := Classical.not_imp.mp hp
          exact .inr ⟨hc, hne, hpark, by simpa using hw⟩
      · refine .inl ⟨.message, rfl, by simp, by simp, ?_⟩
        simp [Echo.step, hc, hne, hoff, txStep, Outgoing.step, hidle]

/-- The ring of a sleeping reader is full, or the writer is about to wake it. -/
theorem Ok.full_of_asleep (h : s.Ok config incoming) (ha : s.Asleep) :
    Full (s.tx.rings s.tx.ringBuf) ∨ s.tx.writer.wakes = some s.tx.ringBuf :=
  (((h.quiet ha.calling).2.2 ha.parked).armed.resolve_left fun hmem => of_decide_eq_false ha.woken hmem).2

/-- Before the sender is dropped there is always a step that is no failure and needs no poll that nobody
    asked for: a sleeping reader was woken, or the writer is on its way to wake it. -/
theorem Ok.progress (h : s.Ok config incoming) (hf : s.Sound) (hg : s.tx.sender.gone = false) :
    ∃ a : EchoAct, a.healthy = true ∧ a ≠ .poll ∧ s.step config a ≠ none := by
  rcases h.progress_or_asleep hf.rx hg with ⟨a, ha, hpoll, -, hs⟩ | hasleep
  · exact ⟨a, ha, hpoll, hs⟩
  · obtain ⟨b, hb, hu, hs⟩ :=
      (h.held hf hg).enabled config ((h.full_of_asleep hasleep).imp_left And.left)
    refine ⟨.tx b, hb, by simp, ?_⟩
    simp [Echo.step, hu, txStep, hs]

/-- A connection that can go no further has sent everything back and closed its side. -/
theorem Ok.of_stuck (h : s.Ok config incoming) (hr : (machine R config incoming).Reach s) (hf : s.Sound)
    (hst : ∀ a : EchoAct, a.healthy = true → a ≠ .poll → s.step config a = none) :
    s.rx.pc = .returnedOk ∧ s.tx.writer = .returned .ok ∧ s.tx.written = incoming := by
  have hg : s.tx.sender.gone = true := by
    by_contra hne
    obtain ⟨a, ha, hpoll, hs⟩ := h.progress hf (by simpa using hne)
    exact hs (hst a ha hpoll)
  have hd := h.dropped hr hg
  obtain ⟨res, hres⟩ := hd.of_stuck config fun b hb => by
    cases hu : b.ofUser with
    | false =>
      have hnone := hst (.tx b) hb (by simp)
      show Outgoing.step config s.tx b = none
      simpa [Echo.step, hu, txStep] using hnone
    | true =>
      cases b with
      | sender =>
        have hnone := hst .sender rfl (by simp)
        show Outgoing.step config s.tx .sender = none
        simpa [Echo.step, txStep] using hnone
      | call | repoll | dropSender =>
        simp only [Outgoing.machine, Outgoing.step]
        cases hs : s.tx.sender <;> rw [hs] at hg <;> first | rfl | cases hg
      | writer | tick | wrote | writeFails | shutdownOk | shutdownFails | abort => cases hu
  have hok : res = .ok := by
    have hfail := hf.tx
    rw [hres] at hfail
    simpa [Outgoing.WriterPc.failed] using hfail
  subst hok
  obtain ⟨-, -, hend⟩ := echo_in_order _ _ _ s hr
  exact ⟨(hend hres).1, hres, (hend hres).2⟩

theorem callRank_le (s : Echo R) : s.callRank ≤ 22 := by
  have hle : callWeight s.tx.sender ≤ 9 := by
    cases s.tx.sender with
    | checkClosed bytes waker registered | burstWrite op offset registered =>
      cases registered <;> simp [callWeight]
    | _ => simp [callWeight]
  unfold callRank
  split
  · omega
  · split <;> omega

theorem Ok.rank_le (h : s.Ok config incoming) : s.rank incoming.length ≤
    131 * incoming.length + 12 * Incoming.msgBufSize config + 20 * s.tx.queue.length + 250 := by
  have hacc := h.accepted_isPrefix.length_le
  have hwritten := h.tx.core.written.length_le
  rw [rank]
  split
  · have hdrain := s.tx.drainRank_le
    omega
  · have hrx := h.rx.rank_le
    have hrest : s.rx.session.rest.length ≤ incoming.length := by
      rw [← congrArg List.length h.rx.ok.stream, List.length_append]
      exact Nat.le_add_left _ _
    have hcall := s.callRank_le
    have hwake : s.wakeRank ≤ 11 := by unfold wakeRank; split <;> omega
    have hopen := openWeight_le (s.tx.rings s.tx.ringBuf).occ.length s.tx.writer
    simp only [readRank, sendRank, Outgoing.State.unwritten]
    omega

/-- The echo comes to its end. From any reachable state in which nothing has failed, and as long as no
    socket fails and no task is aborted, the number of steps is bounded by the length of the stream, the
    buffer and the polls that nobody asked for; a connection that can go no further without such a poll
    has read to the end of the stream, has sent every byte of it back in order and has shut down its
    side. No wake-up is lost on the way. -/
theorem echo_completes (R : RingBuffer UInt8) (config : ConnConfig) (incoming : List UInt8) (s t : Echo R)
    (as : List EchoAct) (hr : (machine R config incoming).Reach s) (hf : s.Sound)
    (has : ∀ a ∈ as, a.healthy = true) (hrun : (machine R config incoming).run s as = some t) :
    as.length ≤ 131 * incoming.length + 12 * Incoming.msgBufSize config + 20 * s.tx.queue.length + 250 +
      11 * as.count .poll ∧
    ((∀ a : EchoAct, a.healthy = true → a ≠ .poll → t.step config a = none) →
      t.rx.pc = .returnedOk ∧ t.tx.writer = .returned .ok ∧ t.tx.written = incoming) := by
  obtain ⟨⟨hrt, hft⟩, hle⟩ := (potential_echo R config incoming).total_le ⟨hr, hf⟩
    (Machine.along_of_forall has s) hrun
  refine ⟨?_, (reach_ok hrt).of_stuck hrt hft⟩
  have hcost : Machine.total pollCost as = 11 * as.count .poll := Machine.total_toNat 11 _ as
  have hrank := (reach_ok hr).rank_le
  rw [Machine.total_const] at hle
  omega

/-- With the writer standing still, the reader of a stream that is longer than a ring goes to sleep. -/
theorem reach_asleep (R : RingBuffer UInt8) (config : ConnConfig)
    (hlong : ringBufferSize < incoming.length) :
    ∃ s : Echo R, (machine R config incoming).Reach s ∧ s.Sound ∧ s.Asleep ∧
      Full (s.tx.rings s.tx.ringBuf) := by
  have hinit : (machine R config incoming).init.Sound := by
    have hpos := Incoming.msgBufSize_pos config
    refine ⟨rfl, ?_⟩
    rw [machine, Incoming.handleReader, Incoming.BufReadWrite.new, if_pos hpos]
    rfl
  let still : Echo R → EchoAct → Prop := fun _ a => (a.healthy = true ∧ a ≠ .poll) ∧ ∀ b, a ≠ .tx b
  have hranked : (machine R config incoming).Ranked still _ _ :=
    (ranked_echo R config incoming).mono fun _ _ h => h.1
  obtain ⟨as, t, hal, hrun, hst⟩ := hranked.exists_stuck ⟨.refl, hinit⟩
  obtain ⟨⟨hr, hf⟩, -⟩ := hranked.length_le ⟨.refl, hinit⟩ hal hrun
  have h := reach_ok hr
  obtain ⟨hw, hwritten⟩ : t.tx.writer = .recv ∧ t.tx.written = [] := by
    refine (Machine.path_of_along hal hrun).invariant
      (I := fun u => u.tx.writer = .recv ∧ u.tx.written = []) ⟨rfl, rfl⟩ ?_
    rintro u a v ⟨-, hne⟩ ⟨hw, hwritten⟩ hs
    rcases tx_step hs with hsame | ⟨b, hb, huser | rfl⟩
    · rw [hsame]; exact ⟨hw, hwritten⟩
    · have hframe := Outgoing.senderMove_frame (Outgoing.step_user huser hb)
      exact ⟨hframe.writer.trans hw, hframe.written.trans hwritten⟩
    · exact absurd rfl (hne b)
  have hg : t.tx.sender.gone = false := by
    by_contra hgone
    obtain ⟨hc, hpc⟩ := h.reader_of_gone (by simpa using hgone)
    have hall : t.tx.accepted = incoming := (h.quiet hc).2.1.trans (h.rx.consumed_all hpc)
    have hle := h.length_accepted_le (by rw [hw]; rfl)
    rw [hall, hwritten, List.length_nil] at hle
    omega
  rcases h.progress_or_asleep hf.rx hg with ⟨a, ha, hpoll, hne, hs⟩ | hasleep
  · exact absurd (hst a ⟨⟨ha, hpoll⟩, hne⟩) hs
  · refine ⟨t, hr, hf, hasleep, (h.full_of_asleep hasleep).resolve_right fun hwakes => ?_⟩
    rw [hw] at hwakes
    cases hwakes

/-- A sleeping future does not read, and without auto flush there is no tick. -/
theorem step_asleep {r r' : Incoming.Reader} {a : Incoming.Act} (hauto : Incoming.autoFlush config = false)
    (hp : asleep r.session = true) (ha : ofReader a = true) (hs : Incoming.step config r a = some r') :
    a = .poll := by
  unfold asleep at hp
  split at hp
  · rename_i hf
    unfold Incoming.step at hs
    split at hs
    · cases hs
    · cases a with
      | poll => rfl
      | onMsg => cases ha
      | readOk | readErr => simp [Incoming.Session.advance, hf] at hs
      | tick => simp [hauto] at hs
  · cases hp

/-- A reader that slept and has gone on was woken. -/
theorem woken_of_slept {t : Echo R} (hauto : Incoming.autoFlush config = false)
    (hp : (machine R config incoming).Path (fun _ a => a ≠ .poll) s t) (h : s.Asleep) :
    t.rx = s.rx ∨ wrapWaker ∈ t.tx.woken.drop s.since := by
  have hasleep : asleep s.rx.session = true := h.parked
  refine Or.imp_left And.left (hp.invariant (I := fun u => (u.rx = s.rx ∧ u.calling = false ∧
    u.since = s.since) ∨ wrapWaker ∈ u.tx.woken.drop s.since) (.inl ⟨rfl, h.calling, rfl⟩) ?_)
  rintro u a v hne (⟨hrx, hc, hsince⟩ | hwoke) (hs : u.step config a = some v)
  swap
  · rcases tx_step hs with hsame | ⟨b, hb, -⟩
    · exact .inr (hsame ▸ hwoke)
    · exact .inr (Outgoing.mem_drop_of_isPrefix hwoke (Outgoing.woken_isPrefix hb))
  have hsender : ∀ {b : Outgoing.Act}, u.txStep config b = some v →
      v.rx = s.rx ∧ v.calling = false ∧ v.since = s.since := by
    intro b hs
    obtain ⟨tx, -, rfl⟩ := Option.map_eq_some_iff.mp hs
    exact ⟨hrx, hc, hsince⟩
  cases a with
  | poll => exact absurd rfl hne
  | rx b =>
    simp only [step] at hs
    split at hs
    · cases hs
    · rename_i hguard
      simp only [not_or, Bool.not_eq_true, Bool.not_eq_false, not_and] at hguard
      obtain ⟨rx, hstep, rfl⟩ := Option.map_eq_some_iff.mp hs
      have hpark : asleep u.rx.session = true := hrx ▸ hasleep
      have hw : u.woken = true := by
        simpa using hguard.2.2 (step_asleep hauto hpark hguard.2.1 hstep) hpark
      exact .inr (hsince ▸ of_decide_eq_true hw)
  | message =>
    -- nothing is offered to a callback that was pending
    have hoff : u.rx.session.offered = [] := by
      rw [hrx]
      unfold asleep at hasleep
      split at hasleep
      · rename_i hf
        rw [Incoming.Session.offered, hf]
      · cases hasleep
    simp [step, hoff] at hs
  | returns => simp [step, hc] at hs
  | sender => exact .inl (hsender hs)
  | remoteClose =>
    simp only [step] at hs
    split at hs
    · exact .inl (hsender hs)
    · cases hs
  | tx b =>
    simp only [step] at hs
    split at hs
    · cases hs
    · exact .inl (hsender hs)

/-- A stream one byte longer than a ring: the reader sleeps on the full ring, is woken, and the stream is
    sent back whole. -/
theorem echo_completes_asleep :
    ∃ (s t : Echo (RingBuffer.circular UInt8)) (as : List EchoAct),
      (machine _ ⟨0, 0, 0⟩ (List.replicate (ringBufferSize + 1) 7)).Reach s ∧ s.Asleep ∧
      Full (s.tx.rings s.tx.ringBuf) ∧
      (machine _ ⟨0, 0, 0⟩ (List.replicate (ringBufferSize + 1) 7)).run s as = some t ∧
      .poll ∉ as ∧ wrapWaker ∈ t.tx.woken.drop s.since ∧
      t.tx.writer = .returned .ok ∧ t.tx.written = List.replicate (ringBufferSize + 1) 7 := by
  have hlong : ringBufferSize < (List.replicate (ringBufferSize + 1) (7 : UInt8)).length := by
    rw [List.length_replicate]; omega
  obtain ⟨s, hr, hf, hasleep, hfull⟩ := reach_asleep (RingBuffer.circular UInt8) ⟨0, 0, 0⟩ hlong
  obtain ⟨as, t, hal, hrun, hst⟩ := (ranked_echo _ _ _).exists_stuck ⟨hr, hf⟩
  have has := Machine.forall_of_along hal hrun
  obtain ⟨-, hend⟩ := echo_completes _ _ _ s t as hr hf (fun a ha => (has a ha).1) hrun
  obtain ⟨hpc, hwriter, hwritten⟩ := hend fun a ha hpoll => hst a ⟨ha, hpoll⟩
  have hwoken := woken_of_slept rfl ((Machine.path_of_along hal hrun).mono fun _ _ h => h.2) hasleep
  refine ⟨s, t, as, hr, hasleep, hfull, hrun, fun hmem => (has _ hmem).2 rfl, ?_, hwriter, hwritten⟩
  refine hwoken.resolve_left fun hrx => hasleep.awaits ?_
  rw [← hrx, hpc]; rfl

end Echo

end SocketManager.Transfer
