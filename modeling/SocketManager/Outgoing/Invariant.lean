import SocketManager.Lib.Log
import SocketManager.Outgoing.Drain

/-! The invariant of the outgoing side. It adds to the chain what the locals of the sender say: which
    rings it holds open, which bytes of the call in progress it has pushed, and that a ring it has
    allocated but not sent is its own and holds the rest of the message.

    One lemma per function of the sender shows that the function keeps it; the writer keeps it by
    `Core.writerMove` and because it leaves alone whatever belongs to the sender. -/

namespace SocketManager.Outgoing
variable {R : RingBuffer UInt8} {config : ConnConfig} {s s' : State R}

/-- What the call in progress has accepted so far. A ring that was sent counts whole. -/
def SenderPc.accepted : SenderPc → List UInt8
  | .burstWrite op offset _ | .newRing op offset | .sendRing op offset _ => op.bytes.take offset
  | .pollWrite bytes offset | .pollPending bytes offset => bytes.take offset
  | .setRingBuf op _ => op.bytes
  | _ => []

/-- The accepted bytes of all calls, in call order. -/
def State.accepted (s : State R) : List UInt8 :=
  s.calls.flatMap Call.accepted ++ s.sender.accepted

/-- The rings whose producer the sender holds and whose consumer it has sent. -/
def SenderPc.openRings (ringBuf : Nat) : SenderPc → List Nat
  | .setRingBuf _ ring => [ringBuf, ring]
  | .dropRingsPrd | .dropped => []
  | _ => [ringBuf]

/-- A ring that was allocated and not sent. -/
structure Unsent (s : State R) (op : Op) (offset ring : Nat) : Prop where
  lt : ring < s.fresh
  ne : ring ≠ s.ringBuf
  notLive : ring ∉ s.live
  prod : (s.rings ring).prodHeld = true
  cons : (s.rings ring).consHeld = true
  cap : ringBufferSize ≤ R.capacity (s.rings ring).rb
  occ : (s.rings ring).occ = op.bytes.drop offset

/-- What the locals of the sender say. -/
def SenderPcOk (s : State R) : Prop :=
  match s.sender with
  | .burstWrite op offset _ => offset < op.bytes.length
  | .pollWrite bytes offset | .pollPending bytes offset => offset < bytes.length
  | .newRing op offset =>
    offset ≤ op.bytes.length ∧ (op = .flush ∨ ∃ bytes, op = .sendNonblock bytes)
  | .sendRing op offset ring => offset ≤ op.bytes.length ∧ Unsent s op offset ring
  | .setRingBuf op ring => ring < s.fresh ∧ (s.rings ring).occ.length ≤ op.bytes.length
  | .checkClosed bytes _ _ | .registerWaker bytes _ => 0 < bytes.length
  | _ => True

/-- `n` bytes were accepted before some `flush` that returned `Ok`. -/
def FlushedAt (calls : List Call) (n : Nat) : Prop :=
  ∃ pre c post, calls = pre ++ c :: post ∧ c.op = .flush ∧ c.outcome = .ok ∧
    n = (pre.flatMap Call.accepted).length

/-- The invariant of the outgoing side. -/
structure Inv (s : State R) : Prop where
  core : Core s (s.sender.openRings s.ringBuf) s.accepted
  ringBuf_lt : s.ringBuf < s.fresh
  live_lt : ∀ i ∈ s.live, i < s.fresh
  tx : s.txHeld = false → s.sender = .dropped
  pc : SenderPcOk s
  /-- Bytes accepted before a flush are not in the ring the sender now pushes to. -/
  flush : ∀ n, FlushedAt s.calls n → n + (s.rings s.ringBuf).occ.length ≤ s.accepted.length

/-- A step that keeps the invariant and retracts nothing that was accepted. -/
structure Next (s s' : State R) : Prop where
  inv : Inv s'
  accepted : s.accepted <+: s'.accepted

theorem Next.trans {s'' : State R} (h₁ : Next s s') (h₂ : Next s' s'') : Next s s'' :=
  ⟨h₂.inv, h₁.accepted.trans h₂.accepted⟩

theorem flushedAt_concat {calls : List Call} {c : Call} {n : Nat} (h : FlushedAt (calls ++ [c]) n) :
    FlushedAt calls n ∨
      (c.op = .flush ∧ c.outcome = .ok ∧ n = (calls.flatMap Call.accepted).length) := by
  obtain ⟨pre, c', post, heq, hop, hout, hn⟩ := h
  rcases Log.concat_split heq with ⟨rfl, rfl⟩ | ⟨post', hcalls⟩
  · exact .inr ⟨hop, hout, hn⟩
  · exact .inl ⟨pre, c', post', hcalls, hop, hout, hn⟩

/-- Calls that returned, with one more that is not a flush. -/
theorem FlushedAt.of_concat {calls : List Call} {c : Call} {n : Nat} (hop : c.op ≠ .flush)
    (h : FlushedAt (calls ++ [c]) n) : FlushedAt calls n :=
  (flushedAt_concat h).resolve_right fun hc => hop hc.1

/-- No flush is ahead of what has been accepted. -/
theorem FlushedAt.le {calls : List Call} {n : Nat} (h : FlushedAt calls n) :
    n ≤ (calls.flatMap Call.accepted).length := by
  obtain ⟨pre, c, post, rfl, -, -, rfl⟩ := h
  simp

theorem inv_makeSender : Inv (makeSender : State R) := by
  refine ⟨.of_running ⟨rfl, by simp [State.live, makeSender, WriterPc.ring?], ⟨[], rfl, by simp⟩,
    fun _ _ => rfl, fun _ _ => rfl, fun _ _ => by simp [makeSender], trivial, ?_⟩ rfl,
    by simp [makeSender], by simp [State.live, makeSender, WriterPc.ring?], by simp [makeSender],
    trivial, ?_⟩
  · simp [State.accepted, State.backlog, State.live, makeSender, SenderPc.accepted, WriterPc.ring?]
  · rintro n ⟨pre, c, post, heq, -⟩
    simp [makeSender] at heq

/-! ### Moves of the sender -/

/-- The sender goes to another point of its code, perhaps by returning from a call. -/
def State.setSender (s : State R) (pc : SenderPc) (calls : List Call) : State R :=
  { s with sender := pc, calls := calls }

/-- A move that touches no ring and accepts nothing. -/
theorem Inv.move (h : Inv s) {pc pc' : SenderPc} {calls : List Call} (hs : s.sender = pc)
    (hd : pc ≠ .dropped) (hopen : pc'.openRings s.ringBuf = pc.openRings s.ringBuf)
    (hacc : calls.flatMap Call.accepted ++ pc'.accepted =
      s.calls.flatMap Call.accepted ++ pc.accepted)
    (hcalls : ∀ n, FlushedAt calls n → FlushedAt s.calls n)
    (hpc : SenderPcOk (s.setSender pc' calls)) : Next s (s.setSender pc' calls) := by
  subst hs
  have hacc' : (s.setSender pc' calls).accepted = s.accepted := hacc
  refine ⟨⟨?_, h.ringBuf_lt, h.live_lt, fun htx => absurd (h.tx htx) hd, hpc, fun n hn => ?_⟩, ?_⟩
  · rw [hacc']
    exact hopen ▸ h.core.sender
  · rw [hacc']; exact h.flush n (hcalls n hn)
  · rw [hacc']

/-- A move that pushes part of the message to the current ring. -/
theorem Inv.push (h : Inv s) {pc pc' : SenderPc} {calls : List Call} (bytes : List UInt8)
    (hs : s.sender = pc) (hd : pc ≠ .dropped) (hopen : pc.openRings s.ringBuf = [s.ringBuf])
    (hopen' : pc'.openRings s.ringBuf = [s.ringBuf])
    (hacc : calls.flatMap Call.accepted ++ pc'.accepted = s.calls.flatMap Call.accepted ++
      (pc.accepted ++ bytes.take ((s.rings s.ringBuf).pushCount bytes)))
    (hcalls : ∀ n, FlushedAt calls n → FlushedAt s.calls n)
    (hpc : SenderPcOk ((s.updRing s.ringBuf (·.push bytes)).setSender pc' calls)) :
    Next s ((s.updRing s.ringBuf (·.push bytes)).setSender pc' calls) := by
  subst hs
  have hacc' : ((s.updRing s.ringBuf (·.push bytes)).setSender pc' calls).accepted =
      s.accepted ++ bytes.take ((s.rings s.ringBuf).pushCount bytes) :=
    hacc.trans (List.append_assoc _ _ _).symm
  refine ⟨⟨?_, h.ringBuf_lt, h.live_lt, fun htx => absurd (h.tx htx) hd, hpc, fun n hn => ?_⟩, ?_⟩
  · rw [hacc']
    have hcore := (hopen ▸ h.core).push bytes
    exact hopen' ▸ hcore.sender
  · have hle := h.flush n (hcalls n hn)
    show n + ((s.updRing s.ringBuf (·.push bytes)).rings s.ringBuf).occ.length ≤ _
    rw [hacc', State.updRing_self, Ring.occ_push, List.length_append, List.length_append]
    omega
  · rw [hacc']; exact List.prefix_append _ _

/-- Registering a waker changes nothing the invariant depends on. -/
theorem Inv.register (h : Inv s) (i : Nat) (w : Option Waker) :
    Next s (s.updRing i fun r => { r with waker := w }) := by
  have hrb : ∀ j, ((s.updRing i fun r => { r with waker := w }).rings j).rb = (s.rings j).rb :=
    fun j => State.updRing_congr Ring.rb rfl
  have hprod : ∀ j, ((s.updRing i fun r => { r with waker := w }).rings j).prodHeld =
      (s.rings j).prodHeld := fun j => State.updRing_congr Ring.prodHeld rfl
  have hcons : ∀ j, ((s.updRing i fun r => { r with waker := w }).rings j).consHeld =
      (s.rings j).consHeld := fun j => State.updRing_congr Ring.consHeld rfl
  refine ⟨⟨h.core.congr rfl rfl rfl rfl fun j _ => ⟨hrb j, hprod j, hcons j⟩, h.ringBuf_lt,
    h.live_lt, h.tx, ?_, fun n hn => ?_⟩, List.prefix_rfl⟩
  · have hpc := h.pc
    unfold SenderPcOk at hpc ⊢
    cases hsd : s.sender <;> simp only [State.updRing_sender, hsd] at hpc ⊢ <;> try exact hpc
    case sendRing op offset ring =>
      obtain ⟨hle, hu⟩ := hpc
      exact ⟨hle, hu.lt, hu.ne, hu.notLive, (hprod ring).trans hu.prod, (hcons ring).trans hu.cons,
        by rw [hrb]; exact hu.cap, by rw [Ring.occ, hrb]; exact hu.occ⟩
    case setRingBuf op ring => exact ⟨hpc.1, by rw [Ring.occ, hrb]; exact hpc.2⟩
  · rw [Ring.occ, hrb]; exact h.flush n hn

/-! ### The functions of the sender -/

@[simp] theorem flatMap_accepted_concat (calls : List Call) (c : Call) :
    (calls ++ [c]).flatMap Call.accepted = calls.flatMap Call.accepted ++ c.accepted := by
  simp

/-- Return from a call, without touching a ring. -/
theorem Inv.ret (h : Inv s) {pc : SenderPc} {op : Op} {outcome : Outcome} {offset : Nat}
    (hs : s.sender = pc) (hd : pc ≠ .dropped) (hopen : pc.openRings s.ringBuf = [s.ringBuf])
    (hacc : Call.accepted ⟨op, outcome, offset⟩ = pc.accepted) (hop : op ≠ .flush ∨ outcome ≠ .ok) :
    Next s (s.ret op outcome offset) := by
  refine h.move hs hd hopen.symm ?_ (fun n hn => ?_) trivial
  · rw [flatMap_accepted_concat, hacc]; simp [SenderPc.accepted]
  · exact (flushedAt_concat hn).resolve_right fun hc => hop.elim (· hc.1) (· hc.2.1)

theorem Inv.startCall (h : Inv s) (op : Op) (hs : s.sender = .idle) : Next s (startCall s op) := by
  have hstart : ∀ pc : SenderPc, pc.openRings s.ringBuf = [s.ringBuf] → pc.accepted = [] →
      SenderPcOk (s.setSender pc s.calls) → Next s (s.senderAt pc) := by
    intro pc hopen hacc hpc
    exact h.move hs (by simp) hopen (by rw [hacc]; rfl) (fun _ => id) hpc
  cases op with
  | sendBlock bytes =>
    simp only [Outgoing.startCall]
    split
    · rename_i hnil
      exact h.ret hs (by simp) rfl (by simp [Call.accepted, Op.bytes, hnil, SenderPc.accepted])
        (.inl (by simp))
    · rename_i hne
      exact hstart _ rfl (by simp [SenderPc.accepted]) (List.length_pos_iff.mpr hne)
  | sendNonblock bytes =>
    simp only [Outgoing.startCall]
    split
    · rename_i hnil
      exact h.ret hs (by simp) rfl (by simp [Call.accepted, Op.bytes, hnil, SenderPc.accepted])
        (.inl (by simp))
    · rename_i hne
      exact hstart _ rfl (by simp [SenderPc.accepted]) (List.length_pos_iff.mpr hne)
  | sendAsync bytes waker =>
    simp only [Outgoing.startCall]
    split
    · exact h.ret hs (by simp) rfl (by simp [Call.accepted, SenderPc.accepted]) (.inl (by simp))
    · rename_i hne
      exact hstart _ rfl rfl (List.length_pos_iff.mpr hne)
  | flush => exact hstart _ rfl (by simp [SenderPc.accepted]) ⟨Nat.zero_le _, .inl rfl⟩

/-- What a push takes of the rest of a message extends the part already pushed. -/
theorem take_push (bytes : List UInt8) (offset n : Nat) :
    bytes.take offset ++ (bytes.drop offset).take n = bytes.take (offset + n) :=
  List.take_add.symm

section Push
variable {pc : SenderPc} {msg : List UInt8} {offset : Nat}

/-- Push the rest of the message, then go on with the call. -/
theorem Inv.push_goto (h : Inv s) (hs : s.sender = pc) (hd : pc ≠ .dropped)
    (hopen : pc.openRings s.ringBuf = [s.ringBuf]) (hmsg : pc.accepted = msg.take offset)
    (pc' : SenderPc) (hopen' : pc'.openRings s.ringBuf = [s.ringBuf])
    (hacc : pc'.accepted = msg.take (offset + (s.rings s.ringBuf).pushCount (msg.drop offset)))
    (hpc : SenderPcOk ((s.updRing s.ringBuf (·.push (msg.drop offset))).senderAt pc')) :
    Next s ((s.updRing s.ringBuf (·.push (msg.drop offset))).senderAt pc') := by
  refine h.push _ hs hd hopen hopen' ?_ (fun _ => id) hpc
  rw [hacc, hmsg, take_push]; rfl

/-- Push the rest of the message, then return. -/
theorem Inv.push_ret (h : Inv s) {op : Op} (hs : s.sender = pc) (hd : pc ≠ .dropped)
    (hopen : pc.openRings s.ringBuf = [s.ringBuf]) (hmsg : pc.accepted = msg.take offset)
    (outcome : Outcome) (k : Nat) (hop : op ≠ .flush)
    (hacc : Call.accepted ⟨op, outcome, k⟩ =
      msg.take (offset + (s.rings s.ringBuf).pushCount (msg.drop offset))) :
    Next s ((s.updRing s.ringBuf (·.push (msg.drop offset))).ret op outcome k) := by
  refine h.push _ hs hd hopen rfl ?_ (fun n hn => .of_concat hop hn) trivial
  rw [flatMap_accepted_concat, hacc, hmsg, take_push]
  simp [SenderPc.accepted]

end Push

theorem Inv.burstWrite (h : Inv s) {op : Op} {offset : Nat} {registered : Bool}
    (hs : s.sender = .burstWrite op offset registered) :
    Next s (burstWrite s op offset registered) := by
  have hoff : offset < op.bytes.length := by have := h.pc; simpa [SenderPcOk, hs] using this
  have hn := (s.rings s.ringBuf).pushCount_le (op.bytes.drop offset)
  rw [List.length_drop] at hn
  have hgoto := h.push_goto hs (by simp) rfl rfl
  have hret := @Inv.push_ret _ _ _ _ _ h op hs (by simp) rfl rfl
  simp only [Outgoing.burstWrite]
  split
  · rename_i hzero
    rw [hzero, Nat.add_zero] at hret hgoto
    cases op with
    | sendBlock bytes => exact hgoto (.pollWrite bytes offset) rfl rfl hoff
    | sendNonblock bytes => exact hgoto (.newRing _ offset) rfl rfl ⟨hoff.le, .inr ⟨bytes, rfl⟩⟩
    | flush => exact absurd hoff (by simp [Op.bytes])
    | sendAsync bytes waker =>
      simp only [burstPending]
      split
      · exact hret (.okN offset) offset (by simp) rfl
      · have hoff0 : offset = 0 := by omega
        subst hoff0
        split
        · exact hret .pending 0 (by simp) rfl
        · exact hgoto (.registerWaker bytes waker) rfl rfl hoff
  · split
    · rename_i hfin
      cases op with
      | sendAsync bytes waker => exact hret (.okN _) _ (by simp) rfl
      | flush => exact absurd hoff (by simp [Op.bytes])
      | sendBlock bytes => exact hret .ok _ (by simp) (by rw [hfin, List.take_length]; rfl)
      | sendNonblock bytes => exact hret .ok _ (by simp) (by rw [hfin, List.take_length]; rfl)
    · refine hgoto (.burstWrite op _ registered) rfl rfl ?_
      show offset + _ < op.bytes.length
      omega

theorem updRing_same (i : Nat) : s.updRing i (fun _ => s.rings i) = s := by
  simp only [State.updRing, Function.update_eq_self]

theorem updRing_updRing (i : Nat) (f g : Ring R → Ring R) :
    (s.updRing i f).updRing i g = s.updRing i fun r => g (f r) := by
  simp only [State.updRing, Function.update_self, Function.update_idem]

section PollWrite
variable {bytes : List UInt8} {offset : Nat}

/-- With the consumer gone no byte is taken and the loop goes round. -/
theorem pollWrite_of_closed (hc : (s.rings s.ringBuf).consHeld = false)
    (hoff : offset < bytes.length) :
    pollWrite s bytes offset = s.senderAt (.pollWrite bytes offset) := by
  have hp : (s.rings s.ringBuf).pollWrite (bytes.drop offset) = (some 0, s.rings s.ringBuf) := by
    rw [Ring.pollWrite, if_pos hc]
  simp only [pollWrite, hp, Nat.add_zero, if_pos hoff, updRing_same]

theorem pollWrite_of_push (hc : (s.rings s.ringBuf).consHeld = true)
    (hpos : 0 < (s.rings s.ringBuf).pushCount (bytes.drop offset)) :
    pollWrite s bytes offset =
      let n := (s.rings s.ringBuf).pushCount (bytes.drop offset)
      let s' := s.updRing s.ringBuf (·.push (bytes.drop offset))
      if offset + n < bytes.length then s'.senderAt (.pollWrite bytes (offset + n))
      else s'.ret (.sendBlock bytes) .ok (offset + n) := by
  have hp : (s.rings s.ringBuf).pollWrite (bytes.drop offset) =
      (some ((s.rings s.ringBuf).pushCount (bytes.drop offset)),
        (s.rings s.ringBuf).push (bytes.drop offset)) := by
    rw [Ring.pollWrite, if_neg (by rw [hc]; decide), if_pos hpos]
  simp only [pollWrite, hp]; rfl

/-- On a full open ring the waker is registered. -/
theorem pollWrite_of_full (hc : (s.rings s.ringBuf).consHeld = true)
    (hzero : (s.rings s.ringBuf).pushCount (bytes.drop offset) = 0) :
    pollWrite s bytes offset =
      ((s.updRing s.ringBuf (·.push (bytes.drop offset))).senderAt (.pollPending bytes offset)).updRing
        s.ringBuf fun r => { r with waker := some .blockOn } := by
  have hp : (s.rings s.ringBuf).pollWrite (bytes.drop offset) =
      (none, { (s.rings s.ringBuf).push (bytes.drop offset) with waker := some .blockOn }) := by
    rw [Ring.pollWrite, if_neg (by rw [hc]; decide), if_neg (by omega)]
  have heq := updRing_updRing (s := s.senderAt (.pollPending bytes offset)) s.ringBuf
    (·.push (bytes.drop offset)) fun r => { r with waker := some .blockOn }
  simp only [pollWrite, hp]
  exact heq.symm

theorem Inv.pollWrite (h : Inv s) (hs : s.sender = .pollWrite bytes offset) :
    Next s (pollWrite s bytes offset) := by
  have hoff : offset < bytes.length := by have := h.pc; simpa [SenderPcOk, hs] using this
  have hgoto := h.push_goto hs (by simp) rfl rfl
  cases hc : (s.rings s.ringBuf).consHeld with
  | false =>
    rw [pollWrite_of_closed hc hoff]
    exact h.move hs (by simp) rfl rfl (fun _ => id) hoff
  | true =>
    rcases Nat.eq_zero_or_pos ((s.rings s.ringBuf).pushCount (bytes.drop offset)) with hzero | hpos
    · rw [pollWrite_of_full hc hzero]
      rw [hzero, Nat.add_zero] at hgoto
      have hpend := hgoto (.pollPending bytes offset) rfl rfl hoff
      exact hpend.trans (hpend.inv.register s.ringBuf (some .blockOn))
    · rw [pollWrite_of_push hc hpos]
      dsimp only
      split
      · rename_i hlt
        exact hgoto (.pollWrite bytes _) rfl rfl hlt
      · rename_i hge
        refine h.push_ret hs (by simp) rfl rfl .ok _ (fun hop => by cases hop) ?_
        rw [List.take_of_length_le (by omega)]; rfl

end PollWrite

/-! ### New rings -/

/-- The ring allocated for the rest of a message holds that rest, whatever its length. -/
theorem occ_allocRing {op : Op} {offset : Nat} (hop : op = .flush ∨ ∃ bytes, op = .sendNonblock bytes) :
    (allocRing op offset : Ring R).occ = op.bytes.drop offset := by
  rcases hop with rfl | ⟨bytes, rfl⟩
  · simp [allocRing, Op.bytes]
  · have hfits : (bytes.drop offset).length ≤
        R.vacant (R.new (max ringBufferSize (bytes.length - offset))) := by
      simp only [RingBuffer.vacant, RingBuffer.capacity_new, RingBuffer.occupied_new, List.length_nil,
        List.length_drop]
      omega
    refine (R.occupied_pushSlice_of_fits _ _ hfits).trans ?_
    rw [RingBuffer.occupied_new]; rfl

theorem capacity_allocRing (op : Op) (offset : Nat) :
    ringBufferSize ≤ R.capacity (allocRing op offset : Ring R).rb := by
  cases op with
  | sendNonblock bytes =>
    simp only [allocRing, Ring.capacity_push, Ring.capacity_new]
    exact le_max_left _ _
  | _ => simp only [allocRing, Ring.capacity_new, le_refl]

theorem Inv.newRing (h : Inv s) {op : Op} {offset : Nat} (hs : s.sender = .newRing op offset) :
    Next s (({ s with fresh := s.fresh + 1 }.updRing s.fresh fun _ => allocRing op offset).senderAt
      (.sendRing op offset s.fresh)) := by
  have hpc := h.pc
  simp only [SenderPcOk, hs] at hpc
  have hnl : s.fresh ∉ s.live := fun hmem => absurd (h.live_lt _ hmem) (lt_irrefl _)
  have hne : ∀ i, i ≠ s.fresh → ({ s with fresh := s.fresh + 1 }.updRing s.fresh fun _ =>
      allocRing op offset).rings i = s.rings i := fun i hi => State.updRing_of_ne hi
  have hself : ({ s with fresh := s.fresh + 1 }.updRing s.fresh fun _ =>
      allocRing op offset).rings s.fresh = allocRing op offset := State.updRing_self
  have hacc : SenderPc.accepted (.sendRing op offset s.fresh) = s.sender.accepted := by rw [hs]; rfl
  refine ⟨⟨?_, h.ringBuf_lt.trans (Nat.lt_succ_self _), fun i hi => (h.live_lt i hi).trans
    (Nat.lt_succ_self _), fun htx => ?_, ⟨hpc.1, Nat.lt_succ_self _, h.ringBuf_lt.ne', hnl, ?_, ?_, ?_,
    ?_⟩, fun n hn => ?_⟩, ?_⟩
  · have hcore := h.core
    rw [State.accepted, ← hacc, hs] at hcore
    refine hcore.congr rfl rfl rfl rfl fun i hi => ?_
    have hi' : i ≠ s.fresh := by rintro rfl; exact hnl hi
    exact ⟨congrArg Ring.rb (hne i hi'), congrArg Ring.prodHeld (hne i hi'),
      congrArg Ring.consHeld (hne i hi')⟩
  · have := h.tx htx
    rw [hs] at this; cases this
  · refine (congrArg Ring.prodHeld hself).trans ?_
    cases op <;> rfl
  · refine (congrArg Ring.consHeld hself).trans ?_
    cases op <;> rfl
  · exact (capacity_allocRing op offset).trans_eq (congrArg (fun r => R.capacity r.rb) hself).symm
  · exact (congrArg Ring.occ hself).trans (occ_allocRing hpc.2)
  · have hfl := h.flush n hn
    rw [State.accepted, ← hacc] at hfl
    have hb := congrArg Ring.occ (hne s.ringBuf h.ringBuf_lt.ne)
    exact (congrArg (n + List.length ·) hb).trans_le hfl
  · rw [State.accepted, ← hacc]; exact List.prefix_rfl

theorem Inv.sendRing (h : Inv s) {op : Op} {offset ring : Nat}
    (hs : s.sender = .sendRing op offset ring) : Next s (sendRing s op offset ring) := by
  have hpc := h.pc
  simp only [SenderPcOk, hs] at hpc
  obtain ⟨hoff, hu⟩ := hpc
  have htx : ∀ P : Prop, s.txHeld = false → P := fun P htx => by
    have := h.tx htx
    rw [hs] at this; cases this
  have hcore := h.core
  rw [State.accepted, hs] at hcore
  unfold Outgoing.sendRing
  split
  · -- the channel takes the ring: from here on the whole message counts as accepted
    have hacc : s.calls.flatMap Call.accepted ++ op.bytes = s.calls.flatMap Call.accepted ++
        SenderPc.accepted (.sendRing op offset ring) ++ (s.rings ring).occ := by
      rw [hu.occ, List.append_assoc]
      exact congrArg _ (List.take_append_drop offset op.bytes).symm
    have hmono : s.accepted <+: s.calls.flatMap Call.accepted ++ op.bytes := by
      rw [hacc, State.accepted, hs]; exact List.prefix_append _ _
    refine ⟨⟨?_, h.ringBuf_lt, fun i hi => ?_, htx _, ⟨hu.lt, ?_⟩, fun n hn => ?_⟩, hmono⟩
    · have hsend := hcore.send hu.notLive hu.prod hu.cons hu.cap
      rw [← hacc] at hsend
      exact hsend.sender
    · rw [State.live, ← List.append_assoc] at hi
      rcases List.mem_append.mp hi with hi | hi
      · exact h.live_lt i hi
      · rw [List.mem_singleton.mp hi]; exact hu.lt
    · show (s.rings ring).occ.length ≤ op.bytes.length
      rw [hu.occ, List.length_drop]; exact Nat.sub_le _ _
    · exact (h.flush n hn).trans hmono.length_le
  · -- the receiver is gone: both ends of the new ring are dropped
    have hne : ∀ i, i ≠ ring → (s.updRing ring fun r =>
        { r with prodHeld := false, consHeld := false }).rings i = s.rings i :=
      fun i hi => State.updRing_of_ne hi
    have hacc : State.accepted ((s.updRing ring fun r =>
        { r with prodHeld := false, consHeld := false }).ret op (.err .writeZero) offset) =
        s.calls.flatMap Call.accepted ++ SenderPc.accepted (.sendRing op offset ring) := by
      rw [State.accepted, State.ret_calls, flatMap_accepted_concat]
      exact List.append_nil _
    refine ⟨⟨?_, h.ringBuf_lt, h.live_lt, htx _, trivial, fun n hn => ?_⟩, ?_⟩
    · rw [hacc]
      refine hcore.congr rfl rfl rfl rfl fun i hi => ?_
      have hi' : i ≠ ring := by rintro rfl; exact hu.notLive hi
      exact ⟨congrArg Ring.rb (hne i hi'), congrArg Ring.prodHeld (hne i hi'),
        congrArg Ring.consHeld (hne i hi')⟩
    · have hfl := h.flush n ((flushedAt_concat hn).resolve_right fun hc => by cases hc.2.1)
      rw [State.accepted, hs] at hfl
      rw [hacc]
      exact (congrArg (n + List.length ·) (congrArg Ring.occ (hne s.ringBuf hu.ne.symm))).trans_le hfl
    · rw [hacc, State.accepted, hs]

theorem Inv.setRingBuf (h : Inv s) {op : Op} {ring : Nat} (hs : s.sender = .setRingBuf op ring) :
    Next s (setRingBuf s op ring) := by
  have hpc := h.pc
  simp only [SenderPcOk, hs] at hpc
  have hcore := h.core
  rw [State.accepted, hs] at hcore
  have hacc : State.accepted (Outgoing.setRingBuf s op ring) =
      s.calls.flatMap Call.accepted ++ op.bytes := by
    rw [State.accepted, Outgoing.setRingBuf, State.ret_calls, flatMap_accepted_concat]
    exact List.append_nil _
  have hocc : ((s.updRing s.ringBuf fun r => { r with prodHeld := false }).rings ring).occ =
      (s.rings ring).occ := State.updRing_congr Ring.occ rfl
  refine ⟨⟨?_, hpc.1, h.live_lt, fun htx => ?_, trivial, fun n hn => ?_⟩, ?_⟩
  · rw [hacc]; exact hcore.close.sender
  · have := h.tx htx
    rw [hs] at this; cases this
  · -- the new ring holds bytes of this call only
    have hle : n ≤ (s.calls.flatMap Call.accepted).length := by
      rcases flushedAt_concat hn with hn | ⟨-, -, rfl⟩
      · exact hn.le
      · exact le_rfl
    show n + ((s.updRing s.ringBuf fun r => { r with prodHeld := false }).rings ring).occ.length ≤ _
    rw [hacc, hocc, List.length_append]
    exact Nat.add_le_add hle hpc.2
  · rw [hacc, State.accepted, hs]; exact List.prefix_rfl

/-! ### Dropping the sender -/

theorem Inv.dropSender (h : Inv s) (hs : s.sender = .idle) :
    Next s ((s.updRing s.ringBuf fun r => { r with prodHeld := false }).senderAt .dropRingsPrd) := by
  have hcore := h.core
  rw [State.accepted, hs] at hcore
  refine ⟨⟨hcore.close.sender, h.ringBuf_lt, h.live_lt, fun htx => ?_, trivial, fun n hn => ?_⟩, ?_⟩
  · have := h.tx htx
    rw [hs] at this; cases this
  · have hfl := h.flush n hn
    rw [State.accepted, hs] at hfl
    have hocc : ((s.updRing s.ringBuf fun r => { r with prodHeld := false }).rings s.ringBuf).occ =
        (s.rings s.ringBuf).occ := State.updRing_congr Ring.occ rfl
    exact (congrArg (n + List.length ·) hocc).trans_le hfl
  · rw [State.accepted, hs]; exact List.prefix_rfl

/-- The next step of the call in progress keeps the invariant. -/
theorem Inv.senderStep (h : Inv s) (hstep : senderStep s = some s') : Next s s' := by
  unfold Outgoing.senderStep at hstep
  cases hs : s.sender with
  | burstWrite op offset registered =>
    simp only [hs] at hstep
    obtain rfl := Option.some.inj hstep
    exact h.burstWrite hs
  | pollWrite bytes offset =>
    simp only [hs] at hstep
    obtain rfl := Option.some.inj hstep
    exact h.pollWrite hs
  | newRing op offset =>
    simp only [hs] at hstep
    obtain rfl := Option.some.inj hstep
    exact h.newRing hs
  | sendRing op offset ring =>
    simp only [hs] at hstep
    obtain rfl := Option.some.inj hstep
    exact h.sendRing hs
  | setRingBuf op ring =>
    simp only [hs] at hstep
    obtain rfl := Option.some.inj hstep
    exact h.setRingBuf hs
  | checkClosed bytes waker registered =>
    simp only [hs] at hstep
    split at hstep <;> obtain rfl := Option.some.inj hstep
    · exact h.ret hs (by simp) rfl (by simp [Call.accepted, SenderPc.accepted]) (.inr (by simp))
    · have hne : 0 < bytes.length := by have := h.pc; simpa [SenderPcOk, hs] using this
      exact h.move hs (by simp) rfl rfl (fun _ => id) hne
  | registerWaker bytes waker =>
    simp only [hs] at hstep
    obtain rfl := Option.some.inj hstep
    have hne : 0 < bytes.length := by have := h.pc; simpa [SenderPcOk, hs] using this
    have hreg := h.register s.ringBuf (some waker)
    exact hreg.trans (hreg.inv.move hs (by simp) rfl rfl (fun _ => id) hne)
  | dropRingsPrd =>
    simp only [hs] at hstep
    obtain rfl := Option.some.inj hstep
    have hcore := h.core
    rw [State.accepted, hs] at hcore
    have hfl := h.flush
    simp only [State.accepted, hs] at hfl
    refine ⟨⟨hcore.sender, h.ringBuf_lt, h.live_lt, fun _ => rfl, trivial, hfl⟩, ?_⟩
    rw [State.accepted, hs]; exact List.prefix_rfl
  | idle => simp only [hs] at hstep; cases hstep
  | pollPending bytes offset => simp only [hs] at hstep; cases hstep
  | dropped => simp only [hs] at hstep; cases hstep

/-! ### The writer leaves the sender alone -/

/-- What a step of the writer leaves as it was. -/
structure WriterFrame (s s' : State R) : Prop where
  fresh : s'.fresh = s.fresh
  ringBuf : s'.ringBuf = s.ringBuf
  txHeld : s'.txHeld = s.txHeld
  sender : s'.sender = s.sender
  calls : s'.calls = s.calls
  live : ∀ i ∈ s'.live, i ∈ s.live
  prod : ∀ i, (s'.rings i).prodHeld = (s.rings i).prodHeld
  occ : ∀ i, (s'.rings i).occ.length ≤ (s.rings i).occ.length
  other : ∀ i, i ∉ s.live →
    (s'.rings i).rb = (s.rings i).rb ∧ (s'.rings i).consHeld = (s.rings i).consHeld

/-- A step that changes no ring. -/
theorem WriterFrame.of_rings {queue : List Nat} {rxHeld : Bool} {w : WriterPc}
    {written : List UInt8} (hlive : ∀ i ∈ w.ring?.toList ++ queue, i ∈ s.live) :
    WriterFrame s { s with queue, rxHeld, writer := w, written } :=
  ⟨rfl, rfl, rfl, rfl, rfl, hlive, fun _ => rfl, fun _ => le_rfl, fun _ _ => ⟨rfl, rfl⟩⟩

/-- A step that changes one ring: a live one, or only in its waker. -/
theorem WriterFrame.update {i : Nat} {r : Ring R} {queue : List Nat} {w : WriterPc}
    {woken : List Waker} (hprod : r.prodHeld = (s.rings i).prodHeld)
    (hocc : r.occ.length ≤ (s.rings i).occ.length)
    (hother : i ∈ s.live ∨ r.rb = (s.rings i).rb ∧ r.consHeld = (s.rings i).consHeld)
    (hlive : ∀ j ∈ w.ring?.toList ++ queue, j ∈ s.live) :
    WriterFrame s { s with rings := Function.update s.rings i r, queue, writer := w, woken } := by
  refine ⟨rfl, rfl, rfl, rfl, rfl, hlive, fun j => ?_, fun j => ?_, fun j hj => ?_⟩
  all_goals
    rcases eq_or_ne j i with rfl | hji
    · simp only [Function.update_self]
      first
        | exact hprod
        | exact hocc
        | exact hother.resolve_left hj
    · simp only [Function.update_of_ne hji, le_refl, and_self]

/-- The rings of a step that keeps its ring or lets go of it. -/
theorem live_sub {w w' : WriterPc} (hw : s.writer = w) (hr : w'.ring? = w.ring? ∨ w'.ring? = none) :
    ∀ i ∈ w'.ring?.toList ++ s.queue, i ∈ s.live := by
  intro i hi
  rw [State.live, hw]
  rcases hr with hr | hr
  · exact hr ▸ hi
  · rw [hr] at hi; exact List.mem_append_right _ hi

theorem WriterFrame.goto {w w' : WriterPc} (hw : s.writer = w)
    (hr : w'.ring? = w.ring? ∨ w'.ring? = none) : WriterFrame s (s.writerAt w') :=
  .of_rings (live_sub hw hr)

theorem WriterFrame.wake {i : Nat} {w w' : WriterPc} (hw : s.writer = w)
    (hr : w'.ring? = w.ring? ∨ w'.ring? = none) : WriterFrame s ((s.wakeRing i).writerAt w') :=
  .update rfl le_rfl (.inr ⟨rfl, rfl⟩) (live_sub hw hr)

/-- Every move of the writer leaves the sender's part alone. -/
theorem writerMove_frame {tail : List Nat} {acc : List UInt8} (h : Core s tail acc)
    (hm : WriterMove config s s') : WriterFrame s s' := by
  have hmem : ∀ {w : WriterPc} {i : Nat}, s.writer = w → w.ring? = some i → i ∈ s.live := by
    intro w i hw hr
    rw [live_eq_cons (by rw [hw]; exact hr)]; exact List.mem_cons_self
  cases hm with
  | @recv ring queue hw hq =>
    have hlive : s.live = ring :: queue := by rw [State.live, hw, hq]; rfl
    unfold ringReceived
    split <;> exact .of_rings fun j hj => by rw [hlive]; exact hj
  | finish hw _ _ => exact .goto hw (.inl rfl)
  | ready hw _ => exact .goto hw (.inl rfl)
  | readyNoFlush hw _ => exact .goto hw (.inl rfl)
  | closed hw _ => exact .goto hw (.inl rfl)
  | measure hw _ _ => exact .goto hw (.inl rfl)
  | drain hw _ _ => exact .goto hw (.inl rfl)
  | below hw _ => exact .goto hw (.inl rfl)
  | enough hw _ => exact .goto hw (.inl rfl)
  | tick hw => exact .goto hw (.inl rfl)
  | @flushed ring k hw _ =>
    cases k with
    | closed => exact .update rfl le_rfl (.inl (hmem hw rfl)) (live_sub hw (.inr rfl))
    | tick => exact .goto hw (.inl rfl)
    | occupied =>
      simp only [flushed]
      split <;> exact .goto hw (.inl rfl)
  | write hw _ => exact .goto hw (.inl rfl)
  | wrote hw _ _ => exact .of_rings (live_sub hw (.inl rfl))
  | advance hw =>
    have hpc := (h.running (by rw [hw]; rfl)).pc
    simp only [hw, PcOk] at hpc
    refine .update rfl ?_ (.inl (hmem hw rfl)) (live_sub hw (.inl rfl))
    refine (congrArg List.length (R.occupied_advance _ _ hpc.1)).trans_le ?_
    rw [List.length_drop]; exact Nat.sub_le _ _
  | wake hw => exact .wake hw (.inl rfl)
  | ringDropped hw => exact .wake hw (.inl rfl)
  | writeFails hw => exact .goto hw (.inl rfl)
  | shutdownOk hw => exact .goto hw (.inl rfl)
  | shutdownFails hw => exact .goto hw (.inl rfl)
  | abort hw =>
    refine .of_rings (live_sub rfl (.inl ?_))
    cases hsw : s.writer <;> simp only [hsw, WriterPc.awaits] at hw <;> cases hw <;> rfl
  | unwindRing hw => exact .update rfl le_rfl (.inl (hmem hw rfl)) (live_sub hw (.inr rfl))
  | unwindRx hw _ => exact .of_rings (live_sub rfl (.inl rfl))
  | @unwindQueue ring queue res hw _ hq =>
    have hlive : s.live = ring :: queue := by rw [State.live, hw, hq]; rfl
    refine .update rfl le_rfl (.inl ?_) fun j hj => ?_
    · rw [hlive]; exact List.mem_cons_self
    · rw [hlive]; exact List.mem_cons_of_mem _ hj
  | unwindWake hw => exact .wake hw (.inl rfl)
  | returned hw _ _ => exact .goto hw (.inl rfl)

/-! ### Every reachable state -/

theorem Inv.writerMove (h : Inv s) (hm : WriterMove config s s') : Next s s' := by
  have hf := writerMove_frame h.core hm
  have hacc : s'.accepted = s.accepted := by rw [State.accepted, hf.calls, hf.sender]; rfl
  have hcore : Core s' (s.sender.openRings s.ringBuf) s.accepted :=
    h.core.writerMove (fun htx => by rw [h.tx htx]; rfl) hm
  refine ⟨⟨by rw [hf.sender, hf.ringBuf, hacc]; exact hcore,
    by rw [hf.ringBuf, hf.fresh]; exact h.ringBuf_lt,
    fun i hi => by rw [hf.fresh]; exact h.live_lt i (hf.live i hi),
    by rw [hf.txHeld, hf.sender]; exact h.tx, ?_, fun n hn => ?_⟩, by rw [hacc]⟩
  · have hpc := h.pc
    unfold SenderPcOk at hpc ⊢
    rw [hf.sender]
    cases hsd : s.sender <;> simp only [hsd] at hpc ⊢ <;> try exact hpc
    case sendRing op offset ring =>
      -- the writer does not know this ring
      obtain ⟨hle, hu⟩ := hpc
      obtain ⟨hrb, hcons⟩ := hf.other ring hu.notLive
      exact ⟨hle, by rw [hf.fresh]; exact hu.lt, by rw [hf.ringBuf]; exact hu.ne,
        fun hmem => hu.notLive (hf.live ring hmem), (hf.prod ring).trans hu.prod,
        hcons.trans hu.cons, by rw [hrb]; exact hu.cap, by rw [Ring.occ, hrb]; exact hu.occ⟩
    case setRingBuf op ring =>
      exact ⟨by rw [hf.fresh]; exact hpc.1, (hf.occ ring).trans hpc.2⟩
  · rw [hf.calls] at hn
    rw [hf.ringBuf, hacc]
    exact (Nat.add_le_add_left (hf.occ _) n).trans (h.flush n hn)

theorem Inv.senderMove (h : Inv s) (hm : SenderMove s s') : Next s s' := by
  cases hm with
  | call op hs => exact h.startCall op hs
  | step hs => exact h.senderStep hs
  | @repoll bytes offset hs =>
    have hoff : offset < bytes.length := by have := h.pc; simpa [SenderPcOk, hs] using this
    exact h.move hs (by simp) rfl rfl (fun _ => id) hoff
  | drop hs => exact h.dropSender hs

theorem Inv.step (h : Inv s) {a : Act} (hs : step config s a = some s') : Next s s' :=
  (step_cases hs).elim h.senderMove h.writerMove

/-- The invariant holds whatever the calls, the interleaving and the socket do. -/
theorem reach_inv (hr : (machine R config).Reach s) : Inv s :=
  hr.invariant inv_makeSender fun _ _ _ hi hs => (hi.step hs).inv

end SocketManager.Outgoing
