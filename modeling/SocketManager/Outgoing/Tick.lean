import SocketManager.Outgoing.Waiting

/-! Auto flush. In the `select!` of `handle_writer_auto_flush` one flag decides both whether the tick
    is enabled and how many bytes `wait_occupied` waits for: without the flag a single byte is enough,
    so a byte that is not written always leaves one of the two branches able to fire.

    A `flush` that the tick starts ends on an empty ring, so it has written what the ring held when
    the tick fired, whatever the sender pushes meanwhile. That is everything accepted as long as the
    ring is the sender's own. The two branches are polled one after the other, though, and the sender
    runs on another thread:

        writer    poll wait_occupied: pending ───────────────────── poll tick: ready, flush
        sender                                 flush(), send(b)

    Here the tick flushes a ring that was closed after the first poll, and `b` sits in the next one.
    It is not stranded: `wait_occupied` is ready as soon as the flush has returned. -/

namespace SocketManager.Outgoing
variable {R : RingBuffer UInt8} {config : ConnConfig} {s s' t v : State R} {i ring : Nat}

/-! ### What the sender does to a ring -/

/-- A ring changes as a producer changes it: more content, and closed for good. -/
structure Ring.Grows (r r' : Ring R) : Prop where
  occ : r.occ <+: r'.occ
  closed : r.prodHeld = false → r'.prodHeld = false

theorem Ring.Grows.of_rb {r r' : Ring R} (hrb : r'.rb = r.rb)
    (hp : r.prodHeld = false → r'.prodHeld = false) : r.Grows r' :=
  ⟨by rw [Ring.occ, Ring.occ, hrb], hp⟩

theorem Ring.Grows.rfl {r : Ring R} : r.Grows r := .of_rb (Eq.refl _) id

theorem Ring.grows_push (r : Ring R) (bytes : List UInt8) : r.Grows (r.push bytes) :=
  ⟨by rw [Ring.occ_push]; exact List.prefix_append _ _, id⟩

theorem Ring.grows_pollWrite (r : Ring R) (bytes : List UInt8) : r.Grows (r.pollWrite bytes).2 := by
  unfold Ring.pollWrite
  split
  · exact .rfl
  · split
    · exact r.grows_push bytes
    · exact ⟨(r.grows_push bytes).occ, id⟩

/-- A step that changes one ring as a producer does. -/
theorem grows_of_update {j : Nat} {r : Ring R} (hs : s'.rings = Function.update s.rings j r)
    (hr : (s.rings j).Grows r) : (s.rings i).Grows (s'.rings i) := by
  rw [hs]
  rcases eq_or_ne i j with rfl | hij
  · rw [Function.update_self]; exact hr
  · rw [Function.update_of_ne hij]; exact .rfl

theorem grows_burstWrite (op : Op) (offset : Nat) (registered : Bool) :
    (s.rings i).Grows ((burstWrite s op offset registered).rings i) := by
  have hpush : (s.rings i).Grows
      ((s.updRing s.ringBuf (·.push (op.bytes.drop offset))).rings i) :=
    grows_of_update rfl (Ring.grows_push _ _)
  simp only [burstWrite]
  split
  · cases op <;> simp only [burstPending] <;> (try split) <;> (try split) <;> exact hpush
  · split
    · cases op <;> exact hpush
    · exact hpush

theorem grows_pollWrite (bytes : List UInt8) (offset : Nat) :
    (s.rings i).Grows ((pollWrite s bytes offset).rings i) := by
  have hpoll : (s.rings i).Grows ((s.updRing s.ringBuf fun _ =>
      ((s.rings s.ringBuf).pollWrite (bytes.drop offset)).2).rings i) :=
    grows_of_update rfl (Ring.grows_pollWrite _ _)
  simp only [pollWrite]
  split
  · exact hpoll
  · split <;> exact hpoll

/-- No move of the sender takes bytes out of a ring or opens one again. -/
theorem senderMove_grows (hm : SenderMove s s') (hlt : i < s.fresh) :
    (s.rings i).Grows (s'.rings i) := by
  cases hm with
  | call op hs => cases op <;> simp only [startCall] <;> (try split) <;> exact .rfl
  | repoll hs => exact .rfl
  | drop hs => exact grows_of_update rfl (.of_rb rfl fun _ => rfl)
  | step hs =>
    unfold senderStep at hs
    split at hs
    · cases hs
    · cases hs
    · cases hs
    · obtain rfl := Option.some.inj hs
      exact grows_burstWrite ..
    · obtain rfl := Option.some.inj hs
      exact grows_pollWrite ..
    · -- a new ring is not one of the old ones
      obtain rfl := Option.some.inj hs
      rw [State.senderAt_rings, State.updRing_of_ne hlt.ne]
      exact .rfl
    · obtain rfl := Option.some.inj hs
      unfold sendRing
      split
      · exact .rfl
      · exact grows_of_update rfl (.of_rb rfl fun _ => rfl)
    · obtain rfl := Option.some.inj hs
      exact grows_of_update rfl (.of_rb rfl fun _ => rfl)
    · split at hs <;> obtain rfl := Option.some.inj hs
      · exact .rfl
      · exact .rfl
    · obtain rfl := Option.some.inj hs
      exact grows_of_update rfl (.of_rb rfl id)
    · obtain rfl := Option.some.inj hs
      exact .rfl

/-! ### The flush of a tick -/

/-- The writer is inside the `flush` that the tick branch awaits. -/
def WriterPc.tickFlushing (ring : Nat) : WriterPc → Bool
  | .asSlices i .tick | .write i .tick _ | .advance i .tick _ | .wake i .tick => decide (i = ring)
  | _ => false

/-- Steps taken while that flush runs; the last one is its return. -/
def TickFlushing (ring : Nat) (s : State R) (_ : Act) : Prop := s.writer.tickFlushing ring = true

instance (ring : Nat) (s : State R) (a : Act) : Decidable (TickFlushing ring s a) :=
  inferInstanceAs (Decidable (_ = _))

/-- `goal` is written or about to be: what the flush has not written of it is in the ring. -/
structure Draining (ring : Nat) (goal : List UInt8) (s : State R) : Prop where
  inv : Inv s
  flushing : s.writer.tickFlushing ring = true →
    goal <+: s.written ++ (s.rings ring).occ.drop s.writer.inFlight
  flushed : s.writer = .select ring false → goal <+: s.written

theorem ring?_of_tickFlushing {w : WriterPc} (h : w.tickFlushing ring = true) :
    w.ring? = some ring := by
  unfold WriterPc.tickFlushing at h
  split at h
  · exact congrArg some (of_decide_eq_true h)
  · exact congrArg some (of_decide_eq_true h)
  · exact congrArg some (of_decide_eq_true h)
  · exact congrArg some (of_decide_eq_true h)
  · cases h

theorem lt_fresh_of_tickFlushing (h : Inv s) (hw : s.writer.tickFlushing ring = true) :
    ring < s.fresh := by
  refine h.live_lt ring ?_
  rw [live_eq_cons (ring?_of_tickFlushing hw)]; exact List.mem_cons_self

theorem Draining.senderMove {goal : List UInt8} (h : Draining ring goal s)
    (hw : s.writer.tickFlushing ring = true) (hm : SenderMove s s') : Draining ring goal s' := by
  have hf := senderMove_frame hm
  refine ⟨(h.inv.senderMove hm).inv, fun _ => ?_, fun hsel => ?_⟩
  · -- the bytes in flight are still at the front of a ring that only grew
    have hocc := (senderMove_grows hm (lt_fresh_of_tickFlushing h.inv hw)).occ
    rw [hf.writer, hf.written]
    refine (h.flushing hw).trans ?_
    rw [List.prefix_append_right_inj]
    exact hocc.drop _
  · rw [hf.writer] at hsel
    rw [hsel] at hw; cases hw

theorem Draining.writerMove {goal : List UInt8} (h : Draining ring goal s)
    (hw : s.writer.tickFlushing ring = true) (hm : WriterMove config s s') :
    Draining ring goal s' := by
  have hinv := (h.inv.writerMove hm).inv
  have hgoal := h.flushing hw
  have hring := ring?_of_tickFlushing hw
  have hpc := (h.inv.core.running (by
    cases hsw : s.writer <;> first | rfl | (rw [hsw] at hw; cases hw))).pc
  cases hm with
  | @flushed i k hsw hleft =>
    cases k with
    | tick =>
      obtain rfl : i = ring := by rw [hsw] at hring; exact Option.some.inj hring
      refine ⟨hinv, fun hfl => ?_, fun _ => ?_⟩
      · cases hfl
      · have hocc : (s.rings i).occ = [] := R.left_eq_nil _ hleft
        rw [hocc, List.drop_nil, List.append_nil] at hgoal
        exact hgoal
    | closed | occupied => rw [hsw] at hw; cases hw
  | write hsw hleft =>
    rw [hsw] at hgoal
    exact ⟨hinv, fun _ => hgoal, nofun⟩
  | @wrote i k left n hsw hpos hn =>
    obtain rfl : i = ring := by rw [hsw] at hring; exact Option.some.inj hring
    refine ⟨hinv, fun _ => ?_, nofun⟩
    -- the socket took the front of the ring
    rw [hsw] at hgoal hpc
    obtain ⟨-, ⟨rest, hrest⟩, -⟩ := hpc
    have htake : left.take n = (s.rings i).occ.take n := by
      rw [← hrest, List.take_append_of_le_length hn]
    show goal <+: s.written ++ left.take n ++ (s.rings i).occ.drop n
    rw [htake, List.append_assoc, List.take_append_drop]
    exact hgoal
  | @advance i k n hsw =>
    obtain rfl : i = ring := by rw [hsw] at hring; exact Option.some.inj hring
    refine ⟨hinv, fun _ => ?_, nofun⟩
    rw [hsw] at hgoal hpc
    have hocc : ((s.updRing i (·.advanceReadIndex n)).rings i).occ = (s.rings i).occ.drop n := by
      rw [State.updRing_self]; exact R.occupied_advance _ _ hpc.1
    show goal <+: s.written ++ ((s.updRing i (·.advanceReadIndex n)).rings i).occ.drop 0
    rw [hocc]
    exact hgoal
  | @wake i k hsw =>
    refine ⟨hinv, fun _ => ?_, nofun⟩
    have hocc : ((s.wakeRing i).rings ring).occ = (s.rings ring).occ :=
      State.updRing_congr Ring.occ rfl
    rw [hsw] at hgoal
    show goal <+: s.written ++ ((s.wakeRing i).rings ring).occ.drop 0
    rw [hocc]
    exact hgoal
  | writeFails hsw => exact ⟨hinv, nofun, nofun⟩
  | abort hsw => exact ⟨hinv, nofun, nofun⟩
  | recv hsw | finish hsw | ready hsw | readyNoFlush hsw | closed hsw | measure hsw | drain hsw
  | below hsw | enough hsw | tick hsw | ringDropped hsw | shutdownOk hsw | shutdownFails hsw
  | unwindRing hsw | unwindRx hsw | unwindQueue hsw | unwindWake hsw | returned hsw =>
    rw [hsw] at hw; cases hw

/-- Whatever happens during the flush, what was to be written is written when it returns. -/
theorem Draining.path {goal : List UInt8} (h : Draining ring goal s)
    (hp : (machine R config).Path (TickFlushing ring) s v) : Draining ring goal v := by
  refine hp.invariant (I := Draining ring goal) h ?_
  intro t a u hw ht hs
  rcases step_cases hs with hm | hm
  · exact ht.senderMove hw hm
  · exact ht.writerMove hw hm

/-- The ring that was closed before the flush is closed after it. -/
theorem tickFlushing_closed (h : Inv s) (hc : (s.rings ring).prodHeld = false)
    (hp : (machine R config).Path (TickFlushing ring) s v) : (v.rings ring).prodHeld = false := by
  have key : Inv v ∧ (v.rings ring).prodHeld = false := by
    refine hp.invariant (I := fun t => Inv t ∧ (t.rings ring).prodHeld = false) ⟨h, hc⟩ ?_
    rintro t a u hw ⟨ht, hct⟩ hs
    refine ⟨(ht.step hs).inv, ?_⟩
    rcases step_cases hs with hm | hm
    · exact (senderMove_grows hm (lt_fresh_of_tickFlushing ht hw)).closed hct
    · rw [(writerMove_frame ht.core hm).prod]; exact hct
  exact key.2

/-! ### Nothing is stranded -/

theorem calls_of_quiet (hq : s.sender.quiet = true) :
    s.calls.flatMap Call.accepted = s.accepted := by
  rw [State.accepted, accepted_of_quiet hq, List.append_nil]

/-- A select without the flag waits for a single byte. -/
theorem select_ready_of_unwritten (hi : Inv s) (hq : s.sender.quiet = true)
    (hw : s.writer = .select ring false) (hne : s.accepted ≠ s.written) :
    (s.rings ring).ready (waitCount false) = true := by
  by_contra hr
  have hwait : Waiting s ring := .select hw (by simpa using hr)
  obtain ⟨hlen, -⟩ := Ring.ready_eq_false (Bool.not_eq_true _ ▸ hr)
  obtain ⟨rest, hacc, -, hrest⟩ := (Suspended.waiting hwait).unwritten hi hq
  obtain ⟨rfl, -⟩ := hwait.ringBuf hi (quietOrBlocked_of_quiet hq)
  have hwc : waitCount false = 1 := rfl
  have hnil : rest = [] := List.eq_nil_of_length_eq_zero (by omega)
  rw [hnil, List.append_nil] at hacc
  exact hne hacc

/-- In a select on an open ring, the whole backlog is in that ring. -/
theorem accepted_of_select (hi : Inv s) (hq : s.sender.quiet = true) {tickFlush : Bool}
    (hw : s.writer = .select ring tickFlush) (hopen : (s.rings ring).prodHeld = true) :
    s.accepted = s.written ++ (s.rings ring).occ := by
  have hring : s.writer.ring? = some ring := by rw [hw]; rfl
  have hr := hi.core.running (by rw [hw]; rfl)
  have hlive : s.live = ring :: s.queue := live_eq_cons hring
  have hmem := hr.mem_tail (by rw [hlive]; exact List.mem_cons_self) hopen
  have hqueue : s.queue = [] := by
    obtain ⟨closed, hc, hcl⟩ := hr.chain
    rcases openRings_of_quietOrBlocked (quietOrBlocked_of_quiet hq) s.ringBuf with ho | ho
    · rw [ho, hlive] at hc
      cases closed with
      | nil => exact (List.cons.inj hc).2
      | cons c closed =>
        obtain rfl : ring = c := (List.cons.inj hc).1
        rw [hcl ring List.mem_cons_self] at hopen; cases hopen
    · rw [ho] at hmem; cases hmem
  rw [hr.stream, State.backlog, hlive, hqueue, hw]
  simp [WriterPc.inFlight]

/-- Auto flush. In a select with a byte unwritten and no call in progress the tick is enabled or
    `wait_occupied` is ready. When the tick fires, its flush returns with everything written that the
    ring held, which is every accepted byte unless the sender has closed the ring since the other
    branch was polled; the ring it left then is ready. -/
theorem auto_flush_writes (R : RingBuffer UInt8) (config : ConnConfig) (s : State R) (ring : Nat)
    (tickFlush : Bool) (hr : (machine R config).Reach s) (hw : s.writer = .select ring tickFlush)
    (hq : s.sender.quiet = true) :
    (s.calls.flatMap Call.accepted ≠ s.written →
      tickFlush = true ∨ (s.rings ring).ready (waitCount tickFlush) = true) ∧
    ∀ t v, step config s .tick = some t → (machine R config).Path (TickFlushing ring) t v →
      v.writer = .select ring false →
        s.written ++ (s.rings ring).occ <+: v.written ∧
        ((s.rings ring).prodHeld = true → s.calls.flatMap Call.accepted <+: v.written) ∧
        ((s.rings ring).prodHeld = false → (v.rings ring).ready (waitCount false) = true) := by
  have hi := reach_inv hr
  rw [calls_of_quiet hq]
  refine ⟨fun hne => ?_, fun t v ht hp hv => ?_⟩
  · cases tickFlush with
    | true => exact .inl rfl
    | false => exact .inr (select_ready_of_unwritten hi hq hw hne)
  · have hit := (hi.step ht).inv
    have htick : t = s.writerAt (.asSlices ring .tick) := by
      simp only [step, hw] at ht
      cases tickFlush with
      | true => exact (Option.some.inj ht).symm
      | false => cases ht
    subst htick
    have hd : Draining ring (s.written ++ (s.rings ring).occ) (s.writerAt (.asSlices ring .tick)) :=
      ⟨hit, fun _ => List.prefix_rfl, by simp⟩
    have hwritten := (hd.path hp).flushed hv
    refine ⟨hwritten, fun hopen => ?_, fun hclosed => ?_⟩
    · rw [accepted_of_select hi hq hw hopen]; exact hwritten
    · have hcv := tickFlushing_closed hit hclosed hp
      simp [Ring.ready, hcv]

/-- One byte, and the writer has taken its ring. -/
def sendOne : List Act := [.call (.sendNonblock [7]), .sender, .writer]

/-- The tick, and its flush of one byte up to the return. -/
def tickAndFlush : List Act := [.writer, .wrote 1, .writer, .writer, .writer]

theorem auto_flush_writes_sendOne :
    ∃ s v : State (RingBuffer.circular UInt8), (machine _ ⟨1, 0, 0⟩).Reach s ∧
      s.writer = .select 0 true ∧ s.calls.flatMap Call.accepted = [7] ∧ s.written = [] ∧
      [7] <+: v.written := by
  let m := machine (RingBuffer.circular UInt8) ⟨1, 0, 0⟩
  obtain ⟨s, hr, hp⟩ := m.reach_of_run sendOne
    (fun s => decide (s.writer = .select 0 true ∧ s.sender = .idle ∧
      s.calls.flatMap Call.accepted = [7] ∧ s.written = [] ∧ (s.rings 0).prodHeld = true) &&
      (m.step s .tick).any (m.reaches (TickFlushing 0) tickAndFlush
        fun v => decide (v.writer = .select 0 false))) (by decide +kernel)
  rw [Bool.and_eq_true] at hp
  obtain ⟨hw, hs, hacc, hwr, hopen⟩ := of_decide_eq_true hp.1
  obtain ⟨t, ht, hrun⟩ := (Option.any_eq_true _ _).mp hp.2
  obtain ⟨v, hpath, hv⟩ := Machine.path_of_reaches hrun
  obtain ⟨-, hall⟩ := auto_flush_writes _ _ s 0 true hr hw (by rw [hs]; rfl)
  obtain ⟨-, hflushed, -⟩ := hall t v ht hpath (of_decide_eq_true hv)
  exact ⟨s, v, hr, hw, hacc, hwr, hacc ▸ hflushed hopen⟩

/-- The user's thread runs while the writer stands still. -/
def OnlyUser (_ : State R) (a : Act) : Prop := a.ofUser = true

instance (s : State R) (a : Act) : Decidable (OnlyUser s a) := inferInstanceAs (Decidable (_ = _))

/-- The sender closes the ring between the two polls, a second byte goes to the next ring, and the
    flush of the tick returns without it. -/
theorem tick_flush_misses_next_ring :
    ∃ s₀ s t v : State (RingBuffer.circular UInt8), (machine _ ⟨1, 0, 0⟩).Reach s₀ ∧ Waiting s₀ 0 ∧
      (machine _ ⟨1, 0, 0⟩).Path OnlyUser s₀ s ∧ s.writer = .select 0 true ∧ s.sender = .idle ∧
      s.calls.flatMap Call.accepted ≠ s.written ∧ step ⟨1, 0, 0⟩ s .tick = some t ∧
      (machine _ ⟨1, 0, 0⟩).Path (TickFlushing 0) t v ∧ v.writer = .select 0 false ∧
      s.calls.flatMap Call.accepted = [7, 8] ∧ v.written = [7] := by
  let m := machine (RingBuffer.circular UInt8) ⟨1, 0, 0⟩
  obtain ⟨s₀, hr, hp⟩ := m.reach_of_run sendOne
    (fun s₀ => decide (s₀.writer = .select 0 true ∧ (s₀.rings 0).ready (waitCount true) = false) &&
      m.reaches OnlyUser [.call .flush, .sender, .sender, .sender, .call (.sendNonblock [8]), .sender]
        (fun s => decide (s.writer = .select 0 true ∧ s.sender = .idle ∧
          s.calls.flatMap Call.accepted = [7, 8] ∧ s.written = []) &&
          (m.step s .tick).any (m.reaches (TickFlushing 0) tickAndFlush
            fun v => decide (v.writer = .select 0 false ∧ v.written = [7]))) s₀) (by decide +kernel)
  rw [Bool.and_eq_true] at hp
  obtain ⟨hw₀, hready⟩ := of_decide_eq_true hp.1
  obtain ⟨s, hpath, hp⟩ := Machine.path_of_reaches hp.2
  rw [Bool.and_eq_true] at hp
  obtain ⟨hw, hs, hacc, hwr⟩ := of_decide_eq_true hp.1
  obtain ⟨t, ht, hrun⟩ := (Option.any_eq_true _ _).mp hp.2
  obtain ⟨v, hflush, hv⟩ := Machine.path_of_reaches hrun
  obtain ⟨hv, hwv⟩ := of_decide_eq_true hv
  refine ⟨s₀, s, t, v, hr, .select hw₀ hready, hpath, hw, hs, ?_, ht, hflush, hv, hacc, hwv⟩
  rw [hacc, hwr]; simp

end SocketManager.Outgoing
