import SocketManager.Lib.Rank
import SocketManager.Outgoing.Stream

/-! "Drop the sender to close the connection." Once the sender is dropped the writer comes to its end by
    itself: every ring it can still reach is closed, so it never waits for the user again, and each of
    its steps brings it nearer to its return.

        recv ─▶ select ─▶ isClosed ─▶ asSlices ─▶ write ─▶ advance ─▶ wake ─▶ asSlices … ─▶ ringDropped
          ▲                                                                                    │
          └──────────────────────────────────── next ring ─────────────────────────────────────┘
          └─▶ shutdown ─▶ unwind ─▶ returned

    The rank counts the way to go at a point of the code (`WriterPc.weight`), the bytes the socket has
    not taken and the rings still queued. Going round the loop of `flush` costs four steps for each
    write, which takes at least one byte; a ring costs the way from `recv` back to `recv`. -/

namespace SocketManager.Outgoing
variable {R : RingBuffer UInt8} {config : ConnConfig} {s s' : State R}

/-- The sender is gone, or is on its way: `ring_buf` was dropped. -/
def SenderPc.gone : SenderPc → Bool
  | .dropRingsPrd | .dropped => true
  | _ => false

/-- The socket does not fail and the task is not aborted. -/
def Act.healthy : Act → Bool
  | .writeFails | .shutdownFails | .abort => false
  | _ => true

/-- The task is returning, or has returned, something else than `Ok`. -/
def WriterPc.failed : WriterPc → Bool
  | .unwind _ res | .unwindWake _ res | .returned res => decide (res ≠ .ok)
  | _ => false

/-- What is left after the current `flush`. -/
def FlushFrom.weight : FlushFrom → Nat
  | .closed => 10
  | .occupied | .tick => 14

/-- The way to go from a point of the code, bytes and rings apart. -/
def WriterPc.weight : WriterPc → Nat
  | .occupiedLen _ => 16
  | .select _ true => 15
  | .select _ false => 12
  | .waitOccupied _ => 12
  | .isClosed _ => 11
  | .asSlices _ k => k.weight
  | .write _ k _ => k.weight - 1
  | .advance _ k _ => k.weight + 2
  | .wake _ k => k.weight + 1
  | .ringDropped _ => 7
  | .recv => 6
  | .shutdown => 5
  | .unwind (some _) _ => 3
  | .unwindWake _ _ => 2
  | .unwind none _ => 1
  | .returned _ => 0

/-- How many bytes the socket has not taken. -/
def State.unwritten (s : State R) : Nat := s.accepted.length - s.written.length

/-- The rank of the writer's state. -/
def State.writerRank (s : State R) : Nat :=
  s.writer.weight + 4 * s.unwritten + 20 * s.queue.length + s.rxHeld.toNat

/-- The rank of a state after the drop of the sender, which has one more step to take itself. -/
def State.drainRank (s : State R) : Nat :=
  s.writerRank + if s.sender = .dropped then 0 else 1

/-! ### A dropped sender -/

/-- What is true from the drop of the sender on. -/
structure Dropped (s : State R) : Prop where
  inv : Inv s
  gone : s.sender.gone = true
  tx : s.sender = .dropped → s.txHeld = false

/-- Only the drop of `rings_prd` ends a sender. -/
theorem tx_senderMove (hm : SenderMove s s') : s'.sender = .dropped → s'.txHeld = false := by
  cases hm with
  | call op hs =>
    intro hd
    cases op <;> simp only [startCall] at hd <;> (try split at hd) <;> cases hd
  | repoll hs => intro hd; cases hd
  | drop hs => intro hd; cases hd
  | step hs =>
    intro hd
    unfold senderStep at hs
    split at hs
    case h_4 =>
      obtain rfl := Option.some.inj hs
      rename_i op offset registered _
      simp only [burstWrite] at hd
      split at hd
      · cases op <;> simp only [burstPending] at hd <;> (try split at hd) <;> (try split at hd) <;>
          cases hd
      · split at hd
        · cases op <;> cases hd
        · cases hd
    case h_5 =>
      obtain rfl := Option.some.inj hs
      simp only [pollWrite] at hd
      split at hd
      · cases hd
      · split at hd <;> cases hd
    case h_7 =>
      obtain rfl := Option.some.inj hs
      unfold sendRing at hd
      split at hd <;> cases hd
    case h_9 => split at hs <;> (obtain rfl := Option.some.inj hs; cases hd)
    case h_11 => obtain rfl := Option.some.inj hs; rfl
    all_goals first
      | (obtain rfl := Option.some.inj hs; cases hd)
      | cases hs

theorem reach_tx (hr : (machine R config).Reach s) : s.sender = .dropped → s.txHeld = false := by
  refine Machine.Path.invariant_of_reach (I := fun t => t.sender = .dropped → t.txHeld = false) hr
    (fun hd => by cases hd) ?_
  intro t a u hrt _ ht hs
  rcases step_cases hs with hm | hm
  · exact tx_senderMove hm
  · have hf := writerMove_frame (reach_inv hrt).core hm
    rw [hf.sender, hf.txHeld]; exact ht

/-- A sender that is gone has one step left, if any. -/
theorem senderMove_of_gone (hg : s.sender.gone = true) (hm : SenderMove s s') :
    s.sender = .dropRingsPrd ∧ s' = { s with txHeld := false, sender := .dropped } := by
  cases hm with
  | call op hs => rw [hs] at hg; cases hg
  | repoll hs => rw [hs] at hg; cases hg
  | drop hs => rw [hs] at hg; cases hg
  | step hs =>
    cases hp : s.sender with
    | dropRingsPrd =>
      simp only [senderStep, hp] at hs
      exact ⟨rfl, (Option.some.inj hs).symm⟩
    | dropped => simp only [senderStep, hp] at hs; cases hs
    | _ => rw [hp] at hg; cases hg

/-- After the drop every ring the writer can reach is closed. -/
theorem Dropped.closed (h : Dropped s) (hrun : s.writer.running = true) {i : Nat}
    (hi : i ∈ s.live) : (s.rings i).prodHeld = false := by
  have hopen : s.sender.openRings s.ringBuf = [] := by
    have hg := h.gone
    cases hs : s.sender <;> rw [hs] at hg <;> first | rfl | cases hg
  have hcore := h.inv.core
  rw [hopen] at hcore
  obtain ⟨closed, hc, hcl⟩ := (hcore.running hrun).chain
  rw [List.append_nil] at hc
  exact hcl i (hc ▸ hi)

theorem Dropped.step {a : Act} (h : Dropped s) (hs : step config s a = some s') :
    Dropped s' ∧ s'.accepted = s.accepted := by
  rcases step_cases hs with hm | hm
  · obtain ⟨hp, rfl⟩ := senderMove_of_gone h.gone hm
    refine ⟨⟨(h.inv.step hs).inv, rfl, fun _ => rfl⟩, ?_⟩
    simp only [State.accepted, hp]; rfl
  · have hf := writerMove_frame h.inv.core hm
    refine ⟨⟨(h.inv.step hs).inv, hf.sender ▸ h.gone, ?_⟩, ?_⟩
    · rw [hf.sender, hf.txHeld]; exact h.tx
    · rw [State.accepted, State.accepted, hf.calls, hf.sender]

/-! ### Each step is nearer to the end -/

theorem WriterPc.weight_le (w : WriterPc) : w.weight ≤ 17 := by
  cases w with
  | select ring tickFlush => cases tickFlush <;> simp [WriterPc.weight]
  | asSlices ring k | write ring k left | advance ring k n | wake ring k =>
    cases k <;> simp [WriterPc.weight, FlushFrom.weight]
  | unwind ring res => cases ring <;> simp [WriterPc.weight]
  | _ => simp [WriterPc.weight]

/-- A step of a writer that will not go back to wait for its ring, whatever the socket does. -/
theorem writerRank_lt (hi : Inv s) (hclosed : ∀ i, s.writer = .isClosed i → (s.rings i).prodHeld = false)
    (hm : WriterMove config s s') : s'.writerRank < s.writerRank := by
  have hf := writerMove_frame hi.core hm
  have hacc : s'.accepted = s.accepted := by
    rw [State.accepted, State.accepted, hf.calls, hf.sender]
  have hopen : ∀ {i : Nat}, s.writer = .isClosed i → (s.rings i).prodHeld = true → False := by
    intro i hw hp
    rw [hclosed i hw] at hp; cases hp
  simp only [State.writerRank, State.unwritten, hacc]
  cases hm with
  | @recv ring queue hw hq =>
    have hle : (ringReceived config ring).weight ≤ 15 := by
      unfold ringReceived
      split <;> simp [WriterPc.weight]
    have hrecv : (WriterPc.recv).weight = 6 := rfl
    simp only [hw, hq, List.length_cons, hrecv]; omega
  | measure hw hp => exact (hopen hw hp).elim
  | drain hw hp => exact (hopen hw hp).elim
  | ready hw =>
    rename_i tickFlush _
    cases tickFlush <;> simp [hw, WriterPc.weight]
  | @flushed ring k hw =>
    cases k with
    | occupied =>
      simp only [flushed]
      split <;> simp [hw, WriterPc.weight, FlushFrom.weight]
    | _ => simp [flushed, hw, WriterPc.weight, FlushFrom.weight]
  | @write ring k b bs hw => cases k <;> simp [hw, WriterPc.weight, FlushFrom.weight]
  | @wrote ring k left n hw hpos hn =>
    -- the bytes taken pay for the way round
    have hpre := (hi.core.writerMove (fun htx => by rw [hi.tx htx]; rfl)
      (WriterMove.wrote hw hpos hn : WriterMove config s _)).written.length_le
    simp only [List.length_append, List.length_take, Nat.min_eq_left hn] at hpre ⊢
    have hk : 1 ≤ k.weight := by cases k <;> decide
    simp only [hw, WriterPc.weight]; omega
  | @writeFails ring k left hw => cases k <;> simp [hw, WriterPc.weight, FlushFrom.weight]
  | @abort ring hw =>
    have hlt : (WriterPc.unwind ring .aborted).weight < s.writer.weight := by
      cases hp : s.writer with
      | recv | shutdown | waitOccupied => rw [hp] at hw; cases hw; simp [WriterPc.weight]
      | select ring tickFlush => rw [hp] at hw; cases hw; cases tickFlush <;> simp [WriterPc.weight]
      | write ring k left =>
        rw [hp] at hw; cases hw; cases k <;> simp [WriterPc.weight, FlushFrom.weight]
      | _ => rw [hp] at hw; cases hw
    simp only [State.writerAt_writer, State.writerAt_written, State.writerAt_queue,
      State.writerAt_rxHeld]
    omega
  | unwindRx hw hrx => simp [hrx]
  | unwindQueue hw hrx hq =>
    simp only [hw, hq, List.length_cons, WriterPc.weight, State.writerAt_writer]
    simp
    omega
  | _ => simp_all [WriterPc.weight, FlushFrom.weight, State.wakeRing]

theorem Dropped.writerRank_lt (h : Dropped s) (hm : WriterMove config s s') :
    s'.writerRank < s.writerRank := by
  refine Outgoing.writerRank_lt h.inv (fun i hw => ?_) hm
  refine h.closed (by rw [hw]; rfl) ?_
  rw [live_eq_cons (i := i) (by rw [hw]; rfl)]
  exact List.mem_cons_self

theorem drainRank_lt {a : Act} (h : Dropped s) (hs : step config s a = some s') :
    s'.drainRank < s.drainRank := by
  rcases step_cases hs with hm | hm
  · obtain ⟨hp, rfl⟩ := senderMove_of_gone h.gone hm
    have hacc : State.accepted { s with txHeld := false, sender := .dropped } = s.accepted := by
      simp only [State.accepted, hp]; rfl
    simp only [State.drainRank, State.writerRank, State.unwritten, hacc, hp]
    simp
  · have hlt := h.writerRank_lt hm
    have hf := writerMove_frame h.inv.core hm
    simp only [State.drainRank, hf.sender]
    omega

/-- From the drop of the sender on the steps of every run are counted by the rank. -/
theorem ranked_drain (config : ConnConfig) (s : State R) : (machine R config).Ranked (fun _ _ => True)
    (fun t => Dropped t ∧ t.accepted = s.accepted) State.drainRank where
  keeps _ _ _ hI _ hs := ⟨(hI.1.step hs).1, (hI.1.step hs).2.trans hI.2⟩
  lt _ _ _ hI _ hs := drainRank_lt hI.1 hs

theorem State.drainRank_le (s : State R) : s.drainRank ≤
    4 * (s.accepted.length - s.written.length) + 20 * s.queue.length + 19 := by
  have hw := s.writer.weight_le
  have hrx : s.rxHeld.toNat ≤ 1 := Bool.toNat_le _
  have hone : (if s.sender = .dropped then 0 else 1) ≤ 1 := by split <;> omega
  simp only [State.drainRank, State.writerRank, State.unwritten]
  omega

/-! ### Where a run ends -/

/-- The writer does not fail by itself. -/
theorem failed_writerStep (hs : writerStep config s = some s') (hf : s.writer.failed = false) :
    s'.writer.failed = false := by
  unfold writerStep at hs
  split at hs
  · split at hs
    · obtain rfl := Option.some.inj hs
      simp only [ringReceived]
      split <;> rfl
    · split at hs
      · cases hs
      · obtain rfl := Option.some.inj hs; rfl
  · split at hs
    · obtain rfl := Option.some.inj hs; rfl
    · cases hs
  · split at hs
    · obtain rfl := Option.some.inj hs; rfl
    · cases hs
  · split at hs
    · obtain rfl := Option.some.inj hs; rfl
    · split at hs <;> (obtain rfl := Option.some.inj hs; rfl)
  · split at hs <;> (obtain rfl := Option.some.inj hs; rfl)
  · rename_i ring k _
    split at hs
    · obtain rfl := Option.some.inj hs
      cases k with
      | occupied => simp only [flushed]; split <;> rfl
      | _ => rfl
    · obtain rfl := Option.some.inj hs; rfl
  · obtain rfl := Option.some.inj hs; rfl
  · obtain rfl := Option.some.inj hs; rfl
  · obtain rfl := Option.some.inj hs; rfl
  · rename_i hw
    obtain rfl := Option.some.inj hs
    rw [hw] at hf; exact hf
  · rename_i hw
    rw [hw] at hf
    split at hs
    · obtain rfl := Option.some.inj hs
      show s.writer.failed = false
      rw [hw]; exact hf
    · split at hs <;> (obtain rfl := Option.some.inj hs; exact hf)
  · rename_i hw
    obtain rfl := Option.some.inj hs
    rw [hw] at hf; exact hf
  all_goals cases hs

/-- Only the socket and an abort make it fail. -/
theorem failed_step {a : Act} (ha : a.healthy = true) (hs : step config s a = some s')
    (hf : s.writer.failed = false) : s'.writer.failed = false := by
  cases hu : a.ofUser with
  | true => rw [(senderMove_frame (step_user hu hs)).writer]; exact hf
  | false =>
    cases a with
    | call | sender | repoll | dropSender => cases hu
    | writeFails | shutdownFails | abort => cases ha
    | writer => exact failed_writerStep hs hf
    | tick | shutdownOk =>
      simp only [step] at hs
      split at hs
      · obtain rfl := Option.some.inj hs; rfl
      · cases hs
    | wrote n =>
      simp only [step] at hs
      split at hs
      · split at hs
        · obtain rfl := Option.some.inj hs; rfl
        · cases hs
      · cases hs

/-- A writer that has not returned, whose ring is closed and whose channel has something or has ended,
    can take a step that is not a failure. -/
theorem writer_progress (config : ConnConfig) (hi : Inv s) (hret : ∀ res, s.writer ≠ .returned res)
    (hclosed : s.writer.running = true → ∀ i, s.writer.ring? = some i → (s.rings i).prodHeld = false)
    (hrecv : s.writer = .recv → s.queue = [] → s.txHeld = false) :
    ∃ a : Act, a.healthy = true ∧ a.ofUser = false ∧ Outgoing.step config s a ≠ none := by
  cases hw : s.writer with
  | recv =>
    cases hq : s.queue with
    | cons ring queue => exact ⟨.writer, rfl, rfl, by simp [Outgoing.step, writerStep, hw, hq]⟩
    | nil =>
      exact ⟨.writer, rfl, rfl, by simp [Outgoing.step, writerStep, hw, hq, hrecv hw hq]⟩
  | select ring tickFlush | waitOccupied ring =>
    have hc := hclosed (by rw [hw]; rfl) ring (by rw [hw]; rfl)
    exact ⟨.writer, rfl, rfl, by simp [Outgoing.step, writerStep, hw, Ring.ready, hc]⟩
  | write ring k left =>
    have hpc := (hi.core.running (by rw [hw]; rfl)).pc
    simp only [hw, PcOk] at hpc
    have hpos : 1 ≤ left.length := List.length_pos_iff.mpr hpc.1
    exact ⟨.wrote 1, rfl, rfl, by simp [Outgoing.step, hw, hpos]⟩
  | shutdown => exact ⟨.shutdownOk, rfl, rfl, by simp [Outgoing.step, hw]⟩
  | returned res => exact absurd hw (hret res)
  | isClosed ring =>
    have hc := hclosed (by rw [hw]; rfl) ring (by rw [hw]; rfl)
    exact ⟨.writer, rfl, rfl, by simp [Outgoing.step, writerStep, hw, hc]⟩
  | occupiedLen ring =>
    refine ⟨.writer, rfl, rfl, ?_⟩
    simp only [Outgoing.step, writerStep, hw]
    split <;> simp
  | asSlices ring k =>
    refine ⟨.writer, rfl, rfl, ?_⟩
    simp only [Outgoing.step, writerStep, hw]
    split <;> simp
  | advance | wake | ringDropped | unwindWake =>
    exact ⟨.writer, rfl, rfl, by simp [Outgoing.step, writerStep, hw]⟩
  | unwind ring res =>
    refine ⟨.writer, rfl, rfl, ?_⟩
    cases ring with
    | some ring => simp [Outgoing.step, writerStep, hw]
    | none =>
      simp only [Outgoing.step, writerStep, hw]
      split
      · simp
      · split <;> simp

/-- Until the writer has returned, some step that is not a failure can be taken. -/
theorem Dropped.progress (config : ConnConfig) (h : Dropped s) (hret : ∀ res, s.writer ≠ .returned res) :
    ∃ a : Act, a.healthy = true ∧ Outgoing.step config s a ≠ none := by
  by_cases hp : s.sender = .dropRingsPrd
  · exact ⟨.sender, rfl, by simp [Outgoing.step, senderStep, hp]⟩
  · -- the channel has ended
    have htx : s.txHeld = false := by
      refine h.tx ?_
      have hg := h.gone
      cases hs : s.sender with
      | dropped => rfl
      | dropRingsPrd => exact absurd hs hp
      | _ => rw [hs] at hg; cases hg
    obtain ⟨a, ha, -, hs⟩ := writer_progress config h.inv hret
      (fun hrun i hi => h.closed hrun (by rw [live_eq_cons hi]; exact List.mem_cons_self))
      fun _ _ => htx
    exact ⟨a, ha, hs⟩

/-- The end of every run after the drop. -/
theorem Dropped.of_stuck (config : ConnConfig) (h : Dropped s)
    (hst : (machine R config).Stuck (fun _ a => a.healthy = true) s) : ∃ res, s.writer = .returned res := by
  by_contra hne
  obtain ⟨a, ha, hs⟩ := h.progress config fun res hw => hne ⟨res, hw⟩
  exact hs (hst a ha)

/-- "Drop the sender to close the connection." After the drop every run is finite, with a bound that
    counts the unwritten bytes and the queued rings; it comes to a stop only when the writer has
    returned; and when neither the socket fails nor the task is aborted the writer has then returned
    `Ok` and the socket has taken every byte the sender ever accepted. -/
theorem dropped_sender_drains (R : RingBuffer UInt8) (config : ConnConfig) (s t : State R)
    (as : List Act) (hr : (machine R config).Reach s) (hg : s.sender.gone = true)
    (hrun : (machine R config).run s as = some t) :
    as.length ≤ 4 * (s.accepted.length - s.written.length) + 20 * s.queue.length + 19 ∧
    ((∀ a : Act, a.healthy = true → step config t a = none) →
      (∃ res, t.writer = .returned res) ∧
      (s.writer.failed = false → (∀ a ∈ as, a.healthy = true) →
        t.writer = .returned .ok ∧ t.sender = .dropped ∧ t.written = s.accepted)) := by
  have hd : Dropped s := ⟨reach_inv hr, hg, reach_tx hr⟩
  obtain ⟨⟨hdt, hacc⟩, hlen⟩ := (ranked_drain config s).length_le ⟨hd, rfl⟩
    (Machine.along_true _ as s) hrun
  refine ⟨?_, fun hst => ?_⟩
  · have hle := s.drainRank_le
    omega
  · obtain ⟨res, hres⟩ := hdt.of_stuck config hst
    refine ⟨⟨res, hres⟩, fun hf hall => ?_⟩
    have hp := Machine.path_of_along (Machine.along_of_forall (m := machine R config) hall s) hrun
    have hft : t.writer.failed = false :=
      hp.invariant hf fun u a v ha hu hs => failed_step ha hs hu
    have hok : res = .ok := by rw [hres] at hft; simpa [WriterPc.failed] using hft
    subst hok
    have hdrop : t.sender = .dropped := by
      have hg := hdt.gone
      cases hs : t.sender with
      | dropped => rfl
      | dropRingsPrd =>
        have hstep := hst .sender rfl
        simp [step, senderStep, hs] at hstep
      | _ => rw [hs] at hg; cases hg
    exact ⟨hres, hdrop, hacc ▸ (hdt.inv.core.finishing (by rw [hres]; rfl)).2.2.symm⟩

/-- Where `sendAndDrop` drops the sender, and what is left of it. -/
theorem dropped_sender_drains_sendAndDrop :
    ∃ s t : State (RingBuffer.circular UInt8), (machine _ ⟨0, 0, 0⟩).Reach s ∧
      s.sender = .dropRingsPrd ∧ s.written = [] ∧
      (machine _ ⟨0, 0, 0⟩).run s (sendAndDrop.drop 3) = some t ∧
      (sendAndDrop.drop 3).length ≤ 51 ∧ t.writer = .returned .ok ∧ t.written = [1, 2, 3] := by
  obtain ⟨s, hr, hp⟩ := Machine.reach_of_run
    (m := machine (RingBuffer.circular UInt8) ⟨0, 0, 0⟩) (sendAndDrop.take 3)
    (fun s => decide (s.sender = .dropRingsPrd ∧ s.written = [] ∧ s.queue = [0] ∧
      s.accepted = [1, 2, 3] ∧ s.writer = .recv) &&
      ((machine (RingBuffer.circular UInt8) ⟨0, 0, 0⟩).run s (sendAndDrop.drop 3)).any
        fun t : State (RingBuffer.circular UInt8) =>
          decide (t.writer = .returned .ok ∧ t.sender = .dropped))
    (by decide +kernel)
  obtain ⟨hs, ht⟩ := Bool.and_eq_true_iff.mp hp
  obtain ⟨hsend, hwr, hq, hacc, hw⟩ := of_decide_eq_true hs
  obtain ⟨t, hrun, ht⟩ := (Option.any_eq_true _ _).mp ht
  obtain ⟨hret, hdrop⟩ := of_decide_eq_true ht
  obtain ⟨hlen, hend⟩ := dropped_sender_drains _ _ s t _ hr (by rw [hsend]; rfl) hrun
  have hst : ∀ a : Act, a.healthy = true → step ⟨0, 0, 0⟩ t a = none := by
    intro a _
    cases a <;> simp [step, senderStep, writerStep, WriterPc.awaits, hret, hdrop]
  obtain ⟨hok, -, hall⟩ := (hend hst).2 (by rw [hw]; rfl) (by decide)
  rw [hacc, hwr, hq] at hlen
  exact ⟨s, t, hr, hsend, hwr, hrun, hlen, hok, hall.trans hacc⟩

end SocketManager.Outgoing
