import SocketManager.Outgoing.Chain

/-! The writer drains the chain from its head: every step of `handle_writer`, of `flush`, and of the
    return of the task keeps `Core`, with the same open tail and the same accepted bytes. -/

namespace SocketManager.Outgoing
variable {R : RingBuffer UInt8} {config : ConnConfig} {s s' : State R} {tail : List Nat}
  {acc : List UInt8} {i n : Nat} {k : FlushFrom}

/-! ### From the chain of a running writer to the invariant and back -/

/-- A running writer that has not seen the end of the channel. -/
theorem Core.of_running (h : Running s tail acc) (hf : s.writer.finishing = false) :
    Core s tail acc := by
  refine ⟨fun _ => h, ?_, fun hfin => ?_⟩
  · rw [h.stream]; exact List.prefix_append _ _
  · rw [hf] at hfin; exact absurd hfin (by decide)

/-- A step of a task that is returning. It may only be heading for `Ok` if it already was. -/
theorem Core.of_returning (h : Core s tail acc) (hrun : s'.writer.running = false)
    (hwr : s'.written = s.written)
    (hf : s'.writer.finishing = true → s.writer.finishing = true ∧ s'.queue = s.queue) :
    Core s' tail acc := by
  refine ⟨fun hr => ?_, hwr ▸ h.written, fun hfin => ?_⟩
  · rw [hrun] at hr; exact absurd hr (by decide)
  · obtain ⟨hsf, hq⟩ := hf hfin
    rw [hq, hwr]; exact h.finishing hsf

/-- A running writer goes to another point of its code with the same ring. -/
theorem Core.goto {w w' : WriterPc} (h : Core s tail acc) (hw : s.writer = w)
    (hrun : w.running = true) (hr : w'.ring? = w.ring?) (hf : w'.inFlight = w.inFlight)
    (hpc : PcOk s.rings w') (hfin : w'.finishing = false) : Core (s.writerAt w') tail acc := by
  subst hw
  exact .of_running ((h.running hrun).goto hr hf hpc) hfin

/-! ### Steps that change the chain -/

/-- `recv` moves the first queued ring into the hand of the writer. -/
theorem Running.recv {queue : List Nat} {w : WriterPc} (h : Running s tail acc)
    (hw : s.writer = .recv) (hq : s.queue = i :: queue) (hr : w.ring? = some i)
    (hf : w.inFlight = 0) (hpc : PcOk s.rings w) :
    Running { s with queue, writer := w } tail acc := by
  have hlive : State.live { s with queue, writer := w } = s.live := by
    rw [live_eq_cons hr, State.live, hw, hq]; rfl
  refine h.of_live hlive rfl rfl hpc ?_
  rw [State.backlog, State.backlog, hlive, hf, hw]; rfl

/-- The socket took `n` bytes of the slice. -/
theorem Running.wrote {left : List UInt8} (h : Running s tail acc)
    (hw : s.writer = .write i k left) (hn : n ≤ left.length) :
    Running { s with written := s.written ++ left.take n, writer := .advance i k n } tail acc := by
  have hpc := h.pc
  simp only [hw, PcOk] at hpc
  obtain ⟨hne, ⟨rest, hrest⟩, hk⟩ := hpc
  have hlive : s.live = i :: s.queue := live_eq_cons (by rw [hw]; rfl)
  have hlive' : State.live { s with written := s.written ++ left.take n, writer := .advance i k n } =
      s.live := by rw [live_eq_cons rfl, hlive]
  refine h.of_live hlive' rfl rfl ⟨?_, hk⟩ ?_
  · rw [← hrest, List.length_append]; omega
  · -- the slice starts the chain, so the bytes taken are its first ones
    have hbs : s.backlog = left ++ (rest ++ s.queue.flatMap fun i => (s.rings i).occ) := by
      rw [State.backlog, hlive, hw, List.flatMap_cons, ← hrest, List.append_assoc]; rfl
    have hbs' : State.backlog { s with
        written := s.written ++ left.take n, writer := .advance i k n } = s.backlog.drop n := by
      rw [State.backlog, State.backlog, hlive', hw]; rfl
    rw [hbs', hbs, List.drop_append_of_le_length hn, List.append_assoc,
      ← List.append_assoc (left.take n), List.take_append_drop]

/-- The read index catches up with the socket. -/
theorem Running.advance (h : Running s tail acc) (hw : s.writer = .advance i k n) :
    Running ((s.writerAt (.wake i k)).updRing i (·.advanceReadIndex n)) tail acc := by
  have hpc := h.pc
  simp only [hw, PcOk] at hpc
  have hlive : s.live = i :: s.queue := live_eq_cons (by rw [hw]; rfl)
  have hi : i ∉ s.queue := by
    have hnd := h.nodup
    rw [hlive, List.nodup_cons] at hnd; exact hnd.1
  have hlive' : State.live ((s.writerAt (.wake i k)).updRing i (·.advanceReadIndex n)) =
      s.live := by rw [live_eq_cons rfl, hlive]; rfl
  obtain ⟨closed, hc, hcl⟩ := h.chain
  refine ⟨h.rx, hlive' ▸ h.nodup,
    ⟨closed, hlive'.trans hc, fun j hj => State.updRing_imp (·.prodHeld = false) id (hcl j hj)⟩,
    fun j hj => State.updRing_imp (·.prodHeld = true) id (h.tailOpen j hj),
    fun j hj => State.updRing_imp (·.consHeld = true) id (h.cons j (hlive' ▸ hj)),
    fun j hj => State.updRing_imp (fun r => ringBufferSize ≤ R.capacity r.rb)
      (fun hcap => hcap.trans (R.capacity_advance _ _).ge) (h.cap j (hlive' ▸ hj)),
    fun hk => State.updRing_imp (·.prodHeld = false) id (hpc.2 hk), ?_⟩
  have hself : ((s.updRing i (·.advanceReadIndex n)).rings i).occ = (s.rings i).occ.drop n := by
    rw [State.updRing_self]; exact R.occupied_advance _ _ hpc.1
  have hrest : (s.queue.flatMap fun j => ((s.updRing i (·.advanceReadIndex n)).rings j).occ) =
      s.queue.flatMap fun j => (s.rings j).occ :=
    List.flatMap_congr fun j hj => by
      rw [State.updRing_of_ne]; rintro rfl; exact hi hj
  have hbs : s.backlog = (s.rings i).occ.drop n ++ s.queue.flatMap fun j => (s.rings j).occ := by
    rw [State.backlog, hlive, hw, List.flatMap_cons]
    exact List.drop_append_of_le_length hpc.1
  rw [h.stream, hbs, State.backlog, hlive', hlive, List.flatMap_cons]
  show _ = s.written ++ (((s.updRing i (·.advanceReadIndex n)).rings i).occ ++
    s.queue.flatMap fun j => ((s.updRing i (·.advanceReadIndex n)).rings j).occ)
  rw [hself, hrest]

/-- A cleared closed ring leaves the chain. -/
theorem Running.dropRing (h : Running s tail acc) (hw : s.writer = .asSlices i .closed)
    (hocc : (s.rings i).occ = []) :
    Running ((s.writerAt (.ringDropped i)).updRing i fun r => { r with consHeld := false })
      tail acc := by
  have hpc := h.pc
  simp only [hw, PcOk] at hpc
  have hlive : s.live = i :: s.queue := live_eq_cons (by rw [hw]; rfl)
  have hnd := h.nodup
  rw [hlive, List.nodup_cons] at hnd
  have hne : ∀ j ∈ s.queue, (s.updRing i fun r => { r with consHeld := false }).rings j = s.rings j :=
    fun j hj => State.updRing_of_ne (by rintro rfl; exact hnd.1 hj)
  have hmem : ∀ j ∈ s.queue, j ∈ s.live := fun j hj => by rw [hlive]; exact List.mem_cons_of_mem _ hj
  have hlive' : State.live ((s.writerAt (.ringDropped i)).updRing i fun r =>
      { r with consHeld := false }) = s.queue := rfl
  obtain ⟨closed, hc, hcl⟩ := h.chain
  refine ⟨h.rx, hnd.2, ?_, fun j hj => State.updRing_imp (·.prodHeld = true) id (h.tailOpen j hj),
    fun j hj => ?_, fun j hj => State.updRing_imp (fun r => ringBufferSize ≤ R.capacity r.rb) id
      (h.cap j (hmem j hj)), trivial, ?_⟩
  · -- the ring is closed, so it was not in the open tail
    cases closed with
    | nil =>
      have hit : i ∈ tail := by rw [← List.nil_append tail, ← hc, hlive]; exact List.mem_cons_self
      exact absurd (h.tailOpen i hit) (by rw [hpc trivial]; decide)
    | cons c closed =>
      rw [hlive, List.cons_append, List.cons.injEq] at hc
      exact ⟨closed, hlive'.trans hc.2, fun j hj => State.updRing_imp (·.prodHeld = false) id
        (hcl j (List.mem_cons_of_mem _ hj))⟩
  · show ((s.updRing i fun r => { r with consHeld := false }).rings j).consHeld = true
    rw [hne j hj]; exact h.cons j (hmem j hj)
  · have hsame : ∀ j, (((s.writerAt (.ringDropped i)).updRing i fun r =>
        { r with consHeld := false }).rings j).occ = (s.rings j).occ :=
      fun j => State.updRing_congr Ring.occ rfl
    rw [h.stream, State.backlog, State.backlog, hlive', hlive, hw, List.flatMap_cons, hocc]
    simp only [hsame]; rfl

/-! ### The whole writer -/

/-- Waking a producer changes nothing the chain depends on. -/
theorem Core.wakeRing (h : Core s tail acc) : Core (s.wakeRing i) tail acc :=
  h.congr rfl rfl rfl rfl fun _ _ =>
    ⟨State.updRing_congr Ring.rb rfl, State.updRing_congr Ring.prodHeld rfl,
      State.updRing_congr Ring.consHeld rfl⟩

/-- A completed `flush` found its ring empty. -/
theorem Core.flushed (h : Core s tail acc) (hw : s.writer = .asSlices i k)
    (hleft : R.left (s.rings i).rb = []) : Core (flushed config s i k) tail acc := by
  have hrun : s.writer.running = true := by rw [hw]; rfl
  cases k with
  | closed => exact .of_running ((h.running hrun).dropRing hw (R.left_eq_nil _ hleft)) rfl
  | tick => exact h.goto hw rfl rfl rfl trivial rfl
  | occupied =>
    simp only [Outgoing.flushed]
    split <;> exact h.goto hw rfl rfl rfl trivial rfl

/-- The end of the channel: every sender is gone and nothing is queued. -/
theorem Core.shutdown (h : Core s tail acc) (hw : s.writer = .recv) (hq : s.queue = [])
    (htail : tail = []) : Core (s.writerAt .shutdown) tail acc := by
  have hr := h.running (by rw [hw]; rfl)
  have hlive : s.live = [] := by simp [State.live, hw, hq, WriterPc.ring?]
  have hacc : acc = s.written := by
    rw [hr.stream, State.backlog, hlive]; simp
  exact ⟨fun _ => hr.goto (by rw [hw]; rfl) (by rw [hw]; rfl) trivial, h.written,
    fun _ => ⟨htail, hq, hacc⟩⟩

/-- The steps of the writer keep the chain. `htx`: a sender that has dropped its end of the channel
    holds no ring open. -/
theorem Core.writerMove (h : Core s tail acc) (htx : s.txHeld = false → tail = [])
    (hm : WriterMove config s s') : Core s' tail acc := by
  cases hm with
  | recv hw hq =>
    have hr := h.running (by rw [hw]; rfl)
    unfold ringReceived
    split <;> exact .of_running (hr.recv hw hq rfl rfl trivial) rfl
  | finish hw hq htxf => exact h.shutdown hw hq (htx htxf)
  | ready hw _ => exact h.goto hw rfl rfl rfl trivial rfl
  | readyNoFlush hw _ => exact h.goto hw rfl rfl rfl trivial rfl
  | closed hw hp => exact h.goto hw rfl rfl rfl (fun _ => hp) rfl
  | measure hw _ _ => exact h.goto hw rfl rfl rfl trivial rfl
  | drain hw _ _ => exact h.goto hw rfl rfl rfl (fun hk => by cases hk) rfl
  | below hw _ => exact h.goto hw rfl rfl rfl trivial rfl
  | enough hw _ => exact h.goto hw rfl rfl rfl (fun hk => by cases hk) rfl
  | tick hw => exact h.goto hw rfl rfl rfl (fun hk => by cases hk) rfl
  | flushed hw hleft => exact h.flushed hw hleft
  | @write ring k b bs hw hleft =>
    have hpc := (h.running (by rw [hw]; rfl)).pc
    simp only [hw, PcOk] at hpc
    refine h.goto hw rfl rfl rfl ⟨by simp, ?_, hpc⟩ rfl
    rw [← hleft]; exact R.left_isPrefix _
  | wrote hw _ hn => exact .of_running ((h.running (by rw [hw]; rfl)).wrote hw hn) rfl
  | advance hw => exact .of_running ((h.running (by rw [hw]; rfl)).advance hw) rfl
  | wake hw =>
    have hpc := (h.running (by rw [hw]; rfl)).pc
    simp only [hw, PcOk] at hpc
    exact h.wakeRing.goto hw rfl rfl rfl
      (fun hk => State.updRing_imp (·.prodHeld = false) id (hpc hk)) rfl
  | ringDropped hw => exact h.wakeRing.goto hw rfl rfl rfl trivial rfl
  | writeFails hw => exact h.of_returning rfl rfl fun hf => by cases hf
  | shutdownOk hw => exact h.of_returning rfl rfl fun _ => ⟨by rw [hw]; rfl, rfl⟩
  | shutdownFails hw => exact h.of_returning rfl rfl fun hf => by cases hf
  | abort hw => exact h.of_returning rfl rfl fun hf => by cases hf
  | unwindRing hw => exact h.of_returning rfl rfl fun hf => ⟨by rw [hw]; exact hf, rfl⟩
  | unwindRx hw _ =>
    exact h.of_returning (by simp only [hw]; rfl) rfl fun hf => ⟨hf, rfl⟩
  | unwindQueue hw _ hq =>
    -- a task that returns `Ok` has nothing queued
    refine h.of_returning rfl rfl fun hf => ?_
    have hnil := (h.finishing (by rw [hw]; exact hf)).2.1
    rw [hq] at hnil; cases hnil
  | unwindWake hw => exact h.of_returning rfl rfl fun hf => ⟨by rw [hw]; exact hf, rfl⟩
  | returned hw _ _ => exact h.of_returning rfl rfl fun hf => ⟨by rw [hw]; exact hf, rfl⟩

end SocketManager.Outgoing
