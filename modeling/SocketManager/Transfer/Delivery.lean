import SocketManager.Transfer.Link

/-! Everything accepted arrives. Once the sender is dropped, a link in which the network does not fail,
    no task is aborted and `on_msg` takes at least one of the bytes it is offered comes to an end, and
    it ends with both tasks returned `Ok` and every accepted byte consumed.

    The rank of a link is that of its two sides, where a byte weighs more before it was written than
    after: a write takes from the writer's rank and gives to the reader's, who has then one more byte
    to read and to hand over. -/

namespace SocketManager.Transfer
variable {R : RingBuffer UInt8} {ctx crx : ConnConfig} {s s' : Link R}

/-- Neither the network nor a callback fails. -/
def Healthy (s : Link R) : Act → Prop
  | .tx a => a.healthy = true
  | .rx a => Incoming.Healthy s.rx a

instance (s : Link R) (a : Act) : Decidable (Healthy s a) := by
  cases a <;> unfold Healthy <;> infer_instance

namespace Link

/-- The steps a link has still to go, at most. -/
def rank (s : Link R) : Nat := s.tx.drainRank + 10 * s.tx.unwritten + s.rx.rank

/-- A link whose sender is dropped, on the way to deliver `acc`. -/
structure Draining (crx : ConnConfig) (acc : List UInt8) (s : Link R) : Prop where
  ok : s.Ok crx
  tx : Outgoing.Dropped s.tx
  accepted : s.tx.accepted = acc

end Link

theorem rank_feed (r : Incoming.Reader) (bytes : List UInt8) :
    (feed r bytes).rank = r.rank + 9 * bytes.length := by
  have hweight : (feed r bytes).weight = r.weight := rfl
  have hpend : (feed r bytes).session.pendingBytes = r.session.pendingBytes := rfl
  simp only [Incoming.Reader.rank, Incoming.Session.rank, hweight, hpend]
  simp only [feed, List.length_append]
  omega

/-- A step of the sending side pays for what it gives to the reader. -/
theorem rank_lt_tx {a : Outgoing.Act} {tx : Outgoing.State R} (h : Outgoing.Dropped s.tx)
    (hs : Outgoing.step ctx s.tx a = some tx) :
    Link.rank ⟨tx, feed s.rx (tx.written.drop s.tx.written.length)⟩ < s.rank := by
  obtain ⟨hd, hacc⟩ := h.step hs
  have hlt := Outgoing.drainRank_lt h hs
  obtain ⟨_, hle⟩ := Outgoing.pipe_step h.inv hs
  have hgrow : s.tx.written.length ≤ tx.written.length := hle.2.length_le
  have hall : tx.written.length ≤ tx.accepted.length := hd.inv.core.written.length_le
  simp only [Link.rank, rank_feed, List.length_drop, Outgoing.State.unwritten, hacc] at hlt hall ⊢
  omega

theorem rank_lt {a : Act} {acc : List UInt8} (h : s.Draining crx acc) (ha : Healthy s a)
    (hs : Link.step ctx crx s a = some s') : s'.rank < s.rank := by
  cases a with
  | tx a =>
    obtain ⟨tx, htx, rfl⟩ := Option.map_eq_some_iff.mp hs
    exact rank_lt_tx h.tx htx
  | rx a =>
    simp only [Link.step] at hs
    split at hs
    · cases hs
    · obtain ⟨rx, hrx, rfl⟩ := Option.map_eq_some_iff.mp hs
      exact Nat.add_lt_add_left (Incoming.rank_lt h.ok.rx ha hrx).1 _

theorem Link.Draining.step {a : Act} {acc : List UInt8} (h : s.Draining crx acc)
    (hs : Link.step ctx crx s a = some s') : s'.Draining crx acc := by
  refine ⟨h.ok.step hs, ?_, ?_⟩ <;> cases a with
  | tx a =>
    obtain ⟨tx, htx, rfl⟩ := Option.map_eq_some_iff.mp hs
    first
      | exact (h.tx.step htx).1
      | exact (h.tx.step htx).2.trans h.accepted
  | rx a =>
    simp only [Link.step] at hs
    split at hs
    · cases hs
    · obtain ⟨rx, -, rfl⟩ := Option.map_eq_some_iff.mp hs
      first
        | exact h.tx
        | exact h.accepted

theorem ranked_link (ctx crx : ConnConfig) (acc : List UInt8) : (Link.machine R ctx crx).Ranked
    Healthy (Link.Draining crx acc) Link.rank where
  keeps _ _ _ hI _ hs := hI.step hs
  lt _ _ _ hI ha hs := rank_lt hI ha hs

/-! ### Where a run ends -/

/-- Neither task has failed. -/
def Link.sound (s : Link R) : Prop := s.tx.writer.failed = false ∧ s.rx.pc.failed = false

theorem sound_step {a : Act} {acc : List UInt8} (h : s.Draining crx acc) (ha : Healthy s a)
    (hs : Link.step ctx crx s a = some s') (hf : s.sound) : s'.sound := by
  cases a with
  | tx a =>
    obtain ⟨tx, htx, rfl⟩ := Option.map_eq_some_iff.mp hs
    exact ⟨Outgoing.failed_step ha htx hf.1, hf.2⟩
  | rx a =>
    simp only [Link.step] at hs
    split at hs
    · cases hs
    · obtain ⟨rx, hrx, rfl⟩ := Option.map_eq_some_iff.mp hs
      exact ⟨hf.1, (Incoming.rank_lt h.ok.rx ha hrx).2⟩

/-- A link that can go no further has delivered everything. -/
theorem Link.Draining.of_stuck {acc : List UInt8} (h : s.Draining crx acc) (hf : s.sound)
    (hst : ∀ a, Healthy s a → Link.step ctx crx s a = none) :
    s.tx.writer = .returned .ok ∧ s.rx.pc = .returnedOk ∧ s.consumed = acc := by
  -- the sending side first, since the reader may have to wait for it
  have htx : ∀ a : Outgoing.Act, a.healthy = true → Outgoing.step ctx s.tx a = none := by
    intro a ha
    have hnone := hst (.tx a) ha
    simpa only [Link.step, Option.map_eq_none_iff] using hnone
  obtain ⟨res, hres⟩ := h.tx.of_stuck ctx htx
  have hok : res = .ok := by
    have hft := hf.1
    rw [hres] at hft
    simpa [Outgoing.WriterPc.failed] using hft
  subst hok
  have hall : s.tx.written = acc := by
    rw [← h.accepted]
    exact (h.tx.inv.core.finishing (by rw [hres]; rfl)).2.2.symm
  have hrx : ∀ a, Incoming.Healthy s.rx a → Incoming.step crx s.rx a = none := by
    intro a ha
    have hnone := hst (.rx a) ha
    simpa only [Link.step, hres, finSent, Bool.true_eq_false, and_false, if_false,
      Option.map_eq_none_iff] using hnone
  have hpc : s.rx.pc = .returnedOk := by
    rcases Incoming.ReaderPc.cases_awaits hf.2 with hpc | ⟨k, hk⟩
    · exact hpc
    · rcases h.ok.rx.progress hk with ⟨a, ha, -, hs⟩ | ⟨-, hs⟩ | ⟨-, hs⟩
      · exact absurd (hrx a ha) hs
      · exact absurd (hrx (.readOk 1) trivial) hs
      · exact absurd (hrx (.readOk 0) trivial) hs
  exact ⟨hres, hpc, (h.ok.rx.consumed_all hpc).trans hall⟩

/-- Everything accepted arrives. After the sender is dropped every run of a link in which nothing fails
    is finite, whatever the order of its steps, the sizes of the writes and reads, the ticks and how
    much `on_msg` takes at a time; and one that can go no further has returned `Ok` on both sides, with
    every byte the sender ever accepted consumed by `on_msg`. -/
theorem accepted_is_delivered (R : RingBuffer UInt8) (ctx crx : ConnConfig) (s t : Link R)
    (as : List Act) (hr : (Link.machine R ctx crx).Reach s) (hg : s.tx.sender.gone = true)
    (hal : (Link.machine R ctx crx).Along Healthy s as)
    (hrun : (Link.machine R ctx crx).run s as = some t) :
    as.length ≤ 14 * (s.tx.accepted.length - s.tx.written.length) + 20 * s.tx.queue.length +
      9 * s.rx.session.rest.length + Incoming.msgBufSize crx + 29 ∧
    (s.tx.writer.failed = false → s.rx.pc.failed = false →
      (∀ a, Healthy t a → Link.step ctx crx t a = none) →
      t.tx.writer = .returned .ok ∧ t.rx.pc = .returnedOk ∧ t.consumed = s.tx.accepted) := by
  have h : s.Draining crx s.tx.accepted := ⟨reach_ok hr, ⟨(reach_ok hr).tx, hg,
    Outgoing.reach_tx (reach_tx hr)⟩, rfl⟩
  obtain ⟨ht, hlen⟩ := (ranked_link ctx crx s.tx.accepted).length_le h hal hrun
  refine ⟨?_, fun htx hrx hst => ?_⟩
  · have hle := s.tx.drainRank_le
    have hle' := h.ok.rx.rank_le
    simp only [Link.rank, Outgoing.State.unwritten] at hlen
    omega
  · refine ht.of_stuck ?_ hst
    exact ((Machine.path_of_along hal hrun).invariant
      (I := fun u => u.Draining crx s.tx.accepted ∧ u.sound) ⟨h, htx, hrx⟩
      fun u a v ha hu hs => ⟨hu.1.step hs, sound_step hu.1 ha hs hu.2⟩).2

/-- The rest of `relayThree` after the drop of the sender. -/
theorem accepted_is_delivered_relayThree :
    ∃ s t : Link (RingBuffer.circular UInt8), (Link.machine _ ⟨0, 0, 0⟩ ⟨0, 0, 0⟩).Reach s ∧
      s.tx.sender = .dropRingsPrd ∧ s.tx.written = [] ∧
      (Link.machine _ ⟨0, 0, 0⟩ ⟨0, 0, 0⟩).run s (relayThree.drop 3) = some t ∧
      t.rx.pc = .returnedOk ∧ t.consumed = [1, 2, 3] := by
  obtain ⟨s, hr, hp⟩ := Machine.reach_of_run
    (m := Link.machine (RingBuffer.circular UInt8) ⟨0, 0, 0⟩ ⟨0, 0, 0⟩) (relayThree.take 3)
    (fun s => decide (s.tx.sender = .dropRingsPrd ∧ s.tx.written = [] ∧ s.tx.accepted = [1, 2, 3] ∧
      s.tx.writer = .recv ∧ s.rx.pc = .fillFlush) &&
      (decide ((Link.machine (RingBuffer.circular UInt8) ⟨0, 0, 0⟩ ⟨0, 0, 0⟩).Along Healthy s
        (relayThree.drop 3)) &&
      ((Link.machine (RingBuffer.circular UInt8) ⟨0, 0, 0⟩ ⟨0, 0, 0⟩).run s (relayThree.drop 3)).any
        fun t : Link (RingBuffer.circular UInt8) =>
          decide (t.tx.writer = .returned .ok ∧ t.tx.sender = .dropped ∧ t.rx.pc = .returnedOk)))
    (by decide +kernel)
  obtain ⟨hs, hp⟩ := Bool.and_eq_true_iff.mp hp
  obtain ⟨hal, ht⟩ := Bool.and_eq_true_iff.mp hp
  obtain ⟨hsend, hwr, hacc, hw, hpc⟩ := of_decide_eq_true hs
  obtain ⟨t, hrun, ht⟩ := (Option.any_eq_true _ _).mp ht
  obtain ⟨hret, hdrop, hend⟩ := of_decide_eq_true ht
  obtain ⟨-, hall⟩ := accepted_is_delivered _ _ _ s t _ hr (by rw [hsend]; rfl)
    (of_decide_eq_true hal) hrun
  have hst : ∀ a, Healthy t a → Link.step ⟨0, 0, 0⟩ ⟨0, 0, 0⟩ t a = none := by
    intro a _
    cases a with
    | tx a =>
      cases a <;> simp [Link.step, Outgoing.step, Outgoing.senderStep, Outgoing.writerStep,
        Outgoing.WriterPc.awaits, hret, hdrop]
    | rx a => simp [Link.step, Incoming.step, hend, Incoming.ReaderPc.awaits]
  obtain ⟨-, -, hcons⟩ := hall (by rw [hw]; rfl) (by rw [hpc]; rfl) hst
  exact ⟨s, t, hr, hsend, hwr, hrun, hend, hcons.trans hacc⟩

end SocketManager.Transfer
