import SocketManager.Transfer.Delivery
import SocketManager.Transfer.Peers

/-! Both ends of a connection close. When both senders were dropped, nobody stops an end, nothing fails
    and `on_msg` takes some of what it is offered, the two ends come to `OnConnectionClose` together,
    with every byte of either side consumed by the other.

    An end waits for the other in one place only: its reader, for the end of the stream. It comes there
    when its own direction is complete, so two ends that both wait have both sent the end. -/

namespace SocketManager.Transfer
open Manager Duplex
variable {R : RingBuffer UInt8} {A : Type} {config : Side → ConnConfig} {s s' : Peers R A}
  {acc : Side → List UInt8}

namespace Peers

/-- Nobody stops an end, nothing fails, `on_msg` takes some of what it is offered. -/
def Healthy (s : Peers R A) (p : Side × Duplex.Act A) : Prop := Duplex.Healthy (s p.1) p.2

instance (s : Peers R A) (p : Side × Duplex.Act A) : Decidable (s.Healthy p) := by
  unfold Healthy
  infer_instance

/-- All but the polls of the tasks, the calls on a `Conn` and its drop. -/
def counts (p : Side × Duplex.Act A) : Bool := Duplex.counts p.2

def polls (p : Side × Duplex.Act A) : Bool := Duplex.polls p.2

/-- The steps that the ends have still to go, at most. A byte weighs more before it was written. -/
def rank (s : Peers R A) : Nat :=
  s.left.rank + s.right.rank + 10 * (s.left.out.unwritten + s.right.out.unwritten)

/-- Both ends were started and go on to their close. -/
structure Closing (config : Side → ConnConfig) (acc : Side → List UInt8) (s : Peers R A) : Prop where
  reach : (Peers.machine R A config).Reach s
  ends : ∀ i, (s i).Closing (config i) (s i.other).out.written (acc i)

/-- Some polls lead to a state in which a step that counts can be taken. -/
def Advances (config : Side → ConnConfig) (s : Peers R A) : Prop :=
  ∃ t p, (Peers.machine R A config).Path (fun s p => s.Healthy p ∧ polls p = true) s t ∧
    t.Healthy p ∧ counts p = true ∧ Peers.step config t p ≠ none

end Peers

theorem rank_supply (w : Whole R A) (bytes : List UInt8) :
    (supply w bytes).rank = w.rank + 9 * bytes.length := by
  have hfeed := rank_feed w.inn bytes
  simp only [Whole.rank, supply] at hfeed ⊢
  omega

theorem Peers.rank_side (s : Peers R A) (i : Side) : s.rank =
    (s i).rank + (s i.other).rank + 10 * ((s i).out.unwritten + (s i.other).out.unwritten) := by
  cases i
  · rfl
  · simp only [Peers.rank, Side.other, Peers.side]; omega

theorem Peers.Closing.step {p : Side × Duplex.Act A} (h : s.Closing config acc) (ha : s.Healthy p)
    (hs : Peers.step config s p = some s') : s'.Closing config acc := by
  obtain ⟨i, a⟩ := p
  have hr : (Peers.machine R A config).Reach s' := h.reach.tail (a := (i, a)) trivial hs
  obtain ⟨hw, hother, -⟩ := Peers.step_cases hs
  refine ⟨hr, fun j => ?_⟩
  rcases Side.eq_or i j with rfl | rfl
  · have hc := (h.ends j).step ha hw
    exact ⟨reach_whole hr j, hc.sound, hc.started, hc.out, hc.accepted⟩
  · have hc := h.ends i.other
    refine ⟨reach_whole hr i.other, ?_, ?_, ?_, ?_⟩ <;> rw [hother]
    · exact ⟨hc.sound.stop, hc.sound.writer, hc.sound.reader⟩
    · exact hc.started
    · exact hc.out
    · exact hc.accepted

/-- What an end writes makes its own rank smaller by more than that of the other end larger. -/
theorem Peers.Closing.rank_step {p : Side × Duplex.Act A} (h : s.Closing config acc)
    (ha : s.Healthy p) (hs : Peers.step config s p = some s') :
    s'.rank ≤ s.rank ∧ (Peers.counts p = true → s'.rank < s.rank) := by
  have h' := h.step ha hs
  obtain ⟨i, a⟩ := p
  obtain ⟨hw, hother, -⟩ := Peers.step_cases hs
  obtain ⟨hle, hlt⟩ := (h.ends i).rank_step ha hw
  have hgrow := (written_step (h.ends i).out.inv hw).1.length_le
  have hall := (h'.ends i).out.inv.core.written.length_le
  have hacc : (s' i).out.accepted = (s i).out.accepted :=
    (h'.ends i).accepted.trans (h.ends i).accepted.symm
  have hunwritten : (s' i.other).out.unwritten = (s i.other).out.unwritten := by rw [hother]; rfl
  have hrank := rank_supply (s i.other) ((s' i).out.written.drop (s i).out.written.length)
  rw [← hother, List.length_drop] at hrank
  rw [Peers.rank_side s' i, Peers.rank_side s i, hunwritten, hrank]
  simp only [Outgoing.State.unwritten, hacc] at hall ⊢
  refine ⟨by omega, fun hcount => ?_⟩
  have hlt := hlt hcount
  omega

theorem counted_peers (config : Side → ConnConfig) (acc : Side → List UInt8) :
    (Peers.machine R A config).Counted Peers.Healthy (Peers.Closing config acc) Peers.counts
      Peers.rank where
  keeps _ _ _ hI ha hs := hI.step ha hs
  le _ _ _ hI ha hs := (hI.rank_step ha hs).1
  lt _ _ _ hI ha hcount hs := (hI.rank_step ha hs).2 hcount

/-! ### Progress -/

theorem Peers.of_self (s : Peers R A) (i : Side) : Peers.of (s i) (s i.other) i = s := by
  cases i <;> rfl

/-- The polls do not reach the socket. -/
theorem out_of_poll {config : ConnConfig} {w w' : Whole R A} {a : Duplex.Act A}
    (hs : w.step config a = some w') (ha : Duplex.polls a = true) :
    w'.out = w.out ∧ readsEnd a = false := by
  cases Duplex.step_cases hs with
  | conn => exact ⟨rfl, rfl⟩
  | _ => cases ha

/-- The polls of one end leave the other as it is. -/
theorem path_side {i : Side} {incoming : List UInt8} {w : Whole R A}
    (hp : (Whole.machine R A (config i) incoming).Path
      (fun s a => Duplex.Healthy s a ∧ Duplex.polls a = true) (s i) w) :
    (Peers.machine R A config).Path (fun s p => s.Healthy p ∧ Peers.polls p = true) s
      (Peers.of w (s i.other) i) ∧ w.out = (s i).out := by
  induction hp with
  | refl => exact ⟨by rw [Peers.of_self]; exact .refl, rfl⟩
  | @tail w w' a _ ha hs ih =>
    obtain ⟨hpath, hout⟩ := ih
    obtain ⟨hout', hend⟩ := out_of_poll hs ha.2
    refine ⟨hpath.tail (a := (i, a)) ⟨?_, ha.2⟩ ?_, hout'.trans hout⟩
    · simpa [Peers.Healthy] using ha.1
    · have hs : w.step (config i) a = some w' := hs
      simp [Peers.machine, Peers.step, hend, hs, hout', supply_nil]

/-- An end that can go on without the other. -/
theorem advances_of_alone {i : Side} {incoming : List UInt8}
    (h : AdvancesAlone (config i) incoming (s i)) : Peers.Advances config s := by
  obtain ⟨w, a, hp, ha, hcount, hs, hend⟩ := h
  refine ⟨_, (i, a), (path_side hp).1, ?_, hcount, ?_⟩
  · simpa [Peers.Healthy] using ha
  · simpa [Peers.step, hend] using hs

/-- An end that can go on once the other has sent the end of its stream. -/
theorem advances_of_fin {i : Side} {incoming : List UInt8}
    (h : Duplex.Advances (config i) incoming (s i)) (hfin : finSent (s i.other).out.writer = true) :
    Peers.Advances config s := by
  obtain ⟨w, a, hp, ha, hcount, hs⟩ := h
  refine ⟨_, (i, a), (path_side hp).1, ?_, hcount, ?_⟩
  · simpa [Peers.Healthy] using ha
  · simpa [Peers.step, hfin] using hs

/-- As long as one of the ends has not been closed, one of them can go on. -/
theorem Peers.Closing.advances (h : s.Closing config acc) {i : Side} (hpc : (s i).conn.pc ≠ .done) :
    Peers.Advances config s := by
  by_cases halone : ∃ j, AdvancesAlone (config j) (s j.other).out.written (s j)
  · obtain ⟨j, hj⟩ := halone
    exact advances_of_alone hj
  · -- neither goes on alone, so both have sent the end
    have hret : ∀ j, (s j).out.writer = .returned .ok := by
      intro j
      by_cases hdone : (s j).conn.pc = .done
      · exact ((h.ends j).complete hdone).2.1
      · exact (((h.ends j).advances_alone hdone).resolve_left fun ha => halone ⟨j, ha⟩).1
    exact advances_of_fin ((h.ends i).advances hpc) (by rw [hret]; rfl)

/-! ### The close -/

/-- What an end has still to do: bytes to write, rings to drain, bytes to read and to hand over. -/
def stepsLeft (config : ConnConfig) (w : Whole R A) : Nat :=
  14 * w.out.unwritten + 20 * w.out.queue.length + 9 * w.inn.session.rest.length +
    Incoming.msgBufSize config + 49

/-- Both ends close. From any reachable state in which both were started, both senders are dropped and
    nothing has failed, as long as nobody stops an end and nothing fails: every run has a bounded number
    of steps other than polls of the tasks, calls on a `Conn` and its drop, whatever the order of the
    steps of the two ends, the sizes of the writes and reads and the ticks; wherever it has come both
    ends have been closed or polls alone lead to such a step; and when both have been closed, both have
    delivered `OnRemoteClose` and `on_msg` of each has consumed exactly the bytes that the sender of the
    other accepted. -/
theorem peers_close (R : RingBuffer UInt8) (A : Type) (config : Side → ConnConfig) (s t : Peers R A)
    (as : List (Side × Duplex.Act A)) (hr : (Peers.machine R A config).Reach s)
    (hstart : ∀ i, (s i).conn.pc.configured = true) (hg : ∀ i, (s i).out.sender.gone = true)
    (hs : ∀ i, (s i).Sound) (hal : (Peers.machine R A config).Along Peers.Healthy s as)
    (hrun : (Peers.machine R A config).run s as = some t) :
    as.countP Peers.counts ≤
      stepsLeft (config .left) (s .left) + stepsLeft (config .right) (s .right) ∧
    ((∀ i, (t i).conn.pc = .done) ∨ Peers.Advances config t) ∧
    ((∀ i, (t i).conn.pc = .done) →
      ∀ i, .remoteClose ∈ (t i).conn.log ∧ t.consumed i = (s i.other).out.accepted) := by
  have h : s.Closing config fun i => (s i).out.accepted := by
    refine ⟨hr, fun i => ?_⟩
    have hout := path_out (reach_whole hr i)
    exact ⟨reach_whole hr i, hs i, .inl (hstart i),
      ⟨Outgoing.reach_inv hout, hg i, Outgoing.reach_tx hout⟩, rfl⟩
  obtain ⟨ht, hcount⟩ := (counted_peers config _).countP_le h hal hrun
  refine ⟨?_, ?_, fun hdone i => ?_⟩
  · have hl := Whole.rank_le (h.ends .left)
    have hr := Whole.rank_le (h.ends .right)
    have hrank := Peers.rank_side s .left
    simp only [stepsLeft, Outgoing.State.unwritten, Side.other] at hl hr hrank ⊢
    omega
  · by_cases hdone : ∀ i, (t i).conn.pc = .done
    · exact .inl hdone
    · obtain ⟨i, hi⟩ := not_forall.mp hdone
      exact .inr (ht.advances hi)
  · obtain ⟨hrem, -, -, hall⟩ := (ht.ends i).complete (hdone i)
    obtain ⟨-, -, hw, -⟩ := (ht.ends i.other).complete (hdone i.other)
    exact ⟨hrem, hall.trans hw⟩

/-- The rest of `converse` after both senders were dropped. -/
theorem peers_close_converse :
    ∃ s t : Peers (RingBuffer.circular UInt8) Unit,
      (Peers.machine _ Unit fun _ => ⟨0, 0, 0⟩).Reach s ∧
      (Peers.machine _ Unit fun _ => ⟨0, 0, 0⟩).run s (converse.drop 30) = some t ∧
      (s .left).out.written = [] ∧ (s .right).out.written = [] ∧
      .remoteClose ∈ (t .left).conn.log ∧ t.consumed .left = [4, 5, 6] ∧
      .remoteClose ∈ (t .right).conn.log ∧ t.consumed .right = [1, 2, 3] := by
  obtain ⟨s, hr, hp⟩ := Machine.reach_of_run
    (m := Peers.machine (RingBuffer.circular UInt8) Unit fun _ => ⟨0, 0, 0⟩) (converse.take 30)
    (fun s => ([Side.left, .right].all fun i => decide ((s i).conn.pc.configured = true ∧
        (s i).out.sender.gone = true ∧ (s i).conn.stopDropped = false ∧
        (s i).out.writer.failed = false ∧ (s i).inn.pc.failed = false ∧ (s i).out.written = [] ∧
        (s i).out.accepted = if i = .left then [1, 2, 3] else [4, 5, 6])) &&
      (decide ((Peers.machine (RingBuffer.circular UInt8) Unit fun _ => ⟨0, 0, 0⟩).Along Peers.Healthy s
        (converse.drop 30)) &&
      ((Peers.machine (RingBuffer.circular UInt8) Unit fun _ => ⟨0, 0, 0⟩).run s
        (converse.drop 30)).any fun t : Peers (RingBuffer.circular UInt8) Unit =>
          [Side.left, .right].all fun i => decide ((t i).conn.pc = .done)))
    (by decide +kernel)
  obtain ⟨hs, hp⟩ := Bool.and_eq_true_iff.mp hp
  obtain ⟨hal, ht⟩ := Bool.and_eq_true_iff.mp hp
  obtain ⟨t, hrun, ht⟩ := (Option.any_eq_true _ _).mp ht
  simp only [List.all_cons, List.all_nil, Bool.and_true, Bool.and_eq_true, decide_eq_true_eq] at hs ht
  obtain ⟨⟨hcl, hgl, hsl, hfl, hrl, hwl, hal₁⟩, hcr, hgr, hsr, hfr, hrr, hwr, hal₂⟩ := hs
  obtain ⟨-, -, hclose⟩ := peers_close _ _ _ s t _ hr
    (by rintro (_ | _); exacts [hcl, hcr]) (by rintro (_ | _); exacts [hgl, hgr])
    (by rintro (_ | _); exacts [⟨hsl, hfl, hrl⟩, ⟨hsr, hfr, hrr⟩]) (of_decide_eq_true hal) hrun
  have hdone : ∀ i, (t i).conn.pc = .done := by rintro (_ | _); exacts [ht.1, ht.2]
  obtain ⟨hrl, hconsl⟩ := hclose hdone .left
  obtain ⟨hrr, hconsr⟩ := hclose hdone .right
  exact ⟨s, t, hr, hrun, hwl, hwr, hrl, hconsl.trans hal₂, hrr, hconsr.trans hal₁⟩

end SocketManager.Transfer
