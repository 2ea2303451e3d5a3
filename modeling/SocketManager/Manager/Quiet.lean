import SocketManager.Manager.Events

/-! Quiescence around `OnConnectionClose`. The user frees the message receiver on that event, so
    `on_msg` must be neither running nor called from then on. The join loop leaves on a stop signal
    or on an error of the writer after `reader_abort.abort()`, which only requests the cancellation:

        reader    poll ── on_msg ············································ returns ── cut
        task               abort ── break ── remove ── OnConnectionClose

    Whether the two overlap is decided by the reader's phase when the event is delivered: a reader
    that is not being polled then is never polled again, one that is can be inside `on_msg` or enter
    it. -/

namespace SocketManager.Manager
variable {A : Type} {c c' : Conn A} {b : ConnAct A}

/-- From the delivery of `OnConnectionClose` on, no `on_msg` starts and none is running. -/
def Quiet (c : Conn A) : Prop :=
  (∀ pre post, c.log = pre ++ .msg :: post → .connectionClose ∉ pre) ∧
    (.connectionClose ∈ c.log → c.reader.st ≠ .inMsg)

/-- `OnConnectionClose` is delivered only while the reader is not in the middle of a poll. -/
def ReaderParked (c : Conn A) (b : ConnAct A) : Prop :=
  b = .task → c.pc = .closing → c.reader.busy = false

instance [DecidableEq A] : Decidable (ReaderParked c b) :=
  inferInstanceAs (Decidable (_ → _ → _))

theorem internal_readerParked : Internal (ReaderParked (A := A)) := by
  rintro c b hown rfl
  cases hown

/-! ### A task that will not be polled again -/

/-- The task is not being polled and will not be. -/
def Task.Stopped (t : Task) : Prop := t.Settled ∧ t.busy = false

theorem Task.not_busy {t : Task} (h : t.busy = false) : t.st ≠ .polling ∧ t.st ≠ .inMsg := by
  simpa [Task.busy] using h

theorem TaskMove.stopped {t t' : Task} (h : TaskMove t t') (hs : t.Stopped) : t'.Stopped := by
  obtain ⟨hset, hb⟩ := hs
  obtain ⟨hp, hm⟩ := Task.not_busy hb
  refine ⟨h.runs.settled hset, ?_⟩
  cases h with
  | poll hs ha =>
    -- an idle task is settled only by its abort flag
    rcases hset with hset | ⟨res, hset⟩ | hset
    · rw [hs] at hset; cases hset
    · rw [hs] at hset; cases hset
    · rw [ha] at hset; cases hset
  | msgReturns hs => exact absurd hs hm
  | park hs | cut hs | finish hs => exact absurd hs hp
  | cancel hs ha => rfl

/-! ### The invariant -/

/-- Nothing of the reader is left once the close was announced. -/
structure QuietInv (c : Conn A) : Prop where
  conn : ConnInv c
  log : ∀ pre post, c.log = pre ++ .msg :: post → .connectionClose ∉ pre
  stopped : .connectionClose ∈ c.log → c.reader.Stopped

theorem QuietInv.quiet (h : QuietInv c) : Quiet c :=
  ⟨h.log, fun hc => (Task.not_busy (h.stopped hc).2).2⟩

/-- The close is announced by one move only. -/
theorem Conn.Move.announces (h : c.Move b c') (hc : .connectionClose ∈ c'.log) :
    .connectionClose ∈ c.log ∨ b = .task ∧ c.pc = .closing ∧ c'.reader = c.reader := by
  cases h with
  | task h =>
    cases h with
    | closing hp => exact .inr ⟨rfl, hp, rfl⟩
    | connectFails hp | onConnect hp | connectOk hp | connectErr hp | readerOk hp =>
      exact .inl (mem_of_mem_concat (by simp) hc)
    | _ => exact .inl hc
  | user h =>
    have hcb := h.frame.2.1
    have hmem : Event.connectionClose ∈ callbacks c'.log := (mem_callbacks rfl).mpr hc
    rw [hcb] at hmem
    exact .inl ((mem_callbacks rfl).mp hmem)
  | msg _ => exact .inl (mem_of_mem_concat (by simp) hc)
  | reader _ | writer _ => exact .inl hc

/-- A reader that is stopped at the close stays so. -/
theorem Conn.Move.reader_stopped (h : c.Move b c') (hi : ConnInv c) (hc : .connectionClose ∈ c.log)
    (hs : c.reader.Stopped) : c'.reader.Stopped := by
  have hpc := hi.events.closed ((mem_callbacks rfl).mpr hc)
  cases h with
  | task h =>
    cases h with
    | closeReturned hp => exact hs
    | _ => simp_all
  | user h => rw [h.frame.2.2.2.1]; exact hs
  | msg hp => exact absurd hp (Task.not_busy hs.2).1
  | reader h => exact h.stopped hs
  | writer _ => exact hs

/-- A step under the guard keeps the reader out of the way. -/
theorem QuietInv.step (h : QuietInv c) (hok : ReaderParked c b)
    (hs : c.step b = some c') : QuietInv c' := by
  have hm := Conn.step_cases hs
  have hmsg : c.reader.st = .polling → .connectionClose ∉ c.log :=
    fun hp hc => (Task.not_busy (h.stopped hc).2).1 hp
  refine ⟨h.conn.move hm, hm.forall_msg h.log hmsg, fun hc => ?_⟩
  rcases hm.announces hc with hold | ⟨hb, hp, hr⟩
  · exact hm.reader_stopped h.conn hold (h.stopped hold)
  · have ht := h.conn.tasks
    rw [hp] at ht
    rw [hr]; exact ⟨ht.2, hok hb hp⟩

/-- Before the close there is nothing to keep quiet about. -/
theorem ConnInv.quietInv (h : ConnInv c) (hc : .connectionClose ∉ c.log) : QuietInv c := by
  refine ⟨h, fun pre post heq hmem => hc ?_, fun hmem => absurd hmem hc⟩
  rw [heq]; exact List.mem_append_left _ hmem

theorem QuietInv.path (h : QuietInv c) (hp : (Conn.machine A).Path ReaderParked c c') :
    QuietInv c' :=
  hp.invariant h fun _ _ _ hok hi hs => hi.step hok hs

/-- After the close nothing more is asked of the steps. -/
theorem QuietInv.path_closed (h : QuietInv c) (hc : .connectionClose ∈ c.log)
    (hp : (Conn.machine A).Path (fun _ _ => True) c c') : QuietInv c' := by
  have key : QuietInv c' ∧ .connectionClose ∈ c'.log := by
    refine hp.invariant (I := fun c => QuietInv c ∧ .connectionClose ∈ c.log) ⟨h, hc⟩ ?_
    rintro c b c' - ⟨hi, hmem⟩ hs
    refine ⟨hi.step ?_ hs, (Conn.step_cases hs).log_isPrefix.subset hmem⟩
    intro _ hpc
    rcases hi.conn.events.closed ((mem_callbacks rfl).mpr hmem) with hpc' | hpc' <;>
      (rw [hpc] at hpc'; cases hpc')
  exact key.1

/-! ### In the manager -/

variable [DecidableEq A] {s s' : State A} {i : Nat}

/-- The step that delivers `OnConnectionClose`. -/
theorem step_task_closing (hp : (s.conns i).pc = .closing) (hs : s.step (.conn i .task) = some s') :
    s'.conns i = ((s.conns i).goto .inClose).event .connectionClose := by
  have hop : (s.conns i).regOp .task = .none := by simp [Conn.regOp, hp]
  obtain ⟨c, hc, rfl⟩ := step_conn_of_no_access hop hs
  rw [Conn.step, Conn.taskStep, hp] at hc
  obtain rfl := Option.some.inj hc
  simp [State.setConn]

/-- A reader being polled calls `on_msg`. -/
theorem step_reader_msg (hp : (s.conns i).reader.st = .polling) :
    ∃ t, s.step (.conn i (.reader .msg)) = some t ∧
      (t.conns i).log = (s.conns i).log ++ [.msg] := by
  refine ⟨s.setConn i ({ s.conns i with reader := { (s.conns i).reader with st := .inMsg } }.event .msg),
    ?_, by simp⟩
  simp [State.step, ConnAct.own, State.connStep, Conn.step, Conn.readerStep, Task.step, hp, State.access,
    Conn.regOp]

/-- Delivered while the reader is being polled, `OnConnectionClose` can be followed by `on_msg`. -/
theorem not_quiet_of_busy (hp : (s.conns i).pc = .closing) (hs : s.step (.conn i .task) = some s')
    (hb : (s.conns i).reader.busy = true) :
    ∃ t, (machine A).Path (fun _ _ => True) s' t ∧ ¬ Quiet (t.conns i) := by
  have hc := step_task_closing hp hs
  have hbusy : (s.conns i).reader.st = .polling ∨ (s.conns i).reader.st = .inMsg := of_decide_eq_true hb
  rcases hbusy with hst | hst
  · obtain ⟨t, ht, hlog⟩ := step_reader_msg (s := s') (i := i) (by rw [hc]; exact hst)
    refine ⟨t, Machine.Path.single (a := .conn i (.reader .msg)) trivial ht, fun hq => ?_⟩
    exact hq.1 _ [] hlog (by rw [hc]; exact List.mem_append_right _ List.mem_cons_self)
  · refine ⟨s', .refl, fun hq => hq.2 ?_ ?_⟩
    · rw [hc]; exact List.mem_append_right _ List.mem_cons_self
    · rw [hc]; exact hst

/-- Delivered while the reader is not being polled, it is followed by none. -/
theorem quiet_of_parked (hr : (machine A).Reach s) (hp : (s.conns i).pc = .closing)
    (hs : s.step (.conn i .task) = some s') (hb : (s.conns i).reader.busy = false) {t : State A}
    (ht : (machine A).Path (fun _ _ => True) s' t) : Quiet (t.conns i) := by
  have hc := step_task_closing hp hs
  have hconn := reach_connInv (reach_conn hr i)
  have hopen : .connectionClose ∉ (s.conns i).log := by
    intro hmem
    rcases hconn.events.closed ((mem_callbacks rfl).mpr hmem) with hp' | hp' <;>
      (rw [hp] at hp'; cases hp')
  have hstep : (s.conns i).step .task = some (s'.conns i) := by
    rw [hc]; simp [Conn.step, Conn.taskStep, hp]
  have hq : QuietInv (s'.conns i) := (hconn.quietInv hopen).step (fun _ _ => hb) hstep
  have hmem : .connectionClose ∈ (s'.conns i).log := by
    rw [hc]; exact List.mem_append_right _ List.mem_cons_self
  exact (hq.path_closed hmem (path_conn_any ht i)).quiet

/-- `on_msg` is quiet around every `OnConnectionClose` of a run if each one is delivered while the
    reader is not in the middle of a poll; and a delivery is followed by no `on_msg` whatever happens
    next only if it is such a one. -/
theorem quiet_iff_reader_parked (A : Type) [DecidableEq A] :
    (∀ s, (machine A).Path (Lift ReaderParked) State.init s → ∀ i, Quiet (s.conns i)) ∧
    (∀ s s' i, (machine A).Reach s → (s.conns i).pc = .closing → s.step (.conn i .task) = some s' →
      ((∀ t, (machine A).Path (fun _ _ => True) s' t → Quiet (t.conns i)) ↔
        (s.conns i).reader.busy = false)) := by
  refine ⟨?_, ?_⟩
  · intro s hp i
    have h0 : QuietInv (Conn.unborn : Conn A) := connInv_unborn.quietInv (by simp [Conn.unborn])
    exact (h0.path (path_conn internal_readerParked hp i)).quiet
  · intro s s' i hr hp hs
    constructor
    · intro hall
      by_contra hb
      obtain ⟨t, ht, hq⟩ := not_quiet_of_busy hp hs (by simpa using hb)
      exact hq (hall t ht)
    · intro hb t ht
      exact quiet_of_parked hr hp hs hb ht

/-- The writer fails while the reader is inside `on_msg`. -/
def closeInMsg : List (Act Nat) :=
  openConn 0 (1, 2) ++ [.conn 0 (.reader .poll), .conn 0 (.reader .msg), .conn 0 (.writer .poll),
    .conn 0 (.writer (.finish .err)), .conn 0 .joinWriter, .conn 0 .task, .conn 0 .task]

/-- `OnConnectionClose` is delivered while `on_msg` is running. -/
theorem close_during_msg : ∃ s : State Nat, (machine Nat).Reach s ∧ ¬ Quiet (s.conns 0) := by
  obtain ⟨s, hr, hs⟩ := (machine Nat).reach_of_run closeInMsg
    (fun s => decide (.connectionClose ∈ (s.conns 0).log ∧ (s.conns 0).reader.st = .inMsg))
    (by decide +kernel)
  obtain ⟨hc, hst⟩ := of_decide_eq_true hs
  exact ⟨s, hr, fun hq => hq.2 hc hst⟩

/-- The reader parks after its message, then the user closes. -/
def closeParked : List (Act Nat) :=
  openConn 0 (1, 2) ++ [.conn 0 (.reader .poll), .conn 0 (.reader .msg),
    .conn 0 (.reader .msgReturns), .conn 0 (.reader .pending), .conn 0 .close, .conn 0 (.user 0),
    .conn 0 .joinStop, .conn 0 .task, .conn 0 .task]

theorem quiet_closeParked : ∃ s : State Nat, (machine Nat).Path (Lift ReaderParked) State.init s ∧
    .msg ∈ (s.conns 0).log ∧ .connectionClose ∈ (s.conns 0).log ∧ Quiet (s.conns 0) := by
  obtain ⟨s, hp, hs⟩ := (machine Nat).path_of_guarded_run (Lift ReaderParked) closeParked
    (fun s => decide (.msg ∈ (s.conns 0).log ∧ .connectionClose ∈ (s.conns 0).log))
    (by decide +kernel)
  obtain ⟨hmsg, hc⟩ := of_decide_eq_true hs
  exact ⟨s, hp, hmsg, hc, (quiet_iff_reader_parked Nat).1 s hp 0⟩

end SocketManager.Manager
