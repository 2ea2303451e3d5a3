import SocketManager.Duplex.Model
import SocketManager.Manager.Events

/-! What the events of a connection say about its two streams. `OnRemoteClose` is delivered once
    everything that arrived was consumed, and leaves the other direction alone. `OnConnectionClose` has
    a reason: a stop signal, a task that failed, or that both directions are complete.

        reader Ok ─▶ OnRemoteClose ──┐
                                     ├─ both ─▶ OnConnectionClose      everything written and consumed
        writer Ok ───────────────────┘
        writer Err / reader Err ─▶ abort the other ─▶ OnConnectionClose
        stop signal ─────────────▶ abort both ──────▶ OnConnectionClose

    The join loop is the only one that aborts a task, so each abort has its cause in the same way. -/

namespace SocketManager.Duplex
open Manager
variable {R : RingBuffer UInt8} {A : Type} {config : ConnConfig} {incoming : List UInt8}
  {s s' : Whole R A}

/-- The join loop is over, or was never entered. -/
def ended : Pc → Bool
  | .remove | .closing | .inClose | .done => true
  | _ => false

/-- Why a connection that was started comes to its end. -/
def Reason (s : Whole R A) : Prop :=
  s.conn.stopDropped = true ∨ s.out.writer = .returned .err ∨ s.inn.pc.failed = true ∨
    (s.out.writer = .returned .ok ∧ s.inn.pc = .returnedOk ∧ .remoteClose ∈ s.conn.log)

/-- What the connection task has done to the two tasks, and why. -/
structure CauseInv (s : Whole R A) : Prop where
  fresh : ended s.conn.pc = false → s.conn.writer.aborted = false ∧ s.conn.reader.aborted = false
  writer : s.conn.writer.aborted = true → s.conn.stopDropped = true ∨ s.inn.pc.failed = true
  reader : s.conn.reader.aborted = true → s.conn.stopDropped = true ∨ s.out.writer = .returned .err
  reason : ended s.conn.pc = true → s.conn.writer.st = .notSpawned ∨ Reason s

/-! ### What does not go away -/

/-- What is over stays over, part by part. -/
structure Persists (s s' : Whole R A) : Prop where
  stop : s.conn.stopDropped = true → s'.conn.stopDropped = true
  writer : ∀ r, s.out.writer = .returned r → s'.out.writer = .returned r
  reader : s.inn.pc.awaits = none → s'.inn = s.inn
  log : s.conn.log <+: s'.conn.log

theorem stop_step {c c' : Conn A} {a : ConnAct A} (hs : c.step a = some c')
    (h : c.stopDropped = true) : c'.stopDropped = true := by
  cases Conn.step_cases hs with
  | task hm => cases hm <;> exact h
  | user hm => cases hm <;> first | exact h | rfl
  | msg _ | reader _ | writer _ => exact h

theorem inn_step {r r' : Incoming.Reader} {a : Incoming.Act} (hs : Incoming.step config r a = some r')
    (h : r.pc.awaits = none) : r' = r := by
  simp [Incoming.step, h] at hs

theorem persists_step {a : Act A} (hs : s.step config a = some s') : Persists s s' := by
  cases step_cases hs with
  | conn _ hc => exact ⟨stop_step hc, fun _ => id, fun _ => rfl, (Conn.step_cases hc).log_isPrefix⟩
  | sender _ _ ho => exact ⟨id, fun _ => returned_step ho, fun _ => rfl, List.prefix_rfl⟩
  | writer _ _ ho => exact ⟨id, fun _ => returned_step ho, fun _ => rfl, List.prefix_rfl⟩
  | onMsg hc hi => exact ⟨stop_step hc, fun _ => id, inn_step hi, (Conn.step_cases hc).log_isPrefix⟩
  | reader _ hi => exact ⟨id, fun _ => id, inn_step hi, List.prefix_rfl⟩

theorem awaits_of_failed {pc : Incoming.ReaderPc} (h : pc.failed = true) : pc.awaits = none := by
  cases pc <;> first | rfl | cases h

theorem Persists.failed (h : Persists s s') (hf : s.inn.pc.failed = true) : s'.inn.pc.failed = true := by
  rw [h.reader (awaits_of_failed hf)]; exact hf

theorem Persists.reason (h : Persists s s') (hr : Reason s) : Reason s' := by
  rcases hr with hr | hr | hr | ⟨hw, hp, hl⟩
  · exact .inl (h.stop hr)
  · exact .inr (.inl (h.writer _ hr))
  · exact .inr (.inr (.inl (h.failed hr)))
  · refine .inr (.inr (.inr ⟨h.writer _ hw, ?_, h.log.subset hl⟩))
    rw [h.reader (by rw [hp]; rfl)]; exact hp

/-! ### Why the join loop ends -/

/-- A writer that ended without an abort ended by itself. -/
theorem Agree.writer_err {res : JoinResult} (h : Agree s) (hf : s.conn.writer.st = .finished res)
    (hab : s.conn.writer.aborted = false) (hne : res ≠ .ok) : s.out.writer = .returned .err := by
  obtain ⟨r, hr, hres⟩ := h.writer res hf
  cases r with
  | ok => exact absurd hres.symm hne
  | err => exact hr
  | aborted =>
    rcases h.aborted (by rw [hr]; rfl) with ha | ⟨hn, -⟩
    · rw [hab] at ha; cases ha
    · rw [hf] at hn; cases hn

theorem Agree.writer_ok (h : Agree s) (hf : s.conn.writer.st = .finished .ok) :
    s.out.writer = .returned .ok := by
  obtain ⟨r, hr, hres⟩ := h.writer _ hf
  cases r <;> first | exact hr | cases hres

theorem Agree.reader_err {res : JoinResult} (h : Agree s) (hf : s.conn.reader.st = .finished res)
    (hab : s.conn.reader.aborted = false) (hne : res ≠ .ok) : s.inn.pc.failed = true := by
  rcases h.reader res hf with ⟨-, ha⟩ | hres
  · rw [hab] at ha; cases ha
  · cases hp : s.inn.pc <;> rw [hp] at hres <;> first | rfl | cases hres
    exact absurd rfl hne

theorem Agree.reader_ok (h : Agree s) (hf : s.conn.reader.st = .finished .ok) :
    s.inn.pc = .returnedOk := by
  rcases h.reader _ hf with ⟨hj, -⟩ | hres
  · cases hj
  · cases hp : s.inn.pc <;> rw [hp] at hres <;> first | rfl | cases hres

/-- The `select!` takes the error branches only for errors. -/
theorem joinWriter_ne_ok {c : Conn A} {rs : Bool} {res : JoinResult}
    (hs : c.joinWriter = some
      { c with writer := c.writer.take, reader := c.reader.abort, pc := .remove })
    (hp : c.pc = .join false rs) (ht : c.writer.taken = false) (hw : c.writer.st = .finished res)
    (hab : c.reader.aborted = false) : res ≠ .ok := by
  rintro rfl
  simp only [Conn.joinWriter, hp, ht, hw] at hs
  have hr := congrArg (fun c : Conn A => c.reader.aborted) (Option.some.inj hs)
  simp only [Task.abort, hab] at hr
  cases hr

theorem joinReader_ne_ok {c : Conn A} {ws : Bool} {res : JoinResult}
    (hs : c.joinReader = some
      { c with reader := c.reader.take, writer := c.writer.abort, pc := .remove })
    (hp : c.pc = .join ws false) (ht : c.reader.taken = false) (hw : c.reader.st = .finished res) :
    res ≠ .ok := by
  rintro rfl
  simp only [Conn.joinReader, hp, ht, hw] at hs
  have hr := congrArg (fun c : Conn A => c.pc) (Option.some.inj hs)
  cases hr

theorem remoteClose_mem {c : Conn A} (hp : callbacks c.log = [.connect, .remoteClose]) :
    .remoteClose ∈ c.log := by
  have hmem : Event.remoteClose ∈ callbacks c.log := by rw [hp]; simp
  exact (List.mem_filter.mp hmem).1

/-- Both tasks have returned `Ok`. -/
theorem Agree.complete (h : Agree s) (hw : s.conn.writer.st = .finished .ok)
    (hr : s.conn.reader.st = .finished .ok) (hc : callbacks s.conn.log = [.connect, .remoteClose]) :
    Reason s :=
  .inr (.inr (.inr ⟨h.writer_ok hw, h.reader_ok hr, remoteClose_mem hc⟩))

/-! ### The causes are kept -/

/-- Only the end of the join loop aborts. -/
theorem fresh_step {c c' : Conn A} {a : ConnAct A} (hs : c.step a = some c')
    (h : ended c.pc = false → c.writer.aborted = false ∧ c.reader.aborted = false)
    (he : ended c'.pc = false) : c'.writer.aborted = false ∧ c'.reader.aborted = false := by
  cases Conn.step_cases hs with
  | task hm =>
    cases hm with
    | connect hp | connected _ hp | connectFails hp | accept _ hp | onConnect hp | configured hp
    | insert hp | connectOk hp | errorReturned hp | remoteReturned hp | writerOk hp | readerOk hp
    | writerPolledAgain hp | readerPolledAgain hp => exact h (by rw [hp]; rfl)
    | spawnWriter hp => exact ⟨rfl, (h (by rw [hp]; rfl)).2⟩
    | spawnReader hp => exact ⟨(h (by rw [hp]; rfl)).1, rfl⟩
    | _ => cases he
  | user hm =>
    obtain ⟨hp, -, hw, hr, -⟩ := hm.frame
    rw [hw, hr]; exact h (hp ▸ he)
  | msg _ => exact h he
  | reader hm => exact ⟨(h he).1, hm.runs.aborted.trans (h he).2⟩
  | writer hm => exact ⟨hm.runs.aborted.trans (h he).1, (h he).2⟩

theorem CauseInv.writer_step {a : ConnAct A} {conn : Conn A} (h : CauseInv s) (ha : Agree s)
    (hs : s.conn.step a = some conn) (hab : conn.writer.aborted = true) :
    conn.stopDropped = true ∨ s.inn.pc.failed = true := by
  have hold : s.conn.writer.aborted = true → conn.stopDropped = true ∨ s.inn.pc.failed = true :=
    fun hab => (h.writer hab).imp_left (stop_step hs)
  cases Conn.step_cases hs with
  | task hm =>
    cases hm with
    | spawnWriter => cases hab
    | joinStop _ hstop => exact .inl hstop
    | readerErr hp ht hr =>
      exact .inr (ha.reader_err hr (h.fresh (by rw [hp]; rfl)).2 (joinReader_ne_ok hs hp ht hr))
    | _ => exact hold hab
  | user hm =>
    obtain ⟨-, -, hw, -⟩ := hm.frame
    exact hold (hw ▸ hab)
  | msg _ | reader _ => exact hold hab
  | writer hm => exact hold (hm.runs.aborted ▸ hab)

theorem CauseInv.reader_step {a : ConnAct A} {conn : Conn A} (h : CauseInv s) (ha : Agree s)
    (hs : s.conn.step a = some conn) (hab : conn.reader.aborted = true) :
    conn.stopDropped = true ∨ s.out.writer = .returned .err := by
  have hold : s.conn.reader.aborted = true → conn.stopDropped = true ∨ s.out.writer = .returned .err :=
    fun hab => (h.reader hab).imp_left (stop_step hs)
  cases Conn.step_cases hs with
  | task hm =>
    cases hm with
    | spawnReader => cases hab
    | joinStop _ hstop => exact .inl hstop
    | writerErr hp ht hw =>
      obtain ⟨hwab, hrab⟩ := h.fresh (by rw [hp]; rfl)
      exact .inr (ha.writer_err hw hwab (joinWriter_ne_ok hs hp ht hw hrab))
    | _ => exact hold hab
  | user hm =>
    obtain ⟨-, -, -, hr, -⟩ := hm.frame
    exact hold (hr ▸ hab)
  | msg _ | writer _ => exact hold hab
  | reader hm => exact hold (hm.runs.aborted ▸ hab)

theorem CauseInv.reason_step {a : ConnAct A} {conn : Conn A} (h : CauseInv s) (hc : ConnInv s.conn)
    (ha : Agree s) (hs : s.conn.step a = some conn) (he : ended conn.pc = true) :
    conn.writer.st = .notSpawned ∨ Reason { s with conn } := by
  have hper : Persists s { s with conn } :=
    ⟨stop_step hs, fun _ => id, fun _ => rfl, (Conn.step_cases hs).log_isPrefix⟩
  have ht := hc.tasks
  have hev := hc.events
  cases Conn.step_cases hs with
  | task hm =>
    cases hm with
    | unconfigured hp | connectErr hp =>
      rw [hp] at ht
      exact .inl (by rw [ht.1]; rfl)
    | remove hp | closing hp | closeReturned hp =>
      exact (h.reason (by rw [hp]; rfl)).imp_right hper.reason
    | joinStop _ hstop => exact .inr (.inl hstop)
    | writerErr hp htk hw =>
      obtain ⟨hwab, hrab⟩ := h.fresh (by rw [hp]; rfl)
      exact .inr (.inr (.inl (ha.writer_err hw hwab (joinWriter_ne_ok hs hp htk hw hrab))))
    | readerErr hp htk hr =>
      exact .inr (.inr (.inr (.inl
        (ha.reader_err hr (h.fresh (by rw [hp]; rfl)).2 (joinReader_ne_ok hs hp htk hr)))))
    | writerOkLast hp _ hw =>
      rw [hp] at ht hev
      exact .inr (hper.reason (ha.complete hw (ht.2.2.2.2.2 rfl) hev))
    | remoteReturnedLast hp =>
      rw [hp] at ht hev
      exact .inr (hper.reason (ha.complete (ht.2.2.2.2.1 rfl) ht.2.2.2.2.2 hev))
    | _ => cases he
  | user hm =>
    obtain ⟨hp, -, hw, -⟩ := hm.frame
    rw [hw]; exact (h.reason (hp ▸ he)).imp_right hper.reason
  | msg _ | reader _ => exact (h.reason he).imp_right hper.reason
  | writer hm =>
    exact (h.reason he).elim (fun hn => absurd hn hm.runs.spawned) fun hr => .inr (hper.reason hr)

theorem CauseInv.conn {a : ConnAct A} {conn : Conn A} (h : CauseInv s) (hc : ConnInv s.conn)
    (ha : Agree s) (hs : s.conn.step a = some conn) : CauseInv { s with conn } :=
  ⟨fresh_step hs h.fresh, h.writer_step ha hs, h.reader_step ha hs, h.reason_step hc ha hs⟩

/-- The futures move on under the same connection. -/
theorem CauseInv.of_persists (h : CauseInv s) (hp : Persists s s') (hc : s'.conn = s.conn) :
    CauseInv s' := by
  refine ⟨?_, ?_, ?_, ?_⟩ <;> rw [hc]
  · exact h.fresh
  · exact fun hab => (h.writer hab).imp_right hp.failed
  · exact fun hab => (h.reader hab).imp_right (hp.writer _)
  · exact fun he => (h.reason he).imp_right hp.reason

theorem CauseInv.step {a : Act A} (h : CauseInv s) (hc : ConnInv s.conn) (ha : Agree s)
    (hs : s.step config a = some s') : CauseInv s' := by
  have hp := persists_step hs
  cases step_cases hs with
  | conn _ hstep => exact h.conn hc ha hstep
  | sender | writer | reader => exact h.of_persists hp rfl
  | @onMsg err cbResult conn inn hstep hi =>
    have hmid := h.conn hc ha hstep
    refine hmid.of_persists ⟨id, fun _ => id, ?_, List.prefix_rfl⟩ rfl
    exact inn_step hi

theorem reach_cause (hr : (Whole.machine R A config incoming).Reach s) : CauseInv s := by
  refine Machine.Path.invariant_of_reach (I := CauseInv) hr ?_
    fun t a u hrt _ h hs => h.step (reach_conn hrt) (reach_agree hrt) hs
  exact ⟨fun _ => ⟨rfl, rfl⟩, fun hab => (by cases hab), fun hab => (by cases hab),
    fun he => (by cases he)⟩

/-! ### The events -/

/-- A reader whose `OnRemoteClose` was delivered. -/
theorem reader_drained (hr : (Whole.machine R A config incoming).Reach s)
    (hc : .remoteClose ∈ s.conn.log) :
    s.inn.pc = .returnedOk ∧ s.inn.session.eof = true ∧
      Incoming.takenBytes s.inn.session.offers = incoming := by
  have hok := Incoming.reach_readerOk (path_inn hr)
  have hpc := (reach_agree hr).reader_ok ((reach_conn hr).remote hc)
  exact ⟨hpc, hok.eof (.inr hpc), hok.consumed_all hpc⟩

/-- A writer that shuts down, or returns `Ok`. -/
theorem written_all (hr : (Whole.machine R A config incoming).Reach s)
    (hfin : s.out.writer.finishing = true) :
    s.out.sender = .dropped ∧ s.out.written = s.out.calls.flatMap Outgoing.Call.accepted := by
  have hout := path_out hr
  have hinv := Outgoing.reach_inv hout
  have hd := hinv.tx (Outgoing.reach_finishing hout hfin)
  refine ⟨hd, ?_⟩
  rw [← (hinv.core.finishing hfin).2.2, Outgoing.State.accepted, hd]
  exact List.append_nil _

/-- A connection that was started and has delivered `OnConnectionClose`. -/
theorem reason_of_close (hr : (Whole.machine R A config incoming).Reach s)
    (hc : .connectionClose ∈ s.conn.log) (hw : s.conn.writer.st ≠ .notSpawned) : Reason s := by
  have hpc : ended s.conn.pc = true := by
    rcases (reach_conn hr).events.closed ((mem_callbacks rfl).mpr hc) with hp | hp <;> (rw [hp]; rfl)
  exact ((reach_cause hr).reason hpc).resolve_left hw

/-- "Remote stopped writing. No more message will be received from the socket." When `OnRemoteClose` has
    been delivered the reader has returned `Ok` and `on_msg` has consumed every byte that arrived;
    whatever happens later the reader does nothing any more. The other direction stays open: the writer
    is aborted by a stop signal alone. -/
theorem remoteClose_drained (R : RingBuffer UInt8) (A : Type) (config : ConnConfig)
    (incoming : List UInt8) (s : Whole R A) (hr : (Whole.machine R A config incoming).Reach s)
    (hc : .remoteClose ∈ s.conn.log) :
    s.inn.pc = .returnedOk ∧ s.inn.session.eof = true ∧
    Incoming.takenBytes s.inn.session.offers = incoming ∧
    (∀ t, (Whole.machine R A config incoming).Path (fun _ _ => True) s t →
      t.inn = s.inn ∧ t.conn.reader.st = .finished .ok) ∧
    (s.conn.writer.aborted = true → s.conn.stopDropped = true) := by
  obtain ⟨hpc, heof, hall⟩ := reader_drained hr hc
  refine ⟨hpc, heof, hall, fun t hp => ?_, fun hab => ?_⟩
  · have hinv := hp.invariant (I := fun u => u.inn = s.inn ∧ s.conn.log <+: u.conn.log)
      ⟨rfl, List.prefix_rfl⟩ ?_
    · exact ⟨hinv.1, (reach_conn (hr.trans hp)).remote (hinv.2.subset hc)⟩
    · rintro u a v - ⟨hi, hl⟩ hs
      have hper := persists_step hs
      refine ⟨(hper.reader ?_).trans hi, hl.trans hper.log⟩
      rw [hi, hpc]; rfl
  · rcases (reach_cause hr).writer hab with hstop | hf
    · exact hstop
    · rw [hpc] at hf; cases hf

/-- A connection that sends three bytes, receives two, and closes when both directions are complete. -/
def exchange : List (Act Unit) :=
  [.conn .connect, .conn (.connected ((), ())), .conn .task, .sender (.call (.sendBlock [1, 2, 3])),
    .sender .sender, .conn .start, .conn (.user 0), .conn (.returns true), .conn .task, .conn .task,
    .conn .task, .conn .task, .sender .dropSender, .sender .sender, .conn (.writer .poll)] ++
  ((Outgoing.sendAndDrop.drop 4).map .writer) ++
  [.conn (.writer (.finish .ok)), .conn (.reader .poll), .reader .poll, .reader (.readOk 2),
    .reader .poll, .reader (.readOk 0), .conn (.reader .msg), .reader (.onMsg none 2), .reader .poll,
    .conn (.reader (.finish .ok)), .conn .joinReader, .conn (.returns true), .conn .joinWriter,
    .conn .task, .conn .task]

theorem remoteClose_drained_exchange :
    ∃ s : Whole (RingBuffer.circular UInt8) Unit, (Whole.machine _ Unit ⟨0, 0, 0⟩ [7, 8]).Reach s ∧
      .remoteClose ∈ s.conn.log ∧ s.conn.pc = .inRemoteClose false ∧
      Incoming.takenBytes s.inn.session.offers = [7, 8] := by
  obtain ⟨s, hr, hp⟩ := Machine.reach_of_run
    (m := Whole.machine (RingBuffer.circular UInt8) Unit ⟨0, 0, 0⟩ [7, 8]) (exchange.take 43)
    (fun s => .remoteClose ∈ s.conn.log ∧ s.conn.pc = .inRemoteClose false) (by decide +kernel)
  obtain ⟨hc, hpc⟩ := of_decide_eq_true hp
  obtain ⟨-, -, hall, -⟩ := remoteClose_drained _ _ _ _ s hr hc
  exact ⟨s, hr, hc, hpc, hall⟩

/-- A connection that was started closes for a reason. When `OnConnectionClose` has been delivered there
    was a stop signal, or the socket failed the writer, or the socket or `on_msg` failed the reader, or
    `on_msg` reported more than it was given; and otherwise `OnRemoteClose` was delivered before, the
    socket has taken every byte of every call of the sender, and `on_msg` has consumed every byte that
    arrived. -/
theorem close_has_reason (R : RingBuffer UInt8) (A : Type) (config : ConnConfig)
    (incoming : List UInt8) (s : Whole R A) (hr : (Whole.machine R A config incoming).Reach s)
    (hc : .connectionClose ∈ s.conn.log) (hw : s.conn.writer.st ≠ .notSpawned) :
    s.conn.stopDropped = true ∨ s.out.writer = .returned .err ∨
    (∃ e, s.inn.pc = .returnedErr e) ∨ s.inn.pc = .panicked .cbResult ∨
    (.remoteClose ∈ s.conn.log ∧ s.out.sender = .dropped ∧
      s.out.written = s.out.calls.flatMap Outgoing.Call.accepted ∧
      Incoming.takenBytes s.inn.session.offers = incoming) := by
  rcases reason_of_close hr hc hw with hstop | herr | hf | ⟨hret, hin, hrem⟩
  · exact .inl hstop
  · exact .inr (.inl herr)
  · cases hp : s.inn.pc with
    | returnedErr e => exact .inr (.inr (.inl ⟨e, rfl⟩))
    | panicked p =>
      obtain rfl := (Incoming.reach_readerOk (path_inn hr)).panic p hp
      exact .inr (.inr (.inr (.inl rfl)))
    | _ => rw [hp] at hf; cases hf
  · obtain ⟨hd, hall⟩ := written_all hr (by rw [hret]; rfl)
    exact .inr (.inr (.inr (.inr ⟨hrem, hd, hall, (reader_drained hr hrem).2.2⟩)))

theorem close_has_reason_exchange :
    ∃ s : Whole (RingBuffer.circular UInt8) Unit, (Whole.machine _ Unit ⟨0, 0, 0⟩ [7, 8]).Reach s ∧
      .connectionClose ∈ s.conn.log ∧ s.conn.stopDropped = false ∧ s.out.written = [1, 2, 3] ∧
      Incoming.takenBytes s.inn.session.offers = [7, 8] := by
  obtain ⟨s, hr, hp⟩ := Machine.reach_of_run
    (m := Whole.machine (RingBuffer.circular UInt8) Unit ⟨0, 0, 0⟩ [7, 8]) exchange
    (fun s => .connectionClose ∈ s.conn.log ∧ s.conn.stopDropped = false ∧
      s.conn.writer.st = .finished .ok ∧ s.out.writer = .returned .ok ∧ s.inn.pc = .returnedOk ∧
      s.out.calls.flatMap Outgoing.Call.accepted = [1, 2, 3]) (by decide +kernel)
  obtain ⟨hc, hstop, hst, hw, hpc, hcalls⟩ := of_decide_eq_true hp
  have hreason := close_has_reason _ _ _ _ s hr hc (by rw [hst]; simp)
  obtain ⟨-, -, hout, hin⟩ : .remoteClose ∈ s.conn.log ∧ s.out.sender = .dropped ∧
      s.out.written = s.out.calls.flatMap Outgoing.Call.accepted ∧
      Incoming.takenBytes s.inn.session.offers = [7, 8] := by
    simpa [hstop, hw, hpc] using hreason
  exact ⟨s, hr, hc, hstop, hout.trans hcalls, hin⟩

end SocketManager.Duplex
