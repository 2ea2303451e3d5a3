import SocketManager.Incoming.Finish
import SocketManager.Manager.Protocol
import SocketManager.Outgoing.Finish

/-! One connection as a whole: the connection task with its two spawned tasks, the futures those tasks
    poll (`handle_writer` and `handle_reader`), and the user with the `Conn` and the `MsgSender`.

        user ──▶ MsgSender ─▶ rings ─▶ handle_writer ─▶ socket
          │                                  ▲ poll, abort
        Conn ─▶ connection task ─────────────┤                 ─▶ on_conn
                                             ▼ poll, abort
        on_msg ◀────────────────────── handle_reader ◀── socket

    The three machines are those of their own directories; here they run together and agree. A future
    moves only while its task is polled; the poll returns where the future waits, and ends with what
    the future returned; an aborted future is dropped where it waits. -/

namespace SocketManager.Duplex
open Manager

/-- The parts of one connection. -/
structure Whole (R : RingBuffer UInt8) (A : Type) where
  conn : Conn A
  out : Outgoing.State R
  inn : Incoming.Reader

/-- What happens next. -/
inductive Act (A : Type) where
  /-- The connection task, the polls of the two tasks, the calls on the `Conn`. -/
  | conn (a : ConnAct A)
  /-- The user's thread, with the `MsgSender`. -/
  | sender (a : Outgoing.Act)
  /-- The future of the writer and its socket. -/
  | writer (a : Outgoing.Act)
  /-- The future of the reader and its socket; the return of `on_msg`. -/
  | reader (a : Incoming.Act)

/-- What the `JoinHandle` of the writer gives. -/
def writerResult : Outgoing.WriterResult → JoinResult
  | .ok => .ok
  | .err => .err
  | .aborted => .joinErr

/-- What the `JoinHandle` of the reader gives, once its future has ended. -/
def readerResult : Incoming.ReaderPc → Option JoinResult
  | .returnedOk => some .ok
  | .returnedErr _ => some .err
  | .panicked _ => some .joinErr
  | _ => none

variable {R : RingBuffer UInt8} {A : Type}

namespace Whole

/-- The runtime polls the tasks as their futures are. A poll of an aborted task that returns drops the
    future first. -/
def pollOk (s : Whole R A) : ConnAct A → Bool
  | .writer .pending =>
    if s.conn.writer.aborted then decide (s.out.writer = .returned .aborted)
    else s.out.writer.awaits.isSome
  | .writer .cancel => decide (s.out.writer = .returned .aborted)
  | .writer (.finish res) =>
    match s.out.writer with
    | .returned r => decide (r ≠ .aborted ∧ writerResult r = res)
    | _ => false
  | .reader .msg => decide (s.inn.pc.awaits.isSome ∧ s.inn.session.offered ≠ [])
  | .reader .msgReturns => false
  | .reader .pending => s.inn.session.pending
  | .reader (.finish res) => decide (readerResult s.inn.pc = some res)
  | _ => true

/-- The future of the writer is being polled, or dropped. A `MsgRcv` that no writer was spawned with
    is dropped with the connection task. -/
def writerOk (s : Whole R A) : Outgoing.Act → Bool
  | .abort =>
    (s.conn.writer.aborted && decide (s.conn.writer.st = .idle ∨ s.conn.writer.st = .polling)) ||
      decide (s.conn.writer.st = .notSpawned ∧ s.conn.pc = .done)
  | _ => decide (s.conn.writer.st = .polling) || !s.out.writer.running

def step (config : ConnConfig) (s : Whole R A) : Act A → Option (Whole R A)
  | .conn a => if s.pollOk a then (s.conn.step a).map fun conn => { s with conn } else none
  | .sender a =>
    -- the sender was handed over with `OnConnect`
    if a.ofUser ∧ .connect ∈ s.conn.log then
      (Outgoing.step config s.out a).map fun out => { s with out }
    else none
  | .writer a =>
    if a.ofUser = false ∧ s.writerOk a then
      (Outgoing.step config s.out a).map fun out => { s with out }
    else none
  | .reader (.onMsg err cbResult) =>
    (s.conn.readerStep .msgReturns).bind fun conn =>
      (Incoming.step config s.inn (.onMsg err cbResult)).map fun inn => { s with conn, inn }
  | .reader a =>
    if s.conn.reader.st = .polling then
      (Incoming.step config s.inn a).map fun inn => { s with inn }
    else none

/-- A connection that `config` is started with, over a socket that will deliver `incoming`. -/
def machine (R : RingBuffer UInt8) (A : Type) (config : ConnConfig)
    (incoming : List UInt8) : Machine (Whole R A) (Act A) :=
  ⟨⟨Conn.unborn, Outgoing.makeSender, Incoming.handleReader config incoming⟩, step config⟩

end Whole

/-! ### The parts -/

variable {config : ConnConfig} {incoming : List UInt8} {s s' : Whole R A}

/-- What a step does to the parts. -/
inductive Move (config : ConnConfig) (s : Whole R A) : Act A → Whole R A → Prop where
  | conn {a conn} (hok : s.pollOk a = true) (h : s.conn.step a = some conn) :
      Move config s (.conn a) { s with conn }
  | sender {a out} (hu : a.ofUser = true) (hc : .connect ∈ s.conn.log)
      (h : Outgoing.step config s.out a = some out) : Move config s (.sender a) { s with out }
  | writer {a out} (hu : a.ofUser = false) (hok : s.writerOk a = true)
      (h : Outgoing.step config s.out a = some out) : Move config s (.writer a) { s with out }
  | onMsg {err cbResult conn inn} (hc : s.conn.step (.reader .msgReturns) = some conn)
      (h : Incoming.step config s.inn (.onMsg err cbResult) = some inn) :
      Move config s (.reader (.onMsg err cbResult)) { s with conn, inn }
  | reader {a inn} (hp : s.conn.reader.st = .polling) (h : Incoming.step config s.inn a = some inn) :
      Move config s (.reader a) { s with inn }

theorem step_cases {a : Act A} (hs : s.step config a = some s') : Move config s a s' := by
  cases a with
  | conn a =>
    simp only [Whole.step] at hs
    split at hs
    · rename_i hok
      obtain ⟨conn, hc, rfl⟩ := Option.map_eq_some_iff.mp hs
      exact .conn hok hc
    · cases hs
  | sender a =>
    simp only [Whole.step] at hs
    split at hs
    · rename_i hok
      obtain ⟨out, ho, rfl⟩ := Option.map_eq_some_iff.mp hs
      exact .sender hok.1 hok.2 ho
    · cases hs
  | writer a =>
    simp only [Whole.step] at hs
    split at hs
    · rename_i hok
      obtain ⟨out, ho, rfl⟩ := Option.map_eq_some_iff.mp hs
      exact .writer hok.1 hok.2 ho
    · cases hs
  | reader a =>
    cases a with
    | onMsg err cbResult =>
      obtain ⟨conn, hc, hs⟩ := Option.bind_eq_some_iff.mp hs
      obtain ⟨inn, hi, rfl⟩ := Option.map_eq_some_iff.mp hs
      exact .onMsg hc hi
    | poll | readOk n | readErr | tick =>
      simp only [Whole.step] at hs
      split at hs
      · rename_i hp
        obtain ⟨inn, hi, rfl⟩ := Option.map_eq_some_iff.mp hs
        exact .reader hp hi
      · cases hs

/-- The connection runs as it does by itself. -/
theorem path_conn {ok : Whole R A → Act A → Prop}
    (hp : (Whole.machine R A config incoming).Path ok s s') :
    (Conn.machine A).Path (fun _ _ => True) s.conn s'.conn := by
  refine hp.project fun t a u _ hs => ?_
  cases step_cases hs with
  | conn _ h => exact .single trivial h
  | onMsg h _ => exact .single (a := .reader .msgReturns) trivial h
  | _ => exact .refl

/-- So does the outgoing side. -/
theorem path_out {ok : Whole R A → Act A → Prop}
    (hp : (Whole.machine R A config incoming).Path ok s s') :
    (Outgoing.machine R config).Path (fun _ _ => True) s.out s'.out := by
  refine hp.project fun t a u _ hs => ?_
  cases step_cases hs with
  | sender _ _ h => exact .single trivial h
  | writer _ _ h => exact .single trivial h
  | _ => exact .refl

/-- And the incoming side. -/
theorem path_inn {ok : Whole R A → Act A → Prop}
    (hp : (Whole.machine R A config incoming).Path ok s s') :
    (Incoming.machine config incoming).Path (fun _ _ => True) s.inn s'.inn := by
  refine hp.project fun t a u _ hs => ?_
  cases step_cases hs with
  | @onMsg err cbResult _ _ _ h => exact .single (a := .onMsg err cbResult) trivial h
  | reader _ h => exact .single trivial h
  | _ => exact .refl

/-! ### The tasks and their futures agree -/

/-- What the future of the writer is returning, or has returned. -/
def returning : Outgoing.WriterPc → Option Outgoing.WriterResult
  | .unwind _ res | .unwindWake _ res | .returned res => some res
  | _ => none

/-- A task that has ended has ended as its future did, and only an abort drops a future. -/
structure Agree (s : Whole R A) : Prop where
  writer : ∀ res, s.conn.writer.st = .finished res →
    ∃ r, s.out.writer = .returned r ∧ writerResult r = res
  reader : ∀ res, s.conn.reader.st = .finished res →
    (res = .joinErr ∧ s.conn.reader.aborted = true) ∨ readerResult s.inn.pc = some res
  aborted : returning s.out.writer = some .aborted →
    s.conn.writer.aborted = true ∨ (s.conn.writer.st = .notSpawned ∧ s.conn.pc = .done)

/-! ### What a step of the connection does to the tasks -/

/-- A step of the connection ends a task only by a poll of it, or by its cancellation. -/
theorem writer_step {c c' : Conn A} {a : ConnAct A} (hs : c.step a = some c') {res : JoinResult}
    (hf : c'.writer.st = .finished res) : c.writer.st = .finished res ∨ ∃ b, a = .writer b := by
  cases Conn.step_cases hs with
  | task h =>
    cases h with
    | spawnWriter hp => cases hf
    | _ => exact .inl hf
  | user h =>
    obtain ⟨-, -, hw, -⟩ := h.frame
    rw [← hw]; exact .inl hf
  | msg _ | reader _ => exact .inl hf
  | writer _ => exact .inr ⟨_, rfl⟩

theorem reader_step {c c' : Conn A} {a : ConnAct A} (hs : c.step a = some c') {res : JoinResult}
    (hf : c'.reader.st = .finished res) : c.reader.st = .finished res ∨ ∃ b, a = .reader b := by
  cases Conn.step_cases hs with
  | task h =>
    cases h with
    | spawnReader hp => cases hf
    | _ => exact .inl hf
  | user h =>
    obtain ⟨-, -, -, hr, -⟩ := h.frame
    rw [← hr]; exact .inl hf
  | msg _ | reader _ => exact .inr ⟨_, rfl⟩
  | writer _ => exact .inl hf

/-- An abort is not taken back. -/
theorem aborted_step {c c' : Conn A} {a : ConnAct A} (h : ConnInv c) (hs : c.step a = some c') :
    (c.writer.aborted = true → c'.writer.aborted = true) ∧
      (c.reader.aborted = true → c'.reader.aborted = true) := by
  have ht := h.tasks
  cases Conn.step_cases hs with
  | task hm =>
    cases hm with
    | spawnWriter hp =>
      rw [hp] at ht
      exact ⟨fun hab => (by rw [ht.1] at hab; cases hab), id⟩
    | spawnReader hp =>
      rw [hp] at ht
      exact ⟨id, fun hab => (by rw [ht.2.2] at hab; cases hab)⟩
    | joinStop => exact ⟨fun _ => rfl, fun _ => rfl⟩
    | writerErr => exact ⟨id, fun _ => rfl⟩
    | readerErr => exact ⟨fun _ => rfl, id⟩
    | _ => exact ⟨id, id⟩
  | user hm =>
    obtain ⟨-, -, hw, hr, -⟩ := hm.frame
    rw [hw, hr]; exact ⟨id, id⟩
  | msg _ => exact ⟨id, id⟩
  | reader hm => exact ⟨id, fun hab => hm.runs.aborted.trans hab⟩
  | writer hm => exact ⟨fun hab => hm.runs.aborted.trans hab, id⟩

/-- A connection that ended without a writer stays so. -/
theorem done_step {c c' : Conn A} {a : ConnAct A} (hs : c.step a = some c') (hpc : c.pc = .done)
    (hst : c.writer.st = .notSpawned) : c'.writer.st = .notSpawned ∧ c'.pc = .done := by
  cases Conn.step_cases hs with
  | task hm => cases hm <;> simp_all
  | user hm =>
    obtain ⟨hp, -, hw, -⟩ := hm.frame
    rw [hp, hw]; exact ⟨hst, hpc⟩
  | msg _ | reader _ => exact ⟨hst, hpc⟩
  | writer hm => exact absurd hst hm.runs.spawned

/-- What ends a task. -/
theorem taskStep_finished {t t' : Task} {a : TaskAct} {res : JoinResult} (h : t.step a = some t')
    (hf : t'.st = .finished res) : a = .finish res ∨
      ((a = .pending ∨ a = .cancel) ∧ t.aborted = true ∧ t'.aborted = true ∧ res = .joinErr) := by
  cases a with
  | poll | msg | msgReturns =>
    simp only [Task.step] at h
    split at h
    · obtain rfl := Option.some.inj h; cases hf
    · cases h
  | pending =>
    simp only [Task.step] at h
    split at h
    · obtain rfl := Option.some.inj h
      cases hab : t.aborted with
      | true =>
        simp only [hab, if_true, TaskState.finished.injEq] at hf
        exact .inr ⟨.inl rfl, rfl, rfl, hf.symm⟩
      | false => simp [hab] at hf
    · cases h
  | finish r =>
    simp only [Task.step] at h
    split at h
    · obtain rfl := Option.some.inj h
      simp only [TaskState.finished.injEq] at hf
      exact .inl (by rw [hf])
    · cases h
  | cancel =>
    simp only [Task.step] at h
    split at h
    · rename_i hc
      obtain rfl := Option.some.inj h
      simp only [TaskState.finished.injEq] at hf
      exact .inr ⟨.inr rfl, hc.2, hc.2, hf.symm⟩
    · cases h

/-- The polls of a task as steps of the connection. -/
theorem writerStep_task {c c' : Conn A} {b : TaskAct} (hs : c.step (.writer b) = some c') :
    ∃ t, c.writer.step b = some t ∧ c' = { c with writer := t } := by
  simp only [Conn.step, Conn.writerStep] at hs
  split at hs
  · cases hs
  · obtain ⟨t, ht, rfl⟩ := Option.map_eq_some_iff.mp hs
    exact ⟨t, ht, rfl⟩

theorem readerStep_task {c c' : Conn A} {b : TaskAct} (hs : c.step (.reader b) = some c') :
    ∃ t, c.reader.step b = some t ∧ c'.reader = t ∧ c'.writer = c.writer ∧ c'.pc = c.pc := by
  simp only [Conn.step, Conn.readerStep] at hs
  split at hs
  all_goals
    obtain ⟨t, ht, rfl⟩ := Option.map_eq_some_iff.mp hs
    exact ⟨t, ht, rfl, rfl, rfl⟩

/-! ### Agreement is kept -/

/-- A future that returned stays as it is. -/
theorem returned_step {t t' : Outgoing.State R} {a : Outgoing.Act} {r : Outgoing.WriterResult}
    (hs : Outgoing.step config t a = some t') (hw : t.writer = .returned r) :
    t'.writer = .returned r := by
  rcases Outgoing.step_cases hs with hm | hm
  · rw [(Outgoing.senderMove_frame hm).writer]; exact hw
  · cases hm <;> simp_all [Outgoing.WriterPc.awaits]

/-- A future is dropped by an abort alone. -/
theorem returning_step {t t' : Outgoing.State R} {a : Outgoing.Act}
    (hs : Outgoing.step config t a = some t') (ha : a ≠ .abort)
    (hr : returning t'.writer = some .aborted) : returning t.writer = some .aborted := by
  have hfail : t'.writer.failed = true := by
    cases hw : t'.writer <;> rw [hw] at hr <;> cases hr <;> rfl
  cases hf : t.writer.failed with
  | true =>
    -- it was returning already, with the same result
    rcases Outgoing.step_cases hs with hm | hm
    · rw [← (Outgoing.senderMove_frame hm).writer]; exact hr
    · cases hm with
      | abort hw =>
        cases hp : t.writer <;> rw [hp] at hw hf <;> first | cases hf | cases hw
      | _ => simp_all [Outgoing.WriterPc.failed, returning]
  | false =>
    cases hh : a.healthy with
    | true =>
      rw [Outgoing.failed_step hh hs hf] at hfail; cases hfail
    | false =>
      cases a with
      | abort => exact absurd rfl ha
      | writeFails | shutdownFails =>
        simp only [Outgoing.step] at hs
        split at hs
        · obtain rfl := Option.some.inj hs; cases hr
        · cases hs
      | _ => cases hh

theorem Agree.step {a : Act A} (h : Agree s) (hc : ConnInv s.conn) (hs : s.step config a = some s') :
    Agree s' := by
  cases step_cases hs with
  | @conn a conn hok hstep =>
    refine ⟨fun res hf => ?_, fun res hf => ?_, fun hret => ?_⟩
    · rcases writer_step hstep hf with hold | ⟨b, rfl⟩
      · exact h.writer res hold
      · obtain ⟨t, ht, rfl⟩ := writerStep_task hstep
        rcases taskStep_finished ht hf with rfl | ⟨rfl | rfl, hab, -, rfl⟩
        · simp only [Whole.pollOk] at hok
          split at hok
          · rename_i r hw
            exact ⟨r, hw, (of_decide_eq_true hok).2⟩
          · cases hok
        · simp only [Whole.pollOk, hab, if_true] at hok
          exact ⟨.aborted, of_decide_eq_true hok, rfl⟩
        · exact ⟨.aborted, of_decide_eq_true hok, rfl⟩
    · rcases reader_step hstep hf with hold | ⟨b, rfl⟩
      · exact (h.reader res hold).imp_left fun hj => ⟨hj.1, (aborted_step hc hstep).2 hj.2⟩
      · obtain ⟨t, ht, hr, -⟩ := readerStep_task hstep
        rcases taskStep_finished ht (hr ▸ hf) with rfl | ⟨-, -, hab, rfl⟩
        · exact .inr (of_decide_eq_true hok)
        · exact .inl ⟨rfl, hr ▸ hab⟩
    · rcases h.aborted hret with hab | ⟨hst, hpc⟩
      · exact .inl ((aborted_step hc hstep).1 hab)
      · exact .inr (done_step hstep hpc hst)
  | sender hu _ ho =>
    refine ⟨fun res hf => ?_, h.reader, fun hret => h.aborted ?_⟩
    · obtain ⟨r, hr, hres⟩ := h.writer res hf
      exact ⟨r, returned_step ho hr, hres⟩
    · exact returning_step ho (fun ha => (by rw [ha] at hu; cases hu)) hret
  | @writer a out hu hok ho =>
    refine ⟨fun res hf => ?_, h.reader, fun hret => ?_⟩
    · obtain ⟨r, hr, hres⟩ := h.writer res hf
      exact ⟨r, returned_step ho hr, hres⟩
    · by_cases ha : a = .abort
      · subst ha
        simp only [Whole.writerOk, Bool.or_eq_true, Bool.and_eq_true, decide_eq_true_eq] at hok
        exact hok.imp And.left id
      · exact h.aborted (returning_step ho ha hret)
  | onMsg hstep hi =>
    obtain ⟨t, ht, hr, hw, hp⟩ := readerStep_task hstep
    refine ⟨fun res hf => h.writer res (hw ▸ hf), fun res hf => ?_, fun hret => ?_⟩
    · rcases taskStep_finished ht (hr ▸ hf) with hb | ⟨hb | hb, -⟩ <;> cases hb
    · show _ ∨ _
      rw [hw, hp]; exact h.aborted hret
  | reader hp hi =>
    refine ⟨h.writer, fun res hf => ?_, h.aborted⟩
    rw [hp] at hf; cases hf

theorem reach_conn (hr : (Whole.machine R A config incoming).Reach s) : ConnInv s.conn :=
  reach_connInv (path_conn hr)

theorem reach_agree (hr : (Whole.machine R A config incoming).Reach s) : Agree s := by
  refine Machine.Path.invariant_of_reach (I := Agree) hr ?_
    fun t a u hrt _ h hs => h.step (reach_conn hrt) hs
  exact ⟨fun _ hf => (by cases hf), fun _ hf => (by cases hf), fun hf => (by cases hf)⟩

end SocketManager.Duplex
