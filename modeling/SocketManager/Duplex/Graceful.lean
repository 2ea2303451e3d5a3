import SocketManager.Duplex.Close
import SocketManager.Manager.Guarantee

/-! A connection that nobody stops comes to its close. When the sender was dropped, the remote side ends
    its stream, nothing fails and `on_msg` takes some of the bytes it is offered, every step of the
    connection task and of the two futures brings the connection nearer to the return of
    `OnConnectionClose`, and until then one of them can be taken.

    The polls of the two tasks are not counted: a task may be woken for nothing and return `Pending`
    any number of times. The calls on the `Conn` and its drop are not, either: the user may make any
    number of calls.
    But no call of his is needed to go on: the runtime can always poll the task that has something to
    do, which is what `Advances` says. -/

namespace SocketManager.Duplex
open Manager
variable {R : RingBuffer UInt8} {A : Type} {config : ConnConfig} {incoming : List UInt8}
  {s s' : Whole R A}

/-- Nobody stops the connection, nothing fails, `on_msg` takes some of what it is offered. -/
def Healthy (s : Whole R A) : Act A → Prop
  | .conn .dropStopper => False
  | .conn _ | .sender _ => True
  | .writer a => a.healthy = true
  | .reader a => Incoming.Healthy s.inn a

instance (s : Whole R A) (a : Act A) : Decidable (Healthy s a) := by
  unfold Healthy
  split <;> infer_instance

/-- The steps that are counted: all but the polls of the tasks, the calls on the `Conn` and its drop. -/
def counts : Act A → Bool
  | .conn (.writer (.finish _)) | .conn (.reader (.finish _)) => true
  | .conn (.writer _) | .conn (.reader _) => false
  | .conn .start | .conn .close | .conn (.user _) | .conn .dropHandle | .conn .dropStopper => false
  | _ => true

/-- A poll of a task begins, calls `on_msg` or returns `Pending`. -/
def polls : Act A → Bool
  | .conn (.writer (.finish _)) | .conn (.reader (.finish _)) => false
  | .conn (.writer _) | .conn (.reader _) => true
  | _ => false

/-- A task that has not ended has one step more. -/
def unfinished (t : Task) : Nat :=
  match t.st with
  | .finished _ => 0
  | _ => 1

namespace Whole

def rank (s : Whole R A) : Nat :=
  pcRank s.conn.pc + unfinished s.conn.writer + unfinished s.conn.reader + s.out.drainRank + s.inn.rank

/-- Nothing has failed so far. -/
structure Sound (s : Whole R A) : Prop where
  stop : s.conn.stopDropped = false
  writer : s.out.writer.failed = false
  reader : s.inn.pc.failed = false

/-- The connection was started and goes on to its close. -/
structure Closing (config : ConnConfig) (incoming acc : List UInt8) (s : Whole R A) : Prop where
  reach : (Whole.machine R A config incoming).Reach s
  sound : s.Sound
  started : s.conn.pc.configured = true ∨ (ended s.conn.pc = true ∧ s.conn.writer.st ≠ .notSpawned)
  out : Outgoing.Dropped s.out
  accepted : s.out.accepted = acc

end Whole

/-! ### The connection by itself -/

theorem unfinished_task {c c' : Conn A} {b : ConnAct A} (h : c.TaskStep b c') (hc : ConnInv c) :
    unfinished c'.writer = unfinished c.writer ∧ unfinished c'.reader = unfinished c.reader := by
  have ht := hc.tasks
  cases h with
  | spawnWriter hp =>
    rw [hp] at ht
    exact ⟨by rw [ht.1]; rfl, rfl⟩
  | spawnReader hp =>
    rw [hp] at ht
    exact ⟨rfl, by rw [ht.2.2]; rfl⟩
  | _ => exact ⟨rfl, rfl⟩

/-- A task that moves has not ended. -/
theorem unfinished_move {t t' : Task} (h : TaskMove t t') :
    unfinished t = 1 ∧ unfinished t' ≤ 1 := by
  constructor
  · cases hs : t.st with
    | finished res => exact absurd hs (h.runs.running res)
    | _ => simp [unfinished, hs]
  · unfold unfinished
    split <;> omega

/-- A started connection stays started. -/
theorem started_step {c c' : Conn A} {b : ConnAct A} (hs : c.step b = some c') (hc : ConnInv c)
    (h : c.pc.configured = true ∨ (ended c.pc = true ∧ c.writer.st ≠ .notSpawned)) :
    c'.pc.configured = true ∨ (ended c'.pc = true ∧ c'.writer.st ≠ .notSpawned) := by
  have ht := hc.tasks
  cases Conn.step_cases hs with
  | task hm =>
    cases hm with
    | spawnWriter | spawnReader | insert | remoteReturned | writerOk | readerOk | configured =>
      exact .inl rfl
    | remoteReturnedLast hp | joinStop hp | writerOkLast hp | writerErr hp | readerErr hp =>
      rw [hp] at ht
      exact .inr ⟨rfl, ht.2.2.1⟩
    | remove hp | closing hp | closeReturned hp =>
      rw [hp] at h
      exact .inr ⟨rfl, (h.resolve_left (by simp [Pc.configured])).2⟩
    | writerPolledAgain hp hagain | readerPolledAgain hp hagain =>
      simp only [hp, Pc.Tasks] at ht
      simp [hagain] at ht
    | _ => simp_all [Pc.configured, ended]
  | user hm =>
    obtain ⟨hp, -, hw, -⟩ := hm.frame
    rw [hp, hw]; exact h
  | msg _ | reader _ => exact h
  | writer hm => exact h.imp_right fun hw => ⟨hw.1, hm.runs.spawned'⟩

/-- Only the registry drops the stopper. -/
theorem stop_same {c c' : Conn A} {b : ConnAct A} (hs : c.step b = some c') (hb : b ≠ .dropStopper) :
    c'.stopDropped = c.stopDropped := by
  cases Conn.step_cases hs with
  | task hm => cases hm <;> rfl
  | user hm => cases hm <;> first | rfl | exact absurd rfl hb
  | msg _ | reader _ | writer _ => rfl

/-! ### One step of the whole -/

theorem Whole.Closing.readerOk {acc : List UInt8} (h : s.Closing config incoming acc) :
    Incoming.ReaderOk config incoming s.inn :=
  Incoming.reach_readerOk (path_inn h.reach)

theorem Whole.Closing.sound_step {acc : List UInt8} {a : Act A} (h : s.Closing config incoming acc)
    (ha : Healthy s a) (hs : s.step config a = some s') : s'.Sound := by
  obtain ⟨hstop, hw, hr⟩ := h.sound
  cases step_cases hs with
  | conn _ hc => exact ⟨(stop_same hc (by rintro rfl; exact ha)).trans hstop, hw, hr⟩
  | @sender b out hu _ ho =>
    have hb : b.healthy = true := by cases b <;> first | rfl | cases hu
    exact ⟨hstop, Outgoing.failed_step hb ho hw, hr⟩
  | writer _ _ ho => exact ⟨hstop, Outgoing.failed_step ha ho hw, hr⟩
  | @onMsg err cbResult _ _ hc hi =>
    exact ⟨(stop_same hc (by simp)).trans hstop, hw,
      (Incoming.rank_lt (a := .onMsg err cbResult) h.readerOk ha hi).2⟩
  | reader _ hi => exact ⟨hstop, hw, (Incoming.rank_lt h.readerOk ha hi).2⟩

theorem Whole.Closing.step {acc : List UInt8} {a : Act A} (h : s.Closing config incoming acc)
    (ha : Healthy s a) (hs : s.step config a = some s') : s'.Closing config incoming acc := by
  refine ⟨h.reach.tail trivial hs, h.sound_step ha hs, ?_, ?_, ?_⟩
  · have hstart := h.started
    have hc := reach_conn h.reach
    cases step_cases hs with
    | conn _ hstep => exact started_step hstep hc hstart
    | onMsg hstep _ => exact started_step hstep hc hstart
    | _ => exact hstart
  · cases step_cases hs with
    | sender _ _ ho | writer _ _ ho => exact (h.out.step ho).1
    | _ => exact h.out
  · cases step_cases hs with
    | sender _ _ ho | writer _ _ ho => exact (h.out.step ho).2.trans h.accepted
    | _ => exact h.accepted

/-- A step of the connection, with the futures at rest. -/
theorem rank_conn {c c' : Conn A} {b : ConnAct A} (hc : ConnInv c) (hs : c.step b = some c') :
    pcRank c'.pc + unfinished c'.writer + unfinished c'.reader ≤
      pcRank c.pc + unfinished c.writer + unfinished c.reader ∧
    (counts (.conn b) = true → pcRank c'.pc + unfinished c'.writer + unfinished c'.reader <
      pcRank c.pc + unfinished c.writer + unfinished c.reader) := by
  have hstep := hs
  cases Conn.step_cases hs with
  | task hm =>
    have hlt := pcRank_lt hm
    obtain ⟨hw, hr⟩ := unfinished_task hm hc
    rw [hw, hr]; omega
  | user hm =>
    obtain ⟨hp, -, hw, hr, -⟩ := hm.frame
    rw [hp, hw, hr]
    refine ⟨le_rfl, fun hcount => ?_⟩
    cases hm <;> cases hcount
  | msg hp =>
    refine ⟨?_, fun hcount => by cases hcount⟩
    simp [unfinished, hp]
  | @reader b t hm =>
    obtain ⟨hone, hle⟩ := unfinished_move hm
    refine ⟨by simp only [hone]; omega, fun hcount => ?_⟩
    cases b with
    | finish res =>
      obtain ⟨t', ht, hr, -⟩ := readerStep_task hstep
      obtain rfl : t = t' := hr
      have hfin : unfinished t = 0 := by
        simp only [Task.step] at ht
        split at ht
        · obtain rfl := Option.some.inj ht; rfl
        · cases ht
      simp only [hone, hfin]; omega
    | _ => cases hcount
  | @writer b t hm =>
    obtain ⟨hone, hle⟩ := unfinished_move hm
    refine ⟨by simp only [hone]; omega, fun hcount => ?_⟩
    cases b with
    | finish res =>
      obtain ⟨t', ht, hw⟩ := writerStep_task hstep
      obtain rfl : t = t' := congrArg (fun c : Conn A => c.writer) hw
      have hfin : unfinished t = 0 := by
        simp only [Task.step] at ht
        split at ht
        · obtain rfl := Option.some.inj ht; rfl
        · cases ht
      simp only [hone, hfin]; omega
    | _ => cases hcount

/-- Every step of the task and of the futures brings the connection nearer to its close. -/
theorem Whole.Closing.rank_step {acc : List UInt8} {a : Act A} (h : s.Closing config incoming acc)
    (ha : Healthy s a) (hs : s.step config a = some s') :
    s'.rank ≤ s.rank ∧ (counts a = true → s'.rank < s.rank) := by
  have hc := reach_conn h.reach
  cases step_cases hs with
  | conn _ hstep =>
    obtain ⟨hle, hlt⟩ := rank_conn hc hstep
    refine ⟨?_, fun hcount => ?_⟩
    · simp only [Whole.rank]; omega
    · have hlt := hlt hcount
      simp only [Whole.rank]; omega
  | sender _ _ ho | writer _ _ ho =>
    have hlt := Outgoing.drainRank_lt h.out ho
    simp only [Whole.rank]; omega
  | @onMsg err cbResult _ _ hstep hi =>
    have hle := (rank_conn hc hstep).1
    have hlt := (Incoming.rank_lt (a := .onMsg err cbResult) h.readerOk ha hi).1
    simp only [Whole.rank]; omega
  | reader _ hi =>
    have hlt := (Incoming.rank_lt h.readerOk ha hi).1
    simp only [Whole.rank]; omega

theorem counted_whole (config : ConnConfig) (incoming acc : List UInt8) :
    (Whole.machine R A config incoming).Counted Healthy (Whole.Closing config incoming acc) counts
      Whole.rank where
  keeps _ _ _ hI ha hs := hI.step ha hs
  le _ _ _ hI ha hs := (hI.rank_step ha hs).1
  lt _ _ _ hI ha hcount hs := (hI.rank_step ha hs).2 hcount

/-! ### Progress -/

/-- Some polls lead to a state in which a step that counts can be taken. -/
def Advances (config : ConnConfig) (incoming : List UInt8) (s : Whole R A) : Prop :=
  ∃ t a, (Whole.machine R A config incoming).Path (fun s a => Healthy s a ∧ polls a = true) s t ∧
    Healthy t a ∧ counts a = true ∧ t.step config a ≠ none

/-- The socket gives the end of the stream. -/
def readsEnd : Act A → Bool
  | .reader (.readOk 0) => true
  | _ => false

/-- The same, where the step need not wait for the end of the stream. -/
def AdvancesAlone (config : ConnConfig) (incoming : List UInt8) (s : Whole R A) : Prop :=
  ∃ t a, (Whole.machine R A config incoming).Path (fun s a => Healthy s a ∧ polls a = true) s t ∧
    Healthy t a ∧ counts a = true ∧ t.step config a ≠ none ∧ readsEnd a = false

theorem AdvancesAlone.advances (h : AdvancesAlone config incoming s) : Advances config incoming s := by
  obtain ⟨t, a, hp, ha, hc, hs, -⟩ := h
  exact ⟨t, a, hp, ha, hc, hs⟩

theorem AdvancesAlone.now {a : Act A} (ha : Healthy s a) (hc : counts a = true)
    (hs : s.step config a ≠ none) (he : readsEnd a = false) : AdvancesAlone config incoming s :=
  ⟨s, a, .refl, ha, hc, hs, he⟩

theorem AdvancesAlone.after {a : Act A} (ha : Healthy s a) (hc : polls a = true)
    (hs : s.step config a = some s') (h : AdvancesAlone config incoming s') :
    AdvancesAlone config incoming s := by
  obtain ⟨t, b, hp, hb⟩ := h
  exact ⟨t, b, (Machine.Path.single ⟨ha, hc⟩ hs).trans hp, hb⟩

theorem Advances.now {a : Act A} (ha : Healthy s a) (hc : counts a = true)
    (hs : s.step config a ≠ none) : Advances config incoming s :=
  ⟨s, a, .refl, ha, hc, hs⟩

theorem Advances.after {a : Act A} (ha : Healthy s a) (hc : polls a = true)
    (hs : s.step config a = some s') (h : Advances config incoming s') : Advances config incoming s := by
  obtain ⟨t, b, hp, hb⟩ := h
  exact ⟨t, b, (Machine.Path.single ⟨ha, hc⟩ hs).trans hp, hb⟩

/-- The writer makes no call of `on_msg`. -/
theorem writer_inMsg_step {c c' : Conn A} {b : ConnAct A} (h : c.writer.st ≠ .inMsg)
    (hs : c.step b = some c') : c'.writer.st ≠ .inMsg := by
  cases Conn.step_cases hs with
  | task hm => cases hm <;> first | exact h | simp [Manager.Task.spawn]
  | user hm =>
    obtain ⟨-, -, hw, -⟩ := hm.frame
    exact hw ▸ h
  | msg _ | reader _ => exact h
  | writer hm => cases hm <;> simp

theorem reach_writer_inMsg (hr : (Whole.machine R A config incoming).Reach s) :
    s.conn.writer.st ≠ .inMsg :=
  (path_conn hr).invariant (I := fun c => c.writer.st ≠ .inMsg)
    (by simp [Whole.machine, Conn.unborn, Task.unborn]) fun _ _ _ _ h hs => writer_inMsg_step h hs

/-- `on_msg` is called only with something to offer. -/
def InMsg (s : Whole R A) : Prop :=
  s.conn.reader.st = .inMsg → s.inn.pc.awaits.isSome = true ∧ s.inn.session.offered ≠ []

theorem InMsg.step {a : Act A} (h : InMsg s) (hs : s.step config a = some s') : InMsg s' := by
  cases step_cases hs with
  | @conn b conn hok hc =>
    intro hst
    cases Conn.step_cases hc with
    | task hm => cases hm <;> first | exact h hst | cases hst
    | user hm =>
      obtain ⟨-, -, -, hr, -⟩ := hm.frame
      exact h (hr ▸ hst)
    | msg _ => exact of_decide_eq_true hok
    | reader hm => cases hm <;> cases hst
    | writer _ => exact h hst
  | sender _ _ _ | writer _ _ _ => exact h
  | onMsg hc _ =>
    intro hst
    obtain ⟨t, ht, hr, -⟩ := readerStep_task hc
    simp only [Task.step] at ht
    split at ht
    · obtain rfl := Option.some.inj ht
      rw [hr] at hst; cases hst
    · cases ht
  | reader hp _ => intro hst; rw [show s.conn.reader.st = .inMsg from hst] at hp; cases hp

theorem reach_inMsg (hr : (Whole.machine R A config incoming).Reach s) : InMsg s :=
  hr.invariant (I := InMsg) (fun hst => by cases hst) fun _ _ _ h hs => h.step hs

section
variable {acc : List UInt8}

/-- The writer's task is being polled. -/
theorem Whole.Closing.writer_polling (h : s.Closing config incoming acc)
    (hc : .connect ∈ s.conn.log) (hst : s.conn.writer.st = .polling) :
    AdvancesAlone config incoming s := by
  by_cases hret : ∃ res, s.out.writer = .returned res
  · obtain ⟨res, hres⟩ := hret
    have hf := h.sound.writer
    rw [hres] at hf
    obtain rfl : res = .ok := by simpa [Outgoing.WriterPc.failed] using hf
    refine .now (a := .conn (.writer (.finish .ok))) trivial rfl ?_ rfl
    simp [Whole.step, Whole.pollOk, hres, writerResult, Conn.step, Conn.writerStep, Task.step, hst]
  · obtain ⟨a, ha, hs⟩ := h.out.progress config fun res hw => hret ⟨res, hw⟩
    obtain ⟨out, ho⟩ := Option.ne_none_iff_exists'.mp hs
    cases hu : a.ofUser with
    | true => exact .now (a := .sender a) trivial rfl (by simp [Whole.step, hu, hc, ho]) rfl
    | false =>
      refine .now (a := .writer a) ha rfl ?_ rfl
      have hok : s.writerOk a = true := by
        cases a with
        | abort => cases ha
        | call | sender | repoll | dropSender => cases hu
        | _ => simp [Whole.writerOk, hst]
      simp [Whole.step, hu, hok, ho]

/-- A writer that has not ended has something to do, or is woken to it. -/
theorem Whole.Closing.writer_advances (h : s.Closing config incoming acc)
    (hc : .connect ∈ s.conn.log) (hab : s.conn.writer.aborted = false)
    (hsp : s.conn.writer.st ≠ .notSpawned) (hfin : ∀ res, s.conn.writer.st ≠ .finished res) :
    AdvancesAlone config incoming s := by
  cases hst : s.conn.writer.st with
  | notSpawned => exact absurd hst hsp
  | finished res => exact absurd hst (hfin res)
  | inMsg => exact absurd hst (reach_writer_inMsg h.reach)
  | polling => exact h.writer_polling hc hst
  | idle =>
    have hs : s.step config (.conn (.writer .poll)) = some { s with
        conn := { s.conn with writer := { s.conn.writer with st := .polling } } } := by
      simp [Whole.step, Whole.pollOk, Conn.step, Conn.writerStep, Task.step, hst, hab]
    exact .after (a := .conn (.writer .poll)) trivial rfl hs
      ((h.step (a := .conn (.writer .poll)) trivial hs).writer_polling hc rfl)

/-- `on_msg` has been called with something and returns. -/
theorem Whole.Closing.reader_inMsg (h : s.Closing config incoming acc)
    (hst : s.conn.reader.st = .inMsg) : Advances config incoming s := by
  obtain ⟨haw, hoff⟩ := reach_inMsg h.reach hst
  obtain ⟨hh, hs⟩ := h.readerOk.onMsg_one (Option.isSome_iff_ne_none.mp haw) hoff
  obtain ⟨inn, hi⟩ := Option.ne_none_iff_exists'.mp hs
  refine .now (a := .reader (.onMsg none 1)) hh rfl ?_
  simp [Whole.step, Conn.readerStep, Task.step, hst, hi]

/-- The reader's task is being polled. -/
theorem Whole.Closing.reader_polling (h : s.Closing config incoming acc)
    (hst : s.conn.reader.st = .polling) : Advances config incoming s := by
  have hstep : ∀ a, Incoming.Healthy s.inn a → (∀ err cbResult, a ≠ .onMsg err cbResult) →
      Incoming.step config s.inn a ≠ none → Advances config incoming s := by
    intro a ha hne hs
    obtain ⟨inn, hi⟩ := Option.ne_none_iff_exists'.mp hs
    refine .now (a := .reader a) ha rfl ?_
    cases a with
    | onMsg err cbResult => exact absurd rfl (hne err cbResult)
    | _ => simp [Whole.step, hst, hi]
  rcases Incoming.ReaderPc.cases_awaits h.sound.reader with hpc | ⟨k, hk⟩
  · refine .now (a := .conn (.reader (.finish .ok))) trivial rfl ?_
    simp [Whole.step, Whole.pollOk, hpc, readerResult, Conn.step, Conn.readerStep, Task.step, hst]
  · rcases h.readerOk.progress hk with ⟨a, ha, -, hs⟩ | ⟨-, hs⟩ | ⟨-, hs⟩
    · cases a with
      | onMsg err cbResult =>
        -- `on_msg` is called first
        have hoff : s.inn.session.offered ≠ [] := by
          obtain ⟨-, hpos, hle⟩ := ha
          exact List.length_pos_iff.mp (by omega)
        have hs : s.step config (.conn (.reader .msg)) = some { s with
            conn := { s.conn with reader := { s.conn.reader with st := .inMsg } }.event .msg } := by
          simp [Whole.step, Whole.pollOk, hk, hoff, Conn.step, Conn.readerStep, Task.step, hst]
        exact .after (a := .conn (.reader .msg)) trivial rfl hs
          ((h.step (a := .conn (.reader .msg)) trivial hs).reader_inMsg rfl)
      | _ => exact hstep _ ha (by simp) hs
    · exact hstep (.readOk 1) trivial (by simp) hs
    · exact hstep (.readOk 0) trivial (by simp) hs

/-- A reader that has not ended has something to do, or is woken to it. -/
theorem Whole.Closing.reader_advances (h : s.Closing config incoming acc)
    (hab : s.conn.reader.aborted = false) (hsp : s.conn.reader.st ≠ .notSpawned)
    (hfin : ∀ res, s.conn.reader.st ≠ .finished res) : Advances config incoming s := by
  cases hst : s.conn.reader.st with
  | notSpawned => exact absurd hst hsp
  | finished res => exact absurd hst (hfin res)
  | inMsg => exact h.reader_inMsg hst
  | polling => exact h.reader_polling hst
  | idle =>
    have hs : s.step config (.conn (.reader .poll)) = some { s with
        conn := { s.conn with reader := { s.conn.reader with st := .polling } } } := by
      simp [Whole.step, Whole.pollOk, Conn.step, Conn.readerStep, Task.step, hst, hab]
    exact .after (a := .conn (.reader .poll)) trivial rfl hs
      ((h.step (a := .conn (.reader .poll)) trivial hs).reader_polling rfl)

/-- Until the connection task has ended a step that counts can be taken; it waits for the other end of
    the connection only when its own direction is complete. -/
theorem Whole.Closing.advances_alone (h : s.Closing config incoming acc) (hpc : s.conn.pc ≠ .done) :
    AdvancesAlone config incoming s ∨ s.out.writer = .returned .ok ∧ Advances config incoming s := by
  have hc := reach_conn h.reach
  have ht := hc.tasks
  have hconn : ∀ b : ConnAct A, counts (.conn b : Act A) = true → Healthy s (.conn b) →
      s.pollOk b = true → s.conn.step b ≠ none →
      AdvancesAlone config incoming s ∨ s.out.writer = .returned .ok ∧ Advances config incoming s := by
    intro b hcount hh hok hs
    obtain ⟨conn, hconn⟩ := Option.ne_none_iff_exists'.mp hs
    exact .inl (.now hh hcount (by simp [Whole.step, hok, hconn]) rfl)
  have hstart := h.started
  cases hp : s.conn.pc with
  | spawnWriter | spawnReader | insert | remove | closing =>
    exact hconn .task rfl trivial rfl (by simp [Conn.step, Conn.taskStep, hp])
  | inRemoteClose ws =>
    exact hconn (.returns true) rfl trivial rfl (by simp [Conn.step, Conn.returnsStep, hp])
  | inClose => exact hconn (.returns true) rfl trivial rfl (by simp [Conn.step, Conn.returnsStep, hp])
  | join ws rs =>
    rw [hp] at ht
    obtain ⟨hwt, hrt, hwsp, hrsp, hwok, -⟩ := ht
    obtain ⟨hwab, hrab⟩ := (reach_cause h.reach).fresh (by rw [hp]; rfl)
    cases ws with
    | false =>
      by_cases hfin : ∃ res, s.conn.writer.st = .finished res
      · obtain ⟨res, hres⟩ := hfin
        refine hconn .joinWriter rfl trivial rfl ?_
        simp only [Conn.step, Conn.joinWriter, hp, hwt, hres]
        cases res <;> simp
      · refine .inl (h.writer_advances ?_ hwab hwsp fun res hres => hfin ⟨res, hres⟩)
        have hev := hc.events
        rw [hp] at hev
        refine (mem_callbacks rfl).mp ?_
        cases rs <;> (rw [show callbacks s.conn.log = _ from hev]; simp)
    | true =>
      cases rs with
      | true => exact absurd hp (reach_join (path_conn h.reach))
      | false =>
        by_cases hfin : ∃ res, s.conn.reader.st = .finished res
        · obtain ⟨res, hres⟩ := hfin
          refine hconn .joinReader rfl trivial rfl ?_
          simp only [Conn.step, Conn.joinReader, hp, hrt, hres]
          cases res <;> simp
        · exact .inr ⟨(reach_agree h.reach).writer_ok (hwok rfl),
            h.reader_advances hrab hrsp fun res hres => hfin ⟨res, hres⟩⟩
  | done => exact absurd hp hpc
  | _ => rw [hp] at hstart; simp [Pc.configured, ended] at hstart

theorem Whole.Closing.advances (h : s.Closing config incoming acc) (hpc : s.conn.pc ≠ .done) :
    Advances config incoming s :=
  (h.advances_alone hpc).elim AdvancesAlone.advances And.right

/-- A connection that has ended without a failure is complete. -/
theorem Whole.Closing.complete (h : s.Closing config incoming acc) (hdone : s.conn.pc = .done) :
    .remoteClose ∈ s.conn.log ∧ s.out.writer = .returned .ok ∧ s.out.written = acc ∧
      Incoming.takenBytes s.inn.session.offers = incoming := by
  have hsp : s.conn.writer.st ≠ .notSpawned := by
    rcases h.started with hc | ⟨-, hw⟩
    · rw [hdone] at hc; cases hc
    · exact hw
  -- the other reasons for a close are failures
  have hreason := ((reach_cause h.reach).reason (by rw [hdone]; rfl)).resolve_left hsp
  obtain ⟨hstop, hwf, hrf⟩ := h.sound
  rcases hreason with hst | hw | hf | ⟨hw, hp, hrem⟩
  · rw [hstop] at hst; cases hst
  · rw [hw] at hwf; cases hwf
  · rw [hrf] at hf; cases hf
  · have hfin : s.out.writer.finishing = true := by rw [hw]; rfl
    exact ⟨hrem, hw, h.accepted ▸ (h.out.inv.core.finishing hfin).2.2.symm, h.readerOk.consumed_all hp⟩

end

/-! ### The close -/

theorem Whole.rank_le {acc : List UInt8} (h : s.Closing config incoming acc) :
    s.rank ≤ 4 * (acc.length - s.out.written.length) + 20 * s.out.queue.length +
      9 * s.inn.session.rest.length + Incoming.msgBufSize config + 49 := by
  have hpc := pcRank_le s.conn.pc
  have hun : ∀ t : Task, unfinished t ≤ 1 := by
    intro t
    unfold unfinished
    split <;> omega
  have hout := s.out.drainRank_le
  have hinn := h.readerOk.rank_le
  have hw := hun s.conn.writer
  have hr := hun s.conn.reader
  rw [h.accepted] at hout
  simp only [Whole.rank]
  omega

/-- Once a connection was started and its sender dropped, and as long as nobody stops it, nothing fails
    and `on_msg` takes some of what it is offered: every run has finitely many steps other than polls of
    the two tasks, calls on the `Conn` and its drop, with a bound; wherever it has come, the connection
    has been closed or polls alone lead to such a step; and when it has been closed, `OnRemoteClose` was
    delivered, the socket has taken every byte that was sent and `on_msg` has consumed every byte that
    arrived. -/
theorem graceful_close (R : RingBuffer UInt8) (A : Type) (config : ConnConfig)
    (incoming : List UInt8) (s t : Whole R A) (as : List (Act A))
    (hr : (Whole.machine R A config incoming).Reach s) (hstart : s.conn.pc.configured = true)
    (hg : s.out.sender.gone = true) (hs : s.Sound)
    (hal : (Whole.machine R A config incoming).Along Healthy s as)
    (hrun : (Whole.machine R A config incoming).run s as = some t) :
    as.countP counts ≤ 4 * (s.out.accepted.length - s.out.written.length) +
      20 * s.out.queue.length + 9 * s.inn.session.rest.length + Incoming.msgBufSize config + 49 ∧
    (t.conn.pc = .done ∨ Advances config incoming t) ∧
    (t.conn.pc = .done → .remoteClose ∈ t.conn.log ∧ t.out.written = s.out.accepted ∧
      Incoming.takenBytes t.inn.session.offers = incoming) := by
  have hd : Outgoing.Dropped s.out :=
    ⟨Outgoing.reach_inv (path_out hr), hg, Outgoing.reach_tx (path_out hr)⟩
  have h : s.Closing config incoming s.out.accepted := ⟨hr, hs, .inl hstart, hd, rfl⟩
  obtain ⟨ht, hcount⟩ := (counted_whole config incoming s.out.accepted).countP_le h hal hrun
  have hle := Whole.rank_le h
  refine ⟨by omega, ?_, fun hdone => ?_⟩
  · by_cases hdone : t.conn.pc = .done
    · exact .inl hdone
    · exact .inr (ht.advances hdone)
  · obtain ⟨hrem, -, hw, hall⟩ := ht.complete hdone
    exact ⟨hrem, hw, hall⟩

/-- The rest of `exchange`, from the drop of the sender to the return of the last callback. -/
def closing : List (Act Unit) := exchange.drop 14 ++ [.conn (.returns true)]

theorem graceful_close_exchange :
    ∃ s t : Whole (RingBuffer.circular UInt8) Unit, (Whole.machine _ Unit ⟨0, 0, 0⟩ [7, 8]).Reach s ∧
      (Whole.machine _ Unit ⟨0, 0, 0⟩ [7, 8]).run s closing = some t ∧
      s.out.written = [] ∧ t.conn.pc = .done ∧ .remoteClose ∈ t.conn.log ∧ t.out.written = [1, 2, 3] ∧
      Incoming.takenBytes t.inn.session.offers = [7, 8] := by
  obtain ⟨s, hr, hp⟩ := Machine.reach_of_run
    (m := Whole.machine (RingBuffer.circular UInt8) Unit ⟨0, 0, 0⟩ [7, 8]) (exchange.take 14)
    (fun s => decide (s.conn.pc.configured = true ∧ s.out.sender.gone = true ∧
      s.conn.stopDropped = false ∧ s.out.writer.failed = false ∧ s.inn.pc.failed = false ∧
      s.out.written = [] ∧ s.out.accepted = [1, 2, 3] ∧
      (Whole.machine (RingBuffer.circular UInt8) Unit ⟨0, 0, 0⟩ [7, 8]).Along Healthy s closing) &&
      ((Whole.machine (RingBuffer.circular UInt8) Unit ⟨0, 0, 0⟩ [7, 8]).run s closing).any
        fun t : Whole (RingBuffer.circular UInt8) Unit => decide (t.conn.pc = .done))
    (by decide +kernel)
  obtain ⟨hs, ht⟩ := Bool.and_eq_true_iff.mp hp
  obtain ⟨hstart, hg, hstop, hw, hrd, hwr, hacc, hal⟩ := of_decide_eq_true hs
  obtain ⟨t, hrun, ht⟩ := (Option.any_eq_true _ _).mp ht
  have hdone := of_decide_eq_true ht
  obtain ⟨-, -, hend⟩ := graceful_close _ _ _ _ s t _ hr hstart hg ⟨hstop, hw, hrd⟩ hal hrun
  obtain ⟨hrem, hout, hin⟩ := hend hdone
  exact ⟨s, t, hr, hrun, hwr, hdone, hrem, hout.trans hacc, hin⟩

end SocketManager.Duplex
