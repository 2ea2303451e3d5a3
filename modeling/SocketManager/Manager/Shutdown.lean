import SocketManager.Manager.Join

/-! What becomes of the open connections when the manager is aborted. `stop_all` only drops their
    stoppers; to close, a connection task must be polled again, leave its join loop and call back.
    But `main` returns right after `stop_all`, and the runtime is shut down:

        main    Abort ── stop_all ── return ── shutdown ── stopped ── join returns
        task      join loop ··············· dropped at its await, no OnConnectionClose

    A connection is still closed if its task is in the middle of a poll when the shutdown begins and
    has already left the join loop: then it awaits nothing before its last callback. -/

namespace SocketManager.Manager
variable {A : Type} {c c' : Conn A} {b : ConnAct A}

/-! ### One connection during the shutdown -/

/-- The join loop is left, and nothing is awaited before `OnConnectionClose`. -/
def Pc.leaving : Pc → Bool
  | .inRemoteClose true | .remove | .closing => true
  | _ => false

/-- The shutdown leaves the connection as it should be: its task will not open it, and closes it in
    the poll that is under way. -/
structure Conn.Ends (c : Conn A) (polling : Bool) : Prop where
  leaving : c.pc.opened = true → polling = true ∧ c.pc.leaving = true
  unpolled : c.pc = .onConnect → polling = false

theorem Conn.Ends.congr {polling : Bool} (h : c.Ends polling) (hpc : c'.pc = c.pc) :
    c'.Ends polling := by
  refine ⟨?_, ?_⟩ <;> rw [hpc]
  · exact h.leaving
  · exact h.unpolled

theorem Conn.Ends.task (h : c.Ends true) (hm : c.TaskStep b c') (hb : b.own = true) :
    c'.Ends true := by
  have hl := h.leaving
  cases hm with
  | connect | connected | accept => cases hb
  | onConnect hp => cases h.unpolled hp
  | connectFails | errorReturned | closing | closeReturned => exact ⟨nofun, nofun⟩
  | remove hp | remoteReturnedLast hp => exact ⟨fun _ => ⟨rfl, rfl⟩, nofun⟩
  | configured hp | unconfigured hp | spawnWriter hp | spawnReader hp | insert hp | connectOk hp
  | connectErr hp | remoteReturned hp | joinStop hp | writerPolledAgain hp | writerOk hp
  | writerOkLast hp | writerErr hp | readerPolledAgain hp | readerOk hp | readerErr hp =>
    rw [hp] at hl
    cases (hl rfl).2

theorem Conn.Ends.unpoll {polling : Bool} (h : c.Ends polling) :
    c.Ends (polling && !c.pc.ended) := by
  cases he : c.pc.ended with
  | false => simpa using h
  | true =>
    cases hp : c.pc <;> rw [hp] at he <;> cases he <;> exact ⟨by simp [hp, Pc.opened], by simp [hp]⟩

/-- Only its task moves a connection. -/
theorem Conn.Move.taskStep_or_pc (hm : c.Move b c') : c.TaskStep b c' ∨ c'.pc = c.pc := by
  cases hm with
  | task h => exact .inl h
  | user h => exact .inr h.frame.1
  | msg _ | reader _ | writer _ => exact .inr rfl

/-! ### The whole runtime during the shutdown -/

namespace Runtime
variable {fl : Flavour} {s s' : Runtime A} {m : State A} {i : Nat}

def AllEnd (s : Runtime A) : Prop := ∀ i, (s.manager.conns i).Ends (s.polling i)

/-- The connection task takes a step in a poll only. -/
theorem polling_of_allows (hm : c.TaskStep b c') (hb : b.own = true)
    (ha : s.allows fl (.conn i b) = true) : s.polling i = true := by
  cases hm with
  | connect | connected | accept => cases hb
  | _ =>
    simp only [allows, Bool.and_eq_true] at ha
    exact ha.2

theorem unpoll_of_ne {j : Nat} (hj : j ≠ i) : s.unpoll m (.conn i b) j = s.polling j := by
  cases b with
  | returns ok => exact Function.update_of_ne hj ..
  | _ => rfl

theorem unpoll_self : s.unpoll m (.conn i b) i = s.polling i ∨
    s.unpoll m (.conn i b) i = (s.polling i && !(m.conns i).pc.ended) := by
  cases b with
  | returns ok => exact .inr (Function.update_self ..)
  | _ => exact .inl rfl

/-- A connection that begins has a task that was not polled. -/
theorem AllEnd.begins (h : s.AllEnd) {k : Nat} (hpc : c.pc = .onConnect)
    (hm : m.conns = Function.update s.manager.conns k c) (j : Nat) :
    (m.conns j).Ends (Function.update s.polling k false j) := by
  rw [hm]
  rcases eq_or_ne j k with rfl | hj
  · rw [Function.update_self, Function.update_self]
    exact ⟨by simp [hpc, Pc.opened], fun _ => rfl⟩
  · rw [Function.update_of_ne hj, Function.update_of_ne hj]
    exact h j

theorem pc_of_spawn {key : A × A}
    (h : c.step (.connected key) = some c' ∨ c.step (.accept key) = some c') :
    c'.pc = .onConnect := by
  rcases h with h | h <;> simp only [Conn.step] at h <;> split at h
  · cases h; rfl
  · cases h
  · cases h; rfl
  · cases h

theorem phase_of_polls (h : s.polls fl = true) : s.phase = .blockOn := by
  simp only [polls, Bool.and_eq_true] at h
  exact phase_of_mainPolls h.1

theorem leaving_of_atRest {pc : Pc} (h : pc.atRest = true) : pc.leaving = false := by
  cases pc <;> first | rfl | cases h

/-- A task that is parked has an await before it. -/
theorem AllEnd.park (h : s.AllEnd) (hr : (s.manager.conns i).pc.atRest = true) (j : Nat) :
    (s.manager.conns j).Ends (Function.update s.polling i false j) := by
  rcases eq_or_ne j i with rfl | hj
  · rw [Function.update_self]
    refine ⟨fun ho => ?_, fun _ => rfl⟩
    have hl := ((h j).leaving ho).2
    rw [leaving_of_atRest hr] at hl; cases hl
  · rw [Function.update_of_ne hj]; exact h j

variable [DecidableEq A]

theorem AllEnd.conn (h : s.AllEnd) (ha : s.allows fl (.conn i b) = true)
    (hs : s.manager.step (.conn i b) = some m) (j : Nat) :
    (m.conns j).Ends (s.unpoll m (.conn i b) j) := by
  rcases step_like hs with ⟨i', b', c, hc, heq | ⟨-, hne⟩, hlike⟩ | ⟨hne, -⟩
  · cases heq
    have hlike := hlike j
    rcases eq_or_ne j i with rfl | hj
    · rw [Function.update_self] at hlike
      have hends : (m.conns j).Ends (s.polling j) := by
        refine Conn.Ends.congr ?_ hlike.pc
        rcases (Conn.step_cases hc).taskStep_or_pc with htask | hpc
        · have hown := (step_conn hs).1
          have hj := h j
          rw [polling_of_allows htask hown ha] at hj ⊢
          exact hj.task htask hown
        · exact (h j).congr hpc
      rcases unpoll_self (s := s) (m := m) (i := j) (b := b) with heq | heq <;> rw [heq]
      · exact hends
      · exact hends.unpoll
    · rw [Function.update_of_ne hj] at hlike
      rw [unpoll_of_ne hj]
      exact (h j).congr hlike.pc
  · exact absurd rfl (hne i b)
  · exact absurd rfl (hne i b)

theorem AllEnd.task {a : Act A} (h : s.AllEnd) (ha : s.allows fl a = true)
    (hs : s.manager.step a = some m) (j : Nat) : (m.conns j).Ends (s.unpoll m a j) := by
  cases State.step_cases hs with
  | conn => exact h.conn ha hs j
  | connect | listen | cancelListen | abort | clearConnections => cases ha
  | connected _ hc => exact h.begins (pc_of_spawn (.inl hc)) rfl j
  | accept _ _ hc => exact h.begins (pc_of_spawn (.inr hc)) rfl j
  | bindOk | bindFails | listenErrorReturned | acceptNoAddr | acceptFails | canceled => exact h j
  | @insertListener _ addr =>
    refine (h j).congr (congrArg Conn.pc ?_)
    exact congrFun (conns_removeListener addr).1 j

/-- A step that is not one of the connection task moves no connection. -/
theorem pc_of_not_task {t t' : State A} (hs : t.step (.conn i b) = some t')
    (hb : ∀ c c' : Conn A, ¬ c.TaskStep b c') (j : Nat) : (t'.conns j).pc = (t.conns j).pc := by
  rcases step_like hs with ⟨i', b', c, hc, heq | ⟨-, hne⟩, hlike⟩ | ⟨hne, -⟩
  · cases heq
    rw [(hlike j).pc]
    rcases eq_or_ne j i with rfl | hj
    · rw [Function.update_self]
      exact ((Conn.step_cases hc).taskStep_or_pc).resolve_left (hb _ _)
    · rw [Function.update_of_ne hj]
  · exact absurd rfl (hne i b)
  · exact absurd rfl (hne i b)

theorem main_conn {t t' : State A} (hs : t.step (.conn i b) = some t') : t'.main = t.main := by
  obtain ⟨-, hs⟩ := step_conn hs
  obtain ⟨c, -, rfl⟩ := Option.map_eq_some_iff.mp hs
  unfold State.access
  split <;> rfl

/-- A reader or writer that is dropped leaves everything else where it is. -/
theorem dropTask_frame {half : TaskAct → ConnAct A} (hhalf : half = .reader ∨ half = .writer)
    (h : s.dropTask i half = some s') :
    s'.phase = s.phase ∧ s'.polling = s.polling ∧ s'.manager.main = s.manager.main ∧
      ∀ j, (s'.manager.conns j).pc = (s.manager.conns j).pc := by
  obtain ⟨-, hphase, hpoll, m, hm, hfin⟩ := dropTask_path h
  have hb : ∀ (a : TaskAct) (c c' : Conn A), ¬ c.TaskStep (half a) c' := by
    intro a c c' ht
    rcases hhalf with rfl | rfl <;> cases ht
  refine ⟨hphase, hpoll, (main_conn hfin).trans (main_conn hm), fun j => ?_⟩
  exact (pc_of_not_task hfin (hb _) j).trans (pc_of_not_task hm (hb _) j)

theorem AllEnd.drop {half : TaskAct → ConnAct A} (h : s.AllEnd)
    (hhalf : half = .reader ∨ half = .writer) (hs : s.dropTask i half = some s') : s'.AllEnd := by
  obtain ⟨-, hpoll, -, hpc⟩ := dropTask_frame hhalf hs
  intro j
  rw [hpoll]
  exact (h j).congr (hpc j)

theorem AllEnd.step {a : RuntimeAct A} (h : s.AllEnd) (hp : s.phase ≠ .blockOn)
    (hs : s.step fl a = some s') : s'.AllEnd := by
  cases step_cases hs with
  | recv _ hm | clear hm | blockOnEnds hm => exact absurd (phase_of_mainPolls hm) hp
  | poll hm => exact absurd (phase_of_polls hm) hp
  | park _ _ hr => exact h.park hr
  | task ha hm => exact h.task ha hm
  | dropReader hd => exact h.drop (.inl rfl) hd
  | dropWriter hd => exact h.drop (.inr rfl) hd
  | stop => exact h

/-! ### When no task is polled any more -/

/-- The thread has ended, or it is the only one and `main` has received `Abort`. -/
def Still (fl : Flavour) (s : Runtime A) : Prop :=
  s.phase = .stopped ∨ fl = .currentThread ∧ s.manager.main ≠ .running

omit [DecidableEq A] in
theorem Still.runs (h : Still fl s) : s.runs fl = false ∧ s.polls fl = false := by
  rcases h with hp | ⟨rfl, hm⟩
  · refine ⟨?_, ?_⟩
    · cases fl <;> simp [Runtime.runs, hp]
    · simp [polls, mainPolls, hp]
  · simp [Runtime.runs, polls, hm]

/-- Only the users take steps then, and they move no connection. -/
theorem Still.task {a : Act A} (h : Still fl s) (ha : s.allows fl a = true)
    (hs : s.manager.step a = some m) :
    m.main = s.manager.main ∧ ∀ j, (m.conns j).pc = (s.manager.conns j).pc := by
  obtain ⟨hruns, hpolls⟩ := h.runs
  cases a with
  | conn i b =>
    refine ⟨main_conn hs, pc_of_not_task hs fun c c' ht => ?_⟩
    cases ht <;> simp [allows, hruns] at ha
  | connect | listen | cancelListen | abort | clearConnections => cases ha
  | _ => simp [allows, hruns] at ha

theorem step_cmd {t : State A} {cmd : Command A} (hm : t.main ≠ .running) :
    t.step cmd.act = none := by
  cases cmd <;> simp [Command.act, State.step, hm]

theorem Still.drop {half : TaskAct → ConnAct A} (h : Still fl s)
    (hhalf : half = .reader ∨ half = .writer) (hs : s.dropTask i half = some s') :
    Still fl s' ∧ ∀ j, (s'.manager.conns j).pc = (s.manager.conns j).pc := by
  obtain ⟨hphase, -, hmain, hpc⟩ := dropTask_frame hhalf hs
  refine ⟨?_, hpc⟩
  unfold Still
  rw [hphase, hmain]; exact h

theorem Still.step {a : RuntimeAct A} (h : Still fl s) (hs : s.step fl a = some s') :
    Still fl s' ∧ ∀ j, (s'.manager.conns j).pc = (s.manager.conns j).pc := by
  obtain ⟨hruns, hpolls⟩ := h.runs
  have hmain : s.mainPolls fl = true → fl = .currentThread ∧ s.manager.main ≠ .running := by
    intro hp
    refine h.resolve_left fun hstop => ?_
    rw [phase_of_mainPolls hp] at hstop; cases hstop
  cases step_cases hs with
  | recv _ hp hm => rw [step_cmd (hmain hp).2] at hm; cases hm
  | clear hp hm =>
    cases State.step_cases hm
    refine ⟨.inr ⟨(hmain hp).1, nofun⟩, fun j => ?_⟩
    rw [State.clearConnections_conns]
    split <;> rfl
  | blockOnEnds hp => exact ⟨.inr (hmain hp), fun _ => rfl⟩
  | poll hp => rw [hpolls] at hp; cases hp
  | park hp => rw [hruns] at hp; cases hp
  | task ha hm =>
    obtain ⟨hmain', hpc⟩ := h.task ha hm
    refine ⟨h.imp_right fun hc => ⟨hc.1, ?_⟩, hpc⟩
    rw [hmain']; exact hc.2
  | dropReader hd => exact h.drop (.inl rfl) hd
  | dropWriter hd => exact h.drop (.inr rfl) hd
  | stop => exact ⟨.inl rfl, fun _ => rfl⟩

/-! ### The condition -/

/-- Every open connection is about to be closed by the poll that is under way, and none is about to
    be opened. -/
def Ending (s : Runtime A) : Prop := ∀ i < s.manager.fresh,
  (IsOpen (s.manager.conns i) → s.polling i = true ∧ (s.manager.conns i).pc.leaving = true) ∧
    ((s.manager.conns i).pc = .onConnect → s.polling i = false)

/-- `block_on` ends in such a state, and the polls under way end within `SHUTDOWN_TIMEOUT`. -/
def Orderly (s : Runtime A) : RuntimeAct A → Prop
  | .blockOnEnds _ => s.Ending
  | .stop => ∀ i < s.manager.fresh, IsOpen (s.manager.conns i) → s.polling i = false
  | _ => True

/-- What the condition gives. -/
structure Closing (s : Runtime A) : Prop where
  ends : s.phase ≠ .blockOn → s.AllEnd
  closed : s.phase = .stopped → ∀ j, (s.manager.conns j).pc.opened = false

theorem allEnd_of_ending (hr : (Manager.machine A).Reach s.manager) (h : s.Ending) : s.AllEnd := by
  intro i
  have hiff := isOpen_iff (reach_connInv (reach_conn hr i))
  rcases lt_or_ge i s.manager.fresh with hi | hi
  · exact ⟨fun ho => (h i hi).1 (hiff.mpr ho), (h i hi).2⟩
  · have hp := fresh_unborn hr i hi
    exact ⟨by simp [hp, Pc.opened], by simp [hp]⟩

theorem Closing.step {a : RuntimeAct A} (h : s.Closing) (hr : (Manager.machine A).Reach s.manager)
    (hok : s.Orderly a) (hs : s.step fl a = some s') : s'.Closing := by
  rcases step_phase hs with hphase | ⟨⟨p, rfl⟩, hp, hp'⟩ | ⟨rfl, hp, hp'⟩
  · refine ⟨fun hne => ?_, fun hstop j => ?_⟩
    · rw [hphase] at hne
      exact (h.ends hne).step hne hs
    · rw [hphase] at hstop
      have hstill : Still fl s := .inl hstop
      rw [(hstill.step hs).2 j]
      exact h.closed hstop j
  · cases step_cases hs
    exact ⟨fun _ => allEnd_of_ending hr hok, nofun⟩
  · have hends := h.ends (by rw [hp]; nofun)
    cases step_cases hs
    refine ⟨fun _ => hends, fun _ j => ?_⟩
    by_contra ho
    have ho : (s.manager.conns j).pc.opened = true := by simpa using ho
    have hopen := (isOpen_iff (reach_connInv (reach_conn hr j))).mpr ho
    have hj : j < s.manager.fresh := by
      by_contra hge
      rw [fresh_unborn hr j (by omega)] at ho; cases ho
    have hpoll := ((hends j).leaving ho).1
    rw [hok j hj hopen] at hpoll; cases hpoll

end Runtime

/-! ### The calls that wait -/

/-- The call is documented to wait for the background thread. -/
def ApiCall.waits : ApiCall A → Bool
  | .join | .abort true => true
  | _ => false

namespace Shared
variable [DecidableEq A] {fl : Flavour} {s s' : Shared A} {a : SharedAct A}

/-- Every step of a run is as it should be: a call that loses the exchange does so when the thread
    has ended, and the runtime is shut down in an orderly way. -/
def Orderly (s : Shared A) : SharedAct A → Prop
  | .call _ => True
  | .next i => ∀ c ∈ s.calls[i]?, c.pc = .exchange → s.hasJoined = true → s.runtime.phase = .stopped
  | .background a => s.runtime.Orderly a

/-- A call that waits has returned. -/
def Joined (s : Shared A) : Prop :=
  ∃ c ∈ s.calls, c.call.waits = true ∧ ∃ res, c.pc = .returned res

/-- What the condition gives. -/
structure AbortInv (s : Shared A) : Prop where
  runtime : s.runtime.Closing
  waited : s.Joined → s.runtime.phase = .stopped

omit [DecidableEq A] in
theorem send_runtime (cmd : Command A) :
    (s.send cmd).runtime.manager = s.runtime.manager ∧
      (s.send cmd).runtime.polling = s.runtime.polling ∧
      (s.send cmd).runtime.phase = s.runtime.phase := by
  unfold send
  split <;> exact ⟨rfl, rfl, rfl⟩

omit [DecidableEq A] in
/-- A call does nothing in the background but send its command. -/
theorem next_runtime {i : Nat} {c : InCall A} (hn : Next s i c s') :
    s'.runtime.manager = s.runtime.manager ∧ s'.runtime.polling = s.runtime.polling ∧
      s'.runtime.phase = s.runtime.phase := by
  cases hn with
  | send => exact send_runtime _
  | _ => exact ⟨rfl, rfl, rfl⟩

theorem reach_manager {nThreads : Nat} (hr : (machine A nThreads).Reach s) :
    (Manager.machine A).Reach s.runtime.manager := by
  refine Machine.Path.project (f := fun s : Shared A => s.runtime.manager) hr ?_
  intro t a u _ hs
  cases step_cases hs with
  | call call => exact .refl
  | next hc hn => rw [(next_runtime hn).1]; exact .refl
  | background hr => exact Runtime.step_manager hr

omit [DecidableEq A] in
theorem Joined.next {i : Nat} {c : InCall A} (h : s'.Joined) (hn : Next s i c s')
    (hok : c.pc = .exchange → s.hasJoined = true → s.runtime.phase = .stopped) :
    s.Joined ∨ s.runtime.phase = .stopped := by
  obtain ⟨d, hd, hw, res, hp⟩ := h
  cases hn with
  | @send cmd _ hcmd =>
    have hcs := (send_frame (s := s) cmd).1
    rcases List.mem_or_eq_of_mem_set hd with hd | rfl
    · rw [hcs] at hd; exact .inl ⟨d, hd, hw, res, hp⟩
    · cases hcall : c.call with
      | abort wait => cases wait <;> simp_all [ApiCall.sent, ApiCall.waits]
      | join => rw [hcall] at hcmd; cases hcmd
      | _ => simp_all [ApiCall.waits]
  | lost hx hj => exact .inr (hok hx hj)
  | won hx hj | take hx =>
    rcases List.mem_or_eq_of_mem_set hd with hd | rfl
    · exact .inl ⟨d, hd, hw, res, hp⟩
    · cases hp
  | unwrapFails => exact .inl ⟨d, hd, hw, res, hp⟩
  | joined _ hs => exact .inr hs

omit [DecidableEq A] in
theorem Joined.call {call : ApiCall A} (h : Joined { s with calls := s.calls ++ [call.begin] }) :
    s.Joined := by
  obtain ⟨d, hd, hw, res, hp⟩ := h
  rcases List.mem_append.mp hd with hd | hd
  · exact ⟨d, hd, hw, res, hp⟩
  · obtain rfl := List.mem_singleton.mp hd
    obtain ⟨-, -, ⟨-, hpc⟩ | ⟨-, hpc⟩⟩ := begin_cases call <;> (rw [hpc] at hp; cases hp)

omit [DecidableEq A] in
theorem closing_congr {r r' : Runtime A} (h : r.Closing) (hm : r'.manager = r.manager)
    (hpoll : r'.polling = r.polling) (hp : r'.phase = r.phase) : r'.Closing := by
  refine ⟨fun hne i => ?_, fun hstop => ?_⟩
  · rw [hm, hpoll]; exact h.ends (hp ▸ hne) i
  · rw [hm]; exact h.closed (hp ▸ hstop)

theorem AbortInv.step (h : s.AbortInv) (hr : (Manager.machine A).Reach s.runtime.manager)
    (hok : s.Orderly a) (hs : s.step fl a = some s') : s'.AbortInv := by
  cases step_cases hs with
  | call call => exact ⟨h.runtime, fun hj => h.waited hj.call⟩
  | next hc hn =>
    obtain ⟨hm, hpoll, hp⟩ := next_runtime hn
    refine ⟨closing_congr h.runtime hm hpoll hp, fun hj => ?_⟩
    rw [hp]
    exact (hj.next hn (hok _ hc)).elim h.waited id
  | background hb =>
    exact ⟨h.runtime.step hr hok hb, fun hj => Runtime.step_stopped hb (h.waited hj)⟩

/-- Once no task is polled, no connection moves, whatever the users do. -/
theorem still_path {nThreads : Nat} (h : s.runtime.Still (startRuntime nThreads))
    (hp : (machine A nThreads).Path (fun _ _ => True) s s') (j : Nat) :
    (s'.runtime.manager.conns j).pc = (s.runtime.manager.conns j).pc := by
  have key : s'.runtime.Still (startRuntime nThreads) ∧
      (s'.runtime.manager.conns j).pc = (s.runtime.manager.conns j).pc := by
    refine hp.invariant (I := fun t => t.runtime.Still (startRuntime nThreads) ∧
      (t.runtime.manager.conns j).pc = (s.runtime.manager.conns j).pc) ⟨h, rfl⟩ ?_
    rintro t a u - ⟨hstill, hpc⟩ hs
    cases step_cases hs with
    | call call => exact ⟨hstill, hpc⟩
    | next hc hn =>
      obtain ⟨hm, -, hphase⟩ := next_runtime hn
      unfold Runtime.Still
      rw [hm, hphase]; exact ⟨hstill, hpc⟩
    | background hb =>
      obtain ⟨hstill', hpc'⟩ := hstill.step hb
      exact ⟨hstill', (hpc' j).trans hpc⟩
  exact key.2

/-- `main` receives `Abort`. -/
theorem recv_abort {queue : List (Command A)} (hq : s.runtime.queue = .abort :: queue)
    (hs : s.step fl (.background .recv) = some s') :
    s'.runtime.manager.main = .stopAll ∧
      s'.runtime.manager.conns = s.runtime.manager.conns := by
  obtain ⟨r, hr, rfl⟩ := Option.map_eq_some_iff.mp hs
  simp only [Runtime.step, hq] at hr
  split at hr
  · obtain ⟨m, hm, rfl⟩ := Option.map_eq_some_iff.mp hr
    cases State.step_cases hm
    exact ⟨rfl, rfl⟩
  · cases hr

instance {r : Runtime A} : ∀ a, Decidable (r.Orderly a)
  | .blockOnEnds _ => inferInstanceAs (Decidable (∀ i < r.manager.fresh, _ ∧ _))
  | .stop => inferInstanceAs (Decidable (∀ i < r.manager.fresh, _ → _))
  | .recv | .clear | .poll _ | .park _ | .task _ | .dropReader _ | .dropWriter _ => .isTrue trivial

instance : ∀ a, Decidable (s.Orderly a)
  | .call _ => .isTrue trivial
  | .next i => inferInstanceAs (Decidable (∀ c ∈ s.calls[i]?, _ → _ → _))
  | .background a => inferInstanceAs (Decidable (s.runtime.Orderly a))

/-- When a call that waits has returned, in a run whose steps all meet the condition, every connection
    that was opened has been closed. On the current-thread runtime `Abort` itself closes nothing:
    from its receipt on, whatever happens, the same connections stay open. -/
theorem abort_closes (A : Type) [DecidableEq A] (nThreads : Nat) :
    (∀ s, (machine A nThreads).Path Orderly init s → s.Joined →
      ∀ j, .connect ∈ (s.runtime.manager.conns j).log →
        .connectionClose ∈ (s.runtime.manager.conns j).log) ∧
    (startRuntime nThreads = .currentThread → ∀ s queue s' t, (machine A nThreads).Reach s →
      s.runtime.queue = .abort :: queue →
      s.step (startRuntime nThreads) (.background .recv) = some s' →
      (machine A nThreads).Path (fun _ _ => True) s' t →
      ∀ j, IsOpen (t.runtime.manager.conns j) ↔ IsOpen (s.runtime.manager.conns j)) := by
  refine ⟨fun s hp hj j hopen => ?_, ?_⟩
  · have hr : (machine A nThreads).Reach s := hp.mono fun _ _ _ => trivial
    have hinv : s.AbortInv := by
      refine Machine.Path.invariant_of_reach hp ⟨⟨nofun, nofun⟩, ?_⟩ ?_
      · rintro ⟨c, hc, -⟩; cases hc
      · intro t a u hr hok h hs
        exact h.step (reach_manager hr) hok hs
    by_contra hclose
    have hiff := isOpen_iff (reach_connInv (reach_conn (reach_manager hr) j))
    have hpc := hinv.runtime.closed (hinv.waited hj) j
    rw [hiff.mp ⟨hopen, hclose⟩] at hpc; cases hpc
  · intro hfl s queue s' t hr hq hs hp j
    obtain ⟨hmain, hconns⟩ := recv_abort hq hs
    have hstill : s'.runtime.Still (startRuntime nThreads) := .inr ⟨hfl, by rw [hmain]; nofun⟩
    have hpc := still_path hstill hp j
    rw [hconns] at hpc
    have hstep : (machine A nThreads).step s (.background .recv) = some s' := hs
    have hrt : (machine A nThreads).Reach t := (Machine.Path.tail hr trivial hstep).trans hp
    rw [isOpen_iff (reach_connInv (reach_conn (reach_manager hrt) j)),
      isOpen_iff (reach_connInv (reach_conn (reach_manager hr) j)), hpc]

/-- `connect_to_addr`, up to the join loop of the connection. -/
def connectOne : List (SharedAct Nat) :=
  [.call (.connectToAddr 2 0), .next 0, .background .recv, .background (.poll 0),
    .background (.task (.connected 0 (1, 2))), .background (.poll 0)] ++
  (([.conn 0 .task, .conn 0 .start, .conn 0 (.user 0), .conn 0 (.returns true), .conn 0 .task,
    .conn 0 .task, .conn 0 .task, .conn 0 .task] : List (Act Nat)).map
      fun a => .background (.task a)) ++ [.background (.park 0)]

/-- `abort(true)` up to its wait, and `main` up to its end. -/
def abortAll : List (SharedAct Nat) :=
  [.call (.abort true), .next 1, .next 1, .next 1, .background .recv, .background .clear,
    .background (.blockOnEnds false)]

/-- The manager was aborted and joined, and connection 0 was opened but never closed. -/
def LeftOpen (s : Shared Nat) : Prop :=
  s.runtime.manager.stopAllRan = true ∧ s.Joined ∧ s.runtime.phase = .stopped ∧
    .connect ∈ (s.runtime.manager.conns 0).log ∧
    .connectionClose ∉ (s.runtime.manager.conns 0).log

theorem leftOpen_threads : ∀ nThreads ∈ [1, 4], ∃ s, (machine Nat nThreads).Reach s ∧ LeftOpen s := by
  have key : ∀ nThreads ∈ [1, 4], ((machine Nat nThreads).run init
      (connectOne ++ abortAll ++ [.background .stop, .next 1])).any
      (fun s => decide (s.runtime.manager.stopAllRan = true ∧
        s.calls[1]? = some (⟨.abort true, .returned (.ok ()), true⟩ : InCall Nat) ∧
        s.runtime.phase = .stopped ∧ .connect ∈ (s.runtime.manager.conns 0).log ∧
        .connectionClose ∉ (s.runtime.manager.conns 0).log)) = true := by
    decide +kernel
  intro nThreads hn
  obtain ⟨s, hr, hs⟩ := (machine Nat nThreads).reach_of_run _ _ (key nThreads hn)
  obtain ⟨hran, hc, hphase, hopen, hclose⟩ := of_decide_eq_true hs
  exact ⟨s, hr, hran, ⟨_, List.mem_of_getElem? hc, rfl, _, rfl⟩, hphase, hopen, hclose⟩

/-- A connection that is in its join loop when the manager is aborted is never closed, with one thread
    or with several. -/
theorem abort_leaves_open : (∃ s, (machine Nat 1).Reach s ∧ LeftOpen s) ∧
    ∃ s, (machine Nat 4).Reach s ∧ LeftOpen s :=
  ⟨leftOpen_threads 1 (by simp), leftOpen_threads 4 (by simp)⟩

/-- A connection whose task has left the join loop when `main` returns is closed. -/
theorem abort_closes_leaving : ∃ s : Shared Nat, (machine Nat 4).Path Orderly init s ∧ s.Joined ∧
    .connect ∈ (s.runtime.manager.conns 0).log ∧
    .connectionClose ∈ (s.runtime.manager.conns 0).log := by
  obtain ⟨s, hp, hs⟩ := (machine Nat 4).path_of_guarded_run Orderly
    (connectOne ++ [.background (.task (.conn 0 (.writer .poll))),
      .background (.task (.conn 0 (.writer (.finish .err)))), .background (.poll 0),
      .background (.task (.conn 0 .joinWriter))] ++ abortAll ++
      [.background (.task (.conn 0 .task)), .background (.task (.conn 0 .task)),
        .background .stop, .next 1])
    (fun s => decide (s.calls[1]? = some (⟨.abort true, .returned (.ok ()), true⟩ : InCall Nat) ∧
      .connect ∈ (s.runtime.manager.conns 0).log)) (by decide +kernel)
  obtain ⟨hc, hopen⟩ := of_decide_eq_true hs
  have hj : s.Joined := ⟨_, List.mem_of_getElem? hc, rfl, _, rfl⟩
  exact ⟨s, hp, hj, hopen, (abort_closes Nat 4).1 s hp hj 0 hopen⟩

end Shared

end SocketManager.Manager
