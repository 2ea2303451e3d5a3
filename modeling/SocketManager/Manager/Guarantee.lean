import SocketManager.Lib.Rank
import SocketManager.Manager.Arbitration

/-! "Either `OnConnect` or `OnConnectError` will be called, but not both. And after `OnConnect` is called,
    `OnConnectionClose` is guaranteed to be called." (lib.rs)

    The tasks of a connection only go forward, so each of them takes a bounded number of steps; and
    there are two places only where it may have to wait for somebody else:

        await config      the user holds the `Conn` and has not decided, or is about to
        join loop         a half that is not over, and no stop signal

    Everywhere else a step is enabled, until the last callback has returned. -/

namespace SocketManager.Manager
variable {A : Type} {c c' : Conn A} {b : ConnAct A}

/-! ### Going forward -/

/-- The way to go of the connecting task and the connection task. -/
def pcRank : Pc → Nat
  | .unborn => 18
  | .connecting => 17
  | .onConnect => 16
  | .inOnConnect => 15
  | .awaitConfig => 14
  | .spawnWriter => 13
  | .spawnReader => 12
  | .insert => 11
  | .join false false => 10
  | .inRemoteClose false => 9
  | .join true false => 8
  | .inRemoteClose true => 7
  | .join _ true => 6
  | .remove => 5
  | .closing => 4
  | .inClose => 3
  | .inConnectError => 1
  | .failed | .done | .panicked => 0

theorem pcRank_le (pc : Pc) : pcRank pc ≤ 18 := by
  cases pc with
  | join ws rs => cases ws <;> cases rs <;> simp [pcRank]
  | inRemoteClose ws => cases ws <;> simp [pcRank]
  | _ => simp [pcRank]

theorem pcRank_lt (h : c.TaskStep b c') : pcRank c'.pc < pcRank c.pc := by
  cases h with
  | @joinStop ws rs hp => cases ws <;> cases rs <;> simp [hp, pcRank]
  | @writerPolledAgain rs hp | @writerErr rs _ hp => cases rs <;> simp [hp, pcRank]
  | @readerPolledAgain ws hp | @readerOk ws hp | @readerErr ws _ hp => cases ws <;> simp [hp, pcRank]
  | _ => simp_all [pcRank]

/-- A step of the connecting task or the connection task, or the return of a callback of theirs. -/
def ConnAct.ofTask : ConnAct A → Bool
  | .connect | .connected _ | .connectFails | .accept _ | .task | .returns _ => true
  | .joinStop | .joinWriter | .joinReader => true
  | .reader _ | .writer _ | .start | .close | .user _ | .dropHandle | .dropStopper => false

theorem taskStep_of_ofTask (hb : b.ofTask = true) (hs : c.step b = some c') : c.TaskStep b c' := by
  cases Conn.step_cases hs with
  | task hm => exact hm
  | user hm => cases hm <;> cases hb
  | msg _ | reader _ | writer _ => cases hb

theorem counted_task : (Conn.machine A).Counted (fun _ _ => True) (fun _ => True) ConnAct.ofTask
    (fun c => pcRank c.pc) where
  keeps _ _ _ _ _ _ := trivial
  le _ _ _ _ _ hs := by
    cases Conn.step_cases hs with
    | task hm => exact (pcRank_lt hm).le
    | user hm => rw [hm.frame.1]
    | msg _ | reader _ | writer _ => exact le_rfl
  lt _ _ _ _ _ hb hs := pcRank_lt (taskStep_of_ofTask hb hs)

/-! ### Where a task may wait -/

/-- `inner` is in the user's hands: he holds the `Conn`, and once the exchange of `consumed` was won, the
    winner has not taken it yet. -/
def Undecided (c : Conn A) : Prop :=
  c.handle = true ∧ (c.consumed = true → ∃ call ∈ c.calls, call.takes = true)

def UndecidedInv (c : Conn A) : Prop := c.inner = true → c.pc = .onConnect ∨ Undecided c

theorem UndecidedInv.user (h : UndecidedInv c) (hm : c.UserStep b c') : UndecidedInv c' := by
  intro hi
  cases hm with
  | start hu hc => exact .inr ⟨hu, fun _ => ⟨.startTake, by simp, rfl⟩⟩
  | close hu hc => exact .inr ⟨hu, fun _ => ⟨.closeTake c.started, by simp, rfl⟩⟩
  | startRefused | dropStopper => exact h hi
  | closeConsumed hu hc =>
    refine (h hi).imp_right fun hd => ⟨hu, fun hcons => ?_⟩
    obtain ⟨call, hmem, ht⟩ := hd.2 hcons
    exact ⟨call, List.mem_append_left _ hmem, ht⟩
  | startOk | startErr | closeTake | dropHandle => cases hi
  | unwrapFails _ hn => rw [show c.inner = true from hi] at hn; cases hn
  | @closeReturned i late hc =>
    refine (h hi).imp_right fun hd => ⟨hd.1, fun hcons => ?_⟩
    obtain ⟨call, hmem, ht⟩ := hd.2 hcons
    obtain ⟨j, hj⟩ := List.mem_iff_getElem?.mp hmem
    refine ⟨call, List.mem_eraseIdx_iff_getElem?.mpr ⟨j, ?_, hj⟩, ht⟩
    rintro rfl
    obtain rfl := Option.some.inj (hj.symm.trans hc)
    cases ht

theorem UndecidedInv.move (h : UndecidedInv c) (hh : HandleInv c) (hm : c.Move b c') :
    UndecidedInv c' := by
  cases hm with
  | task hm =>
    intro hi
    cases hm with
    | connected | accept => exact .inl rfl
    | onConnect hp =>
      have hbefore := hh.before (by rw [hp]; rfl)
      exact .inr ⟨rfl, fun hc => by rw [hbefore.2.1] at hc; cases hc⟩
    | connect hp | connectFails hp | configured hp | unconfigured hp | spawnWriter hp
    | spawnReader hp | insert hp | remove hp | closing hp | errorReturned hp | connectOk hp
    | connectErr hp | remoteReturned hp | remoteReturnedLast hp | closeReturned hp | joinStop hp
    | writerPolledAgain hp | writerOk hp | writerOkLast hp | writerErr hp | readerPolledAgain hp
    | readerOk hp | readerErr hp =>
      exact .inr ((h hi).resolve_left (by simp [hp]))
  | user hm => exact h.user hm
  | msg _ | reader _ | writer _ => exact h

theorem reach_undecidedInv (hr : (Conn.machine A).Reach c) : UndecidedInv c := by
  refine Machine.Path.invariant_of_reach (I := UndecidedInv) hr (fun hi => by cases hi) ?_
  exact fun _ _ _ hrt _ h hs => h.move (reach_handleInv hrt) (Conn.step_cases hs)

/-- The join loop ends before both halves are over. -/
theorem reach_join (hr : (Conn.machine A).Reach c) : c.pc ≠ .join true true := by
  refine hr.invariant (I := fun c => c.pc ≠ .join true true) (by simp [Conn.machine, Conn.unborn]) ?_
  intro c b c' h hs
  cases Conn.step_cases hs with
  | task hm => cases hm <;> simp
  | user hm => rw [hm.frame.1]; exact h
  | msg _ | reader _ | writer _ => exact h

/-- What a connection task waits for. -/
inductive Waiting (c : Conn A) : Prop where
  /-- For the user to start the connection, to close it or to drop the `Conn`. -/
  | config (hp : c.pc = .awaitConfig) (hs : c.configSent = false) (hi : c.inner = true)
      (hu : Undecided c)
  /-- For a half to end, or for a stop signal. -/
  | half (ws rs : Bool) (hp : c.pc = .join ws rs) (hone : ws = false ∨ rs = false)
      (hs : c.stopDropped = false) (hw : ws = false → ∀ res, c.writer.st ≠ .finished res)
      (hr : rs = false → ∀ res, c.reader.st ≠ .finished res)

/-- No step of the tasks is enabled. -/
def Blocked (c : Conn A) : Prop := ∀ b, b.ofTask = true → c.step b = none

theorem blocked_of_taskStep (h : ∀ b c', c.TaskStep b c' → False) : Blocked c := by
  intro b hb
  rw [Option.eq_none_iff_forall_ne_some]
  exact fun c' hs => h b c' (taskStep_of_ofTask hb hs)

theorem blocked_of_over (h : c.pc = .failed ∨ c.pc = .done) : Blocked c := by
  refine blocked_of_taskStep fun b c' hm => ?_
  rcases h with hp | hp <;> cases hm <;> simp_all

theorem Waiting.blocked (hc : ConnInv c) (h : Waiting c) : Blocked c := by
  refine blocked_of_taskStep fun b c' hm => ?_
  have ht := hc.tasks
  cases h with
  | config hp hs hi hu => cases hm <;> simp_all
  | half ws rs hp hone hs hw hr =>
    rw [hp] at ht
    cases hm with
    | joinStop _ hstop => rw [hs] at hstop; cases hstop
    | writerPolledAgain hp' hagain | readerPolledAgain hp' hagain =>
      rw [hp, Pc.join.injEq] at hp'
      simp [Pc.Tasks, hagain, hp'] at ht
    | writerOk hp' _ hfin | writerOkLast hp' _ hfin | writerErr hp' _ hfin =>
      rw [hp, Pc.join.injEq] at hp'
      exact hw hp'.1 _ hfin
    | readerOk hp' _ hfin | readerErr hp' _ hfin =>
      rw [hp, Pc.join.injEq] at hp'
      exact hr hp'.2 _ hfin
    | _ => simp_all

/-- A task that can go no further has come to its end or waits. -/
theorem blocked_cases (hr : (Conn.machine A).Reach c) (h : Blocked c) :
    c.pc = .failed ∨ c.pc = .done ∨ Waiting c := by
  have hinv := reach_connInv hr
  have ht := hinv.tasks
  have htask := h .task rfl
  have hret := h (.returns true) rfl
  simp only [Conn.step] at htask hret
  cases hp : c.pc with
  | unborn =>
    have hconnect := h .connect rfl
    simp [Conn.step, hp] at hconnect
  | connecting =>
    have hfails := h .connectFails rfl
    simp [Conn.step, hp] at hfails
  | onConnect | spawnWriter | spawnReader | insert | remove | closing =>
    simp [Conn.taskStep, hp] at htask
  | inConnectError | inOnConnect | inRemoteClose | inClose => simp [Conn.returnsStep, hp] at hret
  | failed => exact .inl rfl
  | done => exact .inr (.inl rfl)
  | panicked => rw [hp] at ht; exact ht.elim
  | awaitConfig =>
    simp only [Conn.taskStep, hp] at htask
    split at htask
    · cases htask
    · rename_i hs
      split at htask
      · rename_i hi
        refine .inr (.inr (.config hp (by simpa using hs) hi ?_))
        exact (reach_undecidedInv hr hi).resolve_left (by simp [hp])
      · cases htask
  | join ws rs =>
    rw [hp] at ht
    obtain ⟨hwt, hrt, -⟩ := ht
    have hstop := h .joinStop rfl
    have hjw := h .joinWriter rfl
    have hjr := h .joinReader rfl
    simp only [Conn.step, Conn.joinStop, Conn.joinWriter, Conn.joinReader, hp] at hstop hjw hjr
    refine .inr (.inr (.half ws rs hp ?_ (by simpa using hstop) ?_ ?_))
    · have hne := reach_join hr
      rw [hp] at hne
      cases ws <;> cases rs <;> simp_all
    · rintro rfl res hres
      simp only [hwt, hres] at hjw
      cases res <;> cases hjw
    · rintro rfl res hres
      simp only [hrt, hres] at hjr
      cases res <;> cases hjr

/-- The guarantee of lib.rs, with what it rests on. The tasks of a connection take 18 steps at most in
    every run, whatever the user, the two halves and the registry do between them. They can go no
    further exactly in three cases: `OnConnectError` was the only event; `OnConnect` was delivered and
    `OnConnectionClose` after it, once; or a task waits for the user's decision or for a half. -/
theorem connect_guarantee (A : Type) (c c' : Conn A) (as : List (ConnAct A))
    (hr : (Conn.machine A).Reach c) (hrun : (Conn.machine A).run c as = some c') :
    as.countP ConnAct.ofTask ≤ 18 ∧
    (Blocked c' ↔ c'.pc = .failed ∨ c'.pc = .done ∨ Waiting c') ∧
    (c'.pc = .failed → callbacks c'.log = [.connectError]) ∧
    (c'.pc = .done → callbacks c'.log = [.connect, .connectionClose] ∨
      callbacks c'.log = [.connect, .remoteClose, .connectionClose]) := by
  have hr' := hr.trans (Machine.path_of_along (Machine.along_true _ as c) hrun)
  have hev := (reach_connInv hr').events
  obtain ⟨-, hcount⟩ := counted_task.countP_le trivial (Machine.along_true _ as c) hrun
  have hle := pcRank_le c.pc
  refine ⟨by omega, ⟨blocked_cases hr', ?_⟩, fun hp => ?_, fun hp => ?_⟩
  · rintro (hp | hp | hw)
    · exact blocked_of_over (.inl hp)
    · exact blocked_of_over (.inr hp)
    · exact hw.blocked (reach_connInv hr')
  · rw [hp] at hev; exact hev
  · rw [hp] at hev; exact hev

/-- The user lets the `Conn` go without a decision. -/
theorem connect_guarantee_dropped : ∃ c c' : Conn Nat, (Conn.machine Nat).Reach c ∧
    c.pc = .awaitConfig ∧
    (Conn.machine Nat).run c [.dropHandle, .task, .task, .returns true] = some c' ∧ Blocked c' ∧
    callbacks c'.log = [.connect, .connectionClose] := by
  obtain ⟨c, hr, hp⟩ := Machine.reach_of_run (m := Conn.machine Nat)
    [.connect, .connected (0, 1), .task, .returns true]
    (fun c => decide (c.pc = .awaitConfig) &&
      ((Conn.machine Nat).run c [.dropHandle, .task, .task, .returns true]).any fun c' : Conn Nat =>
        decide (c'.pc = .done ∧ .remoteClose ∉ c'.log)) (by decide +kernel)
  obtain ⟨hpc, hrun⟩ := Bool.and_eq_true_iff.mp hp
  obtain ⟨c', hrun, hdone⟩ := (Option.any_eq_true _ _).mp hrun
  obtain ⟨hdone, hrem⟩ := of_decide_eq_true hdone
  obtain ⟨-, hblock, -, hlog⟩ := connect_guarantee Nat c c' _ hr hrun
  refine ⟨c, c', hr, of_decide_eq_true hpc, hrun, hblock.mpr (.inr (.inl hdone)), ?_⟩
  refine (hlog hdone).resolve_right fun h => hrem ?_
  have hmem : Event.remoteClose ∈ callbacks c'.log := by rw [h]; simp
  exact (List.mem_filter.mp hmem).1

end SocketManager.Manager
