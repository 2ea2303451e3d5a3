import SocketManager.Manager.Conn

/-! What one step of a connection can do. `step_cases` lists the moves of its tasks and of its user
    with the guard of each. -/

namespace SocketManager.Manager
variable {A : Type} {c c' : Conn A}

/-- What the runtime can do with a task, apart from a call of `on_msg`. -/
inductive TaskMove (t : Task) : Task → Prop where
  | poll (hs : t.st = .idle) (ha : t.aborted = false) : TaskMove t { t with st := .polling }
  | msgReturns (hs : t.st = .inMsg) : TaskMove t { t with st := .polling }
  | park (hs : t.st = .polling) (ha : t.aborted = false) : TaskMove t { t with st := .idle }
  | cut (hs : t.st = .polling) (ha : t.aborted = true) :
      TaskMove t { t with st := .finished .joinErr }
  | finish {res} (hs : t.st = .polling) : TaskMove t { t with st := .finished res }
  | cancel (hs : t.st = .idle) (ha : t.aborted = true) :
      TaskMove t { t with st := .finished .joinErr }

theorem Task.step_cases {t t' : Task} {a : TaskAct} (ha : a ≠ .msg) (h : t.step a = some t') :
    TaskMove t t' := by
  cases a with
  | msg => exact absurd rfl ha
  | poll =>
    simp only [Task.step] at h
    split at h
    · rename_i hc
      obtain rfl := Option.some.inj h; exact .poll hc.1 hc.2
    · cases h
  | msgReturns =>
    simp only [Task.step] at h
    split at h
    · rename_i hc
      obtain rfl := Option.some.inj h; exact .msgReturns hc
    · cases h
  | pending =>
    simp only [Task.step] at h
    split at h
    · rename_i hc
      obtain rfl := Option.some.inj h
      split
      · rename_i hab
        exact .cut hc hab
      · rename_i hab
        exact .park hc (by simpa using hab)
    · cases h
  | finish res =>
    simp only [Task.step] at h
    split at h
    · rename_i hc
      obtain rfl := Option.some.inj h; exact .finish hc
    · cases h
  | cancel =>
    simp only [Task.step] at h
    split at h
    · rename_i hc
      obtain rfl := Option.some.inj h; exact .cancel hc.1 hc.2
    · cases h

namespace Conn

/-- The steps of the connecting task and the connection task, with their guards. -/
inductive TaskStep (c : Conn A) : ConnAct A → Conn A → Prop where
  | connect (hp : c.pc = .unborn) : TaskStep c .connect (c.goto .connecting)
  | connected (key : A × A) (hp : c.pc = .connecting) :
      TaskStep c (.connected key) (c.handleConnection key false)
  | connectFails (hp : c.pc = .connecting) :
      TaskStep c .connectFails ((c.goto .inConnectError).event .connectError)
  | accept (key : A × A) (hp : c.pc = .unborn) :
      TaskStep c (.accept key) (c.handleConnection key true)
  | onConnect (hp : c.pc = .onConnect) :
      TaskStep c .task ({ c with handle := true, pc := .inOnConnect }.event .connect)
  | configured (hp : c.pc = .awaitConfig) (hc : c.configSent = true) :
      TaskStep c .task (c.goto .spawnWriter)
  | unconfigured (hp : c.pc = .awaitConfig) (hc : c.configSent = false) (hi : c.inner = false) :
      TaskStep c .task { c with configRx := false, pc := .closing }
  | spawnWriter (hp : c.pc = .spawnWriter) :
      TaskStep c .task { c with writer := .spawn, pc := .spawnReader }
  | spawnReader (hp : c.pc = .spawnReader) :
      TaskStep c .task { c with reader := .spawn, pc := .insert }
  | insert (hp : c.pc = .insert) : TaskStep c .task (c.goto (.join false false))
  | remove (hp : c.pc = .remove) : TaskStep c .task (c.goto .closing)
  | closing (hp : c.pc = .closing) : TaskStep c .task ((c.goto .inClose).event .connectionClose)
  | errorReturned {ok} (hp : c.pc = .inConnectError) : TaskStep c (.returns ok) (c.goto .failed)
  | connectOk (hp : c.pc = .inOnConnect) :
      TaskStep c (.returns true) ((c.goto .awaitConfig).event (.connectReturned true))
  | connectErr (hp : c.pc = .inOnConnect) :
      TaskStep c (.returns false)
        ({ c with configRx := false, pc := .closing }.event (.connectReturned false))
  | remoteReturned {ok} (hp : c.pc = .inRemoteClose false) :
      TaskStep c (.returns ok) (c.goto (.join false true))
  | remoteReturnedLast {ok} (hp : c.pc = .inRemoteClose true) :
      TaskStep c (.returns ok) (c.goto .remove)
  | closeReturned {ok} (hp : c.pc = .inClose) : TaskStep c (.returns ok) (c.goto .done)
  | joinStop {ws rs} (hp : c.pc = .join ws rs) (hs : c.stopDropped = true) :
      TaskStep c .joinStop
        { c with writer := c.writer.abort, reader := c.reader.abort, pc := .remove }
  | writerPolledAgain {rs} (hp : c.pc = .join false rs) (ht : c.writer.taken = true) :
      TaskStep c .joinWriter (c.goto .panicked)
  | writerOk (hp : c.pc = .join false false) (ht : c.writer.taken = false)
      (hw : c.writer.st = .finished .ok) :
      TaskStep c .joinWriter { c with writer := c.writer.take, pc := .join true false }
  | writerOkLast (hp : c.pc = .join false true) (ht : c.writer.taken = false)
      (hw : c.writer.st = .finished .ok) :
      TaskStep c .joinWriter { c with writer := c.writer.take, pc := .remove }
  | writerErr {rs res} (hp : c.pc = .join false rs) (ht : c.writer.taken = false)
      (hw : c.writer.st = .finished res) :
      TaskStep c .joinWriter
        { c with writer := c.writer.take, reader := c.reader.abort, pc := .remove }
  | readerPolledAgain {ws} (hp : c.pc = .join ws false) (ht : c.reader.taken = true) :
      TaskStep c .joinReader (c.goto .panicked)
  | readerOk {ws} (hp : c.pc = .join ws false) (ht : c.reader.taken = false)
      (hr : c.reader.st = .finished .ok) :
      TaskStep c .joinReader
        ({ c with reader := c.reader.take, pc := .inRemoteClose ws }.event .remoteClose)
  | readerErr {ws res} (hp : c.pc = .join ws false) (ht : c.reader.taken = false)
      (hr : c.reader.st = .finished res) :
      TaskStep c .joinReader
        { c with reader := c.reader.take, writer := c.writer.abort, pc := .remove }

/-- What the user's calls and the registry do. -/
inductive UserStep (c : Conn A) : ConnAct A → Conn A → Prop where
  | start (hu : c.handle = true) (hc : c.consumed = false) :
      UserStep c .start { c with consumed := true, calls := c.calls ++ [.startTake] }
  | startRefused (hu : c.handle = true) (hc : c.consumed = true) :
      UserStep c .start (c.event .startErr)
  | close (hu : c.handle = true) (hc : c.consumed = false) :
      UserStep c .close
        ({ c with consumed := true, calls := c.calls ++ [Call.closeTake c.started] }.event
          .closeCalled)
  | closeConsumed (hu : c.handle = true) (hc : c.consumed = true) :
      UserStep c .close
        ({ c with calls := c.calls ++ [Call.closeRemove c.started] }.event .closeCalled)
  | startOk {i} (hc : c.calls[i]? = some .startTake) (hi : c.inner = true)
      (hrx : c.configRx = true) :
      UserStep c (.user i)
        ({ c with inner := false, configSent := true, calls := c.calls.eraseIdx i }.event .startOk)
  | startErr {i} (hc : c.calls[i]? = some .startTake) (hi : c.inner = true)
      (hrx : c.configRx = false) :
      UserStep c (.user i) ({ c with inner := false, calls := c.calls.eraseIdx i }.event .startErr)
  | closeTake {i late} (hc : c.calls[i]? = some (.closeTake late)) (hi : c.inner = true) :
      UserStep c (.user i) { c with inner := false, calls := c.calls.set i (.closeRemove late) }
  | unwrapFails {i call} (hc : c.calls[i]? = some call) (hi : c.inner = false)
      (hn : ∀ late, call ≠ .closeRemove late) :
      UserStep c (.user i) { c with unwrapFailed := true, calls := c.calls.eraseIdx i }
  | closeReturned {i late} (hc : c.calls[i]? = some (.closeRemove late)) :
      UserStep c (.user i) ({ c with calls := c.calls.eraseIdx i }.event (.closeReturned late))
  | dropHandle (hu : c.handle = true) (hc : c.calls = []) :
      UserStep c .dropHandle { c with handle := false, inner := false }
  | dropStopper : UserStep c .dropStopper c.dropStopper

/-- A step of a connection, by who takes it. -/
inductive Move (c : Conn A) : ConnAct A → Conn A → Prop where
  | task {b : ConnAct A} {c' : Conn A} (h : TaskStep c b c') : Move c b c'
  | user {b : ConnAct A} {c' : Conn A} (h : UserStep c b c') : Move c b c'
  | msg (hs : c.reader.st = .polling) :
      Move c (.reader .msg) ({ c with reader := { c.reader with st := .inMsg } }.event .msg)
  | reader {a : TaskAct} {t : Task} (h : TaskMove c.reader t) :
      Move c (.reader a) { c with reader := t }
  | writer {a : TaskAct} {t : Task} (h : TaskMove c.writer t) :
      Move c (.writer a) { c with writer := t }

theorem taskStep_cases (h : c.taskStep = some c') : TaskStep c .task c' := by
  unfold taskStep at h
  split at h
  · rename_i hp
    obtain rfl := Option.some.inj h; exact .onConnect hp
  · rename_i hp
    split at h
    · rename_i hc
      obtain rfl := Option.some.inj h; exact .configured hp hc
    · rename_i hc
      split at h
      · cases h
      · rename_i hi
        obtain rfl := Option.some.inj h
        exact .unconfigured hp (by simpa using hc) (by simpa using hi)
  · rename_i hp
    obtain rfl := Option.some.inj h; exact .spawnWriter hp
  · rename_i hp
    obtain rfl := Option.some.inj h; exact .spawnReader hp
  · rename_i hp
    obtain rfl := Option.some.inj h; exact .insert hp
  · rename_i hp
    obtain rfl := Option.some.inj h; exact .remove hp
  · rename_i hp
    obtain rfl := Option.some.inj h; exact .closing hp
  · cases h

theorem returnsStep_cases {ok : Bool} (h : c.returnsStep ok = some c') :
    TaskStep c (.returns ok) c' := by
  unfold returnsStep at h
  split at h
  · rename_i hp
    obtain rfl := Option.some.inj h; exact .errorReturned hp
  · rename_i hp
    cases ok with
    | true => obtain rfl := Option.some.inj h; exact .connectOk hp
    | false => obtain rfl := Option.some.inj h; exact .connectErr hp
  · rename_i ws hp
    obtain rfl := Option.some.inj h
    cases ws with
    | false => exact .remoteReturned hp
    | true => exact .remoteReturnedLast hp
  · rename_i hp
    obtain rfl := Option.some.inj h; exact .closeReturned hp
  · cases h

theorem joinStop_cases (h : c.joinStop = some c') : TaskStep c .joinStop c' := by
  unfold joinStop at h
  split at h
  · rename_i hp
    split at h
    · rename_i hs
      obtain rfl := Option.some.inj h; exact .joinStop hp hs
    · cases h
  · cases h

theorem joinWriter_cases (h : c.joinWriter = some c') : TaskStep c .joinWriter c' := by
  unfold joinWriter at h
  split at h
  · rename_i rs hp
    split at h
    · rename_i ht
      obtain rfl := Option.some.inj h; exact .writerPolledAgain hp ht
    · rename_i ht
      have ht : c.writer.taken = false := by simpa using ht
      split at h
      · rename_i hw
        obtain rfl := Option.some.inj h
        cases rs with
        | false => exact .writerOk hp ht hw
        | true => exact .writerOkLast hp ht hw
      · rename_i hw
        obtain rfl := Option.some.inj h; exact .writerErr hp ht hw
      · cases h
  · cases h

theorem joinReader_cases (h : c.joinReader = some c') : TaskStep c .joinReader c' := by
  unfold joinReader at h
  split at h
  · rename_i ws hp
    split at h
    · rename_i ht
      obtain rfl := Option.some.inj h; exact .readerPolledAgain hp ht
    · rename_i ht
      have ht : c.reader.taken = false := by simpa using ht
      split at h
      · rename_i hr
        obtain rfl := Option.some.inj h; exact .readerOk hp ht hr
      · rename_i hr
        obtain rfl := Option.some.inj h; exact .readerErr hp ht hr
      · cases h
  · cases h

theorem readerStep_cases {a : TaskAct} (h : c.readerStep a = some c') : Move c (.reader a) c' := by
  unfold readerStep at h
  split at h
  · obtain ⟨t, ht, rfl⟩ := Option.map_eq_some_iff.mp h
    simp only [Task.step] at ht
    split at ht
    · rename_i hs
      obtain rfl := Option.some.inj ht; exact .msg hs
    · cases ht
  · rename_i ha
    obtain ⟨t, ht, rfl⟩ := Option.map_eq_some_iff.mp h
    exact .reader (Task.step_cases ha ht)

theorem writerStep_cases {a : TaskAct} (h : c.writerStep a = some c') : Move c (.writer a) c' := by
  unfold writerStep at h
  split at h
  · cases h
  · rename_i ha
    obtain ⟨t, ht, rfl⟩ := Option.map_eq_some_iff.mp h
    exact .writer (Task.step_cases ha ht)

theorem start_cases (h : c.start = some c') : UserStep c .start c' := by
  unfold start at h
  split at h
  · rename_i hu
    split at h <;> (rename_i hc; obtain rfl := Option.some.inj h)
    · exact .startRefused hu hc
    · exact .start hu (by simpa using hc)
  · cases h

theorem close_cases (h : c.close = some c') : UserStep c .close c' := by
  unfold close at h
  split at h
  · rename_i hu
    split at h <;> (rename_i hc; obtain rfl := Option.some.inj h)
    · exact .closeConsumed hu hc
    · exact .close hu (by simpa using hc)
  · cases h

theorem user_cases {i : Nat} (h : c.user i = some c') : UserStep c (.user i) c' := by
  unfold user at h
  split at h
  · rename_i hc
    obtain rfl := Option.some.inj h
    unfold startTake
    split
    · rename_i hi
      split
      · rename_i hrx
        exact .startOk hc hi hrx
      · rename_i hrx
        exact .startErr hc hi (by simpa using hrx)
    · rename_i hi
      exact .unwrapFails hc (by simpa using hi) (by simp)
  · rename_i hc
    obtain rfl := Option.some.inj h
    unfold closeTake
    split
    · rename_i hi
      exact .closeTake hc hi
    · rename_i hi
      exact .unwrapFails hc (by simpa using hi) (by simp)
  · rename_i hc
    obtain rfl := Option.some.inj h; exact .closeReturned hc
  · cases h

/-- A step of a connection is one of the moves. -/
theorem step_cases {a : ConnAct A} (h : c.step a = some c') : Move c a c' := by
  cases a with
  | connect =>
    simp only [step] at h
    split at h
    · rename_i hp
      obtain rfl := Option.some.inj h; exact .task (.connect hp)
    · cases h
  | connected key =>
    simp only [step] at h
    split at h
    · rename_i hp
      obtain rfl := Option.some.inj h; exact .task (.connected key hp)
    · cases h
  | connectFails =>
    simp only [step] at h
    split at h
    · rename_i hp
      obtain rfl := Option.some.inj h; exact .task (.connectFails hp)
    · cases h
  | accept key =>
    simp only [step] at h
    split at h
    · rename_i hp
      obtain rfl := Option.some.inj h; exact .task (.accept key hp)
    · cases h
  | task => exact .task (taskStep_cases h)
  | returns ok => exact .task (returnsStep_cases h)
  | joinStop => exact .task (joinStop_cases h)
  | joinWriter => exact .task (joinWriter_cases h)
  | joinReader => exact .task (joinReader_cases h)
  | reader a => exact readerStep_cases h
  | writer a => exact writerStep_cases h
  | start => exact .user (start_cases h)
  | close => exact .user (close_cases h)
  | user i => exact .user (user_cases h)
  | dropHandle =>
    simp only [step] at h
    split at h
    · rename_i hu
      obtain rfl := Option.some.inj h; exact .user (.dropHandle hu.1 hu.2)
    · cases h
  | dropStopper =>
    obtain rfl := Option.some.inj h; exact .user .dropStopper

end Conn

end SocketManager.Manager
