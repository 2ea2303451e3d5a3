import SocketManager.Duplex.Graceful
import SocketManager.Transfer.Link

/-! Both ends of a connection, each a whole one: its connection task, its two spawned tasks with their
    futures, its user with the `Conn` and the `MsgSender`. What the writer's socket of one end takes is
    on its way to the reader's socket of the other.

        left                                    right
        user ─▶ writer ═══════ network ═══════▶ reader ─▶ on_msg
        on_msg ◀─ reader ◀═════ network ══════════ writer ◀─ user

    Neither end sees anything of the other but the bytes and the end of the stream. An end is therefore
    a connection over a stream that is not known yet, and whatever holds of a connection over any stream
    holds of it: at every moment it is in a state it could be in over the stream that the other writer
    has produced so far, with any bytes behind it (`reach_whole`). -/

namespace SocketManager.Transfer
open Manager Duplex
variable {R : RingBuffer UInt8} {A : Type}

/-- The ends. -/
inductive Side where
  | left
  | right
  deriving DecidableEq

def Side.other : Side → Side
  | .left => .right
  | .right => .left

@[simp] theorem Side.other_other (i : Side) : i.other.other = i := by cases i <;> rfl

theorem Side.eq_or (i j : Side) : j = i ∨ j = i.other := by cases i <;> cases j <;> simp [Side.other]

/-- Both ends. -/
structure Peers (R : RingBuffer UInt8) (A : Type) where
  left : Whole R A
  right : Whole R A

namespace Peers

def side (s : Peers R A) : Side → Whole R A
  | .left => s.left
  | .right => s.right

instance : CoeFun (Peers R A) fun _ => Side → Whole R A := ⟨side⟩

/-- The ends, from one of them and the other. -/
def of (w other : Whole R A) : Side → Peers R A
  | .left => ⟨w, other⟩
  | .right => ⟨other, w⟩

@[simp] theorem of_side (w other : Whole R A) (i : Side) : of w other i i = w := by cases i <;> rfl

@[simp] theorem of_other (w other : Whole R A) (i : Side) : of w other i i.other = other := by
  cases i <;> rfl

end Peers

/-- More of the stream is on its way to an end. -/
def supply (w : Whole R A) (bytes : List UInt8) : Whole R A := { w with inn := feed w.inn bytes }

namespace Peers

/-- A step of one end. Its socket gives the end of the stream only after the other end has sent it. -/
def step (config : Side → ConnConfig) (s : Peers R A) : Side × Duplex.Act A → Option (Peers R A)
  | (i, a) =>
    if readsEnd a = true ∧ finSent (s i.other).out.writer = false then none
    else ((s i).step (config i) a).map fun w =>
      of w (supply (s i.other) (w.out.written.drop (s i).out.written.length)) i

/-- A new connection. -/
def machine (R : RingBuffer UInt8) (A : Type) (config : Side → ConnConfig) :
    Machine (Peers R A) (Side × Duplex.Act A) :=
  ⟨⟨(Whole.machine R A (config .left) []).init, (Whole.machine R A (config .right) []).init⟩, step config⟩

/-- What `on_msg` of an end consumed. -/
def consumed (s : Peers R A) (i : Side) : List UInt8 := Incoming.takenBytes (s i).inn.session.offers

end Peers

/-! ### A stream that grows -/

section
variable {config : ConnConfig} {more : List UInt8}

theorem advance_supplied {t : Incoming.Session} {e : Incoming.Event}
    {p : Incoming.Session × Option Incoming.Done} (hfut : Incoming.FutOk t)
    (ha : t.advance e = some p) (hend : p.1.eof = true → more = []) :
    Incoming.Session.advance { t with rest := t.rest ++ more } e =
      some ({ p.1 with rest := p.1.rest ++ more }, p.2) := by
  obtain ⟨f, hf, hm⟩ := Incoming.Session.advance_cases ha
  cases hm with
  | full hw =>
    simp only [Incoming.Session.advance, hf, hw, if_true]; rfl
  | startRead hw =>
    simp only [Incoming.Session.advance, hf, hw, if_false, Incoming.Session.startRead]
    split <;> rfl
  | sliceIndex hlt hle =>
    simp only [Incoming.Session.advance, hf, hlt, hle, if_true, if_false]; rfl
  | @flushed k pos fin hge =>
    simp only [Incoming.Session.advance, hf, hge, if_false, Incoming.Session.flushed]
    split
    · cases k with
      | fillFlush => simp only [Incoming.Session.startRead]; split <;> rfl
      | flush => rfl
    · rfl
  | @written k pos fin res hlt hle =>
    simp only [Incoming.Session.advance, hf, hlt, hle, and_self, if_true]
    cases res with
    | ok n => simp only [Incoming.Session.written]; split <;> rfl
    | _ => rfl
  | unpark | readErr =>
    simp only [Incoming.Session.advance, hf]; rfl
  | @readOk n hn =>
    obtain ⟨hlen, hrest, hzero⟩ := of_decide_eq_true hn
    have hlt : t.rw.wOffset < t.rw.len := by simpa [Incoming.FutOk, hf] using hfut
    -- a read of nothing is the end of the stream, and nothing may come behind it
    have hnil : n = 0 → more = [] := by
      intro hn0
      refine hend ?_
      simp [Incoming.Session.finish, hn0, hlt]
    simp only [Incoming.Session.advance, hf, List.take_append_of_le_length hrest,
      List.drop_append_of_le_length hrest]
    refine (if_pos (decide_eq_true ⟨hlen, ?_, fun hn0 => (hzero hn0).imp_right fun hr => ?_⟩)).trans rfl
    · simp only [List.length_append]; omega
    · simp [hr, hnil hn0]

theorem resume_feed (r : Incoming.Reader) (p : Incoming.Session × Option Incoming.Done) :
    Incoming.resume config (feed r more) ({ p.1 with rest := p.1.rest ++ more }, p.2) =
      feed (Incoming.resume config r p) more := by
  obtain ⟨t, d⟩ := p
  cases d with
  | none => rfl
  | some d =>
    cases d with
    | filled n => simp only [Incoming.resume, Incoming.awaited]; split <;> rfl
    | flushed =>
      by_cases hl : r.pc = .lastFlush <;> simp only [Incoming.resume, Incoming.awaited, feed, hl] <;> rfl
    | _ => rfl

theorem eof_resumed {r : Incoming.Reader} {p : Incoming.Session × Option Incoming.Done}
    (he : p.1.eof = true) : (Incoming.resume config r p).session.eof = true := by
  unfold Incoming.resume
  split
  · exact he
  · exact (Incoming.grows_awaited _).eof he

/-- The reader does not look ahead. -/
theorem step_feed {r r' : Incoming.Reader} {a : Incoming.Act} (hfut : Incoming.FutOk r.session)
    (hs : Incoming.step config r a = some r') (hend : r'.session.eof = true → more = []) :
    Incoming.step config (feed r more) a = some (feed r' more) := by
  have hadv : ∀ {e p}, r.session.advance e = some p → r' = Incoming.resume config r p →
      ((feed r more).session.advance e).map (Incoming.resume config (feed r more)) =
        some (feed r' more) := by
    rintro e p hp rfl
    have hp' := advance_supplied hfut hp fun he => hend (eof_resumed he)
    exact Option.map_eq_some_iff.mpr ⟨_, hp', resume_feed r p⟩
  unfold Incoming.step at hs ⊢
  split at hs
  · cases hs
  · rename_i haw
    rw [if_neg (show ¬ (feed r more).pc.awaits = none from haw)]
    cases a with
    | poll | readErr | readOk n =>
      obtain ⟨p, hp, hr⟩ := Option.map_eq_some_iff.mp hs
      exact hadv hp hr.symm
    | onMsg err cbResult =>
      simp only [Incoming.onMsg] at hs ⊢
      rw [show (feed r more).session.fut = r.session.fut from rfl]
      split at hs
      · split at hs
        · rename_i hle
          rw [if_pos (show _ ∧ _ ≤ (feed r more).session.rw.len from hle)]
          rw [show (feed r more).session.rw = r.session.rw from rfl]
          split at hs
          · obtain ⟨p, hp, hr⟩ := Option.map_eq_some_iff.mp hs
            exact hadv hp hr.symm
          · obtain rfl := Option.some.inj hs; rfl
        · cases hs
      · cases hs
    | tick =>
      simp only at hs ⊢
      split at hs
      · rename_i hc
        obtain rfl := Option.some.inj hs
        exact if_pos hc
      · cases hs

/-- Nor does the rest of the end. -/
theorem step_supply {w w' : Whole R A} {a : Duplex.Act A} (hfut : Incoming.FutOk w.inn.session)
    (hs : w.step config a = some w') (hend : w'.inn.session.eof = true → more = []) :
    (supply w more).step config a = some (supply w' more) := by
  cases step_cases hs with
  | @conn b conn hok hc =>
    have hok' : (supply w more).pollOk b = true := by
      cases b with
      | reader b => cases b <;> exact hok
      | writer b => cases b <;> exact hok
      | _ => rfl
    simp only [Whole.step, hok', if_true]
    rw [show (supply w more).conn = w.conn from rfl, hc]; rfl
  | @sender b out hu hc ho =>
    simp only [Whole.step]
    rw [if_pos (show _ ∧ _ ∈ (supply w more).conn.log from ⟨hu, hc⟩)]
    rw [show (supply w more).out = w.out from rfl, ho]; rfl
  | @writer b out hu hok ho =>
    simp only [Whole.step]
    rw [if_pos (show _ ∧ (supply w more).writerOk b = true from ⟨hu, hok⟩)]
    rw [show (supply w more).out = w.out from rfl, ho]; rfl
  | @onMsg err cbResult conn inn hc hi =>
    have hi' := step_feed hfut hi hend
    have hc' : (supply w more).conn.readerStep .msgReturns = some conn := hc
    simp only [Whole.step, hc', Option.bind_some]
    rw [show (supply w more).inn = feed w.inn more from rfl, hi']; rfl
  | @reader b inn hp hi =>
    have hi' := step_feed hfut hi hend
    have hp' : (supply w more).conn.reader.st = .polling := hp
    cases b with
    | onMsg err cbResult =>
      obtain ⟨conn, hc, -⟩ := Option.bind_eq_some_iff.mp hs
      simp [Conn.readerStep, Task.step, hp] at hc
    | _ =>
      simp only [Whole.step, hp', if_true]
      rw [show (supply w more).inn = feed w.inn more from rfl, hi']; rfl

end

/-! ### One end by itself -/

theorem supply_nil (w : Whole R A) : supply w [] = w := by
  simp [supply, feed]

theorem supply_supply (w : Whole R A) (xs ys : List UInt8) :
    supply (supply w xs) ys = supply w (xs ++ ys) := by
  simp [supply, feed]

section
variable {config : Side → ConnConfig} {s s' : Peers R A} {i : Side} {a : Duplex.Act A}

/-- What a step does to the two ends. -/
theorem Peers.step_cases (hs : Peers.step config s (i, a) = some s') :
    (s i).step (config i) a = some (s' i) ∧
    s' i.other = supply (s i.other) ((s' i).out.written.drop (s i).out.written.length) ∧
    (readsEnd a = true → finSent (s i.other).out.writer = true) := by
  simp only [Peers.step] at hs
  split at hs
  · cases hs
  · rename_i hend
    obtain ⟨w, hw, rfl⟩ := Option.map_eq_some_iff.mp hs
    refine ⟨by simpa using hw, by simp, fun hr => ?_⟩
    simpa [hr] using hend

/-- A step of one end writes on, and the writer that returns writes nothing more. -/
theorem written_step {config : ConnConfig} {w w' : Whole R A} (hw : Outgoing.Inv w.out)
    (hs : w.step config a = some w') :
    w.out.written <+: w'.out.written ∧ (w.out.writer.running = false →
      w'.out.writer.running = false ∧ w'.out.written = w.out.written) := by
  cases Duplex.step_cases hs with
  | sender _ _ ho | writer _ _ ho =>
    obtain ⟨_, hle⟩ := Outgoing.pipe_step hw ho
    exact ⟨hle.2, fun hrun => Transfer.returning_step ho hrun⟩
  | _ => exact ⟨List.prefix_rfl, fun hrun => ⟨hrun, rfl⟩⟩

/-- Only a read of nothing reports the end of the stream. -/
theorem eof_whole {config : ConnConfig} {w w' : Whole R A} (hs : w.step config a = some w')
    (ha : readsEnd a = false) : w'.inn.session.eof = w.inn.session.eof := by
  cases Duplex.step_cases hs with
  | @onMsg err cbResult _ _ _ hi => exact eof_step hi (by simp)
  | @reader b _ _ hi => exact eof_step hi (by rintro rfl; cases ha)
  | _ => rfl

theorem eof_grows {config : ConnConfig} {w w' : Whole R A} (hs : w.step config a = some w')
    (he : w.inn.session.eof = true) : w'.inn.session.eof = true := by
  cases Duplex.step_cases hs with
  | onMsg _ hi | reader _ hi => exact (Incoming.grows_step hi).eof he
  | _ => exact he

/-- An end of a connection, over a stream that the other end goes on with. -/
structure Peers.Ok (config : Side → ConnConfig) (s : Peers R A) (i : Side) : Prop where
  whole : ∀ more, ((s i).inn.session.eof = true → more = []) →
    (Whole.machine R A (config i) ((s i.other).out.written ++ more)).Reach (supply (s i) more)
  fin : (s i).inn.session.eof = true → (s i.other).out.writer.running = false

/-- The end as it is, over the stream as it is. -/
theorem Peers.Ok.reach (h : s.Ok config i) :
    (Whole.machine R A (config i) (s i.other).out.written).Reach (s i) := by
  have hr := h.whole [] fun _ => rfl
  rwa [supply_nil, List.append_nil] at hr

theorem Peers.machine_init (config : Side → ConnConfig) (i : Side) :
    (Peers.machine R A config).init i = (Whole.machine R A (config i) []).init := by
  cases i <;> rfl

theorem Peers.ok_init (config : Side → ConnConfig) (i : Side) :
    (Peers.machine R A config).init.Ok config i := by
  refine ⟨fun more _ => ?_, fun he => ?_⟩
  · have hinit : supply (Whole.machine R A (config i) []).init more =
        (Whole.machine R A (config i) more).init := by
      simp only [Whole.machine, supply, feed, Incoming.handleReader]
      split <;> rfl
    rw [machine_init, machine_init, hinit]
    exact .refl
  · rw [machine_init] at he
    simp only [Whole.machine, Incoming.handleReader] at he
    split at he <;> cases he

theorem Peers.Ok.step {j : Side} (h : ∀ i, s.Ok config i)
    (hs : Peers.step config s (j, a) = some s') (i : Side) : s'.Ok config i := by
  obtain ⟨hw, hother, hend⟩ := Peers.step_cases hs
  obtain ⟨hgrow, hstop⟩ := written_step (Outgoing.reach_inv (path_out (h j).reach)) hw
  rcases Side.eq_or j i with rfl | rfl
  · -- the end that moves
    have hfut := (Incoming.reach_readerOk (path_inn (h i).reach)).ok.fut
    have hout : (s' i.other).out = (s i.other).out := by rw [hother]; rfl
    refine ⟨fun more hmore => ?_, fun he => ?_⟩
    · rw [hout]
      exact ((h i).whole more fun he => hmore (eof_grows hw he)).tail trivial
        (step_supply hfut hw hmore)
    · rw [hout]
      cases ha : readsEnd a with
      | true => exact finSent_running (hend ha)
      | false => exact (h i).fin (eof_whole hw ha ▸ he)
  · -- the end whose stream grows
    obtain ⟨bytes, hbytes⟩ := hgrow
    have hdrop : (s' j).out.written.drop (s j).out.written.length = bytes := by
      rw [← hbytes, List.drop_left]
    rw [hdrop] at hother
    have hfin := (h j.other).fin
    rw [Side.other_other] at hfin
    refine ⟨fun more hmore => ?_, fun he => ?_⟩
    · rw [hother] at hmore ⊢
      have hr := (h j.other).whole (bytes ++ more) fun he => by
        have hnil : bytes = [] := by
          rw [← hdrop, (hstop (hfin he)).2, List.drop_length]
        rw [hnil, hmore he]; rfl
      rw [Side.other_other] at hr ⊢
      rwa [supply_supply, ← hbytes, List.append_assoc]
    · rw [hother] at he
      rw [Side.other_other]
      exact (hstop (hfin he)).1

theorem reach_peers (hr : (Peers.machine R A config).Reach s) (i : Side) : s.Ok config i :=
  hr.invariant (I := fun s => ∀ i, s.Ok config i) (Peers.ok_init config)
    (fun _ _ _ h hs => Peers.Ok.step h hs) i

/-- An end of a connection is a connection: what holds of a whole connection over any stream holds of
    it, over what the writer of the other end has written. -/
theorem reach_whole (hr : (Peers.machine R A config).Reach s) (i : Side) :
    (Whole.machine R A (config i) (s i.other).out.written).Reach (s i) := (reach_peers hr i).reach

/-! ### What an end knows of the other -/

/-- Why a writer writes no more: every byte of every call was written, or its socket failed, or its end
    was stopped, or the reader there failed, or the connection ended there before it was started. -/
theorem writing_over {config : ConnConfig} {incoming : List UInt8} {w : Whole R A}
    (hr : (Whole.machine R A config incoming).Reach w) (hrun : w.out.writer.running = false) :
    (w.out.sender = .dropped ∧ w.out.written = w.out.calls.flatMap Outgoing.Call.accepted) ∨
    returning w.out.writer = some .err ∨ w.conn.stopDropped = true ∨ w.inn.pc.failed = true ∨
    (w.conn.writer.st = .notSpawned ∧ w.conn.pc = .done) := by
  obtain ⟨res, hres⟩ : ∃ res, returning w.out.writer = some res := by
    cases hw : w.out.writer <;> rw [hw] at hrun <;> first | exact ⟨_, rfl⟩ | cases hrun
  cases res with
  | ok =>
    refine .inl (written_all hr ?_)
    cases hw : w.out.writer <;> rw [hw] at hres <;> cases hres <;> rfl
  | err => exact .inr (.inl hres)
  | aborted =>
    rcases (reach_agree hr).aborted hres with hab | hn
    · exact .inr (.inr (((reach_cause hr).writer hab).imp_right .inl))
    · exact .inr (.inr (.inr (.inr hn)))

/-- A writer that writes no more stays so, and the events stay delivered. -/
theorem over_path {ok : Peers R A → Side × Duplex.Act A → Prop} {t : Peers R A}
    (hr : (Peers.machine R A config).Reach s) (hp : (Peers.machine R A config).Path ok s t) (i : Side)
    (hrun : (s i.other).out.writer.running = false) :
    (t i.other).out.written = (s i.other).out.written ∧ (s i).conn.log <+: (t i).conn.log := by
  refine (hp.invariant (I := fun u => (Peers.machine R A config).Reach u ∧
    (u i.other).out.writer.running = false ∧ (u i.other).out.written = (s i.other).out.written ∧
      (s i).conn.log <+: (u i).conn.log) ⟨hr, hrun, rfl, List.prefix_rfl⟩ ?_).2.2
  rintro u ⟨j, a⟩ v - ⟨hu, hrun, hw, hl⟩ hs
  obtain ⟨hstep, hother, -⟩ := Peers.step_cases hs
  refine ⟨hu.tail trivial hs, ?_⟩
  rcases Side.eq_or i j with rfl | rfl
  · rw [hother]; exact ⟨hrun, hw, hl.trans (persists_step hstep).log⟩
  · obtain ⟨hrun', hw'⟩ :=
      (written_step (Outgoing.reach_inv (path_out (reach_whole hu i.other))) hstep).2 hrun
    rw [Side.other_other] at hother
    rw [hother]; exact ⟨hrun', hw'.trans hw, hl⟩

end

/-- What the events of one end say about the other. `on_msg` has consumed a prefix of what the calls of
    the other end's sender accepted. `OnRemoteClose` is delivered when it has consumed all that the
    other writer wrote, which then writes nothing more; and unless the other end was stopped, failed or
    was never started, that is every byte of every call, and the sender there is dropped. When both ends
    were started and closed with neither stopped nor failed, both directions are complete. -/
theorem remoteClose_agreed (R : RingBuffer UInt8) (A : Type) (config : Side → ConnConfig)
    (s : Peers R A) (i : Side) (hr : (Peers.machine R A config).Reach s) :
    s.consumed i <+: (s i.other).out.accepted ∧
    (.remoteClose ∈ (s i).conn.log →
      s.consumed i = (s i.other).out.written ∧
      (∀ t, (Peers.machine R A config).Path (fun _ _ => True) s t →
        t.consumed i = s.consumed i ∧ (t i.other).out.written = (s i.other).out.written) ∧
      (((s i.other).out.sender = .dropped ∧
          s.consumed i = (s i.other).out.calls.flatMap Outgoing.Call.accepted) ∨
        returning (s i.other).out.writer = some .err ∨ (s i.other).conn.stopDropped = true ∨
        (s i.other).inn.pc.failed = true ∨
        ((s i.other).conn.writer.st = .notSpawned ∧ (s i.other).conn.pc = .done))) ∧
    ((∀ j, .connectionClose ∈ (s j).conn.log ∧ (s j).conn.writer.st ≠ .notSpawned ∧ (s j).Sound) →
      .remoteClose ∈ (s i).conn.log ∧
      s.consumed i = (s i.other).out.calls.flatMap Outgoing.Call.accepted) := by
  have hall : ∀ {u : Peers R A} {j : Side}, (Peers.machine R A config).Reach u →
      .remoteClose ∈ (u j).conn.log →
      (u j).inn.session.eof = true ∧ u.consumed j = (u j.other).out.written :=
    fun hu hc => (reader_drained (reach_whole hu _) hc).2
  refine ⟨?_, fun hc => ?_, fun hclosed => ?_⟩
  · -- consumed of what was written, written of what was accepted
    have hread := (Incoming.reach_readerOk (path_inn (reach_whole hr i))).ok.stream
    have hconsumed : s.consumed i <+: (s i.other).out.written := ⟨_, by
      rw [← hread, List.append_assoc]; rfl⟩
    exact hconsumed.trans (Outgoing.reach_inv (path_out (reach_whole hr i.other))).core.written
  · obtain ⟨heof, hcons⟩ := hall hr hc
    have hrun := (reach_peers hr i).fin heof
    refine ⟨hcons, fun t hp => ?_, ?_⟩
    · obtain ⟨hw, hlog⟩ := over_path hr hp i hrun
      exact ⟨(hall (hr.trans hp) (hlog.subset hc)).2.trans (hw.trans hcons.symm), hw⟩
    · rw [hcons]
      exact writing_over (reach_whole hr i.other) hrun
  · have hcomplete : ∀ j, .remoteClose ∈ (s j).conn.log ∧
        (s j).out.written = (s j).out.calls.flatMap Outgoing.Call.accepted := by
      intro j
      obtain ⟨hc, hsp, hstop, hw, hrd⟩ := hclosed j
      have hj := reach_whole hr j
      rcases reason_of_close hj hc hsp with hs | he | hf | ⟨hret, -, hrem⟩
      · rw [hstop] at hs; cases hs
      · rw [he] at hw; cases hw
      · rw [hrd] at hf; cases hf
      · exact ⟨hrem, (written_all hj (by rw [hret]; rfl)).2⟩
    obtain ⟨hrem, -⟩ := hcomplete i
    exact ⟨hrem, (hall hr hrem).2.trans (hcomplete i.other).2⟩

/-- An end is started, its user sends one message and drops the sender. -/
def starts (message : List UInt8) : List (Duplex.Act Unit) :=
  [.conn .connect, .conn (.connected ((), ())), .conn .task, .sender (.call (.sendBlock message)),
    .sender .sender, .conn .start, .conn (.user 0), .conn (.returns true), .conn .task, .conn .task,
    .conn .task, .conn .task, .sender .dropSender, .sender .sender, .conn (.writer .poll)]

def writes : List (Duplex.Act Unit) :=
  (Outgoing.sendAndDrop.drop 4).map .writer ++ [.conn (.writer (.finish .ok))]

def reads : List (Duplex.Act Unit) :=
  [.conn (.reader .poll), .reader .poll, .reader (.readOk 2), .reader .poll, .reader (.readOk 1),
    .reader .poll, .reader (.readOk 0), .conn (.reader .msg), .reader (.onMsg none 2),
    .conn (.reader .msg), .reader (.onMsg none 1), .reader .poll, .conn (.reader (.finish .ok))]

def closes : List (Duplex.Act Unit) :=
  [.conn .joinReader, .conn (.returns true), .conn .joinWriter, .conn .task, .conn .task,
    .conn (.returns true)]

/-- Three bytes each way, and both ends close. -/
def converse : List (Side × Duplex.Act Unit) :=
  (starts [1, 2, 3]).map (.left, ·) ++ (starts [4, 5, 6]).map (.right, ·) ++ writes.map (.left, ·) ++
    reads.map (.right, ·) ++ writes.map (.right, ·) ++ reads.map (.left, ·) ++
    closes.map (.left, ·) ++ closes.map (.right, ·)

theorem remoteClose_agreed_converse :
    ∃ s : Peers (RingBuffer.circular UInt8) Unit,
      (Peers.machine _ Unit fun _ => ⟨0, 0, 0⟩).Reach s ∧
      .remoteClose ∈ (s .left).conn.log ∧ s.consumed .left = (s .right).out.written ∧
      s.consumed .left = [4, 5, 6] ∧ s.consumed .right = [1, 2, 3] := by
  obtain ⟨s, hr, hp⟩ := Machine.reach_of_run
    (m := Peers.machine (RingBuffer.circular UInt8) Unit fun _ => ⟨0, 0, 0⟩) converse
    (fun s => [Side.left, .right].all fun i => decide (.connectionClose ∈ (s i).conn.log ∧
      (s i).conn.writer.st = .finished .ok ∧ (s i).conn.stopDropped = false ∧
      (s i).out.writer.failed = false ∧ (s i).inn.pc.failed = false ∧
      (s i).out.calls.flatMap Outgoing.Call.accepted = if i = .left then [1, 2, 3] else [4, 5, 6]))
    (by decide +kernel)
  simp only [List.all_cons, List.all_nil, Bool.and_true, Bool.and_eq_true, decide_eq_true_eq] at hp
  obtain ⟨⟨hcl, hwl, hsl, hfl, hrl, hall⟩, hcr, hwr, hsr, hfr, hrr, halr⟩ := hp
  have hclosed : ∀ j, .connectionClose ∈ (s j).conn.log ∧ (s j).conn.writer.st ≠ .notSpawned ∧
      (s j).Sound := by
    rintro (_ | _)
    · exact ⟨hcl, by rw [hwl]; simp, hsl, hfl, hrl⟩
    · exact ⟨hcr, by rw [hwr]; simp, hsr, hfr, hrr⟩
  obtain ⟨-, hrem, hboth⟩ := remoteClose_agreed _ _ _ s .left hr
  obtain ⟨-, -, hother⟩ := remoteClose_agreed _ _ _ s .right hr
  obtain ⟨hc, hcons⟩ := hboth hclosed
  exact ⟨s, hr, hc, (hrem hc).1, hcons.trans halr, (hother hclosed).2.trans hall⟩

end SocketManager.Transfer
