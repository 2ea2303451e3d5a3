import SocketManager.Incoming.Finish
import SocketManager.Outgoing.Finish

/-! One direction of a connection between two programs that both use the library: the sender and the
    writer task of the one, the TCP stream, the reader task and `on_msg` of the other.

        calls ─▶ rings ─▶ writer ─▶ socket ═══ network ═══▶ socket ─▶ reader ─▶ on_msg
        └────────── tx ──────────┘                          └────────── rx ──────────┘

    The network is what the writer's socket took and the reader's socket has not given yet. It delivers
    in order and in pieces of any size, or fails; the end of the stream comes when nothing is under way
    any more and the write half was shut down or dropped. -/

namespace SocketManager.Transfer

/-- Both ends of one direction. -/
structure Link (R : RingBuffer UInt8) where
  tx : Outgoing.State R
  rx : Incoming.Reader

inductive Act where
  | tx (a : Outgoing.Act)
  | rx (a : Incoming.Act)
  deriving DecidableEq

/-- More of the stream is on its way to the reader. -/
def feed (r : Incoming.Reader) (bytes : List UInt8) : Incoming.Reader :=
  { r with session := { r.session with rest := r.session.rest ++ bytes } }

/-- The end of the stream was sent: `write.shutdown()` succeeded, or the write half was dropped. -/
def finSent : Outgoing.WriterPc → Bool
  | .unwind _ .ok | .unwindWake _ .ok | .returned _ => true
  | _ => false

variable {R : RingBuffer UInt8} {ctx crx : ConnConfig} {s s' : Link R}

namespace Link

/-- What the writer's socket takes is on its way; the reader's socket gives the end of the stream only
    after it was sent. -/
def step (ctx crx : ConnConfig) (s : Link R) : Act → Option (Link R)
  | .tx a => (Outgoing.step ctx s.tx a).map fun tx =>
      ⟨tx, feed s.rx (tx.written.drop s.tx.written.length)⟩
  | .rx a =>
    if a = .readOk 0 ∧ finSent s.tx.writer = false then none
    else (Incoming.step crx s.rx a).map fun rx => { s with rx }

/-- A new connection. -/
def machine (R : RingBuffer UInt8) (ctx crx : ConnConfig) : Machine (Link R) Act :=
  ⟨⟨Outgoing.makeSender, Incoming.handleReader crx []⟩, step ctx crx⟩

/-- What `on_msg` consumed. -/
def consumed (s : Link R) : List UInt8 := Incoming.takenBytes s.rx.session.offers

end Link

/-! ### The sending side -/

theorem path_tx {ok : Link R → Act → Prop} {ok' : Outgoing.State R → Outgoing.Act → Prop}
    (hok : ∀ s a, ok s (.tx a) → ok' s.tx a) (hp : (Link.machine R ctx crx).Path ok s s') :
    (Outgoing.machine R ctx).Path ok' s.tx s'.tx := by
  refine hp.project fun t a u ha hs => ?_
  cases a with
  | tx a =>
    obtain ⟨tx, htx, rfl⟩ := Option.map_eq_some_iff.mp hs
    exact .single (hok t a ha) htx
  | rx a =>
    simp only [Link.machine, Link.step] at hs
    split at hs
    · cases hs
    · obtain ⟨rx, -, rfl⟩ := Option.map_eq_some_iff.mp hs
      exact .refl

theorem reach_tx (hr : (Link.machine R ctx crx).Reach s) : (Outgoing.machine R ctx).Reach s.tx :=
  path_tx (fun _ _ _ => trivial) hr

/-- A writer that returns writes nothing more and goes on returning. -/
theorem returning_step {t t' : Outgoing.State R} {a : Outgoing.Act}
    (hs : Outgoing.step ctx t a = some t') (hw : t.writer.running = false) :
    t'.writer.running = false ∧ t'.written = t.written := by
  rcases Outgoing.step_cases hs with hm | hm
  · have hf := Outgoing.senderMove_frame hm
    rw [hf.writer, hf.written]; exact ⟨hw, rfl⟩
  · cases hm with
    | unwindRx => exact ⟨hw, rfl⟩
    | unwindRing | unwindQueue | unwindWake | returned | abort => exact ⟨rfl, rfl⟩
    | _ => simp_all [Outgoing.WriterPc.running]

theorem finSent_running {w : Outgoing.WriterPc} (h : finSent w = true) : w.running = false := by
  cases w <;> first | rfl | cases h

/-! ### The receiving side -/

/-- Only a read of nothing reports the end of the stream. -/
theorem eof_advance {t : Incoming.Session} {e : Incoming.Event}
    {p : Incoming.Session × Option Incoming.Done} (ha : t.advance e = some p) (he : e ≠ .readOk 0) :
    p.1.eof = t.eof := by
  obtain ⟨f, hf, hm⟩ := Incoming.Session.advance_cases ha
  cases hm with
  | full | sliceIndex | unpark | readErr => rfl
  | startRead => simp only [Incoming.Session.startRead]; split <;> rfl
  | @flushed k =>
    simp only [Incoming.Session.flushed]
    split
    · cases k with
      | fillFlush => simp only [Incoming.Session.startRead]; split <;> rfl
      | flush => rfl
    · rfl
  | @written k pos fin res =>
    cases res with
    | ok n => simp only [Incoming.Session.written]; split <;> rfl
    | _ => rfl
  | @readOk n hn =>
    have hne : n ≠ 0 := fun hz => he (by rw [hz])
    simp [Incoming.Session.finish, hne]

theorem eof_resume {r : Incoming.Reader} {e : Incoming.Event}
    {p : Incoming.Session × Option Incoming.Done} (ha : r.session.advance e = some p)
    (he : e ≠ .readOk 0) : (Incoming.resume crx r p).session.eof = r.session.eof := by
  have heof := eof_advance ha he
  unfold Incoming.resume
  split
  · exact heof
  · rename_i d _
    cases d with
    | filled n => simp only [Incoming.awaited]; split <;> exact heof
    | flushed => simp only [Incoming.awaited]; split <;> exact heof
    | _ => exact heof

theorem eof_step {r r' : Incoming.Reader} {a : Incoming.Act} (hs : Incoming.step crx r a = some r')
    (ha : a ≠ .readOk 0) : r'.session.eof = r.session.eof := by
  unfold Incoming.step at hs
  split at hs
  · cases hs
  · cases a with
    | poll | readErr =>
      obtain ⟨p, hp, rfl⟩ := Option.map_eq_some_iff.mp hs
      exact eof_resume hp (by simp)
    | readOk n =>
      obtain ⟨p, hp, rfl⟩ := Option.map_eq_some_iff.mp hs
      exact eof_resume hp (by simpa using ha)
    | onMsg err cbResult =>
      simp only [Incoming.onMsg] at hs
      split at hs
      · split at hs
        · split at hs
          · obtain ⟨p, hp, rfl⟩ := Option.map_eq_some_iff.mp hs
            exact eof_resume hp (by simp)
          · obtain rfl := Option.some.inj hs; rfl
        · cases hs
      · cases hs
    | tick =>
      simp only at hs
      split at hs
      · obtain rfl := Option.some.inj hs; rfl
      · cases hs

/-- The invariant of the reader over a stream that grows, as long as it has not seen its end. -/
theorem readerOk_feed {r : Incoming.Reader} {incoming : List UInt8} (bytes : List UInt8)
    (h : Incoming.ReaderOk crx incoming r) (he : r.session.eof = true → bytes = []) :
    Incoming.ReaderOk crx (incoming ++ bytes) (feed r bytes) := by
  refine ⟨⟨h.ok.len, h.ok.pos, h.ok.cursor_le, h.ok.w_le, h.ok.fut, ?_, ?_, ?_⟩, h.fut, h.eof, h.ended,
    h.panic⟩
  · show _ ++ _ ++ (r.session.rest ++ bytes) = incoming ++ bytes
    rw [← List.append_assoc]
    exact congrArg (· ++ bytes) h.ok.stream
  · intro pre o post heq
    have ho := h.ok.offers pre o post heq
    refine ⟨ho.ne, ho.length_le, ho.taken_le, ho.segment.trans ?_⟩
    rw [List.drop_append]
    exact List.prefix_append _ _
  · intro heof
    show r.session.rest ++ bytes = []
    rw [h.ok.eof heof, he heof, List.append_nil]

/-! ### The invariant -/

/-- The reader reads what the writer wrote, and sees the end only behind all of it. -/
structure Link.Ok (crx : ConnConfig) (s : Link R) : Prop where
  tx : Outgoing.Inv s.tx
  rx : Incoming.ReaderOk crx s.tx.written s.rx
  fin : s.rx.session.eof = true → s.tx.writer.running = false

theorem Link.ok_init (ctx crx : ConnConfig) : Link.Ok crx (Link.machine R ctx crx).init := by
  refine ⟨Outgoing.inv_makeSender, Incoming.readerOk_init crx [], fun he => ?_⟩
  simp only [Link.machine, Incoming.handleReader] at he
  split at he <;> cases he

theorem Link.Ok.step {a : Act} (h : s.Ok crx) (hs : Link.step ctx crx s a = some s') : s'.Ok crx := by
  cases a with
  | tx a =>
    obtain ⟨tx, htx, rfl⟩ := Option.map_eq_some_iff.mp hs
    obtain ⟨hinv, hle⟩ := Outgoing.pipe_step h.tx htx
    have hsplit : s.tx.written ++ tx.written.drop s.tx.written.length = tx.written := by
      obtain ⟨more, hmore⟩ := hle.2
      have hmore : s.tx.written ++ more = tx.written := hmore
      rw [← hmore, List.drop_left]
    refine ⟨hinv, ?_, fun he => (returning_step htx (h.fin he)).1⟩
    have hfeed := readerOk_feed (tx.written.drop s.tx.written.length) h.rx fun he => by
      rw [(returning_step htx (h.fin he)).2, List.drop_length]
    rwa [hsplit] at hfeed
  | rx a =>
    simp only [Link.step] at hs
    split at hs
    · cases hs
    · rename_i hfin
      obtain ⟨rx, hrx, rfl⟩ := Option.map_eq_some_iff.mp hs
      refine ⟨h.tx, h.rx.step hrx, fun he => ?_⟩
      by_cases ha : a = .readOk 0
      · exact finSent_running (by simpa [ha] using hfin)
      · exact h.fin (eof_step hrx ha ▸ he)

theorem reach_ok (hr : (Link.machine R ctx crx).Reach s) : s.Ok crx :=
  hr.invariant (Link.ok_init ctx crx) fun _ _ _ h hs => h.step hs

/-! ### One pipe from the calls to `on_msg` -/

/-- What was read is a prefix of what was written. -/
theorem Link.Ok.read_isPrefix (h : s.Ok crx) : s.rx.session.pipe.sent <+: s.tx.written :=
  ⟨s.rx.session.rest, h.rx.ok.stream⟩

/-- The pipe the two sides implement together. -/
def Link.pipe (s : Link R) (h : s.Ok crx) : Pipe UInt8 :=
  (s.tx.pipe h.tx).comp s.rx.session.pipe h.read_isPrefix

/-- Feeding the network moves nothing at the reader. -/
theorem grows_link {a : Act} (h : s.Ok crx) (hs : Link.step ctx crx s a = some s') (h' : s'.Ok crx) :
    s.rx.session.pipe ≤ s'.rx.session.pipe := by
  cases a with
  | tx a =>
    obtain ⟨tx, -, rfl⟩ := Option.map_eq_some_iff.mp hs
    exact le_rfl
  | rx a =>
    simp only [Link.step] at hs
    split at hs
    · cases hs
    · obtain ⟨rx, hrx, rfl⟩ := Option.map_eq_some_iff.mp hs
      exact h.rx.ok.pipe_le h'.rx.ok (Incoming.grows_step hrx)

/-- The link refines one pipe: along any path the two ends only grow. -/
theorem pipe_path {ok : Link R → Act → Prop} (h : s.Ok crx)
    (hp : (Link.machine R ctx crx).Path ok s s') : ∃ h' : s'.Ok crx, s.pipe h ≤ s'.pipe h' := by
  have hrx : ∃ _ : s'.Ok crx, s.rx.session.pipe ≤ s'.rx.session.pipe := by
    refine hp.invariant (I := fun t => ∃ _ : t.Ok crx, s.rx.session.pipe ≤ t.rx.session.pipe)
      ⟨h, le_rfl⟩ ?_
    rintro t a u - ⟨ht, hle⟩ hs
    have hu := ht.step hs
    exact ⟨hu, hle.trans (grows_link ht hs hu)⟩
  obtain ⟨h', hrx⟩ := hrx
  have hpt : (Outgoing.machine R ctx).Path (fun _ _ => True) s.tx s'.tx :=
    path_tx (fun _ _ _ => trivial) hp
  obtain ⟨_, htx⟩ := Outgoing.pipe_path h.tx hpt
  exact ⟨h', Pipe.comp_le_comp htx hrx⟩

/-- From end to end nothing is lost, duplicated or reordered: the two sides are one FIFO pipe. At every
    moment `on_msg` has consumed a prefix of what the calls of the sender accepted, from then on both
    only grow, and each slice it is given continues the accepted bytes where the consumed ones end. A
    reader that returns `Ok` has consumed all that the writer wrote, and nothing more will be written;
    if the writer returned `Ok` too, that is every byte of every call. -/
theorem link_in_order (R : RingBuffer UInt8) (ctx crx : ConnConfig) (s : Link R)
    (hr : (Link.machine R ctx crx).Reach s) :
    s.consumed <+: s.tx.accepted ∧
    (∀ t, (Link.machine R ctx crx).Path (fun _ _ => True) s t →
      s.tx.accepted <+: t.tx.accepted ∧ s.consumed <+: t.consumed) ∧
    (∀ pre o post, s.rx.session.offers = pre ++ o :: post → o.bytes ≠ [] ∧
      o.bytes = (s.tx.accepted.drop (Incoming.takenBytes pre).length).take o.bytes.length) ∧
    (s.rx.pc = .returnedOk → s.consumed = s.tx.written ∧
      ∀ t, (Link.machine R ctx crx).Path (fun _ _ => True) s t → t.tx.written = s.tx.written) ∧
    (s.rx.pc = .returnedOk → s.tx.writer = .returned .ok →
      s.tx.sender = .dropped ∧ s.consumed = s.tx.calls.flatMap Outgoing.Call.accepted) := by
  have h := reach_ok hr
  have hall : s.rx.pc = .returnedOk → s.consumed = s.tx.written := h.rx.consumed_all
  refine ⟨(s.pipe h).isPrefix, fun t hp => ?_, fun pre o post heq => ?_,
    fun hpc => ⟨hall hpc, fun t hp => ?_⟩, fun hpc hw => ?_⟩
  · obtain ⟨_, hle⟩ := pipe_path h hp
    exact hle
  · have ho := h.rx.ok.offers pre o post heq
    refine ⟨ho.ne, List.prefix_iff_eq_take.mp (ho.segment.trans ?_)⟩
    exact h.tx.core.written.drop _
  · have hrun := h.fin (h.rx.eof (.inr hpc))
    have hpt : (Outgoing.machine R ctx).Path (fun _ _ => True) s.tx t.tx :=
      path_tx (fun _ _ _ => trivial) hp
    refine (hpt.invariant (I := fun u => u.writer.running = false ∧ u.written = s.tx.written)
      ⟨hrun, rfl⟩ ?_).2
    rintro u a v - ⟨hw, heq⟩ hs
    obtain ⟨hw', heq'⟩ := returning_step hs hw
    exact ⟨hw', heq'.trans heq⟩
  · have hfin : s.tx.writer.finishing = true := by rw [hw]; rfl
    have hd := h.tx.tx (Outgoing.reach_finishing (reach_tx hr) hfin)
    refine ⟨hd, ?_⟩
    rw [hall hpc, ← (h.tx.core.finishing hfin).2.2, Outgoing.State.accepted, hd]
    exact List.append_nil _

/-- Three bytes in two writes; the reader has the first two before the third is written. -/
def relayThree : List Act :=
  (Outgoing.sendAndDrop.take 10).map .tx ++ [.poll, .readOk 2, .poll].map .rx ++
    (Outgoing.sendAndDrop.drop 10).map .tx ++
    [.readOk 1, .poll, .readOk 0, .onMsg none 2, .onMsg none 1, .poll].map .rx

theorem link_in_order_relayThree :
    ∃ s : Link (RingBuffer.circular UInt8), (Link.machine _ ⟨0, 0, 0⟩ ⟨0, 0, 0⟩).Reach s ∧
      s.tx.writer = .returned .ok ∧ s.rx.pc = .returnedOk ∧ s.tx.sender = .dropped ∧
      s.tx.calls = [⟨.sendBlock [1, 2, 3], .ok, 3⟩] ∧
      s.consumed = s.tx.calls.flatMap Outgoing.Call.accepted := by
  obtain ⟨s, hr, hp⟩ := Machine.reach_of_run
    (m := Link.machine (RingBuffer.circular UInt8) ⟨0, 0, 0⟩ ⟨0, 0, 0⟩) relayThree
    (fun s => s.tx.writer = .returned .ok ∧ s.rx.pc = .returnedOk ∧
      s.tx.calls = [⟨.sendBlock [1, 2, 3], .ok, 3⟩])
    (by decide +kernel)
  obtain ⟨hw, hpc, hcalls⟩ := of_decide_eq_true hp
  obtain ⟨-, -, -, -, hend⟩ := link_in_order _ _ _ s hr
  exact ⟨s, hr, hw, hpc, (hend hpc hw).1, hcalls, (hend hpc hw).2⟩

end SocketManager.Transfer
