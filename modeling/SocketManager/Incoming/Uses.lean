import SocketManager.Incoming.Session

/-! `BufReadWrite` in any hands. The two loops of the reader use it in one way each; here it is used in
    any way its type allows: `fill_flush` and `flush` are called in any order, each future is polled
    any number of times and may be dropped before its first poll or wherever it is pending, and the
    reader and the writer answer as they like. A read gives up to as many bytes as the slice holds, or
    none, or fails; a write takes up to as many as it is offered, or none, or fails, or is pending.

        call ──▶ poll ──▶ ... ──▶ result ──▶ call
                   └── pending ──▶ drop ──────┘

    What was read so far plays the part of the stream in the invariant of the session, so the steps of
    the futures need no new argument: only a read extends it. -/

namespace SocketManager.Incoming
variable {size : Nat} {s : Session} {got : List UInt8}

/-- A buffer in use. -/
structure Use where
  session : Session
  /-- All the bytes read so far. -/
  read : List UInt8
  /-- The result of the last future, until the next call. -/
  result : Option Done

/-- What can be done with it. -/
inductive UseAct where
  /-- `fill_flush` is called. -/
  | fillFlush
  /-- `flush` is called. -/
  | flush
  /-- The future in progress is polled, or runs on. -/
  | poll
  | written (res : PollWrite)
  /-- The reader stores some bytes; none may be the end of the stream, or not. -/
  | read (bytes : List UInt8)
  | readErr
  /-- The future in progress is dropped. -/
  | drop
  deriving DecidableEq

namespace Use

/-- A call of one of the two functions makes a future. -/
def call (u : Use) (f : Fut) : Option Use :=
  if u.session.fut = none then
    some { u with session := { u.session with fut := some f }, result := none }
  else none

/-- The future took a step. -/
def resume (u : Use) (p : Session × Option Done) : Use := { u with session := p.1, result := p.2 }

/-- The writer takes no more than it was offered. -/
def accepts (u : Use) : PollWrite → Bool
  | .ok n =>
    match u.session.fut with
    | some (.writeAll _ pos fin) => decide (n ≤ (u.session.rw.slice pos fin).length)
    | _ => false
  | _ => true

/-- The future was not polled yet, or it is pending. -/
def droppable (u : Use) : Bool := u.session.pending || decide (u.session.fut = some .fillFlush)

def step (u : Use) : UseAct → Option Use
  | .fillFlush => u.call .fillFlush
  | .flush => u.call (.parked .flush)
  | .poll => (u.session.advance .poll).map u.resume
  | .written res => if u.accepts res then (u.session.advance (.written res)).map u.resume else none
  | .read bytes =>
    -- the bytes of this read are all the reader has
    (Session.advance { u.session with rest := bytes, eof := false } (.readOk bytes.length)).map
      fun p => { u.resume p with read := u.read ++ bytes }
  | .readErr => (u.session.advance .readErr).map u.resume
  | .drop =>
    if u.droppable then some { u with session := { u.session with fut := none } } else none

end Use

/-- The uses of a new buffer. -/
def uses (rw : BufReadWrite) : Machine Use UseAct := ⟨⟨⟨rw, [], false, [], none⟩, [], none⟩, Use.step⟩

/-! ### The invariant -/

/-- The stream is what was read; a result says what the future left behind. -/
structure UseOk (size : Nat) (u : Use) : Prop where
  ok : u.session.Ok u.read size
  rest : u.session.rest = []
  result : ∀ d, u.result = some d → DoneOk u.session d

/-- A read makes the stream longer. -/
theorem Session.Ok.extend (h : s.Ok got size) (hr : s.rest = []) (bytes : List UInt8) :
    Session.Ok (got ++ bytes) size { s with rest := bytes, eof := false } := by
  refine ⟨h.len, h.pos, h.cursor_le, h.w_le, h.fut, ?_, ?_, fun heof => by cases heof⟩
  · have hstream := h.stream
    rw [hr, List.append_nil] at hstream
    exact congrArg (· ++ bytes) hstream
  · intro pre o post heq
    have ho := h.offers pre o post heq
    exact ⟨ho.ne, ho.length_le, ho.taken_le,
      ho.segment.trans ((List.prefix_append got bytes).drop _)⟩

/-- A future that takes a step leaves nothing of the read behind. -/
theorem UseOk.advance {e : Event} {p : Session × Option Done} (h : s.Ok got size)
    (hrest : p.1.rest = [])
    (hw : ∀ k pos fin n, s.fut = some (.writeAll k pos fin) → e = .written (.ok n) →
      n ≤ (s.rw.slice pos fin).length)
    (ha : s.advance e = some p) : UseOk size ⟨p.1, got, p.2⟩ := by
  obtain ⟨f, hf, -⟩ := Session.advance_cases ha
  have hstep := h.advance hf (fun k pos fin n hk he => hw k pos fin n (hk ▸ hf) he) ha
  exact ⟨hstep.ok, hrest, fun d hd => (hstep.ends d hd).2.1⟩

theorem UseOk.resume {u : Use} {e : Event} {p : Session × Option Done} (h : UseOk size u)
    (hw : ∀ k pos fin n, u.session.fut = some (.writeAll k pos fin) → e = .written (.ok n) →
      n ≤ (u.session.rw.slice pos fin).length)
    (ha : u.session.advance e = some p) : UseOk size (u.resume p) := by
  refine .advance h.ok ?_ hw ha
  have hle := (Session.grows_advance ha).rest
  rw [h.rest] at hle
  exact List.length_eq_zero_iff.mp (Nat.le_zero.mp hle)

theorem UseOk.read {u : Use} {bytes : List UInt8} {p : Session × Option Done} (h : UseOk size u)
    (ha : Session.advance { u.session with rest := bytes, eof := false } (.readOk bytes.length) =
      some p) : UseOk size { u.resume p with read := u.read ++ bytes } := by
  refine .advance (h.ok.extend h.rest bytes) ?_ (fun _ _ _ _ _ he => by cases he) ha
  obtain ⟨f, -, hm⟩ := Session.advance_cases ha
  cases hm with
  | readOk => exact List.drop_length

/-- A call, or the drop of a future, leaves the buffer as it is. -/
theorem UseOk.withFut {u : Use} (h : UseOk size u) (f : Option Fut) (result : Option Done)
    (hc : Session.cursor { u.session with fut := f } = u.session.cursor)
    (hf : FutOk { u.session with fut := f }) (hres : ∀ d, result = some d → u.result = some d) :
    UseOk size { u with session := { u.session with fut := f }, result } := by
  refine ⟨h.ok.withFut f hc hf, h.rest, fun d hd => ?_⟩
  have hold := h.result d (hres d hd)
  cases d with
  | filled n | flushed | failed e => exact hold
  | panicked p => exact hold

theorem UseOk.call {u u' : Use} {f : Fut} (h : UseOk size u) (hf : FutOk { u.session with fut := some f })
    (hc : Session.cursor { u.session with fut := some f } = u.session.rw.rOffset)
    (hs : u.call f = some u') : UseOk size u' := by
  unfold Use.call at hs
  split at hs
  · rename_i hnone
    obtain rfl := Option.some.inj hs
    refine h.withFut (some f) none (hc.trans ?_) hf (fun d hd => by cases hd)
    simp only [Session.cursor, hnone]
  · cases hs

/-- The locals of a future that can be dropped are written back. -/
theorem Use.cursor_of_droppable (u : Use) (h : u.droppable = true) :
    u.session.cursor = u.session.rw.rOffset := by
  refine Session.cursor_eq fun k pos fin hs => ?_
  simp [Use.droppable, Session.pending, hs] at h

theorem UseOk.step {u u' : Use} {a : UseAct} (h : UseOk size u) (hs : u.step a = some u') :
    UseOk size u' := by
  cases a with
  | fillFlush => exact h.call (f := .fillFlush) trivial rfl hs
  | flush => exact h.call (f := .parked .flush) trivial rfl hs
  | poll | readErr =>
    obtain ⟨p, hp, rfl⟩ := Option.map_eq_some_iff.mp hs
    exact h.resume (fun _ _ _ _ _ he => by cases he) hp
  | written res =>
    simp only [Use.step] at hs
    split at hs
    · rename_i hacc
      obtain ⟨p, hp, rfl⟩ := Option.map_eq_some_iff.mp hs
      refine h.resume ?_ hp
      rintro k pos fin n hf he
      obtain rfl := Event.written.inj he
      simpa [Use.accepts, hf] using hacc
    · cases hs
  | read bytes =>
    obtain ⟨p, hp, rfl⟩ := Option.map_eq_some_iff.mp hs
    exact h.read hp
  | drop =>
    simp only [Use.step] at hs
    split at hs
    · rename_i hd
      obtain rfl := Option.some.inj hs
      exact h.withFut none u.result (u.cursor_of_droppable hd).symm trivial (fun _ hd => hd)
    · cases hs

theorem reach_useOk {rw : BufReadWrite} {u : Use} (hnew : BufReadWrite.new size = some rw)
    (hr : (uses rw).Reach u) : UseOk size u := by
  refine hr.invariant ?_ fun _ _ _ h hs => h.step hs
  unfold BufReadWrite.new at hnew
  split at hnew
  · rename_i hpos
    obtain rfl := Option.some.inj hnew
    refine ⟨⟨rfl, hpos, le_rfl, Nat.zero_le _, trivial, ?_, ?_, fun h => by cases h⟩, rfl,
      fun _ h => by cases h⟩
    · simp [uses, takenBytes, Session.cursor]
    · intro pre o post heq
      simp [uses] at heq
  · cases hnew

/-- `BufReadWrite` is cancellation safe under any use: the offsets are in order, and the bytes that the
    writer took, then those between the offsets, are the bytes read so far, whenever no poll of
    `WriteAll` is under way; inside one the same holds from its local `pos` on. A `flush` that returned
    `Ok` leaves both offsets at 0, no read is into an empty slice, and nothing panics. -/
theorem uses_cancellation_safe (size : Nat) (rw : BufReadWrite) (hnew : BufReadWrite.new size = some rw)
    (u : Use) (hr : (uses rw).Reach u) :
    u.session.rw.rOffset ≤ u.session.rw.wOffset ∧
    u.session.rw.wOffset ≤ u.session.rw.buf.length ∧ u.session.rw.buf.length = size ∧
    ((∀ k pos fin, u.session.fut ≠ some (.writeAll k pos fin)) →
      takenBytes u.session.offers ++ u.session.rw.slice u.session.rw.rOffset u.session.rw.wOffset =
        u.read) ∧
    (∀ k pos fin, u.session.fut = some (.writeAll k pos fin) →
      u.session.rw.rOffset ≤ pos ∧ pos ≤ fin ∧ fin = u.session.rw.wOffset ∧
      takenBytes u.session.offers ++ u.session.rw.slice pos fin = u.read) ∧
    (u.result = some .flushed → u.session.rw.rOffset = 0 ∧ u.session.rw.wOffset = 0) ∧
    (u.session.fut = some .read → u.session.rw.wOffset < u.session.rw.buf.length) ∧
    ∀ p, u.result ≠ some (.panicked p) := by
  have h := reach_useOk hnew hr
  have hstream := h.ok.stream
  rw [h.rest, List.append_nil] at hstream
  have hlen := u.session.rw.length_buf
  refine ⟨h.ok.rOffset_le, hlen.symm ▸ h.ok.w_le, hlen.trans h.ok.len, ?_, ?_, h.result .flushed, ?_, ?_⟩
  · intro hnot
    rw [Session.cursor_eq hnot] at hstream
    exact hstream
  · intro k pos fin hf
    obtain ⟨hc, hr, rfl, hle⟩ := h.ok.writeAll_fin hf
    rw [hc] at hstream
    exact ⟨hr, hle, rfl, hstream⟩
  · intro hf
    have hlt := h.ok.fut
    simp only [FutOk, hf] at hlt
    exact hlen.symm ▸ hlt
  · exact fun p hp => h.result _ hp

/-- Four bytes of buffer: it is filled in two reads, its flush is cut short by a pending write and then
    by an error, `fill_flush` and `flush` are dropped on the way, and a last `flush` gets through. -/
def cutShort : List UseAct :=
  [.fillFlush, .drop, .fillFlush, .poll, .read [1, 2], .fillFlush, .poll, .read [], .fillFlush, .poll,
    .drop, .fillFlush, .poll, .read [3, 4], .fillFlush, .poll, .written (.ok 1), .written .pending,
    .drop, .flush, .poll, .written (.ok 2), .written (.err .writeZero), .flush, .poll,
    .written (.ok 1), .poll]

/-- The buffer of four bytes. -/
def fourBytes : BufReadWrite := ⟨[0, 0, 0, 0], 4, 0, 0, rfl⟩

theorem uses_cancellation_safe_cutShort : BufReadWrite.new 4 = some fourBytes ∧
    ∃ u, (uses fourBytes).Reach u ∧ u.result = some .flushed ∧ u.read = [1, 2, 3, 4] ∧
      u.session.rw.rOffset = 0 ∧ u.session.rw.wOffset = 0 := by
  obtain ⟨u, hr, hp⟩ := (uses fourBytes).reach_of_run cutShort
    (fun u => u.result = some .flushed ∧ u.read = [1, 2, 3, 4]) (by decide +kernel)
  obtain ⟨hres, hread⟩ := of_decide_eq_true hp
  obtain ⟨-, -, -, -, -, hflushed, -⟩ := uses_cancellation_safe 4 fourBytes rfl u hr
  exact ⟨rfl, u, hr, hres, hread, hflushed hres⟩

end SocketManager.Incoming
