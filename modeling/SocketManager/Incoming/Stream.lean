import SocketManager.Incoming.Reader
import SocketManager.Incoming.Session
import SocketManager.Lib.Pipe

/-! The incoming side as a FIFO pipe. The reader adds to the invariant of its buffer which future it
    awaits and what it has seen of the end of the stream; the sent end of the pipe is what was read
    from the socket, the delivered end what `on_msg` consumed. -/

namespace SocketManager.Incoming
variable {config : ConnConfig} {incoming : List UInt8} {r r' : Reader}

/-- What a step of the reader can do: the future it awaits takes a step, in which `on_msg` takes no more
    than it is given; or the assertion of `call_inner` fails; or a tick drops the pending `fill_flush`
    and flushes its buffer. -/
inductive ReaderMove (config : ConnConfig) (r : Reader) : Reader → Prop where
  | resume {e : Event} {p : Session × Option Done}
      (hw : ∀ k pos fin n, r.session.fut = some (.writeAll k pos fin) → e = .written (.ok n) →
        n ≤ (r.session.rw.slice pos fin).length)
      (ha : r.session.advance e = some p) : ReaderMove config r (resume config r p)
  | cbResult {k pos fin} (hf : r.session.fut = some (.writeAll k pos fin)) (hlt : pos < fin) :
      ReaderMove config r { r with
        session := { r.session with offers := r.session.offers ++ [⟨r.session.rw.slice pos fin, 0⟩] }
        pc := .panicked .cbResult }
  | tick (hauto : autoFlush config = true) (hpc : r.pc = .fillFlush) (hp : r.session.pending = true) :
      ReaderMove config r (startFlush r .tickFlush)

/-- `call_inner` never reports more bytes than it was given. -/
theorem callInner_le {err : Option String} {cbResult : Int} {len n : Nat} {res : PollMsg}
    (h : callInner err cbResult len = some res) (hn : res.pollWrite = .ok n) : n ≤ len := by
  unfold callInner at h
  split at h
  · obtain rfl := Option.some.inj h; cases hn
  · split at h
    · split at h
      · obtain rfl := Option.some.inj h
        simp only [PollMsg.pollWrite, PollWrite.ok.injEq] at hn
        omega
      · cases h
    · obtain rfl := Option.some.inj h; cases hn

theorem onMsg_cases {err : Option String} {cbResult : Int} (hs : onMsg config r err cbResult = some r') :
    ReaderMove config r r' := by
  unfold onMsg at hs
  split at hs
  · rename_i _ pos fin hf
    split at hs
    · rename_i hlt
      dsimp only at hs
      split at hs
      · rename_i res hres
        obtain ⟨p, hp, rfl⟩ := Option.map_eq_some_iff.mp hs
        refine .resume ?_ hp
        intro k' pos' fin' n hf' he
        rw [hf] at hf'
        cases hf'
        exact callInner_le hres (Event.written.inj he)
      · obtain rfl := Option.some.inj hs; exact .cbResult hf hlt.1
    · cases hs
  · cases hs

theorem step_cases {a : Act} (hs : step config r a = some r') :
    (∃ k, r.pc.awaits = some k) ∧ ReaderMove config r r' := by
  unfold step at hs
  split at hs
  · cases hs
  · rename_i hne
    refine ⟨Option.ne_none_iff_exists'.mp hne, ?_⟩
    cases a with
    | poll | readOk n | readErr =>
      obtain ⟨p, hp, rfl⟩ := Option.map_eq_some_iff.mp hs
      exact .resume (fun _ _ _ _ _ he => by cases he) hp
    | onMsg err cbResult => exact onMsg_cases hs
    | tick =>
      simp only at hs
      split at hs
      · rename_i hc
        obtain rfl := Option.some.inj hs; exact .tick hc.1 hc.2.2.1 hc.2.2.2
      · cases hs

/-- The reader's own part of the invariant, over that of its buffer. -/
structure ReaderOk (config : ConnConfig) (incoming : List UInt8) (r : Reader) : Prop where
  ok : r.session.Ok incoming (msgBufSize config)
  fut : ∀ k, r.pc.awaits = some k → r.session.fut.map Fut.caller = some k
  eof : r.pc = .lastFlush ∨ r.pc = .returnedOk → r.session.eof = true
  ended : r.pc = .returnedOk → r.session.rw.rOffset = 0 ∧ r.session.rw.wOffset = 0
  panic : ∀ p, r.pc = .panicked p → p = .cbResult

theorem msgBufSize_pos (config : ConnConfig) : 0 < msgBufSize config :=
  Nat.lt_of_lt_of_le (by decide) (Nat.le_max_right _ minMsgBufferSize)

theorem readerOk_init (config : ConnConfig) (incoming : List UInt8) :
    ReaderOk config incoming (handleReader config incoming) := by
  have hpos := msgBufSize_pos config
  simp only [handleReader, BufReadWrite.new, if_pos hpos]
  refine ⟨⟨rfl, hpos, le_rfl, Nat.zero_le _, trivial, ?_, ?_, ?_⟩, fun _ hk => hk, ?_, ?_, ?_⟩
  · simp [takenBytes, Session.cursor]
  · intro pre o post heq
    simp at heq
  · intro heof; cases heof
  · rintro (h | h) <;> cases h
  · intro h; cases h
  · intro p h; cases h

/-- The reader goes on after a future that ended. -/
theorem readerOk_awaited {d : Done} (h : r.session.Ok incoming (msgBufSize config))
    (hf : r.session.fut = none) (hd : DoneOk r.session d)
    (heof : r.pc = .lastFlush → r.session.eof = true) :
    ReaderOk config incoming (awaited config r d) := by
  have hc : r.session.cursor = r.session.rw.rOffset := by simp only [Session.cursor, hf]
  have hfill : ∀ hasData, ReaderOk config incoming (startFill r hasData) := by
    intro hasData
    refine ⟨h.withFut (some .fillFlush) hc.symm trivial, fun _ hk => hk, ?_, ?_, ?_⟩
    · rintro (h | h) <;> cases h
    · intro h; cases h
    · intro p h; cases h
  cases d with
  | failed e =>
    refine ⟨h, (fun k hk => by cases hk), ?_, ?_, ?_⟩
    · rintro (h | h) <;> cases h
    · intro h; cases h
    · intro p h; cases h
  | panicked p => exact hd.elim
  | filled n =>
    simp only [awaited]
    split
    · -- the end of the stream
      rename_i hn
      refine ⟨h.writeAll .flush hc, fun _ hk => hk, fun _ => hd hn, ?_, ?_⟩
      · intro h; cases h
      · intro p h; cases h
    · exact hfill _
  | flushed =>
    simp only [awaited]
    split
    · rename_i hpc
      refine ⟨h, (fun k hk => by cases hk), fun _ => heof hpc, fun _ => hd, ?_⟩
      intro p h; cases h
    · exact hfill _

/-- The future in progress takes a step. -/
theorem readerOk_resume {e : Event} {p : Session × Option Done} {k : Caller}
    (h : ReaderOk config incoming r) (hk : r.pc.awaits = some k)
    (hw : ∀ k pos fin n, r.session.fut = some (.writeAll k pos fin) → e = .written (.ok n) →
      n ≤ (r.session.rw.slice pos fin).length)
    (ha : r.session.advance e = some p) : ReaderOk config incoming (resume config r p) := by
  obtain ⟨f, hf, rfl⟩ := Option.map_eq_some_iff.mp (h.fut k hk)
  have hstep := h.ok.advance hf (fun k pos fin n hk he => hw k pos fin n (hk ▸ hf) he) ha
  have heof := (Session.grows_advance ha).eof
  unfold resume
  cases hd : p.2 with
  | none =>
    refine ⟨hstep.ok, fun k' hk' => ?_, fun hpc => heof (h.eof hpc), fun hpc => ?_, h.panic⟩
    · rw [hstep.goesOn hd, ← hk]; exact hk'
    · have hpc : r.pc = .returnedOk := hpc
      rw [hpc] at hk; cases hk
  | some d =>
    obtain ⟨hfut, hdone, -⟩ := hstep.ends d hd
    exact readerOk_awaited hstep.ok hfut hdone (fun hpc => heof (h.eof (.inl hpc)))

/-- The slice was offered, and nothing else happens to a reader that panics in `call_inner`. -/
theorem readerOk_cbResult {k : Caller} {pos fin : Nat} (h : ReaderOk config incoming r)
    (hf : r.session.fut = some (.writeAll k pos fin)) (hlt : pos < fin) :
    ReaderOk config incoming { r with
      session := { r.session with offers := r.session.offers ++ [⟨r.session.rw.slice pos fin, 0⟩] }
      pc := .panicked .cbResult } := by
  refine ⟨⟨h.ok.len, h.ok.pos, h.ok.cursor_le, h.ok.w_le, h.ok.fut, ?_,
    Log.forall_concat h.ok.offers (h.ok.offerOk hf hlt (Nat.zero_le _)), h.ok.eof⟩,
    (fun k hk => by cases hk), ?_, ?_, ?_⟩
  · show takenBytes (r.session.offers ++ _) ++ _ ++ _ = incoming
    rw [takenBytes_concat, List.take_zero, List.append_nil]
    exact h.ok.stream
  · rintro (h | h) <;> cases h
  · intro h; cases h
  · intro p h; cases h; rfl

theorem ReaderOk.step {a : Act} (h : ReaderOk config incoming r)
    (hs : step config r a = some r') : ReaderOk config incoming r' := by
  obtain ⟨⟨k, hk⟩, hm⟩ := step_cases hs
  cases hm with
  | resume hw ha => exact readerOk_resume h hk hw ha
  | cbResult hf hlt => exact readerOk_cbResult h hf hlt
  | tick _ _ hp =>
    refine ⟨(h.ok.drop hp).writeAll .flush rfl, fun _ hk => hk, ?_, ?_, ?_⟩
    · rintro (h | h) <;> cases h
    · intro h; cases h
    · intro p h; cases h

/-- The invariant holds whatever the socket, the callback and the ticks do. -/
theorem reach_readerOk (hr : (machine config incoming).Reach r) : ReaderOk config incoming r :=
  hr.invariant (readerOk_init config incoming) fun _ _ _ h hs => h.step hs

/-! ### The incoming side as a pipe -/

/-- The pipe the incoming side implements: what was read, and what `on_msg` consumed. -/
def Session.pipe (s : Session) : Pipe UInt8 :=
  ⟨takenBytes s.offers ++ s.rw.slice s.cursor s.rw.wOffset, takenBytes s.offers,
    List.prefix_append _ _⟩

theorem takenBytes_isPrefix {offers offers' : List Offer} (h : offers <+: offers') :
    takenBytes offers <+: takenBytes offers' := by
  obtain ⟨more, rfl⟩ := h
  rw [takenBytes, takenBytes, List.flatMap_append]
  exact List.prefix_append _ _

/-- A session that grows extends the pipe. -/
theorem Session.Ok.pipe_le {s s' : Session} {size : Nat} (h : s.Ok incoming size)
    (h' : s'.Ok incoming size) (hg : s.Grows s') : s.pipe ≤ s'.pipe := by
  refine Pipe.le_def.mpr ⟨?_, takenBytes_isPrefix hg.offers⟩
  -- both inputs are prefixes of the stream, and the rest of the stream only shrinks
  have hs : s.pipe.sent ++ s.rest = incoming := h.stream
  have hs' : s'.pipe.sent ++ s'.rest = incoming := h'.stream
  refine List.prefix_of_prefix_length_le ⟨s.rest, hs⟩ ⟨s'.rest, hs'⟩ ?_
  have hlen := congrArg List.length (hs.trans hs'.symm)
  simp only [List.length_append] at hlen
  have := hg.rest
  omega

theorem grows_awaited (d : Done) : r.session.Grows (awaited config r d).session := by
  cases d with
  | filled n => simp only [awaited]; split <;> exact .same r.session _ _
  | flushed => simp only [awaited]; split <;> exact .same r.session _ _
  | failed e => exact .same r.session _ _
  | panicked p => exact .same r.session _ _

theorem Session.Grows.trans {s s' s'' : Session} (h₁ : s.Grows s') (h₂ : s'.Grows s'') :
    s.Grows s'' :=
  ⟨h₁.offers.trans h₂.offers, h₂.rest.trans h₁.rest, fun he => h₂.eof (h₁.eof he)⟩

theorem grows_resume {e : Event} {p : Session × Option Done} (ha : r.session.advance e = some p) :
    r.session.Grows (resume config r p).session := by
  have hg := Session.grows_advance ha
  unfold resume
  split
  · exact hg
  · exact hg.trans (grows_awaited (r := { r with session := p.1 }) _)

theorem grows_step {a : Act} (hs : step config r a = some r') : r.session.Grows r'.session := by
  obtain ⟨-, hm⟩ := step_cases hs
  cases hm with
  | resume _ ha => exact grows_resume ha
  | cbResult => exact ⟨List.prefix_append _ _, le_rfl, id⟩
  | tick => exact .same r.session _ _

/-- Nothing is lost, duplicated or reordered on the way in. Each slice handed to `on_msg` is
    non-empty, fits the buffer and continues the stream where the bytes consumed before it end; a
    reader that returns `Ok` has seen the end of the stream and `on_msg` consumed all of it; the
    slice indexing and the `assert_eq` of `WriteAll::poll` do not fail. -/
theorem consumed_isPrefix_incoming (config : ConnConfig) (incoming : List UInt8) (r : Reader)
    (hr : (machine config incoming).Reach r) :
    (∀ pre o post, r.session.offers = pre ++ o :: post →
      o.bytes ≠ [] ∧ o.bytes.length ≤ msgBufSize config ∧ o.taken ≤ o.bytes.length ∧
      o.bytes = (incoming.drop (takenBytes pre).length).take o.bytes.length) ∧
    takenBytes r.session.offers <+: incoming ∧
    (r.pc = .returnedOk → r.session.eof = true ∧ takenBytes r.session.offers = incoming) ∧
    r.pc ≠ .panicked .sliceIndex ∧ r.pc ≠ .panicked .assertEq := by
  have h := reach_readerOk hr
  have hstream := h.ok.stream
  refine ⟨?_, ?_, ?_, ?_, ?_⟩
  · intro pre o post heq
    have ho := h.ok.offers pre o post heq
    exact ⟨ho.ne, ho.length_le, ho.taken_le, List.prefix_iff_eq_take.mp ho.segment⟩
  · rw [← hstream, List.append_assoc]
    exact List.prefix_append _ _
  · intro hpc
    have heof := h.eof (.inr hpc)
    have hw := (h.ended hpc).2
    have hc : r.session.cursor = 0 := Nat.eq_zero_of_le_zero (hw ▸ h.ok.cursor_le)
    rw [hc, hw, BufReadWrite.slice_self, h.ok.eof heof, List.append_nil, List.append_nil] at hstream
    exact ⟨heof, hstream⟩
  · intro hp
    cases h.panic _ hp
  · intro hp
    cases h.panic _ hp

/-- Three bytes in two reads, a tick between them, and a callback that is pending once. -/
def readThree : List Act :=
  [.poll, .readOk 2, .poll, .tick, .onMsg none 1, .onMsg none (-1), .poll, .onMsg none 1, .poll,
    .poll, .readOk 1, .poll, .readOk 0, .onMsg none 1, .poll]

theorem consumed_isPrefix_incoming_readThree :
    ∃ r, (machine ⟨0, 5, 0⟩ [1, 2, 3]).Reach r ∧ r.pc = .returnedOk ∧ r.session.offers =
      [⟨[1, 2], 1⟩, ⟨[2], 0⟩, ⟨[2], 1⟩, ⟨[3], 1⟩] ∧ takenBytes r.session.offers = [1, 2, 3] := by
  obtain ⟨r, hr, hp⟩ := Machine.reach_of_run (m := machine ⟨0, 5, 0⟩ [1, 2, 3]) readThree
    (fun r => r.pc = .returnedOk ∧ r.session.offers = [⟨[1, 2], 1⟩, ⟨[2], 0⟩, ⟨[2], 1⟩, ⟨[3], 1⟩])
    (by decide +kernel)
  obtain ⟨hpc, hoffers⟩ := of_decide_eq_true hp
  obtain ⟨-, -, hok, -⟩ := consumed_isPrefix_incoming _ _ r hr
  exact ⟨r, hr, hpc, hoffers, (hok hpc).2⟩

end SocketManager.Incoming
