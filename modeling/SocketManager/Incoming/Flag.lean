import SocketManager.Incoming.Stream

/-! `has_data` in `handle_reader_auto_flush`. The flag is what arms the tick, and it is kept apart from
    the offsets: a `fill_flush` that returns bytes raises it, a flushed tick clears it, and the flush
    inside `fill_flush` does not touch it.

        select!    fill_flush ── Ok(n) ──▶ has_data
                   tick, if has_data ── flush ──▶ not has_data, both offsets 0

    While the loop is in its `select!`, a lowered flag means an empty buffer, and a read offset that
    has moved means that the flush of a full buffer was interrupted: it stays full, since it is not
    read into before that flush is through. -/

namespace SocketManager.Incoming
variable {config : ConnConfig} {incoming : List UInt8} {size : Nat} {s : Session} {r r' : Reader}

/-- A `WriteAll` is in progress. -/
def Session.flushing (s : Session) : Bool :=
  match s.fut with
  | some (.writeAll _ _ _) | some (.parked _) => true
  | _ => false

/-- The flag and the buffer, while `fill_flush` is awaited. -/
structure FlagOk (hasData : Bool) (s : Session) : Prop where
  clear : hasData = false → s.rw.rOffset = 0 ∧ s.rw.wOffset = 0
  part : s.rw.rOffset = 0 ∨ s.rw.wOffset = s.rw.len
  full : s.flushing = true → s.rw.wOffset = s.rw.len

/-- Both offsets are 0 and nothing is being flushed. -/
theorem FlagOk.of_empty {hasData : Bool} (hr : s.rw.rOffset = 0) (hw : s.rw.wOffset = 0)
    (hf : s.flushing = false) : FlagOk hasData s := by
  refine ⟨fun _ => ⟨hr, hw⟩, .inl hr, fun h => ?_⟩
  rw [hf] at h; cases h

/-- What a step of `fill_flush` gives: the flag and the buffer still agree; if it returned bytes, they
    agree with the flag raised. -/
structure FlagStep (hasData : Bool) (p : Session × Option Done) : Prop where
  goesOn : p.2 = none → FlagOk hasData p.1
  filled : ∀ n, p.2 = some (.filled n) → FlagOk true { p.1 with fut := some .fillFlush }

theorem FlagStep.of_goOn {hasData : Bool} {f : Fut} (h : FlagOk hasData { s with fut := some f }) :
    FlagStep hasData (s.goOn f) :=
  ⟨fun _ => h, fun _ hn => by cases hn⟩

/-- A failure or a panic leaves the loop. -/
theorem FlagStep.of_finish {hasData : Bool} {d : Done} (hd : ∀ n, d ≠ .filled n) :
    FlagStep hasData (s.finish d) :=
  ⟨(fun h => by cases h), fun n hn => absurd (Option.some.inj hn) (hd n)⟩

theorem FlagStep.of_startRead {hasData : Bool} (hc : hasData = false → s.rw.rOffset = 0 ∧ s.rw.wOffset = 0)
    (hp : s.rw.rOffset = 0 ∨ s.rw.wOffset = s.rw.len) : FlagStep hasData s.startRead := by
  unfold Session.startRead
  split
  · exact .of_goOn ⟨hc, hp, fun h => by cases h⟩
  · exact .of_finish (by simp)

/-- The answer of `poll_write` to the flush inside `fill_flush`, whose buffer is full. -/
theorem FlagOk.written {hasData : Bool} {k : Caller} {pos fin : Nat} (h : FlagOk hasData s)
    (hw : s.rw.wOffset = s.rw.len) (hpos : 0 < s.rw.len) (res : PollWrite) :
    FlagStep hasData (s.written k pos fin res) := by
  have hup : hasData ≠ false := by
    intro hd
    have := (h.clear hd).2
    omega
  cases res with
  | ok n =>
    simp only [Session.written]
    split
    · exact .of_finish (by simp)
    · exact .of_goOn ⟨fun hd => absurd hd hup, .inr hw, fun _ => hw⟩
  | err e => exact .of_finish (by simp)
  | pending => exact .of_goOn ⟨fun hd => absurd hd hup, .inr hw, fun _ => hw⟩

theorem FlagOk.move {hasData : Bool} {f : Fut} {e : Event} {p : Session × Option Done}
    (h : FlagOk hasData s) (hok : s.Ok incoming size) (hs : s.fut = some f)
    (hk : f.caller = .fillFlush) (hm : s.Move f e p) : FlagStep hasData p := by
  have hpos : 0 < s.rw.len := by rw [hok.len]; exact hok.pos
  cases hm with
  | full hw => exact .of_goOn ⟨h.clear, h.part, fun _ => hw⟩
  | startRead => exact .of_startRead h.clear h.part
  | sliceIndex => exact .of_finish (by simp)
  | flushed =>
    obtain rfl := hk
    unfold Session.flushed
    split
    · exact .of_startRead (fun _ => ⟨rfl, rfl⟩) (.inl rfl)
    · exact .of_finish (by simp)
  | written =>
    have hw := h.full (by simp [Session.flushing, hs])
    exact h.written hw hpos _
  | unpark =>
    have hw := h.full (by simp [Session.flushing, hs])
    exact .of_goOn ⟨h.clear, .inr hw, fun _ => hw⟩
  | readOk =>
    -- the buffer was not full, so its flush was not interrupted
    have hlt : s.rw.wOffset < s.rw.len := by simpa [FutOk, hs] using hok.fut
    refine ⟨(fun hn => by cases hn), fun n _ => ⟨(fun hd => by cases hd), .inl ?_, fun hf => by cases hf⟩⟩
    exact h.part.resolve_right hlt.ne
  | readErr => exact .of_finish (by simp)

/-! ### The reader -/

/-- The reader is in its `select!` only with the flag and the buffer in agreement. -/
def FlagInv (r : Reader) : Prop := r.pc = .fillFlush → FlagOk r.hasData r.session

theorem awaits_fillFlush {pc : ReaderPc} : pc.awaits = some .fillFlush ↔ pc = .fillFlush := by
  cases pc <;> simp [ReaderPc.awaits]

/-- The future that the reader awaits takes a step. -/
theorem flagInv_resume {e : Event} {p : Session × Option Done} {k : Caller}
    (hauto : autoFlush config = true) (h : ReaderOk config incoming r) (hi : FlagInv r)
    (hk : r.pc.awaits = some k)
    (hw : ∀ k pos fin n, r.session.fut = some (.writeAll k pos fin) → e = .written (.ok n) →
      n ≤ (r.session.rw.slice pos fin).length)
    (ha : r.session.advance e = some p) : FlagInv (resume config r p) := by
  obtain ⟨f, hf, hm⟩ := Session.advance_cases ha
  have hstep := h.ok.advance hf (fun k pos fin n hk he => hw k pos fin n (hk ▸ hf) he) ha
  have hcaller : f.caller = k := Option.some.inj ((congrArg _ hf).symm.trans (h.fut k hk))
  have hflag : k = .fillFlush → FlagStep r.hasData p := by
    rintro rfl
    exact (hi (awaits_fillFlush.mp hk)).move h.ok hf hcaller hm
  unfold resume
  cases hd : p.2 with
  | none =>
    intro hpc
    have hpc : r.pc = .fillFlush := hpc
    rw [hpc] at hk
    exact (hflag (Option.some.inj hk).symm).goesOn hd
  | some d =>
    obtain ⟨-, hdone, hother⟩ := hstep.ends d hd
    cases d with
    | failed e | panicked e => intro hpc; cases hpc
    | filled n =>
      simp only [awaited]
      split
      · intro hpc; cases hpc
      · intro _
        have hfill : k = .fillFlush := by
          rw [hcaller] at hother
          cases k with
          | fillFlush => rfl
          | flush => exact absurd rfl hother
        rw [hauto]
        exact (hflag hfill).filled n hd
    | flushed =>
      simp only [awaited]
      split
      · intro hpc; cases hpc
      · exact fun _ => .of_empty hdone.1 hdone.2 rfl

theorem flagInv_step {a : Act} (hauto : autoFlush config = true) (h : ReaderOk config incoming r)
    (hi : FlagInv r) (hs : step config r a = some r') : FlagInv r' := by
  obtain ⟨⟨k, hk⟩, hm⟩ := step_cases hs
  cases hm with
  | resume hw ha => exact flagInv_resume hauto h hi hk hw ha
  | cbResult | tick => intro hpc; cases hpc

theorem reach_flagInv (hauto : autoFlush config = true) (hr : (machine config incoming).Reach r) :
    FlagInv r := by
  refine Machine.Path.invariant_of_reach (I := FlagInv) hr ?_ ?_
  · have hpos := msgBufSize_pos config
    simp only [machine, handleReader, BufReadWrite.new, if_pos hpos]
    exact fun _ => .of_empty rfl rfl rfl
  · exact fun _ _ _ hr _ hi hs => flagInv_step hauto (reach_readerOk hr) hi hs

/-- Received bytes are not stranded. Whenever the reader with auto flush is suspended in its `select!`
    with bytes that `on_msg` has not consumed, `has_data` is set and the tick is taken when it comes;
    and a read offset that has moved means that the buffer is full. -/
theorem suspended_data_flagged (config : ConnConfig) (hauto : autoFlush config = true)
    (incoming : List UInt8) (r : Reader) (hr : (machine config incoming).Reach r)
    (hpc : r.pc = .fillFlush) (hp : r.session.pending = true) :
    (r.session.rw.rOffset < r.session.rw.wOffset →
      r.hasData = true ∧ ∃ r', step config r .tick = some r') ∧
    (0 < r.session.rw.rOffset → r.session.rw.wOffset = r.session.rw.buf.length) := by
  have h := reach_flagInv hauto hr hpc
  constructor
  · intro hlt
    have hdata : r.hasData = true := by
      by_contra hd
      obtain ⟨hr0, hw0⟩ := h.clear (by simpa using hd)
      omega
    exact ⟨hdata, startFlush r .tickFlush, by simp [step, hpc, ReaderPc.awaits, hauto, hdata, hp]⟩
  · intro hpos
    rw [r.session.rw.length_buf]
    exact h.part.resolve_left (by omega)

/-- Two bytes are read and the reader waits for more, or for the tick. -/
theorem suspended_data_flagged_readTwo : ∃ r, (machine ⟨0, 5, 0⟩ [1, 2, 3]).Reach r ∧
    r.pc = .fillFlush ∧ r.session.pending = true ∧ r.session.rw.wOffset = 2 ∧ r.hasData = true := by
  obtain ⟨r, hr, hp⟩ := Machine.reach_of_run (m := machine ⟨0, 5, 0⟩ [1, 2, 3])
    [.poll, .readOk 2, .poll]
    (fun r => r.pc = .fillFlush ∧ r.session.pending = true ∧ r.session.rw.rOffset = 0 ∧
      r.session.rw.wOffset = 2)
    (by decide +kernel)
  obtain ⟨hpc, hpend, hr0, hw2⟩ := of_decide_eq_true hp
  obtain ⟨hflag, -⟩ := suspended_data_flagged ⟨0, 5, 0⟩ (by decide) [1, 2, 3] r hr hpc hpend
  exact ⟨r, hr, hpc, hpend, hw2, (hflag (by omega)).1⟩

end SocketManager.Incoming
