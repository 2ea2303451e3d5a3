import SocketManager.Incoming.Stream
import SocketManager.Lib.Rank

/-! The reader comes to its end. As long as the socket does not fail and `on_msg`, when it is called,
    takes at least one of the bytes it is offered, every step brings the reader nearer to its return:
    a byte is read once and consumed once, a tick flushes what was read since the last one, and after
    the end of the stream one `flush` is left.

        fill_flush ─▶ write_all ─▶ read ─▶ fill_flush …        a read pays for the way round
            └──tick──▶ write_all ─▶ fill_flush                 at most once after each read
                                    read of 0 ─▶ write_all ─▶ return

    The rank of the buffer (`Session.rank`) counts the unread bytes, the pending bytes and the way to
    go of the future; that of the reader adds the way to go of `handle_reader`. -/

namespace SocketManager.Incoming
variable {config : ConnConfig} {incoming : List UInt8} {size : Nat} {s : Session} {r r' : Reader}

/-- The future's way to go. -/
def Fut.weight : Fut → Nat
  | .fillFlush | .parked _ => 2
  | .writeAll _ _ _ => 1
  | .read => 0

/-- How many bytes are in the buffer. -/
def Session.pendingBytes (s : Session) : Nat := s.rw.wOffset - s.cursor

def Session.rank (s : Session) : Nat :=
  9 * s.rest.length + s.pendingBytes + s.fut.elim 0 Fut.weight

/-- The way to go of `handle_reader`; a tick is still to come when there is data. -/
def Reader.weight (r : Reader) : Nat :=
  match r.pc with
  | .fillFlush => if r.hasData then 8 else 3
  | .tickFlush => 5
  | _ => 0

def Reader.rank (r : Reader) : Nat := r.session.rank + r.weight

/-- The slice that `on_msg` is offered next. -/
def Session.offered (s : Session) : List UInt8 :=
  match s.fut with
  | some (.writeAll _ pos fin) => s.rw.slice pos fin
  | _ => []

/-- The socket does not fail, and `on_msg` takes some of the bytes it is offered. -/
def Healthy (r : Reader) : Act → Prop
  | .onMsg err cbResult => err = none ∧ 0 < cbResult ∧ cbResult ≤ r.session.offered.length
  | .readErr => False
  | _ => True

instance (r : Reader) (a : Act) : Decidable (Healthy r a) := by
  cases a <;> unfold Healthy <;> infer_instance

/-- The reader ended in an error or a panic. -/
def ReaderPc.failed : ReaderPc → Bool
  | .returnedErr _ | .panicked _ => true
  | _ => false

/-! ### The future -/

/-- What a healthy step of the future does to the rank. -/
def RankStep (s : Session) (p : Session × Option Done) : Prop :=
  match p.2 with
  | none | some .flushed => p.1.rank < s.rank
  | some (.filled n) => p.1.rank + 8 * n = s.rank
  | some _ => False

theorem rankStep_startRead (rw : BufReadWrite) (hw : rw.wOffset ≤ rw.len)
    (hlt : 9 * s.rest.length + (rw.wOffset - rw.rOffset) < s.rank) :
    RankStep s (Session.startRead { s with rw }) := by
  unfold Session.startRead
  rw [if_pos (show rw.wOffset ≤ rw.len from hw)]
  exact hlt

theorem Session.Ok.rankStep {e : Event} {p : Session × Option Done} (h : s.Ok incoming size)
    (hw : ∀ res, e = .written res → ∃ n, res = .ok n ∧ 0 < n ∧ n ≤ s.offered.length)
    (he : e ≠ .readErr) (ha : s.advance e = some p) : RankStep s p := by
  obtain ⟨f, hf, hm⟩ := Session.advance_cases ha
  cases hm with
  | full _ =>
    show Session.rank _ < s.rank
    simp [Session.rank, Session.pendingBytes, Session.cursor, Session.writeAll, hf, Fut.weight]
  | startRead hne =>
    refine rankStep_startRead s.rw h.w_le ?_
    simp [Session.rank, Session.pendingBytes, Session.cursor, hf, Fut.weight]
  | sliceIndex hlt hle =>
    rw [(h.writeAll_fin hf).2.2.1] at hle
    exact absurd h.w_le hle
  | @flushed k pos fin hge =>
    obtain ⟨hc, -, hfin, hle⟩ := h.writeAll_fin hf
    have hpos : pos = fin := by omega
    unfold Session.flushed
    rw [if_pos hpos]
    cases k with
    | fillFlush =>
      refine rankStep_startRead s.rw.reset (Nat.zero_le _) ?_
      simp only [Session.rank, Session.pendingBytes, hf, Option.elim, Fut.weight, BufReadWrite.reset]
      omega
    | flush =>
      show Session.rank _ < s.rank
      simp only [Session.rank, Session.pendingBytes, Session.cursor, hf, Option.elim, Fut.weight,
        BufReadWrite.reset, Session.finish]
      omega
  | @written k pos fin res hlt hle =>
    obtain ⟨n, rfl, hpos, hn⟩ := hw res rfl
    have hlen := s.rw.length_slice pos hle
    simp only [Session.offered, hf] at hn
    obtain ⟨hc, -, hfin, -⟩ := h.writeAll_fin hf
    simp only [Session.written, if_neg (Nat.pos_iff_ne_zero.mp hpos)]
    show Session.rank _ < s.rank
    simp [Session.rank, Session.pendingBytes, Session.cursor, hf, Fut.weight, Session.goOn]
    omega
  | unpark =>
    show Session.rank _ < s.rank
    simp [Session.rank, Session.pendingBytes, Session.cursor, Session.writeAll, hf, Fut.weight]
  | @readOk n hn =>
    obtain ⟨hlen, hrest, -⟩ := of_decide_eq_true hn
    have hc := h.rOffset_le
    show Session.rank _ + 8 * n = s.rank
    simp [Session.rank, Session.pendingBytes, Session.cursor, hf, Fut.weight, Session.finish,
      BufReadWrite.fill]
    omega
  | readErr => exact absurd rfl he

/-! ### The reader -/

/-- The rank of a buffer at rest. -/
theorem Session.rank_of_rest (hf : s.fut = none) :
    s.rank = 9 * s.rest.length + (s.rw.wOffset - s.rw.rOffset) := by
  simp [rank, pendingBytes, cursor, hf]

theorem rank_startFill (hasData : Bool) (hf : r.session.fut = none) :
    (startFill r hasData).rank = r.session.rank + if hasData then 10 else 5 := by
  rw [Session.rank_of_rest hf]
  cases hasData <;>
    simp [startFill, Reader.rank, Reader.weight, Session.rank, Session.pendingBytes, Session.cursor,
      Fut.weight]

theorem rank_startFlush (pc : ReaderPc) : (startFlush r pc).rank =
    9 * r.session.rest.length + (r.session.rw.wOffset - r.session.rw.rOffset) + 1 +
      Reader.weight { r with pc } := rfl

/-- What `handle_reader` does with a healthy step of the future it awaits. -/
theorem rank_resume {e : Event} {p : Session × Option Done} {k : Caller}
    (h : ReaderOk config incoming r) (hk : r.pc.awaits = some k)
    (hw : ∀ res, e = .written res → ∃ n, res = .ok n ∧ 0 < n ∧ n ≤ r.session.offered.length)
    (he : e ≠ .readErr) (ha : r.session.advance e = some p) :
    (resume config r p).rank < r.rank ∧ (resume config r p).pc.failed = false := by
  obtain ⟨f, hf, rfl⟩ := Option.map_eq_some_iff.mp (h.fut k hk)
  have hwle : ∀ k pos fin n, f = .writeAll k pos fin → e = .written (.ok n) →
      n ≤ (r.session.rw.slice pos fin).length := by
    rintro k pos fin n rfl hev
    obtain ⟨m, hm, -, hle⟩ := hw _ hev
    cases hm
    simpa only [Session.offered, hf] using hle
  have hstep := h.ok.advance hf hwle ha
  have hrs := h.ok.rankStep hw he ha
  have hfail : r.pc.failed = false := by
    cases hpc : r.pc <;> rw [hpc] at hk <;> first | rfl | cases hk
  unfold RankStep at hrs
  unfold resume
  cases hd : p.2 with
  | none =>
    rw [hd] at hrs
    exact ⟨Nat.add_lt_add_right hrs _, hfail⟩
  | some d =>
    obtain ⟨hfut, -, hcall⟩ := hstep.ends d hd
    rw [hd] at hrs
    cases d with
    | failed e => exact hrs.elim
    | panicked p => exact hrs.elim
    | filled n =>
      -- only the loops await `fill_flush`
      have hpc : r.pc = .fillFlush := by
        cases hpc : r.pc with
        | fillFlush => rfl
        | tickFlush | lastFlush =>
          rw [hpc] at hk
          rw [← Option.some.inj hk] at hcall
          exact absurd rfl hcall
        | _ => rw [hpc] at hk; cases hk
      have hweight : 3 ≤ r.weight := by
        simp only [Reader.weight, hpc]
        split <;> omega
      simp only [awaited]
      split
      · refine ⟨?_, rfl⟩
        rw [rank_startFlush, ← Session.rank_of_rest hfut]
        simp only [Reader.weight, Reader.rank] at hweight ⊢
        omega
      · refine ⟨?_, rfl⟩
        rw [rank_startFill _ hfut]
        have hmax : (if autoFlush config then 10 else 5) ≤ 10 := by split <;> omega
        simp only [Reader.rank]
        omega
    | flushed =>
      simp only [awaited]
      split
      · rename_i hpc
        refine ⟨?_, rfl⟩
        show p.1.rank + 0 < r.session.rank + r.weight
        omega
      · rename_i hpc
        have hpc : r.pc = .tickFlush := by
          cases hp : r.pc with
          | tickFlush => rfl
          | lastFlush => exact absurd hp hpc
          | fillFlush =>
            rw [hp] at hk
            rw [← Option.some.inj hk] at hcall
            exact absurd rfl hcall
          | _ => rw [hp] at hk; cases hk
        refine ⟨?_, rfl⟩
        rw [rank_startFill _ hfut]
        simp only [Reader.rank, Reader.weight, hpc]
        simp only at hrs
        simp
        omega

/-- Every healthy step brings the reader nearer to its end, and none of them makes it fail. -/
theorem rank_lt {a : Act} (h : ReaderOk config incoming r) (ha : Healthy r a)
    (hs : step config r a = some r') : r'.rank < r.rank ∧ r'.pc.failed = false := by
  unfold step at hs
  split at hs
  · cases hs
  · rename_i hne
    obtain ⟨k, hk⟩ := Option.ne_none_iff_exists'.mp hne
    cases a with
    | poll =>
      obtain ⟨p, hp, rfl⟩ := Option.map_eq_some_iff.mp hs
      exact rank_resume h hk (fun _ he => by cases he) (by simp) hp
    | readOk n =>
      obtain ⟨p, hp, rfl⟩ := Option.map_eq_some_iff.mp hs
      exact rank_resume h hk (fun _ he => by cases he) (by simp) hp
    | readErr => exact ha.elim
    | onMsg err cbResult =>
      obtain ⟨rfl, hpos, hle⟩ := ha
      simp only [onMsg] at hs
      split at hs
      · rename_i k' pos fin hf
        split at hs
        · simp only [Session.offered, hf] at hle
          simp only [callInner, if_pos hpos, if_pos hle] at hs
          obtain ⟨p, hp, rfl⟩ := Option.map_eq_some_iff.mp hs
          refine rank_resume h hk (fun res he => ?_) (by simp) hp
          cases he
          refine ⟨cbResult.toNat, rfl, by omega, ?_⟩
          simp only [Session.offered, hf]; omega
        · cases hs
      · cases hs
    | tick =>
      simp only at hs
      split at hs
      · rename_i hc
        obtain rfl := Option.some.inj hs
        refine ⟨?_, rfl⟩
        have hcur : r.session.cursor = r.session.rw.rOffset := by
          refine Session.cursor_eq fun k pos fin hf => ?_
          have hp := hc.2.2.2
          simp [Session.pending, hf] at hp
        rw [rank_startFlush]
        simp only [Reader.rank, Reader.weight, hc.2.1, hc.2.2.1, Session.rank, Session.pendingBytes, hcur]
        simp
        omega
      · cases hs

theorem ranked_read (config : ConnConfig) (incoming : List UInt8) : (machine config incoming).Ranked
    Healthy (ReaderOk config incoming) Reader.rank where
  keeps _ _ _ hI _ hs := hI.step hs
  lt _ _ _ hI ha hs := (rank_lt hI ha hs).1

theorem ReaderOk.rank_le (h : ReaderOk config incoming r) :
    r.rank ≤ 9 * r.session.rest.length + msgBufSize config + 10 := by
  have hlen := h.ok.len
  have hw := h.ok.w_le
  have hfut : r.session.fut.elim 0 Fut.weight ≤ 2 := by
    cases r.session.fut with
    | none => exact Nat.zero_le _
    | some f => cases f <;> simp [Fut.weight]
  have hpc : r.weight ≤ 8 := by
    unfold Reader.weight
    split
    · split <;> omega
    all_goals omega
  simp only [Reader.rank, Session.rank, Session.pendingBytes]
  omega

/-! ### Where a run ends -/

/-- Where there is something to offer, `on_msg` may take one byte of it. -/
theorem ReaderOk.onMsg_one (h : ReaderOk config incoming r) (hk : r.pc.awaits ≠ none)
    (hoff : r.session.offered ≠ []) :
    Healthy r (.onMsg none 1) ∧ Incoming.step config r (.onMsg none 1) ≠ none := by
  have hpos := List.length_pos_iff.mpr hoff
  have hone : (1 : Int) ≤ r.session.offered.length := by omega
  refine ⟨⟨rfl, by decide, hone⟩, ?_⟩
  cases hf : r.session.fut with
  | none => simp [Session.offered, hf] at hoff
  | some f =>
    cases f with
    | writeAll k pos fin =>
      simp only [Session.offered, hf] at hpos hone
      have hle : fin ≤ r.session.rw.len := by
        obtain ⟨-, -, hfin, -⟩ := h.ok.writeAll_fin hf
        exact hfin ▸ h.ok.w_le
      have hlt : pos < fin := by
        rw [r.session.rw.length_slice pos hle] at hpos
        omega
      simp only [Incoming.step, if_neg hk, onMsg, hf, if_pos (And.intro hlt hle), callInner,
        if_pos hone, Session.advance, PollMsg.pollWrite]
      simp
    | _ => simp [Session.offered, hf] at hoff

/-- Until it has ended the reader has a step that is not a failure; only the end of the stream may be
    what it waits for. -/
theorem ReaderOk.progress {k : Caller} (h : ReaderOk config incoming r) (hk : r.pc.awaits = some k) :
    (∃ a, Healthy r a ∧ (∀ n, a ≠ .readOk n) ∧ Incoming.step config r a ≠ none) ∨
    (r.session.rest ≠ [] ∧ Incoming.step config r (.readOk 1) ≠ none) ∨
    (r.session.rest = [] ∧ Incoming.step config r (.readOk 0) ≠ none) := by
  obtain ⟨f, hf, rfl⟩ := Option.map_eq_some_iff.mp (h.fut k hk)
  have hne : r.pc.awaits ≠ none := by rw [hk]; simp
  cases f with
  | fillFlush =>
    refine .inl ⟨.poll, trivial, by simp, ?_⟩
    simp only [Incoming.step, if_neg hne, Session.advance, hf]
    split <;> simp
  | parked k =>
    refine .inl ⟨.poll, trivial, by simp, ?_⟩
    simp only [Incoming.step, if_neg hne, Session.advance, hf]
    simp
  | writeAll k pos fin =>
    obtain ⟨-, -, hfin, -⟩ := h.ok.writeAll_fin hf
    have hle : fin ≤ r.session.rw.len := hfin ▸ h.ok.w_le
    by_cases hlt : pos < fin
    · have hlen := r.session.rw.length_slice pos hle
      have hoff : r.session.offered ≠ [] := by
        simp only [Session.offered, hf]
        exact List.length_pos_iff.mp (by omega)
      obtain ⟨hh, hs⟩ := h.onMsg_one hne hoff
      exact .inl ⟨.onMsg none 1, hh, by simp, hs⟩
    · refine .inl ⟨.poll, trivial, by simp, ?_⟩
      simp only [Incoming.step, if_neg hne, Session.advance, hf, if_neg hlt]
      simp
  | read =>
    have hlt : r.session.rw.wOffset < r.session.rw.len := by
      have hfut := h.ok.fut
      simpa only [FutOk, hf] using hfut
    by_cases hrest : r.session.rest = []
    · refine .inr (.inr ⟨hrest, ?_⟩)
      have hread : r.session.canRead 0 = true := by simp [Session.canRead, hrest]
      simp [Incoming.step, hne, Session.advance, hf, hread]
    · refine .inr (.inl ⟨hrest, ?_⟩)
      have hpos : 1 ≤ r.session.rest.length := List.length_pos_iff.mpr hrest
      have hread : r.session.canRead 1 = true := by
        simp only [Session.canRead, decide_eq_true_eq]; omega
      simp [Incoming.step, hne, Session.advance, hf, hread]

/-- A reader that is neither at work nor failed has returned `Ok`. -/
theorem ReaderPc.cases_awaits {pc : ReaderPc} (h : pc.failed = false) :
    pc = .returnedOk ∨ ∃ k, pc.awaits = some k := by
  cases pc with
  | returnedErr e => cases h
  | panicked p => cases h
  | returnedOk => exact .inl rfl
  | fillFlush | tickFlush | lastFlush => exact .inr ⟨_, rfl⟩

/-- `Ok` means that everything was consumed. -/
theorem ReaderOk.consumed_all (h : ReaderOk config incoming r) (hpc : r.pc = .returnedOk) :
    takenBytes r.session.offers = incoming := by
  have hstream := h.ok.stream
  have heof := h.ok.eof (h.eof (.inr hpc))
  have hw := (h.ended hpc).2
  have hc : r.session.cursor = 0 := Nat.eq_zero_of_le_zero (hw ▸ h.ok.cursor_le)
  rwa [hc, hw, BufReadWrite.slice_self, heof, List.append_nil, List.append_nil] at hstream

/-- Over a finite stream, with a socket that does not fail and an `on_msg` that takes at least one of
    the bytes it is offered, every run of the reader is finite, whatever the sizes of the reads, of
    what `on_msg` takes, and the ticks; and a reader that comes to a stop has returned `Ok` after
    `on_msg` consumed the whole stream. -/
theorem reader_finishes (config : ConnConfig) (incoming : List UInt8) (r t : Reader) (as : List Act)
    (hr : (machine config incoming).Reach r) (hal : (machine config incoming).Along Healthy r as)
    (hrun : (machine config incoming).run r as = some t) :
    as.length ≤ 9 * r.session.rest.length + msgBufSize config + 10 ∧
    (r.pc.failed = false → (∀ a, Healthy t a → step config t a = none) →
      t.pc = .returnedOk ∧ takenBytes t.session.offers = incoming) := by
  have h := reach_readerOk hr
  obtain ⟨ht, hlen⟩ := (ranked_read config incoming).length_le h hal hrun
  refine ⟨?_, fun hf hst => ?_⟩
  · have := h.rank_le
    omega
  · have hft : t.pc.failed = false := by
      have hinv := (Machine.path_of_along hal hrun).invariant
        (I := fun u => ReaderOk config incoming u ∧ u.pc.failed = false) ⟨h, hf⟩
        fun u a v ha hu hs => ⟨hu.1.step hs, (rank_lt hu.1 ha hs).2⟩
      exact hinv.2
    rcases ReaderPc.cases_awaits hft with hpc | ⟨k, hk⟩
    · exact ⟨hpc, ht.consumed_all hpc⟩
    · rcases ht.progress hk with ⟨a, ha, -, hs⟩ | ⟨-, hs⟩ | ⟨-, hs⟩
      · exact absurd (hst a ha) hs
      · exact absurd (hst (.readOk 1) trivial) hs
      · exact absurd (hst (.readOk 0) trivial) hs

/-- Three bytes in two reads with a tick between them, from the first step on. -/
theorem reader_finishes_readThree : ∃ t : Reader,
    (machine ⟨0, 5, 0⟩ [1, 2, 3]).run (handleReader ⟨0, 5, 0⟩ [1, 2, 3])
      [.poll, .readOk 2, .poll, .tick, .onMsg none 1, .onMsg none 1, .poll, .poll, .readOk 1, .poll,
        .readOk 0, .onMsg none 1, .poll] = some t ∧
    t.pc = .returnedOk ∧ takenBytes t.session.offers = [1, 2, 3] := by
  have hrun : ((machine ⟨0, 5, 0⟩ [1, 2, 3]).run (handleReader ⟨0, 5, 0⟩ [1, 2, 3])
      [.poll, .readOk 2, .poll, .tick, .onMsg none 1, .onMsg none 1, .poll, .poll, .readOk 1, .poll,
        .readOk 0, .onMsg none 1, .poll]).any (fun t => decide (t.pc = .returnedOk)) = true := by
    decide +kernel
  obtain ⟨t, ht, hpc⟩ := (Option.any_eq_true _ _).mp hrun
  have hpc := of_decide_eq_true hpc
  obtain ⟨-, hend⟩ := reader_finishes ⟨0, 5, 0⟩ [1, 2, 3] _ t _ .refl (by decide +kernel) ht
  have hst : ∀ a, Healthy t a → step ⟨0, 5, 0⟩ t a = none := by
    intro a _
    simp [step, hpc, ReaderPc.awaits]
  exact ⟨t, ht, hpc, (hend rfl hst).2⟩

end SocketManager.Incoming
