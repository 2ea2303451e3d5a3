import SocketManager.Incoming.BufReadWrite
import SocketManager.Lib.Log

/-! The invariant of the buffer, whoever drives it. The bytes taken by the writer, then the pending
    slice, then what is not read yet make up the stream; inside `WriteAll::poll` the pending slice
    starts at the local `pos`, which is ahead of the stored read offset. Every step of a future
    keeps it, so a future may be dropped at any point where it is pending. -/

namespace SocketManager.Incoming
variable {incoming : List UInt8} {size : Nat} {s s' : Session} {d : Option Done}

/-! ### Slices -/

namespace BufReadWrite
variable (b : BufReadWrite)

theorem length_slice (start : Nat) {fin : Nat} (h : fin ≤ b.len) :
    (b.slice start fin).length = fin - start := by
  have := b.length_buf
  simp only [slice, List.length_drop, List.length_take]; omega

@[simp] theorem slice_self (start : Nat) : b.slice start start = [] := by
  simp only [slice]
  exact List.drop_eq_nil_of_le (List.length_take_le _ _)

/-- What is left of a slice after its first `n` bytes. -/
theorem drop_slice (start fin n : Nat) : (b.slice start fin).drop n = b.slice (start + n) fin :=
  List.drop_drop

/-- A fill goes behind the pending bytes. -/
theorem slice_fill {bytes : List UInt8} {start : Nat} (hs : start ≤ b.wOffset)
    (hn : b.wOffset + bytes.length ≤ b.len) :
    (b.fill bytes).slice start (b.wOffset + bytes.length) = b.slice start b.wOffset ++ bytes := by
  have hlen := b.length_buf
  have htake : (b.buf.take b.wOffset).length = b.wOffset := by
    rw [List.length_take]; omega
  have hall : (b.fill bytes).buf.take (b.wOffset + bytes.length) = b.buf.take b.wOffset ++ bytes := by
    simp only [fill, List.take_take]
    rw [Nat.min_eq_left hn]
    exact List.take_left' (by rw [List.length_append, htake])
  simp only [slice, hall]
  exact List.drop_append_of_le_length (by omega)

end BufReadWrite

/-! ### The invariant -/

/-- Where the pending bytes start. -/
def Session.cursor (s : Session) : Nat :=
  match s.fut with
  | some (.writeAll _ pos _) => pos
  | _ => s.rw.rOffset

/-- A call of `poll_write` got a non-empty slice, no longer than the buffer, that continues the
    stream right after the bytes taken before it. -/
structure OfferOk (incoming : List UInt8) (size : Nat) (before : List UInt8) (o : Offer) : Prop where
  ne : o.bytes ≠ []
  length_le : o.bytes.length ≤ size
  taken_le : o.taken ≤ o.bytes.length
  segment : o.bytes <+: incoming.drop before.length

/-- The locals of the future agree with the buffer. -/
def FutOk (s : Session) : Prop :=
  match s.fut with
  | some (.writeAll _ pos fin) => s.rw.rOffset ≤ pos ∧ fin = s.rw.wOffset
  | some .read => s.rw.wOffset < s.rw.len
  | _ => True

/-- The invariant of a session over the stream `incoming` with a buffer of `size` bytes. -/
structure Session.Ok (incoming : List UInt8) (size : Nat) (s : Session) : Prop where
  len : s.rw.len = size
  pos : 0 < size
  cursor_le : s.cursor ≤ s.rw.wOffset
  w_le : s.rw.wOffset ≤ s.rw.len
  fut : FutOk s
  stream : takenBytes s.offers ++ s.rw.slice s.cursor s.rw.wOffset ++ s.rest = incoming
  offers : ∀ pre o post, s.offers = pre ++ o :: post → OfferOk incoming size (takenBytes pre) o
  eof : s.eof = true → s.rest = []

/-- Whose future it is. -/
def Fut.caller : Fut → Caller
  | .fillFlush | .read => .fillFlush
  | .writeAll k _ _ | .parked k => k

def Caller.other : Caller → Caller
  | .fillFlush => .flush
  | .flush => .fillFlush

/-- Whose result it is, when it is not a failure. -/
def Done.caller : Done → Option Caller
  | .filled _ => some .fillFlush
  | .flushed => some .flush
  | _ => none

/-- What a future that ended leaves behind. It does not end in a panic. -/
def DoneOk (s : Session) : Done → Prop
  | .filled n => n = 0 → s.eof = true
  | .flushed => s.rw.rOffset = 0 ∧ s.rw.wOffset = 0
  | .failed _ => True
  | .panicked _ => False

theorem takenBytes_concat (offers : List Offer) (o : Offer) :
    takenBytes (offers ++ [o]) = takenBytes offers ++ o.bytes.take o.taken := by
  simp [takenBytes]

namespace Session

/-- The steps of a future, with their guards. -/
inductive Move (s : Session) : Fut → Event → Session × Option Done → Prop where
  | full (hw : s.rw.wOffset = s.rw.len) : Move s .fillFlush .poll (s.writeAll .fillFlush, none)
  | startRead (hw : s.rw.wOffset ≠ s.rw.len) : Move s .fillFlush .poll s.startRead
  | sliceIndex {k pos fin} (hlt : pos < fin) (hle : ¬ fin ≤ s.rw.len) :
      Move s (.writeAll k pos fin) .poll (s.finish (.panicked .sliceIndex))
  | flushed {k pos fin} (hge : ¬ pos < fin) :
      Move s (.writeAll k pos fin) .poll (s.flushed k pos fin)
  | written {k pos fin res} (hlt : pos < fin) (hle : fin ≤ s.rw.len) :
      Move s (.writeAll k pos fin) (.written res) (s.written k pos fin res)
  | unpark {k} : Move s (.parked k) .poll (s.writeAll k, none)
  | readOk {n} (hn : s.canRead n = true) :
      Move s .read (.readOk n) (finish { s with
        rw := s.rw.fill (s.rest.take n), rest := s.rest.drop n
        eof := s.eof || decide (n = 0 ∧ s.rw.wOffset < s.rw.len) } (.filled n))
  | readErr : Move s .read .readErr (s.finish (.failed .read))

theorem advance_cases {e : Event} {p : Session × Option Done} (ha : s.advance e = some p) :
    ∃ f, s.fut = some f ∧ s.Move f e p := by
  unfold Session.advance at ha
  split at ha
  · rename_i hf
    refine ⟨_, hf, ?_⟩
    split at ha <;> (rename_i hw; obtain rfl := Option.some.inj ha)
    · exact .full hw
    · exact .startRead hw
  · rename_i hf
    refine ⟨_, hf, ?_⟩
    split at ha
    · rename_i hlt
      split at ha
      · cases ha
      · rename_i hle
        obtain rfl := Option.some.inj ha; exact .sliceIndex hlt hle
    · rename_i hge
      obtain rfl := Option.some.inj ha; exact .flushed hge
  · rename_i hf
    refine ⟨_, hf, ?_⟩
    split at ha
    · rename_i hc
      obtain rfl := Option.some.inj ha; exact .written hc.1 hc.2
    · cases ha
  · rename_i hf
    obtain rfl := Option.some.inj ha; exact ⟨_, hf, .unpark⟩
  · rename_i hf
    refine ⟨_, hf, ?_⟩
    split at ha
    · rename_i hn
      obtain rfl := Option.some.inj ha; exact .readOk hn
    · cases ha
  · rename_i hf
    obtain rfl := Option.some.inj ha; exact ⟨_, hf, .readErr⟩
  · cases ha

/-- Outside a poll of `WriteAll` the pending bytes start at the read offset. -/
theorem cursor_eq (h : ∀ k pos fin, s.fut ≠ some (.writeAll k pos fin)) :
    s.cursor = s.rw.rOffset := by
  unfold cursor
  split
  · rename_i hf
    exact absurd hf (h _ _ _)
  · rfl

/-- A move between futures that leaves the buffer alone. -/
theorem Ok.withFut (h : s.Ok incoming size) (f : Option Fut)
    (hc : cursor { s with fut := f } = s.cursor) (hf : FutOk { s with fut := f }) :
    Ok incoming size { s with fut := f } :=
  ⟨h.len, h.pos, by rw [hc]; exact h.cursor_le, h.w_le, hf, by rw [hc]; exact h.stream, h.offers, h.eof⟩

/-- The slice inside `WriteAll::poll` is what is pending. -/
theorem Ok.writeAll_fin {k : Caller} {pos fin : Nat} (h : s.Ok incoming size)
    (hs : s.fut = some (.writeAll k pos fin)) :
    s.cursor = pos ∧ s.rw.rOffset ≤ pos ∧ fin = s.rw.wOffset ∧ pos ≤ s.rw.wOffset := by
  have hf := h.fut
  have hc := h.cursor_le
  simp only [FutOk, hs] at hf
  simp only [cursor, hs] at hc
  exact ⟨by simp only [cursor, hs], hf.1, hf.2, hc⟩

theorem Ok.rOffset_le (h : s.Ok incoming size) : s.rw.rOffset ≤ s.rw.wOffset := by
  by_cases hf : ∃ k pos fin, s.fut = some (.writeAll k pos fin)
  · obtain ⟨k, pos, fin, hf⟩ := hf
    obtain ⟨-, hr, -, hle⟩ := h.writeAll_fin hf
    exact hr.trans hle
  · have hle := h.cursor_le
    rwa [cursor_eq fun k pos fin hs => hf ⟨k, pos, fin, hs⟩] at hle

/-- The slice handed to `poll_write` is in order, however much of it is taken. -/
theorem Ok.offerOk {k : Caller} {pos fin n : Nat} (h : s.Ok incoming size)
    (hs : s.fut = some (.writeAll k pos fin)) (hlt : pos < fin)
    (hn : n ≤ (s.rw.slice pos fin).length) :
    OfferOk incoming size (takenBytes s.offers) ⟨s.rw.slice pos fin, n⟩ := by
  obtain ⟨hc, -, rfl, -⟩ := h.writeAll_fin hs
  have hlen := s.rw.length_slice pos h.w_le
  refine ⟨?_, ?_, hn, ?_⟩
  · intro hnil
    have hzero : (s.rw.slice pos s.rw.wOffset).length = 0 := congrArg List.length hnil
    omega
  · have := h.len
    have := h.w_le
    show (s.rw.slice pos s.rw.wOffset).length ≤ size
    omega
  · have hstream := h.stream
    rw [hc, List.append_assoc] at hstream
    rw [← hstream, List.drop_left]
    exact List.prefix_append _ _

/-! ### The steps of a future -/

/-- What one step of the future of `k` gives: the invariant, and a future of `k` still in progress or
    a result of its kind. -/
structure Step (incoming : List UInt8) (size : Nat) (k : Caller) (p : Session × Option Done) :
    Prop where
  ok : p.1.Ok incoming size
  goesOn : p.2 = none → p.1.fut.map Fut.caller = some k
  ends : ∀ r, p.2 = some r → p.1.fut = none ∧ DoneOk p.1 r ∧ r.caller ≠ some k.other

theorem Step.of_goOn {f : Fut} (h : Ok incoming size { s with fut := some f }) :
    Step incoming size f.caller (s.goOn f) :=
  ⟨h, fun _ => rfl, fun _ hr => by cases hr⟩

theorem Step.of_finish {k : Caller} {r : Done} (h : Ok incoming size { s with fut := none })
    (hr : DoneOk { s with fut := none } r) (hk : r.caller ≠ some k.other) :
    Step incoming size k (s.finish r) := by
  refine ⟨h, (fun hn => by cases hn), ?_⟩
  intro r' hr'
  obtain rfl := Option.some.inj hr'
  exact ⟨rfl, hr, hk⟩

/-- The future enters `WriteAll::poll`. -/
theorem Ok.writeAll (h : s.Ok incoming size) (k : Caller) (hc : s.cursor = s.rw.rOffset) :
    (s.writeAll k).Ok incoming size :=
  h.withFut _ hc.symm ⟨le_rfl, rfl⟩

/-- The read is never into an empty slice. -/
theorem Ok.startRead (h : s.Ok incoming size) (hc : s.cursor = s.rw.rOffset)
    (hlt : s.rw.wOffset < s.rw.len) : Step incoming size .fillFlush s.startRead := by
  rw [Session.startRead, if_pos h.w_le]
  exact .of_goOn (f := .read) (h.withFut (some .read) hc.symm hlt)

/-- Resetting the offsets of a drained buffer. -/
theorem Ok.reset {k : Caller} {pos fin : Nat} (h : s.Ok incoming size)
    (hs : s.fut = some (.writeAll k pos fin)) (hge : ¬ pos < fin) :
    pos = fin ∧ Ok incoming size { s with rw := s.rw.reset, fut := none } := by
  obtain ⟨hc, -, rfl, hle⟩ := h.writeAll_fin hs
  have heq : pos = s.rw.wOffset := by omega
  refine ⟨heq, h.len, h.pos, le_rfl, Nat.zero_le _, trivial, ?_, h.offers, h.eof⟩
  have hstream := h.stream
  rw [hc, heq, BufReadWrite.slice_self] at hstream
  show takenBytes s.offers ++ s.rw.reset.slice 0 0 ++ s.rest = incoming
  rw [BufReadWrite.slice_self]
  exact hstream

theorem Ok.flushed {k : Caller} {pos fin : Nat} (h : s.Ok incoming size)
    (hs : s.fut = some (.writeAll k pos fin)) (hge : ¬ pos < fin) :
    Step incoming size k (s.flushed k pos fin) := by
  obtain ⟨heq, hok⟩ := h.reset hs hge
  unfold Session.flushed
  rw [if_pos heq]
  cases k with
  | fillFlush =>
    have hread := hok.startRead rfl (by show 0 < s.rw.len; rw [h.len]; exact h.pos)
    exact hread
  | flush => exact .of_finish hok ⟨rfl, rfl⟩ (by simp [Done.caller, Caller.other])

/-- The writer took nothing: the read offset catches up with `pos`, and `WriteAll` is parked or over. -/
theorem Ok.none_taken {k : Caller} {pos fin : Nat} {f : Option Fut} (h : s.Ok incoming size)
    (hs : s.fut = some (.writeAll k pos fin)) (hlt : pos < fin)
    (hf : ∀ k pos fin, f ≠ some (.writeAll k pos fin)) (hread : f ≠ some .read) :
    Ok incoming size { s with
      offers := s.offers ++ [⟨s.rw.slice pos fin, 0⟩], rw := s.rw.setROffset pos, fut := f } := by
  obtain ⟨hc, hr, hfin, hle⟩ := h.writeAll_fin hs
  have hstream := h.stream
  rw [hc, ← hfin] at hstream
  have hcur : cursor { s with
      offers := s.offers ++ [⟨s.rw.slice pos fin, 0⟩], rw := s.rw.setROffset pos, fut := f } =
      pos := by
    cases f with
    | none => rfl
    | some f =>
      cases f with
      | writeAll k' p' f' => exact absurd rfl (hf k' p' f')
      | _ => rfl
  refine ⟨h.len, h.pos, by rw [hcur]; exact hle, h.w_le, ?_, ?_,
    Log.forall_concat h.offers (h.offerOk hs hlt (Nat.zero_le _)), h.eof⟩
  · cases f with
    | none => trivial
    | some f =>
      cases f with
      | writeAll k' p' f' => exact absurd rfl (hf k' p' f')
      | read => exact absurd rfl hread
      | _ => trivial
  · rw [hcur]
    show takenBytes (s.offers ++ _) ++ s.rw.slice pos s.rw.wOffset ++ s.rest = incoming
    rw [takenBytes_concat, List.take_zero, List.append_nil, ← hfin]
    exact hstream

/-- The answer of `poll_write`, when it takes no more than it was given. -/
theorem Ok.written {k : Caller} {pos fin : Nat} {res : PollWrite} (h : s.Ok incoming size)
    (hs : s.fut = some (.writeAll k pos fin)) (hlt : pos < fin)
    (hn : ∀ n, res = .ok n → n ≤ (s.rw.slice pos fin).length) :
    Step incoming size k (s.written k pos fin res) := by
  obtain ⟨hc, hr, hfin, hle⟩ := h.writeAll_fin hs
  have hlen : (s.rw.slice pos fin).length = fin - pos :=
    s.rw.length_slice pos (by rw [hfin]; exact h.w_le)
  have hstream := h.stream
  rw [hc, ← hfin] at hstream
  have hover : Ok incoming size { s with
      offers := s.offers ++ [⟨s.rw.slice pos fin, 0⟩], rw := s.rw.setROffset pos, fut := none } :=
    h.none_taken hs hlt (by simp) (by simp)
  cases res with
  | ok n =>
    have hn := hn n rfl
    simp only [Session.written]
    split
    · rename_i hzero
      subst hzero
      exact .of_finish hover trivial (by simp [Done.caller])
    · -- `n` bytes move from the pending slice to the taken ones
      refine .of_goOn (f := .writeAll k (pos + n) fin) ⟨h.len, h.pos, ?_, h.w_le,
        ⟨by show s.rw.rOffset ≤ pos + n; omega, hfin⟩, ?_,
        Log.forall_concat h.offers (h.offerOk hs hlt hn), h.eof⟩
      · show pos + n ≤ s.rw.wOffset
        omega
      · show takenBytes (s.offers ++ _) ++ s.rw.slice (pos + n) s.rw.wOffset ++ s.rest = incoming
        rw [takenBytes_concat, ← hfin, ← s.rw.drop_slice pos fin n, List.append_assoc (takenBytes _),
          List.take_append_drop]
        exact hstream
  | err e => exact .of_finish hover trivial (by simp [Done.caller])
  | pending => exact .of_goOn (f := .parked k) (h.none_taken hs hlt (by simp) (by simp))

/-- A read moves bytes from the stream into the buffer. -/
theorem Ok.readOk {n : Nat} (h : s.Ok incoming size) (hs : s.fut = some .read)
    (hn : s.canRead n = true) :
    Step incoming size .fillFlush (finish { s with
      rw := s.rw.fill (s.rest.take n), rest := s.rest.drop n
      eof := s.eof || decide (n = 0 ∧ s.rw.wOffset < s.rw.len) } (.filled n)) := by
  obtain ⟨hlen, hrest, hzero⟩ := of_decide_eq_true hn
  have hlt : s.rw.wOffset < s.rw.len := by have := h.fut; simpa [FutOk, hs] using this
  have hc : s.cursor = s.rw.rOffset := by simp only [cursor, hs]
  have hcur := h.cursor_le
  have htake : (s.rest.take n).length = n := by rw [List.length_take]; omega
  refine .of_finish ⟨h.len, h.pos, ?_, ?_, trivial, ?_, h.offers, ?_⟩ ?_
    (by simp [Done.caller, Caller.other])
  · show s.rw.rOffset ≤ s.rw.wOffset + (s.rest.take n).length
    omega
  · show s.rw.wOffset + (s.rest.take n).length ≤ s.rw.len
    omega
  · show takenBytes s.offers ++ (s.rw.fill (s.rest.take n)).slice s.rw.rOffset
      (s.rw.wOffset + (s.rest.take n).length) ++ s.rest.drop n = incoming
    rw [s.rw.slice_fill (by omega) (by omega), ← List.append_assoc, List.append_assoc _ (List.take _ _),
      List.take_append_drop, ← hc]
    exact h.stream
  · intro heof
    show s.rest.drop n = []
    rcases Bool.or_eq_true _ _ ▸ heof with heof | heof
    · rw [h.eof heof, List.drop_nil]
    · obtain ⟨rfl, -⟩ := of_decide_eq_true heof
      rcases hzero rfl with hfull | hnil
      · omega
      · rw [hnil, List.drop_nil]
  · intro hn0
    show (s.eof || decide (n = 0 ∧ s.rw.wOffset < s.rw.len)) = true
    rw [Bool.or_eq_true]
    exact .inr (decide_eq_true ⟨hn0, hlt⟩)

/-- Every step of a future keeps the invariant, with a writer that takes no more than it is given. -/
theorem Ok.advance {e : Event} {f : Fut} {p : Session × Option Done} (h : s.Ok incoming size)
    (hs : s.fut = some f)
    (hw : ∀ k pos fin n, f = .writeAll k pos fin → e = .written (.ok n) →
      n ≤ (s.rw.slice pos fin).length)
    (ha : s.advance e = some p) : Step incoming size f.caller p := by
  obtain ⟨f', hf', hm⟩ := advance_cases ha
  obtain rfl := Option.some.inj (hs.symm.trans hf')
  cases hm with
  | full _ => exact .of_goOn (h.writeAll .fillFlush (by simp only [cursor, hs]))
  | startRead hne =>
    exact h.startRead (by simp only [cursor, hs]) (Nat.lt_of_le_of_ne h.w_le hne)
  | sliceIndex hlt hle =>
    rw [(h.writeAll_fin hs).2.2.1] at hle
    exact absurd h.w_le hle
  | flushed hge => exact h.flushed hs hge
  | written hlt hle => exact h.written hs hlt fun n hn => hw _ _ _ n rfl (by rw [hn])
  | unpark => exact .of_goOn (h.writeAll _ (by simp only [cursor, hs]))
  | readOk hn => exact h.readOk hs hn
  | readErr =>
    exact .of_finish (h.withFut none (by simp only [cursor, hs]) trivial) trivial (by simp [Done.caller])

/-- A step forgets no call of `poll_write`, gives nothing back to the stream, and reports the end of
    the stream once and for all. -/
structure Grows (s s' : Session) : Prop where
  offers : s.offers <+: s'.offers
  rest : s'.rest.length ≤ s.rest.length
  eof : s.eof = true → s'.eof = true

/-- The buffer and the future do not count. -/
theorem Grows.same (s : Session) (rw : BufReadWrite) (fut : Option Fut) :
    Grows s { s with rw, fut } := ⟨List.prefix_rfl, le_rfl, id⟩

theorem grows_startRead (rw : BufReadWrite) : Grows s (startRead { s with rw }).1 := by
  unfold startRead
  split <;> exact .same s _ _

theorem grows_flushed {k : Caller} {pos fin : Nat} : Grows s (s.flushed k pos fin).1 := by
  unfold Session.flushed
  split
  · split
    · exact grows_startRead _
    · exact .same s _ _
  · exact .same s _ _

theorem grows_written {k : Caller} {pos fin : Nat} (res : PollWrite) :
    Grows s (s.written k pos fin res).1 := by
  cases res with
  | ok n =>
    simp only [Session.written]
    split <;> exact ⟨List.prefix_append _ _, le_rfl, id⟩
  | _ => exact ⟨List.prefix_append _ _, le_rfl, id⟩

theorem grows_advance {e : Event} {p : Session × Option Done} (ha : s.advance e = some p) :
    Grows s p.1 := by
  obtain ⟨f, -, hm⟩ := advance_cases ha
  cases hm with
  | full | sliceIndex | unpark | readErr => exact .same s _ _
  | startRead => exact grows_startRead s.rw
  | flushed => exact grows_flushed
  | written => exact grows_written _
  | readOk =>
    refine ⟨List.prefix_rfl, ?_, fun heof => Bool.or_eq_true_iff.mpr (.inl heof)⟩
    exact (List.length_drop ..).trans_le (Nat.sub_le _ _)

/-- Dropping a pending future keeps the invariant. -/
theorem Ok.drop (h : s.Ok incoming size) (hp : s.pending = true) :
    Ok incoming size { s with fut := none } := by
  have hc : s.cursor = s.rw.rOffset := by
    refine cursor_eq fun k pos fin hs => ?_
    simp [Session.pending, hs] at hp
  exact h.withFut none hc.symm trivial

end Session

end SocketManager.Incoming
