import SocketManager.Lib.Text

/-! Socket addresses as `SocketAddr` displays them, and the string that `ConnCallback::conns` is keyed
    by: the local address and the peer address of a connection, one behind the other.

        127.0.0.1:8080 10.0.0.7:51234          [::1]:8080 [fe80::7]:51234
                      ▲ nothing here

    An IPv6 address stands in brackets, so such a key can be cut in one way only. An IPv4 key cannot:
    where the digits of the local port end and those of the peer's first octet begin is not marked. -/

namespace SocketManager.Api
open Text

/-! ### Addresses and their text -/

/-- `{}` of an unsigned number. -/
def dec (n : Nat) : List Char := Nat.toDigits 10 n

/-- `{:x}` of a segment. -/
def hex (segment : UInt16) : List Char := Nat.toDigits 16 segment.toNat

@[ext]
structure Ipv4Addr where
  a : UInt8
  b : UInt8
  c : UInt8
  d : UInt8
  deriving DecidableEq

def Ipv4Addr.fmt (ip : Ipv4Addr) : List Char :=
  dec ip.a.toNat ++ '.' :: (dec ip.b.toNat ++ '.' :: (dec ip.c.toNat ++ '.' :: dec ip.d.toNat))

@[ext]
structure Ipv6Addr where
  s0 : UInt16
  s1 : UInt16
  s2 : UInt16
  s3 : UInt16
  s4 : UInt16
  s5 : UInt16
  s6 : UInt16
  s7 : UInt16
  deriving DecidableEq

/-- A run of segments. -/
structure Span where
  start : Nat
  len : Nat

/-- The loop that looks for the longest run of zeroes, the first one if there are several. -/
def zeroes : List UInt16 → Nat → Span → Span → Span
  | [], _, longest, _ => longest
  | segment :: segments, i, longest, current =>
    if segment = 0 then
      let current : Span := ⟨if current.len = 0 then i else current.start, current.len + 1⟩
      zeroes segments (i + 1) (if longest.len < current.len then current else longest) current
    else zeroes segments (i + 1) longest ⟨0, 0⟩

namespace Ipv6Addr

def segments (ip : Ipv6Addr) : List UInt16 :=
  [ip.s0, ip.s1, ip.s2, ip.s3, ip.s4, ip.s5, ip.s6, ip.s7]

def toIpv4Mapped (ip : Ipv6Addr) : Option Ipv4Addr :=
  if ip.s0 = 0 ∧ ip.s1 = 0 ∧ ip.s2 = 0 ∧ ip.s3 = 0 ∧ ip.s4 = 0 ∧ ip.s5 = 0xffff then
    some ⟨(ip.s6 >>> 8).toUInt8, ip.s6.toUInt8, (ip.s7 >>> 8).toUInt8, ip.s7.toUInt8⟩
  else none

def span (ip : Ipv6Addr) : Span := zeroes ip.segments 0 ⟨0, 0⟩ ⟨0, 0⟩

def fmt (ip : Ipv6Addr) : List Char :=
  match ip.toIpv4Mapped with
  | some ipv4 => "::ffff:".toList ++ ipv4.fmt
  | none =>
    if 1 < ip.span.len then
      double hex ':' (ip.segments.take ip.span.start)
        (ip.segments.drop (ip.span.start + ip.span.len))
    else join hex ':' ip.segments

end Ipv6Addr

structure SocketAddrV4 where
  ip : Ipv4Addr
  port : UInt16
  deriving DecidableEq

structure SocketAddrV6 where
  ip : Ipv6Addr
  port : UInt16
  deriving DecidableEq

inductive SocketAddr where
  | v4 (addr : SocketAddrV4)
  | v6 (addr : SocketAddrV6)
  deriving DecidableEq

def SocketAddr.fmt : SocketAddr → List Char
  | .v4 addr => addr.ip.fmt ++ ':' :: dec addr.port.toNat
  | .v6 addr => '[' :: (addr.ip.fmt ++ ']' :: ':' :: dec addr.port.toNat)

/-- The two addresses of a connection, of one family. -/
inductive AddrPair where
  | v4 (localAddr peerAddr : SocketAddrV4)
  | v6 (localAddr peerAddr : SocketAddrV6)
  deriving DecidableEq

namespace AddrPair

def localAddr : AddrPair → SocketAddr
  | .v4 addr _ => .v4 addr
  | .v6 addr _ => .v6 addr

def peerAddr : AddrPair → SocketAddr
  | .v4 _ addr => .v4 addr
  | .v6 _ addr => .v6 addr

/-- `conn->local_address() + conn->peer_address()` -/
def connKey (pair : AddrPair) : List Char := pair.localAddr.fmt ++ pair.peerAddr.fmt

end AddrPair

/-! ### Numbers -/

theorem dec_inj {m n : Nat} (h : dec m = dec n) : m = n :=
  toDigits_inj (by decide) (by decide) m n h

theorem not_mem_dec {sep : Char} (hsep : ∀ d < 16, sep ≠ d.digitChar) (n : Nat) : sep ∉ dec n :=
  not_mem_toDigits (by decide) (by decide) hsep n

theorem dot_not_mem_dec (n : Nat) : '.' ∉ dec n := not_mem_dec (by decide) n

theorem colon_not_mem_dec (n : Nat) : ':' ∉ dec n := not_mem_dec (by decide) n

theorem not_mem_hex {sep : Char} (hsep : ∀ d < 16, sep ≠ d.digitChar) (segment : UInt16) :
    sep ∉ hex segment :=
  not_mem_toDigits (by decide) (by decide) hsep _

theorem hex_fields : Fields hex ':' where
  ne_nil _ := Nat.toDigits_ne_nil
  sep := not_mem_hex (by decide)
  inj x y h := UInt16.toNat_inj.mp (toDigits_inj (by decide) (by decide) _ _ h)

theorem dec_octet_inj {x y : UInt8} (h : dec x.toNat = dec y.toNat) : x = y :=
  UInt8.toNat_inj.mp (dec_inj h)

theorem dec_port_inj {x y : UInt16} (h : dec x.toNat = dec y.toNat) : x = y :=
  UInt16.toNat_inj.mp (dec_inj h)

/-! ### IPv4 -/

/-- An IPv4 address can be read off a text that goes on with something else than a digit. -/
theorem Ipv4Addr.fmt_inj {x y : Ipv4Addr} {us vs : List Char}
    (h : x.fmt ++ ':' :: us = y.fmt ++ ':' :: vs) : x = y ∧ us = vs := by
  simp only [fmt, List.append_assoc, List.cons_append] at h
  obtain ⟨ha, h⟩ := cut (dot_not_mem_dec _) (dot_not_mem_dec _) h
  obtain ⟨hb, h⟩ := cut (dot_not_mem_dec _) (dot_not_mem_dec _) h
  obtain ⟨hc, h⟩ := cut (dot_not_mem_dec _) (dot_not_mem_dec _) h
  obtain ⟨hd, h⟩ := cut (colon_not_mem_dec _) (colon_not_mem_dec _) h
  refine ⟨Ipv4Addr.ext ?_ ?_ ?_ ?_, h⟩
  · exact dec_octet_inj ha
  · exact dec_octet_inj hb
  · exact dec_octet_inj hc
  · exact dec_octet_inj hd

theorem Ipv4Addr.mem_fmt {c : Char} {ip : Ipv4Addr} (h : c ∈ ip.fmt) : c = '.' ∨ ∃ n, c ∈ dec n := by
  simp only [fmt, List.mem_append, List.mem_cons] at h
  rcases h with h | rfl | h | rfl | h | rfl | h
  · exact .inr ⟨_, h⟩
  · exact .inl rfl
  · exact .inr ⟨_, h⟩
  · exact .inl rfl
  · exact .inr ⟨_, h⟩
  · exact .inl rfl
  · exact .inr ⟨_, h⟩

/-! ### IPv6 -/

/-- A run of zeroes in a list of segments. -/
def IsZeroes (segments : List UInt16) (span : Span) : Prop :=
  (segments.drop span.start).take span.len = List.replicate span.len 0

/-- A run of zeroes that ends where the loop is goes on with the next zero. -/
theorem IsZeroes.extend {pre rest : List UInt16} {span : Span} (h : IsZeroes (pre ++ 0 :: rest) span)
    (hend : span.start + span.len = pre.length) :
    IsZeroes (pre ++ 0 :: rest) ⟨span.start, span.len + 1⟩ := by
  have hget : ((pre ++ 0 :: rest).drop span.start)[span.len]? = some 0 := by
    rw [List.getElem?_drop, hend, List.getElem?_append_right (Nat.le_refl _), Nat.sub_self]
    rfl
  show ((pre ++ 0 :: rest).drop span.start).take (span.len + 1) = _
  rw [List.take_add_one, h, hget, List.replicate_succ']
  rfl

/-- The loop finds a run of zeroes. -/
theorem isZeroes_zeroes : ∀ (rest pre : List UInt16) (longest current : Span),
    IsZeroes (pre ++ rest) longest → IsZeroes (pre ++ rest) current →
    (current.len ≠ 0 → current.start + current.len = pre.length) →
    IsZeroes (pre ++ rest) (zeroes rest pre.length longest current) := by
  intro rest
  induction rest with
  | nil => exact fun _ _ _ hl _ _ => hl
  | cons segment rest ih =>
    intro pre longest current hl hc hend
    have hpre : pre ++ segment :: rest = pre ++ [segment] ++ rest := by simp
    have hlen : pre.length + 1 = (pre ++ [segment]).length := by simp
    simp only [zeroes]
    split
    · rename_i hzero
      subst hzero
      let next : Span := ⟨if current.len = 0 then pre.length else current.start, current.len + 1⟩
      have hnext : IsZeroes (pre ++ 0 :: rest) next := by
        rcases Nat.eq_zero_or_pos current.len with h0 | hpos
        · have hfirst : IsZeroes (pre ++ 0 :: rest) ⟨pre.length, 0⟩ := rfl
          simpa [next, h0] using hfirst.extend rfl
        · have hne : current.len ≠ 0 := by omega
          simpa only [next, if_neg hne] using hc.extend (hend hne)
      have hbest : IsZeroes (pre ++ 0 :: rest)
          (if longest.len < next.len then next else longest) := by
        split
        · exact hnext
        · exact hl
      rw [hlen]
      rw [hpre] at hbest hnext ⊢
      refine ih (pre ++ [0]) _ next hbest hnext fun _ => ?_
      show (if current.len = 0 then pre.length else current.start) + (current.len + 1) = _
      split
      · rename_i h0
        rw [h0, ← hlen]
      · rename_i hne
        rw [← hlen, ← hend hne, Nat.add_assoc]
    · rw [hlen]
      rw [hpre] at hl ⊢
      exact ih (pre ++ [segment]) longest ⟨0, 0⟩ hl rfl (fun h => absurd rfl h)

theorem Ipv6Addr.isZeroes_span (ip : Ipv6Addr) : IsZeroes ip.segments ip.span :=
  isZeroes_zeroes ip.segments [] ⟨0, 0⟩ ⟨0, 0⟩ rfl rfl (fun h => absurd rfl h)

/-- What is left out of the text is a run of zeroes, so the rest determines the segments. -/
theorem IsZeroes.segments_eq {segments segments' : List UInt16} {span span' : Span}
    (h : IsZeroes segments span) (h' : IsZeroes segments' span')
    (hlen : segments.length = segments'.length)
    (htake : segments.take span.start = segments'.take span'.start)
    (hdrop : segments.drop (span.start + span.len) = segments'.drop (span'.start + span'.len)) :
    segments = segments' := by
  have split : ∀ {l : List UInt16} {sp : Span}, IsZeroes l sp →
      l = l.take sp.start ++ (List.replicate sp.len 0 ++ l.drop (sp.start + sp.len)) := by
    intro l sp hz
    rw [← hz, ← List.drop_drop, List.take_append_drop, List.take_append_drop]
  have hs := split h
  have hs' := split h'
  have hcount : span.len = span'.len := by
    have hl := congrArg List.length hs
    have hl' := congrArg List.length hs'
    rw [htake, hdrop] at hl
    simp only [List.length_append, List.length_replicate] at hl hl'
    omega
  rw [hs, hs', htake, hdrop, hcount]

namespace Ipv6Addr
variable {x y : Ipv6Addr}

theorem segments_inj (h : x.segments = y.segments) : x = y := by
  simp only [segments, List.cons.injEq] at h
  obtain ⟨h0, h1, h2, h3, h4, h5, h6, h7, -⟩ := h
  exact Ipv6Addr.ext h0 h1 h2 h3 h4 h5 h6 h7

/-- A segment can be read off its two bytes. -/
theorem bytes_inj {v w : UInt16} (hhi : (v >>> 8).toUInt8 = (w >>> 8).toUInt8)
    (hlo : v.toUInt8 = w.toUInt8) : v = w := by
  have hhi := congrArg UInt8.toNat hhi
  have hlo := congrArg UInt8.toNat hlo
  have hshift : 2 ^ (8 % 2 ^ 16 % 16) = 256 := by decide
  simp only [UInt16.toNat_toUInt8, UInt16.toNat_shiftRight, UInt16.toNat_ofNat,
    Nat.shiftRight_eq_div_pow, hshift] at hhi hlo
  have hv := v.toNat_lt
  have hw := w.toNat_lt
  apply UInt16.toNat_inj.mp
  omega

theorem toIpv4Mapped_inj {ip : Ipv4Addr} (hx : x.toIpv4Mapped = some ip)
    (hy : y.toIpv4Mapped = some ip) : x = y := by
  unfold toIpv4Mapped at hx hy
  split at hx
  · rename_i hzx
    split at hy
    · rename_i hzy
      obtain rfl := Option.some.inj hx
      have heq := Option.some.inj hy
      simp only [Ipv4Addr.mk.injEq] at heq
      obtain ⟨ha, hb, hc, hd⟩ := heq
      obtain ⟨x0, x1, x2, x3, x4, x5⟩ := hzx
      obtain ⟨y0, y1, y2, y3, y4, y5⟩ := hzy
      exact Ipv6Addr.ext (x0.trans y0.symm) (x1.trans y1.symm) (x2.trans y2.symm)
        (x3.trans y3.symm) (x4.trans y4.symm) (x5.trans y5.symm) (bytes_inj ha hb).symm
        (bytes_inj hc hd).symm
    · cases hy
  · cases hx

/-- The text without an embedded IPv4 address. -/
theorem mem_fmt_none {c : Char} (h : x.toIpv4Mapped = none) (hc : c ∈ x.fmt) :
    c = ':' ∨ ∃ segment, c ∈ hex segment := by
  simp only [fmt, h] at hc
  split at hc
  · exact mem_double hc
  · exact mem_join hc

/-- Only the text of a mapped address has a dot. -/
theorem dot_mem_fmt : '.' ∈ x.fmt ↔ x.toIpv4Mapped ≠ none := by
  cases h : x.toIpv4Mapped with
  | none =>
    refine ⟨fun hdot => ?_, fun hne => absurd rfl hne⟩
    rcases mem_fmt_none h hdot with hc | ⟨segment, hc⟩
    · cases hc
    · exact absurd hc (not_mem_hex (by decide) segment)
  | some ip => simp [fmt, h, Ipv4Addr.fmt]

theorem fmt_inj (h : x.fmt = y.fmt) : x = y := by
  have hdot : x.toIpv4Mapped ≠ none ↔ y.toIpv4Mapped ≠ none := by
    rw [← dot_mem_fmt, ← dot_mem_fmt, h]
  cases hx : x.toIpv4Mapped with
  | some ip =>
    cases hy : y.toIpv4Mapped with
    | none => exact absurd hy (hdot.mp (by rw [hx]; simp))
    | some ip' =>
      simp only [fmt, hx, hy] at h
      have hip := List.append_cancel_left h
      have heq : ip = ip' := (Ipv4Addr.fmt_inj (congrArg (· ++ ':' :: []) hip)).1
      exact toIpv4Mapped_inj hx (heq ▸ hy)
  | none =>
    have hy : y.toIpv4Mapped = none := by
      by_contra hne
      exact absurd hx (hdot.mpr hne)
    apply segments_inj
    simp only [fmt, hx, hy] at h
    split at h <;> split at h
    · obtain ⟨htake, hdrop⟩ := hex_fields.double_inj h
      exact x.isZeroes_span.segments_eq y.isZeroes_span rfl htake hdrop
    · exact absurd h.symm hex_fields.join_ne_double
    · exact absurd h hex_fields.join_ne_double
    · exact hex_fields.join_inj h

example : fmt ⟨0xfe80, 0, 0, 1, 0, 0, 0, 0xa⟩ = "fe80:0:0:1::a".toList := by decide +kernel

example : fmt ⟨0, 0, 0, 0, 0, 0xffff, 0x7f00, 1⟩ = "::ffff:127.0.0.1".toList := by decide +kernel

theorem bracket_not_mem_fmt : ']' ∉ x.fmt := by
  intro hc
  cases h : x.toIpv4Mapped with
  | none =>
    rcases mem_fmt_none h hc with hc | ⟨segment, hc⟩
    · cases hc
    · exact absurd hc (not_mem_hex (by decide) segment)
  | some ip =>
    simp only [fmt, h] at hc
    rcases List.mem_append.mp hc with hc | hc
    · revert hc; decide
    · rcases Ipv4Addr.mem_fmt hc with hc | ⟨n, hc⟩
      · cases hc
      · exact absurd hc (not_mem_dec (by decide) n)

end Ipv6Addr

/-! ### The key of a connection -/

namespace AddrPair

/-- The digits `more` stand at the end of the one local port and at the front of the other peer's
    first octet. -/
def Shifts (l p l' p' : SocketAddrV4) (more : List Char) : Prop :=
  more ≠ [] ∧ dec l'.port.toNat = dec l.port.toNat ++ more ∧
    dec p.ip.a.toNat = more ++ dec p'.ip.a.toNat

/-- Two IPv4 pairs that differ only in how digits are divided between the local port and the first
    octet of the peer. -/
def Clash : AddrPair → AddrPair → Prop
  | .v4 l p, .v4 l' p' =>
    l.ip = l'.ip ∧ p.ip.b = p'.ip.b ∧ p.ip.c = p'.ip.c ∧ p.ip.d = p'.ip.d ∧ p.port = p'.port ∧
      ∃ more, Shifts l p l' p' more ∨ Shifts l' p' l p more
  | _, _ => False

/-- What two equal IPv4 keys have in common. -/
theorem connKey_v4 {l p l' p' : SocketAddrV4} :
    (AddrPair.v4 l p).connKey = (AddrPair.v4 l' p').connKey ↔
      l.ip = l'.ip ∧ p.ip.b = p'.ip.b ∧ p.ip.c = p'.ip.c ∧ p.ip.d = p'.ip.d ∧ p.port = p'.port ∧
        dec l.port.toNat ++ dec p.ip.a.toNat = dec l'.port.toNat ++ dec p'.ip.a.toNat := by
  have hdot : ∀ m n, '.' ∉ dec m ++ dec n := by
    intro m n h
    rcases List.mem_append.mp h with h | h
    · exact dot_not_mem_dec m h
    · exact dot_not_mem_dec n h
  have htext : ∀ l p : SocketAddrV4, (AddrPair.v4 l p).connKey =
      l.ip.fmt ++ ':' :: ((dec l.port.toNat ++ dec p.ip.a.toNat) ++ '.' ::
        (dec p.ip.b.toNat ++ '.' :: (dec p.ip.c.toNat ++ '.' ::
          (dec p.ip.d.toNat ++ ':' :: dec p.port.toNat)))) := by
    intro l p
    simp [connKey, localAddr, peerAddr, SocketAddr.fmt, Ipv4Addr.fmt]
  rw [htext, htext]
  constructor
  · intro h
    obtain ⟨hip, h⟩ := Ipv4Addr.fmt_inj h
    obtain ⟨ha, h⟩ := cut (hdot _ _) (hdot _ _) h
    obtain ⟨hb, h⟩ := cut (dot_not_mem_dec _) (dot_not_mem_dec _) h
    obtain ⟨hc, h⟩ := cut (dot_not_mem_dec _) (dot_not_mem_dec _) h
    obtain ⟨hd, h⟩ := cut (colon_not_mem_dec _) (colon_not_mem_dec _) h
    exact ⟨hip, dec_octet_inj hb, dec_octet_inj hc, dec_octet_inj hd, dec_port_inj h, ha⟩
  · rintro ⟨hip, hb, hc, hd, hport, ha⟩
    rw [hip, hb, hc, hd, hport, ha]

theorem connKey_v6 {l p l' p' : SocketAddrV6}
    (h : (AddrPair.v6 l p).connKey = (AddrPair.v6 l' p').connKey) : l = l' ∧ p = p' := by
  have hopen : ∀ n, '[' ∉ dec n := not_mem_dec (by decide)
  simp only [connKey, localAddr, peerAddr, SocketAddr.fmt, List.cons_append, List.append_assoc] at h
  obtain ⟨hl, h⟩ := cut Ipv6Addr.bracket_not_mem_fmt Ipv6Addr.bracket_not_mem_fmt (List.cons.inj h).2
  obtain ⟨hlp, h⟩ := cut (hopen _) (hopen _) (List.cons.inj h).2
  obtain ⟨hp, h⟩ := cut Ipv6Addr.bracket_not_mem_fmt Ipv6Addr.bracket_not_mem_fmt h
  have hpp := (List.cons.inj h).2
  cases l; cases l'; cases p; cases p'
  simp only [SocketAddrV6.mk.injEq]
  exact ⟨⟨Ipv6Addr.fmt_inj hl, dec_port_inj hlp⟩, Ipv6Addr.fmt_inj hp, dec_port_inj hpp⟩

/-- An IPv4 key begins with a digit, an IPv6 key with a bracket. -/
theorem connKey_v4_ne_v6 {l p : SocketAddrV4} {l' p' : SocketAddrV6} :
    (AddrPair.v4 l p).connKey ≠ (AddrPair.v6 l' p').connKey := by
  intro h
  rcases hd : dec l.ip.a.toNat with _ | ⟨c, cs⟩
  · exact Nat.toDigits_ne_nil hd
  · simp only [connKey, localAddr, peerAddr, SocketAddr.fmt, Ipv4Addr.fmt, hd, List.cons_append] at h
    have hmem : '[' ∈ dec l.ip.a.toNat := by
      rw [hd, (List.cons.inj h).1]; exact List.mem_cons_self
    exact not_mem_dec (by decide) _ hmem

/-- The ways in which the digits of a port and an octet can be cut differently. -/
theorem shifts_of_append {l p l' p' : SocketAddrV4} (hne : l.port ≠ l'.port)
    (h : dec l.port.toNat ++ dec p.ip.a.toNat = dec l'.port.toNat ++ dec p'.ip.a.toNat) :
    ∃ more, Shifts l p l' p' more ∨ Shifts l' p' l p more := by
  rcases List.append_eq_append_iff.mp h with ⟨more, hport, hoct⟩ | ⟨more, hport, hoct⟩
  · refine ⟨more, .inl ⟨?_, hport, hoct⟩⟩
    rintro rfl
    rw [List.append_nil] at hport
    exact hne (dec_port_inj hport).symm
  · refine ⟨more, .inr ⟨?_, hport, hoct⟩⟩
    rintro rfl
    rw [List.append_nil] at hport
    exact hne (dec_port_inj hport)

theorem Shifts.append {l p l' p' : SocketAddrV4} {more : List Char} (h : Shifts l p l' p' more) :
    dec l.port.toNat ++ dec p.ip.a.toNat = dec l'.port.toNat ++ dec p'.ip.a.toNat ∧
      l.port ≠ l'.port := by
  obtain ⟨hne, hport, hoct⟩ := h
  refine ⟨by rw [hport, hoct, List.append_assoc], fun heq => hne ?_⟩
  rw [heq] at hport
  simpa using hport

end AddrPair

/-- Equal keys mean equal addresses exactly for pairs that do not clash. -/
theorem connKey_injective_iff (x y : AddrPair) : (x.connKey = y.connKey → x = y) ↔ ¬ x.Clash y := by
  cases x with
  | v6 l p =>
    cases y with
    | v4 l' p' => exact ⟨fun _ => id, fun _ h => absurd h.symm AddrPair.connKey_v4_ne_v6⟩
    | v6 l' p' =>
      refine ⟨fun _ => id, fun _ h => ?_⟩
      obtain ⟨rfl, rfl⟩ := AddrPair.connKey_v6 h
      rfl
  | v4 l p =>
    cases y with
    | v6 l' p' => exact ⟨fun _ => id, fun _ h => absurd h AddrPair.connKey_v4_ne_v6⟩
    | v4 l' p' =>
      constructor
      · rintro hinj ⟨hip, hb, hc, hd, hport, more, hmore⟩
        obtain ⟨hdig, hne⟩ : dec l.port.toNat ++ dec p.ip.a.toNat =
            dec l'.port.toNat ++ dec p'.ip.a.toNat ∧ l.port ≠ l'.port := by
          rcases hmore with h | h
          · exact h.append
          · exact ⟨h.append.1.symm, h.append.2.symm⟩
        have heq := hinj (AddrPair.connKey_v4.mpr ⟨hip, hb, hc, hd, hport, hdig⟩)
        cases heq
        exact hne rfl
      · intro hno h
        obtain ⟨hip, hb, hc, hd, hport, hdig⟩ := AddrPair.connKey_v4.mp h
        by_cases hlp : l.port = l'.port
        · rw [hlp] at hdig
          have ha := dec_octet_inj (List.append_cancel_left hdig)
          have hl : l = l' := by cases l; cases l'; simp_all
          have hp : p = p' := by
            cases p; cases p'
            simp only [SocketAddrV4.mk.injEq]
            exact ⟨Ipv4Addr.ext ha hb hc hd, hport⟩
          rw [hl, hp]
        · exact absurd ⟨hip, hb, hc, hd, hport, AddrPair.shifts_of_append hlp hdig⟩ hno

/-- `127.0.0.1:1` to `23.0.0.1:80` and `127.0.0.1:12` to `3.0.0.1:80`. -/
theorem connKey_collision :
    let x := AddrPair.v4 ⟨⟨127, 0, 0, 1⟩, 1⟩ ⟨⟨23, 0, 0, 1⟩, 80⟩
    let y := AddrPair.v4 ⟨⟨127, 0, 0, 1⟩, 12⟩ ⟨⟨3, 0, 0, 1⟩, 80⟩
    x.connKey = y.connKey ∧ x ≠ y ∧ x.connKey = "127.0.0.1:123.0.0.1:80".toList := by
  decide +kernel

end SocketManager.Api
