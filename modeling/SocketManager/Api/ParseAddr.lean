import Mathlib.Data.List.TakeWhile
import SocketManager.Api.SocketAddr
import SocketManager.Lib.Reading
import SocketManager.Manager.Join

/-! The addresses that the user gives to `listen_on_addr`, `connect_to_addr` and `cancel_listen_on_addr`
    are texts, and so are the addresses that the events bring. `socket_addr` (c_api/utils.rs) parses the
    first as the standard library does; the second are displayed. What was displayed is parsed back, so
    an address from an event can be given to any of the calls and means the same there.

        addr ──display──▶ CString ──▶ on_listen_error, local_address …
                                               │
        addr ◀──parse── CStr::to_str ◀── c_str ┘──▶ cancel_listen_on_addr …

    An address has here all that `SocketAddr` has: the text of an IPv6 address shows the scope, if there
    is one, and never the flow information. -/

namespace SocketManager.Api
open Manager Text

/-! ### Addresses -/

/-- `std::net::SocketAddrV6` -/
structure FullAddrV6 extends SocketAddrV6 where
  flowinfo : UInt32
  scopeId : UInt32
  deriving DecidableEq

/-- `std::net::SocketAddr` -/
inductive FullAddr where
  | v4 (addr : SocketAddrV4)
  | v6 (addr : FullAddrV6)
  deriving DecidableEq

namespace FullAddr

def fmt : FullAddr → List Char
  | .v4 addr => addr.ip.fmt ++ ':' :: dec addr.port.toNat
  | .v6 addr =>
    if addr.scopeId = 0 then '[' :: (addr.ip.fmt ++ ']' :: ':' :: dec addr.port.toNat)
    else '[' :: (addr.ip.fmt ++ '%' :: (dec addr.scopeId.toNat ++ ']' :: ':' :: dec addr.port.toNat))

/-- What the text shows. -/
def shown : FullAddr → FullAddr
  | .v4 addr => .v4 addr
  | .v6 addr => .v6 { addr with flowinfo := 0 }

end FullAddr

/-! ### The parser -/

/-- `read_number(10, Some(3), false)` -/
def readOctet : Reader UInt8 := fun text =>
  (readNumber 10 (some 3) false UInt8.size text).map fun p => (UInt8.ofNat p.1, p.2)

/-- `read_ipv4_addr`: four octets with dots between them. -/
def readIpv4Addr : Reader Ipv4Addr := fun text => do
  let (a, text) ← readSeparator '.' 0 readOctet text
  let (b, text) ← readSeparator '.' 1 readOctet text
  let (c, text) ← readSeparator '.' 2 readOctet text
  let (d, text) ← readSeparator '.' 3 readOctet text
  return (⟨a, b, c, d⟩, text)

/-- `read_number(16, Some(4), true)` -/
def readGroup : Reader UInt16 := fun text =>
  (readNumber 16 (some 4) true UInt16.size text).map fun p => (UInt16.ofNat p.1, p.2)

/-- `u16::from_be_bytes` -/
def fromBeBytes (hi lo : UInt8) : UInt16 := UInt16.ofNat (hi.toNat * 256 + lo.toNat)

/-- `read_groups`, with `left` groups to go: the groups, and whether the last two were an IPv4 address. -/
def readGroups (limit : Nat) : Nat → List UInt16 → List Char → (List UInt16 × Bool) × List Char
  | 0, groups, text => ((groups, false), text)
  | left + 1, groups, text =>
    let i := groups.length
    match if i < limit - 1 then readSeparator ':' i readIpv4Addr text else none with
    | some (ip, text) => ((groups ++ [fromBeBytes ip.a ip.b, fromBeBytes ip.c ip.d], true), text)
    | none =>
      match readSeparator ':' i readGroup text with
      | some (group, text) => readGroups limit left (groups ++ [group]) text
      | none => ((groups, false), text)

def Ipv6Addr.ofSegments (segments : List UInt16) : Ipv6Addr :=
  let s := fun i => segments.getD i 0
  ⟨s 0, s 1, s 2, s 3, s 4, s 5, s 6, s 7⟩

/-- `read_ipv6_addr`: eight groups, or fewer around a `::`. -/
def readIpv6Addr : Reader Ipv6Addr := fun text =>
  let ((head, headIpv4), text) := readGroups 8 8 [] text
  if head.length = 8 then some (.ofSegments head, text)
  else if headIpv4 then none
  else do
    let (_, text) ← readGivenChar ':' text
    let (_, text) ← readGivenChar ':' text
    let limit := 8 - (head.length + 1)
    let ((tail, _), text) := readGroups limit limit [] text
    return (.ofSegments (head ++ (List.replicate (8 - head.length - tail.length) 0 ++ tail)), text)

/-- `read_port` -/
def readPort : Reader UInt16 := fun text => do
  let (_, text) ← readGivenChar ':' text
  let (port, text) ← readNumber 10 none true UInt16.size text
  return (UInt16.ofNat port, text)

/-- `read_scope_id` -/
def readScopeId : Reader UInt32 := fun text => do
  let (_, text) ← readGivenChar '%' text
  let (scopeId, text) ← readNumber 10 none true UInt32.size text
  return (UInt32.ofNat scopeId, text)

def readSocketAddrV4 : Reader FullAddr := fun text => do
  let (ip, text) ← readIpv4Addr text
  let (port, text) ← readPort text
  return (.v4 ⟨ip, port⟩, text)

def readSocketAddrV6 : Reader FullAddr := fun text => do
  let (_, text) ← readGivenChar '[' text
  let (ip, text) ← readIpv6Addr text
  let (scopeId, text) := (readScopeId text).getD (0, text)
  let (_, text) ← readGivenChar ']' text
  let (port, text) ← readPort text
  return (.v6 ⟨⟨ip, port⟩, 0, scopeId⟩, text)

def readSocketAddr : Reader FullAddr := fun text =>
  (readSocketAddrV4 text).orElse fun _ => readSocketAddrV6 text

/-! ### The boundary to C -/

/-- Why `socket_addr` refuses a text; each is an error of kind `InvalidInput`. -/
inductive AddrError where
  /-- `addr is null` -/
  | null
  /-- An error of `CStr::to_str`. -/
  | notUtf8
  /-- `invalid socket address syntax` -/
  | malformed
  deriving DecidableEq

/-- The bytes of `CString::new(text)`, and those behind the `c_str` of a string of them. -/
def cString (bytes : List UInt8) : List UInt8 := bytes.takeWhile (· ≠ 0)

/-- The UTF-8 bytes of a displayed text. -/
def utf8 (text : List Char) : List UInt8 := text.flatMap String.utf8EncodeChar

/-- `socket_addr`, of a pointer that is null or points to `bytes` and a NUL. -/
def socketAddr : Option (List UInt8) → Except AddrError FullAddr
  | none => .error .null
  | some bytes =>
    match String.fromUTF8? bytes.toByteArray with
    | none => .error .notUtf8
    | some addr =>
      match readAll readSocketAddr addr.toList with
      | some addr => .ok addr
      | none => .error .malformed

/-- An address as the callbacks of the user get it. -/
def FullAddr.eventText (addr : FullAddr) : List UInt8 := cString (utf8 addr.fmt)

/-- A call of the C API that takes an address, up to the call on the manager. -/
def withAddr (call : FullAddr → ApiCall FullAddr) (addr : Option (List UInt8)) :
    Except AddrError (ApiCall FullAddr) := (socketAddr addr).map call

def socketManagerListenOnAddr := withAddr .listenOnAddr

def socketManagerConnectToAddr (delay : Nat) := withAddr (.connectToAddr · delay)

def socketManagerCancelListenOnAddr := withAddr .cancelListenOnAddr

/-! ### IPv4 -/

variable {text rest : List Char}

theorem stops_of_sep {radix : Nat} {c : Char} (h : toDigit radix c = none) : Stops radix (c :: text) := by
  rintro d hd
  obtain rfl := Option.some.inj hd
  exact h

theorem readOctet_fmt (n : UInt8) (h : Stops 10 rest) : readOctet (dec n.toNat ++ rest) = some (n, rest) := by
  have hn : n.toNat < 256 := n.toNat_lt_size
  have hfits : Fits 10 UInt8.size (some 3) n.toNat := by
    refine ⟨hn, fun m hm => ?_⟩
    obtain rfl := Option.some.inj hm
    exact (Nat.length_toDigits_le_iff (by decide) (by decide)).mpr (by omega)
  rw [readOctet, dec, readNumber_toDigits (by decide) (by decide) hfits h, Option.map_some, UInt8.ofNat_toNat]

theorem readIpv4Addr_fmt (ip : Ipv4Addr) (h : Stops 10 rest) :
    readIpv4Addr (ip.fmt ++ rest) = some (ip, rest) := by
  have hdot : ∀ text, Stops 10 ('.' :: text) := fun _ => stops_of_sep (by decide)
  simp [readIpv4Addr, Ipv4Addr.fmt, readOctet_fmt, hdot, h]

theorem readIpv4Addr_stops (h : Stops 10 text) : readIpv4Addr text = none := by
  simp [readIpv4Addr, readOctet, h.readNumber]

/-- An IPv4 address needs a dot. -/
theorem readIpv4Addr_none (h : '.' ∉ text) : readIpv4Addr text = none := by
  cases ho : readOctet text with
  | none => simp [readIpv4Addr, ho]
  | some p =>
    obtain ⟨⟨n, rest⟩, hn, rfl⟩ := Option.map_eq_some_iff.mp ho
    have hdot : rest.head? ≠ some '.' := fun hd =>
      h ((readNumber_suffix hn).subset (List.mem_of_mem_head? hd))
    have hone : readSeparator '.' 1 readOctet rest = none := readSeparator_none Nat.one_pos hdot
    simp [readIpv4Addr, ho, hone]

/-! ### Groups -/

theorem readGroup_hex (group : UInt16) (h : Stops 16 rest) :
    readGroup (hex group ++ rest) = some (group, rest) := by
  have hg : group.toNat < 65536 := group.toNat_lt_size
  have hfits : Fits 16 UInt16.size (some 4) group.toNat := by
    refine ⟨hg, fun m hm => ?_⟩
    obtain rfl := Option.some.inj hm
    exact (Nat.length_toDigits_le_iff (by decide) (by decide)).mpr (by omega)
  rw [readGroup, hex, readNumber_toDigits (by decide) (by decide) hfits h, Option.map_some,
    UInt16.ofNat_toNat]

theorem readGroup_stops (h : Stops 16 text) : readGroup text = none := by
  simp [readGroup, h.readNumber]

theorem stops_colon {radix : Nat} : Stops radix (':' :: text) := stops_of_sep (by simp [toDigit])

/-- Without a dot only groups are read. -/
theorem readGroups_succ {limit left : Nat} {groups : List UInt16} (h : '.' ∉ text) :
    readGroups limit (left + 1) groups text =
      match readSeparator ':' groups.length readGroup text with
      | some (group, text) => readGroups limit left (groups ++ [group]) text
      | none => ((groups, false), text) := by
  have hnone : readSeparator ':' groups.length readIpv4Addr text = none := by
    cases hl : groups.length with
    | zero => exact readIpv4Addr_none h
    | succ i =>
      cases text with
      | nil => exact readSeparator_none (Nat.succ_pos i) (by simp)
      | cons c text =>
        by_cases hc : c = ':'
        · rw [hc, readSeparator_succ]
          exact readIpv4Addr_none fun hd => h (List.mem_cons_of_mem _ hd)
        · exact readSeparator_none (Nat.succ_pos i) (by simpa using hc)
  rw [readGroups]
  simp [hnone]

/-- Behind the last group comes neither a further one nor an IPv4 address. -/
structure Ends (text : List Char) : Prop where
  dot : '.' ∉ text
  stops : Stops 16 text
  colon : ∀ text', text = ':' :: text' → Stops 16 text'

theorem Ends.readGroups (h : Ends text) (limit left : Nat) (groups : List UInt16) :
    readGroups limit left groups text = ((groups, false), text) := by
  cases left with
  | zero => rfl
  | succ left =>
    have hnone : readSeparator ':' groups.length readGroup text = none := by
      cases groups.length with
      | zero => exact readGroup_stops h.stops
      | succ i =>
        cases text with
        | nil => exact readSeparator_none (Nat.succ_pos i) (by simp)
        | cons c text =>
          by_cases hc : c = ':'
          · rw [hc, readSeparator_succ]
            exact readGroup_stops (h.colon text (by rw [hc]))
          · exact readSeparator_none (Nat.succ_pos i) (by simpa using hc)
    rw [readGroups_succ h.dot, hnone]

theorem dot_not_mem_hex (group : UInt16) : '.' ∉ hex group := not_mem_hex (by decide) group

theorem dot_not_mem_flatMap {ys : List UInt16} (h : '.' ∉ rest) :
    '.' ∉ ys.flatMap (fun y => ':' :: hex y) ++ rest := by
  intro hd
  rcases List.mem_append.mp hd with hd | hd
  · obtain ⟨y, -, hd⟩ := List.mem_flatMap.mp hd
    rcases List.mem_cons.mp hd with hd | hd
    · cases hd
    · exact dot_not_mem_hex y hd
  · exact h hd

theorem stops_flatMap {ys : List UInt16} (h : Stops 16 rest) :
    Stops 16 (ys.flatMap (fun y => ':' :: hex y) ++ rest) := by
  cases ys with
  | nil => exact h
  | cons y ys => exact stops_colon

/-- Groups are read one after the other. -/
theorem readGroups_flatMap {limit left : Nat} {ys : List UInt16} (h : Ends rest) :
    ∀ {groups : List UInt16}, groups ≠ [] →
      readGroups limit (ys.length + left) groups (ys.flatMap (fun y => ':' :: hex y) ++ rest) =
        ((groups ++ ys, false), rest) := by
  induction ys with
  | nil =>
    intro groups _
    rw [List.append_nil]
    exact h.readGroups _ _ _
  | cons y ys ih =>
    intro groups hne
    obtain ⟨i, hi⟩ := Nat.exists_eq_succ_of_ne_zero (mt List.length_eq_zero_iff.mp hne)
    have hlen : (y :: ys).length + left = ys.length + left + 1 := by
      rw [List.length_cons]; omega
    have htext : (y :: ys).flatMap (fun y => ':' :: hex y) ++ rest =
        ':' :: (hex y ++ (ys.flatMap (fun y => ':' :: hex y) ++ rest)) := by simp
    rw [hlen, readGroups_succ (dot_not_mem_flatMap h.dot), hi, htext, readSeparator_succ,
      readGroup_hex y (stops_flatMap h.stops)]
    have hg := @ih (groups ++ [y]) (by simp)
    rw [List.append_assoc] at hg
    exact hg

theorem readGroups_join (limit left : Nat) (ys : List UInt16) (h : Ends rest) :
    readGroups limit (ys.length + left) [] (join hex ':' ys ++ rest) = ((ys, false), rest) := by
  cases ys with
  | nil => exact h.readGroups _ _ _
  | cons y ys =>
    have hlen : (y :: ys).length + left = ys.length + left + 1 := by
      rw [List.length_cons]; omega
    have hdot : '.' ∉ hex y ++ (ys.flatMap (fun y => ':' :: hex y) ++ rest) := by
      intro hd
      rcases List.mem_append.mp hd with hd | hd
      · exact dot_not_mem_hex y hd
      · exact dot_not_mem_flatMap h.dot hd
    rw [hlen, join, List.append_assoc, readGroups_succ hdot, List.length_nil, readSeparator_zero,
      readGroup_hex y (stops_flatMap h.stops)]
    exact readGroups_flatMap h (by simp)

/-! ### IPv6 -/

/-- What stands behind an IPv6 address. -/
structure Behind (rest : List Char) : Prop where
  dot : '.' ∉ rest
  stops : Stops 16 rest
  decimal : Stops 10 rest
  colon : rest.head? ≠ some ':'

theorem Behind.ends (h : Behind rest) : Ends rest :=
  ⟨h.dot, h.stops, fun _ heq => absurd (by rw [heq]; rfl) h.colon⟩

theorem readIpv6Addr_join {segments : List UInt16} (hlen : segments.length = 8) (h : Behind rest) :
    readIpv6Addr (join hex ':' segments ++ rest) = some (.ofSegments segments, rest) := by
  have hg := readGroups_join 8 0 segments h.ends
  rw [hlen] at hg
  simp [readIpv6Addr, hg, hlen]

theorem dot_not_mem_join {ys : List UInt16} (h : '.' ∉ rest) : '.' ∉ join hex ':' ys ++ rest := by
  intro hd
  rcases List.mem_append.mp hd with hd | hd
  · rcases mem_join hd with hd | ⟨y, hd⟩
    · cases hd
    · exact dot_not_mem_hex y hd
  · exact h hd

/-- The groups around a `::`, with room for one more at least. -/
theorem readIpv6Addr_double {xs ys : List UInt16} (hlen : xs.length + ys.length < 8) (h : Behind rest) :
    readIpv6Addr (double hex ':' xs ys ++ rest) =
      some (.ofSegments (xs ++ (List.replicate (8 - xs.length - ys.length) 0 ++ ys)), rest) := by
  have hcolons : Ends (':' :: ':' :: (join hex ':' ys ++ rest)) := by
    refine ⟨fun hd => ?_, stops_colon, fun text' heq => ?_⟩
    · rcases List.mem_cons.mp hd with hd | hd
      · cases hd
      · rcases List.mem_cons.mp hd with hd | hd
        · cases hd
        · exact dot_not_mem_join h.dot hd
    · rw [← (List.cons.inj heq).2]; exact stops_colon
  have htext : double hex ':' xs ys ++ rest =
      join hex ':' xs ++ ':' :: ':' :: (join hex ':' ys ++ rest) := by
    simp [double]
  have hhead := readGroups_join 8 (8 - xs.length) xs hcolons
  have htail := readGroups_join (7 - xs.length) (7 - xs.length - ys.length) ys h.ends
  rw [show xs.length + (8 - xs.length) = 8 by omega] at hhead
  rw [show ys.length + (7 - xs.length - ys.length) = 7 - xs.length by omega] at htail
  have hne : xs.length ≠ 8 := by omega
  simp [readIpv6Addr, htext, hhead, hne, readGivenChar, htail]

/-- What is left out of a text is put in again. -/
theorem IsZeroes.insert {segments : List UInt16} {span : Span} (h : IsZeroes segments span)
    (hlen : segments.length = 8) (hspan : 1 < span.len) :
    segments.take span.start ++ (List.replicate (8 - (segments.take span.start).length -
      (segments.drop (span.start + span.len)).length) 0 ++ segments.drop (span.start + span.len)) =
        segments ∧
      (segments.take span.start).length + (segments.drop (span.start + span.len)).length < 8 := by
  have hcount := congrArg List.length h
  simp only [List.length_take, List.length_drop, List.length_replicate, hlen] at hcount ⊢
  refine ⟨?_, by omega⟩
  rw [show 8 - min span.start 8 - (8 - (span.start + span.len)) = span.len by omega, ← h,
    ← List.drop_drop, List.take_append_drop, List.take_append_drop]

theorem Ipv6Addr.ofSegments_segments (ip : Ipv6Addr) : ofSegments ip.segments = ip := rfl

/-! ### Mapped addresses -/

theorem fromBeBytes_bytes (segment : UInt16) :
    fromBeBytes (segment >>> 8).toUInt8 segment.toUInt8 = segment := by
  have hs := segment.toNat_lt
  have hshift : 2 ^ (8 % 2 ^ 16 % 16) = 256 := by decide
  apply UInt16.toNat_inj.mp
  simp only [fromBeBytes, UInt16.toNat_toUInt8, UInt16.toNat_shiftRight, UInt16.toNat_ofNat,
    UInt16.toNat_ofNat', Nat.shiftRight_eq_div_pow, hshift]
  omega

theorem readIpv6Addr_mapped {ip : Ipv6Addr} {ipv4 : Ipv4Addr} (hm : ip.toIpv4Mapped = some ipv4)
    (h : Behind rest) :
    readIpv6Addr ("::ffff:".toList ++ ipv4.fmt ++ rest) = some (ip, rest) := by
  have htext : "::ffff:".toList ++ ipv4.fmt ++ rest =
      ':' :: ':' :: (hex 0xffff ++ ':' :: (ipv4.fmt ++ rest)) := by
    rw [show "::ffff:".toList = ':' :: ':' :: (hex 0xffff ++ [':']) by decide +kernel]
    simp
  have hhead : readGroups 8 8 [] (':' :: ':' :: (hex 0xffff ++ ':' :: (ipv4.fmt ++ rest))) =
      (([], false), ':' :: ':' :: (hex 0xffff ++ ':' :: (ipv4.fmt ++ rest))) := by
    simp [readGroups, readIpv4Addr_stops stops_colon, readGroup_stops stops_colon]
  have hfirst : Stops 10 (hex 0xffff ++ ':' :: (ipv4.fmt ++ rest)) := by
    rw [show hex 0xffff = ['f', 'f', 'f', 'f'] by decide +kernel]
    exact stops_of_sep (by decide)
  have htail : readGroups 7 7 [] (hex 0xffff ++ ':' :: (ipv4.fmt ++ rest)) =
      (([0xffff, fromBeBytes ipv4.a ipv4.b, fromBeBytes ipv4.c ipv4.d], true), rest) := by
    simp [readGroups, readIpv4Addr_stops hfirst, readGroup_hex _ stops_colon,
      readIpv4Addr_fmt ipv4 h.decimal]
  unfold Ipv6Addr.toIpv4Mapped at hm
  split at hm
  · rename_i hz
    obtain ⟨h0, h1, h2, h3, h4, h5⟩ := hz
    obtain rfl := Option.some.inj hm
    rw [htext]
    simp only [readIpv6Addr, hhead, readGivenChar]
    simp [htail, fromBeBytes_bytes]
    exact Ipv6Addr.ext h0.symm h1.symm h2.symm h3.symm h4.symm h5.symm rfl rfl
  · cases hm

/-- A displayed IPv6 address is read back. -/
theorem readIpv6Addr_fmt (ip : Ipv6Addr) (h : Behind rest) :
    readIpv6Addr (ip.fmt ++ rest) = some (ip, rest) := by
  unfold Ipv6Addr.fmt
  split
  · rename_i hm
    exact readIpv6Addr_mapped hm h
  · split
    · rename_i hspan
      obtain ⟨hins, hlt⟩ := ip.isZeroes_span.insert rfl hspan
      rw [readIpv6Addr_double hlt h, hins, Ipv6Addr.ofSegments_segments]
    · rw [readIpv6Addr_join rfl h, Ipv6Addr.ofSegments_segments]

/-! ### Socket addresses -/

theorem readPort_fmt (port : UInt16) (h : Stops 10 rest) :
    readPort (':' :: (dec port.toNat ++ rest)) = some (port, rest) := by
  have hfits : Fits 10 UInt16.size none port.toNat := ⟨port.toNat_lt_size, fun _ hm => by cases hm⟩
  have hread : readNumber 10 none true UInt16.size (dec port.toNat ++ rest) = some (port.toNat, rest) :=
    readNumber_toDigits (by decide) (by decide) hfits h
  rw [readPort, readGivenChar, if_pos rfl]
  exact (congrArg (Option.bind · _) hread).trans (congrArg (fun p => some (p, rest)) UInt16.ofNat_toNat)

theorem readScopeId_fmt (scopeId : UInt32) (h : Stops 10 rest) :
    readScopeId ('%' :: (dec scopeId.toNat ++ rest)) = some (scopeId, rest) := by
  have hfits : Fits 10 UInt32.size none scopeId.toNat := ⟨scopeId.toNat_lt_size, fun _ hm => by cases hm⟩
  have hread : readNumber 10 none true UInt32.size (dec scopeId.toNat ++ rest) =
      some (scopeId.toNat, rest) := readNumber_toDigits (by decide) (by decide) hfits h
  rw [readScopeId, readGivenChar, if_pos rfl]
  exact (congrArg (Option.bind · _) hread).trans (congrArg (fun p => some (p, rest)) UInt32.ofNat_toNat)

theorem stops_nil {radix : Nat} : Stops radix [] := fun _ hc => by cases hc

theorem behind_bracket (port : UInt16) : Behind (']' :: ':' :: dec port.toNat) := by
  refine ⟨?_, stops_of_sep (by decide), stops_of_sep (by decide), by simp⟩
  simp [dot_not_mem_dec]

theorem behind_percent (scopeId : UInt32) (port : UInt16) :
    Behind ('%' :: (dec scopeId.toNat ++ ']' :: ':' :: dec port.toNat)) := by
  refine ⟨?_, stops_of_sep (by decide), stops_of_sep (by decide), by simp⟩
  simp [dot_not_mem_dec]

/-- The text of an IPv6 address, with `scope` between the address and the bracket. -/
theorem readAll_bracketed (ip : Ipv6Addr) (port : UInt16) (scopeId : UInt32) (scope : List Char)
    (hb : Behind (scope ++ ']' :: ':' :: dec port.toNat))
    (hs : (readScopeId (scope ++ ']' :: ':' :: dec port.toNat)).getD
      (0, scope ++ ']' :: ':' :: dec port.toNat) = (scopeId, ']' :: ':' :: dec port.toNat)) :
    readAll readSocketAddr ('[' :: (ip.fmt ++ (scope ++ ']' :: ':' :: dec port.toNat))) =
      some (.v6 ⟨⟨ip, port⟩, 0, scopeId⟩) := by
  have hbracket : ∀ text, Stops 10 ('[' :: text) := fun _ => stops_of_sep (by decide)
  have hport := readPort_fmt port stops_nil
  rw [List.append_nil] at hport
  simp [readAll, readSocketAddr, readSocketAddrV4, readIpv4Addr_stops (hbracket _), readSocketAddrV6,
    readGivenChar, readIpv6Addr_fmt ip hb, hs, hport]

/-- The text of an address is read to its end, as what it shows. -/
theorem readAll_fmt (addr : FullAddr) : readAll readSocketAddr addr.fmt = some addr.shown := by
  cases addr with
  | v4 addr =>
    have hport := readPort_fmt addr.port stops_nil
    rw [List.append_nil] at hport
    simp [readAll, readSocketAddr, readSocketAddrV4, FullAddr.fmt, FullAddr.shown,
      readIpv4Addr_fmt addr.ip stops_colon, hport]
  | v6 addr =>
    obtain ⟨⟨ip, port⟩, flowinfo, scopeId⟩ := addr
    simp only [FullAddr.fmt, FullAddr.shown]
    split
    · rename_i h0
      subst h0
      exact readAll_bracketed ip port 0 [] (behind_bracket port) rfl
    · have hstop : Stops 10 (']' :: ':' :: dec port.toNat) := stops_of_sep (by decide)
      have h := readAll_bracketed ip port scopeId ('%' :: dec scopeId.toNat)
      rw [List.cons_append, readScopeId_fmt scopeId hstop] at h
      exact h (behind_percent scopeId port) rfl

/-! ### The way through C -/

/-- Only NUL has a zero byte. -/
theorem ne_zero_of_mem_utf8 {c : Char} {b : UInt8} (hc : c ≠ '\x00') (hb : b ∈ String.utf8EncodeChar c) :
    b ≠ 0 := by
  rintro rfl
  have hv : c.val.toNat ≠ 0 := fun hv => hc (Char.ext (UInt32.toNat_inj.mp hv))
  have hmod : ∀ n : Nat, (0 : UInt8) = UInt8.ofNat n → n % 256 = 0 := fun n h => by
    have hn := congrArg UInt8.toNat h
    simpa using hn.symm
  revert hb
  fun_cases String.utf8EncodeChar with
  | case1 v h =>
    intro hb
    have hb := hmod _ (List.mem_singleton.mp hb)
    have hv : v ≠ 0 := hv
    omega
  -- otherwise the first byte is at least 0xc0, and the others at least 0x80
  | case2 v =>
    simp only [List.mem_cons, List.not_mem_nil, or_false]
    rintro (hb | hb) <;> (have hb := hmod _ hb; omega)
  | case3 v =>
    simp only [List.mem_cons, List.not_mem_nil, or_false]
    rintro (hb | hb | hb) <;> (have hb := hmod _ hb; omega)
  | case4 v =>
    simp only [List.mem_cons, List.not_mem_nil, or_false]
    rintro (hb | hb | hb | hb) <;> (have hb := hmod _ hb; omega)

/-- A text without NUL goes through a C string unchanged. -/
theorem cString_utf8 (h : '\x00' ∉ text) : cString (utf8 text) = utf8 text := by
  refine List.takeWhile_eq_self_iff.mpr fun b hb => ?_
  obtain ⟨c, hc, hb⟩ := List.mem_flatMap.mp hb
  exact decide_eq_true (ne_zero_of_mem_utf8 (fun heq => h (heq ▸ hc)) hb)

/-- `CStr::to_str` gives the text back. -/
theorem fromUTF8_utf8 (text : List Char) :
    String.fromUTF8? (utf8 text).toByteArray = some (String.ofList text) := by
  have hvalid : ByteArray.IsValidUTF8 (utf8 text).toByteArray := ByteArray.isValidUTF8_utf8Encode
  rw [String.fromUTF8?, dif_pos hvalid]
  exact congrArg some (String.toByteArray_inj.mp String.toByteArray_ofList.symm)

theorem nul_not_mem_ipv4 (ip : Ipv4Addr) : '\x00' ∉ ip.fmt := by
  intro h
  rcases Ipv4Addr.mem_fmt h with h | ⟨n, h⟩
  · cases h
  · exact not_mem_dec (by decide) n h

theorem nul_not_mem_ipv6 (ip : Ipv6Addr) : '\x00' ∉ ip.fmt := by
  intro h
  cases hm : ip.toIpv4Mapped with
  | none =>
    rcases Ipv6Addr.mem_fmt_none hm h with h | ⟨segment, h⟩
    · cases h
    · exact not_mem_hex (by decide) segment h
  | some ipv4 =>
    simp only [Ipv6Addr.fmt, hm] at h
    rcases List.mem_append.mp h with h | h
    · revert h; decide
    · exact nul_not_mem_ipv4 ipv4 h

theorem nul_not_mem_fmt (addr : FullAddr) : '\x00' ∉ addr.fmt := by
  have hdec : ∀ n, '\x00' ∉ dec n := not_mem_dec (by decide)
  cases addr with
  | v4 addr => simp [FullAddr.fmt, nul_not_mem_ipv4, hdec]
  | v6 addr =>
    simp only [FullAddr.fmt]
    split <;> simp [nul_not_mem_ipv6, hdec]

theorem FullAddr.fmt_shown (addr : FullAddr) : addr.shown.fmt = addr.fmt := by
  cases addr <;> rfl

/-- What is read has no flow information. -/
theorem shown_of_readSocketAddr {addr : FullAddr} (h : readSocketAddr text = some (addr, rest)) :
    addr.shown = addr := by
  rcases Option.or_eq_some_iff.mp (show (readSocketAddrV4 text).or (readSocketAddrV6 text) = _ by
    rw [← h, readSocketAddr]; cases readSocketAddrV4 text <;> rfl) with h | ⟨-, h⟩
  · simp only [readSocketAddrV4, Option.bind_eq_bind, Option.bind_eq_some_iff] at h
    obtain ⟨_, -, _, -, h⟩ := h
    obtain ⟨rfl, -⟩ := Prod.mk.inj (Option.some.inj h)
    rfl
  · simp only [readSocketAddrV6, Option.bind_eq_bind, Option.bind_eq_some_iff] at h
    obtain ⟨_, -, _, -, _, -, _, -, h⟩ := h
    obtain ⟨rfl, -⟩ := Prod.mk.inj (Option.some.inj h)
    rfl

theorem shown_of_socketAddr {bytes : Option (List UInt8)} {addr : FullAddr}
    (h : socketAddr bytes = .ok addr) : addr.shown = addr := by
  unfold socketAddr at h
  split at h
  · cases h
  · split at h
    · cases h
    · split at h
      · rename_i hread
        obtain rfl := Except.ok.inj h
        unfold readAll at hread
        split at hread
        · rename_i hr
          obtain rfl := Option.some.inj hread
          exact shown_of_readSocketAddr hr
        · cases hread
      · cases h

/-! ### The round trip -/

/-- An address that comes with an event is accepted by every call, as what its text shows: all of it but
    the flow information of an IPv6 address. Two addresses have the same text only if they show the
    same. An address that the user gave himself comes back unchanged. -/
theorem address_round_trip (addr : FullAddr) :
    socketAddr (some (cString addr.eventText)) = .ok addr.shown ∧
    (∀ addr' : FullAddr, addr.eventText = addr'.eventText ↔ addr.shown = addr'.shown) ∧
    (∀ bytes, socketAddr bytes = .ok addr →
      socketManagerListenOnAddr (some (cString addr.eventText)) = .ok (.listenOnAddr addr) ∧
      (∀ delay, socketManagerConnectToAddr delay (some (cString addr.eventText)) =
        .ok (.connectToAddr addr delay)) ∧
      socketManagerCancelListenOnAddr (some (cString addr.eventText)) =
        .ok (.cancelListenOnAddr addr)) := by
  have htext : ∀ addr : FullAddr, addr.eventText = utf8 addr.fmt := fun addr =>
    cString_utf8 (nul_not_mem_fmt addr)
  have hparse : ∀ addr : FullAddr, socketAddr (some (cString addr.eventText)) = .ok addr.shown := by
    intro addr
    rw [htext, cString_utf8 (nul_not_mem_fmt addr)]
    simp only [socketAddr, fromUTF8_utf8, String.toList_ofList, readAll_fmt]
  refine ⟨hparse addr, fun addr' => ⟨fun heq => ?_, fun heq => ?_⟩, fun bytes hb => ?_⟩
  · have h := hparse addr
    rw [heq, hparse addr'] at h
    exact (Except.ok.inj h).symm
  · rw [htext, htext, ← addr.fmt_shown, ← addr'.fmt_shown, heq]
  · have hcall : ∀ call, withAddr call (some (cString addr.eventText)) = .ok (call addr) := by
      intro call
      rw [withAddr, hparse addr, shown_of_socketAddr hb]
      rfl
    exact ⟨hcall _, fun delay => hcall _, hcall _⟩

example : socketAddr (some (utf8 "127.0.0.1:080".toList)) = .ok (.v4 ⟨⟨127, 0, 0, 1⟩, 80⟩) := by
  decide +kernel

example : socketAddr (some (utf8 "127.0.0.01:80".toList)) = .error .malformed := by decide +kernel

/-- A link-local address, with its scope. -/
theorem address_round_trip_scoped :
    let addr := FullAddr.v6 ⟨⟨⟨0xfe80, 0, 0, 0, 0, 0, 0, 0xa⟩, 80⟩, 0, 3⟩
    addr.eventText = utf8 "[fe80::a%3]:80".toList ∧
    socketManagerCancelListenOnAddr (some (cString addr.eventText)) = .ok (.cancelListenOnAddr addr) := by
  intro addr
  obtain ⟨hparse, -, hcalls⟩ := address_round_trip addr
  exact ⟨by decide +kernel, (hcalls _ hparse).2.2⟩

end SocketManager.Api
