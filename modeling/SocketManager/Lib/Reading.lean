import SocketManager.Lib.Text

/-! Reading a text from its front, with backtracking: a reader gives what it read and the rest of the
    text, and one that fails has read nothing. Numbers are read digit by digit, with a limit either on
    the digits or on the value. A printed number is read back (`readNumber_toDigits`) when the text goes
    on with something that is no digit.

        2 5 5 . 1 …    readNumber 10    255,  . 1 …
        0 7 . 1 …      readNumber 10    nothing: a zero in front -/

namespace Text
variable {β : Type}

abbrev Reader (β : Type) := List Char → Option (β × List Char)

/-- The value of a digit. -/
def toDigit (radix : Nat) (c : Char) : Option Nat :=
  let digit :=
    if '0' ≤ c ∧ c ≤ '9' then some (c.toNat - 48)
    else if 'a' ≤ c ∧ c ≤ 'z' then some (c.toNat - 97 + 10)
    else if 'A' ≤ c ∧ c ≤ 'Z' then some (c.toNat - 65 + 10)
    else none
  digit.filter (· < radix)

def readGivenChar (target : Char) : Reader Unit
  | [] => none
  | c :: text => if c = target then some ((), text) else none

/-- A separator stands before every field but the first. -/
def readSeparator (sep : Char) (index : Nat) (inner : Reader β) : Reader β := fun text =>
  if 0 < index then (readGivenChar sep text).bind fun p => inner p.2 else inner text

/-- The number may not become this: with a limit on its digits it is only checked at the end. -/
def exceeds (bound : Nat) (maxDigits : Option Nat) (count value : Nat) : Bool :=
  match maxDigits with
  | some maxDigits => decide (maxDigits < count)
  | none => decide (bound ≤ value)

/-- The digits at the front, behind `count` digits that are worth `value`. -/
def readDigits (radix : Nat) (maxDigits : Option Nat) (bound : Nat) :
    Nat → Nat → Reader (Nat × Nat)
  | value, count, [] => some ((value, count), [])
  | value, count, c :: text =>
    match toDigit radix c with
    | none => some ((value, count), c :: text)
    | some digit =>
      if exceeds bound maxDigits (count + 1) (value * radix + digit) then none
      else readDigits radix maxDigits bound (value * radix + digit) (count + 1) text

/-- A number below `bound`. -/
def readNumber (radix : Nat) (maxDigits : Option Nat) (allowZeroPrefix : Bool) (bound : Nat) :
    Reader Nat := fun text =>
  match readDigits radix maxDigits bound 0 0 text with
  | none => none
  | some ((value, count), rest) =>
    if count = 0 then none
    else if allowZeroPrefix = false ∧ text.head? = some '0' ∧ 1 < count then none
    else if value < bound then some (value, rest)
    else none

/-- The whole text, to its end. -/
def readAll (reader : Reader β) (text : List Char) : Option β :=
  match reader text with
  | some (x, []) => some x
  | _ => none

/-! ### Where a number ends -/

/-- The text does not go on with a digit. -/
def Stops (radix : Nat) (text : List Char) : Prop := ∀ c ∈ text.head?, toDigit radix c = none

variable {radix bound n : Nat} {maxDigits : Option Nat} {text : List Char}

theorem toDigit_digitChar {d : Nat} (hb : radix ≤ 16) (hd : d < radix) :
    toDigit radix d.digitChar = some d := by
  have key : ∀ d < 16, toDigit 16 d.digitChar = some d := by decide
  have h := key d (by omega)
  unfold toDigit at h ⊢
  obtain ⟨h, -⟩ := Option.filter_eq_some_iff.mp h
  exact Option.filter_eq_some_iff.mpr ⟨h, decide_eq_true hd⟩

theorem Stops.readDigits (h : Stops radix text) (value count : Nat) :
    readDigits radix maxDigits bound value count text = some ((value, count), text) := by
  cases text with
  | nil => rfl
  | cons c text =>
    have hc : toDigit radix c = none := h c rfl
    simp [Text.readDigits, hc]

theorem Stops.readNumber {allow : Bool} (h : Stops radix text) :
    readNumber radix maxDigits allow bound text = none := by
  simp [Text.readNumber, h.readDigits]

theorem readDigits_digit {d : Nat} (hb : radix ≤ 16) (hd : d < radix) (value count : Nat)
    (hok : exceeds bound maxDigits (count + 1) (value * radix + d) = false) :
    readDigits radix maxDigits bound value count (d.digitChar :: text) =
      readDigits radix maxDigits bound (value * radix + d) (count + 1) text := by
  simp [readDigits, toDigit_digitChar hb hd, hok]

/-! ### Printed numbers -/

/-- A number is within its limits when it is printed. -/
def Fits (radix bound : Nat) (maxDigits : Option Nat) (n : Nat) : Prop :=
  n < bound ∧ ∀ m ∈ maxDigits, (Nat.toDigits radix n).length ≤ m

theorem Fits.exceeds (h : Fits radix bound maxDigits n) {count value : Nat}
    (hc : count ≤ (Nat.toDigits radix n).length) (hv : value ≤ n) :
    exceeds bound maxDigits count value = false := by
  cases maxDigits with
  | none =>
    have hn := h.1
    simp only [Text.exceeds, decide_eq_false_iff_not]; omega
  | some m =>
    have hm := h.2 m rfl
    simp only [Text.exceeds, decide_eq_false_iff_not]; omega

/-- The digits of a printed number are read to its end, whatever comes then. -/
theorem readDigits_toDigits (hb : 1 < radix) (hb' : radix ≤ 16) : ∀ n, Fits radix bound maxDigits n →
    ∀ text, readDigits radix maxDigits bound 0 0 (Nat.toDigits radix n ++ text) =
      readDigits radix maxDigits bound n (Nat.toDigits radix n).length text := by
  intro n
  induction n using Nat.strongRecOn with
  | ind n ih =>
    intro h text
    have hex := h.exceeds (Nat.le_refl _) (Nat.le_refl _)
    rw [Nat.toDigits_eq_if hb] at hex ⊢
    split at hex
    · rename_i hlt
      rw [if_pos hlt, List.singleton_append, readDigits_digit hb' hlt]
      · simp
      · simpa using hex
    · rename_i hge
      have hdiv : n / radix < n := Nat.div_lt_self (by omega) hb
      have hn : n / radix * radix + n % radix = n := by
        rw [Nat.mul_comm]; exact Nat.div_add_mod n radix
      have hlen : (Nat.toDigits radix n).length = (Nat.toDigits radix (n / radix)).length + 1 := by
        rw [Nat.toDigits_eq_if hb, if_neg hge]; simp
      have hfit : Fits radix bound maxDigits (n / radix) := by
        refine ⟨by have := h.1; omega, fun m hm => ?_⟩
        have := h.2 m hm
        omega
      rw [if_neg hge, List.append_assoc, ih _ hdiv hfit, List.singleton_append,
        readDigits_digit hb' (Nat.mod_lt n (by omega)), hn]
      · simp
      · rw [hn]; simpa using hex

/-- Only zero is printed with a zero in front. -/
theorem length_of_head_toDigits (hb : 1 < radix) (hb' : radix ≤ 16) : ∀ n,
    (Nat.toDigits radix n).head? = some '0' → (Nat.toDigits radix n).length = 1 ∧ n = 0 := by
  intro n
  induction n using Nat.strongRecOn with
  | ind n ih =>
    intro h
    rw [Nat.toDigits_eq_if hb] at h ⊢
    split at h
    · rename_i hlt
      rw [if_pos hlt]
      refine ⟨rfl, digitChar_inj (by omega) (by omega) (Option.some.inj h)⟩
    · rename_i hge
      rw [List.head?_append_of_ne_nil _ Nat.toDigits_ne_nil] at h
      have hzero := (ih (n / radix) (Nat.div_lt_self (by omega) hb) h).2
      rcases Nat.div_eq_zero_iff.mp hzero with h0 | h0 <;> omega

/-- A printed number is read back. -/
theorem readNumber_toDigits (hb : 1 < radix) (hb' : radix ≤ 16) {allow : Bool}
    (h : Fits radix bound maxDigits n) (hs : Stops radix text) :
    readNumber radix maxDigits allow bound (Nat.toDigits radix n ++ text) = some (n, text) := by
  have hpos : (Nat.toDigits radix n).length ≠ 0 := Nat.pos_iff_ne_zero.mp Nat.length_toDigits_pos
  have hzero : ¬(allow = false ∧ (Nat.toDigits radix n ++ text).head? = some '0' ∧
      1 < (Nat.toDigits radix n).length) := by
    rintro ⟨-, hhead, hlt⟩
    rw [List.head?_append_of_ne_nil _ Nat.toDigits_ne_nil] at hhead
    have := (length_of_head_toDigits hb hb' n hhead).1
    omega
  simp only [readNumber, readDigits_toDigits hb hb' n h, hs.readDigits, if_neg hpos, if_neg hzero,
    if_pos h.1]

/-! ### What is not read -/

theorem readDigits_suffix {value count : Nat} {p : Nat × Nat} {rest : List Char} :
    readDigits radix maxDigits bound value count text = some (p, rest) → rest <:+ text := by
  induction text generalizing value count with
  | nil =>
    intro h
    simp only [readDigits, Option.some.injEq, Prod.mk.injEq] at h
    exact h.2 ▸ List.suffix_refl _
  | cons c text ih =>
    intro h
    simp only [readDigits] at h
    split at h
    · simp only [Option.some.injEq, Prod.mk.injEq] at h
      exact h.2 ▸ List.suffix_refl _
    · split at h
      · cases h
      · exact (ih h).trans (List.suffix_cons c text)

theorem readNumber_suffix {allow : Bool} {rest : List Char}
    (h : readNumber radix maxDigits allow bound text = some (n, rest)) : rest <:+ text := by
  unfold readNumber at h
  split at h
  · cases h
  · rename_i hd
    split at h
    · cases h
    · split at h
      · cases h
      · split at h
        · obtain ⟨rfl, rfl⟩ := Prod.mk.inj (Option.some.inj h)
          exact readDigits_suffix hd
        · cases h

/-- A separator that does not come is not read. -/
theorem readSeparator_none {sep : Char} {index : Nat} {inner : Reader β} (hi : 0 < index)
    (h : text.head? ≠ some sep) : readSeparator sep index inner text = none := by
  cases text with
  | nil => simp [readSeparator, readGivenChar, hi]
  | cons c text =>
    have hc : c ≠ sep := fun hc => h (by rw [hc]; rfl)
    simp [readSeparator, readGivenChar, hi, hc]

@[simp]
theorem readSeparator_zero (sep : Char) (inner : Reader β) : readSeparator sep 0 inner = inner := rfl

@[simp]
theorem readSeparator_succ (sep : Char) (index : Nat) (inner : Reader β) (text : List Char) :
    readSeparator sep (index + 1) inner (sep :: text) = inner text := by
  simp [readSeparator, readGivenChar]

end Text
