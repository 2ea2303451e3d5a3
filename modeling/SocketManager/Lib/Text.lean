import Mathlib.Data.List.Basic
import Mathlib.Tactic.Common

/-! Texts made of printed numbers and separators, as lists of characters. A text with a separator that
    its first field does not contain can be cut there in one way only (`cut`), a printed number
    contains digits only, and the number can be read off its digits (`toDigits_inj`); with these three
    a format is shown injective field by field. `join` prints the numbers of a list with a separator
    between them. -/

namespace Text

/-- Cut at the first separator. -/
theorem cut {α : Type*} {sep : α} : ∀ {xs ys us vs : List α}, sep ∉ xs → sep ∉ ys →
    xs ++ sep :: us = ys ++ sep :: vs → xs = ys ∧ us = vs
  | [], [], _, _, _, _, h => ⟨rfl, (List.cons.inj h).2⟩
  | [], y :: ys, _, _, _, hy, h => absurd ((List.cons.inj h).1 ▸ List.mem_cons_self) hy
  | x :: xs, [], _, _, hx, _, h => absurd ((List.cons.inj h).1 ▸ List.mem_cons_self) hx
  | x :: xs, y :: ys, us, vs, hx, hy, h => by
    obtain ⟨hxy, h⟩ := List.cons.inj h
    obtain ⟨rfl, rfl⟩ := cut (fun hm => hx (List.mem_cons_of_mem _ hm))
      (fun hm => hy (List.mem_cons_of_mem _ hm)) h
    exact ⟨by rw [hxy], rfl⟩

/-! ### Printed numbers -/

variable {b m n : Nat}

theorem digitChar_inj (hm : m < 16) (hn : n < 16) (h : m.digitChar = n.digitChar) : m = n := by
  have key : ∀ m < 16, ∀ n < 16, m.digitChar = n.digitChar → m = n := by decide
  exact key m hm n hn h

/-- The characters a number is printed with. -/
theorem mem_toDigits {c : Char} (hb : 1 < b) : ∀ n, c ∈ Nat.toDigits b n → ∃ d < b, c = d.digitChar := by
  intro n
  induction n using Nat.strongRecOn with
  | ind n ih =>
    rw [Nat.toDigits_eq_if hb]
    split
    · rename_i hlt
      intro h
      exact ⟨n, hlt, List.mem_singleton.mp h⟩
    · rename_i hge
      intro h
      rcases List.mem_append.mp h with h | h
      · exact ih (n / b) (Nat.div_lt_self (by omega) hb) h
      · exact ⟨n % b, Nat.mod_lt n (by omega), List.mem_singleton.mp h⟩

/-- A number can be read off its digits. -/
theorem toDigits_inj (hb : 1 < b) (hb' : b ≤ 16) : ∀ m n, Nat.toDigits b m = Nat.toDigits b n → m = n := by
  intro m
  induction m using Nat.strongRecOn with
  | ind m ih =>
    intro n h
    rw [Nat.toDigits_eq_if (n := m) hb, Nat.toDigits_eq_if (n := n) hb] at h
    have hne : ∀ k (c d : Char), Nat.toDigits b k ++ [c] ≠ [d] := by
      intro k c d hk
      have hlen := congrArg List.length hk
      have hpos : 0 < (Nat.toDigits b k).length := Nat.length_toDigits_pos
      simp only [List.length_append, List.length_singleton] at hlen
      omega
    split at h <;> split at h
    · rename_i hm hn
      exact digitChar_inj (by omega) (by omega) (List.cons.inj h).1
    · exact absurd h.symm (hne _ _ _)
    · exact absurd h (hne _ _ _)
    · rename_i hm hn
      obtain ⟨hdiv, hmod⟩ := List.append_inj' h rfl
      have hq : m / b = n / b := ih (m / b) (Nat.div_lt_self (by omega) hb) _ hdiv
      have hlt : ∀ k, k % b < 16 := fun k => Nat.lt_of_lt_of_le (Nat.mod_lt k (by omega)) hb'
      have hr : m % b = n % b := digitChar_inj (hlt m) (hlt n) (List.cons.inj hmod).1
      rw [← Nat.div_add_mod m b, ← Nat.div_add_mod n b, hq, hr]

/-- No separator is a digit. -/
theorem not_mem_toDigits {sep : Char} (hb : 1 < b) (hb' : b ≤ 16)
    (hsep : ∀ d < 16, sep ≠ d.digitChar) (n : Nat) : sep ∉ Nat.toDigits b n := by
  intro h
  obtain ⟨d, hd, rfl⟩ := mem_toDigits hb n h
  exact hsep d (by omega) rfl

/-! ### Joined fields -/

variable {α : Type*} {β : Type*} {f : β → List α} {sep : α}

/-- The fields with a separator between them. -/
def join (f : β → List α) (sep : α) : List β → List α
  | [] => []
  | x :: xs => f x ++ xs.flatMap fun y => sep :: f y

/-- What the fields must be for a joined text to be readable. -/
structure Fields (f : β → List α) (sep : α) : Prop where
  ne_nil : ∀ x, f x ≠ []
  sep : ∀ x, sep ∉ f x
  inj : ∀ x y, f x = f y → x = y

theorem join_cons_cons (x y : β) (ys : List β) :
    join f sep (x :: y :: ys) = f x ++ sep :: join f sep (y :: ys) := by
  simp [join]

theorem join_singleton (x : β) : join f sep [x] = f x := by simp [join]

/-- What a joined text is made of. -/
theorem mem_join {c : α} {xs : List β} (h : c ∈ join f sep xs) : c = sep ∨ ∃ x, c ∈ f x := by
  cases xs with
  | nil => cases h
  | cons x xs =>
    rcases List.mem_append.mp h with h | h
    · exact .inr ⟨x, h⟩
    · obtain ⟨y, -, h⟩ := List.mem_flatMap.mp h
      rcases List.mem_cons.mp h with h | h
      · exact .inl h
      · exact .inr ⟨y, h⟩

/-- A text that begins with a field does not begin with the separator. -/
theorem Fields.cons_ne (hf : Fields f sep) (x : β) (us vs : List α) : f x ++ us ≠ sep :: vs := by
  intro h
  rcases hx : f x with _ | ⟨a, as⟩
  · exact hf.ne_nil x hx
  · rw [hx, List.cons_append, List.cons.injEq] at h
    exact hf.sep x (by rw [hx, h.1]; exact List.mem_cons_self)

/-- Nor does a joined text. -/
theorem Fields.join_ne (hf : Fields f sep) (xs : List β) (us : List α) :
    join f sep xs ≠ sep :: us := by
  cases xs with
  | nil => simp [join]
  | cons x xs => exact hf.cons_ne x _ us

/-- The fields can be read off the joined text. -/
theorem Fields.join_inj (hf : Fields f sep) : ∀ {xs ys : List β},
    join f sep xs = join f sep ys → xs = ys := by
  intro xs
  induction xs with
  | nil =>
    intro ys h
    cases ys with
    | nil => rfl
    | cons y ys => exact absurd (List.append_eq_nil_iff.mp h.symm).1 (hf.ne_nil y)
  | cons x xs ih =>
    intro ys h
    cases ys with
    | nil => exact absurd (List.append_eq_nil_iff.mp h).1 (hf.ne_nil x)
    | cons y ys =>
      cases xs with
      | nil =>
        cases ys with
        | nil =>
          rw [join_singleton, join_singleton] at h
          rw [hf.inj x y h]
        | cons z zs =>
          rw [join_singleton, join_cons_cons] at h
          exact absurd (h ▸ List.mem_append_right _ List.mem_cons_self) (hf.sep x)
      | cons w ws =>
        cases ys with
        | nil =>
          rw [join_singleton, join_cons_cons] at h
          exact absurd (h ▸ List.mem_append_right _ List.mem_cons_self) (hf.sep y)
        | cons z zs =>
          rw [join_cons_cons, join_cons_cons] at h
          obtain ⟨hxy, hrest⟩ := cut (hf.sep x) (hf.sep y) h
          rw [hf.inj x y hxy, ih hrest]

/-! ### A doubled separator -/

/-- Two joined texts around a doubled separator. -/
def double (f : β → List α) (sep : α) (xs ys : List β) : List α :=
  join f sep xs ++ sep :: sep :: join f sep ys

theorem mem_double {c : α} {xs ys : List β} (h : c ∈ double f sep xs ys) :
    c = sep ∨ ∃ x, c ∈ f x := by
  rcases List.mem_append.mp h with h | h
  · exact mem_join h
  · rcases List.mem_cons.mp h with h | h
    · exact .inl h
    · rcases List.mem_cons.mp h with h | h
      · exact .inl h
      · exact mem_join h

theorem double_singleton (x : β) (ys : List β) :
    double f sep [x] ys = f x ++ sep :: sep :: join f sep ys := by
  rw [double, join_singleton]

theorem double_cons_cons (x y : β) (xs ys : List β) :
    double f sep (x :: y :: xs) ys = f x ++ sep :: double f sep (y :: xs) ys := by
  rw [double, join_cons_cons, List.append_assoc]
  rfl

theorem Fields.double_cons_ne (hf : Fields f sep) (x : β) (xs ys : List β) (us : List α) :
    double f sep (x :: xs) ys ≠ sep :: us := by
  rw [double, join, List.append_assoc]
  exact hf.cons_ne x _ us

/-- The doubled separator can be found. -/
theorem Fields.double_inj (hf : Fields f sep) : ∀ {xs xs' ys ys' : List β},
    double f sep xs ys = double f sep xs' ys' → xs = xs' ∧ ys = ys' := by
  intro xs
  induction xs with
  | nil =>
    intro xs' ys ys' h
    cases xs' with
    | nil => exact ⟨rfl, hf.join_inj (List.cons.inj (List.cons.inj h).2).2⟩
    | cons x xs' => exact absurd h.symm (hf.double_cons_ne x xs' ys' _)
  | cons x xs ih =>
    intro xs' ys ys' h
    cases xs' with
    | nil => exact absurd h (hf.double_cons_ne x xs ys _)
    | cons x' xs' =>
      cases xs with
      | nil =>
        cases xs' with
        | nil =>
          rw [double_singleton, double_singleton] at h
          obtain ⟨hx, hrest⟩ := cut (hf.sep x) (hf.sep x') h
          exact ⟨by rw [hf.inj x x' hx], hf.join_inj (List.cons.inj hrest).2⟩
        | cons z zs =>
          rw [double_singleton, double_cons_cons] at h
          exact absurd (cut (hf.sep x) (hf.sep x') h).2.symm (hf.double_cons_ne z zs ys' _)
      | cons w ws =>
        cases xs' with
        | nil =>
          rw [double_singleton, double_cons_cons] at h
          exact absurd (cut (hf.sep x) (hf.sep x') h).2 (hf.double_cons_ne w ws ys _)
        | cons z zs =>
          rw [double_cons_cons, double_cons_cons] at h
          obtain ⟨hx, hrest⟩ := cut (hf.sep x) (hf.sep x') h
          obtain ⟨hxs, hys⟩ := ih hrest
          exact ⟨by rw [hf.inj x x' hx, hxs], hys⟩

/-- A joined text has no doubled separator. -/
theorem Fields.join_ne_double (hf : Fields f sep) : ∀ {zs xs ys : List β},
    join f sep zs ≠ double f sep xs ys := by
  intro zs
  induction zs with
  | nil => simp [join, double]
  | cons z zs ih =>
    intro xs ys h
    cases xs with
    | nil => exact hf.join_ne _ _ h
    | cons x xs =>
      cases zs with
      | nil =>
        -- the left side has no separator at all
        rw [join_singleton] at h
        refine hf.sep z (h ▸ ?_)
        exact List.mem_append_right _ List.mem_cons_self
      | cons w ws =>
        rw [join_cons_cons] at h
        cases xs with
        | nil =>
          rw [double_singleton] at h
          exact hf.join_ne _ _ (cut (hf.sep z) (hf.sep x) h).2
        | cons y xs =>
          rw [double_cons_cons] at h
          exact ih (cut (hf.sep z) (hf.sep x) h).2

end Text
