/-
  StackVM.Proofs.Assembly.Numerals — rows of digits and the numbers they stand for.

  A numeral is a row of digits, at least one, and stands for a number in its base: a digit more makes the number so
  many times larger and adds what the digit is worth. The letters are digits from ten on, small or capital, and
  zeros in front make no difference. The reader of literals is not in it.

  - `numeral_iff`: a reader that wants a row of digits from end to end reads the numerals and nothing else.
  - `Numeral.zeros`, `Numeral.of_lower`: zeros in front and the case of letters make no difference.
  - `numeral_decimal`, `numeral_hexadecimal`: a number written out is a numeral that stands for it.
-/

import StackVM.Literal

namespace StackVM

open Text (byte)

/-- A digit and what it is worth. -/
inductive Digit : UInt8 → Nat → Prop
  | decimal {d : Nat} : d < 10 → Digit (byte '0' + UInt8.ofNat d) d
  | small {d : Nat} : d < 6 → Digit (byte 'a' + UInt8.ofNat d) (10 + d)
  | capital {d : Nat} : d < 6 → Digit (byte 'A' + UInt8.ofNat d) (10 + d)

/-- A row of digits and the number it stands for. -/
inductive Numeral (base : Nat) : Text → Nat → Prop
  | one {b : UInt8} {d : Nat} : Digit b d → d < base → Numeral base [b] d
  | more {t : Text} {n : Nat} {b : UInt8} {d : Nat} : Numeral base t n → Digit b d → d < base →
      Numeral base (t ++ [b]) (n * base + d)

/-! ## Digits -/

theorem digitValue?_of_digit {b : UInt8} {d : Nat} (hd : Digit b d) : Literal.digitValue? b = some d := by
  cases hd with
  | decimal h =>
    have hall : ∀ d < 10, Literal.digitValue? (byte '0' + UInt8.ofNat d) = some d := by decide
    exact hall _ h
  | small h =>
    have hall : ∀ d < 6, Literal.digitValue? (byte 'a' + UInt8.ofNat d) = some (10 + d) := by decide
    exact hall _ h
  | capital h =>
    have hall : ∀ d < 6, Literal.digitValue? (byte 'A' + UInt8.ofNat d) = some (10 + d) := by decide
    exact hall _ h

/-- A byte is what it is away from another. -/
theorem add_ofNat_sub (a b : UInt8) : a + UInt8.ofNat (b - a).toNat = b := by
  rw [UInt8.ofNat_toNat, UInt8.add_comm, UInt8.sub_add_cancel]

theorem digit_of_digitValue? {b : UInt8} {d : Nat} (hd : Literal.digitValue? b = some d) (hlt : d < 16) : Digit b d := by
  unfold Literal.digitValue? at hd
  split at hd
  next hdecimal =>
    cases hd
    rw [Text.isDigit, Bool.and_eq_true, decide_eq_true_eq, decide_eq_true_eq] at hdecimal
    have hten : (b - byte '0').toNat < 10 := by
      have hle := UInt8.le_iff_toNat_le.mp hdecimal.2
      have hzero : (byte '0').toNat = 48 := rfl
      have hnine : (byte '9').toNat = 57 := rfl
      rw [UInt8.toNat_sub_of_le _ _ hdecimal.1]
      omega
    have hdigit := Digit.decimal hten
    rwa [add_ofNat_sub] at hdigit
  next =>
    split at hd
    next =>
      cases hd
      have hdigit := Digit.small (d := (b - byte 'a').toNat) (by omega)
      rwa [add_ofNat_sub, Nat.add_comm] at hdigit
    next =>
      split at hd
      next =>
        cases hd
        have hdigit := Digit.capital (d := (b - byte 'A').toNat) (by omega)
        rwa [add_ofNat_sub, Nat.add_comm] at hdigit
      next => cases hd

/-! ## Rows of digits -/

namespace Literal

theorem isDigitOf_iff {base : Nat} {b : UInt8} : isDigitOf base b = true ↔ ∃ d, digitValue? b = some d ∧ d < base := by
  rw [isDigitOf, Option.any_eq_true]
  simp

theorem value_concat (base : Nat) (t : Text) (b : UInt8) :
    value base (t ++ [b]) = value base t * base + (digitValue? b).getD 0 := by
  rw [value, List.foldl_append]
  rfl

theorem whole?_eq_some {base : Nat} {t : Text} {n : Nat} :
    whole? base t = some n ↔ t ≠ [] ∧ (∀ b ∈ t, isDigitOf base b = true) ∧ value base t = n := by
  unfold whole?
  split
  next h =>
    rw [Bool.and_eq_true, Bool.not_eq_true', List.isEmpty_eq_false_iff, List.all_eq_true] at h
    simp only [Option.some.injEq, h.1, ne_eq, not_false_iff, true_and]
    exact ⟨fun hn => ⟨fun _ hb => h.2 _ hb, hn⟩, fun hn => hn.2⟩
  next h =>
    rw [Bool.and_eq_true, Bool.not_eq_true', List.isEmpty_eq_false_iff, List.all_eq_true] at h
    simp only [reduceCtorEq, false_iff]
    rintro ⟨hne, hall, -⟩
    exact h ⟨hne, hall⟩

end Literal

open Literal (whole? value isDigitOf digitValue?)

variable {base n : Nat} {t : Text}

/-- What a numeral is made of, and the number it stands for. -/
theorem Numeral.read (h : Numeral base t n) : t ≠ [] ∧ (∀ b ∈ t, isDigitOf base b = true) ∧ value base t = n := by
  induction h with
  | @one b d hd hlt =>
    have hvalue := digitValue?_of_digit hd
    refine ⟨by simp, ?_, by simp [value, hvalue]⟩
    simpa using Literal.isDigitOf_iff.mpr ⟨d, hvalue, hlt⟩
  | @more t n b d _ hd hlt ih =>
    obtain ⟨-, hall, hn⟩ := ih
    have hvalue := digitValue?_of_digit hd
    refine ⟨by simp, fun b' hb' => ?_, by rw [Literal.value_concat, hn, hvalue]; rfl⟩
    rcases List.mem_append.mp hb' with hb' | hb'
    · exact hall b' hb'
    · rw [List.mem_singleton.mp hb']
      exact Literal.isDigitOf_iff.mpr ⟨d, hvalue, hlt⟩

/-- A numeral starts with a digit, and more digits follow. -/
theorem Numeral.exists_cons (h : Numeral base t n) :
    ∃ b rest, t = b :: rest ∧ isDigitOf base b = true ∧ ∀ c ∈ rest, isDigitOf base c = true := by
  obtain ⟨hne, hall, -⟩ := h.read
  cases t with
  | nil => exact absurd rfl hne
  | cons b rest => exact ⟨b, rest, rfl, hall b List.mem_cons_self, fun c hc => hall c (List.mem_cons_of_mem b hc)⟩

theorem numeral_of_digits (hbase : base ≤ 16) (hne : t ≠ []) (hall : ∀ b ∈ t, isDigitOf base b = true) :
    Numeral base t (value base t) := by
  -- a row of digits is taken apart from its end
  obtain ⟨r, rfl⟩ : ∃ r : Text, t = r.reverse := ⟨t.reverse, t.reverse_reverse.symm⟩
  induction r with
  | nil => exact absurd rfl hne
  | cons b r ih =>
    rw [List.reverse_cons] at hall ⊢
    obtain ⟨d, hvalue, hlt⟩ := Literal.isDigitOf_iff.mp (hall b (by simp))
    have hdigit := digit_of_digitValue? hvalue (Nat.lt_of_lt_of_le hlt hbase)
    rw [Literal.value_concat, hvalue]
    by_cases hr : r = []
    · subst hr
      simpa [value] using Numeral.one hdigit hlt
    · have hfront := ih (by simpa using hr) fun c hc => hall c (List.mem_append_left _ hc)
      exact .more hfront hdigit hlt

/-- What is read from end to end as a row of digits is a numeral, and every numeral is read. -/
theorem numeral_iff (hbase : base ≤ 16) : Numeral base t n ↔ whole? base t = some n := by
  rw [Literal.whole?_eq_some]
  constructor
  · exact Numeral.read
  · rintro ⟨hne, hall, rfl⟩
    exact numeral_of_digits hbase hne hall

theorem Numeral.zero_cons (h : Numeral base t n) (hbase : 0 < base) : Numeral base (byte '0' :: t) n := by
  have hzero : Digit (byte '0') 0 := Digit.decimal (d := 0) (by decide)
  induction h with
  | one hd hlt => simpa using (Numeral.one hzero hbase).more hd hlt
  | more _ hd hlt ih => exact ih.more hd hlt

/-- Zeros in front make no difference. -/
theorem Numeral.zeros (h : Numeral base t n) (hbase : 0 < base) (count : Nat) :
    Numeral base (List.replicate count (byte '0') ++ t) n := by
  induction count with
  | zero => exact h
  | succ count ih => exact ih.zero_cons hbase

/-- Neither does it matter whether letters are small or capital. -/
theorem Numeral.of_lower (h : Numeral base (t.map Text.lower) n) (hbase : base ≤ 16) : Numeral base t n := by
  have hdigit : ∀ b, digitValue? (Text.lower b) = digitValue? b := by
    intro b
    have hall : ∀ k < 256, digitValue? (Text.lower (UInt8.ofNat k)) = digitValue? (UInt8.ofNat k) := by
      decide +kernel
    rw [← UInt8.ofNat_toNat (x := b)]
    exact hall b.toNat b.toNat_lt
  have hvalue : value base (t.map Text.lower) = value base t := by
    simp only [value, List.foldl_map, hdigit]
  obtain ⟨hne, hall, hn⟩ := h.read
  refine (numeral_iff hbase).mpr (Literal.whole?_eq_some.mpr ⟨by simpa using hne, fun b hb => ?_, hvalue ▸ hn⟩)
  have hlower := hall (Text.lower b) (List.mem_map_of_mem hb)
  rwa [isDigitOf, hdigit] at hlower

/-! ## Numbers written out -/

/-- The byte of a digit is its worth in any base up to sixteen. -/
theorem digit_digitChar {d : Nat} (hd : d < 16) : Digit (byte d.digitChar) d := by
  have hall : ∀ d < 16, Literal.digitValue? (byte d.digitChar) = some d := by decide
  exact digit_of_digitValue? (hall d hd) hd

theorem ofString_digitChar {d : Nat} (hd : d < 16) : String.utf8EncodeChar d.digitChar = [byte d.digitChar] := by
  have hall : ∀ d < 16, String.utf8EncodeChar (Nat.digitChar d) = [byte (Nat.digitChar d)] := by decide
  exact hall d hd

theorem numeral_toDigits (hbase : 1 < base) (hle : base ≤ 16) (n : Nat) :
    Numeral base ((Nat.toDigits base n).flatMap String.utf8EncodeChar) n := by
  induction n using Nat.strongRecOn with
  | ind n ih =>
    by_cases hn : n < base
    · rw [Nat.toDigits_of_lt_base hn, List.flatMap_singleton, ofString_digitChar (by omega)]
      exact .one (digit_digitChar (by omega)) hn
    · have hlt : n % base < base := Nat.mod_lt _ (by omega)
      rw [Nat.toDigits_of_base_le hbase (by omega), List.flatMap_append, List.flatMap_singleton,
        ofString_digitChar (by omega)]
      have hmore := (ih (n / base) (Nat.div_lt_self (by omega) hbase)).more (digit_digitChar (by omega)) hlt
      rwa [Nat.mul_comm, Nat.div_add_mod] at hmore

theorem numeral_decimal (n : Nat) : Numeral 10 (Text.decimal n) n := by
  rw [Text.decimal, Text.ofString, Nat.toString_eq_ofList_toDigits, String.toList_ofList]
  exact numeral_toDigits (by decide) (by decide) n

theorem numeral_hexadecimal (n : Nat) : Numeral 16 (Text.hexadecimal n) n := by
  rw [Text.hexadecimal, Text.ofString, String.toList_ofList]
  exact numeral_toDigits (by decide) (by decide) n

end StackVM
