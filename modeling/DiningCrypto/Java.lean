import Mathlib.Data.BitVec
import Mathlib.Data.List.Basic

/-!
# Java's `int`, `char` and `String`

The primitive values the program computes with. An `int` is 32 bits with wrapping
arithmetic, read in two's complement by comparisons; a `char` is an unsigned 16-bit code
unit and a `String` a sequence of them, so that unpaired surrogates and `'\uffff'` are
ordinary characters.

The one library routine with an algorithm in it is the decimal number format:
`intToString` (the concatenation `"" + i`) and `parseInt` (`Integer.parseInt`), with the
round trip `parseInt_intToString`. Everything the other modules need to know about the
format follows from it: `intToString` is injective, and a string `parseInt` rejects is
never the decimal of an `int`.

An `ArrayList` to which elements are added is a list that grows at its end.
-/

namespace DiningCrypto

/-- `int`: arithmetic wraps around, `toInt` is the signed value. -/
abbrev JInt : Type := BitVec 32

/-- `char`: an unsigned 16-bit code unit. -/
abbrev JChar : Type := BitVec 16

/-- `byte`: 8 bits, signed when widened. -/
abbrev Byte : Type := BitVec 8

/-- `String`: a sequence of code units. -/
abbrev JString : Type := List JChar

/-- A code unit from an (ASCII) character literal. -/
def JChar.ofChar (c : Char) : JChar := BitVec.ofNat 16 c.toNat

/-- A string literal of the source. -/
def lit (s : String) : JString := s.toList.map JChar.ofChar

/-! ## Lists that grow at their end -/

theorem getElem?_of_append {α : Type} {xs : List α} {i : ℕ} {x : α} (h : xs[i]? = some x)
    (ys : List α) : (xs ++ ys)[i]? = some x := by
  obtain ⟨hlt, -⟩ := List.getElem?_eq_some_iff.mp h
  rw [List.getElem?_append_left hlt, h]

theorem getElem?_append_of_length {α : Type} {xs : List α} {i : ℕ} (h : xs.length = i)
    (x : α) : (xs ++ [x])[i]? = some x := by
  rw [← h, List.getElem?_concat_length]

/-- An entry after the list has grown by one is an old entry or the new one. -/
theorem getElem?_append_cases {α : Type} {xs : List α} {i : ℕ} {x y : α}
    (h : (xs ++ [x])[i]? = some y) : xs[i]? = some y ∨ i = xs.length ∧ y = x := by
  rcases lt_trichotomy i xs.length with hlt | rfl | hgt
  · rw [List.getElem?_append_left hlt] at h
    exact .inl h
  · rw [List.getElem?_concat_length, Option.some.injEq] at h
    exact .inr ⟨rfl, h.symm⟩
  · rw [List.getElem?_eq_none (by rw [List.length_append]; exact hgt)] at h
    cases h

/-! ## The decimal format -/

/-- The zeros of the scripts that have decimal digits among the code units, ASCII first. Each
is followed by the other nine digits of its script. -/
def digitZeros : List ℕ :=
  [0x0030, 0x0660, 0x06f0, 0x07c0, 0x0966, 0x09e6, 0x0a66, 0x0ae6, 0x0b66, 0x0be6, 0x0c66,
    0x0ce6, 0x0d66, 0x0de6, 0x0e50, 0x0ed0, 0x0f20, 0x1040, 0x1090, 0x17e0, 0x1810, 0x1946,
    0x19d0, 0x1a80, 0x1a90, 0x1b50, 0x1bb0, 0x1c40, 0x1c50, 0xa620, 0xa8d0, 0xa900, 0xa9d0,
    0xa9f0, 0xaa50, 0xabf0, 0xff10]

/-- `Character.digit(c, 10)`: the value of one decimal digit, of whichever script. -/
def digitValue (c : JChar) : Option ℕ :=
  (digitZeros.find? fun first => first ≤ c.toNat ∧ c.toNat ≤ first + 9).map (c.toNat - ·)

/-- Accumulate digits from the left, giving up at the first non-digit. -/
def digitsValue : ℕ → JString → Option ℕ
  | acc, [] => some acc
  | acc, c :: cs =>
    match digitValue c with
    | some d => digitsValue (10 * acc + d) cs
    | none => none

/-- An unsigned decimal numeral: at least one digit. -/
def magnitude (s : JString) : Option ℕ :=
  if s = [] then none else digitsValue 0 s

/-- `Integer.parseInt`: an optional sign and a numeral in range. `none` is a
`NumberFormatException`. -/
def parseInt : JString → Option JInt
  | [] => none
  | c :: cs =>
    if c = JChar.ofChar '-' then
      (magnitude cs).bind fun m => if m ≤ 2 ^ 31 then some (BitVec.ofInt 32 (-m)) else none
    else if c = JChar.ofChar '+' then
      (magnitude cs).bind fun m => if m < 2 ^ 31 then some (BitVec.ofInt 32 m) else none
    else
      (magnitude (c :: cs)).bind fun m => if m < 2 ^ 31 then some (BitVec.ofInt 32 m) else none

/-- The digits of a natural number. -/
def natToString (m : ℕ) : JString := (Nat.toDigits 10 m).map JChar.ofChar

/-- `"" + i`: the decimal numeral of an `int`. -/
def intToString (i : JInt) : JString :=
  if i.toInt < 0 then JChar.ofChar '-' :: natToString i.toInt.natAbs
  else natToString i.toInt.natAbs

theorem isDigit_toNat {c : Char} (hc : c.isDigit) : 48 ≤ c.toNat ∧ c.toNat ≤ 57 := by
  simp only [Char.isDigit, Bool.and_eq_true, decide_eq_true_eq] at hc
  exact hc

theorem ofChar_toNat {c : Char} (hc : c.isDigit) : (JChar.ofChar c).toNat = c.toNat := by
  have h := isDigit_toNat hc
  rw [JChar.ofChar, BitVec.toNat_ofNat]
  exact Nat.mod_eq_of_lt (by omega)

theorem digitValue_ofChar {c : Char} (hc : c.isDigit) :
    digitValue (JChar.ofChar c) = some (c.toNat - 48) := by
  have hfind : (digitZeros.find? fun first => first ≤ c.toNat ∧ c.toNat ≤ first + 9) = some 48 :=
    List.find?_cons_of_pos (decide_eq_true (isDigit_toNat hc))
  rw [digitValue, ofChar_toNat hc, hfind, Option.map_some]

/-- On digit characters the accumulator is the library's `Nat.ofDigitChars`. -/
theorem digitsValue_map_ofChar :
    ∀ (cs : List Char) (acc : ℕ), (∀ c ∈ cs, c.isDigit) →
      digitsValue acc (cs.map JChar.ofChar) = some (Nat.ofDigitChars 10 cs acc)
  | [], acc, _ => by simp [digitsValue]
  | c :: cs, acc, h => by
    have hc : c.isDigit := h c (List.mem_cons_self ..)
    have ih := digitsValue_map_ofChar cs (10 * acc + (c.toNat - 48))
      (fun d hd => h d (List.mem_cons_of_mem _ hd))
    rw [List.map_cons, digitsValue, digitValue_ofChar hc, Nat.ofDigitChars_cons]
    exact ih

theorem isDigit_toDigits {m : ℕ} {c : Char} (hc : c ∈ Nat.toDigits 10 m) : c.isDigit :=
  Nat.isDigit_of_mem_toDigits (by decide) (by decide) hc

theorem natToString_ne_nil (m : ℕ) : natToString m ≠ [] := by
  rw [natToString, Ne, List.map_eq_nil_iff]
  exact Nat.toDigits_ne_nil

/-- Reading back the digits of a number gives the number. -/
theorem magnitude_natToString (m : ℕ) : magnitude (natToString m) = some m := by
  rw [magnitude, if_neg (natToString_ne_nil m), natToString,
    digitsValue_map_ofChar _ _ (fun c hc => isDigit_toDigits hc), Nat.ofDigitChars_ten_toDigits]

/-- A numeral starts with a digit, so `parseInt` takes its unsigned branch. -/
theorem parseInt_natToString {m : ℕ} (hm : m < 2 ^ 31) :
    parseInt (natToString m) = some (BitVec.ofInt 32 m) := by
  have hmag := magnitude_natToString m
  rcases hs : natToString m with _ | ⟨c, cs⟩
  · exact absurd hs (natToString_ne_nil m)
  · have hmem : c ∈ natToString m := by rw [hs]; exact List.mem_cons_self ..
    obtain ⟨d, hd, rfl⟩ := List.mem_map.mp hmem
    have hdig := isDigit_toNat (isDigit_toDigits hd)
    have hval := ofChar_toNat (isDigit_toDigits hd)
    have hminus : JChar.ofChar d ≠ JChar.ofChar '-' := by
      intro he
      have : (JChar.ofChar '-').toNat = 45 := rfl
      rw [← he] at this
      omega
    have hplus : JChar.ofChar d ≠ JChar.ofChar '+' := by
      intro he
      have : (JChar.ofChar '+').toNat = 43 := rfl
      rw [← he] at this
      omega
    rw [hs] at hmag
    rw [parseInt, if_neg hminus, if_neg hplus, hmag, Option.bind_some, if_pos hm]

/-- **The decimal format is a round trip** on every `int`, `Integer.MIN_VALUE` included. -/
@[simp] theorem parseInt_intToString (i : JInt) : parseInt (intToString i) = some i := by
  have hlo : -2 ^ 31 ≤ i.toInt := BitVec.le_toInt i
  have hhi : i.toInt < 2 ^ 31 := BitVec.toInt_lt
  by_cases hneg : i.toInt < 0
  · have habs : -(i.toInt.natAbs : ℤ) = i.toInt := by omega
    rw [intToString, if_pos hneg, parseInt, if_pos rfl, magnitude_natToString,
      Option.bind_some, if_pos (by omega), habs, BitVec.ofInt_toInt]
  · have habs : (i.toInt.natAbs : ℤ) = i.toInt := by omega
    rw [intToString, if_neg hneg, parseInt_natToString (by omega), habs, BitVec.ofInt_toInt]

theorem intToString_injective : Function.Injective intToString := by
  intro i j h
  have := congrArg parseInt h
  rwa [parseInt_intToString, parseInt_intToString, Option.some.injEq] at this

/-- A string `parseInt` rejects is not the decimal of any `int`. -/
theorem intToString_ne {s : JString} (hs : parseInt s = none) (i : JInt) :
    intToString i ≠ s := by
  rintro rfl
  rw [parseInt_intToString] at hs
  cases hs

example : intToString (-2147483648) = lit "-2147483648" := by decide +kernel

end DiningCrypto
