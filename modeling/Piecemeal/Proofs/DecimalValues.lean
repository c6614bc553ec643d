import Mathlib.Data.Nat.Digits.Defs
import Mathlib.Tactic.FieldSimp
import Piecemeal.Proofs.Numerals
import Piecemeal.Proofs.Rounding

/-!
# The value of a number

A numeral denotes a rational number: its digits count powers of ten, upwards from the point to the
left and downwards to the right (`Numeral.value`). `Text.number` returns this number correctly
rounded, whatever the number of digits: all of them are read as one integer over a power of ten, and
only this fraction is rounded.
-/

namespace Piecemeal

variable {ι : Type} {Γ : ι → Type}

/-! ## Digits -/

def digitValue (c : Char) : ℕ := c.toNat - '0'.toNat

theorem digitsValue_concat (digits : List Char) (c : Char) :
    digitsValue (digits ++ [c]) = 10 * digitsValue digits + digitValue c := by
  rw [digitsValue, List.foldl_append]
  rfl

/-- Read from its last digit on, an integer is a sum of powers of ten. -/
theorem digitsValue_eq_ofDigits (digits : List Char) :
    digitsValue digits = Nat.ofDigits 10 (digits.reverse.map digitValue) := by
  induction digits using List.reverseRecOn with
  | nil => rfl
  | append_singleton digits c ih =>
    rw [digitsValue_concat, ih, List.reverse_concat, List.map_cons, Nat.ofDigits_cons, Nat.add_comm]

theorem digitsValue_append (left right : List Char) :
    digitsValue (left ++ right) = 10 ^ right.length * digitsValue left + digitsValue right := by
  rw [digitsValue_eq_ofDigits, List.reverse_append, List.map_append, Nat.ofDigits_append,
    List.length_map, List.length_reverse, ← digitsValue_eq_ofDigits, ← digitsValue_eq_ofDigits,
    Nat.add_comm]

theorem digitsValue_cons (c : Char) (digits : List Char) :
    digitsValue (c :: digits) = 10 ^ digits.length * digitValue c + digitsValue digits := by
  have hone : digitsValue [c] = digitValue c := (digitsValue_concat [] c).trans (Nat.zero_add _)
  rw [← hone, ← digitsValue_append, List.singleton_append]

/-- The number below 1 that digits behind a point denote. -/
def fractionValue : List Char → ℚ
  | [] => 0
  | c :: digits => (digitValue c + fractionValue digits) / 10

theorem fractionValue_eq_div (digits : List Char) :
    fractionValue digits = digitsValue digits / 10 ^ digits.length := by
  induction digits with
  | nil => simp [fractionValue, digitsValue]
  | cons c digits ih =>
    rw [fractionValue, ih, digitsValue_cons, List.length_cons]
    push_cast
    field_simp
    ring

namespace Numeral

/-- The number that a numeral denotes. -/
def value (n : Numeral) : ℚ :=
  Nat.ofDigits 10 (n.whole.reverse.map digitValue) + fractionValue (n.fraction.getD [])

theorem ne_point {digits : List Char} (h : ∀ c ∈ digits, c.isDigit = true) :
    ∀ c ∈ digits, (c != '.') = true := by
  intro c hc
  rw [bne_iff_ne]
  rintro rfl
  exact absurd (h _ hc) (by decide)

theorem stop_point (n : Numeral) : ∀ c ∈ (tail n.fraction).head?, ¬ (c != '.') = true := by
  cases n.fraction with
  | none => nofun
  | some digits =>
    rintro c ⟨⟩
    decide

theorem wholeDigits_text (n : Numeral) : wholeDigits n.text = n.whole :=
  (Parser.span_of_stop (ne_point n.isDigit_whole) n.stop_point).1

theorem fractionDigits_text (n : Numeral) : fractionDigits n.text = n.fraction.getD [] := by
  rw [fractionDigits, text, (Parser.span_of_stop (ne_point n.isDigit_whole) n.stop_point).2]
  cases n.fraction with
  | none => rfl
  | some digits => rfl

/-- The text of a numeral is converted to the number it denotes, correctly rounded. -/
theorem rounds_ofDecimal (n : Numeral) : Binary64.Rounds n.value (.ofDecimal n.text) := by
  have hvalue : n.value = (digitsValue (n.whole ++ n.fraction.getD []) : ℕ) /
      ((10 ^ (n.fraction.getD []).length : ℕ) : ℚ) := by
    rw [value, fractionValue_eq_div, digitsValue_append, digitsValue_eq_ofDigits n.whole]
    push_cast
    field_simp
  rw [hvalue, Binary64.ofDecimal, wholeDigits_text, fractionDigits_text]
  exact Binary64.rounds_ofFraction _ (Nat.pow_pos (by decide))

end Numeral

namespace Parser

open Reading

open Input in
/-- **A number is correctly rounded.** Let the text of a numeral be what is ahead in a state, and
then the end, cut into any chunks. However this is delivered, `number` takes all of it and succeeds
with the number that the numeral denotes, correctly rounded, and no other value is that. An integer
up to `2 ^ 53 - 1` is not rounded at all. -/
theorem number_correctly_rounded (G : Rules Γ Char) (n : Numeral) (s : Input Char)
    (chunks : List (List Char)) (htext : s.outlook chunks = n.text) :
    ∃ k ended s' x, Text.number.Takes G s chunks k ended (.success s' x) ∧
      s'.ahead ((s.future chunks).drop k) = [] ∧
      x.Rounds n.value ∧ (∀ y : Binary64, y.Rounds n.value → y = x) ∧
      ∀ m : ℕ, m ≤ 2 ^ 53 - 1 → n.value = m → x.value = m ∧ x.toNat? = some m := by
  have hends : n.Ends [] := ⟨nofun, fun _ => nofun⟩
  have hmakes : Text.number.Makes G (s.outlook chunks) (success (.ofDecimal n.text) []) := by
    rw [htext]
    simpa only [List.append_nil] using makes_number G hends
  obtain ⟨k, ended, s', htakes, hahead⟩ := hmakes.exists_takes
  refine ⟨k, ended, s', _, htakes, hahead, n.rounds_ofDecimal, ?_, ?_⟩
  · exact fun y hy => hy.unique n.rounds_ofDecimal
  · intro m hm hvalue
    have hrounds := n.rounds_ofDecimal
    rw [hvalue] at hrounds
    exact hrounds.eq_of_lt (Nat.lt_of_le_pred (by decide) hm)

/-- An odd integer above `2 ^ 53` lies half-way between two values. -/
def halfWay : Numeral where
  whole := "9007199254740993".toList
  fraction := some ['0']
  whole_ne_nil := by decide
  isDigit_whole := List.all_eq_true.mp rfl
  isDigit_fraction := by
    rintro digits ⟨⟩
    exact List.all_eq_true.mp rfl

/-- The text is cut before and behind the point, and the number goes to the even neighbour. -/
theorem number_correctly_rounded_halfWay : ∃ k ended s' x,
    (Text.number : Parser Empty.elim Char Binary64).Takes nofun (.ofList "9007".toList false)
      ["199254740993".toList, ['.'], [], ['0']] k ended (.success s' x) ∧
    x.Rounds halfWay.value ∧ x.toNat? = some 9007199254740992 := by
  obtain ⟨k, ended, s', x, htakes, -, hrounds, hunique, -⟩ := number_correctly_rounded
    (nofun : Rules Empty.elim Char) halfWay (.ofList "9007".toList false)
    ["199254740993".toList, ['.'], [], ['0']] rfl
  refine ⟨k, ended, s', x, htakes, hrounds, ?_⟩
  rw [← hunique _ halfWay.rounds_ofDecimal]
  decide +kernel

end Parser

end Piecemeal
