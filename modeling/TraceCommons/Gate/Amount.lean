import Mathlib

/-!
# Amounts and rates of the gate API

Checked machine arithmetic, the decimal parser of Trace Credit amounts
(`Microcredits::from_credit_decimal`) and a rail's rate with its flooring price
(`RailRate`). Amounts are natural numbers; an operation the source does with
`checked_*` on `u64` or `u128` returns `none` where the source does.
-/

namespace TraceCommons

abbrev Uuid := Nat

/-- Instants, as the database and the application clock give them. -/
abbrev Time := Int

def checkedAdd (bits a b : Nat) : Option Nat := if a + b < 2 ^ bits then some (a + b) else none

def checkedMul (bits a b : Nat) : Option Nat := if a * b < 2 ^ bits then some (a * b) else none

def checkedSub (a b : Nat) : Option Nat := if b ≤ a then some (a - b) else none

theorem checkedAdd_eq_some {bits a b c : Nat} :
    checkedAdd bits a b = some c ↔ a + b < 2 ^ bits ∧ a + b = c := by
  unfold checkedAdd; split <;> simp_all

theorem checkedMul_eq_some {bits a b c : Nat} :
    checkedMul bits a b = some c ↔ a * b < 2 ^ bits ∧ a * b = c := by
  unfold checkedMul; split <;> simp_all

theorem checkedSub_eq_some {a b c : Nat} : checkedSub a b = some c ↔ b ≤ a ∧ a - b = c := by
  unfold checkedSub; split <;> simp_all

/-! ## Decimal credit amounts -/

inductive MicrocreditConversionError
  | invalid | excessPrecision | overflow
  deriving DecidableEq

def microcreditsPerCredit : Nat := 1000000

def digitsValue (cs : List Char) : Nat :=
  cs.foldl (fun n c => n * 10 + (c.toNat - '0'.toNat)) 0

/-- `str::parse::<u64>` on text already known to be ASCII digits. -/
def parseU64 (cs : List Char) : Option Nat :=
  if digitsValue cs < 2 ^ 64 then some (digitsValue cs) else none

namespace Microcredits

/-- `Microcredits::from_credit_decimal`: a decimal credit amount, without floating point. -/
def fromCreditDecimal (value : List Char) : Except MicrocreditConversionError Nat := do
  if value = [] ∨ value.head? = some '-' ∨ value.head? = some '+' then
    throw .invalid
  let whole := value.takeWhile (· ≠ '.')
  let fractional := (value.dropWhile (· ≠ '.')).drop 1
  if whole = [] ∨ ¬ whole.all Char.isDigit ∨ ¬ fractional.all Char.isDigit then
    throw .invalid
  if fractional.length > 6 then
    throw .excessPrecision
  let some whole := parseU64 whole | throw .overflow
  let some whole := checkedMul 64 whole microcreditsPerCredit | throw .overflow
  let some micros := (if fractional = [] then some 0 else parseU64 fractional) | throw .overflow
  let some micros := (List.range (6 - fractional.length)).foldlM
    (fun m _ => checkedMul 64 m 10) micros | throw .overflow
  match checkedAdd 64 whole micros with
  | some total => pure total
  | none => throw .overflow

end Microcredits

/-! ## Text -/

/-- `char::is_whitespace`: the Unicode `White_Space` property. -/
def isWhitespace (c : Char) : Bool :=
  let n := c.toNat
  (0x9 ≤ n ∧ n ≤ 0xD) ∨ n = 0x20 ∨ n = 0x85 ∨ n = 0xA0 ∨ n = 0x1680 ∨
    (0x2000 ≤ n ∧ n ≤ 0x200A) ∨ n = 0x2028 ∨ n = 0x2029 ∨ n = 0x202F ∨ n = 0x205F ∨ n = 0x3000

/-- `str::trim`. -/
def trim (cs : List Char) : List Char :=
  ((cs.dropWhile isWhitespace).reverse.dropWhile isWhitespace).reverse

/-- `str::strip_prefix`. -/
def stripPrefix (p cs : List Char) : Option (List Char) :=
  if p <+: cs then some (cs.drop p.length) else none

def hexDigit (c : Char) : Option Nat :=
  if '0' ≤ c ∧ c ≤ '9' then some (c.toNat - '0'.toNat)
  else if 'a' ≤ c ∧ c ≤ 'f' then some (c.toNat - 'a'.toNat + 10)
  else if 'A' ≤ c ∧ c ≤ 'F' then some (c.toNat - 'A'.toNat + 10)
  else none

def hexValue (cs : List Char) : Option Nat :=
  cs.foldlM (fun n c => (hexDigit c).map (n * 16 + ·)) 0

namespace Uuid

/-- The hyphenated form: hyphens at their four places, hexadecimal digits elsewhere. -/
def parseHyphenated (cs : List Char) : Option Uuid :=
  if [8, 13, 18, 23].all (fun i => cs[i]? = some '-') then
    hexValue (cs.take 8 ++ (cs.drop 9).take 4 ++ (cs.drop 14).take 4 ++ (cs.drop 19).take 4 ++
      cs.drop 24)
  else none

/-- `Uuid::parse_str`: simple, hyphenated, braced or URN text. -/
def parseStr (cs : List Char) : Option Uuid :=
  match cs.length with
  | 32 => hexValue cs
  | 36 => parseHyphenated cs
  | 38 =>
    if cs.head? = some '{' ∧ cs.getLast? = some '}' then parseHyphenated (cs.drop 1).dropLast
    else none
  | 45 => (stripPrefix "urn:uuid:".toList cs).bind parseHyphenated
  | _ => none

end Uuid

/-! ## Rates -/

/-- `RailRate`: `numerator / denominator` rail units for one award unit, neither zero. -/
structure RailRate where
  version : String
  numerator : Nat
  denominator : Nat
  numerator_pos : 0 < numerator
  denominator_pos : 0 < denominator

namespace RailRate

/-- `RailRate::price`: `floor(award * numerator / denominator)`, refused where the product
does not fit `u128`. -/
def price (r : RailRate) (award : Nat) : Option Nat :=
  (checkedMul 128 award r.numerator).map (· / r.denominator)

/-- The price without its overflow check. -/
def floorPrice (r : RailRate) (award : Nat) : Nat := award * r.numerator / r.denominator

theorem price_eq_some {r : RailRate} {award units : Nat} :
    r.price award = some units ↔
      award * r.numerator < 2 ^ 128 ∧ r.floorPrice award = units := by
  simp only [price, Option.map_eq_some_iff, checkedMul_eq_some]
  constructor
  · rintro ⟨_, ⟨h, rfl⟩, rfl⟩; exact ⟨h, rfl⟩
  · rintro ⟨h, rfl⟩; exact ⟨_, ⟨h, rfl⟩, rfl⟩

/-- A price that fits fits for every smaller award. -/
theorem price_of_le {r : RailRate} {award units a : Nat} (h : r.price award = some units)
    (ha : a ≤ award) : r.price a = some (r.floorPrice a) := by
  obtain ⟨hlt, -⟩ := price_eq_some.1 h
  exact price_eq_some.2 ⟨lt_of_le_of_lt (Nat.mul_le_mul_right _ ha) hlt, rfl⟩

end RailRate

end TraceCommons
