import NameServerConf.Text.Words

/-!
# Numbers

Numbers are written in decimal with a leading hyphen if they are negative: `ofInt`.  There are
two readers.  `readInt?` takes the first word of a text, which must be a decimal number and
nothing else.  `leadingInt?` takes the longest number a text begins with, whatever follows, and
lets the number's first digits choose its base.
-/

namespace NameServerConf.Text

/-! ## Writing -/

/-- The digit of a value below ten. -/
def digit (n : Nat) : UInt8 := Byte.zero + n.toUInt8

/-- The decimal digits of a number, without leading zeros. -/
def ofNat (n : Nat) : Text :=
  if n < 10 then [digit n] else ofNat (n / 10) ++ [digit (n % 10)]

/-- A number in decimal. -/
def ofInt : Int → Text
  | .ofNat n => ofNat n
  | .negSucc n => Byte.hyphen :: ofNat (n + 1)

/-- `s` with as many zeros before it as make it `width` bytes long. -/
def zeroPad (width : Nat) (s : Text) : Text := List.replicate (width - s.length) Byte.zero ++ s

/-- A number with zeros between its sign and its digits, `width` bytes in all if they are enough. -/
def ofIntPadded (width : Nat) : Int → Text
  | .ofNat n => zeroPad width (ofNat n)
  | .negSucc n => Byte.hyphen :: zeroPad (width - 1) (ofNat (n + 1))

/-! ## Reading -/

/-- The values that fit in 32 bits with a sign. -/
def inInt32 (i : Int) : Bool := -2147483648 ≤ i && i ≤ 2147483647

/-- The value of a digit, letters standing for ten and more; other bytes have none. -/
def digitValue? (b : UInt8) : Option Nat :=
  if Byte.isDigit b then some (b - Byte.zero).toNat
  else if Byte.isLetter b then some ((Byte.lower b).toNat - 87)
  else none

/-- A digit in the given base. -/
def isDigitOf (base : Nat) (b : UInt8) : Bool := (digitValue? b).any (· < base)

/-- The value of a run of digits. -/
def valueOf (base : Nat) (digits : Text) : Nat :=
  digits.foldl (fun n b => base * n + (digitValue? b).getD 0) 0

/-- Splits off a sign: whether the number is negative, and the rest. -/
def splitSign : Text → Bool × Text
  | [] => (false, [])
  | b :: r => if b = Byte.hyphen then (true, r) else if b = Byte.plus then (false, r) else (false, b :: r)

/-- The number with the given sign. -/
def signed (negative : Bool) (n : Nat) : Int := if negative then -(n : Int) else n

/-- A whole word as a decimal number: at most one sign, at least one digit, 32 bits. -/
def wordInt? (w : Text) : Option Int :=
  match splitSign w with
  | (negative, digits) =>
    if digits ≠ [] && digits.all Byte.isDigit && inInt32 (signed negative (valueOf 10 digits)) then
      some (signed negative (valueOf 10 digits))
    else none

/-- The first word of a text as a decimal number. -/
def readInt? (s : Text) : Option Int := (words s).head?.bind wordInt?

/-- Base and digits of an unsigned number: `0x` before a hexadecimal digit means sixteen, any other
    leading zero eight. -/
def splitBase (s : Text) : Nat × Text :=
  match s with
  | z :: x :: d :: _ =>
    if z = Byte.zero && Byte.lower x = 120 && isDigitOf 16 d then (16, s.drop 2)
    else (if z = Byte.zero then 8 else 10, s)
  | z :: _ => (if z = Byte.zero then 8 else 10, s)
  | [] => (10, [])

/-- The longest number that a text begins with, blanks aside. -/
def leadingInt? (s : Text) : Option Int :=
  match splitSign (trimLeft s) with
  | (negative, rest) =>
    match splitBase rest with
    | (base, r) =>
      match r.takeWhile (isDigitOf base) with
      | [] => none
      | d :: ds => some (signed negative (valueOf base (d :: ds)))

end NameServerConf.Text
