/-
Text written in base 64.

Four characters stand for three bytes, the most significant bits first.
Equals signs fill up the last four; line ends do not count.
-/
namespace Narrowing.Text

/-- The value of a digit in base 64. -/
def base64Value? (c : Char) : Option Nat :=
  if c.isUpper then some (c.toNat - 'A'.toNat)
  else if c.isLower then some (c.toNat - 'a'.toNat + 26)
  else if c.isDigit then some (c.toNat - '0'.toNat + 52)
  else if c == '+' then some 62
  else if c == '/' then some 63
  else none

/-- The bytes that groups of four digits stand for.  Only the last group may be filled up. -/
def base64Bytes? : List Char → Option (List UInt8)
  | [] => some []
  | [a, b, '=', '='] => do
    let n := (← base64Value? a) * 64 + (← base64Value? b)
    return [UInt8.ofNat (n / 2 ^ 4)]
  | [a, b, c, '='] => do
    let n := ((← base64Value? a) * 64 + (← base64Value? b)) * 64 + (← base64Value? c)
    return [UInt8.ofNat (n / 2 ^ 10), UInt8.ofNat (n / 2 ^ 2)]
  | a :: b :: c :: d :: rest => do
    let n := (((← base64Value? a) * 64 + (← base64Value? b)) * 64 + (← base64Value? c)) * 64 +
      (← base64Value? d)
    return UInt8.ofNat (n / 2 ^ 16) :: UInt8.ofNat (n / 2 ^ 8) :: UInt8.ofNat n ::
      (← base64Bytes? rest)
  | _ => none

/-- The text that a text in base 64 stands for. -/
def base64? (s : String) : Option String := do
  let bytes ← base64Bytes? (s.toList.filter fun c => c != '\n' && c != '\x0d')
  String.fromUTF8? ⟨bytes.toArray⟩

end Narrowing.Text
