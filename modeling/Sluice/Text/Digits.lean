import Sluice.Bytes

namespace Sluice.Text

-- Zeros on the left up to `width` characters.
def padded (width n : Nat) : String :=
  let digits := toString n
  String.ofList (List.replicate (width - digits.length) '0') ++ digits

-- Spaces on the right up to `width` characters.
def column (width : Nat) (text : String) : String :=
  text ++ String.ofList (List.replicate (width - text.length) ' ')

-- A number that shows its sign, also when it is positive.
def signed (i : Int) : String :=
  if i < 0 then toString i else "+" ++ toString i

def hexDigit (n : Nat) : Char :=
  if n < 10 then Char.ofNat (48 + n) else Char.ofNat (55 + n)

-- Two capital digits for each byte, nothing in between.
def hex (bytes : Bytes) : String :=
  String.ofList (bytes.flatMap fun byte => [hexDigit (byte.toNat / 16), hexDigit (byte.toNat % 16)])

-- The items with `separator` between each two of them.
def joined (separator : String) (items : List String) : String :=
  String.intercalate separator items

end Sluice.Text
