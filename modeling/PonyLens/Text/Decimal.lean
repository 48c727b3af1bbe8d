/-!
# Decimal numerals

Numerals as they are written in dumps and on the command line: ASCII digits after an optional sign.
-/

namespace PonyLens.Text.Decimal

def digits? : List Char → Option Nat
  | [] => none
  | c :: cs =>
    if (c :: cs).all Char.isDigit then
      some ((c :: cs).foldl (fun n d => 10 * n + (d.toNat - '0'.toNat)) 0)
    else none

/-- The value of a numeral that may carry a plus sign, if it is at most `limit`. -/
def unsigned? (limit : Nat) (cs : List Char) : Option Nat :=
  (digits? (match cs with
    | '+' :: rest => rest
    | _ => cs)).filter (· ≤ limit)

/-- The value of a numeral that may carry either sign, if it lies between 0 and `limit`. -/
def natural? (limit : Nat) (cs : List Char) : Option Nat :=
  match cs with
  | '-' :: rest => (digits? rest).filter (· = 0)
  | _ => unsigned? limit cs

end PonyLens.Text.Decimal
