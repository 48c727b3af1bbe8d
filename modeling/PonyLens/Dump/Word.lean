import PonyLens.Kind
import PonyLens.Location
import PonyLens.Text.Decimal
import PonyLens.Word

/-!
# Words of a dump

A word names a kind, writes a number, or is kept as it is. It may end in the place of the node in
its source file, written `@LINE:COLUMN`.
-/

namespace PonyLens.Dump

/-- The place that `LINE:COLUMN` writes. -/
def placeOf? (cs : List Char) : Option Location :=
  match cs.dropWhile (· != ':') with
  | ':' :: column => do
    let line ← Text.Decimal.unsigned? Word.max (cs.takeWhile (· != ':'))
    let column ← Text.Decimal.unsigned? Word.max column
    some ⟨line, column⟩
  | _ => none

/-- A word without the place at its end, and that place. A word whose part after the last `@` is no
place, or that has nothing before it, is left alone and lies at `fallback`. -/
def splitLocation (word : String) (fallback : Location) : String × Location :=
  let cs := word.toList.reverse
  match cs.dropWhile (· != '@') with
  | '@' :: c :: base =>
    match placeOf? (cs.takeWhile (· != '@')).reverse with
    | some location => (String.ofList (c :: base).reverse, location)
    | none => (word, fallback)
  | _ => (word, fallback)

/-- The kind of number that a word writes: it starts with a digit, after an optional minus sign. A
point or an exponent makes it a float, unless it is hexadecimal or binary. -/
def numberKind? (word : String) : Option Kind :=
  let cs := match word.toList with
    | '-' :: rest => rest
    | cs => cs
  match cs with
  | [] => none
  | c :: rest =>
    if !c.isDigit then none
    else if c == '0' && (rest.head? == some 'x' || rest.head? == some 'b') then some .intLit
    else if cs.any fun d => d == '.' || d == 'e' || d == 'E' then some .floatLit
    else some .intLit

end PonyLens.Dump
