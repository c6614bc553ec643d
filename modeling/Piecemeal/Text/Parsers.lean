import Piecemeal.Binary64
import Piecemeal.Parser.Repeat
import Piecemeal.Parser.Scan
import Piecemeal.Parser.Token
import Piecemeal.Text.Blank
import Piecemeal.Text.CharClass
import Piecemeal.Text.Letter

/-!
# Parsers over characters

The tokens here are characters, one code point each.
-/

namespace Piecemeal.Text

open Piecemeal.Parser

variable {ι : Type} {Γ : ι → Type}

/-! ## Single characters -/

def anyChar : Parser Γ Char Char := satisfy fun _ => true

/-- One character of a class. -/
def char (k : CharClass) : Parser Γ Char Char :=
  label (satisfy fun c => k.contains c) ("char " ++ k.describe)

/-- One character outside a class. -/
def notChar (k : CharClass) : Parser Γ Char Char :=
  label (satisfy fun c => !k.contains c) ("not char " ++ k.describe)

def letter : Parser Γ Char Char := label (satisfy isLetter) "letter"

def digit : Parser Γ Char Char := label (satisfy Char.isDigit) "digit"

def whitespace : Parser Γ Char Char := label (satisfy isBlank) "whitespace"

def space : Parser Γ Char Char := char (.exactly " ")

def spaces : Parser Γ Char (List Char) := many space

def skipSpaces : Parser Γ Char Unit := skipMany space

def skipWhitespaces : Parser Γ Char Unit := skipMany whitespace

/-! ## Runs of characters -/

/-- Exactly the given text. -/
def string (s : String) : Parser Γ Char String :=
  map (fun _ => s) (takeWith s.toList.length fun block => block == s.toList)

/-- A run of letters. -/
def word : Parser Γ Char String := map (fun cs => join (cs.map Char.toString)) (many1 letter)

/-- The text of a decimal number: digits, then perhaps a point and perhaps more digits. -/
def numeral : Parser Γ Char (List Char) := do
  let whole ← takeWhile1 Char.isDigit
  let fraction ← option [] (map ('.' :: ·) (andThen (char (.exactly ".")) (takeWhile Char.isDigit)))
  return whole ++ fraction

/-- A decimal number, as the nearest binary64 value. -/
def number : Parser Γ Char Binary64 := label (map Binary64.ofDecimal numeral) "number"

/-- The end of a line: a line feed, perhaps with a carriage return before it. -/
def eol : Parser Γ Char Unit :=
  alt (andThen (char (.exactly "\n")) (.pure ())) (andThen (string "\r\n") (.pure ()))

end Piecemeal.Text
