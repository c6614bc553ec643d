import Piecemeal.Text.Quoted

/-!
# Classes of characters
-/

namespace Piecemeal.Text

/-- What a character is compared with: one text, or a collection of texts. A text that is not
exactly one character long matches no character. -/
inductive CharClass
  | exactly (text : String)
  | oneOf (members : List String)

namespace CharClass

/-- The collection of the given texts, each kept where it first occurs. -/
def ofList (members : List String) : CharClass := oneOf members.eraseDups

def contains (c : Char) : CharClass → Bool
  | exactly text => text == c.toString
  | oneOf members => members.contains c.toString

/-- The class as it appears in a label: its texts, joined and quoted. -/
def describe : CharClass → String
  | exactly text => quote text
  | oneOf members => quote (join members)

end CharClass

end Piecemeal.Text
