/-!
Reading a word written by hand: white space around it and the case of its
letters do not count.

White space is the Unicode property of that name, a table of twenty-five
characters. Letter case is folded for the ASCII letters alone. Outside ASCII
only the kelvin sign and the dotted capital I have a lower case with an ASCII
letter in it, a k and an i, and none of the words that this library reads has
either letter, so for them the fold is the full one.
-/

namespace ObjectInference.Text

/-- The code points with the property White_Space, as closed ranges. -/
def blankRanges : List (Nat × Nat) :=
  [(0x09, 0x0D), (0x20, 0x20), (0x85, 0x85), (0xA0, 0xA0), (0x1680, 0x1680),
   (0x2000, 0x200A), (0x2028, 0x2029), (0x202F, 0x202F), (0x205F, 0x205F),
   (0x3000, 0x3000)]

def isBlank (c : Char) : Bool :=
  blankRanges.any fun r => r.1 ≤ c.toNat && c.toNat ≤ r.2

def trim (s : List Char) : List Char :=
  ((s.dropWhile isBlank).reverse.dropWhile isBlank).reverse

/-- The word a text spells. -/
def word (s : String) : String :=
  String.ofList ((trim s.toList).map Char.toLower)

example : (blankRanges.map fun r => r.2 + 1 - r.1).sum = 25 := by decide

end ObjectInference.Text
