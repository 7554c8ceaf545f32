/-!
# Blank characters, trimming and words

A character is *blank* when it has the Unicode property White_Space; this is a property of the
standard and has twenty-five members. Everything that the library reads as text is divided by
blanks: names never hold one at either end, and the words of a line are what stands between them.

## Main definitions

* `isBlank`: the blank characters
* `trim`: a text without the blanks at its two ends
* `words`: the longest runs of characters that are not blank, in order
-/

namespace TopDown.Text

/-- The characters with the Unicode property White_Space. -/
def isBlank (c : Char) : Bool :=
  let n := c.toNat
  (0x09 ≤ n && n ≤ 0x0D) || n == 0x20 || n == 0x85 || n == 0xA0 || n == 0x1680 ||
    (0x2000 ≤ n && n ≤ 0x200A) || n == 0x2028 || n == 0x2029 || n == 0x202F || n == 0x205F ||
    n == 0x3000

/-- A text without the blanks at its two ends. -/
def trimChars (cs : List Char) : List Char :=
  ((cs.dropWhile isBlank).reverse.dropWhile isBlank).reverse

/-- A text without the blanks at its two ends. -/
def trim (s : String) : String :=
  String.ofList (trimChars s.toList)

/-- The words of a text: its longest runs of characters that are not blank, in order. -/
def words (cs : List Char) : List String :=
  ((cs.splitOnP isBlank).filter fun w => !w.isEmpty).map String.ofList

/-- Whether a text has a blank in it. -/
def hasBlank (s : String) : Bool :=
  s.toList.any isBlank

end TopDown.Text
