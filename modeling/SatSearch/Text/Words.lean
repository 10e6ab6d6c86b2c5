/-!
# Words — lines of bytes, and words between blanks

A line ends at a line feed, and one carriage return right before the line feed belongs to the
end. What follows the last line feed is a line only if it holds something. Words are the longest
runs of characters that are not blank, where blank is the Unicode property White_Space.
-/

namespace SatSearch
namespace Text

/-! ## Lines -/

/-- The bytes of a line, read backwards up to its line feed, without the end of the line. -/
def closeLine : List UInt8 → List UInt8
  | 13 :: reversed => reversed.reverse
  | reversed => reversed.reverse

/-- `openLine` holds the bytes of the unfinished line and `done` the finished lines, both
backwards. -/
def linesFrom (openLine : List UInt8) (done : List (List UInt8)) :
    List UInt8 → List (List UInt8)
  | [] => (if openLine.isEmpty then done else openLine.reverse :: done).reverse
  | b :: bs =>
    if b = 10 then linesFrom [] (closeLine openLine :: done) bs
    else linesFrom (b :: openLine) done bs

def lines (bytes : ByteArray) : List (List UInt8) :=
  linesFrom [] [] bytes.data.toList

/-! ## Words -/

/-- The Unicode property White_Space. -/
def isBlank (c : Char) : Bool :=
  let n := c.toNat
  (9 ≤ n && n ≤ 13) || n == 0x20 || n == 0x85 || n == 0xA0 || n == 0x1680 ||
    (0x2000 ≤ n && n ≤ 0x200A) || n == 0x2028 || n == 0x2029 || n == 0x202F || n == 0x205F ||
    n == 0x3000

/-- `word` holds the characters of the unfinished word and `done` the finished words, both
backwards. -/
def wordsFrom (word : List Char) (done : List (List Char)) : List Char → List (List Char)
  | [] => (if word.isEmpty then done else word.reverse :: done).reverse
  | c :: cs =>
    if isBlank c then wordsFrom [] (if word.isEmpty then done else word.reverse :: done) cs
    else wordsFrom (c :: word) done cs

def words (line : String) : List (List Char) :=
  wordsFrom [] [] line.toList

end Text
end SatSearch
