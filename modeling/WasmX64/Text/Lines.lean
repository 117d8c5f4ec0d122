/-!
# Words and lines

Text cut along white space and at line feeds.
-/

/-!
## Blank characters

White space in the sense of the Unicode property `White_Space`, and the two ways
text is cut along it: trimming both ends and splitting into words.
-/

namespace WasmX64.Text

/-- A character with the Unicode property `White_Space`. -/
def isBlank (char : Char) : Bool :=
  let code := char.toNat
  (0x9 ≤ code && code ≤ 0xd) || code == 0x20 || code == 0x85 || code == 0xa0 ||
    code == 0x1680 || (0x2000 ≤ code && code ≤ 0x200a) || code == 0x2028 ||
    code == 0x2029 || code == 0x202f || code == 0x205f || code == 0x3000

def trim (chars : List Char) : List Char :=
  ((chars.dropWhile isBlank).reverse.dropWhile isBlank).reverse

/-- The maximal runs of non-blank characters, read with `current` (in reverse)
as the word under way. -/
def wordsFrom (current : List Char) : List Char → List (List Char)
  | [] => if current.isEmpty then [] else [current.reverse]
  | char :: rest =>
    if isBlank char then
      if current.isEmpty then wordsFrom [] rest
      else current.reverse :: wordsFrom [] rest
    else wordsFrom (char :: current) rest

def words (chars : List Char) : List (List Char) :=
  wordsFrom [] chars

end WasmX64.Text

/-!
## Lines

Text cut at line feeds.  A carriage return before a line feed belongs to the line
end, a final line feed starts no further line, and a line may hold fewer than
65536 bytes.
-/

namespace WasmX64.Text

/-- The number of UTF-8 bytes at which a line counts as too long. -/
def lineLimit : Nat := 65536

def byteLength (chars : List Char) : Nat :=
  chars.foldl (fun total char => total + char.utf8Size) 0

/-- The pieces between line feeds, read with `current` (in reverse) as the line
under way.  A line feed at the very end opens no empty line. -/
def splitLinesFrom (current : List Char) : List Char → List (List Char)
  | [] => if current.isEmpty then [] else [current.reverse]
  | char :: rest =>
    if char = '\n' then current.reverse :: splitLinesFrom [] rest
    else splitLinesFrom (char :: current) rest

/-- A line without one carriage return at its end. -/
def dropReturn (line : List Char) : List Char :=
  if line.getLast? = some '\r' then line.dropLast else line

/-- The lines before the first one that is too long, and whether there is such a
line. -/
def splitLines (text : String) : List (List Char) × Bool :=
  let raw := splitLinesFrom [] text.toList
  let short := raw.takeWhile fun line => byteLength line < lineLimit
  (short.map dropReturn, short.length < raw.length)

end WasmX64.Text
