/-!
Lines and words. A text is cut at every separator; words are what is left between blanks when empty pieces are
dropped. Blank characters are those with the Unicode property `White_Space`.
-/

namespace LinReal.Text

/-- The code points with the Unicode property `White_Space`, as ranges. -/
def blankRanges : List (Nat × Nat) :=
  [(0x0009, 0x000D), (0x0020, 0x0020), (0x0085, 0x0085), (0x00A0, 0x00A0), (0x1680, 0x1680), (0x2000, 0x200A),
    (0x2028, 0x2029), (0x202F, 0x202F), (0x205F, 0x205F), (0x3000, 0x3000)]

def isBlank (c : Char) : Bool := blankRanges.any fun (first, last) => first ≤ c.toNat && c.toNat ≤ last

/-- What stands before the first element of which `p` holds, and the pieces after it. -/
def cut (p : α → Bool) : List α → List α × List (List α)
  | [] => ([], [])
  | a :: as =>
    let (piece, rest) := cut p as
    if p a then ([], piece :: rest) else (a :: piece, rest)

/-- The pieces between the elements of which `p` holds. -/
def pieces (p : α → Bool) (as : List α) : List (List α) :=
  let (piece, rest) := cut p as
  piece :: rest

def words (line : String) : List String :=
  ((pieces isBlank line.toList).filter fun w => !w.isEmpty).map String.ofList

def lines (text : String) : List String := (pieces (· = '\n') text.toList).map String.ofList

def withoutReturn (line : List Char) : List Char := if line.getLast? = some '\r' then line.dropLast else line

/-- The lines of a printed text: a line feed ends a line, and so does a carriage return with a line feed. -/
def printedLines (text : String) : List String :=
  (pieces (· = '\n') text.toList).map fun line => String.ofList (withoutReturn line)

/-- The lines of a sequence of bytes; a line that is not UTF-8 has no text. -/
def byteLines (bytes : List UInt8) : List (Option String) :=
  (pieces (· = 10) bytes).map fun line => String.fromUTF8? (ByteArray.mk line.toArray)

end LinReal.Text
