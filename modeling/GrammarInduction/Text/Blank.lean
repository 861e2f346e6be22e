/-!
# Blank characters and words

A text is cut into words at blanks.  The blanks are the 25 characters with the Unicode property
`White_Space`.

* `Text.words` — the maximal runs of characters that are no blanks, in order.
-/

namespace GrammarInduction.Text

/-- The ranges of code points, first and last, with the property `White_Space`. -/
def blankRanges : List (Nat × Nat) :=
  [(0x9, 0xd), (0x20, 0x20), (0x85, 0x85), (0xa0, 0xa0), (0x1680, 0x1680), (0x2000, 0x200a),
    (0x2028, 0x2029), (0x202f, 0x202f), (0x205f, 0x205f), (0x3000, 0x3000)]

/-- Whether a character separates words. -/
def isBlank (c : Char) : Bool :=
  blankRanges.any fun (first, last) => decide (first ≤ c.toNat ∧ c.toNat ≤ last)

/-- The words of the characters that are still to come, after the letters of an open word, the
newest letter first. -/
def wordsFrom (letters : List Char) : List Char → List (List Char)
  | [] => if letters.isEmpty then [] else [letters.reverse]
  | c :: rest =>
    if isBlank c then
      if letters.isEmpty then wordsFrom [] rest else letters.reverse :: wordsFrom [] rest
    else wordsFrom (c :: letters) rest

/-- The words of a text. -/
def words (text : String) : List String := (wordsFrom [] text.toList).map String.ofList

end GrammarInduction.Text
