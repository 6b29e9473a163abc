/-! # Words

Every value of a program is a word of 32 bits. Sums, differences and products
wrap around; division and the order of words read them as signed numbers.
-/

namespace Wordlang

abbrev Word := BitVec 32

namespace Word

/-- The word of a truth value: 1 for true, 0 for false. -/
def ofBool (b : Bool) : Word := if b then 1 else 0

/-- A word counts as true where a truth value is wanted when it is not zero. -/
def isTrue (w : Word) : Bool := w != 0

def text (w : Word) : String := toString w.toInt

end Word

end Wordlang
