import CellLisp.Text.BreakClass

namespace CellLisp.Text

-- Whether characters, the nearest first, end in a consonant that is linked to what follows.
def isLinked (before : List Char) : Bool :=
  let isMark c := (BreakClass.ofChar c).isConjunctMark
  (before.takeWhile isMark).any (BreakClass.ofChar · == .linker) &&
    (before.dropWhile isMark).head?.any (BreakClass.ofChar · == .consonant)

def isPictograph (before : List Char) : Bool :=
  (before.dropWhile fun c => (BreakClass.ofChar c).isExtend).head?.any
    (BreakClass.ofChar · == .pictograph)

def isHalfFlag (before : List Char) : Bool :=
  (before.takeWhile (BreakClass.ofChar · == .regional)).length % 2 == 1

def joins (last : Char) (earlier : List Char) (next : Char) : Bool :=
  let l := BreakClass.ofChar last
  let n := BreakClass.ofChar next
  if l.isControl || n.isControl then l == .carriageReturn && n == .lineFeed
  else
    l.spells n || n.isMark || l == .prepend ||
      (n == .consonant && isLinked (last :: earlier)) ||
      (l == .joiner && n == .pictograph && isPictograph earlier) ||
      (n == .regional && isHalfFlag (last :: earlier))

-- The clusters of a text, of which the first has begun already; it is held backwards.
def clustersFrom (last : Char) (earlier : List Char) : List Char → List (List Char)
  | [] => [(last :: earlier).reverse]
  | c :: cs =>
    if joins last earlier c then clustersFrom c (last :: earlier) cs
    else (last :: earlier).reverse :: clustersFrom c [] cs

def clusters : List Char → List (List Char)
  | [] => []
  | c :: cs => clustersFrom c [] cs

end CellLisp.Text
