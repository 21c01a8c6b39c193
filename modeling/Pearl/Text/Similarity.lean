namespace Pearl.Text

/-- The number of characters that two texts have in common from their starts on. -/
def commonStart : List Char → List Char → Nat
  | a :: as, b :: bs => if a = b then commonStart as bs + 1 else 0
  | _, _ => 0

/-- A run of characters that stands in two texts: where it starts in each, and its length. -/
structure SharedRun where
  left : Nat
  right : Nat
  length : Nat
  deriving DecidableEq, Repr

/-- The longer of two runs; of equally long ones the first. -/
def SharedRun.longer (r q : SharedRun) : SharedRun := if r.length < q.length then q else r

/-- The longest run that two texts share, the one nearest to the start of the first text, and of
those the one nearest to the start of the second. -/
def longestRun (as bs : List Char) : SharedRun :=
  let runs := (List.range as.length).flatMap fun i =>
    (List.range bs.length).map fun j => ⟨i, j, commonStart (as.drop i) (bs.drop j)⟩
  runs.foldl SharedRun.longer ⟨0, 0, 0⟩

/-- The number of characters in shared runs: the longest one, and those before it and after it.
The first number bounds how often the texts are divided. -/
def sharedCount : Nat → List Char → List Char → Nat
  | 0, _, _ => 0
  | n + 1, as, bs =>
    let r := longestRun as bs
    if r.length = 0 then 0
    else
      sharedCount n (as.take r.left) (bs.take r.right) + r.length +
        sharedCount n (as.drop (r.left + r.length)) (bs.drop (r.right + r.length))

def shared (a b : String) : Nat := sharedCount (a.length + 1) a.toList b.toList

/-- Two texts are alike: at least six of ten characters stand in shared runs. -/
def isSimilar (a b : String) : Bool := 6 * (a.length + b.length) ≤ 20 * shared a b

/-- The first text shares at least as large a part with a word as the second does; of equal parts
that of the later text in order counts as larger. -/
def isCloser (word a b : String) : Bool :=
  let left := shared a word * (b.length + word.length)
  let right := shared b word * (a.length + word.length)
  right < left || right = left && b ≤ a

/-- The texts that are most like a word, at most `n` of them, the closest first. -/
def closest (n : Nat) (word : String) (texts : List String) : List String :=
  ((texts.filter (isSimilar · word)).mergeSort (isCloser word)).take n

end Pearl.Text
