namespace Pearl.Text

/-- The code point lies in one of the ranges, whose ends belong to them. -/
def inRanges (ranges : List (Nat × Nat)) (c : Char) : Bool :=
  ranges.any fun r => r.1 ≤ c.toNat && c.toNat ≤ r.2

end Pearl.Text
