import Pearl.Analysis

namespace Pearl

namespace FoldingRegion

/-- Puts a region in the place of the one with the same lines, or at the end. -/
def assign (r : FoldingRegion) : List FoldingRegion → List FoldingRegion
  | [] => [r]
  | q :: rest =>
    if q.startLine = r.startLine && q.endLine = r.endLine then r :: rest else q :: assign r rest

/-- Regions are listed by their first line, then by their last. -/
def precedes (a b : FoldingRegion) : Bool :=
  a.startLine < b.startLine || a.startLine = b.startLine && a.endLine ≤ b.endLine

end FoldingRegion

/-- The regions to fold in the document itself, in order. Of regions with the same lines the last
one counts. -/
def Analysis.foldingRegions (a : Analysis) : List FoldingRegion :=
  let regions := (a.foldingFor none).filter fun r => r.startLine < r.endLine
  (regions.foldl (fun rs r => r.assign rs) []).mergeSort FoldingRegion.precedes

end Pearl
