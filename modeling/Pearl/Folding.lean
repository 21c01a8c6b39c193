namespace Pearl

/-- What makes lines belong together. -/
inductive FoldingKind where
  | comment
  | region
  | preproc
  deriving DecidableEq, Repr

def FoldingKind.name : FoldingKind → String
  | comment => "comment"
  | region => "region"
  | preproc => "preproc"

/-- The name that editors know a kind by; they have none for conditions. -/
def FoldingKind.editorName : FoldingKind → String
  | comment => "comment"
  | region | preproc => "region"

/-- Lines that can be folded into the first of them. -/
structure FoldingRegion where
  uri : String
  startLine : Nat
  endLine : Nat
  kind : FoldingKind
  label : Option String := none
  deriving DecidableEq, Repr

end Pearl
