import Pearl.Main
import Pearl.CommandLine.Serve
import Pearl.Session
import Pearl.Proofs.ScanOutput
import Pearl.Proofs.DirectiveWord
import Pearl.Proofs.IncludeChain
import Pearl.Proofs.LosslessScan
import Pearl.Proofs.LineLocality
import Pearl.Proofs.ConditionalErasure
import Pearl.Proofs.PublishedFindings
import Pearl.Proofs.BlockNesting
import Pearl.Proofs.SemanticTokenStream
import Pearl.Proofs.ScanSimilarity
import Pearl.Proofs.EventNames
import Pearl.Proofs.IncludeInlining
import Pearl.Proofs.OpenScopes
import Pearl.Proofs.SymbolEffects
import Pearl.Proofs.LexicalLinks
import Pearl.Proofs.AssignmentTargets
import Pearl.Proofs.SymbolSuccession
import Pearl.Proofs.UnusedSymbols
import Pearl.Proofs.CacheTransparency
import Pearl.Proofs.StoredAnalyses
import Pearl.Proofs.IncludedFindings
import Pearl.Proofs.SharedFindings
import Pearl.Proofs.EventPlaces
import Pearl.Proofs.FindingPlaces
import Pearl.Proofs.LayoutIndependence
import Pearl.Proofs.WellNestedPrograms
import Pearl.Proofs.VisibleBeforeCursor
import Pearl.Proofs.ReadingLoops
import Pearl.Proofs.TotalAnalysis
import Pearl.Proofs.IncludeNesting
import Pearl.Proofs.ExpandedTokens
import Pearl.Proofs.ElementEnds
import Pearl.Proofs.MacroReach
import Pearl.Proofs.MacroSubstitution
import Pearl.Proofs.StatementEvents
import Pearl.Proofs.LabelScopes
import Pearl.Proofs.JumpTargets
import Pearl.Proofs.JumpResolution
import Pearl.Proofs.StatementClauses
import Pearl.Proofs.RejectedDeclarations
import Pearl.Proofs.TokenLookup
import Pearl.Proofs.ScanFindings
import Pearl.Proofs.InactiveRuns
import Pearl.Proofs.InactiveHints
import Pearl.Proofs.FindingRanges
import Pearl.Proofs.CutClauses
import Pearl.Proofs.CutStatements
import Pearl.Proofs.CutReferences
import Pearl.Proofs.VisibleNames
import Pearl.Proofs.CompletionAgreement
import Pearl.Proofs.CacheHistories
import Pearl.Proofs.RespacedText
import Pearl.Proofs.PartTracking
import Pearl.Proofs.BlockSpans
import Pearl.Proofs.FoldingRegions
import Pearl.Proofs.FullSubstitution
import Pearl.Proofs.QuotedArguments
import Pearl.Proofs.DirectiveSpelling
import Pearl.Proofs.MacroNames
import Pearl.Proofs.FileUris
import Pearl.Proofs.ClientSettings
import Pearl.Proofs.ConditionHistories
import Pearl.Proofs.ScopeDelivery
import Pearl.Proofs.DirectiveAgreement
import Pearl.Proofs.ScannedElements
import Pearl.Proofs.RenderedNames
