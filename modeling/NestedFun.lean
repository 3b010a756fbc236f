import NestedFun.Main
import NestedFun.Proofs.Expansion
import NestedFun.Proofs.SystemCalls
import NestedFun.Proofs.SystemDeclarations
import NestedFun.Proofs.Activations
import NestedFun.Proofs.Control
import NestedFun.Proofs.Preservation
import NestedFun.Proofs.Runs
import NestedFun.Proofs.StaticLinks
import NestedFun.Proofs.RegisterBounds
import NestedFun.Proofs.MaximalMunch
import NestedFun.Proofs.Acceptance
import NestedFun.Proofs.BlockEvaluation
import NestedFun.Proofs.JumpEvaluation
import NestedFun.Proofs.CallStack
import NestedFun.Proofs.HeapBlocks
import NestedFun.Proofs.Lookahead
import NestedFun.Proofs.OwnDefinitions
import NestedFun.Proofs.DirectValues
import NestedFun.Proofs.CompilerCorrectness
import NestedFun.Proofs.KeptNumbers
import NestedFun.Proofs.StorageSizes
import NestedFun.Proofs.Initialization
import NestedFun.Proofs.FrameTiling
import NestedFun.Proofs.OwnStorage
import NestedFun.Proofs.BuiltPrograms
import NestedFun.Proofs.BlamedDeclarations
import NestedFun.Proofs.LexicalScoping
import NestedFun.Proofs.PrintingPrograms
import NestedFun.Proofs.SyntaxErrors
import NestedFun.Proofs.TextOutput
import NestedFun.Proofs.TextPrinting
import NestedFun.Proofs.ConstantValues
import NestedFun.Proofs.SegmentContents
import NestedFun.Proofs.Renumbering
import NestedFun.Proofs.ListingAddresses
import NestedFun.Proofs.BalancedFunctions
import NestedFun.Proofs.Peeking
import NestedFun.Proofs.RowsAndColumns
import NestedFun.Proofs.NestedSpans
import NestedFun.Proofs.OverlappingWords
import NestedFun.Proofs.SymbolNumbers
