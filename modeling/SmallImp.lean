import SmallImp.Main
import SmallImp.Session
import SmallImp.Value.Datum
import SmallImp.Proofs.OperatorRules
import SmallImp.Proofs.Rules
import SmallImp.Proofs.Budget
import SmallImp.Proofs.Soundness
import SmallImp.Proofs.Adequacy
import SmallImp.Proofs.FiniteFloats
import SmallImp.Proofs.Sorts
import SmallImp.Proofs.ModularArithmetic
import SmallImp.Proofs.TypeOutcomes
import SmallImp.Proofs.Safety
import SmallImp.Proofs.Points
import SmallImp.Proofs.FailurePoints
import SmallImp.Proofs.RunSafety
import SmallImp.Proofs.Isolation
import SmallImp.Proofs.Tracing
import SmallImp.Proofs.SplitRuns
import SmallImp.Proofs.Renaming
import SmallImp.Proofs.Environments
import SmallImp.Proofs.Declarations
import SmallImp.Proofs.EnvironmentOrder
import SmallImp.Proofs.Grammar
import SmallImp.Proofs.Unambiguity
import SmallImp.Proofs.ReadingSoundness
import SmallImp.Proofs.Lexing
import SmallImp.Proofs.SourceSoundness
import SmallImp.Proofs.ReadingCompleteness
import SmallImp.Proofs.TokenEnds
import SmallImp.Proofs.TokenContexts
import SmallImp.Proofs.Layout
import SmallImp.Proofs.Relayout
import SmallImp.Proofs.SourceCompleteness
import SmallImp.Proofs.Unparse
import SmallImp.Proofs.PrintParse
import SmallImp.Proofs.TextLiterals
import SmallImp.Proofs.Completion
import SmallImp.Proofs.ErrorPlaces
import SmallImp.Proofs.SentenceContexts
import SmallImp.Proofs.FaultOrder
import SmallImp.Proofs.TreeRoundTrip
import SmallImp.Proofs.NearestFloat
import SmallImp.Proofs.NumberText
import SmallImp.Proofs.FloatOrder
import SmallImp.Proofs.Rounding
import SmallImp.Proofs.FloatDisplay
import SmallImp.Proofs.PrintedEquality
import SmallImp.Proofs.DocumentText
import SmallImp.Proofs.ProgramDocument
import SmallImp.Proofs.Arguments
import SmallImp.Proofs.FilePlaces
import SmallImp.Proofs.EmitRun
import SmallImp.Proofs.ClosedBodies
import SmallImp.Proofs.CallNesting
import SmallImp.Proofs.FrontEnd
import SmallImp.Proofs.TreeFiles
import SmallImp.Proofs.TruncatedDivision
import SmallImp.Proofs.TouchedFiles
