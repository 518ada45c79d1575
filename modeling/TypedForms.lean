import TypedForms.Golden
import TypedForms.Golden.Suite
import TypedForms.Main
import TypedForms.Proofs.CanonicalUnions
import TypedForms.Proofs.NormalChecks
import TypedForms.Session
import TypedForms.Proofs.CompatibilityKernel
import TypedForms.Proofs.CompatibilityOrder
import TypedForms.Proofs.Terminals
import TypedForms.Proofs.SplitTexts
import TypedForms.Proofs.GrammarLanguage
import TypedForms.Proofs.ViablePrefixes
import TypedForms.Proofs.ParseErrors
import TypedForms.Proofs.TypingRules
import TypedForms.Proofs.RuleRelations
import TypedForms.Proofs.CheckAccounts
import TypedForms.Proofs.LexicalScoping
import TypedForms.Proofs.CheckOrder
import TypedForms.Proofs.CreatedNames
import TypedForms.Proofs.SessionNames
import TypedForms.Proofs.RelatedChecks
import TypedForms.Proofs.RenamedTypes
import TypedForms.Proofs.RenamedChecks
import TypedForms.Proofs.IndependentExpressions
import TypedForms.Proofs.ErrorPlaces
import TypedForms.Proofs.NodeTokens
import TypedForms.Proofs.MovedPlaces
import TypedForms.Proofs.NodeRanges
import TypedForms.Proofs.UnplacedChecks
import TypedForms.Proofs.Layouts
import TypedForms.Proofs.PrintedPrograms
import TypedForms.Proofs.SuccessfulChecks
import TypedForms.Proofs.LocalDefinitions
import TypedForms.Proofs.AppliedLambdas
import TypedForms.Proofs.WrittenVariables
import TypedForms.Proofs.CompatibilityShapes
import TypedForms.Proofs.Patterns
import TypedForms.Proofs.TextParts
import TypedForms.Proofs.SourceLines
import TypedForms.Proofs.DiagnosticPlaces
import TypedForms.Proofs.RenderedReports
import TypedForms.Proofs.GoldenFiles
import TypedForms.Proofs.GoldenRuns
import TypedForms.Proofs.LineAddresses
