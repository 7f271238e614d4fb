import Multistage.CommandLine
import Multistage.Main
import Multistage.Proofs.Tables
import Multistage.Proofs.Terms
import Multistage.Proofs.Traversals
import Multistage.Proofs.Supplies
import Multistage.Proofs.Assemblies
import Multistage.Proofs.ScopeHistories
import Multistage.Session
import Multistage.Term.Assembly
import Multistage.Term.Dispatch
import Multistage.Proofs.Judgements
import Multistage.Proofs.ExplicitReferences
import Multistage.Proofs.OwnLevels
import Multistage.Proofs.Stages
import Multistage.Proofs.Evaluation
import Multistage.Proofs.CodeInvariants
import Multistage.Proofs.HeldReferences
import Multistage.Proofs.Escapes
import Multistage.Proofs.DownwardReferences
import Multistage.Proofs.InsertedEscapes
import Multistage.Proofs.Fuel
import Multistage.Proofs.Lifting
import Multistage.Proofs.RunQuote
import Multistage.Proofs.Renumbering
import Multistage.Proofs.LooseNames
import Multistage.Proofs.StagedTyping
import Multistage.Proofs.Variants
import Multistage.Proofs.HoleGraph
import Multistage.Proofs.VariantRounds
import Multistage.Proofs.CrossProduct
import Multistage.Proofs.VariantTermination
import Multistage.Proofs.Relocation
import Multistage.Proofs.TypedEvaluation
import Multistage.Proofs.CheckedPrograms
import Multistage.Proofs.TypeSoundness
import Multistage.Proofs.CodeChecking
import Multistage.Proofs.GeneratedCode
import Multistage.Proofs.Findings
import Multistage.Proofs.NameResolution
import Multistage.Proofs.OwnHoles
import Multistage.Proofs.Substitution
import Multistage.Proofs.VariantBodies
import Multistage.Proofs.OwnedEscapes
import Multistage.Proofs.TypeTables
import Multistage.Proofs.UnitOpenings
import Multistage.Proofs.UnitRecords
import Multistage.Proofs.FragmentForest
import Multistage.Proofs.FragmentEscapes
import Multistage.Proofs.VariantRecords
import Multistage.Proofs.ProcedureTree
import Multistage.Proofs.CheckerTraces
import Multistage.Proofs.SplitFaults
import Multistage.Proofs.NodeScopes
import Multistage.Proofs.SnippetLinks
import Multistage.Proofs.UnitNames
import Multistage.Proofs.UnitStack
import Multistage.Proofs.LiftedChecks
import Multistage.Proofs.PreludeExtension
import Multistage.Proofs.WrittenTypes
import Multistage.Proofs.StageBounds
import Multistage.Proofs.QuoteSplice
import Multistage.Proofs.Doubles
import Multistage.Proofs.NumeralText
import Multistage.Proofs.JsonText
import Multistage.Proofs.TermCodec
import Multistage.Proofs.ProgramText
import Multistage.Proofs.Reports
import Multistage.Proofs.SourceCache
import Multistage.Proofs.Comparisons
import Multistage.Proofs.RememberedStages
import Multistage.Proofs.SessionReports
