import ModalTableau.Ascending
import ModalTableau.Ascending.Map
import ModalTableau.Batch
import ModalTableau.Branch
import ModalTableau.Branch.Ledger
import ModalTableau.Branch.Step
import ModalTableau.CommandLine
import ModalTableau.Console
import ModalTableau.Formula
import ModalTableau.Formula.Reading
import ModalTableau.Json
import ModalTableau.Limits
import ModalTableau.Main
import ModalTableau.Model
import ModalTableau.Program
import ModalTableau.Proofs.Acceptance
import ModalTableau.Proofs.AnyOrder
import ModalTableau.Proofs.AscendingLaws
import ModalTableau.Proofs.Batches
import ModalTableau.Proofs.Blocking
import ModalTableau.Proofs.BranchLaws
import ModalTableau.Proofs.Canonical
import ModalTableau.Proofs.Ceilings
import ModalTableau.Proofs.Classification
import ModalTableau.Proofs.Closure
import ModalTableau.Proofs.Countermodel
import ModalTableau.Proofs.Depth
import ModalTableau.Proofs.DraftLaws
import ModalTableau.Proofs.Evidence
import ModalTableau.Proofs.Finished
import ModalTableau.Proofs.Frontier
import ModalTableau.Proofs.General
import ModalTableau.Proofs.Grammar
import ModalTableau.Proofs.Interpretation
import ModalTableau.Proofs.Kripke
import ModalTableau.Proofs.Layouts
import ModalTableau.Proofs.Ledgers
import ModalTableau.Proofs.Locality
import ModalTableau.Proofs.Mirrors
import ModalTableau.Proofs.Negation
import ModalTableau.Proofs.Phrases
import ModalTableau.Proofs.PlainDocuments
import ModalTableau.Proofs.Profile
import ModalTableau.Proofs.Propositional
import ModalTableau.Proofs.Quiet
import ModalTableau.Proofs.Ranks
import ModalTableau.Proofs.Records
import ModalTableau.Proofs.RoundTrip
import ModalTableau.Proofs.RuleLaws
import ModalTableau.Proofs.Saturation
import ModalTableau.Proofs.SavedSettings
import ModalTableau.Proofs.Scanning
import ModalTableau.Proofs.Simulation
import ModalTableau.Proofs.Soundness
import ModalTableau.Proofs.StepLaws
import ModalTableau.Proofs.SyntaxErrors
import ModalTableau.Proofs.TableauLaws
import ModalTableau.Proofs.Termination
import ModalTableau.Proofs.Trails
import ModalTableau.Proofs.Traversals
import ModalTableau.Proofs.TruthLemma
import ModalTableau.Proofs.Viability
import ModalTableau.Proofs.Worklist
import ModalTableau.Proofs.WorldTree
import ModalTableau.Report
import ModalTableau.Report.Json
import ModalTableau.Rule
import ModalTableau.Service
import ModalTableau.Session
import ModalTableau.Settings
import ModalTableau.Settings.Environment
import ModalTableau.Settings.Layers
import ModalTableau.Signed
import ModalTableau.SyntaxError
import ModalTableau.Tableau
import ModalTableau.Tableau.Draft
import ModalTableau.Tableau.Growth
import ModalTableau.Tableau.Worklist
import ModalTableau.Text
import ModalTableau.Token
import ModalTableau.Token.Lexeme
import ModalTableau.Toml
import ModalTableau.Toml.Document
import ModalTableau.Toml.Scalar
import ModalTableau.Tree
import ModalTableau.Verdict
