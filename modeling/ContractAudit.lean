import ContractAudit.Main
import ContractAudit.Syntax.Walk
import ContractAudit.Proofs.CallQueue
import ContractAudit.Proofs.LeastOutcome
import ContractAudit.Proofs.Memo
import ContractAudit.Proofs.Ceiling
import ContractAudit.Proofs.Coverage
import ContractAudit.Proofs.Declarations
import ContractAudit.Proofs.FrameKey
import ContractAudit.Proofs.Ancestry
import ContractAudit.Proofs.Loading
import ContractAudit.Proofs.Respelling
import ContractAudit.Proofs.Trees
import ContractAudit.Proofs.Mirror
import ContractAudit.Proofs.History
import ContractAudit.Proofs.Report
import ContractAudit.Proofs.Sources
import ContractAudit.Proofs.FileOrder
import ContractAudit.Proofs.TypeOrder
import ContractAudit.Proofs.Yields
import ContractAudit.Proofs.TypeMeaning
import ContractAudit.Proofs.Unavailable
import ContractAudit.Proofs.NameUse
import ContractAudit.Proofs.PlainExpressions
import ContractAudit.Proofs.PlainFiles
import ContractAudit.Proofs.FullNames
import ContractAudit.Proofs.Pieces
import ContractAudit.Proofs.Progress
import ContractAudit.Proofs.Reading
import ContractAudit.Proofs.FirstDeclared
import ContractAudit.Proofs.Termination
import ContractAudit.Proofs.InterfaceOrder
import ContractAudit.Proofs.Requests
import ContractAudit.Proofs.Precedence
import ContractAudit.Proofs.RoundTrip
import ContractAudit.Proofs.Writing
import ContractAudit.Proofs.FileSpans
import ContractAudit.Proofs.Overrides
import ContractAudit.Proofs.OneSpelling
import ContractAudit.Proofs.LocalTypes
import ContractAudit.Proofs.MethodListing
import ContractAudit.Proofs.SameDeclaration
import ContractAudit.Proofs.HonorCatch
import ContractAudit.Proofs.TraitExpansion
import ContractAudit.Proofs.TraitBodies
import ContractAudit.Proofs.TraitTypes
import ContractAudit.Proofs.InterfaceFallback
import ContractAudit.Proofs.LateBinding
import ContractAudit.Proofs.DocTags
import ContractAudit.Proofs.BlockSpans
import ContractAudit.Proofs.Subtrees
import ContractAudit.Proofs.DocNames
import ContractAudit.Proofs.Passes
import ContractAudit.Proofs.Supertypes
import ContractAudit.Proofs.SignatureText
import ContractAudit.Proofs.Brackets
import ContractAudit.Proofs.DocPlaces
import ContractAudit.Proofs.TreePlaces
