import Schemata.FileTree
import Schemata.Main
import Schemata.Proofs.Implements
import Schemata.Proofs.Flattening
import Schemata.Proofs.Order
import Schemata.Proofs.Separators
import Schemata.Proofs.Identities
import Schemata.Proofs.Failures
import Schemata.Proofs.Limits
import Schemata.Proofs.TypeSubstitution
import Schemata.Proofs.Dependencies
import Schemata.Proofs.ListParts
import Schemata.Proofs.AppliedParameters
import Schemata.Proofs.EveryLine
import Schemata.Proofs.Turns
import Schemata.Proofs.Merging
import Schemata.Proofs.AliasesInUse
import Schemata.Proofs.TopLevelPieces
import Schemata.Proofs.LineStates
import Schemata.Proofs.Idempotence
