import QmlScript.Main
import QmlScript.Proofs.Variables
import QmlScript.Proofs.Namespaces
import QmlScript.Proofs.LiteralValues
import QmlScript.Proofs.Unquoting
import QmlScript.Proofs.Localization.Update
import QmlScript.Proofs.Identifiers
import QmlScript.Proofs.TrivialValues
import QmlScript.Proofs.Literals
import QmlScript.Proofs.Localization.Program
import QmlScript.Proofs.Boundaries
import QmlScript.Proofs.Targets
import QmlScript.Proofs.Refusals
import QmlScript.Proofs.Scopes
import QmlScript.Proofs.SuperCalls
import QmlScript.Proofs.Requests
import QmlScript.Proofs.Parts
import QmlScript.Proofs.Defaults
import QmlScript.Proofs.DottedAccess
import QmlScript.Proofs.DeepMerge
import QmlScript.Proofs.Integers
import QmlScript.Proofs.Platform.Endless
import QmlScript.Proofs.Localization.Requests
import QmlScript.Proofs.DocumentedNames
import QmlScript.Proofs.Templates
import QmlScript.Proofs.RootComments
import QmlScript.Proofs.WrittenOnce
