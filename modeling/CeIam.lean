import CeIam.Library.Branches
import CeIam.Library.Calendar
import CeIam.Library.Counter
import CeIam.Library.Guarantees
import CeIam.Library.Hex
import CeIam.Library.Increment
import CeIam.Library.Interleave
import CeIam.Library.Json
import CeIam.Library.JsonCanonical
import CeIam.Library.JsonText
import CeIam.Library.Machine
import CeIam.Library.Numerals
import CeIam.Library.OrdMap
import CeIam.Library.Outcome
import CeIam.Library.Processes
import CeIam.Library.Run
import CeIam.Library.Saver
import CeIam.Library.Shares
import CeIam.Library.Slices
import CeIam.Library.SortDedup
import CeIam.Library.StoreProg
import CeIam.Library.Swaps
import CeIam.Library.Text
import CeIam.Library.Words
import CeIam.Model.Attestation
import CeIam.Model.Audit
import CeIam.Model.AuthKv
import CeIam.Model.Bridge
import CeIam.Model.Capability
import CeIam.Model.Catalog
import CeIam.Model.CeSecrets
import CeIam.Model.Cli
import CeIam.Model.Commands
import CeIam.Model.Device
import CeIam.Model.Error
import CeIam.Model.Grants
import CeIam.Model.Iam
import CeIam.Model.KvStore
import CeIam.Model.NodeAuth
import CeIam.Model.Policy
import CeIam.Model.Principal
import CeIam.Model.Revocation
import CeIam.Model.Roots
import CeIam.Model.Secrets
import CeIam.Model.Store
import CeIam.Model.Timestamps
import CeIam.Model.Trust
import CeIam.Model.Wallet
import CeIam.Verification.AuthKv.Auditing
import CeIam.Verification.AuthKv.Backends
import CeIam.Verification.AuthKv.Bootstrap
import CeIam.Verification.AuthKv.Confidentiality
import CeIam.Verification.AuthKv.History
import CeIam.Verification.AuthKv.Integrity
import CeIam.Verification.AuthKv.Remote
import CeIam.Verification.Catalog.Coherence
import CeIam.Verification.Catalog.Commuting
import CeIam.Verification.Catalog.Compaction
import CeIam.Verification.Catalog.Effective
import CeIam.Verification.Catalog.Encoding
import CeIam.Verification.Catalog.Integrity
import CeIam.Verification.Catalog.Invariants
import CeIam.Verification.Catalog.Polling
import CeIam.Verification.Cli.Freshness
import CeIam.Verification.Cli.Propagation
import CeIam.Verification.Commands.Devices
import CeIam.Verification.Commands.Grants
import CeIam.Verification.Commands.Policies
import CeIam.Verification.Commands.Roles
import CeIam.Verification.Commands.Roots
import CeIam.Verification.Commands.Rotation
import CeIam.Verification.Commands.Wallet
import CeIam.Verification.Device.Encoding
import CeIam.Verification.Device.LifeCycle
import CeIam.Verification.Device.Racing
import CeIam.Verification.Device.Requests
import CeIam.Verification.Device.Restarts
import CeIam.Verification.Grant.Bindings
import CeIam.Verification.Grant.Bounds
import CeIam.Verification.Grant.Canonical
import CeIam.Verification.Grant.Compile
import CeIam.Verification.Grant.Compilers
import CeIam.Verification.Grant.Correctness
import CeIam.Verification.Grant.Delegation
import CeIam.Verification.Grant.Exactness
import CeIam.Verification.Grant.Expansion
import CeIam.Verification.Grant.Nonces
import CeIam.Verification.Grant.Reissue
import CeIam.Verification.Grant.Rendering
import CeIam.Verification.Grant.Rules
import CeIam.Verification.Grant.ScopeKey
import CeIam.Verification.Grant.Symbolic
import CeIam.Verification.Grant.Trees
import CeIam.Verification.Grant.Vouches
import CeIam.Verification.Grant.Windows
import CeIam.Verification.Policy.Encoding
import CeIam.Verification.Roots.Retirement
import CeIam.Verification.Store.FailedSaves
import CeIam.Verification.Store.Reopening
import CeIam.Verification.Trust.Inflation
import CeIam.Verification.Trust.Lapse
import CeIam.Verification.Trust.Signatures
import CeIam.Verification.Vault.Admission
import CeIam.Verification.Vault.Calls
import CeIam.Verification.Vault.Codec
import CeIam.Verification.Vault.Expiry
import CeIam.Verification.Vault.Grants
import CeIam.Verification.Vault.Impersonation
import CeIam.Verification.Vault.Interleaving
import CeIam.Verification.Vault.Invariants
import CeIam.Verification.Vault.Keys
import CeIam.Verification.Vault.Laws
import CeIam.Verification.Vault.Master
import CeIam.Verification.Vault.Pairing
import CeIam.Verification.Vault.Records
import CeIam.Verification.Vault.Refinement
import CeIam.Verification.Vault.Rotation
import CeIam.Verification.Vault.Scopes
import CeIam.Verification.Vault.Timestamps
import CeIam.Verification.Vault.Tokens
