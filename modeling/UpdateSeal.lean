import UpdateSeal.Application
import UpdateSeal.Proofs.Actions
import UpdateSeal.Proofs.Storage
import UpdateSeal.Proofs.Numerals
import UpdateSeal.Proofs.Digests
import UpdateSeal.Proofs.Containers
import UpdateSeal.Proofs.Grammar
import UpdateSeal.Proofs.ShortestNumerals
import UpdateSeal.Proofs.Documents
import UpdateSeal.Proofs.Armour
import UpdateSeal.Proofs.KeyPairs
import UpdateSeal.Proofs.Predictions
import UpdateSeal.Proofs.Tokens
import UpdateSeal.Proofs.Rounding
import UpdateSeal.Proofs.Decimals
import UpdateSeal.Proofs.Floats
import UpdateSeal.Proofs.Texts
import UpdateSeal.Proofs.Strings
import UpdateSeal.Proofs.Values
import UpdateSeal.Proofs.Printing
import UpdateSeal.Proofs.Objects
import UpdateSeal.Proofs.Fields
import UpdateSeal.Proofs.Manifests
import UpdateSeal.Proofs.Headers
import UpdateSeal.Proofs.Layouts
import UpdateSeal.Proofs.Preimages
import UpdateSeal.Proofs.Blocks
import UpdateSeal.Proofs.Keys
import UpdateSeal.Proofs.Recording
import UpdateSeal.Proofs.Embeddings
import UpdateSeal.Proofs.Plans
import UpdateSeal.Proofs.Applications
import UpdateSeal.Proofs.Verifications
import UpdateSeal.Proofs.Signings
import UpdateSeal.Proofs.Entries
import UpdateSeal.Proofs.Chains
import UpdateSeal.Proofs.LedgerFiles
import UpdateSeal.Proofs.Histories
import UpdateSeal.Proofs.Audits
import UpdateSeal.Proofs.Limits
import UpdateSeal.Proofs.Appending
import UpdateSeal.Proofs.Commitments
import UpdateSeal.Proofs.Rearrangements
import UpdateSeal.Proofs.HashSets
import UpdateSeal.Proofs.Observations
import UpdateSeal.Proofs.Operations
import UpdateSeal.Proofs.OfflineSigning
import UpdateSeal.Proofs.Lifecycles
import UpdateSeal.Proofs.Discards
import UpdateSeal.Proofs.MetadataSignatures
import UpdateSeal.Proofs.RawTransforms
import UpdateSeal.Proofs.AnyKey
import UpdateSeal.Proofs.Places
import UpdateSeal.Proofs.RecordedWork
import UpdateSeal.Proofs.Acceptance
import UpdateSeal.Proofs.HeaderCodec
import UpdateSeal.Proofs.Verdicts
import UpdateSeal.Proofs.Unrecorded
import UpdateSeal.Proofs.Restarts
import UpdateSeal.Proofs.Trails
import UpdateSeal.Proofs.Sessions
import UpdateSeal.Proofs.AuditTrails
import UpdateSeal.Proofs.Sameness
import UpdateSeal.Proofs.Contents
import UpdateSeal.Proofs.Forms
import UpdateSeal.Proofs.CutContainers
import UpdateSeal.Proofs.PrefixFree
import UpdateSeal.Proofs.DocumentedFaults
import UpdateSeal.Proofs.WholeWrites
import UpdateSeal.Proofs.RegionDigests
import UpdateSeal.Proofs.RawDigests
import UpdateSeal.Proofs.SigningLimits
