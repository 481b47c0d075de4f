import ApiManifest.Data.Merge
import ApiManifest.Main
import ApiManifest.Proofs.Independence
import ApiManifest.Proofs.Parameters
import ApiManifest.Proofs.References
import ApiManifest.Proofs.Repetition
import ApiManifest.Proofs.Layers
import ApiManifest.Proofs.Offers
import ApiManifest.Proofs.Untouched
import ApiManifest.Proofs.Tags
import ApiManifest.Proofs.Answers
import ApiManifest.Proofs.LastDeclared
import ApiManifest.Proofs.Contributions
import ApiManifest.Proofs.Reordering
import ApiManifest.Proofs.Template
import ApiManifest.Proofs.Grafting
import ApiManifest.Proofs.Ownership
import ApiManifest.Proofs.TreeShape
import ApiManifest.Proofs.Scaffold
import ApiManifest.Proofs.Existence
import ApiManifest.Proofs.LoadCauses
import ApiManifest.Proofs.BuildCauses
import ApiManifest.Proofs.Directories
import ApiManifest.Proofs.Suffixes
import ApiManifest.Proofs.Generating
import ApiManifest.Proofs.Formats
import ApiManifest.Proofs.Accumulation
import ApiManifest.Proofs.Places
import ApiManifest.Proofs.Nulls
import ApiManifest.Proofs.Asking
import ApiManifest.Proofs.Hosts
import ApiManifest.Proofs.Spellings
import ApiManifest.Proofs.JsonFlows
import ApiManifest.Proofs.JsonLexing
import ApiManifest.Proofs.JsonManifests
import ApiManifest.Proofs.Refinement
