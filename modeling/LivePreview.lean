import LivePreview.Main
import LivePreview.Proofs.Command.Replica
import LivePreview.Proofs.Preview.Linkable
import LivePreview.Proofs.Preview.Live
import LivePreview.Proofs.Store.FlatTree
import LivePreview.Proofs.Preview.Watch
import LivePreview.Proofs.Command.Edit
import LivePreview.Proofs.Preview.Tree
import LivePreview.Proofs.Session
import LivePreview.Proofs.Application
import LivePreview.Proofs.Binary.Codec
import LivePreview.Proofs.Snapshot.Validity
import LivePreview.Proofs.Registry.Lifetime
import LivePreview.Proofs.Preview.Walk
import LivePreview.Proofs.Preview.Cause
import LivePreview.Proofs.Command.Encoding
import LivePreview.Proofs.Store.Announcement
import LivePreview.Proofs.Preview.Errors
import LivePreview.Proofs.Module.Fault
import LivePreview.Proofs.Store.Replacement
import LivePreview.Proofs.Source.Exit
import LivePreview.Proofs.Source.Clause
import LivePreview.Proofs.Source.Verbatim
import LivePreview.Proofs.Source.Coherent
import LivePreview.Proofs.Module.Rewriting
import LivePreview.Proofs.Preview.Retention
import LivePreview.Proofs.Resolution.Edit
import LivePreview.Proofs.Resolution.Relocation
import LivePreview.Proofs.Source.Bracket
import LivePreview.Proofs.Source.Origin
import LivePreview.Proofs.Source.Markup
import LivePreview.Proofs.Source.Division
import LivePreview.Proofs.Package
import LivePreview.Proofs.Command.Atomicity
import LivePreview.Proofs.Command.Script
import LivePreview.Proofs.Config.Version
import LivePreview.Proofs.Text.Substitution
import LivePreview.Proofs.Path.Rebase
import LivePreview.Proofs.Store.Listing
import LivePreview.Proofs.Registry.Identity
import LivePreview.Proofs.Fingerprint
import LivePreview.Proofs.Source.Range
import LivePreview.Proofs.Store.Failure
