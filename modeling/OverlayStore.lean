import OverlayStore.Database.Run
import OverlayStore.Value.Contents
import OverlayStore.Proofs.Session.Snapshot
import OverlayStore.Proofs.Database.Managed
import OverlayStore.Proofs.Database.Refinement
import OverlayStore.Proofs.Transaction.Outcome
import OverlayStore.Proofs.Overlay.Edits
import OverlayStore.Proofs.Session.Deletion
import OverlayStore.Proofs.Database.Commits
import OverlayStore.Proofs.Cells.Depth
import OverlayStore.Proofs.Cells.Renaming
import OverlayStore.Proofs.Cells.Mirroring
import OverlayStore.Proofs.Overlay.Renaming
import OverlayStore.Proofs.Database.Renaming
import OverlayStore.Proofs.Session.Without
import OverlayStore.Proofs.Session.Erasure
import OverlayStore.Proofs.Database.Lifecycle
import OverlayStore.Proofs.Database.Registry
import OverlayStore.Proofs.Overlay.Listings
import OverlayStore.Proofs.Session.ReadPaths
import OverlayStore.Proofs.Database.OtherKeys
import OverlayStore.Proofs.Store.Counting
import OverlayStore.Proofs.Database.Counting
import OverlayStore.Proofs.Cells.Acyclic
import OverlayStore.Proofs.Cells.Payloads
import OverlayStore.Proofs.Cells.Faithful
import OverlayStore.Proofs.Overlay.Outcomes
import OverlayStore.Proofs.Overlay.Copying
import OverlayStore.Proofs.Session.Copying
import OverlayStore.Proofs.Database.Refused
import OverlayStore.Proofs.Cells.Detached
import OverlayStore.Proofs.Cells.EqualityLaws
import OverlayStore.Proofs.Database.Growth
import OverlayStore.Proofs.Database.Swaps
import OverlayStore.Proofs.Cells.NoCycles
import OverlayStore.Proofs.Overlay.Failures
import OverlayStore.Proofs.Session.NoCycles
import OverlayStore.Proofs.Text.Numerals
import OverlayStore.Proofs.Transaction.Naming
import OverlayStore.Proofs.Cells.Ordered
import OverlayStore.Proofs.Session.Ordered
