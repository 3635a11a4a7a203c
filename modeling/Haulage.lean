import Haulage.Media
import Haulage.Control.Signal
import Haulage.Disk.Error
import Haulage.Disk.Path
import Haulage.Disk.Edit
import Haulage.Copy.Progress
import Haulage.Item.Checks
import Haulage.Item.Run
import Haulage.Storage.Shelf
import Haulage.Settings.Basic
import Haulage.Settings.Machine
import Haulage.Queue.Linked
import Haulage.Queue.Wakeup
import Haulage.Pool.Clients
import Haulage.Pool.Worker
import Haulage.Pool.Basic
import Haulage.Transaction.Basic
import Haulage.Site.Delivery
import Haulage.Proofs.Notices
import Haulage.Proofs.Turns
import Haulage.Proofs.MailOrder
import Haulage.Proofs.ClientTable
import Haulage.Proofs.Calls
import Haulage.Proofs.Workshop
import Haulage.Proofs.Rest
import Haulage.Proofs.Operations
import Haulage.Proofs.Balance
import Haulage.Proofs.Logbook
import Haulage.Proofs.Accounts
import Haulage.Proofs.Cancellation
import Haulage.Proofs.Books
import Haulage.Proofs.Settlement
import Haulage.Proofs.Pursuit
import Haulage.Proofs.Recall
import Haulage.Proofs.Bell
import Haulage.Proofs.Chains
import Haulage.Proofs.Traffic
import Haulage.Proofs.Ledger
import Haulage.Proofs.Refinement
import Haulage.Proofs.Sleepers
import Haulage.Proofs.HandBack
import Haulage.Proofs.TransactionLayer
import Haulage.Proofs.Custody
import Haulage.Proofs.Paths
import Haulage.Proofs.Ways
import Haulage.Proofs.Entries
import Haulage.Proofs.Finality
import Haulage.Proofs.Resubmissions
import Haulage.Proofs.Frames
import Haulage.Proofs.Listings
import Haulage.Proofs.Soundness
import Haulage.Proofs.Spellings
import Haulage.Proofs.Staging
import Haulage.Proofs.Sessions
import Haulage.Proofs.JobRuns
import Haulage.Proofs.Publication
import Haulage.Proofs.Transfers
import Haulage.Proofs.Alterations
import Haulage.Proofs.Leftovers
import Haulage.Proofs.Outputs
import Haulage.Proofs.Copies
import Haulage.Proofs.Sources
import Haulage.Proofs.PoolLifecycle
import Haulage.Proofs.Attendance
import Haulage.Proofs.Outcome
import Haulage.Proofs.Overlays
import Haulage.Proofs.Grants
import Haulage.Proofs.Refusals
import Haulage.Proofs.Buffers
import Haulage.Proofs.Polling
import Haulage.Proofs.Loads
import Haulage.Proofs.ItemHistory
import Haulage.Proofs.Packing
import Haulage.Proofs.Tags
import Haulage.Proofs.Access
import Haulage.Proofs.Limits
import Haulage.Proofs.Promises
import Haulage.Proofs.Synonyms
