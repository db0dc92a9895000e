import LazyExpiry.Key
import LazyExpiry.Main
import LazyExpiry.Session.Run
import LazyExpiry.Proofs.Pass.Window
import LazyExpiry.Proofs.Pass.Again
import LazyExpiry.Proofs.Pass.Conserved
import LazyExpiry.Proofs.Pass.Fused
import LazyExpiry.Proofs.Pass.Shared
import LazyExpiry.Proofs.Paged.Order
import LazyExpiry.Proofs.Paged.Abreast
import LazyExpiry.Proofs.Paged.Bounds
import LazyExpiry.Proofs.Paged.Shared
import LazyExpiry.Proofs.Schedule.Linear
import LazyExpiry.Proofs.Schedule.History
import LazyExpiry.Proofs.Views.Agree
import LazyExpiry.Proofs.Paged.FirstFailure
import LazyExpiry.Proofs.Point.Transparent
import LazyExpiry.Proofs.Schedule.Journal
import LazyExpiry.Proofs.Schedule.Accounts
import LazyExpiry.Proofs.Schedule.Lapse
import LazyExpiry.Proofs.Schedule.Sight
import LazyExpiry.Proofs.Schedule.Expiry
import LazyExpiry.Proofs.Point.Deviation
import LazyExpiry.Proofs.Point.Batch
import LazyExpiry.Proofs.Views.Sweep
import LazyExpiry.Proofs.Views.Emptiness
import LazyExpiry.Proofs.Demo.Outcome
import LazyExpiry.Proofs.Demo.Grammar
import LazyExpiry.Proofs.Paged.Drained
import LazyExpiry.Proofs.Lock.Runs
