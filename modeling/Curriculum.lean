import Curriculum.Group.Printer
import Curriculum.Json.Plan
import Curriculum.Json.Printer
import Curriculum.Json.Reader
import Curriculum.Planner.Action
import Curriculum.Proofs.Group.Accepts
import Curriculum.Proofs.Group.RoundTrip
import Curriculum.Proofs.Planner.LedgerActions
import Curriculum.Proofs.Planner.Unaffected
import Curriculum.Toml.Settings
import Curriculum.Proofs.Course.Trailing
import Curriculum.Proofs.Group.ReadingOrder
import Curriculum.Proofs.Plan.Concerned
import Curriculum.Proofs.Plan.Determined
import Curriculum.Proofs.Planner.WithoutRules
import Curriculum.Proofs.Planner.Returned
import Curriculum.Proofs.Planner.Undo
import Curriculum.Proofs.Planner.Independence
import Curriculum.Proofs.Planner.Batch
import Curriculum.Proofs.Planner.Readding
import Curriculum.Proofs.Planner.Locality
import Curriculum.Proofs.Group.Canonical
import Curriculum.Proofs.Json.Plan
import Curriculum.Proofs.Verdict.InPlace
import Curriculum.Proofs.Verdict.Pairs
import Curriculum.Proofs.Verdict.Knowledge
import Curriculum.Proofs.Course.Search
import Curriculum.Proofs.Verdict.RelativeOrder
import Curriculum.Proofs.Group.NestingLimit
import Curriculum.Proofs.Verdict.RecordingOrder
import Curriculum.Proofs.Plan.AnyOrder
import Curriculum.Proofs.Course.TextOrder
import Curriculum.Proofs.Course.Spellings
import Curriculum.Proofs.Group.WellFormedChunks
import Curriculum.Proofs.Equivalence.History
import Curriculum.Proofs.Catalog
import Curriculum.Proofs.Ledger.InsertionOrder
import Curriculum.Proofs.Course.Progress
import Curriculum.Proofs.TermOrder.Chronology
