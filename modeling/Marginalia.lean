import Marginalia.Annotator
import Marginalia.Filter
import Marginalia.Proofs.Line
import Marginalia.Proofs.Outcome
import Marginalia.Proofs.Span.Erase
import Marginalia.Proofs.Span.Canonical
import Marginalia.Proofs.Removal
import Marginalia.Proofs.KeptLines
import Marginalia.Proofs.Identifier
import Marginalia.Proofs.Section
import Marginalia.Proofs.Target
import Marginalia.Proofs.Checker
import Marginalia.Proofs.Naming
import Marginalia.Proofs.Emitted
import Marginalia.Proofs.Answered
import Marginalia.Proofs.Session
import Marginalia.Proofs.Fresh
import Marginalia.Proofs.Collected
import Marginalia.Proofs.Hover
import Marginalia.Proofs.Query
import Marginalia.Proofs.Isolation
import Marginalia.Proofs.Number.Written
import Marginalia.Proofs.Value.Canonical
import Marginalia.Proofs.Order
import Marginalia.Proofs.Cause
import Marginalia.Proofs.Bounds
import Marginalia.Proofs.Failing
import Marginalia.Proofs.Unmarked
import Marginalia.Proofs.Refused
import Marginalia.Proofs.Journal
import Marginalia.Proofs.Silent
import Marginalia.Proofs.Directive
import Marginalia.Proofs.Partition
import Marginalia.Proofs.FileLine
import Marginalia.Proofs.Returned
import Marginalia.Proofs.Dropped
import Marginalia.Proofs.Nesting
import Marginalia.Proofs.Tag
import Marginalia.Proofs.Primitive
import Marginalia.Proofs.Unresolved
import Marginalia.Proofs.Kind
import Marginalia.Proofs.Completion
import Marginalia.Proofs.Highlight
import Marginalia.Proofs.Undocumented
import Marginalia.Proofs.Tree
import Marginalia.Proofs.Sharing
import Marginalia.Proofs.Shown
import Marginalia.Proofs.Word
