import QueryAudit.Main
import QueryAudit.Proofs.Taint.Functions
import QueryAudit.Proofs.Query.AtOnce
import QueryAudit.Proofs.Query.TableLists
import QueryAudit.Proofs.Record.Classification
import QueryAudit.Proofs.Sample.Concatenation
import QueryAudit.Proofs.Sample.Termination
import QueryAudit.Proofs.Lockstep.Debug
import QueryAudit.Proofs.Query.Once
import QueryAudit.Proofs.Record.ConstantAgreement
import QueryAudit.Proofs.Diagnostics
import QueryAudit.Proofs.Scope.Standing
import QueryAudit.Proofs.Scope.Hidden
import QueryAudit.Proofs.Lockstep.Caching
import QueryAudit.Proofs.Scope.Reassigned
import QueryAudit.Proofs.Sql.VisibleTables
import QueryAudit.Proofs.Record.WriteOnce
import QueryAudit.Proofs.Record.TableIndex
import QueryAudit.Proofs.Intrinsic.Printing
import QueryAudit.Proofs.Intrinsic.Calls
import QueryAudit.Proofs.Scope.LineOrder
import QueryAudit.Proofs.Scope.Keys
import QueryAudit.Proofs.Php.Patterns
import QueryAudit.Proofs.Path.Showing
