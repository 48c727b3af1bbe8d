import PonyLens.LogFormat
import PonyLens.Main
import PonyLens.Proofs.Arena.Duality
import PonyLens.Proofs.Cache.Queries
import PonyLens.Proofs.Dump.Grammar
import PonyLens.Proofs.Dump.Layout
import PonyLens.Proofs.Dump.Places
import PonyLens.Proofs.Dump.Truncation
import PonyLens.Proofs.Editor.CaretSearch
import PonyLens.Proofs.Editor.MemberNames
import PonyLens.Proofs.GuardState
import PonyLens.Proofs.Inheritance.Collectors
import PonyLens.Proofs.NameTable
import PonyLens.Proofs.Resolution.Congruence
import PonyLens.Proofs.Resolution.LimitFailures
import PonyLens.Proofs.Resolution.Termination
import PonyLens.Proofs.Resolution.TypeArguments
import PonyLens.Proofs.Resolution.WellFormed
import PonyLens.Proofs.Scope.Boundaries
import PonyLens.Proofs.Scope.Lookup
import PonyLens.Proofs.Scope.Packages
import PonyLens.Proofs.Scope.Statuses
