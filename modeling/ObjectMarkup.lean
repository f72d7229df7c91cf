import ObjectMarkup.CommandLine.Run
import ObjectMarkup.Compile.Query
import ObjectMarkup.Concurrency.JobQueue
import ObjectMarkup.Fetch.FileTree
import ObjectMarkup.Kind.Script
import ObjectMarkup.Main
import ObjectMarkup.Value.Equality
import ObjectMarkup.Value.Literal
import ObjectMarkup.Proofs.HookRun
import ObjectMarkup.Proofs.Numbering
import ObjectMarkup.Proofs.Phases
import ObjectMarkup.Proofs.Advance
import ObjectMarkup.Proofs.Ready
import ObjectMarkup.Proofs.Account
import ObjectMarkup.Proofs.Containment
import ObjectMarkup.Proofs.Builtin
import ObjectMarkup.Proofs.Evaluator
import ObjectMarkup.Proofs.Reliable
import ObjectMarkup.Proofs.Spread
import ObjectMarkup.Proofs.PlainNamespaces
import ObjectMarkup.Proofs.Attributes
import ObjectMarkup.Proofs.Building
import ObjectMarkup.Proofs.Evaluation
import ObjectMarkup.Proofs.Moments
import ObjectMarkup.Proofs.Blocks
import ObjectMarkup.Proofs.References
import ObjectMarkup.Proofs.Making
import ObjectMarkup.Proofs.Lockstep
import ObjectMarkup.Proofs.Knowing
import ObjectMarkup.Proofs.Renaming
import ObjectMarkup.Proofs.Scalars
import ObjectMarkup.Proofs.Calls
import ObjectMarkup.Proofs.Literals
import ObjectMarkup.Proofs.Loops
import ObjectMarkup.Proofs.Influence
import ObjectMarkup.Proofs.Stamps
import ObjectMarkup.Proofs.Caching
import ObjectMarkup.Proofs.Election
import ObjectMarkup.Proofs.Failure
import ObjectMarkup.Proofs.Values
import ObjectMarkup.Proofs.Forwarding
import ObjectMarkup.Proofs.FileTrees
import ObjectMarkup.Proofs.JobOrder
import ObjectMarkup.Proofs.Scripts
import ObjectMarkup.Proofs.Session
import ObjectMarkup.Proofs.Settlement
import ObjectMarkup.Proofs.PathTable
import ObjectMarkup.Proofs.Finds
import ObjectMarkup.Proofs.Names
import ObjectMarkup.Proofs.Lookups
import ObjectMarkup.Proofs.Identity
import ObjectMarkup.Proofs.Spacing
import ObjectMarkup.Proofs.Command
import ObjectMarkup.Proofs.Rounding
import ObjectMarkup.Proofs.NearestFloat
import ObjectMarkup.Proofs.ShortestDigits
import ObjectMarkup.Proofs.NumberText
import ObjectMarkup.Proofs.NumberAttributes
import ObjectMarkup.Proofs.Bases
import ObjectMarkup.Proofs.Likeness
import ObjectMarkup.Proofs.Holding
import ObjectMarkup.Proofs.ConfiguredSymbols
import ObjectMarkup.Proofs.BytePositions
import ObjectMarkup.Proofs.IntegerPrefix
import ObjectMarkup.Proofs.NumberPrefix
import ObjectMarkup.Proofs.Unfolding
import ObjectMarkup.Proofs.JsonFidelity
import ObjectMarkup.Proofs.EqualityLaws
import ObjectMarkup.Proofs.Registrations
import ObjectMarkup.Proofs.Spelling
import ObjectMarkup.Proofs.TagQueries
import ObjectMarkup.Proofs.GenericRecords
import ObjectMarkup.Proofs.AttributeOutcomes
import ObjectMarkup.Proofs.Retagging
import ObjectMarkup.Proofs.ScalarTags
import ObjectMarkup.Proofs.Insertions
import ObjectMarkup.Proofs.BuiltTrees
import ObjectMarkup.Proofs.LoadedTrees
import ObjectMarkup.Proofs.ListItems
import ObjectMarkup.Proofs.AttributeOrder
import ObjectMarkup.Proofs.DisplayProperties
import ObjectMarkup.Proofs.DefinedPaths
import ObjectMarkup.Proofs.AbsoluteReferences
import ObjectMarkup.Proofs.IdQueries
