import CommitLog.BranchName
import CommitLog.CommandLine.Invocation
import CommitLog.CommandLine.Options
import CommitLog.CommandLine.Run
import CommitLog.Compression.Bits
import CommitLog.Compression.Code
import CommitLog.Compression.Inflate
import CommitLog.Compression.Zlib
import CommitLog.Disk.Action
import CommitLog.Disk.Basic
import CommitLog.Disk.Change
import CommitLog.Disk.Fault
import CommitLog.Fault
import CommitLog.Filter.Basic
import CommitLog.Filter.Branch
import CommitLog.Filter.Date
import CommitLog.Filter.Hash
import CommitLog.Filter.Kind
import CommitLog.Filter.Structure
import CommitLog.Filter.Text
import CommitLog.Filter.User
import CommitLog.Graph.CommitSet
import CommitLog.Graph.CommitStore
import CommitLog.Graph.Permanent
import CommitLog.Graph.Visible
import CommitLog.History.Changes
import CommitLog.History.Walk
import CommitLog.Main
import CommitLog.Metadata
import CommitLog.Object.Author
import CommitLog.Object.Commit
import CommitLog.Object.Digest
import CommitLog.Object.Framing
import CommitLog.Object.Id
import CommitLog.Object.Kind
import CommitLog.Object.Tree
import CommitLog.Path.Basic
import CommitLog.Path.Selection
import CommitLog.Path.Table
import CommitLog.Path.Trie
import CommitLog.Pattern.Basic
import CommitLog.Pattern.Cost
import CommitLog.Pattern.Expr
import CommitLog.Pattern.Notation
import CommitLog.Pattern.Property
import CommitLog.Pattern.Reader
import CommitLog.Pattern.Resolve
import CommitLog.Repository.Basic
import CommitLog.Repository.Files
import CommitLog.Repository.ObjectStore
import CommitLog.Repository.RefFile
import CommitLog.Repository.Refs
import CommitLog.Search.Cache
import CommitLog.Search.Cascade
import CommitLog.Search.Index
import CommitLog.Search.LoadedHistory
import CommitLog.Search.MatchingSet
import CommitLog.Search.MetadataOwner
import CommitLog.Search.MetadataStore
import CommitLog.Search.Source
import CommitLog.Search.Stage
import CommitLog.Session.Basic
import CommitLog.Session.Log
import CommitLog.Session.Source
import CommitLog.Text.Blank
import CommitLog.Text.Number
import CommitLog.Text.Quoted
import CommitLog.Text.Utf8
import CommitLog.Time.Calendar
import CommitLog.Time.Instant
import CommitLog.Time.Reading
import CommitLog.Unicode.BinaryProperty
import CommitLog.Unicode.Case
import CommitLog.Unicode.Category
import CommitLog.Unicode.CodePoints
import CommitLog.Unicode.Script
import CommitLog.Proofs.Graph.Links
import CommitLog.Proofs.Graph.Members
import CommitLog.Proofs.Graph.Tables
import CommitLog.Proofs.Graph.Permanent
import CommitLog.Proofs.Graph.Greedy
import CommitLog.Proofs.Graph.Reachability
import CommitLog.Proofs.Graph.Topological
import CommitLog.Proofs.Graph.Lines
import CommitLog.Proofs.Graph.Part
import CommitLog.Proofs.Graph.PartLines
import CommitLog.Proofs.Queue
import CommitLog.Proofs.Object.Id
import CommitLog.Proofs.History.Walk
import CommitLog.Proofs.Path.Components
import CommitLog.Proofs.Path.Order
import CommitLog.Proofs.Path.Trie
import CommitLog.Proofs.Filter.Structure
import CommitLog.Proofs.History.Changes
import CommitLog.Proofs.Graph.Store
import CommitLog.Proofs.Graph.Resolve
import CommitLog.Proofs.Session.Loading
import CommitLog.Proofs.Session.Nothing
import CommitLog.Proofs.Session.Numbering
import CommitLog.Proofs.Session.Opened
import CommitLog.Proofs.Session.Links
import CommitLog.Proofs.Graph.Heads
import CommitLog.Proofs.Graph.Containing
import CommitLog.Proofs.Search.Shown
import CommitLog.Proofs.Session.Source
import CommitLog.Proofs.Session.Search
import CommitLog.Proofs.Filter.Details
import CommitLog.Proofs.Session.Widening
import CommitLog.Proofs.Session.FullSearch
import CommitLog.Proofs.Session.NextStage
import CommitLog.Proofs.Disk.Lookup
import CommitLog.Proofs.Session.Memory
import CommitLog.Proofs.Session.Opening
import CommitLog.Proofs.Repository.Places
import CommitLog.Proofs.Session.Loaded
import CommitLog.Proofs.Session.Alone
import CommitLog.Proofs.History.Differences
import CommitLog.Proofs.Text.Utf8
import CommitLog.Proofs.Text.Number
import CommitLog.Proofs.Object.Author
import CommitLog.Proofs.Object.Commit
import CommitLog.Proofs.Object.Framing
import CommitLog.Proofs.Object.Tree
import CommitLog.Proofs.Compression.Stored
import CommitLog.Proofs.Disk.Lead
import CommitLog.Proofs.Disk.Growth
import CommitLog.Proofs.Repository.ObjectStore
import CommitLog.Proofs.Graph.Cycles
import CommitLog.Proofs.Search.Dependence
import CommitLog.Proofs.Search.Named
import CommitLog.Proofs.Disk.Below
import CommitLog.Proofs.Repository.Branches
import CommitLog.Proofs.Repository.Head
import CommitLog.Proofs.Repository.RefWriters
import CommitLog.Proofs.Disk.Writing
import CommitLog.Proofs.Repository.RefText
import CommitLog.Proofs.Repository.RefStore
import CommitLog.Proofs.Repository.Create
import CommitLog.Proofs.Repository.RefChanges
import CommitLog.Proofs.Search.Failing
import CommitLog.Proofs.Graph.Registered
import CommitLog.Proofs.Search.Newest
import CommitLog.Proofs.Search.Owner
import CommitLog.Proofs.Search.Rendezvous
import CommitLog.Proofs.Session.Recent
import CommitLog.Proofs.Session.Transparent
import CommitLog.Proofs.Graph.TableScan
import CommitLog.Proofs.History.Footprint
import CommitLog.Proofs.Session.Answer
import CommitLog.Proofs.Entries
import CommitLog.Proofs.Path.Canonical
import CommitLog.Proofs.Search.Content
import CommitLog.Proofs.Repository.WholeObjects
import CommitLog.Proofs.Pattern.Spans
import CommitLog.Proofs.Pattern.Pieces
import CommitLog.Proofs.Unicode.CodePoints
import CommitLog.Proofs.Unicode.Case
import CommitLog.Proofs.Filter.Text
import CommitLog.Proofs.Pattern.Cost
import CommitLog.Proofs.Pattern.Wildcards
import CommitLog.Proofs.Filter.Branch
import CommitLog.Proofs.Time.Calendar
import CommitLog.Proofs.Time.Reading
import CommitLog.Proofs.Filter.Date
import CommitLog.Proofs.Disk.Slashes
import CommitLog.Proofs.Repository.LoneBranch
