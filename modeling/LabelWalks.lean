import LabelWalks.Arrival
import LabelWalks.Bench.Command
import LabelWalks.Bench.Help
import LabelWalks.Bench.Options
import LabelWalks.Bench.Report
import LabelWalks.Bench.Run
import LabelWalks.Bench.Summary
import LabelWalks.Binary64.Basic
import LabelWalks.Binary64.Printer
import LabelWalks.Binary64.Reader
import LabelWalks.Census
import LabelWalks.Census.Crew
import LabelWalks.Fault
import LabelWalks.Folder
import LabelWalks.Graph.Network
import LabelWalks.Graph.Selection
import LabelWalks.Graph.View
import LabelWalks.HubIndex.Basic
import LabelWalks.HubIndex.Builder
import LabelWalks.HubIndex.Crew
import LabelWalks.HubIndex.Reader
import LabelWalks.HubIndex.Record
import LabelWalks.Json.Number
import LabelWalks.Json.Text
import LabelWalks.Json.Token
import LabelWalks.Json.Value
import LabelWalks.Label.Basic
import LabelWalks.Label.Dictionary
import LabelWalks.Label.Mapping
import LabelWalks.Limits
import LabelWalks.Main
import LabelWalks.MetaPath
import LabelWalks.PathLength
import LabelWalks.Permits
import LabelWalks.Pool
import LabelWalks.Scored
import LabelWalks.Search
import LabelWalks.Search.Crew
import LabelWalks.Semaphore
import LabelWalks.Settings.Basic
import LabelWalks.Settings.Printer
import LabelWalks.Settings.Reader
import LabelWalks.Sink
import LabelWalks.Suffix
import LabelWalks.Synthetic.Aggregation
import LabelWalks.Synthetic.Barbell
import LabelWalks.Synthetic.Family
import LabelWalks.Synthetic.Lcg
import LabelWalks.Synthetic.Sample
import LabelWalks.Synthetic.ScaleFree
import LabelWalks.Synthetic.SmallWorld
import LabelWalks.Synthetic.Tree
import LabelWalks.Synthetic.Uniform
import LabelWalks.Text.Blank
import LabelWalks.Text.Numeral
import LabelWalks.Text.Split
import LabelWalks.Trail
import LabelWalks.Proofs.Gathering
import LabelWalks.Proofs.Trail
import LabelWalks.Proofs.Walk
import LabelWalks.Proofs.Expansion
import LabelWalks.Proofs.Suffix
import LabelWalks.Proofs.Search.Pursuit
import LabelWalks.Proofs.Rendering
import LabelWalks.Proofs.Search.Entry
import LabelWalks.Proofs.Search.Findings
import LabelWalks.Proofs.Search.Meaning
import LabelWalks.Proofs.Census.Sweep
import LabelWalks.Proofs.Census.Meaning
import LabelWalks.Proofs.HubIndex.Record
import LabelWalks.Proofs.HubIndex.RoundTrip
import LabelWalks.Proofs.HubIndex.Builder
import LabelWalks.Proofs.Search.Shortcut
import LabelWalks.Proofs.HubIndex.Promise
import LabelWalks.Proofs.Pool.Account
import LabelWalks.Proofs.Pool.Work
import LabelWalks.Proofs.Pool.Progress
import LabelWalks.Proofs.HubIndex.Crew
import LabelWalks.Proofs.HubIndex.Session
import LabelWalks.Proofs.Census.Distinct
import LabelWalks.Proofs.Census.Crew
import LabelWalks.Proofs.Search.Line
import LabelWalks.Proofs.Search.Journal
import LabelWalks.Proofs.Search.Crew
import LabelWalks.Proofs.Agreement
import LabelWalks.Proofs.Renaming.Walk
import LabelWalks.Proofs.Search.Room
import LabelWalks.Proofs.Renaming.Results
import LabelWalks.Proofs.Reversal.Walk
import LabelWalks.Proofs.Reversal.Network
import LabelWalks.Proofs.Reversal.Results
import LabelWalks.Proofs.HubIndex.Grammar
import LabelWalks.Proofs.Graph.History
import LabelWalks.Proofs.Recoding.Tokens
import LabelWalks.Proofs.Recoding.Walk
import LabelWalks.Proofs.Recoding.Index
import LabelWalks.Proofs.Census.Line
import LabelWalks.Proofs.Recoding.Results
import LabelWalks.Proofs.Label.History
import LabelWalks.Proofs.Semaphore
import LabelWalks.Proofs.Text.Octets
import LabelWalks.Proofs.Synthetic.Draw
import LabelWalks.Proofs.Synthetic.Numbered
import LabelWalks.Proofs.Synthetic.Families
import LabelWalks.Proofs.Synthetic.Stages
import LabelWalks.Proofs.Graph.Adjacency
import LabelWalks.Proofs.HubIndex.History
import LabelWalks.Proofs.HubIndex.SelfSuffix
import LabelWalks.Proofs.HubIndex.Batches
import LabelWalks.Proofs.HubIndex.Edits
import LabelWalks.Proofs.HubIndex.NormalForm
import LabelWalks.Proofs.Search.Union
import LabelWalks.Proofs.Truncation
import LabelWalks.Proofs.Pool.Lockstep
import LabelWalks.Search.Engine
import LabelWalks.Proofs.Search.Engine
import LabelWalks.Census.Engine
import LabelWalks.Proofs.Census.Output
import LabelWalks.Proofs.Reading
import LabelWalks.Proofs.Graph.DefaultEdges
import LabelWalks.Proofs.Binary64.Rounding
import LabelWalks.Proofs.Ranking
import LabelWalks.Proofs.Graph.Selection
import LabelWalks.Proofs.Scored
import LabelWalks.Proofs.Synthetic.Size
import LabelWalks.Proofs.Synthetic.Bridge
import LabelWalks.Proofs.Synthetic.Crossing
import LabelWalks.Proofs.Worklist.Basic
import LabelWalks.Proofs.Worklist.Discipline
import LabelWalks.Proofs.Worklist.Engines
import LabelWalks.Proofs.Census.BreadthFirst
import LabelWalks.Proofs.Graph.Shape
import LabelWalks.Proofs.Synthetic.Heap
import LabelWalks.Proofs.Synthetic.Attachment
import LabelWalks.Proofs.Splice
