import EntityScene.Text
import EntityScene.Abort
import EntityScene.Entity
import EntityScene.Entity.Table
import EntityScene.Storage.SlotTable
import EntityScene.Storage.SparseSet
import EntityScene.Component.Catalog
import EntityScene.Component.Storage
import EntityScene.Signal
import EntityScene.World
import EntityScene.World.Fetch
import EntityScene.Scene.Geometry
import EntityScene.Linear
import EntityScene.Scene.Transform
import EntityScene.Scene.TreeNode
import EntityScene.Scene.Kind
import EntityScene.Scene.Tree
import EntityScene.Scene.Pass
import EntityScene.Scene.Link
import EntityScene.Program.Script
import EntityScene.Program.Machine
import EntityScene.Program.Edit
import EntityScene.Proofs.Handles
import EntityScene.Proofs.Packing
import EntityScene.Proofs.Passes
import EntityScene.Proofs.Pools
import EntityScene.Proofs.Repertoire
import EntityScene.Proofs.Edits
import EntityScene.Proofs.Generations
import EntityScene.Proofs.Lifelines
import EntityScene.Proofs.Cascades
import EntityScene.Proofs.Forests
import EntityScene.Proofs.Linking
import EntityScene.Proofs.Sessions
import EntityScene.Proofs.Staging
import EntityScene.Proofs.Traits
import EntityScene.Proofs.Sparing
import EntityScene.Proofs.Interference
import EntityScene.Proofs.Rolls
import EntityScene.Proofs.Lives
import EntityScene.Proofs.Hookups
import EntityScene.Proofs.Turns
import EntityScene.Proofs.Absence
import EntityScene.Proofs.Rosters
import EntityScene.Proofs.Ledger
import EntityScene.Proofs.Invocations
import EntityScene.Proofs.Bookkeeping
import EntityScene.Proofs.Accounts
import EntityScene.Proofs.Pending
import EntityScene.Proofs.Parting
import EntityScene.Proofs.Reentry
import EntityScene.Proofs.Considerate
import EntityScene.Proofs.Courses
import EntityScene.Proofs.Descents
import EntityScene.Proofs.Tours
import EntityScene.Proofs.Renewals
import EntityScene.Proofs.Refusals
import EntityScene.Proofs.Ancestry
import EntityScene.Proofs.Progeny
import EntityScene.Proofs.Outcomes
import EntityScene.Proofs.Grafts
import EntityScene.Proofs.Custody
import EntityScene.Proofs.Guards
import EntityScene.Proofs.Rounds
import EntityScene.Proofs.Endings
import EntityScene.Proofs.Wreckage
import EntityScene.Proofs.Restitution
import EntityScene.Proofs.Clearing
import EntityScene.Proofs.Stocks
import EntityScene.Proofs.Fetches
import EntityScene.Proofs.Tallies
import EntityScene.Proofs.Unfinished
import EntityScene.Proofs.Disposals
import EntityScene.Proofs.Pages
import EntityScene.Proofs.Limits
import EntityScene.Proofs.Panels
import EntityScene.Proofs.Numbering
import EntityScene.Proofs.Stations
