import Treedb.Forest.Count
import Treedb.Forest.Walk
import Treedb.Map
import Treedb.Tree.Link
import Treedb.Tree.WellFormed
import Treedb.Outcome
import Treedb.Tree.Edit
import Treedb.Call
import Treedb.Structure
import Treedb.Counters
import Treedb.Reachability
import Treedb.Saving
import Treedb.Loading
import Treedb.Crash
import Treedb.Forest.Shadow
import Treedb.View.Shown
import Treedb.View.Expand
import Treedb.View.Climb
import Treedb.View.Life
import Treedb.View.Edit
import Treedb.View.Faithful
import Treedb.View.Operations
import Treedb.Attachment
import Treedb.Channel
import Treedb.Isolation
import Treedb.BranchData
import Treedb.Moving
import Treedb.Expansion
import Treedb.InitView
import Treedb.Inserting
import Treedb.Initiator
import Treedb.MovingViews
import Treedb.Undoing
import Treedb.Client
import Treedb.View.Print
import Treedb.FaithfulMoves
import Treedb.MovingOrder
import Treedb.ExpandTo
import Treedb.Path
import Treedb.View.Unborn
import Treedb.GeneratedIds
import Treedb.Position
import Treedb.Commuting
import Treedb.Reloading
import Treedb.Encoding
import Treedb.Slots
import Treedb.Arrays
import Treedb.Copying
import Treedb.Import
import Treedb.Copies
import Treedb.Following
import Treedb.Clients
import Treedb.RedBlack.Balance
import Treedb.Rb.Memory
import Treedb.Rb.Probe
import Treedb.Rb.Search
import Treedb.Rb.Delete
import Treedb.Indexes
import Treedb.Subscribers
