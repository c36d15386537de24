import Hannoy.Library.TopK
import Hannoy.Library.Beam
import Hannoy.Library.Server
import Hannoy.Library.Txn
import Hannoy.Model.Float
import Hannoy.Model.Reader
import Hannoy.Index.History
import Hannoy.Index.SelfLinks
import Hannoy.Index.Pending
import Hannoy.Index.Reopen
import Hannoy.Index.Isolation
import Hannoy.Index.Degree
import Hannoy.Index.EntryPoints
import Hannoy.Index.Repair
import Hannoy.Index.Builder
import Hannoy.Index.Attempts
import Hannoy.Index.Duplicates
import Hannoy.Index.Height
import Hannoy.Index.Hierarchy
import Hannoy.Index.Legible
import Hannoy.Graph.LostLinks
import Hannoy.Graph.AddLink
import Hannoy.Graph.Capacity
import Hannoy.Graph.Parallel
import Hannoy.Search.Answers
import Hannoy.Search.Service
import Hannoy.Search.Session
import Hannoy.Search.Sound
import Hannoy.Search.Exact
import Hannoy.Search.Count
import Hannoy.Search.Itself
import Hannoy.Search.Best
import Hannoy.Search.Cancel
import Hannoy.Search.Filtered
import Hannoy.Search.Nearest
import Hannoy.Search.Width
import Hannoy.Search.Descent
import Hannoy.Search.Prefetch
import Hannoy.Search.Candidates
import Hannoy.Codec.Encode
import Hannoy.Codec.Decode
import Hannoy.Codec.Distances
import Hannoy.Codec.Values
import Hannoy.Codec.Keys
import Hannoy.Spaces.Kernels
import Hannoy.Spaces.BitCounts
import Hannoy.Spaces.Padding
import Hannoy.Spaces.Sign
import Hannoy.Spaces.Order
