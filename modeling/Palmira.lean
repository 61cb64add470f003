import Palmira.Foundation.SortedAssoc
import Palmira.Foundation.Binary
import Palmira.Core.Zval
import Palmira.Core.Exception
import Palmira.Grpc.Messages
import Palmira.Grpc.Meaning
import Palmira.Grpc.RoundTrip
import Palmira.Grpc.ReportPath
import Palmira.Collect.Chosen
import Palmira.Collect.Documents
import Palmira.Collect.Linear
import Palmira.Collect.Merge
import Palmira.Collect.Parallel
import Palmira.Collect.Waiting
import Palmira.Collect.Sectioned
import Palmira.Collect.Reused
import Palmira.Foundation.Loop
import Palmira.Collect.Sections
import Palmira.Foundation.ThreeWay
import Palmira.Collect.Compare
import Palmira.Collect.Coupling
import Palmira.Collect.Bounds
import Palmira.Foundation.Cells
import Palmira.Collect.Slots
import Palmira.Collect.Copying
import Palmira.Foundation.Completion
import Palmira.Service.Pending
import Palmira.Foundation.Threads
import Palmira.Libruseq.Indexer
import Palmira.Libruseq.Drained
import Palmira.Libruseq.Sender
import Palmira.Libruseq.Stranded
import Palmira.Foundation.StreamDecoder
import Palmira.Http.Message
import Palmira.Http.Unpack
import Palmira.Http.Client
import Palmira.Http.Server
import Palmira.Http.Wire
import Palmira.Foundation.Effects
import Palmira.Foundation.HandleTree
import Palmira.Objects.Paragraph
import Palmira.Objects.DocZmap
import Palmira.Objects.TextForm
import Palmira.Grpc.Document
import Palmira.Foundation.FileTree
import Palmira.Foundation.Inotify
import Palmira.Watch.WatchDir
import Palmira.Watch.Kept
import Palmira.Watch.Reported
import Palmira.Watch.Ignored
import Palmira.K2.IndexDir
import Palmira.Service.StructoSearch
import Palmira.Service.Store
import Palmira.Service.Fields
import Palmira.Grpc.InPlace
import Palmira.Grpc.Refused
import Palmira.Grpc.Change
import Palmira.Http.Alike
import Palmira.Http.Action
import Palmira.Http.Answered
import Palmira.Http.Deflate
import Palmira.Foundation.Strtoul
import Palmira.Http.Address
import Palmira.Http.DocumentForms
import Palmira.Http.SharedClient
import Palmira.Http.Stop
import Palmira.Http.Conditional
import Palmira.Service.Images
import Palmira.Foundation.BlockCopy
import Palmira.Plugins.MorphoRu
import Palmira.Foundation.Recursion
import Palmira.Readers.Minizip
import Palmira.Readers.Nesting
import Palmira.Readers.Damage
import Palmira.Foundation.SeekableFile
import Palmira.Foundation.PathLookup
import Palmira.Plugins.FullPath
import Palmira.Readers.MemoryFile
import Palmira.Libruseq.Counting
import Palmira.Foundation.Monitor
import Palmira.Libruseq.Listing
import Palmira.Libruseq.Closing
import Palmira.Grpc.Requests
import Palmira.Grpc.Remote
import Palmira.Collect.Defaults
import Palmira.Service.Library
import Palmira.Service.Search
import Palmira.Http.Handlers
import Palmira.Http.Requests
import Palmira.Http.Remote
import Palmira.Libruseq.Books
import Palmira.Libruseq.Indexed
import Palmira.Foundation.RefCount
import Palmira.Service.Lifetime
