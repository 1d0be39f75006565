import OSLab.Lib.Machine
import OSLab.Lib.Pthread
import OSLab.Lib.Bytes
import OSLab.Lib.Count
import OSLab.Lib.Loop
import OSLab.Lib.BinaryHeap
import OSLab.Lib.Forest
import OSLab.Lib.Chunk
import OSLab.Lib.FileTree
import OSLab.Lib.Text
import OSLab.Lib.Preorder
import OSLab.Topsort.Workers
import OSLab.Topsort.Order
import OSLab.Topsort.Progress
import OSLab.Topsort.Checker
import OSLab.Clinic.Event
import OSLab.Clinic.EventQueue
import OSLab.Clinic.Assistant
import OSLab.Clinic.Policy
import OSLab.Clinic.Threads
import OSLab.Clinic.Ledger
import OSLab.Clinic.Handshake
import OSLab.Clinic.Chamber
import OSLab.Clinic.Progress
import OSLab.Clinic.Schedule
import OSLab.Lib.Budget
import OSLab.Clinic.Ending
import OSLab.Clinic.Closing
import OSLab.Clinic.ArrivalFile
import OSLab.Paging.Mmu
import OSLab.Paging.Allotment
import OSLab.Paging.Encoding
import OSLab.Paging.RefString
import OSLab.Paging.Ownership
import OSLab.Paging.Rows
import OSLab.Paging.Freeing
import OSLab.Paging.Lru
import OSLab.Paging.Quota
import OSLab.Paging.Parties
import OSLab.Paging.Termination
import OSLab.Paging.Dispatch
import OSLab.Paging.Progress
import OSLab.Paging.FrameNumbers
import OSLab.Paging.Sessions
import OSLab.Paging.References
import OSLab.Paging.Retries
import OSLab.Foothread.Library
import OSLab.Foothread.Barrier
import OSLab.Foothread.Once
import OSLab.Foothread.MutexOwner
import OSLab.Foothread.Mixed
import OSLab.Foothread.Crew
import OSLab.Foothread.ComputeSum
import OSLab.Foothread.Frame
import OSLab.Foothread.Gate
import OSLab.Foothread.Setup
import OSLab.Foothread.Steps
import OSLab.Foothread.Gentree
import OSLab.Topsort.Gengraph
import OSLab.Foothread.TreeFile
import OSLab.Foothread.NodeSums
import OSLab.Foothread.ThreadTable
import OSLab.Foothread.Total
import OSLab.Foothread.Roster
import OSLab.Foothread.Sections
import OSLab.Foothread.Creation
import OSLab.Foothread.Leaving
import OSLab.Foothread.Joins
import OSLab.Foothread.Recycling
import OSLab.Foothread.Slots
import OSLab.Prodcons.Mailbox
import OSLab.Lib.Fairness
import OSLab.Prodcons.Polling
import OSLab.Jobs.Manager
import OSLab.Jobs.Targets
import OSLab.Jobs.Prompt
import OSLab.Jobs.Survivors
import OSLab.Proctree.Proctree
import OSLab.Shells.Children
import OSLab.Shells.Roles
import OSLab.Sync.Directories
import OSLab.Sync.Mirror
import OSLab.Sync.Items
import OSLab.Sync.Visit
import OSLab.Sync.Branches
import OSLab.Sync.Paths
import OSLab.Sync.Traversal
import OSLab.Sync.Synchronised
import OSLab.Sync.Agreement
import OSLab.Lib.Wakeups
import OSLab.Lib.BoundedStack
import OSLab.Foothread.Guard
import OSLab.Foothread.SharedResource
import OSLab.Samples.Workers
import OSLab.Samples.Arrays
import OSLab.Samples.WindUp
import OSLab.Samples.ProducerConsumer
import OSLab.Samples.Buffer
import OSLab.Samples.Semaphores
import OSLab.Samples.Pipe
import OSLab.Topsort.GraphFile
import OSLab.Paging.Residence
import OSLab.Paging.Completion
import OSLab.Paging.ResultFile
