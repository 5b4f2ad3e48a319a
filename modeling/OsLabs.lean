import OsLabs.Lts
import OsLabs.Fallible
import OsLabs.Tally
import OsLabs.Monitor
import OsLabs.Rank
import OsLabs.Rounds
import OsLabs.Segment
import OsLabs.Xv6.Vm
import OsLabs.Xv6.File
import OsLabs.Xv6.Proc
import OsLabs.Xv6.Exec
import OsLabs.Xv6.Trap
import OsLabs.Xv6.Calls
import OsLabs.Xv6.Steps
import OsLabs.Xv6.Table
import OsLabs.Xv6.History
import OsLabs.Xv6.Machine
import OsLabs.Xv6.Group
import OsLabs.Xv6.Join
import OsLabs.Xv6.Tree
import OsLabs.Xv6.Panics
import OsLabs.Xv6.FileSpec
import OsLabs.Xv6.FileRef
import OsLabs.Xv6.VmSpec
import OsLabs.Xv6.Slots
import OsLabs.Xv6.Pages
import OsLabs.Xv6.CleanFail
import OsLabs.Xv6.StackPlace
import OsLabs.Xv6.Locks
import OsLabs.Xv6.LockOrder
import OsLabs.Xv6.Deadlock
import OsLabs.Xv6.Killed
import OsLabs.Xv6.Held
import OsLabs.Xv6.Broadcast
import OsLabs.Xv6.Sane
import OsLabs.Xv6.Fine
import OsLabs.Xv6.Total
import OsLabs.Xv6.Reclaim
import OsLabs.Xv6.Data
import OsLabs.Xv6.Needs
import OsLabs.Xv6.Fork
import OsLabs.Xv6.UserStack
import OsLabs.Xv6.GroupExec
import OsLabs.Xv6.Sbrk
import OsLabs.Xv6.Resize
import OsLabs.Xv6.ThreadLife
import OsLabs.Xv6.SameSpace
import OsLabs.Xv6.Owner
import OsLabs.Xv6.OwnerCalls
import OsLabs.Xv6.PageSafety
import OsLabs.CondvarChallenge.ThreeJobs
import OsLabs.CondvarChallenge.LittleRedHen
import OsLabs.CondvarChallenge.Priority
import OsLabs.CondvarChallenge.Band
import OsLabs.CondvarChallenge.BandEnd
import OsLabs.Exam2.Problem2
import OsLabs.Exam2.Problem3
import OsLabs.CText
import OsLabs.Exam2.Simulator
import OsLabs.Exam2.Parser
import OsLabs.Exam2.Registers
import OsLabs.Exam2.Reference
import OsLabs.Exam2.Leftovers
import OsLabs.Activities.ReaderWriterFinal
import OsLabs.SampleExam2.Critical
import OsLabs.SampleExam2.Stoplight
import OsLabs.SampleExam2.Lunch
import OsLabs.SampleExam2.Game
import OsLabs.SampleExam2.Shower
import OsLabs.ThreadsBasics.RedBluePurple
import OsLabs.ThreadsBasics.QuadraticSorts
import OsLabs.ThreadsBasics.MergeSort
import OsLabs.ThreadsBasics.ThreadDispatch
import OsLabs.ThreadsBasics.Factoring
import OsLabs.CondvarBasics.Inorder
import OsLabs.Ust.BasicThreads
import OsLabs.Ust.RoundRobin
import OsLabs.Ust.Pool
import OsLabs.Ust.Refine
import OsLabs.LinkedRing
import OsLabs.Debug.Selection
import OsLabs.Debug.Sllist
import OsLabs.SampleExam1.Caesar
import OsLabs.Ext2.FileBlockread
import OsLabs.ProcessLab.SimpleTest
import OsLabs.SimpleShell.Shell
import OsLabs.SimpleShell.Dispatch
import OsLabs.Xv6.LogRoom
import OsLabs.Xv6.PipeData
import OsLabs.LetterPattern
import OsLabs.Xv6.Ulib
import OsLabs.Extents
import OsLabs.Xv6.Grep
import OsLabs.Xv6.UmallocSafety
import OsLabs.Holdings
import OsLabs.Xv6.FsFiles
import OsLabs.Xv6.FsWrite
import OsLabs.Xv6.FsCrash
