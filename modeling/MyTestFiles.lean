import MyTestFiles.Headers.Validate
import MyTestFiles.Headers.Replicate
import MyTestFiles.Lib.Written
import MyTestFiles.Proofs.Headers.Variants
import MyTestFiles.Proofs.CircBuffer.Refinement
import MyTestFiles.Proofs.DList.Coherence
import MyTestFiles.Proofs.Bitlist.Basic
import MyTestFiles.Proofs.Bitlist.Cursor
import MyTestFiles.Bitlist.Pool
import MyTestFiles.Proofs.Bitlist.Mutators
import MyTestFiles.Proofs.Bitlist.Padding
import MyTestFiles.InlinePower.Port
import MyTestFiles.InlinePower.Switch
import MyTestFiles.Proofs.InlinePower.Conservation
import MyTestFiles.InlinePower.Negotiator
import MyTestFiles.Proofs.InlinePower.Functions
import MyTestFiles.Proofs.InlinePower.Review
import MyTestFiles.Proofs.InlinePower.StateMachine
import MyTestFiles.Proofs.DList.Move
import MyTestFiles.DList.Counted
import MyTestFiles.Proofs.DList.Counted
import MyTestFiles.Proofs.CircBuffer.Ownership
import MyTestFiles.SortedArray.SortedArray
import MyTestFiles.Lib.Insertion
import MyTestFiles.Proofs.SortedArray.Insertion
import MyTestFiles.HashTable.HashTable
import MyTestFiles.Proofs.HashTable.Refinement
import MyTestFiles.InlinePower.Results
import MyTestFiles.Proofs.InlinePower.Debounce
import MyTestFiles.Proofs.Headers.Schedule
import MyTestFiles.Lib.Bpf
import MyTestFiles.Stun.Filters
import MyTestFiles.Proofs.Stun.Filters
import MyTestFiles.Lib.OnesComplement
import MyTestFiles.Stun.SanityCheck
import MyTestFiles.Proofs.Stun.SanityCheck
import MyTestFiles.PhyMan.Manager
import MyTestFiles.Proofs.PhyMan.ParamChange
import MyTestFiles.Proofs.Headers.Serial
import MyTestFiles.Proofs.VamTime.Pcr
import MyTestFiles.Proofs.VamTime.Division
import MyTestFiles.Proofs.InlinePower.RateLimit
import MyTestFiles.Proofs.InlinePower.Reduction
import MyTestFiles.Proofs.InlinePower.Cdp
import MyTestFiles.Proofs.InlinePower.OutOfControl
import MyTestFiles.Proofs.Bitlist.Contiguous
import MyTestFiles.Proofs.Bitlist.Copies
import MyTestFiles.Lib.NumberList
import MyTestFiles.Proofs.Bitlist.Parser
import MyTestFiles.Proofs.Bitlist.Grammar
import MyTestFiles.Lib.Paging
import MyTestFiles.Proofs.Bitlist.Printer
import MyTestFiles.Proofs.Bitlist.RoundTrip
import MyTestFiles.Proofs.SortedArray.Bounds
import MyTestFiles.Lib.Circle
import MyTestFiles.Proofs.TestWrap.DiffTime
import MyTestFiles.BitTest.BitBuffer
import MyTestFiles.Lib.BitField
import MyTestFiles.Proofs.BitTest.Fields
import MyTestFiles.Lib.MsbFirst
import MyTestFiles.Proofs.BitTest.Stream
import MyTestFiles.Proofs.HashTable.Sizing
import MyTestFiles.Lib.Runs
import MyTestFiles.Proofs.Bitlist.Dump
import MyTestFiles.Bitlist.Vector
import MyTestFiles.Proofs.Bitlist.Vector
import MyTestFiles.Proofs.Headers.Replicate
import MyTestFiles.IpRange.IpRange
import MyTestFiles.Lib.Laminar
import MyTestFiles.Proofs.IpRange.Blocks
import MyTestFiles.Proofs.IpRange.Split
import MyTestFiles.Proofs.IpRange.Join
import MyTestFiles.Multimer.Multimer
import MyTestFiles.Multimer.Table
import MyTestFiles.Proofs.Multimer.Refinement
import MyTestFiles.Proofs.Multimer.Simulation
import MyTestFiles.Proofs.Multimer.Runs
import MyTestFiles.Proofs.Multimer.Range
import MyTestFiles.Proofs.Multimer.Contract
import MyTestFiles.Proofs.Multimer.Expiry
import MyTestFiles.Netlink.LlMap
import MyTestFiles.Proofs.Netlink.RoundTrip
import MyTestFiles.Proofs.Netlink.AnyBytes
import MyTestFiles.Proofs.Netlink.Talk
import MyTestFiles.Proofs.Netlink.FromFile
import MyTestFiles.Proofs.Netlink.LlMap
import MyTestFiles.Lib.Lagged
import MyTestFiles.Lib.XorShift
import MyTestFiles.Mt19937.Genrand
import MyTestFiles.Proofs.Mt19937.Recurrence
import MyTestFiles.Proofs.Mt19937.Numbers
import MyTestFiles.Proofs.Mt19937.Runs
