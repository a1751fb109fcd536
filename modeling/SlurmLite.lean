import SlurmLite.Base.Text
import SlurmLite.Base.CLib
import SlurmLite.Base.Buffer
import SlurmLite.Base.Run
import SlurmLite.Base.Sort
import SlurmLite.Base.Bytes
import SlurmLite.Base.Deal
import SlurmLite.Base.Files
import SlurmLite.Base.Words
import SlurmLite.Base.LastStep
import SlurmLite.Base.Lines
import SlurmLite.Base.Gather
import SlurmLite.Base.Best
import SlurmLite.Base.MapM
import SlurmLite.Base.NestedSets
import SlurmLite.Base.Table
import SlurmLite.Base.Sums
import SlurmLite.Base.Chains
import SlurmLite.Base.Search
import SlurmLite.Base.SqlValues
import SlurmLite.Base.SqlItems
import SlurmLite.Base.SqlParts
import SlurmLite.Base.SqlRows
import SlurmLite.Base.Assoc
import SlurmLite.Base.Stream
import SlurmLite.Hostlist.Range
import SlurmLite.Hostlist.Array
import SlurmLite.Hostlist.Parse
import SlurmLite.Hostlist.Build
import SlurmLite.Hostlist.Push
import SlurmLite.Hostlist.Print
import SlurmLite.Hostlist.Deranged
import SlurmLite.Hostlist.Ops
import SlurmLite.Hostlist.Shift
import SlurmLite.Hostlist.Groups
import SlurmLite.Hostlist.Invariant
import SlurmLite.Hostlist.RoundTrip
import SlurmLite.Hostlist.Find
import SlurmLite.Hostlist.Order
import SlurmLite.Hostlist.Compare
import SlurmLite.Hostlist.Uniq
import SlurmLite.Hostlist.RangeText
import SlurmLite.Hostlist.Tokens
import SlurmLite.Hostlist.Ends
import SlurmLite.Hostlist.Iterate
import SlurmLite.Hostlist.Traverse
import SlurmLite.Hostlist.Coalesce
import SlurmLite.Hostlist.Blocks
import SlurmLite.Hostlist.Settle
import SlurmLite.Hostlist.Sorted
import SlurmLite.Bitstring.Ops
import SlurmLite.Bitstring.Canonical
import SlurmLite.Bitstring.Format
import SlurmLite.Bitstring.Move
import SlurmLite.Bitstring.Search
import SlurmLite.Bitstring.Masks
import SlurmLite.ParseTime
import SlurmLite.TimeForms
import SlurmLite.ParseDate
import SlurmLite.ParseReads
import SlurmLite.CompatPwdgrp
import SlurmLite.CompatPwdgrpParse
import SlurmLite.Sacct.NumUnit
import SlurmLite.Sacct.Print
import SlurmLite.Sacct.Columns
import SlurmLite.Sacct.OptionLists
import SlurmLite.Sacct.StepList
import SlurmLite.Sacct.FieldSelection
import SlurmLite.JobCondLimits
import SlurmLite.PrivateJobs
import SlurmLite.JobcompFiletxt
import SlurmLite.JobcompFiletxtLines
import SlurmLite.Forward.Threads
import SlurmLite.SelectJobRes
import SlurmLite.SelectJobResPack
import SlurmLite.SelectJobResOffset
import SlurmLite.SelectJobRow
import SlurmLite.Pack
import SlurmLite.PackBounds
import SlurmLite.JobacctCommon
import SlurmLite.JobacctAggregate
import SlurmLite.JobacctPack
import SlurmLite.Sacct.JobSums
import SlurmLite.Sacct.StepMaxima
import SlurmLite.AcctStorage.JobCond
import SlurmLite.AcctStorage.NullForms
import SlurmLite.AcctStorage.Records
import SlurmLite.AcctStorage.SetupLimits
import SlurmLite.StepLayout
import SlurmLite.StepLayoutErrors
import SlurmLite.TaskLayout
import SlurmLite.TaskLayoutHostfile
import SlurmLite.JobacctProcess
import SlurmLite.JobElapsed
import SlurmLite.JobPairs
import SlurmLite.NodeFilter
import SlurmLite.JobSteps
import SlurmLite.JobTables
import SlurmLite.EventTable
import SlurmLite.ResvTable
import SlurmLite.LastRan
import SlurmLite.Rollup.Hour
import SlurmLite.Rollup.Cluster
import SlurmLite.Rollup.Assoc
import SlurmLite.Rollup.Windows
import SlurmLite.Rollup.Reserved
import SlurmLite.Rollup.Safe
import SlurmLite.ListIterator
import SlurmLite.AssocMgr.QosUpdate
import SlurmLite.AssocMgr.Update
import SlurmLite.AssocMgr.FillIn
import SlurmLite.AssocMgr.Tree
import SlurmLite.AssocMgr.Usage
import SlurmLite.AssocMgr.UsageFile
import SlurmLite.AssocMgr.StateFile
import SlurmLite.AssocMgr.Parents
import SlurmLite.AssocMgr.Shares
import SlurmLite.AssocMgr.ShareRuns
import SlurmLite.AssocTable.Move
import SlurmLite.AssocTable.Modify
import SlurmLite.AssocTable.Remove
import SlurmLite.AssocTable.Add
import SlurmLite.AssocTable.Coordinators
import SlurmLite.AssocTable.Get
import SlurmLite.AssocTable.Qos
import SlurmLite.AssocTable.Push
import SlurmLite.AssocTable.Quotes
import SlurmLite.Archive.Write
import SlurmLite.Archive.Content
import SlurmLite.Archive.Purge
import SlurmLite.Archive.EachByte
import SlurmLite.Archive.Tuple
import SlurmLite.Archive.Load
import SlurmLite.Dbd.StateFile
import SlurmLite.Dbd.Agent
import SlurmLite.Cred.Context
import SlurmLite.Cred.Replay
import SlurmLite.Cred.Revocation
import SlurmLite.Cred.Pack
