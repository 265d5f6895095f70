import EryMysql.Decimal.Sub
import EryMysql.Decimal.MulTruncated
import EryMysql.Decimal.DivExact
import EryMysql.Decimal.BinTruncated
import EryMysql.Decimal.Integers
import EryMysql.Strings.HashSort
import EryMysql.Rpl.SeqNoCounter
import EryMysql.Rpl.StateFile
import EryMysql.Rpl.SlavePos
import EryMysql.Rpl.GtidWaitHandOver
import EryMysql.Mysys.HashRuns
import EryMysql.Mysys.TreeRuns
import EryMysql.Sql.DateAdd
import EryMysql.Sql.TimeCompare
import EryMysql.Sql.PartitionPruning
import EryMysql.Sql.LinearHash
import EryMysql.Sql.IndexMerge
import EryMysql.Sql.QuickRangeCover
import EryMysql.Mdl.Scheduling
import EryMysql.Mdl.Deadlock
import EryMysql.Maria.TrnSnapshot
import EryMysql.Sql.RolePrivileges
import EryMysql.Mysys.ThrLockCompat
import EryMysql.Mysys.WaitingThreads
import EryMysql.Mysys.DynCol
import EryMysql.Hp.Tables
import EryMysql.Csv.Chain
import EryMysql.Sequence.HaSeq
import EryMysql.Rpl.RowImage
import EryMysql.Sql.Walking
