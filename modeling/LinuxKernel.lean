import LinuxKernel.Foundation.WordSet
import LinuxKernel.Foundation.ExceptRules
import LinuxKernel.Foundation.ExtentMap
import LinuxKernel.Creds.Types
import LinuxKernel.Creds.Capable
import LinuxKernel.Creds.IdMap
import LinuxKernel.Creds.IdMapSpec
import LinuxKernel.Creds.MapWrite
import LinuxKernel.Creds.MapWriteSpec
import LinuxKernel.Creds.SetId
import LinuxKernel.Creds.SetIdSpec
import LinuxKernel.Creds.Exec
import LinuxKernel.Creds.Calls
import LinuxKernel.Creds.System
import LinuxKernel.Foundation.FunArray
import LinuxKernel.Creds.Groups
import LinuxKernel.Creds.GroupsSpec
import LinuxKernel.Foundation.OnesComplement
import LinuxKernel.Net.Checksum
import LinuxKernel.Net.ChecksumSpec
import LinuxKernel.Foundation.RangeChain
import LinuxKernel.Net.IpFragment
import LinuxKernel.Net.IpFragmentSpec
import LinuxKernel.Net.Nlattr
import LinuxKernel.Net.NlattrSpec
import LinuxKernel.Foundation.Ring
import LinuxKernel.Lib.Kfifo
import LinuxKernel.Lib.KfifoSpec
import LinuxKernel.Lib.KfifoRecord
import LinuxKernel.Lib.KfifoUser
import LinuxKernel.Lib.Ctype
import LinuxKernel.Foundation.PrefixFunction
import LinuxKernel.Lib.TextSearch
import LinuxKernel.Lib.TsBm
import LinuxKernel.Lib.TsKmp
import LinuxKernel.Foundation.GuardedWrite
import LinuxKernel.Printf.FormatDecode
import LinuxKernel.Printf.Vsprintf
import LinuxKernel.Printf.VsprintfSpec
import LinuxKernel.Mm.Memblock
import LinuxKernel.Mm.MemblockWalk
import LinuxKernel.Mm.MemblockSpec
import LinuxKernel.Mm.MemblockBoot
import LinuxKernel.Foundation.Bitmap
import LinuxKernel.Foundation.Digits
import LinuxKernel.Lib.Idr
import LinuxKernel.Lib.IdrTree
import LinuxKernel.Lib.IdrAlloc
import LinuxKernel.Lib.IdrSpec
import LinuxKernel.Pid.Pidmap
import LinuxKernel.Pid.PidmapSpec
import LinuxKernel.Lib.Kstrtox
import LinuxKernel.Lib.KstrtoxSpec
import LinuxKernel.Lib.Cmdline
import LinuxKernel.Lib.FlexArray
import LinuxKernel.Lib.FlexArraySpec
import LinuxKernel.Foundation.BuddyBlock
import LinuxKernel.Foundation.Reciprocal
import LinuxKernel.Foundation.CircularList
import LinuxKernel.Lib.ListHead
import LinuxKernel.Lib.Plist
import LinuxKernel.Lib.PlistGroups
import LinuxKernel.Lib.PlistSpec
import LinuxKernel.Mm.PageAlloc
import LinuxKernel.Mm.BuddyInv
import LinuxKernel.Mm.BuddyFree
import LinuxKernel.Mm.BuddyAlloc
import LinuxKernel.Mm.BuddySystem
import LinuxKernel.Mm.Vmalloc
import LinuxKernel.Mm.VmallocSpec
import LinuxKernel.Lib.IdrNext
import LinuxKernel.Lib.Sort
import LinuxKernel.Lib.Range
import LinuxKernel.Foundation.StableMerge
import LinuxKernel.Lib.ListSort
import LinuxKernel.Lib.ListSortSpec
import LinuxKernel.Lib.BitmapFormat
import LinuxKernel.Foundation.LinkedTree
import LinuxKernel.Lib.Rbtree
import LinuxKernel.Lib.RbtreeIter
import LinuxKernel.Lib.RadixTree
import LinuxKernel.Lib.RadixTreeIter
import LinuxKernel.Lib.RadixTreeSpec
import LinuxKernel.Lib.RadixTreeLocate
import LinuxKernel.Foundation.BinaryHeap
import LinuxKernel.Lib.PrioHeap
import LinuxKernel.Lib.BitmapShift
import LinuxKernel.Lib.BitmapArea
import LinuxKernel.Foundation.Rank
import LinuxKernel.Lib.BitmapRemap
import LinuxKernel.Lib.GenAlloc
import LinuxKernel.Foundation.Decimal
import LinuxKernel.Printf.PutDecSpec
import LinuxKernel.Lib.StringHelpers
import LinuxKernel.Lib.Parser
import LinuxKernel.Params.ParseArgs
import LinuxKernel.Foundation.ForEach
import LinuxKernel.Mm.MemblockFree
import LinuxKernel.Mm.MemblockFreeSpec
import LinuxKernel.Mm.MemblockFind
import LinuxKernel.Mm.MemblockFindSpec
import LinuxKernel.Mm.MemblockSearchSpec
import LinuxKernel.Mm.MemblockLimitSpec
import LinuxKernel.Mm.PageIsolate
import LinuxKernel.Resource.Resource
import LinuxKernel.Resource.Request
import LinuxKernel.Resource.Split
import LinuxKernel.Resource.Region
import LinuxKernel.Resource.Allocate
import LinuxKernel.Lib.Gcd
import LinuxKernel.Lib.IntSqrt
import LinuxKernel.Time.Mktime
import LinuxKernel.Foundation.TopBit
import LinuxKernel.Time.ApplySlack
import LinuxKernel.Lib.Div64
import LinuxKernel.Lib.Rational
import LinuxKernel.Lib.FindNextBit
import LinuxKernel.Lib.DynamicQueueLimits
import LinuxKernel.Time.Jiffies
import LinuxKernel.Foundation.Lfsr
import LinuxKernel.Lib.Crc32
import LinuxKernel.Lib.Crc32Table
import LinuxKernel.Lib.Crc32Spec
import LinuxKernel.Lib.Crc32BeSpec
import LinuxKernel.Lib.Crc32Usage
