import CRuby.Lib.Probing
import CRuby.Lib.FullPeriod
import CRuby.St.Table
import CRuby.St.Find
import CRuby.St.Ops
import CRuby.St.Inv
import CRuby.St.Search
import CRuby.St.Writes
import CRuby.St.Rebuild
import CRuby.St.Preserve
import CRuby.St.Reachable
import CRuby.St.Divergence
import CRuby.St.Bulk
import CRuby.Lib.TwosComplement
import CRuby.Num.Fixnum
import CRuby.Num.FixArith
import CRuby.Lib.BitFields
import CRuby.Util.Digits
import CRuby.Pack.Encode
import CRuby.Pack.Decode
import CRuby.Pack.Groups
import CRuby.Pack.RoundTrip
import CRuby.Num.ParseInt
import CRuby.Lib.BinaryPow
import CRuby.Num.PowMod
import CRuby.Lib.Binary64
import CRuby.Lib.Binary64Bits
import CRuby.Num.Isqrt
import CRuby.Num.FloatCmp
import CRuby.Lib.Chain
import CRuby.Lib.Except
import CRuby.Lib.Select
import CRuby.Sync.Mutex
import CRuby.Sync.MutexInv
import CRuby.Sync.MutexSafety
import CRuby.Lib.Gregorian
import CRuby.Time.Gmtime
import CRuby.Time.GmtimeSpec
import CRuby.Num.IntPow
import CRuby.Num.IntRound
import CRuby.Util.Strtoul
import CRuby.Lib.ByteWord
import CRuby.St.Hash
import CRuby.Ary.Rotate
import CRuby.Ary.Sample
import CRuby.Ary.SampleIndex
import CRuby.Ary.Splice
import CRuby.Ary.Flatten
import CRuby.Range.Bsearch
import CRuby.Enum.Nmin
import CRuby.Pack.Utf8
import CRuby.Pack.Base64Strict
import CRuby.Str.Succ
import CRuby.Str.SuccOdometer
import CRuby.Time.AddOffset
import CRuby.Num.IntegerPack
import CRuby.Num.IntegerPackSpec
import CRuby.Pack.Ber
import CRuby.Enc.Encoding
import CRuby.Enc.Utf8
import CRuby.Enc.Utf32
import CRuby.Str.TrNext
import CRuby.Str.TrTable
import CRuby.Str.TrTrans
import CRuby.Str.Memsearch
import CRuby.Num.FloRound
import CRuby.Num.Rationalize
import CRuby.Num.CstrToDbl
import CRuby.Sym.IdTable
import CRuby.Num.Big2dbl
import CRuby.Lib.Fifo
import CRuby.Sync.Queue
import CRuby.Sync.QueueSpec
import CRuby.Num.ComplexParse
import CRuby.Num.ComplexToS
import CRuby.Lib.ByteLanes
import CRuby.Str.Subpos
import CRuby.Str.SubposWords
import CRuby.Str.SubposSpec
import CRuby.Lib.OrdMap
import CRuby.St.View
import CRuby.St.Refine
import CRuby.Lib.WordBytes
import CRuby.Marshal.Long
import CRuby.Marshal.Integer
import CRuby.Marshal.Graph
import CRuby.Marshal.GraphRoundTrip
