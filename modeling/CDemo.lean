import CDemo.Lib.Run
import CDemo.Lib.Trace
import CDemo.Lib.LittleEndian
import CDemo.Lib.Words
import CDemo.Lib.Numeral
import CDemo.Lib.Memory
import CDemo.Lib.Blocks
import CDemo.Lib.LowestBit
import CDemo.Lib.LongDivision
import CDemo.Lib.Rounds
import CDemo.Lib.Simulation
import CDemo.Lib.Ledger
import CDemo.Co.Env
import CDemo.Co.New
import CDemo.Co.Sched
import CDemo.Co.Wait
import CDemo.Co.Demo
import CDemo.Co.Stack
import CDemo.Co.Life
import CDemo.Co.Swap
import CDemo.Co.Entry
import CDemo.Rpc.Buffer
import CDemo.Rpc.Parse
import CDemo.Rpc.Exchange
import CDemo.Rpc.Segments
import CDemo.Rpc.Grammar
import CDemo.Rpc.Demo
import CDemo.Rpc.Calls
import CDemo.Rpc.Service
import CDemo.Iocp.Echo
import CDemo.Iocp.Native
import CDemo.Iocp.Server
import CDemo.Iocp.ServerEx
import CDemo.TryCatch.Macros
import CDemo.TryCatch.Refine
import CDemo.SwissMap.Table
import CDemo.SwissMap.Layout
import CDemo.SwissMap.Probe
import CDemo.SwissMap.Store
import CDemo.SwissMap.Rehash
import CDemo.SwissMap.Refine
import CDemo.SwissMap.Ends
import CDemo.SwissMap.Contract
import CDemo.SwissMap.Growth
import CDemo.BigInt.Base
import CDemo.BigInt.Nat
import CDemo.BigInt.Bits
import CDemo.BigInt.AddSub
import CDemo.BigInt.InPlace
import CDemo.BigInt.FastPath
import CDemo.BigInt.Mul
import CDemo.BigInt.Schoolbook
import CDemo.BigInt.Karatsuba
import CDemo.BigInt.Product
import CDemo.BigInt.Square
import CDemo.BigInt.Div
import CDemo.BigInt.DivWord
import CDemo.BigInt.Knuth
import CDemo.BigInt.DivLarge
import CDemo.BigInt.Signed
import CDemo.BigInt.Storage
import CDemo.BigInt.Fibonacci
import CDemo.BigInt.DivRecursive
import CDemo.BigInt.DivBlocks
import CDemo.BigInt.Quotient
import CDemo.BigInt.Exp
import CDemo.BigInt.Conv
import CDemo.BigInt.ConvWords
import CDemo.BigInt.ConvTable
import CDemo.BigInt.ConvBits
import CDemo.BigInt.Text
import CDemo.Grpc.Server
