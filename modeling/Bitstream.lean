import Bitstream.Foundation.BitString
import Bitstream.Foundation.BitQueue
import Bitstream.Foundation.CheckedEvaluation
import Bitstream.Foundation.CallTrace
import Bitstream.Header.Reader
import Bitstream.Header.Writer
import Bitstream.Reading.Cursor
import Bitstream.Reading.Tracking
import Bitstream.Reading.CursorRefinement
import Bitstream.Reading.SafetyInvariant
import Bitstream.Writing.BothOrders
import Bitstream.Writing.Drain
import Bitstream.Writing.Appending
import Bitstream.Writing.Sink
import Bitstream.Writing.OutputRefinement
import Bitstream.Writing.OverflowFreeze
import Bitstream.Writing.ShiftBounds
import Bitstream.Format.FastPath
import Bitstream.Format.Script
import Bitstream.Format.RoundTrip
import Bitstream.Format.Reencoding
import Bitstream.Foundation.WhileLoop
import Bitstream.Reading.Refilling
import Bitstream.Writing.BulkWriting
import Bitstream.Writing.Draining
import Bitstream.Reading.BitsLeft
import Bitstream.Reading.Skipping
import Bitstream.Reading.BulkReading
import Bitstream.Foundation.BitReversal
import Bitstream.Reading.Mirror
import Bitstream.Writing.Mirror
import Bitstream.Format.Mirror
import Bitstream.Foundation.AccessSafety
import Bitstream.Writing.AppendOnly
import Bitstream.Reading.Interleaving
import Bitstream.Writing.MixedOrders
import Bitstream.Reading.MixedOrders
import Bitstream.Foundation.CodeTable
import Bitstream.Reading.BitSource
import Bitstream.Writing.FieldWriting
import Bitstream.Examples.Codes
import Bitstream.Examples.TextDecoding
import Bitstream.Examples.HuffmanDecode
import Bitstream.Examples.FastDecode
import Bitstream.Examples.DeflateCodes
import Bitstream.Examples.DeflateBlock
import Bitstream.Foundation.FixedFormat
import Bitstream.Format.Records
import Bitstream.Examples.SensorProtocol
import Bitstream.Examples.DecodeMp3Header
