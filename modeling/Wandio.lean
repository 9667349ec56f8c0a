import Wandio.Create.ApiTheorems
import Wandio.Create.DetectionTheorems
import Wandio.Create.RemoteTheorems
import Wandio.Create.RingTheorems
import Wandio.Create.ThreadedTheorems
import Wandio.Create.WriteStackTheorems
import Wandio.CurlHelper.CountTheorems
import Wandio.Environment.OptionTheorems
import Wandio.HttpReader.FailedSeekTheorems
import Wandio.HttpReader.FailureTheorems
import Wandio.HttpReader.HeaderTheorems
import Wandio.Jsmn.NestingTheorems
import Wandio.Keystone.InsideTheorems
import Wandio.Keystone.RequestTheorems
import Wandio.LineReader.LineTheorems
import Wandio.Lz4Writer.StageTheorems
import Wandio.LzoWriter.AssertTheorems
import Wandio.LzoWriter.FailureTheorems
import Wandio.LzoWriter.ParseTheorems
import Wandio.PeekReader.BoundsTheorems
import Wandio.PeekReader.ErrorTheorems
import Wandio.PeekReader.SeekTheorems
import Wandio.QatReader.BufferTheorems
import Wandio.QatWriter.CloseTheorems
import Wandio.QatWriter.WriteTheorems
import Wandio.Readers.KeptTheorems
import Wandio.Readers.WindowTheorems
import Wandio.StdioWriter.AccumulateTheorems
import Wandio.StdioWriter.LengthTheorems
import Wandio.StdioWriter.ShortTheorems
import Wandio.StreamReader.ErrorTheorems
import Wandio.StreamReader.LzmaTheorems
import Wandio.StreamReader.TruncationTheorems
import Wandio.StreamWriter.BzCloseTheorems
import Wandio.StreamWriter.FlushTheorems
import Wandio.SwiftReader.OpenTheorems
import Wandio.ThreadReader.DeliveryTheorems
import Wandio.ThreadReader.ProgressTheorems
import Wandio.ThreadReader.TerminationTheorems
import Wandio.ThreadWriter.ErrorTheorems
import Wandio.ThreadWriter.FlushTheorems
import Wandio.ThreadWriter.ProgressTheorems
import Wandio.ThreadWriter.TerminationTheorems
import Wandio.Wandiocat.ConcatenateTheorems
import Wandio.Writers.LengthTheorems
import Wandio.Writers.ReturnTheorems
import Wandio.ZstdLz4Reader.HeldTheorems
import Wandio.ZstdWriter.AcceptTheorems
