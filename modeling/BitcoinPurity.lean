import BitcoinPurity.Chain.FailureRoots
import BitcoinPurity.Chain.Independence
import BitcoinPurity.Chain.ParkedRoots
import BitcoinPurity.Chain.SkipList
import BitcoinPurity.CheckQueue.Verdict
import BitcoinPurity.Coins.Compressor
import BitcoinPurity.Consensus.Asert
import BitcoinPurity.Consensus.BlockProof
import BitcoinPurity.Consensus.PartialMerkle
import BitcoinPurity.HeadersSync.Honest
import BitcoinPurity.Index.Accounting
import BitcoinPurity.Index.Reorganization
import BitcoinPurity.Kernel.DownloadUri
import BitcoinPurity.Kernel.Manifest
import BitcoinPurity.Kernel.SoftwareVersion
import BitcoinPurity.Node.BumpFees
import BitcoinPurity.Script.ReducedData
import BitcoinPurity.Script.ConditionStack
import BitcoinPurity.Script.ScriptNum
import BitcoinPurity.TxRequest.Calls
import BitcoinPurity.Util.Inflate
import BitcoinPurity.Util.ZipExtract
import BitcoinPurity.Validation.InputScripts
import BitcoinPurity.Validation.Replay
import BitcoinPurity.Versionbits.Window
