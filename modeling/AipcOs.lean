import AipcOs.StepCorrect
import AipcOs.HexText
import AipcOs.RspOut
import AipcOs.RspHandlers
import AipcOs.RspBreakpoints
import AipcOs.RspDispatch
import AipcOs.RspWire
import AipcOs.RspBuffer
import AipcOs.RspTransfer
import AipcOs.RspReply
import AipcOs.RspResume
import AipcOs.BreakpointTable
import AipcOs.BreakpointRun
import AipcOs.RspFeed
import AipcOs.StorageRead
import AipcOs.Ini
import AipcOs.Settings
import AipcOs.SettingsSave
import AipcOs.Payload
import AipcOs.Ecc
import AipcOs.Nand
import AipcOs.Pieces
import AipcOs.Histories
import AipcOs.UsbBoot
import AipcOs.Ch374
import AipcOs.Ecec
import AipcOs.MusbEp0
import AipcOs.Opennboot
import AipcOs.FatFile
import AipcOs.Gpio
import AipcOs.IniWrites
import AipcOs.Entries
import AipcOs.SettingsCanonical
import AipcOs.Launch
import AipcOs.MusbBulk
import AipcOs.StepSelf
import AipcOs.StructBytes
import AipcOs.EcecImages
import AipcOs.Ptb
import AipcOs.RomImage
import AipcOs.RomModule
import AipcOs.RomExport
import AipcOs.Autoboot
import AipcOs.ByteFrames
import AipcOs.ByteStores
import AipcOs.PeSections
import AipcOs.PeImage
import AipcOs.NandCopy
import AipcOs.NandDumpMin
import AipcOs.MmcDma
import AipcOs.L2Rng
import AipcOs.DacDivider
import AipcOs.DropOldest
import AipcOs.KeyPipeline
import AipcOs.RspRoundTrip
import AipcOs.WrapClock
import AipcOs.Timer
import AipcOs.OffsetTable
import AipcOs.Cecompress
import AipcOs.Terminated
import AipcOs.RspConsole
import AipcOs.TraceRestart
import AipcOs.MsbBits
import AipcOs.LzxBits
import AipcOs.PrefixCode
import AipcOs.LzxTable
import AipcOs.LzxTableDirect
import AipcOs.LzxTableTree
import AipcOs.LzxTableRoom
import AipcOs.LzxSymbols
import AipcOs.LzxLengths
import AipcOs.Lz77
import AipcOs.LzxBlock
import AipcOs.LzxTokens
import AipcOs.LzxFrame
import AipcOs.LzxCalls
import AipcOs.LzxDecoder
import AipcOs.LzxFormat
import AipcOs.LzxRoundTrip
import AipcOs.CecompressRom
import AipcOs.WordPattern
import AipcOs.CfwEboot
import AipcOs.CfwPlan
import AipcOs.CfwControl
import AipcOs.LogWindow
