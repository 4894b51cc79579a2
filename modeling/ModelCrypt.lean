import ModelCrypt.Basic
import ModelCrypt.Format
import ModelCrypt.Codec
import ModelCrypt.World
import ModelCrypt.SecureBuffer
import ModelCrypt.Primitives
import ModelCrypt.Calls
import ModelCrypt.Decrypt
import ModelCrypt.Container
import ModelCrypt.Reader
import ModelCrypt.DecryptRefines
import ModelCrypt.DecryptTrace
import ModelCrypt.Sample
import ModelCrypt.DecryptSafety
import ModelCrypt.Encrypt
import ModelCrypt.Api
import ModelCrypt.Writer
import ModelCrypt.EncryptRefines
import ModelCrypt.EncryptTrace
import ModelCrypt.EncryptSafety
import ModelCrypt.RoundTrip
import ModelCrypt.Authenticity
import ModelCrypt.Lib.Disk
import ModelCrypt.Os
import ModelCrypt.FileIo
import ModelCrypt.FileCalls
import ModelCrypt.Atomic
import ModelCrypt.FileRead
import ModelCrypt.FileSafety
import ModelCrypt.FileLive
import ModelCrypt.FileAgree
import ModelCrypt.Parameters
import ModelCrypt.EncryptSizes
import ModelCrypt.FormatSpec
import ModelCrypt.Conformance
import ModelCrypt.Lib.Mask
import ModelCrypt.ClearPart
import ModelCrypt.PlainReader
import ModelCrypt.HandOff
import ModelCrypt.OutParams
import ModelCrypt.OutOfMemory
import ModelCrypt.OtherKey
import ModelCrypt.FileRoundTrip
import ModelCrypt.Lib.Cut
import ModelCrypt.Slices
import ModelCrypt.Transfers
import ModelCrypt.Cli
import ModelCrypt.Numerals
import ModelCrypt.Lib.Owns
import ModelCrypt.Ownership
import ModelCrypt.KeySources
import ModelCrypt.LoadKey
import ModelCrypt.Keygen
import ModelCrypt.Wiping
import ModelCrypt.GeneratedKey
import ModelCrypt.Lib.Pool
import ModelCrypt.Lib.Drafts
import ModelCrypt.Processes
import ModelCrypt.SharedRead
import ModelCrypt.SharedWrite
import ModelCrypt.Linearization
import ModelCrypt.Genuine
import ModelCrypt.Pipeline
import ModelCrypt.CommandLine
import ModelCrypt.Tool
import ModelCrypt.ToolSafety
import ModelCrypt.Inspect
import ModelCrypt.Lib.Triple
import ModelCrypt.Descriptors
import ModelCrypt.Session
import ModelCrypt.ToolLive
import ModelCrypt.Hostile
import ModelCrypt.Lib.Bids
import ModelCrypt.KeyProcesses
import ModelCrypt.KeyRace
import ModelCrypt.Terminal
