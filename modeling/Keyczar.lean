import Keyczar.Lib.Bytes
import Keyczar.Lib.Cbc
import Keyczar.Lib.Base64
import Keyczar.Lib.CipherStream
import Keyczar.Lib.Walk
import Keyczar.Primitives
import Keyczar.Python.Keyinfo
import Keyczar.Python.Util
import Keyczar.Python.Keys
import Keyczar.Python.Keyczar
import Keyczar.Python.GenericKeyczar
import Keyczar.Python.Session
import Keyczar.Python.Crypter
import Keyczar.Python.SignedBytes
import Keyczar.Python.Stream
import Keyczar.Python.StreamRuns
import Keyczar.Python.StreamAgreement
import Keyczar.Java.ByteBuffer
import Keyczar.Lib.Throwing
import Keyczar.Java.Keyczar
import Keyczar.Java.Crypter
import Keyczar.Java.CrypterRuns
import Keyczar.Java.Encrypter
import Keyczar.Format
import Keyczar.Java.AesRuns
import Keyczar.Java.EncrypterRuns
import Keyczar.Java.Tries
import Keyczar.Java.Collisions
import Keyczar.Java.Failures
import Keyczar.Cpp.Cuts
import Keyczar.Cpp.AESRuns
import Keyczar.Cpp.Keys
import Keyczar.Interop.Ciphertexts
import Keyczar.Python.Write
import Keyczar.Python.Reload
import Keyczar.Python.MemoryAgreement
import Keyczar.Cpp.Keyset
import Keyczar.Lib.Lifecycle
import Keyczar.Cpp.KeysetRuns
import Keyczar.Cpp.KeysetLifecycle
import Keyczar.Cpp.KeysetLoad
import Keyczar.Cpp.KeysetHistory
import Keyczar.Cpp.KeysetHashes
import Keyczar.Java.GenericKeyczar
import Keyczar.Java.GenericLoad
import Keyczar.Java.GenericRuns
import Keyczar.Java.GenericLifecycle
import Keyczar.Java.GenericReload
import Keyczar.Lib.Registry
import Keyczar.Python.GenericLifecycle
import Keyczar.Cpp.KeysetCounter
import Keyczar.Interop.KeysetMachines
import Keyczar.Python.StreamWriter
import Keyczar.Java.Signer
import Keyczar.Java.SignerRuns
import Keyczar.Java.SignedModes
import Keyczar.Cpp.Signer
import Keyczar.Interop.Signatures
import Keyczar.Java.StreamCache
import Keyczar.Lib.Relational
import Keyczar.Java.StreamPairs
import Keyczar.Java.StreamReuse
import Keyczar.Java.StreamCalls
import Keyczar.Lib.Base64Scan
import Keyczar.Python.StreamReader
import Keyczar.Python.StreamReaderRuns
import Keyczar.Python.AttachedBlobs
import Keyczar.Python.RsaKeys
import Keyczar.Python.HostileInput
import Keyczar.Java.AttachedParsing
import Keyczar.Cpp.Versions
import Keyczar.Python.PartialWrites
import Keyczar.Lib.TwosComplement
import Keyczar.Cpp.PublicKeys
import Keyczar.Java.Base64Coder
import Keyczar.Java.PublicKeys
import Keyczar.Python.PublicKeys
import Keyczar.Interop.Identifiers
import Keyczar.Python.SessionCrypters
import Keyczar.Python.SessionRuns
import Keyczar.Cpp.Base64W
import Keyczar.Cpp.Session
import Keyczar.Java.CrypterViews
import Keyczar.Java.EncrypterBuffers
import Keyczar.Java.BufferCalls
import Keyczar.Cpp.KeysetRefusals
import Keyczar.Cpp.AttachedSignatures
import Keyczar.Cpp.MetadataValues
import Keyczar.Java.VerifyingStreams
import Keyczar.Java.DsaSignatures
import Keyczar.Java.VerifierSearch
import Keyczar.Java.TimeoutSignatures
import Keyczar.Java.DetachedSignatures
import Keyczar.Java.SignatureViews
import Keyczar.Java.SignerBuffers
import Keyczar.Java.Base64Strings
import Keyczar.Java.Base64Decoding
import Keyczar.Java.Base64Encoding
import Keyczar.Java.LengthPrefixes
import Keyczar.Java.Pem
import Keyczar.Python.PackedArrays
import Keyczar.Python.StreamFlushes
import Keyczar.Python.Base64Writer
import Keyczar.Python.KeyTexts
import Keyczar.Python.Oaep
import Keyczar.Python.GeneratedKeys
import Keyczar.Python.PrimaryKeys
import Keyczar.Python.Base64Rewrapping
import Keyczar.Lib.Segments
import Keyczar.Lib.SortedSets
import Keyczar.Java.UriSigner
import Keyczar.Java.SignedUris
import Keyczar.Java.UriIntegrity
import Keyczar.Lib.DoubleAndAdd
import Keyczar.Lib.ShortWeierstrass
import Keyczar.Java.EcCore
import Keyczar.Java.EcPoints
import Keyczar.Java.EcSteps
import Keyczar.Java.EcMultiplication
import Keyczar.Java.EcEncoding
import Keyczar.Lib.Decimal
import Keyczar.Lib.Interrupted
import Keyczar.Cpp.StringUtil
import Keyczar.Cpp.Values
import Keyczar.Cpp.JSONReader
import Keyczar.Cpp.JSONWriter
import Keyczar.Cpp.JSONTexts
import Keyczar.Cpp.JSONRoundTrip
import Keyczar.Cpp.JSONAccepted
import Keyczar.Cpp.MetadataTexts
import Keyczar.Cpp.KeyTexts
import Keyczar.Cpp.SessionTexts
import Keyczar.Cpp.KeysetObservers
import Keyczar.Cpp.KeysetFiles
import Keyczar.Cpp.KeysetWrites
import Keyczar.Cpp.KeyczarTool
import Keyczar.Lib.Ecdsa
import Keyczar.Java.EcAffine
import Keyczar.Java.EcSignature
import Keyczar.Java.EcSignatures
import Keyczar.Java.EcSignatureSessions
import Keyczar.Java.Sessions
import Keyczar.Java.SessionCrypters
import Keyczar.Java.SignedSessions
import Keyczar.Interop.SessionKeys
import Keyczar.Interop.UnversionedSignatures
