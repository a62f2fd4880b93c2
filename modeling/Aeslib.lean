import Aeslib.AesArm
import Aeslib.AesNi
import Aeslib.AesRiscv
import Aeslib.AesSoft
import Aeslib.BlockPermutation
import Aeslib.BridgeFips180
import Aeslib.BridgeFips197
import Aeslib.BridgeGcm
import Aeslib.BridgeGcmDecryption
import Aeslib.BridgeGf128
import Aeslib.BridgeIsa
import Aeslib.BridgeRfc2104
import Aeslib.BridgeRfc8018
import Aeslib.ByteView
import Aeslib.CApi
import Aeslib.CApiContracts
import Aeslib.CApiExceptions
import Aeslib.CApiOutputs
import Aeslib.CApiRuns
import Aeslib.Container
import Aeslib.ContainerFiles
import Aeslib.ContainerLaws
import Aeslib.Ctr
import Aeslib.CtrLaws
import Aeslib.Dispatch
import Aeslib.FileEffects
import Aeslib.FileFormats
import Aeslib.FillRandom
import Aeslib.Gcm
import Aeslib.GcmBudget
import Aeslib.Ghash
import Aeslib.Harness
import Aeslib.Key
import Aeslib.KeyCoreDumps
import Aeslib.KeyCustody
import Aeslib.KeyFile
import Aeslib.KeyFileDelivery
import Aeslib.KeyFileExact
import Aeslib.KeyObjects
import Aeslib.KeyPages
import Aeslib.KeyStorage
import Aeslib.KeyStorageBuffers
import Aeslib.KeyStorageRoundTrip
import Aeslib.KeyStorageRuns
import Aeslib.LibAdaptive
import Aeslib.LibBinaryField
import Aeslib.LibBytes
import Aeslib.LibContract
import Aeslib.LibGalois
import Aeslib.LibIsa
import Aeslib.LibLeakage
import Aeslib.LibOwnership
import Aeslib.LibPolyHash
import Aeslib.LibProg
import Aeslib.LibProgParts
import Aeslib.LibRequests
import Aeslib.LibScope
import Aeslib.LibStorage
import Aeslib.LibraryRuns
import Aeslib.LogicalKey
import Aeslib.MachineIndependence
import Aeslib.MessageExchange
import Aeslib.ObservedAes
import Aeslib.ObservedGcm
import Aeslib.Operations
import Aeslib.Os
import Aeslib.PassphraseSeparation
import Aeslib.SecurityForgery
import Aeslib.SecurityGcm
import Aeslib.SecurityGhash
import Aeslib.SecuritySession
import Aeslib.Sha256
import Aeslib.StandardFips180
import Aeslib.StandardFips197
import Aeslib.StandardRfc2104
import Aeslib.StandardRfc8018
import Aeslib.StandardSp80038d
import Aeslib.TruncatedFiles
import Aeslib.WriteCalls
import Aeslib.WriteFile
