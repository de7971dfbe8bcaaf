import Pico2wTfm.Support.Bytes
import Pico2wTfm.Support.Pkcs7
import Pico2wTfm.Support.Cbc
import Pico2wTfm.Support.Footprint
import Pico2wTfm.Support.Stretch
import Pico2wTfm.Support.Ieee
import Pico2wTfm.Support.Run
import Pico2wTfm.Support.Argmax
import Pico2wTfm.Support.FirstFit
import Pico2wTfm.Support.Pattern
import Pico2wTfm.Support.Replace
import Pico2wTfm.TinyMaix.Machine
import Pico2wTfm.TinyMaix.Arch
import Pico2wTfm.TinyMaix.Conv
import Pico2wTfm.TinyMaix.Layers
import Pico2wTfm.TinyMaix.Engine
import Pico2wTfm.TinyMaix.Extents
import Pico2wTfm.TinyMaix.Walk
import Pico2wTfm.Tools.Encryptor
import Pico2wTfm.Tools.Header
import Pico2wTfm.Tools.Files
import Pico2wTfm.Partition.Psa
import Pico2wTfm.Partition.Decrypt
import Pico2wTfm.Partition.TestImage
import Pico2wTfm.Partition.Service
import Pico2wTfm.Partition.Rounds
import Pico2wTfm.Partition.Inference
import Pico2wTfm.Partition.Package
import Pico2wTfm.Results.Provisioning
import Pico2wTfm.Results.LoadGate
import Pico2wTfm.Results.Isolation
import Pico2wTfm.Results.Bounds
import Pico2wTfm.Nsid.Manager
import Pico2wTfm.Nsid.Shim
import Pico2wTfm.Echo.Service
import Pico2wTfm.Echo.Client
import Pico2wTfm.Results.EchoEndToEnd
import Pico2wTfm.Results.Discipline
import Pico2wTfm.Results.Resources
import Pico2wTfm.Results.SizeLimits
import Pico2wTfm.Results.ThreadIdentity
import Pico2wTfm.Results.Scratch
import Pico2wTfm.Results.HeaderParsing
import Pico2wTfm.Results.ToolFiles
import Pico2wTfm.Models.MnistValidQ
import Pico2wTfm.Models.MnistLayers
import Pico2wTfm.Partition.Shipped
import Pico2wTfm.Partition.Client
import Pico2wTfm.Support.Ends
import Pico2wTfm.TinyMaix.ConvValues
import Pico2wTfm.Results.ClientImages
import Pico2wTfm.Results.NoOverflow
import Pico2wTfm.Results.Saturation
import Pico2wTfm.Results.HistoryIndependence
import Pico2wTfm.TinyMaix.LayerValues
import Pico2wTfm.TinyMaix.Ranges
import Pico2wTfm.Partition.ShippedLayers
import Pico2wTfm.Partition.ShippedRun
import Pico2wTfm.Partition.ShippedClass
import Pico2wTfm.TinyMaix.OutputValues
import Pico2wTfm.TinyMaix.Calls
import Pico2wTfm.Results.GeneratedSource
import Pico2wTfm.Results.OfflineVerifier
import Pico2wTfm.Results.ContextLifetime
import Pico2wTfm.Results.LogText
import Pico2wTfm.Results.Classification
import Pico2wTfm.Results.Tampering
import Pico2wTfm.TinyMaix.ConvPaths
import Pico2wTfm.Support.Dataflow
import Pico2wTfm.TinyMaix.Network
import Pico2wTfm.Results.Networks
import Pico2wTfm.Results.KeySecrecy
import Pico2wTfm.Results.Deployment
import Pico2wTfm.Tools.Uf2
import Pico2wTfm.Support.Placement
import Pico2wTfm.Results.Uf2Images
import Pico2wTfm.Results.Uf2RoundTrip
import Pico2wTfm.Results.HexImage
import Pico2wTfm.Results.Contract
import Pico2wTfm.Nspe.TinymaixTest
import Pico2wTfm.Results.TestSuite
import Pico2wTfm.Results.Flash
