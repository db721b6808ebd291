import LayerMount.Abi.HandleSafety
import LayerMount.Listing
import LayerMount.Lib.PathTree
import LayerMount.Engine
import LayerMount.CopyUp
import LayerMount.Delete
import LayerMount.Rename
import LayerMount.Handles
import LayerMount.TreeView
import LayerMount.ViewLookup
import LayerMount.ViewFrame
import LayerMount.ViewChange
import LayerMount.ViewCopy
import LayerMount.Raise
import LayerMount.CopyUpView
import LayerMount.ViewTree
import LayerMount.MarkersView
import LayerMount.DeleteView
import LayerMount.FailedDelete
import LayerMount.VisibleAncestors
import LayerMount.CacheRace
import LayerMount.Lib.Json
import LayerMount.Lib.Unicode
import LayerMount.WideText
import LayerMount.MetadataStore
import LayerMount.CopyUpReservation
import LayerMount.CopyUpProgress
import LayerMount.CopyUpEffect
import LayerMount.Image.HostTree
import LayerMount.Image.HostWrites
import LayerMount.Image.ArchivePath
import LayerMount.Lib.Bytes
import LayerMount.Image.Archive
import LayerMount.Image.Pack
import LayerMount.Image.ImageFile
import LayerMount.Image.LayerImageManager
import LayerMount.Image.PackedArchive
import LayerMount.Image.UnpackItems
import LayerMount.Image.ImageRead
import LayerMount.Image.RoundTrip
import LayerMount.Image.Placed
import LayerMount.Image.PlacedMarkers
import LayerMount.Image.Differential
import LayerMount.Image.Unpackable
import LayerMount.Image.HostLayer
import LayerMount.Image.HostView
import LayerMount.Image.DifferentialView
import LayerMount.Image.DifferentialRoles
import LayerMount.Image.ArchiveReader
import LayerMount.Abi.EventEmitter
import LayerMount.Abi.MountLifetime
import LayerMount.MarkerPaths
import LayerMount.SidecarMove
import LayerMount.CompletedDelete
import LayerMount.CreateView
import LayerMount.CompletedCreate
import LayerMount.Image.OpenedPaths
import LayerMount.Image.UnpackPaths
import LayerMount.CreateLookup
import LayerMount.OpenRead
import LayerMount.AccessLog
import LayerMount.MergeSteps
import LayerMount.AccessRules
import LayerMount.CsvExport
import LayerMount.ConstrainedWrite
import LayerMount.StreamPath
import LayerMount.HoleCopy
import LayerMount.ExtendedAttributes
import LayerMount.ViewPath
import LayerMount.Image.DocumentedImage
import LayerMount.Image.DocumentedTree
import LayerMount.RuleLoading
import LayerMount.Vhd.Manifest
import LayerMount.Vhd.ManifestLoading
import LayerMount.Vhd.SavedManifest
import LayerMount.Abi.SecurityDescriptor
import LayerMount.Image.Utf8Names
import LayerMount.CacheCalls
import LayerMount.AncestryPredicates
import LayerMount.LinkDetection
import LayerMount.WrittenMarkers
import LayerMount.HostPath
import LayerMount.Lib.Links
import LayerMount.HostTree
import LayerMount.WorkDirectory
import LayerMount.StagingArea
import LayerMount.CompletedRename
import LayerMount.IsolatedSteps
import LayerMount.ConfinedCalls
import LayerMount.KindView
import LayerMount.Lib.Namespace
import LayerMount.KindSteps
import LayerMount.NamespaceCalls
import LayerMount.NamespaceRuns
import LayerMount.LinkedLayers
import LayerMount.LogicalView
import LayerMount.MutationFrames
import LayerMount.RecordsFollow
