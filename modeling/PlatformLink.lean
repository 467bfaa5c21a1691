import PlatformLink.FileTree
import PlatformLink.Main
import PlatformLink.Proofs.Grammar
import PlatformLink.Proofs.TextRoundTrip
import PlatformLink.Proofs.PoolGrammar
import PlatformLink.Proofs.InterningSpec
import PlatformLink.Proofs.AnnotationGrammar
import PlatformLink.Proofs.AddedConstants
import PlatformLink.Proofs.ForwardedBody
import PlatformLink.Proofs.ForwardingRoundTrip
import PlatformLink.Proofs.Idempotence
import PlatformLink.Proofs.WriteAfterRead
import PlatformLink.Proofs.PoolRequests
import PlatformLink.Proofs.UnlimitedPool
import PlatformLink.Proofs.WritingOutcome
import PlatformLink.Proofs.ForwardingOutcome
import PlatformLink.Proofs.ProducedClasses
import PlatformLink.Proofs.NormalForm
import PlatformLink.Proofs.SelfDelimiting
import PlatformLink.Proofs.ResolvedIndices
import PlatformLink.Proofs.PlanSpec
import PlatformLink.Proofs.Conservation
import PlatformLink.Proofs.PathText
import PlatformLink.Proofs.FileTreeSpec
import PlatformLink.Proofs.DirectoryCreation
import PlatformLink.Proofs.DirectoryOutput
import PlatformLink.Proofs.HelperClass
import PlatformLink.Proofs.SettledOutput
import PlatformLink.Proofs.ArchiveOutput
import PlatformLink.Proofs.RunTwice
import PlatformLink.Proofs.StoppedRun
import PlatformLink.Proofs.ReportedMethods
import PlatformLink.Proofs.EntryPaths
import PlatformLink.Proofs.ByteOrder
import PlatformLink.Proofs.EntryOrder
import PlatformLink.Proofs.FailingEdit
import PlatformLink.Proofs.BytecodeLayout
import PlatformLink.Proofs.BytecodeComposition
import PlatformLink.Proofs.GeneratedCode
import PlatformLink.Proofs.PoolRoundTrip
import PlatformLink.Proofs.AcceptanceWalks
import PlatformLink.Proofs.AcceptedText
import PlatformLink.Proofs.AcceptedPool
import PlatformLink.Proofs.AcceptedOutput
import PlatformLink.Proofs.TextForms
import PlatformLink.Proofs.BodyRoundTrip
import PlatformLink.Proofs.ElementValues
import PlatformLink.Proofs.DescriptorRoundTrip
import PlatformLink.Proofs.DescriptorGrammar
import PlatformLink.Proofs.ImplementationNames
import PlatformLink.Proofs.DirectoryContainment
import PlatformLink.Proofs.FrameSizes
