import AnchorLowering.Main
import AnchorLowering.Proofs.AliasScope
import AnchorLowering.Proofs.CallFacts
import AnchorLowering.Proofs.CollapsedBlanks
import AnchorLowering.Proofs.FailureContainment
import AnchorLowering.Proofs.FirstBinding
import AnchorLowering.Proofs.FixedMessage
import AnchorLowering.Proofs.LaidOutText
import AnchorLowering.Proofs.LoadedProgram
import AnchorLowering.Proofs.MarkerReading
import AnchorLowering.Proofs.NestedPipeline
import AnchorLowering.Proofs.OperationOffsets
import AnchorLowering.Proofs.RecordFrame
import AnchorLowering.Proofs.RecordTable
import AnchorLowering.Proofs.SequenceContainment
import AnchorLowering.Proofs.SignerSeeds
import AnchorLowering.Proofs.SurvivingCall
import AnchorLowering.Proofs.TargetNames
import AnchorLowering.Proofs.WrittenCall
