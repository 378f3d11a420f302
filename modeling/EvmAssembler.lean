import EvmAssembler.Bytecode.Scan
import EvmAssembler.Main
import EvmAssembler.Opcode.Lookup
import EvmAssembler.Opcode.Table
import EvmAssembler.Proofs.Assembly.Agreement
import EvmAssembler.Proofs.Assembly.FirstPass
import EvmAssembler.Proofs.Assembly.LabelledJumps
import EvmAssembler.Proofs.Assembly.Outcome
import EvmAssembler.Proofs.Assembly.PushLiteral
import EvmAssembler.Proofs.Assembly.Reach
import EvmAssembler.Proofs.Assembly.Relocation
import EvmAssembler.Proofs.Assembly.RoundTrip
import EvmAssembler.Proofs.Assembly.Scoping
import EvmAssembler.Proofs.Bytecode.Disassembly
import EvmAssembler.Proofs.Bytecode.JumpDestinations
import EvmAssembler.Proofs.Bytecode.StaticJumps
import EvmAssembler.Proofs.CommandLine.Containment
import EvmAssembler.Proofs.CommandLine.FileEffects
import EvmAssembler.Proofs.CommandLine.LineEnds
import EvmAssembler.Proofs.CommandLine.Outputs
import EvmAssembler.Proofs.Encoding.Traversals
import EvmAssembler.Proofs.Equality.Program
import EvmAssembler.Proofs.FileTree.Changes
import EvmAssembler.Proofs.Immediate.PushInt
import EvmAssembler.Proofs.Navigation.Annotations
import EvmAssembler.Proofs.Navigation.Landing
import EvmAssembler.Proofs.Navigation.Listing
import EvmAssembler.Proofs.Navigation.Pieces
import EvmAssembler.Proofs.Navigation.WellTyped
import EvmAssembler.Proofs.Opcode.Table
import EvmAssembler.Proofs.Source.Cover
import EvmAssembler.Proofs.Source.Lines
