import MpactSim.Asm.Labels
import MpactSim.Asm.DataDirectives
import MpactSim.Memory.AtomicOperations
import MpactSim.Decoder.Reassemble
import MpactSim.Decoder.Specialization
import MpactSim.Decoder.SpecializedLeaf
import MpactSim.Decoder.ReplicatedCorrect
import MpactSim.Decoder.TemplatesCorrect
import MpactSim.Decoder.Overloads
import MpactSim.Decoder.GeneratorsCorrect
import MpactSim.Decoder.Promotion
import MpactSim.Generic.ComplexResource
import MpactSim.Generic.Breakpoint
import MpactSim.Generic.DataBuffer
import MpactSim.Generic.FifoPushes
import MpactSim.Generic.DecodeCacheRuns
import MpactSim.Generic.BitSetRuns
import MpactSim.Generic.SimpleResource
import MpactSim.Memory.TagCoverage
import MpactSim.Memory.AtomicTagged
import MpactSim.Memory.UnitStride
import MpactSim.Memory.VectorRouter
import MpactSim.Memory.Watcher
import MpactSim.Isa.TemplateEvaluation
import MpactSim.Isa.FormatScans
import MpactSim.Isa.AttributeSetters
import MpactSim.Isa.BundleOrders
import MpactSim.Isa.SlotContents
import MpactSim.Proto.CheckEncodings
import MpactSim.Proto.ComplexDecoder
import MpactSim.Memory.UseProfile
import MpactSim.Memory.CacheDirty
import MpactSim.Memory.CacheRecency
import MpactSim.Memory.CacheReconfigure
import MpactSim.Memory.CacheLoads
import MpactSim.Memory.Profiler
import MpactSim.Loader.ElfProgramLoader
import MpactSim.Generic.ProgramError
import MpactSim.Generic.FPTypeInfo
import MpactSim.Generic.InstructionRuns
import MpactSim.Gdb.TargetDescription
import MpactSim.Gdb.Writes
import MpactSim.Gdb.Receive
import MpactSim.Decoder.Descent
import MpactSim.Decoder.GeneratorArithmetic
