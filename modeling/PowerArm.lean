import PowerArm.Decode.TableLaws
import PowerArm.Decode.BlockLaws
import PowerArm.Decode.CensusLaws
import PowerArm.Nzcv.ScanLaws
import PowerArm.Nzcv.PeekLaws
import PowerArm.Seccomp.DispatchLaws
import PowerArm.Seccomp.Kernel
import PowerArm.Seccomp.RefLaws
import PowerArm.Seccomp.LimitLaws
import PowerArm.Vma.RunLaws
import PowerArm.Vma.Memo
import PowerArm.Flags.PassLaws
import PowerArm.Lookup.OverlapLaws
import PowerArm.Lookup.PreciseLaws
import PowerArm.Lookup.CacheLaws
import PowerArm.Splat.PassLaws
import PowerArm.Fusion.PassLaws
import PowerArm.Fusion.AnnotateLaws
import PowerArm.Alloc64.RunLaws
import PowerArm.Overlay.ResolveLaws
import PowerArm.CodeCache.SafetyLaws
import PowerArm.CodeCache.RoundTripLaws
import PowerArm.HostRanges.RangesLaws
import PowerArm.Smc.GranulesLaws
import PowerArm.Smc.LazyLaws
import PowerArm.Ppc.AndMaskLaws
import PowerArm.Ppc.StoreLaws
import PowerArm.Ppc.ConstCacheLaws
import PowerArm.Lib.Pool
import PowerArm.Lookup.Links
import PowerArm.Lookup.PoolLaws
import PowerArm.Lookup.RetainLaws
import PowerArm.Utils.IntervalListLaws
import PowerArm.Utils.Vl64pairLaws
import PowerArm.A64.ExclusiveLoopLaws
import PowerArm.A64.MonitorLaws
import PowerArm.A64.MemRevLaws
import PowerArm.Elf.MappingBase
import PowerArm.CodeCache.Publish
import PowerArm.Alloc64.ScanLaws
import PowerArm.Decode.QueryLaws
import PowerArm.Overlay.Caches
