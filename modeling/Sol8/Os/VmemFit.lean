import Sol8.Os.VmemRuns

/-! Where `vmem_xalloc` places a request: the power-of-two arithmetic of the search, and the range that is chosen in an
imported span. -/

namespace Sol8.Os.Vmem

open Sol8.Lib Function

variable {prm : Params} {s s' : Arena} {r : Request prm.w} {vaddr : BitVec prm.w} {x k : ℕ}

/-! ### Power-of-two arithmetic -/

section Words

variable {w : ℕ} {v y z : BitVec w}

end Words

/-! ### Imported spans -/

/-- The range chosen in the span that is imported at `vaddr` lies in that span. -/
def Inside (prm : Params) (r : Request prm.w) (vaddr : BitVec prm.w) : Prop :=
  vaddr.toNat ≤ (p2phaseup vaddr r.align r.phase).toNat ∧
    (p2phaseup vaddr r.align r.phase).toNat + r.size.toNat ≤ vaddr.toNat + (r.asize prm).toNat

end Sol8.Os.Vmem
