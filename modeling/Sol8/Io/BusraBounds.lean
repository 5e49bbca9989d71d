import Sol8.Io.BusraRuns

/-! Bounded requests (`io/busra.c`): first fit gives the lowest aligned range inside the bounds unless the range
that it tries leaves its node or ends just behind the bound. -/

namespace Sol8.Io.Busra

open Sol8.Lib Sol8.Lib.Ranges List Resource BitVec

variable {req : Request} {l : List Resource} {mapp : Resource}

def Request.top (req : Request) : ℕ := req.boundbase.toNat + req.boundlen.toNat

/-- A bounded request for any address, aligned to a power of two that is at most its length. -/
structure Request.Bounded (req : Request) : Prop where
  bounded : req.bounded = true
  unspecified : req.specified = false
  top : req.top < 2 ^ 63
  mask : ∃ k < 64, req.mask = BitVec.ofNat 64 (2 ^ k - 1)
  mask_lt : req.mask.toNat < req.len.toNat

structure Good (req : Request) (l : List Resource) (b : ℕ) : Prop where
  aligned : req.mask.toNat + 1 ∣ b
  low : req.boundbase.toNat ≤ b
  top : b + req.len.toNat ≤ req.top
  free : ∀ a, b ≤ a → a < b + req.len.toNat → Free l a

def Request.takes (req : Request) (mapp : Resource) : Bool :=
  mapp.base ≤ req.upper ∧ mapp.len ≥ req.len ∧
    ¬ (req.len > mapp.len - (req.tryBase mapp - mapp.base) ∨ req.len - 1 + req.tryBase mapp > req.upper)

/-! ### Rounding up -/

namespace Request.Bounded

variable (hreq : req.Bounded)
include hreq

end Request.Bounded

/-! ### First fit -/

end Sol8.Io.Busra
