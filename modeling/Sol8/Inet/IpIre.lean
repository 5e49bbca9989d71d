import Mathlib

/-! Internet routing entries (`inet/ip.h`, `inet/ip_ire.c`): addresses and masks, what a route is, and when it matches
the arguments of a lookup. -/

namespace Sol8.Inet.IpIre

variable {mask : Ipaddr} {e : Endian}

/-! ### Addresses -/

/-- `ipaddr_t`, in network byte order. -/
abbrev Ipaddr := BitVec 32

inductive Endian
  | big
  | little
deriving DecidableEq, Repr

/-- `ntohl` and `htonl` -/
def swap : Endian → Ipaddr → Ipaddr
  | .big, a => a
  | .little, a => a.extractLsb' 0 8 ++ a.extractLsb' 8 8 ++ a.extractLsb' 16 8 ++ a.extractLsb' 24 8

def ipAbits : ℕ := 32

def ipHostMask : Ipaddr := 0xffffffff#32

/-- `IRE_ADDR_HASH` for `IP_FTABLE_HASH_SIZE` buckets -/
def ireAddrHash (addr : Ipaddr) : ℕ :=
  (((addr >>> 16) ^^^ addr) ^^^ (((addr >>> 16) ^^^ addr) >>> 8)).toNat % 32

/-- Searches for the first one from the right. -/
def maskLoop (mask : Ipaddr) : ℕ → ℕ → ℕ
  | 0, _ => 0
  | n + 1, i => if mask.getLsbD i then ipAbits - i else maskLoop mask n (i + 1)

def ipMaskToIndex (e : Endian) (mask : Ipaddr) : ℕ := maskLoop (swap e mask) ipAbits 0

def ipIndexToMask (e : Endian) (masklen : ℕ) : Ipaddr := swap e (ipHostMask <<< (ipAbits - masklen))

def Contiguous (e : Endian) (mask : Ipaddr) (len : ℕ) : Prop :=
  len ≤ ipAbits ∧ ∀ i < ipAbits, (swap e mask).getLsbD i = decide (ipAbits - len ≤ i)

theorem getLsbD_swap (a : Ipaddr) {i : ℕ} (hi : i < 32) :
    (swap .little a).getLsbD i = a.getLsbD (24 - i / 8 * 8 + i % 8) := by
  simp only [swap, BitVec.getLsbD_append, BitVec.getLsbD_extractLsb']
  split_ifs
  all_goals
    rw [decide_eq_true (by omega), Bool.true_and]
    congr 1
    omega

theorem swap_swap (e : Endian) (a : Ipaddr) : swap e (swap e a) = a := by
  cases e with
  | big => rfl
  | little =>
    apply BitVec.eq_of_getLsbD_eq
    intro i hi
    rw [getLsbD_swap _ hi, getLsbD_swap _ (by omega)]
    congr 1
    omega

theorem Contiguous.mask_eq {len : ℕ} (h : Contiguous e mask len) : mask = ipIndexToMask e len := by
  obtain ⟨hlen, hb⟩ := h
  rw [← swap_swap e mask]
  congr 1
  apply BitVec.eq_of_getLsbD_eq
  intro i hi
  have ho : ipHostMask = BitVec.allOnes 32 := by decide
  rw [hb i hi, ho, BitVec.getLsbD_shiftLeft, BitVec.getLsbD_allOnes, decide_eq_true hi]
  by_cases hle : ipAbits - len ≤ i
  · have hlt : i - (ipAbits - len) < 32 := by omega
    simp [hle, hlt]
  · have hlt : i < ipAbits - len := by omega
    simp [hle, hlt]

theorem Contiguous.len_le {len len' : ℕ} (h : Contiguous e mask len) (h' : Contiguous e mask len') : len' ≤ len := by
  by_contra hlt
  have hle := h'.1
  have hb : ipAbits - len' < ipAbits := by omega
  have heq := (h.2 _ hb).symm.trans (h'.2 _ hb)
  have hs : ipAbits - len' ≤ ipAbits - len' := Nat.le_refl _
  simp only [hs, decide_true, decide_eq_true_eq] at heq
  omega

/-! ### Routes -/

/-- The types of `IRE_FORWARDTABLE`. -/
inductive IreType
  | ireDefault
  | irePrefix
  | ireIfNoresolver
  | ireIfResolver
  | ireHost
  | ireHostRedirect
deriving DecidableEq, Repr

/-- `ire_t` without its links, with interfaces in `F` and queues in `Q`. -/
structure Ire (F Q : Type) where
  type : IreType
  addr : Ipaddr
  mask : Ipaddr
  masklen : ℕ
  gatewayAddr : Ipaddr
  srcAddr : Ipaddr
  ipif : Option F
  stq : Option Q
  ihandle : UInt32
deriving DecidableEq

structure Args (F Q : Type) where
  mask : Ipaddr
  gateway : Ipaddr
  type : IreType → Bool
  ipif : Option F
  wrq : Option Q
  ihandle : UInt32

/-- `MATCH_IRE_*` -/
structure Flags where
  type : Bool
  src : Bool
  mask : Bool
  wq : Bool
  gw : Bool
  ipif : Bool
  dflt : Bool
  ill : Bool
  ihandle : Bool

/-- What is read of an interface: its source address and its physical interface. -/
structure Ipif (F L : Type) where
  srcAddr : F → Ipaddr
  ill : F → L

variable {F Q L : Type} [DecidableEq F] [DecidableEq Q] [DecidableEq L]

/-- An interface that is read must be there. -/
def onIpif (ipif : Option F) (p : F → Bool) : Bool :=
  match ipif with
  | some f => p f
  | none => false

def ireMatchArgs (nif : Ipif F L) (ire : Ire F Q) (addr mask : Ipaddr) (a : Args F Q) (flags : Flags) : Bool :=
  ire.addr == addr &&& mask && (!flags.gw || ire.gatewayAddr == a.gateway) && (!flags.type || a.type ire.type) &&
    (!flags.src || onIpif a.ipif fun f => ire.srcAddr == nif.srcAddr f) &&
    (!flags.wq || ire.stq == a.wrq) &&
    (!flags.ipif || ire.ipif == a.ipif) &&
    (!flags.ill || onIpif ire.ipif fun f => onIpif a.ipif fun f' => nif.ill f == nif.ill f') &&
    (!flags.ihandle || ire.ihandle == a.ihandle)

/-- The route meets the criteria, apart from the address. -/
structure Meets (nif : Ipif F L) (ire : Ire F Q) (a : Args F Q) (flags : Flags) : Prop where
  gw : flags.gw = true → ire.gatewayAddr = a.gateway
  type : flags.type = true → a.type ire.type = true
  src : flags.src = true → ∃ f, a.ipif = some f ∧ ire.srcAddr = nif.srcAddr f
  wq : flags.wq = true → ire.stq = a.wrq
  ipif : flags.ipif = true → ire.ipif = a.ipif
  ill : flags.ill = true → ∃ f f', ire.ipif = some f ∧ a.ipif = some f' ∧ nif.ill f = nif.ill f'
  ihandle : flags.ihandle = true → ire.ihandle = a.ihandle

omit [DecidableEq F] in
theorem onIpif_eq_true {ipif : Option F} {p : F → Bool} : onIpif ipif p = true ↔ ∃ f, ipif = some f ∧ p f = true := by
  cases ipif <;> simp [onIpif]

theorem ireMatchArgs_iff {nif : Ipif F L} {ire : Ire F Q} {addr : Ipaddr} {a : Args F Q} {flags : Flags} :
    ireMatchArgs nif ire addr mask a flags = true ↔ ire.addr = addr &&& mask ∧ Meets nif ire a flags := by
  have hm : ∀ {p q : Bool}, (!p || q) = true ↔ (p = true → q = true) := by decide
  simp only [ireMatchArgs, Bool.and_eq_true, hm, onIpif_eq_true, beq_iff_eq]
  constructor
  · rintro ⟨⟨⟨⟨⟨⟨⟨ha, hg⟩, ht⟩, hs⟩, hw⟩, hp⟩, hl⟩, hh⟩
    refine ⟨ha, hg, ht, hs, hw, hp, fun h => ?_, hh⟩
    obtain ⟨f, hf, f', hf', heq⟩ := hl h
    exact ⟨f, f', hf, hf', heq⟩
  · rintro ⟨ha, hg, ht, hs, hw, hp, hl, hh⟩
    refine ⟨⟨⟨⟨⟨⟨⟨ha, hg⟩, ht⟩, hs⟩, hw⟩, hp⟩, fun h => ?_⟩, hh⟩
    obtain ⟨f, f', hf, hf', heq⟩ := hl h
    exact ⟨f, hf, f', hf', heq⟩

end Sol8.Inet.IpIre
