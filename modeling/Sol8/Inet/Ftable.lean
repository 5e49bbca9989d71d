import Sol8.Inet.IpIre
import Sol8.Lib.Hlist
import Sol8.Lib.Grouped
import Sol8.Lib.Run

/-! The IPv4 forwarding table (`inet/ip_ire.c`): for every length of a mask a hash table, made when the first route of
that length is added, whose chains are found by the masked address. Calls run one at a time. -/

namespace Sol8.Inet.Ftable

open Function Sol8.Lib Sol8.Inet.IpIre

/-- Length of the mask and hash of the address. -/
abbrev Bucket := ℕ × ℕ

structure State (I F Q : Type) where
  /-- `ip_forwarding_table[i] != NULL` -/
  table : ℕ → Bool
  /-- `irb_ire`, `ire_next` and `ire_ptpn` -/
  links : Hlists Bucket I
  irbRefcnt : Bucket → ℕ
  irbCondemned : Bucket → Bool
  ire : I → Ire F Q
  ireBucket : I → Option Bucket
  ireCondemned : I → Bool
  /-- the entries that have been put into the table, which bound every loop over a chain -/
  heap : List I
  ipIreDefaultCount : UInt32
  ipIreDefaultIndex : UInt32

variable {I F Q L : Type} [DecidableEq I] [DecidableEq F] [DecidableEq Q] [DecidableEq L]

/-! ### Adding -/

/-- What `ire_add_v4` makes of the fields. -/
def normalize (ire : Ire F Q) : Ire F Q :=
  let ire := match ire.type with
    | .ireHost | .ireHostRedirect => { ire with mask := ipHostMask, masklen := ipAbits, srcAddr := 0 }
    | .irePrefix | .ireDefault => { ire with srcAddr := 0 }
    | .ireIfResolver | .ireIfNoresolver => ire
  { ire with addr := ire.addr &&& ire.mask }

/-- The arguments with which a duplicate is searched. -/
def dupArgs (ire : Ire F Q) : Args F Q where
  mask := ire.mask
  gateway := ire.gatewayAddr
  type := fun t => t == ire.type
  ipif := ire.ipif
  wrq := ire.stq
  ihandle := 0

def dupFlags (ire : Ire F Q) : Flags where
  type := true
  src := false
  mask := true
  wq := ire.ipif.isSome
  gw := true
  ipif := ire.ipif.isSome
  dflt := false
  ill := false
  ihandle := false

def duplicate (nif : Ipif F L) (s : State I F Q) (b : Bucket) (ire : Ire F Q) : Option I :=
  s.links.find (fun i => !s.ireCondemned i &&
    ireMatchArgs nif (s.ire i) ire.addr ire.mask (dupArgs ire) (dupFlags ire)) s.heap.length (s.links.head b)

/-- Where the new entry goes: behind the last one with its address, or else at the end of the chain. -/
def place (s : State I F Q) (b : Bucket) (addr : Ipaddr) : Cell Bucket I :=
  let irep := s.links.walk (fun i => (s.ire i).addr != addr) s.heap.length (.head b)
  s.links.walk (fun i => (s.ire i).addr == addr) s.heap.length irep

/-- The route `ire` in the entry `i`, and whether a table can be allocated. -/
def ireAdd (nif : Ipif F L) (s : State I F Q) (i : I) (ire : Ire F Q) (alloc : Bool) : State I F Q × Option I :=
  let ire := normalize ire
  if s.table ire.masklen = false ∧ alloc = false then (s, none)
  else
    let s := { s with table := update s.table ire.masklen true }
    let b := (ire.masklen, ireAddrHash ire.addr)
    match duplicate nif s b ire with
    | some j => (s, some j)
    | none =>
      let s := { s with
        links := s.links.insert (place s b ire.addr) i
        ire := update s.ire i ire
        ireBucket := update s.ireBucket i (some b)
        ireCondemned := update s.ireCondemned i false
        heap := i :: s.heap
        ipIreDefaultCount := if ire.type = .ireDefault then s.ipIreDefaultCount + 1 else s.ipIreDefaultCount }
      (s, some i)

/-! ### Deleting -/

/-- The entry leaves its chain by its back pointer. -/
def unlink (s : State I F Q) (i : I) : State I F Q := { s with links := (s.links.detach i).clear i }

/-- The loop of `ire_unlink` over a chain, with the list of the entries that have left it. -/
def ireUnlinkLoop : ℕ → State I F Q → Option I → List I → State I F Q × List I
  | 0, s, _, list => (s, list)
  | _ + 1, s, none, list => (s, list)
  | n + 1, s, some i, list =>
    if s.ireCondemned i then ireUnlinkLoop n (unlink s i) (s.links.next i) (i :: list)
    else ireUnlinkLoop n s (s.links.next i) list

def ireUnlink (s : State I F Q) (b : Bucket) : State I F Q × List I :=
  let (s, list) := ireUnlinkLoop s.heap.length s (s.links.head b) []
  ({ s with irbCondemned := update s.irbCondemned b false }, list)

section Delete

-- `ire_delete_v4`, which the functions of this section call and which calls them
variable (ireDeleteV4 : State I F Q → I → State I F Q)

/-- The end of a walk, with `ire_cleanup` of what was condemned meanwhile. -/
def irbRefrele (s : State I F Q) (b : Bucket) : State I F Q :=
  let s := { s with irbRefcnt := update s.irbRefcnt b (s.irbRefcnt b - 1) }
  if s.irbRefcnt b = 0 ∧ s.irbCondemned b = true then
    let (s, list) := ireUnlink s b
    list.foldl ireDeleteV4 s
  else s

def ireDelete (s : State I F Q) (i : I) : State I F Q :=
  match s.ireBucket i with
  | none => s
  | some b =>
    if s.links.back i = none then s
    else if s.irbRefcnt b ≠ 0 then
      { s with
        ireCondemned := update s.ireCondemned i true
        irbCondemned := update s.irbCondemned b true }
    else
      let s := unlink s i
      ireDeleteV4 { s with ireCondemned := update s.ireCondemned i true } i

/-- The walk of `ire_delete_host_redirects` along a chain. -/
def redirectsLoop (gateway : Ipaddr) : ℕ → State I F Q → Option I → State I F Q
  | 0, s, _ => s
  | _ + 1, s, none => s
  | n + 1, s, some i =>
    let s := if (s.ire i).type = .ireHostRedirect ∧ (s.ire i).gatewayAddr = gateway then ireDelete ireDeleteV4 s i else s
    redirectsLoop gateway n s (s.links.next i)

def redirectsBucket (gateway : Ipaddr) (s : State I F Q) (b : Bucket) : State I F Q :=
  let s := { s with irbRefcnt := update s.irbRefcnt b (s.irbRefcnt b + 1) }
  irbRefrele ireDeleteV4 (redirectsLoop ireDeleteV4 gateway s.heap.length s (s.links.head b)) b

def ireDeleteHostRedirects (s : State I F Q) (gateway : Ipaddr) : State I F Q :=
  if s.table ipAbits then
    (List.range 32).foldl (fun s h => redirectsBucket ireDeleteV4 gateway s (ipAbits, h)) s
  else s

end Delete

/-- What follows when a route is out of the table. The number bounds the depth of the calls: the redirects that go with
a default route are no default routes. -/
def ireDeleteV4 : ℕ → State I F Q → I → State I F Q
  | 0, s, _ => s
  | n + 1, s, i =>
    if (s.ire i).type = .ireDefault then
      let s := { s with ipIreDefaultCount := s.ipIreDefaultCount - 1 }
      ireDeleteHostRedirects (ireDeleteV4 n) s (s.ire i).gatewayAddr
    else s

/-! ### Looking up -/

def scan (nif : Ipif F L) (s : State I F Q) (b : Bucket) (addr : Ipaddr) (mask : Ire F Q → Ipaddr) (a : Args F Q)
    (flags : Flags) : Option I :=
  s.links.find (fun i => !s.ireCondemned i && ireMatchArgs nif (s.ire i) addr (mask (s.ire i)) a flags) s.heap.length
    (s.links.head b)

/-- The search over all lengths of masks, longest first. -/
def searchLengths (e : Endian) (nif : Ipif F L) (s : State I F Q) (addr : Ipaddr) (a : Args F Q) (flags : Flags) :
    ℕ → Option I
  | 0 => none
  | n + 1 =>
    let found := if s.table (n + 1) then
      scan nif s (n + 1, ireAddrHash (addr &&& ipIndexToMask e (n + 1))) addr (·.mask) a flags else none
    match found with
    | some i => some i
    | none => searchLengths e nif s addr a flags n

/-- Going along a chain, but not off its end. -/
def forward (s : State I F Q) : ℕ → I → I
  | 0, i => i
  | n + 1, i =>
    match s.links.next i with
    | some j => forward s n j
    | none => i

/-- The round robin among the default routes, from the entry `i` on. -/
def roundRobin (nif : Ipif F L) (s : State I F Q) (addr : Ipaddr) (a : Args F Q) (flags : Flags) : ℕ → UInt32 → I → I
  | 0, _, i => i
  | n + 1, gIndex, i =>
    let i := forward s (gIndex % s.ipIreDefaultCount).toNat i
    if !s.ireCondemned i && ireMatchArgs nif (s.ire i) addr 0 a flags then i
    else roundRobin nif s addr a flags n (gIndex + 1) i

/-- The search for a default route if nothing else was found. -/
def defaultRoute (nif : Ipif F L) (s : State I F Q) (addr : Ipaddr) (a : Args F Q) (flags : Flags) :
    State I F Q × Option I :=
  if flags.dflt = true ∧ flags.mask = false ∧ s.table 0 = true then
    match s.links.head (0, 0) with
    | none => (s, none)
    | some i =>
      let s' := if s.ipIreDefaultCount = 0 then s else { s with ipIreDefaultIndex := s.ipIreDefaultIndex + 1 }
      (s', some (roundRobin nif s addr a flags s.ipIreDefaultCount.toNat s.ipIreDefaultIndex i))
  else (s, none)

/-- `ire_ftable_lookup` without `MATCH_IRE_RECURSIVE`. -/
def ireFtableLookup (e : Endian) (nif : Ipif F L) (s : State I F Q) (addr : Ipaddr) (a : Args F Q) (flags : Flags) :
    State I F Q × Option I :=
  if (flags.src || flags.ill) && a.ipif.isNone then (s, none)
  else
    let found := if flags.mask then
        let masklen := ipMaskToIndex e a.mask
        if s.table masklen then scan nif s (masklen, ireAddrHash (addr &&& a.mask)) addr (fun _ => a.mask) a flags
        else none
      else searchLengths e nif s addr a flags ipAbits
    match found with
    | some i => (s, some i)
    | none =>
      let found := if flags.type = true ∧ flags.mask = false ∧ s.table 0 = true ∧
          (a.type .ireDefault || a.type .ireIfResolver || a.type .ireIfNoresolver) = true then
        scan nif s (0, ireAddrHash 0) addr (fun _ => 0) a flags else none
      match found with
      | some i => (s, some i)
      | none => defaultRoute nif s addr a flags

/-! ### Runs -/

inductive Event (I F Q : Type)
  | add (i : I) (ire : Ire F Q) (alloc : Bool)
  | delete (i : I)

def exec (nif : Ipif F L) (s : State I F Q) : Event I F Q → Option (State I F Q)
  | .add i ire alloc => if i ∈ s.heap then none else some (ireAdd nif s i ire alloc).1
  | .delete i => some (ireDelete (ireDeleteV4 2) s i)

def Init (s : State I F Q) : Prop :=
  s.table = (fun _ => false) ∧ s.links.head = (fun _ => none) ∧ s.links.back = (fun _ => none) ∧
    s.irbRefcnt = (fun _ => 0) ∧ s.irbCondemned = (fun _ => false) ∧ s.ireBucket = (fun _ => none) ∧ s.heap = []

/-- Routes come with contiguous masks. -/
def Proper (e : Endian) : Event I F Q → Prop
  | .add _ ire _ => Contiguous e (normalize ire).mask (normalize ire).masklen
  | .delete _ => True

def Step (e : Endian) (nif : Ipif F L) (s s' : State I F Q) : Prop :=
  ∃ ev, Proper e ev ∧ exec nif s ev = some s'

end Sol8.Inet.Ftable
