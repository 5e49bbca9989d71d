import Sol8.Rpc.Dupreq

/-! What the request cache is for: an abstract machine in which a request is executed by one thread at a time, and the
proof that the marks of every run of the cache are marks of that machine, as long as no call of `svc_clts_kdupdone`
stores a status that a call of `svc_clts_kdup` has read and is about to overwrite. -/

namespace Sol8.Rpc.Dupreq

open Function Sol8.Lib List

variable {res : Option (List UInt8)} {n : ℕ}

/-! ### The abstract machine -/

inductive Phase (T : Type)
  | absent
  | executing (t : T)
  | done (res : List UInt8)
  | dropped
deriving DecidableEq

section Spec

variable {T : Type} [DecidableEq T]

/-- The phases after a mark, if the mark is right for them. -/
def next (phase : Req → Phase T) : Mark T → Option (Req → Phase T)
  | .kdup t r .new => if phase r = .absent then some (update phase r (.executing t)) else none
  | .kdup _ r .error => if phase r = .absent then some phase else none
  | .kdup _ r .inProgress =>
    match phase r with
    | .executing _ => some phase
    | _ => none
  | .kdup _ r (.done res) => if phase r = .done res then some phase else none
  | .kdup t r .drop => if phase r = .dropped then some (update phase r (.executing t)) else none
  | .kdupdone t r (some res) => if phase r = .executing t then some (update phase r (.done res)) else none
  | .kdupdone t r none => if phase r = .executing t then some (update phase r .dropped) else none
  | .recycled r =>
    match phase r with
    | .done _ => some (update phase r .absent)
    | .dropped => some (update phase r .absent)
    | _ => none

def Lawful (trace : List (Mark T)) (phase : Req → Phase T) : Prop := runList next (fun _ => .absent) trace = some phase

theorem Lawful.snoc {trace : List (Mark T)} {phase phase' : Req → Phase T} {m : Mark T} (h : Lawful trace phase)
    (hm : next phase m = some phase') : Lawful (trace ++ [m]) phase' := by
  rw [Lawful, runList_append, h, Option.bind_some, runList, hm]
  rfl

end Spec

/-! ### The cache as a data structure -/

variable {T D : Type} {maxdupreqs ndupreqs : ℕ} {size : Req → ℕ} {tbl tbl' : ℕ → Option D} {dr dr' : D → Entry D}
  {heap heap' ring ring' : List D} {chain chain' : ℕ → List D} {d d' : D} {r : Req}

/-- The entries on the ring and those on the hash chains. -/
structure Cache (maxdupreqs ndupreqs : ℕ) (tbl : ℕ → Option D) (dr : D → Entry D) (heap ring : List D)
    (chain : ℕ → List D) : Prop where
  circle : Circle (fun d => (dr d).next) ring
  len : ndupreqs = ring.length
  max : ring.length ≤ maxdupreqs
  heap : ∀ d, d ∈ heap ↔ d ∈ ring
  spells : ∀ h, Chain.Spells (fun d => (dr d).chain) (tbl h) (chain h)
  hashed : ∀ h, ∀ d ∈ chain h, d ∈ ring ∧ xidHash (dr d).req.xid = h
  keys : ∀ h, ∀ d ∈ chain h, ∀ d' ∈ chain h, (dr d).req = (dr d').req → d = d'

namespace Cache

theorem field_update [DecidableEq D] {α : Type} (f : Entry D → α) {e : Entry D} (h : f e = f (dr d)) (d' : D) :
    f (update dr d e d') = f (dr d') := by
  by_cases hd : d' = d
  · rw [hd, update_self, h]
  · rw [update_of_ne hd]

variable (h : Cache maxdupreqs ndupreqs tbl dr heap ring chain)
include h

theorem shrink (hn : ∀ d, (dr' d).next = (dr d).next) (hr : ∀ b, ∀ d ∈ chain' b, (dr' d).req = (dr d).req)
    (hs : ∀ b, Chain.Spells (fun d => (dr' d).chain) (tbl' b) (chain' b)) (hsub : ∀ b, chain' b ⊆ chain b) :
    Cache maxdupreqs ndupreqs tbl' dr' heap ring chain' where
  circle := h.circle.congr fun d _ => hn d
  len := h.len
  max := h.max
  heap := h.heap
  spells := hs
  hashed b d hd := by
    rw [hr b d hd]
    exact h.hashed b d (hsub b hd)
  keys b d hd d' hd' := by
    rw [hr b d hd, hr b d' hd']
    exact h.keys b d (hsub b hd) d' (hsub b hd')

/-- Other fields of the entries do not matter, and neither does what an entry off the chains is for. -/
theorem congr (hn : ∀ d, (dr' d).next = (dr d).next) (hc : ∀ d, (dr' d).chain = (dr d).chain)
    (hr : ∀ h, ∀ d ∈ chain h, (dr' d).req = (dr d).req) : Cache maxdupreqs ndupreqs tbl dr' heap ring chain :=
  h.shrink hn hr (fun b => (h.spells b).congr fun d _ => hc d) fun _ => List.Subset.refl _

theorem length_chain (b : ℕ) : (chain b).length ≤ ndupreqs := by
  rw [h.len]
  exact (subperm_of_subset (h.spells b).nodup fun d hd => (h.hashed b d hd).1).length_le

theorem rotate (k : ℕ) : Cache maxdupreqs ndupreqs tbl dr heap (ring.rotate k) chain where
  circle := h.circle.rotate k
  len := by rw [length_rotate, h.len]
  max := by rw [length_rotate]; exact h.max
  heap d := by rw [mem_rotate, h.heap]
  spells := h.spells
  hashed b d hd := by
    rw [mem_rotate]
    exact h.hashed b d hd
  keys := h.keys

variable [DecidableEq D]

theorem set {e : Entry D} (hn : e.next = (dr d).next) (hc : e.chain = (dr d).chain)
    (hr : e.req = (dr d).req) : Cache maxdupreqs ndupreqs tbl (update dr d e) heap ring chain :=
  h.congr (field_update Entry.next hn) (field_update Entry.chain hc) fun _ d' _ => field_update Entry.req hr d'

theorem push {e : Entry D} (hd : d ∈ ring) (ho : ∀ b, d ∉ chain b)
    (hw : ∀ d ∈ chain (xidHash e.req.xid), (dr d).req ≠ e.req)
    (hn : e.next = (dr d).next) (hc : e.chain = tbl (xidHash e.req.xid)) :
    Cache maxdupreqs ndupreqs (update tbl (xidHash e.req.xid) (some d)) (update dr d e) heap ring
      (update chain (xidHash e.req.xid) (d :: chain (xidHash e.req.xid))) := by
  have hne : ∀ b, ∀ d' ∈ chain b, d' ≠ d := fun b d' hd' heq => ho b (heq ▸ hd')
  have hs : ∀ b, ∀ d' ∈ chain b, update dr d e d' = dr d' := fun b d' hd' => update_of_ne (hne b d' hd') ..
  have hl : (fun d' => (update dr d e d').chain) = update (fun d' => (dr d').chain) d e.chain :=
    comp_update Entry.chain dr d e
  refine ⟨h.circle.congr fun d' _ => field_update Entry.next hn d', h.len, h.max, h.heap, fun b => ?_,
    fun b d' hd' => ?_, fun b d1 h1 d2 h2 heq => ?_⟩
  · rw [hl, hc]
    by_cases hb : b = xidHash e.req.xid
    · subst hb
      rw [update_self, update_self]
      exact (h.spells _).cons (ho _)
    · rw [update_of_ne hb, update_of_ne hb]
      exact (h.spells b).update_of_notMem (ho b) _
  · by_cases hb : b = xidHash e.req.xid
    · subst hb
      rw [update_self, mem_cons] at hd'
      rcases hd' with rfl | hd'
      · rw [update_self]
        exact ⟨hd, rfl⟩
      · rw [hs _ d' hd']
        exact h.hashed _ d' hd'
    · rw [update_of_ne hb] at hd'
      rw [hs b d' hd']
      exact h.hashed b d' hd'
  · by_cases hb : b = xidHash e.req.xid
    · subst hb
      rw [update_self, mem_cons] at h1 h2
      rcases h1 with rfl | h1 <;> rcases h2 with rfl | h2
      · rfl
      · rw [update_self, hs _ d2 h2] at heq
        exact absurd heq.symm (hw d2 h2)
      · rw [update_self, hs _ d1 h1] at heq
        exact absurd heq (hw d1 h1)
      · rw [hs _ d1 h1, hs _ d2 h2] at heq
        exact h.keys _ d1 h1 d2 h2 heq
    · rw [update_of_ne hb] at h1 h2
      rw [hs b d1 h1, hs b d2 h2] at heq
      exact h.keys b d1 h1 d2 h2 heq

end Cache

/-- The entries differ in their links only. -/
def Alike (dr dr' : D → Entry D) : Prop := ∀ d, dr' d = { dr d with next := (dr' d).next, chain := (dr' d).chain }

section Walks

variable {w : World T D}

section

variable (h : Cache maxdupreqs w.ndupreqs w.drhashtbl w.dr heap ring chain)
include h

theorem search_eq (r : Req) : search w r = (chain (xidHash r.xid)).find? fun d => (w.dr d).req = r :=
  (h.spells _).seek_find (h.length_chain _)

theorem search_hashed {b : ℕ} (hd : d ∈ chain b) : search w (w.dr d).req = some d := by
  rw [search_eq h, (h.hashed b d hd).2]
  cases hf : (chain b).find? fun d' => (w.dr d').req = (w.dr d).req with
  | none =>
    rw [List.find?_eq_none] at hf
    exact absurd (hf d hd) (by simp)
  | some d' =>
    have hr : (w.dr d').req = (w.dr d).req := by simpa using List.find?_some hf
    rw [h.keys b d' (mem_of_find?_eq_some hf) d hd hr]

end

variable [DecidableEq D]

structure Unhashed (w w' : World T D) (d : D) (chain : ℕ → List D) : Prop where
  spells : ∀ b, Chain.Spells (fun d => (w'.dr d).chain) (w'.drhashtbl b) ((chain b).erase d)
  alike : Alike w.dr w'.dr
  next : ∀ d, (w'.dr d).next = (w.dr d).next
  ndupreqs : w'.ndupreqs = w.ndupreqs
  heap : w'.heap = w.heap
  lock : w'.lock = w.lock
  pc : w'.pc = w.pc
  trace : w'.trace = w.trace ++ if d ∈ chain (xidHash (w.dr d).req.xid) then [.recycled (w.dr d).req] else []

theorem unhash_spec (h : Cache maxdupreqs w.ndupreqs w.drhashtbl w.dr w.heap ring chain) :
    Unhashed w (unhash w d) d chain := by
  obtain ⟨b, hb⟩ : ∃ b, b = xidHash (w.dr d).req.xid := ⟨_, rfl⟩
  have ho : ∀ c, c ≠ b → ∀ d' ∈ chain b, d' ∉ chain c := fun c hc d' hd' hd'c =>
    hc ((h.hashed c d' hd'c).2.symm.trans (h.hashed b d' hd').2)
  have hf : ∀ c, c ≠ b → d ∉ chain c := fun c hc hdc => hc ((h.hashed c d hdc).2.symm.trans hb.symm)
  have hsp := h.spells b
  by_cases hd : d ∈ chain b
  · obtain ⟨l1, l2, hsl⟩ := append_of_mem hd
    rw [hsl] at hsp
    have hd1 : d ∉ l1 := fun hmem =>
      disjoint_of_nodup_append hsp.nodup hmem mem_cons_self
    have hk : Chain.seek (fun d => (w.dr d).chain) (fun d' => decide (d' = d)) w.ndupreqs none (w.drhashtbl b) =
        (l1.getLast?.or none, some d) := by
      refine hsp.seek_append ?_ (fun a ha => ?_) fun a ha => ?_
      · rw [← hsl]
        exact h.length_chain b
      · exact decide_eq_false fun e : a = d => hd1 (e ▸ ha)
      · simpa using ha.symm
    have hr : (chain b).erase d = l1 ++ l2 := by
      rw [hsl, erase_append_right _ hd1, erase_cons_head]
    rcases eq_nil_or_concat' l1 with rfl | ⟨l0, p, rfl⟩
    · have heq : unhash w d = { w with
          drhashtbl := update w.drhashtbl b (w.dr d).chain, trace := w.trace ++ [.recycled (w.dr d).req] } := by
        rw [unhash, ← hb, hk]
        rfl
      rw [heq]
      refine ⟨fun c => ?_, fun _ => rfl, fun _ => rfl, rfl, rfl, rfl, rfl, by rw [← hb, if_pos hd]⟩
      by_cases hc : c = b
      · subst hc
        dsimp only
        rw [update_self, hr]
        exact hsp.2
      · dsimp only
        rw [update_of_ne hc, erase_of_not_mem (hf c hc)]
        exact h.spells c
    · have hp : p ∈ chain b := by simp [hsl]
      have heq : unhash w d = { w.set p { w.dr p with chain := (w.dr d).chain } with
          trace := w.trace ++ [.recycled (w.dr d).req] } := by
        rw [unhash, ← hb, hk, List.getLast?_concat]
        rfl
      have hl : (fun d' => ((unhash w d).dr d').chain) = update (fun d' => (w.dr d').chain) p (w.dr d).chain := by
        rw [heq]
        exact comp_update Entry.chain w.dr p _
      have hen : ∀ d', (unhash w d).dr d' = { w.dr d' with chain := ((unhash w d).dr d').chain } := by
        intro d'
        rw [heq]
        by_cases hd' : d' = p
        · subst hd'
          simp [World.set]
        · simp [World.set, hd']
      refine ⟨fun c => ?_, fun d' => ?_, fun d' => ?_, by rw [heq]; rfl, by rw [heq]; rfl, by rw [heq]; rfl,
        by rw [heq]; rfl, ?_⟩
      · rw [hl]
        have ht : (unhash w d).drhashtbl = w.drhashtbl := by rw [heq]; rfl
        rw [ht]
        by_cases hc : c = b
        · subst hc
          rw [append_assoc] at hsp
          rw [hr, append_assoc]
          exact hsp.unlink
        · rw [erase_of_not_mem (hf c hc)]
          exact (h.spells c).update_of_notMem (ho c hc p hp) _
      · rw [hen]
      · rw [hen]
      · rw [heq, ← hb, if_pos hd]
  · have hk : (Chain.seek (fun d => (w.dr d).chain) (fun d' => decide (d' = d)) w.ndupreqs none
        (w.drhashtbl b)).2 = none := by
      rw [hsp.seek_find (h.length_chain b), List.find?_eq_none]
      intro d' hd'
      simpa using fun e : d' = d => hd (e ▸ hd')
    have heq : unhash w d = w := by
      rw [unhash, ← hb]
      split
      next hs => rw [hs] at hk; cases hk
      next hs => rw [hs] at hk; cases hk
      · rfl
    rw [heq]
    refine ⟨fun c => ?_, fun _ => rfl, fun _ => rfl, rfl, rfl, rfl, rfl, by rw [← hb, if_neg hd, append_nil]⟩
    have hn : d ∉ chain c := by
      by_cases hc : c = b
      · exact hc ▸ hd
      · exact hf c hc
    rw [erase_of_not_mem hn]
    exact h.spells c

structure Linked (w w' : World T D) (d : D) : Prop where
  alike : ∀ d' ≠ d, w'.dr d' = { w.dr d' with next := (w'.dr d').next }
  ndupreqs : w'.ndupreqs = w.ndupreqs + 1
  tbl : w'.drhashtbl = w.drhashtbl
  heap : w'.heap = d :: w.heap
  lock : w'.lock = w.lock
  pc : w'.pc = w.pc
  trace : w'.trace = w.trace

theorem link_spec (hc : Circle (fun d => (w.dr d).next) ring) (hr : w.drmru = ring.getLast?) (hd : d ∉ ring) :
    Linked w (link w d) d ∧ Circle (fun d' => ((link w d).dr d').next) (ring ++ [d]) := by
  cases hl : ring.getLast? with
  | none =>
    have heq : link w d = { w with
        ndupreqs := w.ndupreqs + 1
        heap := d :: w.heap
        dr := update w.dr d { w.dr d with resp := [], addrMaxlen := 0, next := d } } := by
      rw [link]
      rw [hr, hl]
      rfl
    have hn : (fun d' => ((link w d).dr d').next) = update (fun d' => (w.dr d').next) d d := by
      rw [heq]
      exact comp_update Entry.next w.dr d _
    rw [hn, List.getLast?_eq_none_iff.mp hl]
    refine ⟨?_, Circle.singleton _ d⟩
    rw [heq]
    exact ⟨fun d' hd' => by simp [hd'], rfl, rfl, rfl, rfl, rfl, rfl⟩
  | some m =>
    have heq : link w d = { w with
        ndupreqs := w.ndupreqs + 1
        heap := d :: w.heap
        dr := update (update w.dr d { w.dr d with resp := [], addrMaxlen := 0, next := (w.dr m).next }) m
          { w.dr m with next := d } } := by
      rw [link]
      rw [hr, hl]
      dsimp only [World.set]
    have hn : (fun d' => ((link w d).dr d').next) =
        update (update (fun d' => (w.dr d').next) d (w.dr m).next) m d := by
      rw [heq]
      exact (comp_update Entry.next _ m _).trans (congrArg (update · m d) (comp_update Entry.next w.dr d _))
    rw [hn]
    refine ⟨?_, hc.snoc hl hd⟩
    rw [heq]
    refine ⟨fun d' hd' => ?_, rfl, rfl, rfl, rfl, rfl, rfl⟩
    by_cases hm : d' = m
    · subst hm
      simp
    · simp [hm, hd']

omit [DecidableEq D] in
theorem Linked.cache {w' : World T D} (hl : Linked w w' d) (hc : Circle (fun d' => (w'.dr d').next) (ring ++ [d]))
    (h : Cache maxdupreqs w.ndupreqs w.drhashtbl w.dr w.heap ring chain) (hd : d ∉ ring)
    (hr : w.ndupreqs < maxdupreqs) : Cache maxdupreqs w'.ndupreqs w'.drhashtbl w'.dr w'.heap (ring ++ [d]) chain := by
  have hne : ∀ b, ∀ d' ∈ chain b, d' ≠ d := fun b d' hd' e => hd (e ▸ (h.hashed b d' hd').1)
  have hq : ∀ b, ∀ d' ∈ chain b, (w'.dr d').req = (w.dr d').req := fun b d' hd' => by rw [hl.alike d' (hne b d' hd')]
  have hlen := h.len
  refine ⟨hc, ?_, ?_, fun d' => ?_, fun b => ?_, fun b d' hd' => ?_, fun b d1 h1 d2 h2 => ?_⟩
  · rw [hl.ndupreqs, length_append, hlen, length_singleton]
  · rw [length_append, length_singleton]
    omega
  · rw [hl.heap, mem_cons, mem_append, mem_singleton, h.heap, or_comm]
  · rw [hl.tbl]
    refine (h.spells b).congr fun d' hd' => ?_
    rw [hl.alike d' (hne b d' hd')]
  · rw [hq b d' hd']
    exact ⟨mem_append_left _ (h.hashed b d' hd').1, (h.hashed b d' hd').2⟩
  · rw [hq b d1 h1, hq b d2 h2]
    exact h.keys b d1 h1 d2 h2

end Walks

/-! ### What the entries say about the phases -/

/-- The thread executes the request of an entry. -/
def Holds (pc : Pc D) (d : D) : Prop := pc = .holding d ∨ ∃ res, pc = .copied d res

/-- Every entry on a chain shows the phase of its request, and there is one for every request that is not absent. -/
structure Phases [DecidableEq T] (size : Req → ℕ) (dr : D → Entry D) (pc : T → Pc D) (trace : List (Mark T))
    (chain : ℕ → List D) (phase : Req → Phase T) : Prop where
  held : ∀ t d, Holds (pc t) d →
    d ∈ chain (xidHash (dr d).req.xid) ∧ (dr d).status = .inProgress ∧ phase (dr d).req = .executing t
  busy : ∀ b, ∀ d ∈ chain b, (dr d).status = .inProgress → ∃ t, Holds (pc t) d
  done : ∀ b, ∀ d ∈ chain b, (dr d).status = .done → phase (dr d).req = .done ((dr d).resp.take (size (dr d).req))
  drop : ∀ b, ∀ d ∈ chain b, (dr d).status = .drop → phase (dr d).req = .dropped
  present : ∀ r, phase r ≠ .absent → ∃ d ∈ chain (xidHash r.xid), (dr d).req = r
  room : ∀ b, ∀ d ∈ chain b, size (dr d).req ≤ (dr d).resp.length
  copied : ∀ t d res, pc t = .copied d (some res) → (dr d).resp.take (size (dr d).req) = res
  lawful : Lawful trace phase

/-- The same for one entry. -/
structure Shows (size : Req → ℕ) (pc : T → Pc D) (phase : Req → Phase T) (chain : ℕ → List D) (d : D) (e : Entry D) :
    Prop where
  held : ∀ t, Holds (pc t) d → d ∈ chain (xidHash e.req.xid) ∧ e.status = .inProgress ∧ phase e.req = .executing t
  busy : ∀ b, d ∈ chain b → e.status = .inProgress → ∃ t, Holds (pc t) d
  done : ∀ b, d ∈ chain b → e.status = .done → phase e.req = .done (e.resp.take (size e.req))
  drop : ∀ b, d ∈ chain b → e.status = .drop → phase e.req = .dropped
  room : ∀ b, d ∈ chain b → size e.req ≤ e.resp.length
  copied : ∀ t res, pc t = .copied d (some res) → e.resp.take (size e.req) = res

/-- Links do not matter, and neither does an entry off the chains. -/
theorem Shows.transfer {pc pc' : T → Pc D} {phase phase' : Req → Phase T} {e e' : Entry D} (h : Shows size pc phase chain d e) (hmem : ∀ b, d ∈ chain' b ↔ d ∈ chain b)
    (hpc : ∀ q, Holds q d → ∀ t, pc' t = q ↔ pc t = q)
    (hm : ∀ b, d ∈ chain b → (e'.req = e.req ∧ e'.status = e.status ∧ e'.resp = e.resp) ∧ phase' e.req = phase e.req) :
    Shows size pc' phase' chain' d e' := by
  have hl : ∀ t, Holds (pc' t) d ↔ Holds (pc t) d := fun t =>
    ⟨fun hh => (hpc _ hh t).mp rfl ▸ hh, fun hh => (hpc _ hh t).mpr rfl ▸ hh⟩
  refine ⟨fun t hh => ?_, fun b hb hs => ?_, fun b hb hs => ?_, fun b hb hs => ?_, fun b hb => ?_, fun t res hc => ?_⟩
  · obtain ⟨hin, hs, hp⟩ := h.held t ((hl t).mp hh)
    obtain ⟨⟨hq, ht, -⟩, hph⟩ := hm _ hin
    rw [hq, ht, hph, hmem]
    exact ⟨hin, hs, hp⟩
  · rw [hmem] at hb
    rw [(hm b hb).1.2.1] at hs
    obtain ⟨t, hh⟩ := h.busy b hb hs
    exact ⟨t, (hl t).mpr hh⟩
  · rw [hmem] at hb
    obtain ⟨⟨hq, ht, hr⟩, hph⟩ := hm b hb
    rw [hq, hr, hph]
    exact h.done b hb (ht ▸ hs)
  · rw [hmem] at hb
    obtain ⟨⟨hq, ht, -⟩, hph⟩ := hm b hb
    rw [hq, hph]
    exact h.drop b hb (ht ▸ hs)
  · rw [hmem] at hb
    obtain ⟨⟨hq, -, hr⟩, -⟩ := hm b hb
    rw [hq, hr]
    exact h.room b hb
  · rw [hpc _ (Or.inr ⟨_, rfl⟩)] at hc
    obtain ⟨⟨hq, -, hr⟩, -⟩ := hm _ (h.held t (Or.inr ⟨_, hc⟩)).1
    rw [hq, hr]
    exact h.copied t res hc

namespace Phases

variable [DecidableEq T] {pc pc' : T → Pc D} {trace trace' : List (Mark T)} {phase phase' : Req → Phase T} {t : T}
  {p : Pc D}

theorem of_shows (ha : ∀ d, Shows size pc phase chain d (dr d))
    (hp : ∀ r, phase r ≠ .absent → ∃ d ∈ chain (xidHash r.xid), (dr d).req = r) (hl : Lawful trace phase) :
    Phases size dr pc trace chain phase :=
  ⟨fun t d => (ha d).held t, fun b d => (ha d).busy b, fun b d => (ha d).done b, fun b d => (ha d).drop b, hp,
    fun b d => (ha d).room b, fun t d => (ha d).copied t, hl⟩

theorem update_eq_iff (hpc : ¬ Holds (pc t) d) (hp : ¬ Holds p d) (q : Pc D) (hq : Holds q d) (t' : T) :
    update pc t p t' = q ↔ pc t' = q := by
  by_cases ht' : t' = t
  · subst ht'
    rw [update_self]
    exact iff_of_false (fun e => hp (e ▸ hq)) fun e => hpc (e ▸ hq)
  · rw [update_of_ne ht']

variable (h : Phases size dr pc trace chain phase)
include h

theorem shows (d : D) : Shows size pc phase chain d (dr d) :=
  ⟨fun t => h.held t d, fun b => h.busy b d, fun b => h.done b d, fun b => h.drop b d, fun b => h.room b d,
    fun t => h.copied t d⟩

theorem absent (hr : ∀ d ∈ chain (xidHash r.xid), (dr d).req ≠ r) : phase r = .absent := by
  by_contra hne
  obtain ⟨d, hd, heq⟩ := h.present r hne
  exact hr d hd heq

theorem congr
    (hd : ∀ b, ∀ d ∈ chain b, (dr' d).req = (dr d).req ∧ (dr' d).status = (dr d).status ∧ (dr' d).resp = (dr d).resp) :
    Phases size dr' pc trace chain phase := by
  refine of_shows (fun d => (h.shows d).transfer (fun _ => Iff.rfl) (fun _ _ _ => Iff.rfl) fun b hb => ⟨hd b d hb, rfl⟩)
    (fun r hr => ?_) h.lawful
  obtain ⟨d, hb, heq⟩ := h.present r hr
  exact ⟨d, hb, (hd _ d hb).1.trans heq⟩

theorem holder_unique {t' : T} (ht : Holds (pc t) d) (ht' : Holds (pc t') d) : t' = t := by
  have hp := (h.held t d ht).2.2
  rw [(h.held t' d ht').2.2] at hp
  injection hp

/-- A step changes what is known of one entry, and leaves the others and their requests alone. -/
theorem focus (d : D) (hmem : ∀ b, ∀ d' ≠ d, d' ∈ chain' b ↔ d' ∈ chain b)
    (hpc : ∀ d' ≠ d, ∀ q, Holds q d' → ∀ t, pc' t = q ↔ pc t = q)
    (hs : ∀ b, ∀ d' ∈ chain b, d' ≠ d → dr' d' = dr d' ∧ phase' (dr d').req = phase (dr d').req)
    (hd : Shows size pc' phase' chain' d (dr' d))
    (hp : ∀ r, phase' r ≠ .absent → (dr' d).req = r ∧ d ∈ chain' (xidHash r.xid) ∨
      phase r ≠ .absent ∧ ∀ b, d ∈ chain b → (dr d).req ≠ r)
    (hl : Lawful trace' phase') : Phases size dr' pc' trace' chain' phase' := by
  refine of_shows (fun d' => ?_) (fun r hr => ?_) hl
  · by_cases hne : d' = d
    · exact hne ▸ hd
    · refine (h.shows d').transfer (fun b => hmem b d' hne) (hpc d' hne) fun b hb => ?_
      obtain ⟨heq, hh⟩ := hs b d' hb hne
      rw [heq]
      exact ⟨⟨rfl, rfl, rfl⟩, hh⟩
  · rcases hp r hr with ⟨heq, hin⟩ | ⟨hr, hd⟩
    · exact ⟨d, hin, heq⟩
    · obtain ⟨d', hin, heq⟩ := h.present r hr
      have hne : d' ≠ d := by
        rintro rfl
        exact hd _ hin heq
      exact ⟨d', (hmem _ d' hne).mpr hin, by rw [(hs _ d' hin hne).1, heq]⟩

/-- A thread moves between places where it executes nothing, and marks keep the phases. -/
theorem move (ht : ∀ d, ¬ Holds (pc t) d) (hp : ∀ d, ¬ Holds p d) (hl : Lawful trace' phase) :
    Phases size dr (update pc t p) trace' chain phase :=
  of_shows (fun d => (h.shows d).transfer (fun _ => Iff.rfl) (update_eq_iff (ht d) (hp d))
    fun _ _ => ⟨⟨rfl, rfl, rfl⟩, rfl⟩) h.present hl

theorem take (ht : ∀ d, ¬ Holds (pc t) d) (hf : ∀ t, ¬ Holds (pc t) d)
    (hmem : ∀ b d', d' ∈ chain' b ↔ d' ∈ chain b ∨ d' = d ∧ b = xidHash (dr' d).req.xid)
    (hm : ∀ b, ∀ d' ∈ chain b, d' ≠ d → dr' d' = dr d' ∧ (dr d').req ≠ (dr' d).req)
    (hst : (dr' d).status = .inProgress) (hrm : size (dr' d).req ≤ (dr' d).resp.length)
    (ho : ∀ b, d ∈ chain b → (dr d).req = (dr' d).req) (hl : Lawful trace' (update phase (dr' d).req (.executing t))) :
    Phases size dr' (update pc t (.holding d)) trace' chain' (update phase (dr' d).req (.executing t)) := by
  have hhl : ∀ t', Holds (update pc t (.holding d) t') d → t' = t := by
    intro t' hh
    by_contra hne
    rw [update_of_ne hne] at hh
    exact hf t' hh
  have hin : d ∈ chain' (xidHash (dr' d).req.xid) := (hmem _ d).mpr (.inr ⟨rfl, rfl⟩)
  refine h.focus d (fun b d' hne => by simp [hmem, hne]) (fun d' hne => update_eq_iff (ht d') ?_) (fun b d' hb hne => ?_)
    ⟨fun t' hh => ?_, fun _ _ _ => ⟨t, Or.inl (update_self ..)⟩, fun _ _ hs => ?_, fun _ _ hs => ?_, fun _ _ => hrm,
      fun t' res hc => ?_⟩ (fun r hr => ?_) hl
  · rintro (⟨⟨⟩⟩ | ⟨_, ⟨⟩⟩)
    exact hne rfl
  · obtain ⟨heq, hq⟩ := hm b d' hb hne
    exact ⟨heq, update_of_ne hq ..⟩
  · rw [hhl t' hh]
    exact ⟨hin, hst, update_self ..⟩
  · cases hst.symm.trans hs
  · cases hst.symm.trans hs
  · rw [hhl t' (Or.inr ⟨_, hc⟩), update_self] at hc
    cases hc
  · by_cases hq : (dr' d).req = r
    · exact .inl ⟨hq, hq ▸ hin⟩
    · rw [update_of_ne (Ne.symm hq)] at hr
      exact .inr ⟨hr, fun b hb e => hq ((ho b hb).symm.trans e)⟩

theorem copy (ht : pc t = .holding d)
    (hm : ∀ d' ≠ d, dr' d' = dr d') (hq : (dr' d).req = (dr d).req) (hst : (dr' d).status = (dr d).status)
    (hlen : (dr' d).resp.length = (dr d).resp.length)
    (hrs : ∀ x, res = some x → (dr' d).resp.take (size (dr d).req) = x) :
    Phases size dr' (update pc t (.copied d res)) trace chain phase := by
  obtain ⟨hin, hbs, hp⟩ := h.held t d (Or.inl ht)
  have hl : ∀ t', Holds (update pc t (.copied d res) t') d → t' = t := by
    intro t' hh
    by_contra hne
    rw [update_of_ne hne] at hh
    exact hne (h.holder_unique (Or.inl ht) hh)
  have hn : ∀ d' ≠ d, ¬ Holds (pc t) d' ∧ ¬ Holds (.copied d res) d' := by
    intro d' hne
    simp [Holds, ht, Ne.symm hne]
  refine h.focus d (fun _ _ _ => Iff.rfl) (fun d' hne => update_eq_iff (hn d' hne).1 (hn d' hne).2)
    (fun b d' hb hne => ⟨hm d' hne, rfl⟩)
    ⟨fun t' hh => ?_, fun _ _ _ => ⟨t, Or.inr ⟨res, update_self ..⟩⟩, fun _ _ hs => ?_, fun _ _ hs => ?_, fun b hb => ?_,
      fun t' x hc => ?_⟩ (fun r hr => ?_) h.lawful
  · rw [hq, hst, hl t' hh]
    exact ⟨hin, hbs, hp⟩
  · cases (hst.trans hbs).symm.trans hs
  · cases (hst.trans hbs).symm.trans hs
  · rw [hq, hlen]
    exact h.room b d hb
  · rw [hl t' (Or.inr ⟨_, hc⟩), update_self] at hc
    injection hc with _ hre
    rw [hq]
    exact hrs x hre
  · by_cases heq : (dr d).req = r
    · exact .inl ⟨hq.trans heq, heq ▸ hin⟩
    · exact .inr ⟨hr, fun _ _ => heq⟩

omit [DecidableEq T] h in
theorem update_phase (hc : Cache maxdupreqs ndupreqs tbl dr heap ring chain)
    (hin : d ∈ chain (xidHash (dr d).req.xid)) (ph : Phase T) (b : ℕ) (d' : D) (hd' : d' ∈ chain b) (hne : d' ≠ d) :
    update phase (dr d).req ph (dr d').req = phase (dr d').req := by
  refine update_of_ne (fun e => hne (hc.keys b d' hd' d ?_ e)) ..
  rw [← (hc.hashed b d' hd').2, e]
  exact hin

theorem release (hc : Cache maxdupreqs ndupreqs tbl dr heap ring chain)
    (ht : pc t = .copied d res) (hm : ∀ d' ≠ d, dr' d' = dr d')
    (heq : dr' d = { dr d with status := if res.isSome then .done else .drop }) :
    ∃ phase', Phases size dr' (update pc t .idle) (trace ++ [.kdupdone t (dr d).req res]) chain phase' := by
  obtain ⟨hin, -, hp⟩ := h.held t d (Or.inr ⟨_, ht⟩)
  obtain ⟨ph, hph⟩ : ∃ ph : Phase T, ph = match (res : Option (List UInt8)) with
    | some x => .done x
    | none => .dropped := ⟨_, rfl⟩
  have hnx : next phase (.kdupdone t (dr d).req res) = some (update phase (dr d).req ph) := by
    cases res with
    | none => rw [next, if_pos hp, hph]
    | some x => rw [next, if_pos hp, hph]
  have hn : ∀ t', ¬ Holds (update pc t .idle t') d := by
    intro t' hh
    by_cases ht' : t' = t
    · rw [ht', update_self] at hh
      rcases hh with ⟨⟨⟩⟩ | ⟨_, ⟨⟩⟩
    · rw [update_of_ne ht'] at hh
      exact ht' (h.holder_unique (Or.inr ⟨_, ht⟩) hh)
  have hnt : ∀ d' ≠ d, ¬ Holds (pc t) d' ∧ ¬ Holds .idle d' := by
    intro d' hne
    simp [Holds, ht, Ne.symm hne]
  refine ⟨update phase (dr d).req ph, h.focus d (fun _ _ _ => Iff.rfl)
    (fun d' hne => update_eq_iff (hnt d' hne).1 (hnt d' hne).2)
    (fun b d' hb hne => ⟨hm d' hne, update_phase hc hin ph b d' hb hne⟩)
    ⟨fun t' hh => absurd hh (hn t'), fun b hb hs => ?_, fun b hb hs => ?_, fun b hb hs => ?_, fun b hb => ?_,
      fun t' x hc => absurd (Or.inr ⟨_, hc⟩) (hn t')⟩ (fun r hr => ?_) (h.lawful.snoc hnx)⟩
  · rw [heq] at hs
    cases res <;> cases hs
  · rw [heq] at hs ⊢
    cases res with
    | none => cases hs
    | some x => rw [update_self, hph, h.copied t d x ht]
  · rw [heq] at hs ⊢
    cases res with
    | none => rw [update_self, hph]
    | some x => cases hs
  · rw [heq]
    exact h.room b d hb
  · by_cases hr' : (dr d).req = r
    · exact .inl ⟨by rw [heq, hr'], hr' ▸ hin⟩
    · rw [update_of_ne (Ne.symm hr')] at hr
      exact .inr ⟨hr, fun _ _ => hr'⟩

variable [DecidableEq D]

theorem retire (hc : Cache maxdupreqs ndupreqs tbl dr heap ring chain) (ht : (dr d).status ≠ .inProgress) :
    ∃ phase', Phases size dr pc (trace ++ if d ∈ chain (xidHash (dr d).req.xid) then [.recycled (dr d).req] else [])
      (fun b => (chain b).erase d) phase' := by
  have hmem : ∀ b d', d' ∈ (chain b).erase d ↔ d' ≠ d ∧ d' ∈ chain b := fun b d' => (hc.spells b).nodup.mem_erase_iff
  have ho : ∀ b, d ∉ (chain b).erase d := fun b hb => ((hmem b d).mp hb).1 rfl
  have hn : ∀ t, ¬ Holds (pc t) d := fun t hh => ht (h.held t d hh).2.1
  by_cases hd : d ∈ chain (xidHash (dr d).req.xid)
  · rw [if_pos hd]
    have hnx : next phase (.recycled (dr d).req) = some (update phase (dr d).req .absent) := by
      cases hs : (dr d).status with
      | inProgress => exact absurd hs ht
      | done => simp [next, h.done _ d hd hs]
      | drop => simp [next, h.drop _ d hd hs]
    refine ⟨update phase (dr d).req .absent, h.focus d (fun b d' hne => by simp [hmem, hne]) (fun _ _ _ _ _ => Iff.rfl)
      (fun b d' hb hne => ⟨rfl, update_phase hc hd _ b d' hb hne⟩)
      ⟨fun t hh => absurd hh (hn t), fun b hb => absurd hb (ho b), fun b hb => absurd hb (ho b),
        fun b hb => absurd hb (ho b), fun b hb => absurd hb (ho b), fun t _ hc => absurd (Or.inr ⟨_, hc⟩) (hn t)⟩
      (fun r hr => ?_) (h.lawful.snoc hnx)⟩
    by_cases hq : (dr d).req = r
    · rw [hq, update_self] at hr
      exact absurd rfl hr
    · rw [update_of_ne (Ne.symm hq)] at hr
      exact .inr ⟨hr, fun _ _ => hq⟩
  · rw [if_neg hd, append_nil]
    have hnt : ∀ b, d ∉ chain b := fun b hb => hd ((hc.hashed b d hb).2 ▸ hb)
    have heq : (fun b => (chain b).erase d) = chain := funext fun b => erase_of_not_mem (hnt b)
    rw [heq]
    exact ⟨phase, h⟩

end Phases

/-! ### Steps -/

def Inside : Pc D → Prop
  | .found .. | .missing _ | .scanning .. => True
  | _ => False

/-- What a thread inside of `svc_clts_kdup` knows. -/
def At (maxdupreqs : ℕ) (dr : D → Entry D) (ring : List D) (chain : ℕ → List D) : Pc D → Prop
  | .found r d s => d ∈ chain (xidHash r.xid) ∧ (dr d).req = r ∧ (dr d).status = s
  | .missing r => ∀ d ∈ chain (xidHash r.xid), (dr d).req ≠ r
  | .scanning r d passed => (∀ d ∈ chain (xidHash r.xid), (dr d).req ≠ r) ∧ ring.length = maxdupreqs ∧
      ring[passed]? = some d ∧ ∃ i d', passed ≤ i ∧ ring[i]? = some d' ∧ (dr d').status ≠ .inProgress
  | _ => True

structure Inv [DecidableEq T] (maxdupreqs : ℕ) (size : Req → ℕ) (w : World T D) (ring : List D) (chain : ℕ → List D)
    (phase : Req → Phase T) : Prop where
  cache : Cache maxdupreqs w.ndupreqs w.drhashtbl w.dr w.heap ring chain
  phases : Phases size w.dr w.pc w.trace chain phase
  mru : w.drmru = ring.getLast?
  lock : ∀ t, Inside (w.pc t) → w.lock = some t
  inside : ∀ t, At maxdupreqs w.dr ring chain (w.pc t)

theorem at_of_not_inside {p : Pc D} (h : ¬ Inside p) : At maxdupreqs dr ring chain p := by
  cases p with
  | found | missing | scanning => exact absurd trivial h
  | idle | holding | copied => trivial

theorem not_holds_of_inside {p : Pc D} (h : Inside p) (d : D) : ¬ Holds p d := by
  rintro (rfl | ⟨_, rfl⟩) <;> exact h

theorem le_length_respBuf {e : Entry D} {mem : Mem} {resp : List UInt8} (h : respBuf e n mem = some resp) :
    n ≤ resp.length := by
  rw [respBuf] at h
  split at h
  · obtain ⟨f, -, rfl⟩ := Option.map_eq_some_iff.mp h
    simp
  · cases h
    omega

theorem not_holds_idle (d : D) : ¬ Holds .idle d := by
  rintro (⟨⟨⟩⟩ | ⟨_, ⟨⟩⟩)

section Steps

theorem inside_of {w : World T D} {t : T} {p : Pc D} (h : w.pc t = p) (hp : Inside p) : Inside (w.pc t) :=
  h ▸ hp

variable [DecidableEq T] {w w' : World T D} {phase : Req → Phase T} {t : T}

/-- The thread is inside, and no other thread is. -/
def Alone (pc : T → Pc D) (t : T) : Prop := Inside (pc t) ∧ ∀ t' ≠ t, ¬ Inside (pc t')

/-- A step of a thread while no other is inside. -/
theorem inv_of_alone {pc : T → Pc D} {p : Pc D} (hw : w.pc = update pc t p) (hpc : ∀ t' ≠ t, ¬ Inside (pc t'))
    (hc : Cache maxdupreqs w.ndupreqs w.drhashtbl w.dr w.heap ring chain)
    (hh : Phases size w.dr w.pc w.trace chain phase) (hm : w.drmru = ring.getLast?)
    (hl : Inside p → w.lock = some t) (hp : At maxdupreqs w.dr ring chain p) :
    Inv maxdupreqs size w ring chain phase := by
  refine ⟨hc, hh, hm, ?_, ?_⟩
  · rw [hw, forall_update_iff pc fun t' q => Inside q → w.lock = some t']
    exact ⟨hl, fun t' ht' hin => absurd hin (hpc t' ht')⟩
  · rw [hw, forall_update_iff pc fun _ q => At maxdupreqs w.dr ring chain q]
    exact ⟨hp, fun t' ht' => at_of_not_inside (hpc t' ht')⟩

namespace Inv

variable (h : Inv maxdupreqs size w ring chain phase)
include h

theorem alone (ht : Inside (w.pc t)) : Alone w.pc t :=
  ⟨ht, fun t' hne ht' => hne (Option.some.inj ((h.lock t' ht').symm.trans (h.lock t ht)))⟩

theorem leave (ht : Inside (w.pc t)) {m : Mark T}
    (hm : next phase m = some phase) : Inv maxdupreqs size (w.leave t .idle m) ring chain phase := by
  have hp := h.phases.move (p := .idle) (not_holds_of_inside ht) not_holds_idle (h.phases.lawful.snoc hm)
  exact inv_of_alone rfl (h.alone ht).2 h.cache hp h.mru nofun trivial

theorem kdup [DecidableEq D] {r : Req} (ht : w.pc t = .idle)
    (hf : w.lock = none) {p : Pc D} (hp : p = match search w r with
      | some d => .found r d (w.dr d).status
      | none => .missing r) : Inv maxdupreqs size { w with lock := some t, pc := update w.pc t p } ring chain phase := by
  have hn : ∀ t', ¬ Inside (w.pc t') := fun t' hin => by
    rw [h.lock t' hin] at hf
    cases hf
  have hnt : ∀ d, ¬ Holds p d := by
    rw [hp]
    intro d
    cases search w r with
    | none => exact not_holds_of_inside (p := .missing r) trivial d
    | some d' => exact not_holds_of_inside (p := .found r d' _) trivial d
  have hid : ∀ d, ¬ Holds (w.pc t) d := ht ▸ not_holds_idle
  refine inv_of_alone rfl (fun t' _ => hn t') h.cache (h.phases.move hid hnt h.phases.lawful) h.mru (fun _ => rfl) ?_
  rw [hp]
  have hsr := search_eq h.cache r
  cases hs : search w r with
  | none =>
    rw [hs, eq_comm, List.find?_eq_none] at hsr
    intro d hd
    simpa using hsr d hd
  | some d =>
    rw [hs] at hsr
    have hr := List.find?_some hsr.symm
    exact ⟨mem_of_find?_eq_some hsr.symm, by simpa using hr, rfl⟩

variable [DecidableEq D]

theorem hit {r : Req} {s : Status} (ht : w.pc t = .found r d s) :
    ∃ phase', Inv maxdupreqs size (hit size w t r d s) ring chain phase' := by
  have hin := inside_of ht trivial
  obtain ⟨hd, hr, hs⟩ : At maxdupreqs w.dr ring chain (.found r d s) := ht ▸ h.inside t
  cases s with
  | done =>
    have hm : next phase (.kdup t r (.done ((w.dr d).resp.take (size r)))) = some phase := by
      rw [next, if_pos]
      rw [← hr]
      exact h.phases.done _ d hd hs
    exact ⟨phase, h.leave hin hm⟩
  | inProgress =>
    -- the store writes what is there
    have hsm : w.set d { w.dr d with status := .inProgress } = w := by
      have heq : { w.dr d with status := .inProgress } = w.dr d := by rw [← hs]
      rw [World.set, heq, update_eq_self]
    obtain ⟨t', ht'⟩ := h.phases.busy _ d hd hs
    have hm : next phase (.kdup t r .inProgress) = some phase := by
      rw [next, ← hr, (h.phases.held t' d ht').2.2]
    refine ⟨phase, ?_⟩
    rw [Dupreq.hit, hsm]
    exact h.leave hin hm
  | drop =>
    have hf : ∀ t', ¬ Holds (w.pc t') d := by
      intro t' hh
      rw [(h.phases.held t' d hh).2.1] at hs
      cases hs
    have hm : next phase (.kdup t r .drop) = some (update phase r (.executing t)) := by
      rw [next, if_pos]
      rw [← hr]
      exact h.phases.drop _ d hd hs
    obtain ⟨dr', hd'⟩ : ∃ dr', dr' = update w.dr d { w.dr d with status := .inProgress } := ⟨_, rfl⟩
    have hl : dr' d = { w.dr d with status := .inProgress } := by rw [hd', update_self]
    have hr' : (dr' d).req = r := by rw [hl, ← hr]
    have hp : Phases size dr' (update w.pc t (.holding d)) (w.trace ++ [.kdup t r .drop]) chain
        (update phase (dr' d).req (.executing t)) := by
      refine h.phases.take (not_holds_of_inside hin) hf (fun b d' => ?_) (fun b d' hb hne => ?_) ?_ ?_ ?_ ?_
      · refine ⟨.inl, ?_⟩
        rintro (hb | ⟨rfl, rfl⟩)
        · exact hb
        · rw [hr']
          exact hd
      · refine ⟨by rw [hd', update_of_ne hne], fun e => hne (h.cache.keys b d' hb d ?_ (by rw [e, hr', hr]))⟩
        rw [← (h.cache.hashed b d' hb).2, e, hr']
        exact hd
      · rw [hl]
      · rw [hl]
        exact h.phases.room _ d hd
      · intro b hb
        rw [hr', hr]
      · rw [hr']
        exact h.phases.lawful.snoc hm
    refine ⟨update phase (dr' d).req (.executing t), inv_of_alone rfl (h.alone hin).2 ?_ ?_ h.mru nofun trivial⟩
    · exact h.cache.set rfl rfl rfl
    · dsimp only [Dupreq.hit, World.leave, World.set]
      rw [← hd']
      exact hp

end Inv

/-- A thread is about to put a request into an entry that is on no chain. -/
structure Ready (maxdupreqs : ℕ) (size : Req → ℕ) (w : World T D) (ring : List D) (chain : ℕ → List D)
    (phase : Req → Phase T) (t : T) (r : Req) (d : D) : Prop where
  cache : Cache maxdupreqs w.ndupreqs w.drhashtbl w.dr w.heap ring chain
  phases : Phases size w.dr w.pc w.trace chain phase
  alone : Alone w.pc t
  last : ring.getLast? = some d
  out : ∀ b, d ∉ chain b
  new : ∀ d ∈ chain (xidHash r.xid), (w.dr d).req ≠ r

namespace Ready

variable [DecidableEq D] {r : Req}

section

variable (h : Ready maxdupreqs size w ring chain phase t r d)
include h

theorem fail {e : Entry D} (hn : e.next = (w.dr d).next) (hc : e.chain = (w.dr d).chain) :
    Inv maxdupreqs size (({ w with drmru := some d } : World T D).set d e |>.leave t .idle (.kdup t r .error)) ring chain
      phase := by
  have hs : ∀ b, ∀ d' ∈ chain b, update w.dr d e d' = w.dr d' := fun b d' hb =>
    update_of_ne (fun he : d' = d => h.out b (he ▸ hb)) ..
  have hm : next phase (.kdup t r .error) = some phase := by
    rw [next, if_pos (h.phases.absent h.new)]
  have hcc : Cache maxdupreqs w.ndupreqs w.drhashtbl (update w.dr d e) w.heap ring chain := by
    exact h.cache.congr (Cache.field_update Entry.next hn) (Cache.field_update Entry.chain hc)
      fun b d' hb => by rw [hs b d' hb]
  have hp : Phases size (update w.dr d e) w.pc w.trace chain phase := by
    refine h.phases.congr fun b d' hb => ?_
    rw [hs b d' hb]
    exact ⟨rfl, rfl, rfl⟩
  exact inv_of_alone rfl h.alone.2 hcc
    (hp.move (not_holds_of_inside h.alone.1) not_holds_idle (hp.lawful.snoc hm)) h.last.symm nofun trivial

theorem recache (mem : Mem) : ∃ chain' phase', Inv maxdupreqs size (recache size w t r d mem) ring chain' phase' := by
  rw [Dupreq.recache]
  dsimp only
  split
  · exact ⟨_, _, h.fail rfl rfl⟩
  split
  · exact ⟨_, _, h.fail rfl rfl⟩
  next resp hr =>
    obtain ⟨e, he⟩ : ∃ e : Entry D, e = { w.dr d with
      req := r
      addrMaxlen := if (w.dr d).addrMaxlen < r.addr.length then r.addr.length else (w.dr d).addrMaxlen
      resp := resp
      status := .inProgress
      chain := w.drhashtbl (xidHash r.xid) } := ⟨_, rfl⟩
    have hq : e.req = r := by rw [he]
    have hrm : size r ≤ resp.length := le_length_respBuf hr
    have hd : d ∈ ring := mem_of_getLast? h.last
    have hc := h.cache.push (e := e) hd h.out (by rw [hq]; exact h.new) (by rw [he]) (by rw [hq, he])
    have hm : next phase (.kdup t r .new) = some (update phase r (.executing t)) := by
      rw [next, if_pos (h.phases.absent h.new)]
    have hs : update w.dr d e d = e := update_self ..
    have hf : ∀ t', ¬ Holds (w.pc t') d := fun t' hh => h.out _ (h.phases.held t' d hh).1
    have hp : Phases size (update w.dr d e) (update w.pc t (.holding d)) (w.trace ++ [.kdup t r .new])
        (update chain (xidHash e.req.xid) (d :: chain (xidHash e.req.xid)))
        (update phase (update w.dr d e d).req (.executing t)) := by
      refine h.phases.take (not_holds_of_inside h.alone.1) hf (fun b d' => ?_) (fun b d' hb hne => ?_) ?_ ?_ ?_ ?_
      · rw [hs, update_apply]
        split
        next hb => simp [hb, or_comm]
        next hb => simp [hb]
      · rw [update_of_ne hne, hs, hq]
        refine ⟨rfl, fun heq => h.new d' ?_ heq⟩
        rw [← heq, (h.cache.hashed b d' hb).2]
        exact hb
      · rw [hs, he]
      · rw [hs, hq, he]
        exact hrm
      · exact fun b hb => absurd hb (h.out b)
      · rw [hs, hq]
        exact h.phases.lawful.snoc hm
    rw [hs, hq] at hp
    rw [hq] at hc
    subst he
    exact ⟨_, _, inv_of_alone rfl h.alone.2 hc hp h.last.symm nofun trivial⟩

end

end Ready

namespace Inv

variable [DecidableEq D] {r : Req} {mem : Mem} (h : Inv maxdupreqs size w ring chain phase)
include h

theorem ready_link (ht : w.pc t = .missing r) (hm : w.ndupreqs < maxdupreqs) (hd : d ∉ w.heap) :
    Ready maxdupreqs size (link w d) (ring ++ [d]) chain phase t r d := by
  have hr : d ∉ ring := fun hmem => hd ((h.cache.heap d).mpr hmem)
  obtain ⟨hl, hc⟩ := link_spec h.cache.circle h.mru hr
  have hne : ∀ b, ∀ d' ∈ chain b, d' ≠ d := fun b d' hb e => hr (e ▸ (h.cache.hashed b d' hb).1)
  have ha : ∀ b, ∀ d' ∈ chain b, (link w d).dr d' = { w.dr d' with next := ((link w d).dr d').next } :=
    fun b d' hb => hl.alike d' (hne b d' hb)
  have hn : ∀ d' ∈ chain (xidHash r.xid), (w.dr d').req ≠ r := by
    have := h.inside t
    rwa [ht] at this
  refine ⟨hl.cache hc h.cache hr hm, ?_, ?_, List.getLast?_concat .., fun b hb => hne b d hb rfl, ?_⟩
  · rw [hl.pc, hl.trace]
    refine h.phases.congr fun b d' hb => ?_
    rw [ha b d' hb]
    exact ⟨rfl, rfl, rfl⟩
  · rw [hl.pc]
    exact h.alone (inside_of ht trivial)
  · intro d' hb
    rw [ha _ d' hb]
    exact hn d' hb

theorem ready_unhash (ht : w.pc t = .scanning r d n) (hs : (w.dr d).status ≠ .inProgress) :
    ∃ phase', Ready maxdupreqs size (unhash w d) (ring.rotate (n + 1)) (fun b => (chain b).erase d) phase' t r d := by
  obtain ⟨hw, -, hn, -⟩ : At maxdupreqs w.dr ring chain (.scanning r d n) := ht ▸ h.inside t
  have hu := unhash_spec h.cache (d := d)
  have hmem : ∀ b d', d' ∈ (chain b).erase d ↔ d' ≠ d ∧ d' ∈ chain b :=
    fun b d' => (h.cache.spells b).nodup.mem_erase_iff
  obtain ⟨phase', hp⟩ := h.phases.retire h.cache hs
  refine ⟨phase', ?_, ?_, ?_, ?_, fun b hb => ((hmem b d).mp hb).1 rfl, fun d' hb => ?_⟩
  · rw [hu.ndupreqs, hu.heap]
    exact (h.cache.shrink hu.next (fun _ d' _ => by rw [hu.alike d']) hu.spells fun b d' hb => ((hmem b d').mp hb).2).rotate _
  · rw [hu.pc, hu.trace]
    refine hp.congr fun b d' _ => ?_
    rw [hu.alike d']
    exact ⟨rfl, rfl, rfl⟩
  · rw [hu.pc]
    exact h.alone (inside_of ht trivial)
  · rw [Circle.getLast?_rotate (List.getElem?_eq_some_iff.mp hn).1, hn]
  · rw [hu.alike d']
    exact hw d' ((hmem _ d').mp hb).2

omit [DecidableEq D] in
theorem walk (ht : Inside (w.pc t)) (hat : At maxdupreqs w.dr ring chain (.scanning r d n)) :
    Inv maxdupreqs size { w with pc := update w.pc t (.scanning r d n) } ring chain phase :=
  inv_of_alone rfl (h.alone ht).2 h.cache
    (h.phases.move (not_holds_of_inside ht) (not_holds_of_inside trivial) h.phases.lawful) h.mru
    (fun _ => h.lock t ht) hat

theorem miss (ht : w.pc t = .missing r)
    (hp : w.ndupreqs = maxdupreqs → ∃ d ∈ w.heap, (w.dr d).status ≠ .inProgress) {d : Option D}
    (he : miss maxdupreqs size w t r d mem = some w') :
    ∃ ring' chain' phase', Inv maxdupreqs size w' ring' chain' phase' := by
  have hin := inside_of ht trivial
  have hn : ∀ d ∈ chain (xidHash r.xid), (w.dr d).req ≠ r := by
    have := h.inside t
    rwa [ht] at this
  rw [Dupreq.miss.eq_def] at he
  split at he
  next hr =>
    cases d with
    | none =>
      cases he
      refine ⟨_, _, _, h.leave hin ?_⟩
      rw [next, if_pos (h.phases.absent hn)]
    | some d =>
      dsimp only at he
      split at he
      · cases he
      next hd =>
        cases he
        obtain ⟨chain', phase', hv⟩ := (h.ready_link ht hr hd).recache mem
        exact ⟨_, chain', phase', hv⟩
  next hr =>
    obtain ⟨m, hm, rfl⟩ := Option.map_eq_some_iff.mp he
    have hlen := h.cache.len
    have hmax := h.cache.max
    -- the scan starts at the oldest entry, and there is one it will stop at
    obtain ⟨d', hd', hs⟩ := hp (by omega)
    obtain ⟨i, hi⟩ := mem_iff_getElem?.mp ((h.cache.heap d').mp hd')
    have hf := h.cache.circle.next_last (h.mru.symm.trans hm)
    have hat : At maxdupreqs w.dr ring chain (.scanning r (w.dr m).next 0) :=
      ⟨hn, by omega, hf, i, d', Nat.zero_le i, hi, hs⟩
    exact ⟨_, _, _, h.walk hin hat⟩

theorem scan (ht : w.pc t = .scanning r d n) :
    ∃ ring' chain' phase', Inv maxdupreqs size (scan size w t r d n mem) ring' chain' phase' := by
  have hin := inside_of ht trivial
  obtain ⟨hw, hlen, hn, i, d', hni, hi, hs⟩ : At maxdupreqs w.dr ring chain (.scanning r d n) := ht ▸ h.inside t
  rw [Dupreq.scan]
  split
  next hb =>
    have hne : i ≠ n := by
      rintro rfl
      obtain rfl := Option.some.inj (hn.symm.trans hi)
      exact hs hb
    have hlt := (List.getElem?_eq_some_iff.mp hi).1
    have hat : At maxdupreqs w.dr ring chain (.scanning r (w.dr d).next (n + 1)) :=
      ⟨hw, hlen, h.cache.circle.next_of_lt hn (by omega), i, d', by omega, hi, hs⟩
    exact ⟨_, _, _, h.walk hin hat⟩
  next hb =>
    obtain ⟨phase1, hr⟩ := h.ready_unhash ht hb
    obtain ⟨chain', phase', hv⟩ := hr.recache mem
    exact ⟨_, chain', phase', hv⟩

omit [DecidableEq D] in
/-- A step of a thread that executes a request, which changes the status of no entry that a thread inside has read. -/
theorem outside {p : Pc D} (hp : ¬ Inside p) (hq : ∀ d, (dr' d).req = (w.dr d).req)
    (ht : ∀ d, (w.dr d).status ≠ .inProgress → (dr' d).status ≠ .inProgress)
    (hf : ∀ t' r d s, w.pc t' = .found r d s → (dr' d).status = (w.dr d).status) :
    (∀ t', Inside (update w.pc t p t') → w.lock = some t') ∧
      ∀ t', At maxdupreqs dr' ring chain (update w.pc t p t') := by
  refine ⟨fun t' hin => ?_, fun t' => ?_⟩
  · exact (forall_update_iff w.pc fun t' q => Inside q → w.lock = some t').mpr
      ⟨fun hin => absurd hin hp, fun t' _ => h.lock t'⟩ t' hin
  · refine (forall_update_iff w.pc fun _ q => At maxdupreqs dr' ring chain q).mpr
      ⟨at_of_not_inside hp, fun t' _ => ?_⟩ t'
    have hat := h.inside t'
    cases hpc : w.pc t' with
    | found r d s =>
      obtain ⟨hd, hr, hs⟩ : At maxdupreqs w.dr ring chain (.found r d s) := hpc ▸ hat
      exact ⟨hd, (hq d).trans hr, (hf t' r d s hpc).trans hs⟩
    | missing r =>
      rw [hpc] at hat
      intro d hd
      rw [hq]
      exact hat d hd
    | scanning r d n =>
      obtain ⟨hw, hlen, hn, i, d', hni, hi, hs⟩ : At maxdupreqs w.dr ring chain (.scanning r d n) := hpc ▸ hat
      exact ⟨fun d hd => hq d ▸ hw d hd, hlen, hn, i, d', hni, hi, ht d' hs⟩
    | idle | holding | copied => trivial

theorem copy (ht : w.pc t = .holding d)
    (he : copy size w t d res = some w') : Inv maxdupreqs size w' ring chain phase := by
  cases res with
  | none =>
    cases he
    have hp : Phases size w.dr (update w.pc t (.copied d none)) w.trace chain phase :=
      h.phases.copy ht (fun _ _ => rfl) rfl rfl rfl nofun
    obtain ⟨hl, hat⟩ := h.outside (p := .copied d none) id (fun _ => rfl) (fun _ hs => hs) fun _ _ _ _ _ => rfl
    exact ⟨h.cache, hp, h.mru, hl, hat⟩
  | some x =>
    rw [Dupreq.copy] at he
    split at he
    next hx =>
      cases he
      obtain ⟨e, he⟩ : ∃ e : Entry D, e = { w.dr d with resp := overwrite (w.dr d).resp x } := ⟨_, rfl⟩
      have hq := Cache.field_update Entry.req (show e.req = (w.dr d).req by rw [he])
      have hst := Cache.field_update Entry.status (show e.status = (w.dr d).status by rw [he])
      have hr := h.phases.room _ d (h.phases.held t d (Or.inl ht)).1
      rw [← hx] at hr
      have hp : Phases size (update w.dr d e) (update w.pc t (.copied d (some x))) w.trace chain phase := by
        refine h.phases.copy ht (fun d' hd' => update_of_ne hd' ..) (hq d) (hst d) ?_ fun y hy => ?_
        · rw [update_self, he]
          dsimp only
          rw [overwrite, length_append, take_of_length_le hr, length_drop]
          omega
        · cases hy
          rw [update_self, he, ← hx]
          dsimp only
          rw [overwrite, take_of_length_le hr, take_left]
      obtain ⟨hl, hat⟩ := h.outside (p := .copied d (some x)) id hq (fun d' hs => hst d' ▸ hs)
        fun _ _ d' _ _ => hst d'
      subst he
      exact ⟨h.cache.set rfl rfl rfl, hp, h.mru, hl, hat⟩
    · cases he

theorem store (ht : w.pc t = .copied d res) (hq : ∀ t' r s, w.pc t' ≠ .found r d s) :
    ∃ phase', Inv maxdupreqs size (store w t d res) ring chain phase' := by
  obtain ⟨e, he⟩ : ∃ e : Entry D, e = { w.dr d with status := if res.isSome then .done else .drop } := ⟨_, rfl⟩
  have hr := Cache.field_update Entry.req (show e.req = (w.dr d).req by rw [he])
  have ho : ∀ d' ≠ d, update w.dr d e d' = w.dr d' := fun d' hd' => update_of_ne hd' ..
  have hst : ∀ d', (w.dr d').status ≠ .inProgress → (update w.dr d e d').status ≠ .inProgress := by
    intro d' hs
    by_cases hd' : d' = d
    · rw [hd', update_self, he]
      cases res <;> nofun
    · rwa [ho d' hd']
  obtain ⟨phase', hp⟩ := h.phases.release h.cache ht ho ((update_self ..).trans he)
  obtain ⟨hl, hat⟩ := h.outside (p := .idle) id hr hst fun t' r d' s hf => by
    rw [ho d']
    rintro rfl
    exact hq t' r s hf
  rw [← hr] at hp
  subst he
  exact ⟨phase', h.cache.set rfl rfl rfl, hp, h.mru, hl, hat⟩

end Inv

end Steps

/-! ### Runs -/

section Runs

variable [DecidableEq T] [DecidableEq D] {w w' : World T D}

def Init (w : World T D) : Prop :=
  w.ndupreqs = 0 ∧ w.drhashtbl = (fun _ => none) ∧ w.drmru = none ∧ w.heap = [] ∧ w.lock = none ∧
    w.pc = (fun _ => .idle) ∧ w.trace = []

/-- No status is stored by `svc_clts_kdupdone` between the read of it and the store to it by a call of `svc_clts_kdup`,
and a call that finds the cache full finds an entry that is not in progress. -/
def Orderly (maxdupreqs : ℕ) (w : World T D) : Event T D → Prop
  | .store t => ∀ d, Holds (w.pc t) d → ∀ t' r s, w.pc t' ≠ .found r d s
  | .miss _ _ _ => w.ndupreqs = maxdupreqs → ∃ d ∈ w.heap, (w.dr d).status ≠ .inProgress
  | _ => True

def Step (maxdupreqs : ℕ) (size : Req → ℕ) (w w' : World T D) : Prop :=
  ∃ e, Orderly maxdupreqs w e ∧ exec maxdupreqs size w e = some w'

def Good (maxdupreqs : ℕ) (size : Req → ℕ) (w : World T D) : Prop :=
  ∃ ring chain phase, Inv maxdupreqs size w ring chain phase

omit [DecidableEq D] in
theorem Init.good (h : Init w) : Good maxdupreqs size w := by
  obtain ⟨hn, hb, hm, hp, hl, hpc, ht⟩ := h
  refine ⟨[], fun _ => [], fun _ => .absent, ⟨⟨nodup_nil, nofun⟩, hn, Nat.zero_le _, ?_, ?_, nofun, nofun⟩,
    ⟨?_, nofun, nofun, nofun, fun r hr => absurd rfl hr, nofun, ?_, ?_⟩, hm, ?_, ?_⟩
  · rw [hp]
    exact fun d => Iff.rfl
  · rw [hb]
    exact fun b => rfl
  · rw [hpc]
    exact fun t d hh => absurd hh (not_holds_idle d)
  · rw [hpc]
    nofun
  · rw [ht]
    rfl
  · rw [hpc]
    nofun
  · rw [hpc]
    exact fun _ => trivial

theorem Good.step (h : Good maxdupreqs size w) (hs : Step maxdupreqs size w w') : Good maxdupreqs size w' := by
  obtain ⟨ring, chain, phase, h⟩ := h
  obtain ⟨e, ho, he⟩ := hs
  cases e with rw [exec] at he
  | kdup t r =>
    split at he
    next hc =>
      cases he
      exact ⟨_, _, _, h.kdup hc.1 hc.2 rfl⟩
    · cases he
  | hit t =>
    split at he
    next r d s ht =>
      cases he
      obtain ⟨phase', hin⟩ := h.hit ht
      exact ⟨_, _, _, hin⟩
    · cases he
  | miss t d mem =>
    split at he
    next r ht => exact h.miss ht ho he
    · cases he
  | scan t mem =>
    split at he
    next r d n ht =>
      cases he
      exact h.scan ht
    · cases he
  | copy t res =>
    split at he
    next d ht => exact ⟨_, _, _, h.copy ht he⟩
    · cases he
  | store t =>
    split at he
    next d res ht =>
      cases he
      obtain ⟨phase', hin⟩ := h.store ht (ho d (Or.inr ⟨res, ht⟩))
      exact ⟨_, _, _, hin⟩
    · cases he

def Event.thread : Event T D → T
  | .kdup t _ | .hit t | .miss t _ _ | .scan t _ | .copy t _ | .store t => t

/-- How many steps a call of `svc_clts_kdup` has left at most. -/
def rank (maxdupreqs : ℕ) : Pc D → ℕ
  | .found .. => 1
  | .missing _ => maxdupreqs + 1
  | .scanning _ _ passed => maxdupreqs - passed
  | _ => 0

structure Serves (maxdupreqs : ℕ) (size : Req → ℕ) (w : World T D) : Prop where
  /-- the results are those of the abstract machine -/
  lawful : ∃ phase, Lawful w.trace phase
  /-- a request is executed by one thread at a time -/
  exclusive : ∀ t t' d d', Holds (w.pc t) d → Holds (w.pc t') d' → (w.dr d).req = (w.dr d').req → t = t'
  /-- what is executed stays in the cache -/
  kept : ∀ t d, Holds (w.pc t) d → search w (w.dr d).req = some d
  /-- hashed entries are on the ring once and are found by their keys -/
  cached : ∃ ring, Circle (fun d => (w.dr d).next) ring ∧ w.drmru = ring.getLast? ∧ ring.Nodup ∧
    ∀ b, ∃ l, Chain.Spells (fun d => (w.dr d).chain) (w.drhashtbl b) l ∧
      ∀ d ∈ l, d ∈ ring ∧ search w (w.dr d).req = some d
  /-- a call can go on whatever the allocations give -/
  enabled : ∀ t, Inside (w.pc t) → ∀ mem,
    ∃ e ∈ [.hit t, .miss t none mem, .scan t mem], (exec maxdupreqs size w e).isSome
  /-- and comes closer to its end with each of its steps, which are the only ones that move it -/
  ends : ∀ t, Inside (w.pc t) → ∀ e w', exec maxdupreqs size w e = some w' →
    if e.thread = t then rank maxdupreqs (w'.pc t) < rank maxdupreqs (w.pc t) else w'.pc t = w.pc t

theorem recache_pc (maxdupreqs : ℕ) (size : Req → ℕ) (w : World T D) (t : T) (r : Req) (d : D) (mem : Mem) :
    ∃ p, (recache size w t r d mem).pc = update w.pc t p ∧ rank maxdupreqs p = 0 := by
  rw [recache]
  dsimp only
  split
  · exact ⟨.idle, rfl, rfl⟩
  split
  · exact ⟨.idle, rfl, rfl⟩
  · exact ⟨.holding d, rfl, rfl⟩

/-- A step moves its thread only, and a call of `svc_clts_kdup` towards its end. -/
theorem exec_pc {e : Event T D} (hs : ∀ r d n, w.pc e.thread = .scanning r d n → n < maxdupreqs)
    (he : exec maxdupreqs size w e = some w') : ∃ p, w'.pc = update w.pc e.thread p ∧
      (Inside (w.pc e.thread) → rank maxdupreqs p < rank maxdupreqs (w.pc e.thread)) := by
  cases e with rw [exec] at he
  | kdup t r =>
    split at he
    next hc =>
      cases he
      refine ⟨_, rfl, fun hin => ?_⟩
      rw [Event.thread, hc.1] at hin
      exact hin.elim
    · cases he
  | hit t =>
    split at he
    next r d s ht =>
      cases he
      rw [Event.thread, ht]
      cases s with
      | inProgress | done => exact ⟨.idle, rfl, fun _ => Nat.zero_lt_one⟩
      | drop => exact ⟨.holding d, rfl, fun _ => Nat.zero_lt_one⟩
    · cases he
  | miss t d mem =>
    split at he
    next r ht =>
      rw [Event.thread, ht]
      rw [miss.eq_def] at he
      split at he
      · cases d with
        | none =>
          cases he
          exact ⟨.idle, rfl, fun _ => Nat.succ_pos _⟩
        | some d =>
          dsimp only at he
          split at he
          · cases he
          · cases he
            obtain ⟨p, hp, hr⟩ := recache_pc maxdupreqs size (link w d) t r d mem
            have hl : (link w d).pc = w.pc := by
              rw [link]
              split <;> rfl
            refine ⟨p, hl ▸ hp, fun _ => ?_⟩
            rw [hr]
            exact Nat.succ_pos _
      · obtain ⟨m, -, rfl⟩ := Option.map_eq_some_iff.mp he
        exact ⟨.scanning r (w.dr m).next 0, rfl, fun _ => Nat.lt_succ_self _⟩
    · cases he
  | scan t mem =>
    split at he
    next r d n ht =>
      cases he
      have hn := hs r d n ht
      rw [Event.thread, ht, scan]
      split
      · refine ⟨.scanning r (w.dr d).next (n + 1), rfl, fun _ => ?_⟩
        rw [rank, rank]
        omega
      · obtain ⟨p, hp, hr⟩ := recache_pc maxdupreqs size (unhash w d) t r d mem
        have hu : (unhash w d).pc = w.pc := by
          rw [unhash]
          split <;> rfl
        refine ⟨p, hu ▸ hp, fun _ => ?_⟩
        rw [rank]
        omega
    · cases he
  | copy t res =>
    split at he
    next d ht =>
      rw [Event.thread, ht]
      cases res with
      | none =>
        cases he
        exact ⟨.copied d none, rfl, False.elim⟩
      | some x =>
        rw [copy] at he
        split at he
        · cases he
          exact ⟨.copied d (some x), rfl, False.elim⟩
        · cases he
    · cases he
  | store t =>
    split at he
    next d res ht =>
      cases he
      rw [Event.thread, ht]
      exact ⟨.idle, rfl, False.elim⟩
    · cases he

theorem Good.serves (h : Good maxdupreqs size w) (hmax : 0 < maxdupreqs) : Serves maxdupreqs size w := by
  obtain ⟨ring, chain, phase, h⟩ := h
  refine ⟨⟨phase, h.phases.lawful⟩, fun t t' d d' hd hd' hq => ?_, fun t d hd => ?_, ?_, fun t hin mem => ?_,
    fun t hin e w' he => ?_⟩
  · have hh := (h.phases.held t d hd).2.2
    rw [hq, (h.phases.held t' d' hd').2.2] at hh
    injection hh with hh
    exact hh.symm
  · exact search_hashed h.cache (h.phases.held t d hd).1
  · refine ⟨ring, h.cache.circle, h.mru, h.cache.circle.nodup, fun b => ⟨chain b, h.cache.spells b, fun d hd => ?_⟩⟩
    exact ⟨(h.cache.hashed b d hd).1, search_hashed h.cache hd⟩
  · cases hpc : w.pc t with
    | found r d s => exact ⟨.hit t, by simp, by simp [exec, hpc]⟩
    | missing r =>
      refine ⟨.miss t none mem, by simp, ?_⟩
      rw [exec, hpc]
      dsimp only
      rw [miss]
      split
      · rfl
      next hf =>
        -- a full cache has a most recently used entry
        have hlen := h.cache.len
        have hne : ring ≠ [] := by
          rintro rfl
          rw [hlen] at hf
          exact hf hmax
        rw [h.mru, List.getLast?_eq_some_getLast hne]
        rfl
    | scanning r d n => exact ⟨.scan t mem, by simp, by simp [exec, hpc]⟩
    | idle | holding | copied =>
      rw [hpc] at hin
      exact hin.elim
  · have hs : ∀ r d n, w.pc e.thread = .scanning r d n → n < maxdupreqs := by
      intro r d n hpc
      obtain ⟨-, hlen, hn, -⟩ : At maxdupreqs w.dr ring chain (.scanning r d n) := hpc ▸ h.inside e.thread
      rw [← hlen]
      exact (List.getElem?_eq_some_iff.mp hn).1
    obtain ⟨p, hp, hr⟩ := exec_pc hs he
    rw [hp]
    split
    next ht =>
      subst ht
      rw [update_self]
      exact hr hin
    next ht => rw [update_of_ne (Ne.symm ht)]

/-- The cache serves as promised in every run in which statuses are stored in order and the cache is never full of
requests in progress when a new one comes. -/
theorem dupreq_serves (hmax : 0 < maxdupreqs) (hr : Reachable Init (Step maxdupreqs size) w) :
    Serves maxdupreqs size w :=
  (hr.invariant (P := Good maxdupreqs size) (fun _ h => h.good) fun _ _ h hs => h.step hs).serves hmax

/-- The condition on the scan is needed: while every entry is in progress it goes round and round. -/
theorem scan_never_ends {t : T} (hc : Circle (fun d => (w.dr d).next) ring) (hd : d ∈ ring)
    (ha : ∀ d ∈ ring, (w.dr d).status = .inProgress) (ht : w.pc t = .scanning r d n) (mem : Mem) (k : ℕ) :
    ∃ w' d', runList (exec maxdupreqs size) w (List.replicate k (.scan t mem)) = some w' ∧
      w'.pc t = .scanning r d' (n + k) := by
  induction k generalizing w d n with
  | zero => exact ⟨w, d, rfl, ht⟩
  | succ k ih =>
    obtain ⟨i, hi⟩ := mem_iff_getElem?.mp hd
    have hn : (w.dr d).next ∈ ring := mem_of_getElem? (hc.step i d hi)
    obtain ⟨w1, hw1⟩ : ∃ w1 : World T D, w1 = { w with pc := update w.pc t (.scanning r (w.dr d).next (n + 1)) } :=
      ⟨_, rfl⟩
    have hex : exec maxdupreqs size w (.scan t mem) = some w1 := by
      rw [exec, ht]
      dsimp only
      rw [scan, if_pos (ha d hd), hw1]
    have hdr : w1.dr = w.dr := by rw [hw1]
    obtain ⟨w', d', hr, hpc⟩ := ih (w := w1) (n := n + 1) (hdr ▸ hc) hn (hdr ▸ ha)
      (by rw [hw1]; exact update_self ..)
    refine ⟨w', d', ?_, by rw [hpc, Nat.add_right_comm, Nat.add_assoc]⟩
    rw [replicate_succ, runList, hex, Option.bind_some, hr]

def empty : World Bool ℕ where
  ndupreqs := 0
  drhashtbl := fun _ => none
  dr := fun _ => ⟨⟨0, 0, 0, 0, []⟩, 0, [], .drop, 0, none⟩
  drmru := none
  heap := []
  lock := none
  pc := fun _ => .idle
  trace := []

theorem init_empty : Init empty := ⟨rfl, rfl, rfl, rfl, rfl, rfl, rfl⟩

def someReq : Req := ⟨7, 100003, 3, 8, [10, 0, 0, 1]⟩

def someMem : Mem := ⟨true, some fun _ => 0⟩

theorem scan_never_ends_full : ∃ w, runList (exec 1 fun _ => 2) empty [.kdup false someReq,
    .miss false (some 1) someMem, .kdup true ⟨0, 0, 0, 0, []⟩, .miss true none someMem] = some w ∧
    ∀ k, ∃ w' d, runList (exec 1 fun _ => 2) w (.replicate k (.scan true someMem)) = some w' ∧
      w'.pc true = .scanning ⟨0, 0, 0, 0, []⟩ d (0 + k) :=
  ⟨_, rfl, scan_never_ends ⟨nodup_singleton 1, by rintro (_ | _) a ⟨⟩; rfl⟩ (mem_singleton_self 1) (by simp; rfl) rfl _⟩

/-- A retransmission comes while the request is executed, and another one when it is done. -/
theorem dupreq_serves_retransmissions : ∃ w : World Bool ℕ, Reachable Init (Step 1024 fun _ => 2) w ∧
    w.trace = [.kdup false someReq .new, .kdup true someReq .inProgress, .kdupdone false someReq (some [5, 6]),
      .kdup true someReq (.done [5, 6])] ∧ Serves 1024 (fun _ => 2) w := by
  have hm : Reachable Init (Step 1024 fun _ => 2) empty := .start init_empty
  have hr := (((((((hm.next ⟨.kdup false someReq, trivial, rfl⟩).next
    ⟨.miss false (some 1) someMem, fun h : 0 = 1024 => absurd h (by decide), rfl⟩).next
    ⟨.kdup true someReq, trivial, rfl⟩).next
    ⟨.hit true, trivial, rfl⟩).next
    ⟨.copy false (some [5, 6]), trivial, rfl⟩).next
    ⟨.store false, (fun _ _ t _ _ h => by cases t <;> cases h), rfl⟩).next
    ⟨.kdup true someReq, trivial, rfl⟩).next
    ⟨.hit true, trivial, rfl⟩
  exact ⟨_, hr, by decide, dupreq_serves (by decide) hr⟩

/-- The status of the request is stored when the call for a retransmission has read it: it is in progress again, for
ever. -/
theorem done_is_lost : Init empty ∧ ∃ w : World Bool ℕ,
    runList (exec 1024 fun _ => 2) empty [.kdup false someReq, .miss false (some 1) someMem, .kdup true someReq,
      .copy false (some [5, 6]), .store false, .hit true, .kdup true someReq, .hit true] = some w ∧
    w.trace = [.kdup false someReq .new, .kdupdone false someReq (some [5, 6]), .kdup true someReq .inProgress,
      .kdup true someReq .inProgress] ∧ ¬ ∃ phase, Lawful w.trace phase := by
  refine ⟨init_empty, _, rfl, by decide, ?_⟩
  rintro ⟨phase, hp⟩
  have hn : (none : Option (Req → Phase Bool)) = some phase := hp
  cases hn

end Runs

end Sol8.Rpc.Dupreq
