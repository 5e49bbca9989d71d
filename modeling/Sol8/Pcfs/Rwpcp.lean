import Sol8.Pcfs.FatRuns

/-! Writing to a file: `rwpcp` for `UIO_WRITE` (`fs/pcfs/pc_vnops.c`), as far as it decides on clusters and sizes. Pages
are filled without errors. -/

namespace Sol8.Pcfs

open Function List Option Nat

namespace Volume

variable (v : Volume)

/-- The clusters that have been allocated between two states of the table. -/
def taken (fs fs' : Fs) : List ℕ :=
  (range (v.ncluster + pcfFirstcluster)).filter fun cn =>
    v.pcValidcl cn && v.entry fs.fatp cn == pcfFreecluster && v.entry fs'.fatp cn != pcfFreecluster

def Full (fs : Fs) : Prop := ∀ x, v.pcValidcl x = true → v.entry fs.fatp x ≠ 0

end Volume

/-! ### One pass -/

open Volume

variable {F : Type} {v : Volume} {fs fs' fs1 fs2 : Fs} {start start' : F → ℕ} {L : F → List ℕ} {R : Set ℕ} {r : ℕ → ℕ}
  {f : F} {files : F → Pcnode} {pcp pcp' : Pcnode} {c l l1 l2 z z1 z2 : List ℕ} {x k offset offset' n limit fuel : ℕ} {uio : Uio}

theorem Consistent.size_of_dvd (h : Consistent v fs files L R r) (hd : (v.clsize : ℤ) ∣ (files f).size) :
    v.clsize * (L f).length = (files f).size := by
  have hc := (clsize_bounds v).1
  obtain ⟨q, hq⟩ := hd
  rw [h.length_eq f, hq, Int.mul_add_ediv_left _ _ (by omega), Int.ediv_eq_zero_of_lt (by omega) (by omega), Int.add_zero]

/-- Clusters `l` have been put behind the chain `c`: nothing else has changed, and those that lie before the offset have
been filled with zeros. -/
structure Fills (v : Volume) (fs : Fs) (c : List ℕ) (offset : ℕ) (fs' : Fs) (l zeroed : List ℕ) : Prop where
  frame : ∀ x, x ∉ c ++ l → v.entry fs'.fatp x = v.entry fs.fatp x
  zeroed : ∀ k x, c.length ≤ k → k < offset / v.clsize → (c ++ l)[k]? = some x → x ∈ zeroed

theorem Fills.refl : Fills v fs c offset fs [] z :=
  ⟨fun _ _ => rfl, fun k x hk _ hx => by simp [hk] at hx⟩

theorem Fills.trans (h1 : Fills v fs c offset fs1 l1 z1) (h2 : Fills v fs1 (c ++ l1) offset' fs2 l2 z2)
    (ho : offset ≤ offset') (hz : z1 ⊆ z2) : Fills v fs c offset fs2 (l1 ++ l2) z2 := by
  refine ⟨fun x hx => ?_, fun k x hk ho' hx => ?_⟩ <;> rw [← append_assoc] at hx
  · rw [h2.frame x hx, h1.frame x fun hm => hx (mem_append_left _ hm)]
  · by_cases hk1 : k < (c ++ l1).length
    · rw [getElem?_append_left hk1] at hx
      exact hz (h1.zeroed k x hk ho' hx)
    · exact h2.zeroed k x (Nat.not_lt.mp hk1) (ho'.trans_le (Nat.div_le_div_right ho)) hx

variable [DecidableEq F]

section

variable (h : Table v fs start L R r) (ht : Table v fs' start' (update L f (L f ++ l)) R r)
include h ht

theorem Table.free_of_mem (hx : x ∈ l) : v.pcValidcl x = true ∧ v.entry fs.fatp x = 0 := by
  have hc := ht.chained f
  rw [update_self] at hc
  have hv := hc.valid x (mem_append_right _ hx)
  refine ⟨hv, ?_⟩
  by_contra hne
  obtain ⟨g, hg⟩ := h.cover x hv hne fun hR => (ht.reserved x hR).2.2 f (by simpa using .inr hx)
  by_cases hf : g = f
  · subst hf
    exact disjoint_of_nodup_append hc.spells.nodup hg hx
  · exact hf (ht.disjoint g f x (by simpa [hf] using hg) (by simpa using .inr hx))

theorem Table.eq_nil (hf : v.Full fs) : l = [] :=
  eq_nil_iff_forall_not_mem.mpr fun x hx => hf x (h.free_of_mem ht hx).1 (h.free_of_mem ht hx).2

end

section

variable (hr : v.Readable) (h : Consistent v fs files L R r)
include hr h

end

def Kept (v : Volume) (fs' : Fs) (files : F → Pcnode) (f : F) (pcp : Pcnode) (L : F → List ℕ) (R : Set ℕ) (r : ℕ → ℕ) :
    Prop :=
  Consistent v fs' (update files f pcp) L R r ∧ pcp.size = (files f).size

section

variable (h : Consistent v fs files L R r) (hfull : v.Full fs) (hd : (v.clsize : ℤ) ∣ (files f).size)
include h hfull hd

theorem Consistent.kept (hc : Consistent v fs' (update files f pcp) (update L f (L f ++ l)) R r)
    (hs : pcp.size = (files f).size ∨ pcp.size = v.clsize * (L f ++ l).length) : Kept v fs' files f pcp L R r := by
  obtain rfl := h.eq_nil hc.toTable hfull
  rw [append_nil, update_eq_self] at hc
  rw [append_nil, h.size_of_dvd hd] at hs
  exact ⟨hc, hs.elim id id⟩

end

end Sol8.Pcfs
