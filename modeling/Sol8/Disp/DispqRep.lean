import Sol8.Disp.Dispq

/-! What a dispatch queue stands for: a list of threads for each priority. Each operation on the fields of the
queue is matched with the change it makes to one of the lists. -/

namespace Sol8.Disp

open Function Sol8.Lib Sol8.Lib.Chain Sol8.Lib.Ranked Sol8.Os.Bitmap List Nat

variable {Q T : Type} {c : Config} {dp dp' : DispT T} {link link' : T → Option T} {bound : T → Bool}
  {L : ℕ → List T} {l l1 l2 : List T} {p q n : ℕ} {t tp : T} {dq : Dispq T}

/-- The queue holds the threads of `L p` at priority `p`, in this order. -/
structure Rep (c : Config) (dp : DispT T) (link : T → Option T) (bound : T → Bool) (L : ℕ → List T) : Prop where
  chain : ∀ p, Spells link (dp.q p).first (L p)
  last : ∀ p, (dp.q p).last = (L p).getLast?
  sruncnt : ∀ p, (dp.q p).sruncnt = (L p).length
  range : ∀ p, dp.npri ≤ p → L p = []
  words : Words c.ulshift dp.qactmap
  qactmap : ∀ p, btTest c.ulshift dp.qactmap p ↔ L p ≠ []
  nrunnable : dp.nrunnable = (below L dp.npri).length
  maxrunpri : Highest (fun p => L p ≠ []) dp.npri dp.maxrunpri
  maxUnboundPri_ge : -1 ≤ dp.maxUnboundPri
  maxUnboundPri_le : dp.maxUnboundPri ≤ dp.maxrunpri
  unbound : ∀ p, ∀ t ∈ L p, bound t = false → (p : ℤ) ≤ dp.maxUnboundPri

namespace Rep

theorem empty (npri : ℕ) : Rep c (.empty npri) link bound fun _ => [] where
  chain _ := rfl
  last _ := rfl
  sruncnt _ := rfl
  range _ _ := rfl
  words _ := Nat.two_pow_pos _
  qactmap p := by simp [DispT.empty, btTest]
  nrunnable := by
    have : below (fun _ => ([] : List T)) npri = [] := by
      refine eq_nil_iff_forall_not_mem.mpr fun a ha => ?_
      obtain ⟨r, -, h⟩ := mem_below.mp ha
      cases h
    simp [DispT.empty, this]
  maxrunpri := .none fun _ _ h => h rfl
  maxUnboundPri_ge := le_rfl
  maxUnboundPri_le := le_rfl
  unbound _ _ h := by cases h

section

variable (h : Rep c dp link bound L)
include h

theorem lt_npri (hp : L p ≠ []) : p < dp.npri := by
  by_contra hle
  exact hp (h.range p (not_lt.mp hle))

theorem le_maxrunpri (hp : L p ≠ []) : (p : ℤ) ≤ dp.maxrunpri := h.maxrunpri.le p (h.lt_npri hp) hp

theorem sruncnt_ne_zero : (dp.q p).sruncnt ≠ 0 ↔ L p ≠ [] := by
  rw [h.sruncnt, Ne, Int.natCast_eq_zero, length_eq_zero_iff]

theorem congr (hl : ∀ p, ∀ t ∈ L p, link' t = link t) {bound' : T → Bool}
    (hn : ∀ p, ∀ t ∈ L p, bound' t = bound t) : Rep c dp link' bound' L where
  __ := h
  chain p := (h.chain p).congr (hl p)
  unbound p t ht hb := h.unbound p t ht (hn p t ht ▸ hb)

theorem chain_update (ho : ∀ q ≠ p, ∀ a ∈ L q, link' a = link a)
    (hl : Spells link' dq.first l) (q : ℕ) : Spells link' (update dp.q p dq q).first (update L p l q) := by
  by_cases hq : q = p
  · subst hq
    rwa [update_self, update_self]
  · rw [update_of_ne hq, update_of_ne hq]
    exact (h.chain q).congr (ho q hq)

theorem range_update (hp : p < dp.npri) (q : ℕ) (hq : dp.npri ≤ q) : update L p l q = [] := by
  rw [update_of_ne (by omega)]
  exact h.range q hq

end

theorem field_update {β : Type} {f : Dispq T → β} {g : List T → β} (h : ∀ p, f (dp.q p) = g (L p))
    (hl : f dq = g l) (q : ℕ) : f (update dp.q p dq q) = g (update L p l q) := by
  by_cases hq : q = p
  · subst hq
    rwa [update_self, update_self]
  · rw [update_of_ne hq, update_of_ne hq]
    exact h q

theorem insert (h : Rep c dp link bound L) (dq : Dispq T) (hp : p < dp.npri) (hl : l = t :: L p ∨ l = L p ++ [t])
    (ho : ∀ q ≠ p, ∀ a ∈ L q, link' a = link a) (hc : Spells link' dq.first l)
    (hs : dq.last = l.getLast?) (hcn : dq.sruncnt = (dp.q p).sruncnt + 1)
    (hn : dp'.npri = dp.npri) (hq : dp'.q = update dp.q p dq) (hw : Words c.ulshift dp'.qactmap)
    (hac : ∀ j, btTest c.ulshift dp'.qactmap j ↔ j = p ∨ btTest c.ulshift dp.qactmap j)
    (hr : dp'.nrunnable = dp.nrunnable + 1) (hmax : dp'.maxrunpri = max dp.maxrunpri p)
    (hu : dp'.maxUnboundPri = if bound t then dp.maxUnboundPri else max dp.maxUnboundPri p) :
    Rep c dp' link' bound (update L p l) := by
  have hlen : l.length = (L p).length + 1 := by
    rcases hl with rfl | rfl <;> simp
  have hmem (a : T) : a ∈ l ↔ a = t ∨ a ∈ L p := by
    rcases hl with rfl | rfl <;> simp [or_comm]
  have hne : l ≠ [] := ne_nil_of_length_pos (by omega)
  have hf (j : ℕ) : update L p l j ≠ [] ↔ j = p ∨ L j ≠ [] := by
    by_cases hj : j = p
    · subst hj
      simp [hne]
    · simp [hj]
  constructor
  case chain => exact hq ▸ h.chain_update ho hc
  case last => exact hq ▸ field_update (f := Dispq.last) (g := List.getLast?) h.last hs
  case sruncnt =>
    refine hq ▸ field_update (f := Dispq.sruncnt) (g := fun l => (l.length : ℤ)) h.sruncnt ?_
    rw [hcn, h.sruncnt, hlen]
    rfl
  case range => exact hn ▸ h.range_update hp
  case words => exact hw
  case qactmap =>
    intro j
    rw [hac, h.qactmap, hf]
  case nrunnable =>
    have hl' := congrArg List.length (below_split (d := L) hp)
    rw [hr, h.nrunnable, hn, below_update hp]
    simp only [length_append] at hl' ⊢
    omega
  case maxrunpri =>
    rw [hn, hmax]
    exact (h.maxrunpri.insert hp).congr fun j _ => (hf j).symm
  case maxUnboundPri_ge =>
    have := h.maxUnboundPri_ge
    rw [hu]
    split <;> omega
  case maxUnboundPri_le =>
    have := h.maxUnboundPri_le
    rw [hu]
    split <;> omega
  case unbound =>
    intro j a ha hb
    rw [hu]
    by_cases hj : j = p
    · subst hj
      rw [update_self, hmem] at ha
      rcases ha with rfl | ha
      · rw [hb]
        simp
      · have := h.unbound j a ha hb
        split <;> omega
    · rw [update_of_ne hj] at ha
      have := h.unbound j a ha hb
      split <;> omega

section Remove

variable (c)

/-- What `uncount` does to the two maxima once the list of priority `p` is empty. -/
theorem uncount_empty (h : dq.sruncnt = 1) : State.uncount c (dp.setQ p dq) p =
      let m := btClear c.ulshift dp.qactmap p
      let r : ℤ := if dp.nrunnable = 1 then -1
        else if (p : ℤ) = dp.maxrunpri then btGethighbit c.ulshift m (p >>> c.ulshift) else dp.maxrunpri
      { dp with
        nrunnable := dp.nrunnable - 1
        q := update dp.q p { dq with sruncnt := 0 }
        qactmap := m
        maxrunpri := r
        maxUnboundPri := if dp.nrunnable = 1 then -1
          else if (p : ℤ) = dp.maxrunpri then min r dp.maxUnboundPri else dp.maxUnboundPri } := by
  have ho : dp.nrunnable - 1 = 0 ↔ dp.nrunnable = 1 := by omega
  simp only [State.uncount, DispT.setQ, update_self, update_idem, h, Int.sub_self, if_true, ho]
  by_cases hr : dp.nrunnable = 1
  · simp [hr]
  · by_cases hmax : (p : ℤ) = dp.maxrunpri
    · by_cases hlt : btGethighbit c.ulshift (btClear c.ulshift dp.qactmap p) (p >>> c.ulshift) < dp.maxUnboundPri
      · simp [hr, ← hmax, hlt, min_eq_left hlt.le]
      · simp [hr, ← hmax, hlt, min_eq_right (Int.not_lt.mp hlt)]
    · simp [hr, hmax]

theorem uncount_of_ne (h : dq.sruncnt ≠ 1) : State.uncount c (dp.setQ p dq) p = { dp with
      nrunnable := dp.nrunnable - 1, q := update dp.q p { dq with sruncnt := dq.sruncnt - 1 } } := by
  have hz : dq.sruncnt - 1 ≠ 0 := by omega
  simp [State.uncount, DispT.setQ, hz]

end Remove

section

variable (h : Rep c dp link bound L)
include h

theorem below_length_remove (hL : L p = l1 ++ t :: l2) :
    (below L dp.npri).length = (below (update L p (l1 ++ l2)) dp.npri).length + 1 := by
  have hp := h.lt_npri (p := p) (by simp [hL])
  rw [below_update hp, below_split hp, hL]
  simp only [length_append, length_cons]
  omega

theorem remove (dq : Dispq T) (hL : L p = l1 ++ t :: l2)
    (ho : ∀ q ≠ p, ∀ a ∈ L q, link' a = link a) (hc : Spells link' dq.first (l1 ++ l2))
    (hl : dq.last = (l1 ++ l2).getLast?) (hcn : dq.sruncnt = (dp.q p).sruncnt - 1)
    (hn : dp'.npri = dp.npri) (hq : dp'.q = update dp.q p dq) (hw : Words c.ulshift dp'.qactmap)
    (hac : ∀ j, btTest c.ulshift dp'.qactmap j ↔ update L p (l1 ++ l2) j ≠ []) (hr : dp'.nrunnable = dp.nrunnable - 1)
    (hmax : Highest (fun j => update L p (l1 ++ l2) j ≠ []) dp.npri dp'.maxrunpri)
    (hge : -1 ≤ dp'.maxUnboundPri) (hle : dp'.maxUnboundPri ≤ dp'.maxrunpri)
    (hun : dp'.maxUnboundPri = dp'.maxrunpri ∨ dp'.maxUnboundPri = dp.maxUnboundPri) :
    Rep c dp' link' bound (update L p (l1 ++ l2)) := by
  have hlen : (L p).length = (l1 ++ l2).length + 1 := by
    simp only [hL, length_append, length_cons]
    omega
  have hmem (j : ℕ) (a : T) (ha : a ∈ update L p (l1 ++ l2) j) : a ∈ L j := by
    by_cases hj : j = p
    · subst hj
      rw [update_self] at ha
      rw [hL]
      exact (sublist_append_right [t] l2 |>.append_left l1).subset ha
    · rwa [update_of_ne hj] at ha
  have hp := h.lt_npri (p := p) (by simp [hL])
  constructor
  case chain => exact hq ▸ h.chain_update ho hc
  case last => exact hq ▸ field_update (f := Dispq.last) (g := List.getLast?) h.last hl
  case sruncnt =>
    refine hq ▸ field_update (f := Dispq.sruncnt) (g := fun l => (l.length : ℤ)) h.sruncnt ?_
    rw [hcn, h.sruncnt]
    omega
  case range => exact hn ▸ h.range_update hp
  case words => exact hw
  case qactmap => exact hac
  case nrunnable =>
    rw [hr, h.nrunnable, hn, h.below_length_remove hL]
    omega
  case maxrunpri => exact hn ▸ hmax
  case maxUnboundPri_ge => exact hge
  case maxUnboundPri_le => exact hle
  case unbound =>
    intro j a ha hb
    rcases hun with hu | hu
    · rw [hu]
      refine hmax.le j ?_ (ne_nil_of_mem ha)
      exact h.lt_npri (ne_nil_of_mem (hmem j a ha))
    · rw [hu]
      exact h.unbound j a (hmem j a ha) hb

/-- The search that starts in the word of the old maximum finds the new one. -/
theorem highest_after_clear (hmax : (p : ℤ) = dp.maxrunpri) : Highest (fun j => update L p [] j ≠ []) dp.npri
      (btGethighbit c.ulshift (btClear c.ulshift dp.qactmap p) (p >>> c.ulshift)) := by
  have ho (j : ℕ) : btTest c.ulshift (btClear c.ulshift dp.qactmap p) j ↔ update L p [] j ≠ [] := by
    rw [btTest_btClear, h.qactmap]
    by_cases hj : j = p <;> simp [hj]
  refine ((btGethighbit_highest (h.words.btClear p) (p >>> c.ulshift)).of_bound ?_ ?_).congr fun j _ => ho j
  · intro j _ hj
    exact h.lt_npri ((h.qactmap j).mp (btTest_btClear.mp hj).2)
  · intro j _ hj
    have hle := h.le_maxrunpri ((h.qactmap j).mp (btTest_btClear.mp hj).2)
    have hlt : p < (p / 2 ^ c.ulshift + 1) * 2 ^ c.ulshift := Nat.lt_mul_of_div_lt (by omega) (Nat.two_pow_pos _)
    rw [shiftRight_eq_div_pow]
    omega

/-- A thread less at priority `p`: the list is already changed, the counters are not. -/
theorem uncount (hL : L p = l1 ++ t :: l2)
    (ho : ∀ q ≠ p, ∀ a ∈ L q, link' a = link a) (hc : Spells link' dq.first (l1 ++ l2))
    (hl : dq.last = (l1 ++ l2).getLast?) (ht : dq.sruncnt = (dp.q p).sruncnt) :
    Rep c (State.uncount c (dp.setQ p dq) p) link' bound (update L p (l1 ++ l2)) := by
  have hne : L p ≠ [] := by simp [hL]
  have hlen : dq.sruncnt = (l1 ++ l2).length + 1 := by
    rw [ht, h.sruncnt, hL]
    simp only [length_append, length_cons]
    omega
  by_cases hnil : l1 ++ l2 = []
  · -- the list is empty now: its bit goes off, and the maxima may drop
    have hone : dq.sruncnt = 1 := by
      rw [hlen, hnil]
      rfl
    have hon (j : ℕ) : btTest c.ulshift (btClear c.ulshift dp.qactmap p) j ↔ update L p (l1 ++ l2) j ≠ [] := by
      rw [btTest_btClear, h.qactmap, hnil]
      by_cases hj : j = p <;> simp [hj]
    have hw := h.maxUnboundPri_le
    have hge := h.maxUnboundPri_ge
    have key (r u : ℤ) (hr : Highest (fun j => update L p (l1 ++ l2) j ≠ []) dp.npri r) (hu : -1 ≤ u) (hur : u ≤ r)
        (hor : u = r ∨ u = dp.maxUnboundPri) :
        Rep c { dp with
          nrunnable := dp.nrunnable - 1
          q := update dp.q p { dq with sruncnt := 0 }
          qactmap := btClear c.ulshift dp.qactmap p
          maxrunpri := r
          maxUnboundPri := u } link' bound (update L p (l1 ++ l2)) :=
      h.remove { dq with sruncnt := 0 } hL ho hc hl (by simp [← ht, hlen, hnil]) rfl rfl
        (h.words.btClear p) hon rfl hr hu hur hor
    rw [uncount_empty c hone]
    by_cases hn : dp.nrunnable = 1
    · simp only [if_pos hn]
      refine key (-1) (-1) (.none fun j hj hjn => ?_) le_rfl le_rfl (.inl rfl)
      have hcn := h.below_length_remove hL
      have hz : (below (update L p (l1 ++ l2)) dp.npri).length = 0 := by
        have := h.nrunnable
        omega
      obtain ⟨a, ha⟩ := exists_mem_of_ne_nil _ hjn
      rw [length_eq_zero_iff] at hz
      exact not_mem_nil (hz ▸ mem_below.mpr ⟨j, hj, ha⟩)
    · by_cases hmax : (p : ℤ) = dp.maxrunpri
      · have hr := h.highest_after_clear hmax
        have hb := hr.bottom
        simp only [if_neg hn, if_pos hmax]
        exact key _ _ (by rwa [hnil]) (by omega) (by omega) (by omega)
      · simp only [if_neg hn, if_neg hmax]
        refine key _ _ ⟨h.maxrunpri.bottom, fun i hi => ?_, fun i hi hne => ?_⟩ hge hw (.inr rfl)
        · have := h.maxrunpri.holds i hi
          refine ⟨?_, this.2⟩
          rw [update_of_ne (by omega)]
          exact this.1
        · refine h.maxrunpri.le i hi ?_
          exact ((h.qactmap i).mp (btTest_btClear.mp ((hon i).mpr hne)).2)
  · have hc' : dq.sruncnt ≠ 1 := by
      have := length_pos_of_ne_nil hnil
      omega
    have hf (j : ℕ) : L j ≠ [] ↔ update L p (l1 ++ l2) j ≠ [] := by
      by_cases hj : j = p
      · subst hj
        simp only [update_self, ne_eq, hnil, not_false_eq_true, iff_true]
        exact hne
      · simp [hj]
    rw [uncount_of_ne c hc']
    exact h.remove { dq with sruncnt := dq.sruncnt - 1 } hL ho hc hl (by simp [ht]) rfl rfl
      h.words (fun j => (h.qactmap j).trans (hf j)) rfl (h.maxrunpri.congr fun j _ => hf j)
      h.maxUnboundPri_ge h.maxUnboundPri_le (.inr rfl)

end

end Rep

section Search

variable {m : ℕ → ℕ} {pri : ℕ}

/-- Masking the word of `pri` leaves the bits below `pri`. -/
theorem testBit_mapword (sh w pri b : ℕ) :
    (w &&& (btBiw sh pri - 1)).testBit b = (w.testBit b && decide (b < pri % 2 ^ sh)) := by
  rw [btBiw_eq, testBit_and, testBit_two_pow_sub_one]

theorem nextLower_highest (hm : Words c.ulshift m) (pri : ℕ) :
    Highest (fun j => btTest c.ulshift m j) pri (State.nextLower c m pri) := by
  rw [State.nextLower, shiftRight_eq_div_pow]
  generalize c.ulshift = sh at hm ⊢
  have hp := div_add_mod pri (2 ^ sh)
  have hpos : 0 < 2 ^ sh := Nat.two_pow_pos _
  set wx := pri / 2 ^ sh
  -- a bit below `pri` and not below its word is in the masked word
  have hin {j : ℕ} (hj : j < pri) (hle : wx ≤ j / 2 ^ sh) :
      j / 2 ^ sh = wx ∧ j % 2 ^ sh < pri % 2 ^ sh := by
    have hw : j / 2 ^ sh = wx := le_antisymm (Nat.div_le_div_right hj.le) hle
    have := div_add_mod j (2 ^ sh)
    rw [hw] at this
    exact ⟨hw, by omega⟩
  have hb (j : ℕ) (hj : j < pri) (hle : wx ≤ j / 2 ^ sh) :
      btTest sh m j ↔ j / 2 ^ sh = wx ∧
        (m (wx) &&& (btBiw sh pri - 1)).testBit (j % 2 ^ sh) := by
    obtain ⟨hw, hlt⟩ := hin hj hle
    rw [testBit_mapword, btTest_eq, hw]
    simp [hlt]
  have hlt : m (wx) &&& (btBiw sh pri - 1) < 2 ^ 2 ^ sh := and_le_left.trans_lt (hm _)
  by_cases h0 : m (wx) &&& (btBiw sh pri - 1) = 0
  · rw [if_neg (not_not.mpr h0)]
    have hn (j : ℕ) (hj : j < pri) (ho : btTest sh m j) : j / 2 ^ sh < wx := by
      by_contra hle
      have := ((hb j hj (not_lt.mp hle)).mp ho).2
      rw [h0] at this
      simp at this
    split
    next hwx =>
      have hc : wx - 1 + 1 = wx := by omega
      have hle : wx * 2 ^ sh ≤ pri := div_mul_le_self ..
      have hs := btGethighbit_highest hm (wx - 1)
      rw [hc] at hs
      exact hs.of_bound (fun j hj _ => hj.trans_le hle) fun j hj ho =>
        (div_lt_iff_lt_mul hpos).mp (hn j hj ho)
    next hwx => exact .none fun j hj ho => hwx (zero_lt_of_lt (hn j hj ho))
  · rw [if_pos h0, Nat.add_sub_assoc (Nat.pos_of_ne_zero ?_), highbit_sub_one hlt h0, Nat.shiftLeft_eq]
    · have hbt : Nat.log 2 (m (wx) &&& (btBiw sh pri - 1)) < pri % 2 ^ sh := by
        have ht := testBit_log2 h0
        rw [testBit_mapword, Bool.and_eq_true, decide_eq_true_eq, log2_eq_log_two] at ht
        exact ht.2
      refine highest_in_word h0 ?_ hlt hb
      rw [mul_comm]
      omega
    · rw [highbit, if_neg h0, highbitSteps_eq hlt h0]
      omega

def HasUnbound (bound : T → Bool) (L : ℕ → List T) (p : ℕ) : Prop := ∃ t ∈ L p, bound t = false

variable {s : State Q T}

section

variable (h : Rep c dp s.link s.bound L)
include h

theorem firstUnbound_eq (p : ℕ) : s.firstUnbound (dp.q p) = (L p).find? fun t => !s.bound t := by
  rw [State.firstUnbound, (h.chain p).seek_find]
  rw [h.sruncnt]
  exact le_refl _

theorem firstUnbound_eq_none (p : ℕ) : s.firstUnbound (dp.q p) = none ↔ ¬ HasUnbound s.bound L p := by
  rw [firstUnbound_eq h, HasUnbound]
  simp

/-- The loop finds the highest priority below `pri` with an unbound thread. -/
theorem fixLoop_highest (hn : pri < n) : Highest (HasUnbound s.bound L) pri (s.fixLoop c dp n pri) := by
  induction n generalizing pri with
  | zero => omega
  | succ n ih =>
    have hnx := nextLower_highest h.words pri
    have ha {j : ℕ} (hj : HasUnbound s.bound L j) : btTest c.ulshift dp.qactmap j := by
      obtain ⟨t, ht, -⟩ := hj
      exact (h.qactmap j).mpr (ne_nil_of_mem ht)
    rw [State.fixLoop]
    by_cases hng : State.nextLower c dp.qactmap pri < 0
    · rw [if_pos hng]
      refine .none fun j hj hu => ?_
      have := hnx.le j hj (ha hu)
      omega
    · obtain ⟨r, hr⟩ : ∃ r : ℕ, State.nextLower c dp.qactmap pri = r := ⟨_, (Int.toNat_of_nonneg (by omega)).symm⟩
      have hlt := (hnx.holds r hr).2
      rw [hr, Int.toNat_natCast]
      -- no active priority lies between the one found and `pri`
      have hg (j : ℕ) (hj : j < pri) (hu : HasUnbound s.bound L j) : j ≤ r := by
        have := hnx.le j hj (ha hu)
        omega
      by_cases hu : HasUnbound s.bound L r
      · rw [if_neg (mt (firstUnbound_eq_none h r).mp (not_not.mpr hu))]
        exact .some hlt hu fun j hj hrj hjn => by have := hg j hj hjn; omega
      · rw [if_pos ((firstUnbound_eq_none h r).mpr hu)]
        refine (@ih r (by omega)).of_bound (fun j hj _ => hj.trans hlt) fun j hj hjn => ?_
        refine lt_of_le_of_ne (hg j hj hjn) ?_
        rintro rfl
        exact hu hjn

end

end Search

end Sol8.Disp
