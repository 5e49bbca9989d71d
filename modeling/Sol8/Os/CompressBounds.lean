import Sol8.Os.DecompressBounds

/-! The accesses that `compress` makes to its buffers (`os/compress.c`), on addresses of `w` bits. The buffers lie inside
the address space, but three pointers are computed by a subtraction and may fall before address zero: the bound of the
test for room, the bound of the test for a whole match, and the place to copy from. -/

namespace Sol8.Os.Compress

open List

/-- The address that a subtraction gives. -/
def addr (w : ℕ) (a : ℤ) : ℤ := a % 2 ^ w

def openMapAt (w dStart sLen : ℕ) (st : CompressState) : Option CompressState :=
  let copymask := st.copymask <<< 1
  if copymask = 1 <<< nbby then
    if (dStart : ℤ) + st.dst.length ≥ addr w (dStart + sLen - 1 - 2 * nbby) then none
    else some { st with copymask := 1, copymap := st.dst.length, dst := st.dst ++ [0] }
  else some { st with copymask := copymask }

def openMapAccesses (st : CompressState) : List Access :=
  if st.copymask <<< 1 = 1 <<< nbby then [.writeDst st.dst.length] else []

/-- Bytes are compared from the `k`-th on until two differ, at most `n` of them. -/
def matchAccesses (s : List Byte) (src cpy : ℕ) : (n k : ℕ) → List Access
  | 0, _ => []
  | n + 1, k => .readSrc (src + k) :: .readSrc (cpy + k) ::
      if s.getD (src + k) 0 ≠ s.getD (cpy + k) 0 then [] else matchAccesses s src cpy n (k + 1)

/-- The tests of a match at address `cpy`, which in the source would have index `i`. -/
def compareAccesses (s : List Byte) (sStart src : ℕ) (cpy : ℤ) (i : ℕ) : List Access :=
  if cpy ≥ sStart ∧ cpy ≠ sStart + src then matchAccesses s src i matchMin 0 else []

def emitItemAt (w : ℕ) (s : List Byte) (sStart : ℕ) (st : CompressState) : List Access × CompressState :=
  let literal := [.readSrc st.src, .writeDst st.dst.length]
  if (sStart : ℤ) + st.src > addr w (sStart + s.length - matchMax) then (literal, emitLiteral s st)
  else
    let hp := hash (s.getD st.src 0) (s.getD (st.src + 1) 0) (s.getD (st.src + 2) 0)
    let offset := lookBack (sStart + st.src) (st.lempel hp)
    let lempel := Function.update st.lempel hp (BitVec.ofNat 16 (sStart + st.src))
    let cpy := addr w (sStart + st.src - offset)
    let i := (cpy - sStart).toNat
    let tests := [.readSrc st.src, .readSrc (st.src + 1), .readSrc (st.src + 2)] ++
      compareAccesses s sStart st.src cpy i
    if cpy ≥ sStart ∧ cpy ≠ sStart + st.src ∧ s.getD st.src 0 = s.getD i 0 ∧
        s.getD (st.src + 1) 0 = s.getD (i + 1) 0 ∧ s.getD (st.src + 2) 0 = s.getD (i + 2) 0 then
      let mlen := matchLoop s st.src i matchMin
      (tests ++ [.readDst st.copymap, .writeDst st.copymap] ++
        matchAccesses s st.src i (matchMax - matchMin) matchMin ++
        [.writeDst st.dst.length, .writeDst (st.dst.length + 1)],
        { st with
          dst := st.dst.modify st.copymap (· ||| BitVec.ofNat 8 st.copymask) ++ copyBytes mlen offset
          src := st.src + mlen
          lempel := lempel })
    else (tests ++ literal, emitLiteral s { st with lempel := lempel })

theorem openMapAt_src {w dStart sLen : ℕ} {st st' : CompressState} (h : openMapAt w dStart sLen st = some st') :
    st'.src = st.src := by
  unfold openMapAt at h
  dsimp only at h
  split_ifs at h
  all_goals obtain rfl := Option.some.inj h; rfl

theorem emitItemAt_src_lt (w : ℕ) (s : List Byte) (sStart : ℕ) (st : CompressState) :
    st.src < (emitItemAt w s sStart st).2.src := by
  unfold emitItemAt
  dsimp only
  split_ifs
  · exact Nat.lt_succ_self _
  · exact Nat.lt_add_of_pos_right (lt_of_lt_of_le (by decide) (matchLoop_spec s st.src _ matchMin (by decide)).1)
  · exact Nat.lt_succ_self _

/-- The main loop and the raw copy on addresses, with their accesses. -/
def compressLoopAt (w : ℕ) (s : List Byte) (sStart dStart : ℕ) (st : CompressState) : List Access × ℕ × List Byte :=
  if st.src < s.length then
    match _hopen : openMapAt w dStart s.length st with
    | none =>
      ((List.range (s.length % 2 ^ 32)).flatMap fun i => [.readSrc i, .writeDst i],
        s.length, s.take (s.length % 2 ^ 32))
    | some st' =>
      let rest := compressLoopAt w s sStart dStart (emitItemAt w s sStart st').2
      (openMapAccesses st ++ (emitItemAt w s sStart st').1 ++ rest.1, rest.2)
  else ([], st.dst.length, st.dst)
termination_by s.length - st.src
decreasing_by
  have hsrc := openMapAt_src _hopen
  have := emitItemAt_src_lt w s sStart st'
  omega

def compressAt (w : ℕ) (s : List Byte) (sStart dStart : ℕ) (lempel : Lempel) : List Access × ℕ × List Byte :=
  compressLoopAt w s sStart dStart ⟨0, [], 0, 1 <<< (nbby - 1), lempel⟩

/-! ### Confinement -/

def Access.Inside (n : ℕ) : Access → Prop
  | .readSrc i | .writeDst i | .readDst i => i < n

/-- No pointer that `compress` computes falls before address zero: a match reaches back by up to `offsetMask` bytes. -/
structure Placed (w n sStart dStart : ℕ) : Prop where
  source : offsetMask ≤ sStart
  source_end : sStart + n ≤ 2 ^ w
  dest : 1 + 2 * nbby ≤ dStart + n
  dest_end : dStart + n ≤ 2 ^ w

variable {w n sStart dStart : ℕ} {s : List Byte}

theorem addr_eq {a : ℤ} (h0 : 0 ≤ a) (h : a < (2 ^ w : ℕ)) : addr w a = a := by
  exact Int.emod_eq_of_lt h0 h

theorem Placed.openMapAt (h : Placed w n sStart dStart) (st : CompressState) :
    openMapAt w dStart n st = openMap n st := by
  have hd := h.dest
  have hn := h.dest_end
  simp only [nbby] at hd
  rw [Compress.openMapAt, openMap, addr_eq (by simp only [nbby]; omega) (by simp only [nbby]; omega)]
  congr 2
  refine propext ?_
  omega

theorem matchAccesses_inside {src cpy m k : ℕ} (hc : cpy ≤ src) (hm : src + (k + m) ≤ s.length) :
    ∀ a ∈ matchAccesses s src cpy m k, a.Inside s.length := by
  induction m generalizing k with
  | zero => exact fun a ha => absurd ha not_mem_nil
  | succ m ih =>
    rw [matchAccesses, forall_mem_cons, forall_mem_cons]
    refine ⟨show _ < _ by omega, show _ < _ by omega, ?_⟩
    split
    · exact fun a ha => absurd ha not_mem_nil
    · exact ih (by omega)

theorem Placed.emitItemAt (h : Placed w s.length sStart dStart) {st : CompressState} (hsr : st.src < s.length)
    (hp : st.copymap < st.dst.length) (hr : (emitItem s sStart st).dst.length ≤ s.length) :
    (emitItemAt w s sStart st).2 = emitItem s sStart st ∧ ∀ a ∈ (emitItemAt w s sStart st).1, a.Inside s.length := by
  have hs := h.source
  have hn := h.source_end
  have hmax : matchMax = 66 := rfl
  have hms : offsetMask = 1023 := rfl
  have hl : ∀ {st' : CompressState}, st'.dst = st.dst → (emitLiteral s st').dst.length ≤ s.length →
      ∀ a ∈ [Access.readSrc st.src, .writeDst st.dst.length], a.Inside s.length := by
    intro st' hd hle
    simp only [emitLiteral, length_append, length_singleton, hd] at hle
    simp only [forall_mem_cons, Access.Inside]
    exact ⟨hsr, hle, nofun⟩
  revert hr
  rw [Compress.emitItemAt, emitItem, addr_eq (by omega) (by omega)]
  dsimp only
  generalize ho : lookBack (sStart + st.src) _ = offset
  have hle : offset ≤ offsetMask := ho ▸ lookBack_le _ _
  rw [addr_eq (by omega) (by omega)]
  rw [show (sStart : ℤ) + st.src - offset - sStart = st.src - offset by omega]
  by_cases h1 : (st.src : ℤ) > s.length - matchMax
  · rw [if_pos h1, if_pos (by omega)]
    exact fun hr => ⟨rfl, hl rfl hr⟩
  have hf : ¬ (sStart : ℤ) + st.src > sStart + s.length - matchMax := by omega
  rw [if_neg h1, if_neg hf]
  have hw : st.src + 66 ≤ s.length := by omega
  have hh : ∀ a ∈ [Access.readSrc st.src, .readSrc (st.src + 1), .readSrc (st.src + 2)], a.Inside s.length := by
    simp only [forall_mem_cons, Access.Inside]
    exact ⟨hsr, by omega, by omega, nofun⟩
  have hb : ((st.src : ℤ) - offset).toNat ≤ st.src := by omega
  have hc : ∀ a ∈ compareAccesses s sStart st.src (sStart + st.src - offset) ((st.src : ℤ) - offset).toNat,
      a.Inside s.length := by
    rw [compareAccesses]
    split
    · exact matchAccesses_inside hb (by simp only [matchMin]; omega)
    · exact fun a ha => absurd ha not_mem_nil
  have ht := forall_mem_append.mpr ⟨hh, hc⟩
  by_cases h2 : (st.src : ℤ) - offset ≥ 0 ∧ (st.src : ℤ) - offset ≠ st.src ∧
      s.getD st.src 0 = s.getD ((st.src : ℤ) - offset).toNat 0 ∧
      s.getD (st.src + 1) 0 = s.getD (((st.src : ℤ) - offset).toNat + 1) 0 ∧
      s.getD (st.src + 2) 0 = s.getD (((st.src : ℤ) - offset).toNat + 2) 0
  · rw [if_pos h2, if_pos ⟨by omega, by omega, h2.2.2⟩]
    intro hr
    simp only [length_append, length_modify, copyBytes, length_cons, length_nil] at hr
    have hm : ∀ a ∈ matchAccesses s st.src ((st.src : ℤ) - offset).toNat (matchMax - matchMin) matchMin,
        a.Inside s.length := matchAccesses_inside hb hw
    have hmr : ∀ a ∈ [Access.readDst st.copymap, .writeDst st.copymap], a.Inside s.length := by
      simp only [forall_mem_cons, Access.Inside]
      exact ⟨by omega, by omega, nofun⟩
    have hcd : ∀ a ∈ [Access.writeDst st.dst.length, .writeDst (st.dst.length + 1)], a.Inside s.length := by
      simp only [forall_mem_cons, Access.Inside]
      exact ⟨by omega, by omega, nofun⟩
    refine ⟨rfl, ?_⟩
    simp only [forall_mem_append] at ht ⊢
    exact ⟨⟨⟨ht, hmr⟩, hm⟩, hcd⟩
  · rw [if_neg h2, if_neg fun h => h2 ⟨by omega, by omega, h.2.2⟩]
    exact fun hr => ⟨rfl, forall_mem_append.mpr ⟨ht, hl rfl hr⟩⟩

theorem Behind.copymap_lt {k : ℕ} {st st1 : CompressState} (h : Behind n k st) (ho : openMap n st = some st1) :
    st1.copymap < st1.dst.length := by
  unfold openMap at ho
  rw [h.shift_copymask] at ho
  dsimp only at ho
  split_ifs at ho with hk
  · cases ho
    simp
  · cases ho
    exact h.copymap (lt_of_le_of_ne h.le_eight fun he => hk (by rw [he]; rfl))

/-- On addresses the loop does what it does on positions, and stays in its buffers. -/
theorem Placed.compressLoopAt (h : Placed w s.length sStart dStart) (hn : s.length < 2 ^ 31) (st : CompressState) {k : ℕ}
    (hb : Behind s.length k st) : (compressLoopAt w s sStart dStart st).2 = (match compressLoop s sStart st with
          | none => (s.length, s.take (s.length % 2 ^ 32))
          | some st => (st.dst.length, st.dst)) ∧
      ∀ a ∈ (compressLoopAt w s sStart dStart st).1, a.Inside s.length := by
  fun_induction compressLoop s sStart st generalizing k with
  | case1 st hlt ho =>
    rw [Compress.compressLoopAt, if_pos hlt]
    split
    · refine ⟨rfl, fun a ha => ?_⟩
      obtain ⟨i, hi, ha⟩ := mem_flatMap.mp ha
      rw [mem_range, Nat.mod_eq_of_lt (by omega)] at hi
      rcases mem_cons.mp ha with rfl | ha
      · exact hi
      · rw [mem_singleton.mp ha]
        exact hi
    next st' ho' => cases (h.openMapAt st ▸ ho').symm.trans ho
  | case2 st hlt st1 ho ih =>
    obtain ⟨-, k', -, -, -, hb', -⟩ := hb.round sStart hlt ho
    have hrm := hb'.room
    have hr0 := hb.room
    obtain ⟨hm, hin⟩ := h.emitItemAt (openMap_src ho ▸ hlt) (hb.copymap_lt ho) (by omega)
    obtain ⟨hr, hr'⟩ := ih hb'
    rw [Compress.compressLoopAt, if_pos hlt]
    split
    next ho' => cases (h.openMapAt st ▸ ho').symm.trans ho
    next st' ho' =>
      obtain rfl : st' = st1 := Option.some.inj ((h.openMapAt st ▸ ho').symm.trans ho)
      rw [hm]
      refine ⟨hr, forall_mem_append.mpr ⟨forall_mem_append.mpr ⟨?_, hin⟩, hr'⟩⟩
      rw [openMapAccesses]
      split
      · exact forall_mem_singleton.mpr (show _ < _ by omega)
      · exact fun a ha => absurd ha not_mem_nil
  | case3 st hge =>
    rw [Compress.compressLoopAt, if_neg hge]
    exact ⟨rfl, fun a ha => absurd ha not_mem_nil⟩

/-- `compress` stays in its buffers and does not return more than the length of the source. It returns less, unless the
output is the raw copy. -/
theorem compress_confined (w : ℕ) (s : List Byte) (sStart dStart : ℕ) (lempel : Lempel) (hn : s.length < 2 ^ 31)
    (h : Placed w s.length sStart dStart) : (∀ a ∈ (compressAt w s sStart dStart lempel).1, a.Inside s.length) ∧
      (compressAt w s sStart dStart lempel).2 = compress s sStart lempel ∧
      (compress s sStart lempel).1 ≤ s.length ∧
      ((compress s sStart lempel).2 ≠ s → (compress s sStart lempel).1 < s.length) := by
  by_cases hpos : s.length = 0
  · obtain rfl : s = [] := length_eq_zero_iff.mp hpos
    rw [compressAt, compressLoopAt, if_neg (by simp), compress, compressLoop]
    exact ⟨fun a ha => absurd ha not_mem_nil, rfl, le_rfl, fun hne => absurd rfl hne⟩
  · have hb : Behind s.length 8 ⟨0, [], 0, 1 <<< (nbby - 1), lempel⟩ :=
      ⟨by omega, le_rfl, rfl, by omega, by simp; omega⟩
    obtain ⟨hl, hin⟩ := h.compressLoopAt hn _ hb
    refine ⟨hin, hl, ?_⟩
    rcases compressLoop_encode s sStart _ hb (Nat.zero_le _) with hnn | ⟨st', -, hs, -, -, hlen, -⟩
    · rw [compress, hnn]
      dsimp only
      rw [Nat.mod_eq_of_lt (by omega), take_length]
      exact ⟨le_rfl, fun hne => absurd rfl hne⟩
    · rw [compress, hs]
      exact ⟨hlen.le, fun _ => hlen⟩

theorem compress_confined_yadda : Placed 32 yadda.length 4096 8192 ∧
      ((compress yadda 4096 fun _ => 0).2 ≠ yadda → (compress yadda 4096 fun _ => 0).1 < 17) := by
  have h : Placed 32 yadda.length 4096 8192 := ⟨by decide, by decide, by decide, by decide⟩
  exact ⟨h, (compress_confined 32 yadda 4096 8192 (fun _ => 0) (by decide) h).2.2.2⟩

/-- A source at address 67 whose history asks for a match 68 bytes back: the byte read is the last of the address
space. -/
theorem compress_reads_outside :
    .readSrc (2 ^ 64 - 68) ∈ (compressAt 64 (List.replicate 66 0) 67 4096 fun _ => 65535).1 ∧
      ¬ Access.Inside 66 (.readSrc (2 ^ 64 - 68)) := by
  refine ⟨?_, by simp [Access.Inside]⟩
  have hc : .readSrc (2 ^ 64 - 68) ∈ compareAccesses (List.replicate 66 0) 67 0
      (addr 64 ((67 : ℕ) + (0 : ℕ) - lookBack (67 + 0) 65535))
      (addr 64 ((67 : ℕ) + (0 : ℕ) - lookBack (67 + 0) 65535) - (67 : ℕ)).toNat := by decide
  rw [compressAt, compressLoopAt, if_pos (by decide)]
  split
  next ho => exact absurd ho (by decide)
  next st ho =>
    cases ho
    refine mem_append_left _ (mem_append_right _ ?_)
    rw [emitItemAt, if_neg (by decide)]
    dsimp only
    split
    · exact mem_append_left _ (mem_append_left _ (mem_append_left _ (mem_append_right _ hc)))
    · exact mem_append_left _ (mem_append_right _ hc)

end Sol8.Os.Compress
