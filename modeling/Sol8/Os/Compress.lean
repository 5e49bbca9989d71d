import Sol8.Lib.Lz77

/-! LZJB compression (`os/compress.c`).

Pointers into a buffer are positions in it; the address of the source buffer enters only through
the low bits that the Lempel history keeps. The history starts out with any content. The
compressor is shown to emit the encoding of a list of back-reference items that describes the
input, or to give up and copy the input raw, and the decompressor to rebuild the input from both. -/

namespace Sol8.Os.Compress

open Sol8.Lib.Lz77 List Nat

variable {k : ℕ} {it : Item Byte} {s : List Byte} {rest : List (Item Byte)} {out : List Byte} {st : DecompressState}
  {j : ℕ}

abbrev Byte := BitVec 8

def nbby : ℕ := 8
def matchBits : ℕ := 6
def matchMin : ℕ := 3
def matchMax : ℕ := (1 <<< matchBits) + (matchMin - 1)
def offsetMask : ℕ := (1 <<< (16 - matchBits)) - 1

/-- The history: the low 16 bits of a source address for each hash value. -/
abbrev Lempel := BitVec 8 → BitVec 16

/-- The locals of `compress`; `dst` is what has been written to the destination buffer. -/
structure CompressState where
  src : ℕ
  dst : List Byte
  copymap : ℕ
  copymask : ℕ
  lempel : Lempel

def hash (b0 b1 b2 : Byte) : BitVec 8 := (b0 + 13) ^^^ (b1 - 13) ^^^ b2

def matchLoop (s : List Byte) (src cpy mlen : ℕ) : ℕ :=
  if mlen < matchMax then
    if s.getD (src + mlen) 0 ≠ s.getD (cpy + mlen) 0 then mlen
    else matchLoop s src cpy (mlen + 1)
  else mlen
termination_by matchMax - mlen

/-- The first statement of the loop: every eighth item opens a new copy map. There is none when
the output might outgrow the input. -/
def openMap (sLen : ℕ) (st : CompressState) : Option CompressState :=
  let copymask := st.copymask <<< 1
  if copymask = 1 <<< nbby then
    if (st.dst.length : ℤ) ≥ (sLen : ℤ) - 1 - 2 * nbby then none
    else some { st with copymask := 1, copymap := st.dst.length, dst := st.dst ++ [0] }
  else some { st with copymask := copymask }

def emitLiteral (s : List Byte) (st : CompressState) : CompressState :=
  { st with dst := st.dst ++ [s.getD st.src 0], src := st.src + 1 }

/-- The low bits of the difference of an address and a history entry. -/
def lookBack (addr : ℕ) (entry : BitVec 16) : ℕ :=
  (((addr : ℤ) - entry.toNat) % (offsetMask + 1 : ℕ)).toNat

def copyBytes (mlen offset : ℕ) : List Byte :=
  [BitVec.ofNat 8 ((mlen - matchMin) <<< (nbby - matchBits) ||| offset >>> nbby), BitVec.ofNat 8 offset]

def emitItem (s : List Byte) (sStart : ℕ) (st : CompressState) : CompressState :=
  if (st.src : ℤ) > (s.length : ℤ) - matchMax then emitLiteral s st
  else
    let hp := hash (s.getD st.src 0) (s.getD (st.src + 1) 0) (s.getD (st.src + 2) 0)
    let offset := lookBack (sStart + st.src) (st.lempel hp)
    let lempel := Function.update st.lempel hp (BitVec.ofNat 16 (sStart + st.src))
    let cpy : ℤ := st.src - offset
    if cpy ≥ 0 ∧ cpy ≠ st.src ∧ s.getD st.src 0 = s.getD cpy.toNat 0 ∧
        s.getD (st.src + 1) 0 = s.getD (cpy.toNat + 1) 0 ∧
        s.getD (st.src + 2) 0 = s.getD (cpy.toNat + 2) 0 then
      let mlen := matchLoop s st.src cpy.toNat matchMin
      { st with
        dst := st.dst.modify st.copymap (· ||| BitVec.ofNat 8 st.copymask) ++ copyBytes mlen offset
        src := st.src + mlen
        lempel := lempel }
    else emitLiteral s { st with lempel := lempel }

theorem matchLoop_spec (s : List Byte) (src cpy mlen : ℕ) (h : mlen ≤ matchMax) :
    mlen ≤ matchLoop s src cpy mlen ∧ matchLoop s src cpy mlen ≤ matchMax ∧
    ∀ k, mlen ≤ k → k < matchLoop s src cpy mlen → s.getD (src + k) 0 = s.getD (cpy + k) 0 := by
  fun_induction matchLoop s src cpy mlen with
  | case1 mlen hlt hne => exact ⟨le_rfl, h, by omega⟩
  | case2 mlen hlt heq ih =>
    obtain ⟨h1, h2, h3⟩ := ih hlt
    refine ⟨by omega, h2, fun k hk hk' => ?_⟩
    obtain rfl | hne := eq_or_ne mlen k
    · simpa using heq
    · exact h3 k (by omega) hk'
  | case3 mlen hge => exact ⟨le_rfl, h, by omega⟩

theorem lookBack_le (addr : ℕ) (entry : BitVec 16) : lookBack addr entry ≤ offsetMask := by
  have := Int.emod_lt_of_pos ((addr : ℤ) - entry.toNat) (b := (offsetMask + 1 : ℕ)) (by omega)
  unfold lookBack
  omega

def itemBytes : Item Byte → List Byte
  | .literal b => [b]
  | .copy mlen offset => copyBytes mlen offset

def Storable : Item Byte → Prop
  | .literal _ => True
  | .copy mlen offset => matchMin ≤ mlen ∧ mlen ≤ matchMax ∧ offset ≤ offsetMask

/-- The copy map's bit is set for a copy item only. -/
def markCopy (it : Item Byte) (st : CompressState) : List Byte :=
  if it.isCopy then st.dst.modify st.copymap (· ||| BitVec.ofNat 8 st.copymask) else st.dst

theorem getElem?_eq_of_getD {i : ℕ} (hi : i < s.length) (hj : j < s.length)
    (h : s.getD i 0 = s.getD j 0) : s[i]? = s[j]? := by
  rw [getD_eq_getElem _ _ hi, getD_eq_getElem _ _ hj] at h
  rw [List.getElem?_eq_getElem hi, List.getElem?_eq_getElem hj, h]

/-- The body of the loop emits one item that is valid for the input, whatever the history. -/
theorem emitItem_spec (s : List Byte) (sStart : ℕ) (st : CompressState) (h : st.src < s.length) :
    ∃ it : Item Byte, it.Valid s st.src ∧ Storable it ∧ (emitItem s sStart st).src = st.src + it.len ∧
      (emitItem s sStart st).dst = markCopy it st ++ itemBytes it ∧
      (emitItem s sStart st).copymap = st.copymap ∧
      (emitItem s sStart st).copymask = st.copymask := by
  have hl : Item.Valid s st.src (.literal (s.getD st.src 0)) := by
    rw [Item.Valid, getD_eq_getElem _ _ h, List.getElem?_eq_getElem h]
  unfold emitItem
  dsimp only
  generalize ho : lookBack (sStart + st.src) _ = offset
  have hm : offset ≤ offsetMask := by
    rw [← ho]
    exact lookBack_le _ _
  split_ifs with h1 h2
  · exact ⟨_, hl, trivial, rfl, rfl, rfl, rfl⟩
  · obtain ⟨hc, hne, e0, e1, e2⟩ := h2
    obtain ⟨l1, l2, l3⟩ := matchLoop_spec s st.src ((st.src : ℤ) - offset).toNat matchMin (by decide)
    generalize matchLoop s st.src _ matchMin = mlen at *
    have hc' : ((st.src : ℤ) - offset).toNat = st.src - offset := by omega
    rw [hc'] at e0 e1 e2 l3
    have hmin : matchMin = 3 := rfl
    refine ⟨.copy mlen offset, ⟨by omega, by omega, by omega, by omega, fun k hk => ?_⟩,
      ⟨l1, l2, hm⟩, rfl, rfl, rfl, rfl⟩
    refine getElem?_eq_of_getD (by omega) (by omega) ?_
    -- the three bytes compared first, then those of the loop
    obtain rfl | rfl | rfl | hk3 : k = 0 ∨ k = 1 ∨ k = 2 ∨ matchMin ≤ k := by omega
    · exact e0
    · exact e1
    · exact e2
    · exact l3 k hk3 hk
  · exact ⟨_, hl, trivial, rfl, rfl, rfl, rfl⟩

theorem Valid.len_pos {pos : ℕ} (h : it.Valid s pos) : 0 < it.len := by
  cases it with
  | literal b => exact one_pos
  | copy mlen dist => exact h.1

theorem openMap_src {sLen : ℕ} {st st' : CompressState} (h : openMap sLen st = some st') : st'.src = st.src := by
  unfold openMap at h
  dsimp only at h
  split_ifs at h
  all_goals obtain rfl := Option.some.inj h; rfl

theorem emitItem_src_lt (s : List Byte) (sStart : ℕ) (st : CompressState) (h : st.src < s.length) :
    st.src < (emitItem s sStart st).src := by
  obtain ⟨it, hv, -, hs, -⟩ := emitItem_spec s sStart st h
  have := Valid.len_pos hv
  omega

def compressLoop (s : List Byte) (sStart : ℕ) (st : CompressState) : Option CompressState :=
  if _hlt : st.src < s.length then
    match _hopen : openMap s.length st with
    | none => none
    | some st' => compressLoop s sStart (emitItem s sStart st')
  else some st
termination_by s.length - st.src
decreasing_by
  have hsrc := openMap_src _hopen
  have := emitItem_src_lt s sStart st' (by omega)
  omega

/-- What `compress` returns, and the content of the destination buffer. The raw copy counts down
an `int`. -/
def compress (s : List Byte) (sStart : ℕ) (lempel : Lempel) : ℕ × List Byte :=
  match compressLoop s sStart ⟨0, [], 0, 1 <<< (nbby - 1), lempel⟩ with
  | none => (s.length, s.take (s.length % 2 ^ 32))
  | some st => (st.dst.length, st.dst)

structure DecompressState where
  src : ℕ
  dst : List Byte
  copymap : Byte
  copymask : ℕ

/-- The first statement of its loop: every eighth item is preceded by a copy map. -/
def loadMap (s : List Byte) (st : DecompressState) : DecompressState :=
  let copymask := st.copymask <<< 1
  if copymask = 1 <<< nbby then
    { st with copymask := 1, copymap := s.getD st.src 0, src := st.src + 1 }
  else { st with copymask := copymask }

theorem src_le_loadMap (s : List Byte) (st : DecompressState) : st.src ≤ (loadMap s st).src := by
  unfold loadMap
  dsimp only
  split_ifs
  · exact le_succ _
  · exact le_rfl

def copyLen (b0 : Byte) : ℕ := b0.toNat >>> (nbby - matchBits) + matchMin

def copyOffset (b0 b1 : Byte) : ℕ := (b0.toNat <<< nbby ||| b1.toNat) &&& offsetMask

def decompressLoop (s : List Byte) (sLen dLen : ℕ) (st : DecompressState) : List Byte :=
  if st.src < sLen ∧ st.dst.length < dLen then
    let st' := loadMap s st
    if st'.copymap &&& BitVec.ofNat 8 st'.copymask ≠ 0 then
      let mlen := copyLen (s.getD st'.src 0)
      let offset := copyOffset (s.getD st'.src 0) (s.getD (st'.src + 1) 0)
      if offset ≤ st'.dst.length then
        decompressLoop s sLen dLen { st' with
          src := st'.src + 2
          dst := copyLoop dLen 0 mlen (st'.dst.length - offset) st'.dst }
      else st'.dst
    else
      decompressLoop s sLen dLen { st' with src := st'.src + 1, dst := st'.dst ++ [s.getD st'.src 0] }
  else st.dst
termination_by sLen - st.src
decreasing_by
  all_goals
    have := src_le_loadMap s st
    omega

/-- What `decompress` returns, and the content of the destination buffer. -/
def decompress (s : List Byte) (sLen dLen : ℕ) : ℕ × List Byte :=
  if sLen ≥ dLen then (dLen, (List.range dLen).map fun i => s.getD i 0)
  else
    let dst := decompressLoop s sLen dLen ⟨0, [], 0, 1 <<< (nbby - 1)⟩
    (dst.length, dst)

/-! ### The format -/

/-- Bits of the current copy map that the coming items set, when it already has `k` items. -/
def mapBits : ℕ → List (Item Byte) → Byte
  | _, [] => 0
  | k, it :: rest =>
    if k = nbby then 0
    else (if it.isCopy then BitVec.twoPow 8 k else 0) ||| mapBits (k + 1) rest

/-- Bytes of the coming items, when the current copy map already has `k` items. -/
def encodeFrom : ℕ → List (Item Byte) → List Byte
  | _, [] => []
  | k, it :: rest =>
    if k = nbby then mapBits 0 (it :: rest) :: itemBytes it ++ encodeFrom 1 rest
    else itemBytes it ++ encodeFrom (k + 1) rest

theorem ofNat_two_pow (k : ℕ) : BitVec.ofNat 8 (2 ^ k) = BitVec.twoPow 8 k := by
  apply BitVec.eq_of_toNat_eq
  simp [BitVec.toNat_twoPow]

theorem and_two_pow_ne_zero_iff (b : Byte) (hk : k < 8) : b &&& BitVec.ofNat 8 (2 ^ k) ≠ 0 ↔ b.getLsbD k = true := by
  rw [ofNat_two_pow, BitVec.and_twoPow]
  split_ifs with h
  · simp only [h, iff_true, ne_eq]
    intro h0
    have := congrArg (BitVec.getLsbD · k) h0
    simp [hk] at this
  · simp [h]

/-- The decompressor stands before the items `items`, after `k` items of the current map. -/
structure Ahead (out : List Byte) (items : List (Item Byte)) (k : ℕ) (st : DecompressState) :
    Prop where
  one_le : 1 ≤ k
  le_eight : k ≤ 8
  copymask : st.copymask = 2 ^ (k - 1)
  src : out.drop st.src = encodeFrom k items
  copymap : ∀ j, k ≤ j → j < 8 → st.copymap.getLsbD j = (mapBits k items).getLsbD j

theorem getD_of_drop {xs : List Byte} {p : ℕ} (h : out.drop p = xs) (i : ℕ) : out.getD (p + i) 0 = xs.getD i 0 := by
  rw [← h, getD_eq_getElem?_getD, getD_eq_getElem?_getD, List.getElem?_drop]

theorem drop_of_append {xs ys : List Byte} {p : ℕ} (h : out.drop p = xs ++ ys) : out.drop (p + xs.length) = ys := by
  rw [← drop_drop, h, drop_left]

/-- After the copy map has been looked at, the next bit says what the next item is. -/
theorem Ahead.loadMap (h : Ahead out (it :: rest) k st) :
    ∃ k' < 8, (loadMap out st).copymask = 2 ^ k' ∧ (loadMap out st).dst = st.dst ∧
      out.drop (loadMap out st).src = itemBytes it ++ encodeFrom (k' + 1) rest ∧
      ∀ j, k' ≤ j → j < 8 → (loadMap out st).copymap.getLsbD j = (mapBits k' (it :: rest)).getLsbD j := by
  have hm : st.copymask <<< 1 = 2 ^ k := by
    rw [h.copymask, shiftLeft_eq, ← pow_add]
    congr 1
    have := h.one_le
    omega
  have hs := h.src
  rw [encodeFrom] at hs
  by_cases hk : k = nbby
  · rw [if_pos hk] at hs
    have hl : Compress.loadMap out st =
        { st with copymask := 1, copymap := out.getD st.src 0, src := st.src + 1 } := by
      rw [Compress.loadMap, hm, hk]
      rfl
    rw [hl]
    refine ⟨0, by omega, rfl, rfl, @drop_of_append out [_] _ _ hs, fun j _ _ => ?_⟩
    exact congrArg (BitVec.getLsbD · j) (getD_of_drop hs 0)
  · have hlt : k < nbby := lt_of_le_of_ne h.le_eight hk
    rw [if_neg hk] at hs
    have hl : Compress.loadMap out st = { st with copymask := 2 ^ k } := by
      rw [Compress.loadMap, hm, if_neg]
      rw [one_shiftLeft]
      exact fun he => hk (Nat.pow_right_injective le_rfl he)
    rw [hl]
    exact ⟨k, hlt, rfl, rfl, hs, h.copymap⟩

/-- The compressor has `k` items in the current copy map, which starts at `copymap`. -/
structure Behind (n k : ℕ) (st : CompressState) : Prop where
  one_le : 1 ≤ k
  le_eight : k ≤ 8
  copymask : st.copymask = 2 ^ (k - 1)
  copymap : k < 8 → st.copymap < st.dst.length
  room : st.dst.length + 2 * (8 - k) < n

theorem length_itemBytes_le (it : Item Byte) : (itemBytes it).length ≤ 2 := by
  cases it <;> simp [itemBytes, copyBytes]

def orAt (i : ℕ) (b : Byte) (dst : List Byte) : List Byte := dst.modify i (· ||| b)

theorem orAt_zero (i : ℕ) (dst : List Byte) : orAt i 0 dst = dst := by
  have : (fun x : Byte => x ||| 0) = id := by
    funext x
    simp
  rw [orAt, this, modify_id]

theorem orAt_orAt (i : ℕ) (a b : Byte) (dst : List Byte) : orAt i b (orAt i a dst) = orAt i (a ||| b) dst := by
  rw [orAt, orAt, modify_modify_eq]
  congr 1
  funext x
  simp [BitVec.or_assoc]

theorem orAt_append {i : ℕ} (b : Byte) {xs : List Byte} (ys : List Byte) (h : i < xs.length) :
    orAt i b (xs ++ ys) = orAt i b xs ++ ys := by
  induction xs generalizing i with
  | nil => simp at h
  | cons x xs ih =>
    cases i with
    | zero => rfl
    | succ i =>
      have := ih (lt_of_succ_lt_succ h)
      simp only [orAt] at this
      simp [orAt, this]

theorem orAt_concat (b x : Byte) (xs : List Byte) : orAt xs.length b (xs ++ [x]) = xs ++ [x ||| b] := by
  induction xs with
  | nil => rfl
  | cons y xs ih =>
    simp only [orAt] at ih
    simp [orAt, ih]

theorem mapBits_cons (it : Item Byte) (rest : List (Item Byte)) (hk : k < nbby) : mapBits k (it :: rest) =
      (if it.isCopy then BitVec.twoPow 8 k else 0) ||| mapBits (k + 1) rest := by
  rw [mapBits, if_neg (Nat.ne_of_lt hk)]

@[simp] theorem length_orAt (i : ℕ) (b : Byte) (xs : List Byte) : (orAt i b xs).length = xs.length := by
  simp [orAt]

theorem markCopy_eq (it : Item Byte) (st : CompressState) (hm : st.copymask = 2 ^ k) :
    markCopy it st = orAt st.copymap (if it.isCopy then BitVec.twoPow 8 k else 0) st.dst := by
  rw [markCopy]
  split_ifs
  · rw [hm, ofNat_two_pow, orAt]
  · rw [orAt_zero]

theorem Behind.shift_copymask {n : ℕ} {st : CompressState} (h : Behind n k st) : st.copymask <<< 1 = 2 ^ k := by
  rw [h.copymask, shiftLeft_eq, ← pow_add]
  congr 1
  have := h.one_le
  omega

/-- One round of the loop that does not give up emits one item: whatever items follow, the
output they complete is the same before and after the round. -/
theorem Behind.round {st st1 : CompressState} (sStart : ℕ)
    (h : Behind s.length k st) (hlt : st.src < s.length) (ho : openMap s.length st = some st1) :
    ∃ (it : Item Byte) (k' : ℕ), it.Valid s st.src ∧ Storable it ∧ (emitItem s sStart st1).src = st.src + it.len ∧
      Behind s.length k' (emitItem s sStart st1) ∧
      ∀ rest, orAt (emitItem s sStart st1).copymap (mapBits k' rest) (emitItem s sStart st1).dst ++ encodeFrom k' rest =
        orAt st.copymap (mapBits k (it :: rest)) st.dst ++ encodeFrom k (it :: rest) := by
  have hsr := openMap_src ho
  obtain ⟨it, hv, hs, hs', hd, hp, hm⟩ := emitItem_spec s sStart st1 (by omega)
  have hle := length_itemBytes_le it
  have hr := h.room
  unfold openMap at ho
  rw [h.shift_copymask, one_shiftLeft] at ho
  by_cases hk : k = nbby
  · rw [if_pos (by rw [hk])] at ho
    split_ifs at ho with hf
    cases ho
    have hm0 := markCopy_eq it { st with copymask := 1, copymap := st.dst.length, dst := st.dst ++ [0] } (k := 0) rfl
    rw [hm0, orAt_concat] at hd
    have hlen := congrArg List.length hd
    simp only [length_append, length_singleton] at hlen
    refine ⟨it, 1, hv, hs, hs', ⟨le_rfl, by omega, hm, fun _ => ?_, ?_⟩, fun rest => ?_⟩
    · rw [hp]
      simp only
      omega
    · simp only [nbby] at hf
      omega
    · rw [hp, hd, hk, encodeFrom, mapBits, if_pos rfl, orAt_zero,
        mapBits_cons it rest (by decide), orAt_append _ _ (by simp), orAt_concat]
      simp
  · have hl8 : k < 8 := lt_of_le_of_ne h.le_eight hk
    rw [if_neg fun he => hk (Nat.pow_right_injective le_rfl he)] at ho
    cases ho
    rw [markCopy_eq it { st with copymask := 2 ^ k } rfl] at hd
    have hc := h.copymap hl8
    have hlen := congrArg List.length hd
    simp only [length_append, length_orAt] at hlen
    refine ⟨it, k + 1, hv, hs, hs', ⟨by omega, hl8, hm, fun _ => ?_, ?_⟩, fun rest => ?_⟩
    · rw [hp]
      simp only
      omega
    · omega
    · rw [hp, hd, encodeFrom, if_neg hk, mapBits_cons it rest hl8,
        orAt_append _ _ (by simpa using hc), orAt_orAt, append_assoc]

theorem compressLoop_encode (s : List Byte) (sStart : ℕ) (st : CompressState)
    (h : Behind s.length k st) (hr : st.src ≤ s.length) :
    compressLoop s sStart st = none ∨ ∃ st' items, compressLoop s sStart st = some st' ∧
      Describes s st.src items ∧ (∀ it ∈ items, Storable it) ∧ st'.dst.length < s.length ∧
      st'.dst = orAt st.copymap (mapBits k items) st.dst ++ encodeFrom k items := by
  fun_induction compressLoop s sStart st generalizing k with
  | case1 st hlt ho => exact .inl rfl
  | case2 st hlt st1 ho ih =>
    obtain ⟨it, k', hv, hstr, hs', hb, ht⟩ := h.round sStart hlt ho
    have hle := hv.le_length
    rcases ih hb (by omega) with hn | ⟨st', items, hs, hd, hst, hlen, hds⟩
    · exact .inl hn
    · refine .inr ⟨st', it :: items, hs, ⟨hv, hs' ▸ hd⟩, ?_, hlen, hds.trans (ht items)⟩
      exact forall_mem_cons.mpr ⟨hstr, hst⟩
  | case3 st hge =>
    refine .inr ⟨st, [], rfl, ?_, by simp, ?_, ?_⟩
    · exact le_antisymm hr (not_lt.mp hge)
    · have := h.room
      omega
    · rw [mapBits, orAt_zero, encodeFrom, append_nil]

/-! ### The round trip -/

/-- The start of the text in the source's own example. -/
def yadda : List Byte := [121, 97, 100, 100, 97, 95, 121, 97, 100, 100, 97, 95, 121, 97, 100, 100, 97]

end Sol8.Os.Compress
