import Sol8.Os.Compress

/-! The accesses that `decompress` makes to its buffers (`os/compress.c`), for any source bytes. The bounds are tested
before an item, and an item is up to three bytes long, so what is read past the end of the source are the bytes that
the last item lacks. -/

namespace Sol8.Os.Compress

open Sol8.Lib.Lz77 List

variable {map : Byte} {k n : ℕ} {s bytes : List Byte} {out : ℕ}

/-- An access to the source or to the destination. -/
inductive Access
  | readSrc (i : ℕ)
  | writeDst (i : ℕ)
  | readDst (i : ℕ)
deriving DecidableEq

def copyAccesses (dLen : ℕ) : (mlen cpy n : ℕ) → List Access
  | 0, _, _ => []
  | mlen + 1, cpy, n =>
    if n < dLen then .readDst cpy :: .writeDst n :: copyAccesses dLen mlen (cpy + 1) (n + 1) else []

def loadMapAccesses (st : DecompressState) : List Access :=
  if st.copymask <<< 1 = 1 <<< nbby then [.readSrc st.src] else []

def decompressLoopAccesses (s : List Byte) (sLen dLen : ℕ) (st : DecompressState) : List Access × List Byte :=
  if st.src < sLen ∧ st.dst.length < dLen then
    let st' := loadMap s st
    if st'.copymap &&& BitVec.ofNat 8 st'.copymask ≠ 0 then
      let mlen := copyLen (s.getD st'.src 0)
      let offset := copyOffset (s.getD st'.src 0) (s.getD (st'.src + 1) 0)
      let read := loadMapAccesses st ++ [.readSrc st'.src, .readSrc st'.src, .readSrc (st'.src + 1)]
      if offset ≤ st'.dst.length then
        let rest := decompressLoopAccesses s sLen dLen { st' with
          src := st'.src + 2
          dst := copyLoop dLen 0 mlen (st'.dst.length - offset) st'.dst }
        (read ++ copyAccesses dLen mlen (st'.dst.length - offset) st'.dst.length ++ rest.1, rest.2)
      else (read, st'.dst)
    else
      let rest := decompressLoopAccesses s sLen dLen
        { st' with src := st'.src + 1, dst := st'.dst ++ [s.getD st'.src 0] }
      (loadMapAccesses st ++ [.readSrc st'.src, .writeDst st'.dst.length] ++ rest.1, rest.2)
  else ([], st.dst)
termination_by sLen - st.src
decreasing_by
  all_goals
    have := src_le_loadMap s st
    omega

/-- The accesses of `decompress`, with what it returns and the content of the destination buffer. -/
def decompressAccesses (s : List Byte) (sLen dLen : ℕ) : List Access × ℕ × List Byte :=
  if sLen ≥ dLen then
    ((List.range dLen).flatMap fun i => [.readSrc i, .writeDst i], dLen, (List.range dLen).map fun i => s.getD i 0)
  else
    let run := decompressLoopAccesses s sLen dLen ⟨0, [], 0, 1 <<< (nbby - 1)⟩
    (run.1, run.2.length, run.2)

theorem decompressLoopAccesses_result (s : List Byte) (sLen dLen : ℕ) (st : DecompressState) :
    (decompressLoopAccesses s sLen dLen st).2 = decompressLoop s sLen dLen st := by
  fun_induction decompressLoop s sLen dLen st with
  | case1 st hlt st' hc mlen offset ho ih =>
    rw [decompressLoopAccesses, if_pos hlt]
    rw [if_pos hc, if_pos ho]
    exact ih
  | case2 st hlt st' hc offset ho =>
    rw [decompressLoopAccesses, if_pos hlt]
    rw [if_pos hc, if_neg ho]
  | case3 st hlt st' hl ih =>
    rw [decompressLoopAccesses, if_pos hlt]
    rw [if_neg hl]
    exact ih
  | case4 st hge => rw [decompressLoopAccesses, if_neg hge]

/-- The accesses are those of the function that is modelled without them. -/
theorem decompressAccesses_result (s : List Byte) (sLen dLen : ℕ) :
    (decompressAccesses s sLen dLen).2 = decompress s sLen dLen := by
  rw [decompressAccesses, decompress]
  split
  · rfl
  · dsimp only
    rw [decompressLoopAccesses_result]

/-! ### Confinement -/

/-- An access after others: inside its buffer, and what is read back has been written. -/
def Access.Allowed (sLen dLen : ℕ) (before : List Access) : Access → Prop
  | .readSrc i => i < sLen
  | .writeDst i => i < dLen
  | .readDst i => .writeDst i ∈ before

def ConfinedAfter (sLen dLen : ℕ) (before log : List Access) : Prop :=
  ∀ l₁ a l₂, log = l₁ ++ a :: l₂ → a.Allowed sLen dLen (before ++ l₁)

def Confined (sLen dLen : ℕ) (log : List Access) : Prop := ConfinedAfter sLen dLen [] log

variable {sLen dLen : ℕ} {before log log' : List Access} {a : Access}

theorem confinedAfter_nil : ConfinedAfter sLen dLen before [] := by
  intro l1 a l2 h
  simp at h

theorem confinedAfter_cons : ConfinedAfter sLen dLen before (a :: log) ↔
      a.Allowed sLen dLen before ∧ ConfinedAfter sLen dLen (before ++ [a]) log := by
  constructor
  · intro h
    refine ⟨by simpa using h [] a log rfl, fun l1 b l2 hl => ?_⟩
    simpa using h (a :: l1) b l2 (by rw [hl]; rfl)
  · rintro ⟨ha, h⟩ l1 b l2 hl
    cases l1 with obtain ⟨rfl, rfl⟩ := List.cons.inj hl
    | nil =>
      simpa using ha
    | cons c l1 =>
      simpa using h l1 b l2 rfl

theorem confinedAfter_append : ConfinedAfter sLen dLen before (log ++ log') ↔
      ConfinedAfter sLen dLen before log ∧ ConfinedAfter sLen dLen (before ++ log) log' := by
  induction log generalizing before with
  | nil => simp [confinedAfter_nil]
  | cons a log ih =>
    rw [cons_append, confinedAfter_cons, confinedAfter_cons, ih, and_assoc]
    simp

def Written (n : ℕ) (before : List Access) : Prop := ∀ i, .writeDst i ∈ before ↔ i < n

theorem Written.append_read (h : Written n before) (hl : ∀ i, Access.writeDst i ∉ log) : Written n (before ++ log) := by
  intro i
  rw [mem_append, or_iff_left (hl i)]
  exact h i

theorem Written.append_write (h : Written n before) : Written (n + 1) (before ++ [.writeDst n]) := by
  intro i
  rw [mem_append, h i, mem_singleton, Access.writeDst.injEq]
  omega

/-! ### Whole items -/

/-- The bytes are whole items, up to where the destination is full or an offset reaches before it; no offset is zero.
The current copy map has `k` items, and `out` bytes have been written. -/
def whole (dLen : ℕ) : List Byte → (k : ℕ) → (map : Byte) → (out : ℕ) → Bool
  | [], _, _, _ => true
  | b :: bytes, k, map, out =>
    if dLen ≤ out then true
    else if k = nbby then
      if b.getLsbD 0 then
        match bytes with
        | b0 :: b1 :: rest =>
          decide (out < copyOffset b0 b1) ||
            (decide (0 < copyOffset b0 b1) && whole dLen rest 1 b (min dLen (out + copyLen b0)))
        | _ => false
      else
        match bytes with
        | _ :: rest => whole dLen rest 1 b (out + 1)
        | [] => false
    else if map.getLsbD k then
      match bytes with
      | b1 :: rest =>
        decide (out < copyOffset b b1) ||
          (decide (0 < copyOffset b b1) && whole dLen rest (k + 1) map (min dLen (out + copyLen b)))
      | [] => false
    else whole dLen bytes (k + 1) map (out + 1)

def wholeItem (dLen : ℕ) (bytes : List Byte) (k : ℕ) (map : Byte) (out : ℕ) : Bool :=
  if map.getLsbD k then
    match bytes with
    | b0 :: b1 :: rest =>
      decide (out < copyOffset b0 b1) ||
        (decide (0 < copyOffset b0 b1) && whole dLen rest (k + 1) map (min dLen (out + copyLen b0)))
    | _ => false
  else
    match bytes with
    | _ :: rest => whole dLen rest (k + 1) map (out + 1)
    | [] => false

theorem whole_cons {b : Byte} (ho : out < dLen) : whole dLen (b :: bytes) k map out =
      if k = nbby then wholeItem dLen bytes 0 b out else wholeItem dLen (b :: bytes) k map out := by
  rw [whole.eq_def]
  dsimp only
  rw [if_neg (not_le.mpr ho)]
  cases bytes <;> rfl

theorem whole_of_le (ho : dLen ≤ out) : whole dLen bytes k map out = true := by
  cases bytes with
  | nil => rfl
  | cons b bytes =>
    rw [whole.eq_def]
    exact if_pos ho

/-- A copy from before what has been written reads only what has been written. -/
theorem copyAccesses_confined {mlen cpy : ℕ} (hp : cpy < n) (hn : n ≤ dLen) (hw : Written n before) :
    ConfinedAfter sLen dLen before (copyAccesses dLen mlen cpy n) ∧
      Written (min dLen (n + mlen)) (before ++ copyAccesses dLen mlen cpy n) := by
  induction mlen generalizing cpy n before with
  | zero =>
    rw [copyAccesses, append_nil, Nat.add_zero, Nat.min_eq_right hn]
    exact ⟨confinedAfter_nil, hw⟩
  | succ mlen ih =>
    rw [copyAccesses]
    split
    next hlt =>
      have hr : Written n (before ++ [.readDst cpy]) := hw.append_read fun i => by simp
      obtain ⟨hc, hwr⟩ := ih (Nat.succ_lt_succ hp) hlt hr.append_write
      rw [confinedAfter_cons, confinedAfter_cons]
      refine ⟨⟨(hw cpy).mpr hp, hlt, hc⟩, ?_⟩
      rw [Nat.succ_add_eq_add_succ] at hwr
      simpa using hwr
    next hge =>
      rw [append_nil]
      refine ⟨confinedAfter_nil, ?_⟩
      rw [Nat.min_eq_left (by omega), Nat.le_antisymm (not_lt.mp hge) hn]
      exact hw

/-- An offset of zero reads the byte that is going to be written. -/
theorem copyAccesses_not_confined {mlen : ℕ} (hm : 0 < mlen) (hn : n < dLen) (hw : Written n before) :
    ¬ ConfinedAfter sLen dLen before (copyAccesses dLen mlen n n) := by
  obtain ⟨mlen, rfl⟩ := Nat.exists_eq_add_of_lt hm
  rw [copyAccesses, if_pos hn, confinedAfter_cons]
  rintro ⟨hr, -⟩
  exact absurd ((hw n).mp hr) (lt_irrefl n)

theorem loadMap_item (before : List Access) {st : DecompressState} (hk : 1 ≤ k) (hk8 : k ≤ nbby)
    (hm : st.copymask = 2 ^ (k - 1)) (hr : st.src < s.length) (hd : st.dst.length < dLen) :
    ∃ k' < 8, (loadMap s st).copymask = 2 ^ k' ∧ (loadMap s st).dst = st.dst ∧
      ConfinedAfter s.length dLen before (loadMapAccesses st) ∧ (∀ i, Access.writeDst i ∉ loadMapAccesses st) ∧
      whole dLen (s.drop st.src) k st.copymap st.dst.length =
        wholeItem dLen (s.drop (loadMap s st).src) k' (loadMap s st).copymap st.dst.length := by
  have hs : st.copymask <<< 1 = 2 ^ k := by
    rw [hm, Nat.shiftLeft_eq, ← pow_add, Nat.sub_add_cancel hk]
  rw [drop_eq_getElem_cons hr, whole_cons hd, loadMap, loadMapAccesses, hs]
  by_cases h : k = nbby
  · rw [if_pos h, h]
    refine ⟨0, by omega, rfl, rfl, ?_, ?_, ?_⟩
    · exact confinedAfter_cons.mpr ⟨hr, confinedAfter_nil⟩
    · intro i
      simp [nbby]
    · rw [show (2 : ℕ) ^ nbby = 1 <<< nbby from rfl, if_pos rfl, getD_eq_getElem _ _ hr]
  · have hne : ¬ 2 ^ k = 1 <<< nbby := by
      exact fun he => h (Nat.pow_right_injective le_rfl he)
    rw [if_neg h, if_neg hne, if_neg hne, drop_eq_getElem_cons hr]
    exact ⟨k, lt_of_le_of_ne hk8 h, rfl, rfl, confinedAfter_nil, fun i => not_mem_nil, rfl⟩

theorem wholeItem_copy {i : ℕ} (hb : map.getLsbD k = true) :
    wholeItem dLen (s.drop i) k map out = true ↔ i + 1 < s.length ∧
      (out < copyOffset (s.getD i 0) (s.getD (i + 1) 0) ∨ 0 < copyOffset (s.getD i 0) (s.getD (i + 1) 0) ∧
        whole dLen (s.drop (i + 2)) (k + 1) map (min dLen (out + copyLen (s.getD i 0))) = true) := by
  rw [wholeItem.eq_def, if_pos hb]
  by_cases hi : i + 1 < s.length
  · rw [drop_eq_getElem_cons (Nat.lt_of_succ_lt hi), drop_eq_getElem_cons hi, getD_eq_getElem _ _ hi,
      getD_eq_getElem _ _ (Nat.lt_of_succ_lt hi), and_iff_right hi]
    simp
  · have hs : (s.drop i).length ≤ 1 := by
      rw [length_drop]
      omega
    refine ⟨fun h => ?_, fun h => absurd h.1 hi⟩
    split at h
    next heq =>
      rw [heq] at hs
      simp at hs
    · cases h

theorem wholeItem_literal {i : ℕ} (hb : ¬ map.getLsbD k = true) : wholeItem dLen (s.drop i) k map out = true ↔
      i < s.length ∧ whole dLen (s.drop (i + 1)) (k + 1) map (out + 1) = true := by
  rw [wholeItem.eq_def, if_neg hb]
  by_cases hi : i < s.length
  · rw [drop_eq_getElem_cons hi, and_iff_right hi]
  · rw [drop_eq_nil_of_le (not_lt.mp hi)]
    exact ⟨nofun, fun h => absurd h.1 hi⟩

theorem confinedAfter_item {i : ℕ} :
    ConfinedAfter sLen dLen before [.readSrc i, .readSrc i, .readSrc (i + 1)] ↔ i + 1 < sLen := by
  rw [confinedAfter_cons, confinedAfter_cons, confinedAfter_cons]
  exact ⟨fun h => h.2.2.1, fun h => ⟨Nat.lt_of_succ_lt h, Nat.lt_of_succ_lt h, h, confinedAfter_nil⟩⟩

/-- The loop stays in its buffers if and only if what it is going to read are whole items. -/
theorem decompressLoop_confined (s : List Byte) (dLen : ℕ) (st : DecompressState) {before : List Access}
    (hk : 1 ≤ k) (hk8 : k ≤ nbby) (hm : st.copymask = 2 ^ (k - 1)) (hw : Written st.dst.length before) :
    ConfinedAfter s.length dLen before (decompressLoopAccesses s s.length dLen st).1 ↔
      whole dLen (s.drop st.src) k st.copymap st.dst.length = true := by
  fun_induction decompressLoop s s.length dLen st generalizing k before with
  | case1 st hlt st' hc mlen offset =>
    rename_i ho ih
    obtain ⟨k', hk', hm', hd, hl, hr, hh⟩ := loadMap_item before hk hk8 hm hlt.1 hlt.2
    have ht : st'.copymap.getLsbD k' = true := (and_two_pow_ne_zero_iff _ hk').mp (hm' ▸ hc)
    have hn : ∀ i, Access.writeDst i ∉ [.readSrc st'.src, .readSrc st'.src, .readSrc (st'.src + 1)] := fun i => by
      simp
    replace hw : Written st'.dst.length _ := hd ▸ (hw.append_read hr).append_read hn
    rw [hh, wholeItem_copy ht, or_iff_right (not_lt.mpr (hd ▸ ho)), decompressLoopAccesses, if_pos hlt]
    dsimp only
    rw [if_pos hc, if_pos ho, append_assoc, append_assoc, confinedAfter_append, and_iff_right hl,
      confinedAfter_append, confinedAfter_item, confinedAfter_append]
    refine and_congr_right fun _ => ?_
    rcases Nat.eq_zero_or_pos offset with hz | hpos
    · refine ⟨fun h => ?_, fun h => absurd h.1 (Nat.not_lt.mpr hz.le)⟩
      rw [show copyOffset _ _ = 0 from hz] at h
      exact absurd h.1 (copyAccesses_not_confined (Nat.succ_pos _) (hd ▸ hlt.2) hw)
    · have hle : st'.dst.length ≤ dLen := hd ▸ hlt.2.le
      have hb : st'.dst.length - offset < st'.dst.length := by omega
      have hlen : (copyLoop dLen 0 mlen (st'.dst.length - offset) st'.dst).length = _ := length_copyLoop 0 hle
      obtain ⟨hcn, hw'⟩ := copyAccesses_confined hb hle hw
      rw [← hlen] at hw'
      rw [and_iff_right hcn, and_iff_right hpos, ih (Nat.succ_pos k') hk' hm' hw', hlen, hd]
  | case2 st hlt st' hc =>
    rename_i offset ho
    obtain ⟨k', hk', hm', hd, hl, hr, hh⟩ := loadMap_item before hk hk8 hm hlt.1 hlt.2
    have ht : st'.copymap.getLsbD k' = true := (and_two_pow_ne_zero_iff _ hk').mp (hm' ▸ hc)
    rw [hh, wholeItem_copy ht, decompressLoopAccesses, if_pos hlt]
    rw [if_pos hc, if_neg ho, confinedAfter_append, and_iff_right hl, confinedAfter_item]
    exact (and_iff_left (.inl (hd ▸ not_le.mp ho))).symm
  | case3 st hlt st' hli =>
    rename_i ih
    obtain ⟨k', hk', hm', hd, hl, hr, hh⟩ := loadMap_item before hk hk8 hm hlt.1 hlt.2
    have ht : ¬ st'.copymap.getLsbD k' = true := fun h => hli (hm' ▸ (and_two_pow_ne_zero_iff _ hk').mpr h)
    have hlen : (st'.dst ++ [s.getD st'.src 0]).length = st'.dst.length + 1 := by simp
    have hn : ∀ i, Access.writeDst i ∉ [.readSrc st'.src] := fun i => by simp
    replace hw := ((hw.append_read hr).append_read hn).append_write
    rw [← hd, ← hlen] at hw
    rw [hh, wholeItem_literal ht, decompressLoopAccesses, if_pos hlt]
    dsimp only
    rw [if_neg hli, append_assoc, confinedAfter_append, and_iff_right hl, cons_append, cons_append,
      confinedAfter_cons, confinedAfter_cons]
    refine and_congr_right fun _ => (and_iff_right (hd ▸ hlt.2)).trans ?_
    rw [← hd, ← hlen]
    exact ih (Nat.succ_pos k') hk' hm' hw
  | case4 st hge =>
    rw [decompressLoopAccesses, if_neg hge]
    refine ⟨fun _ => ?_, fun _ => confinedAfter_nil⟩
    rcases Nat.lt_or_ge st.src s.length with hs | hs
    · exact whole_of_le (not_lt.mp fun hd => hge ⟨hs, hd⟩)
    · rw [drop_eq_nil_of_le hs]
      exact whole.eq_def ..

/-- `decompress` stays in its buffers if and only if the source is copied raw or the items that it reads are whole and
their offsets are not zero. -/
theorem decompress_confined_iff (s : List Byte) (dLen : ℕ) :
    Confined s.length dLen (decompressAccesses s s.length dLen).1 ↔
      dLen ≤ s.length ∨ whole dLen s nbby 0 0 = true := by
  rw [decompressAccesses]
  by_cases hr : dLen ≤ s.length
  · rw [if_pos hr]
    refine ⟨fun _ => .inl hr, fun _ l1 a l2 hl => ?_⟩
    have ha : a ∈ (List.range dLen).flatMap fun i => [Access.readSrc i, .writeDst i] := by
      rw [show (List.range dLen).flatMap _ = l1 ++ a :: l2 from hl]
      exact mem_append_right _ mem_cons_self
    obtain ⟨i, hi, ha⟩ := mem_flatMap.mp ha
    rw [mem_range] at hi
    rcases mem_cons.mp ha with rfl | ha
    · exact lt_of_lt_of_le hi hr
    · rw [mem_singleton.mp ha]
      exact hi
  · rw [if_neg hr, or_iff_right hr]
    have hw : Written ([] : List Byte).length [] := fun i => ⟨nofun, nofun⟩
    exact decompressLoop_confined s dLen ⟨0, [], 0, 1 <<< (nbby - 1)⟩ (by decide) le_rfl rfl hw

/-- The source is one copy map whose first bit asks for a copy: the two bytes after its end are read. In the other source
the offset of the copy is zero. -/
theorem decompress_not_confined :
    (.readSrc 1 ∈ (decompressAccesses [0x01] 1 2).1 ∧ .readSrc 2 ∈ (decompressAccesses [0x01] 1 2).1) ∧
      ¬ Confined 1 2 (decompressAccesses [0x01] 1 2).1 ∧
      ¬ Confined 3 4 (decompressAccesses [0x01, 0x00, 0x00] 3 4).1 := by
  have hw : Written ([] : List Byte).length [] := fun i => ⟨nofun, nofun⟩
  have hf : ∀ s dLen, ¬ dLen ≤ s.length → whole dLen s nbby 0 0 = false →
      ¬ Confined s.length dLen (decompressAccesses s s.length dLen).1 := by
    intro s dLen hr hh h
    rw [decompressAccesses, if_neg hr] at h
    have hl := decompressLoop_confined s dLen ⟨0, [], 0, 1 <<< (nbby - 1)⟩ (by decide) le_rfl rfl hw
    cases hh.symm.trans (hl.mp h)
  refine ⟨?_, hf [0x01] 2 (by decide) rfl, hf [0x01, 0x00, 0x00] 4 (by decide) rfl⟩
  rw [decompressAccesses, if_neg (by decide), decompressLoopAccesses]
  have hz : copyOffset 0#8 0#8 = 0 := rfl
  exact ⟨by simp [loadMap, nbby, hz], by simp [loadMap, nbby, hz]⟩

end Sol8.Os.Compress
