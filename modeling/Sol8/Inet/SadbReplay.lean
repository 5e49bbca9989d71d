import Sol8.Lib.BitWords
import Sol8.Lib.Run

/-! The anti-replay window of an IPsec security association (`inet/sadb.c`).

Sequence numbers are in host order. C leaves a shift of a 64-bit word by 64 or more undefined, so the
model takes what the machine makes of it as a parameter. -/

namespace Sol8.Inet.SadbReplay

open Function Sol8.Lib BitWords

/-- The result of a shift by 64 or more. -/
structure WideShift where
  left : BitVec 64 → ℕ → BitVec 64
  right : BitVec 64 → ℕ → BitVec 64

namespace WideShift

variable (m : WideShift)

/-- `x << n` -/
def shl (x : BitVec 64) (n : ℕ) : BitVec 64 := if n < 64 then x <<< n else m.left x n

/-- `x >> n` -/
def shr (x : BitVec 64) (n : ℕ) : BitVec 64 := if n < 64 then x >>> n else m.right x n

end WideShift

structure Ipsa where
  replayWsize : ℕ
  replay : BitVec 32
  replayArr : ℕ → BitVec 64

namespace Ipsa

variable (m : WideShift) (ipsa : Ipsa)

def isReplaySet (offset : ℕ) : Bool :=
  1#64 <<< (offset &&& 63) &&& ipsa.replayArr (offset >>> 6) ≠ 0

/-- The loop of `ipsa_shift_replay`, from the word before `i` down; `last` is the index of the last word. -/
def shiftLoop (last jump shift : ℕ) : ℕ → (ℕ → BitVec 64) → ℕ → BitVec 64
  | 0, arr => arr
  | i + 1, arr =>
    let arr := if i + jump ≤ last then
        update arr (i + jump) (arr (i + jump) ||| m.shr (arr i) (64 - (shift &&& 63)))
      else arr
    shiftLoop last jump shift i (update arr i (m.shl (arr i) shift))

def shiftReplay (shift : ℕ) : Ipsa :=
  if shift = 0 then ipsa
  else
    let jump := ((shift - 1) >>> 6) + 1
    let last := (ipsa.replayWsize - 1) >>> 6
    { ipsa with replayArr := shiftLoop m last jump shift (last + 1) ipsa.replayArr }

def setReplay (offset : ℕ) : Ipsa :=
  let word := ipsa.replayArr (offset >>> 6) ||| 1#64 <<< (offset &&& 63)
  { ipsa with replayArr := update ipsa.replayArr (offset >>> 6) word }

/-- `sadb_replay_check`: whether the number is accepted, and the association after it. -/
def sadbReplayCheck (seq : BitVec 32) : Bool × Ipsa :=
  if ipsa.replayWsize = 0 then (true, ipsa)
  else
    let ipsa := if ipsa.replay = 0 then { ipsa with replay := 1 } else ipsa
    if ipsa.replay < seq then
      let diff := (seq - ipsa.replay).toNat
      let ipsa := if diff < ipsa.replayWsize then ipsa.shiftReplay m diff
        else { ipsa with replayArr := fun _ => 0 }
      (true, { ipsa.setReplay 0 with replay := seq })
    else
      let diff := (ipsa.replay - seq).toNat
      if ipsa.replayWsize ≤ diff || ipsa.isReplaySet diff then (false, ipsa)
      else (true, ipsa.setReplay diff)

end Ipsa

/-! ### The bits of the window -/

section Bits

variable {m : WideShift} {ipsa : Ipsa}

theorem isReplaySet_eq (d : ℕ) : ipsa.isReplaySet d = bit ipsa.replayArr d := by
  have hmod : d &&& 63 = d % 64 := Nat.and_two_pow_sub_one_eq_mod d 6
  have hlt : d % 64 < 64 := Nat.mod_lt _ (by decide)
  rw [Ipsa.isReplaySet, hmod, Nat.shiftRight_eq_div_pow, Bool.eq_iff_iff, decide_eq_true_eq]
  exact and_mask_ne_zero_iff hlt

theorem bit_setReplay (d e : ℕ) : bit (ipsa.setReplay d).replayArr e = (bit ipsa.replayArr e || decide (e = d)) := by
  have hmod : d &&& 63 = d % 64 := Nat.and_two_pow_sub_one_eq_mod d 6
  rw [Ipsa.setReplay, hmod, Nat.shiftRight_eq_div_pow]
  exact bit_set ipsa.replayArr d e

/-- The loop for a shift within a word, when the words before `n` are left. -/
theorem shiftLoop_apply {last s : ℕ} (hs : 0 < s) (hs' : s < 64) {n : ℕ} (hn : n ≤ last + 1)
    (arr : ℕ → BitVec 64) (j : ℕ) : Ipsa.shiftLoop m last 1 s n arr j =
      if j < n then if j = 0 then arr 0 <<< s else arr j <<< s ||| arr (j - 1) >>> (64 - s)
      else if j = n ∧ 0 < n ∧ n ≤ last then arr n ||| arr (n - 1) >>> (64 - s) else arr j := by
  have hm : s &&& 63 = s := (Nat.and_two_pow_sub_one_eq_mod s 6).trans (Nat.mod_eq_of_lt hs')
  have hh (x : BitVec 64) : m.shl x s = x <<< s := if_pos hs'
  have hr (x : BitVec 64) : m.shr x (64 - s) = x >>> (64 - s) := if_pos (by omega)
  induction n generalizing arr with
  | zero => simp [Ipsa.shiftLoop]
  | succ i ih =>
    simp only [Ipsa.shiftLoop, hm, hr, hh]
    set arr1 := if i + 1 ≤ last then update arr (i + 1) (arr (i + 1) ||| arr i >>> (64 - s)) else arr with h1
    have hp (k : ℕ) (hk : k ≠ i + 1) : arr1 k = arr k := by
      rw [h1]
      split_ifs
      · exact update_of_ne hk ..
      · rfl
    rw [ih (by omega)]
    rcases lt_trichotomy j i with hj | rfl | hj
    · have hw (k : ℕ) (hk : k ≤ j) : update arr1 i (arr1 i <<< s) k = arr k := by
        rw [update_of_ne (by omega), hp k (by omega)]
      rw [if_pos hj, if_pos (Nat.lt_succ_of_lt hj), hw 0 (by omega), hw j le_rfl, hw (j - 1) (by omega)]
    · rw [if_neg (lt_irrefl j), if_pos (Nat.lt_succ_self j), update_self, hp j (by omega)]
      by_cases h0 : j = 0
      · rw [if_neg (by omega), if_pos h0, h0]
      · rw [if_pos ⟨rfl, by omega, by omega⟩, if_neg h0, update_of_ne (by omega), hp (j - 1) (by omega)]
    · rw [if_neg (by omega), if_neg (by omega), if_neg (by omega), update_of_ne (by omega)]
      by_cases he : j = i + 1
      · rw [he, h1]
        by_cases hl : i + 1 ≤ last
        · rw [if_pos hl, update_self, if_pos ⟨rfl, by omega, hl⟩, Nat.add_sub_cancel]
        · rw [if_neg hl, if_neg fun h => hl h.2.2]
      · rw [hp j he, if_neg fun h => he h.1]

theorem bit_shiftReplay {s d : ℕ} (hs : 0 < s) (hs' : s < 64) (hd : d < ipsa.replayWsize) :
    bit (ipsa.shiftReplay m s).replayArr d = if d < s then false else bit ipsa.replayArr (d - s) := by
  have hm : (s - 1) >>> 6 + 1 = 1 := by
    omega
  have hh : BitWords.ShiftedUp ipsa.replayArr (ipsa.shiftReplay m s).replayArr s
      ((ipsa.replayWsize - 1) >>> 6 + 1) := by
    intro j hj
    rw [Ipsa.shiftReplay, if_neg hs.ne', hm]
    dsimp only
    rw [shiftLoop_apply hs hs' le_rfl, if_pos hj]
  refine hh.bit hs' ?_
  omega

end Bits

/-! ### What was accepted -/

/-- An association with the numbers that it has accepted, the last one first. -/
structure Receiver where
  ipsa : Ipsa
  accepted : List (BitVec 32)

def newReceiver (w : ℕ) : Receiver := ⟨⟨w, 0, fun _ => 0⟩, []⟩

section Receive

variable (m : WideShift) (r : Receiver)

def Receiver.receive (seq : BitVec 32) : Receiver :=
  let (rc, ipsa) := r.ipsa.sadbReplayCheck m seq
  ⟨ipsa, if rc then seq :: r.accepted else r.accepted⟩

def Step (r r' : Receiver) : Prop := ∃ seq, seq ≠ 0 ∧ r' = r.receive m seq

/-- No number is accepted twice, and a new one is accepted if it is in the window or beyond. -/
def AntiReplay : Prop :=
  r.accepted.Nodup ∧ ∀ seq, seq ≠ 0 → seq ∉ r.accepted →
    (∀ a ∈ r.accepted, a.toNat < seq.toNat + r.ipsa.replayWsize) → (r.ipsa.sadbReplayCheck m seq).1 = true

/-- The highest number, as `sadb_replay_check` takes it. -/
def Ipsa.highest (ipsa : Ipsa) : BitVec 32 := if ipsa.replay = 0 then 1 else ipsa.replay

/-- The window moves by less than a word, or by more than its size. -/
def Ipsa.Near (ipsa : Ipsa) (seq : BitVec 32) : Prop :=
  seq.toNat < ipsa.highest.toNat + 64 ∨ ipsa.highest.toNat + ipsa.replayWsize ≤ seq.toNat

def SafeStep (r r' : Receiver) : Prop := ∃ seq, seq ≠ 0 ∧ r.ipsa.Near seq ∧ r' = r.receive m seq

end Receive

structure Inv (w : ℕ) (r : Receiver) : Prop where
  size : r.ipsa.replayWsize = w
  nodup : r.accepted.Nodup
  le : ∀ a ∈ r.accepted, a.toNat ≤ r.ipsa.highest.toNat
  top : r.ipsa.highest ∈ r.accepted ∨ r.ipsa.highest.toNat = 1
  window : ∀ seq, seq ≠ 0 → seq.toNat ≤ r.ipsa.highest.toNat → r.ipsa.highest.toNat < seq.toNat + w →
    (bit r.ipsa.replayArr (r.ipsa.highest.toNat - seq.toNat) = true ↔ seq ∈ r.accepted)

theorem inv_newReceiver (w : ℕ) : Inv w (newReceiver w) where
  size := rfl
  nodup := List.nodup_nil
  le _ h := absurd h List.not_mem_nil
  top := .inr rfl
  window _ _ _ _ := iff_of_false (Bool.eq_false_iff.mp (bit_zero _)) List.not_mem_nil

/-! ### A check -/

section Check

variable {m : WideShift} {ipsa : Ipsa} {seq : BitVec 32} {w : ℕ} {r r' : Receiver}

def Ipsa.moved (m : WideShift) (ipsa : Ipsa) (seq : BitVec 32) : Ipsa :=
  let diff := seq.toNat - ipsa.highest.toNat
  let ipsa := if diff < ipsa.replayWsize then ipsa.shiftReplay m diff else { ipsa with replayArr := fun _ => 0 }
  { ipsa.setReplay 0 with replay := seq }

theorem one_le_highest (ipsa : Ipsa) : 1 ≤ ipsa.highest.toNat := by
  unfold Ipsa.highest
  split_ifs with h
  · exact le_rfl
  · by_contra hlt
    exact h (BitVec.eq_of_toNat_eq (by simp; omega))

theorem Ipsa.withHighest (ipsa : Ipsa) :
    (if ipsa.replay = 0 then { ipsa with replay := 1 } else ipsa) = { ipsa with replay := ipsa.highest } := by
  unfold Ipsa.highest
  split_ifs <;> rfl

theorem check_of_gt (hw : ipsa.replayWsize ≠ 0) (h : ipsa.highest.toNat < seq.toNat) :
    ipsa.sadbReplayCheck m seq = (true, ipsa.moved m seq) := by
  have hd : (seq - ipsa.highest).toNat = seq.toNat - ipsa.highest.toNat :=
    BitVec.toNat_sub_of_le (BitVec.le_def.mpr h.le)
  simp only [Ipsa.sadbReplayCheck, if_neg hw, Ipsa.withHighest, if_pos (BitVec.lt_def.mpr h), hd, Ipsa.moved]
  unfold Ipsa.shiftReplay
  split_ifs <;> rfl

theorem check_of_le (hw : ipsa.replayWsize ≠ 0) (h : seq.toNat ≤ ipsa.highest.toNat) : ipsa.sadbReplayCheck m seq =
      let ipsa' := { ipsa with replay := ipsa.highest }
      let diff := ipsa.highest.toNat - seq.toNat
      if ipsa.replayWsize ≤ diff ∨ bit ipsa.replayArr diff = true then (false, ipsa')
      else (true, ipsa'.setReplay diff) := by
  have hd : (ipsa.highest - seq).toNat = ipsa.highest.toNat - seq.toNat :=
    BitVec.toNat_sub_of_le (BitVec.le_def.mpr h)
  have hlt : ¬ ipsa.highest < seq := fun hlt => absurd (BitVec.lt_def.mp hlt) (not_lt.mpr h)
  simp only [Ipsa.sadbReplayCheck, if_neg hw, Ipsa.withHighest, if_neg hlt, hd, isReplaySet_eq,
    Bool.or_eq_true, decide_eq_true_eq]

theorem bit_moved (h : ipsa.highest.toNat < seq.toNat) (hr : ipsa.Near seq) {d : ℕ} (hd : d < ipsa.replayWsize) :
    bit (ipsa.moved m seq).replayArr d = (decide (d = 0) || if d < seq.toNat - ipsa.highest.toNat then false
        else bit ipsa.replayArr (d - (seq.toNat - ipsa.highest.toNat))) := by
  set diff := seq.toNat - ipsa.highest.toNat with hf
  simp only [Ipsa.moved, bit_setReplay, ← hf]
  rw [Bool.or_comm]
  congr 1
  by_cases hlt : diff < ipsa.replayWsize
  · have hw : diff < 64 := by
      rcases hr with hn | hn <;> omega
    rw [if_pos hlt]
    exact bit_shiftReplay (by omega) hw hd
  · rw [if_neg hlt, if_pos (by omega)]
    exact bit_zero d

theorem moved_highest (h : ipsa.highest.toNat < seq.toNat) : (ipsa.moved m seq).highest = seq := by
  have hne : seq ≠ 0 := by
    rintro rfl
    exact absurd h (Nat.not_lt_zero _)
  exact if_neg hne

theorem moved_wsize : (ipsa.moved m seq).replayWsize = ipsa.replayWsize := by
  simp only [Ipsa.moved, Ipsa.setReplay, Ipsa.shiftReplay]
  split_ifs <;> rfl

theorem Inv.ahead (h : Inv w r) (hlt : r.ipsa.highest.toNat < seq.toNat) (hn : r.ipsa.Near seq) :
    Inv w ⟨r.ipsa.moved m seq, seq :: r.accepted⟩ := by
  have hnw (a : BitVec 32) (ha : r.ipsa.highest.toNat < a.toNat) : a ∉ r.accepted :=
    fun hmem => absurd (h.le a hmem) (not_le.mpr ha)
  have ht := moved_highest (m := m) hlt
  refine ⟨moved_wsize.trans h.size, List.nodup_cons.mpr ⟨hnw seq hlt, h.nodup⟩, ?_, ?_, ?_⟩
  · intro a ha
    rw [ht]
    rcases List.mem_cons.mp ha with rfl | ha
    · exact le_rfl
    · exact (h.le a ha).trans hlt.le
  · rw [ht]
    exact .inl List.mem_cons_self
  · intro s hs hle hw
    rw [ht] at hle hw ⊢
    rw [bit_moved hlt hn (by have := h.size; omega), List.mem_cons, Bool.or_eq_true, decide_eq_true_eq]
    refine or_congr ⟨fun h0 => BitVec.eq_of_toNat_eq (by omega), fun he => by rw [he]; omega⟩ ?_
    by_cases hs' : r.ipsa.highest.toNat < s.toNat
    · rw [if_pos (by omega)]
      exact iff_of_false Bool.false_ne_true (hnw s hs')
    · rw [if_neg (by omega), ← h.window s hs (by omega) (by omega)]
      rw [show seq.toNat - s.toNat - (seq.toNat - r.ipsa.highest.toNat) = r.ipsa.highest.toNat - s.toNat by omega]

theorem highest_withHighest (ipsa : Ipsa) : ({ ipsa with replay := ipsa.highest } : Ipsa).highest = ipsa.highest := by
  have := one_le_highest ipsa
  refine if_neg fun h0 => ?_
  rw [show ipsa.highest = 0 from h0] at this
  cases this

/-- The first check sets `ipsa_replay`. -/
theorem Inv.withHighest (h : Inv w r) : Inv w ⟨{ r.ipsa with replay := r.ipsa.highest }, r.accepted⟩ := by
  have ht := highest_withHighest r.ipsa
  refine ⟨h.size, h.nodup, ?_, ?_, ?_⟩
  all_goals
    rw [ht]
  · exact h.le
  · exact h.top
  · exact h.window

theorem Inv.behind (h : Inv w r) (hle : seq.toNat ≤ r.ipsa.highest.toNat) (hn : seq ∉ r.accepted) :
    Inv w ⟨r.ipsa.setReplay (r.ipsa.highest.toNat - seq.toNat), seq :: r.accepted⟩ := by
  have ht : (r.ipsa.setReplay (r.ipsa.highest.toNat - seq.toNat)).highest = r.ipsa.highest := rfl
  refine ⟨h.size, List.nodup_cons.mpr ⟨hn, h.nodup⟩, ?_, ?_, ?_⟩
  · intro a ha
    rcases List.mem_cons.mp ha with rfl | ha
    · exact hle
    · exact h.le a ha
  · exact h.top.imp_left (List.mem_cons_of_mem _)
  · intro s hs hl hw
    rw [ht] at hl hw ⊢
    rw [bit_setReplay, Bool.or_eq_true, decide_eq_true_eq, h.window s hs hl hw, List.mem_cons, or_comm]
    refine or_congr_left ⟨fun h0 => BitVec.eq_of_toNat_eq (by omega), fun he => by rw [he]⟩

theorem Inv.receive (h : Inv w r) (hw : w ≠ 0) (h0 : seq ≠ 0) (hn : r.ipsa.Near seq) : Inv w (r.receive m seq) := by
  have hw' : r.ipsa.replayWsize ≠ 0 := h.size ▸ hw
  by_cases hlt : r.ipsa.highest.toNat < seq.toNat
  · rw [Receiver.receive, check_of_gt hw' hlt]
    exact h.ahead hlt hn
  · rw [Receiver.receive, check_of_le hw' (not_lt.mp hlt)]
    by_cases hc : r.ipsa.replayWsize ≤ r.ipsa.highest.toNat - seq.toNat ∨
        bit r.ipsa.replayArr (r.ipsa.highest.toNat - seq.toNat) = true
    · rw [if_pos hc]
      exact h.withHighest
    · rw [if_neg hc]
      rw [not_or] at hc
      have hnw : seq ∉ r.accepted := by
        rw [← h.window seq h0 (not_lt.mp hlt) (by have := h.size; omega)]
        exact hc.2
      have ht := highest_withHighest r.ipsa
      have := h.withHighest.behind (show seq.toNat ≤ _ by rw [ht]; exact not_lt.mp hlt) hnw
      rw [ht] at this
      exact this

theorem Inv.antiReplay (h : Inv w r) (hw : w ≠ 0) : AntiReplay m r := by
  refine ⟨h.nodup, fun seq h0 hn hwn => ?_⟩
  have hw' : r.ipsa.replayWsize ≠ 0 := h.size ▸ hw
  have hpos : 0 < seq.toNat := Nat.pos_of_ne_zero fun hz => h0 (BitVec.eq_of_toNat_eq hz)
  by_cases hlt : r.ipsa.highest.toNat < seq.toNat
  · rw [check_of_gt hw' hlt]
  · have hin : r.ipsa.highest.toNat < seq.toNat + r.ipsa.replayWsize := by
      rcases h.top with ht | ht
      · exact hwn _ ht
      · omega
    have hb := mt (h.window seq h0 (not_lt.mp hlt) (h.size ▸ hin)).mp hn
    rw [check_of_le hw' (not_lt.mp hlt)]
    rw [if_neg]
    rintro (hge | hs)
    · omega
    · exact hb hs

end Check

variable {m : WideShift} {r : Receiver} {w : ℕ}

theorem inv_of_safe (hw : w ≠ 0) (h : Reachable (· = newReceiver w) (SafeStep m) r) : Inv w r := by
  refine h.invariant ?_ ?_
  · rintro r rfl
    exact inv_newReceiver w
  rintro r r' hr ⟨seq, h0, hn, rfl⟩
  exact hr.receive hw h0 hn

/-- Every window that fits, and any numbers that do not move it by a word or more within its size. -/
theorem antiReplay_of_safe (hw : 1 ≤ w ∧ w ≤ 255) (h : Reachable (· = newReceiver w) (SafeStep m) r) : AntiReplay m r :=
  (inv_of_safe (by omega) h).antiReplay (by omega)

/-- The numbers 1, 66, 1: the window of 255 moves by 65, and 1 is accepted again. -/
theorem accepted_twice (hm : m.left 0#64 65 = 0#64) : ∃ r, Reachable (· = newReceiver 255) (Step m) r ∧
    r.accepted = [1, 66, 1] ∧ ¬ AntiReplay m r := by
  set r1 := (newReceiver 255).receive m 1 with h1
  set r2 := r1.receive m 66 with h2
  have hr1 : r1 = ⟨⟨255, 1, update (fun _ => 0) 0 1⟩, [1]⟩ := rfl
  have ha : r2.ipsa.replayArr 1 = 0 := by
    rw [h2, hr1]
    simpa [Receiver.receive, Ipsa.sadbReplayCheck, Ipsa.shiftReplay, Ipsa.shiftLoop, Ipsa.setReplay,
      WideShift.shl, WideShift.shr] using hm
  have hrs : r2.accepted = [66, 1] ∧ r2.ipsa.replayWsize = 255 ∧ r2.ipsa.replay = 66 := by
    rw [h2, hr1]
    exact ⟨rfl, rfl, rfl⟩
  obtain ⟨hc, hsz, hr⟩ := hrs
  have hn : (r2.receive m 1).accepted = [1, 66, 1] := by
    simp [Receiver.receive, Ipsa.sadbReplayCheck, Ipsa.isReplaySet, hsz, hr, hc, ha]
  refine ⟨r2.receive m 1, ?_, hn, fun h => ?_⟩
  · have hs : Reachable (· = newReceiver 255) (Step m) (newReceiver 255) := .start rfl
    exact ((hs.next ⟨1, by decide, rfl⟩).next ⟨66, by decide, rfl⟩).next ⟨1, by decide, rfl⟩
  · have := h.1
    rw [hn] at this
    exact absurd this (by decide)

/-- A machine that takes the shift count modulo 64. -/
def maskedShift : WideShift := ⟨fun x n => x <<< (n % 64), fun x n => x >>> (n % 64)⟩

/-- A machine that shifts all bits out. -/
def clearingShift : WideShift := ⟨fun _ _ => 0, fun _ _ => 0⟩

theorem antiReplay_fails : (∃ r, Reachable (· = newReceiver 255) (Step maskedShift) r ∧ ¬ AntiReplay maskedShift r) ∧
      ∃ r, Reachable (· = newReceiver 255) (Step clearingShift) r ∧ ¬ AntiReplay clearingShift r := by
  obtain ⟨r1, h1, -, hn1⟩ := accepted_twice (m := maskedShift) rfl
  obtain ⟨r2, h2, -, hn2⟩ := accepted_twice (m := clearingShift) rfl
  exact ⟨⟨r1, h1, hn1⟩, r2, h2, hn2⟩

instance (ipsa : Ipsa) (seq : BitVec 32) : Decidable (ipsa.Near seq) :=
  inferInstanceAs (Decidable (_ ∨ _))

/-- A window of 100 that moves by 63, then out of reach. -/
theorem antiReplay_of_safe_moves : ∃ r, Reachable (· = newReceiver 100) (SafeStep maskedShift) r ∧
    r.accepted = [1000, 2, 64, 1] ∧ AntiReplay maskedShift r := by
  have hn : (runList (fun r seq => if seq ≠ 0 ∧ r.ipsa.Near seq then some (r.receive maskedShift seq) else none)
      (newReceiver 100) [1, 64, 2, 1, 64, 1000]).map (·.accepted) = some [1000, 2, 64, 1] := by
    decide
  obtain ⟨r, hr, ha⟩ := Option.map_eq_some_iff.mp hn
  have hrc : Reachable (· = newReceiver 100) (SafeStep maskedShift) r := by
    refine Reachable.runList (fun r seq r' he => ?_) (.start rfl) hr
    split_ifs at he with hc
    exact ⟨seq, hc.1, hc.2, (Option.some.inj he).symm⟩
  exact ⟨r, hrc, ha, antiReplay_of_safe (by decide) hrc⟩

end Sol8.Inet.SadbReplay
