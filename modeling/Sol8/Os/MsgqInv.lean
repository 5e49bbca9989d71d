import Sol8.Os.Msgq

/-! The invariant of the message queues: every header is in one place, which is the free list, one queue, or the
hands of a call that is inside the lock of a queue. -/

namespace Sol8.Os.Msgq

open Function Sol8.Lib Sol8.Lib.Chain List State

variable {H Th : Type} {c : Msginfo} {s s' : State H Th} {i j : ℕ} {mp : H} {th : Th} {m : Msg}

attribute [local simp] setQ setLock setPc exit

/-! ### What the queues stand for -/

inductive Place (Th : Type)
  | free
  | queue (i : ℕ)
  | hand (th : Th)

/-- The lists spell the headers of `L` and `F`, which `loc` divides among their places. -/
structure Data (s : State H Th) (L : ℕ → List H) (F : List H) (loc : H → Place Th) : Prop where
  chain : ∀ i, Spells s.next (s.q i).first (L i)
  last : ∀ i, (s.q i).last = (L i).getLast?
  qnum : ∀ i, (s.q i).qnum = (L i).length
  free : Spells s.next s.msgfp F
  mem_free : ∀ mp, mp ∈ F ↔ loc mp = .free
  mem_queue : ∀ i mp, mp ∈ L i ↔ loc mp = .queue i

namespace Data

variable {L : ℕ → List H} {F : List H} {loc : H → Place Th} {l₁ l₂ : List H}

/-- At most queue `i` has changed, and not in its list. -/
theorem congr (h : Data s L F loc) (hq : ∀ j, j ≠ i → s'.q j = s.q j)
    (hi : (s'.q i).first = (s.q i).first ∧ (s'.q i).last = (s.q i).last ∧ (s'.q i).qnum = (s.q i).qnum)
    (hn : s'.next = s.next) (hr : s'.msgfp = s.msgfp) : Data s' L F loc := by
  have hl {β : Type} (f : Msqid H Th → β) (hf : f (s'.q i) = f (s.q i)) (j : ℕ) : f (s'.q j) = f (s.q j) := by
    by_cases hj : j = i
    · rw [hj, hf]
    · rw [hq j hj]
  exact { h with
    chain := fun j => by rw [hl (·.first) hi.1, hn]; exact h.chain j
    last := fun j => by rw [hl (·.last) hi.2.1]; exact h.last j
    qnum := fun j => by rw [hl (·.qnum) hi.2.2]; exact h.qnum j
    free := by rw [hn, hr]; exact h.free }

variable [DecidableEq H]

theorem mem_update {mp : H} {p : Place Th} {P : Place Th} (x : H) :
    update loc mp p x = P ↔ (x = mp ∧ p = P) ∨ (x ≠ mp ∧ loc x = P) := by
  by_cases hx : x = mp
  · subst hx
    simp
  · simp [hx]

section

variable (h : Data s L F loc)
include h

theorem take (hm : s.msgfp = some mp) (th : Th) :
    ∃ F', F = mp :: F' ∧ Data { s with msgfp := s.next mp } L F' (update loc mp (.hand th)) := by
  have hf := h.free
  rw [hm] at hf
  cases F with
  | nil => cases hf
  | cons a F' =>
    obtain rfl : mp = a := Option.some.inj hf.1
    have hn : mp ∉ F' := (nodup_cons.mp h.free.nodup).1
    have hl : loc mp = .free := (h.mem_free mp).mp mem_cons_self
    refine ⟨F', rfl, { h with free := hf.2, mem_free := fun x => ?_, mem_queue := fun i x => ?_ }⟩
    · rw [mem_update, ← h.mem_free]
      by_cases hx : x = mp
      · subst hx
        simp [hn]
      · simp [hx]
    · rw [h.mem_queue]
      by_cases hx : x = mp
      · subst hx
        simp [hl]
      · simp [hx]

theorem putHdr (hm : loc mp = .hand th) : Data (s.putHdr mp) L (mp :: F) (update loc mp .free) := by
  have hF : mp ∉ F := by rw [h.mem_free, hm]; nofun
  have hL (i : ℕ) : mp ∉ L i := by rw [h.mem_queue, hm]; nofun
  refine { h with chain := fun i => ?_, free := h.free.cons hF, mem_free := fun x => ?_, mem_queue := fun i x => ?_ }
  · exact (h.chain i).update_of_notMem (hL i) _
  · rw [mem_cons, h.mem_free]
    by_cases hx : x = mp <;> simp [hx]
  · rw [h.mem_queue]
    by_cases hx : x = mp
    · subst hx
      simp [hm]
    · simp [hx]

/-- Queue `i` gets the list `l` and header `mp` the place `p`; the links of the other lists stay. -/
theorem changeQ {qp : Msqid H Th} {next' : H → Option H} {msg' : H → Msg} {l : List H} {p : Place Th}
    (hc : Spells next' qp.first l) (hl : qp.last = l.getLast?) (hq : qp.qnum = l.length)
    (ho : ∀ x, x ≠ mp → x ∉ L i → next' x = s.next x) (hF : mp ∉ F) (hL : ∀ j, j ≠ i → mp ∉ L j)
    (hmem : ∀ x, x ∈ l ↔ update loc mp p x = .queue i) (hp : p = .queue i ∨ ∃ th, p = .hand th) :
    Data { s with q := update s.q i qp, next := next', msg := msg' } (update L i l) F (update loc mp p) := by
  have hd {j : ℕ} {x : H} (hx : x ∈ L j) (hj : j ≠ i) : x ∉ L i := fun hx' =>
    hj (Place.queue.inj (((h.mem_queue j x).mp hx).symm.trans ((h.mem_queue i x).mp hx')))
  constructor
  case chain =>
    intro j
    by_cases hj : j = i
    · subst hj
      simpa only [update_self] using hc
    · simp only [update_of_ne hj]
      exact (h.chain j).congr fun x hx => ho x (ne_of_mem_of_not_mem hx (hL j hj)) (hd hx hj)
  case last =>
    intro j
    by_cases hj : j = i
    · subst hj
      simpa only [update_self] using hl
    · simpa only [update_of_ne hj] using h.last j
  case qnum =>
    intro j
    by_cases hj : j = i
    · subst hj
      simpa only [update_self] using hq
    · simpa only [update_of_ne hj] using h.qnum j
  case free =>
    refine h.free.congr fun x hx => ho x (ne_of_mem_of_not_mem hx hF) fun hx' => ?_
    exact nomatch ((h.mem_free x).mp hx).symm.trans ((h.mem_queue i x).mp hx')
  case mem_free =>
    intro x
    rw [h.mem_free]
    by_cases hx : x = mp
    · subst hx
      have hne : loc x ≠ .free := mt (h.mem_free x).mpr hF
      rcases hp with rfl | ⟨th, rfl⟩ <;> simp [hne]
    · simp [hx]
  case mem_queue =>
    intro j x
    by_cases hj : j = i
    · subst hj
      rw [update_self, hmem]
    · rw [update_of_ne hj, h.mem_queue]
      by_cases hx : x = mp
      · subst hx
        have hne : loc x ≠ .queue j := mt (h.mem_queue j x).mpr (hL j hj)
        rcases hp with rfl | ⟨th, rfl⟩ <;> simp [hne, Ne.symm hj]
      · simp [hx]

theorem append (hm : loc mp = .hand th) (i : ℕ) (m : Msg) :
    Data (s.append i mp m) (update L i (L i ++ [mp])) F (update loc mp (.queue i)) := by
  have hF : mp ∉ F := by rw [h.mem_free, hm]; nofun
  have hL (j : ℕ) : mp ∉ L j := by rw [h.mem_queue, hm]; nofun
  have hmem (x : H) : x ∈ L i ++ [mp] ↔ update loc mp (.queue i) x = .queue i := by
    rw [mem_append, h.mem_queue]
    by_cases hx : x = mp <;> simp [hx]
  have hq : (s.q i).qnum + 1 = (L i ++ [mp]).length := by simp [h.qnum]
  have hs := h.last i
  cases hl : (s.q i).last with
  | none =>
    have hnil : L i = [] := List.getLast?_eq_none_iff.mp (hs.symm.trans hl)
    simp only [State.append, hl, State.setQ]
    refine h.changeQ ?_ (by simp) hq (fun x hx _ => update_of_ne hx ..) hF (fun j _ => hL j) hmem (.inl rfl)
    rw [hnil]
    exact ⟨rfl, update_self ..⟩
  | some last =>
    have hin : last ∈ L i := mem_of_getLast? (hs.symm.trans hl)
    simp only [State.append, hl, State.setQ]
    refine h.changeQ ((h.chain i).snoc (hs.symm.trans hl) (hL i)) (by simp) hq (fun x hx hx' => ?_) hF
      (fun j _ => hL j) hmem (.inl rfl)
    rw [update_of_ne (ne_of_mem_of_not_mem hin hx').symm, update_of_ne hx]

theorem unlink (hL : L i = l₁ ++ mp :: l₂) (th : Th) :
    Data (s.unlink i l₁.getLast? mp) (update L i (l₁ ++ l₂)) F (update loc mp (.hand th)) := by
  have hc := h.chain i
  have hl := h.last i
  have hqn := h.qnum i
  rw [hL] at hc hl hqn
  have hnd := hc.nodup
  have hn1 : mp ∉ l₁ := fun hmem => (disjoint_of_nodup_append hnd) hmem mem_cons_self
  have hn2 : mp ∉ l₂ := (nodup_cons.mp hnd.of_append_right).1
  have hlc : loc mp = .queue i := (h.mem_queue i mp).mp (by simp [hL])
  have hF : mp ∉ F := by rw [h.mem_free, hlc]; nofun
  have hLj (j : ℕ) (hj : j ≠ i) : mp ∉ L j := by
    rw [h.mem_queue, hlc]
    exact fun hq => hj (Place.queue.inj hq).symm
  have hmem (x : H) : x ∈ l₁ ++ l₂ ↔ update loc mp (.hand th) x = .queue i := by
    rw [mem_update, ← h.mem_queue, hL]
    by_cases hx : x = mp
    · subst hx
      simp [hn1, hn2]
    · simp [hx]
  have hlen : (s.q i).qnum - 1 = (l₁ ++ l₂).length := by
    simp only [hqn, length_append, length_cons]
    omega
  have hn : s.next mp = l₂.head? := hc.next_eq
  -- the last pointer moves back when `mp` was the last
  have hen (qp : Msqid H Th) (hp : qp.last = (l₁ ++ mp :: l₂).getLast?) :
      (if l₂.head? = none then { qp with last := l₁.getLast? } else qp) = { qp with last := (l₁ ++ l₂).getLast? } := by
    cases l₂ with
    | nil => simp
    | cons b l₂ =>
      have hs : (l₁ ++ b :: l₂).getLast? = qp.last := by simp [hp, List.getLast?_cons]
      rw [if_neg (by simp), hs]
  rcases eq_nil_or_concat l₁ with rfl | ⟨l0, b, hl1⟩
  · have hr : Spells s.next l₂.head? l₂ := hn ▸ hc.2
    have heq := hen { s.q i with first := l₂.head? } hl
    simp only [List.getLast?_nil, nil_append] at heq
    simp only [unlink, List.getLast?_nil, hn, heq, setQ]
    exact h.changeQ hr rfl hlen (fun _ _ _ => rfl) hF hLj hmem (.inr ⟨th, rfl⟩)
  · rw [concat_eq_append] at hl1
    subst hl1
    have hb : b ∈ L i := by simp [hL]
    have heq := hen (s.q i) hl
    simp only [List.getLast?_concat] at heq
    simp only [unlink, List.getLast?_concat, hn, heq, setQ]
    refine h.changeQ ?_ rfl hlen (fun x _ hx => update_of_ne (ne_of_mem_of_not_mem hb hx).symm ..) hF hLj hmem (.inr ⟨th, rfl⟩)
    rw [append_assoc, singleton_append] at hc ⊢
    have ht := hc.unlink
    rwa [hn] at ht

end

end Data

/-! ### The search of `msgrcv` -/

/-- The message that `msgrcv` takes from `l₁ ++ m :: l₂`. -/
def Selected (msgtyp : ℤ) (l₁ : List Msg) (m : Msg) (l₂ : List Msg) : Prop :=
  (msgtyp = 0 → l₁ = []) ∧
  (0 < msgtyp → m.type = msgtyp ∧ ∀ x ∈ l₁, x.type ≠ msgtyp) ∧
  (-2 ^ 63 < msgtyp → msgtyp < 0 →
    m.type ≤ -msgtyp ∧ (∀ x ∈ l₁, x.type ≤ -msgtyp → m.type < x.type) ∧ ∀ x ∈ l₂, x.type ≤ -msgtyp → m.type ≤ x.type)

/-- A message that `msgrcv` may take. -/
def Eligible (msgtyp : ℤ) (m : Msg) : Prop :=
  msgtyp = 0 ∨ 0 < msgtyp ∧ m.type = msgtyp ∨ -2 ^ 63 < msgtyp ∧ msgtyp < 0 ∧ m.type ≤ -msgtyp

section Search

variable {next : H → Option H} {msg : H → Msg} {msgtyp : ℤ} {l0 l : List H} {x smp spmp : Option H} {n : ℕ}

theorem findmsg_pos (l0 : List H) (hpos : 0 < msgtyp) (h : Spells next x l) (hn : l.length ≤ n) :
    (findmsg next msg msgtyp n x l0.getLast? none none = (none, none) ∧ ∀ y ∈ l, (msg y).type ≠ msgtyp) ∨
    ∃ l₁ mp l₂, l = l₁ ++ mp :: l₂ ∧ findmsg next msg msgtyp n x l0.getLast? none none = (some mp, (l0 ++ l₁).getLast?) ∧
      (msg mp).type = msgtyp ∧ ∀ y ∈ l₁, (msg y).type ≠ msgtyp := by
  induction l generalizing x n l0 with
  | nil =>
    obtain rfl := h.head
    cases n <;> simp [findmsg]
  | cons a l ih =>
    obtain ⟨rfl, hr⟩ := h
    obtain _ | n := n
    · simp at hn
    rw [findmsg, if_pos hpos]
    by_cases heq : msgtyp = (msg a).type
    · rw [if_neg (not_not.mpr heq)]
      exact .inr ⟨[], a, l, rfl, by simp, heq.symm, nofun⟩
    · rw [if_pos heq]
      have hl : some a = (l0 ++ [a]).getLast? := List.getLast?_concat.symm
      rw [hl]
      rcases ih _ hr (by simpa using hn) with ⟨hnn, ho⟩ | ⟨l₁, mp, l₂, rfl, hs, ht, ho⟩
      · exact .inl ⟨hnn, forall_mem_cons.mpr ⟨Ne.symm heq, ho⟩⟩
      · refine .inr ⟨a :: l₁, mp, l₂, rfl, by simpa using hs, ht, ?_⟩
        exact forall_mem_cons.mpr ⟨Ne.symm heq, ho⟩

/-- The best message of `l` so far for a negative type, and its predecessor. -/
def Best (msg : H → Msg) (b : ℤ) (l : List H) (smp spmp : Option H) : Prop :=
  (smp = none ∧ spmp = none ∧ ∀ y ∈ l, ¬ (msg y).type ≤ b) ∨
  ∃ l₁ mp l₂, l = l₁ ++ mp :: l₂ ∧ smp = some mp ∧ spmp = l₁.getLast? ∧ (msg mp).type ≤ b ∧
    (∀ y ∈ l₁, (msg y).type ≤ b → (msg mp).type < (msg y).type) ∧
    ∀ y ∈ l₂, (msg y).type ≤ b → (msg mp).type ≤ (msg y).type

theorem Best.keep {b : ℤ} {a : H} (h : Best msg b l0 smp spmp)
    (ha : (msg a).type ≤ b → ∃ mp, smp = some mp ∧ (msg mp).type ≤ (msg a).type) : Best msg b (l0 ++ [a]) smp spmp := by
  rcases h with ⟨rfl, rfl, hn⟩ | ⟨l₁, mp, l₂, rfl, rfl, hs, hm, h1, h2⟩
  · refine Or.inl ⟨rfl, rfl, fun y hy hle => ?_⟩
    rcases mem_append.mp hy with hy | hy
    · exact hn y hy hle
    · obtain rfl := mem_singleton.mp hy
      obtain ⟨mp, hm, -⟩ := ha hle
      cases hm
  · refine Or.inr ⟨l₁, mp, l₂ ++ [a], by simp, rfl, hs, hm, h1, fun y hy hle => ?_⟩
    rcases mem_append.mp hy with hy | hy
    · exact h2 y hy hle
    · obtain rfl := mem_singleton.mp hy
      obtain ⟨mp', hm', hle'⟩ := ha hle
      cases hm'
      exact hle'

theorem Best.take {b : ℤ} {a : H} (h : Best msg b l0 smp spmp) (ha : (msg a).type ≤ b)
    (hlt : ∀ mp, smp = some mp → (msg a).type < (msg mp).type) : Best msg b (l0 ++ [a]) (some a) l0.getLast? := by
  refine Or.inr ⟨l0, a, [], rfl, rfl, rfl, ha, fun y hy hle => ?_, nofun⟩
  rcases h with ⟨-, -, hn⟩ | ⟨l₁, mp, l₂, rfl, rfl, -, -, h1, h2⟩
  · exact absurd hle (hn y hy)
  · have hb := hlt mp rfl
    rcases mem_append.mp hy with hy | hy
    · exact hb.trans (h1 y hy hle)
    · rcases mem_cons.mp hy with rfl | hy
      · exact hb
      · exact hb.trans_le (h2 y hy hle)

theorem findmsg_neg (hg : ¬ 0 < msgtyp) (h : Spells next x l) (hn : l.length ≤ n)
    (hs : Best msg (negLong msgtyp) l0 smp spmp) :
    Best msg (negLong msgtyp) (l0 ++ l) (findmsg next msg msgtyp n x l0.getLast? smp spmp).1
      (findmsg next msg msgtyp n x l0.getLast? smp spmp).2 := by
  induction l generalizing x n l0 smp spmp with
  | nil =>
    obtain rfl := h.head
    cases n <;> simpa [findmsg] using hs
  | cons a l ih =>
    obtain ⟨rfl, hr⟩ := h
    obtain _ | n := n
    · simp at hn
    have hn' : l.length ≤ n := by simpa using hn
    have ho (smp spmp : Option H) (hb : Best msg (negLong msgtyp) (l0 ++ [a]) smp spmp) :
        Best msg (negLong msgtyp) (l0 ++ a :: l) (findmsg next msg msgtyp n (next a) (some a) smp spmp).1
          (findmsg next msg msgtyp n (next a) (some a) smp spmp).2 := by
      have := ih hr hn' hb
      rwa [List.getLast?_concat, append_assoc] at this
    rw [findmsg.eq_def]
    simp only [if_neg hg]
    split_ifs with hle
    · cases smp with
      | none => exact ho _ _ (hs.take hle nofun)
      | some best =>
        by_cases ht : (msg best).type ≤ (msg a).type
        · simp only [if_pos ht]
          exact ho _ _ (hs.keep fun _ => ⟨best, rfl, ht⟩)
        · simp only [if_neg ht]
          refine ho _ _ (hs.take hle fun mp hm => ?_)
          cases hm
          exact Int.not_le.mp ht
    · exact ho _ _ (hs.keep fun hc => absurd hc hle)

theorem search_cases (h : Spells next x l) :
    ((if msgtyp = 0 then (x, none) else findmsg next msg msgtyp l.length x none none none).1 = none ∧
      ∀ y ∈ l, ¬ Eligible msgtyp (msg y)) ∨
    ∃ l₁ mp l₂, l = l₁ ++ mp :: l₂ ∧ Selected msgtyp (l₁.map msg) (msg mp) (l₂.map msg) ∧
      (if msgtyp = 0 then (x, none) else findmsg next msg msgtyp l.length x none none none) = (some mp, l₁.getLast?) := by
  rcases lt_trichotomy msgtyp 0 with hg | rfl | hpos
  · rw [if_neg hg.ne]
    have hbs : Best msg (negLong msgtyp) [] none none := Or.inl ⟨rfl, rfl, nofun⟩
    have hb (hmin : -2 ^ 63 < msgtyp) : negLong msgtyp = -msgtyp := if_neg hmin.ne'
    rcases findmsg_neg hg.not_gt h le_rfl hbs with ⟨hnn, -, ho⟩ | ⟨l₁, mp, l₂, hl, hm, hs, hle, h1, h2⟩
    · refine .inl ⟨hnn, fun y hy he => ?_⟩
      rcases he with h0 | ⟨hp, -⟩ | ⟨hmin, -, hle⟩
      · omega
      · omega
      · exact ho y hy (hb hmin ▸ hle)
    · refine .inr ⟨l₁, mp, l₂, hl, ⟨fun h0 => absurd h0 hg.ne, fun hp => absurd hp hg.not_gt, fun hmin _ => ?_⟩, ?_⟩
      · rw [← hb hmin]
        exact ⟨hle, forall_mem_map.mpr h1, forall_mem_map.mpr h2⟩
      · exact Prod.ext hm hs
  · cases l with
    | nil => exact .inl ⟨h.head, nofun⟩
    | cons a l =>
      obtain rfl := h.head
      exact .inr ⟨[], a, l, rfl, ⟨fun _ => rfl, fun hc => absurd hc (lt_irrefl 0), fun _ hc => absurd hc (lt_irrefl 0)⟩, rfl⟩
  · rw [if_neg hpos.ne']
    rcases findmsg_pos [] hpos h le_rfl with ⟨hnn, ho⟩ | ⟨l₁, mp, l₂, hl, hf, ht, ho⟩
    · refine .inl ⟨congrArg Prod.fst hnn, fun y hy he => ?_⟩
      rcases he with h0 | ⟨-, ht⟩ | ⟨-, hn, -⟩
      · omega
      · exact ho y hy ht
      · omega
    · refine .inr ⟨l₁, mp, l₂, hl, ⟨fun h0 => absurd h0 hpos.ne', fun _ => ⟨ht, forall_mem_map.mpr ho⟩, ?_⟩, hf⟩
      exact fun _ hn => absurd hn hpos.not_gt

end Search

/-! ### Locks and hands -/

section Fields

variable [DecidableEq H] (pmp : Option H)

theorem unlink_q (s : State H Th) (i : ℕ) (mp : H) : ∃ x y z, (s.unlink i pmp mp).q =
    update s.q i { s.q i with first := x, last := y, qnum := z } := by
  cases pmp <;> by_cases hn : s.next mp = none <;> simp only [unlink, setQ, hn, if_true, if_false] <;>
    exact ⟨_, _, _, rfl⟩

theorem unlink_of_ne {j : ℕ} (hj : j ≠ i) : (s.unlink i pmp mp).q j = s.q j := by
  obtain ⟨_, _, _, hq⟩ := unlink_q pmp s i mp
  rw [hq]
  exact update_of_ne hj ..

theorem unlink_pc : (s.unlink i pmp mp).pc = s.pc := by
  cases pmp <;> rfl

theorem unlink_msg : (s.unlink i pmp mp).msg = s.msg := by
  cases pmp <;> rfl

theorem append_q (s : State H Th) (i : ℕ) (mp : H) (m : Msg) : ∃ x y z, (s.append i mp m).q =
    update s.q i { s.q i with first := x, last := y, qnum := z, cbytes := (s.q i).cbytes + m.size } := by
  cases hl : (s.q i).last <;> simp only [append, setQ, hl] <;> exact ⟨_, _, _, rfl⟩

theorem append_pc (s : State H Th) (i : ℕ) (mp : H) (m : Msg) : (s.append i mp m).pc = s.pc := by
  cases hl : (s.q i).last <;> simp only [append, setQ, hl]

theorem append_msg (s : State H Th) (i : ℕ) (mp : H) (m : Msg) : (s.append i mp m).msg = update s.msg mp m := by
  cases hl : (s.q i).last <;> simp only [append, setQ, hl]

end Fields

/-- The queue whose lock the call is inside of. -/
def Pc.inside (c : Msginfo) : Pc H → Option ℕ
  | .sndHdr a _ | .sndCopy a _ _ | .sndOut1 a _ => some (c.slot a.msqid)
  | .rcvFree a _ _ => some (c.slot a.msqid)
  | .rmidLoop msqid | .rmidFree msqid _ => some (c.slot msqid)
  | _ => none

def Pc.hand : Pc H → Option H
  | .sndCopy _ _ mp | .sndOut1 _ mp | .rcvFree _ mp _ | .rmidFree _ mp => some mp
  | _ => none

/-- The queue that the call is removing. -/
def Pc.removing (c : Msginfo) : Pc H → Option ℕ
  | .rmidLoop msqid | .rmidFree msqid _ => some (c.slot msqid)
  | _ => none

/-- The total size of the messages on a list. -/
def total (msg : H → Msg) (l : List H) : ℤ := (l.map fun mp => ((msg mp).size : ℤ)).sum

structure Inv (c : Msginfo) (s : State H Th) (L : ℕ → List H) (F : List H) (loc : H → Place Th) : Prop
    extends Data s L F loc where
  hand : ∀ th mp, (s.pc th).hand = some mp ↔ loc mp = .hand th
  lock : ∀ i th, (s.q i).lock = some th ↔ (s.pc th).inside c = some i
  alloc : ∀ i, (s.q i).lock ≠ none → (s.q i).alloc = true
  dead : ∀ i, (s.q i).alloc = false → L i = []
  bound : ∀ i, (s.q i).alloc = true → i < c.msgmni
  cbytes : ∀ i, (∀ th, (s.pc th).removing c ≠ some i) → (s.q i).cbytes = total s.msg (L i)

namespace Inv

variable {L : ℕ → List H} {F : List H} {loc : H → Place Th} {l₁ l₂ : List H} {pc' : Pc H} [DecidableEq Th]
  {l : Option Th}

theorem pc_update {β : Type} (f : Pc H → β) {pcs : Th → Pc H} (th x : Th) :
    f (update pcs th pc' x) = if x = th then f pc' else f (pcs x) := by
  by_cases hx : x = th
  · subst hx
    simp
  · simp [hx]

/-- The locks after `th` has entered or left the lock of queue `i`, or stayed where it was. -/
theorem lock_update (h : Inv c s L F loc) {q' : ℕ → Msqid H Th}
    (hin : (s.pc th).inside c = none ∧ (s.q i).lock = none ∨ (s.pc th).inside c = some i)
    (hi' : pc'.inside c = none ∧ (q' i).lock = none ∨ pc'.inside c = some i ∧ (q' i).lock = some th)
    (hq : ∀ j, j ≠ i → (q' j).lock = (s.q j).lock) (j : ℕ) (x : Th) :
    (q' j).lock = some x ↔ (update s.pc th pc' x).inside c = some j := by
  rw [pc_update (Pc.inside c)]
  by_cases hx : x = th
  · subst hx
    by_cases hj : j = i
    · subst hj
      rcases hi' with ⟨h1, h2⟩ | ⟨h1, h2⟩ <;> simp [h1, h2]
    · rw [hq j hj, h.lock]
      rcases hin with ⟨h1, -⟩ | h1 <;> rcases hi' with ⟨h2, -⟩ | ⟨h2, -⟩ <;> simp [h1, h2, Ne.symm hj]
  · rw [if_neg hx, ← h.lock]
    by_cases hj : j = i
    · subst hj
      have ho : (s.q j).lock ≠ some x := by
        rcases hin with ⟨-, hf⟩ | ht
        · simp [hf]
        · rw [(h.lock j th).mpr ht]
          exact fun heq => hx (Option.some.inj heq).symm
      have hn : (q' j).lock ≠ some x := by
        rcases hi' with ⟨-, hf⟩ | ⟨-, ht⟩
        · simp [hf]
        · rw [ht]
          exact fun heq => hx (Option.some.inj heq).symm
      exact iff_of_false hn ho
    · rw [hq j hj]

theorem removing_update (hm : (s.pc th).removing c = some j → pc'.removing c = some j)
    (hn : ∀ x, (update s.pc th pc' x).removing c ≠ some j) (x : Th) : (s.pc x).removing c ≠ some j := by
  have hx := hn x
  rw [pc_update (Pc.removing c)] at hx
  split at hx
  · next ht => exact fun hr => hx (hm (ht ▸ hr))
  · exact hx

theorem change (h : Inv c s L F loc) {L' : ℕ → List H} {F' : List H} {loc' : H → Place Th} (hd : Data s' L' F' loc')
    (hpc : s'.pc = update s.pc th pc') (hq : ∀ j, j ≠ i → s'.q j = s.q j) (hL : ∀ j, j ≠ i → L' j = L j)
    (hm : ∀ j, j ≠ i → ∀ mp ∈ L j, s'.msg mp = s.msg mp)
    (hh : ∀ x mp, (update s.pc th pc' x).hand = some mp ↔ loc' mp = .hand x)
    (hin : (s.pc th).inside c = none ∧ (s.q i).lock = none ∨ (s.pc th).inside c = some i)
    (hi' : pc'.inside c = none ∧ (s'.q i).lock = none ∨ pc'.inside c = some i ∧ (s'.q i).lock = some th)
    (ha : (s'.q i).lock ≠ none → (s'.q i).alloc = true) (hdd : (s'.q i).alloc = false → L' i = [])
    (ho : (s'.q i).alloc = true → (s.q i).alloc = true)
    (hr : ∀ j, j ≠ i → (s.pc th).removing c = some j → pc'.removing c = some j)
    (hc : (∀ x, (update s.pc th pc' x).removing c ≠ some i) → (s'.q i).cbytes = total s'.msg (L' i)) :
    Inv c s' L' F' loc' := by
  constructor
  case toData => exact hd
  case hand => exact hpc ▸ hh
  case lock => exact hpc ▸ h.lock_update hin hi' fun j hj => by rw [hq j hj]
  case alloc =>
    intro j hj
    by_cases hji : j = i
    · subst hji
      exact ha hj
    · rw [hq j hji] at hj ⊢
      exact h.alloc j hj
  case dead =>
    intro j hj
    by_cases hji : j = i
    · subst hji
      exact hdd hj
    · rw [hL j hji]
      rw [hq j hji] at hj
      exact h.dead j hj
  case bound =>
    intro j hj
    by_cases hji : j = i
    · subst hji
      exact h.bound j (ho hj)
    · rw [hq j hji] at hj
      exact h.bound j hj
  case cbytes =>
    intro j hn
    rw [hpc] at hn
    by_cases hji : j = i
    · subst hji
      exact hc hn
    · rw [hq j hji, hL j hji, h.cbytes j (removing_update (hr j hji) hn)]
      exact congrArg List.sum (map_congr_left fun mp hp => by rw [hm j hji mp hp])

/-- A call enters or leaves the lock of queue `i`, or stays where it was. -/
theorem control (h : Inv c s L F loc)
    (hin : (s.pc th).inside c = none ∧ (s.q i).lock = none ∨ (s.pc th).inside c = some i)
    (hi' : pc'.inside c = none ∧ l = none ∨ pc'.inside c = some i ∧ l = some th)
    (ha : l ≠ none → (s.q i).alloc = true) (hh : pc'.hand = (s.pc th).hand)
    (hr : ∀ j, (s.pc th).removing c = some j → pc'.removing c = some j) :
    Inv c ((s.setLock i l).setPc th pc') L F loc := by
  have hs : ((s.setLock i l).setPc th pc').q i = { s.q i with lock := l } := update_self ..
  have hq (j : ℕ) (hj : j ≠ i) : ((s.setLock i l).setPc th pc').q j = s.q j := update_of_ne hj ..
  refine h.change (i := i) (h.toData.congr hq (by simp) rfl rfl) rfl hq (fun _ _ => rfl) (fun _ _ _ _ => rfl)
    (fun x mp => ?_) hin (by rwa [hs]) (by rwa [hs]) (by rw [hs]; exact h.dead i) (by rw [hs]; exact id) (fun j _ => hr j)
    fun hn => ?_
  · rw [← h.hand, pc_update Pc.hand]
    split
    · next hx => rw [hx, hh]
    · rfl
  · rw [hs]
    exact h.cbytes i (removing_update (hr i) hn)

section Hands

variable [DecidableEq H]

section

variable (h : Inv c s L F loc) {a : SndArgs}
include h

theorem hand_take (ht : (s.pc th).hand = none) (hm : ∀ x, loc mp ≠ .hand x)
    (hpc : pc'.hand = some mp) (x : Th) (y : H) :
    (update s.pc th pc' x).hand = some y ↔ update loc mp (.hand th) y = .hand x := by
  rw [pc_update Pc.hand, Data.mem_update]
  by_cases hx : x = th
  · subst hx
    have hn : loc y ≠ .hand x := fun hy => by simp [(h.hand x y).mpr hy] at ht
    simp [hpc, hn, eq_comm]
  · rw [if_neg hx, h.hand]
    by_cases hy : y = mp
    · subst hy
      simp [hm x, Ne.symm hx]
    · simp [hy]

theorem hand_drop (ht : (s.pc th).hand = some mp) {p : Place Th} (hp : ∀ x, p ≠ .hand x)
    (hpc : pc'.hand = none) (x : Th) (y : H) : (update s.pc th pc' x).hand = some y ↔ update loc mp p y = .hand x := by
  have hlc := (h.hand th mp).mp ht
  rw [pc_update Pc.hand, Data.mem_update]
  by_cases hx : x = th
  · subst hx
    have hn (hy : y ≠ mp) : loc y ≠ .hand x := fun hl => by
      have := (h.hand x y).mpr hl
      rw [ht] at this
      exact hy (Option.some.inj this).symm
    simp only [if_true, hpc, hp x, and_false, false_or]
    exact iff_of_false nofun fun hc => hn hc.1 hc.2
  · rw [if_neg hx, h.hand]
    by_cases hy : y = mp
    · subst hy
      have : loc y ≠ .hand x := by
        rw [hlc]
        exact fun heq => hx (Place.hand.inj heq).symm
      simp [this, hp x]
    · simp [hy]

theorem takeHdr {t : ℤ} (hpc : s.pc th = .sndHdr a t) (hp : s.msgfp = some mp) :
    ∃ F', Inv c ({ s with msgfp := s.next mp }.setPc th (.sndCopy a t mp)) L F' (update loc mp (.hand th)) := by
  obtain ⟨F', rfl, hd⟩ := h.toData.take hp th
  have hf : loc mp = .free := (h.mem_free mp).mp mem_cons_self
  have hin : (s.pc th).inside c = some (c.slot a.msqid) := by rw [hpc]; rfl
  have hl := (h.lock _ th).mpr hin
  refine ⟨F', h.change (i := c.slot a.msqid) (hd.congr (i := 0) (fun _ _ => rfl) ⟨rfl, rfl, rfl⟩ rfl rfl) rfl
    (fun _ _ => rfl) (fun _ _ => rfl) (fun _ _ _ _ => rfl) ?_ (.inr hin) (.inr ⟨rfl, hl⟩) (h.alloc _) (h.dead _) id ?_ ?_⟩
  · exact h.hand_take (by rw [hpc]; rfl) (fun x => by rw [hf]; nofun) rfl
  · intro j _ hj
    rw [hpc] at hj
    cases hj
  · intro hn
    refine h.cbytes _ (removing_update (fun hr => ?_) hn)
    rw [hpc] at hr
    cases hr

theorem putHdr (hin : (s.pc th).inside c = some i) (hm : (s.pc th).hand = some mp)
    (hi' : pc'.inside c = none ∧ l = none ∨ pc'.inside c = some i ∧ l = some th) (hpc : pc'.hand = none)
    (hr : ∀ j, (s.pc th).removing c = some j → pc'.removing c = some j) :
    Inv c (((s.putHdr mp).setLock i l).setPc th pc') L (mp :: F) (update loc mp .free) := by
  have hd := h.toData.putHdr ((h.hand th mp).mp hm)
  have hs : (((s.putHdr mp).setLock i l).setPc th pc').q i = { s.q i with lock := l } := update_self ..
  have hq (j : ℕ) (hj : j ≠ i) : (((s.putHdr mp).setLock i l).setPc th pc').q j = s.q j := update_of_ne hj ..
  refine h.change (i := i) (hd.congr hq (by rw [hs]; exact ⟨rfl, rfl, rfl⟩) rfl rfl) rfl hq (fun _ _ => rfl)
    (fun _ _ _ _ => rfl) (h.hand_drop hm nofun hpc) (.inr hin) ?_ ?_ ?_ (by rw [hs]; exact id) (fun j _ => hr j) ?_
  · rwa [hs]
  · rw [hs]
    intro _
    exact h.alloc i (by rw [(h.lock i th).mpr hin]; nofun)
  · rw [hs]
    exact h.dead i
  · rw [hs]
    exact fun hn => h.cbytes i (removing_update (hr i) hn)

theorem append {t : ℤ} (hpc : s.pc th = .sndCopy a t mp) (hi : i = c.slot a.msqid) (r : Except Errno ℕ) :
    Inv c ((s.append i mp m).exit th i r) (update L i (L i ++ [mp])) F (update loc mp (.queue i)) := by
  have hin : (s.pc th).inside c = some i := by rw [hpc, hi]; rfl
  have hmp : (s.pc th).hand = some mp := by rw [hpc]; rfl
  have hl := (h.hand th mp).mp hmp
  have ht := h.toData.append hl i m
  obtain ⟨x, y, z, hq⟩ := append_q s i mp m
  have hL (j : ℕ) : mp ∉ L j := by rw [h.mem_queue, hl]; nofun
  have hs : ((s.append i mp m).exit th i r).q i =
      { s.q i with first := x, last := y, qnum := z, cbytes := (s.q i).cbytes + m.size, lock := none } := by
    simp [hq]
  have hm : ((s.append i mp m).exit th i r).msg = update s.msg mp m := append_msg s i mp m
  have hp : ((s.append i mp m).exit th i r).pc = update s.pc th (.ret r) := by
    simp only [exit, setPc, setLock, setQ, append_pc]
  have hr (j : ℕ) : (s.pc th).removing c = some j → (Pc.ret r : Pc H).removing c = some j := by
    rw [hpc]
    nofun
  refine h.change (i := i) (ht.congr (fun j hj => update_of_ne hj ..) (by simp) rfl rfl) hp ?_ (fun j hj => update_of_ne hj ..) ?_ (h.hand_drop hmp nofun rfl)
    (.inr hin) ?_ ?_ ?_ (by rw [hs]; exact id) (fun j _ => hr j) ?_
  · intro j hj
    simp [hq, hj]
  · intro j _ y hy
    rw [hm, update_of_ne (ne_of_mem_of_not_mem hy (hL j))]
  · rw [hs]
    exact .inl ⟨rfl, rfl⟩
  · rw [hs]
    intro hne
    exact absurd rfl hne
  · rw [hs]
    intro hd
    have := h.alloc i (by rw [(h.lock i th).mpr hin]; nofun)
    exact absurd (this.symm.trans hd) (by decide)
  · intro hn
    have ho := h.cbytes i (removing_update (hr i) hn)
    rw [hs, hm]
    simp only [total, map_append, sum_append, map_singleton, sum_singleton, update_self, ho]
    congr 1
    exact congrArg List.sum (map_congr_left fun y hy => by rw [update_of_ne (ne_of_mem_of_not_mem hy (hL i))])

/-- A call inside the lock, or entering it, unlinks a message; `cb` is the new `msg_cbytes`. -/
theorem unlink (hL : L i = l₁ ++ mp :: l₂) {cb : ℤ}
    (hin : (s.pc th).inside c = none ∧ (s.q i).lock = none ∨ (s.pc th).inside c = some i)
    (hi' : pc'.inside c = some i) (ht : (s.pc th).hand = none) (hpc : pc'.hand = some mp)
    (ha : (s.q i).alloc = true) (hr : ∀ j, (s.pc th).removing c = some j → pc'.removing c = some j)
    (hc : (∀ x, (update s.pc th pc' x).removing c ≠ some i) → cb = total s.msg (l₁ ++ l₂))
    {u : State H Th} (hu : u = s.setQ i { s.q i with cbytes := cb, lock := some th }) :
    Inv c ((u.unlink i l₁.getLast? mp).setPc th pc') (update L i (l₁ ++ l₂)) F (update loc mp (.hand th)) := by
  have hui : u.q i = { s.q i with cbytes := cb, lock := some th } := hu ▸ update_self ..
  have huj (j : ℕ) (hj : j ≠ i) : u.q j = s.q j := hu ▸ update_of_ne hj ..
  have hdt : Data u L F loc := h.toData.congr huj (by simp [hui]) (by rw [hu]; rfl) (by rw [hu]; rfl)
  have hl : loc mp = .queue i := (h.mem_queue i mp).mp (by simp [hL])
  obtain ⟨x, y, z, hq⟩ := unlink_q l₁.getLast? u i mp
  have hs : ((u.unlink i l₁.getLast? mp).setPc th pc').q i =
      { s.q i with first := x, last := y, qnum := z, cbytes := cb, lock := some th } := by
    simp only [setPc, hq, update_self, hui]
  have hp : ((u.unlink i l₁.getLast? mp).setPc th pc').pc = update s.pc th pc' := by rw [hu]; rfl
  have hm : ((u.unlink i l₁.getLast? mp).setPc th pc').msg = s.msg := by rw [hu]; rfl
  refine h.change (i := i) ((hdt.unlink hL th).congr (i := i) (fun _ _ => rfl) ⟨rfl, rfl, rfl⟩ rfl rfl) hp ?_
    (fun j hj => update_of_ne hj ..) (fun j _ a _ => by rw [hm]) (h.hand_take ht (fun x => by rw [hl]; nofun) hpc) hin ?_ ?_ ?_
    (fun _ => ha) (fun j _ => hr j) ?_
  · intro j hj
    simp only [setPc, hq, update_of_ne hj, huj j hj]
  · rw [hs]
    exact .inr ⟨hi', rfl⟩
  · rw [hs]
    exact fun _ => ha
  · rw [hs]
    exact fun hd => absurd (ha.symm.trans hd) (by decide)
  · rw [hs, update_self, hm]
    exact hc

omit [DecidableEq H] in
theorem finish {msqid : ℤ} (hpc : s.pc th = .rmidLoop msqid) (hi : i = c.slot msqid)
    (hfr : (s.q i).first = none) (seq : ℕ) (r : Except Errno ℕ) :
    Inv c ((s.setQ i { s.q i with cbytes := 0, seq := seq, alloc := false }).exit th i r) L F loc := by
  have hnil : L i = [] := by
    have := (h.chain i).head
    rw [hfr] at this
    exact List.head?_eq_none_iff.mp this.symm
  have hin : (s.pc th).inside c = some i := by rw [hpc, hi]; rfl
  set s' := (s.setQ i { s.q i with cbytes := 0, seq := seq, alloc := false }).exit th i r with hs'
  have hs : s'.q i = { s.q i with cbytes := 0, seq := seq, alloc := false, lock := none } := by
    simp [hs']
  have hq (j : ℕ) (hj : j ≠ i) : s'.q j = s.q j := by simp [hs', hj]
  refine h.change (i := i) (h.toData.congr hq (by simp [hs]) rfl rfl) rfl hq
    (fun _ _ => rfl) (fun _ _ _ _ => rfl) ?_ (.inr hin) ?_ ?_ (fun _ => hnil) (by rw [hs]; nofun) ?_ ?_
  · intro x mp
    rw [← h.hand, pc_update Pc.hand]
    split
    · next hx => rw [hx, hpc]; rfl
    · rfl
  · rw [hs]
    exact .inl ⟨rfl, rfl⟩
  · rw [hs]
    exact fun hne => absurd rfl hne
  · intro j hj hr
    rw [hpc] at hr
    exact absurd (Option.some.inj hr).symm (hi ▸ hj)
  · rw [hs, hnil]
    exact fun _ => rfl

end

end Hands

end Inv

end Sol8.Os.Msgq
