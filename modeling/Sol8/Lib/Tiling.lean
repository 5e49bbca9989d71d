import Mathlib

/-! Spans that are tiled by segments.

A list holds, for each span, a marker and then the segments of the span in address order. A segment
begins where the one before it ends, rounded up to the grain `q`. No two neighbours are free. The
edits are to split and to join segments in use, and to turn one between use and free. -/

namespace Sol8.Lib.Tiling

def roundUp (q x : ℕ) : ℕ := (x + (q - 1)) / q * q

section RoundUp

variable {q x b : ℕ}

theorem dvd_roundUp (q x : ℕ) : q ∣ roundUp q x := Nat.dvd_mul_left _ _

theorem le_roundUp (hq : 0 < q) : x ≤ roundUp q x := by
  have := Nat.div_add_mod (x + (q - 1)) q
  have := Nat.mod_lt (x + (q - 1)) hq
  rw [roundUp, Nat.mul_comm]
  omega

theorem roundUp_le (hq : 0 < q) (hb : q ∣ b) (h : x ≤ b) : roundUp q x ≤ b := by
  obtain ⟨k, rfl⟩ := hb
  rw [Nat.mul_comm q k]
  apply Nat.mul_le_mul_right
  rw [Nat.div_le_iff_le_mul_add_pred hq]
  omega

theorem roundUp_of_dvd (hq : 0 < q) (h : q ∣ x) : roundUp q x = x :=
  le_antisymm (roundUp_le hq h le_rfl) (le_roundUp hq)

end RoundUp

inductive Kind
  | marker | free | used
  deriving DecidableEq

structure Entry where
  start : ℕ
  stop : ℕ
  kind : Kind

def Entry.size (e : Entry) : ℕ := e.stop - e.start

/-- Where a walk along the list is: the address, the end of the span, and whether the segment before
is free. -/
structure Place where
  pos : ℕ
  stop : ℕ
  free : Bool

inductive Walk (q : ℕ) : Place → List Entry → Place → Prop
  | nil (c : Place) : Walk q c [] c
  | marker {c c' : Place} {e : Entry} {es : List Entry} (hk : e.kind = .marker)
      (hend : c.pos = c.stop) (hpos : 0 < e.start) (hlt : e.start < e.stop) (hstart : q ∣ e.start)
      (hstop : q ∣ e.stop) (h : Walk q ⟨e.start, e.stop, false⟩ es c') : Walk q c (e :: es) c'
  | segment {c c' : Place} {e : Entry} {es : List Entry} (hk : e.kind ≠ .marker)
      (hstart : e.start = c.pos) (hlt : e.start < e.stop) (hle : e.stop ≤ c.stop)
      (hfree : e.kind = .free → q ∣ e.stop ∧ c.free = false)
      (h : Walk q ⟨roundUp q e.stop, c.stop, e.kind = .free⟩ es c') : Walk q c (e :: es) c'

/-- What holds at every place of a walk. -/
structure Place.Ok (q : ℕ) (c : Place) : Prop where
  pos : q ∣ c.pos
  stop : q ∣ c.stop
  le : c.pos ≤ c.stop

/-- Two places that differ at most in what is before them. -/
def Place.Same (c c' : Place) : Prop := c.pos = c'.pos ∧ c.stop = c'.stop

variable {q : ℕ} {c c' c'' : Place} {e e' : Entry} {es es1 es2 : List Entry}

theorem Walk.append (h1 : Walk q c es1 c') (h2 : Walk q c' es2 c'') : Walk q c (es1 ++ es2) c'' := by
  induction h1 with
  | nil => exact h2
  | marker hk hn hpos hlt hs ht _ ih =>
    exact .marker hk hn hpos hlt hs ht (ih h2)
  | segment hk hs hlt hle hf _ ih => exact .segment hk hs hlt hle hf (ih h2)

theorem Walk.split (h : Walk q c (es1 ++ es2) c'') : ∃ c', Walk q c es1 c' ∧ Walk q c' es2 c'' := by
  induction es1 generalizing c with
  | nil => exact ⟨c, .nil c, h⟩
  | cons e es ih =>
    cases h with obtain ⟨c', h1, h2⟩ := ih h
    | marker hk hn hpos hlt hs ht h =>
      exact ⟨c', .marker hk hn hpos hlt hs ht h1, h2⟩
    | segment hk hs hlt hle hf h =>
      exact ⟨c', .segment hk hs hlt hle hf h1, h2⟩

theorem Walk.ok (hq : 0 < q) (h : Walk q c es c') (hc : c.Ok q) : c'.Ok q := by
  induction h with
  | nil => exact hc
  | marker hk hn hpos hlt hs ht _ ih => exact ih ⟨hs, ht, Nat.le_of_lt hlt⟩
  | segment hk hs hlt hle hf _ ih =>
    exact ih ⟨dvd_roundUp _ _, hc.stop, roundUp_le hq hc.stop hle⟩

/-! ### Edits -/

/-- The segment at the head, or at the end, is free. -/
def HeadFree (es : List Entry) : Prop := ∃ e ∈ es.head?, e.kind = .free
def LastFree (es : List Entry) : Prop := ∃ e ∈ es.getLast?, e.kind = .free

/-- Whether the segment before is free matters to a free segment at the head only. -/
theorem Walk.setFree (h : Walk q c es c') (b : Bool) (hb : b = true → ¬ HeadFree es) :
    ∃ c'', Walk q { c with free := b } es c'' ∧ c''.Same c' := by
  cases h with
  | nil => exact ⟨_, .nil _, rfl, rfl⟩
  | marker hk hn hpos hlt hs ht h =>
    exact ⟨c', .marker hk hn hpos hlt hs ht h, rfl, rfl⟩
  | segment hk hs hlt hle hr h =>
    refine ⟨c', .segment hk hs hlt hle (fun hf => ⟨(hr hf).1, ?_⟩) h, rfl, rfl⟩
    exact Bool.eq_false_iff.mpr fun ht => hb ht ⟨_, rfl, hf⟩

theorem Walk.free_iff (h : Walk q c es c') (hc : c.free = false) : c'.free = true ↔ LastFree es := by
  induction es using List.reverseRecOn with
  | nil =>
    cases h
    simp [hc, LastFree]
  | append_singleton es e _ =>
    obtain ⟨c1, -, h1⟩ := h.split
    cases h1 with
    | marker hk _ _ _ _ _ h =>
      cases h
      simp [LastFree, hk]
    | segment _ _ _ _ _ h =>
      cases h
      simp [LastFree]

theorem Walk.not_headFree (h : Walk q c es c') (hc : c.free = true) : ¬ HeadFree es := by
  rintro ⟨e, he, hr⟩
  cases h with
  | nil => cases he
  | marker hk =>
    simp only [List.head?_cons, Option.mem_some_iff] at he
    subst he
    rw [hk] at hr
    cases hr
  | segment _ _ _ _ hf =>
    simp only [List.head?_cons, Option.mem_some_iff] at he
    subst he
    rw [(hf hr).2] at hc
    cases hc

section

variable (hc : c.free = false) (h : Walk q c (es1 ++ e :: es2) c')
include hc h

theorem Walk.use (he : e.kind = .free) :
    (∃ c'', Walk q c (es1 ++ { e with kind := .used } :: es2) c'' ∧ c''.Same c') ∧ ¬ LastFree es1 ∧ ¬ HeadFree es2 := by
  obtain ⟨c1, h1, h2⟩ := h.split
  cases h2 with
  | marker hk => exact absurd (hk.symm.trans he) (by simp)
  | segment hk hs hlt hle hf h2 =>
    obtain ⟨c'', h', hm⟩ := h2.setFree false nofun
    refine ⟨⟨c'', h1.append (.segment (by simp) hs hlt hle (by simp) ?_), hm⟩, ?_, ?_⟩
    · simpa using h'
    · rw [← h1.free_iff hc, (hf he).2]
      exact Bool.false_ne_true
    · exact h2.not_headFree (by simpa using he)

theorem Walk.unuse (he : e.kind = .used) (ht : q ∣ e.stop) (hl : ¬ LastFree es1) (hh : ¬ HeadFree es2) :
    ∃ c'', Walk q c (es1 ++ { e with kind := .free } :: es2) c'' ∧ c''.Same c' := by
  obtain ⟨c1, h1, h2⟩ := h.split
  rw [← h1.free_iff hc, Bool.not_eq_true] at hl
  cases h2 with
  | marker hk => exact absurd (hk.symm.trans he) (by simp)
  | segment hk hs hlt hle hfr h2 =>
    obtain ⟨c'', h'', hm⟩ := h2.setFree true fun _ => hh
    exact ⟨c'', h1.append (.segment (by simp) hs hlt hle (fun _ => ⟨ht, hl⟩) (by simpa)), hm⟩

end

theorem Walk.replace (hq : 0 < q) (hc : c.Ok q) (mid mid' : List Entry) (h : Walk q c (es1 ++ (mid ++ es2)) c')
    (hm : ∀ c1 c2, c1.Ok q → Walk q c1 mid c2 → Walk q c1 mid' c2) : Walk q c (es1 ++ (mid' ++ es2)) c' := by
  obtain ⟨c1, h1, h⟩ := h.split
  obtain ⟨c2, h2, h3⟩ := h.split
  exact h1.append ((hm c1 c2 (h1.ok hq hc) h2).append h3)

theorem Place.Ok.le_stop (h : c.Ok q) (hq : 0 < q) {b t : ℕ} (hb : b ≤ c.stop) (ht : roundUp q t = roundUp q b) :
    t ≤ c.stop := by
  have htb : t ≤ roundUp q b := ht ▸ le_roundUp hq
  exact le_trans htb (roundUp_le hq h.stop hb)

theorem Walk.cut (hq : 0 < q) (hc : c.Ok q) {a b p t : ℕ}
    (h : Walk q c (es1 ++ ⟨a, b, .used⟩ :: es2) c') (hp : q ∣ p) (ha : a < p) (hpt : p < t)
    (ht : roundUp q t = roundUp q b) : Walk q c (es1 ++ ⟨a, p, .used⟩ :: ⟨p, t, .used⟩ :: es2) c' := by
  apply Walk.replace hq hc [⟨a, b, .used⟩] [⟨a, p, .used⟩, ⟨p, t, .used⟩] h
  intro c1 c2 hc1 h1
  cases h1 with
  | marker hk => cases hk
  | segment hk hs hlt hle hf h2 =>
    have hts : t ≤ c1.stop := hc1.le_stop hq hle ht
    refine .segment (by simp) hs ha (by dsimp only; omega) (by simp) ?_
    rw [roundUp_of_dvd hq hp]
    refine .segment (by simp) rfl hpt hts (by simp) ?_
    rw [ht]
    exact h2

theorem Walk.join (hq : 0 < q) (hc : c.Ok q) {a b p p' : ℕ}
    (h : Walk q c (es1 ++ ⟨a, p, .used⟩ :: ⟨p', b, .used⟩ :: es2) c') : Walk q c (es1 ++ ⟨a, b, .used⟩ :: es2) c' := by
  apply Walk.replace hq hc [⟨a, p, .used⟩, ⟨p', b, .used⟩] [⟨a, b, .used⟩] h
  intro c1 c2 hc1 h1
  cases h1 with
  | marker hk => cases hk
  | segment hk hs hlt hle hf h2 =>
    cases h2 with
    | marker hk => cases hk
    | segment hk' hs' hlt' hle' hf' h3 =>
      have := le_roundUp (x := p) hq
      dsimp only at hlt hs' hlt'
      exact .segment hk hs (by dsimp only; omega) hle' (by simp) h3

theorem Walk.trim (hq : 0 < q) (hc : c.Ok q) {a b t : ℕ}
    (h : Walk q c (es1 ++ ⟨a, b, .used⟩ :: es2) c') (hat : a < t) (ht : roundUp q t = roundUp q b) :
    Walk q c (es1 ++ ⟨a, t, .used⟩ :: es2) c' := by
  apply Walk.replace hq hc [⟨a, b, .used⟩] [⟨a, t, .used⟩] h
  intro c1 c2 hc1 h1
  cases h1 with
  | marker hk => cases hk
  | segment hk hs hlt hle hf h2 =>
    refine .segment hk hs hat (hc1.le_stop hq hle ht) (by simp) ?_
    rw [ht]
    exact h2

theorem Walk.addSpan (hq : 0 < q) (h : Walk q c es c') (hn : c'.pos = c'.stop) {a b : ℕ}
    (hpos : 0 < a) (hlt : a < b) (ha : q ∣ a) (hb : q ∣ b) :
    Walk q c (es ++ [⟨a, b, .marker⟩, ⟨a, b, .used⟩]) ⟨b, b, false⟩ := by
  refine h.append (.marker rfl hn hpos hlt ha hb (.segment (by simp) rfl hlt le_rfl (by simp) ?_))
  rw [roundUp_of_dvd hq hb]
  exact .nil _

theorem Walk.dropSpan (h : Walk q c (es1 ++ e :: e' :: es2) c') (he : e.kind = .marker)
    (hc' : c'.pos = c'.stop) (hh : ∀ e2 ∈ es2.head?, e2.kind = .marker) :
    ∃ c'', Walk q c (es1 ++ es2) c'' ∧ c''.pos = c''.stop := by
  obtain ⟨c1, h1, h2⟩ := h.split
  cases h2 with
  | segment hk => exact absurd he hk
  | marker hk hn hpos hlt hs ht h2 =>
    cases es2 with
    | nil => exact ⟨c1, h1.append (.nil _), hn⟩
    | cons e2 es2 =>
      have he2 := hh e2 rfl
      obtain ⟨c2, -, h3⟩ := @Walk.split _ _ _ [e'] _ h2
      cases h3 with
      | segment hk => exact absurd he2 hk
      | marker hk _ hpos hlt hs ht h3 =>
        exact ⟨c', h1.append (.marker hk hn hpos hlt hs ht h3), hc'⟩

theorem Walk.mem (hq : 0 < q) (h : Walk q c es c') (hc : c.Ok q) (h0 : c.pos = 0 → c.stop = 0) :
    ∀ e ∈ es, 0 < e.start ∧ e.start < e.stop ∧ q ∣ e.start ∧ (e.kind ≠ .used → q ∣ e.stop) := by
  induction h with
  | nil => simp
  | marker hk hen hpos hlt hs ht _ ih =>
    refine List.forall_mem_cons.mpr ⟨⟨hpos, hlt, hs, fun _ => ht⟩, ?_⟩
    exact ih ⟨hs, ht, Nat.le_of_lt hlt⟩ (fun h => by dsimp only at h; omega)
  | @segment c _ e _ hk hs hlt hle hf _ ih =>
    refine List.forall_mem_cons.mpr ⟨⟨by omega, hlt, hs ▸ hc.pos, fun hu => ?_⟩, ?_⟩
    · cases hn : e.kind with
      | marker => exact absurd hn hk
      | free => exact (hf hn).1
      | used => exact absurd hn hu
    · apply ih ⟨dvd_roundUp _ _, hc.stop, roundUp_le hq hc.stop hle⟩
      intro h
      have := le_roundUp (x := e.stop) hq
      dsimp only at h
      omega

/-! ### What a walk says about a span -/

/-- Segments tile `[a, b)` in address order, a segment in use counted up to its end rounded to `q`. -/
def Tiles (q a b : ℕ) : List Entry → Prop
  | [] => a = b
  | e :: es => e.start = a ∧ e.start < e.stop ∧ Tiles q (if e.kind = .used then roundUp q e.stop else e.stop) b es

theorem Walk.tiles_of_segments (hq : 0 < q) (h : Walk q c es c') (hes : ∀ e ∈ es, e.kind ≠ .marker)
    (hc' : c'.pos = c'.stop) : Tiles q c.pos c.stop es := by
  induction h with
  | nil => exact hc'
  | marker hk => exact absurd hk (hes _ List.mem_cons_self)
  | @segment _ _ e _ hk hs hlt hle hr _ ih =>
    have he' := ih (fun e he => hes e (List.mem_cons_of_mem _ he)) hc'
    refine ⟨hs, hlt, ?_⟩
    split_ifs with hu
    · exact he'
    · have hf : e.kind = .free := by
        cases hn : e.kind with
        | marker => exact absurd hn hk
        | free => rfl
        | used => exact absurd hn hu
      rwa [← roundUp_of_dvd hq (hr hf).1]

theorem Walk.tiles (hq : 0 < q) (h : Walk q c (es1 ++ e :: (es ++ es2)) c') (hc' : c'.pos = c'.stop)
    (he : e.kind = .marker) (hes : ∀ e ∈ es, e.kind ≠ .marker)
    (he2 : ∀ e ∈ es2.head?, e.kind = .marker) : Tiles q e.start e.stop es := by
  obtain ⟨c1, -, h⟩ := h.split
  cases h with
  | segment hk => exact absurd he hk
  | marker hk hn hpos hlt hs ht h =>
    obtain ⟨c2, h, h2⟩ := h.split
    apply h.tiles_of_segments hq hes
    cases h2 with
    | nil => exact hc'
    | marker _ hn => exact hn
    | segment hk => exact absurd (he2 _ rfl) hk

end Sol8.Lib.Tiling
