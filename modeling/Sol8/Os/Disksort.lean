import Sol8.Lib.Chain
import Sol8.Lib.Run

/-! The seek sort of disk requests (`os/bdev_dsort.c`): the queue of a drive is a one-way scan, two runs of requests
in the order of their cylinders. -/

namespace Sol8.Os.Disksort

open Function Sol8.Lib Sol8.Lib.Chain List

variable {B : Type}

/-- `diskhd` and the fields `av_forw` and `b_cylin` of the requests. -/
structure Diskhd (B : Type) where
  actf : Option B
  actl : Option B
  forw : B → Option B
  cylin : B → ℕ

namespace Diskhd

section Loops

variable (dp : Diskhd B) (bp : B)

/-- The search of the second list for a request at a larger cylinder. The number bounds the steps. -/
def second : ℕ → B → B
  | 0, ap => ap
  | n + 1, ap =>
    match dp.forw ap with
    | none => ap
    | some x => if dp.cylin bp < dp.cylin x then ap else second n x

/-- The search for the inversion, and then for the place in the second list. -/
def inversion : ℕ → B → B
  | 0, ap => ap
  | n + 1, ap =>
    match dp.forw ap with
    | none => ap
    | some x => if dp.cylin x < dp.cylin ap then dp.second bp (n + 1) ap else inversion n x

def first : ℕ → B → B
  | 0, ap => ap
  | n + 1, ap =>
    match dp.forw ap with
    | none => ap
    | some x => if dp.cylin x < dp.cylin ap ∨ dp.cylin bp < dp.cylin x then ap else first n x

end Loops

variable [DecidableEq B]

def insertAfter (dp : Diskhd B) (ap bp : B) : Diskhd B :=
  { dp with
    forw := update (update dp.forw bp (dp.forw ap)) ap (some bp)
    actl := if dp.actl = some ap then some bp else dp.actl }

/-- `disksort`; no loop makes more than `n` steps. -/
def disksort (dp : Diskhd B) (n : ℕ) (bp : B) : Diskhd B :=
  match dp.actf with
  | none => { dp with actf := some bp, actl := some bp, forw := update dp.forw bp none }
  | some ap =>
    if dp.cylin bp < dp.cylin ap then dp.insertAfter (dp.inversion bp n ap) bp
    else dp.insertAfter (dp.first bp n ap) bp

def queued (dp : Diskhd B) (n : ℕ) (bp : B) : Bool := (seek dp.forw (· == bp) n none dp.actf).2.isSome

end Diskhd

inductive Event (B : Type)
  | insert (bp : B) (cylin : ℕ)
  | remove
deriving DecidableEq, Repr

/-- The queue, and the requests that have come and gone, each with its cylinder. -/
structure World (B : Type) where
  dp : Diskhd B
  arrived : List (B × ℕ)
  departed : List (B × ℕ)

/-- A request that is on the queue is not put in again. The queue is never longer than the requests that have come. -/
def exec [DecidableEq B] (w : World B) : Event B → Option (World B)
  | .insert bp c =>
    if w.dp.queued w.arrived.length bp then none
    else some { w with
      dp := { w.dp with cylin := update w.dp.cylin bp c }.disksort (w.arrived.length + 1) bp
      arrived := w.arrived ++ [(bp, c)] }
  | .remove =>
    match w.dp.actf with
    | none => none
    | some bp => some { w with
        dp := { w.dp with actf := w.dp.forw bp }
        departed := w.departed ++ [(bp, w.dp.cylin bp)] }

/-! ### The loops -/

section Loops

variable {dp : Diskhd B} {bp ap : B} {A Q : List B} {n : ℕ}

/-- The requests are in the order of their cylinders. -/
def Run (cylin : B → ℕ) (l : List B) : Prop := l.Pairwise fun x y => cylin x ≤ cylin y

theorem second_eq (h : Spells dp.forw (dp.forw ap) Q) (hn : Q.length < n) :
    some (dp.second bp n ap) = (ap :: Q.takeWhile fun x => dp.cylin x ≤ dp.cylin bp).getLast? := by
  induction Q generalizing ap n with
  | nil =>
    obtain _ | n := n
    · simp at hn
    have hnn : dp.forw ap = none := h
    simp [Diskhd.second, hnn]
  | cons x Q ih =>
    obtain _ | n := n
    · simp at hn
    obtain ⟨hx, hr⟩ := h
    rw [Diskhd.second, hx]
    by_cases hlt : dp.cylin bp < dp.cylin x
    · simp [hlt]
    · have hle : dp.cylin x ≤ dp.cylin bp := Nat.le_of_not_lt hlt
      simp only [if_neg hlt]
      rw [ih hr (by simpa using hn), takeWhile_cons_of_pos (by simpa using hle), List.getLast?_cons_cons]

section

variable (h : Spells dp.forw (dp.forw ap) (A ++ Q)) (hn : (A ++ Q).length < n) (hA : Run dp.cylin (ap :: A))
  (hQ : ∀ y ∈ Q, ∀ x ∈ ap :: A, dp.cylin y < dp.cylin x)
include h hn hA hQ

theorem inversion_eq :
    some (dp.inversion bp n ap) = (ap :: (A ++ Q.takeWhile fun x => dp.cylin x ≤ dp.cylin bp)).getLast? := by
  induction A generalizing ap n with
  | nil =>
    obtain _ | n := n
    · simp at hn
    cases Q with
    | nil =>
      have hnn : dp.forw ap = none := h
      simp [Diskhd.inversion, hnn]
    | cons y Q =>
      have hy : dp.forw ap = some y := h.1
      have hin : dp.cylin y < dp.cylin ap := hQ y mem_cons_self ap mem_cons_self
      rw [Diskhd.inversion, hy]
      simp only [if_pos hin]
      exact second_eq h hn
  | cons x A ih =>
    obtain _ | n := n
    · simp at hn
    obtain ⟨hx, hr⟩ := h
    have hle : ¬ dp.cylin x < dp.cylin ap := Nat.not_lt.mpr ((pairwise_cons.mp hA).1 x mem_cons_self)
    rw [Diskhd.inversion, hx]
    simp only [if_neg hle, cons_append, List.getLast?_cons_cons]
    exact ih hr (by simpa using hn) (pairwise_cons.mp hA).2 fun y hy z hz => hQ y hy z (mem_cons_of_mem ap hz)

theorem first_eq : some (dp.first bp n ap) = (ap :: A.takeWhile fun x => dp.cylin x ≤ dp.cylin bp).getLast? := by
  induction A generalizing ap n with
  | nil =>
    obtain _ | n := n
    · simp at hn
    cases Q with
    | nil =>
      have hnn : dp.forw ap = none := h
      simp [Diskhd.first, hnn]
    | cons y Q =>
      have hy : dp.forw ap = some y := h.1
      have hin : dp.cylin y < dp.cylin ap := hQ y mem_cons_self ap mem_cons_self
      simp [Diskhd.first, hy, hin]
  | cons x A ih =>
    obtain _ | n := n
    · simp at hn
    obtain ⟨hx, hr⟩ := h
    have hle : ¬ dp.cylin x < dp.cylin ap := Nat.not_lt.mpr ((pairwise_cons.mp hA).1 x mem_cons_self)
    rw [Diskhd.first, hx]
    by_cases hlt : dp.cylin bp < dp.cylin x
    · simp [hlt]
    · have ht : ¬ (dp.cylin x < dp.cylin ap ∨ dp.cylin bp < dp.cylin x) := by omega
      have hl : dp.cylin x ≤ dp.cylin bp := Nat.le_of_not_lt hlt
      simp only [if_neg ht]
      rw [takeWhile_cons_of_pos (by simpa using hl)]
      exact ih hr (by simpa using hn) (pairwise_cons.mp hA).2 fun y hy z hz => hQ y hy z (mem_cons_of_mem ap hz)

end

end Loops

/-! ### The law of the queue -/

variable {cylin : B → ℕ} {bp : B} {A Q l : List B}

/-- The queue is a first run `A` and a second run `Q` that lies below the first request. -/
structure Law (cylin : B → ℕ) (A Q : List B) : Prop where
  first : Run cylin A
  second : Run cylin Q
  below : ∀ a ∈ A.head?, ∀ y ∈ Q, cylin y < cylin a
  nil : A = [] → Q = []

theorem Law.lt (h : Law cylin A Q) : ∀ y ∈ Q, ∀ x ∈ A, cylin y < cylin x := by
  intro y hy x hx
  cases A with
  | nil => cases hx
  | cons a A =>
    have ha := h.below a rfl y hy
    rcases mem_cons.mp hx with rfl | hx
    · exact ha
    · exact ha.trans_le ((pairwise_cons.mp h.first).1 x hx)

theorem Run.insert (h : Run cylin l) (bp : B) :
    Run cylin (l.takeWhile (fun x => cylin x ≤ cylin bp) ++ bp :: l.dropWhile fun x => cylin x ≤ cylin bp) ∧
      ∀ x ∈ l.dropWhile (fun x => cylin x ≤ cylin bp), cylin bp < cylin x := by
  induction l with
  | nil => simp [Run]
  | cons a l ih =>
    obtain ⟨ha, hl⟩ := pairwise_cons.mp h
    by_cases hle : cylin a ≤ cylin bp
    · obtain ⟨hr, hab⟩ := ih hl
      rw [takeWhile_cons_of_pos (by simpa using hle), dropWhile_cons_of_pos (by simpa using hle)]
      refine ⟨pairwise_cons.mpr ⟨fun x hx => ?_, hr⟩, hab⟩
      rcases mem_append.mp hx with hx | hx
      · exact ha x ((takeWhile_sublist _).subset hx)
      · rcases mem_cons.mp hx with rfl | hx
        · exact hle
        · exact ha x ((dropWhile_sublist _).subset hx)
    · have hlt : cylin bp < cylin a := Nat.lt_of_not_le hle
      rw [takeWhile_cons_of_neg (by simpa using hle), dropWhile_cons_of_neg (by simpa using hle)]
      have hab : ∀ x ∈ a :: l, cylin bp < cylin x := forall_mem_cons.mpr ⟨hlt, fun x hx => hlt.trans_le (ha x hx)⟩
      exact ⟨pairwise_cons.mpr ⟨fun x hx => (hab x hx).le, h⟩, hab⟩

/-! ### One insertion -/

/-- The pointers spell the two runs, and `b_actl` points to the last request. -/
structure Queue (dp : Diskhd B) (A Q : List B) : Prop extends Law dp.cylin A Q where
  chain : Spells dp.forw dp.actf (A ++ Q)
  last : A ≠ [] → dp.actl = (A ++ Q).getLast?

section Insertion

variable [DecidableEq B] {dp : Diskhd B} {ap : B} {l1 l2 : List B}

theorem insertAfter_spells (h : Spells dp.forw dp.actf (l1 ++ l2)) (hl : dp.actl = (l1 ++ l2).getLast?)
    (ha : l1.getLast? = some ap) (hb : bp ∉ l1 ++ l2) :
    Spells (dp.insertAfter ap bp).forw (dp.insertAfter ap bp).actf (l1 ++ bp :: l2) ∧
      (dp.insertAfter ap bp).actl = (l1 ++ bp :: l2).getLast? := by
  refine ⟨h.insert_after ha hb, ?_⟩
  have hp := h.nodup
  simp only [Diskhd.insertAfter]
  cases l2 with
  | nil =>
    simp [hl, ha]
  | cons y l2 =>
    have hne : dp.actl ≠ some ap := by
      rw [hl, List.getLast?_append_of_ne_nil _ (by simp)]
      intro hy
      exact disjoint_of_nodup_append hp (mem_of_getLast? ha) (mem_of_getLast? hy)
    rw [if_neg hne, hl, List.getLast?_append_of_ne_nil _ (by simp), List.getLast?_append_of_ne_nil _ (by simp),
      List.getLast?_cons_cons]

/-- `disksort` puts the request into one of the runs, behind all others at its cylinder, and never in front of the
first one. -/
theorem Queue.disksort (h : Queue dp A Q) (hb : bp ∉ A ++ Q) {n : ℕ} (hn : (A ++ Q).length ≤ n) :
    ∃ A' Q' l1 l2, Queue (dp.disksort n bp) A' Q' ∧ A ++ Q = l1 ++ l2 ∧ A' ++ Q' = l1 ++ bp :: l2 ∧
      (∀ x ∈ l2, dp.cylin x ≠ dp.cylin bp) ∧ (dp.disksort n bp).cylin = dp.cylin ∧
      (A ≠ [] → (dp.disksort n bp).actf = dp.actf) := by
  cases A with
  | nil =>
    obtain rfl := h.nil rfl
    have hnn : dp.actf = none := h.chain
    refine ⟨[bp], [], [], [], ?_, rfl, rfl, nofun, ?_, fun hc => absurd rfl hc⟩
    · simp only [Diskhd.disksort, hnn]
      exact { first := pairwise_singleton .., second := .nil, below := nofun, nil := nofun,
              chain := ⟨rfl, update_self ..⟩, last := fun _ => rfl }
    · simp only [Diskhd.disksort, hnn]
  | cons a A =>
    have hac : dp.actf = some a := h.chain.1
    have hl := h.last (by simp)
    have hr : Spells dp.forw (dp.forw a) (A ++ Q) := h.chain.2
    by_cases hlt : dp.cylin bp < dp.cylin a
    · -- the second run
      have hs : dp.disksort n bp = dp.insertAfter (dp.inversion bp n a) bp := by
        simp [Diskhd.disksort, hac, hlt]
      have hp : a :: A ++ Q = a :: (A ++ Q.takeWhile fun x => dp.cylin x ≤ dp.cylin bp) ++
          Q.dropWhile fun x => dp.cylin x ≤ dp.cylin bp := by
        simp [takeWhile_append_dropWhile]
      have hap : some (dp.inversion bp n a) = _ := inversion_eq hr hn h.first h.lt
      obtain ⟨hrn, ha⟩ := h.second.insert bp
      have hh := h.chain
      rw [hp] at hh hl hb
      obtain ⟨hc', hl'⟩ := insertAfter_spells hh hl hap.symm hb
      refine ⟨a :: A, _, _, _, ?_, hp, (append_assoc (a :: A) _ _).symm, fun x hx => (ha x hx).ne',
        by rw [hs]; rfl, fun _ => by rw [hs]; rfl⟩
      rw [hs]
      refine { first := h.first, second := hrn, below := ?_, nil := nofun, chain := ?_, last := fun _ => ?_ }
      · rintro _ ⟨⟩ y hy
        rcases mem_append.mp hy with hy | hy
        · exact h.below a rfl y ((takeWhile_sublist _).subset hy)
        · rcases mem_cons.mp hy with rfl | hy
          · exact hlt
          · exact h.below a rfl y ((dropWhile_sublist _).subset hy)
      · simpa using hc'
      · simpa using hl'
    · -- the first run
      have hle : dp.cylin a ≤ dp.cylin bp := Nat.le_of_not_lt hlt
      have hs : dp.disksort n bp = dp.insertAfter (dp.first bp n a) bp := by
        simp [Diskhd.disksort, hac, hlt]
      have hp : a :: A ++ Q = a :: (A.takeWhile fun x => dp.cylin x ≤ dp.cylin bp) ++
          ((A.dropWhile fun x => dp.cylin x ≤ dp.cylin bp) ++ Q) := by
        rw [cons_append, cons_append, ← append_assoc, takeWhile_append_dropWhile]
      have hap : some (dp.first bp n a) = _ := first_eq hr hn h.first h.lt
      obtain ⟨hrn, ha⟩ := h.first.insert bp
      rw [takeWhile_cons_of_pos (by simpa using hle), dropWhile_cons_of_pos (by simpa using hle)] at hrn
      rw [dropWhile_cons_of_pos (by simpa using hle)] at ha
      have hh := h.chain
      rw [hp] at hh hl hb
      obtain ⟨hc', hl'⟩ := insertAfter_spells hh hl hap.symm hb
      refine ⟨_, Q, _, _, ?_, hp, append_assoc (a :: A.takeWhile _) (bp :: A.dropWhile _) Q, fun x hx => ?_,
        by rw [hs]; rfl, fun _ => by rw [hs]; rfl⟩
      · rw [hs]
        refine { first := hrn, second := h.second, below := ?_, nil := nofun, chain := ?_, last := fun _ => ?_ }
        · rintro _ ⟨⟩ y hy
          exact h.below a rfl y hy
        · simpa using hc'
        · simpa using hl'
      · rcases mem_append.mp hx with hx | hx
        · exact (ha x hx).ne'
        · exact ((h.below a rfl x hx).trans_le hle).ne

theorem Queue.queued_iff (h : Queue dp A Q) {n : ℕ} (hn : (A ++ Q).length ≤ n) :
    dp.queued n bp = true ↔ bp ∈ A ++ Q := by
  rw [Diskhd.queued, h.chain.seek_find hn]
  simp

end Insertion

/-! ### Whole runs -/

section Runs

variable [DecidableEq B] {w w' : World B}

def requests (dp : Diskhd B) (l : List B) : List (B × ℕ) := l.map fun b => (b, dp.cylin b)

def Init (w : World B) : Prop := w.dp.actf = none ∧ w.arrived = [] ∧ w.departed = []

def Step (w w' : World B) : Prop := ∃ e, exec w e = some w'

/-- The requests at each cylinder leave and wait in the order in which they came. -/
def Ordered (w : World B) (l : List B) : Prop :=
  ∀ c, (w.departed ++ requests w.dp l).filter (·.2 = c) = w.arrived.filter (·.2 = c)

omit [DecidableEq B] in
theorem filter_insert {l1 l2 : List (B × ℕ)} {x : B × ℕ} (h : ∀ y ∈ l2, y.2 ≠ x.2) (c : ℕ) :
    (l1 ++ x :: l2).filter (·.2 = c) = (l1 ++ l2).filter (·.2 = c) ++ [x].filter (·.2 = c) := by
  by_cases hc : x.2 = c
  · have hnil : l2.filter (·.2 = c) = [] := filter_eq_nil_iff.mpr fun y hy => by
      subst hc
      simpa using h y hy
    simp [hc, hnil]
  · simp [hc]

theorem Ordered.perm (ho : Ordered w l) : (w.departed ++ requests w.dp l).Perm w.arrived := by
  refine perm_iff_count.mpr fun x => ?_
  have hx := congrArg (List.count x) (ho x.2)
  rwa [count_filter (by simp), count_filter (by simp)] at hx

theorem Ordered.length_le (ho : Ordered w l) : l.length ≤ w.arrived.length := by
  have hlen := ho.perm.length_eq
  rw [length_append, requests, length_map] at hlen
  omega

theorem insert_ordered (h : Queue w.dp A Q) (ho : Ordered w (A ++ Q)) {bp : B} {c : ℕ}
    (he : exec w (.insert bp c) = some w') :
    ∃ A' Q', Queue w'.dp A' Q' ∧ Ordered w' (A' ++ Q') ∧ (A ≠ [] → w'.dp.actf = w.dp.actf) := by
  simp only [exec] at he
  split at he
  · cases he
  next hq =>
    have hp : bp ∉ A ++ Q := fun hmem => hq ((h.queued_iff ho.length_le).mpr hmem)
    cases he
    have hs {x : B} (hx : x ∈ A ++ Q) : update w.dp.cylin bp c x = w.dp.cylin x :=
      update_of_ne (ne_of_mem_of_not_mem hx hp) ..
    have hu : Queue { w.dp with cylin := update w.dp.cylin bp c } A Q := by
      have hrn {l : List B} (hl : l ⊆ A ++ Q) (hr : Run w.dp.cylin l) : Run (update w.dp.cylin bp c) l :=
        hr.imp_of_mem fun hx hy hle => by rwa [hs (hl hx), hs (hl hy)]
      refine { first := hrn (subset_append_left ..) h.first, second := hrn (subset_append_right ..) h.second,
               below := fun a ha y hy => ?_, nil := h.nil, chain := h.chain, last := h.last }
      dsimp only
      rw [hs (mem_append_left _ (mem_of_mem_head? ha)), hs (mem_append_right _ hy)]
      exact h.below a ha y hy
    obtain ⟨A', Q', l1, l2, h', hol, hw, hne, hc, hh⟩ := hu.disksort hp (Nat.le_succ_of_le ho.length_le)
    refine ⟨A', Q', h', fun k => ?_, hh⟩
    have hb : requests w.dp (A ++ Q) = requests w.dp l1 ++ requests w.dp l2 := by
      rw [hol, requests, map_append]
      rfl
    have hf : requests ({ w.dp with cylin := update w.dp.cylin bp c }.disksort (w.arrived.length + 1) bp)
        (A' ++ Q') =
        requests w.dp l1 ++ (bp, c) :: requests w.dp l2 := by
      have hm (l : List B) (hl : l ⊆ A ++ Q) : (l.map fun b => (b, update w.dp.cylin bp c b)) = requests w.dp l :=
        map_congr_left fun x hx => by rw [hs (hl hx)]
      rw [requests, hc, hw, map_append, map_cons, hm l1 (by simp [hol]), hm l2 (by simp [hol])]
      dsimp only
      rw [update_self]
    have hls : ∀ y ∈ requests w.dp l2, y.2 ≠ c := by
      refine forall_mem_map.mpr fun x hx => ?_
      have hx' := hne x hx
      have hmem : x ∈ A ++ Q := by simp [hol, hx]
      simpa [hs hmem] using hx'
    have hk := ho k
    rw [hb, ← append_assoc] at hk
    rw [hf, ← append_assoc, filter_insert hls, hk, filter_append]

/-- A removal keeps the order; the second run becomes the first when the first is used up. -/
theorem remove_ordered (h : Queue w.dp A Q) (ho : Ordered w (A ++ Q)) (he : exec w .remove = some w') :
    ∃ A' Q', Queue w'.dp A' Q' ∧ Ordered w' (A' ++ Q') := by
  cases A with
  | nil =>
    obtain rfl := h.nil rfl
    have hnn : w.dp.actf = none := h.chain
    simp [exec, hnn] at he
  | cons a A =>
    have ha : w.dp.actf = some a := h.chain.1
    simp only [exec, ha, Option.some.injEq] at he
    subst he
    have hc : Spells w.dp.forw (w.dp.forw a) (A ++ Q) := h.chain.2
    have hor : ∀ c, (w.departed ++ [(a, w.dp.cylin a)] ++ requests w.dp (A ++ Q)).filter (·.2 = c) =
        w.arrived.filter (·.2 = c) := by
      intro c
      rw [append_assoc]
      exact ho c
    have hl := h.last (by simp)
    have hr := (pairwise_cons.mp h.first).2
    by_cases hA : A = []
    · subst hA
      refine ⟨Q, [], ?_, by rw [append_nil]; exact hor⟩
      refine { first := h.second, second := .nil, below := fun _ _ => nofun, nil := fun _ => rfl, chain := by simpa using hc,
               last := fun hne => ?_ }
      obtain ⟨y, Q, rfl⟩ := exists_cons_of_ne_nil hne
      simpa using hl
    · refine ⟨A, Q, ?_, hor⟩
      obtain ⟨b, A, rfl⟩ := exists_cons_of_ne_nil hA
      refine { first := hr, second := h.second, below := ?_, nil := nofun, chain := hc, last := fun _ => ?_ }
      · rintro _ ⟨⟩ y hy
        exact h.lt y hy b (by simp)
      · rw [hl, cons_append, cons_append, List.getLast?_cons_cons]

/-- In every run the queue is two sorted runs with the second below the first request, `b_actl` is its last request,
no insertion displaces the first request, no request is lost or doubled, and the requests at one cylinder leave in the
order in which they came. -/
theorem disksort_law (hr : Reachable Init Step w) :
    ∃ A Q, Queue w.dp A Q ∧ Ordered w (A ++ Q) ∧ (w.departed ++ requests w.dp (A ++ Q)).Perm w.arrived ∧
      ∀ bp c w', exec w (.insert bp c) = some w' → A ≠ [] → w'.dp.actf = w.dp.actf := by
  obtain ⟨A, Q, h, ho⟩ : ∃ A Q, Queue w.dp A Q ∧ Ordered w (A ++ Q) := by
    refine hr.invariant (P := fun w => ∃ A Q, Queue w.dp A Q ∧ Ordered w (A ++ Q)) ?_ ?_
    · rintro w ⟨ha, har, hd⟩
      refine ⟨[], [], ?_, fun c => by simp [har, hd, requests]⟩
      exact { first := .nil, second := .nil, below := nofun, nil := fun _ => rfl, chain := ha, last := fun hc => absurd rfl hc }
    · rintro w w' ⟨A, Q, h, ho⟩ ⟨e, he⟩
      cases e with
      | insert bp c =>
        obtain ⟨A', Q', h', ho', -⟩ := insert_ordered h ho he
        exact ⟨A', Q', h', ho'⟩
      | remove => exact remove_ordered h ho he
  refine ⟨A, Q, h, ho, ho.perm, fun bp c w' he hne => ?_⟩
  obtain ⟨-, -, -, -, hh⟩ := insert_ordered h ho he
  exact hh hne

def idleDrive : World ℕ := ⟨⟨none, none, fun _ => none, fun _ => 0⟩, [], []⟩

/-- Two requests at cylinder 7 with one at 3 between them; the first has left. -/
theorem disksort_law_oneWay :
    ∃ w, runList exec idleDrive [.insert 0 7, .insert 1 3, .insert 2 7, .remove] = some w ∧ w.dp.actf = some 2 ∧
      w.dp.actl = some 1 ∧ ∃ A Q, Queue w.dp A Q ∧ Ordered w (A ++ Q) := by
  have hv : (runList exec idleDrive [.insert 0 7, .insert 1 3, .insert 2 7, .remove]).map
      (fun w => (w.dp.actf, w.dp.actl)) = some (some 2, some 1) := by decide
  obtain ⟨w, hw, hen⟩ := Option.map_eq_some_iff.mp hv
  obtain ⟨ha, hc⟩ := Prod.mk.inj hen
  have hr : Reachable Init Step w := Reachable.runList (fun _ e _ he => ⟨e, he⟩) (.start ⟨rfl, rfl, rfl⟩) hw
  obtain ⟨A, Q, h, ho, -⟩ := disksort_law hr
  exact ⟨w, hw, ha, hc, A, Q, h, ho⟩

end Runs

end Sol8.Os.Disksort
