import Mathlib

/-! Singly linked lists that end in a null pointer: the list a chain of links spells, the walk along it, and
what the usual writes to the links do to it. -/

namespace Sol8.Lib.Chain

open Function

variable {α : Type*} {next next' : α → Option α} {x : Option α} {l l' l1 l2 : List α} {a b : α}

/-- Following `next` from `x` gives `l` and then the null pointer. -/
def Spells (next : α → Option α) : Option α → List α → Prop
  | x, [] => x = none
  | x, a :: l => x = some a ∧ Spells next (next a) l

/-- The walk to the first node with `p`, together with the node before it. The number bounds the steps. -/
def seek (next : α → Option α) (p : α → Bool) : ℕ → Option α → Option α → Option α × Option α
  | 0, before, x => (before, x)
  | _ + 1, before, none => (before, none)
  | n + 1, before, some a => if p a then (before, some a) else seek next p n (some a) (next a)

namespace Spells

variable {n : ℕ} {before : Option α} {p : α → Bool}

theorem head (h : Spells next x l) : x = l.head? := by
  cases l with
  | nil => exact h
  | cons a l => exact h.1

theorem unique (h : Spells next x l) (h' : Spells next x l') : l = l' := by
  induction l generalizing x l' with
  | nil =>
    cases l' with
    | nil => rfl
    | cons b l' => cases h.symm.trans h'.1
  | cons a l ih =>
    cases l' with
    | nil => cases h'.symm.trans h.1
    | cons b l' =>
      obtain rfl := Option.some.inj (h.1.symm.trans h'.1)
      rw [ih h.2 h'.2]

theorem drop (h : Spells next x (l1 ++ l2)) : Spells next l2.head? l2 := by
  induction l1 generalizing x with
  | nil => exact h.head ▸ h
  | cons a l ih => exact ih h.2

theorem next_eq (h : Spells next x (l1 ++ a :: l2)) : next a = l2.head? := h.drop.2.head

theorem nodup (h : Spells next x l) : l.Nodup := by
  induction l generalizing x with
  | nil => exact List.nodup_nil
  | cons a l ih =>
    refine List.nodup_cons.mpr ⟨fun ha => ?_, ih h.2⟩
    -- the chain from the second `a` on would be as long as the one from the first
    obtain ⟨l1, l2, rfl⟩ := List.append_of_mem ha
    have hs : Spells next (next a) l2 := (Spells.drop (show Spells next _ (l1 ++ a :: l2) from h.2)).2
    have := congrArg List.length (h.2.unique hs)
    simp at this
    omega

theorem congr (h : Spells next x l) (hl : ∀ a ∈ l, next' a = next a) : Spells next' x l := by
  induction l generalizing x with
  | nil => exact h
  | cons a l ih =>
    refine ⟨h.1, ?_⟩
    rw [hl a List.mem_cons_self]
    exact ih h.2 fun b hb => hl b (List.mem_cons_of_mem a hb)

section Writes

variable [DecidableEq α]

theorem update_of_notMem (h : Spells next x l) (ha : a ∉ l) (y : Option α) : Spells (update next a y) x l :=
  h.congr fun b hb => update_of_ne (by rintro rfl; exact ha hb) _ _

theorem cons (h : Spells next x l) (ha : a ∉ l) : Spells (update next a x) (some a) (a :: l) := by
  refine ⟨rfl, ?_⟩
  rw [update_self]
  exact h.update_of_notMem ha x

theorem splice (h : Spells next x (l1 ++ a :: l2)) {y : Option α} (hy : Spells next y l) (hl : a ∉ l) :
    Spells (update next a y) x (l1 ++ a :: l) := by
  induction l1 generalizing x with
  | nil =>
    refine ⟨h.1, ?_⟩
    rw [update_self]
    exact hy.update_of_notMem hl y
  | cons b l1 ih =>
    have hb : b ≠ a := by
      rintro rfl
      exact (List.nodup_cons.mp h.nodup).1 (by simp)
    refine ⟨h.1, ?_⟩
    rw [update_of_ne hb]
    exact ih h.2

theorem snoc (h : Spells next x l) (hb : l.getLast? = some b) (ha : a ∉ l) :
    Spells (update (update next a none) b (some a)) x (l ++ [a]) := by
  obtain ⟨l1, rfl⟩ := List.getLast?_eq_some_iff.mp hb
  have hab : a ≠ b := by
    rintro rfl
    exact ha (by simp)
  have hn : Spells (update next a none) (some a) [a] := ⟨rfl, update_self ..⟩
  have := (h.update_of_notMem ha none).splice hn (by simpa using hab.symm)
  rwa [List.append_assoc]

theorem insert_after (h : Spells next x (l1 ++ l2)) (hb : l1.getLast? = some b) (ha : a ∉ l1 ++ l2) :
    Spells (update (update next a (next b)) b (some a)) x (l1 ++ a :: l2) := by
  obtain ⟨l0, rfl⟩ := List.getLast?_eq_some_iff.mp hb
  rw [List.append_assoc] at h ha ⊢
  have hnd := h.nodup
  have hab : a ≠ b := by
    rintro rfl
    exact ha (by simp)
  have hl : b ∉ l2 := (List.nodup_cons.mp hnd.of_append_right).1
  have hn : Spells (update next a (next b)) (some a) (a :: l2) := by
    refine ⟨rfl, ?_⟩
    rw [update_self, h.next_eq]
    have hal : a ∉ l2 := fun hmem => ha (by simp [hmem])
    have hr : Spells next x ((l0 ++ [b]) ++ l2) := by simpa using h
    exact hr.drop.update_of_notMem hal _
  refine (h.update_of_notMem ha _).splice hn ?_
  simpa [hab.symm] using hl

theorem unlink (h : Spells next x (l1 ++ b :: a :: l2)) : Spells (update next b (next a)) x (l1 ++ b :: l2) := by
  have hnd : (b :: a :: l2).Nodup := h.nodup.of_append_right
  have hr : Spells next (next a) l2 := h.drop.2.2
  exact h.splice hr fun hb => (List.nodup_cons.mp hnd).1 (List.mem_cons_of_mem a hb)

end Writes

/-- A walk of as many steps as the chain is long stops at the first node with `p`, or at the end. -/
theorem seek_append (h : Spells next x (l1 ++ l2))
    (hn : (l1 ++ l2).length ≤ n) (h1 : ∀ a ∈ l1, p a = false) (h2 : ∀ a ∈ l2.head?, p a = true) :
    seek next p n before x = (l1.getLast?.or before, l2.head?) := by
  induction l1 generalizing x n before with
  | nil =>
    obtain rfl := h.head
    cases n with
    | zero => rfl
    | succ n =>
      cases l2 with
      | nil => rfl
      | cons a l2 => simp [seek, h2 a rfl]
  | cons a l1 ih =>
    obtain ⟨rfl, h⟩ := h
    cases n with
    | zero => simp at hn
    | succ n =>
      have hn : (l1 ++ l2).length ≤ n := by simpa using hn
      rw [seek, if_neg (by simp [h1 a]), ih h hn fun b hb => h1 b (List.mem_cons_of_mem a hb)]
      cases l1 <;> simp [List.getLast?_cons]

theorem seek_find (h : Spells next x l) (hn : l.length ≤ n) : (seek next p n before x).2 = l.find? p := by
  induction l generalizing x n before with
  | nil =>
    obtain rfl := h.head
    cases n <;> rfl
  | cons a l ih =>
    obtain ⟨rfl, h⟩ := h
    obtain _ | n := n
    · simp at hn
    cases hp : p a with
    | true => simp [seek, hp]
    | false =>
      rw [seek, if_neg (by simp [hp]), ih h (by simpa using hn)]
      simp [hp]

end Spells

end Sol8.Lib.Chain
