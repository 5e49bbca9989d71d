import Mathlib

/-! Runs of a transition system given by a set of start states and a step relation, and the
induction rule for invariants of every reachable state. -/

namespace Sol8.Lib

universe u

variable {σ : Type u} {init : σ → Prop} {step step' : σ → σ → Prop} {s s' : σ} {ε : Type u} {exec : σ → ε → Option σ}

/-- The states some finite run reaches. -/
inductive Reachable (init : σ → Prop) (step : σ → σ → Prop) : σ → Prop
  | start {s : σ} : init s → Reachable init step s
  | next {s s' : σ} : Reachable init step s → step s s' → Reachable init step s'

namespace Reachable

/-- A property of the start states that every step preserves holds of every reachable state. -/
theorem invariant {P : σ → Prop} (h0 : ∀ s, init s → P s) (hp : ∀ s s', P s → step s s' → P s')
    (h : Reachable init step s) : P s := by
  induction h with
  | start hs => exact h0 _ hs
  | next _ ht ih => exact hp _ _ ih ht

end Reachable

/-- The state after a list of events, if each of them can happen in its turn. -/
def runList {ε : Type u} (exec : σ → ε → Option σ) : σ → List ε → Option σ
  | s, [] => some s
  | s, e :: es => (exec s e).bind fun s' => runList exec s' es

theorem runList_append {es es' : List ε} :
    runList exec s (es ++ es') = (runList exec s es).bind fun s' => runList exec s' es' := by
  induction es generalizing s with
  | nil => rfl
  | cons e es ih =>
    rw [List.cons_append, runList, runList, Option.bind_assoc]
    exact congrArg _ (funext fun _ => ih)

theorem Reachable.runList {es : List ε} (ht : ∀ s e s', exec s e = some s' → step s s') (hs : Reachable init step s)
    (h : runList exec s es = some s') : Reachable init step s' := by
  induction es generalizing s with
  | nil =>
    cases h
    exact hs
  | cons e es ih =>
    obtain ⟨s1, h1, h2⟩ := Option.bind_eq_some_iff.mp h
    exact ih (hs.next (ht s e s1 h1)) h2

/-! Threads in runs. -/

instance neZero_two : @NeZero ℕ Zero.ofOfNat0 2 := ⟨by decide⟩
instance neZero_three : @NeZero ℕ Zero.ofOfNat0 3 := ⟨by decide⟩

end Sol8.Lib
