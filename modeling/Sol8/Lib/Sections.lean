import Mathlib

/-! Critical sections of threads. What a thread holds is a function of its program counter, and the words that the
program keeps about it agree with where the threads stand. -/

namespace Sol8.Lib

open Function

variable {T P B : Type*}

/-- The threads that stand inside are those that are recorded. -/
def Agree (inside : P → Option B) (pc : T → P) (held : T → B → Prop) : Prop :=
  ∀ t b, inside (pc t) = some b ↔ held t b

namespace Agree

variable [DecidableEq T] {inside : P → Option B} {pc : T → P} {held held' : T → B → Prop} {t : T} {p : P} {b : B}

section

variable (h : Agree inside pc held)
include h

/-- A step that enters and leaves nothing. -/
theorem move (hp : inside p = inside (pc t)) : Agree inside (update pc t p) held := by
  intro u b
  by_cases hu : u = t
  · rw [hu, update_self, hp]
    exact h t b
  · rw [update_of_ne hu]
    exact h u b

theorem enter (ho : inside (pc t) = none) (hp : inside p = some b)
    (hl : ∀ u b', held' u b' ↔ held u b' ∨ u = t ∧ b' = b) : Agree inside (update pc t p) held' := by
  intro u b'
  rw [hl]
  by_cases hu : u = t
  · subst hu
    have hn : ¬ held u b' := fun hh => by
      cases ho.symm.trans ((h u b').mpr hh)
    rw [update_self, hp, Option.some.injEq]
    exact ⟨fun e => .inr ⟨rfl, e.symm⟩, fun hor => (hor.resolve_left hn).2.symm⟩
  · rw [update_of_ne hu, h u b']
    exact ⟨.inl, fun hor => hor.resolve_right fun hc => hu hc.1⟩

theorem leave (ho : inside (pc t) = some b) (hp : inside p = none)
    (hl : ∀ u b', held' u b' ↔ held u b' ∧ ¬ (u = t ∧ b' = b)) : Agree inside (update pc t p) held' := by
  intro u b'
  rw [hl]
  by_cases hu : u = t
  · subst hu
    rw [update_self, hp]
    refine ⟨nofun, fun hand => absurd ⟨rfl, ?_⟩ hand.2⟩
    exact Option.some.inj (((h u b').mpr hand.1).symm.trans ho)
  · rw [update_of_ne hu, h u b']
    exact ⟨fun hh => ⟨hh, fun hc => hu hc.1⟩, And.left⟩

end

end Agree

/-! ### Readers and a writer -/

/-- Locks that one thread holds for writing, or any number for reading. -/
structure RwLocks (writes reads : P → Option B) (writer : B → Option T) (readers : B → List T) (pc : T → P) :
    Prop where
  writing : Agree writes pc fun t b => writer b = some t
  reading : Agree reads pc fun t b => t ∈ readers b
  excl : ∀ b, writer b ≠ none → readers b = []
  nodup : ∀ b, (readers b).Nodup

namespace RwLocks

variable [DecidableEq T] {writes reads : P → Option B} {writer : B → Option T} {readers : B → List T} {pc : T → P}
  {t : T} {p : P} {b : B}

theorem move (h : RwLocks writes reads writer readers pc) (hw : writes p = writes (pc t))
    (hr : reads p = reads (pc t)) : RwLocks writes reads writer readers (update pc t p) :=
  ⟨h.writing.move hw, h.reading.move hr, h.excl, h.nodup⟩

variable [DecidableEq B]

section

variable (h : RwLocks writes reads writer readers pc)
include h

theorem enter (hf : writer b = none) (hn : readers b = [])
    (ho : writes (pc t) = none) (hw : writes p = some b) (hr : reads p = reads (pc t)) :
    RwLocks writes reads (update writer b (some t)) readers (update pc t p) := by
  refine ⟨h.writing.enter ho hw fun u b' => ?_, h.reading.move hr, fun b' hb' => ?_, h.nodup⟩
  · by_cases hb : b' = b
    · subst hb
      simp [hf, eq_comm]
    · simp [hb]
  · by_cases hb : b' = b
    · rw [hb, hn]
    · rw [update_of_ne hb] at hb'
      exact h.excl b' hb'

theorem exit (ho : writes (pc t) = some b) (hw : writes p = none)
    (hr : reads p = reads (pc t)) : RwLocks writes reads (update writer b none) readers (update pc t p) := by
  have hb0 := (h.writing t b).mp ho
  refine ⟨h.writing.leave ho hw fun u b' => ?_, h.reading.move hr, fun b' hb' => ?_, h.nodup⟩
  · by_cases hb : b' = b
    · subst hb
      simp [hb0, eq_comm]
    · simp [hb]
  · by_cases hb : b' = b
    · exact absurd (by rw [hb, update_self]) hb'
    · rw [update_of_ne hb] at hb'
      exact h.excl b' hb'

theorem enterRead (hf : writer b = none) (ho : reads (pc t) = none)
    (hr : reads p = some b) (hw : writes p = writes (pc t)) :
    RwLocks writes reads writer (update readers b (t :: readers b)) (update pc t p) := by
  have hn : t ∉ readers b := fun hmem => by
    cases ho.symm.trans ((h.reading t b).mpr hmem)
  refine ⟨h.writing.move hw, h.reading.enter ho hr fun u b' => ?_, fun b' hb' => ?_, fun b' => ?_⟩
  · by_cases hb : b' = b
    · subst hb
      simp [or_comm]
    · simp [hb]
  · by_cases hb : b' = b
    · exact absurd (hb ▸ hf) hb'
    · rw [update_of_ne hb]
      exact h.excl b' hb'
  · by_cases hb : b' = b
    · rw [hb, update_self]
      exact List.nodup_cons.mpr ⟨hn, h.nodup b⟩
    · rw [update_of_ne hb]
      exact h.nodup b'

theorem exitRead (ho : reads (pc t) = some b) (hr : reads p = none) (hw : writes p = writes (pc t)) :
    RwLocks writes reads writer (update readers b ((readers b).erase t)) (update pc t p) := by
  refine ⟨h.writing.move hw, h.reading.leave ho hr fun u b' => ?_, fun b' hb' => ?_, fun b' => ?_⟩
  · by_cases hb : b' = b
    · subst hb
      simp [(h.nodup b').mem_erase_iff, and_comm]
    · simp [hb]
  · by_cases hb : b' = b
    · subst hb
      rw [update_self, h.excl b' hb']
      rfl
    · rw [update_of_ne hb]
      exact h.excl b' hb'
  · by_cases hb : b' = b
    · rw [hb, update_self]
      exact (h.nodup b).erase t
    · rw [update_of_ne hb]
      exact h.nodup b'

end

end RwLocks

/-! ### Counted sections -/

/-- Sections that any number of threads are in, which are counted. -/
structure Counted (inside : P → Option B) (holders : B → List T) (count : B → ℕ) (pc : T → P) : Prop where
  inside : Agree inside pc fun t b => t ∈ holders b
  nodup : ∀ b, (holders b).Nodup
  count : ∀ b, count b = (holders b).length

namespace Counted

variable [DecidableEq T] {inside : P → Option B} {holders : B → List T} {count : B → ℕ} {pc : T → P} {t : T} {p : P}
  {b : B}

theorem move (h : Counted inside holders count pc) (hp : inside p = inside (pc t)) :
    Counted inside holders count (update pc t p) :=
  ⟨h.inside.move hp, h.nodup, h.count⟩

variable [DecidableEq B]

theorem enter (h : Counted inside holders count pc) (ho : inside (pc t) = none) (hp : inside p = some b) :
    Counted inside (update holders b (t :: holders b)) (update count b (count b + 1)) (update pc t p) := by
  have hn : t ∉ holders b := fun hmem => by
    cases ho.symm.trans ((h.inside t b).mpr hmem)
  refine ⟨h.inside.enter ho hp fun u b' => ?_, fun b' => ?_, fun b' => ?_⟩ <;> by_cases hb : b' = b
  · subst hb
    simp [or_comm]
  · simp [hb]
  · rw [hb, update_self]
    exact List.nodup_cons.mpr ⟨hn, h.nodup b⟩
  · rw [update_of_ne hb]
    exact h.nodup b'
  · rw [hb, update_self, update_self, h.count b, List.length_cons]
  · rw [update_of_ne hb, update_of_ne hb, h.count b']

theorem leave (h : Counted inside holders count pc) (ho : inside (pc t) = some b) (hp : inside p = none) :
    Counted inside (update holders b ((holders b).erase t)) (update count b (count b - 1)) (update pc t p) := by
  refine ⟨h.inside.leave ho hp fun u b' => ?_, fun b' => ?_, fun b' => ?_⟩ <;> by_cases hb : b' = b
  · subst hb
    simp [(h.nodup b').mem_erase_iff, and_comm]
  · simp [hb]
  · rw [hb, update_self]
    exact (h.nodup b).erase t
  · rw [update_of_ne hb]
    exact h.nodup b'
  · rw [hb, update_self, update_self, h.count b, List.length_erase_of_mem ((h.inside t b).mp ho)]
  · rw [update_of_ne hb, update_of_ne hb, h.count b']

end Counted

end Sol8.Lib
