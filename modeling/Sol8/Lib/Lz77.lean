import Mathlib

/-! Back-reference items over any alphabet. An item is a literal symbol or a copy of `mlen`
symbols from `dist` positions back, where the copy may overlap what it writes. A list of items
that is valid for a text rebuilds the text symbol by symbol. -/

namespace Sol8.Lib.Lz77

variable {α : Type*} {text : List α} {pos : ℕ}

inductive Item (α : Type*)
  | literal (a : α)
  | copy (mlen dist : ℕ)

namespace Item

/-- Symbols of the text an item stands for. -/
def len : Item α → ℕ
  | literal _ => 1
  | copy mlen _ => mlen

def isCopy : Item α → Bool
  | literal _ => false
  | copy _ _ => true

def Valid (text : List α) (pos : ℕ) : Item α → Prop
  | literal a => text[pos]? = some a
  | copy mlen dist => 0 < mlen ∧ 0 < dist ∧ dist ≤ pos ∧ pos + mlen ≤ text.length ∧
      ∀ k < mlen, text[pos + k]? = text[pos - dist + k]?

end Item

def Describes (text : List α) : ℕ → List (Item α) → Prop
  | pos, [] => pos = text.length
  | pos, it :: rest => it.Valid text pos ∧ Describes text (pos + it.len) rest

/-- Append `mlen` symbols read one at a time from position `cpy` on, up to a length limit. -/
def copyLoop (limit : ℕ) (default : α) : (mlen cpy : ℕ) → List α → List α
  | 0, _, dst => dst
  | mlen + 1, cpy, dst =>
    if dst.length < limit then copyLoop limit default mlen (cpy + 1) (dst ++ [dst.getD cpy default])
    else dst

theorem length_copyLoop (default : α) {limit mlen cpy : ℕ} {dst : List α} (h : dst.length ≤ limit) :
    (copyLoop limit default mlen cpy dst).length = min limit (dst.length + mlen) := by
  induction mlen generalizing cpy dst with
  | zero => rw [copyLoop, Nat.add_zero, Nat.min_eq_right h]
  | succ mlen ih =>
    rw [copyLoop]
    split
    next hlt =>
      have hlen : (dst ++ [dst.getD cpy default]).length = dst.length + 1 := by simp
      rw [ih (hlen ▸ hlt)]
      omega
    · omega

theorem Item.Valid.le_length {it : Item α} (h : it.Valid text pos) : pos + it.len ≤ text.length := by
  cases it with
  | literal a => exact (List.getElem?_eq_some_iff.mp h).1
  | copy mlen dist => exact h.2.2.2.1

end Sol8.Lib.Lz77
