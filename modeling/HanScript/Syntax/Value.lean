-- The values of literals, and when two of them are the same value: truth
-- values count as one and nought, and numbers are compared exactly.
import HanScript.Number.Numeral

namespace HanScript

/-- The value of a literal. -/
inductive Value where
  | nothing
  | truth (b : Bool)
  | number (n : Number)
  | text (s : String)
deriving DecidableEq, Inhabited

/-- What a value amounts to, however it is written. -/
inductive Meaning where
  | nothing
  | amount (q : Rat)
  | infinite (negative : Bool)
  | text (s : String)
deriving DecidableEq

namespace Value

def meaning : Value → Meaning
  | nothing => .nothing
  | truth b => .amount (if b then 1 else 0)
  | number (.integer n) => .amount n
  | number (.double (.infinite negative)) => .infinite negative
  | number (.double d) => .amount (d.toRat?.getD 0)
  | text s => .text s

/-- Two values are the same if they amount to the same. -/
def same (v w : Value) : Bool := v.meaning = w.meaning

theorem same_refl (v : Value) : v.same v = true := by simp [same]

theorem same_symm {v w : Value} (h : v.same w = true) : w.same v = true := by
  simp only [same, decide_eq_true_eq] at *
  exact h.symm

theorem same_trans {v w x : Value} (h : v.same w = true) (k : w.same x = true) :
    v.same x = true := by
  simp only [same, decide_eq_true_eq] at *
  exact h.trans k

end Value

end HanScript
