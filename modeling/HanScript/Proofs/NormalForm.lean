-- Trees in normal form: without their spans, and with one value in the place of
-- all that amount to the same. Two trees are the same exactly if they have one
-- normal form, so sameness is an equivalence relation that knows of no spans.
import Mathlib.Data.Nat.Prime.Basic
import HanScript.Proofs.Sameness

namespace HanScript

/-! ## Values -/

/-- The value that stands for all that amount to this: a whole number if there is one, and else
the double with an odd mantissa. -/
def Meaning.normal : Meaning → Value
  | nothing => .nothing
  | amount q =>
    if q.den = 1 then .number (.integer q.num)
    else .number (.double (.finite (q.num < 0) q.num.natAbs (-q.den.log2)))
  | infinite negative => .number (.double (.infinite negative))
  | text s => .text s

def Value.normal (v : Value) : Value := v.meaning.normal

/-- What is worth a whole number over a power of two has a normal value that is worth as much. -/
theorem Meaning.meaning_normal_amount {q : Rat} {k : Nat} (h : q.den = 2 ^ k) :
    (amount q).normal.meaning = amount q := by
  by_cases hwhole : q.den = 1
  · have hq : (q.num : Rat) = q := Rat.ext rfl hwhole.symm
    simp only [normal, if_pos hwhole, Value.meaning, hq]
  · have hsigned : (if q.num < 0 then -(q.num.natAbs : Int) else q.num.natAbs) = q.num := by
      split <;> omega
    have hworth : (Double.finite (q.num < 0) q.num.natAbs (-q.den.log2)).toRat? = some q := by
      have hfactor : (-(k : Int)).toNat = 0 := by omega
      have hdivisor : (- -(k : Int)).toNat = k := by omega
      have hreduced : mkRat q.num (2 ^ k) = q := by rw [← h, Rat.mkRat_self]
      simp only [Double.toRat?, h, Nat.log2_two_pow, hfactor, hdivisor, Nat.pow_eq, Nat.pow_zero,
        Nat.mul_one, decide_eq_true_eq, hsigned, hreduced]
    simp only [normal, if_neg hwhole, Value.meaning, hworth, Option.getD_some]

/-- A double is worth a whole number over a power of two. -/
theorem Double.den_eq_two_pow (d : Double) : ∃ k, (d.toRat?.getD 0).den = 2 ^ k := by
  cases d with
  | infinite => exact ⟨0, rfl⟩
  | finite negative mantissa exponent =>
    have hne : Nat.pow 2 (-exponent).toNat ≠ 0 := Nat.ne_of_gt (Nat.two_pow_pos _)
    have hdvd : ∀ n : Int, (mkRat n (Nat.pow 2 (-exponent).toNat)).den ∣ 2 ^ (-exponent).toNat := by
      intro n
      rw [Rat.den_mkRat, if_neg hne]
      exact Nat.div_dvd_of_dvd (Nat.gcd_dvd_left _ _)
    obtain ⟨k, -, hk⟩ := (Nat.dvd_prime_pow Nat.prime_two).mp (hdvd _)
    exact ⟨k, hk⟩

theorem Value.meaning_normal (v : Value) : v.normal.meaning = v.meaning := by
  cases v with
  | nothing | text => rfl
  | truth b => cases b <;> rfl
  | number n =>
    cases n with
    | integer n => exact Meaning.meaning_normal_amount (k := 0) rfl
    | double d =>
      cases d with
      | infinite => rfl
      | finite negative mantissa exponent =>
        obtain ⟨k, hk⟩ := (Double.finite negative mantissa exponent).den_eq_two_pow
        exact Meaning.meaning_normal_amount hk

theorem Value.same_iff_normal (v w : Value) : v.same w = true ↔ v.normal = w.normal := by
  unfold same
  rw [decide_eq_true_eq]
  constructor
  · exact congrArg Meaning.normal
  · intro h
    rw [← v.meaning_normal, h, w.meaning_normal]

namespace Node

/-! ## Trees -/

mutual

/-- Values that amount to the same make no difference, and neither do spans. -/
theorem same_revalued {f : Value → String → Value} (hf : ∀ v w raw, (f v raw).same w = v.same w)
    (n m : Node) : (n.revalued f).same m = n.same m := by
  cases n with
  | literal s value raw template => simp only [revalued, rewritten, revaluedRoot, same, hf]
  | _ =>
    rw [revalued_eq (by simp)]
    simp only [rebuilt, same, same_revalued hf, sameList_revalued hf]

theorem sameList_revalued {f : Value → String → Value} (hf : ∀ v w raw, (f v raw).same w = v.same w)
    (ns ms : List Node) : sameList (ns.map (revalued f)) ms = sameList ns ms := by
  cases ns with
  | nil => rfl
  | cons n ns =>
    cases ms with
    | nil => rfl
    | cons m ms => simp only [List.map_cons, sameList, same_revalued hf n m, sameList_revalued hf ns ms]

end

/-- The tree without spans, in which each value is the one that stands for all that amount to the
same. -/
def normal (n : Node) : Node := n.revalued fun v _ => v.normal

theorem same_iff_normal (n m : Node) : n.same m = true ↔ n.normal = m.normal := by
  have hvalues : ∀ v w : Value, v.normal.same w = v.same w := by
    intro v w
    unfold Value.same
    rw [v.meaning_normal]
  have hnormal : ∀ n m : Node, n.normal.same m = n.same m := same_revalued fun v w _ => hvalues v w
  constructor
  · exact revalued_of_same (fun v w _ => (Value.same_iff_normal v w).mp) n m
  · intro h
    rw [← hnormal n m, h, hnormal m m, same_refl]

theorem normal_of_bare {n m : Node} (h : n.bare = m.bare) : n.normal = m.normal :=
  (same_iff_normal n m).mp (same_of_bare h)

end Node

/-- Sameness is an equivalence relation, and it does not change with the spans of either tree. All
that it passes over besides is how the values of literals are represented. -/
theorem sameness_is_equivalence_apart_from_spans :
    Equivalence (fun n m : Node => n.same m = true) ∧
      (∀ n n' m m' : Node, n.bare = n'.bare → m.bare = m'.bare → n.same m = n'.same m') ∧
      ∀ n m : Node, n.same m = true ↔ n.normal = m.normal := by
  refine ⟨?_, ?_, Node.same_iff_normal⟩
  · simp only [Node.same_iff_normal]
    exact eq_equivalence.comap Node.normal
  · intro n n' m m' hn hm
    rw [Bool.eq_iff_iff, Node.same_iff_normal, Node.same_iff_normal, Node.normal_of_bare hn,
      Node.normal_of_bare hm]

/-- A truth value and a whole number. -/
def truthAndInteger (s : Span) (k : Int) : Node :=
  .array s [.literal s (.truth true) "" false, .literal s (.number (.integer k)) "" false]

/-- One and the least number after which the doubles leave out whole numbers. -/
def twoDoubles (s : Span) : Node :=
  .array s [.literal s (.number (.double (.finite false (Nat.pow 2 52) (-52)))) "" false,
    .literal s (.number (.double (.finite false (Nat.pow 2 52) 1))) "" false]

/-- The two trees are the same either way round and wherever they stand, but not if the whole number
is greater by one, which no double is worth. -/
theorem twoDoubles_same_anywhere :
    (truthAndInteger {} (2 ^ 53)).bare = (truthAndInteger ⟨3, 1, 7, 9⟩ (2 ^ 53)).bare ∧
      (twoDoubles {}).bare = (twoDoubles ⟨2, 4, 5, 6⟩).bare ∧
      (truthAndInteger {} (2 ^ 53)).same (twoDoubles {}) = true ∧
      (twoDoubles ⟨2, 4, 5, 6⟩).same (truthAndInteger ⟨3, 1, 7, 9⟩ (2 ^ 53)) = true ∧
      (twoDoubles {}).same (truthAndInteger {} (2 ^ 53 + 1)) = false := by
  obtain ⟨hequivalence, hspans, -⟩ := sameness_is_equivalence_apart_from_spans
  have hsame : (truthAndInteger {} (2 ^ 53)).same (twoDoubles {}) = true := by decide
  have hmoved : (twoDoubles {}).same (truthAndInteger {} (2 ^ 53)) =
      (twoDoubles ⟨2, 4, 5, 6⟩).same (truthAndInteger ⟨3, 1, 7, 9⟩ (2 ^ 53)) := hspans _ _ _ _ rfl rfl
  exact ⟨rfl, rfl, hsame, hmoved ▸ hequivalence.symm hsame, by decide⟩

end HanScript
